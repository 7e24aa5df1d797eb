import Hiresperf.BarrierSafety

/-!
# Completeness of a poll under strict synchronisation

When no deadline passes, `smp_poll_pmus` returns once every CPU has been counted
in `done_cpus`. A handler counts itself before it calls `enqueue`, so a sample
may still be on its way when the poll returns and a log pass of the same
operation goes by. The samples are all there when the coordinator does not get
in between.
-/

namespace PollCompleteness

open BarrierSafety CircularWindow Counting CpuSelection LogEntry PollerSample RingBuffer
  StepMachine StrictSync
open InstructedWork (InstructedOp)

variable {cfg : Config} {p : Platform}

/-- No deadline passes. -/
def NoTimeout (_ : SyncState cfg) : SyncAction cfg → Prop
  | .deadline | .handler _ .deadline => False
  | _ => True

instance (s : SyncState cfg) (a : SyncAction cfg) : Decidable (NoTimeout s a) :=
  match a with
  | .deadline => .isFalse id
  | .handler _ .deadline => .isFalse id
  | .begin _ _ _ => .isTrue trivial
  | .advance => .isTrue trivial
  | .allocFails => .isTrue trivial
  | .overwrite _ _ => .isTrue trivial
  | .handler _ .deliver => .isTrue trivial
  | .handler _ .look => .isTrue trivial
  | .handler _ .relax => .isTrue trivial
  | .handler _ (.read _) => .isTrue trivial
  | .handler _ .count => .isTrue trivial
  | .handler _ .publish => .isTrue trivial

/-- Between its increment of `done_cpus` and the end of `enqueue`. -/
def unpublished {flags : LogFlags} : Handler flags → Bool
  | .counted _ _ => true
  | _ => false

/-- The mask is allocated, and the coordinator finds `done_cpus` complete only when no
handler has its `enqueue` still before it. -/
def PublishedFirst (p : Platform) (s : SyncState cfg) : SyncAction cfg → Prop
  | .allocFails => False
  | .advance => s.pc = .awaitDone → nPollingCpus cfg p ≤ s.doneCpus →
    ∀ cpu ∈ pollerRuns cfg p, unpublished (s.handler cpu) = false
  | _ => True

instance (s : SyncState cfg) (a : SyncAction cfg) : Decidable (PublishedFirst p s a) :=
  match a with
  | .allocFails => .isFalse id
  | .advance => inferInstanceAs (Decidable (s.pc = .awaitDone → _ → _))
  | .begin _ _ _ => .isTrue trivial
  | .deadline => .isTrue trivial
  | .overwrite _ _ => .isTrue trivial
  | .handler _ _ => .isTrue trivial

/-- The sample of `cpu` in the current round went through `enqueue`, and `kept` holds of it
unless the ring was full. -/
def SampleKept (s : SyncState cfg) (cpu : Nat) (kept : HrperfLogEntry cfg.log → Prop) : Prop :=
  ∃ e f, s.fate s.round cpu = some (e, f) ∧ e.cpuId = BitVec.ofNat 32 cpu ∧
    e.tick.kts = s.taken s.round ∧ (f = .stored → kept e)

/-- When a poll returns its samples are in the rings, and when a poll-and-log returns they
are in the file. -/
structure PollComplete (p : Platform) (s : SyncState cfg) : Prop where
  polled : s.pc = .pollReturned → ∀ cpu ∈ pollerRuns cfg p,
    SampleKept s cpu (fun e => e ∈ (s.rings cpu).toFifo.items)
  logged : s.pc = .opReturned → s.op = .pollAndLog → ∀ cpu ∈ pollerRuns cfg p,
    SampleKept s cpu (fun e => e ∈ s.file)

/-- No handler runs and none is called. -/
def calm (pc : Pc) : Bool := !pc.polling || preparing pc

/-- `done_cpus` counts the CPUs of the round. -/
def tallying : Pc → Bool
  | .clearReady | .clearStart | .clearDone => false
  | pc => pc.polling

/-- The call for `cpu` in this round is still to come. -/
def Upcoming (cfg : Config) (cpu : Nat) : Pc → Prop
  | .clearReady | .clearStart | .clearDone | .allocMask => True
  | .calling todo => cpu ∈ todo ∨ cpu = cfg.pollerCpu
  | .awaitReady | .spunReady | .setStart | .ownCall => cpu = cfg.pollerCpu
  | _ => False

/-- Before its increment of `done_cpus`. -/
def working {flags : LogFlags} : Handler flags → Bool
  | .waiting _ | .spun _ | .released _ | .sampled _ _ => true
  | .idle | .counted _ _ => false

/-- A poll has returned that the operation is responsible for. -/
def PollOver (op : InstructedOp) : Pc → Prop
  | .pollReturned => True
  | .logging _ | .opReturned => op = .pollAndLog
  | _ => False

/-- Where a sample `e` of `cpu` is after `enqueue` has stored it, given the contents of its
ring and of the file. -/
def Placed (op : InstructedOp) (ring file : List (HrperfLogEntry cfg.log)) (cpu : Nat)
    (e : HrperfLogEntry cfg.log) : Pc → Prop
  | .idle => True
  | .logging todo => op = .pollAndLog → (cpu ∈ todo ∧ e ∈ ring) ∨ (cpu ∉ todo ∧ e ∈ file)
  | .opReturned => op = .pollAndLog → e ∈ file
  | _ => e ∈ ring

structure RoundInv (p : Platform) (s : SyncState cfg) : Prop where
  resting : calm s.pc = true → ∀ cpu, s.queue cpu = [] ∧ s.handler cpu = .idle
  busy : ∀ cpu, s.handler cpu ≠ .idle → s.queue cpu = [] ∧ ¬ Upcoming cfg cpu s.pc
  /-- A CPU that is not through with its round has not been counted. -/
  unfinished : ∀ cpu, Upcoming cfg cpu s.pc ∨ s.queue cpu ≠ [] ∨ working (s.handler cpu) = true →
    s.finished s.round cpu = false ∧ s.fate s.round cpu = none
  sampled : ∀ cpu l e, s.handler cpu = .sampled l e →
    l.round = s.round ∧ e.cpuId = BitVec.ofNat 32 cpu
  counted : ∀ cpu l e, s.handler cpu = .counted l e →
    l.round = s.round ∧ e.cpuId = BitVec.ofNat 32 cpu ∧ s.fate s.round cpu = none
  /-- A CPU that has been counted is about to publish its sample or has done so. -/
  finished : ∀ cpu, s.finished s.round cpu = true →
    unpublished (s.handler cpu) = true ∨ s.fate s.round cpu ≠ none
  tally : tallying s.pc = true →
    s.doneCpus ≤ (pollerRuns cfg p).countP (s.finished s.round)
  fresh : ∀ r cpu, s.round < r → s.finished r cpu = false ∧ s.fate r cpu = none
  completed : PollOver s.op s.pc → ∀ cpu ∈ pollerRuns cfg p, s.fate s.round cpu ≠ none
  stamped : ∀ cpu e f, s.fate s.round cpu = some (e, f) →
    e.cpuId = BitVec.ofNat 32 cpu ∧ e.tick.kts = s.taken s.round
  placed : ∀ cpu ∈ pollerRuns cfg p, ∀ e, s.fate s.round cpu = some (e, .stored) →
    Placed s.op (s.rings cpu).toFifo.items s.file cpu e s.pc
  visits : ∀ todo, s.pc = .logging todo → todo.Nodup

theorem RoundInv.complete {s : SyncState cfg} (h : RoundInv p s) : PollComplete p s := by
  have hkept : ∀ cpu, s.fate s.round cpu ≠ none → ∀ kept : HrperfLogEntry cfg.log → Prop,
      (∀ e, s.fate s.round cpu = some (e, .stored) → kept e) → SampleKept s cpu kept := by
    intro cpu hsome kept hstored
    obtain ⟨⟨e, f⟩, hf⟩ := Option.ne_none_iff_exists'.mp hsome
    obtain ⟨hid, hkts⟩ := h.stamped cpu e f hf
    refine ⟨e, f, hf, hid, hkts, ?_⟩
    rintro rfl
    exact hstored e hf
  constructor
  · intro hpc cpu hcpu
    apply hkept cpu (h.completed (by simp [hpc, PollOver]) cpu hcpu)
    intro e he
    simpa only [hpc, Placed] using h.placed cpu hcpu e he
  · intro hpc hop cpu hcpu
    apply hkept cpu (h.completed (by simp [hpc, hop, PollOver]) cpu hcpu)
    intro e he
    have hplaced := h.placed cpu hcpu e he
    simp only [hpc, Placed] at hplaced
    exact hplaced hop

theorem init_roundInv (hN : 0 < cfg.bufferSize) (cells : Nat → Nat → HrperfLogEntry cfg.log) :
    RoundInv p (syncMachine p hN cells).init := by
  constructor <;> simp [syncMachine, calm, tallying, Upcoming, PollOver, Pc.polling, preparing,
    working]

/-- All is quiet between two operations, and the marks of the new round are clear. -/
theorem beginPoll_roundInv {s : SyncState cfg} (h : RoundInv p s) (hpc : calm s.pc = true)
    (op : InstructedOp) (slot : Nat) (clocks : Clocks) :
    RoundInv p (beginPoll s op slot clocks) := by
  have hrest := h.resting hpc
  have hnew : ∀ cpu, s.finished (s.round + 1) cpu = false ∧ s.fate (s.round + 1) cpu = none :=
    fun cpu => h.fresh _ cpu (Nat.lt_succ_self _)
  constructor <;> simp only [beginPoll]
  case resting => exact fun _ => hrest
  case busy => simp [hrest]
  case unfinished => exact fun cpu _ => hnew cpu
  case sampled => simp [hrest]
  case counted => simp [hrest]
  case finished => simp [hnew]
  case tally => simp [tallying]
  case fresh => exact fun r cpu hr => h.fresh r cpu (by omega)
  case completed => simp [PollOver]
  case stamped => simp [hnew]
  case placed => simp [hnew]
  case visits => simp

/-- A log operation looks after no samples of its own. -/
theorem beginLog_roundInv {s : SyncState cfg} (h : RoundInv p s) (hpc : calm s.pc = true) :
    RoundInv p { s with op := .logOp, pc := .logging (logVisits cfg p) } := by
  have hrest := h.resting hpc
  constructor
  case resting => exact fun _ => hrest
  case busy => simp [hrest]
  case unfinished => simp [Upcoming, hrest, working]
  case sampled => exact h.sampled
  case counted => exact h.counted
  case finished => exact h.finished
  case tally => simp [tallying, Pc.polling]
  case fresh => exact h.fresh
  case completed => simp [PollOver]
  case stamped => exact h.stamped
  case placed => simp [Placed]
  case visits => simp [logVisits_nodup]

section Coordinator

variable {s : SyncState cfg} {pc : Pc} {ready done : Nat} {flag : Bool} {kts : Nat → BitVec 64}
  {readied : Nat → Nat → Bool}

/-- A step of the coordinator that calls nobody and logs nothing. -/
theorem coordinator_roundInv (h : RoundInv p s)
    (hresting : calm pc = true → calm s.pc = true)
    (hupcoming : ∀ cpu, Upcoming cfg cpu pc → Upcoming cfg cpu s.pc)
    (htally : tallying pc = true → done ≤ (pollerRuns cfg p).countP (s.finished s.round))
    (hover : PollOver s.op pc → PollOver s.op s.pc)
    (hplaced : ∀ (ring file : List (HrperfLogEntry cfg.log)) cpu e, cpu ∈ pollerRuns cfg p →
      Placed s.op ring file cpu e s.pc → Placed s.op ring file cpu e pc)
    (hvisits : ∀ todo, pc = .logging todo → todo.Nodup) :
    RoundInv p { s with
      readyCpus := ready, startFlag := flag, doneCpus := done, kts := kts, pc := pc,
      readied := readied } := by
  constructor
  case resting => exact fun hp => h.resting (hresting hp)
  case busy => exact fun cpu hb => ⟨(h.busy cpu hb).1, fun hu => (h.busy cpu hb).2 (hupcoming cpu hu)⟩
  case unfinished => exact fun cpu hc => h.unfinished cpu (hc.imp_left (hupcoming cpu))
  case sampled => exact h.sampled
  case counted => exact h.counted
  case finished => exact h.finished
  case tally => exact htally
  case fresh => exact h.fresh
  case completed => exact fun hp => h.completed (hover hp)
  case stamped => exact h.stamped
  case placed => exact fun cpu hcpu e he => hplaced _ _ cpu e hcpu (h.placed cpu hcpu e he)
  case visits => exact hvisits

theorem polling_of_tallying (h : tallying pc = true) : pc.polling = true := by
  cases pc <;> first | rfl | simp [tallying, Pc.polling] at h

/-- During a poll the samples of a round are in the rings. -/
theorem placed_of_polling {op : InstructedOp} {ring file : List (HrperfLogEntry cfg.log)} {cpu : Nat}
    {e : HrperfLogEntry cfg.log} (h : pc.polling = true) : Placed op ring file cpu e pc ↔ e ∈ ring := by
  cases pc <;> first | rfl | simp [Pc.polling] at h

theorem not_pollOver_of_polling {op : InstructedOp} (h : pc.polling = true) : ¬ PollOver op pc := by
  cases pc <;> simp_all [PollOver, Pc.polling]

/-- A step within the poll that leaves `done_cpus` alone. -/
theorem polling_roundInv (h : RoundInv p s) (hold : tallying s.pc = true) (hnew : pc.polling = true)
    (hresting : calm pc = true → calm s.pc = true)
    (hupcoming : ∀ cpu, Upcoming cfg cpu pc → Upcoming cfg cpu s.pc) :
    RoundInv p { s with
      readyCpus := ready, startFlag := flag, kts := kts, pc := pc, readied := readied } := by
  refine coordinator_roundInv h hresting hupcoming (fun _ => h.tally hold) ?_ ?_ ?_
  · intro hover
    exact absurd hover (not_pollOver_of_polling hnew)
  · intro ring file cpu e _ hplaced
    rw [placed_of_polling (polling_of_tallying hold)] at hplaced
    rwa [placed_of_polling hnew]
  · rintro todo rfl
    cases hnew

/-- The call for one CPU goes out; the CPU is not through with its round. -/
theorem calling_roundInv (h : RoundInv p s) {cpu : Nat} {rest : List Nat}
    (hpc : s.pc = .calling (cpu :: rest)) :
    RoundInv p { s with
      queue := Function.update s.queue cpu (s.queue cpu ++ [⟨s.round, s.data⟩])
      pc := .calling rest } := by
  have hcpu := h.unfinished cpu (Or.inl (by simp [hpc, Upcoming]))
  constructor
  case resting => simp [calm, Pc.polling, preparing]
  case busy =>
    intro c hc
    obtain ⟨hq, hup⟩ := h.busy c hc
    simp only [hpc, Upcoming, List.mem_cons, not_or] at hup
    exact ⟨by simpa [hup] using hq, by simp [Upcoming, hup]⟩
  case unfinished =>
    intro c hc
    by_cases hcc : c = cpu
    · exact hcc ▸ hcpu
    · apply h.unfinished c
      rw [hpc]
      rcases hc with hup | hqueue | hwork
      · exact Or.inl (hup.imp_left (List.mem_cons_of_mem cpu))
      · exact Or.inr (Or.inl (by simpa [hcc] using hqueue))
      · exact Or.inr (Or.inr hwork)
  case sampled => exact h.sampled
  case counted => exact h.counted
  case finished => exact h.finished
  case tally => exact fun _ => h.tally (by simp [hpc, tallying, Pc.polling])
  case fresh => exact h.fresh
  case completed => simp [PollOver]
  case stamped => exact h.stamped
  case placed =>
    intro c hc e he
    simpa only [hpc, Placed] using h.placed c hc e he
  case visits => simp

theorem ownCall_roundInv (hb : BarrierInv p s) (h : RoundInv p s) (hpc : s.pc = .ownCall) :
    RoundInv p { enterHandler s cfg.pollerCpu ⟨s.round, s.data⟩ with pc := .ownHandler } := by
  have hpoller := h.unfinished cfg.pollerCpu (Or.inl (by simp [hpc, Upcoming]))
  constructor <;> simp only [enterHandler, SyncState.setHandler, Function.update_apply]
  case resting => simp [calm, Pc.polling, preparing]
  case busy =>
    intro c hc
    refine ⟨?_, by simp [Upcoming]⟩
    by_cases hcc : c = cfg.pollerCpu
    · exact hcc ▸ queue_poller hb.handlers
    · exact (h.busy c (by simpa [hcc] using hc)).1
  case unfinished =>
    intro c hc
    by_cases hcc : c = cfg.pollerCpu
    · exact hcc ▸ hpoller
    · apply h.unfinished c
      simpa [Upcoming, hcc, hpc] using hc
  case sampled =>
    intro c l e hc
    split_ifs at hc
    exact h.sampled c l e hc
  case counted =>
    intro c l e hc
    split_ifs at hc
    exact h.counted c l e hc
  case finished =>
    intro c hc
    have hne : c ≠ cfg.pollerCpu := by
      rintro rfl
      simp [hpoller] at hc
    simpa [hne] using h.finished c hc
  case tally => exact fun _ => h.tally (by simp [hpc, tallying, Pc.polling])
  case fresh => exact h.fresh
  case completed => simp [PollOver]
  case stamped => exact h.stamped
  case placed =>
    intro c hc e he
    simpa only [hpc, Placed] using h.placed c hc e he
  case visits => simp

/-- The wait for `done_cpus` ends: every CPU has been counted, and if none of them has its
`enqueue` still before it, every sample has been published. -/
theorem awaitDone_roundInv (hb : BarrierInv p s) (h : RoundInv p s)
    (hcfg : (pollerRuns cfg p).length ≤ nPollingCpus cfg p) (hpc : s.pc = .awaitDone)
    (hdone : nPollingCpus cfg p ≤ s.doneCpus)
    (hpublished : ∀ cpu ∈ pollerRuns cfg p, unpublished (s.handler cpu) = false) :
    RoundInv p { s with pc := .pollReturned } := by
  have hall : AllMarked cfg p (s.finished s.round) := by
    have htally := h.tally (by simp [hpc, tallying, Pc.polling])
    exact allMarked_of_count hcfg (by omega)
  have hfate : ∀ cpu ∈ pollerRuns cfg p, s.fate s.round cpu ≠ none := by
    intro cpu hcpu
    have hfin := h.finished cpu (hall cpu hcpu)
    simpa [hpublished cpu hcpu] using hfin
  have hidle : ∀ cpu, s.queue cpu = [] ∧ s.handler cpu = .idle := by
    intro cpu
    by_cases hcpu : cpu ∈ pollerRuns cfg p
    · have hnot := mt (h.unfinished cpu) (fun hu => hfate cpu hcpu hu.2)
      simp only [not_or, Classical.not_not, Bool.not_eq_true] at hnot
      refine ⟨hnot.2.1, ?_⟩
      have hpub := hpublished cpu hcpu
      cases hh : s.handler cpu with
      | idle => rfl
      | waiting | spun | released | sampled => simp [hh, working] at hnot
      | counted => simp [hh, unpublished] at hpub
    · exact hb.handlers.outside cpu hcpu
  constructor
  case resting => exact fun _ => hidle
  case busy => simp [hidle]
  case unfinished =>
    intro cpu hc
    simp [Upcoming, hidle, working] at hc
  case sampled => exact h.sampled
  case counted => exact h.counted
  case finished => exact h.finished
  case tally => simp [tallying, Pc.polling]
  case fresh => exact h.fresh
  case completed => exact fun _ => hfate
  case stamped => exact h.stamped
  case placed =>
    intro c hc e he
    simpa only [hpc, Placed] using h.placed c hc e he
  case visits => simp

/-- One ring of the log pass: its samples move to the file. -/
theorem logNext_roundInv (h : RoundInv p s) {cpu : Nat} {rest : List Nat}
    (hpc : s.pc = .logging (cpu :: rest)) : RoundInv p (logNext s cpu rest) := by
  obtain ⟨hfirst, hrest⟩ := List.nodup_cons.mp (h.visits _ hpc)
  have hfile : (logNext s cpu rest).file = s.file ++ (s.rings cpu).toFifo.items := by
    simp [logNext, Ring.logAndClear_file]
  constructor
  case resting => exact fun _ => h.resting (by simp [hpc, calm, Pc.polling])
  case busy => exact fun c hc => ⟨(h.busy c hc).1, by simp [logNext, Upcoming]⟩
  case unfinished =>
    intro c hc
    exact h.unfinished c (by simpa [hpc, Upcoming, logNext] using hc)
  case sampled => exact h.sampled
  case counted => exact h.counted
  case finished => exact h.finished
  case tally => simp [logNext, tallying, Pc.polling]
  case fresh => exact h.fresh
  case completed =>
    intro ho
    exact h.completed (by simpa [hpc, PollOver, logNext] using ho)
  case stamped => exact h.stamped
  case placed =>
    intro c hc e he hop
    have hold := h.placed c hc e he
    simp only [hpc, Placed] at hold
    rw [hfile]
    rcases hold hop with ⟨hmem, hring⟩ | ⟨hnot, hin⟩
    · by_cases hcc : c = cpu
      · subst hcc
        exact Or.inr ⟨hfirst, List.mem_append_right _ hring⟩
      · have hmem' : c ∈ rest := by simpa [hcc] using hmem
        exact Or.inl ⟨hmem', by simpa [logNext, hcc] using hring⟩
    · exact Or.inr ⟨fun hin' => hnot (List.mem_cons_of_mem cpu hin'),
        List.mem_append_left _ hin⟩
  case visits =>
    intro todo htodo
    obtain rfl : rest = todo := by simpa [logNext] using htodo
    exact hrest

end Coordinator

theorem advance_roundInv {s t : SyncState cfg} (hb : BarrierInv p s) (h : RoundInv p s)
    (hcore : cfg.pollPollerCore = true → hrpSelectedCpus cfg p cfg.pollerCpu = true)
    (hok : PublishedFirst p s .advance) (hstep : advance p s = some t) : RoundInv p t := by
  cases hpc : s.pc with
  | idle => simp [advance, hpc] at hstep
  | clearReady | clearStart | clearDone =>
    simp only [advance, hpc] at hstep
    obtain rfl := Option.some.inj hstep
    apply coordinator_roundInv h <;>
      simp [hpc, calm, Pc.polling, preparing, tallying, Upcoming, PollOver, Placed]
  | allocMask | spunReady | spunDone =>
    simp only [advance, hpc] at hstep
    obtain rfl := Option.some.inj hstep
    apply polling_roundInv h <;>
      simp [hpc, calm, Pc.polling, preparing, tallying, Upcoming]
  | calling todo =>
    cases todo with
    | nil =>
      simp only [advance, hpc] at hstep
      split_ifs at hstep
      · obtain rfl := Option.some.inj hstep
        apply polling_roundInv h <;>
          simp [hpc, calm, Pc.polling, preparing, tallying, Upcoming]
      · obtain rfl := Option.some.inj hstep
        apply polling_roundInv h <;>
          simp [hpc, calm, Pc.polling, preparing, tallying, Upcoming]
    | cons cpu rest =>
      simp only [advance, hpc] at hstep
      exact Option.some.inj hstep ▸ calling_roundInv h hpc
  | awaitReady | setStart =>
    simp only [advance, hpc] at hstep
    obtain rfl := Option.some.inj hstep
    have hold : tallying s.pc = true := by simp [hpc, tallying, Pc.polling]
    apply polling_roundInv h hold <;> split_ifs <;>
      simp [hpc, calm, Pc.polling, preparing, Upcoming]
  | ownCall =>
    simp only [advance, hpc] at hstep
    exact Option.some.inj hstep ▸ ownCall_roundInv hb h hpc
  | ownHandler =>
    simp only [advance, hpc] at hstep
    split_ifs at hstep
    obtain rfl := Option.some.inj hstep
    apply polling_roundInv h <;>
      simp [hpc, calm, Pc.polling, preparing, tallying, Upcoming]
  | awaitDone =>
    simp only [advance, hpc] at hstep
    split_ifs at hstep with hlow
    · obtain rfl := Option.some.inj hstep
      apply polling_roundInv h <;>
        simp [hpc, calm, Pc.polling, preparing, tallying, Upcoming]
    · have hdone : nPollingCpus cfg p ≤ s.doneCpus := by omega
      exact Option.some.inj hstep ▸
        awaitDone_roundInv hb h (pollerRuns_length_le hcore) hpc hdone (hok hpc hdone)
  | pollReturned =>
    simp only [advance, hpc] at hstep
    split_ifs at hstep with hop
    · obtain rfl := Option.some.inj hstep
      refine coordinator_roundInv h ?_ ?_ ?_ ?_ (fun ring file cpu e hcpu hring _ => ?_) ?_
      · simp [hpc, calm, Pc.polling]
      · simp [Upcoming]
      · simp [tallying, Pc.polling]
      · simp [hpc, PollOver]
      · rw [hpc] at hring
        exact Or.inl ⟨pollerRuns_subset_logVisits hcore hcpu, hring⟩
      · simp [logVisits_nodup]
    · obtain rfl := Option.some.inj hstep
      apply coordinator_roundInv h <;>
        simp [hpc, calm, Pc.polling, preparing, tallying, Upcoming, PollOver, Placed, hop]
  | logging todo =>
    cases todo with
    | nil =>
      simp only [advance, hpc] at hstep
      obtain rfl := Option.some.inj hstep
      apply coordinator_roundInv h <;>
        simp [hpc, calm, Pc.polling, preparing, tallying, Upcoming, PollOver, Placed]
    | cons cpu rest =>
      simp only [advance, hpc] at hstep
      exact Option.some.inj hstep ▸ logNext_roundInv h hpc
  | opReturned => simp [advance, hpc] at hstep

/-- A handler runs only while a poll is past its preparations. -/
theorem not_calm_of_busy {s : SyncState cfg} (h : RoundInv p s) (cpu : Nat)
    (hbusy : s.queue cpu ≠ [] ∨ s.handler cpu ≠ .idle) : calm s.pc = false := by
  by_contra hc
  obtain ⟨hq, hh⟩ := h.resting (by simpa using hc) cpu
  simp [hq, hh] at hbusy

theorem calm_spec {pc : Pc} (h : calm pc = false) :
    (∀ op, ¬ PollOver op pc) ∧ (∀ todo, pc ≠ .logging todo) ∧
    ∀ op (ring file : List (HrperfLogEntry cfg.log)) cpu e,
      Placed op ring file cpu e pc ↔ e ∈ ring := by
  cases pc <;> simp_all [calm, Pc.polling, preparing, PollOver, Placed]

/-- A step of a handler on its way to the increment of `done_cpus`, or its beginning. -/
theorem working_roundInv {s : SyncState cfg} (h : RoundInv p s) {cpu : Nat}
    {new : Handler cfg.log} {queue : Nat → List Launch} {ready : Nat}
    {readied : Nat → Nat → Bool}
    (hbusy : s.queue cpu ≠ [] ∨ working (s.handler cpu) = true)
    (hnew : working new = true) (hupcoming : ¬ Upcoming cfg cpu s.pc)
    (hempty : queue cpu = []) (hqueue : ∀ c, c ≠ cpu → queue c = s.queue c)
    (hsampled : ∀ l e, new = .sampled l e → l.round = s.round ∧ e.cpuId = BitVec.ofNat 32 cpu) :
    RoundInv p { s.setHandler cpu new with
      queue := queue, readyCpus := ready, readied := readied } := by
  have hcpu := h.unfinished cpu (Or.inr hbusy)
  have hcalm : calm s.pc = false := by
    apply not_calm_of_busy h cpu
    refine hbusy.imp_right (fun hw he => ?_)
    simp [he, working] at hw
  constructor <;> simp only [SyncState.setHandler, Function.update_apply]
  case resting => simp [hcalm]
  case busy =>
    intro c hc
    by_cases hcc : c = cpu
    · exact hcc ▸ ⟨hempty, hupcoming⟩
    · rw [hqueue c hcc]
      exact h.busy c (by simpa [hcc] using hc)
  case unfinished =>
    intro c hc
    by_cases hcc : c = cpu
    · exact hcc ▸ hcpu
    · apply h.unfinished c
      simpa [hcc, hqueue c hcc] using hc
  case sampled =>
    intro c l e hc
    split_ifs at hc with hcc
    · exact hcc ▸ hsampled l e hc
    · exact h.sampled c l e hc
  case counted =>
    intro c l e hc
    split_ifs at hc with hcc
    · simp [hc, working] at hnew
    · exact h.counted c l e hc
  case finished =>
    intro c hc
    have hne : c ≠ cpu := by
      rintro rfl
      simp [hcpu] at hc
    simpa [hne] using h.finished c hc
  case tally => exact h.tally
  case fresh => exact h.fresh
  case completed => exact h.completed
  case stamped => exact h.stamped
  case placed => exact h.placed
  case visits => exact h.visits

/-- The increment of `done_cpus`: one more CPU of the round is counted. -/
theorem count_roundInv {s : SyncState cfg} (hb : BarrierInv p s) (h : RoundInv p s) {cpu : Nat}
    {l : Launch} {e : HrperfLogEntry cfg.log} (hsampled : s.handler cpu = .sampled l e) :
    RoundInv p { s.setHandler cpu (.counted l e) with
      doneCpus := s.doneCpus + 1
      finished := mark s.finished s.round cpu } := by
  obtain ⟨hunmarked, hnofate⟩ := h.unfinished cpu (Or.inr (Or.inr (by simp [hsampled, working])))
  have hidle : s.handler cpu ≠ .idle := by simp [hsampled]
  have hcalm : calm s.pc = false := not_calm_of_busy h cpu (Or.inr hidle)
  obtain ⟨hempty, hupcoming⟩ := h.busy cpu hidle
  have hmem : cpu ∈ pollerRuns cfg p := by
    by_contra hout
    simp [(hb.handlers.outside cpu hout).2] at hsampled
  constructor <;> simp only [SyncState.setHandler, Function.update_apply]
  case resting => simp [hcalm]
  case busy =>
    intro c hc
    by_cases hcc : c = cpu
    · exact hcc ▸ ⟨hempty, hupcoming⟩
    · exact h.busy c (by simpa [hcc] using hc)
  case unfinished =>
    intro c hc
    by_cases hcc : c = cpu
    · simp [hcc, hempty, hupcoming, working] at hc
    · simpa [mark, hcc] using h.unfinished c (by simpa [hcc] using hc)
  case sampled =>
    intro c l' e' hc
    split_ifs at hc
    exact h.sampled c l' e' hc
  case counted =>
    intro c l' e' hc
    split_ifs at hc with hcc
    · obtain ⟨rfl, rfl⟩ := Handler.counted.inj hc
      obtain ⟨hround, hid⟩ := h.sampled cpu l e hsampled
      exact hcc ▸ ⟨hround, hid, hnofate⟩
    · exact h.counted c l' e' hc
  case finished =>
    intro c hc
    by_cases hcc : c = cpu
    · simp [hcc, unpublished]
    · simpa [hcc] using h.finished c (by simpa [mark, hcc] using hc)
  case tally =>
    intro ht
    have htally := h.tally ht
    rw [mark_round, countP_mark pollerRuns_nodup hmem hunmarked]
    omega
  case fresh =>
    exact fun r c hr => ⟨mark_of_lt (fun r' c' hr' => (h.fresh r' c' hr').1) r c hr,
      (h.fresh r c hr).2⟩
  case completed => exact h.completed
  case stamped => exact h.stamped
  case placed => exact h.placed
  case visits => exact h.visits

/-- The end of `enqueue`: the sample is in the ring unless that was full. -/
theorem publish_roundInv {s : SyncState cfg} (hb : BarrierInv p s) (h : RoundInv p s) {cpu : Nat}
    {l : Launch} {e : HrperfLogEntry cfg.log} {f : Fate} (hcounted : s.handler cpu = .counted l e)
    (hf : f = .stored → isFull cfg.bufferSize (s.rings cpu).toHrperfRingBuffer = false) :
    RoundInv p { s.setHandler cpu .idle with
      rings := Function.update s.rings cpu ((s.rings cpu).enqueue e)
      fate := Function.update s.fate l.round
        (Function.update (s.fate l.round) cpu (some (e, f))) } := by
  obtain ⟨hround, hid, hnofate⟩ := h.counted cpu l e hcounted
  have hidle : s.handler cpu ≠ .idle := by simp [hcounted]
  have hcalm : calm s.pc = false := not_calm_of_busy h cpu (Or.inr hidle)
  obtain ⟨hnotover, hnotlogging, hplaced⟩ := @calm_spec cfg _ hcalm
  obtain ⟨hempty, hupcoming⟩ := h.busy cpu hidle
  have hkts : e.tick.kts = s.taken s.round := by
    have hsafe := hb.handlers.safe cpu
    rw [hcounted] at hsafe
    exact hround ▸ hsafe.2
  constructor <;> simp only [SyncState.setHandler, hround, Function.update_apply, if_true]
  case resting => simp [hcalm]
  case busy =>
    intro c hc
    by_cases hcc : c = cpu
    · simp [hcc] at hc
    · exact h.busy c (by simpa [hcc] using hc)
  case unfinished =>
    intro c hc
    by_cases hcc : c = cpu
    · simp [hcc, hempty, hupcoming, working] at hc
    · simpa [hcc] using h.unfinished c (by simpa [hcc] using hc)
  case sampled =>
    intro c l' e' hc
    split_ifs at hc
    exact h.sampled c l' e' hc
  case counted =>
    intro c l' e' hc
    split_ifs at hc with hcc
    simpa [hcc] using h.counted c l' e' hc
  case finished =>
    intro c hc
    by_cases hcc : c = cpu
    · simp [hcc]
    · simpa [hcc] using h.finished c hc
  case tally => exact h.tally
  case fresh =>
    intro r c hr
    have hne : r ≠ s.round := by omega
    simpa [hne] using h.fresh r c hr
  case completed => exact fun ho => absurd ho (hnotover _)
  case stamped =>
    intro c e' f' hc
    split_ifs at hc with hcc
    · obtain ⟨rfl, -⟩ := Prod.mk.inj (Option.some.inj hc)
      exact hcc ▸ ⟨hid, hkts⟩
    · exact h.stamped c e' f' hc
  case placed =>
    intro c hmem e' hc
    rw [hplaced]
    split_ifs at hc ⊢ with hcc
    · obtain ⟨rfl, rfl⟩ := Prod.mk.inj (Option.some.inj hc)
      rw [Ring.toFifo_enqueue]
      apply BoundedFifo.mem_push_self
      intro hfull
      have := (Ring.isFull_iff _).mpr hfull
      simp [hf rfl] at this
    · exact (hplaced _ _ _ _ _).mp (h.placed c hmem e' hc)
  case visits => exact fun todo hpc => absurd hpc (hnotlogging todo)

/-- A CPU that has been called is not called again in the round. -/
theorem not_upcoming_of_queued {s : SyncState cfg} (hb : BarrierInv p s) (h : RoundInv p s)
    {cpu : Nat} (hqueued : s.queue cpu ≠ []) : ¬ Upcoming cfg cpu s.pc := by
  obtain ⟨l, rest, hqueue⟩ := List.exists_cons_of_ne_nil hqueued
  obtain ⟨-, hcalled, -⟩ := hb.handlers.queued cpu l rest hqueue
  have hne : cpu ≠ cfg.pollerCpu := fun he => not_mem_calledCpus_poller (he ▸ hcalled)
  have hcalm : calm s.pc = false := not_calm_of_busy h cpu (Or.inl hqueued)
  cases hpc : s.pc with
  | clearReady | clearStart | clearDone | allocMask => simp [hpc, calm, preparing] at hcalm
  | calling todo =>
    rintro (htodo | hpoller)
    · exact hqueued ((hb.coordinator.calling todo hpc).2.2 cpu htodo).2.1
    · exact hne hpoller
  | awaitReady | spunReady | setStart | ownCall => exact hne
  | idle | ownHandler | awaitDone | spunDone | pollReturned | logging | opReturned => exact id

theorem handlerStep_roundInv {s t : SyncState cfg} (hb : BarrierInv p s) (h : RoundInv p s)
    {cpu : Nat} {a : HandlerAction cfg.log} (hok : NoTimeout s (.handler cpu a))
    (hstep : handlerStep s cpu a = some t) : RoundInv p t := by
  have hbusy := h.busy cpu
  cases handlerStep_move hstep with
  | @deliver l rest hqueue _ =>
    obtain ⟨rfl, -⟩ := hb.handlers.queued cpu l rest hqueue
    have hqueued : s.queue cpu ≠ [] := by simp [hqueue]
    exact working_roundInv h (Or.inl hqueued) rfl (not_upcoming_of_queued hb h hqueued)
      (by simp) (fun c hc => by simp [hc]) (by simp)
  | look hwait =>
    obtain ⟨hempty, hupcoming⟩ := hbusy (by simp [hwait])
    refine working_roundInv h (Or.inr (by simp [hwait, working])) ?_ hupcoming hempty
      (fun _ _ => rfl) ?_
    · split_ifs <;> rfl
    · split_ifs <;> simp
  | relax hspun =>
    obtain ⟨hempty, hupcoming⟩ := hbusy (by simp [hspun])
    exact working_roundInv h (Or.inr (by simp [hspun, working])) rfl hupcoming hempty
      (fun _ _ => rfl) (by simp)
  | deadline => exact hok.elim
  | @read l readings hrel =>
    obtain ⟨hempty, hupcoming⟩ := hbusy (by simp [hrel])
    have hl : l = ⟨s.round, s.data⟩ := hb.handlers.current cpu l (by simp [hrel, unread])
    refine working_roundInv h (Or.inr (by simp [hrel, working])) rfl hupcoming hempty
      (fun _ _ => rfl) ?_
    rintro l' e he
    obtain ⟨rfl, rfl⟩ := Handler.sampled.inj he
    exact ⟨by rw [hl], rfl⟩
  | count hsampled => exact count_roundInv hb h hsampled
  | publish hcounted =>
    apply publish_roundInv hb h hcounted
    split_ifs with hfull
    · simp
    · simpa using hfull

/-- Nothing is left over when an operation begins, so the handlers have settled. -/
theorem settledFirst_of_roundInv {hN : 0 < cfg.bufferSize}
    {cells : Nat → Nat → HrperfLogEntry cfg.log} {s t : SyncState cfg} {a : SyncAction cfg}
    (hb : BarrierInv p s) (h : RoundInv p s)
    (hstep : (syncMachine p hN cells).step s a = some t) : SettledFirst p s a := by
  cases a with
  | begin op slot clocks =>
    simp only [syncMachine] at hstep
    split_ifs at hstep with hpc
    have hcalm : calm s.pc = true := by
      rcases hpc with hpc | hpc <;> simp [hpc, calm, Pc.polling]
    intro _ cpu _
    simp [h.resting hcalm cpu, unread]
  | overwrite slot v =>
    simp only [syncMachine] at hstep
    split_ifs at hstep with hfree
    intro cpu _ l hl
    have hcalm : calm s.pc = false := by
      by_contra hc
      simp [h.resting (by simpa using hc) cpu, unread] at hl
    have hpolling : s.pc.polling = true := by
      by_contra hp
      simp [calm, hp] at hcalm
    rw [hb.handlers.current cpu l hl]
    exact fun he => hfree ⟨hpolling, he.symm⟩
  | advance | allocFails | deadline | handler => trivial

theorem step_roundInv {hN : 0 < cfg.bufferSize} {cells : Nat → Nat → HrperfLogEntry cfg.log}
    {s t : SyncState cfg} {a : SyncAction cfg} (hb : BarrierInv p s) (h : RoundInv p s)
    (hcore : cfg.pollPollerCore = true → hrpSelectedCpus cfg p cfg.pollerCpu = true)
    (hno : NoTimeout s a) (hok : PublishedFirst p s a)
    (hstep : (syncMachine p hN cells).step s a = some t) : RoundInv p t := by
  cases a with
  | begin op slot clocks =>
    simp only [syncMachine] at hstep
    split_ifs at hstep with hpc
    have hcalm : calm s.pc = true := by
      rcases hpc with hpc | hpc <;> simp [hpc, calm, Pc.polling]
    cases op with
    | logOp => exact Option.some.inj hstep ▸ beginLog_roundInv h hcalm
    | pollOp => exact Option.some.inj hstep ▸ beginPoll_roundInv h hcalm _ _ _
    | pollAndLog => exact Option.some.inj hstep ▸ beginPoll_roundInv h hcalm _ _ _
  | advance => exact advance_roundInv hb h hcore hok hstep
  | allocFails => exact hok.elim
  | deadline => exact hno.elim
  | overwrite slot v =>
    simp only [syncMachine] at hstep
    split_ifs at hstep
    obtain rfl := Option.some.inj hstep
    exact coordinator_roundInv h id (fun _ => id) h.tally id (fun _ _ _ _ _ => id) h.visits
  | handler cpu a => exact handlerStep_roundInv hb h hno hstep

/-- In every run without timeouts in which no handler has its `enqueue` before it when the
coordinator finds `done_cpus` complete, every poll is complete when it returns. -/
theorem poll_complete_of_published {hN : 0 < cfg.bufferSize}
    {cells : Nat → Nat → HrperfLogEntry cfg.log}
    (hcore : cfg.pollPollerCore = true → hrpSelectedCpus cfg p cfg.pollerCpu = true)
    {s : SyncState cfg}
    (h : Reaches (syncMachine p hN cells) (fun s a => NoTimeout s a ∧ PublishedFirst p s a) s) :
    PollComplete p s := by
  have hinv : BarrierInv p s ∧ RoundInv p s := by
    refine h.invariant (I := fun s => BarrierInv p s ∧ RoundInv p s)
      ⟨init_barrierInv hN cells, init_roundInv hN cells⟩ ?_
    rintro s a t ⟨hb, hr⟩ ⟨hno, hok⟩ hstep
    have hsettled := settledFirst_of_roundInv hb hr hstep
    exact ⟨step_barrierInv hb (pollerRuns_length_le hcore) hsettled hstep,
      step_roundInv hb hr hcore hno hok hstep⟩
  exact hinv.2.complete

/-- A poll-and-log in which both handlers have been counted. -/
def countedRound : List (SyncAction strictConfig) :=
  [[.begin .pollAndLog 0 ⟨7, 0, 0⟩], advances 6, onCpu 0 [.deliver], onCpu 2 [.deliver],
    advances 3, onCpu 0 [.look, .read strictReadings, .count],
    onCpu 2 [.look, .read strictReadings, .count]].flatten

/-- CPU 2 has yet to enqueue its sample when the poll returns, and the log pass finds its
ring empty. -/
def overtakenTrace : List (SyncAction strictConfig) :=
  [countedRound, onCpu 0 [.publish], advances 5].flatten

theorem sample_overtaken_by_log :
    ¬ ∀ s, Reaches strictMachine NoTimeout s → PollComplete fourCpus s := by
  intro hall
  obtain ⟨s, hs, hp⟩ := reaches_of_run (m := strictMachine) NoTimeout
    (p := fun s => s.pc = .opReturned ∧ s.op = .pollAndLog ∧ s.round = 1 ∧ s.fate 1 2 = none ∧
      s.file = [sample strictConfig 0 7 strictReadings])
    overtakenTrace (by decide +kernel)
  obtain ⟨hpc, hop, hround, hfate, -⟩ := of_decide_eq_true hp
  obtain ⟨e, f, hsome, -⟩ := (hall s hs).logged hpc hop 2 (by decide)
  rw [hround, hfate] at hsome
  cases hsome

/-- Both samples are in their rings before the poll returns. -/
def completeTrace : List (SyncAction strictConfig) :=
  [countedRound, onCpu 0 [.publish], onCpu 2 [.publish], advances 5].flatten

theorem samples_logged : ∃ s, Reaches strictMachine
      (fun s a => NoTimeout s a ∧ PublishedFirst fourCpus s a) s ∧
    (s.pc = .opReturned ∧ s.op = .pollAndLog) ∧ PollComplete fourCpus s := by
  obtain ⟨s, hs, hp⟩ := reaches_of_run (m := strictMachine)
    (fun s a => NoTimeout s a ∧ PublishedFirst fourCpus s a)
    (p := fun s => s.pc = .opReturned ∧ s.op = .pollAndLog) completeTrace (by decide +kernel)
  exact ⟨s, hs, of_decide_eq_true hp, poll_complete_of_published (by decide) hs⟩

end PollCompleteness
