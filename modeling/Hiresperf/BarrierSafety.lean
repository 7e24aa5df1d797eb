import Hiresperf.Foundation.Counting
import Hiresperf.StrictSync

/-!
# Safety of the strict-sync barrier

A handler that leaves its wait loop because `start_flag` is set should find that
all CPUs of its round are ready, and should stamp its entry with the timestamp of
its round. The counters and the flag are reset at the beginning of each round,
whatever the handlers of earlier rounds are doing, so this needs the handlers of
a round to be through with both before the next round begins.
-/

namespace BarrierSafety

open Counting CpuSelection LogEntry PollerSample RingBuffer StepMachine StrictSync
open InstructedWork (InstructedOp)

variable {cfg : Config} {p : Platform}

/-- Every CPU that takes part has its mark. -/
def AllMarked (cfg : Config) (p : Platform) (marks : Nat → Bool) : Prop :=
  ∀ cpu ∈ pollerRuns cfg p, marks cpu = true

/-- What the barrier promises about a handler that has seen `start_flag` set: all CPUs of
its round were ready, and the entry has the timestamp of the round. -/
def HandlerSafe (p : Platform) (readied : Nat → Nat → Bool) (taken : Nat → BitVec 64) :
    Handler cfg.log → Prop
  | .released l => AllMarked cfg p (readied l.round)
  | .sampled l e | .counted l e =>
    AllMarked cfg p (readied l.round) ∧ e.tick.kts = taken l.round
  | .idle | .waiting _ | .spun _ => True

def BarrierSafe (p : Platform) (s : SyncState cfg) : Prop :=
  ∀ cpu, HandlerSafe p s.readied s.taken (s.handler cpu)

/-- The call of a handler that has yet to look at the flag or to read its timestamp. -/
def unread {flags : LogFlags} : Handler flags → Option Launch
  | .waiting l | .spun l | .released l => some l
  | .idle | .sampled _ _ | .counted _ _ => none

/-- The calls on one CPU that are not settled. -/
def pending {flags : LogFlags} (queue : List Launch) (h : Handler flags) : List Launch :=
  (unread h).toList ++ queue

/-- A poll begins, and a stack slot is used again, only when no handler is left that could
be confused by it. -/
def SettledFirst (p : Platform) (s : SyncState cfg) : SyncAction cfg → Prop
  | .begin op _ _ => op ≠ .logOp →
    ∀ cpu ∈ pollerRuns cfg p, pending (s.queue cpu) (s.handler cpu) = []
  | .overwrite slot _ =>
    ∀ cpu ∈ pollerRuns cfg p, ∀ l ∈ pending (s.queue cpu) (s.handler cpu), l.data ≠ slot
  | _ => True

instance (s : SyncState cfg) (a : SyncAction cfg) : Decidable (SettledFirst p s a) :=
  match a with
  | .begin op _ _ => inferInstanceAs (Decidable (op ≠ .logOp → _))
  | .overwrite slot _ => inferInstanceAs (Decidable
      (∀ cpu ∈ pollerRuns cfg p, ∀ l ∈ pending (s.queue cpu) (s.handler cpu), l.data ≠ slot))
  | .advance => .isTrue trivial
  | .allocFails => .isTrue trivial
  | .deadline => .isTrue trivial
  | .handler _ _ => .isTrue trivial

/-- The counters are being reset; nobody has been called. -/
def preparing : Pc → Bool
  | .clearReady | .clearStart | .clearDone | .allocMask => true
  | _ => false

/-- `ready_cpus` counts the CPUs of the round. -/
def gathering : Pc → Bool
  | .clearStart | .clearDone | .allocMask | .calling _ | .awaitReady | .spunReady => true
  | _ => false

/-- The part of the invariant that the steps of the coordinator leave alone. -/
structure HandlersInv (p : Platform) (s : SyncState cfg) : Prop where
  outside : ∀ cpu, cpu ∉ pollerRuns cfg p → s.queue cpu = [] ∧ s.handler cpu = .idle
  /-- Only calls of the current round are unsettled. -/
  current : ∀ cpu, ∀ l ∈ pending (s.queue cpu) (s.handler cpu), l = ⟨s.round, s.data⟩
  queued : ∀ cpu l rest, s.queue cpu = l :: rest →
    rest = [] ∧ cpu ∈ calledCpus cfg p ∧ s.readied s.round cpu = false
  fresh : ∀ r cpu, s.round < r → s.readied r cpu = false
  safe : BarrierSafe p s
  past : ∀ cpu l e, s.handler cpu = .sampled l e ∨ s.handler cpu = .counted l e →
    l.round ≤ s.round

/-- The part that depends on where the coordinator stands. -/
structure CoordinatorInv (p : Platform) (s : SyncState cfg) : Prop where
  quiet : preparing s.pc = true →
    ∀ cpu, pending (s.queue cpu) (s.handler cpu) = [] ∧ s.readied s.round cpu = false
  calling : ∀ todo, s.pc = .calling todo → todo.Nodup ∧
    s.readied s.round cfg.pollerCpu = false ∧
    ∀ cpu ∈ todo, cpu ∈ calledCpus cfg p ∧ s.queue cpu = [] ∧ s.readied s.round cpu = false
  own : s.pc = .ownCall → cfg.pollPollerCore = true
  counted : gathering s.pc = true →
    s.readyCpus ≤ (pollerRuns cfg p).countP (s.readied s.round)
  starting : s.pc = .setStart → AllMarked cfg p (s.readied s.round)
  started : s.startFlag = true →
    s.pc = .clearReady ∨ s.pc = .clearStart ∨ AllMarked cfg p (s.readied s.round)
  /-- The timestamp stays in its slot as long as somebody is going to read it. -/
  live : s.pc.polling = true ∨ (∃ cpu, pending (s.queue cpu) (s.handler cpu) ≠ []) →
    s.kts s.data = s.taken s.round

structure BarrierInv (p : Platform) (s : SyncState cfg) : Prop where
  handlers : HandlersInv p s
  coordinator : CoordinatorInv p s

@[simp] theorem mem_pending {flags : LogFlags} {queue : List Launch} {h : Handler flags}
    {l : Launch} : l ∈ pending queue h ↔ unread h = some l ∨ l ∈ queue := by
  simp [pending]

@[simp] theorem pending_eq_nil {flags : LogFlags} {queue : List Launch} {h : Handler flags} :
    pending queue h = [] ↔ unread h = none ∧ queue = [] := by
  simp [pending]

theorem not_mem_calledCpus_poller : cfg.pollerCpu ∉ calledCpus cfg p := by
  rw [mem_calledCpus]
  exact fun h => h.2.2 rfl

theorem mem_pollerRuns_of_called {cpu : Nat} (h : cpu ∈ calledCpus cfg p) :
    cpu ∈ pollerRuns cfg p := by
  rw [mem_pollerRuns]
  exact Or.inl (mem_calledCpus.mp h)

theorem pollerCpu_mem_pollerRuns (h : cfg.pollPollerCore = true) :
    cfg.pollerCpu ∈ pollerRuns cfg p := by
  rw [mem_pollerRuns]
  exact Or.inr ⟨h, rfl⟩

theorem init_barrierInv (hN : 0 < cfg.bufferSize) (cells : Nat → Nat → HrperfLogEntry cfg.log) :
    BarrierInv p (syncMachine p hN cells).init := by
  constructor <;> constructor <;> simp [syncMachine, unread, preparing, gathering, BarrierSafe,
    HandlerSafe, Pc.polling]

/-- The timestamp of a new round does not touch the entries of earlier ones. -/
theorem HandlerSafe.later {readied : Nat → Nat → Bool} {taken : Nat → BitVec 64}
    {h : Handler cfg.log} (hsafe : HandlerSafe p readied taken h) {r : Nat}
    (hpast : ∀ l e, h = .sampled l e ∨ h = .counted l e → l.round < r) (v : BitVec 64) :
    HandlerSafe p readied (Function.update taken r v) h := by
  cases h with
  | idle | waiting | spun => trivial
  | released l => exact hsafe
  | sampled l e =>
    have hne : l.round ≠ r := Nat.ne_of_lt (hpast l e (Or.inl rfl))
    exact ⟨hsafe.1, by simpa [hne] using hsafe.2⟩
  | counted l e =>
    have hne : l.round ≠ r := Nat.ne_of_lt (hpast l e (Or.inr rfl))
    exact ⟨hsafe.1, by simpa [hne] using hsafe.2⟩

theorem beginPoll_barrierInv {s : SyncState cfg} (h : BarrierInv p s) (op : InstructedOp)
    (slot : Nat) (clocks : Clocks)
    (hsettled : ∀ cpu, pending (s.queue cpu) (s.handler cpu) = []) :
    BarrierInv p (beginPoll s op slot clocks) := by
  obtain ⟨⟨outside, current, queued, fresh, safe, past⟩, -⟩ := h
  constructor <;> constructor <;> simp only [beginPoll]
  case outside => exact outside
  case current =>
    intro cpu l hl
    rw [hsettled cpu] at hl
    cases hl
  case queued =>
    intro cpu l rest hq
    have hnil := (pending_eq_nil.mp (hsettled cpu)).2
    rw [hq] at hnil
    cases hnil
  case fresh => exact fun r cpu hr => fresh r cpu (by omega)
  case safe =>
    intro cpu
    refine (safe cpu).later (fun l e he => ?_) _
    have := past cpu l e he
    omega
  case past =>
    intro cpu l e he
    have := past cpu l e he
    omega
  case quiet => exact fun _ cpu => ⟨hsettled cpu, fresh _ cpu (Nat.lt_succ_self _)⟩
  case calling => simp
  case own => simp
  case counted => simp [gathering]
  case starting => simp
  case started => exact fun _ => Or.inl trivial
  case live => simp

section Coordinator

variable {s : SyncState cfg} {pc : Pc} {ready done : Nat} {flag : Bool} {op : InstructedOp}
  {rings : Nat → Ring cfg.bufferSize (HrperfLogEntry cfg.log)}
  {file : List (HrperfLogEntry cfg.log)}

/-- A step of the coordinator alone, other than the calls it makes. -/
theorem coordinator_barrierInv (h : BarrierInv p s)
    (hquiet : preparing pc = true → preparing s.pc = true)
    (hcalling : ∀ todo, pc = .calling todo → todo = calledCpus cfg p ∧ preparing s.pc = true)
    (hown : pc = .ownCall → cfg.pollPollerCore = true)
    (hcounted : gathering pc = true → ready ≤ (pollerRuns cfg p).countP (s.readied s.round))
    (hstarting : pc = .setStart → AllMarked cfg p (s.readied s.round))
    (hstarted : flag = true →
      pc = .clearReady ∨ pc = .clearStart ∨ AllMarked cfg p (s.readied s.round))
    (hpolling : pc.polling = true → s.pc.polling = true) :
    BarrierInv p { s with
      readyCpus := ready, startFlag := flag, doneCpus := done, pc := pc, op := op, rings := rings,
      file := file } := by
  obtain ⟨⟨outside, current, queued, fresh, safe, past⟩,
    ⟨quiet, calling, own, counted, starting, started, live⟩⟩ := h
  refine ⟨⟨outside, current, queued, fresh, safe, past⟩, ?_⟩
  constructor
  case quiet => exact fun hp => quiet (hquiet hp)
  case calling =>
    intro todo htodo
    obtain ⟨rfl, hprep⟩ := hcalling todo htodo
    refine ⟨(forEachCpu_nodup _).filter _, (quiet hprep _).2, fun cpu hcpu => ⟨hcpu, ?_, ?_⟩⟩
    · exact (pending_eq_nil.mp (quiet hprep cpu).1).2
    · exact (quiet hprep cpu).2
  case own => exact hown
  case counted => exact hcounted
  case starting => exact hstarting
  case started => exact hstarted
  case live => exact fun hl => live (hl.imp_left hpolling)

/-- The places of which the invariant asks nothing special. -/
def plain : Pc → Bool
  | .idle | .ownHandler | .awaitDone | .spunDone | .pollReturned | .logging _ | .opReturned => true
  | _ => false

theorem plain_spec (h : plain pc = true) : preparing pc = false ∧ gathering pc = false ∧
    (∀ todo, pc ≠ .calling todo) ∧ pc ≠ .ownCall ∧ pc ≠ .setStart := by
  cases pc <;> simp_all [plain, preparing, gathering]

theorem move_barrierInv (h : BarrierInv p s) (hfrom : s.pc ≠ .clearReady ∧ s.pc ≠ .clearStart)
    (hplain : plain pc = true) (hpolling : pc.polling = true → s.pc.polling = true) :
    BarrierInv p { s with pc := pc, op := op, rings := rings, file := file } := by
  obtain ⟨hprep, hgather, hcalling, hown, hstart⟩ := plain_spec hplain
  apply coordinator_barrierInv h
  · simp [hprep]
  · exact fun todo htodo => absurd htodo (hcalling todo)
  · exact fun ht => absurd ht hown
  · simp [hgather]
  · exact fun ht => absurd ht hstart
  · intro hflag
    have hall := h.coordinator.started hflag
    simp only [hfrom, false_or] at hall
    exact Or.inr (Or.inr hall)
  · exact hpolling

end Coordinator

theorem allMarked_of_count {marks : Nat → Bool} {n : Nat}
    (hcfg : (pollerRuns cfg p).length ≤ n)
    (h : n ≤ (pollerRuns cfg p).countP marks) : AllMarked cfg p marks :=
  forall_of_length_le_countP (Nat.le_trans hcfg h)

/-- The call for one CPU goes out. -/
theorem calling_barrierInv {s : SyncState cfg} (h : BarrierInv p s) {cpu : Nat} {rest : List Nat}
    (hpc : s.pc = .calling (cpu :: rest)) :
    BarrierInv p { s with
      queue := Function.update s.queue cpu (s.queue cpu ++ [⟨s.round, s.data⟩])
      pc := .calling rest } := by
  obtain ⟨⟨outside, current, queued, fresh, safe, past⟩,
    ⟨quiet, calling, own, counted, starting, started, live⟩⟩ := h
  obtain ⟨hnodup, hpoller, htodo⟩ := calling _ hpc
  obtain ⟨hcalled, hempty, hmark⟩ := htodo cpu (by simp)
  have hmem := mem_pollerRuns_of_called hcalled
  obtain ⟨hfirst, hrest⟩ := List.nodup_cons.mp hnodup
  have hlive : s.kts s.data = s.taken s.round := live (Or.inl (by simp [hpc, Pc.polling]))
  constructor <;> constructor <;> simp only [hempty, List.nil_append, Function.update_apply]
  case outside =>
    intro c hc
    have hne : c ≠ cpu := fun he => hc (he ▸ hmem)
    rw [if_neg hne]
    exact outside c hc
  case current =>
    intro c l hl
    split_ifs at hl with hc
    · rcases mem_pending.mp hl with hunread | hnew
      · exact current c l (mem_pending.mpr (Or.inl hunread))
      · simpa using hnew
    · exact current c l hl
  case queued =>
    intro c l rest' hq
    split_ifs at hq with hc
    · obtain ⟨-, rfl⟩ := List.cons.inj hq
      exact ⟨rfl, hc ▸ hcalled, hc ▸ hmark⟩
    · exact queued c l rest' hq
  case fresh => exact fresh
  case safe => exact safe
  case past => exact past
  case quiet => simp [preparing]
  case calling =>
    intro todo heq
    obtain rfl : rest = todo := by simpa using heq
    refine ⟨hrest, hpoller, fun c hc => ?_⟩
    have hne : c ≠ cpu := fun he => hfirst (he ▸ hc)
    rw [if_neg hne]
    exact htodo c (List.mem_cons_of_mem cpu hc)
  case own => simp
  case counted => exact fun _ => counted (by simp [hpc, gathering])
  case starting => simp
  case started => simpa [hpc] using started
  case live => exact fun _ => hlive

theorem countP_mark_readied {s : SyncState cfg} {cpu : Nat} (hmem : cpu ∈ pollerRuns cfg p)
    (hmark : s.readied s.round cpu = false) :
    (pollerRuns cfg p).countP (mark s.readied s.round cpu s.round) =
      (pollerRuns cfg p).countP (s.readied s.round) + 1 := by
  rw [mark_round]
  exact countP_mark pollerRuns_nodup hmem hmark

theorem mark_of_true {f : Nat → Nat → Bool} {r cpu r' cpu' : Nat} (h : f r cpu = true) :
    mark f r' cpu' r cpu = true := by
  simp only [mark]
  split_ifs
  · rfl
  · exact h

/-- Marks of later rounds stay clear. -/
theorem mark_of_lt {f : Nat → Nat → Bool} {round cpu : Nat}
    (h : ∀ r c, round < r → f r c = false) (r c : Nat) (hr : round < r) :
    mark f round cpu r c = false := by
  have hne : r ≠ round := by omega
  simpa [mark, hne] using h r c hr

theorem AllMarked.mark {f : Nat → Nat → Bool} {r : Nat} (h : AllMarked cfg p (f r)) (r' cpu' : Nat) :
    AllMarked cfg p (mark f r' cpu' r) :=
  fun cpu hcpu => mark_of_true (h cpu hcpu)

theorem HandlerSafe.mark {readied : Nat → Nat → Bool} {taken : Nat → BitVec 64}
    {h : Handler cfg.log} (hsafe : HandlerSafe p readied taken h) (r cpu : Nat) :
    HandlerSafe p (mark readied r cpu) taken h := by
  cases h with
  | idle | waiting | spun => trivial
  | released l => exact AllMarked.mark hsafe r cpu
  | sampled l e => exact ⟨AllMarked.mark hsafe.1 r cpu, hsafe.2⟩
  | counted l e => exact ⟨AllMarked.mark hsafe.1 r cpu, hsafe.2⟩

/-- After its last call the poller CPU counts itself, if it polls. -/
theorem called_barrierInv {s t : SyncState cfg} (h : BarrierInv p s)
    (hpc : s.pc = .calling []) (hstep : advance p s = some t) : BarrierInv p t := by
  simp only [advance, hpc] at hstep
  split_ifs at hstep with hcore
  · obtain ⟨⟨outside, current, queued, fresh, safe, past⟩,
      ⟨quiet, calling, own, counted, starting, started, live⟩⟩ := h
    obtain ⟨-, hpoller, -⟩ := calling _ hpc
    have hmem := pollerCpu_mem_pollerRuns (p := p) hcore
    have hlive : s.kts s.data = s.taken s.round := live (Or.inl (by simp [hpc, Pc.polling]))
    obtain rfl := Option.some.inj hstep
    constructor <;> constructor
    case outside => exact outside
    case current => exact current
    case queued =>
      intro cpu l rest hq
      obtain ⟨hrest, hcalled, hmark⟩ := queued cpu l rest hq
      have hne : cpu ≠ cfg.pollerCpu := fun he => not_mem_calledCpus_poller (he ▸ hcalled)
      exact ⟨hrest, hcalled, by simpa [mark, hne] using hmark⟩
    case fresh => exact mark_of_lt fresh
    case safe => exact fun cpu => (safe cpu).mark _ _
    case past => exact past
    case quiet => simp [preparing]
    case calling => simp
    case own => simp
    case counted =>
      intro _
      have hcount := counted (by simp [hpc, gathering])
      simp only [countP_mark_readied hmem hpoller]
      omega
    case starting => simp
    case started =>
      intro hflag
      have hall : AllMarked cfg p (s.readied s.round) := by simpa [hpc] using started hflag
      exact Or.inr (Or.inr (hall.mark _ _))
    case live => exact fun _ => hlive
  · obtain rfl := Option.some.inj hstep
    have started := h.coordinator.started
    have hcount := h.coordinator.counted (by simp [hpc, gathering])
    apply coordinator_barrierInv h <;> simp [hpc, preparing, gathering, Pc.polling]
    · exact hcount
    · simpa [hpc] using started

/-- A handler begins for the current round, with nothing left in the queue of its CPU. -/
theorem enterHandler_handlersInv {s : SyncState cfg} (h : HandlersInv p s) {cpu : Nat}
    {queue : Nat → List Launch} {pc : Pc} (hmem : cpu ∈ pollerRuns cfg p)
    (hempty : queue cpu = []) (hqueue : ∀ c, c ≠ cpu → queue c = s.queue c) :
    HandlersInv p { enterHandler s cpu ⟨s.round, s.data⟩ with queue := queue, pc := pc } := by
  constructor <;> simp only [enterHandler, SyncState.setHandler, Function.update_apply]
  case outside =>
    intro c hc
    have hcc : c ≠ cpu := fun he => hc (he ▸ hmem)
    rw [if_neg hcc, hqueue c hcc]
    exact h.outside c hc
  case current =>
    intro c l hl
    split_ifs at hl with hcc
    · have hsame : some ⟨s.round, s.data⟩ = some l := by simpa [hcc, hempty, unread] using hl
      exact (Option.some.inj hsame).symm
    · rw [hqueue c hcc] at hl
      exact h.current c l hl
  case queued =>
    intro c l rest hq
    have hcc : c ≠ cpu := by
      rintro rfl
      simp [hempty] at hq
    rw [hqueue c hcc] at hq
    obtain ⟨hrest, hcalled, hunmarked⟩ := h.queued c l rest hq
    exact ⟨hrest, hcalled, by simpa [mark, hcc] using hunmarked⟩
  case fresh => exact mark_of_lt h.fresh
  case safe =>
    intro c
    simp only [Function.update_apply]
    split_ifs
    · trivial
    · exact (h.safe c).mark _ _
  case past =>
    intro c l e he
    split_ifs at he
    · simp at he
    · exact h.past c l e he

/-- The handler of a called CPU begins, and the CPU is marked. -/
theorem deliver_barrierInv {s : SyncState cfg} (h : BarrierInv p s) {cpu : Nat} {l : Launch}
    {rest : List Launch} (hqueue : s.queue cpu = l :: rest) :
    BarrierInv p { enterHandler s cpu l with queue := Function.update s.queue cpu rest } := by
  obtain ⟨rfl, hcalled, hmark⟩ := h.handlers.queued cpu l rest hqueue
  have hmem := mem_pollerRuns_of_called hcalled
  obtain rfl : l = ⟨s.round, s.data⟩ := h.handlers.current cpu l (by simp [hqueue])
  have hne : cpu ≠ cfg.pollerCpu := fun he => not_mem_calledCpus_poller (he ▸ hcalled)
  have hhandlers : HandlersInv p { enterHandler s cpu ⟨s.round, s.data⟩ with
      queue := Function.update s.queue cpu [] } :=
    enterHandler_handlersInv h.handlers hmem (Function.update_self cpu [] s.queue)
      (fun c hc => Function.update_of_ne hc [] s.queue)
  obtain ⟨quiet, calling, own, counted, starting, started, live⟩ := h.coordinator
  have hlive : s.kts s.data = s.taken s.round := live (Or.inr ⟨cpu, by simp [hqueue]⟩)
  have hnotprep : preparing s.pc = false := by
    by_contra hp
    have hnone := (quiet (by simpa using hp) cpu).1
    simp [hqueue] at hnone
  refine ⟨hhandlers, ?_⟩
  constructor <;> simp only [enterHandler, SyncState.setHandler, Function.update_apply]
  case quiet => simp [hnotprep]
  case calling =>
    intro todo hpc
    obtain ⟨hnodup, hpoller, htodo⟩ := calling todo hpc
    refine ⟨hnodup, by simpa [mark, hne.symm] using hpoller, fun c hc => ?_⟩
    obtain ⟨hc', hempty, hunmarked⟩ := htodo c hc
    have hcc : c ≠ cpu := by
      rintro rfl
      simp [hqueue] at hempty
    exact ⟨hc', by rw [if_neg hcc, hempty], by simpa [mark, hcc] using hunmarked⟩
  case own => exact own
  case counted =>
    intro hg
    have hcount := counted hg
    rw [countP_mark_readied hmem hmark]
    omega
  case starting => exact fun hs => (starting hs).mark _ _
  case started => exact fun hs => (started hs).imp_right (Or.imp_right (·.mark _ _))
  case live => exact fun _ => hlive

/-- The poller CPU is never called. -/
theorem queue_poller {s : SyncState cfg} (h : HandlersInv p s) : s.queue cfg.pollerCpu = [] := by
  by_contra hne
  obtain ⟨l, rest, hq⟩ := List.exists_cons_of_ne_nil hne
  exact not_mem_calledCpus_poller (h.queued _ l rest hq).2.1

/-- The poller CPU calls its own handler, after `start_flag` has been set. -/
theorem ownCall_barrierInv {s : SyncState cfg} (h : BarrierInv p s) (hpc : s.pc = .ownCall) :
    BarrierInv p { enterHandler s cfg.pollerCpu ⟨s.round, s.data⟩ with pc := .ownHandler } := by
  have hmem := pollerCpu_mem_pollerRuns (p := p) (h.coordinator.own hpc)
  have hlive := h.coordinator.live (Or.inl (by simp [hpc, Pc.polling]))
  have hempty : s.queue cfg.pollerCpu = [] := queue_poller h.handlers
  refine ⟨enterHandler_handlersInv h.handlers hmem hempty (fun _ _ => rfl), ?_⟩
  constructor
  case quiet => simp [preparing]
  case calling => simp
  case own => simp
  case counted => simp [gathering]
  case starting => simp
  case started =>
    intro hs
    have hall : AllMarked cfg p (s.readied s.round) := by
      simpa [hpc] using h.coordinator.started hs
    exact Or.inr (Or.inr (hall.mark _ _))
  case live => exact fun _ => hlive

/-- A step of a handler past its entry, with any change of `done_cpus`, of the rings and of
the records of what became of the samples. -/
theorem setHandler_barrierInv {s : SyncState cfg} (h : BarrierInv p s) {cpu : Nat}
    {new : Handler cfg.log} {done : Nat} {finished : Nat → Nat → Bool}
    {rings : Nat → Ring cfg.bufferSize (HrperfLogEntry cfg.log)}
    {fate : Nat → Nat → Option (HrperfLogEntry cfg.log × Fate)}
    (hbusy : s.handler cpu ≠ .idle)
    (hunread : ∀ l, unread new = some l → unread (s.handler cpu) = some l)
    (hsafe : HandlerSafe p s.readied s.taken new)
    (hpast : ∀ l e, new = .sampled l e ∨ new = .counted l e → l.round ≤ s.round) :
    BarrierInv p { s.setHandler cpu new with
      doneCpus := done, rings := rings, finished := finished, fate := fate } := by
  obtain ⟨⟨outside, current, queued, fresh, safe, past⟩,
    ⟨quiet, calling, own, counted, starting, started, live⟩⟩ := h
  have hpending : ∀ c l, l ∈ pending (s.queue c) (Function.update s.handler cpu new c) →
      l ∈ pending (s.queue c) (s.handler c) := by
    intro c l
    rw [Function.update_apply]
    split_ifs with hc
    · subst hc
      rw [mem_pending, mem_pending]
      exact Or.imp_left (hunread l)
    · exact id
  have hnil : ∀ c, pending (s.queue c) (s.handler c) = [] →
      pending (s.queue c) (Function.update s.handler cpu new c) = [] := by
    intro c hc
    apply List.eq_nil_iff_forall_not_mem.mpr
    intro l hl
    simpa [hc] using hpending c l hl
  constructor <;> constructor
  case outside =>
    intro c hc
    obtain ⟨hq, hh⟩ := outside c hc
    have hne : c ≠ cpu := by
      rintro rfl
      exact hbusy hh
    exact ⟨hq, by simpa [SyncState.setHandler, hne] using hh⟩
  case current => exact fun c l hl => current c l (hpending c l hl)
  case queued => exact queued
  case fresh => exact fresh
  case safe =>
    intro c
    simp only [SyncState.setHandler, Function.update_apply]
    split_ifs
    · exact hsafe
    · exact safe c
  case past =>
    intro c l e
    simp only [SyncState.setHandler, Function.update_apply]
    split_ifs
    · exact hpast l e
    · exact past c l e
  case quiet => exact fun hp c => ⟨hnil c (quiet hp c).1, (quiet hp c).2⟩
  case calling => exact calling
  case own => exact own
  case counted => exact counted
  case starting => exact starting
  case started => exact started
  case live =>
    rintro (hp | ⟨c, hc⟩)
    · exact live (Or.inl hp)
    · exact live (Or.inr ⟨c, fun he => hc (hnil c he)⟩)

/-- Only here does the number of CPUs matter: the count that ends the wait covers all. -/
theorem awaitReady_barrierInv {s : SyncState cfg} (h : BarrierInv p s)
    (hcfg : (pollerRuns cfg p).length ≤ nPollingCpus cfg p) (hpc : s.pc = .awaitReady) :
    BarrierInv p { s with
      pc := if s.readyCpus < nPollingCpus cfg p then .spunReady else .setStart } := by
  have hcount := h.coordinator.counted (by simp [hpc, gathering])
  have hstarted := h.coordinator.started
  simp only [hpc, reduceCtorEq, false_or] at hstarted
  split_ifs with hlow
  · apply coordinator_barrierInv h <;> simp [hpc, preparing, gathering, Pc.polling]
    · exact hcount
    · exact hstarted
  · have hall : AllMarked cfg p (s.readied s.round) := allMarked_of_count hcfg (by omega)
    apply coordinator_barrierInv h <;> simp [hpc, preparing, gathering, Pc.polling]
    · exact hall
    · exact fun _ => hall

theorem advance_barrierInv {s t : SyncState cfg} (h : BarrierInv p s)
    (hcfg : (pollerRuns cfg p).length ≤ nPollingCpus cfg p)
    (hstep : advance p s = some t) : BarrierInv p t := by
  have hstarted := h.coordinator.started
  have hcounted := h.coordinator.counted
  cases hpc : s.pc with
  | idle => simp [advance, hpc] at hstep
  | clearReady =>
    simp only [advance, hpc] at hstep
    obtain rfl := Option.some.inj hstep
    apply coordinator_barrierInv h <;> simp [hpc, preparing, gathering, Pc.polling]
  | clearStart =>
    simp only [advance, hpc] at hstep
    obtain rfl := Option.some.inj hstep
    apply coordinator_barrierInv h <;> simp [hpc, preparing, gathering, Pc.polling]
    exact hcounted (by simp [hpc, gathering])
  | clearDone | allocMask | spunReady =>
    simp only [advance, hpc] at hstep
    obtain rfl := Option.some.inj hstep
    apply coordinator_barrierInv h <;> simp [hpc, preparing, gathering, Pc.polling]
    · exact hcounted (by simp [hpc, gathering])
    · simpa [hpc] using hstarted
  | calling todo =>
    cases todo with
    | nil => exact called_barrierInv h hpc hstep
    | cons cpu rest =>
      simp only [advance, hpc] at hstep
      exact Option.some.inj hstep ▸ calling_barrierInv h hpc
  | awaitReady =>
    simp only [advance, hpc] at hstep
    exact Option.some.inj hstep ▸ awaitReady_barrierInv h hcfg hpc
  | setStart =>
    simp only [advance, hpc] at hstep
    obtain rfl := Option.some.inj hstep
    have hall := h.coordinator.starting hpc
    apply coordinator_barrierInv h <;> split_ifs <;>
      simp_all [preparing, gathering, Pc.polling]
  | ownCall =>
    simp only [advance, hpc] at hstep
    exact Option.some.inj hstep ▸ ownCall_barrierInv h hpc
  | ownHandler =>
    simp only [advance, hpc] at hstep
    split_ifs at hstep
    exact Option.some.inj hstep ▸ move_barrierInv h (by simp [hpc]) rfl (by simp [hpc, Pc.polling])
  | awaitDone =>
    simp only [advance, hpc] at hstep
    refine Option.some.inj hstep ▸ move_barrierInv h (by simp [hpc]) ?_ (by simp [hpc, Pc.polling])
    split_ifs <;> rfl
  | spunDone =>
    simp only [advance, hpc] at hstep
    exact Option.some.inj hstep ▸ move_barrierInv h (by simp [hpc]) rfl (by simp [hpc, Pc.polling])
  | pollReturned =>
    simp only [advance, hpc] at hstep
    refine Option.some.inj hstep ▸ move_barrierInv h (by simp [hpc]) ?_ ?_
    · split_ifs <;> rfl
    · split_ifs <;> simp [Pc.polling]
  | logging todo =>
    cases todo with
    | nil =>
      simp only [advance, hpc] at hstep
      exact Option.some.inj hstep ▸ move_barrierInv h (by simp [hpc]) rfl (by simp [Pc.polling])
    | cons cpu rest =>
      simp only [advance, hpc] at hstep
      exact Option.some.inj hstep ▸ move_barrierInv h (by simp [hpc]) rfl (by simp [Pc.polling])
  | opReturned => simp [advance, hpc] at hstep

/-- A handler sees the flag only when all CPUs of its round are marked. -/
theorem look_safe {s : SyncState cfg} (h : BarrierInv p s) {cpu : Nat} {l : Launch}
    (hwait : s.handler cpu = .waiting l) (hflag : s.startFlag = true) :
    AllMarked cfg p (s.readied l.round) := by
  have hl : l = ⟨s.round, s.data⟩ := h.handlers.current cpu l (by simp [hwait, unread])
  have hquiet : preparing s.pc = false := by
    by_contra hp
    have hnone := (h.coordinator.quiet (by simpa using hp) cpu).1
    simp [hwait, unread] at hnone
  rcases h.coordinator.started hflag with hpc | hpc | hall
  · simp [hpc, preparing] at hquiet
  · simp [hpc, preparing] at hquiet
  · simpa [hl] using hall

theorem handlerStep_barrierInv {s t : SyncState cfg} (h : BarrierInv p s) {cpu : Nat}
    {a : HandlerAction cfg.log} (hstep : handlerStep s cpu a = some t) : BarrierInv p t := by
  have hsafe := h.handlers.safe cpu
  cases handlerStep_move hstep with
  | deliver hqueue _ => exact deliver_barrierInv h hqueue
  | look hwait =>
    refine setHandler_barrierInv h (by simp [hwait]) ?_ ?_ ?_
    · split_ifs <;> simp [hwait, unread]
    · split_ifs with hflag
      · exact look_safe h hwait hflag
      · trivial
    · split_ifs <;> simp
  | relax hspun =>
    exact setHandler_barrierInv h (by simp [hspun]) (by simp [hspun, unread]) trivial (by simp)
  | deadline hspun =>
    exact setHandler_barrierInv h (by simp [hspun]) (by simp [unread]) trivial (by simp)
  | @read l readings hrel =>
    have hl : l = ⟨s.round, s.data⟩ := h.handlers.current cpu l (by simp [hrel, unread])
    have hlive := h.coordinator.live (Or.inr ⟨cpu, by simp [hrel, unread]⟩)
    rw [hrel] at hsafe
    refine setHandler_barrierInv h (by simp [hrel]) (by simp [unread]) ⟨hsafe, ?_⟩ ?_
    · simpa [hl] using hlive
    · intro l' e he
      simp only [Handler.sampled.injEq, reduceCtorEq, or_false] at he
      simp [← he.1, hl]
  | @count l e hsampled =>
    rw [hsampled] at hsafe
    refine setHandler_barrierInv h (by simp [hsampled]) (by simp [unread]) hsafe ?_
    intro l' e' he
    simp only [reduceCtorEq, Handler.counted.injEq, false_or] at he
    exact he.1 ▸ h.handlers.past cpu l e (Or.inl hsampled)
  | publish hcounted =>
    exact setHandler_barrierInv h (by simp [hcounted]) (by simp [unread]) trivial (by simp)

/-- A stack slot that nobody is going to read gets other contents. -/
theorem overwrite_barrierInv {s : SyncState cfg} (h : BarrierInv p s) {slot : Nat} {v : BitVec 64}
    (hfree : ¬ (s.pc.polling = true ∧ slot = s.data))
    (hok : SettledFirst p s (.overwrite slot v)) :
    BarrierInv p { s with kts := Function.update s.kts slot v } := by
  obtain ⟨⟨outside, current, queued, fresh, safe, past⟩,
    ⟨quiet, calling, own, counted, starting, started, live⟩⟩ := h
  refine ⟨⟨outside, current, queued, fresh, safe, past⟩,
    ⟨quiet, calling, own, counted, starting, started, ?_⟩⟩
  intro hlive
  have hne : s.data ≠ slot := by
    rcases hlive with hpolling | ⟨cpu, hcpu⟩
    · exact fun he => hfree ⟨hpolling, he.symm⟩
    · obtain ⟨l, hl⟩ := List.exists_mem_of_ne_nil _ hcpu
      have hmem : cpu ∈ pollerRuns cfg p := by
        by_contra hout
        simp [outside cpu hout, unread] at hl
      have hdata := hok cpu hmem l hl
      rwa [current cpu l hl] at hdata
  simpa [hne] using live hlive

theorem step_barrierInv {hN : 0 < cfg.bufferSize} {cells : Nat → Nat → HrperfLogEntry cfg.log}
    {s t : SyncState cfg} {a : SyncAction cfg} (h : BarrierInv p s)
    (hcfg : (pollerRuns cfg p).length ≤ nPollingCpus cfg p) (hok : SettledFirst p s a)
    (hstep : (syncMachine p hN cells).step s a = some t) : BarrierInv p t := by
  cases a with
  | begin op slot clocks =>
    simp only [syncMachine] at hstep
    split_ifs at hstep with hpc
    have hfrom : s.pc ≠ .clearReady ∧ s.pc ≠ .clearStart := by
      rcases hpc with hpc | hpc <;> simp [hpc]
    have hsettled : op ≠ .logOp → ∀ cpu, pending (s.queue cpu) (s.handler cpu) = [] := by
      intro hop cpu
      by_cases hcpu : cpu ∈ pollerRuns cfg p
      · exact hok hop cpu hcpu
      · simp [h.handlers.outside cpu hcpu, unread]
    cases op with
    | logOp => exact Option.some.inj hstep ▸ move_barrierInv h hfrom rfl (by simp [Pc.polling])
    | pollOp => exact Option.some.inj hstep ▸ beginPoll_barrierInv h _ _ _ (hsettled (by decide))
    | pollAndLog =>
      exact Option.some.inj hstep ▸ beginPoll_barrierInv h _ _ _ (hsettled (by decide))
  | advance => exact advance_barrierInv h hcfg hstep
  | allocFails =>
    simp only [syncMachine] at hstep
    split_ifs at hstep with hpc
    exact Option.some.inj hstep ▸ move_barrierInv h (by simp [hpc]) rfl (by simp [Pc.polling])
  | deadline =>
    simp only [syncMachine, deadline] at hstep
    split at hstep
    · rename_i hpc
      exact Option.some.inj hstep ▸ move_barrierInv h (by simp [hpc]) rfl (by simp [Pc.polling])
    · rename_i hpc
      exact Option.some.inj hstep ▸ move_barrierInv h (by simp [hpc]) rfl (by simp [Pc.polling])
    · cases hstep
  | overwrite slot v =>
    simp only [syncMachine] at hstep
    split_ifs at hstep with hfree
    exact Option.some.inj hstep ▸ overwrite_barrierInv h hfree hok
  | handler cpu a => exact handlerStep_barrierInv h hstep

theorem reaches_barrierInv {hN : 0 < cfg.bufferSize} {cells : Nat → Nat → HrperfLogEntry cfg.log}
    (hcfg : (pollerRuns cfg p).length ≤ nPollingCpus cfg p) {s : SyncState cfg}
    (h : Reaches (syncMachine p hN cells) (SettledFirst p) s) : BarrierInv p s :=
  h.invariant (I := BarrierInv p) (init_barrierInv hN cells)
    (fun _ _ _ hs hok hstep => step_barrierInv hs hcfg hok hstep)

/-- In every run in which polls begin and stack slots are used again only after the earlier
handlers have settled, every handler released by `start_flag` was released by its own round
and carries the timestamp of that. -/
theorem barrier_safe_of_settled {hN : 0 < cfg.bufferSize}
    {cells : Nat → Nat → HrperfLogEntry cfg.log}
    (hcfg : (pollerRuns cfg p).length ≤ nPollingCpus cfg p) {s : SyncState cfg}
    (h : Reaches (syncMachine p hN cells) (SettledFirst p) s) : BarrierSafe p s :=
  (reaches_barrierInv hcfg h).handlers.safe

/-- CPU 1 polls CPUs 0 and 2 under strict synchronisation. -/
def strictConfig : Config := { twoCpuConfig with strictPollingSync := true }

def strictReadings : Readings strictConfig.log where
  pmc0 := 0
  pmc1 := 0
  pmc2 := 0
  pmc3 := 0
  fixedCtr0 := 0
  fixedCtr1 := 0
  imcReads := 0
  imcWrites := 0
  mbm := none
  stack := ⟨0, 0, 0, 0, 0, 0, 0, .of _ 0, .of _ 0, .of _ 0, .of _ 0, .of _ 0⟩

def advances (n : Nat) : List (SyncAction strictConfig) := List.replicate n .advance

def onCpu (cpu : Nat) (actions : List (HandlerAction strictConfig.log)) :
    List (SyncAction strictConfig) :=
  actions.map (.handler cpu)

/-- A poll whose calls are not delivered within 200 ms. -/
def lateRound : List (SyncAction strictConfig) :=
  [[.begin .pollOp 0 ⟨1, 0, 0⟩], advances 8, [.deadline, .advance]].flatten

/-- The late handlers are counted for the next round, and released by it. -/
def staleTrace : List (SyncAction strictConfig) :=
  [lateRound, [.begin .pollOp 0 ⟨2, 0, 0⟩], advances 4, onCpu 0 [.deliver], onCpu 2 [.deliver],
    advances 5, onCpu 0 [.look, .read strictReadings]].flatten

def strictMachine : Machine (SyncState strictConfig) (SyncAction strictConfig) :=
  syncMachine fourCpus (by decide) (fun _ _ => sample strictConfig 0 0 strictReadings)

theorem stale_handler_released :
    ¬ ∀ s, Reachable strictMachine s → BarrierSafe fourCpus s := by
  intro hall
  obtain ⟨s, hs, hp⟩ := reachable_of_run (m := strictMachine)
    (p := fun s => s.handler 0 = .sampled ⟨1, 0⟩ (sample strictConfig 0 2 strictReadings) ∧
      s.readied 1 0 = false ∧ s.taken 1 = 1)
    staleTrace (by decide +kernel)
  obtain ⟨hhandler, hready, -⟩ := of_decide_eq_true hp
  have hsafe := hall s hs 0
  rw [hhandler] at hsafe
  have hmark := hsafe.1 0 (by decide)
  rw [hready] at hmark
  cases hmark

/-- The late handlers reach their own deadlines before the next poll begins. -/
def settledTrace : List (SyncAction strictConfig) :=
  [lateRound, onCpu 0 [.deliver, .look, .deadline], onCpu 2 [.deliver, .look, .deadline],
    [.begin .pollOp 0 ⟨2, 0, 0⟩], advances 6, onCpu 0 [.deliver], onCpu 2 [.deliver], advances 3,
    onCpu 0 [.look, .read strictReadings]].flatten

theorem settled_handler_safe : ∃ s, Reaches strictMachine (SettledFirst fourCpus) s ∧
    s.handler 0 = .sampled ⟨2, 0⟩ (sample strictConfig 0 2 strictReadings) ∧
    BarrierSafe fourCpus s := by
  obtain ⟨s, hs, hp⟩ := reaches_of_run (m := strictMachine) (SettledFirst fourCpus)
    (p := fun s => s.handler 0 = .sampled ⟨2, 0⟩ (sample strictConfig 0 2 strictReadings))
    settledTrace (by decide +kernel)
  exact ⟨s, hs, of_decide_eq_true hp, barrier_safe_of_settled (by decide) hs⟩

end BarrierSafety
