import Mathlib.Logic.Function.Basic
import Hiresperf.CpuSelection
import Hiresperf.PollingThreads
import Hiresperf.RingInterleaving

/-!
# Unloading the module in polling mode

The two threads of `PollingThreads` with their loop bodies opened up: the poller
has `hrperf_poller_func` called on the polled CPUs, whose calls of `enqueue` run
on their rings one access at a time, and the logger goes through the rings of the
selected CPUs, also one access at a time. `cleanup` stops the logger, waits for
it, stops the poller, waits for it, and then frees the rings. The device cannot
be open while the module exits, so no ioctl overlaps with it.

Under strict synchronisation a poll may give up at any time, and a handler too:
the counters that decide when they do are left out, which allows more runs. What
an entry holds does not matter here. In the file each entry is kept with the CPU
whose ring it came from.
-/

namespace ModuleUnload

open CircularWindow CpuSelection PollingThreads RingBuffer RingInterleaving StepMachine

universe u
variable {α : Type u}

/-- Where the poller stands in `smp_poll_pmus`, while in its loop body. -/
inductive PollPc where
  | entered
  | called
  | ownHandler
  deriving DecidableEq

/-- Where the logger stands in its loop body: at its second test of `kthread_should_stop`, or
in `log_for_all_cpus` with these rings still to do. -/
inductive LogPc where
  | stopTest
  | logging (rest : List Nat)
  deriving DecidableEq

inductive CleanupPc where
  | notCalled
  | awaitLogger
  | awaitPoller
  | freeing
  deriving DecidableEq

/-- `pending` counts the calls of `hrperf_poller_func` on a CPU that have not come to
`enqueue` yet. -/
structure UnloadState (α : Type u) where
  kthreads : ThreadState
  poll : PollPc
  log : LogPc
  pending : Nat → Nat
  channel : Nat → Channel α
  file : List (Nat × α)
  cleanup : CleanupPc

inductive UnloadAction (α : Type u) where
  | run (w : Thread)
  | start
  | pause
  | advance (i : Nat)
  | handler (cpu : Nat) (x : α)
  | handlerTimeout (cpu : Nat)
  | pollTimeout
  | cleanup

def producerIdle (c : Channel α) : Bool :=
  match c.producer with
  | .idle => true
  | _ => false

/-- No call of the handler is waiting or under way on `cpu`. -/
def UnloadState.quiet (s : UnloadState α) (cpu : Nat) : Bool :=
  s.pending cpu == 0 && producerIdle (s.channel cpu)

def UnloadState.logger (s : UnloadState α) : Task := s.kthreads.task .logger

def UnloadState.poller (s : UnloadState α) : Task := s.kthreads.task .poller

def UnloadState.setTask (s : UnloadState α) (w : Thread) (t : Task) : UnloadState α :=
  { s with kthreads := PollingThreads.setTask s.kthreads w t }

variable (cfg : Config) (p : Platform)

/-- `smp_poll_pmus` returns, and the poller goes back to its loop test. -/
def finishPoll (s : UnloadState α) : UnloadState α :=
  { s.setTask .poller { s.poller with pc := .loopTest } with poll := .entered }

/-- The poller's body. Without strict synchronisation `smp_call_function_many` waits for the
handlers to return. -/
def pollStep (s : UnloadState α) : Option (UnloadState α) :=
  match s.poll with
  | .entered =>
    let pending := fun cpu => s.pending cpu + if cpu ∈ calledCpus cfg p then 1 else 0
    some { s with pending := pending, poll := .called }
  | .called =>
    if cfg.strictPollingSync = true ∨ ∀ cpu ∈ calledCpus cfg p, s.quiet cpu = true then
      if cfg.pollPollerCore then
        let pending := Function.update s.pending cfg.pollerCpu (s.pending cfg.pollerCpu + 1)
        some { s with pending := pending, poll := .ownHandler }
      else some (finishPoll s)
    else none
  | .ownHandler => if s.quiet cfg.pollerCpu then some (finishPoll s) else none

/-- The logger's body. A ring is done when `log_and_clear` is back where it starts. -/
def logStep (s : UnloadState α) : UnloadState α :=
  match s.log with
  | .stopTest =>
    if s.logger.shouldStop then s.setTask .logger { s.logger with pc := .returned }
    else { s with log := .logging (logVisits cfg p) }
  | .logging [] => { s.setTask .logger { s.logger with pc := .loopTest } with log := .stopTest }
  | .logging (cpu :: rest) =>
    let next := consume cfg.bufferSize (s.channel cpu)
    { s with
      channel := Function.update s.channel cpu next.1
      file := s.file ++ next.2.map (Prod.mk cpu)
      log := .logging (if next.1.consumer = .idle then rest else cpu :: rest) }

/-- A step of a thread: of its body, or of the loop around it. -/
def runThread (s : UnloadState α) (w : Thread) : Option (UnloadState α) :=
  if (s.kthreads.task w).pc = .body then
    match w with
    | .poller => pollStep cfg p s
    | .logger => some (logStep cfg p s)
  else (runTask s.kthreads.hrperfRunning w (s.kthreads.task w)).map (s.setTask w)

/-- A step of the handler on `cpu`, from its call of `enqueue` on. -/
def handlerStep (s : UnloadState α) (cpu : Nat) (x : α) : Option (UnloadState α) :=
  let channel := Function.update s.channel cpu (produce cfg.bufferSize (s.channel cpu) x)
  if producerIdle (s.channel cpu) then
    if 0 < s.pending cpu then
      some { s with
        pending := Function.update s.pending cpu (s.pending cpu - 1)
        channel := channel }
    else none
  else some { s with channel := channel }

def kthreadStop (s : UnloadState α) (w : Thread) : UnloadState α :=
  s.setTask w (wakeUpProcess { s.kthreads.task w with shouldStop := true })

def Call.finished (c : Call) : Bool := c = .startDone ∨ c = .pauseDone

/-- `cleanup`, up to the point where it frees the rings. -/
def cleanupStep (s : UnloadState α) : Option (UnloadState α) :=
  match s.cleanup with
  | .notCalled =>
    if s.kthreads.calls.all Call.finished then
      some { kthreadStop s .logger with cleanup := .awaitLogger }
    else none
  | .awaitLogger =>
    if s.logger.pc = .returned then some { kthreadStop s .poller with cleanup := .awaitPoller }
    else none
  | .awaitPoller => if s.poller.pc = .returned then some { s with cleanup := .freeing } else none
  | .freeing => none

/-- An ioctl, or a step of one. -/
def ioctlStep (s : UnloadState α) (a : ThreadAction) : Option (UnloadState α) :=
  if s.cleanup = .notCalled then
    (threads.step s.kthreads a).map fun t => { s with kthreads := t }
  else none

def unload (cells : Nat → Nat → α) : Machine (UnloadState α) (UnloadAction α) where
  init := ⟨threads.init, .entered, .stopTest, fun _ => 0, fun cpu => Channel.init (cells cpu), [],
    .notCalled⟩
  step s a := match a with
    | .run w => runThread cfg p s w
    | .start => ioctlStep s .start
    | .pause => ioctlStep s .pause
    | .advance i => ioctlStep s (.advance i)
    | .handler cpu x => handlerStep cfg s cpu x
    | .handlerTimeout cpu =>
      if cfg.strictPollingSync = true ∧ 0 < s.pending cpu then
        some { s with pending := Function.update s.pending cpu (s.pending cpu - 1) }
      else none
    | .pollTimeout =>
      -- the own handler is a plain call, which `smp_poll_pmus` cannot leave
      if cfg.strictPollingSync = true ∧ s.poller.pc = .body ∧ s.poll ≠ .ownHandler then
        some (finishPoll s)
      else none
    | .cleanup => cleanupStep s

/-- The entries of the file that came from the ring of `cpu`. -/
def recordsOf (cpu : Nat) (file : List (Nat × α)) : List α :=
  (file.filter fun r => r.1 == cpu).map Prod.snd

/-- As the rings are freed, the file holds exactly the accepted entries of each, in order. -/
def NothingLost (s : UnloadState α) : Prop :=
  s.cleanup = .freeing → ∀ cpu, recordsOf cpu s.file = (s.channel cpu).accepted

/-- The next step of the logger is to return. -/
def loggerReturns (s : UnloadState α) : Bool :=
  s.logger.shouldStop &&
    (s.logger.pc == .loopTest || (s.logger.pc == .body && s.log == .stopTest))

/-- The next step of `enqueue` is to publish its tail. -/
def publishes (c : Channel α) : Bool :=
  match c.producer with
  | .copied _ _ => true
  | _ => false

/-- The logger returns only when the rings that polls fill are empty, and no entry is published
after it has returned. -/
def DrainedAtStop (s : UnloadState α) : UnloadAction α → Prop
  | .run .logger => loggerReturns s = true →
      ∀ cpu ∈ pollerRuns cfg p, (s.channel cpu).rb.head = (s.channel cpu).rb.tail
  | .handler cpu _ => s.logger.pc = .returned → publishes (s.channel cpu) = false
  | _ => True

instance (s : UnloadState α) (a : UnloadAction α) : Decidable (DrainedAtStop cfg p s a) :=
  match a with
  | .run .logger => inferInstanceAs (Decidable (loggerReturns s = true →
      ∀ cpu ∈ pollerRuns cfg p, (s.channel cpu).rb.head = (s.channel cpu).rb.tail))
  | .handler cpu _ => inferInstanceAs (Decidable
      (s.logger.pc = .returned → publishes (s.channel cpu) = false))
  | .run .poller => .isTrue trivial
  | .start => .isTrue trivial
  | .pause => .isTrue trivial
  | .advance _ => .isTrue trivial
  | .handlerTimeout _ => .isTrue trivial
  | .pollTimeout => .isTrue trivial
  | .cleanup => .isTrue trivial

/-- The ring of `cpu` and the part of the file that came from it agree. -/
def RingLogged (N : Nat) (s : UnloadState α) (cpu : Nat) : Prop :=
  ∃ released, Inv N (s.channel cpu) released ∧
    recordsOf cpu s.file = released ++ logged N (s.channel cpu)

/-- Only the ring that the logger is at is being read, a ring that no poll fills stays unused,
and once the logger has returned, which the poller's end comes after, the file is complete. -/
structure UnloadInv (s : UnloadState α) : Prop where
  rings : ∀ cpu, RingLogged cfg.bufferSize s cpu
  consumers : ∀ cpu, (s.channel cpu).consumer = .idle ∨
    (s.logger.pc = .body ∧ ∃ rest, s.log = .logging (cpu :: rest))
  unpolled : ∀ cpu, cpu ∉ pollerRuns cfg p →
    s.quiet cpu = true ∧ (s.channel cpu).accepted = []
  settled : s.logger.pc = .returned → ∀ cpu, recordsOf cpu s.file = (s.channel cpu).accepted
  order : s.cleanup = .awaitPoller ∨ s.cleanup = .freeing → s.logger.pc = .returned

@[simp] theorem setTask_logger (s : UnloadState α) (t : Task) :
    (s.setTask .logger t).logger = t := by
  simp [UnloadState.setTask, UnloadState.logger]

@[simp] theorem setTask_poller_logger (s : UnloadState α) (t : Task) :
    (s.setTask .poller t).logger = s.logger := by
  simp [UnloadState.setTask, UnloadState.logger, PollingThreads.setTask]

theorem recordsOf_append_self (cpu : Nat) (file : List (Nat × α)) (entries : List α) :
    recordsOf cpu (file ++ entries.map (Prod.mk cpu)) = recordsOf cpu file ++ entries := by
  simp [recordsOf, List.filter_append, List.filter_map, Function.comp_def]

theorem recordsOf_append_of_ne {cpu other : Nat} (h : other ≠ cpu) (file : List (Nat × α))
    (entries : List α) :
    recordsOf other (file ++ entries.map (Prod.mk cpu)) = recordsOf other file := by
  simp [recordsOf, List.filter_append, List.filter_map, Function.comp_def, Ne.symm h]

theorem produce_accepted_of_not_publishes (N : Nat) {c : Channel α} (x : α)
    (h : publishes c = false) : (produce N c x).accepted = c.accepted := by
  cases hpc : c.producer with
  | idle => simp [produce, hpc]
  | tailRead data next =>
    simp only [produce, hpc]
    split_ifs <;> rfl
  | headRead data next => simp [produce, hpc]
  | copying data next => simp [produce, hpc]
  | copied data next => simp [publishes, hpc] at h

/-- Only its own steps move a thread; the others may wake it. -/
theorem step_pc {s t : ThreadState} {a : ThreadAction} {w : Thread} (ha : a ≠ .run w)
    (h : threads.step s a = some t) : (t.task w).pc = (s.task w).pc := by
  cases a with
  | run v =>
    have hw : w ≠ v := by
      rintro rfl
      exact ha rfl
    obtain ⟨t', -, rfl⟩ := Option.map_eq_some_iff.mp h
    rw [setTask_of_ne s t' hw]
  | start => obtain rfl := Option.some.inj h; rfl
  | pause => obtain rfl := Option.some.inj h; rfl
  | kthreadStop v =>
    obtain rfl := Option.some.inj h
    by_cases hw : w = v
    · subst hw
      rw [setTask_self]
      rfl
    · rw [setTask_of_ne s _ hw]
  | advance i =>
    simp only [threads] at h
    obtain ⟨c, -, hc⟩ := Option.bind_eq_some_iff.mp h
    have wake : ∀ v : Thread, (wakeUpProcess (s.task v)).pc = (s.task v).pc := fun _ => rfl
    cases c with
    | startDone => cases hc
    | pauseDone => cases hc
    | startFlagSet =>
      obtain rfl := Option.some.inj hc
      cases w <;> simp [PollingThreads.setTask, wake]
    | startPollerWoken =>
      obtain rfl := Option.some.inj hc
      cases w <;> simp [PollingThreads.setTask, wake]
    | startEntered => obtain rfl := Option.some.inj hc; rfl
    | startTested => obtain rfl := Option.some.inj hc; rfl
    | pauseEntered => obtain rfl := Option.some.inj hc; rfl
    | pauseTested => obtain rfl := Option.some.inj hc; rfl

variable {cfg p}

/-- Steps that leave the rings, the file and the logger where they are. -/
theorem UnloadInv.frame {s t : UnloadState α} (h : UnloadInv cfg p s)
    (channel : t.channel = s.channel) (file : t.file = s.file) (log : t.log = s.log)
    (pc : t.logger.pc = s.logger.pc)
    (pending : ∀ cpu, cpu ∉ pollerRuns cfg p → t.pending cpu = s.pending cpu)
    (order : t.cleanup = .awaitPoller ∨ t.cleanup = .freeing → s.logger.pc = .returned) :
    UnloadInv cfg p t where
  rings := by
    intro cpu
    rw [RingLogged, channel, file]
    exact h.rings cpu
  consumers := by
    intro cpu
    rw [channel, log, pc]
    exact h.consumers cpu
  unpolled := by
    intro cpu hcpu
    rw [UnloadState.quiet, channel, pending cpu hcpu]
    exact h.unpolled cpu hcpu
  settled := by
    rw [channel, file, pc]
    exact h.settled
  order := by
    rw [pc]
    exact order

/-- With the logger between its passes and the rings empty the file is complete. -/
theorem UnloadInv.complete {s : UnloadState α} (h : UnloadInv cfg p s)
    (idle : ∀ cpu, (s.channel cpu).consumer = .idle)
    (drained : ∀ cpu ∈ pollerRuns cfg p, (s.channel cpu).rb.head = (s.channel cpu).rb.tail)
    (cpu : Nat) : recordsOf cpu s.file = (s.channel cpu).accepted := by
  obtain ⟨released, inv, hfile⟩ := h.rings cpu
  have hlogged : logged cfg.bufferSize (s.channel cpu) = [] := by simp [logged, idle cpu]
  rw [hfile, hlogged, List.append_nil]
  by_cases hcpu : cpu ∈ pollerRuns cfg p
  · have hempty : contents cfg.bufferSize (s.channel cpu).rb = [] := by
      simp [contents, drained cpu hcpu]
    rw [inv.accepted, hempty, List.append_nil]
  · have hnone := (h.unpolled cpu hcpu).2
    have happ := inv.accepted
    rw [hnone] at happ
    rw [hnone, (List.append_eq_nil_iff.mp happ.symm).1]

theorem UnloadInv.idle {s : UnloadState α} (h : UnloadInv cfg p s)
    (hpc : s.logger.pc ≠ .body ∨ s.log = .stopTest) (cpu : Nat) :
    (s.channel cpu).consumer = .idle := by
  rcases h.consumers cpu with hidle | ⟨hbody, rest, hlog⟩
  · exact hidle
  · rcases hpc with hne | hstop
    · exact absurd hbody hne
    · rw [hstop] at hlog
      cases hlog

/-- Outside its body a thread returns from the loop test only. -/
theorem runTask_returned {r : Bool} {w : Thread} {t t' : Task} (hbody : t.pc ≠ .body)
    (h : runTask r w t = some t') (hret : t'.pc = .returned) :
    t.pc = .loopTest ∧ t.shouldStop = true := by
  obtain ⟨pc, state, stop⟩ := t
  cases pc with
  | loopTest =>
    cases stop with
    | false =>
      obtain rfl := Option.some.inj h
      cases hret
    | true => exact ⟨rfl, rfl⟩
  | runningTest =>
    obtain rfl := Option.some.inj h
    cases r <;> cases hret
  | paused =>
    obtain rfl := Option.some.inj h
    cases hret
  | willSchedule =>
    cases state <;> (obtain rfl := Option.some.inj h) <;> cases hret
  | inSchedule =>
    cases state with
    | running =>
      obtain rfl := Option.some.inj h
      cases hret
    | interruptible => cases h
  | body => exact absurd rfl hbody
  | returned => cases h

theorem runTask_ne_returned {r : Bool} {w : Thread} {t t' : Task}
    (h : runTask r w t = some t') : t.pc ≠ .returned := by
  intro hret
  simp [runTask, hret] at h

/-- The logger's loop around its body. -/
theorem UnloadInv.loggerLoop {s : UnloadState α} {t' : Task} (h : UnloadInv cfg p s)
    (hbody : s.logger.pc ≠ .body) (hok : DrainedAtStop cfg p s (.run .logger))
    (hrun : runTask s.kthreads.hrperfRunning .logger s.logger = some t') :
    UnloadInv cfg p (s.setTask .logger t') where
  rings := h.rings
  consumers := fun cpu => Or.inl (h.idle (Or.inl hbody) cpu)
  unpolled := h.unpolled
  settled := by
    rw [setTask_logger]
    intro hret cpu
    obtain ⟨hpc, hstop⟩ := runTask_returned hbody hrun hret
    have hreturns : loggerReturns s = true := by simp [loggerReturns, hpc, hstop]
    exact h.complete (h.idle (Or.inl hbody)) (hok hreturns) cpu
  order := fun hc => absurd (h.order hc) (runTask_ne_returned hrun)

/-- One access of `log_and_clear` to the ring that the logger is at. -/
theorem UnloadInv.logRing {s : UnloadState α} (h : UnloadInv cfg p s)
    (hbody : s.logger.pc = .body) {cpu : Nat} {rest : List Nat}
    (hlog : s.log = .logging (cpu :: rest)) :
    let next := consume cfg.bufferSize (s.channel cpu)
    UnloadInv cfg p { s with
      channel := Function.update s.channel cpu next.1
      file := s.file ++ next.2.map (Prod.mk cpu)
      log := .logging (if next.1.consumer = .idle then rest else cpu :: rest) } := by
  have notReturned : s.logger.pc ≠ .returned := by simp [hbody]
  refine ⟨?_, ?_, ?_, fun hret => absurd hret notReturned, h.order⟩
  · intro other
    obtain ⟨released, inv, hfile⟩ := h.rings other
    by_cases hother : other = cpu
    · subst hother
      obtain ⟨released', inv', hentries⟩ := consume_inv inv
      refine ⟨released', ?_, ?_⟩
      · simpa using inv'
      · dsimp only
        rw [recordsOf_append_self, hfile, Function.update_self, hentries]
    · refine ⟨released, ?_, ?_⟩
      · simpa [hother] using inv
      · dsimp only
        rw [recordsOf_append_of_ne hother, hfile, Function.update_of_ne hother]
  · intro other
    by_cases hother : other = cpu
    · subst hother
      by_cases hdone : (consume cfg.bufferSize (s.channel other)).1.consumer = .idle
      · exact Or.inl (by simpa using hdone)
      · exact Or.inr ⟨hbody, rest, by simp [hdone]⟩
    · left
      dsimp only
      rw [Function.update_of_ne hother]
      rcases h.consumers other with hidle | ⟨-, rest', hrest⟩
      · exact hidle
      · rw [hlog] at hrest
        simp only [LogPc.logging.injEq, List.cons.injEq] at hrest
        exact absurd hrest.1.symm hother
  · intro other hunpolled
    have hold := h.unpolled other hunpolled
    by_cases hother : other = cpu
    · subst hother
      simpa [UnloadState.quiet, producerIdle] using hold
    · simpa [UnloadState.quiet, producerIdle, hother] using hold

/-- The logger's body. -/
theorem UnloadInv.logStep {s : UnloadState α} (h : UnloadInv cfg p s)
    (hbody : s.logger.pc = .body) (hok : DrainedAtStop cfg p s (.run .logger)) :
    UnloadInv cfg p (logStep cfg p s) := by
  have notReturned : s.logger.pc ≠ .returned := by simp [hbody]
  have order : ∀ {q : Prop}, s.cleanup = .awaitPoller ∨ s.cleanup = .freeing → q :=
    fun hc => absurd (h.order hc) notReturned
  cases hlog : s.log with
  | stopTest =>
    have hidle := h.idle (Or.inr hlog)
    rw [ModuleUnload.logStep, hlog]
    dsimp only
    split
    · rename_i hstop
      have hreturns : loggerReturns s = true := by simp [loggerReturns, hbody, hstop, hlog]
      exact ⟨h.rings, fun cpu => Or.inl (hidle cpu), h.unpolled,
        fun _ => h.complete hidle (hok hreturns), fun hc => order hc⟩
    · exact ⟨h.rings, fun cpu => Or.inl (hidle cpu), h.unpolled, h.settled, h.order⟩
  | logging rest =>
    cases rest with
    | nil =>
      have hidle : ∀ cpu, (s.channel cpu).consumer = .idle := by
        intro cpu
        rcases h.consumers cpu with hidle | ⟨-, rest, hrest⟩
        · exact hidle
        · rw [hlog] at hrest
          cases hrest
      rw [ModuleUnload.logStep, hlog]
      refine ⟨h.rings, fun cpu => Or.inl (hidle cpu), h.unpolled, ?_, fun hc => order hc⟩
      intro hret
      have hpc : (s.setTask .logger { s.logger with pc := .loopTest }).logger.pc = .returned := hret
      rw [setTask_logger] at hpc
      cases hpc
    | cons cpu rest =>
      rw [ModuleUnload.logStep, hlog]
      exact h.logRing hbody hlog

theorem quiet_iff {s : UnloadState α} {cpu : Nat} :
    s.quiet cpu = true ↔ s.pending cpu = 0 ∧ producerIdle (s.channel cpu) = true := by
  simp [UnloadState.quiet]

/-- A handler that moves has been called, and moves its own ring only. -/
theorem handlerStep_some {s t : UnloadState α} {cpu : Nat} {x : α}
    (h : handlerStep cfg s cpu x = some t) :
    ¬ s.quiet cpu = true ∧
    t.channel = Function.update s.channel cpu (produce cfg.bufferSize (s.channel cpu) x) ∧
    t.file = s.file ∧ t.log = s.log ∧ t.logger = s.logger ∧ t.cleanup = s.cleanup ∧
    ∀ other, other ≠ cpu → t.pending other = s.pending other := by
  rw [handlerStep] at h
  split at h
  · split at h
    · rename_i hpending
      obtain rfl := Option.some.inj h
      refine ⟨?_, rfl, rfl, rfl, rfl, rfl, fun other hne => Function.update_of_ne hne _ _⟩
      intro hquiet
      have hzero := (quiet_iff.mp hquiet).1
      omega
    · cases h
  · rename_i hbusy
    obtain rfl := Option.some.inj h
    refine ⟨?_, rfl, rfl, rfl, rfl, rfl, fun _ _ => rfl⟩
    intro hquiet
    exact hbusy (quiet_iff.mp hquiet).2

/-- A handler fills only rings of polled CPUs, and after the logger's end publishes nothing. -/
theorem UnloadInv.handlerStep {s t : UnloadState α} {cpu : Nat} {x : α} (h : UnloadInv cfg p s)
    (hok : DrainedAtStop cfg p s (.handler cpu x)) (hstep : handlerStep cfg s cpu x = some t) :
    UnloadInv cfg p t := by
  obtain ⟨hbusy, hchannel, hfile, hlog, hlogger, hcleanup, hpending⟩ := handlerStep_some hstep
  have hpolled : cpu ∈ pollerRuns cfg p := by
    by_contra hnot
    exact hbusy (h.unpolled cpu hnot).1
  refine ⟨?_, ?_, ?_, ?_, ?_⟩
  · intro other
    obtain ⟨released, inv, hrecords⟩ := h.rings other
    rw [RingLogged, hchannel, hfile]
    by_cases hother : other = cpu
    · subst hother
      obtain ⟨inv', hlogged⟩ := produce_inv inv x
      rw [Function.update_self]
      exact ⟨released, inv', by rw [hlogged, hrecords]⟩
    · rw [Function.update_of_ne hother]
      exact ⟨released, inv, hrecords⟩
  · intro other
    rw [hchannel, hlog, hlogger]
    by_cases hother : other = cpu
    · subst hother
      rw [Function.update_self, produce_consumer]
      exact h.consumers other
    · rw [Function.update_of_ne hother]
      exact h.consumers other
  · intro other hunpolled
    have hother : other ≠ cpu := by
      rintro rfl
      exact hunpolled hpolled
    rw [UnloadState.quiet, hchannel, hpending other hother, Function.update_of_ne hother]
    exact h.unpolled other hunpolled
  · rw [hlogger, hchannel, hfile]
    intro hret other
    by_cases hother : other = cpu
    · subst hother
      rw [Function.update_self, produce_accepted_of_not_publishes _ _ (hok hret)]
      exact h.settled hret other
    · rw [Function.update_of_ne hother]
      exact h.settled hret other
  · rw [hlogger, hcleanup]
    exact h.order

theorem UnloadInv.finishPoll {s : UnloadState α} (h : UnloadInv cfg p s) :
    UnloadInv cfg p (finishPoll s) :=
  h.frame rfl rfl rfl (congrArg Task.pc (setTask_poller_logger s _)) (fun _ _ => rfl) h.order

/-- The poller's body calls the handler on the CPUs that a poll runs on. -/
theorem UnloadInv.pollStep {s t : UnloadState α} (h : UnloadInv cfg p s)
    (hstep : pollStep cfg p s = some t) : UnloadInv cfg p t := by
  rw [ModuleUnload.pollStep] at hstep
  split at hstep
  · obtain rfl := Option.some.inj hstep
    refine h.frame rfl rfl rfl rfl ?_ h.order
    intro cpu hcpu
    have hnot : cpu ∉ calledCpus cfg p := fun hmem => hcpu (List.mem_append_left _ hmem)
    simp [hnot]
  · split at hstep
    · split at hstep
      · rename_i hcore
        obtain rfl := Option.some.inj hstep
        refine h.frame rfl rfl rfl rfl ?_ h.order
        intro cpu hcpu
        have hne : cpu ≠ cfg.pollerCpu := by
          rintro rfl
          exact hcpu (mem_pollerRuns.mpr (Or.inr ⟨hcore, rfl⟩))
        exact Function.update_of_ne hne _ _
      · obtain rfl := Option.some.inj hstep
        exact h.finishPoll
    · cases hstep
  · split at hstep
    · obtain rfl := Option.some.inj hstep
      exact h.finishPoll
    · cases hstep

theorem UnloadInv.runThread {s t : UnloadState α} {w : Thread} (h : UnloadInv cfg p s)
    (hok : DrainedAtStop cfg p s (.run w)) (hstep : runThread cfg p s w = some t) :
    UnloadInv cfg p t := by
  unfold ModuleUnload.runThread at hstep
  split at hstep
  · rename_i hbody
    cases w with
    | poller => exact h.pollStep hstep
    | logger =>
      obtain rfl := Option.some.inj hstep
      exact h.logStep hbody hok
  · rename_i hbody
    obtain ⟨t', hrun, rfl⟩ := Option.map_eq_some_iff.mp hstep
    cases w with
    | poller =>
      exact h.frame rfl rfl rfl (congrArg Task.pc (setTask_poller_logger s t'))
        (fun _ _ => rfl) h.order
    | logger => exact h.loggerLoop hbody hok hrun

theorem UnloadInv.ioctlStep {s t : UnloadState α} {a : ThreadAction} (h : UnloadInv cfg p s)
    (ha : a ≠ .run .logger) (hstep : ioctlStep s a = some t) : UnloadInv cfg p t := by
  rw [ModuleUnload.ioctlStep] at hstep
  split at hstep
  · obtain ⟨kthreads, hthreads, rfl⟩ := Option.map_eq_some_iff.mp hstep
    exact h.frame rfl rfl rfl (step_pc ha hthreads) (fun _ _ => rfl) h.order
  · cases hstep

theorem kthreadStop_logger_pc (s : UnloadState α) (w : Thread) :
    (kthreadStop s w).logger.pc = s.logger.pc := by
  cases w with
  | poller => exact congrArg Task.pc (setTask_poller_logger s _)
  | logger => rw [kthreadStop, setTask_logger]; rfl

/-- `cleanup` comes to the poller only after the logger has returned. -/
theorem UnloadInv.cleanupStep {s t : UnloadState α} (h : UnloadInv cfg p s)
    (hstep : cleanupStep s = some t) : UnloadInv cfg p t := by
  rw [ModuleUnload.cleanupStep] at hstep
  split at hstep
  · split at hstep
    · obtain rfl := Option.some.inj hstep
      refine h.frame rfl rfl rfl (kthreadStop_logger_pc s .logger) (fun _ _ => rfl) ?_
      rintro (hc | hc) <;> cases hc
    · cases hstep
  · split at hstep
    · rename_i hret
      obtain rfl := Option.some.inj hstep
      exact h.frame rfl rfl rfl (kthreadStop_logger_pc s .poller) (fun _ _ => rfl) fun _ => hret
    · cases hstep
  · rename_i hawait
    split at hstep
    · obtain rfl := Option.some.inj hstep
      exact h.frame rfl rfl rfl rfl (fun _ _ => rfl) fun _ => h.order (Or.inl hawait)
    · cases hstep
  · cases hstep

theorem init_unloadInv (hN : 0 < cfg.bufferSize) (cells : Nat → Nat → α) :
    UnloadInv cfg p (unload cfg p cells).init where
  rings := fun cpu => ⟨[], init_inv hN (cells cpu), rfl⟩
  consumers := fun _ => Or.inl rfl
  unpolled := fun _ _ => ⟨rfl, rfl⟩
  settled := fun hret => nomatch hret
  order := by rintro (hc | hc) <;> cases hc

/-- One step of the system. -/
theorem step_unloadInv {cells : Nat → Nat → α} {s t : UnloadState α} {a : UnloadAction α}
    (h : UnloadInv cfg p s) (hok : DrainedAtStop cfg p s a)
    (hstep : (unload cfg p cells).step s a = some t) : UnloadInv cfg p t := by
  cases a with
  | run w => exact h.runThread hok hstep
  | start => exact h.ioctlStep (by rintro ⟨⟩) hstep
  | pause => exact h.ioctlStep (by rintro ⟨⟩) hstep
  | advance i => exact h.ioctlStep (by rintro ⟨⟩) hstep
  | handler cpu x => exact h.handlerStep hok hstep
  | handlerTimeout cpu =>
    simp only [unload] at hstep
    split at hstep
    · rename_i hpending
      obtain rfl := Option.some.inj hstep
      refine h.frame rfl rfl rfl rfl ?_ h.order
      intro other hother
      have hne : other ≠ cpu := by
        rintro rfl
        have hzero := (quiet_iff.mp (h.unpolled other hother).1).1
        omega
      exact Function.update_of_ne hne _ _
    · cases hstep
  | pollTimeout =>
    simp only [unload] at hstep
    split at hstep
    · obtain rfl := Option.some.inj hstep
      exact h.finishPoll
    · cases hstep
  | cleanup => exact h.cleanupStep hstep

/-- In every run in which the logger leaves the rings empty behind it and nothing is published
later, unloading loses no accepted entry and logs none twice. -/
theorem nothing_lost_when_drained (hN : 0 < cfg.bufferSize) (cells : Nat → Nat → α)
    {s : UnloadState α} (h : Reaches (unload cfg p cells) (DrainedAtStop cfg p) s) :
    NothingLost s := by
  have inv : UnloadInv cfg p s :=
    h.invariant (init_unloadInv hN cells) fun s a t hs hok hstep => step_unloadInv hs hok hstep
  intro hfreeing cpu
  exact inv.settled (inv.order (Or.inr hfreeing)) cpu

/-- The handler on `cpu` has an entry accepted. -/
def handlerCall (cpu x : Nat) : List (UnloadAction Nat) := List.replicate 5 (.handler cpu x)

/-- One START, one poll, one log pass, and `cleanup` while both threads are between rounds. -/
def drainedTrace : List (UnloadAction Nat) :=
  List.flatten
    [[.start], List.replicate 4 (.advance 0), List.replicate 3 (.run .poller),
      handlerCall 0 7, handlerCall 2 9, [.run .poller], List.replicate 12 (.run .logger),
      [.cleanup, .run .logger, .cleanup, .run .poller, .cleanup]]

theorem nothing_lost_after_drained_run :
    ∃ s, Reaches (unload twoCpuConfig fourCpus fun _ _ => 0)
        (DrainedAtStop twoCpuConfig fourCpus) s ∧
      (s.cleanup = .freeing ∧ s.file = [(0, 7), (2, 9)]) ∧ NothingLost s := by
  obtain ⟨s, hs, hp⟩ := reaches_of_run
    (m := unload twoCpuConfig fourCpus fun _ _ => (0 : Nat)) (DrainedAtStop twoCpuConfig fourCpus)
    (p := fun s => s.cleanup = .freeing ∧ s.file = [(0, 7), (2, 9)])
    drainedTrace (by decide +kernel)
  exact ⟨s, hs, of_decide_eq_true hp, nothing_lost_when_drained (by decide) _ hs⟩

/-- Monitoring has never been on. Both threads sleep; the logger returns when it is stopped,
and the poller polls once when it is. -/
def pausedTrace : List (UnloadAction Nat) :=
  List.flatten
    [List.replicate 4 (.run .poller), List.replicate 4 (.run .logger),
      [.cleanup, .run .logger, .run .logger, .cleanup, .run .poller, .run .poller],
      handlerCall 0 7, handlerCall 2 9, [.run .poller, .run .poller, .cleanup]]

theorem last_poll_is_lost :
    ¬ ∀ s, Reachable (unload twoCpuConfig fourCpus fun _ _ => (0 : Nat)) s → NothingLost s := by
  intro hall
  obtain ⟨s, hs, hp⟩ := reachable_of_run
    (m := unload twoCpuConfig fourCpus fun _ _ => (0 : Nat))
    (p := fun s => s.cleanup = .freeing ∧ s.file = [] ∧ (s.channel 0).accepted = [7])
    pausedTrace (by decide +kernel)
  obtain ⟨hfreeing, hfile, haccepted⟩ := of_decide_eq_true hp
  have hlost := hall s hs hfreeing 0
  rw [hfile, haccepted] at hlost
  cases hlost

/-! ## The loops are those of `PollingThreads` -/

/-- The logger as it stands at its loop test. -/
def atLoopTest (k : ThreadState) : ThreadState :=
  PollingThreads.setTask k .logger { k.task .logger with pc := .loopTest }

/-- The state of the loops alone. There the second stop test decides the whole body, so that a
logger in the middle of a pass has its body behind it. -/
inductive LoopView (s : UnloadState α) : ThreadState → Prop where
  | between : s.log = .stopTest → LoopView s s.kthreads
  | inPass : s.log ≠ .stopTest → s.logger.pc = .body → LoopView s (atLoopTest s.kthreads)

theorem setTask_comm (k : ThreadState) {v w : Thread} (h : v ≠ w) (t u : Task) :
    PollingThreads.setTask (PollingThreads.setTask k w t) v u =
      PollingThreads.setTask (PollingThreads.setTask k v u) w t := by
  simp only [PollingThreads.setTask, ThreadState.mk.injEq, true_and, and_true]
  funext x
  by_cases hv : x = v
  · subst hv
    simp [h]
  · simp [hv]

theorem setTask_setTask (k : ThreadState) (w : Thread) (t u : Task) :
    PollingThreads.setTask (PollingThreads.setTask k w t) w u = PollingThreads.setTask k w u := by
  simp only [PollingThreads.setTask, ThreadState.mk.injEq, true_and, and_true]
  funext x
  by_cases hw : x = w <;> simp [hw]

/-- Steps that are not the logger's do not ask where it stands. -/
theorem step_atLoopTest {k k' : ThreadState} {a : ThreadAction} (ha : a ≠ .run .logger)
    (h : threads.step k a = some k') : threads.step (atLoopTest k) a = some (atLoopTest k') := by
  cases a with
  | run w =>
    cases w with
    | logger => exact absurd rfl ha
    | poller =>
      obtain ⟨t', ht', rfl⟩ := Option.map_eq_some_iff.mp h
      refine Option.map_eq_some_iff.mpr ⟨t', ht', ?_⟩
      exact setTask_comm k (by decide) _ _
  | start => obtain rfl := Option.some.inj h; rfl
  | pause => obtain rfl := Option.some.inj h; rfl
  | kthreadStop w =>
    obtain rfl := Option.some.inj h
    cases w with
    | poller => exact congrArg some (setTask_comm k (by decide) _ _)
    | logger =>
      simp only [threads, atLoopTest, setTask_setTask, setTask_self]
      rfl
  | advance i =>
    simp only [threads] at h ⊢
    obtain ⟨c, hi, hc⟩ := Option.bind_eq_some_iff.mp h
    refine Option.bind_eq_some_iff.mpr ⟨c, hi, ?_⟩
    cases c with
    | startDone => cases hc
    | pauseDone => cases hc
    | startFlagSet =>
      obtain rfl := Option.some.inj hc
      have hcomm := setTask_comm k (v := .poller) (w := .logger) (by decide)
        { k.task .logger with pc := .loopTest } (wakeUpProcess (k.task .poller))
      exact congrArg (fun k => some { k with calls := k.calls.set i .startPollerWoken }) hcomm
    | startPollerWoken =>
      obtain rfl := Option.some.inj hc
      have hleft := setTask_setTask k .logger { k.task .logger with pc := .loopTest }
        (wakeUpProcess { k.task .logger with pc := .loopTest })
      have hright := setTask_setTask k .logger (wakeUpProcess (k.task .logger))
        (wakeUpProcess { k.task .logger with pc := .loopTest })
      exact congrArg (fun k => some { k with calls := k.calls.set i .startDone })
        (hleft.trans hright.symm)
    | startEntered => obtain rfl := Option.some.inj hc; rfl
    | startTested => obtain rfl := Option.some.inj hc; rfl
    | pauseEntered => obtain rfl := Option.some.inj hc; rfl
    | pauseTested => obtain rfl := Option.some.inj hc; rfl

/-- A step of the loops that is not the logger's, and leaves the log pass as it is. -/
theorem LoopView.lift {s s' : UnloadState α} {t : ThreadState} {a : ThreadAction}
    (h : LoopView s t) (ha : a ≠ .run .logger) (hstep : threads.step s.kthreads a = some s'.kthreads)
    (hlog : s'.log = s.log) : ∃ b t', threads.step t b = some t' ∧ LoopView s' t' := by
  cases h with
  | between hstop => exact ⟨a, _, hstep, .between (hlog.trans hstop)⟩
  | inPass hpass hbody =>
    refine ⟨a, _, step_atLoopTest ha hstep, .inPass (hlog ▸ hpass) ?_⟩
    exact (step_pc ha hstep).trans hbody

theorem LoopView.stutter {s s' : UnloadState α} {t : ThreadState} (h : LoopView s t)
    (hthreads : s'.kthreads = s.kthreads) (hlog : s'.log = s.log) : LoopView s' t := by
  have hlogger : s'.logger = s.logger := congrArg (fun k => k.task .logger) hthreads
  cases h with
  | between hstop => exact hthreads ▸ .between (hlog.trans hstop)
  | inPass hpass hbody =>
    rw [← hthreads]
    exact .inPass (hlog ▸ hpass) (hlogger ▸ hbody)

theorem finishPoll_step {s : UnloadState α} (h : s.poller.pc = .body) :
    threads.step s.kthreads (.run .poller) = some (finishPoll s).kthreads := by
  have hrun : runTask s.kthreads.hrperfRunning .poller s.poller =
      some { s.poller with pc := .loopTest } := by
    simp [runTask, h]
  exact Option.map_eq_some_iff.mpr ⟨_, hrun, rfl⟩

theorem pollStep_loop {s s' : UnloadState α} (hbody : s.poller.pc = .body)
    (h : pollStep cfg p s = some s') : s'.log = s.log ∧
      (s'.kthreads = s.kthreads ∨ threads.step s.kthreads (.run .poller) = some s'.kthreads) := by
  rw [pollStep] at h
  split at h
  · obtain rfl := Option.some.inj h
    exact ⟨rfl, Or.inl rfl⟩
  · split at h
    · split at h
      · obtain rfl := Option.some.inj h
        exact ⟨rfl, Or.inl rfl⟩
      · obtain rfl := Option.some.inj h
        exact ⟨rfl, Or.inr (finishPoll_step hbody)⟩
    · cases h
  · split at h
    · obtain rfl := Option.some.inj h
      exact ⟨rfl, Or.inr (finishPoll_step hbody)⟩
    · cases h

/-- The logger's body: its stop test is the step of the loop, and the pass after it is none. -/
theorem LoopView.logStep {s : UnloadState α} {t : ThreadState} (h : LoopView s t)
    (hbody : s.logger.pc = .body) : LoopView (logStep cfg p s) t ∨
      ∃ b t', threads.step t b = some t' ∧ LoopView (logStep cfg p s) t' := by
  cases h with
  | between hstop =>
    right
    rw [ModuleUnload.logStep, hstop]
    dsimp only
    split
    · rename_i hflag
      have hrun : runTask s.kthreads.hrperfRunning .logger s.logger =
          some { s.logger with pc := .returned } := by
        simp [runTask, hbody, hflag]
      exact ⟨.run .logger, _, Option.map_eq_some_iff.mpr ⟨_, hrun, rfl⟩, .between hstop⟩
    · rename_i hflag
      have hrun : runTask s.kthreads.hrperfRunning .logger s.logger =
          some { s.logger with pc := .loopTest } := by
        simp [runTask, hbody, hflag]
      refine ⟨.run .logger, _, Option.map_eq_some_iff.mpr ⟨_, hrun, rfl⟩, ?_⟩
      exact .inPass (s := { s with log := .logging (logVisits cfg p) }) nofun hbody
  | inPass hpass _ =>
    left
    cases hlog : s.log with
    | stopTest => exact absurd hlog hpass
    | logging rest =>
      rw [ModuleUnload.logStep, hlog]
      cases rest with
      | nil => exact .between rfl
      | cons cpu rest => exact .inPass nofun hbody

/-- `kthread_stop` is a step of the loops, and the rest of `cleanup` does not touch them. -/
theorem LoopView.cleanupStep {s s' : UnloadState α} {t : ThreadState} (h : LoopView s t)
    (hstep : cleanupStep s = some s') :
    LoopView s' t ∨ ∃ b t', threads.step t b = some t' ∧ LoopView s' t' := by
  rw [ModuleUnload.cleanupStep] at hstep
  split at hstep
  · split at hstep
    · obtain rfl := Option.some.inj hstep
      exact Or.inr (h.lift (a := .kthreadStop .logger) (by rintro ⟨⟩) rfl rfl)
    · cases hstep
  · split at hstep
    · obtain rfl := Option.some.inj hstep
      exact Or.inr (h.lift (a := .kthreadStop .poller) (by rintro ⟨⟩) rfl rfl)
    · cases hstep
  · split at hstep
    · obtain rfl := Option.some.inj hstep
      exact Or.inl (h.stutter rfl rfl)
    · cases hstep
  · cases hstep

theorem LoopView.runThread {s s' : UnloadState α} {w : Thread} {t : ThreadState} (h : LoopView s t)
    (hstep : runThread cfg p s w = some s') :
    LoopView s' t ∨ ∃ b t', threads.step t b = some t' ∧ LoopView s' t' := by
  unfold ModuleUnload.runThread at hstep
  split at hstep
  · rename_i hbody
    cases w with
    | poller =>
      obtain ⟨hlog, hsame | hloop⟩ := pollStep_loop hbody hstep
      · exact Or.inl (h.stutter hsame hlog)
      · exact Or.inr (h.lift (by rintro ⟨⟩) hloop hlog)
    | logger =>
      obtain rfl := Option.some.inj hstep
      exact h.logStep hbody
  · rename_i hbody
    obtain ⟨t', hrun, rfl⟩ := Option.map_eq_some_iff.mp hstep
    cases w with
    | poller =>
      have hloop : threads.step s.kthreads (.run .poller) =
          some (s.setTask .poller t').kthreads :=
        Option.map_eq_some_iff.mpr ⟨t', hrun, rfl⟩
      exact Or.inr (h.lift (by rintro ⟨⟩) hloop rfl)
    | logger =>
      cases h with
      | between hstop =>
        exact Or.inr ⟨.run .logger, _, Option.map_eq_some_iff.mpr ⟨t', hrun, rfl⟩, .between hstop⟩
      | inPass _ hpass => exact absurd hpass hbody

theorem LoopView.step {cells : Nat → Nat → α} {s s' : UnloadState α} {a : UnloadAction α}
    {t : ThreadState} (h : LoopView s t) (hstep : (unload cfg p cells).step s a = some s') :
    LoopView s' t ∨ ∃ b t', threads.step t b = some t' ∧ LoopView s' t' := by
  have ioctl : ∀ {b : ThreadAction}, b ≠ .run .logger → ioctlStep s b = some s' →
      ∃ b t', threads.step t b = some t' ∧ LoopView s' t' := by
    intro b hb hioctl
    rw [ioctlStep] at hioctl
    split at hioctl
    · obtain ⟨k, hk, rfl⟩ := Option.map_eq_some_iff.mp hioctl
      exact h.lift hb hk rfl
    · cases hioctl
  cases a with
  | start => exact Or.inr (ioctl (by rintro ⟨⟩) hstep)
  | pause => exact Or.inr (ioctl (by rintro ⟨⟩) hstep)
  | advance i => exact Or.inr (ioctl (by rintro ⟨⟩) hstep)
  | handler cpu x =>
    simp only [unload, ModuleUnload.handlerStep] at hstep
    split at hstep
    · split at hstep
      · obtain rfl := Option.some.inj hstep
        exact Or.inl (h.stutter rfl rfl)
      · cases hstep
    · obtain rfl := Option.some.inj hstep
      exact Or.inl (h.stutter rfl rfl)
  | handlerTimeout cpu =>
    simp only [unload] at hstep
    split at hstep
    · obtain rfl := Option.some.inj hstep
      exact Or.inl (h.stutter rfl rfl)
    · cases hstep
  | pollTimeout =>
    simp only [unload] at hstep
    split at hstep
    · rename_i hpoll
      obtain rfl := Option.some.inj hstep
      exact Or.inr (h.lift (by rintro ⟨⟩) (finishPoll_step hpoll.2.1) rfl)
    · cases hstep
  | cleanup => exact h.cleanupStep hstep
  | run w => exact h.runThread hstep

/-- Every state reached with the loop bodies opened up is, for the loops, a state reached in
`PollingThreads`. -/
theorem loops_simulated {cells : Nat → Nat → α} {s : UnloadState α}
    (h : Reachable (unload cfg p cells) s) : ∃ t, Reachable threads t ∧ LoopView s t := by
  refine Reachable.simulate (R := LoopView) (.between rfl) ?_ h
  intro s a s' t hview hstep
  exact hview.step hstep

end ModuleUnload
