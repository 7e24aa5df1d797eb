import Hiresperf.Foundation.StepMachine

/-!
# Pausing and waking the poller and logger threads

Polling mode: `hrperf_poller_thread` and `hrperf_logger_thread` test
`hrperf_running`, set their task state and call `schedule` in three separate
steps, while any number of START and PAUSE ioctls run. `wake_up_process` sets a
task that is not running back to running and does nothing to a running one. A
task that calls `schedule` while its state is running does not sleep.

The work of a loop body (a poll, a log pass, `usleep_range`) is one step, since
it touches neither the flag nor the task states.
-/

namespace PollingThreads

open StepMachine

inductive Thread where
  | poller
  | logger
  deriving DecidableEq

inductive TaskState where
  | running
  | interruptible
  deriving DecidableEq

/-- Where a thread function stands in its loop. -/
inductive Pc where
  | loopTest
  | runningTest
  | paused
  | willSchedule
  | inSchedule
  | body
  | returned
  deriving DecidableEq

structure Task where
  pc : Pc
  state : TaskState
  shouldStop : Bool
  deriving DecidableEq

/-- An ioctl and how far it has come; START sets the flag and then wakes both threads. -/
inductive Call where
  | startEntered
  | startTested
  | startFlagSet
  | startPollerWoken
  | startDone
  | pauseEntered
  | pauseTested
  | pauseDone
  deriving DecidableEq

structure ThreadState where
  hrperfRunning : Bool
  task : Thread → Task
  calls : List Call

inductive ThreadAction where
  | run (w : Thread)
  | start
  | pause
  | advance (i : Nat)
  | kthreadStop (w : Thread)

def wakeUpProcess (t : Task) : Task := { t with state := .running }

def setTask (s : ThreadState) (w : Thread) (t : Task) : ThreadState :=
  { s with task := fun v => if v = w then t else s.task v }

/-- The next step of a thread function; `none` while it sleeps or once it has returned. -/
def runTask (hrperfRunning : Bool) (w : Thread) (t : Task) : Option Task :=
  match t.pc with
  | .loopTest => some { t with pc := if t.shouldStop then .returned else .runningTest }
  | .runningTest => some { t with pc := if hrperfRunning then .body else .paused }
  | .paused => some { t with state := .interruptible, pc := .willSchedule }
  | .willSchedule =>
    match t.state with
    | .running => some { t with pc := .body }
    | .interruptible => some { t with pc := .inSchedule }
  | .inSchedule =>
    match t.state with
    | .running => some { t with pc := .body }
    | .interruptible => none
  | .body =>
    match w with
    | .poller => some { t with pc := .loopTest }
    -- the logger tests kthread_should_stop again before it logs
    | .logger => some { t with pc := if t.shouldStop then .returned else .loopTest }
  | .returned => none

/-- The next step of an ioctl that stands at position `i` of `calls`. -/
def advanceCall (s : ThreadState) (i : Nat) : Call → Option ThreadState
  | .startEntered =>
    some { s with calls := s.calls.set i (if s.hrperfRunning then .startDone else .startTested) }
  | .startTested => some { s with hrperfRunning := true, calls := s.calls.set i .startFlagSet }
  | .startFlagSet =>
    some { setTask s .poller (wakeUpProcess (s.task .poller)) with
      calls := s.calls.set i .startPollerWoken }
  | .startPollerWoken =>
    some { setTask s .logger (wakeUpProcess (s.task .logger)) with
      calls := s.calls.set i .startDone }
  | .startDone => none
  | .pauseEntered =>
    some { s with calls := s.calls.set i (if s.hrperfRunning then .pauseTested else .pauseDone) }
  | .pauseTested => some { s with hrperfRunning := false, calls := s.calls.set i .pauseDone }
  | .pauseDone => none

/-- Both threads have been created and woken by `hrp_pmc_init`. -/
def threads : Machine ThreadState ThreadAction where
  init := ⟨false, fun _ => ⟨.loopTest, .running, false⟩, []⟩
  step s a := match a with
    | .run w => (runTask s.hrperfRunning w (s.task w)).map (setTask s w)
    | .start => some { s with calls := s.calls ++ [.startEntered] }
    | .pause => some { s with calls := s.calls ++ [.pauseEntered] }
    | .advance i => (s.calls[i]?).bind (advanceCall s i)
    | .kthreadStop w => some (setTask s w (wakeUpProcess { s.task w with shouldStop := true }))

def Call.StartInProgress : Call → Prop
  | .startEntered | .startTested | .startFlagSet | .startPollerWoken => True
  | .startDone | .pauseEntered | .pauseTested | .pauseDone => False

instance (c : Call) : Decidable c.StartInProgress :=
  match c with
  | .startEntered | .startTested | .startFlagSet | .startPollerWoken => .isTrue trivial
  | .startDone | .pauseEntered | .pauseTested | .pauseDone => .isFalse id

/-- In `schedule` with no wake-up pending. -/
def Task.Asleep (t : Task) : Prop := t.pc = .inSchedule ∧ t.state = .interruptible

/-- Monitoring is on, no START will wake anybody any more, and a thread sleeps. -/
def LostWakeup (s : ThreadState) : Prop :=
  s.hrperfRunning = true ∧ (∀ c ∈ s.calls, ¬ c.StartInProgress) ∧ ∃ w, (s.task w).Asleep

/-- No `wake_up_process` of a START finds its thread between the test of the flag and
`set_current_state(TASK_INTERRUPTIBLE)`. -/
def WakesOutsideWindow (s : ThreadState) : ThreadAction → Prop
  | .advance i =>
    (s.calls[i]? = some .startFlagSet → (s.task .poller).pc ≠ .paused) ∧
    (s.calls[i]? = some .startPollerWoken → (s.task .logger).pc ≠ .paused)
  | _ => True

instance (s : ThreadState) (a : ThreadAction) : Decidable (WakesOutsideWindow s a) :=
  match a with
  | .advance i => inferInstanceAs (Decidable
      ((s.calls[i]? = some .startFlagSet → (s.task .poller).pc ≠ .paused) ∧
      (s.calls[i]? = some .startPollerWoken → (s.task .logger).pc ≠ .paused)))
  | .run _ => .isTrue trivial
  | .start => .isTrue trivial
  | .pause => .isTrue trivial
  | .kthreadStop _ => .isTrue trivial

/-- On the way to sleep, after having seen the flag false. -/
def Task.Drowsy (t : Task) : Prop :=
  t.pc = .paused ∨ (t.state = .interruptible ∧ (t.pc = .willSchedule ∨ t.pc = .inSchedule))

/-- An ioctl that has set the flag and still has to wake `w`. -/
def Call.WillWake (w : Thread) : Call → Prop
  | .startFlagSet => True
  | .startPollerWoken => w = .logger
  | _ => False

/-- While monitoring is on, a thread on its way to sleep has a wake-up coming. -/
def WakeInv (s : ThreadState) : Prop :=
  s.hrperfRunning = true → ∀ w, (s.task w).Drowsy →
    ∃ (j : Nat) (c : Call), s.calls[j]? = some c ∧ c.WillWake w

theorem not_drowsy_wakeUp {t : Task} (h : t.pc ≠ .paused) : ¬ (wakeUpProcess t).Drowsy := by
  rintro (hp | ⟨hs, -⟩)
  · exact h hp
  · cases hs

theorem drowsy_of_wakeUp {t : Task} (h : (wakeUpProcess t).Drowsy) : t.Drowsy := by
  rcases h with hp | ⟨hs, -⟩
  · exact Or.inl hp
  · cases hs

/-- A thread becomes drowsy only at the test of the flag, when it sees it false. -/
theorem runTask_drowsy {w : Thread} {t t' : Task} (h : runTask true w t = some t')
    (hd : t'.Drowsy) : t.Drowsy := by
  obtain ⟨pc, state, stop⟩ := t
  cases pc with
  | loopTest =>
    cases stop <;> (obtain rfl := Option.some.inj h) <;> simp [Task.Drowsy] at hd
  | runningTest =>
    obtain rfl := Option.some.inj h
    simp [Task.Drowsy] at hd
  | paused => exact Or.inl rfl
  | willSchedule =>
    cases state with
    | running =>
      obtain rfl := Option.some.inj h
      simp [Task.Drowsy] at hd
    | interruptible => exact Or.inr ⟨rfl, Or.inl rfl⟩
  | inSchedule =>
    cases state with
    | running =>
      obtain rfl := Option.some.inj h
      simp [Task.Drowsy] at hd
    | interruptible => cases h
  | body =>
    cases w <;> cases stop <;> (obtain rfl := Option.some.inj h) <;> simp [Task.Drowsy] at hd
  | returned => cases h

/-- A change of the call at `i` to one that still wakes `w` keeps the wake-up coming. -/
theorem exists_willWake_set {calls : List Call} {i : Nat} {c c' : Call} {w : Thread}
    (hi : calls[i]? = some c) (keeps : c.WillWake w → c'.WillWake w)
    (h : ∃ (j : Nat) (c : Call), calls[j]? = some c ∧ c.WillWake w) :
    ∃ (j : Nat) (c : Call), (calls.set i c')[j]? = some c ∧ c.WillWake w := by
  obtain ⟨j, d, hj, hd⟩ := h
  have hlt : i < calls.length := (List.getElem?_eq_some_iff.mp hi).1
  by_cases hij : i = j
  · subst hij
    have hcd : c = d := Option.some.inj (hi.symm.trans hj)
    exact ⟨i, c', by simp [hlt], keeps (hcd ▸ hd)⟩
  · exact ⟨j, d, by simp [hij, hj], hd⟩

theorem exists_willWake_append {calls : List Call} {w : Thread} (c' : Call)
    (h : ∃ (j : Nat) (c : Call), calls[j]? = some c ∧ c.WillWake w) :
    ∃ (j : Nat) (c : Call), (calls ++ [c'])[j]? = some c ∧ c.WillWake w := by
  obtain ⟨j, c, hj, hc⟩ := h
  have hlt : j < calls.length := (List.getElem?_eq_some_iff.mp hj).1
  exact ⟨j, c, (List.getElem?_append_left hlt).trans hj, hc⟩

@[simp] theorem setTask_self (s : ThreadState) (w : Thread) (t : Task) :
    (setTask s w t).task w = t := by
  simp [setTask]

theorem setTask_of_ne (s : ThreadState) {v w : Thread} (t : Task) (h : v ≠ w) :
    (setTask s w t).task v = s.task v := by
  simp [setTask, h]

theorem advanceCall_wakeInv {s t : ThreadState} {i : Nat} {c : Call} (h : WakeInv s)
    (hi : s.calls[i]? = some c) (hok : WakesOutsideWindow s (.advance i))
    (hstep : advanceCall s i c = some t) : WakeInv t := by
  cases c with
  | startEntered =>
    obtain rfl := Option.some.inj hstep
    intro hrun w hd
    exact exists_willWake_set hi (fun hw => hw.elim) (h hrun w hd)
  | startTested =>
    obtain rfl := Option.some.inj hstep
    intro _ w _
    have hlt : i < s.calls.length := (List.getElem?_eq_some_iff.mp hi).1
    exact ⟨i, .startFlagSet, by simp [hlt], trivial⟩
  | startFlagSet =>
    obtain rfl := Option.some.inj hstep
    intro hrun w hd
    cases w with
    | poller =>
      have hwake : (wakeUpProcess (s.task .poller)).Drowsy := by simpa [setTask] using hd
      exact absurd hwake (not_drowsy_wakeUp (hok.1 hi))
    | logger =>
      have hold : (s.task .logger).Drowsy := by simpa [setTask] using hd
      exact exists_willWake_set hi (fun _ => rfl) (h hrun _ hold)
  | startPollerWoken =>
    obtain rfl := Option.some.inj hstep
    intro hrun w hd
    cases w with
    | poller =>
      have hold : (s.task .poller).Drowsy := by simpa [setTask] using hd
      exact exists_willWake_set hi (fun hw => nomatch hw) (h hrun _ hold)
    | logger =>
      have hwake : (wakeUpProcess (s.task .logger)).Drowsy := by simpa [setTask] using hd
      exact absurd hwake (not_drowsy_wakeUp (hok.2 hi))
  | startDone => cases hstep
  | pauseEntered =>
    obtain rfl := Option.some.inj hstep
    intro hrun w hd
    exact exists_willWake_set hi (fun hw => hw.elim) (h hrun w hd)
  | pauseTested =>
    obtain rfl := Option.some.inj hstep
    intro hrun
    cases hrun
  | pauseDone => cases hstep

/-- One step of the system: the wake-up can only be spent on a thread that is not in the
window, and then that thread does not sleep. -/
theorem step_wakeInv {s t : ThreadState} {a : ThreadAction} (h : WakeInv s)
    (hok : WakesOutsideWindow s a) (hstep : threads.step s a = some t) : WakeInv t := by
  cases a with
  | run v =>
    simp only [threads, Option.map_eq_some_iff] at hstep
    obtain ⟨t', ht', rfl⟩ := hstep
    intro hrun w hd
    by_cases hvw : w = v
    · subst hvw
      rw [setTask_self] at hd
      have hflag : s.hrperfRunning = true := hrun
      rw [hflag] at ht'
      exact h hrun w (runTask_drowsy ht' hd)
    · rw [setTask_of_ne s t' hvw] at hd
      exact h hrun w hd
  | start =>
    obtain rfl := Option.some.inj hstep
    intro hrun w hd
    exact exists_willWake_append _ (h hrun w hd)
  | pause =>
    obtain rfl := Option.some.inj hstep
    intro hrun w hd
    exact exists_willWake_append _ (h hrun w hd)
  | advance i =>
    simp only [threads] at hstep
    cases hi : s.calls[i]? with
    | none => simp [hi] at hstep
    | some c => exact advanceCall_wakeInv h hi hok (by simpa [hi] using hstep)
  | kthreadStop v =>
    obtain rfl := Option.some.inj hstep
    intro hrun w hd
    by_cases hvw : w = v
    · subst hvw
      rw [setTask_self] at hd
      exact h hrun w (drowsy_of_wakeUp hd)
    · rw [setTask_of_ne s _ hvw] at hd
      exact h hrun w hd

/-- In every run in which no START wakes a thread inside its window, no wake-up is lost. -/
theorem no_lost_wakeup_outside_window {s : ThreadState}
    (h : Reaches threads WakesOutsideWindow s) : ¬ LostWakeup s := by
  have hinv : WakeInv s := by
    refine h.invariant (I := WakeInv) ?_ (fun s a t hs hok hstep => step_wakeInv hs hok hstep)
    intro hrun
    cases hrun
  rintro ⟨hrun, hnone, w, hpc, hstate⟩
  obtain ⟨j, c, hj, hc⟩ := hinv hrun w (Or.inr ⟨hstate, Or.inr hpc⟩)
  have hmem : c ∈ s.calls := List.mem_of_getElem? hj
  apply hnone c hmem
  cases c <;> simp_all [Call.WillWake, Call.StartInProgress]

/-- The poller sees the flag false; a whole START runs before it sets its task state. -/
def lostTrace : List ThreadAction :=
  [.run .poller, .run .poller, .start, .advance 0, .advance 0, .advance 0, .advance 0,
    .run .poller, .run .poller]

theorem wakeup_can_be_lost : ¬ ∀ s, Reachable threads s → ¬ LostWakeup s := by
  intro hall
  obtain ⟨s, hs, hp⟩ := reachable_of_run (m := threads)
    (p := fun s => s.hrperfRunning = true ∧ s.calls = [.startDone] ∧
      (s.task .poller).pc = .inSchedule ∧ (s.task .poller).state = .interruptible)
    lostTrace (by decide)
  obtain ⟨hrun, hcalls, hpc, hstate⟩ := of_decide_eq_true hp
  apply hall s hs
  refine ⟨hrun, ?_, .poller, hpc, hstate⟩
  rw [hcalls]
  decide

/-- Both threads fall asleep, and a START wakes both. -/
def wokenTrace : List ThreadAction :=
  List.replicate 4 (.run .poller) ++ List.replicate 4 (.run .logger) ++
    .start :: List.replicate 4 (.advance 0) ++ [.run .poller]

theorem no_lost_wakeup_woken : ∃ s, Reaches threads WakesOutsideWindow s ∧
    (s.hrperfRunning = true ∧ s.calls = [.startDone] ∧ (s.task .poller).pc = .body ∧
      (s.task .logger).pc = .inSchedule) ∧ ¬ LostWakeup s := by
  obtain ⟨s, hs, hp⟩ := reaches_of_run (m := threads) WakesOutsideWindow
    (p := fun s => s.hrperfRunning = true ∧ s.calls = [.startDone] ∧
      (s.task .poller).pc = .body ∧ (s.task .logger).pc = .inSchedule)
    wokenTrace (by decide)
  exact ⟨s, hs, of_decide_eq_true hp, no_lost_wakeup_outside_window hs⟩

end PollingThreads
