import Mathlib.Logic.Basic
import Mathlib.Logic.Relation

/-!
# Machines that move by named actions

A machine has one initial state and a partial step function: `none` says that
the action is not enabled. Nondeterminism (scheduling, timeouts, results of
calls) is in the choice of actions. `Reaches ok` restricts every step taken to
those whose source state and action satisfy `ok`.
-/

namespace StepMachine

universe u v u' v'

structure Machine (State : Type u) (Action : Type v) where
  init : State
  step : State → Action → Option State

variable {State : Type u} {Action : Type v}

/-- States of the runs all of whose steps meet the condition `ok`. -/
inductive Reaches (m : Machine State Action) (ok : State → Action → Prop) : State → Prop where
  | init : Reaches m ok m.init
  | step {s t : State} {a : Action} : Reaches m ok s → ok s a → m.step s a = some t →
      Reaches m ok t

/-- States of all runs. -/
def Reachable (m : Machine State Action) : State → Prop := Reaches m (fun _ _ => True)

/-- Every step of a run may assume the invariant and the condition of the run. -/
theorem Reaches.invariant {m : Machine State Action} {ok : State → Action → Prop}
    {I : State → Prop} (start : I m.init)
    (preserves : ∀ s a t, I s → ok s a → m.step s a = some t → I t)
    {s : State} (h : Reaches m ok s) : I s := by
  induction h with
  | init => exact start
  | step _ hok hstep ih => exact preserves _ _ _ ih hok hstep

/-- A run under `ok` whose invariant turns `ok` into `ok'` is a run under `ok'`. -/
theorem Reaches.strengthen {m : Machine State Action} {ok ok' : State → Action → Prop}
    {I : State → Prop} (start : I m.init)
    (preserves : ∀ s a t, I s → ok s a → m.step s a = some t → I t)
    (enough : ∀ s a, I s → ok s a → ok' s a) {s : State} (h : Reaches m ok s) :
    Reaches m ok' s := by
  induction h with
  | init => exact .init
  | step hs hok hstep ih => exact .step ih (enough _ _ (hs.invariant start preserves) hok) hstep

/-- A step that meets the condition `ok`, whatever its action. -/
def Moves (m : Machine State Action) (ok : State → Action → Prop) (s t : State) : Prop :=
  ∃ a, ok s a ∧ m.step s a = some t

/-- What every step keeps is kept from any state on. -/
theorem invariant_of_moves {m : Machine State Action} {ok : State → Action → Prop}
    {I : State → Prop} (preserves : ∀ s a t, I s → ok s a → m.step s a = some t → I t)
    {s t : State} (hs : I s) (h : Relation.ReflTransGen (Moves m ok) s t) : I t := by
  induction h with
  | refl => exact hs
  | tail _ hmove ih =>
    obtain ⟨a, hok, hstep⟩ := hmove
    exact preserves _ a _ ih hok hstep

/-- A run goes on with any steps. -/
theorem reachable_of_moves {m : Machine State Action} {ok : State → Action → Prop} {s t : State}
    (hs : Reachable m s) (h : Relation.ReflTransGen (Moves m ok) s t) : Reachable m t :=
  invariant_of_moves (fun _ _ _ hu _ hstep => .step hu trivial hstep) hs h

/-- A goal can be reached where short of it some step always lowers a measure. -/
theorem exists_moves_to {m : Machine State Action} {ok : State → Action → Prop}
    {I goal : State → Prop} (measure : State → Nat)
    (lower : ∀ s, I s → ¬ goal s → ∃ a t, ok s a ∧ m.step s a = some t ∧ I t ∧
      measure t < measure s)
    {s : State} (hs : I s) : ∃ t, Relation.ReflTransGen (Moves m ok) s t ∧ goal t := by
  induction hn : measure s using Nat.strongRecOn generalizing s with
  | ind n ih =>
    by_cases hgoal : goal s
    · exact ⟨s, .refl, hgoal⟩
    · obtain ⟨a, next, hok, hstep, hnext, hlt⟩ := lower s hs hgoal
      obtain ⟨t, hmoves, ht⟩ := ih (measure next) (hn ▸ hlt) hnext rfl
      exact ⟨t, .head ⟨a, hok, hstep⟩ hmoves, ht⟩

/-- Forward simulation: a step of `m` is a step of `n` or leaves the state of `n` as it is. -/
theorem Reachable.simulate {State' : Type u'} {Action' : Type v'} {m : Machine State Action}
    {n : Machine State' Action'} {R : State → State' → Prop} (start : R m.init n.init)
    (step : ∀ s a s' t, R s t → m.step s a = some s' →
      R s' t ∨ ∃ b t', n.step t b = some t' ∧ R s' t')
    {s : State} (h : Reachable m s) : ∃ t, Reachable n t ∧ R s t := by
  induction h with
  | init => exact ⟨n.init, .init, start⟩
  | step _ _ hstep ih =>
    obtain ⟨t, ht, hR⟩ := ih
    rcases step _ _ _ t hR hstep with hsame | ⟨b, t', hb, hR'⟩
    · exact ⟨t, ht, hsame⟩
    · exact ⟨t', .step ht trivial hb, hR'⟩

/-- Run a list of actions, stopping at the first one that is not enabled or breaks `ok`. -/
def run (m : Machine State Action) (ok : State → Action → Prop) [∀ s a, Decidable (ok s a)] :
    State → List Action → Option State
  | s, [] => some s
  | s, a :: rest => if ok s a then (m.step s a).bind (fun t => run m ok t rest) else none

theorem run_reaches {m : Machine State Action} {ok : State → Action → Prop}
    [∀ s a, Decidable (ok s a)] {s t : State} {actions : List Action}
    (hs : Reaches m ok s) (h : run m ok s actions = some t) : Reaches m ok t := by
  induction actions generalizing s with
  | nil =>
    have heq : s = t := Option.some.inj h
    exact heq ▸ hs
  | cons a rest ih =>
    by_cases hok : ok s a
    · cases hstep : m.step s a with
      | none => simp [run, hok, hstep] at h
      | some next =>
        have hrest : run m ok next rest = some t := by simpa [run, hok, hstep] using h
        exact ih (.step hs hok hstep) hrest
    · simp [run, hok] at h

/-- A trace whose last state passes the test `p` gives a state with `p` that is reached. -/
theorem reaches_of_run {m : Machine State Action} (ok : State → Action → Prop)
    [∀ s a, Decidable (ok s a)] {p : State → Bool} (actions : List Action)
    (h : (run m ok m.init actions).any p = true) : ∃ s, Reaches m ok s ∧ p s = true := by
  cases hr : run m ok m.init actions with
  | none => simp [hr] at h
  | some s => exact ⟨s, run_reaches .init hr, by simpa [hr] using h⟩

theorem reachable_of_run {m : Machine State Action} {p : State → Bool} (actions : List Action)
    (h : (run m (fun _ _ => True) m.init actions).any p = true) :
    ∃ s, Reachable m s ∧ p s = true :=
  reaches_of_run _ actions h

end StepMachine
