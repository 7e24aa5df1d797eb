import Hiresperf.Foundation.StepMachine
import Mathlib.Data.List.Basic

/-!
# Calls over shared variables

Any number of calls run against each other and against an environment. A call
moves by a step on the shared variables and on its own state; nothing else sees
that state. An invariant of such a system is a property of the variables and one
of each call together with the variables: a step has to show it of the call that
moved, and that the others, whose own state it cannot touch, still have it.
-/

namespace CallPool

open StepMachine

universe u v w x y

/-- `other` are the steps of the environment, `request` is what a call begins with and `choice`
what the environment decides about a step of a call, which knows its own number. -/
structure Service (V : Type u) (C : Type v) (Other : Type w) (Request : Type x) (Choice : Type y)
    where
  vars : V
  other : V → Other → Option V
  enter : V → Request → Option (V × C)
  advance : V → Nat → C → Choice → Option (V × C)

structure Pool (V : Type u) (C : Type v) where
  vars : V
  calls : List C

inductive Action (Other : Type w) (Request : Type x) (Choice : Type y) where
  | other (a : Other)
  | enter (request : Request)
  | advance (i : Nat) (choice : Choice)

variable {V : Type u} {C : Type v} {Other : Type w} {Request : Type x} {Choice : Type y}

def Service.machine (m : Service V C Other Request Choice) :
    Machine (Pool V C) (Action Other Request Choice) where
  init := ⟨m.vars, []⟩
  step s a := match a with
    | .other a => (m.other s.vars a).map fun vars => ⟨vars, s.calls⟩
    | .enter request => (m.enter s.vars request).map fun r => ⟨r.1, s.calls ++ [r.2]⟩
    | .advance i choice => (s.calls[i]?).bind fun c =>
        (m.advance s.vars i c choice).map fun r => ⟨r.1, s.calls.set i r.2⟩

theorem Service.step_cases {m : Service V C Other Request Choice} {s t : Pool V C}
    {a : Action Other Request Choice} (h : m.machine.step s a = some t) :
    (∃ b vars, a = .other b ∧ m.other s.vars b = some vars ∧ t = ⟨vars, s.calls⟩) ∨
    (∃ q vars c, a = .enter q ∧ m.enter s.vars q = some (vars, c) ∧
      t = ⟨vars, s.calls ++ [c]⟩) ∨
    (∃ i e c vars c', a = .advance i e ∧ s.calls[i]? = some c ∧
      m.advance s.vars i c e = some (vars, c') ∧ t = ⟨vars, s.calls.set i c'⟩) := by
  cases a with
  | other b =>
    obtain ⟨vars, hvars, rfl⟩ := Option.map_eq_some_iff.mp h
    exact .inl ⟨b, vars, rfl, hvars, rfl⟩
  | enter q =>
    obtain ⟨⟨vars, c⟩, hr, rfl⟩ := Option.map_eq_some_iff.mp h
    exact .inr (.inl ⟨q, vars, c, rfl, hr, rfl⟩)
  | advance i e =>
    obtain ⟨c, hc, hmap⟩ := Option.bind_eq_some_iff.mp h
    obtain ⟨⟨vars, c'⟩, hr, rfl⟩ := Option.map_eq_some_iff.mp hmap
    exact .inr (.inr ⟨i, e, c, vars, c', rfl, hc, hr, rfl⟩)

/-- The variables have `I` with the number of calls, and every call has `P` with them. -/
structure Holds (I : Nat → V → Prop) (P : V → Nat → C → Prop) (s : Pool V C) : Prop where
  vars : I s.calls.length s.vars
  call : ∀ (i : Nat) (c : C), s.calls[i]? = some c → P s.vars i c

theorem Holds.mem {I : Nat → V → Prop} {P : V → Nat → C → Prop} {s : Pool V C}
    (h : Holds I P s) {c : C}
    (hc : c ∈ s.calls) : ∃ i, P s.vars i c := by
  obtain ⟨i, hi⟩ := List.getElem?_of_mem hc
  exact ⟨i, h.call i c hi⟩

/-- The obligations of an invariant, one for each kind of step. -/
structure Preserves (m : Service V C Other Request Choice)
    (ok : Pool V C → Action Other Request Choice → Prop)
    (I : Nat → V → Prop) (P : V → Nat → C → Prop) :
    Prop where
  init : I 0 m.vars
  other : ∀ s b vars, Holds I P s → ok s (.other b) → m.other s.vars b = some vars →
    I s.calls.length vars ∧ ∀ i c, s.calls[i]? = some c → P s.vars i c → P vars i c
  enter : ∀ s q vars c, Holds I P s → ok s (.enter q) → m.enter s.vars q = some (vars, c) →
    I (s.calls.length + 1) vars ∧ P vars s.calls.length c ∧
      ∀ i d, s.calls[i]? = some d → P s.vars i d → P vars i d
  advance : ∀ s i e c vars c', Holds I P s → ok s (.advance i e) → s.calls[i]? = some c →
    m.advance s.vars i c e = some (vars, c') →
    I s.calls.length vars ∧ P vars i c' ∧
      ∀ (j : Nat) (d : C), j ≠ i → s.calls[j]? = some d → P s.vars j d → P vars j d

theorem Preserves.step {m : Service V C Other Request Choice}
    {ok : Pool V C → Action Other Request Choice → Prop}
    {I : Nat → V → Prop} {P : V → Nat → C → Prop}
    (h : Preserves m ok I P) {s t : Pool V C} {a : Action Other Request Choice} (hs : Holds I P s)
    (hok : ok s a) (hstep : m.machine.step s a = some t) : Holds I P t := by
  rcases m.step_cases hstep with ⟨b, vars, rfl, hb, rfl⟩ | ⟨q, vars, c, rfl, hq, rfl⟩ |
    ⟨i, e, c, vars, c', rfl, hc, he, rfl⟩
  · obtain ⟨hvars, hcalls⟩ := h.other s b vars hs hok hb
    exact ⟨hvars, fun i c hi => hcalls i c hi (hs.call i c hi)⟩
  · obtain ⟨hvars, hnew, hcalls⟩ := h.enter s q vars c hs hok hq
    refine ⟨by simpa using hvars, fun i d hi => ?_⟩
    rcases Nat.lt_trichotomy i s.calls.length with hlt | rfl | hgt
    · rw [List.getElem?_append_left hlt] at hi
      exact hcalls i d hi (hs.call i d hi)
    · rw [List.getElem?_concat_length] at hi
      exact Option.some.inj hi ▸ hnew
    · have hlength : (s.calls ++ [c]).length ≤ i := by
        rw [List.length_append, List.length_singleton]
        exact hgt
      rw [List.getElem?_eq_none hlength] at hi
      exact absurd hi (by simp)
  · obtain ⟨hvars, hmoved, hothers⟩ := h.advance s i e c vars c' hs hok hc he
    refine ⟨by simpa using hvars, fun j d hj => ?_⟩
    by_cases hji : j = i
    · subst hji
      have hlt : j < s.calls.length := (List.getElem?_eq_some_iff.mp hc).1
      rw [List.getElem?_set_self hlt] at hj
      exact Option.some.inj hj ▸ hmoved
    · rw [List.getElem?_set_ne (Ne.symm hji)] at hj
      exact hothers j d hji hj (hs.call j d hj)

/-- A run keeps what each of its steps keeps. -/
theorem Preserves.reaches {m : Service V C Other Request Choice}
    {ok : Pool V C → Action Other Request Choice → Prop}
    {I : Nat → V → Prop} {P : V → Nat → C → Prop}
    (h : Preserves m ok I P) {s : Pool V C} (hs : Reaches m.machine ok s) : Holds I P s :=
  hs.invariant ⟨h.init, fun _ _ hc => by simp [Service.machine] at hc⟩
    fun _ _ _ hinv hok hstep => h.step hinv hok hstep

end CallPool
