import Mathlib.Data.List.Basic

/-!
# Ledgers of acquired resources

A run as a list of events, each of which acquires a resource, releases one or
does neither. The ledger holds what is acquired and not yet released; to release
what is not held is an error, so that a ledger that ends empty says that every
resource was released exactly once.
-/

namespace Ledger

universe u v

inductive Effect (Resource : Type u) where
  | acquires (r : Resource)
  | releases (r : Resource)
  | neither

variable {Event : Type v} {Resource : Type u}

/-- The resource that an event acquires. -/
def acquired (effect : Event → Effect Resource) (e : Event) : Option Resource :=
  match effect e with
  | .acquires r => some r
  | _ => none

/-- No event of the run releases anything. -/
def KeepsAll (effect : Event → Effect Resource) (events : List Event) : Prop :=
  ∀ e ∈ events, ∀ r, effect e ≠ .releases r

variable [DecidableEq Resource]

/-- What is held after the events; `none` if one of them released what was not held. -/
def account (effect : Event → Effect Resource) :
    List Resource → List Event → Option (List Resource)
  | held, [] => some held
  | held, e :: rest =>
    match effect e with
    | .acquires r => account effect (held ++ [r]) rest
    | .releases r => if r ∈ held then account effect (held.erase r) rest else none
    | .neither => account effect held rest

variable {effect : Event → Effect Resource}

theorem account_append (held : List Resource) (xs ys : List Event) :
    account effect held (xs ++ ys) = (account effect held xs).bind (account effect · ys) := by
  induction xs generalizing held with
  | nil => rfl
  | cons e rest ih =>
    rw [List.cons_append, account, account]
    cases effect e with
    | acquires r => exact ih _
    | releases r =>
      by_cases hmem : r ∈ held
      · simp only [hmem, if_true, ih]
      · simp [hmem]
    | neither => exact ih _

/-- Without releases, the ledger only grows. -/
theorem account_of_keepsAll (held : List Resource) {events : List Event}
    (h : KeepsAll effect events) :
    account effect held events = some (held ++ events.filterMap (acquired effect)) := by
  induction events generalizing held with
  | nil => simp [account]
  | cons e rest ih =>
    have hrest : KeepsAll effect rest := fun e' he' => h e' (List.mem_cons_of_mem _ he')
    rw [account]
    cases heffect : effect e with
    | acquires r => simp [ih _ hrest, acquired, heffect]
    | releases r => exact absurd heffect (h e List.mem_cons_self r)
    | neither => simp [ih _ hrest, acquired, heffect]

/-- Events that release all that is held, in any order, leave nothing. -/
theorem account_of_releases {held rs : List Resource} {events : List Event}
    (hevents : events.map effect = rs.map .releases) (hperm : held.Perm rs) :
    account effect held events = some [] := by
  induction rs generalizing held events with
  | nil =>
    obtain rfl : events = [] := List.map_eq_nil_iff.mp hevents
    rw [account, hperm.eq_nil]
  | cons r rs ih =>
    obtain ⟨e, rest, rfl, heffect, hrest⟩ := List.map_eq_cons_iff.mp hevents
    have hmem : r ∈ held := hperm.mem_iff.mpr List.mem_cons_self
    rw [account, heffect]
    simp only [hmem, if_true]
    exact ih hrest (List.cons_perm_iff_perm_erase.mp hperm.symm).2.symm

end Ledger
