import Mathlib.Order.Lattice

/-!
# Bisection

The loop of a bisection with any test that a prefix of the list passes, and the
two searches of Python's `bisect` in a sorted list.
-/

namespace Bisect

variable {α : Type}

/-- The middle of a range within the list is always an index of the list. -/
def bisect (below : α → Bool) (a : List α) (lo hi : Nat) : Nat :=
  if lo < hi then
    let mid := (lo + hi) / 2
    if a[mid]?.any below then bisect below a (mid + 1) hi else bisect below a lo mid
  else lo
termination_by hi - lo
decreasing_by all_goals omega

def bisectLeft [LinearOrder α] (a : List α) (x : α) : Nat :=
  bisect (fun y => decide (y < x)) a 0 a.length

def bisectRight [LinearOrder α] (a : List α) (x : α) : Nat :=
  bisect (fun y => !decide (x < y)) a 0 a.length

/-- The elements that pass the test come first. -/
def Falls (below : α → Bool) (a : List α) : Prop :=
  a.Pairwise fun y z => below z = true → below y = true

theorem any_of_le {below : α → Bool} {a : List α} (hfalls : Falls below a) {i j : Nat}
    (hij : i ≤ j) (hj : a[j]?.any below = true) : a[i]?.any below = true := by
  rcases Nat.lt_or_eq_of_le hij with hlt | rfl
  · cases hz : a[j]? with
    | none => rw [hz] at hj; exact absurd hj Bool.false_ne_true
    | some z =>
      obtain ⟨hjlen, rfl⟩ := List.getElem?_eq_some_iff.mp hz
      rw [hz] at hj
      rw [List.getElem?_eq_getElem (Nat.lt_trans hlt hjlen)]
      exact List.pairwise_iff_getElem.mp hfalls i j _ hjlen hlt hj
  · exact hj

/-- The range of the loop always ends where the test begins to fail. -/
theorem bisect_spec {below : α → Bool} {a : List α} (hfalls : Falls below a) (lo hi : Nat)
    (hle : lo ≤ hi) (hlo : ∀ i < lo, a[i]?.any below = true)
    (hhi : ∀ i, hi ≤ i → a[i]?.any below = false) :
    bisect below a lo hi ≤ hi ∧ (∀ i < bisect below a lo hi, a[i]?.any below = true) ∧
      ∀ i, bisect below a lo hi ≤ i → a[i]?.any below = false := by
  fun_induction bisect below a lo hi with
  | case1 lo hi hlt mid hmid ih =>
    refine ih (by omega) (fun i hi' => any_of_le hfalls (by omega) hmid) hhi
  | case2 lo hi hlt mid hmid ih =>
    have hrest := ih (by omega) hlo fun i hi' => by
      by_contra hbelow
      exact hmid (any_of_le hfalls hi' (Bool.not_eq_false _ ▸ hbelow))
    exact ⟨by omega, hrest.2⟩
  | case3 lo hi hge =>
    obtain rfl : lo = hi := by omega
    exact ⟨Nat.le_refl lo, hlo, hhi⟩

theorem bisect_length_spec {below : α → Bool} {a : List α} (hfalls : Falls below a) :
    bisect below a 0 a.length ≤ a.length ∧
      (∀ y ∈ a.take (bisect below a 0 a.length), below y = true) ∧
      ∀ y ∈ a.drop (bisect below a 0 a.length), below y = false := by
  obtain ⟨hle, hbefore, hafter⟩ := bisect_spec hfalls 0 a.length (Nat.zero_le _)
    (fun i hi => absurd hi (Nat.not_lt_zero i)) fun i hi => by
      rw [List.getElem?_eq_none hi]
      rfl
  refine ⟨hle, fun y hy => ?_, fun y hy => ?_⟩
  · obtain ⟨i, hi, rfl⟩ := List.mem_take_iff_getElem.mp hy
    have hi' := hbefore i (by omega)
    rw [List.getElem?_eq_getElem (by omega)] at hi'
    exact hi'
  · obtain ⟨i, hi, rfl⟩ := List.mem_drop_iff_getElem.mp hy
    have hi' := hafter (bisect below a 0 a.length + i) (Nat.le_add_right _ _)
    rw [List.getElem?_eq_getElem (by omega)] at hi'
    exact hi'

section Sorted

variable [LinearOrder α] {a : List α}

theorem bisectLeft_spec (hsorted : a.Pairwise (· ≤ ·)) (x : α) :
    bisectLeft a x ≤ a.length ∧ (∀ y ∈ a.take (bisectLeft a x), y < x) ∧
      ∀ y ∈ a.drop (bisectLeft a x), x ≤ y := by
  have hfalls : Falls (fun y => decide (y < x)) a := by
    refine hsorted.imp fun hle hlt => ?_
    rw [decide_eq_true_iff] at hlt ⊢
    exact lt_of_le_of_lt hle hlt
  obtain ⟨hlength, hbefore, hafter⟩ := bisect_length_spec hfalls
  exact ⟨hlength, fun y hy => of_decide_eq_true (hbefore y hy),
    fun y hy => not_lt.mp (of_decide_eq_false (hafter y hy))⟩

theorem bisectRight_spec (hsorted : a.Pairwise (· ≤ ·)) (x : α) :
    bisectRight a x ≤ a.length ∧ (∀ y ∈ a.take (bisectRight a x), y ≤ x) ∧
      ∀ y ∈ a.drop (bisectRight a x), x < y := by
  have hfalls : Falls (fun y => !decide (x < y)) a := by
    refine hsorted.imp fun hle hlt => ?_
    rw [Bool.not_eq_true', decide_eq_false_iff_not, not_lt] at hlt ⊢
    exact le_trans hle hlt
  obtain ⟨hlength, hbefore, hafter⟩ := bisect_length_spec hfalls
  refine ⟨hlength, fun y hy => ?_, fun y hy => ?_⟩
  · have hy' := hbefore y hy
    rw [Bool.not_eq_true', decide_eq_false_iff_not] at hy'
    exact not_lt.mp hy'
  · have hy' := hafter y hy
    rw [Bool.not_eq_false', decide_eq_true_iff] at hy'
    exact hy'

end Sorted

end Bisect
