import Mathlib.Data.List.Nodup

/-!
# Counting marks

A list of participants without repetition, each of which may set a mark of its
own once. The number of marks grows by one with each, and when it has reached
the length of the list all marks are set.
-/

namespace Counting

universe u
variable {α : Type u}

theorem countP_congr_mem {l : List α} {f g : α → Bool} (h : ∀ a ∈ l, f a = g a) :
    l.countP f = l.countP g := by
  apply List.countP_congr
  intro a ha
  rw [h a ha]

theorem countP_mark [DecidableEq α] {l : List α} (hl : l.Nodup) {f : α → Bool} {a : α}
    (ha : a ∈ l) (hf : f a = false) :
    l.countP (Function.update f a true) = l.countP f + 1 := by
  induction l with
  | nil => cases ha
  | cons b rest ih =>
    obtain ⟨hb, hrest⟩ := List.nodup_cons.mp hl
    rw [List.countP_cons, List.countP_cons]
    by_cases hab : a = b
    · subst hab
      have hsame : rest.countP (Function.update f a true) = rest.countP f := by
        apply countP_congr_mem
        intro c hc
        have hne : c ≠ a := fun he => hb (he ▸ hc)
        simp [hne]
      rw [hsame]
      simp [hf]
    · have hmem : a ∈ rest := by simpa [hab] using ha
      rw [ih hrest hmem]
      have hne : b ≠ a := fun he => hab he.symm
      simp only [Function.update_of_ne hne]
      omega

theorem forall_of_length_le_countP {l : List α} {f : α → Bool} (h : l.length ≤ l.countP f) :
    ∀ a ∈ l, f a = true :=
  List.countP_eq_length.mp (Nat.le_antisymm List.countP_le_length h)

end Counting
