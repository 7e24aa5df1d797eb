import Mathlib.Data.List.Basic

/-!
# Counted loops

A loop over the numbers below a bound is a fold over `List.range`, and its
invariant speaks of the number of turns taken.
-/

namespace Loops

universe u

variable {State : Type u}

theorem foldl_range_invariant {I : Nat → State → Prop} {body : State → Nat → State} {start : State}
    {bound : Nat} (hstart : I 0 start)
    (hbody : ∀ turn s, turn < bound → I turn s → I (turn + 1) (body s turn)) :
    I bound ((List.range bound).foldl body start) := by
  induction bound with
  | zero => exact hstart
  | succ n ih =>
    rw [List.range_succ, List.foldl_append]
    exact hbody n _ (by omega) (ih fun turn s hturn => hbody turn s (by omega))

end Loops
