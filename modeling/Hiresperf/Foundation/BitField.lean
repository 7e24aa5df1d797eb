import Mathlib.Data.BitVec

/-!
# The low field of a register

A read-modify-write of the low `k` bits of a word: the field takes the low bits
of the new value, and every other bit is as it was.
-/

namespace BitField

variable {w : Nat}

/-- The word whose low `k` bits are set. -/
def lowMask (w k : Nat) : BitVec w := (BitVec.allOnes k).setWidth w

def replaceLow (k : Nat) (field val : BitVec w) : BitVec w :=
  (val &&& ~~~lowMask w k) ||| (field &&& lowMask w k)

theorem getElem_lowMask {k i : Nat} (hi : i < w) : (lowMask w k)[i] = decide (i < k) := by
  simp [lowMask, BitVec.getElem_setWidth]

theorem getLsbD_replaceLow (k : Nat) (field val : BitVec w) (i : Nat) :
    (replaceLow k field val).getLsbD i = if i < k then field.getLsbD i else val.getLsbD i := by
  by_cases hw : i < w
  · by_cases hk : i < k <;> simp [replaceLow, getElem_lowMask, hw, hk]
  · have hge : w ≤ i := by omega
    simp [replaceLow, BitVec.getLsbD_of_ge _ _ hge]

/-- The bits above the field stay. -/
theorem extractLsb_replaceLow_high {k hi lo : Nat} (hlo : k ≤ lo) (field val : BitVec w) :
    (replaceLow k field val).extractLsb hi lo = val.extractLsb hi lo := by
  apply BitVec.eq_of_getLsbD_eq
  intro i hi'
  have hnot : ¬ lo + i < k := by omega
  simp [getLsbD_replaceLow, hnot]

/-- The field holds the low bits of the new value. -/
theorem extractLsb_replaceLow_low {k hi : Nat} (hhi : hi < k) (field val : BitVec w) :
    (replaceLow k field val).extractLsb hi 0 = field.extractLsb hi 0 := by
  apply BitVec.eq_of_getLsbD_eq
  intro i hi'
  have hlt : i < k := by omega
  simp [getLsbD_replaceLow, hlt]

end BitField
