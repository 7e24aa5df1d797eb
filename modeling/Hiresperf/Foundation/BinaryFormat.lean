import Mathlib.Algebra.Order.Field.Rat
import Mathlib.Algebra.Order.Round
import Mathlib.Data.Int.Log
import Mathlib.Data.Rat.Floor
import Mathlib.Tactic.FieldSimp
import Mathlib.Tactic.Linarith
import Mathlib.Tactic.NormNum
import Mathlib.Tactic.Ring

/-!
# Binary interchange formats

The bit pattern of the number of a binary format that is nearest to a rational, with
ties to an even significand, and the number that a bit pattern stands for. Positive
and negative zero stand for the same rational; a pattern of an infinity or of no
number stands for none.
-/

namespace BinaryFormat

/-- The nearest natural number to a number that is not negative, the even one of two. -/
def roundEven (x : ℚ) : ℕ :=
  if x - ⌊x⌋₊ < 1 / 2 then ⌊x⌋₊
  else if 1 / 2 < x - ⌊x⌋₊ then ⌊x⌋₊ + 1
  else if 2 ∣ ⌊x⌋₊ then ⌊x⌋₊
  else ⌊x⌋₊ + 1

theorem abs_roundEven_sub_le {x : ℚ} (h : 0 ≤ x) : |(roundEven x : ℚ) - x| ≤ 1 / 2 := by
  have hlow : (⌊x⌋₊ : ℚ) ≤ x := Nat.floor_le h
  have hhigh : x < ⌊x⌋₊ + 1 := Nat.lt_floor_add_one x
  rw [abs_le, roundEven]
  split_ifs <;> push_cast <;> constructor <;> linarith

theorem roundEven_le {x : ℚ} {n : ℕ} (hpos : 0 ≤ x) (h : x < n) : roundEven x ≤ n := by
  have hfloor : ⌊x⌋₊ < n := (Nat.floor_lt hpos).mpr h
  rw [roundEven]
  split_ifs <;> omega

theorem le_roundEven {x : ℚ} {n : ℕ} (h : (n : ℚ) ≤ x) : n ≤ roundEven x := by
  have hfloor : n ≤ ⌊x⌋₊ := Nat.le_floor h
  rw [roundEven]
  split_ifs <;> omega

theorem roundEven_natCast (n : ℕ) : roundEven (n : ℚ) = n := by
  rw [roundEven, Nat.floor_natCast, sub_self, if_pos one_half_pos]

/-- The numbers of stored bits of the significand and of the exponent. -/
structure Format where
  fractionBits : ℕ
  exponentBits : ℕ

/-- The format of eight bytes. -/
def binary64 : Format := ⟨52, 11⟩

namespace Format

variable (F : Format)

/-- The exponent of the least normal number. -/
def minExponent : ℤ := 2 - 2 ^ (F.exponentBits - 1)

/-- The exponent with which a number that is not negative is written. -/
def exponent (x : ℚ) : ℤ := if x = 0 then F.minExponent else max F.minExponent (Int.log 2 x)

/-- The distance of neighbours at this exponent. -/
def spacing (e : ℤ) : ℚ := 2 ^ (e - F.fractionBits)

def significand (x : ℚ) : ℕ := roundEven (x / F.spacing (F.exponent x))

/-- The pattern without its sign. A significand of the next power of 2 carries into the
exponent. -/
def magnitude (x : ℚ) : ℕ :=
  (F.exponent x - F.minExponent).toNat * 2 ^ F.fractionBits + F.significand x

/-- The pattern of the infinity. -/
def infinity : ℕ := (2 ^ F.exponentBits - 1) * 2 ^ F.fractionBits

def signBit : ℕ := 2 ^ (F.exponentBits + F.fractionBits)

/-- The pattern of the nearest number, `none` where that is an infinity. -/
def pack (x : ℚ) : Option ℕ :=
  if F.magnitude |x| < F.infinity then
    some ((if x < 0 then F.signBit else 0) + F.magnitude |x|)
  else none

/-- What a pattern without a sign stands for. -/
def unpackMagnitude (n : ℕ) : ℚ :=
  if n < 2 ^ F.fractionBits then n * F.spacing F.minExponent
  else
    (2 ^ F.fractionBits + n % 2 ^ F.fractionBits : ℕ) *
      F.spacing (F.minExponent + (n / 2 ^ F.fractionBits - 1 : ℕ))

def unpack (n : ℕ) : Option ℚ :=
  if n % F.signBit < F.infinity then
    some (if n < F.signBit then F.unpackMagnitude (n % F.signBit)
      else -F.unpackMagnitude (n % F.signBit))
  else none

variable {F}

theorem spacing_pos (e : ℤ) : 0 < F.spacing e := zpow_pos (by norm_num) _

theorem spacing_add (e : ℤ) (k : ℕ) : F.spacing (e + k) = 2 ^ k * F.spacing e := by
  rw [spacing, spacing, show e + k - F.fractionBits = k + (e - F.fractionBits) by ring,
    zpow_add₀ two_ne_zero, zpow_natCast]

theorem two_pow_mul_spacing (e : ℤ) : 2 ^ F.fractionBits * F.spacing e = 2 ^ e := by
  rw [spacing, ← zpow_natCast, ← zpow_add₀ two_ne_zero]
  congr 1
  ring

theorem minExponent_le (x : ℚ) : F.minExponent ≤ F.exponent x := by
  rw [exponent]
  split_ifs
  · exact le_rfl
  · exact le_max_left _ _

/-- A number is below the power of 2 after its exponent. -/
theorem lt_spacing (x : ℚ) :
    x < (2 ^ (F.fractionBits + 1) : ℕ) * F.spacing (F.exponent x) := by
  have hpow : ((2 ^ (F.fractionBits + 1) : ℕ) : ℚ) * F.spacing (F.exponent x) =
      2 ^ (F.exponent x + 1) := by
    push_cast
    rw [pow_succ, mul_right_comm, two_pow_mul_spacing, zpow_add_one₀ two_ne_zero]
  rw [hpow]
  by_cases hx : x = 0
  · rw [hx]
    exact zpow_pos two_pos _
  · refine lt_of_lt_of_le (Int.lt_zpow_succ_log_self Nat.one_lt_two x) ?_
    refine zpow_le_zpow_right₀ one_le_two ?_
    rw [exponent, if_neg hx]
    exact Int.add_le_add_right (le_max_right _ _) 1

/-- Above the least exponent a number is at least the power of 2 of its exponent. -/
theorem spacing_le {x : ℚ} (h : 0 ≤ x) (hexp : F.minExponent < F.exponent x) :
    (2 ^ F.fractionBits : ℕ) * F.spacing (F.exponent x) ≤ x := by
  have hx : x ≠ 0 := by
    intro hx
    rw [exponent, if_pos hx] at hexp
    exact absurd hexp (lt_irrefl _)
  have hlog : F.exponent x = Int.log 2 x := by
    rw [exponent, if_neg hx] at hexp ⊢
    exact max_eq_right (by omega)
  push_cast
  rw [two_pow_mul_spacing, hlog]
  exact Int.zpow_log_le_self Nat.one_lt_two (lt_of_le_of_ne h (Ne.symm hx))

theorem significand_le {x : ℚ} (h : 0 ≤ x) : F.significand x ≤ 2 ^ (F.fractionBits + 1) := by
  refine roundEven_le (div_nonneg h (spacing_pos _).le) ?_
  rw [div_lt_iff₀ (spacing_pos _)]
  exact lt_spacing x

theorem le_significand {x : ℚ} (h : 0 ≤ x) (hexp : F.minExponent < F.exponent x) :
    2 ^ F.fractionBits ≤ F.significand x := by
  refine le_roundEven ?_
  rw [le_div_iff₀ (spacing_pos _)]
  exact spacing_le h hexp

/-- A pattern made of a significand and an exponent, normal, subnormal or after a carry. -/
theorem unpackMagnitude_eq {k s : ℕ} (hle : s ≤ 2 ^ (F.fractionBits + 1))
    (hnormal : 0 < k → 2 ^ F.fractionBits ≤ s) :
    F.unpackMagnitude (k * 2 ^ F.fractionBits + s) = s * F.spacing (F.minExponent + k) := by
  have hpos : 0 < 2 ^ F.fractionBits := Nat.two_pow_pos _
  rw [pow_succ] at hle
  rcases Nat.lt_or_ge s (2 ^ F.fractionBits) with hsub | hnorm
  · obtain rfl : k = 0 := by
      by_contra hk
      exact absurd (hnormal (Nat.pos_of_ne_zero hk)) (by omega)
    rw [unpackMagnitude, Nat.zero_mul, Nat.zero_add, if_pos hsub, Nat.cast_zero, add_zero]
  · have hbig : ¬ k * 2 ^ F.fractionBits + s < 2 ^ F.fractionBits := by omega
    rw [unpackMagnitude, if_neg hbig]
    rcases Nat.lt_or_ge s (2 ^ F.fractionBits * 2) with hlt | hcarry
    · have hsplit : k * 2 ^ F.fractionBits + s =
          (s - 2 ^ F.fractionBits) + 2 ^ F.fractionBits * (k + 1) := by
        rw [Nat.mul_succ, Nat.mul_comm]
        omega
      rw [hsplit, Nat.add_mul_mod_self_left, Nat.mod_eq_of_lt (by omega),
        Nat.add_mul_div_left _ _ hpos, Nat.div_eq_of_lt (by omega)]
      congr 2
      · omega
      · congr 1
        omega
    · obtain rfl : s = 2 ^ F.fractionBits * 2 := by omega
      have hsplit : k * 2 ^ F.fractionBits + 2 ^ F.fractionBits * 2 =
          2 ^ F.fractionBits * (k + 2) := by ring
      rw [hsplit, Nat.mul_mod_right, Nat.mul_div_cancel_left _ hpos, Nat.add_zero,
        show k + 2 - 1 = k + 1 by omega, spacing_add, spacing_add]
      push_cast
      ring

theorem unpackMagnitude_magnitude {x : ℚ} (h : 0 ≤ x) :
    F.unpackMagnitude (F.magnitude x) = F.significand x * F.spacing (F.exponent x) := by
  have hexp := minExponent_le (F := F) x
  rw [magnitude, unpackMagnitude_eq (significand_le h) fun hk => le_significand h (by omega)]
  congr 2
  omega

/-- Half the distance of the neighbours: relative to the number, or that of the least ones. -/
theorem abs_unpackMagnitude_sub_le {x : ℚ} (h : 0 ≤ x) :
    |F.unpackMagnitude (F.magnitude x) - x| ≤
      max (x / 2 ^ (F.fractionBits + 1)) (F.spacing F.minExponent / 2) := by
  have hspacing := spacing_pos (F := F) (F.exponent x)
  have hround : |F.unpackMagnitude (F.magnitude x) - x| ≤ F.spacing (F.exponent x) / 2 := by
    have hnear := abs_roundEven_sub_le (div_nonneg h hspacing.le)
    have hscaled : F.unpackMagnitude (F.magnitude x) - x =
        (F.significand x - x / F.spacing (F.exponent x)) * F.spacing (F.exponent x) := by
      rw [unpackMagnitude_magnitude h, sub_mul, div_mul_cancel₀ _ hspacing.ne']
    rw [hscaled, abs_mul, abs_of_pos hspacing]
    calc |(F.significand x : ℚ) - x / F.spacing (F.exponent x)| * F.spacing (F.exponent x)
        ≤ 1 / 2 * F.spacing (F.exponent x) := mul_le_mul_of_nonneg_right hnear hspacing.le
      _ = F.spacing (F.exponent x) / 2 := by ring
  refine hround.trans ?_
  rcases (minExponent_le (F := F) x).eq_or_lt with hmin | hnormal
  · rw [← hmin]
    exact le_max_right _ _
  · refine le_trans ?_ (le_max_left _ _)
    have hle := spacing_le h hnormal
    push_cast at hle
    rw [pow_succ, ← div_div, div_le_div_iff_of_pos_right two_pos, le_div_iff₀ (by positivity),
      mul_comm]
    exact hle

theorem infinity_le_signBit : F.infinity ≤ F.signBit := by
  rw [infinity, signBit, pow_add]
  exact Nat.mul_le_mul_right _ (Nat.sub_le _ _)

/-- The number that is packed in place of `x`. -/
def round (F : Format) (x : ℚ) : ℚ :=
  if x < 0 then -F.unpackMagnitude (F.magnitude |x|) else F.unpackMagnitude (F.magnitude |x|)

theorem unpack_of_pack {x : ℚ} {n : ℕ} (h : F.pack x = some n) :
    F.unpack n = some (F.round x) := by
  rw [pack] at h
  by_cases hfinite : F.magnitude |x| < F.infinity
  · have hlt : F.magnitude |x| < F.signBit := lt_of_lt_of_le hfinite infinity_le_signBit
    rw [if_pos hfinite, Option.some_inj] at h
    rw [← h, round]
    by_cases hx : x < 0
    · rw [if_pos hx, if_pos hx, unpack, Nat.add_mod_left, Nat.mod_eq_of_lt hlt, if_pos hfinite,
        if_neg (by omega)]
    · rw [if_neg hx, if_neg hx, Nat.zero_add, unpack, Nat.mod_eq_of_lt hlt, if_pos hfinite,
        if_pos hlt]
  · rw [if_neg hfinite] at h
    exact absurd h (Option.some_ne_none n).symm

theorem abs_round_sub_le (x : ℚ) :
    |F.round x - x| ≤ max (|x| / 2 ^ (F.fractionBits + 1)) (F.spacing F.minExponent / 2) := by
  have hmagnitude := abs_unpackMagnitude_sub_le (F := F) (abs_nonneg x)
  rw [round]
  split_ifs with hx
  · have hflip : -F.unpackMagnitude (F.magnitude |x|) - x =
        -(F.unpackMagnitude (F.magnitude |x|) - |x|) := by
      rw [abs_of_neg hx]
      ring
    rwa [hflip, abs_neg]
  · rwa [abs_of_nonneg (not_lt.mp hx)] at hmagnitude ⊢

/-- A whole number that the significand has the bits for is a number of the format. -/
theorem round_natCast {n : ℕ} (hmin : F.minExponent ≤ F.fractionBits)
    (h : n < 2 ^ (F.fractionBits + 1)) : F.round n = n := by
  have hexp : F.exponent (n : ℚ) ≤ F.fractionBits := by
    rw [exponent]
    split_ifs with hzero
    · exact hmin
    · have hpos : (0 : ℚ) < n := lt_of_le_of_ne (Nat.cast_nonneg n) (Ne.symm hzero)
      have hlt : (n : ℚ) < 2 ^ ((F.fractionBits : ℤ) + 1) := by exact_mod_cast h
      have hlog := (Int.lt_zpow_iff_log_lt Nat.one_lt_two hpos).mp hlt
      omega
  obtain ⟨k, hk⟩ := Int.le.dest hexp
  have hspacing : F.spacing (F.exponent n) * 2 ^ k = 1 := by
    rw [mul_comm, ← spacing_add, hk, spacing, sub_self, zpow_zero]
  have hscaled : (n : ℚ) / F.spacing (F.exponent n) = (n * 2 ^ k : ℕ) := by
    rw [div_eq_iff (spacing_pos _).ne', Nat.cast_mul, Nat.cast_pow, Nat.cast_ofNat, mul_assoc,
      mul_comm _ (F.spacing _), hspacing, mul_one]
  have hsignificand : F.significand n = n * 2 ^ k := by
    rw [significand, hscaled, roundEven_natCast]
  rw [round, if_neg (not_lt.mpr (Nat.cast_nonneg n)), Nat.abs_cast,
    unpackMagnitude_magnitude (Nat.cast_nonneg n), hsignificand, ← hscaled,
    div_mul_cancel₀ _ (spacing_pos _).ne']

theorem round_of_neg {x : ℚ} (h : x < 0) : F.round x = -F.round (-x) := by
  have hpos : ¬ -x < 0 := not_lt.mpr (neg_pos.mpr h).le
  rw [round, if_pos h, round, if_neg hpos, abs_neg]

theorem round_intCast {z : ℤ} (hmin : F.minExponent ≤ F.fractionBits)
    (h : z.natAbs < 2 ^ (F.fractionBits + 1)) : F.round z = z := by
  rcases Int.natAbs_eq z with hz | hz
  · rw [hz, Int.cast_natCast]
    exact round_natCast hmin h
  · rw [hz, Int.cast_neg, Int.cast_natCast]
    by_cases hzero : z.natAbs = 0
    · rw [hzero, Nat.cast_zero, neg_zero]
      exact_mod_cast round_natCast (F := F) (n := 0) hmin (by positivity)
    · have hneg : -(z.natAbs : ℚ) < 0 := by
        rw [neg_lt_zero]
        exact_mod_cast Nat.pos_of_ne_zero hzero
      rw [round_of_neg hneg, neg_neg, round_natCast hmin h]

theorem round_nonneg {x : ℚ} (h : 0 ≤ x) : 0 ≤ F.round x := by
  rw [round, if_neg (not_lt.mpr h), unpackMagnitude_magnitude (abs_nonneg x)]
  exact mul_nonneg (Nat.cast_nonneg _) (spacing_pos _).le

theorem round_le {x : ℚ} (hmin : F.minExponent ≤ F.fractionBits) (h : 0 ≤ x) :
    F.round x ≤ 2 * x + 1 := by
  have hnear := (abs_le.mp (abs_round_sub_le (F := F) x)).2
  have hpow : (1 : ℚ) ≤ 2 ^ (F.fractionBits + 1) := one_le_pow₀ one_le_two
  have hrelative : |x| / 2 ^ (F.fractionBits + 1) ≤ x := by
    rw [abs_of_nonneg h]
    exact div_le_self h hpow
  have hspacing : F.spacing F.minExponent ≤ 1 :=
    zpow_le_one_of_nonpos₀ one_le_two (by omega)
  have hbound : max (|x| / 2 ^ (F.fractionBits + 1)) (F.spacing F.minExponent / 2) ≤ x + 1 :=
    max_le (by linarith) (by linarith)
  linarith

theorem pack_lt {x : ℚ} {n : ℕ} (h : F.pack x = some n) : n < 2 * F.signBit := by
  have hle := infinity_le_signBit (F := F)
  rw [pack] at h
  by_cases hfinite : F.magnitude |x| < F.infinity
  · rw [if_pos hfinite, Option.some_inj] at h
    split_ifs at h <;> omega
  · rw [if_neg hfinite] at h
    exact absurd h (Option.some_ne_none n).symm

/-- Below the last two powers of 2 a number can be packed. -/
theorem pack_isSome {x : ℚ} {e : ℤ} (hbits : 2 ≤ F.exponentBits)
    (hmax : e ≤ F.minExponent + (2 ^ F.exponentBits - 3 : ℕ)) (h : |x| < 2 ^ e) :
    (F.pack x).isSome = true := by
  have hfour : 2 ^ 2 ≤ 2 ^ F.exponentBits := Nat.pow_le_pow_right two_pos hbits
  have hexp : (F.exponent |x| - F.minExponent).toNat + 4 ≤ 2 ^ F.exponentBits := by
    rw [exponent]
    split_ifs with hx
    · omega
    · have hlog : Int.log 2 |x| < e :=
        (Int.lt_zpow_iff_log_lt Nat.one_lt_two (lt_of_le_of_ne (abs_nonneg x) (Ne.symm hx))).mp h
      omega
  have hfinite : F.magnitude |x| < F.infinity := by
    have hsignificand := significand_le (F := F) (abs_nonneg x)
    calc F.magnitude |x|
        ≤ (F.exponent |x| - F.minExponent).toNat * 2 ^ F.fractionBits +
            2 ^ (F.fractionBits + 1) := Nat.add_le_add_left hsignificand _
      _ = ((F.exponent |x| - F.minExponent).toNat + 2) * 2 ^ F.fractionBits := by ring
      _ < F.infinity := Nat.mul_lt_mul_of_pos_right (by omega) (Nat.two_pow_pos _)
  rw [pack, if_pos hfinite]
  rfl

end Format

end BinaryFormat
