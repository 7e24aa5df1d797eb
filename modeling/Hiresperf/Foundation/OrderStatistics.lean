import Mathlib.Algebra.Order.Floor.Semiring
import Mathlib.Algebra.Order.Field.Basic
import Mathlib.Data.List.GetD
import Mathlib.Tactic.Linarith

/-!
# Ranks and quantiles

A quantile between two elements of a sorted list is a point of the line through them.
For the elements of the list themselves a comparison with it is one of ranks: how many
elements are at most, or at least, as large.
-/

namespace OrderStatistics

universe u

/-! ## Ranks -/

section Ranks

variable {F : Type u} [LinearOrder F] [Zero F]

def sorted (l : List F) : List F := l.mergeSort fun a b => decide (a ≤ b)

omit [Zero F] in
theorem sorted_perm (l : List F) : (sorted l).Perm l := List.mergeSort_perm _ _

omit [Zero F] in
theorem sorted_pairwise (l : List F) : (sorted l).Pairwise (· ≤ ·) := by
  have h : (sorted l).Pairwise fun a b => decide (a ≤ b) = true :=
    List.pairwise_mergeSort (by simpa using fun a b c => le_trans) (by simpa using le_total) l
  exact h.imp of_decide_eq_true

theorem getD_mono {x : List F} (h : x.Pairwise (· ≤ ·)) {i j : Nat} (hij : i ≤ j)
    (hj : j < x.length) : x.getD i 0 ≤ x.getD j 0 := by
  rcases Nat.eq_or_lt_of_le hij with rfl | hlt
  · exact le_refl _
  · rw [List.getD_eq_getElem _ _ (by omega), List.getD_eq_getElem _ _ hj]
    exact List.pairwise_iff_getElem.mp h i j (by omega) hj hlt

/-- What holds of the smaller elements holds of a prefix of a sorted list. -/
theorem getD_iff_lt_countP {x : List F} (h : x.Pairwise (· ≤ ·)) {p : F → Bool}
    (hp : ∀ a b, a ≤ b → p b = true → p a = true) {j : Nat} (hj : j < x.length) :
    p (x.getD j 0) = true ↔ j < x.countP p := by
  induction x generalizing j with
  | nil => simp at hj
  | cons a x ih =>
    obtain ⟨hhead, htail⟩ := List.pairwise_cons.mp h
    cases hpa : p a with
    | false =>
      have hnone : ∀ b ∈ a :: x, ¬ p b = true := by
        intro b hb hpb
        rcases List.mem_cons.mp hb with rfl | hmem
        · simp [hpa] at hpb
        · simp [hp a b (hhead b hmem) hpb] at hpa
      have hcount : (a :: x).countP p = 0 := List.countP_eq_zero.mpr hnone
      rw [hcount, List.getD_eq_getElem _ _ hj]
      simpa using hnone _ (List.getElem_mem hj)
    | true =>
      rw [List.countP_cons_of_pos hpa]
      cases j with
      | zero => simp [hpa]
      | succ j =>
        rw [List.getD_cons_succ, ih htail (by simpa using hj)]
        omega

end Ranks

/-! ## Low ranks -/

section LowRanks

variable {A : Type u} {B : Type u}

theorem exists_greatest {r : A → A → Bool} (htotal : ∀ a b, (r a b || r b a) = true)
    (htrans : ∀ a b c, r a b = true → r b c = true → r a c = true) {l : List A} (h : l ≠ []) :
    ∃ d ∈ l, ∀ e ∈ l, r e d = true := by
  induction l with
  | nil => exact absurd rfl h
  | cons a l ih =>
    have hself : r a a = true := by simpa using htotal a a
    by_cases hl : l = []
    · subst hl
      exact ⟨a, List.mem_cons_self, by simpa using hself⟩
    obtain ⟨d, hd, hgreatest⟩ := ih hl
    rcases (Bool.or_eq_true _ _).mp (htotal a d) with had | hda
    · refine ⟨d, List.mem_cons_of_mem a hd, fun e he => ?_⟩
      rcases List.mem_cons.mp he with rfl | hmem
      · exact had
      · exact hgreatest e hmem
    · refine ⟨a, List.mem_cons_self, fun e he => ?_⟩
      rcases List.mem_cons.mp he with rfl | hmem
      · exact hself
      · exact htrans e d a (hgreatest e hmem) hda

/-- No more than `m` elements have at most `m` others before them. -/
theorem countP_low_rank {r : A → A → Bool} (htotal : ∀ a b, (r a b || r b a) = true)
    (htrans : ∀ a b c, r a b = true → r b c = true → r a c = true) (l : List A) (m : Nat) :
    (l.countP fun d => decide ((l.countP fun e => r e d) ≤ m)) ≤ m := by
  by_cases hnone : l.filter (fun d => decide ((l.countP fun e => r e d) ≤ m)) = []
  · rw [List.countP_eq_length_filter, hnone]
    exact Nat.zero_le m
  obtain ⟨d, hd, hgreatest⟩ := exists_greatest htotal htrans hnone
  have hrank : (l.countP fun e => r e d) ≤ m := of_decide_eq_true (List.mem_filter.mp hd).2
  refine le_trans (List.countP_mono_left fun e he hlow => ?_) hrank
  exact hgreatest e (List.mem_filter.mpr ⟨he, hlow⟩)

theorem countP_or_le (p q : A → Bool) (l : List A) :
    (l.countP fun a => p a || q a) ≤ l.countP p + l.countP q := by
  induction l with
  | nil => simp
  | cons a l ih =>
    simp only [List.countP_cons]
    cases p a <;> cases q a <;> simp <;> omega

theorem countP_any_le {p : B → A → Bool} {tests : List B} {l : List A} {m : Nat}
    (h : ∀ b ∈ tests, l.countP (p b) ≤ m) :
    (l.countP fun a => tests.any fun b => p b a) ≤ tests.length * m := by
  induction tests with
  | nil => simp
  | cons b tests ih =>
    have hfirst := h b List.mem_cons_self
    have hrest := ih fun b' hb' => h b' (List.mem_cons_of_mem b hb')
    have hboth := countP_or_le (p b) (fun a => tests.any fun b => p b a) l
    simp only [List.any_cons, List.length_cons, Nat.add_mul, Nat.one_mul]
    omega

end LowRanks

/-! ## Quantiles -/

variable {F : Type u} [Field F] [LinearOrder F] [IsStrictOrderedRing F] [FloorSemiring F]

/-- The value at a position between two indices. -/
def interpolate (x : List F) (h : F) : F :=
  x.getD ⌊h⌋₊ 0 +
    (h - ⌊h⌋₊) * (x.getD (min (⌊h⌋₊ + 1) (x.length - 1)) 0 - x.getD ⌊h⌋₊ 0)

def quantile (q : F) (l : List F) : F := interpolate (sorted l) (q * ((l.length - 1 : Nat) : F))

variable {x : List F} {h : F}

omit [IsStrictOrderedRing F] in
theorem interpolate_of_whole (hwhole : h = ⌊h⌋₊) : interpolate x h = x.getD ⌊h⌋₊ 0 := by
  rw [interpolate, sub_eq_zero.mpr hwhole, zero_mul, add_zero]

theorem ceil_of_whole (hwhole : h = ⌊h⌋₊) : ⌈h⌉₊ = ⌊h⌋₊ := by
  rw [hwhole, Nat.ceil_natCast, Nat.floor_natCast]

/-- A position that is no index lies properly between two. -/
theorem between_indices (h0 : 0 ≤ h) (hn : h ≤ ((x.length - 1 : Nat) : F)) (hpart : h ≠ ⌊h⌋₊) :
    ⌈h⌉₊ = ⌊h⌋₊ + 1 ∧ ⌊h⌋₊ + 1 ≤ x.length - 1 ∧ 0 < h - ⌊h⌋₊ ∧ h - ⌊h⌋₊ < 1 := by
  have hlow : (⌊h⌋₊ : F) < h := lt_of_le_of_ne (Nat.floor_le h0) (Ne.symm hpart)
  have hhigh := Nat.lt_floor_add_one h
  have hceil : ⌈h⌉₊ = ⌊h⌋₊ + 1 := by
    rw [Nat.ceil_eq_iff (by omega)]
    constructor
    · simpa using hlow
    · push_cast
      exact hhigh.le
  refine ⟨hceil, ?_, by linarith, by linarith⟩
  rw [← hceil]
  exact Nat.ceil_le.mpr hn

theorem interpolate_le_iff (hx : x.Pairwise (· ≤ ·)) (h0 : 0 ≤ h)
    (hn : h ≤ ((x.length - 1 : Nat) : F)) {v : F} (hv : v ∈ x) :
    interpolate x h ≤ v ↔ x.getD ⌈h⌉₊ 0 ≤ v := by
  by_cases hwhole : h = ⌊h⌋₊
  · rw [interpolate_of_whole hwhole, ceil_of_whole hwhole]
  obtain ⟨hceil, hnext, hpos, hone⟩ := between_indices h0 hn hwhole
  have hlength : x.length ≠ 0 := by
    intro hzero
    rw [List.length_eq_zero_iff] at hzero
    simp [hzero] at hv
  have hstep := getD_mono hx (Nat.le_succ ⌊h⌋₊) (by omega)
  rw [interpolate, hceil, Nat.min_eq_left hnext]
  constructor
  · intro hle
    obtain ⟨k, hk, rfl⟩ := List.getElem_of_mem hv
    rw [← List.getD_eq_getElem _ 0 hk] at hle ⊢
    by_cases hafter : ⌊h⌋₊ + 1 ≤ k
    · exact getD_mono hx hafter hk
    · -- an element before the position is at most the lower one, so that both are equal to it
      have hbefore := getD_mono hx (show k ≤ ⌊h⌋₊ by omega) (by omega)
      have hzero : (h - ⌊h⌋₊) * (x.getD (⌊h⌋₊ + 1) 0 - x.getD ⌊h⌋₊ 0) ≤ 0 := by linarith
      have hflat : x.getD (⌊h⌋₊ + 1) 0 - x.getD ⌊h⌋₊ 0 ≤ 0 := by
        by_contra hgt
        have hprod := mul_pos hpos (not_le.mp hgt)
        linarith
      have hprod := mul_nonneg hpos.le (sub_nonneg.mpr hstep)
      linarith
  · intro hle
    have hprod : (h - ⌊h⌋₊) * (x.getD (⌊h⌋₊ + 1) 0 - x.getD ⌊h⌋₊ 0) ≤
        x.getD (⌊h⌋₊ + 1) 0 - x.getD ⌊h⌋₊ 0 :=
      mul_le_of_le_one_left (sub_nonneg.mpr hstep) hone.le
    linarith

theorem le_interpolate_iff (hx : x.Pairwise (· ≤ ·)) (h0 : 0 ≤ h)
    (hn : h ≤ ((x.length - 1 : Nat) : F)) {v : F} (hv : v ∈ x) :
    v ≤ interpolate x h ↔ v ≤ x.getD ⌊h⌋₊ 0 := by
  by_cases hwhole : h = ⌊h⌋₊
  · rw [interpolate_of_whole hwhole]
  obtain ⟨-, hnext, hpos, hone⟩ := between_indices h0 hn hwhole
  have hlength : x.length ≠ 0 := by
    intro hzero
    rw [List.length_eq_zero_iff] at hzero
    simp [hzero] at hv
  have hstep := getD_mono hx (Nat.le_succ ⌊h⌋₊) (by omega)
  rw [interpolate, Nat.min_eq_left hnext]
  constructor
  · intro hle
    obtain ⟨k, hk, rfl⟩ := List.getElem_of_mem hv
    rw [← List.getD_eq_getElem _ 0 hk] at hle ⊢
    by_cases hbefore : k ≤ ⌊h⌋₊
    · exact getD_mono hx hbefore (by omega)
    · have hafter := getD_mono hx (show ⌊h⌋₊ + 1 ≤ k by omega) hk
      have hrest : 0 < 1 - (h - ⌊h⌋₊) := by linarith
      have hflat : x.getD (⌊h⌋₊ + 1) 0 - x.getD ⌊h⌋₊ 0 ≤ 0 := by
        by_contra hgt
        have hprod := mul_pos hrest (not_le.mp hgt)
        linarith
      have hprod := mul_nonneg hpos.le (sub_nonneg.mpr hstep)
      have hzero : x.getD (⌊h⌋₊ + 1) 0 - x.getD ⌊h⌋₊ 0 = 0 :=
        le_antisymm hflat (sub_nonneg.mpr hstep)
      rw [hzero, mul_zero, add_zero] at hle
      exact hle
  · intro hle
    have hprod := mul_nonneg hpos.le (sub_nonneg.mpr hstep)
    linarith

/-! ## Elements and quantiles -/

section Elements

variable {q : F} {l : List F} {v : F}

omit [FloorSemiring F] in
theorem position_bounds (hq0 : 0 ≤ q) (hq1 : q ≤ 1) (l : List F) :
    0 ≤ q * ((l.length - 1 : Nat) : F) ∧
      q * ((l.length - 1 : Nat) : F) ≤ (((sorted l).length - 1 : Nat) : F) := by
  rw [(sorted_perm l).length_eq]
  exact ⟨mul_nonneg hq0 (Nat.cast_nonneg _), mul_le_of_le_one_left (Nat.cast_nonneg _) hq1⟩

theorem quantile_le_iff (hq0 : 0 ≤ q) (hq1 : q ≤ 1) (hv : v ∈ l) :
    quantile q l ≤ v ↔ ⌈q * ((l.length - 1 : Nat) : F)⌉₊ < l.countP fun a => decide (a ≤ v) := by
  obtain ⟨hlow, hhigh⟩ := position_bounds hq0 hq1 l
  have hmem : v ∈ sorted l := (sorted_perm l).mem_iff.mpr hv
  have hindex : ⌈q * ((l.length - 1 : Nat) : F)⌉₊ < (sorted l).length := by
    have hle := Nat.ceil_le.mpr hhigh
    have hpos := List.length_pos_of_mem hmem
    omega
  rw [quantile, interpolate_le_iff (sorted_pairwise l) hlow hhigh hmem,
    ← (sorted_perm l).countP_eq, ← getD_iff_lt_countP (sorted_pairwise l) ?_ hindex]
  · simp
  · intro a b hab hb
    exact decide_eq_true (hab.trans (of_decide_eq_true hb))

theorem le_quantile_iff (hq0 : 0 ≤ q) (hq1 : q ≤ 1) (hv : v ∈ l) :
    v ≤ quantile q l ↔
      l.length - 1 - ⌊q * ((l.length - 1 : Nat) : F)⌋₊ < l.countP fun a => decide (v ≤ a) := by
  obtain ⟨hlow, hhigh⟩ := position_bounds hq0 hq1 l
  have hmem : v ∈ sorted l := (sorted_perm l).mem_iff.mpr hv
  have hlength := (sorted_perm l).length_eq
  have hindex : ⌊q * ((l.length - 1 : Nat) : F)⌋₊ < (sorted l).length := by
    have hle := (Nat.floor_le_ceil _).trans (Nat.ceil_le.mpr hhigh)
    have hpos := List.length_pos_of_mem hmem
    omega
  have hsplit := List.length_eq_countP_add_countP (fun a => decide (a < v)) (l := sorted l)
  have hother : (sorted l).countP (fun a => decide ¬decide (a < v) = true) =
      l.countP fun a => decide (v ≤ a) := by
    rw [(sorted_perm l).countP_eq]
    simp
  have hrank := getD_iff_lt_countP (sorted_pairwise l) (p := fun a => decide (a < v))
    (fun a b hab hb => decide_eq_true (hab.trans_lt (of_decide_eq_true hb))) hindex
  rw [decide_eq_true_iff] at hrank
  rw [quantile, le_interpolate_iff (sorted_pairwise l) hlow hhigh hmem, ← not_lt, hrank]
  omega

end Elements

end OrderStatistics
