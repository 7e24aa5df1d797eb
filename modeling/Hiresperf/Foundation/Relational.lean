import Mathlib.Algebra.BigOperators.Group.Finset.Basic
import Mathlib.Algebra.Order.BigOperators.Ring.Finset
import Mathlib.Algebra.Order.Field.Basic
import Mathlib.Data.List.Dedup

/-!
# Tables with nulls

The parts of a query language that a report over tables is made of: joins,
groups and weighted averages. A table is the list of its rows in any order. A
null is `none`: it takes no part in a sum, and a product with it is null.
-/

namespace Relational

universe u v

variable {A : Type u} {B : Type v}

/-! ## Joins -/

theorem filter_or_perm {p q : B → Bool} {r : List B} (h : ∀ b ∈ r, p b = true → q b = false) :
    (r.filter p ++ r.filter q).Perm (r.filter fun b => p b || q b) := by
  induction r with
  | nil => simp
  | cons b r ih =>
    have ih := ih fun c hc => h c (List.mem_cons_of_mem b hc)
    have hb := h b List.mem_cons_self
    cases hp : p b with
    | true =>
      have hq := hb hp
      simpa [hp, hq] using ih
    | false =>
      cases hq : q b with
      | true =>
        simp only [List.filter_cons, hp, hq, Bool.false_or, if_true, Bool.false_eq_true, if_false]
        exact List.perm_middle.trans (ih.cons b)
      | false => simpa [hp, hq] using ih

/-- A join in which a row on the right has at most one partner gives each row with a partner
once. -/
theorem join_perm {p : A → B → Bool} {l : List A} {r : List B}
    (h : ∀ b ∈ r, l.Pairwise fun a a' => ¬(p a b = true ∧ p a' b = true)) :
    (l.flatMap fun a => r.filter (p a)).Perm (r.filter fun b => l.any fun a => p a b) := by
  induction l with
  | nil => simp
  | cons a l ih =>
    have htail := ih fun b hb => (List.pairwise_cons.mp (h b hb)).2
    have hother : ∀ b ∈ r, p a b = true → (l.any fun a' => p a' b) = false := by
      intro b hb hab
      rw [List.any_eq_false]
      intro a' ha' hab'
      exact (List.pairwise_cons.mp (h b hb)).1 a' ha' ⟨hab, hab'⟩
    simp only [List.flatMap_cons, List.any_cons]
    exact (htail.append_left _).trans (filter_or_perm hother)

/-! ## Groups -/

variable {K : Type v} [DecidableEq K]

/-- `GROUP BY`: each key once, with the aggregate of its rows. -/
def groupAgg {V : Type u} (key : A → K) (agg : List A → V) (rows : List A) : List (K × V) :=
  (rows.map key).dedup.map fun k => (k, agg (rows.filter fun a => key a == k))

theorem lookup_map_pair {V : Type u} (f : K → V) (keys : List K) (k : K) :
    (keys.map fun k => (k, f k)).lookup k = if k ∈ keys then some (f k) else none := by
  induction keys with
  | nil => rfl
  | cons k' keys ih =>
    by_cases heq : k = k'
    · simp [heq]
    · have hbeq : (k == k') = false := by simpa using heq
      simp [List.lookup_cons, hbeq, ih, heq]

/-- A key without rows has no group. -/
theorem lookup_groupAgg {V : Type u} (key : A → K) (agg : List A → V) (rows : List A) (k : K) :
    (groupAgg key agg rows).lookup k =
      if k ∈ rows.map key then some (agg (rows.filter fun a => key a == k)) else none := by
  rw [groupAgg, lookup_map_pair]
  simp only [List.mem_dedup]

/-- With unique keys the group of a key is what its own row was joined with. -/
theorem filter_flatMap_key {key : A → K} {f : A → List B} {l : List A} (hnodup : (l.map key).Nodup)
    {a : A} (ha : a ∈ l) :
    ((l.flatMap fun a => (f a).map fun b => (key a, b)).filter fun p => p.1 == key a) =
      (f a).map fun b => (key a, b) := by
  induction l with
  | nil => cases ha
  | cons a' l ih =>
    rw [List.map_cons, List.nodup_cons] at hnodup
    rw [List.flatMap_cons, List.filter_append, List.filter_map]
    rcases List.mem_cons.mp ha with rfl | hmem
    · have hrest : ((l.flatMap fun a => (f a).map fun b => (key a, b)).filter
          fun p => p.1 == key a) = [] := by
        rw [List.filter_eq_nil_iff]
        intro p hp heq
        obtain ⟨c, hc, hpc⟩ := List.mem_flatMap.mp hp
        obtain ⟨b, -, rfl⟩ := List.mem_map.mp hpc
        rw [beq_iff_eq] at heq
        exact hnodup.1 (heq ▸ List.mem_map_of_mem hc)
      simp [hrest, Function.comp_def]
    · have hne : key a' ≠ key a := fun heq => hnodup.1 (heq ▸ List.mem_map_of_mem hmem)
      simp [Function.comp_def, hne, ih hnodup.2 hmem]

/-! ## Weighted averages -/

section Average

variable {F : Type v}

/-- The rows with a value. -/
def valued (value : A → Option F) (rows : Finset A) : Finset A :=
  rows.filter fun a => (value a).isSome = true

theorem mem_valued {value : A → Option F} {rows : Finset A} {a : A} :
    a ∈ valued value rows ↔ a ∈ rows ∧ (value a).isSome = true := by
  rw [valued, Finset.mem_filter]

variable [Field F]

/-- `SUM`: null if the column holds nothing else. -/
def nullSum (column : List (Option F)) : Option F :=
  if column.all Option.isNone then none else some (column.map fun x => x.getD 0).sum

def nullMul (x y : Option F) : Option F := x.bind fun x => y.map fun y => x * y

theorem getD_nullMul (x y : Option F) : (nullMul x y).getD 0 = x.getD 0 * y.getD 0 := by
  cases x <;> cases y <;> simp [nullMul]

theorem nullSum_perm {c c' : List (Option F)} (h : c.Perm c') : nullSum c = nullSum c' := by
  have hall : c.all Option.isNone = c'.all Option.isNone := by
    rw [Bool.eq_iff_iff, List.all_eq_true, List.all_eq_true]
    exact forall_congr' fun x => by rw [h.mem_iff]
  rw [nullSum, nullSum, hall, (h.map _).sum_eq]

theorem nullSum_of_mem {c : List (Option F)} {x : F} (h : some x ∈ c) :
    nullSum c = some (c.map fun x => x.getD 0).sum := by
  have hall : c.all Option.isNone = false := by
    rw [List.all_eq_false]
    exact ⟨some x, h, by simp⟩
  simp [nullSum, hall]

theorem nullSum_of_forall_none {c : List (Option F)} (h : ∀ x ∈ c, x = none) : nullSum c = none := by
  have hall : c.all Option.isNone = true := by
    rw [List.all_eq_true]
    intro x hx
    simp [h x hx]
  simp [nullSum, hall]

section Sums

variable [DecidableEq A] {value weight : A → Option F} {rows : List A}

/-- The products of rows without a value do not show in the sum. -/
theorem sum_products (hnodup : rows.Nodup) :
    (rows.map fun a => (value a).getD 0 * (weight a).getD 0).sum =
      ∑ a ∈ valued value rows.toFinset, (value a).getD 0 * (weight a).getD 0 := by
  rw [← List.sum_toFinset _ hnodup, valued]
  symm
  apply Finset.sum_filter_of_ne
  intro a _ hne
  cases hv : value a with
  | none => simp [hv] at hne
  | some v => rfl

/-- Their weights do. -/
theorem sum_weights (value : A → Option F) (hnodup : rows.Nodup) :
    (rows.map fun a => (weight a).getD 0).sum =
      ∑ a ∈ valued value rows.toFinset, (weight a).getD 0 +
        ∑ a ∈ rows.toFinset.filter (fun a => ¬(value a).isSome = true), (weight a).getD 0 := by
  rw [← List.sum_toFinset _ hnodup, valued, Finset.sum_filter_add_sum_filter_not]

end Sums

variable [LinearOrder F]

/-- Division by zero is null. -/
def nullDiv (x y : Option F) : Option F :=
  x.bind fun x => y.bind fun y => if y = 0 then none else some (x / y)

/-- `SUM(value * weight) / SUM(weight)`. -/
def weightedAvg (value weight : A → Option F) (rows : List A) : Option F :=
  nullDiv (nullSum (rows.map fun a => nullMul (value a) (weight a))) (nullSum (rows.map weight))

/-- The mean of the values that there are; null without weight. -/
def weightedMean (value weight : A → Option F) (rows : Finset A) : Option F :=
  if ∑ a ∈ valued value rows, (weight a).getD 0 = 0 then none
  else some ((∑ a ∈ valued value rows, (value a).getD 0 * (weight a).getD 0) /
    ∑ a ∈ valued value rows, (weight a).getD 0)

variable {value weight : A → Option F}

theorem weightedAvg_perm {rows rows' : List A} (h : rows.Perm rows') :
    weightedAvg value weight rows = weightedAvg value weight rows' := by
  rw [weightedAvg, weightedAvg, nullSum_perm (h.map _), nullSum_perm (h.map weight)]

theorem weightedAvg_map {C : Type v} (f : C → A) (rows : List C) :
    weightedAvg value weight (rows.map f) =
      weightedAvg (fun c => value (f c)) (fun c => weight (f c)) rows := by
  simp only [weightedAvg, List.map_map, Function.comp_def]

/-- The average where some row has both a value and a weight. -/
theorem weightedAvg_of_mem {rows : List A} {a : A} (ha : a ∈ rows) (hv : (value a).isSome = true)
    (hw : (weight a).isSome = true) :
    weightedAvg value weight rows =
      if (rows.map fun a => (weight a).getD 0).sum = 0 then none
      else some ((rows.map fun a => (value a).getD 0 * (weight a).getD 0).sum /
        (rows.map fun a => (weight a).getD 0).sum) := by
  obtain ⟨x, hx⟩ := Option.isSome_iff_exists.mp hv
  obtain ⟨y, hy⟩ := Option.isSome_iff_exists.mp hw
  have hprod : some (x * y) ∈ rows.map fun a => nullMul (value a) (weight a) :=
    List.mem_map.mpr ⟨a, ha, by rw [hx, hy]; rfl⟩
  have hweight : some y ∈ rows.map weight := List.mem_map.mpr ⟨a, ha, hy⟩
  rw [weightedAvg, nullSum_of_mem hprod, nullSum_of_mem hweight]
  simp only [nullDiv, Option.bind_some, List.map_map, Function.comp_def, getD_nullMul]

theorem weightedAvg_of_forall {rows : List A}
    (h : ∀ a ∈ rows, (value a).isSome = true → weight a = none) :
    weightedAvg value weight rows = none := by
  have hprod : ∀ x ∈ rows.map fun a => nullMul (value a) (weight a), x = none := by
    intro x hx
    obtain ⟨a, ha, rfl⟩ := List.mem_map.mp hx
    cases hv : value a with
    | none => rfl
    | some v =>
      rw [h a ha (by rw [hv]; rfl)]
      rfl
  rw [weightedAvg, nullSum_of_forall_none hprod]
  rfl

variable [IsStrictOrderedRing F]

theorem quotients_eq_iff {x c n : F} (hc : 0 ≤ c) (hn : 0 ≤ n) :
    (if c + n = 0 then none else some (x / (c + n))) = (if c = 0 then none else some (x / c)) ↔
      n = 0 ∨ (0 < c ∧ x = 0) := by
  by_cases hzero : n = 0
  · simp [hzero]
  · have hpos : 0 < n := lt_of_le_of_ne hn (Ne.symm hzero)
    have hsum : c + n ≠ 0 := (add_pos_of_nonneg_of_pos hc hpos).ne'
    by_cases hczero : c = 0
    · simp [hczero, hzero]
    · have hcpos : 0 < c := lt_of_le_of_ne hc (Ne.symm hczero)
      have hquot : x / (c + n) = x / c ↔ x = 0 := by
        rw [div_eq_div_iff hsum hczero, mul_add, left_eq_add, mul_eq_zero]
        simp [hzero]
      simp [hsum, hczero, hquot, hzero, hcpos]

/-- The average is the mean unless a row without a value has weight, as long as there is a
value with a weight and the values do not cancel out. -/
theorem weightedAvg_eq_weightedMean_iff [DecidableEq A] (value : A → Option F) {rows : List A}
    (hnodup : rows.Nodup) (hweight : ∀ a, 0 ≤ (weight a).getD 0) :
    weightedAvg value weight rows = weightedMean value weight rows.toFinset ↔
      (∀ a ∈ rows, value a = none → (weight a).getD 0 = 0) ∨
      (∀ a ∈ rows, (value a).isSome = true → weight a = none) ∨
      (0 < ∑ a ∈ valued value rows.toFinset, (weight a).getD 0 ∧
        ∑ a ∈ valued value rows.toFinset, (value a).getD 0 * (weight a).getD 0 = 0) := by
  have hnonneg : ∀ rows : Finset A, 0 ≤ ∑ a ∈ rows, (weight a).getD 0 :=
    fun rows => Finset.sum_nonneg fun a _ => hweight a
  by_cases hpair : ∃ a ∈ rows, (value a).isSome = true ∧ (weight a).isSome = true
  · obtain ⟨a, ha, hv, hw⟩ := hpair
    have hmissing : ¬∀ a ∈ rows, (value a).isSome = true → weight a = none := by
      intro h
      rw [h a ha hv] at hw
      cases hw
    have hweightless : ∑ a ∈ rows.toFinset.filter (fun a => ¬(value a).isSome = true),
        (weight a).getD 0 = 0 ↔ ∀ a ∈ rows, value a = none → (weight a).getD 0 = 0 := by
      rw [Finset.sum_eq_zero_iff_of_nonneg fun a _ => hweight a]
      simp
    rw [weightedAvg_of_mem ha hv hw, sum_products hnodup, sum_weights value hnodup,
      weightedMean, quotients_eq_iff (hnonneg _) (hnonneg _), hweightless]
    simp [hmissing]
  · have hnone : ∀ a ∈ rows, (value a).isSome = true → weight a = none := by
      intro a ha hv
      cases hw : weight a with
      | none => rfl
      | some w => exact absurd ⟨a, ha, hv, by rw [hw]; rfl⟩ hpair
    have htotal : ∑ a ∈ valued value rows.toFinset, (weight a).getD 0 = 0 := by
      apply Finset.sum_eq_zero
      intro a ha
      obtain ⟨hmem, hv⟩ := mem_valued.mp ha
      rw [hnone a (List.mem_toFinset.mp hmem) hv]
      rfl
    rw [weightedAvg_of_forall hnone, weightedMean, if_pos htotal]
    exact iff_of_true rfl (Or.inr (Or.inl hnone))

/-- A mean is between the least and the greatest of its values. -/
theorem weightedMean_between {rows : Finset A} {q : F} (hweight : ∀ a, 0 ≤ (weight a).getD 0)
    (h : weightedMean value weight rows = some q) :
    ∃ lo ∈ valued value rows, ∃ hi ∈ valued value rows,
      (∀ a ∈ valued value rows, (value lo).getD 0 ≤ (value a).getD 0 ∧
        (value a).getD 0 ≤ (value hi).getD 0) ∧
      (value lo).getD 0 ≤ q ∧ q ≤ (value hi).getD 0 := by
  rw [weightedMean] at h
  split_ifs at h with htotal
  have hpos : 0 < ∑ a ∈ valued value rows, (weight a).getD 0 :=
    lt_of_le_of_ne (Finset.sum_nonneg fun a _ => hweight a) (Ne.symm htotal)
  have hnonempty : (valued value rows).Nonempty := by
    rw [Finset.nonempty_iff_ne_empty]
    intro hempty
    rw [hempty, Finset.sum_empty] at hpos
    exact lt_irrefl 0 hpos
  obtain ⟨lo, hlo, hmin⟩ := Finset.exists_min_image _ (fun a => (value a).getD 0) hnonempty
  obtain ⟨hi, hhi, hmax⟩ := Finset.exists_max_image _ (fun a => (value a).getD 0) hnonempty
  refine ⟨lo, hlo, hi, hhi, fun a ha => ⟨hmin a ha, hmax a ha⟩, ?_⟩
  cases h
  rw [le_div_iff₀ hpos, div_le_iff₀ hpos, Finset.mul_sum, Finset.mul_sum]
  constructor
  · exact Finset.sum_le_sum fun a ha => mul_le_mul_of_nonneg_right (hmin a ha) (hweight a)
  · exact Finset.sum_le_sum fun a ha => mul_le_mul_of_nonneg_right (hmax a ha) (hweight a)

end Average

end Relational
