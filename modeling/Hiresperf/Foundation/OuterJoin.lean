import Hiresperf.Foundation.Relational
import Mathlib.Algebra.BigOperators.Group.List.Basic
import Mathlib.Algebra.CharZero.Defs
import Mathlib.Data.List.ReduceOption

/-!
# Outer joins and plain averages

A left join keeps the rows that have no partner, with nulls in place of one. When
its rows are grouped by a key of the left side, a row that stands there several
times repeats all of its partners: a sum counts them each time, an average does
not notice.
-/

namespace Relational

universe u

variable {A B : Type u}

/-! ## Left joins -/

/-- The partners of a row: a single null if there are none. -/
def partners (p : A → B → Bool) (r : List B) (a : A) : List (Option B) :=
  if (r.filter (p a)).isEmpty then [none] else (r.filter (p a)).map some

/-- `LEFT JOIN`. -/
def leftJoin (p : A → B → Bool) (l : List A) (r : List B) : List (A × Option B) :=
  l.flatMap fun a => (partners p r a).map fun b => (a, b)

variable {p : A → B → Bool} {l : List A} {r : List B} {a : A}

theorem partners_ne_nil (p : A → B → Bool) (r : List B) (a : A) : partners p r a ≠ [] := by
  rw [partners]
  split
  · simp
  case isFalse h =>
    intro hnil
    rw [List.map_eq_nil_iff] at hnil
    simp [hnil] at h

theorem some_mem_partners {b : B} : some b ∈ partners p r a ↔ b ∈ r ∧ p a b = true := by
  rw [partners]
  split
  case isTrue h =>
    rw [List.isEmpty_iff, List.filter_eq_nil_iff] at h
    have hno : ¬(b ∈ r ∧ p a b = true) := fun hb => h b hb.1 hb.2
    simp [hno]
  · simp

theorem none_mem_partners : none ∈ partners p r a ↔ ∀ b ∈ r, p a b ≠ true := by
  rw [partners]
  split
  case isTrue h =>
    rw [List.isEmpty_iff, List.filter_eq_nil_iff] at h
    simpa using h
  case isFalse h =>
    rw [List.isEmpty_iff, List.filter_eq_nil_iff] at h
    simpa using h

theorem mem_leftJoin {b : Option B} : (a, b) ∈ leftJoin p l r ↔ a ∈ l ∧ b ∈ partners p r a := by
  rw [leftJoin, List.mem_flatMap]
  constructor
  · rintro ⟨a', ha', hmem⟩
    obtain ⟨b', hb', heq⟩ := List.mem_map.mp hmem
    cases heq
    exact ⟨ha', hb'⟩
  · rintro ⟨ha, hb⟩
    exact ⟨a, ha, List.mem_map_of_mem hb⟩

/-- No row of the left side is lost. -/
theorem mem_map_fst_leftJoin : a ∈ (leftJoin p l r).map Prod.fst ↔ a ∈ l := by
  constructor
  · intro h
    obtain ⟨row, hrow, rfl⟩ := List.mem_map.mp h
    exact (mem_leftJoin.mp hrow).1
  · intro h
    obtain ⟨b, hb⟩ := List.exists_mem_of_ne_nil _ (partners_ne_nil p r a)
    exact List.mem_map.mpr ⟨(a, b), mem_leftJoin.mpr ⟨h, hb⟩, rfl⟩

/-- A condition on the left side can be tested before the join. -/
theorem filter_leftJoin (q : A → Bool) :
    (leftJoin p l r).filter (fun row => q row.1) = leftJoin p (l.filter q) r := by
  induction l with
  | nil => rfl
  | cons a l ih =>
    rw [leftJoin, List.flatMap_cons, List.filter_append, ← leftJoin, ih, List.filter_map]
    cases hq : q a with
    | true => simp [leftJoin, hq, Function.comp_def]
    | false => simp [leftJoin, hq, Function.comp_def]

theorem leftJoin_replicate (n : Nat) :
    leftJoin p (List.replicate n a) r =
      (List.replicate n ((partners p r a).map fun b => (a, b))).flatten := by
  rw [leftJoin, List.flatMap_replicate]

/-! ## Averages -/

variable {F : Type u}

theorem reduceOption_flatten_replicate (n : Nat) (column : List (Option F)) :
    (List.replicate n column).flatten.reduceOption =
      (List.replicate n column.reduceOption).flatten := by
  rw [List.reduceOption, List.filterMap_flatten, List.map_replicate]

variable [Field F]

/-- `AVG`: null if the column holds nothing else. -/
def nullAvg (column : List (Option F)) : Option F :=
  if column.reduceOption.isEmpty then none
  else some (column.reduceOption.sum / column.reduceOption.length)

/-- A column repeated as a whole has the same average. -/
theorem nullAvg_replicate [CharZero F] {n : Nat} (hn : 0 < n) (column : List (Option F)) :
    nullAvg (List.replicate n column).flatten = nullAvg column := by
  have hcast : (n : F) ≠ 0 := Nat.cast_ne_zero.mpr (by omega)
  rw [nullAvg, nullAvg, reduceOption_flatten_replicate]
  cases hcol : column.reduceOption with
  | nil => simp
  | cons x xs =>
    have hne : ¬((List.replicate n (x :: xs)).flatten.isEmpty = true) := by
      rw [List.isEmpty_iff, List.flatten_eq_nil_iff]
      intro hnil
      exact List.cons_ne_nil x xs (hnil _ (List.mem_replicate.mpr ⟨by omega, rfl⟩))
    have hsum : (List.replicate n (x :: xs)).flatten.sum = n * (x :: xs).sum := by
      rw [List.sum_flatten, List.map_replicate, List.sum_replicate, nsmul_eq_mul]
    have hlength : (List.replicate n (x :: xs)).flatten.length = n * (x :: xs).length := by
      rw [List.length_flatten, List.map_replicate, List.sum_replicate_nat]
    rw [if_neg hne, if_neg (by simp), hsum, hlength, Nat.cast_mul, mul_div_mul_left _ _ hcast]

/-- The null that stands for a missing partner does not count. -/
theorem nullAvg_partners (value : B → Option F) :
    nullAvg ((partners p r a).map fun b => b.bind value) =
      nullAvg ((r.filter (p a)).map value) := by
  rw [partners]
  split
  case isTrue h =>
    rw [List.isEmpty_iff] at h
    rw [h]
    rfl
  · rw [List.map_map]
    rfl

/-- The average of a group of a left join is that of the partners of its row, however often
the row stands on the left. -/
theorem nullAvg_group {K : Type u} [DecidableEq K] [CharZero F] (key : A → K) (ha : a ∈ l)
    (hkey : ∀ a' ∈ l, key a' = key a → a' = a) (value : B → Option F) :
    nullAvg (((leftJoin p l r).filter fun row => key row.1 == key a).map
        fun row => row.2.bind value) =
      nullAvg ((r.filter (p a)).map value) := by
  have hsame : l.filter (fun a' => key a' == key a) =
      List.replicate (l.filter fun a' => key a' == key a).length a := by
    rw [List.eq_replicate_iff]
    refine ⟨rfl, fun a' ha' => ?_⟩
    obtain ⟨hmem, heq⟩ := List.mem_filter.mp ha'
    exact hkey a' hmem (beq_iff_eq.mp heq)
  have hpos : 0 < (l.filter fun a' => key a' == key a).length :=
    List.length_pos_of_mem (List.mem_filter.mpr ⟨ha, beq_self_eq_true _⟩)
  rw [filter_leftJoin fun a' => key a' == key a, hsame, leftJoin_replicate, List.map_flatten,
    List.map_replicate, List.map_map, nullAvg_replicate hpos, ← nullAvg_partners]
  rfl

/-- The groups of a left join by a key of its left rows, with the average of each column. -/
theorem mem_groupAgg_leftJoin {K : Type u} [DecidableEq K] [CharZero F] {C : Type u} {key : A → K}
    (hkey : ∀ a ∈ l, ∀ a' ∈ l, key a' = key a → a' = a) (value : C → B → Option F)
    {group : K × (C → Option F)} :
    group ∈ groupAgg (fun row => key row.1)
        (fun rows c => nullAvg (rows.map fun row => row.2.bind (value c))) (leftJoin p l r) ↔
      ∃ a ∈ l, group.1 = key a ∧ group.2 = fun c => nullAvg ((r.filter (p a)).map (value c)) := by
  rw [groupAgg, List.mem_map]
  constructor
  · rintro ⟨k, hk, rfl⟩
    obtain ⟨row, hrow, rfl⟩ := List.mem_map.mp (List.mem_dedup.mp hk)
    have ha := mem_map_fst_leftJoin.mp (List.mem_map_of_mem hrow)
    exact ⟨row.1, ha, rfl, funext fun c => nullAvg_group key ha (hkey row.1 ha) (value c)⟩
  · rintro ⟨a, ha, hfst, hsnd⟩
    obtain ⟨row, hrow, hrow'⟩ := List.mem_map.mp (mem_map_fst_leftJoin.mpr ha)
    refine ⟨key a, List.mem_dedup.mpr (List.mem_map.mpr ⟨row, hrow, by rw [hrow']⟩), ?_⟩
    ext1
    · exact hfst.symm
    · rw [hsnd]
      exact funext fun c => nullAvg_group key ha (hkey a ha) (value c)

theorem nodup_keys_groupAgg {V K : Type u} [DecidableEq K] (key : A → K)
    (agg : List A → V) (rows : List A) : ((groupAgg key agg rows).map Prod.fst).Nodup := by
  rw [groupAgg, List.map_map]
  simpa [Function.comp_def] using List.nodup_dedup (rows.map key)

end Relational
