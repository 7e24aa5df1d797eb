import Hiresperf.Foundation.BinaryFormat
import Hiresperf.Foundation.OrderStatistics
import Hiresperf.PollDifferences
import Mathlib.Data.Rat.Floor

/-!
# Leaving out the outliers

`filter_outliers_95` of `parse_hrp_instructed_outlier.py`: a loop is kept if each of
its differences is between the percentiles 2.5 and 97.5 of all loops. The percentiles
are interpolated, here in exact arithmetic, so that already with two loops they lie
properly between the least and the greatest value. The loops that are kept are built
again from rows of floating-point numbers.
-/

namespace OutlierFilter

open BinaryFormat LogParsing OrderStatistics PollDifferences

/-! ## The script -/

/-- `vars_to_check`. The first counters of the record stand for `c1` and `c2`. -/
def varsToCheck (useImc : Bool) : List (TimeRangeData → Int) :=
  [fun d => d.diff .stallMem, fun d => d.diff .instRetire, fun d => d.diff .cpuUnhalt,
    fun d => d.diff .llcMisses, fun d => d.diff .swPrefetch] ++
  if useImc then [TimeRangeData.imcReadDiff, TimeRangeData.imcWriteDiff] else []

/-- `df[v]`. -/
def column (data : List TimeRangeData) (v : TimeRangeData → Int) : List ℚ :=
  data.map fun d => (v d : ℚ)

def percentile (p : ℚ) (values : List ℚ) : ℚ := quantile (p / 100) values

/-- A constant column is guarded against. -/
def bounds (values : List ℚ) : ℚ × ℚ :=
  if values.dedup.length ≤ 1 then
    (values.foldl min (values.headD 0), values.foldl max (values.headD 0))
  else (percentile (5 / 2) values, percentile (195 / 2) values)

def inBounds (b : ℚ × ℚ) (x : ℚ) : Bool := decide (b.1 ≤ x) && decide (x ≤ b.2)

/-- `int(r[v])`: the duration makes the columns of a row 8-byte floats. -/
def rowInt (value : Int) : Int :=
  if binary64.round value < 0 then ⌈binary64.round value⌉ else ⌊binary64.round value⌋

/-- A kept loop, from its row. -/
def rebuilt (d : TimeRangeData) : TimeRangeData where
  durationMs := d.durationMs
  diff c := (rowInt (d.diff c)).toNat
  imcReadDiff := rowInt d.imcReadDiff
  imcWriteDiff := rowInt d.imcWriteDiff
  startTs := (rowInt d.startTs).toNat
  endTs := (rowInt d.endTs).toNat

def filterOutliers95 (data : List TimeRangeData) (useImc : Bool) : List TimeRangeData :=
  if data.isEmpty then data
  else (data.filter fun d => (varsToCheck useImc).all fun v =>
    inBounds (bounds (column data v)) (v d)).map rebuilt

/-! ## What is kept -/

/-- A fortieth of the loops, rounded up. -/
def margin (n : Nat) : Nat := (n - 1 + 39) / 40

def low (data : List TimeRangeData) (v : TimeRangeData → Int) (d : TimeRangeData) : Bool :=
  decide ((data.countP fun e => decide (v e ≤ v d)) ≤ margin data.length)

def high (data : List TimeRangeData) (v : TimeRangeData → Int) (d : TimeRangeData) : Bool :=
  decide ((data.countP fun e => decide (v d ≤ v e)) ≤ margin data.length)

/-- In none of the differences the loop is among the lowest or the highest. -/
def central (data : List TimeRangeData) (useImc : Bool) (d : TimeRangeData) : Bool :=
  !(varsToCheck useImc).any fun v => low data v d || high data v d

/-- The whole numbers of the loop are 8-byte floats. -/
structure Small (d : TimeRangeData) : Prop where
  diff : ∀ c, d.diff c < 2 ^ 53
  imc : d.imcReadDiff.natAbs < 2 ^ 53 ∧ d.imcWriteDiff.natAbs < 2 ^ 53
  times : d.startTs < 2 ^ 53 ∧ d.endTs < 2 ^ 53

/-- A loop is left out if it is among the lowest or the highest in one of the differences. Few
loops are, but of two that differ both. -/
structure KeepsCentral (data : List TimeRangeData) (useImc : Bool) : Prop where
  kept : filterOutliers95 data useImc = (data.filter (central data useImc)).map rebuilt
  same : (∀ d ∈ data, Small d) → filterOutliers95 data useImc = data.filter (central data useImc)
  dropped : data.length ≤ (filterOutliers95 data useImc).length +
    (varsToCheck useImc).length * (2 * margin data.length)
  two : ∀ d e, data = [d, e] → (∃ v ∈ varsToCheck useImc, v d ≠ v e) →
    filterOutliers95 data useImc = []

/-! ## Ranks -/

theorem ceil_margin (n : Nat) : ⌈(5 / 2 / 100 : ℚ) * ((n - 1 : Nat) : ℚ)⌉₊ = margin n := by
  refine eq_of_forall_ge_iff fun k => ?_
  have hscale : (5 / 2 / 100 : ℚ) * ((n - 1 : Nat) : ℚ) ≤ k ↔
      ((n - 1 : Nat) : ℚ) ≤ ((40 * k : Nat) : ℚ) := by
    push_cast
    constructor <;> intro h <;> linarith
  rw [Nat.ceil_le, hscale, Nat.cast_le, margin]
  omega

theorem floor_margin (n : Nat) :
    n - 1 - ⌊(195 / 2 / 100 : ℚ) * ((n - 1 : Nat) : ℚ)⌋₊ = margin n := by
  have hfloor : ⌊(195 / 2 / 100 : ℚ) * ((n - 1 : Nat) : ℚ)⌋₊ = 39 * (n - 1) / 40 := by
    refine eq_of_forall_le_iff fun k => ?_
    have hscale : (k : ℚ) ≤ (195 / 2 / 100 : ℚ) * ((n - 1 : Nat) : ℚ) ↔
        ((40 * k : Nat) : ℚ) ≤ ((39 * (n - 1) : Nat) : ℚ) := by
      push_cast
      constructor <;> intro h <;> linarith
    rw [Nat.le_floor_iff (by positivity), hscale, Nat.cast_le]
    omega
  rw [hfloor, margin]
  omega

theorem margin_lt {n : Nat} (h : 0 < n) : margin n < n := by
  rw [margin]
  omega

variable {data : List TimeRangeData} {v : TimeRangeData → Int} {d : TimeRangeData}

theorem countP_column (p : ℚ → Bool) : (column data v).countP p = data.countP fun e => p (v e) := by
  rw [column, List.countP_map]
  rfl

/-- In a constant column every loop has every rank. -/
theorem ranks_of_constant (hd : d ∈ data) (hconst : ∀ e ∈ data, v e = v d) :
    low data v d = false ∧ high data v d = false := by
  have hmargin := margin_lt (List.length_pos_of_mem hd)
  have hlow : (data.countP fun e => decide (v e ≤ v d)) = data.length :=
    List.countP_eq_length.mpr fun e he => decide_eq_true (hconst e he).le
  have hhigh : (data.countP fun e => decide (v d ≤ v e)) = data.length :=
    List.countP_eq_length.mpr fun e he => decide_eq_true (hconst e he).ge
  rw [low, high, hlow, hhigh]
  simp [hmargin]

theorem constant_of_dedup {values : List ℚ} (h : values.dedup.length ≤ 1) {x y : ℚ}
    (hx : x ∈ values) (hy : y ∈ values) : x = y := by
  rw [← List.mem_dedup] at hx hy
  cases hvalues : values.dedup with
  | nil =>
    rw [hvalues] at hx
    cases hx
  | cons a rest =>
    rw [hvalues, List.length_cons] at h
    have hrest : rest = [] := List.length_eq_zero_iff.mp (by omega)
    rw [hvalues, hrest, List.mem_singleton] at hx hy
    rw [hx, hy]

theorem foldl_constant {op : ℚ → ℚ → ℚ} {x : ℚ} (hop : op x x = x) {values : List ℚ}
    (h : ∀ y ∈ values, y = x) : values.foldl op x = x := by
  induction values with
  | nil => rfl
  | cons y values ih =>
    rw [List.foldl_cons, h y List.mem_cons_self, hop]
    exact ih fun z hz => h z (List.mem_cons_of_mem y hz)

/-- The two bounds as ranks. -/
theorem inBounds_iff (hd : d ∈ data) :
    inBounds (bounds (column data v)) (v d) = true ↔
      low data v d = false ∧ high data v d = false := by
  have hmem : (v d : ℚ) ∈ column data v := List.mem_map_of_mem hd
  have hlength : (column data v).length = data.length := List.length_map _
  rw [inBounds, bounds]
  split
  case isTrue hdedup =>
    have hsame : ∀ y ∈ column data v, y = v d := fun y hy => constant_of_dedup hdedup hy hmem
    have hhead : (column data v).headD 0 = v d := by
      cases hcolumn : column data v with
      | nil => simp [hcolumn] at hmem
      | cons y rest => exact hsame y (by rw [hcolumn]; exact List.mem_cons_self)
    have hconst : ∀ e ∈ data, v e = v d := fun e he => by
      exact_mod_cast hsame _ (List.mem_map_of_mem he)
    rw [hhead, foldl_constant (min_self _) hsame, foldl_constant (max_self _) hsame]
    simpa using ranks_of_constant hd hconst
  case isFalse =>
    rw [Bool.and_eq_true, decide_eq_true_iff, decide_eq_true_iff, percentile, percentile,
      quantile_le_iff (by norm_num) (by norm_num) hmem,
      le_quantile_iff (by norm_num) (by norm_num) hmem, hlength, ceil_margin, floor_margin,
      countP_column, countP_column, low, high]
    simp only [Int.cast_le, decide_eq_false_iff_not, not_le]

/-! ## The loops -/

theorem rowInt_of_small {value : Int} (h : value.natAbs < 2 ^ 53) : rowInt value = value := by
  have hsame : binary64.round (value : ℚ) = value := Format.round_intCast (by decide) h
  rw [rowInt, hsame, Int.ceil_intCast, Int.floor_intCast, ite_self]

theorem rebuilt_of_small {d : TimeRangeData} (h : Small d) : rebuilt d = d := by
  have hnat : ∀ n : Nat, n < 2 ^ 53 → (rowInt n).toNat = n := by
    intro n hn
    rw [rowInt_of_small (by rwa [Int.natAbs_natCast]), Int.toNat_natCast]
  have hdiff : (fun c => (rowInt (d.diff c)).toNat) = d.diff :=
    funext fun c => hnat _ (h.diff c)
  rw [rebuilt, hdiff, rowInt_of_small h.imc.1, rowInt_of_small h.imc.2, hnat _ h.times.1,
    hnat _ h.times.2]

theorem filterOutliers95_eq (data : List TimeRangeData) (useImc : Bool) :
    filterOutliers95 data useImc = (data.filter (central data useImc)).map rebuilt := by
  rw [filterOutliers95]
  split
  case isTrue hempty =>
    rw [List.isEmpty_iff] at hempty
    rw [hempty]
    rfl
  case isFalse =>
    refine congrArg (List.map rebuilt) (List.filter_congr fun d hd => ?_)
    rw [central, Bool.eq_iff_iff, List.all_eq_true, Bool.not_eq_true', List.any_eq_false]
    refine forall_congr' fun v => forall_congr' fun _ => ?_
    rw [inBounds_iff hd]
    simp

theorem countP_low_le (data : List TimeRangeData) (v : TimeRangeData → Int) :
    data.countP (low data v) ≤ margin data.length :=
  countP_low_rank (r := fun e d => decide (v e ≤ v d))
    (fun a b => by simpa using le_total (v a) (v b))
    (fun a b c hab hbc => by simpa using (of_decide_eq_true hab).trans (of_decide_eq_true hbc))
    data _

theorem countP_high_le (data : List TimeRangeData) (v : TimeRangeData → Int) :
    data.countP (high data v) ≤ margin data.length :=
  countP_low_rank (r := fun e d => decide (v d ≤ v e))
    (fun a b => by simpa using le_total (v b) (v a))
    (fun a b c hab hbc => by simpa using (of_decide_eq_true hbc).trans (of_decide_eq_true hab))
    data _

/-- Of two different values one is the lowest and one the highest. -/
theorem low_or_high_of_two {d e f : TimeRangeData} (hne : v d ≠ v e) (hf : f ∈ [d, e]) :
    (low [d, e] v f || high [d, e] v f) = true := by
  have hmargin : margin [d, e].length = 1 := by simp [margin]
  simp only [low, high, hmargin, List.countP_cons, List.countP_nil]
  rcases List.mem_cons.mp hf with rfl | hlast
  · rcases lt_or_gt_of_ne hne with hlt | hgt
    · simp [hlt.not_ge]
    · simp [hgt.not_ge]
  · rw [List.mem_singleton.mp hlast]
    rcases lt_or_gt_of_ne hne with hlt | hgt
    · simp [hlt.not_ge]
    · simp [hgt.not_ge]

theorem outliers_left_out (data : List TimeRangeData) (useImc : Bool) :
    KeepsCentral data useImc where
  kept := filterOutliers95_eq data useImc
  same hsmall := by
    have hrebuilt : ∀ d ∈ data.filter (central data useImc), rebuilt d = id d := fun d hd =>
      rebuilt_of_small (hsmall d (List.mem_filter.mp hd).1)
    rw [filterOutliers95_eq, List.map_congr_left hrebuilt, List.map_id]
  dropped := by
    have hbound : (data.countP fun d => (varsToCheck useImc).any fun v =>
        low data v d || high data v d) ≤
        (varsToCheck useImc).length * (2 * margin data.length) := by
      refine countP_any_le (p := fun v d => low data v d || high data v d) fun v _ => ?_
      have hboth := countP_or_le (low data v) (high data v) data
      have hlow := countP_low_le data v
      have hhigh := countP_high_le data v
      omega
    have hsplit := List.length_eq_countP_add_countP
      (fun d => (varsToCheck useImc).any fun v => low data v d || high data v d) (l := data)
    rw [filterOutliers95_eq, List.length_map, ← List.countP_eq_length_filter]
    have hkept : data.countP (central data useImc) =
        data.countP fun d =>
          decide ¬((varsToCheck useImc).any fun v => low data v d || high data v d) = true := by
      refine List.countP_congr fun d _ => ?_
      rw [central]
      cases (varsToCheck useImc).any fun v => low data v d || high data v d <;> simp
    omega
  two := by
    rintro d e rfl ⟨v, hv, hne⟩
    rw [filterOutliers95_eq, List.map_eq_nil_iff, List.filter_eq_nil_iff]
    intro f hf hkept
    rw [central, Bool.not_eq_true', List.any_eq_false] at hkept
    exact hkept v hv (low_or_high_of_two hne hf)

end OutlierFilter
