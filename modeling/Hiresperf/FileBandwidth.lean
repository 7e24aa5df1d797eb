import Hiresperf.Foundation.Bisect
import Hiresperf.InvocationMetrics
import Mathlib.Algebra.BigOperators.Group.List.Basic
import Mathlib.Algebra.Order.BigOperators.Group.List

/-!
# The average of the total bandwidth

The second half of `compute_metrics_for_invocation` of `ldb_analysis`, in exact
arithmetic: two bisections, one over the ends and one over the starts of the
intervals, bound the range of the intervals that an invocation can overlap, and the
bandwidths of the range are averaged by their overlaps. `compute_invocation_metrics.py`
joins all intervals of a table that touch the invocation.
-/

namespace FileBandwidth

open Bisect InvocationMetrics Relational

/-! ## The script -/

/-- An entry of `total_memory_bandwidth.bin`. -/
structure BwInterval where
  startTimestampNs : Nat
  endTimestampNs : Nat
  totalMemoryBandwidthBytesPerUs : ℚ

def totalBwStartTimes (totalBwData : List BwInterval) : List Int :=
  totalBwData.map fun interval => interval.startTimestampNs

def totalBwEndTimes (totalBwData : List BwInterval) : List Int :=
  totalBwData.map fun interval => interval.endTimestampNs

/-- The variables of the loop. -/
structure Weights where
  totalWeight : Int
  weightedTotalMemoryBandwidth : ℚ

def addInterval (inv : Invocation) (s : Weights) (interval : BwInterval) : Weights :=
  let overlapStartNs := max (interval.startTimestampNs : Int) inv.startTimeNs
  let overlapEndNs := min (interval.endTimestampNs : Int) inv.endTimeNs
  if overlapStartNs ≥ overlapEndNs then s
  else
    let durationNs := overlapEndNs - overlapStartNs
    ⟨s.totalWeight + durationNs,
      s.weightedTotalMemoryBandwidth + interval.totalMemoryBandwidthBytesPerUs * durationNs⟩

def Weights.average (s : Weights) : ℚ :=
  if s.totalWeight > 0 then s.weightedTotalMemoryBandwidth / s.totalWeight else 0

/-- The value of `avg_total_memory_bandwidth_bytes_per_us_total`; `none` is an `IndexError`. -/
def avgTotalMemoryBandwidth (inv : Invocation) (totalBwData : List BwInterval)
    (totalBwStartTimes totalBwEndTimes : List Int) : Option ℚ :=
  let idxStart := bisectLeft totalBwEndTimes inv.startTimeNs
  let idxEnd := bisectRight totalBwStartTimes inv.endTimeNs
  ((List.range' idxStart (idxEnd - idxStart)).foldlM
    (fun s idx => totalBwData[idx]?.map (addInterval inv s)) ⟨0, 0⟩).map Weights.average

/-! ## The average over all intervals -/

/-- The length of the time that an invocation and an interval have in common. -/
def overlapNs (inv : Invocation) (interval : BwInterval) : Int :=
  min (interval.endTimestampNs : Int) inv.endTimeNs -
    max (interval.startTimestampNs : Int) inv.startTimeNs

def overlapping (inv : Invocation) (totalBwData : List BwInterval) : List BwInterval :=
  totalBwData.filter fun interval => decide (0 < overlapNs inv interval)

def totalOverlap (inv : Invocation) (totalBwData : List BwInterval) : Int :=
  ((overlapping inv totalBwData).map (overlapNs inv)).sum

def weightedOverlap (inv : Invocation) (totalBwData : List BwInterval) : ℚ :=
  ((overlapping inv totalBwData).map fun interval =>
    interval.totalMemoryBandwidthBytesPerUs * overlapNs inv interval).sum

/-- The average weighted by the overlaps, 0 without an overlap. -/
def scanAverage (inv : Invocation) (totalBwData : List BwInterval) : ℚ :=
  if totalOverlap inv totalBwData > 0 then
    weightedOverlap inv totalBwData / totalOverlap inv totalBwData
  else 0

/-- Intervals that take some time, each from the end of the one before or later. -/
structure Timeline where
  data : List BwInterval
  forward : ∀ interval ∈ data, interval.startTimestampNs < interval.endTimestampNs
  ordered : data.IsChain fun a b => a.endTimestampNs ≤ b.startTimestampNs

/-- The row of `node_memory_bandwidth` with the same interval. -/
def nodeInterval (interval : BwInterval) : NodeInterval where
  startTimeNs := interval.startTimestampNs
  endTimeNs := interval.endTimestampNs
  memoryBandwidthBytesPerUs := some interval.totalMemoryBandwidthBytesPerUs

/-! ## The loop -/

/-- A loop over the indices of a range is one over the part of the list. -/
theorem foldlM_range_getElem {α β : Type} (f : β → α → β) (l : List α) (start count : Nat)
    (hlength : start + count ≤ l.length) (s : β) :
    (List.range' start count).foldlM (fun s i => l[i]?.map (f s)) s =
      some (((l.drop start).take count).foldl f s) := by
  induction count generalizing start s with
  | zero => rfl
  | succ count ih =>
    have hstart : start < l.length := by omega
    rw [List.range'_succ, List.foldlM_cons, List.getElem?_eq_getElem hstart,
      List.drop_eq_getElem_cons hstart, List.take_succ_cons, List.foldl_cons]
    exact ih (start + 1) (by omega) _

theorem addInterval_eq (inv : Invocation) (s : Weights) (interval : BwInterval) :
    addInterval inv s interval = if 0 < overlapNs inv interval then
      ⟨s.totalWeight + overlapNs inv interval, s.weightedTotalMemoryBandwidth +
        interval.totalMemoryBandwidthBytesPerUs * overlapNs inv interval⟩ else s := by
  have hiff : max (interval.startTimestampNs : Int) inv.startTimeNs ≥
      min (interval.endTimestampNs : Int) inv.endTimeNs ↔ ¬ 0 < overlapNs inv interval := by
    unfold overlapNs
    omega
  simp only [addInterval, hiff, ite_not]
  rfl

theorem overlapping_cons (inv : Invocation) (interval : BwInterval) (rest : List BwInterval) :
    overlapping inv (interval :: rest) =
      if 0 < overlapNs inv interval then interval :: overlapping inv rest
      else overlapping inv rest := by
  simp only [overlapping, List.filter_cons, decide_eq_true_iff]

theorem foldl_addInterval (inv : Invocation) (l : List BwInterval) (s : Weights) :
    l.foldl (addInterval inv) s = ⟨s.totalWeight + totalOverlap inv l,
      s.weightedTotalMemoryBandwidth + weightedOverlap inv l⟩ := by
  induction l generalizing s with
  | nil => simp [totalOverlap, weightedOverlap, overlapping]
  | cons interval rest ih =>
    rw [List.foldl_cons, ih, addInterval_eq, totalOverlap, totalOverlap, weightedOverlap,
      weightedOverlap, overlapping_cons]
    split_ifs with hpos
    · simp only [List.map_cons, List.sum_cons, add_assoc]
    · rfl

theorem average_foldl (inv : Invocation) (l : List BwInterval) :
    (l.foldl (addInterval inv) ⟨0, 0⟩).average = scanAverage inv l := by
  rw [foldl_addInterval, Weights.average, scanAverage]
  simp only [zero_add]

theorem scanAverage_congr {inv : Invocation} {l l' : List BwInterval}
    (h : overlapping inv l = overlapping inv l') : scanAverage inv l = scanAverage inv l' := by
  rw [scanAverage, scanAverage, totalOverlap, totalOverlap, weightedOverlap, weightedOverlap, h]

/-! ## The range -/

namespace Timeline

theorem starts_sorted (timeline : Timeline) :
    (totalBwStartTimes timeline.data).Pairwise (· ≤ ·) := by
  rw [← List.isChain_iff_pairwise, totalBwStartTimes, List.isChain_map]
  refine timeline.ordered.imp_of_mem_imp fun a b ha _ hab => ?_
  have hforward := timeline.forward a ha
  omega

theorem ends_sorted (timeline : Timeline) :
    (totalBwEndTimes timeline.data).Pairwise (· ≤ ·) := by
  rw [← List.isChain_iff_pairwise, totalBwEndTimes, List.isChain_map]
  refine timeline.ordered.imp_of_mem_imp fun a b _ hb hab => ?_
  have hforward := timeline.forward b hb
  omega

/-- What lies before the range ends before the invocation starts. -/
theorem overlapping_take (timeline : Timeline) (inv : Invocation) :
    overlapping inv (timeline.data.take
      (bisectLeft (totalBwEndTimes timeline.data) inv.startTimeNs)) = [] := by
  obtain ⟨-, hbefore, -⟩ := bisectLeft_spec timeline.ends_sorted inv.startTimeNs
  rw [overlapping, List.filter_eq_nil_iff]
  intro interval hmem hpos
  have hend := hbefore interval.endTimestampNs (by
    rw [totalBwEndTimes, ← List.map_take]
    exact List.mem_map_of_mem hmem)
  rw [decide_eq_true_iff, overlapNs] at hpos
  omega

/-- What lies behind the range starts after the invocation has ended. -/
theorem overlapping_drop (timeline : Timeline) (inv : Invocation) :
    overlapping inv (timeline.data.drop
      (bisectRight (totalBwStartTimes timeline.data) inv.endTimeNs)) = [] := by
  obtain ⟨-, -, hafter⟩ := bisectRight_spec timeline.starts_sorted inv.endTimeNs
  rw [overlapping, List.filter_eq_nil_iff]
  intro interval hmem hpos
  have hstart := hafter interval.startTimestampNs (by
    rw [totalBwStartTimes, ← List.map_drop]
    exact List.mem_map_of_mem hmem)
  rw [decide_eq_true_iff, overlapNs] at hpos
  omega

theorem overlapping_range {inv : Invocation} {data : List BwInterval} {idxStart idxEnd : Nat}
    (hstart : overlapping inv (data.take idxStart) = [])
    (hend : overlapping inv (data.drop idxEnd) = []) :
    overlapping inv ((data.drop idxStart).take (idxEnd - idxStart)) = overlapping inv data := by
  have happend : ∀ l l' : List BwInterval,
      overlapping inv (l ++ l') = overlapping inv l ++ overlapping inv l' :=
    fun l l' => List.filter_append ..
  -- also where the range is empty, what is behind it is behind `idxEnd`
  have hbehind : overlapping inv ((data.drop idxStart).drop (idxEnd - idxStart)) = [] := by
    have hsub : ((data.drop idxStart).drop (idxEnd - idxStart)).Sublist (data.drop idxEnd) := by
      rw [List.drop_drop]
      exact List.drop_sublist_drop_left data (by omega)
    exact List.sublist_nil.mp (hend ▸ hsub.filter _)
  calc overlapping inv ((data.drop idxStart).take (idxEnd - idxStart))
      = overlapping inv (data.drop idxStart) := by
        rw [← List.take_append_drop (idxEnd - idxStart) (data.drop idxStart), happend, hbehind,
          List.append_nil, List.take_append_drop]
    _ = overlapping inv data := by
        rw [← List.take_append_drop idxStart data, happend, hstart, List.nil_append,
          List.take_append_drop]

/-- The bisections find all overlaps, and no index raises. -/
theorem avg_eq_scanAverage (timeline : Timeline) (inv : Invocation) :
    avgTotalMemoryBandwidth inv timeline.data (totalBwStartTimes timeline.data)
      (totalBwEndTimes timeline.data) = some (scanAverage inv timeline.data) := by
  have hidxStart := (bisectLeft_spec timeline.ends_sorted inv.startTimeNs).1
  have hidxEnd := (bisectRight_spec timeline.starts_sorted inv.endTimeNs).1
  rw [totalBwEndTimes, List.length_map] at hidxStart
  rw [totalBwStartTimes, List.length_map] at hidxEnd
  have hrange := overlapping_range (timeline.overlapping_take inv) (timeline.overlapping_drop inv)
  rw [avgTotalMemoryBandwidth, foldlM_range_getElem]
  · rw [Option.map_some, average_foldl, scanAverage_congr hrange]
  · simp only [totalBwStartTimes, totalBwEndTimes]
    omega

end Timeline

/-! ## The table -/

/-- The join of the table takes the intervals that have a moment in common with the
invocation. -/
def touches (inv : Invocation) (interval : BwInterval) : Bool :=
  decide (inv.startTimeNs ≤ (interval.endTimestampNs : Int)) &&
    decide ((interval.startTimestampNs : Int) ≤ inv.endTimeNs)

/-- Sums over two selections agree if the larger one adds only zeros. -/
theorem sum_filter_eq {α M : Type} [AddCommMonoid M] {p q : α → Bool} {f : α → M} {l : List α}
    (hle : ∀ a ∈ l, q a = true → p a = true)
    (hzero : ∀ a ∈ l, p a = true → q a = false → f a = 0) :
    ((l.filter p).map f).sum = ((l.filter q).map f).sum := by
  induction l with
  | nil => rfl
  | cons a l ih =>
    have ih := ih (fun b hb => hle b (List.mem_cons_of_mem a hb))
      fun b hb => hzero b (List.mem_cons_of_mem a hb)
    cases hp : p a with
    | false =>
      have hq : q a = false := by
        by_contra hq
        rw [hle a List.mem_cons_self (Bool.not_eq_false _ ▸ hq)] at hp
        exact absurd hp (by decide)
      rw [List.filter_cons_of_neg (by simp [hp]), List.filter_cons_of_neg (by simp [hq]), ih]
    | true =>
      cases hq : q a with
      | false =>
        rw [List.filter_cons_of_pos hp, List.filter_cons_of_neg (by simp [hq]), List.map_cons,
          List.sum_cons, hzero a List.mem_cons_self hp hq, zero_add, ih]
      | true => rw [List.filter_cons_of_pos hp, List.filter_cons_of_pos hq, List.map_cons,
          List.map_cons, List.sum_cons, List.sum_cons, ih]

/-- An interval that only touches the invocation has no weight. -/
theorem overlapNs_eq_zero {inv : Invocation} (hinv : inv.startTimeNs ≤ inv.endTimeNs)
    {interval : BwInterval} (hforward : interval.startTimestampNs < interval.endTimestampNs)
    (htouches : touches inv interval = true) (hnot : ¬ 0 < overlapNs inv interval) :
    overlapNs inv interval = 0 := by
  rw [touches, Bool.and_eq_true, decide_eq_true_iff, decide_eq_true_iff] at htouches
  unfold overlapNs at hnot ⊢
  omega

theorem touches_of_overlap {inv : Invocation} {interval : BwInterval}
    (hpos : 0 < overlapNs inv interval) : touches inv interval = true := by
  rw [touches, Bool.and_eq_true, decide_eq_true_iff, decide_eq_true_iff]
  unfold overlapNs at hpos
  omega

theorem sum_touching {M : Type} [AddCommMonoid M] (timeline : Timeline) {inv : Invocation}
    (hinv : inv.startTimeNs ≤ inv.endTimeNs) (f : BwInterval → M)
    (hf : ∀ interval, overlapNs inv interval = 0 → f interval = 0) :
    ((timeline.data.filter (touches inv)).map f).sum =
      ((overlapping inv timeline.data).map f).sum := by
  apply sum_filter_eq
  · exact fun interval _ hpos => touches_of_overlap (of_decide_eq_true hpos)
  · exact fun interval hmem htouches hnot =>
      hf interval (overlapNs_eq_zero hinv (timeline.forward interval hmem) htouches
        (of_decide_eq_false hnot))

theorem commonTimeNs_nodeInterval (inv : Invocation) (interval : BwInterval) :
    commonTimeNs inv (nodeInterval interval) = overlapNs inv interval := by
  rw [commonTimeNs, overlapNs, nodeInterval, min_comm, max_comm]

/-- What the query joins with an invocation. -/
def nodeRows (nodes : List NodeInterval) (inv : Invocation) : List (NodeInterval × Int) :=
  (nodes.filter fun node => decide (inv.startTimeNs ≤ (node.endTimeNs : Int)) &&
    decide ((node.startTimeNs : Int) ≤ inv.endTimeNs)).map fun node => (node, commonTimeNs inv node)

/-- For a table with the same intervals in any order. -/
theorem nodeRows_perm (timeline : Timeline) {nodes : List NodeInterval}
    (hnodes : nodes.Perm (timeline.data.map nodeInterval)) (inv : Invocation) :
    (nodeRows nodes inv).Perm ((timeline.data.filter (touches inv)).map
      fun interval => (nodeInterval interval, overlapNs inv interval)) := by
  refine ((hnodes.filter _).map _).trans (List.Perm.of_eq ?_)
  rw [List.filter_map, List.map_map]
  apply List.map_congr_left
  intro interval _
  simp only [Function.comp_apply, commonTimeNs_nodeInterval]

theorem nodeOverlaps_eq (invs : List Invocation) (nodes : List NodeInterval) :
    nodeOverlaps invs nodes =
      invs.flatMap fun inv => (nodeRows nodes inv).map fun row => (inv.id, row) := by
  simp only [nodeOverlaps, nodeRows, List.map_map, Function.comp_def]

theorem exists_touching {inv : Invocation} {data : List BwInterval}
    (hpos : 0 < totalOverlap inv data) : ∃ interval, interval ∈ data.filter (touches inv) := by
  by_contra hnone
  push Not at hnone
  have hempty : overlapping inv data = [] := by
    rw [overlapping, List.filter_eq_nil_iff]
    intro interval hinterval hoverlap
    exact hnone interval (List.mem_filter.mpr
      ⟨hinterval, touches_of_overlap (of_decide_eq_true hoverlap)⟩)
  rw [totalOverlap, hempty] at hpos
  exact lt_irrefl 0 hpos

/-- The average of the rows that are joined is the one over all overlaps. -/
theorem weightedAvg_nodeRows (timeline : Timeline) {nodes : List NodeInterval}
    (hnodes : nodes.Perm (timeline.data.map nodeInterval)) {inv : Invocation}
    (hinv : inv.startTimeNs ≤ inv.endTimeNs) (hpos : 0 < totalOverlap inv timeline.data) :
    weightedAvg (fun row => row.1.memoryBandwidthBytesPerUs) (fun row => some (row.2 : ℚ))
      (nodeRows nodes inv) = some (scanAverage inv timeline.data) := by
  have hperm := nodeRows_perm timeline hnodes inv
  obtain ⟨first, hfirst⟩ := exists_touching hpos
  have hweights := sum_touching timeline hinv (fun interval => (overlapNs inv interval : ℚ))
    fun interval hzero => by rw [hzero, Int.cast_zero]
  have hproducts := sum_touching timeline hinv
    (fun interval => interval.totalMemoryBandwidthBytesPerUs * (overlapNs inv interval : ℚ))
    fun interval hzero => by rw [hzero, Int.cast_zero, mul_zero]
  have htotal : ((overlapping inv timeline.data).map
      fun interval => (overlapNs inv interval : ℚ)).sum = totalOverlap inv timeline.data := by
    rw [totalOverlap, Int.cast_list_sum, List.map_map]
    rfl
  have hne : (totalOverlap inv timeline.data : ℚ) ≠ 0 := Int.cast_ne_zero.mpr (ne_of_gt hpos)
  rw [weightedAvg_perm hperm, weightedAvg_map, weightedAvg_of_mem hfirst rfl rfl]
  simp only [Option.getD_some, nodeInterval, hweights, hproducts, htotal, hne, if_false]
  rw [scanAverage, if_pos hpos, weightedOverlap]

theorem lookup_invNodeBw (timeline : Timeline) (invs : Invocations) {nodes : List NodeInterval}
    (hnodes : nodes.Perm (timeline.data.map nodeInterval)) {inv : Invocation}
    (hmem : inv ∈ invs.rows) (hinv : inv.startTimeNs ≤ inv.endTimeNs)
    (hpos : 0 < totalOverlap inv timeline.data) :
    (invNodeBw invs.rows nodes).lookup inv.id = some (some (scanAverage inv timeline.data)) := by
  have hrows : (nodeOverlaps invs.rows nodes).filter (fun row => row.1 == inv.id) =
      (nodeRows nodes inv).map fun row => (inv.id, row) := by
    rw [nodeOverlaps_eq]
    exact filter_flatMap_key invs.ids_nodup hmem
  have havg := weightedAvg_nodeRows timeline hnodes hinv hpos
  have hkey : inv.id ∈ (nodeOverlaps invs.rows nodes).map Prod.fst := by
    by_contra hnone
    have hempty : nodeRows nodes inv = [] := by
      rw [← List.map_eq_nil_iff, ← hrows, List.filter_eq_nil_iff]
      intro row hrow heq
      exact hnone (beq_iff_eq.mp heq ▸ List.mem_map_of_mem hrow)
    rw [hempty] at havg
    exact Option.some_ne_none _ havg.symm
  rw [invNodeBw, lookup_groupAgg, if_pos hkey, hrows, weightedAvg_map, havg]

/-- The bisected average is the one over all intervals with an overlap, and the one that the
query computes over the same intervals. -/
theorem avgTotalMemoryBandwidth_spec (timeline : Timeline) (inv : Invocation)
    (hinv : inv.startTimeNs ≤ inv.endTimeNs) :
    (∀ idx ∈ List.range' (bisectLeft (totalBwEndTimes timeline.data) inv.startTimeNs)
        (bisectRight (totalBwStartTimes timeline.data) inv.endTimeNs -
          bisectLeft (totalBwEndTimes timeline.data) inv.startTimeNs), idx < timeline.data.length) ∧
    avgTotalMemoryBandwidth inv timeline.data (totalBwStartTimes timeline.data)
      (totalBwEndTimes timeline.data) = some (scanAverage inv timeline.data) ∧
    ∀ (invs : Invocations) (nodes : List NodeInterval), inv ∈ invs.rows →
      nodes.Perm (timeline.data.map nodeInterval) → 0 < totalOverlap inv timeline.data →
      (invNodeBw invs.rows nodes).lookup inv.id = some (avgTotalMemoryBandwidth inv timeline.data
        (totalBwStartTimes timeline.data) (totalBwEndTimes timeline.data)) := by
  refine ⟨?_, timeline.avg_eq_scanAverage inv, ?_⟩
  · intro idx hidx
    have hidxEnd := (bisectRight_spec timeline.starts_sorted inv.endTimeNs).1
    rw [List.mem_range'_1] at hidx
    rw [totalBwStartTimes, List.length_map] at hidxEnd
    rw [totalBwStartTimes] at hidx
    omega
  · intro invs nodes hmem hnodes hpos
    rw [timeline.avg_eq_scanAverage, lookup_invNodeBw timeline invs hnodes hmem hinv hpos]

/-- Three intervals, two of them without a gap. -/
def threeIntervals : Timeline where
  data := [⟨0, 10, 4⟩, ⟨10, 20, 8⟩, ⟨30, 40, 5⟩]
  forward := by decide
  ordered := by decide

def fiveToThirty : Invocation := ⟨1, 7, 5, 30, fun _ => none, none⟩

/-- The invocation from 5 to 30 touches the last interval and overlaps the other two. -/
theorem avg_threeIntervals :
    fiveToThirty.startTimeNs ≤ fiveToThirty.endTimeNs ∧
    avgTotalMemoryBandwidth fiveToThirty threeIntervals.data
      (totalBwStartTimes threeIntervals.data) (totalBwEndTimes threeIntervals.data) =
        some (20 / 3) ∧
    (invNodeBw [fiveToThirty] (threeIntervals.data.map nodeInterval)).lookup 1 =
      some (some (20 / 3)) := by
  obtain ⟨-, havg, htable⟩ := avgTotalMemoryBandwidth_spec threeIntervals fiveToThirty (by decide)
  have hvalue : scanAverage fiveToThirty threeIntervals.data = 20 / 3 := by
    have htotal : totalOverlap fiveToThirty threeIntervals.data = 15 := by decide
    have hweighted : weightedOverlap fiveToThirty threeIntervals.data = 100 := by
      decide +kernel
    rw [scanAverage, htotal, hweighted]
    norm_num
  rw [hvalue] at havg
  refine ⟨by decide, havg, ?_⟩
  rw [← havg]
  exact htable ⟨[fiveToThirty], List.nodup_singleton _⟩ _ List.mem_cons_self (List.Perm.refl _)
    (by decide)

end FileBandwidth
