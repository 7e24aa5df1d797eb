import Hiresperf.Foundation.OuterJoin
import Hiresperf.InvocationMetrics
import Mathlib.Data.Rat.Floor
import Mathlib.Tactic.Linarith
import Mathlib.Tactic.Positivity.Basic

/-!
# Metrics of a thread over its lifespan

The query behind the plots of `analyze_thread.py`, in exact arithmetic. The lifespan
of the thread is cut into bins; an outer join gives each bin the cores that the thread
was scheduled on in it, a second one the ticks of these cores in the bin, and the
metrics are averaged for each bin and core. A bin in which the thread is scheduled on
a core several times is joined with the ticks of the core as often.
-/

namespace BinnedMetrics

open InvocationMetrics Relational SchedIntervals

/-! ## The query -/

structure Lifespan where
  startNs : Nat
  endNs : Nat

/-- `none` where the program exits because a thread has no intervals. -/
def lifespan : List Interval → Option Lifespan
  | [] => none
  | first :: rest =>
    some ⟨(rest.map Interval.startTimeNs).foldl min first.startTimeNs,
      (rest.map Interval.endTimeNs).foldl max first.endTimeNs⟩

def numBins : Nat := 1000

def Lifespan.binSizeNs (span : Lifespan) : ℚ := ((span.endNs : ℚ) - span.startNs) / numBins

structure Bin where
  index : Nat
  startNs : ℚ
  endNs : ℚ

def Lifespan.bin (span : Lifespan) (k : Nat) : Bin where
  index := k
  startNs := span.startNs + k * span.binSizeNs
  endNs := span.startNs + (k + 1) * span.binSizeNs

def Lifespan.bins (span : Lifespan) : List Bin := (List.range numBins).map span.bin

def Bin.overlaps (b : Bin) (sched : Interval) : Bool :=
  decide ((sched.startTimeNs : ℚ) < b.endNs) && decide (b.startNs < sched.endTimeNs)

/-- A row of `bin_sched`. The core is null where the thread is not scheduled in the bin. -/
structure BinSched where
  bin : Bin
  coreNumber : Option Nat

def binSched (span : Lifespan) (sched : List Interval) : List BinSched :=
  (leftJoin Bin.overlaps span.bins sched).map fun row => ⟨row.1, row.2.map Interval.coreNumber⟩

/-- The events `BETWEEN` the ends of the lifespan. -/
def perf (span : Lifespan) (events : List PerfEvent) : List PerfEvent :=
  events.filter fun e =>
    e.timestampNs.any fun t => decide (span.startNs ≤ t) && decide (t ≤ span.endNs)

def Bin.holds (b : Bin) (e : PerfEvent) : Bool :=
  e.timestampNs.any fun t => decide (b.startNs ≤ t) && decide ((t : ℚ) < b.endNs)

/-- A comparison with the null core is not true. -/
def covers (row : BinSched) (e : PerfEvent) : Bool :=
  row.bin.holds e && row.coreNumber.any fun core => e.cpuId == core

def averages (rows : List (BinSched × Option PerfEvent)) (m : Metric) : Option ℚ :=
  nullAvg (rows.map fun row => row.2.bind (PerfEvent.metric m))

def binned (span : Lifespan) (sched : List Interval) (events : List PerfEvent) :
    List ((Nat × Option Nat) × (Metric → Option ℚ)) :=
  groupAgg (fun row => (row.1.bin.index, row.1.coreNumber)) averages
    (leftJoin covers (binSched span sched) (perf span events))

/-- A row of `df_perf`. -/
structure PlotRow where
  binIndex : Nat
  timestampNs : ℚ
  coreNumber : Option Nat
  metric : Metric → Option ℚ

def plotRow (span : Lifespan) (group : (Nat × Option Nat) × (Metric → Option ℚ)) : PlotRow where
  binIndex := group.1.1
  timestampNs := span.startNs + group.1.1 * span.binSizeNs
  coreNumber := group.1.2
  metric := group.2

/-- `df_sched`. -/
def schedOf (threadsScheduling : List Interval) (threadId : Int) : List Interval :=
  threadsScheduling.filter fun i => i.threadId == threadId

def dfPerf (threadsScheduling : List Interval) (events : List PerfEvent) (threadId : Int) :
    Option (List PlotRow) :=
  (lifespan (schedOf threadsScheduling threadId)).map fun span =>
    (binned span (schedOf threadsScheduling threadId) events).map (plotRow span)

/-! ## What is plotted -/

/-- The rows are those of a bin and a core that the thread is scheduled on in it, and of the
bins that it is not scheduled in, each once. A metric is the mean of the ticks of the core in
the bin, also of those at which the thread is not scheduled, with each tick once; and each
tick at which the thread is scheduled on its core is in one of them. -/
structure Plots (span : Lifespan) (sched : List Interval) (events : List PerfEvent)
    (rows : List PlotRow) : Prop where
  distinct : (rows.map fun row => (row.binIndex, row.coreNumber)).Nodup
  scheduled : ∀ k core, (∃ row ∈ rows, row.binIndex = k ∧ row.coreNumber = some core) ↔
    k < numBins ∧ ∃ i ∈ sched, i.coreNumber = core ∧ (span.bin k).overlaps i = true
  unscheduled : ∀ k, (∃ row ∈ rows, row.binIndex = k ∧ row.coreNumber = none) ↔
    k < numBins ∧ ∀ i ∈ sched, (span.bin k).overlaps i = false
  timed : ∀ row ∈ rows, row.timestampNs = (span.bin row.binIndex).startNs
  mean : ∀ row ∈ rows, ∀ core, row.coreNumber = some core → ∀ m, row.metric m =
    nullAvg ((events.filter fun e => (span.bin row.binIndex).holds e && e.cpuId == core).map
      (PerfEvent.metric m))
  missing : ∀ row ∈ rows, row.coreNumber = none → ∀ m, row.metric m = none
  counted : ∀ i ∈ sched, ∀ e ∈ events, e.cpuId = i.coreNumber → ∀ t, e.timestampNs = some t →
    i.startTimeNs ≤ t → t < i.endTimeNs →
    ∃! row, row ∈ rows ∧ row.coreNumber = some i.coreNumber ∧
      (span.bin row.binIndex).holds e = true
  last : ∀ row ∈ rows, ∀ e ∈ events, e.timestampNs = some span.endNs →
    (span.bin row.binIndex).holds e = false

/-! ## Bins -/

theorem mem_bins {span : Lifespan} {b : Bin} : b ∈ span.bins ↔ ∃ k < numBins, b = span.bin k := by
  rw [Lifespan.bins, List.mem_map]
  constructor
  · rintro ⟨k, hk, rfl⟩
    exact ⟨k, List.mem_range.mp hk, rfl⟩
  · rintro ⟨k, hk, rfl⟩
    exact ⟨k, List.mem_range.mpr hk, rfl⟩

theorem holds_iff {b : Bin} {e : PerfEvent} {t : Nat} (ht : e.timestampNs = some t) :
    b.holds e = true ↔ b.startNs ≤ t ∧ (t : ℚ) < b.endNs := by
  simp [Bin.holds, ht]

theorem numBins_mul_binSizeNs (span : Lifespan) :
    numBins * span.binSizeNs = (span.endNs : ℚ) - span.startNs := by
  rw [Lifespan.binSizeNs]
  have hne : (numBins : ℚ) ≠ 0 := by norm_num [numBins]
  field_simp

/-- The bins of a lifespan do not reach out of it. -/
theorem bin_within {span : Lifespan} {k : Nat} (hk : k < numBins) {t : ℚ}
    (hstart : (span.bin k).startNs ≤ t) (hend : t < (span.bin k).endNs) :
    span.startNs ≤ t ∧ t < span.endNs := by
  simp only [Lifespan.bin] at hstart hend
  have hsize : 0 < span.binSizeNs := by linarith
  have hk' : ((k : ℚ) + 1) ≤ numBins := by exact_mod_cast hk
  have hlow : 0 ≤ (k : ℚ) * span.binSizeNs := by positivity
  have hhigh := mul_le_mul_of_nonneg_right hk' hsize.le
  rw [numBins_mul_binSizeNs] at hhigh
  constructor <;> linarith

/-- They cover it, and do not overlap. -/
theorem existsUnique_bin (span : Lifespan) {t : Nat} (hstart : span.startNs ≤ t)
    (hend : t < span.endNs) :
    ∃! k, k < numBins ∧ (span.bin k).startNs ≤ t ∧ (t : ℚ) < (span.bin k).endNs := by
  have hsize : 0 < span.binSizeNs := by
    have hlt : (span.startNs : ℚ) < span.endNs := by exact_mod_cast hstart.trans_lt hend
    have hpos : (0 : ℚ) < numBins := by norm_num [numBins]
    rw [Lifespan.binSizeNs]
    exact div_pos (by linarith) hpos
  have hoffset : (0 : ℚ) ≤ ((t : ℚ) - span.startNs) / span.binSizeNs := by
    have hle : (span.startNs : ℚ) ≤ t := by exact_mod_cast hstart
    exact div_nonneg (by linarith) hsize.le
  have hfloor : ∀ k : Nat, ((span.bin k).startNs ≤ t ∧ (t : ℚ) < (span.bin k).endNs) ↔
      ⌊((t : ℚ) - span.startNs) / span.binSizeNs⌋₊ = k := by
    intro k
    rw [Nat.floor_eq_iff hoffset, le_div_iff₀ hsize, div_lt_iff₀ hsize]
    simp only [Lifespan.bin]
    constructor
    · rintro ⟨h₁, h₂⟩
      constructor <;> linarith
    · rintro ⟨h₁, h₂⟩
      constructor <;> linarith
  refine ⟨⌊((t : ℚ) - span.startNs) / span.binSizeNs⌋₊, ⟨?_, (hfloor _).mpr rfl⟩, ?_⟩
  · have hlt : (t : ℚ) < span.endNs := by exact_mod_cast hend
    rw [Nat.floor_lt hoffset, div_lt_iff₀ hsize, numBins_mul_binSizeNs]
    linarith
  · rintro k ⟨-, hk⟩
    exact ((hfloor k).mp hk).symm

/-! ## The joins -/

def BinSched.key (row : BinSched) : Nat × Option Nat := (row.bin.index, row.coreNumber)

theorem mem_binSched {span : Lifespan} {sched : List Interval} {row : BinSched} :
    row ∈ binSched span sched ↔ ∃ k < numBins, row.bin = span.bin k ∧
      ∃ partner ∈ partners Bin.overlaps sched (span.bin k),
        row.coreNumber = partner.map Interval.coreNumber := by
  rw [binSched, List.mem_map]
  constructor
  · rintro ⟨⟨b, partner⟩, hmem, rfl⟩
    obtain ⟨hb, hpartner⟩ := mem_leftJoin.mp hmem
    obtain ⟨k, hk, rfl⟩ := mem_bins.mp hb
    exact ⟨k, hk, rfl, partner, hpartner, rfl⟩
  · rintro ⟨k, hk, hbin, partner, hpartner, hcore⟩
    refine ⟨(span.bin k, partner), mem_leftJoin.mpr ⟨mem_bins.mpr ⟨k, hk, rfl⟩, hpartner⟩, ?_⟩
    rw [← hbin, ← hcore]

theorem exists_scheduled {span : Lifespan} {sched : List Interval} {k core : Nat} :
    (∃ row ∈ binSched span sched, row.key = (k, some core)) ↔
      k < numBins ∧ ∃ i ∈ sched, i.coreNumber = core ∧ (span.bin k).overlaps i = true := by
  constructor
  · rintro ⟨row, hrow, hkey⟩
    obtain ⟨k', hk', hbin, partner, hpartner, hcore⟩ := mem_binSched.mp hrow
    rw [BinSched.key, hbin, hcore, Prod.mk.injEq] at hkey
    obtain ⟨rfl, hmap⟩ := hkey
    obtain ⟨i, rfl, hi⟩ := Option.map_eq_some_iff.mp hmap
    obtain ⟨hmem, hover⟩ := some_mem_partners.mp hpartner
    exact ⟨hk', i, hmem, hi, hover⟩
  · rintro ⟨hk, i, hi, rfl, hover⟩
    exact ⟨⟨span.bin k, some i.coreNumber⟩,
      mem_binSched.mpr ⟨k, hk, rfl, some i, some_mem_partners.mpr ⟨hi, hover⟩, rfl⟩, rfl⟩

theorem exists_unscheduled {span : Lifespan} {sched : List Interval} {k : Nat} :
    (∃ row ∈ binSched span sched, row.key = (k, none)) ↔
      k < numBins ∧ ∀ i ∈ sched, (span.bin k).overlaps i = false := by
  constructor
  · rintro ⟨row, hrow, hkey⟩
    obtain ⟨k', hk', hbin, partner, hpartner, hcore⟩ := mem_binSched.mp hrow
    rw [BinSched.key, hbin, hcore, Prod.mk.injEq] at hkey
    obtain ⟨rfl, hmap⟩ := hkey
    rw [Option.map_eq_none_iff] at hmap
    subst hmap
    exact ⟨hk', fun i hi => Bool.eq_false_iff.mpr (none_mem_partners.mp hpartner i hi)⟩
  · rintro ⟨hk, hnone⟩
    have hpartner : none ∈ partners Bin.overlaps sched (span.bin k) :=
      none_mem_partners.mpr fun i hi => Bool.eq_false_iff.mp (hnone i hi)
    exact ⟨⟨span.bin k, none⟩, mem_binSched.mpr ⟨k, hk, rfl, none, hpartner, rfl⟩, rfl⟩

/-- Rows of a bin and a core are copies of one. -/
theorem eq_of_key {span : Lifespan} {sched : List Interval} {row row' : BinSched}
    (hrow : row ∈ binSched span sched) (hrow' : row' ∈ binSched span sched)
    (hkey : row'.key = row.key) : row' = row := by
  obtain ⟨k, -, hbin, -⟩ := mem_binSched.mp hrow
  obtain ⟨k', -, hbin', -⟩ := mem_binSched.mp hrow'
  obtain ⟨b, core⟩ := row
  obtain ⟨b', core'⟩ := row'
  simp only at hbin hbin'
  subst hbin hbin'
  obtain ⟨rfl, rfl⟩ := Prod.mk.inj hkey
  rfl

/-- The lifespan is tested twice: a tick in a bin is in it. -/
theorem filter_perf {span : Lifespan} {sched : List Interval} {row : BinSched}
    (hrow : row ∈ binSched span sched) (events : List PerfEvent) :
    (perf span events).filter (covers row) = events.filter (covers row) := by
  rw [perf, List.filter_filter]
  apply List.filter_congr
  intro e _
  cases hcovers : covers row e with
  | false => rfl
  | true =>
    obtain ⟨k, hk, hbin, -⟩ := mem_binSched.mp hrow
    rw [covers, Bool.and_eq_true, hbin] at hcovers
    cases ht : e.timestampNs with
    | none => simp [Bin.holds, ht] at hcovers
    | some t =>
      obtain ⟨hstart, hend⟩ := bin_within hk ((holds_iff ht).mp hcovers.1).1
        ((holds_iff ht).mp hcovers.1).2
      have hstart' : span.startNs ≤ t := by exact_mod_cast hstart
      have hend' : t < span.endNs := by exact_mod_cast hend
      simp [hstart', hend'.le]

/-- One group for each key, with the ticks of its bin and core. -/
theorem mem_binned {span : Lifespan} {sched : List Interval} {events : List PerfEvent}
    {group : (Nat × Option Nat) × (Metric → Option ℚ)} :
    group ∈ binned span sched events ↔ ∃ row ∈ binSched span sched, group.1 = row.key ∧
      group.2 = fun m => nullAvg ((events.filter (covers row)).map (PerfEvent.metric m)) := by
  have hkey : ∀ row ∈ binSched span sched, ∀ row' ∈ binSched span sched,
      row'.key = row.key → row' = row := fun _ hrow _ hrow' => eq_of_key hrow hrow'
  refine (mem_groupAgg_leftJoin hkey PerfEvent.metric).trans
    (exists_congr fun row => and_congr_right fun hrow => ?_)
  rw [filter_perf hrow]

/-! ## The rows of the plot -/

section Rows

variable {span : Lifespan} {sched : List Interval} {events : List PerfEvent}

def plotRows (span : Lifespan) (sched : List Interval) (events : List PerfEvent) : List PlotRow :=
  (binned span sched events).map (plotRow span)

theorem mem_plotRows {row : PlotRow} : row ∈ plotRows span sched events ↔
    ∃ r ∈ binSched span sched, (row.binIndex, row.coreNumber) = r.key ∧
      row.timestampNs = (span.bin row.binIndex).startNs ∧
      row.metric = fun m => nullAvg ((events.filter (covers r)).map (PerfEvent.metric m)) := by
  rw [plotRows, List.mem_map]
  constructor
  · rintro ⟨group, hgroup, rfl⟩
    obtain ⟨r, hr, hkey, hmetric⟩ := mem_binned.mp hgroup
    exact ⟨r, hr, hkey, rfl, hmetric⟩
  · rintro ⟨r, hr, hkey, htime, hmetric⟩
    refine ⟨(r.key, row.metric), mem_binned.mpr ⟨r, hr, rfl, hmetric⟩, ?_⟩
    obtain ⟨k, time, core, metric⟩ := row
    simp only at hkey htime
    rw [← hkey, htime]
    rfl

theorem exists_row_iff {k : Nat} {core : Option Nat} :
    (∃ row ∈ plotRows span sched events, row.binIndex = k ∧ row.coreNumber = core) ↔
      ∃ r ∈ binSched span sched, r.key = (k, core) := by
  constructor
  · rintro ⟨row, hrow, rfl, rfl⟩
    obtain ⟨r, hr, hkey, -⟩ := mem_plotRows.mp hrow
    exact ⟨r, hr, hkey.symm⟩
  · rintro ⟨r, hr, hkey⟩
    exact ⟨⟨k, (span.bin k).startNs, core, _⟩, mem_plotRows.mpr ⟨r, hr, hkey.symm,
      rfl, rfl⟩, rfl, rfl⟩

theorem keys_plotRows_nodup :
    ((plotRows span sched events).map fun row => (row.binIndex, row.coreNumber)).Nodup := by
  rw [plotRows, List.map_map]
  exact nodup_keys_groupAgg _ _ _

/-- The bin and the core of a row are those that its ticks were selected by. -/
theorem metric_of_core {row : PlotRow} (hrow : row ∈ plotRows span sched events) {core : Nat}
    (hcore : row.coreNumber = some core) (m : Metric) : row.metric m =
      nullAvg ((events.filter fun e => (span.bin row.binIndex).holds e && e.cpuId == core).map
        (PerfEvent.metric m)) := by
  obtain ⟨r, hr, hkey, -, hmetric⟩ := mem_plotRows.mp hrow
  obtain ⟨k, -, hbin, -⟩ := mem_binSched.mp hr
  rw [BinSched.key, hbin, hcore, Prod.mk.injEq] at hkey
  have hindex : row.binIndex = k := hkey.1
  have hcovers : covers r = fun e => (span.bin k).holds e && e.cpuId == core := by
    funext e
    simp [covers, hbin, ← hkey.2]
  rw [hmetric, hindex, hcovers]

theorem metric_of_no_core {row : PlotRow} (hrow : row ∈ plotRows span sched events)
    (hcore : row.coreNumber = none) (m : Metric) : row.metric m = none := by
  obtain ⟨r, -, hkey, -, hmetric⟩ := mem_plotRows.mp hrow
  have hnone : r.coreNumber = none := by
    rw [← hcore]
    exact (Prod.mk.inj hkey).2.symm
  have hcovers : covers r = fun _ => false := by
    funext e
    simp [covers, hnone]
  rw [hmetric, hcovers]
  simp [nullAvg]

theorem binIndex_lt {row : PlotRow} (hrow : row ∈ plotRows span sched events) :
    row.binIndex < numBins := by
  obtain ⟨r, hr, hkey, -⟩ := mem_plotRows.mp hrow
  obtain ⟨k, hk, hbin, -⟩ := mem_binSched.mp hr
  have hindex : row.binIndex = k := by rw [(Prod.mk.inj hkey).1, hbin]; rfl
  omega

/-- A tick on the core of an interval is in the bin of its time, which the interval overlaps. -/
theorem tick_counted {i : Interval} (hi : i ∈ sched) (hspan : span.startNs ≤ i.startTimeNs)
    (hspan' : i.endTimeNs ≤ span.endNs) {e : PerfEvent} {t : Nat} (ht : e.timestampNs = some t)
    (hstart : i.startTimeNs ≤ t) (hend : t < i.endTimeNs) :
    ∃! row, row ∈ plotRows span sched events ∧ row.coreNumber = some i.coreNumber ∧
      (span.bin row.binIndex).holds e = true := by
  obtain ⟨k, ⟨hk, hlow, hhigh⟩, hunique⟩ :=
    existsUnique_bin span (hspan.trans hstart) (hend.trans_le hspan')
  have hover : (span.bin k).overlaps i = true := by
    have hstart' : (i.startTimeNs : ℚ) ≤ t := by exact_mod_cast hstart
    have hend' : (t : ℚ) < i.endTimeNs := by exact_mod_cast hend
    rw [Bin.overlaps, Bool.and_eq_true, decide_eq_true_iff, decide_eq_true_iff]
    exact ⟨hstart'.trans_lt hhigh, hlow.trans_lt hend'⟩
  obtain ⟨row, hrow, hindex, hcore⟩ := exists_row_iff.mpr
    (exists_scheduled.mpr ⟨hk, i, hi, rfl, hover⟩)
  refine ⟨row, ⟨hrow, hcore, ?_⟩, ?_⟩
  · rw [hindex]
    exact (holds_iff ht).mpr ⟨hlow, hhigh⟩
  · rintro row' ⟨hrow', hcore', hholds⟩
    have hindex' := hunique row'.binIndex ⟨binIndex_lt hrow', (holds_iff ht).mp hholds⟩
    refine List.inj_on_of_nodup_map keys_plotRows_nodup hrow' hrow ?_
    rw [hindex', hindex, hcore, hcore']

end Rows

/-- Every interval of the thread is within its lifespan. -/
theorem lifespan_bounds {sched : List Interval} {span : Lifespan} (h : lifespan sched = some span) :
    ∀ i ∈ sched, span.startNs ≤ i.startTimeNs ∧ i.endTimeNs ≤ span.endNs := by
  cases sched with
  | nil => cases h
  | cons first rest =>
    cases h
    intro i hi
    exact ⟨List.min_le_of_mem (List.mem_map_of_mem hi), List.le_max_of_mem (List.mem_map_of_mem hi)⟩

theorem plots_plotRows {span : Lifespan} {sched : List Interval} (h : lifespan sched = some span)
    (events : List PerfEvent) : Plots span sched events (plotRows span sched events) where
  distinct := keys_plotRows_nodup
  scheduled _ _ := exists_row_iff.trans exists_scheduled
  unscheduled _ := exists_row_iff.trans exists_unscheduled
  timed row hrow := by
    obtain ⟨r, -, -, htime, -⟩ := mem_plotRows.mp hrow
    exact htime
  mean row hrow core hcore m := metric_of_core hrow hcore m
  missing row hrow hcore m := metric_of_no_core hrow hcore m
  counted i hi e _ _ t ht hstart hend :=
    tick_counted hi (lifespan_bounds h i hi).1 (lifespan_bounds h i hi).2 ht hstart hend
  last row hrow e _ ht := by
    rw [Bool.eq_false_iff]
    intro hholds
    obtain ⟨hlow, hhigh⟩ := (holds_iff ht).mp hholds
    exact lt_irrefl _ (bin_within (binIndex_lt hrow) hlow hhigh).2

theorem metrics_plotted (threadsScheduling : List Interval) (events : List PerfEvent)
    (threadId : Int) :
    (dfPerf threadsScheduling events threadId = none ↔ schedOf threadsScheduling threadId = []) ∧
    ∀ span, lifespan (schedOf threadsScheduling threadId) = some span →
      ∃ rows, dfPerf threadsScheduling events threadId = some rows ∧
        Plots span (schedOf threadsScheduling threadId) events rows := by
  constructor
  · rw [dfPerf, Option.map_eq_none_iff]
    cases schedOf threadsScheduling threadId with
    | nil => simp [lifespan]
    | cons first rest => simp [lifespan]
  · intro span hspan
    refine ⟨_, ?_, plots_plotRows hspan events⟩
    rw [dfPerf, hspan]
    rfl

/-- A thread that is scheduled on core 3 twice within a bin, with the tick of the core between
the two periods. -/
def rescheduled : List Interval :=
  [⟨7, 3, 0, 10⟩, ⟨8, 3, 10, 20⟩, ⟨7, 3, 20, 30⟩, ⟨7, 2, 90000, 100000⟩]

def tickBetween : List PerfEvent := [⟨1, 3, some 15, some 1, some 1, some 64, some 1000, some 10⟩]

theorem rescheduled_plotted : ∃ rows, dfPerf rescheduled tickBetween 7 = some rows ∧
    ∃ row ∈ rows, row.binIndex = 0 ∧ row.coreNumber = some 3 ∧
      row.metric .memoryBandwidthBytesPerUs = some 64 := by
  obtain ⟨rows, hrows, hplots⟩ := (metrics_plotted rescheduled tickBetween 7).2 ⟨0, 100000⟩ rfl
  obtain ⟨row, hrow, hindex, hcore⟩ := (hplots.scheduled 0 3).mpr
    ⟨by decide, ⟨7, 3, 0, 10⟩, by decide, rfl, by decide +kernel⟩
  refine ⟨rows, hrows, row, hrow, hindex, hcore, ?_⟩
  rw [hplots.mean row hrow 3 hcore, hindex]
  decide +kernel

end BinnedMetrics
