import Hiresperf.InvocationMetrics
import Mathlib.Data.List.AList
import Mathlib.Data.List.Perm.Basic

/-!
# Metrics of invocations from files

`compute_metrics_for_invocation` of `ldb_analysis`, which reads the ticks of each core
and the schedule of each thread from files, up to the averages over the ticks, in exact
arithmetic. It collects the cores that the thread was on during the invocation, one for
each interval, and scans each of them over the whole invocation. What
`compute_invocation_metrics.py` does with the same data in tables is in
`InvocationMetrics`.
-/

namespace FileMetrics

open InvocationMetrics Relational SchedIntervals

/-- An entry of a file of performance data. -/
structure Tick where
  timestampNs : Nat
  stallsPerUs : ℚ
  instRetireRate : ℚ
  cpuUsage : ℚ
  memoryBandwidthBytesPerUs : ℚ
  timeDeltaNs : Nat
  deriving DecidableEq

def Tick.metric (m : Metric) (tick : Tick) : ℚ :=
  match m with
  | .stallsPerUs => tick.stallsPerUs
  | .cpuUsage => tick.cpuUsage
  | .memoryBandwidthBytesPerUs => tick.memoryBandwidthBytesPerUs
  | .instRetireRate => tick.instRetireRate

/-- A stay of a thread on a core. -/
structure Stay where
  coreNumber : Nat
  schedStartNs : Nat
  schedEndNs : Nat
  deriving DecidableEq

/-- `dict.get(key, [])`. -/
def getList {α β : Type} [DecidableEq α] (d : AList fun _ : α => List β) (key : α) : List β :=
  (d.lookup key).getD []

/-- What the function reads, with the ticks of each core in the order of their timestamps. -/
structure AnalysisFiles where
  perfDataPerCore : AList fun _ : Nat => List Tick
  schedulingDataInt : AList fun _ : Int => List Stay
  sorted : ∀ core, (getList perfDataPerCore core).Pairwise fun a b => a.timestampNs ≤ b.timestampNs

/-- The variables of the loop. -/
structure Sums where
  totalWeight : ℚ
  weighted : Metric → ℚ
  performanceTicks : List (Nat × Tick)

def addTick (coreId : Nat) (s : Sums) (entry : Tick) : Sums where
  totalWeight := s.totalWeight + entry.timeDeltaNs
  weighted m := s.weighted m + entry.metric m * entry.timeDeltaNs
  performanceTicks := s.performanceTicks ++ [(coreId, entry)]

/-- The inner loop, which breaks at the first tick after the invocation. -/
def scanCore (inv : Invocation) (coreId : Nat) : Sums → List Tick → Sums
  | s, [] => s
  | s, entry :: rest =>
    if (entry.timestampNs : Int) > inv.endTimeNs then s
    else if (entry.timestampNs : Int) ≥ inv.startTimeNs then
      scanCore inv coreId (addTick coreId s entry) rest
    else scanCore inv coreId s rest

/-- The interval and the invocation have a moment in common. -/
def Stay.during (inv : Invocation) (stay : Stay) : Bool :=
  decide ((stay.schedStartNs : Int) ≤ inv.endTimeNs) &&
    decide ((stay.schedEndNs : Int) ≥ inv.startTimeNs)

def coresDuringInvocation (files : AnalysisFiles) (inv : Invocation) : List Nat :=
  ((getList files.schedulingDataInt inv.threadId).filter (Stay.during inv)).map Stay.coreNumber

def collectTicks (files : AnalysisFiles) (inv : Invocation) : Sums :=
  (coresDuringInvocation files inv).foldl
    (fun s coreId => scanCore inv coreId s (getList files.perfDataPerCore coreId))
    ⟨0, fun _ => 0, []⟩

/-- The invocation with its averages, and its `performance_ticks`. -/
def computeMetricsForInvocation (files : AnalysisFiles) (inv : Invocation) :
    Invocation × List (Nat × Tick) :=
  let s := collectTicks files inv
  ({ inv with
      avg := if s.totalWeight > 0 then fun m => some (s.weighted m / s.totalWeight) else inv.avg },
    s.performanceTicks)

/-! ## What is to be counted -/

def Tick.weight (tick : Tick) : ℚ := tick.timeDeltaNs

/-- The tick lies within the invocation. -/
def Tick.within (inv : Invocation) (tick : Tick) : Bool :=
  decide (inv.startTimeNs ≤ (tick.timestampNs : Int)) &&
    decide ((tick.timestampNs : Int) ≤ inv.endTimeNs)

def Stay.Contains (stay : Stay) (tick : Tick) : Prop :=
  stay.schedStartNs ≤ tick.timestampNs ∧ tick.timestampNs ≤ stay.schedEndNs

instance (stay : Stay) (tick : Tick) : Decidable (stay.Contains tick) :=
  inferInstanceAs (Decidable (_ ∧ _))

/-- The stays of the invocation's thread on a core that are not over before the invocation
and begin before its end. -/
def staysOn (files : AnalysisFiles) (inv : Invocation) (core : Nat) : List Stay :=
  ((getList files.schedulingDataInt inv.threadId).filter (Stay.during inv)).filter
    fun stay => stay.coreNumber == core

def tickOf (e : PerfEvent) : Tick where
  timestampNs := e.timestampNs.getD 0
  stallsPerUs := e.stallsPerUs.getD 0
  instRetireRate := e.instRetireRate.getD 0
  cpuUsage := e.cpuUsage.getD 0
  memoryBandwidthBytesPerUs := e.memoryBandwidthBytesPerUs.getD 0
  timeDeltaNs := e.timeDeltaNs.getD 0

def stayOf (s : Interval) : Stay := ⟨s.coreNumber, s.startTimeNs, s.endTimeNs⟩

/-- The tables hold what the files do, without a null, and no averages yet. -/
structure SameData (files : AnalysisFiles) (t : Tables) : Prop where
  stays : ∀ thread, (getList files.schedulingDataInt thread).Perm
    ((t.threadsScheduling.filter fun s => s.threadId == thread).map stayOf)
  ticks : ∀ core : Nat, (getList files.perfDataPerCore core).Perm
    ((t.performanceEvents.filter fun e => e.cpuId == (core : Int)).map tickOf)
  timed : ∀ e ∈ t.performanceEvents, e.timestampNs.isSome = true ∧ e.timeDeltaNs.isSome = true
  valued : ∀ e ∈ t.performanceEvents, ∀ m, (e.metric m).isSome = true
  fresh : ∀ inv ∈ t.invocations.rows, ∀ m, inv.avg m = none

/-- Each tick is counted at most once and only if the thread was on its core, the sums are
those of the ticks, and the averages are those of the tables. -/
structure CountsOnce (files : AnalysisFiles) (t : Tables) (inv : Invocation) : Prop where
  once : ∀ core tick, (computeMetricsForInvocation files inv).2.count (core, tick) ≤
    (getList files.perfDataPerCore core).count tick
  scheduled : ∀ core tick, (core, tick) ∈ (computeMetricsForInvocation files inv).2 →
    ∃ stay ∈ getList files.schedulingDataInt inv.threadId,
      stay.coreNumber = core ∧ stay.Contains tick
  totalWeight : (collectTicks files inv).totalWeight =
    ((computeMetricsForInvocation files inv).2.map fun p => p.2.weight).sum
  weighted : ∀ m, (collectTicks files inv).weighted m =
    ((computeMetricsForInvocation files inv).2.map fun p => p.2.metric m * p.2.weight).sum
  averages : ∀ row ∈ (computeInvocationMetrics t).invocations.rows, row.id = inv.id →
    ∀ m, (computeMetricsForInvocation files inv).1.avg m = row.avg m

/-- On a core with a tick within the invocation the thread has one stay at most, and the
tick lies in it. -/
def OneStay (files : AnalysisFiles) (inv : Invocation) : Prop :=
  ∀ core, ∀ tick ∈ getList files.perfDataPerCore core, tick.within inv = true →
    (staysOn files inv core).length ≤ 1 ∧ ∀ stay ∈ staysOn files inv core, stay.Contains tick

/-! ## The scan -/

/-- The sums of the ticks that have been collected. -/
def sumsOf (ticks : List (Nat × Tick)) : Sums where
  totalWeight := (ticks.map fun p => p.2.weight).sum
  weighted m := (ticks.map fun p => p.2.metric m * p.2.weight).sum
  performanceTicks := ticks

theorem addTick_sumsOf (ticks : List (Nat × Tick)) (coreId : Nat) (entry : Tick) :
    addTick coreId (sumsOf ticks) entry = sumsOf (ticks ++ [(coreId, entry)]) := by
  simp [addTick, sumsOf, Tick.weight]

/-- In a sorted list no tick within the invocation comes after the break. -/
theorem scanCore_sumsOf (inv : Invocation) (coreId : Nat) {entries : List Tick}
    (hsorted : entries.Pairwise fun a b => a.timestampNs ≤ b.timestampNs)
    (ticks : List (Nat × Tick)) :
    scanCore inv coreId (sumsOf ticks) entries =
      sumsOf (ticks ++ (entries.filter (Tick.within inv)).map (Prod.mk coreId)) := by
  induction entries generalizing ticks with
  | nil => simp [scanCore]
  | cons entry rest ih =>
    obtain ⟨hfirst, hrest⟩ := List.pairwise_cons.mp hsorted
    by_cases hafter : (entry.timestampNs : Int) > inv.endTimeNs
    · have hnone : (entry :: rest).filter (Tick.within inv) = [] := by
        rw [List.filter_eq_nil_iff]
        intro tick htick hwithin
        simp only [Tick.within, Bool.and_eq_true, decide_eq_true_eq] at hwithin
        have hle : entry.timestampNs ≤ tick.timestampNs := by
          rcases List.mem_cons.mp htick with rfl | hmem
          · exact Nat.le_refl _
          · exact hfirst tick hmem
        omega
      rw [scanCore, if_pos hafter, hnone, List.map_nil, List.append_nil]
    · by_cases hfrom : (entry.timestampNs : Int) ≥ inv.startTimeNs
      · have hwithin : entry.within inv = true := by
          simp only [Tick.within, Bool.and_eq_true, decide_eq_true_eq]
          omega
        rw [scanCore, if_neg hafter, if_pos hfrom, addTick_sumsOf, ih hrest]
        simp [hwithin]
      · have hwithin : entry.within inv = false := by
          simp only [Tick.within, Bool.and_eq_false_iff, decide_eq_false_iff_not]
          omega
        rw [scanCore, if_neg hafter, if_neg hfrom, ih hrest]
        simp [hwithin]

/-- The ticks within the invocation, of each core as often as it was collected. -/
def ticksOf (files : AnalysisFiles) (inv : Invocation) (cores : List Nat) : List (Nat × Tick) :=
  cores.flatMap fun core =>
    ((getList files.perfDataPerCore core).filter (Tick.within inv)).map (Prod.mk core)

theorem collectTicks_eq (files : AnalysisFiles) (inv : Invocation) :
    collectTicks files inv = sumsOf (ticksOf files inv (coresDuringInvocation files inv)) := by
  have hfold : ∀ (cores : List Nat) (ticks : List (Nat × Tick)),
      cores.foldl
        (fun s coreId => scanCore inv coreId s (getList files.perfDataPerCore coreId))
        (sumsOf ticks) = sumsOf (ticks ++ ticksOf files inv cores) := by
    intro cores
    induction cores with
    | nil => simp [ticksOf]
    | cons core rest ih =>
      intro ticks
      rw [List.foldl_cons, scanCore_sumsOf inv core (files.sorted core), ih]
      simp [ticksOf]
  have hstart : (⟨0, fun _ => 0, []⟩ : Sums) = sumsOf [] := by simp [sumsOf]
  rw [collectTicks, hstart, hfold, List.nil_append]

theorem performanceTicks_eq (files : AnalysisFiles) (inv : Invocation) :
    (computeMetricsForInvocation files inv).2 =
      ticksOf files inv (coresDuringInvocation files inv) := by
  rw [computeMetricsForInvocation, collectTicks_eq]
  rfl

/-! ## How often a tick is counted -/

theorem count_ticksOf (files : AnalysisFiles) (inv : Invocation) (cores : List Nat) (core : Nat)
    (tick : Tick) :
    (ticksOf files inv cores).count (core, tick) = cores.count core *
      ((getList files.perfDataPerCore core).filter (Tick.within inv)).count tick := by
  induction cores with
  | nil => simp [ticksOf]
  | cons c rest ih =>
    have hinj : Function.Injective (Prod.mk c : Tick → Nat × Tick) := fun a b h => (Prod.mk.inj h).2
    rw [ticksOf, List.flatMap_cons, List.count_append, ← ticksOf, ih]
    by_cases heq : c = core
    · subst c
      rw [List.count_map_of_injective _ _ hinj, List.count_cons_self, Nat.add_mul, Nat.one_mul,
        Nat.add_comm]
    · have hzero : (((getList files.perfDataPerCore c).filter (Tick.within inv)).map
          (Prod.mk c)).count (core, tick) = 0 := by
        rw [List.count_eq_zero]
        intro hmem
        obtain ⟨other, -, hother⟩ := List.mem_map.mp hmem
        exact heq (Prod.mk.inj hother).1
      rw [hzero, Nat.zero_add, List.count_cons_of_ne heq]

theorem count_coresDuringInvocation (files : AnalysisFiles) (inv : Invocation) (core : Nat) :
    (coresDuringInvocation files inv).count core = (staysOn files inv core).length := by
  rw [coresDuringInvocation, List.count, List.countP_map, List.countP_eq_length_filter]
  rfl

/-- A tick within the invocation is counted once for each stay on its core. -/
theorem count_performanceTicks (files : AnalysisFiles) (inv : Invocation) (core : Nat)
    {tick : Tick} (hwithin : tick.within inv = true) :
    (computeMetricsForInvocation files inv).2.count (core, tick) =
      (staysOn files inv core).length * (getList files.perfDataPerCore core).count tick := by
  rw [performanceTicks_eq, count_ticksOf, count_coresDuringInvocation, List.count_filter hwithin]

theorem mem_performanceTicks {files : AnalysisFiles} {inv : Invocation} {core : Nat} {tick : Tick} :
    (core, tick) ∈ (computeMetricsForInvocation files inv).2 ↔
      staysOn files inv core ≠ [] ∧ tick ∈ getList files.perfDataPerCore core ∧
        tick.within inv = true := by
  rw [← List.count_pos_iff, performanceTicks_eq, count_ticksOf, count_coresDuringInvocation,
    Nat.pos_iff_ne_zero, Ne, Nat.mul_eq_zero, not_or, List.length_eq_zero_iff, List.count_eq_zero,
    not_not, List.mem_filter]

/-- A stay during which the tick of an invocation falls is one of those collected. -/
theorem mem_staysOn_of_contains {files : AnalysisFiles} {inv : Invocation} {core : Nat}
    {tick : Tick} {stay : Stay} (hstay : stay ∈ getList files.schedulingDataInt inv.threadId)
    (hcore : stay.coreNumber = core) (hcontains : stay.Contains tick)
    (hwithin : tick.within inv = true) : stay ∈ staysOn files inv core := by
  obtain ⟨hstart, hend⟩ := hcontains
  simp only [Tick.within, Bool.and_eq_true, decide_eq_true_eq] at hwithin
  simp only [staysOn, List.mem_filter, Stay.during, Bool.and_eq_true, decide_eq_true_eq, beq_iff_eq]
  exact ⟨⟨hstay, by omega, by omega⟩, hcore⟩

theorem mem_of_mem_staysOn {files : AnalysisFiles} {inv : Invocation} {core : Nat} {stay : Stay}
    (h : stay ∈ staysOn files inv core) :
    stay ∈ getList files.schedulingDataInt inv.threadId ∧ stay.coreNumber = core := by
  simp only [staysOn, List.mem_filter, beq_iff_eq] at h
  exact ⟨h.1.1, h.2⟩

theorem oneStay_of_counts {files : AnalysisFiles} {t : Tables} {inv : Invocation}
    (h : CountsOnce files t inv) : OneStay files inv := by
  intro core tick htick hwithin
  have hpos : 0 < (getList files.perfDataPerCore core).count tick := List.count_pos_iff.mpr htick
  have hone : (staysOn files inv core).length ≤ 1 := by
    have honce := h.once core tick
    rw [count_performanceTicks files inv core hwithin] at honce
    exact Nat.le_of_mul_le_mul_right (by omega) hpos
  refine ⟨hone, ?_⟩
  intro stay hstay
  have hmem := mem_performanceTicks.mpr ⟨List.ne_nil_of_mem hstay, htick, hwithin⟩
  obtain ⟨there, hthere, hcore, hcontains⟩ := h.scheduled core tick hmem
  have hthere' := mem_staysOn_of_contains hthere hcore hcontains hwithin
  -- there is only one stay, so the thread was on it
  obtain ⟨only, honly⟩ := List.length_eq_one_iff.mp
    (Nat.le_antisymm hone (List.length_pos_of_mem hstay))
  rw [honly, List.mem_singleton] at hstay hthere'
  rwa [hstay, ← hthere']

theorem OneStay.once {files : AnalysisFiles} {inv : Invocation} (h : OneStay files inv) (core : Nat)
    (tick : Tick) : (computeMetricsForInvocation files inv).2.count (core, tick) ≤
      (getList files.perfDataPerCore core).count tick := by
  by_cases hmem : (core, tick) ∈ (computeMetricsForInvocation files inv).2
  · obtain ⟨-, htick, hwithin⟩ := mem_performanceTicks.mp hmem
    rw [count_performanceTicks files inv core hwithin]
    have hone := (h core tick htick hwithin).1
    calc (staysOn files inv core).length * (getList files.perfDataPerCore core).count tick
        ≤ 1 * (getList files.perfDataPerCore core).count tick := Nat.mul_le_mul_right _ hone
      _ = (getList files.perfDataPerCore core).count tick := Nat.one_mul _
  · rw [List.count_eq_zero.mpr hmem]
    exact Nat.zero_le _

theorem OneStay.scheduled {files : AnalysisFiles} {inv : Invocation} (h : OneStay files inv)
    {core : Nat} {tick : Tick} (hmem : (core, tick) ∈ (computeMetricsForInvocation files inv).2) :
    ∃ stay ∈ getList files.schedulingDataInt inv.threadId,
      stay.coreNumber = core ∧ stay.Contains tick := by
  obtain ⟨hstays, htick, hwithin⟩ := mem_performanceTicks.mp hmem
  obtain ⟨stay, hstay⟩ := List.exists_mem_of_ne_nil _ hstays
  obtain ⟨hthread, hcore⟩ := mem_of_mem_staysOn hstay
  exact ⟨stay, hthread, hcore, (h core tick htick hwithin).2 stay hstay⟩

/-! ## The averages of the two scripts -/

/-- The averages over the ticks of a list, as a query computes them. -/
def tickAvg (m : Metric) (ticks : List Tick) : Option ℚ :=
  weightedAvg (fun tick => some (tick.metric m)) (fun tick => some tick.weight) ticks

theorem tickAvg_eq (m : Metric) (ticks : List Tick) :
    tickAvg m ticks =
      if (ticks.map Tick.weight).sum > 0 then
        some ((ticks.map fun tick => tick.metric m * tick.weight).sum / (ticks.map Tick.weight).sum)
      else none := by
  cases ticks with
  | nil => rfl
  | cons tick rest =>
    have hnonneg : 0 ≤ ((tick :: rest).map Tick.weight).sum := by
      apply List.sum_nonneg
      intro w hw
      obtain ⟨other, -, rfl⟩ := List.mem_map.mp hw
      exact Nat.cast_nonneg _
    rw [tickAvg, weightedAvg_of_mem List.mem_cons_self rfl rfl]
    simp only [Option.getD_some]
    by_cases hzero : ((tick :: rest).map Tick.weight).sum = 0
    · rw [if_pos hzero, if_neg (by rw [hzero]; exact lt_irrefl 0)]
    · rw [if_neg hzero, if_pos (lt_of_le_of_ne hnonneg (Ne.symm hzero))]

theorem fileAvg_eq (files : AnalysisFiles) {inv : Invocation} (m : Metric)
    (hfresh : inv.avg m = none) :
    (computeMetricsForInvocation files inv).1.avg m =
      tickAvg m ((ticksOf files inv (coresDuringInvocation files inv)).map Prod.snd) := by
  have hweight : (((ticksOf files inv (coresDuringInvocation files inv)).map Prod.snd).map
      Tick.weight).sum = (collectTicks files inv).totalWeight := by
    rw [collectTicks_eq, List.map_map]
    rfl
  have hweighted : (((ticksOf files inv (coresDuringInvocation files inv)).map Prod.snd).map
      fun tick => tick.metric m * tick.weight).sum = (collectTicks files inv).weighted m := by
    rw [collectTicks_eq, List.map_map]
    rfl
  rw [tickAvg_eq, hweight, hweighted, computeMetricsForInvocation]
  by_cases hpos : (collectTicks files inv).totalWeight > 0
  · simp [hpos]
  · simp [hpos, hfresh]

/-- Without a null, the columns of a row are those of its tick. -/
theorem weightedAvg_tickOf {files : AnalysisFiles} {t : Tables} (h : SameData files t) (m : Metric)
    {rows : List PerfEvent} (hrows : ∀ e ∈ rows, e ∈ t.performanceEvents) :
    weightedAvg (PerfEvent.metric m) PerfEvent.weight rows = tickAvg m (rows.map tickOf) := by
  have hmetric : ∀ e ∈ rows, e.metric m = some ((tickOf e).metric m) := by
    intro e he
    obtain ⟨x, hx⟩ := Option.isSome_iff_exists.mp (h.valued e (hrows e he) m)
    rw [hx]
    cases m <;> simp only [PerfEvent.metric] at hx <;> simp [Tick.metric, tickOf, hx]
  have hweight : ∀ e ∈ rows, e.weight = some (tickOf e).weight := by
    intro e he
    obtain ⟨n, hn⟩ := Option.isSome_iff_exists.mp (h.timed e (hrows e he)).2
    simp [PerfEvent.weight, Tick.weight, tickOf, hn]
  rw [tickAvg, weightedAvg_map, weightedAvg, weightedAvg, List.map_congr_left hweight]
  congr 2
  apply List.map_congr_left
  intro e he
  rw [hmetric e he, hweight e he]

theorem tableAvg_eq {t : Tables} {inv row : Invocation} (hinv : inv ∈ t.invocations.rows)
    (hrow : row ∈ (computeInvocationMetrics t).invocations.rows) (hid : row.id = inv.id) (m : Metric)
    (hfresh : inv.avg m = none) :
    row.avg m = weightedAvg (PerfEvent.metric m) PerfEvent.weight (t.perfOf inv) := by
  obtain ⟨old, hold, rfl⟩ := List.mem_map.mp hrow
  rw [updateRow_id] at hid
  obtain rfl : old = inv := List.inj_on_of_nodup_map t.invocations.ids_nodup hold hinv hid
  by_cases hne : (t.attributed old).Nonempty
  · exact avg_of_attributed hinv hne m _
  · have hempty : t.perfOf old = [] := by
      rw [List.eq_nil_iff_forall_not_mem]
      exact fun e he => hne ⟨e, mem_perfOf.mp he⟩
    have hkey : old.id ∉ t.invPerf.map Prod.fst := by
      rw [invPerf_eq]
      intro hmem
      obtain ⟨pair, hpair, hfst⟩ := List.mem_map.mp hmem
      obtain ⟨other, hother, hrest⟩ := List.mem_flatMap.mp hpair
      obtain ⟨e, he, rfl⟩ := List.mem_map.mp hrest
      obtain rfl : other = old :=
        List.inj_on_of_nodup_map t.invocations.ids_nodup hother hinv hfst
      rw [hempty] at he
      cases he
    rw [updateRow, invMetrics, lookup_groupAgg, if_neg hkey, hempty]
    exact hfresh

/-- The thread's stays during an invocation, read from the table. -/
theorem stays_perm {files : AnalysisFiles} {t : Tables} (h : SameData files t) (inv : Invocation) :
    ((getList files.schedulingDataInt inv.threadId).filter (Stay.during inv)).Perm
      ((t.threadsScheduling.filter (overlaps inv)).map stayOf) := by
  have hrows : ((t.threadsScheduling.filter fun s => s.threadId == inv.threadId).map stayOf).filter
      (Stay.during inv) = (t.threadsScheduling.filter (overlaps inv)).map stayOf := by
    rw [List.filter_map, List.filter_filter]
    congr 1
    apply List.filter_congr
    intro s _
    have hduring : Stay.during inv (stayOf s) = (decide ((s.startTimeNs : Int) ≤ inv.endTimeNs) &&
      decide (inv.startTimeNs ≤ (s.endTimeNs : Int))) := rfl
    rw [Bool.eq_iff_iff]
    simp only [Function.comp_apply, hduring, overlaps, Bool.and_eq_true, beq_iff_eq,
      decide_eq_true_eq]
    constructor
    · rintro ⟨⟨hstart, hend⟩, hthread⟩
      exact ⟨⟨hthread.symm, hend⟩, hstart⟩
    · rintro ⟨⟨hthread, hend⟩, hstart⟩
      exact ⟨⟨hstart, hend⟩, hthread.symm⟩
  rw [← hrows]
  exact (h.stays inv.threadId).filter _

/-- If every tick of the invocation on the core of a stay lies in the stay, the second join
finds the ticks that the scan finds. -/
theorem scan_perm {files : AnalysisFiles} {t : Tables} (h : SameData files t) {inv : Invocation}
    {s : Interval}
    (hin : ∀ tick ∈ getList files.perfDataPerCore s.coreNumber, tick.within inv = true →
      (stayOf s).Contains tick) :
    ((getList files.perfDataPerCore s.coreNumber).filter (Tick.within inv)).Perm
      ((t.performanceEvents.filter (covers (clip inv s))).map tickOf) := by
  have hrows : ((t.performanceEvents.filter fun e => e.cpuId == (s.coreNumber : Int)).map
      tickOf).filter (Tick.within inv) =
        (t.performanceEvents.filter (covers (clip inv s))).map tickOf := by
    rw [List.filter_map, List.filter_filter]
    congr 1
    apply List.filter_congr
    intro e he
    obtain ⟨time, htime⟩ := Option.isSome_iff_exists.mp (h.timed e he).1
    rw [Bool.eq_iff_iff, covers_clip]
    simp only [Function.comp_apply, Tick.within, tickOf, htime, Option.getD_some, Bool.and_eq_true,
      beq_iff_eq, decide_eq_true_eq, Option.mem_def, Option.some.injEq, exists_eq_left']
    constructor
    · rintro ⟨⟨hstart, hend⟩, hcore⟩
      have hmem : tickOf e ∈ getList files.perfDataPerCore s.coreNumber := by
        rw [(h.ticks s.coreNumber).mem_iff]
        exact List.mem_map_of_mem (List.mem_filter.mpr ⟨he, by simpa using hcore⟩)
      have hcontains := hin (tickOf e) hmem (by simp [Tick.within, tickOf, htime, hstart, hend])
      simp only [Stay.Contains, stayOf, tickOf, htime, Option.getD_some] at hcontains
      exact ⟨hstart, hend, hcontains.1, hcontains.2, hcore.symm⟩
    · rintro ⟨hstart, hend, -, -, hcore⟩
      exact ⟨⟨hstart, hend⟩, hcore.symm⟩
  rw [← hrows]
  exact (h.ticks s.coreNumber).filter _

/-- The ticks that the two scripts average. -/
theorem ticks_perm {files : AnalysisFiles} {t : Tables} (h : SameData files t) {inv : Invocation}
    (hone : OneStay files inv) :
    ((ticksOf files inv (coresDuringInvocation files inv)).map Prod.snd).Perm
      ((t.perfOf inv).map tickOf) := by
  have hsnd : (ticksOf files inv (coresDuringInvocation files inv)).map Prod.snd =
      ((getList files.schedulingDataInt inv.threadId).filter (Stay.during inv)).flatMap
        fun stay => (getList files.perfDataPerCore stay.coreNumber).filter (Tick.within inv) := by
    simp [ticksOf, coresDuringInvocation, List.map_flatMap, List.flatMap_map, Function.comp_def]
  rw [hsnd, Tables.perfOf, List.map_flatMap]
  refine ((stays_perm h inv).flatMap_right _).trans ?_
  rw [List.flatMap_map]
  apply List.Perm.flatMap_left
  intro s hs
  apply scan_perm h
  intro tick htick hwithin
  apply (hone s.coreNumber tick htick hwithin).2 (stayOf s)
  have hstay := (stays_perm h inv).mem_iff.mpr (List.mem_map_of_mem hs)
  exact List.mem_filter.mpr ⟨hstay, by simp [stayOf]⟩

theorem averages_eq {files : AnalysisFiles} {t : Tables} (h : SameData files t) {inv : Invocation}
    (hinv : inv ∈ t.invocations.rows) (hone : OneStay files inv) {row : Invocation}
    (hrow : row ∈ (computeInvocationMetrics t).invocations.rows) (hid : row.id = inv.id)
    (m : Metric) : (computeMetricsForInvocation files inv).1.avg m = row.avg m := by
  have hperf : ∀ e ∈ t.perfOf inv, e ∈ t.performanceEvents :=
    fun e he => (mem_attributed.mp (mem_perfOf.mp he)).1
  calc (computeMetricsForInvocation files inv).1.avg m
      = tickAvg m ((ticksOf files inv (coresDuringInvocation files inv)).map Prod.snd) :=
        fileAvg_eq files m (h.fresh inv hinv m)
    _ = tickAvg m ((t.perfOf inv).map tickOf) := weightedAvg_perm (ticks_perm h hone)
    _ = weightedAvg (PerfEvent.metric m) PerfEvent.weight (t.perfOf inv) :=
        (weightedAvg_tickOf h m hperf).symm
    _ = row.avg m := (tableAvg_eq hinv hrow hid m (h.fresh inv hinv m)).symm

/-- The scan of a core goes over the whole invocation, once for each stay on it. -/
theorem countsOnce_iff {files : AnalysisFiles} {t : Tables} (h : SameData files t)
    {inv : Invocation} (hinv : inv ∈ t.invocations.rows) :
    CountsOnce files t inv ↔ OneStay files inv := by
  constructor
  · exact oneStay_of_counts
  · intro hone
    refine ⟨hone.once, fun core tick hmem => hone.scheduled hmem, ?_, ?_,
      fun row hrow hid m => averages_eq h hinv hone hrow hid m⟩
    · rw [performanceTicks_eq, collectTicks_eq]
      rfl
    · intro m
      rw [performanceTicks_eq, collectTicks_eq]
      rfl

/-! ## Two schedules -/

theorem getList_singleton {α β : Type} [DecidableEq α] (a key : α) (l : List β) :
    getList (AList.singleton a l) key = if key = a then l else [] := by
  rw [getList, ← AList.insert_empty]
  by_cases heq : key = a
  · subst key
    rw [AList.lookup_insert, if_pos rfl, Option.getD_some]
  · rw [AList.lookup_insert_ne heq, AList.lookup_empty, if_neg heq, Option.getD_none]

def threeTicks : List Tick := [⟨10, 1, 1, 1, 1, 10⟩, ⟨50, 4, 1, 1, 1, 10⟩, ⟨80, 1, 1, 1, 1, 10⟩]

/-- The ticks are those of core 2, and thread 7 has the given stays. -/
def coreTwo (stays : List Stay) : AnalysisFiles where
  perfDataPerCore := AList.singleton 2 threeTicks
  schedulingDataInt := AList.singleton 7 stays
  sorted core := by
    rw [getList_singleton]
    split
    · decide
    · exact List.Pairwise.nil

/-- The same in tables, with an invocation of the thread from 0 to 100. -/
def coreTwoTables (stays : List Stay) : Tables where
  threadsScheduling := stays.map fun stay =>
    ⟨7, stay.coreNumber, stay.schedStartNs, stay.schedEndNs⟩
  performanceEvents :=
    [⟨1, 2, some 10, some 1, some 1, some 1, some 1, some 10⟩,
      ⟨2, 2, some 50, some 4, some 1, some 1, some 1, some 10⟩,
      ⟨3, 2, some 80, some 1, some 1, some 1, some 1, some 10⟩]
  nodeMemoryBandwidth := []
  invocations := ⟨[newInvocation 1 ⟨100, 7, 1 / 10⟩], by decide +kernel⟩
  invToPerf := []

theorem coreTwo_sameData (stays : List Stay) : SameData (coreTwo stays) (coreTwoTables stays) where
  stays thread := by
    simp only [coreTwo, coreTwoTables, getList_singleton, List.filter_map]
    apply List.Perm.of_eq
    by_cases hthread : thread = 7
    · subst thread
      simp [stayOf, Function.comp_def]
    · have hne : ¬ 7 = thread := fun h => hthread h.symm
      simp [hthread, hne, Function.comp_def]
  ticks core := by
    simp only [coreTwo, getList_singleton]
    apply List.Perm.of_eq
    split
    · subst core
      rfl
    · have hnone : (coreTwoTables stays).performanceEvents.filter
          (fun e => e.cpuId == (core : Int)) = [] := by
        simp only [coreTwoTables, List.filter_eq_nil_iff, List.mem_cons, List.not_mem_nil, or_false,
          forall_eq_or_imp, forall_eq, beq_iff_eq]
        omega
      rw [hnone]
      rfl
  timed := by simp [coreTwoTables]
  valued := by
    intro e he m
    simp only [coreTwoTables, List.mem_cons, List.not_mem_nil, or_false] at he
    rcases he with rfl | rfl | rfl <;> cases m <;> rfl
  fresh inv hinv m := by
    rw [List.mem_singleton.mp hinv]
    rfl

/-- The thread stays on core 2 until after the last tick. -/
theorem coreTwo_one_stay :
    CountsOnce (coreTwo [⟨2, 0, 90⟩, ⟨3, 91, 200⟩]) (coreTwoTables [⟨2, 0, 90⟩, ⟨3, 91, 200⟩])
        (newInvocation 1 ⟨100, 7, 1 / 10⟩) ∧
      (computeMetricsForInvocation (coreTwo [⟨2, 0, 90⟩, ⟨3, 91, 200⟩])
        (newInvocation 1 ⟨100, 7, 1 / 10⟩)).1.avg .stallsPerUs = some 2 := by
  refine ⟨(countsOnce_iff (coreTwo_sameData _) (List.mem_singleton.mpr rfl)).mpr ?_,
    by decide +kernel⟩
  have htwo : ∀ tick ∈ threeTicks, tick.within (newInvocation 1 ⟨100, 7, 1 / 10⟩) = true →
      (staysOn (coreTwo [⟨2, 0, 90⟩, ⟨3, 91, 200⟩]) (newInvocation 1 ⟨100, 7, 1 / 10⟩) 2).length ≤ 1 ∧
        ∀ stay ∈ staysOn (coreTwo [⟨2, 0, 90⟩, ⟨3, 91, 200⟩]) (newInvocation 1 ⟨100, 7, 1 / 10⟩) 2,
          stay.Contains tick := by
    decide +kernel
  intro core tick htick hwithin
  by_cases hcore : core = 2
  · subst core
    exact htwo tick htick hwithin
  · rw [coreTwo, getList_singleton, if_neg hcore] at htick
    cases htick

/-- The thread goes to core 3 and comes back: the first and the last tick are counted twice,
the second, during which it was away, as well. -/
theorem ticks_of_returning_thread :
    DisjointPerThread (coreTwoTables [⟨2, 0, 40⟩, ⟨3, 41, 60⟩, ⟨2, 61, 200⟩]).threadsScheduling ∧
      SameData (coreTwo [⟨2, 0, 40⟩, ⟨3, 41, 60⟩, ⟨2, 61, 200⟩])
        (coreTwoTables [⟨2, 0, 40⟩, ⟨3, 41, 60⟩, ⟨2, 61, 200⟩]) ∧
      (computeMetricsForInvocation (coreTwo [⟨2, 0, 40⟩, ⟨3, 41, 60⟩, ⟨2, 61, 200⟩])
        (newInvocation 1 ⟨100, 7, 1 / 10⟩)).2.length = 6 ∧
      ¬ CountsOnce (coreTwo [⟨2, 0, 40⟩, ⟨3, 41, 60⟩, ⟨2, 61, 200⟩])
        (coreTwoTables [⟨2, 0, 40⟩, ⟨3, 41, 60⟩, ⟨2, 61, 200⟩])
        (newInvocation 1 ⟨100, 7, 1 / 10⟩) := by
  refine ⟨?_, coreTwo_sameData _, by decide +kernel, ?_⟩
  · simp [DisjointPerThread, coreTwoTables, Set.disjoint_left]
    exact ⟨⟨fun a _ _ => by omega, fun a _ _ => by omega⟩, fun a _ _ _ => by omega⟩
  · intro h
    exact absurd (h.once 2 ⟨10, 1, 1, 1, 1, 10⟩) (by decide +kernel)

end FileMetrics
