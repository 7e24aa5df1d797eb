import Hiresperf.Foundation.BinaryFormat
import Hiresperf.Foundation.Relational
import Hiresperf.SchedIntervals
import Mathlib.Algebra.Order.Ring.Rat
import Mathlib.Order.CompletePartialOrder

/-!
# Metrics of invocations

`compute_invocation_metrics.py` on the tables of the analysis database, and the
part of `search_func.py` that numbers the invocations of a function. Two joins
attribute the ticks of the performance counters to the invocations, and each
metric becomes an average weighted by the length of the tick, in exact
arithmetic. A tick without unhalted cycles has no rate of stalls: the value is
null, and its length still counts.
-/

namespace InvocationMetrics

open BinaryFormat Relational SchedIntervals

/-! ## Tables -/

/-- The columns of `performance_events` that are averaged. -/
inductive Metric where
  | stallsPerUs
  | cpuUsage
  | memoryBandwidthBytesPerUs
  | instRetireRate
  deriving DecidableEq

/-- A row of `performance_events`. `parse_hrp.py` leaves a rate, the timestamp and the time
delta null where they cannot be computed. -/
structure PerfEvent where
  id : Int
  cpuId : Int
  timestampNs : Option Nat
  stallsPerUs : Option ℚ
  cpuUsage : Option ℚ
  memoryBandwidthBytesPerUs : Option ℚ
  instRetireRate : Option ℚ
  timeDeltaNs : Option Nat
  deriving DecidableEq

def PerfEvent.metric (m : Metric) (e : PerfEvent) : Option ℚ :=
  match m with
  | .stallsPerUs => e.stallsPerUs
  | .cpuUsage => e.cpuUsage
  | .memoryBandwidthBytesPerUs => e.memoryBandwidthBytesPerUs
  | .instRetireRate => e.instRetireRate

def PerfEvent.weight (e : PerfEvent) : Option ℚ := e.timeDeltaNs.map fun n : Nat => (n : ℚ)

/-- A row of `node_memory_bandwidth`. -/
structure NodeInterval where
  startTimeNs : Nat
  endTimeNs : Nat
  memoryBandwidthBytesPerUs : Option ℚ

/-- A row of the invocations of a function. -/
structure Invocation where
  id : Int
  threadId : Int
  startTimeNs : Int
  endTimeNs : Int
  avg : Metric → Option ℚ
  avgTotalMemoryBandwidth : Option ℚ

/-- The table `{function}_invocations`. `search_func.py` numbers its rows. -/
@[ext]
structure Invocations where
  rows : List Invocation
  ids_nodup : (rows.map Invocation.id).Nodup

/-- What one run reads and writes. The rows of `threads_scheduling` are the intervals of
`parse_sched.py`. -/
structure Tables where
  threadsScheduling : List Interval
  performanceEvents : List PerfEvent
  nodeMemoryBandwidth : List NodeInterval
  invocations : Invocations
  invToPerf : List (Int × Int)

/-! ## `search_func.py` -/

/-- A stack sample of the function, as `ldb_events` has it. The latency is a `float`. -/
structure StackSample where
  timestampNs : Int
  threadId : Int
  latencyUs : ℚ

/-- `int(latency_us * 1000)`: the product is rounded to a `float` and cut towards zero. -/
def latencyNs (sample : StackSample) : Int :=
  (binary64.round (sample.latencyUs * 1000)).num.tdiv (binary64.round (sample.latencyUs * 1000)).den

/-- A latency of 1001 nanoseconds is found again one shorter. -/
example : latencyNs ⟨0, 7, binary64.round (1001 / 1000)⟩ = 1000 := by decide +kernel

/-- The metrics of a new row are null. -/
def newInvocation (id : Int) (sample : StackSample) : Invocation where
  id := id
  threadId := sample.threadId
  startTimeNs := sample.timestampNs - latencyNs sample
  endTimeNs := sample.timestampNs
  avg _ := none
  avgTotalMemoryBandwidth := none

/-- `MAX(id) + 1`, or 1 for an empty table. -/
def nextId (rows : List Invocation) : Int :=
  match (rows.map Invocation.id).max? with
  | some id => id + 1
  | none => 1

def numbered (next : Int) : List StackSample → List Invocation
  | [] => []
  | sample :: rest => newInvocation next sample :: numbered (next + 1) rest

theorem le_id_of_mem_numbered {next : Int} {samples : List StackSample} {inv : Invocation}
    (h : inv ∈ numbered next samples) : next ≤ inv.id := by
  induction samples generalizing next with
  | nil => cases h
  | cons sample rest ih =>
    rcases List.mem_cons.mp h with rfl | htail
    · exact le_refl next
    · have := ih htail
      omega

theorem ids_numbered_nodup (next : Int) (samples : List StackSample) :
    ((numbered next samples).map Invocation.id).Nodup := by
  induction samples generalizing next with
  | nil => exact List.nodup_nil
  | cons sample rest ih =>
    rw [numbered, List.map_cons, List.nodup_cons]
    refine ⟨fun hmem => ?_, ih (next + 1)⟩
    obtain ⟨inv, hinv, hid⟩ := List.mem_map.mp hmem
    have hle := le_id_of_mem_numbered hinv
    have hsame : inv.id = next := hid
    omega

theorem id_lt_nextId {rows : List Invocation} {inv : Invocation} (h : inv ∈ rows) :
    inv.id < nextId rows := by
  have hmem : inv.id ∈ rows.map Invocation.id := List.mem_map_of_mem h
  rw [nextId]
  cases hmax : (rows.map Invocation.id).max? with
  | none =>
    rw [List.max?_eq_none_iff] at hmax
    rw [hmax] at hmem
    cases hmem
  | some top =>
    have hle := (List.max?_eq_some_iff.mp hmax).2 inv.id hmem
    exact Int.lt_add_one_of_le hle

/-- The samples are numbered from the next free id on. -/
def searchFunc (table : Invocations) (samples : List StackSample) : Invocations where
  rows := table.rows ++ numbered (nextId table.rows) samples
  ids_nodup := by
    rw [List.map_append, List.nodup_append]
    refine ⟨table.ids_nodup, ids_numbered_nodup _ _, ?_⟩
    intro id hid id' hid' heq
    obtain ⟨inv, hinv, rfl⟩ := List.mem_map.mp hid
    obtain ⟨new, hnew, rfl⟩ := List.mem_map.mp hid'
    have hlt := id_lt_nextId hinv
    have hle := le_id_of_mem_numbered hnew
    omega

/-! ## `compute_invocation_metrics.py` -/

/-- A row of `inv_sched`: the part of an invocation that ran on one core. -/
structure InvSched where
  invId : Int
  startTimeNs : Int
  endTimeNs : Int
  coreNumber : Nat

/-- The condition of the first join. -/
def overlaps (inv : Invocation) (sched : Interval) : Bool :=
  inv.threadId == sched.threadId && decide (inv.startTimeNs ≤ sched.endTimeNs) &&
    decide ((sched.startTimeNs : Int) ≤ inv.endTimeNs)

def clip (inv : Invocation) (sched : Interval) : InvSched where
  invId := inv.id
  startTimeNs := max inv.startTimeNs sched.startTimeNs
  endTimeNs := min inv.endTimeNs sched.endTimeNs
  coreNumber := sched.coreNumber

def invSched (invs : List Invocation) (sched : List Interval) : List InvSched :=
  invs.flatMap fun inv => (sched.filter (overlaps inv)).map (clip inv)

/-- The condition of the second join. A null timestamp meets no bound. -/
def covers (part : InvSched) (e : PerfEvent) : Bool :=
  e.cpuId == part.coreNumber && e.timestampNs.any fun t : Nat =>
    decide (part.startTimeNs ≤ (t : Int)) && decide ((t : Int) ≤ part.endTimeNs)

/-- The rows of `inv_perf`, each with the id of its invocation. -/
def invPerf (parts : List InvSched) (perf : List PerfEvent) : List (Int × PerfEvent) :=
  parts.flatMap fun part => (perf.filter (covers part)).map fun e => (part.invId, e)

/-- The four averages of one group. -/
def averages (rows : List (Int × PerfEvent)) (m : Metric) : Option ℚ :=
  weightedAvg (fun row => row.2.metric m) (fun row => row.2.weight) rows

def invMetrics (rows : List (Int × PerfEvent)) : List (Int × (Metric → Option ℚ)) :=
  groupAgg Prod.fst averages rows

/-- The length of the time that an invocation and an interval of the node have in common. -/
def commonTimeNs (inv : Invocation) (node : NodeInterval) : Int :=
  min inv.endTimeNs node.endTimeNs - max inv.startTimeNs node.startTimeNs

/-- The rows that `inv_node_bw` is grouped from. -/
def nodeOverlaps (invs : List Invocation) (nodes : List NodeInterval) :
    List (Int × NodeInterval × Int) :=
  invs.flatMap fun inv => (nodes.filter fun node =>
      decide (inv.startTimeNs ≤ (node.endTimeNs : Int)) &&
        decide ((node.startTimeNs : Int) ≤ inv.endTimeNs)).map
    fun node => (inv.id, node, commonTimeNs inv node)

def invNodeBw (invs : List Invocation) (nodes : List NodeInterval) : List (Int × Option ℚ) :=
  groupAgg Prod.fst (weightedAvg (fun row => row.2.1.memoryBandwidthBytesPerUs)
    fun row => some (row.2.2 : ℚ)) (nodeOverlaps invs nodes)

/-- `UPDATE ... FROM inv_metrics_df`, with the node's bandwidth merged into the metrics from
the left. -/
def updateRow (metrics : List (Int × (Metric → Option ℚ))) (nodeBw : List (Int × Option ℚ))
    (inv : Invocation) : Invocation :=
  match metrics.lookup inv.id with
  | none => inv
  | some avg =>
    { inv with avg := avg, avgTotalMemoryBandwidth := (nodeBw.lookup inv.id).join }

@[simp] theorem updateRow_id (metrics : List (Int × (Metric → Option ℚ)))
    (nodeBw : List (Int × Option ℚ)) (inv : Invocation) :
    (updateRow metrics nodeBw inv).id = inv.id := by
  rw [updateRow]
  split <;> rfl

def Tables.invPerf (t : Tables) : List (Int × PerfEvent) :=
  InvocationMetrics.invPerf (invSched t.invocations.rows t.threadsScheduling) t.performanceEvents

/-- `SELECT DISTINCT inv_id, perf_event_id FROM inv_perf`. -/
def Tables.pairs (t : Tables) : List (Int × Int) := (t.invPerf.map fun row => (row.1, row.2.id)).dedup

def Tables.updateInvocations (t : Tables) : Invocations where
  rows := t.invocations.rows.map
    (updateRow (invMetrics t.invPerf) (invNodeBw t.invocations.rows t.nodeMemoryBandwidth))
  ids_nodup := by
    rw [List.map_map]
    simpa [Function.comp_def] using t.invocations.ids_nodup

def computeInvocationMetrics (t : Tables) : Tables :=
  { t with invToPerf := t.invToPerf ++ t.pairs, invocations := t.updateInvocations }

/-! ## The ticks of an invocation -/

/-- The thread was scheduled on the core at that time. -/
def ScheduledOn (sched : List Interval) (threadId : Int) (time : Nat) (core : Int) : Prop :=
  ∃ s ∈ sched, s.threadId = threadId ∧ s.startTimeNs ≤ time ∧ time ≤ s.endTimeNs ∧
    (s.coreNumber : Int) = core

instance (sched : List Interval) (threadId : Int) (time : Nat) (core : Int) :
    Decidable (ScheduledOn sched threadId time core) :=
  inferInstanceAs (Decidable (∃ s ∈ sched, s.threadId = threadId ∧ s.startTimeNs ≤ time ∧
    time ≤ s.endTimeNs ∧ (s.coreNumber : Int) = core))

/-- The event lies within the invocation, on the core that its thread ran on. -/
def Attributed (sched : List Interval) (inv : Invocation) (e : PerfEvent) : Prop :=
  ∃ time ∈ e.timestampNs, inv.startTimeNs ≤ time ∧ (time : Int) ≤ inv.endTimeNs ∧
    ScheduledOn sched inv.threadId time e.cpuId

instance (sched : List Interval) (inv : Invocation) (e : PerfEvent) :
    Decidable (Attributed sched inv e) :=
  inferInstanceAs (Decidable (∃ time ∈ e.timestampNs, inv.startTimeNs ≤ time ∧
    (time : Int) ≤ inv.endTimeNs ∧ ScheduledOn sched inv.threadId time e.cpuId))

/-- The events of an invocation, each once. -/
def Tables.attributed (t : Tables) (inv : Invocation) : Finset PerfEvent :=
  t.performanceEvents.toFinset.filter (Attributed t.threadsScheduling inv)

/-- Two closed intervals of a thread have no time in common. -/
def DisjointPerThread (sched : List Interval) : Prop :=
  sched.Pairwise fun s s' => s.threadId = s'.threadId →
    Disjoint (Set.Icc s.startTimeNs s.endTimeNs) (Set.Icc s'.startTimeNs s'.endTimeNs)

/-- An average is the weighted mean over the events with a value, and so it is between the
least and the greatest of the values. -/
structure IsMeanOver (events : Finset PerfEvent) (m : Metric) (avg : Option ℚ) : Prop where
  eq_mean : avg = weightedMean (PerfEvent.metric m) PerfEvent.weight events
  between : ∀ q, avg = some q → ∃ lo ∈ valued (PerfEvent.metric m) events,
    ∃ hi ∈ valued (PerfEvent.metric m) events,
      (∀ e ∈ valued (PerfEvent.metric m) events, (lo.metric m).getD 0 ≤ (e.metric m).getD 0 ∧
        (e.metric m).getD 0 ≤ (hi.metric m).getD 0) ∧
      (lo.metric m).getD 0 ≤ q ∧ q ≤ (hi.metric m).getD 0

/-- The averages that the run stores. It stores none for an invocation without events. -/
def MeansStored (t : Tables) : Prop :=
  ∀ row ∈ (computeInvocationMetrics t).invocations.rows, (t.attributed row).Nonempty →
    ∀ m, IsMeanOver (t.attributed row) m (row.avg m)

/-- No event of an invocation has a null for a value and yet a length; or none with a value
has a length at all; or the values cancel out over a positive time. -/
def NullsWeightless (t : Tables) : Prop :=
  ∀ inv ∈ t.invocations.rows, ∀ m,
    (∀ e ∈ t.attributed inv, e.metric m = none → e.weight.getD 0 = 0) ∨
    (∀ e ∈ t.attributed inv, (e.metric m).isSome = true → e.timeDeltaNs = none) ∨
    (0 < ∑ e ∈ valued (PerfEvent.metric m) (t.attributed inv), e.weight.getD 0 ∧
      ∑ e ∈ valued (PerfEvent.metric m) (t.attributed inv),
        (e.metric m).getD 0 * e.weight.getD 0 = 0)

/-! ## What the joins give -/

/-- The events that the two joins find for an invocation. -/
def Tables.perfOf (t : Tables) (inv : Invocation) : List PerfEvent :=
  (t.threadsScheduling.filter (overlaps inv)).flatMap fun s =>
    t.performanceEvents.filter (covers (clip inv s))

theorem invPerf_eq (t : Tables) :
    t.invPerf = t.invocations.rows.flatMap fun inv => (t.perfOf inv).map fun e => (inv.id, e) := by
  simp only [Tables.invPerf, invPerf, invSched, Tables.perfOf, List.flatMap_assoc, List.flatMap_map,
    List.map_flatMap]
  rfl

theorem covers_clip (inv : Invocation) (s : Interval) (e : PerfEvent) :
    covers (clip inv s) e = true ↔ ∃ time ∈ e.timestampNs, inv.startTimeNs ≤ time ∧
      (time : Int) ≤ inv.endTimeNs ∧ s.startTimeNs ≤ time ∧ time ≤ s.endTimeNs ∧
      (s.coreNumber : Int) = e.cpuId := by
  simp only [covers, Bool.and_eq_true, beq_iff_eq, Option.any_eq_true, decide_eq_true_eq]
  simp only [clip]
  constructor
  · rintro ⟨hcpu, time, htime, hstart, hend⟩
    exact ⟨time, htime, by omega, by omega, by omega, by omega, hcpu.symm⟩
  · rintro ⟨time, htime, hinvStart, hinvEnd, hstart, hend, hcpu⟩
    exact ⟨hcpu.symm, time, htime, by omega, by omega⟩

/-- The conditions of the two joins together. -/
theorem any_covers_clip (sched : List Interval) (inv : Invocation) (e : PerfEvent) :
    ((sched.filter (overlaps inv)).any fun s => covers (clip inv s) e) = true ↔
      Attributed sched inv e := by
  simp only [List.any_eq_true, List.mem_filter, covers_clip, overlaps, Bool.and_eq_true, beq_iff_eq,
    decide_eq_true_eq]
  constructor
  · rintro ⟨s, ⟨hs, ⟨hthread, -⟩, -⟩, time, htime, hinvStart, hinvEnd, hstart, hend, hcore⟩
    exact ⟨time, htime, hinvStart, hinvEnd, s, hs, hthread.symm, hstart, hend, hcore⟩
  · rintro ⟨time, htime, hinvStart, hinvEnd, s, hs, hthread, hstart, hend, hcore⟩
    exact ⟨s, ⟨hs, ⟨hthread.symm, by omega⟩, by omega⟩, time, htime, hinvStart, hinvEnd, hstart,
      hend, hcore⟩

/-- The joins find each attributed event once: at one time a thread has one interval. -/
theorem perfOf_perm {t : Tables} (hsched : DisjointPerThread t.threadsScheduling)
    (inv : Invocation) :
    (t.perfOf inv).Perm
      (t.performanceEvents.filter fun e => decide (Attributed t.threadsScheduling inv e)) := by
  have honce : ∀ e ∈ t.performanceEvents, (t.threadsScheduling.filter (overlaps inv)).Pairwise
      fun s s' => ¬(covers (clip inv s) e = true ∧ covers (clip inv s') e = true) := by
    intro e _
    apply (hsched.filter (overlaps inv)).imp_of_mem
    rintro s s' hs hs' hdisjoint ⟨hcovers, hcovers'⟩
    have hsame : s.threadId = s'.threadId := by
      simp only [List.mem_filter, overlaps, Bool.and_eq_true, beq_iff_eq] at hs hs'
      rw [← hs.2.1.1, ← hs'.2.1.1]
    obtain ⟨time, htime, -, -, hstart, hend, -⟩ := (covers_clip inv s e).mp hcovers
    obtain ⟨time', htime', -, -, hstart', hend', -⟩ := (covers_clip inv s' e).mp hcovers'
    obtain rfl : time = time' := Option.mem_unique htime htime'
    exact Set.disjoint_left.mp (hdisjoint hsame) ⟨hstart, hend⟩ ⟨hstart', hend'⟩
  refine (join_perm honce).trans (List.Perm.of_eq ?_)
  apply List.filter_congr
  intro e _
  rw [Bool.eq_iff_iff, any_covers_clip, decide_eq_true_eq]

theorem nodup_of_ids {perf : List PerfEvent} (hids : (perf.map PerfEvent.id).Nodup) : perf.Nodup :=
  hids.of_map

theorem mem_attributed {t : Tables} {inv : Invocation} {e : PerfEvent} :
    e ∈ t.attributed inv ↔ e ∈ t.performanceEvents ∧ Attributed t.threadsScheduling inv e := by
  rw [Tables.attributed, Finset.mem_filter, List.mem_toFinset]

theorem mem_perfOf {t : Tables} {inv : Invocation} {e : PerfEvent} :
    e ∈ t.perfOf inv ↔ e ∈ t.attributed inv := by
  rw [mem_attributed, ← any_covers_clip]
  simp only [Tables.perfOf, List.mem_flatMap, List.mem_filter, List.any_eq_true]
  constructor
  · rintro ⟨s, hs, he, hcovers⟩
    exact ⟨he, s, hs, hcovers⟩
  · rintro ⟨he, s, hs, hcovers⟩
    exact ⟨s, hs, he, hcovers⟩

theorem toFinset_attributed (t : Tables) (inv : Invocation) :
    (t.performanceEvents.filter fun e => decide (Attributed t.threadsScheduling inv e)).toFinset =
      t.attributed inv := by
  ext e
  simp [mem_attributed]

/-- The pairs are the attributed events. -/
theorem mem_pairs {t : Tables} {pair : Int × Int} :
    pair ∈ t.pairs ↔ ∃ inv ∈ t.invocations.rows, ∃ e ∈ t.attributed inv, (inv.id, e.id) = pair := by
  simp only [Tables.pairs, List.mem_dedup, invPerf_eq, List.mem_map, List.mem_flatMap, mem_perfOf]
  constructor
  · rintro ⟨row, ⟨inv, hinv, e, he, rfl⟩, hpair⟩
    exact ⟨inv, hinv, e, he, hpair⟩
  · rintro ⟨inv, hinv, e, he, hpair⟩
    exact ⟨(inv.id, e), ⟨inv, hinv, e, he, rfl⟩, hpair⟩

/-- The row is in the group of its id, and the group has no other rows. -/
theorem lookup_invMetrics {t : Tables} {inv : Invocation} (hinv : inv ∈ t.invocations.rows)
    (hne : (t.attributed inv).Nonempty) :
    (invMetrics t.invPerf).lookup inv.id = some fun m =>
      weightedAvg (PerfEvent.metric m) PerfEvent.weight (t.perfOf inv) := by
  obtain ⟨e, he⟩ := hne
  have hkey : inv.id ∈ t.invPerf.map Prod.fst := by
    rw [invPerf_eq]
    refine List.mem_map.mpr ⟨(inv.id, e), ?_, rfl⟩
    exact List.mem_flatMap.mpr ⟨inv, hinv, List.mem_map.mpr ⟨e, mem_perfOf.mpr he, rfl⟩⟩
  have hgroup : (t.invPerf.filter fun row => row.1 == inv.id) =
      (t.perfOf inv).map fun e => (inv.id, e) := by
    rw [invPerf_eq]
    exact filter_flatMap_key t.invocations.ids_nodup hinv
  rw [invMetrics, lookup_groupAgg, if_pos hkey, hgroup]
  congr 1
  funext m
  exact weightedAvg_map _ _

/-- An update keeps what the joins look at. -/
theorem attributed_updateRow (t : Tables) (metrics : List (Int × (Metric → Option ℚ)))
    (nodeBw : List (Int × Option ℚ)) (inv : Invocation) :
    t.attributed (updateRow metrics nodeBw inv) = t.attributed inv := by
  rw [updateRow]
  split <;> rfl

theorem parts_updateRow (metrics : List (Int × (Metric → Option ℚ)))
    (nodeBw : List (Int × Option ℚ)) (inv : Invocation) (sched : List Interval) :
    (sched.filter (overlaps (updateRow metrics nodeBw inv))).map
        (clip (updateRow metrics nodeBw inv)) =
      (sched.filter (overlaps inv)).map (clip inv) := by
  rw [updateRow]
  split <;> rfl

/-- A second run finds the same pairs. -/
theorem pairs_computeInvocationMetrics (t : Tables) : (computeInvocationMetrics t).pairs = t.pairs := by
  have hparts : invSched (computeInvocationMetrics t).invocations.rows t.threadsScheduling =
      invSched t.invocations.rows t.threadsScheduling := by
    simp only [invSched, computeInvocationMetrics, Tables.updateInvocations, List.flatMap_map,
      parts_updateRow]
  have hperf : (computeInvocationMetrics t).invPerf = t.invPerf :=
    congrArg (fun parts => invPerf parts t.performanceEvents) hparts
  rw [Tables.pairs, Tables.pairs, hperf]

/-- Without a pair there is nothing to insert and nothing to update. -/
theorem computeInvocationMetrics_of_pairs_nil {t : Tables} (h : t.pairs = []) :
    computeInvocationMetrics t = t := by
  have hperf : t.invPerf = [] := by
    rwa [Tables.pairs, List.dedup_eq_nil, List.map_eq_nil_iff] at h
  have hrows : t.updateInvocations = t.invocations := by
    have hid : ∀ inv : Invocation, updateRow (invMetrics t.invPerf)
        (invNodeBw t.invocations.rows t.nodeMemoryBandwidth) inv = inv := by
      intro inv
      rw [updateRow, hperf]
      rfl
    apply Invocations.ext
    exact (List.map_congr_left fun inv _ => hid inv).trans (List.map_id' _)
  rw [computeInvocationMetrics, h, hrows, List.append_nil]

theorem avg_of_attributed {t : Tables} {inv : Invocation} (hinv : inv ∈ t.invocations.rows)
    (hne : (t.attributed inv).Nonempty) (m : Metric) (nodeBw : List (Int × Option ℚ)) :
    (updateRow (invMetrics t.invPerf) nodeBw inv).avg m =
      weightedAvg (PerfEvent.metric m) PerfEvent.weight (t.perfOf inv) := by
  rw [updateRow, lookup_invMetrics hinv hne]

theorem weight_nonneg (e : PerfEvent) : 0 ≤ e.weight.getD 0 := by
  rw [PerfEvent.weight]
  cases e.timeDeltaNs with
  | none => exact le_refl 0
  | some n => exact Nat.cast_nonneg n

theorem weight_eq_none {e : PerfEvent} : e.weight = none ↔ e.timeDeltaNs = none := by
  rw [PerfEvent.weight, Option.map_eq_none_iff]

/-- The condition for one average of one invocation. -/
theorem isMeanOver_iff {t : Tables} (hsched : DisjointPerThread t.threadsScheduling)
    (hids : (t.performanceEvents.map PerfEvent.id).Nodup) (inv : Invocation) (m : Metric) :
    IsMeanOver (t.attributed inv) m
        (weightedAvg (PerfEvent.metric m) PerfEvent.weight (t.perfOf inv)) ↔
      (∀ e ∈ t.attributed inv, e.metric m = none → e.weight.getD 0 = 0) ∨
      (∀ e ∈ t.attributed inv, (e.metric m).isSome = true → e.timeDeltaNs = none) ∨
      (0 < ∑ e ∈ valued (PerfEvent.metric m) (t.attributed inv), e.weight.getD 0 ∧
        ∑ e ∈ valued (PerfEvent.metric m) (t.attributed inv),
          (e.metric m).getD 0 * e.weight.getD 0 = 0) := by
  have hmem : ∀ e, e ∈ t.performanceEvents.filter
      (fun e => decide (Attributed t.threadsScheduling inv e)) ↔ e ∈ t.attributed inv := by
    intro e
    rw [← toFinset_attributed, List.mem_toFinset]
  have hmean := weightedAvg_eq_weightedMean_iff (PerfEvent.metric m)
    ((nodup_of_ids hids).filter fun e => decide (Attributed t.threadsScheduling inv e)) weight_nonneg
  rw [← weightedAvg_perm (perfOf_perm hsched inv), toFinset_attributed] at hmean
  simp only [hmem, weight_eq_none] at hmean
  rw [← hmean]
  constructor
  · intro h
    exact h.eq_mean
  · intro h
    refine ⟨h, fun q hq => ?_⟩
    exact weightedMean_between weight_nonneg (h.symm.trans hq)

/-- The averages are the weighted means exactly if no null comes with a length that the other
events do not cancel. -/
theorem stored_averages_are_means_iff (t : Tables) (hsched : DisjointPerThread t.threadsScheduling)
    (hids : (t.performanceEvents.map PerfEvent.id).Nodup) :
    MeansStored t ↔ NullsWeightless t := by
  constructor
  · intro h inv hinv m
    by_cases hne : (t.attributed inv).Nonempty
    · have hrow := h _ (List.mem_map_of_mem hinv)
      rw [attributed_updateRow] at hrow
      have hmean := hrow hne m
      rw [avg_of_attributed hinv hne] at hmean
      exact (isMeanOver_iff hsched hids inv m).mp hmean
    · rw [Finset.not_nonempty_iff_eq_empty] at hne
      simp [hne]
  · intro h row hrow hne m
    obtain ⟨inv, hinv, rfl⟩ := List.mem_map.mp hrow
    rw [attributed_updateRow] at hne ⊢
    rw [avg_of_attributed hinv hne]
    exact (isMeanOver_iff hsched hids inv m).mpr (h inv hinv m)

/-- A thread moves from core 2 to core 3 in the middle of its invocation, with one tick on each
core; the stalls of the second tick are given. -/
def twoTicks (stalls : Option ℚ) : Tables where
  threadsScheduling := [⟨7, 2, 0, 100⟩, ⟨7, 3, 101, 200⟩]
  performanceEvents :=
    [⟨1, 2, some 60, some (1 / 2), some 1, some 64, some 1000, some 10⟩,
      ⟨2, 3, some 120, stalls, some 0, some 0, some 0, some 10⟩]
  nodeMemoryBandwidth := []
  invocations := ⟨[newInvocation 1 ⟨150, 7, 1 / 10⟩], by decide +kernel⟩
  invToPerf := []

theorem twoTicks_disjoint (stalls : Option ℚ) :
    DisjointPerThread (twoTicks stalls).threadsScheduling := by
  simp [DisjointPerThread, twoTicks, Set.disjoint_left]
  omega

theorem stored_averages_of_busy_ticks :
    MeansStored (twoTicks (some 1)) ∧ NullsWeightless (twoTicks (some 1)) := by
  have hnulls : NullsWeightless (twoTicks (some 1)) := by
    intro inv hinv m
    refine Or.inl fun e he hnull => ?_
    have hperf : e ∈ (twoTicks (some 1)).performanceEvents := (mem_attributed.mp he).1
    simp only [twoTicks, List.mem_cons, List.not_mem_nil, or_false] at hperf
    rcases hperf with rfl | rfl <;> cases m <;> cases hnull
  exact ⟨(stored_averages_are_means_iff _ (twoTicks_disjoint _) (by decide)).mpr hnulls, hnulls⟩

/-- A tick in which the core was idle halves the average. -/
theorem idle_tick_dilutes_average :
    DisjointPerThread (twoTicks none).threadsScheduling ∧
      ((twoTicks none).performanceEvents.map PerfEvent.id).Nodup ∧ ¬MeansStored (twoTicks none) := by
  refine ⟨twoTicks_disjoint none, by decide, fun h => ?_⟩
  have hrow : updateRow (invMetrics (twoTicks none).invPerf)
      (invNodeBw (twoTicks none).invocations.rows (twoTicks none).nodeMemoryBandwidth)
      (newInvocation 1 ⟨150, 7, 1 / 10⟩) ∈
      (computeInvocationMetrics (twoTicks none)).invocations.rows :=
    List.mem_map_of_mem List.mem_cons_self
  have hne : ((twoTicks none).attributed (newInvocation 1 ⟨150, 7, 1 / 10⟩)).Nonempty := by
    decide +kernel
  have hmean := h _ hrow
  rw [attributed_updateRow] at hmean
  exact absurd (hmean hne .stallsPerUs).eq_mean (by decide +kernel)

end InvocationMetrics
