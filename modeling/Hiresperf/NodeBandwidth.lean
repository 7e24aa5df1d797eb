import Hiresperf.LogParsing
import Mathlib.Algebra.Order.Ring.Rat
import Mathlib.Data.Rat.Cast.Defs

/-!
# Bandwidth of the node

The back part of `parse_hrperf_log_polars`: rates from the differences of each
CPU, and the table `node_memory_bandwidth` from their sums at each timestamp, in
exact arithmetic. The column that the table is made of is written
`(read + write) * 64.0 .alias(...)`, where the method call belongs to the number.
-/

namespace NodeBandwidth

open LogParsing

inductive PyError where
  | attributeError (type name : String)
  deriving DecidableEq

/-- A row of `node_memory_bandwidth`. -/
structure NodeRow where
  startTimeNs : BitVec 64
  endTimeNs : BitVec 64
  memoryBandwidthBytesPerUs : ℚ

structure Args where
  useOffcore : Bool
  useCounterCombination : Bool

/-- Whether `rw_pair` is set: with the counters combined there are no reads and writes. -/
def Args.hasRwPair (args : Args) : Bool := args.useOffcore || !args.useCounterCombination

def timeDeltaUs (d : DiffRow) : ℚ := d.timeDelta.toNat / 1000

/-- `llc_misses_rate`, or `offcore_read_rate` after the renaming. -/
def readRate (d : DiffRow) : ℚ := (d.diff .llcMisses).toNat / timeDeltaUs d

/-- `sw_prefetch_rate`, or the rate of offcore writes. -/
def writeRate (d : DiffRow) : ℚ := (d.diff .swPrefetch).toNat / timeDeltaUs d

def memoryBandwidthBytesPerUs (d : DiffRow) : ℚ := (readRate d + writeRate d) * 64

/-- `group_by("timestamp_ns")` with the sum of the bandwidths, sorted by timestamp. -/
def groupByTimestamp (perf : List DiffRow) : List (BitVec 64 × ℚ) :=
  ((perf.map DiffRow.timestamp).dedup.mergeSort fun t u => decide (t.toNat ≤ u.toNat)).map fun t =>
    (t, ((perf.filter fun d => d.timestamp == t).map memoryBandwidthBytesPerUs).sum)

/-- `end_time_ns` is `shift(-1)`, and the row without one is dropped. -/
def nodeRows (groups : List (BitVec 64 × ℚ)) : List NodeRow :=
  (consecutive groups).map fun g => ⟨g.1.1, g.2.1, g.1.2⟩

/-- The table as the statements around the faulty column make it. -/
def nodeBandwidth (rows : List Row) : List NodeRow :=
  nodeRows (groupByTimestamp (logDiffs none rows))

/-- What the program writes for all CPUs: nothing for an empty log, and no row of the node's
bandwidth without a pair of rates. With one, `64.0.alias` is evaluated. -/
def parseHrperfLogPolars (args : Args) (rows : List Row) :
    Except PyError (Option (List NodeRow)) :=
  if rows.isEmpty then .ok none
  else if args.hasRwPair then .error (.attributeError "float" "alias")
  else .ok (some [])

/-! ## What the table should say -/

/-- A log in which some CPUs are sampled at common, increasing times. -/
structure CommonLog where
  cpus : List (BitVec 32)
  n : Nat
  time : Nat → BitVec 64
  value : BitVec 32 → Nat → Counter → BitVec 64
  rows : List Row
  increasing : ∀ i j, i < j → j ≤ n → (time i).toNat < (time j).toNat
  sampled : ∀ cpu ∈ cpus, (rows.filter fun row => row.cpuId == cpu) =
    (List.range (n + 1)).map fun i => ⟨cpu, time i, value cpu i⟩
  covered : ∀ row ∈ rows, row.cpuId ∈ cpus

variable (L : CommonLog)

/-- Increase of both counters of a CPU from time `i` to time `j`. -/
def CommonLog.increase (cpu : BitVec 32) (i j : Nat) : ℚ :=
  ((L.value cpu j .llcMisses).toNat - (L.value cpu i .llcMisses).toNat) +
    ((L.value cpu j .swPrefetch).toNat - (L.value cpu i .swPrefetch).toNat)

def durationUs (start stop : BitVec 64) : ℚ := (stop.toNat - start.toNat) / 1000

/-- The bandwidth measured from time `i` to time `i + 1`. -/
def CommonLog.bandwidth (i : Nat) : ℚ :=
  (L.cpus.map fun cpu => 64 * L.increase cpu i (i + 1)).sum / durationUs (L.time i) (L.time (i + 1))

/-- Every interval has the bandwidth measured in it, and the rows account for all the traffic. -/
structure Attributed (table : List NodeRow) : Prop where
  intervals : ∀ i, i < L.n → ∃ row ∈ table, row.startTimeNs = L.time i ∧
    row.endTimeNs = L.time (i + 1) ∧ row.memoryBandwidthBytesPerUs = L.bandwidth i
  total : (table.map fun row =>
      row.memoryBandwidthBytesPerUs * durationUs row.startTimeNs row.endTimeNs).sum =
    (L.cpus.map fun cpu => 64 * L.increase cpu 0 L.n).sum

/-! ## What it says -/

variable {L}

theorem consecutive_map_range {A : Type} (f : Nat → A) (n : Nat) :
    consecutive ((List.range (n + 1)).map f) = (List.range n).map fun i => (f i, f (i + 1)) := by
  apply List.ext_getElem
  · simp [consecutive]
  · intro i hi hi'
    simp [consecutive]

theorem CommonLog.pairwise (L : CommonLog) {cpu : BitVec 32} (hcpu : cpu ∈ L.cpus) :
    (L.rows.filter fun row => row.cpuId == cpu).Pairwise
      fun a b => a.timestamp.toNat < b.timestamp.toNat := by
  rw [L.sampled cpu hcpu, List.pairwise_map]
  apply List.pairwise_lt_range.imp_of_mem
  intro i j _ hj hij
  exact L.increasing i j hij (by have := List.mem_range.mp hj; omega)

/-- The difference of CPU `cpu` between times `i` and `i + 1`. -/
def CommonLog.diffAt (L : CommonLog) (cpu : BitVec 32) (i : Nat) : DiffRow :=
  diffRow ⟨cpu, L.time i, L.value cpu i⟩ ⟨cpu, L.time (i + 1), L.value cpu (i + 1)⟩

theorem CommonLog.logDiffs_of_cpu (L : CommonLog) {cpu : BitVec 32} (hcpu : cpu ∈ L.cpus) :
    ((logDiffs none L.rows).filter fun d => d.cpuId == cpu) =
      (List.range L.n).map (L.diffAt cpu) := by
  rw [LogParsing.logDiffs_of_cpu (Or.inl rfl) (L.pairwise hcpu), L.sampled cpu hcpu,
    consecutive_map_range, List.map_map]
  rfl

theorem CommonLog.mem_logDiffs (L : CommonLog) {d : DiffRow} (h : d ∈ logDiffs none L.rows) :
    ∃ cpu ∈ L.cpus, ∃ i, i < L.n ∧ d = L.diffAt cpu i := by
  obtain ⟨row, hrow, hcpu⟩ := exists_row_of_mem_logDiffs h
  have hmem : d.cpuId ∈ L.cpus := hcpu ▸ L.covered row hrow
  have hd : d ∈ (logDiffs none L.rows).filter fun r => r.cpuId == d.cpuId :=
    List.mem_filter.mpr ⟨h, by simp⟩
  rw [L.logDiffs_of_cpu hmem] at hd
  obtain ⟨i, hi, heq⟩ := List.mem_map.mp hd
  exact ⟨d.cpuId, hmem, i, List.mem_range.mp hi, heq.symm⟩

/-- The rows start at the ends of the intervals that they were measured in. -/
theorem CommonLog.start_of_mem_nodeBandwidth (L : CommonLog) {row : NodeRow}
    (h : row ∈ nodeBandwidth L.rows) : ∃ i, i < L.n ∧ row.startTimeNs = L.time (i + 1) := by
  obtain ⟨g, hg, rfl⟩ := List.mem_map.mp h
  have hgroup := (List.of_mem_zip hg).1
  obtain ⟨t, ht, heq⟩ := List.mem_map.mp hgroup
  rw [(List.mergeSort_perm _ _).mem_iff, List.mem_dedup, List.mem_map] at ht
  obtain ⟨d, hd, rfl⟩ := ht
  obtain ⟨cpu, -, i, hi, rfl⟩ := L.mem_logDiffs hd
  exact ⟨i, hi, by rw [← heq]; rfl⟩

theorem CommonLog.attributed_iff (L : CommonLog) :
    Attributed L (nodeBandwidth L.rows) ↔ L.n = 0 := by
  constructor
  · intro h
    by_contra hn
    -- nothing starts at the first timestamp
    obtain ⟨row, hrow, hstart, -⟩ := h.intervals 0 (by omega)
    obtain ⟨i, hi, hlater⟩ := L.start_of_mem_nodeBandwidth hrow
    have hlt := L.increasing 0 (i + 1) (by omega) (by omega)
    rw [← hstart, ← hlater] at hlt
    omega
  · intro hn
    have hnone : logDiffs none L.rows = [] := by
      rw [List.eq_nil_iff_forall_not_mem]
      intro d hd
      obtain ⟨cpu, -, i, hi, -⟩ := L.mem_logDiffs hd
      omega
    have htable : nodeBandwidth L.rows = [] := by
      rw [nodeBandwidth, hnone]
      simp [groupByTimestamp, nodeRows, consecutive]
    refine ⟨fun i hi => by omega, ?_⟩
    rw [htable, hn]
    simp [CommonLog.increase]

/-- In both modes with a bandwidth, no log gives the table: the program stops with an error,
or before any table if the log is empty. Without that error the rows would be right only for
a log of one timestamp, which has no interval. -/
theorem node_bandwidth_never_attributed (L : CommonLog) {args : Args}
    (hargs : args.hasRwPair = true) :
    (¬ ∃ table, parseHrperfLogPolars args L.rows = .ok (some table) ∧ Attributed L table) ∧
      (Attributed L (nodeBandwidth L.rows) ↔ L.n = 0) := by
  refine ⟨?_, L.attributed_iff⟩
  rintro ⟨table, htable, -⟩
  rw [parseHrperfLogPolars, if_pos hargs] at htable
  split_ifs at htable
  cases htable

/-- One CPU sampled at 1 us and at 2 us, with five reads and three writes between. -/
def twoSampleLog : CommonLog where
  cpus := [0]
  n := 1
  time i := BitVec.ofNat 64 (1000 * (i + 1))
  value _ i c := match c with
    | .llcMisses => BitVec.ofNat 64 (5 * i)
    | .swPrefetch => BitVec.ofNat 64 (3 * i)
    | _ => 0
  rows := (List.range 2).map fun i => ⟨0, BitVec.ofNat 64 (1000 * (i + 1)), fun c => match c with
    | .llcMisses => BitVec.ofNat 64 (5 * i)
    | .swPrefetch => BitVec.ofNat 64 (3 * i)
    | _ => 0⟩
  increasing i j hij hj := by
    obtain rfl : i = 0 := by omega
    obtain rfl : j = 1 := by omega
    decide
  sampled cpu hcpu := by
    rw [List.mem_singleton.mp hcpu]
    rfl
  covered row hrow := by
    obtain ⟨i, -, rfl⟩ := List.mem_map.mp hrow
    exact List.mem_cons_self

theorem node_bandwidth_of_two_samples :
    Args.hasRwPair ⟨false, false⟩ = true ∧
      ¬ ∃ table, parseHrperfLogPolars ⟨false, false⟩ twoSampleLog.rows = .ok (some table) ∧
        Attributed twoSampleLog table :=
  ⟨rfl, (node_bandwidth_never_attributed twoSampleLog rfl).1⟩

/-- The program stops, and the table it was about to write has no row. -/
theorem two_samples_give_no_table :
    parseHrperfLogPolars ⟨false, false⟩ twoSampleLog.rows =
      .error (.attributeError "float" "alias") ∧
    (¬ ∃ table, parseHrperfLogPolars ⟨false, false⟩ twoSampleLog.rows = .ok (some table) ∧
      Attributed twoSampleLog table) ∧
    ¬ Attributed twoSampleLog (nodeBandwidth twoSampleLog.rows) := by
  have hstops : parseHrperfLogPolars ⟨false, false⟩ twoSampleLog.rows =
      .error (.attributeError "float" "alias") := rfl
  refine ⟨hstops, ?_, ?_⟩
  · rintro ⟨table, htable, -⟩
    rw [hstops] at htable
    cases htable
  · rw [twoSampleLog.attributed_iff]
    decide

end NodeBandwidth
