import Hiresperf.LogParsing
import Mathlib.Algebra.BigOperators.Group.Finset.Basic
import Mathlib.Algebra.BigOperators.Group.List.Lemmas
import Mathlib.Algebra.Ring.Int.Defs
import Mathlib.Algebra.Ring.Rat
import Mathlib.Data.BitVec

/-!
# Sums of differences

The differences of one CPU in `parse_hrp.py` telescope, in whatever order the
records come. `parse_hrp_instructed_by_step.py` takes the polls in pairs, and adds
up the differences of the CPUs that were there at both. The counters of the memory
controllers belong to the whole machine, and it takes them from one CPU alone.
-/

namespace PollDifferences

open LogParsing

/-! ## Differences per CPU -/

def key (row : Row) : BitVec 32 × BitVec 64 := (row.cpuId, row.timestamp)

/-- No two records of a CPU have the same time. -/
def DistinctTimes (rows : List Row) : Prop := (rows.map key).Nodup

def recordsOf (cpu : BitVec 32) (rows : List Row) : List Row := rows.filter fun row => row.cpuId == cpu

/-- The rows that the parser has for a CPU after the differences are taken. -/
def diffsOf (cpu : BitVec 32) (rows : List Row) : List DiffRow :=
  (logDiffs none rows).filter fun row => row.cpuId == cpu

def IsFirst (records : List Row) (first : Row) : Prop :=
  first ∈ records ∧ ∀ row ∈ records, first.timestamp.toNat ≤ row.timestamp.toNat

def IsLast (records : List Row) (last : Row) : Prop :=
  last ∈ records ∧ ∀ row ∈ records, row.timestamp.toNat ≤ last.timestamp.toNat

/-- The differences of a CPU cover the time from its first record to its last one. -/
structure ConservesCounts (cpu : BitVec 32) (rows : List Row) : Prop where
  count : (diffsOf cpu rows).length = (recordsOf cpu rows).length - 1
  ordered : (diffsOf cpu rows).Pairwise fun a b => a.timestamp.toNat < b.timestamp.toNat
  counters : ∀ first last, IsFirst (recordsOf cpu rows) first → IsLast (recordsOf cpu rows) last →
    ∀ c, ((diffsOf cpu rows).map fun d => d.diff c).sum = last.value c - first.value c
  times : ∀ first last, IsFirst (recordsOf cpu rows) first → IsLast (recordsOf cpu rows) last →
    ((diffsOf cpu rows).map fun d => d.timeDelta.toNat).sum =
      last.timestamp.toNat - first.timestamp.toNat

theorem sum_consecutive {A G : Type} [AddCommGroup G] (f : A → G) (first : A) (rest : List A) :
    ((consecutive (first :: rest)).map fun p => f p.2 - f p.1).sum =
      f ((first :: rest).getLast (List.cons_ne_nil _ _)) - f first := by
  induction rest generalizing first with
  | nil => simp [consecutive]
  | cons next rest ih =>
    have hstep : consecutive (first :: next :: rest) =
        (first, next) :: consecutive (next :: rest) := rfl
    rw [hstep, List.map_cons, List.sum_cons, ih next, List.getLast_cons (List.cons_ne_nil _ _)]
    exact sub_add_sub_cancel' _ _ _

theorem length_consecutive {A : Type} (l : List A) : (consecutive l).length = l.length - 1 := by
  rw [consecutive, List.length_zip, List.length_tail]
  omega

theorem map_snd_consecutive {A : Type} (l : List A) : (consecutive l).map Prod.snd = l.tail := by
  apply List.map_snd_zip
  rw [List.length_tail]
  omega

variable {rows rows' : List Row} {cpu : BitVec 32}

theorem DistinctTimes.eq_of_key (h : DistinctTimes rows) {a b : Row} (ha : a ∈ rows) (hb : b ∈ rows)
    (hcpu : a.cpuId = b.cpuId) (htime : a.timestamp = b.timestamp) : a = b :=
  List.inj_on_of_nodup_map h ha hb (by rw [key, key, hcpu, htime])

theorem DistinctTimes.perm (h : DistinctTimes rows) (hperm : rows'.Perm rows) : DistinctTimes rows' :=
  (hperm.map key).nodup_iff.mpr h

theorem sortRows_perm (rows : List Row) : (sortRows rows).Perm rows := List.mergeSort_perm _ _

theorem sortRows_sorted (rows : List Row) :
    (sortRows rows).Pairwise fun a b => rowLe a b = true :=
  List.pairwise_mergeSort rowLe_trans rowLe_total rows

theorem rowLe_antisymm {a b : Row} (hab : rowLe a b = true) (hba : rowLe b a = true) :
    a.cpuId = b.cpuId ∧ a.timestamp = b.timestamp := by
  simp only [rowLe, Bool.or_eq_true, Bool.and_eq_true, decide_eq_true_eq, beq_iff_eq] at hab hba
  have hcpu : a.cpuId = b.cpuId := by
    rcases hab with hlt | ⟨heq, -⟩
    · rcases hba with hgt | ⟨heq, -⟩
      · omega
      · exact heq.symm
    · exact heq
  have hint : a.cpuId.toInt = b.cpuId.toInt := by rw [hcpu]
  refine ⟨hcpu, BitVec.eq_of_toNat_eq ?_⟩
  omega

/-- There is one way to sort distinct keys. -/
theorem sortRows_eq_of_perm (h : DistinctTimes rows) (hperm : rows'.Perm rows) :
    sortRows rows' = sortRows rows := by
  have hsorted : (sortRows rows').Perm (sortRows rows) :=
    (sortRows_perm rows').trans (hperm.trans (sortRows_perm rows).symm)
  apply hsorted.eq_of_pairwise _ (sortRows_sorted rows') (sortRows_sorted rows)
  intro a b ha hb hab hba
  obtain ⟨hcpu, htime⟩ := rowLe_antisymm hab hba
  have ha' : a ∈ rows := hperm.mem_iff.mp ((sortRows_perm rows').mem_iff.mp ha)
  exact h.eq_of_key ha' ((sortRows_perm rows).mem_iff.mp hb) hcpu htime

theorem logDiffs_of_perm (h : DistinctTimes rows) (hperm : rows'.Perm rows) :
    logDiffs none rows' = logDiffs none rows := by
  simp only [logDiffs, selectCpu, sortRows_eq_of_perm h hperm]

/-- Sorted, the records of a CPU are in increasing time. -/
theorem recordsOf_sortRows_increasing (h : DistinctTimes rows) (cpu : BitVec 32) :
    (recordsOf cpu (sortRows rows)).Pairwise
      fun a b => a.timestamp.toNat < b.timestamp.toNat := by
  have hdistinct : (sortRows rows).Pairwise fun a b => key a ≠ key b :=
    List.pairwise_map.mp (h.perm (sortRows_perm rows))
  have hboth := ((sortRows_sorted rows).and hdistinct).filter fun row => row.cpuId == cpu
  apply hboth.imp_of_mem
  rintro a b ha hb ⟨hle, hne⟩
  have hcpu : a.cpuId = b.cpuId := by
    rw [beq_iff_eq.mp (List.mem_filter.mp ha).2, beq_iff_eq.mp (List.mem_filter.mp hb).2]
  have htime : a.timestamp.toNat ≠ b.timestamp.toNat :=
    fun heq => hne (by rw [key, key, hcpu, BitVec.eq_of_toNat_eq heq])
  simp only [rowLe, hcpu, Bool.or_eq_true, Bool.and_eq_true, decide_eq_true_eq, beq_iff_eq] at hle
  omega

theorem diffsOf_eq (h : DistinctTimes rows) (cpu : BitVec 32) : diffsOf cpu rows =
    (consecutive (recordsOf cpu (sortRows rows))).map fun p => diffRow p.1 p.2 := by
  rw [diffsOf, ← logDiffs_of_perm h (sortRows_perm rows)]
  exact logDiffs_of_cpu (Or.inl rfl) (recordsOf_sortRows_increasing h cpu)

theorem mem_recordsOf_sortRows {row : Row} :
    row ∈ recordsOf cpu (sortRows rows) ↔ row ∈ recordsOf cpu rows :=
  ((sortRows_perm rows).filter _).mem_iff

section Increasing

variable {l : List Row} {first last head : Row} {tail : List Row}

theorem eq_head_of_isFirst
    (h : (head :: tail).Pairwise fun a b => a.timestamp.toNat < b.timestamp.toNat)
    (hfirst : IsFirst (head :: tail) first) : first = head := by
  rcases List.mem_cons.mp hfirst.1 with heq | htail
  · exact heq
  · have hlt := (List.pairwise_cons.mp h).1 first htail
    have hle := hfirst.2 head List.mem_cons_self
    omega

theorem eq_getLast_of_isLast (hne : l ≠ [])
    (h : l.Pairwise fun a b => a.timestamp.toNat < b.timestamp.toNat) (hlast : IsLast l last) :
    last = l.getLast hne := by
  have hsplit := List.dropLast_append_getLast hne
  have hmem := hlast.1
  rw [← hsplit, List.mem_append, List.mem_singleton] at hmem
  rw [← hsplit, List.pairwise_append] at h
  rcases hmem with hbefore | heq
  · have hlt := h.2.2 last hbefore (l.getLast hne) (List.mem_singleton_self _)
    have hle := hlast.2 (l.getLast hne) (List.getLast_mem hne)
    omega
  · exact heq

theorem sum_timeDelta (h : (head :: tail).Pairwise fun a b => a.timestamp.toNat < b.timestamp.toNat) :
    ((consecutive (head :: tail)).map fun p => (diffRow p.1 p.2).timeDelta.toNat).sum =
      ((head :: tail).getLast (List.cons_ne_nil _ _)).timestamp.toNat - head.timestamp.toNat := by
  induction tail generalizing head with
  | nil => simp [consecutive]
  | cons next rest ih =>
    have hstep : consecutive (head :: next :: rest) = (head, next) :: consecutive (next :: rest) := rfl
    obtain ⟨hhead, htail⟩ := List.pairwise_cons.mp h
    have hnext := hhead next List.mem_cons_self
    have hdelta : (diffRow head next).timeDelta.toNat =
        next.timestamp.toNat - head.timestamp.toNat :=
      BitVec.toNat_sub_of_le (BitVec.le_def.mpr (by omega))
    have hlast : next.timestamp.toNat ≤
        ((next :: rest).getLast (List.cons_ne_nil _ _)).timestamp.toNat := by
      rcases List.mem_cons.mp (List.getLast_mem (List.cons_ne_nil next rest)) with heq | hmem
      · rw [heq]
      · exact Nat.le_of_lt ((List.pairwise_cons.mp htail).1 _ hmem)
    rw [hstep, List.map_cons, List.sum_cons, ih htail, hdelta,
      List.getLast_cons (List.cons_ne_nil _ _)]
    omega

end Increasing

/-- The first and the last record are the ends of the sorted list. -/
theorem ends_of_sorted (h : DistinctTimes rows) {first last : Row}
    (hfirst : IsFirst (recordsOf cpu rows) first) (hlast : IsLast (recordsOf cpu rows) last) :
    ∃ tail, recordsOf cpu (sortRows rows) = first :: tail ∧
      last = (first :: tail).getLast (List.cons_ne_nil _ _) := by
  have hincreasing := recordsOf_sortRows_increasing h cpu
  have hfirst' : IsFirst (recordsOf cpu (sortRows rows)) first :=
    ⟨mem_recordsOf_sortRows.mpr hfirst.1,
      fun row hrow => hfirst.2 row (mem_recordsOf_sortRows.mp hrow)⟩
  have hlast' : IsLast (recordsOf cpu (sortRows rows)) last :=
    ⟨mem_recordsOf_sortRows.mpr hlast.1, fun row hrow => hlast.2 row (mem_recordsOf_sortRows.mp hrow)⟩
  cases hrecords : recordsOf cpu (sortRows rows) with
  | nil => exact absurd (hrecords ▸ hfirst'.1) List.not_mem_nil
  | cons head tail =>
    rw [hrecords] at hincreasing hfirst' hlast'
    cases eq_head_of_isFirst hincreasing hfirst'
    exact ⟨tail, rfl, eq_getLast_of_isLast (List.cons_ne_nil _ _) hincreasing hlast'⟩

theorem conservesCounts (h : DistinctTimes rows) (cpu : BitVec 32) : ConservesCounts cpu rows := by
  have hperm : (recordsOf cpu (sortRows rows)).Perm (recordsOf cpu rows) :=
    (sortRows_perm rows).filter _
  have hincreasing := recordsOf_sortRows_increasing h cpu
  have hdiffs := diffsOf_eq h cpu
  constructor
  case count => rw [hdiffs, List.length_map, length_consecutive, hperm.length_eq]
  case ordered =>
    rw [hdiffs, List.pairwise_map]
    have htail := hincreasing.tail
    rw [← map_snd_consecutive, List.pairwise_map] at htail
    exact htail
  case counters =>
    intro first last hfirst hlast c
    obtain ⟨tail, hrecords, rfl⟩ := ends_of_sorted h hfirst hlast
    rw [hdiffs, hrecords, List.map_map]
    exact sum_consecutive (fun row => row.value c) first tail
  case times =>
    intro first last hfirst hlast
    obtain ⟨tail, hrecords, rfl⟩ := ends_of_sorted h hfirst hlast
    rw [hrecords] at hincreasing
    rw [hdiffs, hrecords, List.map_map]
    exact sum_timeDelta hincreasing

/-- Each CPU has one difference less than records, they add up to the difference of its last
and its first record, and the order of the records in the log does not matter. -/
theorem logDiffs_conserve_counts (rows : List Row) (h : DistinctTimes rows) :
    (∀ cpu, ConservesCounts cpu rows) ∧
      ∀ rows', rows'.Perm rows → logDiffs none rows' = logDiffs none rows :=
  ⟨conservesCounts h, fun _ hperm => logDiffs_of_perm h hperm⟩

/-- Two records of CPU 0 around one of CPU 1, the later one first. -/
def interleavedLog : List Row := [⟨0, 9, fun _ => 12⟩, ⟨1, 4, fun _ => 30⟩, ⟨0, 2, fun _ => 5⟩]

theorem interleavedLog_conserved : DistinctTimes interleavedLog ∧
    ((diffsOf 0 interleavedLog).map fun d => d.timeDelta.toNat).sum = 7 ∧
    ((diffsOf 0 interleavedLog).map fun d => d.diff .llcMisses).sum = 7 := by
  have hdistinct : DistinctTimes interleavedLog := by
    unfold DistinctTimes
    decide
  have hconserved := (logDiffs_conserve_counts interleavedLog hdistinct).1 0
  have hfirst : IsFirst (recordsOf 0 interleavedLog) ⟨0, 2, fun _ => 5⟩ := by
    simp [IsFirst, recordsOf, interleavedLog]
  have hlast : IsLast (recordsOf 0 interleavedLog) ⟨0, 9, fun _ => 12⟩ := by
    simp [IsLast, recordsOf, interleavedLog]
  exact ⟨hdistinct, hconserved.times _ _ hfirst hlast, hconserved.counters _ _ hfirst hlast .llcMisses⟩

/-! ## Polls in pairs -/

/-- A record with the counters of the memory controllers, which it has with `--use_imc`. -/
structure PollRow where
  row : Row
  imcRead : BitVec 64
  imcWrite : BitVec 64

/-- The arguments of the command line that the ranges depend on, with `none` for the CPU -1. -/
structure Args where
  useImc : Bool
  tscFreq : ℚ
  cpuStoreImc : BitVec 32
  cpuId : Option (BitVec 32)

structure TimeRangeData where
  durationMs : ℚ
  diff : Counter → Nat
  imcReadDiff : Int
  imcWriteDiff : Int
  startTs : Nat
  endTs : Nat

def uniqueTimestamps (rows : List PollRow) : List (BitVec 64) :=
  (rows.map fun r => r.row.timestamp).dedup

def sortedTimestamps (rows : List PollRow) : List (BitVec 64) :=
  (uniqueTimestamps rows).mergeSort fun a b => decide (a.toNat ≤ b.toNat)

/-- `range(start, stop, step)`. -/
def pyRange (start stop step : Nat) : List Nat :=
  (List.range ((stop - start + (step - 1)) / step)).map fun i => start + step * i

def getAllTimeRanges (rows : List PollRow) : List (BitVec 64 × BitVec 64) :=
  let timestamps := sortedTimestamps rows
  (pyRange 0 (timestamps.length - 1) 2).map fun i => (timestamps.getD i 0, timestamps.getD (i + 1) 0)

/-- `t_min` and `t_max`; `none` where the assertion of exactly two timestamps fails. -/
def rangeEnds (start stop : BitVec 64) (rows : List Row) : Option (BitVec 64 × BitVec 64) :=
  match rangeTimestamps start stop rows with
  | [t, u] => some (if t.toNat ≤ u.toNat then (t, u) else (u, t))
  | _ => none

/-- The records of one CPU at one time, of which the first is used. -/
def recordsAt (cpu : BitVec 32) (t : BitVec 64) (rows : List PollRow) : List PollRow :=
  rows.filter fun r => r.row.timestamp == t && r.row.cpuId == cpu

def imcDiff (args : Args) (tMin tMax : BitVec 64) (rows : List PollRow) (column : PollRow → BitVec 64) :
    Int :=
  if args.useImc then
    match recordsAt args.cpuStoreImc tMin rows, recordsAt args.cpuStoreImc tMax rows with
    | first :: _, last :: _ => (column last).toNat - (column first).toNat
    | _, _ => 0
  else 0

/-- `calc_data_in_range` of `parse_hrp_instructed_by_step.py`; the frame `diff` is the one of
`parse_hrp_instructed_profile.py`. -/
def calcTimeRange (args : Args) (rows : List PollRow) (range : BitVec 64 × BitVec 64) :
    Option TimeRangeData := do
  let (tMin, tMax) ← rangeEnds range.1 range.2 (rows.map PollRow.row)
  let diffs ← calcDataInRange range.1 range.2 args.cpuId (rows.map PollRow.row)
  return {
    durationMs := ((tMax - tMin).toNat : ℚ) / args.tscFreq / 1000
    diff := fun c => ((diffs.map fun d : DiffRow => d.diff c).sum).toNat
    imcReadDiff := imcDiff args tMin tMax rows PollRow.imcRead
    imcWriteDiff := imcDiff args tMin tMax rows PollRow.imcWrite
    startTs := tMin.toNat
    endTs := tMax.toNat }

def parseHrpInstructedProfile (args : Args) (rows : List PollRow) : Option (List TimeRangeData) :=
  if (uniqueTimestamps rows).length < 2 then some []
  else (getAllTimeRanges rows).mapM (calcTimeRange args rows)

/-! ## What the ranges are for -/

/-- The CPUs with a record at that time. -/
def cpusAt (t : BitVec 64) (rows : List PollRow) : Finset (BitVec 32) :=
  ((rows.filter fun r => r.row.timestamp == t).map fun r => r.row.cpuId).toFinset

/-- The CPUs with a record at both ends of the range. -/
def cpusAtBoth (range : BitVec 64 × BitVec 64) (rows : List PollRow) : Finset (BitVec 32) :=
  cpusAt range.1 rows ∩ cpusAt range.2 rows

def columnAt (column : PollRow → BitVec 64) (cpu : BitVec 32) (t : BitVec 64) (rows : List PollRow) :
    BitVec 64 :=
  ((recordsAt cpu t rows).head?.map column).getD 0

/-- How much a column grows on a CPU. -/
def increase (column : PollRow → BitVec 64) (range : BitVec 64 × BitVec 64) (rows : List PollRow)
    (cpu : BitVec 32) : BitVec 64 :=
  columnAt column cpu range.2 rows - columnAt column cpu range.1 rows

/-- The difference of every counter is the sum over the CPUs that were there at both times. -/
def SumsOverCpus (rows : List PollRow) (range : BitVec 64 × BitVec 64) (data : TimeRangeData) : Prop :=
  ∀ c, BitVec.ofNat 64 (data.diff c) =
    ∑ cpu ∈ cpusAtBoth range rows, increase (fun r => r.row.value c) range rows cpu

/-- The differences of the memory controllers are those of one CPU. -/
def ImcOfStoreCpu (args : Args) (rows : List PollRow) (range : BitVec 64 × BitVec 64)
    (data : TimeRangeData) : Prop :=
  ∀ column diff, (column, diff) ∈ [(PollRow.imcRead, data.imcReadDiff),
      (PollRow.imcWrite, data.imcWriteDiff)] →
    BitVec.ofInt 64 diff = if args.useImc = true ∧ args.cpuStoreImc ∈ cpusAtBoth range rows then
      increase column range rows args.cpuStoreImc else 0

/-- The polls are taken in pairs. -/
structure PollsPaired (args : Args) (rows : List PollRow) : Prop where
  ranges : ∃ polls : List (BitVec 64), polls.Pairwise (fun t u => t.toNat < u.toNat) ∧
    (∀ t, t ∈ polls ↔ ∃ r ∈ rows, r.row.timestamp = t) ∧
    (getAllTimeRanges rows).length = polls.length / 2 ∧
    ((getAllTimeRanges rows).flatMap fun range => [range.1, range.2]) =
      polls.take (2 * (polls.length / 2))
  disjoint : (getAllTimeRanges rows).Pairwise fun range later => range.2.toNat < later.1.toNat
  increasing : ∀ range ∈ getAllTimeRanges rows, range.1.toNat < range.2.toNat
  asserted : ∀ range ∈ getAllTimeRanges rows, (calcTimeRange args rows range).isSome = true
  sums : DistinctTimes (rows.map PollRow.row) → args.cpuId = none →
    ∀ range ∈ getAllTimeRanges rows, ∀ data ∈ calcTimeRange args rows range,
      SumsOverCpus rows range data ∧ ImcOfStoreCpu args rows range data

/-! ## The pairs -/

def pairUp {A : Type} : List A → List (A × A)
  | [] => []
  | [_] => []
  | a :: b :: rest => (a, b) :: pairUp rest

theorem pyRange_map_eq_pairUp (l : List (BitVec 64)) :
    ((pyRange 0 (l.length - 1) 2).map fun i => (l.getD i 0, l.getD (i + 1) 0)) = pairUp l := by
  induction l using pairUp.induct with
  | case1 => rfl
  | case2 a => simp [pyRange, pairUp]
  | case3 a b rest ih =>
    have hcount : ((a :: b :: rest).length - 1 - 0 + (2 - 1)) / 2 =
        (rest.length - 1 - 0 + (2 - 1)) / 2 + 1 := by
      simp only [List.length_cons]
      omega
    rw [pairUp, ← ih, pyRange, hcount, List.range_succ_eq_map]
    simp [pyRange, List.getD, Nat.mul_add, Nat.add_assoc]

theorem length_pairUp {A : Type} (l : List A) : (pairUp l).length = l.length / 2 := by
  induction l using pairUp.induct with
  | case1 => simp [pairUp]
  | case2 a => simp [pairUp]
  | case3 a b rest ih =>
    simp only [pairUp, List.length_cons, ih]
    omega

theorem flatMap_pairUp {A : Type} (l : List A) :
    ((pairUp l).flatMap fun p => [p.1, p.2]) = l.take (2 * (l.length / 2)) := by
  induction l using pairUp.induct with
  | case1 => simp [pairUp]
  | case2 a => simp [pairUp]
  | case3 a b rest ih =>
    have hcount : 2 * ((a :: b :: rest).length / 2) = 2 * (rest.length / 2) + 1 + 1 := by
      simp only [List.length_cons]
      omega
    rw [hcount, List.take_succ_cons, List.take_succ_cons, ← ih]
    rfl

theorem sortedTimestamps_perm (rows : List PollRow) :
    (sortedTimestamps rows).Perm (uniqueTimestamps rows) := List.mergeSort_perm _ _

theorem mem_sortedTimestamps {rows : List PollRow} {t : BitVec 64} :
    t ∈ sortedTimestamps rows ↔ ∃ r ∈ rows, r.row.timestamp = t := by
  rw [(sortedTimestamps_perm rows).mem_iff, uniqueTimestamps, List.mem_dedup, List.mem_map]

theorem sortedTimestamps_increasing (rows : List PollRow) :
    (sortedTimestamps rows).Pairwise fun t u => t.toNat < u.toNat := by
  have hsorted : (sortedTimestamps rows).Pairwise fun t u => decide (t.toNat ≤ u.toNat) = true := by
    apply List.pairwise_mergeSort
    · intro a b c hab hbc
      rw [decide_eq_true_eq] at *
      omega
    · intro a b
      rw [Bool.or_eq_true, decide_eq_true_eq, decide_eq_true_eq]
      omega
  have hnodup : (sortedTimestamps rows).Nodup :=
    (sortedTimestamps_perm rows).nodup_iff.mpr (List.nodup_dedup _)
  apply (hsorted.and hnodup).imp
  rintro t u ⟨hle, hne⟩
  have hnat : t.toNat ≠ u.toNat := fun heq => hne (BitVec.eq_of_toNat_eq heq)
  rw [decide_eq_true_eq] at hle
  omega

theorem getAllTimeRanges_eq (rows : List PollRow) :
    getAllTimeRanges rows = pairUp (sortedTimestamps rows) := pyRange_map_eq_pairUp _

section Increasing

variable {polls : List (BitVec 64)}

theorem pairwise_pairUp (h : polls.Pairwise fun t u => t.toNat < u.toNat) :
    (∀ range ∈ pairUp polls, range.1.toNat < range.2.toNat) ∧
      (pairUp polls).Pairwise fun range later => range.2.toNat < later.1.toNat := by
  have hflat : ((pairUp polls).flatMap fun range => [range.1, range.2]).Pairwise
      fun t u => t.toNat < u.toNat := by
    rw [flatMap_pairUp]
    exact h.sublist (List.take_sublist _ _)
  rw [List.pairwise_flatMap] at hflat
  constructor
  · intro range hrange
    have hpair := hflat.1 range hrange
    simpa using hpair
  · apply hflat.2.imp
    intro range later hlater
    exact hlater range.2 (by simp) later.1 (by simp)

theorem mem_of_mem_pairUp {A : Type} {l : List A} {p : A × A} (h : p ∈ pairUp l) :
    p.1 ∈ l ∧ p.2 ∈ l := by
  have hboth : ∀ x ∈ [p.1, p.2], x ∈ l := by
    intro x hx
    have hmem : x ∈ (pairUp l).flatMap fun q => [q.1, q.2] := List.mem_flatMap.mpr ⟨p, h, hx⟩
    rw [flatMap_pairUp] at hmem
    exact List.mem_of_mem_take hmem
  exact ⟨hboth p.1 (by simp), hboth p.2 (by simp)⟩

/-- No poll lies between the two of a range. -/
theorem between_pairUp (h : polls.Pairwise fun t u => t.toNat < u.toNat)
    {range : BitVec 64 × BitVec 64} (hrange : range ∈ pairUp polls) {t : BitVec 64} (ht : t ∈ polls)
    (hlow : range.1.toNat ≤ t.toNat) (hhigh : t.toNat ≤ range.2.toNat) :
    t = range.1 ∨ t = range.2 := by
  induction polls using pairUp.induct with
  | case1 => cases ht
  | case2 a => simp [pairUp] at hrange
  | case3 a b rest ih =>
    obtain ⟨ha, hrest⟩ := List.pairwise_cons.mp h
    obtain ⟨hb, htail⟩ := List.pairwise_cons.mp hrest
    rw [List.mem_cons, List.mem_cons] at ht
    rw [pairUp, List.mem_cons] at hrange
    rcases hrange with rfl | hrange
    · rcases ht with rfl | rfl | ht
      · exact Or.inl rfl
      · exact Or.inr rfl
      · have hlt := hb t ht
        simp only at hhigh
        omega
    · have hstart := hb range.1 (mem_of_mem_pairUp hrange).1
      have hab := ha b List.mem_cons_self
      rcases ht with rfl | rfl | ht
      · omega
      · omega
      · exact ih htail hrange ht

end Increasing

/-! ## The ends of a range -/

theorem mem_rangeTimestamps_iff (start stop t : BitVec 64) (rows : List Row) :
    t ∈ rangeTimestamps start stop rows ↔
      (∃ row ∈ rows, row.timestamp = t) ∧ start.toNat ≤ t.toNat ∧ t.toNat ≤ stop.toNat := by
  simp [rangeTimestamps]

theorem eq_pair_of_mem_iff {A : Type} {l : List A} {a b : A} (hnodup : l.Nodup) (hne : a ≠ b)
    (h : ∀ x, x ∈ l ↔ x = a ∨ x = b) : l = [a, b] ∨ l = [b, a] := by
  have hperm : l.Perm [a, b] := by
    rw [List.perm_ext_iff_of_nodup hnodup (by simpa using hne)]
    simpa using h
  obtain ⟨x, y, rfl⟩ := List.length_eq_two.mp hperm.length_eq
  have hxy : x ≠ y := by simpa using hnodup
  rcases (h x).mp (by simp) with rfl | rfl
  · rcases (h y).mp (by simp) with rfl | rfl
    · exact absurd rfl hxy
    · exact Or.inl rfl
  · rcases (h y).mp (by simp) with rfl | rfl
    · exact Or.inr rfl
    · exact absurd rfl hxy

variable {polls : List PollRow} {range : BitVec 64 × BitVec 64}

theorem rangeTimestamps_of_range (hrange : range ∈ getAllTimeRanges polls) :
    rangeTimestamps range.1 range.2 (polls.map PollRow.row) = [range.1, range.2] ∨
      rangeTimestamps range.1 range.2 (polls.map PollRow.row) = [range.2, range.1] := by
  rw [getAllTimeRanges_eq] at hrange
  have hincreasing := sortedTimestamps_increasing polls
  have hlt := (pairwise_pairUp hincreasing).1 range hrange
  have hne : range.1 ≠ range.2 := fun heq => by
    rw [heq] at hlt
    omega
  have hpolled : ∀ t, (∃ row ∈ polls.map PollRow.row, row.timestamp = t) ↔
      t ∈ sortedTimestamps polls := by
    intro t
    rw [mem_sortedTimestamps]
    simp
  have hnodup : (rangeTimestamps range.1 range.2 (polls.map PollRow.row)).Nodup :=
    List.nodup_dedup _
  apply eq_pair_of_mem_iff hnodup hne
  intro t
  rw [mem_rangeTimestamps_iff, hpolled]
  constructor
  · rintro ⟨ht, hlow, hhigh⟩
    exact between_pairUp hincreasing hrange ht hlow hhigh
  · rintro (rfl | rfl)
    · exact ⟨(mem_of_mem_pairUp hrange).1, Nat.le_refl _, Nat.le_of_lt hlt⟩
    · exact ⟨(mem_of_mem_pairUp hrange).2, Nat.le_of_lt hlt, Nat.le_refl _⟩

theorem lt_of_mem_getAllTimeRanges (hrange : range ∈ getAllTimeRanges polls) :
    range.1.toNat < range.2.toNat := by
  rw [getAllTimeRanges_eq] at hrange
  exact (pairwise_pairUp (sortedTimestamps_increasing polls)).1 range hrange

/-- The filter on a range finds its two ends again. -/
theorem rangeEnds_of_range (hrange : range ∈ getAllTimeRanges polls) :
    rangeEnds range.1 range.2 (polls.map PollRow.row) = some range := by
  have hlt := lt_of_mem_getAllTimeRanges hrange
  have hnot : ¬ range.2.toNat ≤ range.1.toNat := by omega
  rw [rangeEnds]
  rcases rangeTimestamps_of_range hrange with heq | heq
  · simp [heq, Nat.le_of_lt hlt]
  · simp [heq, hnot]

theorem calcDataInRange_of_range (hrange : range ∈ getAllTimeRanges polls)
    (cpuId : Option (BitVec 32)) :
    calcDataInRange range.1 range.2 cpuId (polls.map PollRow.row) =
      some (match cpuId with
        | none => rangeDiffs range.1 range.2 (polls.map PollRow.row)
        | some cpu => (rangeDiffs range.1 range.2 (polls.map PollRow.row)).filter
          fun row => row.cpuId == cpu) := by
  have hlt := lt_of_mem_getAllTimeRanges hrange
  have hnot : ¬ range.2.toNat ≤ range.1.toNat := by omega
  rw [calcDataInRange]
  rcases rangeTimestamps_of_range hrange with heq | heq
  · cases cpuId <;> simp [heq, Nat.le_of_lt hlt]
  · cases cpuId <;> simp [heq, hnot]

theorem calcTimeRange_of_range (args : Args) (hrange : range ∈ getAllTimeRanges polls)
    (hcpu : args.cpuId = none) : calcTimeRange args polls range = some {
      durationMs := ((range.2 - range.1).toNat : ℚ) / args.tscFreq / 1000
      diff := fun c => (((rangeDiffs range.1 range.2 (polls.map PollRow.row)).map
        fun d : DiffRow => d.diff c).sum).toNat
      imcReadDiff := imcDiff args range.1 range.2 polls PollRow.imcRead
      imcWriteDiff := imcDiff args range.1 range.2 polls PollRow.imcWrite
      startTs := range.1.toNat
      endTs := range.2.toNat } := by
  rw [calcTimeRange, rangeEnds_of_range hrange, calcDataInRange_of_range hrange, hcpu]
  rfl

theorem calcTimeRange_isSome (args : Args) (hrange : range ∈ getAllTimeRanges polls) :
    (calcTimeRange args polls range).isSome = true := by
  rw [calcTimeRange, rangeEnds_of_range hrange, calcDataInRange_of_range hrange]
  rfl

/-! ## The sums over the CPUs -/

theorem mem_recordsAt {cpu : BitVec 32} {t : BitVec 64} {r : PollRow} :
    r ∈ recordsAt cpu t polls ↔ r ∈ polls ∧ r.row.timestamp = t ∧ r.row.cpuId = cpu := by
  simp [recordsAt]

theorem mem_cpusAt {cpu : BitVec 32} {t : BitVec 64} :
    cpu ∈ cpusAt t polls ↔ ∃ r ∈ polls, r.row.timestamp = t ∧ r.row.cpuId = cpu := by
  simp [cpusAt, and_assoc]

theorem length_le_one_of_same_key {A K : Type} {k : A → K} {l : List A} {x : K}
    (hnodup : (l.map k).Nodup) (h : ∀ a ∈ l, k a = x) : l.length ≤ 1 := by
  have hreplicate : l.map k = List.replicate l.length x := by
    rw [← List.length_map (f := k)]
    apply List.eq_replicate_of_mem
    simpa using h
  rw [hreplicate] at hnodup
  exact List.nodup_replicate.mp hnodup

/-- A difference of two readings, without a bound and with 64 bits. -/
theorem ofInt_toNat_sub (a b : BitVec 64) :
    BitVec.ofInt 64 ((a.toNat : Int) - (b.toNat : Int)) = a - b := by
  rw [Int.sub_eq_add_neg, BitVec.ofInt_add, BitVec.ofInt_neg, BitVec.ofInt_natCast,
    BitVec.ofInt_natCast, BitVec.ofNat_toNat, BitVec.ofNat_toNat, BitVec.setWidth_eq,
    BitVec.setWidth_eq, BitVec.sub_eq_add_neg]

section Distinct

variable (h : DistinctTimes (polls.map PollRow.row))
include h

theorem recordsAt_eq {r : PollRow} (hr : r ∈ polls) :
    recordsAt r.row.cpuId r.row.timestamp polls = [r] := by
  have hkeys : (polls.map fun r => key r.row).Nodup := by
    rw [DistinctTimes, List.map_map] at h
    exact h
  have hself : r ∈ recordsAt r.row.cpuId r.row.timestamp polls := mem_recordsAt.mpr ⟨hr, rfl, rfl⟩
  have hone : (recordsAt r.row.cpuId r.row.timestamp polls).length ≤ 1 := by
    apply length_le_one_of_same_key (hkeys.sublist (List.filter_sublist.map _))
    intro r' hr'
    obtain ⟨-, htime, hcpu⟩ := mem_recordsAt.mp hr'
    rw [key, htime, hcpu]
  have hpos := List.length_pos_of_mem hself
  obtain ⟨r', hr'⟩ := List.length_eq_one_iff.mp (Nat.le_antisymm hone hpos)
  rw [hr'] at hself ⊢
  rw [List.mem_singleton.mp hself]

theorem columnAt_eq {r : PollRow} (hr : r ∈ polls) (column : PollRow → BitVec 64) :
    columnAt column r.row.cpuId r.row.timestamp polls = column r := by
  rw [columnAt, recordsAt_eq h hr]
  rfl

/-- The rows of the join: one for each CPU that has both records. -/
theorem mem_rangeDiffs {t u : BitVec 64} {d : DiffRow}
    (hd : d ∈ rangeDiffs t u (polls.map PollRow.row)) :
    d.cpuId ∈ cpusAtBoth (t, u) polls ∧
      ∀ c, d.diff c = increase (fun r => r.row.value c) (t, u) polls d.cpuId := by
  simp only [rangeDiffs, List.mem_flatMap, List.mem_map, List.mem_filter, beq_iff_eq] at hd
  obtain ⟨_, ⟨⟨last, hlast, rfl⟩, rfl⟩, _, ⟨⟨⟨first, hfirst, rfl⟩, rfl⟩, hcpu⟩, rfl⟩ := hd
  constructor
  · rw [cpusAtBoth, Finset.mem_inter, mem_cpusAt, mem_cpusAt]
    exact ⟨⟨first, hfirst, rfl, hcpu⟩, ⟨last, hlast, rfl, rfl⟩⟩
  · intro c
    have hend := columnAt_eq h hlast fun r => r.row.value c
    have hstart := columnAt_eq h hfirst fun r => r.row.value c
    rw [hcpu] at hstart
    change last.row.value c - first.row.value c =
      columnAt _ last.row.cpuId last.row.timestamp polls -
        columnAt _ last.row.cpuId first.row.timestamp polls
    rw [hend, hstart]

theorem cpuIds_rangeDiffs_nodup (t u : BitVec 64) :
    ((rangeDiffs t u (polls.map PollRow.row)).map DiffRow.cpuId).Nodup := by
  have hcpus : ((polls.map PollRow.row).filter fun row => row.timestamp == u).Pairwise
      fun a b => a.cpuId ≠ b.cpuId := by
    have hkeys := (List.pairwise_map.mp h).filter fun row => row.timestamp == u
    apply hkeys.imp_of_mem
    intro a b ha hb hne hcpu
    have htime : a.timestamp = b.timestamp := by
      rw [beq_iff_eq.mp (List.mem_filter.mp ha).2, beq_iff_eq.mp (List.mem_filter.mp hb).2]
    exact hne (by rw [key, key, hcpu, htime])
  rw [rangeDiffs, List.map_flatMap, List.nodup_flatMap]
  constructor
  · -- the first poll has at most one record of the CPU
    intro last _
    have hone : (((polls.map PollRow.row).filter fun row => row.timestamp == t).filter
        fun first => first.cpuId == last.cpuId).length ≤ 1 := by
      apply length_le_one_of_same_key (h.sublist ((List.filter_sublist.trans List.filter_sublist).map _))
      intro first hfirst
      obtain ⟨htime, hcpu⟩ := List.mem_filter.mp hfirst
      rw [key, beq_iff_eq.mp (List.mem_filter.mp htime).2, beq_iff_eq.mp hcpu]
    have hconst : (DiffRow.cpuId ∘ fun first => diffRow first last) = fun _ => last.cpuId := rfl
    rw [List.map_map, hconst, List.map_const', List.nodup_replicate]
    exact hone
  · apply hcpus.imp
    intro a b hne
    rw [Function.onFun, List.disjoint_left]
    intro cpu ha hb
    simp only [List.map_map, List.mem_map] at ha hb
    obtain ⟨_, -, rfl⟩ := ha
    obtain ⟨_, -, heq⟩ := hb
    exact hne heq.symm

theorem mem_cpuIds_rangeDiffs {t u : BitVec 64} {cpu : BitVec 32} :
    cpu ∈ (rangeDiffs t u (polls.map PollRow.row)).map DiffRow.cpuId ↔
      cpu ∈ cpusAtBoth (t, u) polls := by
  constructor
  · intro hcpu
    obtain ⟨d, hd, rfl⟩ := List.mem_map.mp hcpu
    exact (mem_rangeDiffs h hd).1
  · intro hcpu
    rw [cpusAtBoth, Finset.mem_inter, mem_cpusAt, mem_cpusAt] at hcpu
    obtain ⟨⟨first, hfirst, htime, hcpu⟩, last, hlast, htime', hcpu'⟩ := hcpu
    rw [List.mem_map]
    refine ⟨diffRow first.row last.row, ?_, hcpu'⟩
    simp only [rangeDiffs, List.mem_flatMap, List.mem_map, List.mem_filter, beq_iff_eq]
    exact ⟨last.row, ⟨⟨last, hlast, rfl⟩, htime'⟩, first.row,
      ⟨⟨⟨first, hfirst, rfl⟩, htime⟩, hcpu.trans hcpu'.symm⟩, rfl⟩

theorem sum_rangeDiffs (t u : BitVec 64) (c : Counter) :
    ((rangeDiffs t u (polls.map PollRow.row)).map fun d => d.diff c).sum =
      ∑ cpu ∈ cpusAtBoth (t, u) polls, increase (fun r => r.row.value c) (t, u) polls cpu := by
  have hcpus : ((rangeDiffs t u (polls.map PollRow.row)).map DiffRow.cpuId).toFinset =
      cpusAtBoth (t, u) polls := by
    ext cpu
    rw [List.mem_toFinset, mem_cpuIds_rangeDiffs h]
  have hdiffs : ((rangeDiffs t u (polls.map PollRow.row)).map fun d => d.diff c) =
      ((rangeDiffs t u (polls.map PollRow.row)).map DiffRow.cpuId).map
        (increase (fun r => r.row.value c) (t, u) polls) := by
    rw [List.map_map]
    apply List.map_congr_left
    intro d hd
    exact (mem_rangeDiffs h hd).2 c
  rw [hdiffs, ← hcpus]
  exact (List.sum_toFinset _ (cpuIds_rangeDiffs_nodup h t u)).symm

theorem imcDiff_eq (args : Args) (range : BitVec 64 × BitVec 64) (column : PollRow → BitVec 64) :
    BitVec.ofInt 64 (imcDiff args range.1 range.2 polls column) =
      if args.useImc = true ∧ args.cpuStoreImc ∈ cpusAtBoth range polls then
        increase column range polls args.cpuStoreImc else 0 := by
  have hnone : ∀ t, args.cpuStoreImc ∉ cpusAt t polls → recordsAt args.cpuStoreImc t polls = [] := by
    intro t hcpu
    rw [List.eq_nil_iff_forall_not_mem]
    intro r hr
    obtain ⟨hmem, htime, hr⟩ := mem_recordsAt.mp hr
    exact hcpu (mem_cpusAt.mpr ⟨r, hmem, htime, hr⟩)
  have hsome : ∀ t, args.cpuStoreImc ∈ cpusAt t polls → ∃ r,
      recordsAt args.cpuStoreImc t polls = [r] := by
    intro t hcpu
    obtain ⟨r, hr, rfl, hstore⟩ := mem_cpusAt.mp hcpu
    exact ⟨r, by rw [← hstore]; exact recordsAt_eq h hr⟩
  simp only [imcDiff, cpusAtBoth, Finset.mem_inter]
  by_cases himc : args.useImc = true
  · by_cases hstart : args.cpuStoreImc ∈ cpusAt range.1 polls
    · by_cases hend : args.cpuStoreImc ∈ cpusAt range.2 polls
      · obtain ⟨first, hfirst⟩ := hsome range.1 hstart
        obtain ⟨last, hlast⟩ := hsome range.2 hend
        simp [himc, hstart, hend, hfirst, hlast, increase, columnAt, ofInt_toNat_sub]
      · simp [himc, hend, hnone range.2 hend]
    · simp [himc, hstart, hnone range.1 hstart]
  · simp [himc]

end Distinct

theorem calcTimeRanges_isSome {args : Args} {rows : List PollRow}
    {ranges : List (BitVec 64 × BitVec 64)}
    (h : ∀ range ∈ ranges, (calcTimeRange args rows range).isSome = true) :
    ∃ results, ranges.mapM (calcTimeRange args rows) = some results := by
  induction ranges with
  | nil => exact ⟨[], rfl⟩
  | cons range rest ih =>
    obtain ⟨hfirst, hrest⟩ := List.forall_mem_cons.mp h
    obtain ⟨data, hdata⟩ := Option.isSome_iff_exists.mp hfirst
    obtain ⟨results, hresults⟩ := ih hrest
    exact ⟨data :: results, by simp [List.mapM_cons, hdata, hresults]⟩

/-- The program reports a range for every two polls. -/
theorem parseHrpInstructedProfile_isSome (args : Args) (rows : List PollRow) :
    ∃ results, parseHrpInstructedProfile args rows = some results := by
  rw [parseHrpInstructedProfile]
  split_ifs
  · exact ⟨_, rfl⟩
  · exact calcTimeRanges_isSome fun range hrange => calcTimeRange_isSome args hrange

/-- For every list of records: the polls are taken in pairs, each range has its two polls, and
the differences are sums over the CPUs that were there at both, except that those of the
memory controllers are taken from one CPU. -/
theorem polls_paired (args : Args) (rows : List PollRow) : PollsPaired args rows := by
  have hincreasing := sortedTimestamps_increasing rows
  have hranges := getAllTimeRanges_eq rows
  constructor
  case ranges =>
    refine ⟨sortedTimestamps rows, hincreasing, fun t => mem_sortedTimestamps, ?_, ?_⟩
    · rw [hranges, length_pairUp]
    · rw [hranges, flatMap_pairUp]
  case disjoint =>
    rw [hranges]
    exact (pairwise_pairUp hincreasing).2
  case increasing => exact fun range hrange => lt_of_mem_getAllTimeRanges hrange
  case asserted => exact fun range hrange => calcTimeRange_isSome args hrange
  case sums =>
    intro h hcpu range hrange data hdata
    rw [calcTimeRange_of_range args hrange hcpu, Option.mem_some_iff] at hdata
    subst hdata
    constructor
    · intro c
      rw [BitVec.ofNat_toNat, BitVec.setWidth_eq]
      exact sum_rangeDiffs h range.1 range.2 c
    · intro column diff hcolumn
      simp only [List.mem_cons, List.not_mem_nil, or_false, Prod.mk.injEq] at hcolumn
      rcases hcolumn with ⟨rfl, rfl⟩ | ⟨rfl, rfl⟩
      · exact imcDiff_eq h args range _
      · exact imcDiff_eq h args range _


/-- Two polls of two CPUs that both log what the memory controllers have read. -/
def imcPolls : List PollRow :=
  [⟨⟨0, 1, fun _ => 0⟩, 10, 0⟩, ⟨⟨1, 1, fun _ => 0⟩, 10, 0⟩, ⟨⟨0, 2, fun _ => 0⟩, 17, 0⟩,
    ⟨⟨1, 2, fun _ => 0⟩, 17, 0⟩]

/-- CPU 0 and CPU 1 each log an increase by 7, and the range reports 7 and not their sum. -/
theorem imc_diff_of_one_cpu : ¬ ∀ (args : Args) (rows : List PollRow),
    DistinctTimes (rows.map PollRow.row) → args.cpuId = none →
    ∀ range ∈ getAllTimeRanges rows, ∀ data ∈ calcTimeRange args rows range,
      SumsOverCpus rows range data ∧
      BitVec.ofInt 64 data.imcReadDiff =
        ∑ cpu ∈ cpusAtBoth range rows, increase PollRow.imcRead range rows cpu := by
  intro hall
  have hdistinct : DistinctTimes (imcPolls.map PollRow.row) := by
    unfold DistinctTimes
    decide
  have hrange : (1, 2) ∈ getAllTimeRanges imcPolls := by
    rw [getAllTimeRanges_eq]
    have hsorted : sortedTimestamps imcPolls = [1, 2] := List.mergeSort_of_pairwise (by decide)
    rw [hsorted]
    decide
  have hdata := calcTimeRange_of_range ⟨true, 1, 0, none⟩ hrange rfl
  have hsum := (hall ⟨true, 1, 0, none⟩ imcPolls hdistinct rfl _ hrange _ hdata).2
  revert hsum
  decide

end PollDifferences
