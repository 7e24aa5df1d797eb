import Hiresperf.Foundation.StreamMerge
import Mathlib.Algebra.BigOperators.Group.List.Basic
import Mathlib.Algebra.Order.Field.Rat
import Mathlib.Data.List.Dedup
import Mathlib.Data.List.Induction
import Mathlib.Data.List.TakeWhile
import Mathlib.Data.Prod.Lex
import Mathlib.Tactic.Linarith

/-!
# The timeline of the total bandwidth

`ldb_analysis/compute_per_core_performance.py` merges the records of the cores by
time and keeps a running total of the bandwidths. An interval is written at the
first record with a new time, when only the core of this record has been brought
up to date: the other cores still count with the sample before.
-/

namespace TotalBandwidth

open StreamMerge

/-! ## The script -/

structure Entry where
  cpuId : Int
  timestampNs : Int
  stallMem : Nat
  instRetire : Nat
  cpuUnhalt : Nat
  llcMisses : Nat
  swPrefetch : Nat
  deriving DecidableEq

/-- The order of the heap. -/
def key (e : Entry) : Int ×ₗ Int := toLex (e.timestampNs, e.cpuId)

/-- The keys of `per_core_data`; the order of the streams does not matter to the heap. -/
def cores (log : List Entry) : List Int := (log.map Entry.cpuId).dedup

/-- The data of a core, sorted by time. -/
def coreRecords (log : List Entry) (cpu : Int) : List Entry :=
  (log.filter fun e => e.cpuId == cpu).mergeSort fun a b => decide (a.timestampNs ≤ b.timestampNs)

/-- The records in the order in which the heap gives them out. -/
def merged (log : List Entry) : List Entry :=
  mergeStreams key log.length ((cores log).map (coreRecords log))

/-- Bytes per microsecond between two records of a core. -/
def memoryBandwidth (last current : Entry) : ℚ :=
  let timeDeltaUs : ℚ := ((current.timestampNs - last.timestampNs : Int) : ℚ) / 1000
  let llcMissesRate := (((current.llcMisses : Int) - last.llcMisses : Int) : ℚ) / timeDeltaUs
  let swPrefetchRate := (((current.swPrefetch : Int) - last.swPrefetch : Int) : ℚ) / timeDeltaUs
  (llcMissesRate + swPrefetchRate) * 64

structure Interval where
  start : Int
  stop : Int
  total : ℚ
  deriving DecidableEq

structure State where
  lastState : Int → Option Entry
  perCoreMemoryBandwidth : Int → ℚ
  totalMemoryBandwidth : ℚ
  lastGlobalTimestamp : Option Int
  intervals : List Interval

/-- The interval that is packed, if any. -/
def newInterval (lastGlobalTimestamp : Option Int) (current : Int) (total : ℚ) : List Interval :=
  match lastGlobalTimestamp with
  | some start => if start < current then [⟨start, current, total⟩] else []
  | none => []

def processEntry (s : State) (e : Entry) : State :=
  match s.lastState e.cpuId with
  | none =>
    { s with
      lastState := Function.update s.lastState e.cpuId (some e)
      perCoreMemoryBandwidth := Function.update s.perCoreMemoryBandwidth e.cpuId 0 }
  | some last =>
    if e.timestampNs - last.timestampNs ≤ 0 then s
    else
      let bandwidth := memoryBandwidth last e
      let total := s.totalMemoryBandwidth - s.perCoreMemoryBandwidth e.cpuId + bandwidth
      { lastState := Function.update s.lastState e.cpuId (some e)
        perCoreMemoryBandwidth := Function.update s.perCoreMemoryBandwidth e.cpuId bandwidth
        totalMemoryBandwidth := total
        lastGlobalTimestamp := some e.timestampNs
        intervals := s.intervals ++ newInterval s.lastGlobalTimestamp e.timestampNs total }

def initialState : State := ⟨fun _ => none, fun _ => 0, 0, none, []⟩

/-- What is written to the file. A negative start cannot be packed and ends the script. -/
def parseHrperfLog (log : List Entry) : List Interval :=
  ((merged log).foldl processEntry initialState).intervals.takeWhile fun i => decide (0 ≤ i.start)

/-! ## What the totals should be -/

/-- The samples of a core: each record with the next one. -/
def samples (records : List Entry) : List (Entry × Entry) := records.zip records.tail

/-- The bandwidth of the sample that contains the times from `a` to `b`, 0 if there is none. -/
def running (records : List Entry) (a b : Int) : ℚ :=
  (((samples records).filter fun s =>
    decide (s.1.timestampNs ≤ a) && decide (b ≤ s.2.timestampNs)).map fun s =>
      memoryBandwidth s.1 s.2).sum

def expectedTotal (log : List Entry) (a b : Int) : ℚ :=
  ((cores log).map fun cpu => running (coreRecords log cpu) a b).sum

def TimelineExact (log : List Entry) : Prop :=
  ∀ i ∈ parseHrperfLog log, i.total = expectedTotal log i.start i.stop

/-- Several cores may share a time, but each core has a time once. -/
def DistinctTimes (log : List Entry) : Prop := (log.map key).Nodup

/-! ## When they are -/

/-- The bandwidth of the last sample, 0 if there is none. -/
def lastBandwidth (records : List Entry) : ℚ :=
  match records.reverse with
  | current :: last :: _ => memoryBandwidth last current
  | _ => 0

/-- The bandwidth of the last sample that has ended by time `a`. -/
def stale (records : List Entry) (a : Int) : ℚ :=
  lastBandwidth (records.filter fun e => decide (e.timestampNs ≤ a))

/-- The records by time and core. -/
def inOrder (log : List Entry) : List Entry := log.mergeSort fun a b => decide (key a ≤ key b)

/-- The times of the records that are not the first of their core. -/
def ticks : List Int → List Entry → List Int
  | _, [] => []
  | seen, e :: rest =>
    if e.cpuId ∈ seen then e.timestampNs :: ticks seen rest else ticks (e.cpuId :: seen) rest

/-- The record `e`, which is not the first of its core, has a later time than the last such
record before it, whose time is `a`. -/
structure NewTime (log before : List Entry) (e : Entry) (a : Int) : Prop where
  order : ∃ after, inOrder log = before ++ e :: after
  notFirst : e.cpuId ∈ before.map Entry.cpuId
  start : (ticks [] before).getLast? = some a
  later : a < e.timestampNs

/-- The sample that ends with `e`, if it starts after `a` only. -/
def lateSample (before : List Entry) (e : Entry) (a : Int) : ℚ :=
  match (before.filter fun r => r.cpuId == e.cpuId).getLast? with
  | some last => if a < last.timestampNs then memoryBandwidth last e else 0
  | none => 0

/-- The samples that the other cores have ended by `a` have as much bandwidth as the ones they
are in at that time, up to what `lateSample` adds. -/
def Balanced (log before : List Entry) (e : Entry) (a : Int) : Prop :=
  (((cores log).erase e.cpuId).map fun cpu => stale (coreRecords log cpu) a).sum +
      lateSample before e a =
    (((cores log).erase e.cpuId).map fun cpu => running (coreRecords log cpu) a e.timestampNs).sum

/-- Wherever an interval is written, the stale samples do not show. -/
def StaleBalanced (log : List Entry) : Prop :=
  (∀ before e a, NewTime log before e a → 0 ≤ a) →
    ∀ before e a, NewTime log before e a → Balanced log before e a

/-! ## The merge is the order by time and core -/

variable {log : List Entry}

theorem key_lt_iff {a b : Entry} : key a < key b ↔
    a.timestampNs < b.timestampNs ∨ a.timestampNs = b.timestampNs ∧ a.cpuId < b.cpuId :=
  Prod.Lex.toLex_lt_toLex

theorem key_le_iff {a b : Entry} : key a ≤ key b ↔
    a.timestampNs < b.timestampNs ∨ a.timestampNs = b.timestampNs ∧ a.cpuId ≤ b.cpuId :=
  Prod.Lex.toLex_le_toLex

theorem timestamp_le_of_key_le {a b : Entry} (h : key a ≤ key b) :
    a.timestampNs ≤ b.timestampNs := by
  rcases key_le_iff.mp h with hlt | heq
  · omega
  · omega

theorem inOrder_perm (log : List Entry) : (inOrder log).Perm log := List.mergeSort_perm _ _

theorem inOrder_sorted (log : List Entry) : (inOrder log).Pairwise fun a b => key a ≤ key b := by
  have h : (inOrder log).Pairwise fun a b => decide (key a ≤ key b) = true := by
    apply List.pairwise_mergeSort
    · intro a b c hab hbc
      exact decide_eq_true (le_trans (of_decide_eq_true hab) (of_decide_eq_true hbc))
    · intro a b
      rw [Bool.or_eq_true, decide_eq_true_eq, decide_eq_true_eq]
      exact le_total _ _
  exact h.imp fun hab => of_decide_eq_true hab

theorem key_injOn (h : DistinctTimes log) {a b : Entry} (ha : a ∈ log) (hb : b ∈ log)
    (heq : key a = key b) : a = b :=
  List.inj_on_of_nodup_map h ha hb heq

/-- Sorted permutations of the records are all the same. -/
theorem eq_inOrder (h : DistinctTimes log) {records : List Entry} (hperm : records.Perm log)
    (hsorted : records.Pairwise fun a b => key a ≤ key b) : records = inOrder log := by
  refine List.Perm.eq_of_pairwise ?_ hsorted (inOrder_sorted log) (hperm.trans (inOrder_perm log).symm)
  intro a b ha hb hab hba
  exact key_injOn h (hperm.subset ha) ((inOrder_perm log).subset hb) (le_antisymm hab hba)

theorem coreRecords_perm (log : List Entry) (cpu : Int) :
    (coreRecords log cpu).Perm (log.filter fun e => e.cpuId == cpu) := List.mergeSort_perm _ _

theorem cpuId_of_mem_coreRecords {cpu : Int} {e : Entry} (h : e ∈ coreRecords log cpu) :
    e.cpuId = cpu := by
  have hmem := (coreRecords_perm log cpu).subset h
  simpa using (List.mem_filter.mp hmem).2

theorem coreRecords_sorted (log : List Entry) (cpu : Int) :
    (coreRecords log cpu).Pairwise fun a b => key a ≤ key b := by
  have h : (coreRecords log cpu).Pairwise fun a b =>
      decide (a.timestampNs ≤ b.timestampNs) = true := by
    apply List.pairwise_mergeSort
    · intro a b c hab hbc
      simp only [decide_eq_true_eq] at *
      omega
    · intro a b
      simp only [Bool.or_eq_true, decide_eq_true_eq]
      omega
  refine h.imp_of_mem ?_
  intro a b ha hb hab
  have hcpu := (cpuId_of_mem_coreRecords ha).trans (cpuId_of_mem_coreRecords hb).symm
  have := of_decide_eq_true hab
  exact key_le_iff.mpr (by omega)

/-- The streams of the cores are the records, once each. -/
theorem flatMap_filter_perm (log : List Entry) {cpus : List Int} (hnodup : cpus.Nodup) :
    (cpus.flatMap fun cpu => log.filter fun e => e.cpuId == cpu).Perm
      (log.filter fun e => decide (e.cpuId ∈ cpus)) := by
  induction cpus with
  | nil => simp
  | cons cpu rest ih =>
    obtain ⟨hnew, hrest⟩ := List.nodup_cons.mp hnodup
    have hsplit := List.filter_append_perm (fun e => e.cpuId == cpu)
      (log.filter fun e => decide (e.cpuId ∈ cpu :: rest))
    have hfirst : (log.filter fun e => decide (e.cpuId ∈ cpu :: rest)).filter
        (fun e => e.cpuId == cpu) = log.filter fun e => e.cpuId == cpu := by
      rw [List.filter_filter]
      apply List.filter_congr
      intro e _
      by_cases he : e.cpuId = cpu <;> simp [he]
    have hothers : (log.filter fun e => decide (e.cpuId ∈ cpu :: rest)).filter
        (fun e => !(e.cpuId == cpu)) = log.filter fun e => decide (e.cpuId ∈ rest) := by
      rw [List.filter_filter]
      apply List.filter_congr
      intro e _
      by_cases he : e.cpuId = cpu
      · simp [he, hnew]
      · simp [he]
    rw [hfirst, hothers] at hsplit
    rw [List.flatMap_cons]
    exact ((ih hrest).append_left _).trans hsplit

theorem streams_perm (log : List Entry) : ((cores log).map (coreRecords log)).flatten.Perm log := by
  have hsorted : ((cores log).map (coreRecords log)).flatten.Perm
      ((cores log).flatMap fun cpu => log.filter fun e => e.cpuId == cpu) := by
    rw [← List.flatMap_def]
    exact List.Perm.flatMap_left _ fun cpu _ => coreRecords_perm log cpu
  have hall : (log.filter fun e => decide (e.cpuId ∈ cores log)) = log := by
    apply List.filter_eq_self.mpr
    intro e he
    exact decide_eq_true (List.mem_dedup.mpr (List.mem_map_of_mem he))
  have hfilter := flatMap_filter_perm log (List.nodup_dedup (log.map Entry.cpuId))
  exact hsorted.trans (hfilter.trans (List.Perm.of_eq hall))

theorem merged_eq_inOrder (h : DistinctTimes log) : merged log = inOrder log := by
  have hlength := (streams_perm log).length_eq
  refine eq_inOrder h ((mergeStreams_perm hlength).trans (streams_perm log)) ?_
  refine mergeStreams_sorted hlength ?_
  intro stream hstream
  obtain ⟨cpu, -, rfl⟩ := List.mem_map.mp hstream
  exact coreRecords_sorted log cpu

/-- The records of a core, in the order of the merge. -/
theorem filter_inOrder (h : DistinctTimes log) (cpu : Int) :
    ((inOrder log).filter fun e => e.cpuId == cpu) = coreRecords log cpu := by
  refine List.Perm.eq_of_pairwise ?_ ((inOrder_sorted log).filter _) (coreRecords_sorted log cpu)
    (((inOrder_perm log).filter _).trans (coreRecords_perm log cpu).symm)
  intro a b ha hb hab hba
  have hamem := (inOrder_perm log).subset (List.mem_filter.mp ha).1
  have hbmem := (List.mem_filter.mp ((coreRecords_perm log cpu).subset hb)).1
  exact key_injOn h hamem hbmem (le_antisymm hab hba)

theorem inOrder_strict (h : DistinctTimes log) :
    (inOrder log).Pairwise fun a b => key a < key b := by
  have hnodup : ((inOrder log).map key).Nodup := ((inOrder_perm log).map key).nodup_iff.mpr h
  exact ((inOrder_sorted log).and (List.pairwise_map.mp hnodup)).imp
    fun hab => lt_of_le_of_ne hab.1 hab.2

/-! ## The loop -/

/-- The records of a core among those before. -/
def ofCore (records : List Entry) (cpu : Int) : List Entry :=
  records.filter fun e => e.cpuId == cpu

/-- The running total: every core with its last sample. -/
def totalAt (log records : List Entry) : ℚ :=
  ((cores log).map fun cpu => lastBandwidth (ofCore records cpu)).sum

variable {before : List Entry} {e : Entry} {s : State}

theorem ofCore_concat (before : List Entry) (e : Entry) (cpu : Int) :
    ofCore (before ++ [e]) cpu =
      if cpu = e.cpuId then ofCore before cpu ++ [e] else ofCore before cpu := by
  by_cases h : cpu = e.cpuId
  · simp [ofCore, h]
  · simp [ofCore, h, Ne.symm h]

theorem ofCore_eq_nil : ofCore before e.cpuId = [] ↔ e.cpuId ∉ before.map Entry.cpuId := by
  simp [ofCore, List.filter_eq_nil_iff]

theorem lastBandwidth_concat {records : List Entry} {last : Entry}
    (h : records.getLast? = some last) (e : Entry) :
    lastBandwidth (records ++ [e]) = memoryBandwidth last e := by
  rw [List.getLast?_eq_head?_reverse] at h
  unfold lastBandwidth
  rw [List.reverse_append]
  cases hreverse : records.reverse with
  | nil => simp [hreverse] at h
  | cons first rest =>
    obtain rfl : first = last := by simpa [hreverse] using h
    rfl

theorem ticks_concat (seen : List Int) (before : List Entry) (e : Entry) :
    ticks seen (before ++ [e]) = ticks seen before ++
      if e.cpuId ∈ seen ∨ e.cpuId ∈ before.map Entry.cpuId then [e.timestampNs] else [] := by
  induction before generalizing seen with
  | nil => by_cases h : e.cpuId ∈ seen <;> simp [ticks, h]
  | cons r rest ih =>
    rw [List.cons_append, ticks, ticks]
    by_cases hseen : r.cpuId ∈ seen
    · rw [if_pos hseen, if_pos hseen, ih, List.cons_append]
      by_cases he : e.cpuId = r.cpuId
      · simp [he, hseen]
      · simp [he]
    · rw [if_neg hseen, if_neg hseen, ih]
      congr 1
      simp only [List.mem_cons, List.map_cons]
      congr 1
      simp only [eq_iff_iff]
      tauto

/-- What the state of the loop is after the records `before`. -/
structure Follows (log before : List Entry) (s : State) : Prop where
  last : ∀ cpu, s.lastState cpu = (ofCore before cpu).getLast?
  bandwidth : ∀ cpu, s.perCoreMemoryBandwidth cpu = lastBandwidth (ofCore before cpu)
  total : s.totalMemoryBandwidth = totalAt log before
  global : s.lastGlobalTimestamp = (ticks [] before).getLast?

/-- The intervals that a record gives rise to. -/
def intervalsAt (log before : List Entry) (e : Entry) : List Interval :=
  if e.cpuId ∈ before.map Entry.cpuId then
    newInterval (ticks [] before).getLast? e.timestampNs (totalAt log (before ++ [e]))
  else []

/-- Only the core of the record changes its part of the total. -/
theorem totalAt_concat (hcpu : e.cpuId ∈ cores log) :
    totalAt log (before ++ [e]) = totalAt log before - lastBandwidth (ofCore before e.cpuId) +
      lastBandwidth (ofCore before e.cpuId ++ [e]) := by
  have hsplit : ∀ records, totalAt log records = lastBandwidth (ofCore records e.cpuId) +
      (((cores log).erase e.cpuId).map fun cpu => lastBandwidth (ofCore records cpu)).sum :=
    fun records => (List.sum_map_erase _ hcpu).symm
  have hothers : (((cores log).erase e.cpuId).map fun cpu =>
        lastBandwidth (ofCore (before ++ [e]) cpu)) =
      ((cores log).erase e.cpuId).map fun cpu => lastBandwidth (ofCore before cpu) := by
    apply List.map_congr_left
    intro cpu hmem
    have hne := ((List.nodup_dedup _).mem_erase_iff.mp hmem).1
    rw [ofCore_concat, if_neg hne]
  rw [hsplit (before ++ [e]), hsplit before, hothers, ofCore_concat, if_pos rfl]
  linarith

theorem processEntry_first (h : Follows log before s) (hcpu : e.cpuId ∈ cores log)
    (hfirst : e.cpuId ∉ before.map Entry.cpuId) :
    Follows log (before ++ [e]) (processEntry s e) ∧
      (processEntry s e).intervals = s.intervals ++ intervalsAt log before e := by
  have hnone : ofCore before e.cpuId = [] := ofCore_eq_nil.mpr hfirst
  have hstate : s.lastState e.cpuId = none := by rw [h.last, hnone]; rfl
  simp only [processEntry, hstate, intervalsAt, if_neg hfirst, List.append_nil]
  refine ⟨⟨?_, ?_, ?_, ?_⟩, trivial⟩
  · intro cpu
    rw [ofCore_concat]
    by_cases hsame : cpu = e.cpuId
    · subst hsame
      simp [hnone]
    · simp [hsame, h.last]
  · intro cpu
    rw [ofCore_concat]
    by_cases hsame : cpu = e.cpuId
    · subst hsame
      simp [hnone, lastBandwidth]
    · simp [hsame, h.bandwidth]
  · rw [totalAt_concat hcpu, hnone, h.total]
    simp [lastBandwidth]
  · rw [ticks_concat, if_neg (by simpa using hfirst), List.append_nil]
    exact h.global

theorem processEntry_notFirst (h : Follows log before s) (hcpu : e.cpuId ∈ cores log)
    (hsorted : ∀ r ∈ before, key r < key e) (hold : e.cpuId ∈ before.map Entry.cpuId) :
    Follows log (before ++ [e]) (processEntry s e) ∧
      (processEntry s e).intervals = s.intervals ++ intervalsAt log before e := by
  obtain ⟨last, hlast⟩ : ∃ last, (ofCore before e.cpuId).getLast? = some last := by
    rw [← Option.isSome_iff_exists, List.getLast?_isSome]
    exact fun hnil => ofCore_eq_nil.mp hnil hold
  have hstate : s.lastState e.cpuId = some last := (h.last _).trans hlast
  have hlater : ¬ e.timestampNs - last.timestampNs ≤ 0 := by
    obtain ⟨hmem, hsame⟩ := List.mem_filter.mp (List.mem_of_getLast? hlast)
    have hlt := key_lt_iff.mp (hsorted last hmem)
    have hcore : last.cpuId = e.cpuId := by simpa using hsame
    omega
  have htotal : s.totalMemoryBandwidth - s.perCoreMemoryBandwidth e.cpuId + memoryBandwidth last e =
      totalAt log (before ++ [e]) := by
    rw [totalAt_concat hcpu, h.total, h.bandwidth, lastBandwidth_concat hlast]
  simp only [processEntry, hstate, if_neg hlater, intervalsAt, if_pos hold, htotal, h.global]
  refine ⟨⟨?_, ?_, rfl, ?_⟩, trivial⟩
  · intro cpu
    rw [ofCore_concat]
    by_cases hsame : cpu = e.cpuId
    · subst hsame
      simp
    · simp [hsame, h.last]
  · intro cpu
    rw [ofCore_concat]
    by_cases hsame : cpu = e.cpuId
    · subst hsame
      simp [lastBandwidth_concat hlast]
    · simp [hsame, h.bandwidth]
  · rw [ticks_concat, if_pos (Or.inr hold)]
    simp

/-- The intervals that the records `rest` give rise to after those before. -/
def intervalsFrom (log : List Entry) : List Entry → List Entry → List Interval
  | _, [] => []
  | before, e :: rest => intervalsAt log before e ++ intervalsFrom log (before ++ [e]) rest

theorem foldl_processEntry {rest : List Entry} (h : Follows log before s)
    (hcores : ∀ r ∈ rest, r.cpuId ∈ cores log)
    (hsorted : (before ++ rest).Pairwise fun a b => key a < key b) :
    (rest.foldl processEntry s).intervals = s.intervals ++ intervalsFrom log before rest := by
  induction rest generalizing before s with
  | nil => simp [intervalsFrom]
  | cons e rest ih =>
    have hbefore : ∀ r ∈ before, key r < key e :=
      fun r hr => (List.pairwise_append.mp hsorted).2.2 r hr e List.mem_cons_self
    have hstep : Follows log (before ++ [e]) (processEntry s e) ∧
        (processEntry s e).intervals = s.intervals ++ intervalsAt log before e := by
      have hcpu := hcores e List.mem_cons_self
      by_cases hold : e.cpuId ∈ before.map Entry.cpuId
      · exact processEntry_notFirst h hcpu hbefore hold
      · exact processEntry_first h hcpu hold
    rw [List.foldl_cons, ih hstep.1 (fun r hr => hcores r (List.mem_cons_of_mem _ hr))
      (by simpa using hsorted), hstep.2, intervalsFrom, List.append_assoc]

theorem follows_initial (log : List Entry) : Follows log [] initialState := by
  refine ⟨fun _ => rfl, fun _ => rfl, ?_, rfl⟩
  simp [totalAt, initialState, ofCore, lastBandwidth]

/-- Every attempt to write an interval, in order. -/
theorem attempts_eq (h : DistinctTimes log) :
    ((merged log).foldl processEntry initialState).intervals =
      intervalsFrom log [] (inOrder log) := by
  rw [merged_eq_inOrder h]
  refine foldl_processEntry (follows_initial log) ?_ (inOrder_strict h)
  intro r hr
  exact List.mem_dedup.mpr (List.mem_map_of_mem ((inOrder_perm log).subset hr))

theorem mem_intervalsFrom {rest : List Entry} {i : Interval} :
    i ∈ intervalsFrom log before rest ↔
      ∃ mid e after, rest = mid ++ e :: after ∧ i ∈ intervalsAt log (before ++ mid) e := by
  induction rest generalizing before with
  | nil => simp [intervalsFrom]
  | cons r rest ih =>
    rw [intervalsFrom, List.mem_append, ih]
    constructor
    · rintro (hfirst | ⟨mid, e, after, rfl, hmem⟩)
      · exact ⟨[], r, rest, rfl, by simpa using hfirst⟩
      · exact ⟨r :: mid, e, after, rfl, by simpa using hmem⟩
    · rintro ⟨mid, e, after, heq, hmem⟩
      cases mid with
      | nil =>
        obtain ⟨rfl, rfl⟩ := List.cons.inj heq
        exact Or.inl (by simpa using hmem)
      | cons first mid =>
        obtain ⟨rfl, rfl⟩ := List.cons.inj heq
        exact Or.inr ⟨mid, e, after, rfl, by simpa using hmem⟩

theorem mem_intervalsAt {i : Interval} : i ∈ intervalsAt log before e ↔
    ∃ a, e.cpuId ∈ before.map Entry.cpuId ∧ (ticks [] before).getLast? = some a ∧
      a < e.timestampNs ∧ i = ⟨a, e.timestampNs, totalAt log (before ++ [e])⟩ := by
  unfold intervalsAt newInterval
  by_cases hold : e.cpuId ∈ before.map Entry.cpuId
  · cases hstart : (ticks [] before).getLast? with
    | none => simp
    | some a => by_cases hlater : a < e.timestampNs <;> simp [hlater, hold]
  · simp [hold]

/-- The attempts are exactly the records with a new time. -/
theorem mem_attempts {i : Interval} : i ∈ intervalsFrom log [] (inOrder log) ↔
    ∃ before e a, NewTime log before e a ∧
      i = ⟨a, e.timestampNs, totalAt log (before ++ [e])⟩ := by
  rw [mem_intervalsFrom]
  constructor
  · rintro ⟨before, e, after, horder, hmem⟩
    obtain ⟨a, hold, hstart, hlater, rfl⟩ := mem_intervalsAt.mp hmem
    exact ⟨before, e, a, ⟨⟨after, horder⟩, hold, hstart, hlater⟩, rfl⟩
  · rintro ⟨before, e, a, ⟨⟨after, horder⟩, hold, hstart, hlater⟩, rfl⟩
    exact ⟨before, e, after, horder, mem_intervalsAt.mpr ⟨a, hold, hstart, hlater, rfl⟩⟩

/-! ## The times of the records that are not first -/

theorem ticks_sublist (seen : List Int) (records : List Entry) :
    (ticks seen records).Sublist (records.map Entry.timestampNs) := by
  induction records generalizing seen with
  | nil => exact List.Sublist.slnil
  | cons e rest ih =>
    rw [ticks, List.map_cons]
    split_ifs
    · exact (ih _).cons_cons _
    · exact (ih _).cons _

theorem ticks_prefix (before mid : List Entry) : ticks [] before <+: ticks [] (before ++ mid) := by
  induction mid using List.reverseRecOn with
  | nil => simp
  | append_singleton mid e ih =>
    rw [← List.append_assoc, ticks_concat]
    exact ih.trans (List.prefix_append _ _)

theorem le_lastTick {records : List Entry} (hsorted : records.Pairwise fun a b => key a < key b)
    {a t : Int} (hlast : (ticks [] records).getLast? = some a) (ht : t ∈ ticks [] records) :
    t ≤ a := by
  have htimes : (records.map Entry.timestampNs).Pairwise (· ≤ ·) :=
    List.pairwise_map.mpr (hsorted.imp fun hab => timestamp_le_of_key_le (le_of_lt hab))
  have hticks := htimes.sublist (ticks_sublist [] records)
  obtain ⟨front, hfront⟩ := List.getLast?_eq_some_iff.mp hlast
  rw [hfront] at hticks ht
  rcases List.mem_append.mp ht with hold | hnew
  · exact (List.pairwise_append.mp hticks).2.2 t hold a (List.mem_singleton_self a)
  · exact le_of_eq (List.mem_singleton.mp hnew)

theorem mem_ticks_of_seen {seen : List Int} {cpu : Int} (hseen : cpu ∈ seen)
    {records : List Entry} {r : Entry} (hr : r ∈ ofCore records cpu) :
    r.timestampNs ∈ ticks seen records := by
  induction records generalizing seen with
  | nil => cases hr
  | cons e rest ih =>
    have hcase : (r = e ∧ e.cpuId = cpu) ∨ r ∈ ofCore rest cpu := by
      simp only [ofCore, List.mem_filter, List.mem_cons] at hr ⊢
      obtain ⟨rfl | hmem, hcpu⟩ := hr
      · exact Or.inl ⟨rfl, by simpa using hcpu⟩
      · exact Or.inr ⟨hmem, hcpu⟩
    rw [ticks]
    rcases hcase with ⟨rfl, hcpu⟩ | hmem
    · rw [if_pos (hcpu ▸ hseen)]
      exact List.mem_cons_self
    · split_ifs
      · exact List.mem_cons_of_mem _ (ih hseen hmem)
      · exact ih (List.mem_cons_of_mem _ hseen) hmem

/-- All records of a core but its first have their times among the ticks. -/
theorem mem_ticks_of_tail (seen : List Int) {cpu : Int} {records : List Entry} {r : Entry}
    (hr : r ∈ (ofCore records cpu).tail) : r.timestampNs ∈ ticks seen records := by
  induction records generalizing seen with
  | nil => cases hr
  | cons e rest ih =>
    rw [ticks]
    by_cases hcpu : e.cpuId = cpu
    · have htail : (ofCore (e :: rest) cpu).tail = ofCore rest cpu := by simp [ofCore, hcpu]
      rw [htail] at hr
      split_ifs with hseen
      · exact List.mem_cons_of_mem _ (mem_ticks_of_seen (hcpu ▸ hseen) hr)
      · exact mem_ticks_of_seen (by simp [hcpu]) hr
    · have hsame : ofCore (e :: rest) cpu = ofCore rest cpu := by simp [ofCore, hcpu]
      rw [hsame] at hr
      split_ifs
      · exact List.mem_cons_of_mem _ (ih seen hr)
      · exact ih (e.cpuId :: seen) hr

/-! ## One interval -/

variable {a : Int}

/-- What is known where an interval is written. -/
structure AtNewTime (log before : List Entry) (e : Entry) (after : List Entry) (a : Int) : Prop where
  distinct : DistinctTimes log
  order : inOrder log = before ++ e :: after
  notFirst : e.cpuId ∈ before.map Entry.cpuId
  start : (ticks [] before).getLast? = some a
  later : a < e.timestampNs

variable {after : List Entry}

theorem AtNewTime.sorted (h : AtNewTime log before e after a) :
    (before ++ e :: after).Pairwise fun a b => key a < key b := by
  rw [← h.order]
  exact inOrder_strict h.distinct

theorem AtNewTime.coreRecords_eq (h : AtNewTime log before e after a) (cpu : Int) :
    coreRecords log cpu = ofCore before cpu ++ ofCore (e :: after) cpu := by
  rw [← filter_inOrder h.distinct, h.order, List.filter_append]
  rfl

/-- From the record on, every time is at least its own. -/
theorem AtNewTime.le_of_mem (h : AtNewTime log before e after a) {r : Entry}
    (hr : r ∈ e :: after) : e.timestampNs ≤ r.timestampNs := by
  rcases List.mem_cons.mp hr with rfl | hmem
  · exact le_refl _
  · have hafter := List.pairwise_cons.mp (List.pairwise_append.mp h.sorted).2.1
    exact timestamp_le_of_key_le (le_of_lt (hafter.1 r hmem))

/-- The last sample of every core before the record has ended by `a`. -/
theorem AtNewTime.lastBandwidth_eq (h : AtNewTime log before e after a) (cpu : Int) :
    lastBandwidth (ofCore before cpu) = stale (coreRecords log cpu) a := by
  have hlate : (ofCore (e :: after) cpu).filter (fun r => decide (r.timestampNs ≤ a)) = [] := by
    apply List.filter_eq_nil_iff.mpr
    intro r hr
    have hle := h.le_of_mem (List.mem_filter.mp hr).1
    have hlater := h.later
    simp only [decide_eq_true_eq]
    omega
  have hsorted := (List.pairwise_append.mp h.sorted).1
  rw [stale, h.coreRecords_eq, List.filter_append, hlate, List.append_nil]
  cases hcore : ofCore before cpu with
  | nil => rfl
  | cons first rest =>
    have hrest : ∀ r ∈ rest, r.timestampNs ≤ a := by
      intro r hr
      exact le_lastTick hsorted h.start (mem_ticks_of_tail [] (by rw [hcore]; exact hr))
    cases rest with
    | nil => by_cases hfirst : first.timestampNs ≤ a <;> simp [lastBandwidth, hfirst]
    | cons second rest =>
      -- there are two records, so that the first one is early as well
      have hfirst : first.timestampNs ≤ a := by
        have hpair : (first :: second :: rest).Pairwise fun a b => key a < key b :=
          hcore ▸ hsorted.filter _
        have hlt := (List.pairwise_cons.mp hpair).1 second List.mem_cons_self
        exact le_trans (timestamp_le_of_key_le (le_of_lt hlt)) (hrest second List.mem_cons_self)
      have hall : (first :: second :: rest).filter (fun r => decide (r.timestampNs ≤ a)) =
          first :: second :: rest := by
        apply List.filter_eq_self.mpr
        intro r hr
        rcases List.mem_cons.mp hr with rfl | hmem
        · exact decide_eq_true hfirst
        · exact decide_eq_true (hrest r hmem)
      rw [hall]

theorem samples_append (front : List Entry) (last e : Entry) (back : List Entry) :
    samples (front ++ [last] ++ e :: back) =
      samples (front ++ [last]) ++ (last, e) :: samples (e :: back) := by
  induction front with
  | nil => rfl
  | cons r rest ih =>
    cases rest with
    | nil => rfl
    | cons r' rest =>
      have htail : samples (r :: (r' :: rest ++ [last] ++ e :: back)) =
          (r, r') :: samples (r' :: rest ++ [last] ++ e :: back) := rfl
      rw [List.cons_append, List.cons_append, htail, ih]
      rfl

theorem mem_samples {records : List Entry} {s : Entry × Entry} (h : s ∈ samples records) :
    s.1 ∈ records ∧ s.2 ∈ records := by
  have hmem := List.of_mem_zip h
  exact ⟨hmem.1, List.mem_of_mem_tail hmem.2⟩

/-- The core of the record is in the sample that ends with it, unless this starts late. -/
theorem AtNewTime.running_own (h : AtNewTime log before e after a) {last : Entry}
    (hlast : (ofCore before e.cpuId).getLast? = some last) :
    running (coreRecords log e.cpuId) a e.timestampNs =
      if last.timestampNs ≤ a then memoryBandwidth last e else 0 := by
  obtain ⟨front, hfront⟩ := List.getLast?_eq_some_iff.mp hlast
  have hback : ofCore (e :: after) e.cpuId = e :: ofCore after e.cpuId := by simp [ofCore]
  have hearly : (samples (front ++ [last])).filter (fun s =>
      decide (s.1.timestampNs ≤ a) && decide (e.timestampNs ≤ s.2.timestampNs)) = [] := by
    apply List.filter_eq_nil_iff.mpr
    intro s hs
    have hmem := (mem_samples hs).2
    rw [← hfront] at hmem
    obtain ⟨hbefore, hcpu⟩ := List.mem_filter.mp hmem
    have hlt := key_lt_iff.mp
      ((List.pairwise_append.mp h.sorted).2.2 s.2 hbefore e List.mem_cons_self)
    have hsame : s.2.cpuId = e.cpuId := by simpa using hcpu
    simp only [Bool.and_eq_true, decide_eq_true_eq]
    omega
  have hlate : (samples (e :: ofCore after e.cpuId)).filter (fun s =>
      decide (s.1.timestampNs ≤ a) && decide (e.timestampNs ≤ s.2.timestampNs)) = [] := by
    apply List.filter_eq_nil_iff.mpr
    intro s hs
    have hmem := (mem_samples hs).1
    rw [← hback] at hmem
    have hle := h.le_of_mem (List.mem_filter.mp hmem).1
    have hlater := h.later
    simp only [Bool.and_eq_true, decide_eq_true_eq]
    omega
  rw [running, h.coreRecords_eq, hfront, hback, samples_append, List.filter_append, hearly,
    List.nil_append, List.filter_cons, hlate]
  by_cases hstart : last.timestampNs ≤ a <;> simp [hstart]

/-- The total that is written is the right one exactly if the stale samples are balanced. -/
theorem AtNewTime.total_eq_iff (h : AtNewTime log before e after a) :
    totalAt log (before ++ [e]) = expectedTotal log a e.timestampNs ↔ Balanced log before e a := by
  have hcpu : e.cpuId ∈ cores log := by
    apply List.mem_dedup.mpr
    apply List.mem_map_of_mem
    apply (inOrder_perm log).subset
    rw [h.order]
    simp
  obtain ⟨last, hlast⟩ : ∃ last, (ofCore before e.cpuId).getLast? = some last := by
    rw [← Option.isSome_iff_exists, List.getLast?_isSome]
    exact fun hnil => ofCore_eq_nil.mp hnil h.notFirst
  have hwritten : totalAt log (before ++ [e]) = memoryBandwidth last e +
      (((cores log).erase e.cpuId).map fun cpu => stale (coreRecords log cpu) a).sum := by
    rw [totalAt, ← List.sum_map_erase _ hcpu, ofCore_concat, if_pos rfl, lastBandwidth_concat hlast]
    congr 2
    apply List.map_congr_left
    intro cpu hmem
    have hne := ((List.nodup_dedup _).mem_erase_iff.mp hmem).1
    rw [ofCore_concat, if_neg hne, h.lastBandwidth_eq]
  have hexpected : expectedTotal log a e.timestampNs =
      (if last.timestampNs ≤ a then memoryBandwidth last e else 0) +
      (((cores log).erase e.cpuId).map fun cpu =>
        running (coreRecords log cpu) a e.timestampNs).sum := by
    rw [expectedTotal, ← List.sum_map_erase _ hcpu, h.running_own hlast]
  have hown : lateSample before e a =
      if a < last.timestampNs then memoryBandwidth last e else 0 := by
    have hcore : (before.filter fun r => r.cpuId == e.cpuId).getLast? = some last := hlast
    simp only [lateSample, hcore]
  rw [hwritten, hexpected, Balanced, hown]
  by_cases hstart : last.timestampNs ≤ a
  · rw [if_pos hstart, if_neg (not_lt.mpr hstart)]
    constructor <;> intro <;> linarith
  · rw [if_neg hstart, if_pos (not_le.mp hstart)]
    constructor <;> intro <;> linarith

/-! ## The whole timeline -/

/-- Intervals are attempted in the order of their starts. -/
theorem intervalsFrom_sorted {rest : List Entry}
    (hsorted : (before ++ rest).Pairwise fun a b => key a < key b) :
    (intervalsFrom log before rest).Pairwise fun i j => i.start ≤ j.start := by
  induction rest generalizing before with
  | nil => exact List.Pairwise.nil
  | cons e rest ih =>
    rw [intervalsFrom]
    refine List.pairwise_append.mpr ⟨?_, ih (by simpa using hsorted), ?_⟩
    · unfold intervalsAt newInterval
      split_ifs
      · split
        · split_ifs
          · exact List.pairwise_singleton _ _
          · exact List.Pairwise.nil
        · exact List.Pairwise.nil
      · exact List.Pairwise.nil
    · intro i hi j hj
      obtain ⟨a, -, hstart, -, rfl⟩ := mem_intervalsAt.mp hi
      obtain ⟨mid, e', after, rfl, hmem⟩ := mem_intervalsFrom.mp hj
      obtain ⟨a', -, hstart', -, rfl⟩ := mem_intervalsAt.mp hmem
      have hpre : ticks [] before <+: ticks [] (before ++ [e] ++ mid) := by
        rw [List.append_assoc]
        exact ticks_prefix before _
      refine le_lastTick ?_ hstart' (hpre.subset (List.mem_of_getLast? hstart))
      have hall : (before ++ [e] ++ mid ++ e' :: after).Pairwise fun a b => key a < key b := by
        simpa using hsorted
      exact (List.pairwise_append.mp hall).1

/-- The file holds all attempts, or none if one of them has a negative start. -/
theorem mem_parseHrperfLog (h : DistinctTimes log) {i : Interval} :
    i ∈ parseHrperfLog log ↔ i ∈ intervalsFrom log [] (inOrder log) ∧
      ∀ j ∈ intervalsFrom log [] (inOrder log), 0 ≤ j.start := by
  have hsorted : (intervalsFrom log [] (inOrder log)).Pairwise fun i j => i.start ≤ j.start :=
    intervalsFrom_sorted (inOrder_strict h)
  rw [parseHrperfLog, attempts_eq h]
  generalize intervalsFrom log [] (inOrder log) = attempts at hsorted
  by_cases hall : ∀ j ∈ attempts, 0 ≤ j.start
  · have hself : attempts.takeWhile (fun i => decide (0 ≤ i.start)) = attempts :=
      List.takeWhile_eq_self_iff.mpr fun j hj => decide_eq_true (hall j hj)
    rw [hself]
    exact ⟨fun hi => ⟨hi, hall⟩, fun hi => hi.1⟩
  · have hnone : attempts.takeWhile (fun i => decide (0 ≤ i.start)) = [] := by
      cases attempts with
      | nil => rfl
      | cons first rest =>
        -- the first start is the least
        have hfirst : ¬ 0 ≤ first.start := by
          intro hpos
          apply hall
          intro j hj
          rcases List.mem_cons.mp hj with rfl | hmem
          · exact hpos
          · exact le_trans hpos ((List.pairwise_cons.mp hsorted).1 j hmem)
        rw [List.takeWhile_cons, if_neg (by simpa using hfirst)]
    rw [hnone]
    exact ⟨fun hi => absurd hi List.not_mem_nil, fun hi => absurd hi.2 hall⟩

/-- For every log with distinct times on each core, all totals are right exactly if the stale
samples are balanced wherever an interval is written. -/
theorem timelineExact_iff (log : List Entry) (h : DistinctTimes log) :
    TimelineExact log ↔ StaleBalanced log := by
  constructor
  · intro hexact hpositive before e a hnew
    obtain ⟨after, horder⟩ := hnew.order
    have hat : AtNewTime log before e after a :=
      ⟨h, horder, hnew.notFirst, hnew.start, hnew.later⟩
    refine hat.total_eq_iff.mp (hexact ⟨a, e.timestampNs, totalAt log (before ++ [e])⟩
      ((mem_parseHrperfLog h).mpr ⟨?_, ?_⟩))
    · exact mem_attempts.mpr ⟨before, e, a, hnew, rfl⟩
    · intro j hj
      obtain ⟨before', e', a', hnew', rfl⟩ := mem_attempts.mp hj
      exact hpositive before' e' a' hnew'
  · intro hbalanced i hi
    obtain ⟨hattempt, hpositive⟩ := (mem_parseHrperfLog h).mp hi
    obtain ⟨before, e, a, hnew, rfl⟩ := mem_attempts.mp hattempt
    obtain ⟨after, horder⟩ := hnew.order
    have hat : AtNewTime log before e after a :=
      ⟨h, horder, hnew.notFirst, hnew.start, hnew.later⟩
    refine hat.total_eq_iff.mpr (hbalanced ?_ before e a hnew)
    intro before' e' a' hnew'
    exact hpositive _ (mem_attempts.mpr ⟨before', e', a', hnew', rfl⟩)

/-- A log that is in order need not be sorted to be read. -/
theorem inOrder_of_sorted (hsorted : log.Pairwise fun a b => key a ≤ key b) : inOrder log = log :=
  List.mergeSort_of_pairwise (hsorted.imp fun hab => decide_eq_true hab)

theorem coreRecords_of_sorted (hsorted : log.Pairwise fun a b => key a ≤ key b) (cpu : Int) :
    coreRecords log cpu = ofCore log cpu :=
  List.mergeSort_of_pairwise ((hsorted.filter _).imp fun hab =>
    decide_eq_true (timestamp_le_of_key_le hab))

/-- Two cores that share every poll. The second one never changes its rate. -/
def steadyLog : List Entry :=
  [⟨0, 1000, 0, 0, 0, 0, 0⟩, ⟨1, 1000, 0, 0, 0, 0, 0⟩, ⟨0, 2000, 0, 0, 0, 1, 0⟩,
    ⟨1, 2000, 0, 0, 0, 4, 0⟩, ⟨0, 3000, 0, 0, 0, 3, 0⟩, ⟨1, 3000, 0, 0, 0, 8, 0⟩]

theorem steadyLog_sorted : steadyLog.Pairwise fun a b => key a ≤ key b := by decide

theorem steadyLog_distinct : DistinctTimes steadyLog := by
  unfold DistinctTimes
  decide

theorem timelineExact_steady : TimelineExact steadyLog ∧ StaleBalanced steadyLog := by
  have hexact : TimelineExact steadyLog := by
    intro i hi
    have hattempt := ((mem_parseHrperfLog steadyLog_distinct).mp hi).1
    rw [inOrder_of_sorted steadyLog_sorted] at hattempt
    have hone : intervalsFrom steadyLog [] steadyLog = [⟨2000, 3000, 384⟩] := by decide +kernel
    rw [hone, List.mem_singleton] at hattempt
    subst hattempt
    simp only [expectedTotal, coreRecords_of_sorted steadyLog_sorted]
    decide +kernel
  exact ⟨hexact, (timelineExact_iff steadyLog steadyLog_distinct).mp hexact⟩

/-- The same with a second core that gets slower. -/
def slowingLog : List Entry :=
  [⟨0, 1000, 0, 0, 0, 0, 0⟩, ⟨1, 1000, 0, 0, 0, 0, 0⟩, ⟨0, 2000, 0, 0, 0, 1, 0⟩,
    ⟨1, 2000, 0, 0, 0, 4, 0⟩, ⟨0, 3000, 0, 0, 0, 3, 0⟩, ⟨1, 3000, 0, 0, 0, 5, 0⟩]

theorem slowingLog_sorted : slowingLog.Pairwise fun a b => key a ≤ key b := by decide

/-- From 2000 to 3000 the cores have 128 and 64 bytes per microsecond, but 384 is written. -/
theorem stale_sample_counts : ¬ ∀ log, DistinctTimes log → TimelineExact log := by
  intro hall
  have hdistinct : DistinctTimes slowingLog := by
    unfold DistinctTimes
    decide
  have hone : intervalsFrom slowingLog [] (inOrder slowingLog) = [⟨2000, 3000, 384⟩] := by
    rw [inOrder_of_sorted slowingLog_sorted]
    decide +kernel
  have hmem : ⟨2000, 3000, 384⟩ ∈ parseHrperfLog slowingLog := by
    rw [mem_parseHrperfLog hdistinct, hone]
    exact ⟨List.mem_singleton_self _, by decide⟩
  have htotal := hall slowingLog hdistinct _ hmem
  simp only [expectedTotal, coreRecords_of_sorted slowingLog_sorted] at htotal
  revert htotal
  decide +kernel

end TotalBandwidth
