import Hiresperf.PerCoreMerge
import Hiresperf.PollDifferences
import Mathlib.Tactic.Ring

/-!
# The entries of the cores

The other half of `ldb_analysis/compute_per_core_performance.py`: beside the total
bandwidth it collects the rates of each core between two records. A record at the
time of the one before it is skipped and does not become the last state, so that what
it counted is in the next entry. `parse_hrp.py`, which has the same rates in its
table, drops such a row but takes the differences of the next one to it. The rates
here are the exact quotients; what the file of a core keeps of them is in `CoreFiles`.
-/

namespace PerCoreEntries

open LogParsing PerCoreMerge TotalBandwidth
open PollDifferences (diffsOf recordsOf sum_consecutive)

/-! ## The script -/

structure PerfEntry where
  timestampNs : Int
  stallsPerUs : ℚ
  instRetireRate : ℚ
  cpuUsage : ℚ
  llcMissesRate : ℚ
  swPrefetchRate : ℚ
  memoryBandwidthBytesPerUs : ℚ
  timeDeltaNs : Int

/-- `tsc_per_us`, from a frequency that is not 0. -/
abbrev TscPerUs := { f : ℚ // 0 < f }

def timeDeltaNs (last current : Entry) : Int := current.timestampNs - last.timestampNs

def timeDeltaUs (last current : Entry) : ℚ := (timeDeltaNs last current : ℚ) / 1000

def sinceLast (counter : Entry → Nat) (last current : Entry) : ℚ :=
  (((counter current : Int) - counter last : Int) : ℚ)

def perfEntry (tscPerUs : TscPerUs) (last current : Entry) : PerfEntry where
  timestampNs := current.timestampNs
  stallsPerUs := sinceLast Entry.stallMem last current / timeDeltaUs last current
  instRetireRate := sinceLast Entry.instRetire last current / timeDeltaUs last current
  cpuUsage := sinceLast Entry.cpuUnhalt last current / (tscPerUs.val * timeDeltaUs last current)
  llcMissesRate := sinceLast Entry.llcMisses last current / timeDeltaUs last current
  swPrefetchRate := sinceLast Entry.swPrefetch last current / timeDeltaUs last current
  memoryBandwidthBytesPerUs := memoryBandwidth last current
  timeDeltaNs := timeDeltaNs last current

/-- The state of the loop with `perf_data_per_core`. -/
structure CoreState where
  state : State
  perfDataPerCore : Int → List PerfEntry

/-- The entry that a record adds to its core, if any. -/
def newEntry (tscPerUs : TscPerUs) (s : State) (e : Entry) : Option PerfEntry :=
  (s.lastState e.cpuId).bind fun last =>
    if e.timestampNs - last.timestampNs ≤ 0 then none else some (perfEntry tscPerUs last e)

def processCore (tscPerUs : TscPerUs) (s : CoreState) (e : Entry) : CoreState where
  state := processEntry s.state e
  perfDataPerCore := Function.update s.perfDataPerCore e.cpuId
    (s.perfDataPerCore e.cpuId ++ (newEntry tscPerUs s.state e).toList)

def afterCore (tscPerUs : TscPerUs) (records : List Entry) : CoreState :=
  records.foldl (processCore tscPerUs) ⟨initialState, fun _ => []⟩

/-- `perf_data_per_core` after the loop over the heap, before anything is packed; `none` if the
loop ends with an error. -/
def perfDataPerCore (tscPerUs : TscPerUs) (log : List Entry) :
    Option (List (Int × List PerfEntry)) :=
  if (heapLoop log).raised then none
  else some ((cores log).map fun cpu =>
    (cpu, (afterCore tscPerUs (merged log)).perfDataPerCore cpu))

/-! ## The entries of a core -/

/-- The records that become the last state, after `last`. -/
def keptAfter (last : Entry) : List Entry → List Entry
  | [] => []
  | e :: rest =>
    if e.timestampNs - last.timestampNs ≤ 0 then keptAfter last rest else e :: keptAfter e rest

/-- The first record at each time. -/
def kept : List Entry → List Entry
  | [] => []
  | e :: rest => e :: keptAfter e rest

theorem keptAfter_concat {first last : Entry} {records : List Entry}
    (hlast : (first :: keptAfter first records).getLast? = some last) (e : Entry) :
    first :: keptAfter first (records ++ [e]) = (first :: keptAfter first records) ++
      if e.timestampNs - last.timestampNs ≤ 0 then [] else [e] := by
  induction records generalizing first with
  | nil =>
    obtain rfl : first = last := by simpa [keptAfter] using hlast
    rfl
  | cons r rest ih =>
    by_cases hr : r.timestampNs - first.timestampNs ≤ 0
    · simp only [List.cons_append, keptAfter, if_pos hr] at hlast ⊢
      exact ih hlast
    · simp only [List.cons_append, keptAfter, if_neg hr] at hlast ⊢
      exact congrArg (first :: ·) (ih (by simpa using hlast))

theorem eq_nil_of_kept {records : List Entry} (h : (kept records).getLast? = none) :
    records = [] := by
  cases records with
  | nil => rfl
  | cons r rest => exact absurd (List.getLast?_eq_none_iff.mp h) (List.cons_ne_nil _ _)

theorem kept_concat {records : List Entry} {last : Entry}
    (hlast : (kept records).getLast? = some last) (e : Entry) :
    kept (records ++ [e]) =
      kept records ++ if e.timestampNs - last.timestampNs ≤ 0 then [] else [e] := by
  cases records with
  | nil => simp [kept] at hlast
  | cons r rest => exact keptAfter_concat hlast e

theorem consecutive_concat {A : Type} {l : List A} {last : A} (hlast : l.getLast? = some last)
    (x : A) : consecutive (l ++ [x]) = consecutive l ++ [(last, x)] := by
  induction l with
  | nil => simp at hlast
  | cons a rest ih =>
    cases rest with
    | nil =>
      obtain rfl : a = last := by simpa using hlast
      rfl
    | cons b rest =>
      have hstep : ∀ l : List A, consecutive (a :: b :: l) = (a, b) :: consecutive (b :: l) :=
        fun _ => rfl
      have hrest : consecutive (b :: (rest ++ [x])) = consecutive (b :: rest) ++ [(last, x)] :=
        ih (by simpa using hlast)
      rw [List.cons_append, List.cons_append, hstep, hstep, hrest, List.cons_append]

/-- What is known of a core once `records` have been taken from the heap. -/
structure CoreFollows (tscPerUs : TscPerUs) (records : List Entry) (s : CoreState) : Prop where
  last : ∀ cpu, s.state.lastState cpu = (kept (ofCore records cpu)).getLast?
  entries : ∀ cpu, s.perfDataPerCore cpu =
    (consecutive (kept (ofCore records cpu))).map fun p => perfEntry tscPerUs p.1 p.2

theorem processEntry_lastState (s : State) (e : Entry) (cpu : Int) :
    (processEntry s e).lastState cpu =
      if cpu = e.cpuId then
        match s.lastState e.cpuId with
        | none => some e
        | some last => if e.timestampNs - last.timestampNs ≤ 0 then some last else some e
      else s.lastState cpu := by
  rw [processEntry]
  cases hlast : s.lastState e.cpuId with
  | none =>
    by_cases h : cpu = e.cpuId
    · simp [h]
    · simp [h]
  | some last =>
    by_cases htime : e.timestampNs - last.timestampNs ≤ 0
    · by_cases h : cpu = e.cpuId
      · simp [htime, h, hlast]
      · simp [htime, h]
    · by_cases h : cpu = e.cpuId
      · simp [htime, h]
      · simp [htime, h]

theorem CoreFollows.processCore {tscPerUs : TscPerUs} {records : List Entry} {s : CoreState}
    (h : CoreFollows tscPerUs records s) (e : Entry) :
    CoreFollows tscPerUs (records ++ [e]) (processCore tscPerUs s e) := by
  have hown := h.last e.cpuId
  constructor
  case last =>
    intro cpu
    rw [PerCoreEntries.processCore, processEntry_lastState, ofCore_concat]
    split_ifs with hcpu
    · subst hcpu
      cases hlast : s.state.lastState e.cpuId with
      | none =>
        have hnil : ofCore records e.cpuId = [] := eq_nil_of_kept (hown.symm.trans hlast)
        simp [hnil, kept, keptAfter]
      | some last =>
        have hsome : (kept (ofCore records e.cpuId)).getLast? = some last := hown.symm.trans hlast
        rw [kept_concat hsome]
        dsimp only
        split_ifs with htime
        · rw [List.append_nil, hsome]
        · simp
    · exact h.last cpu
  case entries =>
    intro cpu
    rw [PerCoreEntries.processCore, ofCore_concat]
    by_cases hcpu : cpu = e.cpuId
    · subst hcpu
      rw [if_pos rfl]
      dsimp only
      rw [Function.update_self, h.entries, newEntry]
      cases hlast : s.state.lastState e.cpuId with
      | none =>
        have hnil : ofCore records e.cpuId = [] := eq_nil_of_kept (hown.symm.trans hlast)
        simp [hnil, kept, keptAfter, consecutive]
      | some last =>
        have hsome : (kept (ofCore records e.cpuId)).getLast? = some last := hown.symm.trans hlast
        rw [kept_concat hsome, Option.bind_some]
        split_ifs with htime
        · simp
        · rw [consecutive_concat hsome, List.map_append]
          rfl
    · rw [if_neg hcpu]
      dsimp only
      rw [Function.update_of_ne hcpu]
      exact h.entries cpu

theorem afterCore_follows (tscPerUs : TscPerUs) (records : List Entry) :
    CoreFollows tscPerUs records (afterCore tscPerUs records) := by
  induction records using List.reverseRecOn with
  | nil => exact ⟨fun _ => rfl, fun _ => rfl⟩
  | append_singleton records e ih =>
    rw [afterCore, List.foldl_append]
    exact ih.processCore e

/-- The state of `TotalBandwidth` is the one of this loop without the entries. -/
theorem afterCore_state (tscPerUs : TscPerUs) (records : List Entry) :
    (afterCore tscPerUs records).state = after records := by
  induction records using List.reverseRecOn with
  | nil => rfl
  | append_singleton records e ih =>
    rw [afterCore, List.foldl_append, after_concat, ← ih]
    rfl

theorem ofCore_merged (log : List Entry) (cpu : Int) :
    ofCore (merged log) cpu = coreRecords log cpu := by
  rw [← ofStream_merged]
  apply List.filter_congr
  intro e _
  rw [Bool.eq_iff_iff, decide_eq_true_iff, beq_iff_eq]

/-- A core has an entry for each two neighbours among the records kept. -/
def coreFile (tscPerUs : TscPerUs) (log : List Entry) (cpu : Int) : List PerfEntry :=
  (consecutive (kept (coreRecords log cpu))).map fun p => perfEntry tscPerUs p.1 p.2

theorem afterCore_entries (tscPerUs : TscPerUs) (log : List Entry) (cpu : Int) :
    (afterCore tscPerUs (merged log)).perfDataPerCore cpu = coreFile tscPerUs log cpu := by
  rw [(afterCore_follows tscPerUs (merged log)).entries, ofCore_merged, coreFile]

/-! ## What the entries add up to -/

theorem keptAfter_chain (first : Entry) (records : List Entry) :
    (first :: keptAfter first records).IsChain fun a b => a.timestampNs < b.timestampNs := by
  induction records generalizing first with
  | nil => exact List.isChain_singleton _
  | cons r rest ih =>
    simp only [keptAfter]
    split_ifs with hr
    · exact ih first
    · exact List.isChain_cons_cons.mpr ⟨by omega, ih r⟩

theorem kept_chain (records : List Entry) :
    (kept records).IsChain fun a b => a.timestampNs < b.timestampNs := by
  cases records with
  | nil => exact List.isChain_nil
  | cons r rest => exact keptAfter_chain r rest

theorem keptAfter_sublist (first : Entry) (records : List Entry) :
    (keptAfter first records).Sublist records := by
  induction records generalizing first with
  | nil => exact List.Sublist.slnil
  | cons r rest ih =>
    simp only [keptAfter]
    split_ifs
    · exact (ih first).cons r
    · exact (ih r).cons_cons r

/-- A rate times the duration of its entry. -/
def amount (rate : PerfEntry → ℚ) (p : PerfEntry) : ℚ := rate p * ((p.timeDeltaNs : ℚ) / 1000)

/-- The rates of a core over its entries, in total. -/
def total (rate : PerfEntry → ℚ) (entries : List PerfEntry) : ℚ := (entries.map (amount rate)).sum

section Totals

variable {tscPerUs : TscPerUs} {first : Entry} {rest : List Entry}

theorem sinceLast_eq (counter : Entry → Nat) (a b : Entry) :
    sinceLast counter a b = (counter b : ℚ) - counter a := by
  rw [sinceLast]
  push_cast
  ring

theorem memoryBandwidth_eq (a b : Entry) : memoryBandwidth a b =
    64 * (sinceLast Entry.llcMisses a b + sinceLast Entry.swPrefetch a b) / timeDeltaUs a b := by
  have hsplit : memoryBandwidth a b = (sinceLast Entry.llcMisses a b / timeDeltaUs a b +
      sinceLast Entry.swPrefetch a b / timeDeltaUs a b) * 64 := rfl
  rw [hsplit]
  ring

end Totals

/-! ## The cores of a log -/

theorem mem_of_mem_kept {log : List Entry} {cpu : Int} {r : Entry}
    (h : r ∈ kept (coreRecords log cpu)) : r ∈ log := by
  have hrecord : r ∈ coreRecords log cpu := by
    cases hrecords : coreRecords log cpu with
    | nil => simp [hrecords, kept] at h
    | cons first rest =>
      rw [hrecords, kept] at h
      rcases List.mem_cons.mp h with heq | hrest
      · exact heq ▸ List.mem_cons_self
      · exact List.mem_cons_of_mem _ ((keptAfter_sublist first rest).subset hrest)
  exact (List.mem_filter.mp ((coreRecords_perm log cpu).subset hrecord)).1

/-- An entry of a core is made of two records of the log, the one earlier than the other. -/
theorem mem_coreFile {tscPerUs : TscPerUs} {log : List Entry} {cpu : Int} {p : PerfEntry}
    (h : p ∈ coreFile tscPerUs log cpu) :
    ∃ a ∈ log, ∃ b ∈ log, a.timestampNs < b.timestampNs ∧ p = perfEntry tscPerUs a b := by
  obtain ⟨pair, hpair, rfl⟩ := List.mem_map.mp h
  have hmem := List.of_mem_zip hpair
  exact ⟨pair.1, mem_of_mem_kept hmem.1, pair.2, mem_of_mem_kept (List.mem_of_mem_tail hmem.2),
    isChain_consecutive (kept_chain _) hpair, rfl⟩

/-- With times from 0 on the loop over the heap does not end early. -/
theorem heapLoop_of_nonneg {log : List Entry} (hnonneg : ∀ e ∈ log, 0 ≤ e.timestampNs) :
    (heapLoop log).raised = false := by
  refine Bool.eq_false_iff.mpr fun hraised => ?_
  have hreached := heapLoop_reached log
  obtain ⟨i, hi, hneg⟩ := hreached.negative hraised
  obtain ⟨r, hr, hstart⟩ := after_start hi
  have hlog : r ∈ log :=
    (hreached.running.subperm coreRecords_ofStream).subset (List.mem_append_left _ hr)
  have hzero := hnonneg r hlog
  rw [hstart] at hzero
  exact absurd (hneg.symm.trans (decide_eq_true hzero)) (by decide)

end PerCoreEntries
