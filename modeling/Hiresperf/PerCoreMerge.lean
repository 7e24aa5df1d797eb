import Hiresperf.FileBandwidth
import Hiresperf.Foundation.HeapMerge
import Hiresperf.TotalBandwidth

/-!
# The loop over the heap

The loop of `ldb_analysis/compute_per_core_performance.py` with its heap and the
iterators over the records of the cores. `TotalBandwidth` has what it does with a
record. A turn ends the script if the interval that it writes starts at a negative
time, which cannot be packed as an unsigned number; the total and the bandwidth of
the core have been set by then.
-/

namespace PerCoreMerge

open FileBandwidth HeapMerge StreamMerge TotalBandwidth

/-! ## The script -/

/-- The variables of the loop. `popped` lists what the heap has given out. -/
structure LoopState where
  merge : Merge Entry Int
  popped : List Entry
  state : State
  raised : Bool

def startLoop (log : List Entry) : LoopState where
  merge := start (coreRecords log) (cores log)
  popped := []
  state := initialState
  raised := false

/-- The start of an interval can be packed. -/
def packable (i : Interval) : Bool := decide (0 ≤ i.start)

/-- The interval that the record has added, if any, can be packed. -/
def packs (before after : State) : Bool :=
  (after.intervals.drop before.intervals.length).all packable

def turn (s : LoopState) : LoopState :=
  match pop key Entry.cpuId s.merge with
  | none => s
  | some (current, merge) =>
    let next := processEntry s.state current
    if packs s.state next then ⟨merge, s.popped ++ [current], next, false⟩
    else
      { merge := merge
        popped := s.popped ++ [current]
        state := { s.state with
          perCoreMemoryBandwidth := next.perCoreMemoryBandwidth
          totalMemoryBandwidth := next.totalMemoryBandwidth }
        raised := true }

def turns (s : LoopState) : Nat → LoopState
  | 0 => s
  | n + 1 => if s.raised then s else turns (turn s) n

/-- `while heap`: a turn for each record is enough. -/
def heapLoop (log : List Entry) : LoopState := turns (startLoop log) log.length

/-- What `load_total_memory_bandwidth` reads from the file. -/
def loadIntervals (intervals : List Interval) : List BwInterval :=
  intervals.map fun i => ⟨i.start.toNat, i.stop.toNat, i.total⟩

/-! ## The records -/

variable {log : List Entry}

theorem stream_coreRecords (cpu : Int) : ∀ e ∈ coreRecords log cpu, e.cpuId = cpu :=
  fun _ he => cpuId_of_mem_coreRecords he

theorem coreRecords_ofStream (cpu : Int) :
    (coreRecords log cpu).Perm (ofStream Entry.cpuId log cpu) := by
  have hfilter : ofStream Entry.cpuId log cpu = log.filter fun e => e.cpuId == cpu := by
    apply List.filter_congr
    intro e _
    rw [Bool.eq_iff_iff, decide_eq_true_iff, beq_iff_eq]
  rw [hfilter]
  exact coreRecords_perm log cpu

theorem coreRecords_of_notMem {cpu : Int} (h : cpu ∉ cores log) : coreRecords log cpu = [] := by
  rw [← List.length_eq_zero_iff, (coreRecords_ofStream cpu).length_eq, List.length_eq_zero_iff,
    ofStream_eq_nil]
  exact fun hmem => h (List.mem_dedup.mpr hmem)

theorem startLoop_running (log : List Entry) :
    Running key Entry.cpuId (coreRecords log) (startLoop log).popped (startLoop log).merge :=
  start_running (fun cpu => stream_coreRecords cpu) (List.nodup_dedup _)
    fun _ => coreRecords_of_notMem

theorem key_cpuId (a b : Entry) (h : key a = key b) : a.cpuId = b.cpuId := by
  have hle := key_le_iff.mp (le_of_eq h)
  have hge := key_le_iff.mp (le_of_eq h.symm)
  omega

/-- The merge of the lists has the records of each core in their order. -/
theorem ofStream_merged (cpu : Int) :
    ofStream Entry.cpuId (merged log) cpu = coreRecords log cpu := by
  have hlength := (streams_perm log).length_eq
  have hperm : (merged log).Perm log := (mergeStreams_perm hlength).trans (streams_perm log)
  by_cases hcpu : cpu ∈ cores log
  · have hsub : (coreRecords log cpu).Sublist (merged log) :=
      sublist_mergeStreams hlength _ (List.mem_map_of_mem hcpu)
    have hself : (coreRecords log cpu).filter (fun e => decide (e.cpuId = cpu)) =
        coreRecords log cpu :=
      List.filter_eq_self.mpr fun e he => decide_eq_true (cpuId_of_mem_coreRecords he)
    have hfiltered := hsub.filter fun e => decide (e.cpuId = cpu)
    rw [hself] at hfiltered
    refine (hfiltered.eq_of_length ?_).symm
    exact (coreRecords_ofStream cpu).length_eq.trans (hperm.filter _).length_eq.symm
  · rw [coreRecords_of_notMem hcpu, ofStream_eq_nil]
    intro hmem
    exact hcpu (List.mem_dedup.mpr ((hperm.map Entry.cpuId).subset hmem))

theorem merged_sorted (log : List Entry) : (merged log).Pairwise fun a b => key a ≤ key b := by
  refine mergeStreams_sorted (streams_perm log).length_eq ?_
  intro stream hstream
  obtain ⟨cpu, -, rfl⟩ := List.mem_map.mp hstream
  exact coreRecords_sorted log cpu

/-- The heap gives the records out in the order of `merged`. -/
theorem popped_begins_merged {popped : List Entry} {m : Merge Entry Int}
    (h : Running key Entry.cpuId (coreRecords log) popped m) : popped <+: merged log := by
  obtain ⟨rest, hsorted, hall⟩ := h.complete coreRecords_ofStream (coreRecords_sorted log)
    fun cpu => stream_coreRecords cpu
  refine ⟨rest, eq_of_streams key_cpuId hsorted (merged_sorted log) fun cpu => ?_⟩
  rw [hall, ofStream_merged]

/-! ## What a record does -/

/-- The state after records, if nothing raises. -/
def after (records : List Entry) : State := records.foldl processEntry initialState

theorem after_concat (before : List Entry) (e : Entry) :
    after (before ++ [e]) = processEntry (after before) e := by
  rw [after, List.foldl_append]
  rfl

/-- All that a record can do to the totals and the intervals. -/
theorem processEntry_cases (s : State) (e : Entry) :
    (s.lastState e.cpuId = none ∧ processEntry s e = { s with
      lastState := Function.update s.lastState e.cpuId (some e)
      perCoreMemoryBandwidth := Function.update s.perCoreMemoryBandwidth e.cpuId 0 }) ∨
    processEntry s e = s ∨
    ∃ bandwidth, processEntry s e =
      { lastState := Function.update s.lastState e.cpuId (some e)
        perCoreMemoryBandwidth := Function.update s.perCoreMemoryBandwidth e.cpuId bandwidth
        totalMemoryBandwidth :=
          s.totalMemoryBandwidth - s.perCoreMemoryBandwidth e.cpuId + bandwidth
        lastGlobalTimestamp := some e.timestampNs
        intervals := s.intervals ++ newInterval s.lastGlobalTimestamp e.timestampNs
          (s.totalMemoryBandwidth - s.perCoreMemoryBandwidth e.cpuId + bandwidth) } := by
  cases hlast : s.lastState e.cpuId with
  | none =>
    left
    simp [processEntry, hlast]
  | some last =>
    right
    by_cases hskip : e.timestampNs - last.timestampNs ≤ 0
    · left
      simp [processEntry, hlast, hskip]
    · right
      exact ⟨memoryBandwidth last e, by simp [processEntry, hlast, hskip]⟩

theorem newInterval_cases (last : Option Int) (current : Int) (total : ℚ) :
    (newInterval last current total = [] ∧ ∀ t, last = some t → current ≤ t) ∨
      ∃ t, last = some t ∧ t < current ∧ newInterval last current total = [⟨t, current, total⟩] := by
  cases last with
  | none => exact Or.inl ⟨rfl, fun t ht => by simp at ht⟩
  | some t =>
    by_cases hlt : t < current
    · exact Or.inr ⟨t, rfl, hlt, by simp [newInterval, hlt]⟩
    · refine Or.inl ⟨by simp [newInterval, hlt], fun t' ht' => ?_⟩
      rw [← Option.some.inj ht']
      exact not_lt.mp hlt

/-- A record adds at most one interval. -/
theorem processEntry_intervals (s : State) (e : Entry) :
    (processEntry s e).intervals = s.intervals ∨
      ∃ i, (processEntry s e).intervals = s.intervals ++ [i] := by
  obtain ⟨-, heq⟩ | heq | ⟨bandwidth, heq⟩ := processEntry_cases s e
  · exact Or.inl (by rw [heq])
  · exact Or.inl (by rw [heq])
  · rcases newInterval_cases s.lastGlobalTimestamp e.timestampNs
      (s.totalMemoryBandwidth - s.perCoreMemoryBandwidth e.cpuId + bandwidth) with
      ⟨hnone, -⟩ | ⟨t, -, -, hone⟩
    · exact Or.inl (by rw [heq, hnone, List.append_nil])
    · exact Or.inr ⟨_, by rw [heq, hone]⟩

/-! ## The total -/

theorem sum_update {cpus : List Int} (hnodup : cpus.Nodup) {cpu : Int} (hcpu : cpu ∈ cpus)
    (f : Int → ℚ) (value : ℚ) :
    (cpus.map (Function.update f cpu value)).sum = (cpus.map f).sum - f cpu + value := by
  have hothers : (cpus.erase cpu).map (Function.update f cpu value) = (cpus.erase cpu).map f := by
    apply List.map_congr_left
    intro other hother
    rw [Function.update_of_ne (hnodup.mem_erase_iff.mp hother).1]
  rw [← List.sum_map_erase (Function.update f cpu value) hcpu, ← List.sum_map_erase f hcpu, hothers,
    Function.update_self]
  linarith

/-- The total is the sum over the cores, and a core without a record counts nothing. -/
structure Totals (cpus : List Int) (s : State) : Prop where
  total : s.totalMemoryBandwidth = (cpus.map s.perCoreMemoryBandwidth).sum
  fresh : ∀ cpu, s.lastState cpu = none → s.perCoreMemoryBandwidth cpu = 0

theorem initialState_totals (cpus : List Int) : Totals cpus initialState :=
  ⟨by simp [initialState], fun _ _ => rfl⟩

theorem processEntry_totals {cpus : List Int} (hnodup : cpus.Nodup) {s : State} (h : Totals cpus s)
    {e : Entry} (he : e.cpuId ∈ cpus) : Totals cpus (processEntry s e) := by
  have hfresh : ∀ value cpu, Function.update s.lastState e.cpuId (some e) cpu = none →
      Function.update s.perCoreMemoryBandwidth e.cpuId value cpu = 0 := by
    intro value cpu hnone
    by_cases hcpu : cpu = e.cpuId
    · rw [hcpu, Function.update_self] at hnone
      exact absurd hnone (Option.some_ne_none e)
    · rw [Function.update_of_ne hcpu] at hnone ⊢
      exact h.fresh cpu hnone
  obtain ⟨hlast, heq⟩ | heq | ⟨bandwidth, heq⟩ := processEntry_cases s e
  · rw [heq]
    refine ⟨?_, hfresh 0⟩
    rw [sum_update hnodup he, h.fresh _ hlast, h.total]
    ring
  · rw [heq]
    exact h
  · rw [heq]
    refine ⟨?_, hfresh bandwidth⟩
    rw [sum_update hnodup he, h.total]

theorem after_totals {records : List Entry} (h : ∀ e ∈ records, e.cpuId ∈ cores log) :
    Totals (cores log) (after records) := by
  induction records using List.reverseRecOn with
  | nil => exact initialState_totals _
  | append_singleton before e ih =>
    rw [after_concat]
    exact processEntry_totals (List.nodup_dedup _) (ih fun r hr => h r (List.mem_append_left _ hr))
      (h e (by simp))

/-! ## The intervals -/

/-- Each interval takes some time and starts where the one before ended. -/
structure Chained (s : State) : Prop where
  forward : ∀ i ∈ s.intervals, i.start < i.stop
  chain : s.intervals.IsChain fun a b => a.stop = b.start
  last : ∀ i, s.intervals.getLast? = some i → s.lastGlobalTimestamp = some i.stop

theorem processEntry_chained {s : State} (h : Chained s) {e : Entry}
    (hle : ∀ t, s.lastGlobalTimestamp = some t → t ≤ e.timestampNs) :
    Chained (processEntry s e) := by
  obtain ⟨-, heq⟩ | heq | ⟨bandwidth, heq⟩ := processEntry_cases s e
  · rw [heq]
    exact ⟨h.forward, h.chain, h.last⟩
  · rw [heq]
    exact h
  · rw [heq]
    rcases newInterval_cases s.lastGlobalTimestamp e.timestampNs
      (s.totalMemoryBandwidth - s.perCoreMemoryBandwidth e.cpuId + bandwidth) with
      ⟨hnone, hge⟩ | ⟨t, ht, hlt, hone⟩
    · rw [hnone, List.append_nil]
      refine ⟨h.forward, h.chain, fun i hi => ?_⟩
      -- no interval is added only at the time of the last one
      have hstop := h.last i hi
      rw [le_antisymm (hge _ hstop) (hle _ hstop)]
    · rw [hone]
      refine ⟨?_, ?_, ?_⟩
      · intro i hi
        rcases List.mem_append.mp hi with hi | hi
        · exact h.forward i hi
        · rw [List.mem_singleton.mp hi]
          exact hlt
      · refine List.isChain_append.mpr ⟨h.chain, List.isChain_singleton _, ?_⟩
        intro i hi j hj
        have hstop := h.last i hi
        rw [ht, Option.some.injEq] at hstop
        rw [← Option.some.inj hj]
        exact hstop.symm
      · intro i hi
        rw [List.getLast?_concat, Option.some.injEq] at hi
        rw [← hi]

theorem processEntry_lastGlobal (s : State) (e : Entry) :
    (processEntry s e).lastGlobalTimestamp = s.lastGlobalTimestamp ∨
      (processEntry s e).lastGlobalTimestamp = some e.timestampNs := by
  obtain ⟨-, heq⟩ | heq | ⟨bandwidth, heq⟩ := processEntry_cases s e
  · exact Or.inl (by rw [heq])
  · exact Or.inl (by rw [heq])
  · exact Or.inr (by rw [heq])

/-- The last time is that of a record. -/
theorem after_lastGlobal {records : List Entry} {t : Int}
    (h : (after records).lastGlobalTimestamp = some t) : ∃ e ∈ records, e.timestampNs = t := by
  induction records using List.reverseRecOn with
  | nil => exact absurd h.symm (Option.some_ne_none t)
  | append_singleton before e ih =>
    rw [after_concat] at h
    rcases processEntry_lastGlobal (after before) e with hsame | hnew
    · obtain ⟨r, hr, ht⟩ := ih (hsame.symm.trans h)
      exact ⟨r, List.mem_append_left _ hr, ht⟩
    · exact ⟨e, by simp, Option.some.inj (hnew.symm.trans h)⟩

theorem after_chained {records : List Entry}
    (hsorted : records.Pairwise fun a b => key a ≤ key b) : Chained (after records) := by
  induction records using List.reverseRecOn with
  | nil => exact ⟨by simp [after, initialState], List.isChain_nil, by simp [after, initialState]⟩
  | append_singleton before e ih =>
    obtain ⟨hbefore, -, hlast⟩ := List.pairwise_append.mp hsorted
    rw [after_concat]
    refine processEntry_chained (ih hbefore) fun t ht => ?_
    obtain ⟨r, hr, rfl⟩ := after_lastGlobal ht
    exact timestamp_le_of_key_le (hlast r hr e (by simp))

theorem processEntry_start {s : State} {e : Entry} {i : Interval}
    (hi : i ∈ (processEntry s e).intervals) :
    i ∈ s.intervals ∨ s.lastGlobalTimestamp = some i.start := by
  obtain ⟨-, heq⟩ | heq | ⟨bandwidth, heq⟩ := processEntry_cases s e
  · rw [heq] at hi
    exact Or.inl hi
  · rw [heq] at hi
    exact Or.inl hi
  · rw [heq] at hi
    rcases List.mem_append.mp hi with hi | hi
    · exact Or.inl hi
    · rcases newInterval_cases s.lastGlobalTimestamp e.timestampNs
        (s.totalMemoryBandwidth - s.perCoreMemoryBandwidth e.cpuId + bandwidth) with
        ⟨hnone, -⟩ | ⟨t, ht, -, hone⟩
      · rw [hnone] at hi
        exact absurd hi List.not_mem_nil
      · rw [hone, List.mem_singleton] at hi
        rw [hi]
        exact Or.inr ht

/-- An interval starts at the time of a record. -/
theorem after_start {records : List Entry} {i : Interval} (hi : i ∈ (after records).intervals) :
    ∃ e ∈ records, e.timestampNs = i.start := by
  induction records using List.reverseRecOn with
  | nil => exact absurd hi List.not_mem_nil
  | append_singleton before e ih =>
    rw [after_concat] at hi
    obtain ⟨r, hr, ht⟩ : ∃ r ∈ before, r.timestampNs = i.start := by
      rcases processEntry_start hi with hold | hlast
      · exact ih hold
      · exact after_lastGlobal hlast
    exact ⟨r, List.mem_append_left _ hr, ht⟩

/-! ## The loop -/

/-- What holds of every state of the loop. -/
structure Reached (log : List Entry) (s : LoopState) : Prop where
  running : Running key Entry.cpuId (coreRecords log) s.popped s.merge
  total : s.state.totalMemoryBandwidth = (after s.popped).totalMemoryBandwidth
  perCore : s.state.perCoreMemoryBandwidth = (after s.popped).perCoreMemoryBandwidth
  intervals : s.state.intervals = (after s.popped).intervals.takeWhile packable
  intact : s.raised = false →
    s.state = after s.popped ∧ ∀ i ∈ (after s.popped).intervals, packable i = true
  negative : s.raised = true → ∃ i ∈ (after s.popped).intervals, packable i = false

theorem startLoop_reached (log : List Entry) : Reached log (startLoop log) where
  running := startLoop_running log
  total := rfl
  perCore := rfl
  intervals := rfl
  intact _ := ⟨rfl, fun _ hi => absurd hi List.not_mem_nil⟩
  negative h := absurd h Bool.false_ne_true

theorem packable_of_packs {s : State} {e : Entry} (hold : ∀ i ∈ s.intervals, packable i = true)
    (h : packs s (processEntry s e) = true) :
    ∀ i ∈ (processEntry s e).intervals, packable i = true := by
  rcases processEntry_intervals s e with heq | ⟨i, heq⟩
  · rw [heq]
    exact hold
  · rw [packs, heq, List.drop_left] at h
    rw [heq]
    intro j hj
    rcases List.mem_append.mp hj with hj | hj
    · exact hold j hj
    · exact List.all_eq_true.mp h j hj

theorem exists_of_not_packs {s : State} {e : Entry} (h : packs s (processEntry s e) = false) :
    ∃ i, (processEntry s e).intervals = s.intervals ++ [i] ∧ packable i = false := by
  rcases processEntry_intervals s e with heq | ⟨i, heq⟩
  · rw [packs, heq, List.drop_length] at h
    exact absurd h.symm Bool.false_ne_true
  · rw [packs, heq, List.drop_left, List.all_cons, List.all_nil, Bool.and_true] at h
    exact ⟨i, heq, h⟩

theorem turn_of_none {s : LoopState} (hpop : pop key Entry.cpuId s.merge = none) : turn s = s := by
  simp only [turn, hpop]

section Turn

variable {s : LoopState} (hintact : ∀ i ∈ s.state.intervals, packable i = true) {current : Entry}
  {merge : Merge Entry Int}
  (hafter : after (s.popped ++ [current]) = processEntry s.state current)
  (hrunning : Running key Entry.cpuId (coreRecords log) (s.popped ++ [current]) merge)
include hintact hafter hrunning

/-- The record adds no interval, or one that can be packed. -/
theorem reached_of_packs (hpacks : packs s.state (processEntry s.state current) = true) :
    Reached log ⟨merge, s.popped ++ [current], processEntry s.state current, false⟩ := by
  have hall := packable_of_packs hintact hpacks
  refine ⟨hrunning, ?_, ?_, ?_, ?_, fun hfalse => absurd hfalse Bool.false_ne_true⟩
  · rw [hafter]
  · rw [hafter]
  · rw [hafter]
    exact (List.takeWhile_eq_self_iff.mpr hall).symm
  · rw [hafter]
    exact fun _ => ⟨rfl, hall⟩

/-- The interval cannot be packed, and the script ends. -/
theorem reached_of_not_packs (hpacks : packs s.state (processEntry s.state current) = false) :
    Reached log ⟨merge, s.popped ++ [current], { s.state with
      perCoreMemoryBandwidth := (processEntry s.state current).perCoreMemoryBandwidth
      totalMemoryBandwidth := (processEntry s.state current).totalMemoryBandwidth }, true⟩ := by
  obtain ⟨i, hintervals, hi⟩ := exists_of_not_packs hpacks
  refine ⟨hrunning, ?_, ?_, ?_, fun hfalse => absurd hfalse.symm Bool.false_ne_true, ?_⟩
  · rw [hafter]
  · rw [hafter]
  · rw [hafter, hintervals, List.takeWhile_append_of_pos hintact,
      List.takeWhile_cons_of_neg (by simp [hi]), List.append_nil]
  · rw [hafter, hintervals]
    exact fun _ => ⟨i, by simp, hi⟩

end Turn

theorem turn_reached {s : LoopState} (h : Reached log s) (hraised : s.raised = false) :
    Reached log (turn s) := by
  obtain ⟨hstate, hpackable⟩ := h.intact hraised
  cases hpop : pop key Entry.cpuId s.merge with
  | none =>
    rw [turn_of_none hpop]
    exact h
  | some result =>
    obtain ⟨current, merge⟩ := result
    have hrunning := pop_running (coreRecords_sorted log) (fun cpu => stream_coreRecords cpu)
      h.running hpop
    have hafter : after (s.popped ++ [current]) = processEntry s.state current := by
      rw [after_concat, hstate]
    rw [← hstate] at hpackable
    simp only [turn, hpop]
    cases hpacks : packs s.state (processEntry s.state current) with
    | true => exact reached_of_packs hpackable hafter hrunning hpacks
    | false => exact reached_of_not_packs hpackable hafter hrunning hpacks

theorem turns_reached {s : LoopState} (h : Reached log s) (n : Nat) : Reached log (turns s n) := by
  induction n generalizing s with
  | zero => exact h
  | succ n ih =>
    rw [turns]
    cases hraised : s.raised with
    | true => exact h
    | false => exact ih (turn_reached h hraised)

theorem heapLoop_reached (log : List Entry) : Reached log (heapLoop log) :=
  turns_reached (startLoop_reached log) log.length

/-- With an empty heap nothing more happens. -/
theorem turns_of_none {s : LoopState} (hpop : pop key Entry.cpuId s.merge = none) (n : Nat) :
    turns s n = s := by
  induction n with
  | zero => rfl
  | succ n ih =>
    rw [turns, turn_of_none hpop, ih]
    split_ifs <;> rfl

/-- As long as the loop goes on, each turn pops one record. -/
theorem turns_popped (s : LoopState) (n : Nat) :
    (turns s n).raised = true ∨ (turns s n).merge.heap = [] ∨
      (turns s n).popped.length = s.popped.length + n := by
  induction n generalizing s with
  | zero => exact Or.inr (Or.inr rfl)
  | succ n ih =>
    cases hpop : pop key Entry.cpuId s.merge with
    | none =>
      rw [turns_of_none hpop]
      exact Or.inr (Or.inl (pop_eq_none.mp hpop))
    | some result =>
      have hone : (turn s).popped.length = s.popped.length + 1 := by
        simp only [turn, hpop]
        split_ifs <;> exact List.length_append
      rw [turns]
      cases hraised : s.raised with
      | true => exact Or.inl hraised
      | false =>
        rcases ih (turn s) with hstopped | hempty | hlength
        · exact Or.inl hstopped
        · exact Or.inr (Or.inl hempty)
        · refine Or.inr (Or.inr (Eq.trans hlength ?_))
          rw [hone]
          omega

/-- After a turn for each record the heap is empty, if the script has not ended. -/
theorem heapLoop_done (log : List Entry) (h : (heapLoop log).raised = false) :
    (heapLoop log).merge.heap = [] := by
  rcases turns_popped (startLoop log) log.length with hraised | hempty | hlength
  · exact absurd (h.symm.trans hraised) Bool.false_ne_true
  · exact hempty
  · have hlength : (heapLoop log).popped.length = 0 + log.length := hlength
    have hle := ((heapLoop_reached log).running.subperm coreRecords_ofStream).length_le
    rw [List.length_append, hlength] at hle
    exact List.length_eq_zero_iff.mp (by omega)

theorem popped_cpuId {s : LoopState} (h : Reached log s) : ∀ e ∈ s.popped, e.cpuId ∈ cores log := by
  intro e he
  have hmem := (h.running.subperm coreRecords_ofStream).subset (List.mem_append_left _ he)
  exact List.mem_dedup.mpr (List.mem_map_of_mem hmem)

theorem popped_of_done {popped : List Entry} {m : Merge Entry Int}
    (h : Running key Entry.cpuId (coreRecords log) popped m) (hempty : m.heap = []) :
    popped = merged log :=
  eq_of_streams key_cpuId h.sorted (merged_sorted log) fun cpu => by
    rw [h.done hempty, ofStream_merged]

/-- Intervals are only added. -/
theorem after_append (records rest : List Entry) :
    ∃ more, (after (records ++ rest)).intervals = (after records).intervals ++ more := by
  induction rest using List.reverseRecOn with
  | nil => exact ⟨[], by rw [List.append_nil, List.append_nil]⟩
  | append_singleton rest e ih =>
    obtain ⟨more, hmore⟩ := ih
    rw [← List.append_assoc, after_concat]
    rcases processEntry_intervals (after (records ++ rest)) e with heq | ⟨i, heq⟩
    · exact ⟨more, by rw [heq, hmore]⟩
    · exact ⟨more ++ [i], by rw [heq, hmore, List.append_assoc]⟩

theorem takeWhile_append_of_exists {l : List Interval}
    (h : ∃ i ∈ l, packable i = false) (more : List Interval) :
    (l ++ more).takeWhile packable = l.takeWhile packable := by
  rw [List.takeWhile_append, if_neg]
  intro hlength
  obtain ⟨i, hi, hfalse⟩ := h
  have hall := List.takeWhile_eq_self_iff.mp
    ((List.takeWhile_sublist packable).eq_of_length hlength)
  exact absurd ((hall i hi).symm.trans hfalse) (by decide)

/-- The file that the loop writes is that of `TotalBandwidth`. -/
theorem heapLoop_intervals (log : List Entry) :
    (heapLoop log).state.intervals = parseHrperfLog log := by
  have hreached := heapLoop_reached log
  have hparse : parseHrperfLog log = (after (merged log)).intervals.takeWhile packable := rfl
  rw [hparse, hreached.intervals]
  cases hraised : (heapLoop log).raised with
  | false => rw [popped_of_done hreached.running (heapLoop_done log hraised)]
  | true =>
    obtain ⟨rest, hrest⟩ := popped_begins_merged hreached.running
    obtain ⟨more, hmore⟩ := after_append (heapLoop log).popped rest
    rw [← hrest, hmore, takeWhile_append_of_exists (hreached.negative hraised)]

/-! ## The file -/

theorem reached_chained {s : LoopState} (h : Reached log s) :
    (∀ i ∈ s.state.intervals, i.start < i.stop) ∧
      s.state.intervals.IsChain fun a b => a.stop = b.start := by
  have hchained := after_chained h.running.sorted
  obtain ⟨n, htake⟩ : ∃ n, s.state.intervals = (after s.popped).intervals.take n := by
    rw [h.intervals]
    exact ⟨_, List.prefix_iff_eq_take.mp ⟨_, List.takeWhile_append_dropWhile⟩⟩
  rw [htake]
  exact ⟨fun i hi => hchained.forward i (List.mem_of_mem_take hi), hchained.chain.take n⟩

/-- The intervals that the loop has written, as they are read again. -/
def timeline {s : LoopState} (h : Reached log s) : Timeline where
  data := loadIntervals s.state.intervals
  forward interval hinterval := by
    obtain ⟨i, hi, rfl⟩ := List.mem_map.mp hinterval
    have hforward := (reached_chained h).1 i hi
    have hpackable : packable i = true := by
      rw [h.intervals] at hi
      exact List.mem_takeWhile_imp hi
    have hstart := of_decide_eq_true hpackable
    change i.start.toNat < i.stop.toNat
    omega
  ordered := by
    rw [loadIntervals, List.isChain_map]
    refine (reached_chained h).2.imp fun a b hab => ?_
    exact le_of_eq (congrArg Int.toNat hab)

/-! ## Every state of the loop -/

/-- What the loop keeps to with every turn. -/
structure InOrder (log : List Entry) (s : LoopState) : Prop where
  once : s.popped.Subperm log
  sorted : s.popped.Pairwise fun a b => a.timestampNs ≤ b.timestampNs
  cores : ∀ cpu, ∃ left, s.popped.filter (fun e => decide (e.cpuId = cpu)) ++ left =
    coreRecords log cpu
  pending : (s.merge.heap.map Entry.cpuId).Nodup
  total : s.state.totalMemoryBandwidth =
    ((TotalBandwidth.cores log).map s.state.perCoreMemoryBandwidth).sum
  forward : ∀ i ∈ s.state.intervals, i.start < i.stop
  chain : s.state.intervals.IsChain fun a b => a.stop = b.start

theorem reached_inOrder {s : LoopState} (h : Reached log s) : InOrder log s where
  once := (List.sublist_append_left _ _).subperm.trans (h.running.subperm coreRecords_ofStream)
  sorted := h.running.sorted.imp timestamp_le_of_key_le
  cores cpu := ⟨_, h.running.split cpu⟩
  pending := h.running.pending
  total := by
    rw [h.total, h.perCore]
    exact (after_totals (popped_cpuId h)).total
  forward := (reached_chained h).1
  chain := (reached_chained h).2

theorem heapLoop_complete (log : List Entry) (h : (heapLoop log).raised = false) :
    (heapLoop log).merge.heap = [] ∧ (heapLoop log).popped.Perm log ∧
      ∀ cpu, (heapLoop log).popped.filter (fun e => decide (e.cpuId = cpu)) =
        coreRecords log cpu := by
  have hreached := heapLoop_reached log
  have hempty := heapLoop_done log h
  have hdone := hreached.running.done hempty
  exact ⟨hempty, perm_of_streams coreRecords_ofStream hdone, hdone⟩

/-- The script ends early only at a negative time. -/
theorem heapLoop_raised (log : List Entry) (h : (heapLoop log).raised = true) :
    ∃ e ∈ log, e.timestampNs < 0 := by
  have hreached := heapLoop_reached log
  obtain ⟨i, hi, hnegative⟩ := hreached.negative h
  obtain ⟨e, he, hstart⟩ := after_start hi
  refine ⟨e, (reached_inOrder hreached).once.subset he, ?_⟩
  rw [hstart]
  exact not_le.mp (of_decide_eq_false hnegative)

/-- The loop pops the records in order, keeps the total and writes intervals one after the
other; it pops all records unless an interval that it writes starts at a negative time. -/
theorem heapLoop_spec (log : List Entry) :
    (∀ n, InOrder log (turns (startLoop log) n)) ∧
    ((heapLoop log).raised = false → (heapLoop log).merge.heap = [] ∧
      (heapLoop log).popped.Perm log ∧
      ∀ cpu, (heapLoop log).popped.filter (fun e => decide (e.cpuId = cpu)) =
        coreRecords log cpu) ∧
    ((heapLoop log).raised = true → ∃ e ∈ log, e.timestampNs < 0) ∧
    ∃ file : Timeline, file.data = loadIntervals (heapLoop log).state.intervals := by
  have hreached := heapLoop_reached log
  refine ⟨fun n => reached_inOrder (turns_reached (startLoop_reached log) n), heapLoop_complete log,
    heapLoop_raised log, timeline hreached, rfl⟩

/-- A log in order need not be sorted for the loop. -/
theorem startLoop_of_sorted (hsorted : log.Pairwise fun a b => key a ≤ key b) :
    startLoop log = ⟨start (ofCore log) (cores log), [], initialState, false⟩ := by
  have hrecords : coreRecords log = ofCore log := funext fun cpu => coreRecords_of_sorted hsorted cpu
  rw [startLoop, hrecords]

/-- Two cores with a tie at each time. -/
theorem heapLoop_steadyLog :
    (heapLoop steadyLog).raised = false ∧ (heapLoop steadyLog).popped.Perm steadyLog := by
  have hraised : (heapLoop steadyLog).raised = false := by
    rw [heapLoop, startLoop_of_sorted steadyLog_sorted]
    decide +kernel
  exact ⟨hraised, ((heapLoop_spec steadyLog).2.1 hraised).2.1⟩

/-- Four records of a core before the time 0. -/
def negativeLog : List Entry :=
  [⟨0, -4, 0, 0, 0, 0, 0⟩, ⟨0, -3, 0, 0, 0, 0, 0⟩, ⟨0, -2, 0, 0, 0, 0, 0⟩, ⟨0, -1, 0, 0, 0, 0, 0⟩]

/-- The third record ends the script, since -3 cannot be packed; the fourth one stays in
the heap. -/
theorem negative_start_ends_loop : ¬ ∀ log, (heapLoop log).popped.Perm log := by
  intro hall
  have hsorted : negativeLog.Pairwise fun a b => key a ≤ key b := by decide
  have hlength := (hall negativeLog).length_eq
  rw [heapLoop, startLoop_of_sorted hsorted] at hlength
  revert hlength
  decide +kernel

end PerCoreMerge
