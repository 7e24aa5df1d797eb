import Hiresperf.Foundation.Alternation
import Hiresperf.LockAnalysis

/-!
# The integrity checks of the lock analysis

Which events of a thread `analyze_thread.py` accepts, and what it reports for each
mutex. The script checks every event on its own; together the checks say that for
each mutex the waits are locked one by one and the locks unlocked one by one. A wait
for a mutex that is still held is accepted, if it is unlocked before it is locked.
-/

namespace LockAccounting

open Alternation DictSums LockAnalysis Occupancy

/-! ## The events of a mutex -/

/-- Where a thread begins and ends to wait for a mutex. -/
def waitMark (mutex : Nat) (row : Row) : Option (Bool × Int) :=
  match row.event with
  | .mutexWait m => if m = mutex then some (true, row.timestampNs) else none
  | .mutexLock m => if m = mutex then some (false, row.timestampNs) else none
  | .mutexUnlock _ => none
  | .other => none

/-- Where it begins and ends to hold it. -/
def holdMark (mutex : Nat) (row : Row) : Option (Bool × Int) :=
  match row.event with
  | .mutexWait _ => none
  | .mutexLock m => if m = mutex then some (true, row.timestampNs) else none
  | .mutexUnlock m => if m = mutex then some (false, row.timestampNs) else none
  | .other => none

/-- `wait_intervals_per_mutex`. -/
def waitsOf (s : LockState) (mutex : Nat) : List (Int × Int) :=
  s.waitIntervals.filterMap fun interval =>
    if interval.2.2 = mutex then some (interval.1, interval.2.1) else none

def holdsOf (s : LockState) (mutex : Nat) : List (Int × Int) :=
  (s.lockIntervalsPerMutex.lookup mutex).getD []

/-- The times of the events of a kind. -/
def sumOfTimes (kind : ThreadEvent → Bool) (rows : List Row) : Int :=
  ((rows.filter fun row => kind row.event).map Row.timestampNs).sum

def isWait : ThreadEvent → Bool
  | .mutexWait _ => true
  | .mutexLock _ => false
  | .mutexUnlock _ => false
  | .other => false

def isLock : ThreadEvent → Bool
  | .mutexWait _ => false
  | .mutexLock _ => true
  | .mutexUnlock _ => false
  | .other => false

def isUnlock : ThreadEvent → Bool
  | .mutexWait _ => false
  | .mutexLock _ => false
  | .mutexUnlock _ => true
  | .other => false

/-- The waits for each mutex are pairs of a wait and a lock, and its holds pairs of a lock and
an unlock. -/
def InPairs (rows : List Row) : Prop :=
  ∀ mutex, (∃ waits : List (Int × Int),
      rows.filterMap (waitMark mutex) = waits.flatMap pairMarks) ∧
    ∃ holds : List (Int × Int), rows.filterMap (holdMark mutex) = holds.flatMap pairMarks

/-- What is reported: these pairs, for each mutex in the order of the events, and the lengths of
all of them. -/
structure Reported (rows : List Row) (s : LockState) : Prop where
  waits : ∀ mutex, rows.filterMap (waitMark mutex) = (waitsOf s mutex).flatMap pairMarks
  holds : ∀ mutex, rows.filterMap (holdMark mutex) = (holdsOf s mutex).flatMap pairMarks
  waiting : totalWaitTimeNs s = sumOfTimes isLock rows - sumOfTimes isWait rows
  holding : totalLockTimeNs s = sumOfTimes isUnlock rows - sumOfTimes isLock rows

/-! ## One event -/

/-- The readers of the waits and the holds of every mutex, as the dictionaries have them. -/
structure Reads (rows : List Row) (s : LockState) : Prop where
  waits : ∀ mutex, read (rows.filterMap (waitMark mutex)) =
    some ⟨waitsOf s mutex, s.waitStartTimesPerMutex.lookup mutex⟩
  holds : ∀ mutex, read (rows.filterMap (holdMark mutex)) =
    some ⟨holdsOf s mutex, s.lockStartTimesPerMutex.lookup mutex⟩
  waiting : totalWaitTimeNs s + sumOfTimes isWait rows =
    sumOfTimes isLock rows + total id s.waitStartTimesPerMutex
  holding : totalLockTimeNs s + sumOfTimes isLock rows =
    sumOfTimes isUnlock rows + total id s.lockStartTimesPerMutex

theorem reads_nil : Reads [] initial where
  waits _ := rfl
  holds _ := rfl
  waiting := rfl
  holding := rfl

theorem sumOfTimes_concat (kind : ThreadEvent → Bool) (rows : List Row) (row : Row) :
    sumOfTimes kind (rows ++ [row]) =
      sumOfTimes kind rows + if kind row.event then row.timestampNs else 0 := by
  cases hkind : kind row.event <;> simp [sumOfTimes, hkind]

section Marks

variable {mark : Row → Option (Bool × Int)} {rows : List Row} {row : Row}

theorem read_unmarked (h : mark row = none) :
    read ((rows ++ [row]).filterMap mark) = read (rows.filterMap mark) := by
  simp [h]

theorem read_marked {m : Bool × Int} (h : mark row = some m) :
    read ((rows ++ [row]).filterMap mark) =
      (read (rows.filterMap mark)).bind fun s => step s m := by
  have hsplit : (rows ++ [row]).filterMap mark = rows.filterMap mark ++ [m] := by simp [h]
  rw [hsplit, read_concat]

end Marks

variable {rows : List Row} {s t : LockState} {time : Int} {mutex : Nat}

theorem Reads.wait (h : Reads rows s) (hstep : handleWait s time mutex = some t) :
    Reads (rows ++ [⟨time, .mutexWait mutex⟩]) t := by
  cases hwait : s.waitStartTimesPerMutex.lookup mutex with
  | some start => simp [handleWait, hwait] at hstep
  | none =>
    obtain rfl := handleWait_cases hstep
    have hwaits := h.waiting
    have hholds := h.holding
    refine ⟨fun m => ?_, fun m => ?_, ?_, ?_⟩
    · by_cases hm : mutex = m
      · subst hm
        rw [read_marked (m := (true, time)) (by simp [waitMark]), h.waits, hwait,
          AList.lookup_insert]
        rfl
      · rw [read_unmarked (by simp [waitMark, hm]), h.waits, AList.lookup_insert_ne (Ne.symm hm)]
        rfl
    · rw [read_unmarked (by simp [holdMark]), h.holds]
      rfl
    · rw [total_insert_new id hwait, sumOfTimes_concat, sumOfTimes_concat]
      simp only [isWait, isLock, if_true, if_false, Bool.false_eq_true, id_eq]
      simp only [totalWaitTimeNs] at hwaits ⊢
      omega
    · rw [sumOfTimes_concat, sumOfTimes_concat]
      simp only [isLock, isUnlock, if_false, Bool.false_eq_true]
      simp only [totalLockTimeNs] at hholds ⊢
      omega

theorem Reads.lock (h : Reads rows s) (hstep : handleLock s time mutex = some t) :
    Reads (rows ++ [⟨time, .mutexLock mutex⟩]) t := by
  cases hwait : s.waitStartTimesPerMutex.lookup mutex with
  | none => simp [handleLock, hwait] at hstep
  | some start =>
    cases hheld : s.lockStartTimesPerMutex.lookup mutex with
    | some held => simp [handleLock, hwait, hheld] at hstep
    | none =>
      have ht : t = { s with
          waitStartTimesPerMutex := s.waitStartTimesPerMutex.erase mutex
          waitIntervals := s.waitIntervals ++ [(start, time, mutex)]
          lockStartTime := if s.lockCount = 0 then some time else s.lockStartTime
          lockCount := s.lockCount + 1
          lockStartTimesPerMutex := s.lockStartTimesPerMutex.insert mutex time } := by
        simpa [handleLock, hwait, hheld] using hstep.symm
      subst ht
      have hwaits := h.waiting
      have hholds := h.holding
      refine ⟨fun m => ?_, fun m => ?_, ?_, ?_⟩
      · by_cases hm : mutex = m
        · subst hm
          rw [read_marked (m := (false, time)) (by simp [waitMark]), h.waits, hwait,
            AList.lookup_erase]
          simp [step, waitsOf]
        · rw [read_unmarked (by simp [waitMark, hm]), h.waits, AList.lookup_erase_ne (Ne.symm hm)]
          simp [waitsOf, hm]
      · by_cases hm : mutex = m
        · subst hm
          rw [read_marked (m := (true, time)) (by simp [holdMark]), h.holds, hheld,
            AList.lookup_insert]
          rfl
        · rw [read_unmarked (by simp [holdMark, hm]), h.holds, AList.lookup_insert_ne (Ne.symm hm)]
          rfl
      · rw [total_erase id hwait] at hwaits
        rw [sumOfTimes_concat, sumOfTimes_concat]
        simp only [isWait, isLock, if_true, if_false, Bool.false_eq_true]
        simp only [totalWaitTimeNs, List.map_append, List.map_cons, List.map_nil, List.sum_append,
          List.sum_cons, List.sum_nil, id_eq] at hwaits ⊢
        omega
      · rw [total_insert_new id hheld, sumOfTimes_concat, sumOfTimes_concat]
        simp only [isLock, isUnlock, if_true, if_false, Bool.false_eq_true, id_eq]
        simp only [totalLockTimeNs] at hholds ⊢
        omega

theorem closeInterval_waits (s : LockState) (time : Int) :
    (closeInterval s time).waitIntervals = s.waitIntervals ∧
      (closeInterval s time).waitStartTimesPerMutex = s.waitStartTimesPerMutex := by
  cases hstart : s.lockStartTime with
  | none => simp [closeInterval, hstart]
  | some start =>
    by_cases hzero : s.lockCount = 0
    · simp [closeInterval, hstart, hzero]
    · simp [closeInterval, hstart, hzero]

theorem Reads.unlock (h : Reads rows s) (hstep : handleUnlock s time mutex = some t) :
    Reads (rows ++ [⟨time, .mutexUnlock mutex⟩]) t := by
  obtain ⟨start, hheld, rfl⟩ := handleUnlock_cases hstep
  have hwaits := h.waiting
  have hholds := h.holding
  rw [total_erase id hheld] at hholds
  obtain ⟨-, hstarts, hintervals⟩ := closeInterval_frame
    { s with
      lockCount := s.lockCount - 1
      lockStartTimesPerMutex := s.lockStartTimesPerMutex.erase mutex
      lockIntervalsPerMutex := appendInterval s.lockIntervalsPerMutex mutex (start, time) } time
  obtain ⟨hwaitIntervals, hwaitStarts⟩ := closeInterval_waits
    { s with
      lockCount := s.lockCount - 1
      lockStartTimesPerMutex := s.lockStartTimesPerMutex.erase mutex
      lockIntervalsPerMutex := appendInterval s.lockIntervalsPerMutex mutex (start, time) } time
  refine ⟨fun m => ?_, fun m => ?_, ?_, ?_⟩
  · rw [read_unmarked (by simp [waitMark]), h.waits, waitsOf, waitsOf, hwaitIntervals, hwaitStarts]
  · rw [holdsOf, hstarts, hintervals]
    by_cases hm : mutex = m
    · subst hm
      rw [read_marked (m := (false, time)) (by simp [holdMark]), h.holds, hheld, AList.lookup_erase,
        appendInterval, AList.lookup_insert]
      rfl
    · rw [read_unmarked (by simp [holdMark, hm]), h.holds, AList.lookup_erase_ne (Ne.symm hm),
        appendInterval, AList.lookup_insert_ne (Ne.symm hm)]
      rfl
  · rw [totalWaitTimeNs, hwaitIntervals, hwaitStarts, sumOfTimes_concat, sumOfTimes_concat]
    simp only [isWait, isLock, if_false, Bool.false_eq_true]
    simp only [totalWaitTimeNs] at hwaits
    omega
  · rw [totalLockTimeNs, hintervals, hstarts, total_appendInterval, sumOfTimes_concat,
      sumOfTimes_concat]
    simp only [isLock, isUnlock, if_true, if_false, Bool.false_eq_true, lengthOf]
    simp only [totalLockTimeNs, id_eq] at hholds
    omega

theorem Reads.row {row : Row} (h : Reads rows s) (hstep : handleRow s row = some t) :
    Reads (rows ++ [row]) t := by
  obtain ⟨time, event⟩ := row
  cases event with
  | mutexWait mutex => exact h.wait hstep
  | mutexLock mutex => exact h.lock hstep
  | mutexUnlock mutex => exact h.unlock hstep
  | other =>
    cases hstep
    refine ⟨fun m => ?_, fun m => ?_, ?_, ?_⟩
    · rw [read_unmarked (by simp [waitMark]), h.waits]
    · rw [read_unmarked (by simp [holdMark]), h.holds]
    · simpa [sumOfTimes_concat, isWait, isLock] using h.waiting
    · simpa [sumOfTimes_concat, isLock, isUnlock] using h.holding

/-- What a check refuses, one of the readers refuses. -/
theorem Reads.refused {row : Row} (h : Reads rows s) (hstep : handleRow s row = none) :
    ∃ mutex, read ((rows ++ [row]).filterMap (waitMark mutex)) = none ∨
      read ((rows ++ [row]).filterMap (holdMark mutex)) = none := by
  obtain ⟨time, event⟩ := row
  cases event with
  | mutexWait mutex =>
    refine ⟨mutex, Or.inl ?_⟩
    rw [read_marked (m := (true, time)) (by simp [waitMark]), h.waits]
    cases hwait : s.waitStartTimesPerMutex.lookup mutex with
    | none => simp [handleRow, handleWait, hwait] at hstep
    | some start => rfl
  | mutexLock mutex =>
    cases hwait : s.waitStartTimesPerMutex.lookup mutex with
    | none =>
      refine ⟨mutex, Or.inl ?_⟩
      rw [read_marked (m := (false, time)) (by simp [waitMark]), h.waits, hwait]
      rfl
    | some start =>
      refine ⟨mutex, Or.inr ?_⟩
      rw [read_marked (m := (true, time)) (by simp [holdMark]), h.holds]
      cases hheld : s.lockStartTimesPerMutex.lookup mutex with
      | none => simp [handleRow, handleLock, hwait, hheld] at hstep
      | some held => rfl
  | mutexUnlock mutex =>
    refine ⟨mutex, Or.inr ?_⟩
    rw [read_marked (m := (false, time)) (by simp [holdMark]), h.holds]
    cases hheld : s.lockStartTimesPerMutex.lookup mutex with
    | none => rfl
    | some held => simp [handleRow, handleUnlock, hheld] at hstep
  | other => cases hstep

/-! ## All events -/

theorem handleRows_concat (rows : List Row) (row : Row) :
    handleRows (rows ++ [row]) = (handleRows rows).bind fun s => handleRow s row := by
  rw [handleRows, List.foldlM_append]
  simp [handleRows]

theorem handleRows_reads (rows : List Row) :
    (∀ s, handleRows rows = some s → Reads rows s) ∧
      (handleRows rows = none → ∃ mutex, read (rows.filterMap (waitMark mutex)) = none ∨
        read (rows.filterMap (holdMark mutex)) = none) := by
  induction rows using List.reverseRecOn with
  | nil =>
    constructor
    · intro s h
      cases h
      exact reads_nil
    · intro h
      cases h
  | append_singleton rows row ih =>
    rw [handleRows_concat]
    cases hrows : handleRows rows with
    | none =>
      constructor
      · intro s h
        cases h
      · intro _
        obtain ⟨mutex, hnone⟩ := ih.2 hrows
        refine ⟨mutex, hnone.imp (fun h => ?_) fun h => ?_⟩
        · rw [List.filterMap_append]
          exact read_append_none h _
        · rw [List.filterMap_append]
          exact read_append_none h _
    | some s =>
      have hreads := ih.1 s hrows
      exact ⟨fun t ht => hreads.row ht, fun hnone => hreads.refused hnone⟩

theorem lookup_eq_none_of_entries {d : AList fun _ : Nat => Int} (h : d.entries = [])
    (mutex : Nat) :
    d.lookup mutex = none := by
  have hempty : d = ∅ := AList.ext h
  rw [hempty]
  rfl

theorem entries_eq_nil_of_lookup {d : AList fun _ : Nat => Int}
    (h : ∀ mutex, d.lookup mutex = none) :
    d.entries = [] := by
  rw [List.eq_nil_iff_forall_not_mem]
  rintro ⟨mutex, time⟩ hmem
  have hlookup := AList.mem_lookup_iff.mpr hmem
  rw [h mutex] at hlookup
  cases hlookup

theorem analyzeThread_eq_some_iff {events : ThreadEvents} :
    analyzeThread events = some s ↔ events.rows ≠ [] ∧ handleRows events.rows = some s ∧
      s.waitStartTimesPerMutex.entries = [] ∧ s.lockStartTimesPerMutex.entries = [] := by
  by_cases hempty : events.rows = []
  · simp [analyzeThread, hempty]
  cases hrows : handleRows events.rows with
  | none => simp [analyzeThread, hempty, hrows]
  | some last =>
    by_cases hleft : last.waitStartTimesPerMutex.entries = [] ∧
        last.lockStartTimesPerMutex.entries = []
    · have hresult : analyzeThread events = some last := by
        simp [analyzeThread, hempty, hrows, hleft]
      rw [hresult]
      constructor
      · rintro ⟨rfl⟩
        exact ⟨hempty, rfl, hleft⟩
      · rintro ⟨-, heq, -⟩
        exact heq
    · have hresult : analyzeThread events = none := by simp [analyzeThread, hempty, hrows, hleft]
      rw [hresult]
      constructor
      · intro h
        cases h
      · rintro ⟨-, ⟨rfl⟩, hentries⟩
        exact absurd hentries hleft

/-- Pairs and no open end: that is what a reader has to find. -/
theorem reported_of_reads (h : Reads rows s) (hwaits : s.waitStartTimesPerMutex.entries = [])
    (hholds : s.lockStartTimesPerMutex.entries = []) : Reported rows s := by
  have hwaiting := h.waiting
  have hholding := h.holding
  refine ⟨fun m => ?_, fun m => ?_, ?_, ?_⟩
  · have hmarks := read_eq_some_iff.mp (h.waits m)
    rwa [lookup_eq_none_of_entries hwaits, Pairs.marks, Option.toList_none, List.map_nil,
      List.append_nil] at hmarks
  · have hmarks := read_eq_some_iff.mp (h.holds m)
    rwa [lookup_eq_none_of_entries hholds, Pairs.marks, Option.toList_none, List.map_nil,
      List.append_nil] at hmarks
  · simp only [total, hwaits, List.map_nil, List.sum_nil] at hwaiting
    omega
  · simp only [total, hholds, List.map_nil, List.sum_nil] at hholding
    omega

/-- A reader of pairs ends with nothing open. -/
theorem read_pairs {marks : List (Bool × Int)} {pairs : List (Int × Int)}
    (h : marks = pairs.flatMap pairMarks) : read marks = some ⟨pairs, none⟩ := by
  rw [read_eq_some_iff, h, Pairs.marks, Option.toList_none, List.map_nil, List.append_nil]

theorem accepted_of_inPairs {events : ThreadEvents} (hne : events.rows ≠ [])
    (h : InPairs events.rows) : ∃ s, analyzeThread events = some s := by
  cases hrows : handleRows events.rows with
  | none =>
    obtain ⟨mutex, hnone⟩ := (handleRows_reads events.rows).2 hrows
    obtain ⟨⟨waits, hwaits⟩, ⟨holds, hholds⟩⟩ := h mutex
    rw [read_pairs hwaits, read_pairs hholds] at hnone
    rcases hnone with hnone | hnone <;> cases hnone
  | some s =>
    have hreads := (handleRows_reads events.rows).1 s hrows
    refine ⟨s, analyzeThread_eq_some_iff.mpr ⟨hne, hrows, ?_, ?_⟩⟩
    · refine entries_eq_nil_of_lookup fun mutex => ?_
      obtain ⟨⟨waits, hwaits⟩, -⟩ := h mutex
      have hread := hreads.waits mutex
      rw [read_pairs hwaits] at hread
      exact (congrArg Pairs.opened (Option.some.inj hread)).symm
    · refine entries_eq_nil_of_lookup fun mutex => ?_
      obtain ⟨-, ⟨holds, hholds⟩⟩ := h mutex
      have hread := hreads.holds mutex
      rw [read_pairs hholds] at hread
      exact (congrArg Pairs.opened (Option.some.inj hread)).symm

theorem accepted_iff_in_pairs (events : ThreadEvents) :
    ((∃ s, analyzeThread events = some s) ↔ events.rows ≠ [] ∧ InPairs events.rows) ∧
      ∀ s, analyzeThread events = some s → Reported events.rows s := by
  have hreported : ∀ s, analyzeThread events = some s → Reported events.rows s := by
    intro s hs
    obtain ⟨-, hrows, hwaits, hholds⟩ := analyzeThread_eq_some_iff.mp hs
    exact reported_of_reads ((handleRows_reads events.rows).1 s hrows) hwaits hholds
  refine ⟨⟨?_, ?_⟩, hreported⟩
  · rintro ⟨s, hs⟩
    have h := hreported s hs
    exact ⟨(analyzeThread_eq_some_iff.mp hs).1,
      fun mutex => ⟨⟨_, h.waits mutex⟩, ⟨_, h.holds mutex⟩⟩⟩
  · rintro ⟨hne, hpairs⟩
    exact accepted_of_inPairs hne hpairs

/-- A thread that waits for a mutex again before it gives it back. -/
def waitsWhileHolding : ThreadEvents where
  rows := [⟨1, .mutexWait 7⟩, ⟨2, .mutexLock 7⟩, ⟨3, .mutexWait 7⟩, ⟨4, .mutexUnlock 7⟩,
    ⟨6, .mutexLock 7⟩, ⟨9, .mutexUnlock 7⟩]
  ordered := by decide

/-- It is accepted, with four units of waiting and five of holding. -/
theorem waitsWhileHolding_accepted : ∃ s, analyzeThread waitsWhileHolding = some s ∧
    totalWaitTimeNs s = 4 ∧ totalLockTimeNs s = 5 := by
  have hsome : (analyzeThread waitsWhileHolding).isSome = true := by decide
  obtain ⟨s, hs⟩ := Option.isSome_iff_exists.mp hsome
  have hreported := (accepted_iff_in_pairs waitsWhileHolding).2 s hs
  exact ⟨s, hs, hreported.waiting, hreported.holding⟩

end LockAccounting
