import Hiresperf.Foundation.DictSums
import Hiresperf.Foundation.Occupancy

/-!
# Locks of a thread

The lock analysis of `analyze_thread.py`: one pass over the events of a thread in
the order of their timestamps, with integrity checks that end the script. The pass
keeps the intervals in which at least one mutex is held beside the intervals of each
mutex; the total that is printed is summed over the latter. The order of the entries
of a dictionary is not read anywhere, and `mutex` is only read from the events that
have one.
-/

namespace LockAnalysis

open DictSums Occupancy

inductive ThreadEvent where
  | mutexWait (mutex : Nat)
  | mutexLock (mutex : Nat)
  | mutexUnlock (mutex : Nat)
  | other
  deriving DecidableEq

structure Row where
  timestampNs : Int
  event : ThreadEvent
  deriving DecidableEq

/-- The result of the query on `ldb_events`, with its `ORDER BY timestamp_ns`. -/
structure ThreadEvents where
  rows : List Row
  ordered : rows.Pairwise fun a b => a.timestampNs ≤ b.timestampNs

structure LockState where
  lockCount : Int
  lockIntervals : List (Int × Int)
  lockStartTime : Option Int
  waitIntervals : List (Int × Int × Nat)
  lockStartTimesPerMutex : AList fun _ : Nat => Int
  lockIntervalsPerMutex : AList fun _ : Nat => List (Int × Int)
  waitStartTimesPerMutex : AList fun _ : Nat => Int

def initial : LockState := ⟨0, [], none, [], ∅, ∅, ∅⟩

/-- `d[mutex].append(interval)` on a `defaultdict(list)`. -/
def appendInterval (d : AList fun _ : Nat => List (Int × Int)) (mutex : Nat)
    (interval : Int × Int) : AList fun _ : Nat => List (Int × Int) :=
  d.insert mutex ((d.lookup mutex).getD [] ++ [interval])

def handleWait (s : LockState) (timestampNs : Int) (mutex : Nat) : Option LockState :=
  match s.waitStartTimesPerMutex.lookup mutex with
  | some _ => none
  | none =>
    some { s with
      waitStartTimesPerMutex := s.waitStartTimesPerMutex.insert mutex timestampNs }

def handleLock (s : LockState) (timestampNs : Int) (mutex : Nat) : Option LockState :=
  match s.waitStartTimesPerMutex.lookup mutex with
  | none => none
  | some startTime =>
    match s.lockStartTimesPerMutex.lookup mutex with
    | some _ => none
    | none =>
      some { s with
        waitStartTimesPerMutex := s.waitStartTimesPerMutex.erase mutex
        waitIntervals := s.waitIntervals ++ [(startTime, timestampNs, mutex)]
        lockStartTime := if s.lockCount = 0 then some timestampNs else s.lockStartTime
        lockCount := s.lockCount + 1
        lockStartTimesPerMutex := s.lockStartTimesPerMutex.insert mutex timestampNs }

/-- The end of an unlock: `lock_count` has already been decremented. -/
def closeInterval (s : LockState) (timestampNs : Int) : LockState :=
  match s.lockStartTime with
  | none => s
  | some lockStartTime =>
    if s.lockCount = 0 then
      { s with
        lockIntervals := s.lockIntervals ++ [(lockStartTime, timestampNs)]
        lockStartTime := none }
    else s

def handleUnlock (s : LockState) (timestampNs : Int) (mutex : Nat) : Option LockState :=
  match s.lockStartTimesPerMutex.lookup mutex with
  | none => none
  | some startTime =>
    some (closeInterval
      { s with
        lockCount := s.lockCount - 1
        lockStartTimesPerMutex := s.lockStartTimesPerMutex.erase mutex
        lockIntervalsPerMutex :=
          appendInterval s.lockIntervalsPerMutex mutex (startTime, timestampNs) }
      timestampNs)

/-- One turn of the loop; `none` is `sys.exit(1)`. -/
def handleRow (s : LockState) (row : Row) : Option LockState :=
  match row.event with
  | .mutexWait mutex => handleWait s row.timestampNs mutex
  | .mutexLock mutex => handleLock s row.timestampNs mutex
  | .mutexUnlock mutex => handleUnlock s row.timestampNs mutex
  | .other => some s

def handleRows (rows : List Row) : Option LockState := rows.foldlM handleRow initial

/-- The lock analysis of a thread, up to the checks for mutexes that are left. -/
def analyzeThread (events : ThreadEvents) : Option LockState :=
  if events.rows = [] then none
  else
    match handleRows events.rows with
    | none => none
    | some s =>
      if s.waitStartTimesPerMutex.entries = [] ∧ s.lockStartTimesPerMutex.entries = [] then some s
      else none

def totalWaitTimeNs (s : LockState) : Int :=
  (s.waitIntervals.map fun interval => interval.2.1 - interval.1).sum

/-- Printed as the total time holding at least one lock. -/
def totalLockTimeNs (s : LockState) : Int :=
  total (fun intervals => (intervals.map lengthOf).sum) s.lockIntervalsPerMutex

/-! ## What is held -/

def hold (held : Finset Nat) : ThreadEvent → Finset Nat
  | .mutexWait _ => held
  | .mutexLock mutex => insert mutex held
  | .mutexUnlock mutex => held.erase mutex
  | .other => held

/-- The mutexes that are held after the first `n` events. -/
def heldAfter (rows : List Row) (n : Nat) : Finset Nat :=
  (rows.take n).foldl (fun held row => hold held row.event) ∅

def heldCount (rows : List Row) (n : Nat) : Nat := (heldAfter rows n).card

/-- The timestamp of an event, by its place in the list. -/
def timeOf (rows : List Row) (k : Nat) : Int := (rows[k]?.map Row.timestampNs).getD 0

/-- What the analysis is to find out about holding locks: a period begins with the event
that takes the first mutex and ends with the one that gives back the last. -/
structure HoldingTimeRight (events : ThreadEvents) (s : LockState) : Prop where
  counted : ∀ n ≤ events.rows.length, ∃ mid, handleRows (events.rows.take n) = some mid ∧
    mid.lockCount = heldCount events.rows n
  intervals : ∃ periods : List (Nat × Nat), periods.Pairwise (fun p q => p.2 < q.1) ∧
    (∀ i j, (i, j) ∈ periods ↔ IsPeriod (heldCount events.rows) i j) ∧
    s.lockIntervals = periods.map (endpoints (timeOf events.rows))
  reported : totalLockTimeNs s = (s.lockIntervals.map lengthOf).sum
  span : totalLockTimeNs s ≤ timeOf events.rows (events.rows.length - 1) - timeOf events.rows 0

/-- No time passes from one event to the next while two mutexes or more are held. -/
def NoOverlap (rows : List Row) : Prop :=
  ∀ k, k + 1 < rows.length → 2 ≤ heldCount rows (k + 1) → timeOf rows k = timeOf rows (k + 1)

instance (rows : List Row) : Decidable (NoOverlap rows) :=
  decidable_of_iff (∀ k < rows.length - 1,
      2 ≤ heldCount rows (k + 1) → timeOf rows k = timeOf rows (k + 1))
    ⟨fun h k hk => h k (by omega), fun h k hk => h k (by omega)⟩

/-! ## One event -/

theorem handleWait_cases {s t : LockState} {timestampNs : Int} {mutex : Nat}
    (h : handleWait s timestampNs mutex = some t) :
    t = { s with
      waitStartTimesPerMutex := s.waitStartTimesPerMutex.insert mutex timestampNs } := by
  cases hwait : s.waitStartTimesPerMutex.lookup mutex with
  | some start => simp [handleWait, hwait] at h
  | none => simpa [handleWait, hwait] using h.symm

theorem handleLock_cases {s t : LockState} {timestampNs : Int} {mutex : Nat}
    (h : handleLock s timestampNs mutex = some t) :
    s.lockStartTimesPerMutex.lookup mutex = none ∧ ∃ startTime,
      t = { s with
        waitStartTimesPerMutex := s.waitStartTimesPerMutex.erase mutex
        waitIntervals := s.waitIntervals ++ [(startTime, timestampNs, mutex)]
        lockStartTime := if s.lockCount = 0 then some timestampNs else s.lockStartTime
        lockCount := s.lockCount + 1
        lockStartTimesPerMutex := s.lockStartTimesPerMutex.insert mutex timestampNs } := by
  cases hwait : s.waitStartTimesPerMutex.lookup mutex with
  | none => simp [handleLock, hwait] at h
  | some startTime =>
    cases hheld : s.lockStartTimesPerMutex.lookup mutex with
    | some _ => simp [handleLock, hwait, hheld] at h
    | none => exact ⟨rfl, startTime, by simpa [handleLock, hwait, hheld] using h.symm⟩

theorem handleUnlock_cases {s t : LockState} {timestampNs : Int} {mutex : Nat}
    (h : handleUnlock s timestampNs mutex = some t) :
    ∃ startTime, s.lockStartTimesPerMutex.lookup mutex = some startTime ∧
      t = closeInterval
        { s with
          lockCount := s.lockCount - 1
          lockStartTimesPerMutex := s.lockStartTimesPerMutex.erase mutex
          lockIntervalsPerMutex :=
            appendInterval s.lockIntervalsPerMutex mutex (startTime, timestampNs) }
        timestampNs := by
  cases hheld : s.lockStartTimesPerMutex.lookup mutex with
  | none => simp [handleUnlock, hheld] at h
  | some startTime => exact ⟨startTime, rfl, by simpa [handleUnlock, hheld] using h.symm⟩

/-- Closing the interval is about `lock_intervals` only. -/
theorem closeInterval_frame (s : LockState) (timestampNs : Int) :
    (closeInterval s timestampNs).lockCount = s.lockCount ∧
      (closeInterval s timestampNs).lockStartTimesPerMutex = s.lockStartTimesPerMutex ∧
      (closeInterval s timestampNs).lockIntervalsPerMutex = s.lockIntervalsPerMutex := by
  cases hstart : s.lockStartTime with
  | none => simp [closeInterval, hstart]
  | some start =>
    by_cases hzero : s.lockCount = 0
    · simp [closeInterval, hstart, hzero]
    · simp [closeInterval, hstart, hzero]

/-- An interval that is appended adds its length to the total. -/
theorem total_appendInterval (d : AList fun _ : Nat => List (Int × Int)) (mutex : Nat)
    (interval : Int × Int) :
    total (fun intervals => (intervals.map lengthOf).sum) (appendInterval d mutex interval) =
      total (fun intervals => (intervals.map lengthOf).sum) d + lengthOf interval := by
  rw [appendInterval, total_insert]
  cases hlookup : d.lookup mutex with
  | none =>
    rw [erase_of_lookup_none hlookup]
    simp
    omega
  | some intervals =>
    rw [total_erase _ hlookup]
    simp
    omega

theorem timeOf_eq {rows : List Row} {n : Nat} {row : Row} (h : rows[n]? = some row) :
    timeOf rows n = row.timestampNs := by
  simp [timeOf, h]

theorem heldAfter_succ {rows : List Row} {n : Nat} {row : Row} (h : rows[n]? = some row) :
    heldAfter rows (n + 1) = hold (heldAfter rows n) row.event := by
  simp [heldAfter, List.take_add_one, h]

/-- The state after the first `n` events. `summed` counts the mutexes that are still held
up to the time of the last event. -/
structure Tracks (rows : List Row) (n : Nat) (s : LockState) : Prop where
  held : keySet s.lockStartTimesPerMutex = heldAfter rows n
  count : s.lockCount = heldCount rows n
  scanned : ∃ periods start, Scanned (heldCount rows) (timeOf rows) n periods start ∧
    s.lockIntervals = periods.map (endpoints (timeOf rows)) ∧
    s.lockStartTime = start.map (timeOf rows)
  summed : totalLockTimeNs s +
      total (fun start => timeOf rows (n - 1) - start) s.lockStartTimesPerMutex =
    userTime (heldCount rows) (timeOf rows) n

theorem tracks_zero (rows : List Row) : Tracks rows 0 initial where
  held := rfl
  count := rfl
  scanned := ⟨[], none, scanned_zero rfl, rfl, rfl⟩
  summed := rfl

/-- The time until the next event passes for each mutex that is held. -/
theorem Tracks.until_next {rows : List Row} {n : Nat} {s : LockState} (h : Tracks rows n s) :
    totalLockTimeNs s + total (fun start => timeOf rows n - start) s.lockStartTimesPerMutex =
      userTime (heldCount rows) (timeOf rows) (n + 1) := by
  have hcard : s.lockStartTimesPerMutex.keys.length = heldCount rows n := by
    rw [← keySet_card, h.held, heldCount]
  have hshift := total_shift (fun start => timeOf rows (n - 1) - start)
    (timeOf rows n - timeOf rows (n - 1)) s.lockStartTimesPerMutex
  have hsame : (fun start => timeOf rows (n - 1) - start + (timeOf rows n - timeOf rows (n - 1))) =
      fun start => timeOf rows n - start := by
    funext start
    omega
  rw [hsame, hcard] at hshift
  have hsummed := h.summed
  rw [userTime]
  omega

/-- An event that is not about holding a lock. -/
theorem Tracks.unchanged {rows : List Row} {n : Nat} {s t : LockState} (h : Tracks rows n s)
    (hheld : heldAfter rows (n + 1) = heldAfter rows n) (hcount : t.lockCount = s.lockCount)
    (hintervals : t.lockIntervals = s.lockIntervals) (hstart : t.lockStartTime = s.lockStartTime)
    (hmutexes : t.lockStartTimesPerMutex = s.lockStartTimesPerMutex)
    (htotal : t.lockIntervalsPerMutex = s.lockIntervalsPerMutex) : Tracks rows (n + 1) t := by
  have hlevel : heldCount rows (n + 1) = heldCount rows n := by rw [heldCount, hheld, heldCount]
  obtain ⟨periods, start, hscan, hints, hst⟩ := h.scanned
  refine ⟨?_, ?_, ⟨periods, start, hscan.unchanged hlevel, ?_, ?_⟩, ?_⟩
  · rw [hmutexes, hheld, h.held]
  · rw [hcount, hlevel, h.count]
  · rw [hintervals, hints]
  · rw [hstart, hst]
  · rw [totalLockTimeNs, htotal, hmutexes]
    exact h.until_next

theorem Tracks.lock {rows : List Row} {n : Nat} {s t : LockState} {timestampNs : Int} {mutex : Nat}
    (h : Tracks rows n s) (hrow : rows[n]? = some ⟨timestampNs, .mutexLock mutex⟩)
    (hstep : handleLock s timestampNs mutex = some t) : Tracks rows (n + 1) t := by
  obtain ⟨hnew, startTime, rfl⟩ := handleLock_cases hstep
  have htime : timeOf rows n = timestampNs := timeOf_eq hrow
  have hheld : heldAfter rows (n + 1) = insert mutex (heldAfter rows n) := heldAfter_succ hrow
  have hnot : mutex ∉ heldAfter rows n := by
    rw [← h.held, mem_keySet, hnew]
    simp
  have hlevel : heldCount rows (n + 1) = heldCount rows n + 1 := by
    rw [heldCount, hheld, Finset.card_insert_of_notMem hnot, heldCount]
  refine ⟨?_, ?_, ?_, ?_⟩
  · rw [keySet_insert, h.held, hheld]
  · change s.lockCount + 1 = _
    rw [h.count, hlevel]
    rfl
  · obtain ⟨periods, start, hscan, hints, hst⟩ := h.scanned
    cases start with
    | none =>
      -- the first mutex: a period begins here
      have hzero : s.lockCount = 0 := by rw [h.count, hscan.idle.mp rfl]; rfl
      refine ⟨periods, some n, hscan.begin (by omega), hints, ?_⟩
      simp [hzero, htime]
    | some i =>
      have hused : s.lockCount ≠ 0 := by
        intro hzero
        have hidle : heldCount rows n = 0 := by have := h.count; omega
        cases hscan.idle.mpr hidle
      refine ⟨periods, some i, hscan.stay_used (by omega), hints, ?_⟩
      simp [hused, hst]
  · have huntil := h.until_next
    rw [Nat.add_sub_cancel, total_insert_new _ hnew]
    change totalLockTimeNs s + _ = _
    omega

theorem Tracks.unlock {rows : List Row} {n : Nat} {s t : LockState} {timestampNs : Int}
    {mutex : Nat} (h : Tracks rows n s) (hrow : rows[n]? = some ⟨timestampNs, .mutexUnlock mutex⟩)
    (hstep : handleUnlock s timestampNs mutex = some t) : Tracks rows (n + 1) t := by
  obtain ⟨startTime, hmutex, rfl⟩ := handleUnlock_cases hstep
  have htime : timeOf rows n = timestampNs := timeOf_eq hrow
  have hheld : heldAfter rows (n + 1) = (heldAfter rows n).erase mutex := heldAfter_succ hrow
  have hmem : mutex ∈ heldAfter rows n := by
    rw [← h.held, mem_keySet, hmutex]
    rfl
  have hlevel : heldCount rows (n + 1) + 1 = heldCount rows n := by
    rw [heldCount, hheld, Finset.card_erase_add_one hmem, heldCount]
  have hcount : s.lockCount - 1 = heldCount rows (n + 1) := by
    have := h.count
    omega
  obtain ⟨hclosed, hmutexes, hper⟩ := closeInterval_frame
    { s with
      lockCount := s.lockCount - 1
      lockStartTimesPerMutex := s.lockStartTimesPerMutex.erase mutex
      lockIntervalsPerMutex :=
        appendInterval s.lockIntervalsPerMutex mutex (startTime, timestampNs) } timestampNs
  refine ⟨?_, hclosed.trans hcount, ?_, ?_⟩
  · rw [hmutexes, keySet_erase, h.held, hheld]
  · obtain ⟨periods, start, hscan, hints, hst⟩ := h.scanned
    cases start with
    | none =>
      have hidle := hscan.idle.mp rfl
      omega
    | some i =>
      have hsome : s.lockStartTime = some (timeOf rows i) := hst
      by_cases hlast : heldCount rows (n + 1) = 0
      · -- the last mutex: the period ends here
        have hzero : s.lockCount - 1 = 0 := by omega
        refine ⟨periods ++ [(i, n)], none, hscan.finish hlast, ?_, ?_⟩
        · simp [closeInterval, hsome, hzero, hints, endpoints, htime]
        · simp [closeInterval, hsome, hzero]
      · have hzero : s.lockCount - 1 ≠ 0 := by omega
        refine ⟨periods, some i, hscan.stay_used hlast, ?_, ?_⟩
        · simp [closeInterval, hsome, hzero, hints]
        · simp [closeInterval, hsome, hzero]
  · have huntil := h.until_next
    rw [total_erase _ hmutex] at huntil
    rw [totalLockTimeNs, hper, total_appendInterval, hmutexes, Nat.add_sub_cancel]
    simp only [totalLockTimeNs, lengthOf] at huntil ⊢
    omega

/-- One turn of the loop. -/
theorem Tracks.step {rows : List Row} {n : Nat} {s t : LockState} {row : Row}
    (h : Tracks rows n s) (hrow : rows[n]? = some row) (hstep : handleRow s row = some t) :
    Tracks rows (n + 1) t := by
  obtain ⟨timestampNs, event⟩ := row
  cases event with
  | mutexWait mutex =>
    have ht := handleWait_cases hstep
    exact h.unchanged (heldAfter_succ hrow) (by rw [ht]) (by rw [ht]) (by rw [ht]) (by rw [ht])
      (by rw [ht])
  | mutexLock mutex => exact h.lock hrow hstep
  | mutexUnlock mutex => exact h.unlock hrow hstep
  | other =>
    obtain rfl : s = t := Option.some.inj hstep
    exact h.unchanged (heldAfter_succ hrow) rfl rfl rfl rfl rfl

/-! ## A whole run -/

theorem handleRows_append {before after : List Row} {s : LockState}
    (h : handleRows (before ++ after) = some s) :
    ∃ mid, handleRows before = some mid ∧ after.foldlM handleRow mid = some s := by
  rw [handleRows, List.foldlM_append] at h
  exact Option.bind_eq_some_iff.mp h

theorem handleRows_tracks {rows : List Row} {n : Nat} {s : LockState} (hn : n ≤ rows.length)
    (h : handleRows (rows.take n) = some s) : Tracks rows n s := by
  induction n generalizing s with
  | zero =>
    obtain rfl : initial = s := Option.some.inj h
    exact tracks_zero rows
  | succ n ih =>
    have hrow : rows[n]? = some rows[n] := List.getElem?_eq_getElem hn
    rw [List.take_add_one, hrow] at h
    obtain ⟨mid, hmid, hlast⟩ := handleRows_append h
    have hstep : handleRow mid rows[n] = some s := by simpa using hlast
    exact (ih (Nat.le_of_succ_le hn) hmid).step hrow hstep

theorem timeOf_ordered (events : ThreadEvents) :
    Ordered (timeOf events.rows) events.rows.length := by
  intro k hk
  cases k with
  | zero => exact Int.le_refl _
  | succ k =>
    have hle := List.pairwise_iff_getElem.mp events.ordered k (k + 1) (by omega) hk (by omega)
    simpa [timeOf, hk, Nat.lt_of_succ_lt hk] using hle

theorem noOverlap_iff (rows : List Row) :
    NoOverlap rows ↔ OneAtATime (heldCount rows) (timeOf rows) rows.length := by
  constructor
  · intro h k hk htwo
    cases k with
    | zero => rfl
    | succ k => exact (h k hk htwo).symm
  · intro h k hk htwo
    exact (h (k + 1) hk htwo).symm

/-- What the checks at the end of the script add: no mutex is held any more. -/
theorem analyzeThread_cases {events : ThreadEvents} {s : LockState}
    (h : analyzeThread events = some s) :
    handleRows events.rows = some s ∧ s.lockStartTimesPerMutex.entries = [] := by
  by_cases hempty : events.rows = []
  · simp [analyzeThread, hempty] at h
  · cases hrows : handleRows events.rows with
    | none => simp [analyzeThread, hempty, hrows] at h
    | some last =>
      by_cases hleft : last.waitStartTimesPerMutex.entries = [] ∧
          last.lockStartTimesPerMutex.entries = []
      · obtain rfl : last = s := by simpa [analyzeThread, hempty, hrows, hleft] using h
        exact ⟨rfl, hleft.2⟩
      · simp [analyzeThread, hempty, hrows, hleft] at h

theorem analyzeThread_tracks {events : ThreadEvents} {s : LockState}
    (h : analyzeThread events = some s) : Tracks events.rows events.rows.length s := by
  obtain ⟨hrows, -⟩ := analyzeThread_cases h
  apply handleRows_tracks (Nat.le_refl _)
  rwa [List.take_length]

/-- Nobody holds a mutex after the last event, so no period reaches beyond it. -/
theorem period_in_rows {rows : List Row} (hend : heldCount rows rows.length = 0) {i j : Nat}
    (hp : IsPeriod (heldCount rows) i j) : j < rows.length := by
  by_contra hge
  have hlast : heldCount rows j = heldCount rows rows.length := by
    rw [heldCount, heldCount, heldAfter, heldAfter, List.take_of_length_le (by omega),
      List.take_length]
  exact hp.during j hp.nonempty (Nat.le_refl j) (hlast.trans hend)

theorem analyzeThread_intervals {events : ThreadEvents} {s : LockState}
    (h : analyzeThread events = some s) :
    ∃ periods : List (Nat × Nat), periods.Pairwise (fun p q => p.2 < q.1) ∧
      (∀ i j, (i, j) ∈ periods ↔ IsPeriod (heldCount events.rows) i j) ∧
      s.lockIntervals = periods.map (endpoints (timeOf events.rows)) ∧
      (s.lockIntervals.map lengthOf).sum =
        usedTime (heldCount events.rows) (timeOf events.rows) events.rows.length := by
  obtain ⟨-, hleft⟩ := analyzeThread_cases h
  have htracks := analyzeThread_tracks h
  have hend : heldCount events.rows events.rows.length = 0 := by
    rw [heldCount, ← htracks.held, keySet, AList.keys, hleft]
    rfl
  obtain ⟨periods, start, hscan, hints, -⟩ := htracks.scanned
  obtain rfl : start = none := hscan.idle.mpr hend
  refine ⟨periods, hscan.sorted, ?_, hints, ?_⟩
  · intro i j
    rw [hscan.exact]
    exact ⟨fun hp => hp.1, fun hp => ⟨hp, period_in_rows hend hp⟩⟩
  · have hlen := hscan.length
    rw [hints]
    simpa using hlen

/-- The printed total counts the time for each mutex. -/
theorem totalLockTimeNs_eq {events : ThreadEvents} {s : LockState}
    (h : analyzeThread events = some s) :
    totalLockTimeNs s =
      userTime (heldCount events.rows) (timeOf events.rows) events.rows.length := by
  obtain ⟨-, hleft⟩ := analyzeThread_cases h
  have htracks := analyzeThread_tracks h
  have hsummed := htracks.summed
  rw [total, hleft] at hsummed
  simpa using hsummed

theorem lockCount_eq {events : ThreadEvents} {s : LockState} (h : analyzeThread events = some s)
    {n : Nat} (hn : n ≤ events.rows.length) :
    ∃ mid, handleRows (events.rows.take n) = some mid ∧
      mid.lockCount = heldCount events.rows n := by
  obtain ⟨hrows, -⟩ := analyzeThread_cases h
  rw [← List.take_append_drop n events.rows] at hrows
  obtain ⟨mid, hmid, -⟩ := handleRows_append hrows
  exact ⟨mid, hmid, (handleRows_tracks hn hmid).count⟩

/-- The count and the intervals are always right. The total is only if no time passes while
two mutexes are held: it is summed over the intervals of each mutex. -/
theorem holdingTimeRight_iff {events : ThreadEvents} {s : LockState}
    (h : analyzeThread events = some s) : HoldingTimeRight events s ↔ NoOverlap events.rows := by
  obtain ⟨periods, hsorted, hexact, hints, hused⟩ := analyzeThread_intervals h
  have htotal := totalLockTimeNs_eq h
  have hordered := timeOf_ordered events
  rw [noOverlap_iff, ← userTime_eq_usedTime_iff hordered, ← htotal, ← hused]
  constructor
  · exact fun hright => hright.reported
  · intro hreported
    refine ⟨fun n hn => lockCount_eq h hn, ⟨periods, hsorted, hexact, hints⟩, hreported, ?_⟩
    rw [hreported, hused]
    exact usedTime_le_span hordered

/-- One mutex after the other, and a moment with two of them. -/
def handOver : ThreadEvents where
  rows := [⟨10, .mutexWait 1⟩, ⟨12, .mutexLock 1⟩, ⟨20, .other⟩, ⟨30, .mutexWait 2⟩,
    ⟨30, .mutexLock 2⟩, ⟨30, .mutexUnlock 1⟩, ⟨45, .mutexUnlock 2⟩]
  ordered := by decide

theorem handOver_holding_time :
    ∃ s, analyzeThread handOver = some s ∧ HoldingTimeRight handOver s ∧
      totalLockTimeNs s = 33 := by
  obtain ⟨s, hs⟩ : ∃ s, analyzeThread handOver = some s :=
    Option.isSome_iff_exists.mp (by decide)
  have htotal : (analyzeThread handOver).map totalLockTimeNs = some 33 := by decide
  exact ⟨s, hs, (holdingTimeRight_iff hs).mpr (by decide), by simpa [hs] using htotal⟩

/-- A second mutex is taken and given back while the first one is held. -/
def nestedLocks : ThreadEvents where
  rows := [⟨0, .mutexWait 1⟩, ⟨0, .mutexLock 1⟩, ⟨10, .mutexWait 2⟩, ⟨10, .mutexLock 2⟩,
    ⟨20, .mutexUnlock 2⟩, ⟨30, .mutexUnlock 1⟩]
  ordered := by decide

/-- The total is 40 ns in a thread whose events lie within 30 ns. -/
theorem nested_locks_counted_twice :
    ∃ s, analyzeThread nestedLocks = some s ∧ s.lockIntervals = [(0, 30)] ∧
      totalLockTimeNs s = 40 ∧ ¬ HoldingTimeRight nestedLocks s := by
  obtain ⟨s, hs⟩ : ∃ s, analyzeThread nestedLocks = some s :=
    Option.isSome_iff_exists.mp (by decide)
  have hints : (analyzeThread nestedLocks).map LockState.lockIntervals = some [(0, 30)] := by decide
  have htotal : (analyzeThread nestedLocks).map totalLockTimeNs = some 40 := by decide
  simp only [hs, Option.map_some, Option.some.injEq] at hints htotal
  refine ⟨s, hs, hints, htotal, ?_⟩
  intro hright
  have hspan := hright.span
  rw [htotal] at hspan
  exact absurd hspan (by decide)

end LockAnalysis
