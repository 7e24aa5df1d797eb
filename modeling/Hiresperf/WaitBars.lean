import Hiresperf.FlameGraph
import Hiresperf.Foundation.Pairing
import Hiresperf.LdbEvents

/-!
# The waits of an invocation

The timelines of `draw_flamegraph` that show how long the thread waited for a mutex or
for another thread, in both scripts called `draw_invocation.py`: the one that reads the
tables of `parse_ldb.py`, and the one in `ldb_analysis` that reads the invocations of
`parse_func.py`. A wait lasts until the mutex is locked or the thread is joined.

The columns of the mutexes and of the threads are null in most rows, so that the data
frames hold floats, in which a null is not a number; such a value is true, and not equal
to itself. The first script finds the thread of a join in one of two such columns. The
second has the numbers of the log, and ends with an error for an invocation that takes
no time.
-/

namespace WaitBars

open AnalysisDatabase BinaryFormat FlameGraph FunctionSearch InvocationMetrics LdbDecoders LdbEvents
open Pairing

/-! ## Both scripts -/

structure WaitBar where
  startNs : Int
  endNs : Int
  startX : Option ℚ
  rectWidth : Option ℚ

def waitBar (invocation : FoundInvocation) (period : Int × Int) : WaitBar where
  startNs := period.1
  endNs := period.2
  startX := timeToX invocation period.1
  rectWidth := width (timeToX invocation period.1) (timeToX invocation period.2)

def within (invocation : FoundInvocation) (timestampNs : Nat) : Bool :=
  decide (invocation.startTimeNs ≤ timestampNs) &&
    decide ((timestampNs : Int) ≤ invocation.endTimeNs)

/-! ## `draw_invocation.py` -/

/-- `events_df`, sorted by time. -/
def dbEvents (invocation : FoundInvocation) (rows : List LdbRow) : List LdbRow :=
  (rows.filter fun row => (row.event.threadId : Int) == invocation.threadId &&
      within invocation row.event.timestampNs).mergeSort
    fun a b => decide (a.event.timestampNs ≤ b.event.timestampNs)

/-- What a column of integers and nulls holds as floats. -/
def floatCell (cell : Option Nat) : Option ℚ := cell.map fun n : Nat => binary64.round n

/-- Equality where a null is not a number. -/
def cellTest {A : Type} [DecidableEq A] : KeyTest (Option A) where
  same a b := a.isSome && a == b
  symm a b := by cases a <;> cases b <;> simp [eq_comm]
  trans a b c := by cases a <;> cases b <;> cases c <;> simp +contextual

/-- `a or b`. -/
def orCell (a b : Option ℚ) : Option ℚ := if a = some 0 then b else a

def mutexMark (e : LdbEvent) : Option (Mark (Option ℚ) Int) :=
  if e.eventType = eventMutexWait then some (.opens (floatCell e.mutex) e.timestampNs)
  else if e.eventType = eventMutexLock then some (.closes (floatCell e.mutex) e.timestampNs)
  else none

def joinId (e : LdbEvent) : Option ℚ := orCell (floatCell e.threadToJoin) (floatCell e.threadJoined)

def joinMark (e : LdbEvent) : Option (Mark (Option ℚ) Int) :=
  if e.eventType = eventJoinWait then some (.opens (joinId e) e.timestampNs)
  else if e.eventType = eventJoinJoined then some (.closes (joinId e) e.timestampNs)
  else none

def dbBars (mark : LdbEvent → Option (Mark (Option ℚ) Int)) (invocation : FoundInvocation)
    (rows : List LdbRow) : List WaitBar :=
  ((scan cellTest ((dbEvents invocation rows).filterMap fun row => mark row.event)).periods
    invocation.endTimeNs).map (waitBar invocation)

def mutexBars : FoundInvocation → List LdbRow → List WaitBar := dbBars mutexMark

def joinBars : FoundInvocation → List LdbRow → List WaitBar := dbBars joinMark

/-! ## `ldb_analysis/draw_invocation.py` -/

def byTime (a b : FuncEvent) : Bool := decide (a.timestampNs ≤ b.timestampNs)

/-- The events of an invocation of `parse_func.py`, sorted once more before they are drawn. -/
def fileEvents (invocation : FoundInvocation) (threadEvents : List FuncEvent) : List FuncEvent :=
  ((threadEvents.mergeSort byTime).filter fun e => within invocation e.timestampNs).mergeSort byTime

/-- Both timelines: the key is the first argument of the event. -/
def argMark (waitType endType : Nat) (e : FuncEvent) : Option (Mark Nat Int) :=
  if e.eventType = waitType then some (.opens e.arg1 e.timestampNs)
  else if e.eventType = endType then some (.closes e.arg1 e.timestampNs)
  else none

/-- The times are of type `int` here: the bar of the invocation itself, which is drawn first,
divides by zero if it takes no time. -/
def fileBars (waitType endType : Nat) (invocation : FoundInvocation)
    (threadEvents : List FuncEvent) : Option (List WaitBar) :=
  if invocation.endTimeNs - invocation.startTimeNs = 0 then none
  else some
    (((scan KeyTest.equal ((fileEvents invocation threadEvents).filterMap
      (argMark waitType endType))).periods invocation.endTimeNs).map (waitBar invocation))

def mutexBarsFile : FoundInvocation → List FuncEvent → Option (List WaitBar) :=
  fileBars eventMutexWait eventMutexLock

def joinBarsFile : FoundInvocation → List FuncEvent → Option (List WaitBar) :=
  fileBars eventJoinWait eventJoinJoined

/-! ## What is waited for -/

/-- The records of the thread of an invocation in its time, by time. -/
def invocationRecords (invocation : FoundInvocation) (ldbData : List UInt8) : List Record :=
  ((readRecords ldbData).filter fun r => (r.tid : Int) == invocation.threadId &&
    within invocation r.timestampNs).mergeSort fun a b => decide (a.timestampNs ≤ b.timestampNs)

def recordMark (waitType endType : Nat) (r : Record) : Option (Mark Nat Int) :=
  if r.eventType = waitType then some (.opens r.arg1 r.timestampNs)
  else if r.eventType = endType then some (.closes r.arg1 r.timestampNs)
  else none

/-- The waits for what the first argument names, each with its end. -/
def waits (waitType endType : Nat) (invocation : FoundInvocation) (ldbData : List UInt8) :
    List (Int × Int) :=
  periods KeyTest.equal invocation.endTimeNs
    ((invocationRecords invocation ldbData).filterMap (recordMark waitType endType))

/-- A wait for a thread, as the database script finds it again: one for the thread 0 never. -/
def lastMark (r : Record) : Option (Mark (Option Nat) Int) :=
  if r.eventType = eventJoinWait then
    some (.opens (if r.arg1 = 0 then none else some r.arg1) r.timestampNs)
  else none

/-- Of the waits for a thread the last one, until the end of the invocation. -/
def lastWaits (invocation : FoundInvocation) (ldbData : List UInt8) : List (Int × Int) :=
  periods cellTest invocation.endTimeNs
    ((invocationRecords invocation ldbData).filterMap lastMark)

/-- The numbers of the mutexes and of the threads fit a `float`. -/
def SmallIds (ldbData : List UInt8) : Prop :=
  ∀ r ∈ readRecords ldbData, eventMutexWait ≤ r.eventType → r.eventType ≤ eventJoinJoined →
    r.arg1 < 2 ^ 53

/-- Both scripts show the waits for mutexes, and the one without tables those for threads. The
other shows the last wait for each thread as if the thread were never joined. -/
structure WaitsShown (input : LdbInput) (invocation : FoundInvocation) (tid : Nat) : Prop where
  mutexes : (mutexBars invocation input.rows).Perm
    ((waits eventMutexWait eventMutexLock invocation input.ldbData).map (waitBar invocation))
  mutexesFile : ∃ bars,
    mutexBarsFile invocation ((parseFuncData input.ldbData).threadEvents tid) = some bars ∧
      bars.Perm ((waits eventMutexWait eventMutexLock invocation input.ldbData).map
        (waitBar invocation))
  joinsFile : ∃ bars,
    joinBarsFile invocation ((parseFuncData input.ldbData).threadEvents tid) = some bars ∧
      bars.Perm ((waits eventJoinWait eventJoinJoined invocation input.ldbData).map
        (waitBar invocation))
  joins : (joinBars invocation input.rows).Perm
    ((lastWaits invocation input.ldbData).map (waitBar invocation))
  unjoined : ∀ bar ∈ joinBars invocation input.rows, bar.endNs = invocation.endTimeNs
  differ : (∃ wait ∈ waits eventJoinWait eventJoinJoined invocation input.ldbData,
      wait.2 ≠ invocation.endTimeNs) →
    ∀ bars, joinBarsFile invocation ((parseFuncData input.ldbData).threadEvents tid) = some bars →
      ¬(joinBars invocation input.rows).Perm bars

/-! ## Sorting -/

section Sorting

variable {A B : Type} {M : Type}

theorem takeWhile_split {q : A → Bool} {before after : List A} (hbefore : ∀ a ∈ before, q a = true)
    (hafter : ∀ a ∈ after, q a = false) : (before ++ after).takeWhile q = before := by
  rw [List.takeWhile_append_of_pos hbefore]
  cases after with
  | nil => simp
  | cons a after => simp [hafter a List.mem_cons_self]

/-- A stable sort keeps the order of what a filter leaves. -/
theorem filter_mergeSort_by (time : A → Nat) (q : A → Bool) (l : List A) :
    (l.mergeSort fun a b => decide (time a ≤ time b)).filter q =
      (l.filter q).mergeSort fun a b => decide (time a ≤ time b) := by
  have htrans : ∀ a b c : A, decide (time a ≤ time b) = true → decide (time b ≤ time c) = true →
      decide (time a ≤ time c) = true := by
    simpa using fun a b c => le_trans
  have htotal : ∀ a b : A, (decide (time a ≤ time b) || decide (time b ≤ time a)) = true := by
    simpa using fun a b : A => le_total (time a) (time b)
  induction l with
  | nil => simp
  | cons a l ih =>
    obtain ⟨l₁, l₂, hsort, hrest, hless⟩ := List.mergeSort_cons htrans htotal a l
    cases hq : q a with
    | false =>
      have hfilter : (a :: l).filter q = l.filter q := by simp [hq]
      rw [hfilter, ← ih, hsort, hrest, List.filter_append, List.filter_append]
      simp [hq]
    | true =>
      obtain ⟨m₁, m₂, hsort', hrest', hless'⟩ := List.mergeSort_cons htrans htotal a (l.filter q)
      have hgreater : ∀ b ∈ l₂, (!decide (time a ≤ time b)) = false := by
        have hpairs := List.pairwise_mergeSort htrans htotal (a :: l)
        rw [hsort] at hpairs
        intro b hb
        simpa using (List.pairwise_cons.mp (List.pairwise_append.mp hpairs).2.1).1 b hb
      have hgreater' : ∀ b ∈ m₂, (!decide (time a ≤ time b)) = false := by
        have hpairs := List.pairwise_mergeSort htrans htotal (a :: l.filter q)
        rw [hsort'] at hpairs
        intro b hb
        simpa using (List.pairwise_cons.mp (List.pairwise_append.mp hpairs).2.1).1 b hb
      -- both are the sorted rest, split where the times reach that of `a`
      have hsame : l₁.filter q ++ l₂.filter q = m₁ ++ m₂ := by
        rw [← List.filter_append, ← hrest, ih, hrest']
      have hfirst : l₁.filter q = m₁ := by
        rw [← takeWhile_split (fun b hb => hless b (List.mem_filter.mp hb).1)
          (fun b hb => hgreater b (List.mem_filter.mp hb).1), hsame,
          takeWhile_split hless' hgreater']
      have hlast : l₂.filter q = m₂ := by
        rw [hfirst] at hsame
        exact List.append_cancel_left hsame
      have hfilter : (a :: l).filter q = a :: l.filter q := by simp [hq]
      rw [hfilter, hsort, hsort', List.filter_append, List.filter_cons_of_pos hq, hfirst, hlast]

/-- The marks of the rows that a test leaves, by time. -/
def marksOf (time : A → Nat) (q : A → Bool) (mark : A → Option M) (l : List A) : List M :=
  ((l.filter q).mergeSort fun a b => decide (time a ≤ time b)).filterMap mark

theorem marksOf_map (f : A → B) (time : B → Nat) (q : B → Bool) (mark : B → Option M)
    (l : List A) :
    marksOf time q mark (l.map f) =
      marksOf (fun a => time (f a)) (fun a => q (f a)) (fun a => mark (f a)) l := by
  rw [marksOf, marksOf, List.filter_map,
    ← List.map_mergeSort (r := fun a b => decide (time (f a) ≤ time (f b)))
    (fun a _ b _ => rfl), List.filterMap_map]
  rfl

/-- Rows without a mark can be left out. -/
theorem marksOf_filter {time : A → Nat} {q p : A → Bool} {mark : A → Option M}
    (h : ∀ a, p a = false → mark a = none) (l : List A) :
    marksOf time q mark (l.filter p) = marksOf time q mark l := by
  have hswap : (l.filter p).filter q = (l.filter q).filter p := by
    rw [List.filter_filter, List.filter_filter]
    exact List.filter_congr fun a _ => Bool.and_comm _ _
  rw [marksOf, marksOf, hswap, ← filter_mergeSort_by, List.filterMap_filter]
  refine List.filterMap_congr fun a _ => ?_
  split
  · rfl
  case isFalse hp => exact (h a (by simpa using hp)).symm

end Sorting

/-! ## The records behind the events -/

def recordSelected (invocation : FoundInvocation) (r : Record) : Bool :=
  (r.tid : Int) == invocation.threadId && within invocation r.timestampNs

def eventSelected (invocation : FoundInvocation) (e : LdbEvent) : Bool :=
  (e.threadId : Int) == invocation.threadId && within invocation e.timestampNs

/-- What the database script makes of its rows, read off the records. The times of waiting and
holding, which depend on other records, are not used. -/
theorem db_marks {M : Type} (input : LdbInput) (invocation : FoundInvocation)
    (mark : LdbEvent → Option M) (huntimed : ∀ e, mark (untimed e) = mark e)
    (hknown : ∀ r, ¬ Known r → mark (recordEvent r) = none) :
    (dbEvents invocation input.rows).filterMap (fun row => mark row.event) =
      (invocationRecords invocation input.ldbData).filterMap fun r => mark (recordEvent r) := by
  have hrows : input.rows.map (fun row => untimed row.event) =
      (knownRecords input.ldbData).map recordEvent := by
    have hevents : input.rows.map LdbRow.event = (parseLdbData input.ldbData).events :=
      map_event_annotate _ _ _ _
    rw [parseLdbData_eq_run] at hevents
    have hrun := (run_events (knownRecords input.ldbData)
      fun r hr => known_of_mem_knownRecords hr).2.1
    rw [← hevents, List.map_map] at hrun
    exact hrun
  calc (dbEvents invocation input.rows).filterMap (fun row => mark row.event)
      = (dbEvents invocation input.rows).filterMap fun row => mark (untimed row.event) := by
        simp only [huntimed]
    _ = marksOf LdbEvent.timestampNs (eventSelected invocation) mark
          (input.rows.map fun row => untimed row.event) := by
        rw [marksOf_map]
        rfl
    _ = marksOf Record.timestampNs (recordSelected invocation) (fun r => mark (recordEvent r))
          (knownRecords input.ldbData) := by
        rw [hrows, marksOf_map]
        rfl
    _ = (invocationRecords invocation input.ldbData).filterMap fun r => mark (recordEvent r) := by
        rw [knownRecords, marksOf_filter]
        · rfl
        · intro r hr
          exact hknown r (by simpa using hr)

/-- The events of a thread are its records, in order. -/
theorem threadEvents_eq (ldbData : List UInt8) (tid : Nat) :
    (parseFuncData ldbData).threadEvents tid =
      ((readRecords ldbData).filter fun r =>
        decide (eventStackSample ≤ r.eventType) && r.tid == tid).map funcEvent := by
  have hall : ∀ (records : List Record) (s : FuncState),
      (records.foldl decodeFunc s).threadEvents tid = s.threadEvents tid ++
        (records.filter fun r =>
          decide (eventStackSample ≤ r.eventType) && r.tid == tid).map funcEvent := by
    intro records
    induction records with
    | nil => simp
    | cons r records ih =>
      intro s
      rw [List.foldl_cons, ih, decodeFunc]
      by_cases htype : r.eventType < eventStackSample
      · have hnot : ¬ eventStackSample ≤ r.eventType := by omega
        simp [htype, hnot]
      · have htype' : eventStackSample ≤ r.eventType := by omega
        by_cases htid : r.tid = tid
        · subst htid
          simp [htype, htype']
        · have hne : tid ≠ r.tid := fun h => htid h.symm
          simp [htype, htid, Function.update_of_ne hne]
  rw [parseFuncData, hall, List.nil_append]

theorem funcEvent_fields (r : Record) : (funcEvent r).timestampNs = r.timestampNs ∧
    (funcEvent r).eventType = r.eventType ∧ (funcEvent r).arg1 = r.arg1 := by
  rw [funcEvent]
  split
  · exact ⟨rfl, rfl, rfl⟩
  · exact ⟨rfl, rfl, rfl⟩

theorem argMark_funcEvent (waitType endType : Nat) (r : Record) :
    argMark waitType endType (funcEvent r) = recordMark waitType endType r := by
  obtain ⟨htime, htype, harg⟩ := funcEvent_fields r
  rw [argMark, recordMark, htime, htype, harg]

theorem fileEvents_eq (invocation : FoundInvocation) (threadEvents : List FuncEvent) :
    fileEvents invocation threadEvents =
      (threadEvents.filter fun e => within invocation e.timestampNs).mergeSort byTime := by
  have hfilter : (threadEvents.mergeSort byTime).filter (fun e => within invocation e.timestampNs) =
      (threadEvents.filter fun e => within invocation e.timestampNs).mergeSort byTime :=
    filter_mergeSort_by FuncEvent.timestampNs _ _
  rw [fileEvents, hfilter]
  apply List.mergeSort_of_pairwise
  apply List.pairwise_mergeSort
  · simpa [byTime] using fun a b c => le_trans
  · simpa [byTime] using fun a b : FuncEvent => le_total a.timestampNs b.timestampNs

/-- What the other script makes of its events. It sorts them before it selects, and again after. -/
theorem file_marks {waitType endType : Nat} (hwait : eventStackSample ≤ waitType)
    (hend : eventStackSample ≤ endType) (ldbData : List UInt8) {invocation : FoundInvocation}
    {tid : Nat} (htid : invocation.threadId = tid) :
    (fileEvents invocation ((parseFuncData ldbData).threadEvents tid)).filterMap
        (argMark waitType endType) =
      (invocationRecords invocation ldbData).filterMap (recordMark waitType endType) := by
  have hmark : ∀ r : Record, decide (eventStackSample ≤ r.eventType) = false →
      recordMark waitType endType r = none := by
    intro r hr
    have hless : r.eventType < eventStackSample := by simpa using hr
    rw [recordMark, if_neg (by omega), if_neg (by omega)]
  have hselected : ((readRecords ldbData).filter fun r =>
        decide (eventStackSample ≤ r.eventType) && r.tid == tid).filter
          (fun r => within invocation (funcEvent r).timestampNs) =
      ((readRecords ldbData).filter fun r => decide (eventStackSample ≤ r.eventType)).filter
        (recordSelected invocation) := by
    rw [List.filter_filter, List.filter_filter]
    refine List.filter_congr fun r _ => ?_
    have hcast : ((r.tid : Int) == (tid : Int)) = (r.tid == tid) := by
      rw [Bool.eq_iff_iff, beq_iff_eq, beq_iff_eq]
      exact Int.ofNat_inj
    rw [recordSelected, (funcEvent_fields r).1, htid, hcast]
    cases decide (eventStackSample ≤ r.eventType) <;> cases r.tid == tid <;> simp
  calc (fileEvents invocation ((parseFuncData ldbData).threadEvents tid)).filterMap
        (argMark waitType endType)
      = marksOf FuncEvent.timestampNs (fun e => within invocation e.timestampNs)
          (argMark waitType endType) ((parseFuncData ldbData).threadEvents tid) := by
        rw [fileEvents_eq]
        rfl
    _ = marksOf Record.timestampNs (recordSelected invocation) (recordMark waitType endType)
          ((readRecords ldbData).filter fun r => decide (eventStackSample ≤ r.eventType)) := by
        rw [threadEvents_eq, marksOf_map, marksOf, hselected]
        simp only [argMark_funcEvent, (funcEvent_fields _).1]
        rfl
    _ = (invocationRecords invocation ldbData).filterMap (recordMark waitType endType) :=
        marksOf_filter hmark _

/-! ## The bars -/

theorem mutexMark_recordEvent (r : Record) : mutexMark (recordEvent r) =
    (recordMark eventMutexWait eventMutexLock r).map (Mark.mapKey fun n => floatCell (some n)) := by
  rw [mutexMark, recordMark]
  by_cases hwait : r.eventType = eventMutexWait
  · rw [if_pos hwait, if_pos (show (recordEvent r).eventType = _ from hwait)]
    simp [recordEvent, hwait, newEvent, eventMutexWait, eventMutexUnlock, Mark.mapKey]
  · rw [if_neg hwait, if_neg (show ¬(recordEvent r).eventType = _ from hwait)]
    by_cases hlock : r.eventType = eventMutexLock
    · rw [if_pos hlock, if_pos (show (recordEvent r).eventType = _ from hlock)]
      simp [recordEvent, hlock, newEvent, eventMutexWait, eventMutexLock, eventMutexUnlock,
        Mark.mapKey]
    · rw [if_neg hlock, if_neg (show ¬(recordEvent r).eventType = _ from hlock)]
      rfl

/-- The column of the thread to join is null in a row of a join, and `or` takes the null. -/
theorem joinMark_recordEvent (r : Record) : joinMark (recordEvent r) =
    if r.eventType = eventJoinWait then
      some (.opens (orCell (floatCell (some r.arg1)) none) r.timestampNs)
    else if r.eventType = eventJoinJoined then some (.closes none r.timestampNs)
    else none := by
  rw [joinMark]
  by_cases hwait : r.eventType = eventJoinWait
  · rw [if_pos hwait, if_pos (show (recordEvent r).eventType = _ from hwait)]
    simp [joinId, recordEvent, hwait, newEvent, eventJoinWait, eventJoinJoined, floatCell]
  · rw [if_neg hwait, if_neg (show ¬(recordEvent r).eventType = _ from hwait)]
    by_cases hjoined : r.eventType = eventJoinJoined
    · rw [if_pos hjoined, if_pos (show (recordEvent r).eventType = _ from hjoined)]
      simp [joinId, recordEvent, hjoined, newEvent, eventJoinWait, eventJoinJoined, orCell, floatCell]
    · rw [if_neg hjoined, if_neg (show ¬(recordEvent r).eventType = _ from hjoined)]

/-- A number below `2 ^ 53` is found again among the floats. -/
theorem floatCell_small {n : Nat} (h : n < 2 ^ 53) : floatCell (some n) = some (n : ℚ) :=
  congrArg some (Format.round_natCast (by decide) h)

/-- The key of a wait for a thread is that of the records. -/
theorem orCell_small {n : Nat} (h : n < 2 ^ 53) : orCell (floatCell (some n)) none =
    (if n = 0 then none else some n : Option Nat).map fun n : Nat => (n : ℚ) := by
  rw [floatCell_small h, orCell]
  by_cases hn : n = 0
  · simp [hn]
  · simp [hn]

theorem mark_unknown {r : Record} (h : ¬ Known r) :
    mutexMark (recordEvent r) = none ∧ joinMark (recordEvent r) = none := by
  have hne : ∀ n, eventStackSample ≤ n → n ≤ eventThreadExit → r.eventType ≠ n := by
    intro n hlow hhigh heq
    exact h ⟨by omega, by omega⟩
  rw [mutexMark_recordEvent, joinMark_recordEvent, recordMark,
    if_neg (hne eventMutexWait (by decide) (by decide)),
    if_neg (hne eventMutexLock (by decide) (by decide)),
    if_neg (hne eventJoinWait (by decide) (by decide)),
    if_neg (hne eventJoinJoined (by decide) (by decide))]
  exact ⟨rfl, rfl⟩

theorem isOpens_of_lastMark {r : Record} {m : Mark (Option Nat) Int} (h : lastMark r = some m) :
    m.isOpens = true := by
  rw [lastMark] at h
  split at h
  · cases h
    rfl
  · cases h

/-- The records of an invocation are records of the log. -/
theorem mem_readRecords {invocation : FoundInvocation} {ldbData : List UInt8} {r : Record}
    (h : r ∈ invocationRecords invocation ldbData) : r ∈ readRecords ldbData :=
  List.mem_of_mem_filter ((List.mergeSort_perm _ _).mem_iff.mp h)

theorem key_small {r : Record} {m : Mark Nat Int}
    (hid : eventMutexWait ≤ r.eventType → r.eventType ≤ eventJoinJoined → r.arg1 < 2 ^ 53)
    (h : recordMark eventMutexWait eventMutexLock r = some m) : m.key < 2 ^ 53 := by
  rw [recordMark] at h
  split at h
  case isTrue hwait =>
    cases h
    exact hid (by rw [hwait]) (by rw [hwait]; decide)
  case isFalse =>
    split at h
    case isTrue hlock =>
      cases h
      exact hid (by rw [hlock]; decide) (by rw [hlock]; decide)
    case isFalse => cases h

theorem mutexBars_perm {input : LdbInput} (hids : SmallIds input.ldbData)
    (invocation : FoundInvocation) :
    (mutexBars invocation input.rows).Perm
      ((waits eventMutexWait eventMutexLock invocation input.ldbData).map
        (waitBar invocation)) := by
  have hmarks := db_marks input invocation mutexMark (fun _ => rfl) fun r hr => (mark_unknown hr).1
  have hsmall : ∀ m ∈ (invocationRecords invocation input.ldbData).filterMap
      (recordMark eventMutexWait eventMutexLock), m.key < 2 ^ 53 := by
    intro m hm
    obtain ⟨r, hr, hmark⟩ := List.mem_filterMap.mp hm
    exact key_small (hids r (mem_readRecords hr)) hmark
  have hkeys : ∀ a b : Nat, a < 2 ^ 53 → b < 2 ^ 53 →
      cellTest.same (floatCell (some a)) (floatCell (some b)) = KeyTest.equal.same a b := by
    intro a b ha hb
    rw [floatCell_small ha, floatCell_small hb]
    simp [cellTest, KeyTest.equal]
  have hperiods : periods cellTest invocation.endTimeNs
        ((invocationRecords invocation input.ldbData).filterMap fun r =>
          mutexMark (recordEvent r)) =
      waits eventMutexWait eventMutexLock invocation input.ldbData := by
    simp only [mutexMark_recordEvent]
    rw [← List.map_filterMap]
    exact periods_mapKey fun m hm m' hm' => hkeys m.key m'.key (hsmall m hm) (hsmall m' hm')
  rw [mutexBars, dbBars, hmarks, ← hperiods]
  exact (scan_periods_perm _ _).map _

/-- What the script makes of a join without the joins that it does not find: the last waits,
by their floats. -/
theorem joinMark_opens {r : Record} (hid : r.eventType = eventJoinWait → r.arg1 < 2 ^ 53) :
    (joinMark (recordEvent r)).filter Mark.isOpens =
      (lastMark r).map (Mark.mapKey (Option.map fun n : Nat => (n : ℚ))) := by
  rw [joinMark_recordEvent, lastMark]
  by_cases hwait : r.eventType = eventJoinWait
  · rw [if_pos hwait, if_pos hwait, orCell_small (hid hwait)]
    rfl
  · rw [if_neg hwait, if_neg hwait]
    split
    · rfl
    · rfl

/-- The null in `thread_to_join` hides the thread that has been joined. -/
theorem key_of_joined {r : Record} {m : Mark (Option ℚ) Int}
    (h : joinMark (recordEvent r) = some m) (hcloses : m.isOpens = false) : m.key = none := by
  rw [joinMark_recordEvent] at h
  split at h
  · cases h
    cases hcloses
  · split at h
    · cases h
      rfl
    · cases h

theorem joinBars_perm {input : LdbInput} (hids : SmallIds input.ldbData)
    (invocation : FoundInvocation) :
    (joinBars invocation input.rows).Perm
      ((lastWaits invocation input.ldbData).map (waitBar invocation)) := by
  have hmarks := db_marks input invocation joinMark (fun _ => rfl) fun r hr => (mark_unknown hr).2
  have hclosings : ∀ m ∈ (invocationRecords invocation input.ldbData).filterMap
      (fun r => joinMark (recordEvent r)), m.isOpens = false →
        ∀ k, cellTest.same k m.key = false := by
    intro m hm hcloses k
    obtain ⟨r, -, hr⟩ := List.mem_filterMap.mp hm
    rw [key_of_joined hr hcloses]
    cases k <;> rfl
  have hkeys : ∀ a b : Option Nat, cellTest.same (a.map fun n : Nat => (n : ℚ))
      (b.map fun n : Nat => (n : ℚ)) = cellTest.same a b := by
    intro a b
    cases a <;> cases b <;> simp [cellTest]
  have hopens : ((invocationRecords invocation input.ldbData).filterMap fun r =>
        joinMark (recordEvent r)).filter Mark.isOpens =
      ((invocationRecords invocation input.ldbData).filterMap lastMark).map
        (Mark.mapKey (Option.map fun n : Nat => (n : ℚ))) := by
    rw [List.filter_filterMap, List.map_filterMap]
    refine List.filterMap_congr fun r hr => joinMark_opens fun hwait => ?_
    exact hids r (mem_readRecords hr) (by rw [hwait]; decide) (by rw [hwait]; decide)
  have hperiods : periods cellTest invocation.endTimeNs
        ((invocationRecords invocation input.ldbData).filterMap fun r => joinMark (recordEvent r)) =
      lastWaits invocation input.ldbData := by
    rw [← periods_filter_isOpens hclosings, hopens]
    exact periods_mapKey fun m _ m' _ => hkeys m.key m'.key
  rw [joinBars, dbBars, hmarks, ← hperiods]
  exact (scan_periods_perm _ _).map _

theorem fileBars_perm {waitType endType : Nat} (hwait : eventStackSample ≤ waitType)
    (hend : eventStackSample ≤ endType) (ldbData : List UInt8) {invocation : FoundInvocation}
    {tid : Nat} (htid : invocation.threadId = tid)
    (hpos : invocation.startTimeNs < invocation.endTimeNs) :
    ∃ bars, fileBars waitType endType invocation ((parseFuncData ldbData).threadEvents tid) =
        some bars ∧
      bars.Perm ((waits waitType endType invocation ldbData).map (waitBar invocation)) := by
  refine ⟨_, if_neg (by omega), ?_⟩
  rw [file_marks hwait hend ldbData htid]
  exact (scan_periods_perm _ _).map _

/-- Nothing ends a last wait. -/
theorem end_of_lastWaits {invocation : FoundInvocation} {ldbData : List UInt8} {wait : Int × Int}
    (h : wait ∈ lastWaits invocation ldbData) : wait.2 = invocation.endTimeNs := by
  refine ends_of_opens (fun m hm => ?_) wait h
  obtain ⟨r, -, hr⟩ := List.mem_filterMap.mp hm
  exact isOpens_of_lastMark hr

/-- For an invocation that takes time. -/
theorem waits_of_log (input : LdbInput) (hids : SmallIds input.ldbData) (id : Int) (row : LdbRow)
    (hpos : (foundInvocation id row).startTimeNs < (foundInvocation id row).endTimeNs) :
    WaitsShown input (foundInvocation id row) row.event.threadId := by
  have hjoins := joinBars_perm hids (foundInvocation id row)
  have hunjoined : ∀ bar ∈ joinBars (foundInvocation id row) input.rows,
      bar.endNs = (foundInvocation id row).endTimeNs := by
    intro bar hbar
    obtain ⟨wait, hwait, rfl⟩ := List.mem_map.mp (hjoins.mem_iff.mp hbar)
    exact end_of_lastWaits hwait
  have hfile : ∃ bars, joinBarsFile (foundInvocation id row)
        ((parseFuncData input.ldbData).threadEvents row.event.threadId) = some bars ∧
      bars.Perm ((waits eventJoinWait eventJoinJoined (foundInvocation id row) input.ldbData).map
        (waitBar (foundInvocation id row))) :=
    fileBars_perm (by decide) (by decide) input.ldbData rfl hpos
  obtain ⟨bars, hbars, hjoinsFile⟩ := hfile
  refine ⟨mutexBars_perm hids _, fileBars_perm (by decide) (by decide) input.ldbData rfl hpos,
    ⟨bars, hbars, hjoinsFile⟩, hjoins, hunjoined, ?_⟩
  rintro ⟨wait, hwait, hend⟩ other hother hperm
  obtain rfl : bars = other := Option.some.inj (hbars.symm.trans hother)
  have hbar := hjoinsFile.mem_iff.mpr (List.mem_map_of_mem hwait)
  exact hend (hunjoined _ (hperm.mem_iff.mpr hbar))

/-- Thread 7 waits for a mutex and for thread 9 while it is in a function. -/
def joinLog : LdbInput where
  ldbData := recordBytes eventMutexWait 1500 7 0xA0 0 0 ++ recordBytes eventMutexLock 1700 7 0xA0 0 0 ++
    recordBytes eventJoinWait 2000 7 9 0 0 ++ recordBytes eventJoinJoined 4000 7 9 0 0 ++
    recordBytes eventStackSample 6000 7 5000 0x401005 0
  finfomap _ := none
  accepts _ := true

/-- The database script draws the join until the end, and the other one until 4000. -/
theorem waits_of_joinLog :
    WaitsShown joinLog (foundInvocation 1 (callRow 6000 5000 "f")) 7 ∧
      (2000, 4000) ∈ waits eventJoinWait eventJoinJoined
        (foundInvocation 1 (callRow 6000 5000 "f")) joinLog.ldbData ∧
      (foundInvocation 1 (callRow 6000 5000 "f")).endTimeNs = 6000 := by
  have hids : SmallIds joinLog.ldbData := by
    unfold SmallIds
    decide +kernel
  have hrecords : invocationRecords (foundInvocation 1 (callRow 6000 5000 "f")) joinLog.ldbData =
      readRecords joinLog.ldbData := by
    have hfilter : (readRecords joinLog.ldbData).filter
        (recordSelected (foundInvocation 1 (callRow 6000 5000 "f"))) =
          readRecords joinLog.ldbData := by
      rw [List.filter_eq_self]
      decide +kernel
    have hsorted : (readRecords joinLog.ldbData).mergeSort
        (fun a b => decide (a.timestampNs ≤ b.timestampNs)) = readRecords joinLog.ldbData :=
      List.mergeSort_of_pairwise (by decide +kernel)
    calc invocationRecords (foundInvocation 1 (callRow 6000 5000 "f")) joinLog.ldbData
        = ((readRecords joinLog.ldbData).filter
            (recordSelected (foundInvocation 1 (callRow 6000 5000 "f")))).mergeSort
              fun a b => decide (a.timestampNs ≤ b.timestampNs) := rfl
      _ = readRecords joinLog.ldbData := by rw [hfilter, hsorted]
  refine ⟨waits_of_log joinLog hids 1 (callRow 6000 5000 "f") (by decide +kernel), ?_, rfl⟩
  rw [waits, hrecords]
  decide +kernel

end WaitBars
