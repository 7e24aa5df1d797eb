import Hiresperf.LdbDecoders
import Mathlib.Algebra.Ring.Rat
import Mathlib.Data.List.Basic
import Mathlib.Tactic.IntervalCases

/-!
# Events of the LDB log

What `parse_ldb_data` of `parse_ldb.py` makes of a file. Each record of a known
type becomes one event, and so does what is left at the end of the file if its
first bytes look like a known type. The time of a thread's last mutex event stands
for the beginning of a wait and for the beginning of a hold, whichever mutex it
was about.
-/

namespace LdbEvents

open ByteCodec LdbDecoders

instance (r : Record) : Decidable (Known r) :=
  inferInstanceAs (Decidable (eventStackSample ≤ r.eventType ∧ r.eventType ≤ eventThreadExit))

/-! ## What the format says -/

/-- The fields of an event that its record gives, by the type of the record. -/
def recordEvent (r : Record) : LdbEvent :=
  { newEvent r with
    latencyUs := if r.eventType = eventStackSample then some (latencyUs r) else none
    pc := if r.eventType = eventStackSample then some (callPc r) else none
    ngen := if r.eventType = eventStackSample then some r.arg3 else none
    tag := if eventTagSet ≤ r.eventType ∧ r.eventType ≤ eventTagClear then some r.arg1 else none
    mutex := if eventMutexWait ≤ r.eventType ∧ r.eventType ≤ eventMutexUnlock then some r.arg1
      else none
    threadToJoin := if r.eventType = eventJoinWait then some r.arg1 else none
    threadJoined := if r.eventType = eventJoinJoined then some r.arg1 else none }

/-- An event without the times that are computed from other events. -/
def untimed (e : LdbEvent) : LdbEvent := { e with waitTimeUs := none, lockTimeUs := none }

def completeRecords (bytes : List UInt8) : List Record :=
  (List.range (bytes.length / recordSize)).map fun i =>
    decodeRecord ((bytes.drop (i * recordSize)).take recordSize)

/-- The bytes after the last complete record. -/
def rest (bytes : List UInt8) : List UInt8 := bytes.drop (bytes.length / recordSize * recordSize)

/-- One event for each complete record of a known type, and the pcs of the stack samples. -/
structure DecodesExactly (bytes : List UInt8) : Prop where
  events : (parseLdbData bytes).events.map untimed =
    ((completeRecords bytes).filter fun r => Known r).map recordEvent
  pcs : ∀ pc, pc ∈ (parseLdbData bytes).pcs ↔
    ∃ e ∈ (parseLdbData bytes).events, e.eventType = eventStackSample ∧ e.pc = some pc

/-! ## One record -/

/-- The event of a record, with the times that the state gives. -/
def eventOf (s : LdbState) (r : Record) : LdbEvent :=
  { recordEvent r with
    waitTimeUs := if r.eventType = eventMutexLock then sinceLast s r else none
    lockTimeUs := if r.eventType = eventMutexUnlock then sinceLast s r else none }

/-- What a record does to the time of the thread's last mutex event. -/
def stepMutexTs (last : Option Nat) (r : Record) : Option Nat :=
  if r.eventType = eventMutexWait then some r.timestampNs
  else if r.eventType = eventMutexLock then last.map fun _ => r.timestampNs
  else if r.eventType = eventMutexUnlock then none
  else last

theorem decodeLdb_unknown {s : LdbState} {r : Record} (h : ¬ Known r) : decodeLdb s r = s := by
  have hinvalid : r.eventType < eventStackSample ∨ r.eventType > eventThreadExit := by
    unfold Known at h
    omega
  rw [decodeLdb, if_pos hinvalid]

theorem decodeLdb_known (s : LdbState) {r : Record} (h : Known r) :
    decodeLdb s r = ⟨s.events ++ [eventOf s r], addPc s.pcs r,
      Function.update s.lastMutexTs r.tid (stepMutexTs (s.lastMutexTs r.tid) r)⟩ := by
  obtain ⟨eventType, timestampNs, tid, arg1, arg2, arg3, raw⟩ := r
  obtain ⟨hlow, hhigh⟩ := h
  simp only [eventStackSample, eventThreadExit] at hlow hhigh
  interval_cases eventType <;>
    simp [decodeLdb, append, eventOf, recordEvent, newEvent, addPc, stepMutexTs, eventStackSample,
      eventThreadExit, eventTagSet, eventTagClear, eventMutexWait, eventMutexLock, eventMutexUnlock,
      eventJoinWait, eventJoinJoined]
  -- a lock without a wait before it leaves the time unset
  cases hlast : s.lastMutexTs tid with
  | none =>
    have hsame : Function.update s.lastMutexTs tid none = s.lastMutexTs := by
      rw [← hlast, Function.update_eq_self]
    simp [hsame]
  | some last => simp

/-! ## A run over the records -/

def emptyState : LdbState := ⟨[], ∅, fun _ => none⟩

def run (records : List Record) : LdbState := records.foldl decodeLdb emptyState

theorem run_append_singleton (before : List Record) (r : Record) :
    run (before ++ [r]) = decodeLdb (run before) r := by
  rw [run, List.foldl_append]
  rfl

theorem foldl_decodeLdb_filter (s : LdbState) (records : List Record) :
    records.foldl decodeLdb s = (records.filter fun r => Known r).foldl decodeLdb s := by
  induction records generalizing s with
  | nil => rfl
  | cons r rest ih =>
    by_cases hr : Known r
    · rw [List.filter_cons_of_pos (by simpa using hr), List.foldl_cons, List.foldl_cons, ih]
    · rw [List.filter_cons_of_neg (by simpa using hr), List.foldl_cons, decodeLdb_unknown hr, ih]

/-- The records of known types, also one at the end that is incomplete. -/
def knownRecords (bytes : List UInt8) : List Record := (readRecords bytes).filter fun r => Known r

theorem parseLdbData_eq_run (bytes : List UInt8) : parseLdbData bytes = run (knownRecords bytes) :=
  foldl_decodeLdb_filter emptyState _

theorem known_of_mem_knownRecords {bytes : List UInt8} {r : Record} (h : r ∈ knownRecords bytes) :
    Known r := by simpa using (List.mem_filter.mp h).2

theorem run_events (records : List Record) (h : ∀ r ∈ records, Known r) :
    (run records).events.length = records.length ∧
      (run records).events.map untimed = records.map recordEvent ∧
      ∀ pc, pc ∈ (run records).pcs ↔
        ∃ e ∈ (run records).events, e.eventType = eventStackSample ∧ e.pc = some pc := by
  induction records using List.reverseRecOn with
  | nil => simp [run, emptyState]
  | append_singleton before r ih =>
    obtain ⟨hlength, hevents, hpcs⟩ := ih fun r' hr' => h r' (List.mem_append_left _ hr')
    have hr : Known r := h r (by simp)
    rw [run_append_singleton, decodeLdb_known _ hr]
    refine ⟨by simp [hlength], ?_, ?_⟩
    · rw [List.map_append, List.map_append, hevents]
      rfl
    · intro pc
      have htype : (eventOf (run before) r).eventType = r.eventType := rfl
      have hpc : (eventOf (run before) r).pc =
          if r.eventType = eventStackSample then some (callPc r) else none := rfl
      simp only [List.mem_append, List.mem_singleton, or_and_right, exists_or, exists_eq_left, ← hpcs,
        htype, hpc, addPc]
      by_cases hsample : r.eventType = eventStackSample
      · simp [hsample, or_comm, eq_comm]
      · simp [hsample]

/-! ## The end of the file -/

theorem readRecords_eq (bytes : List UInt8) : readRecords bytes = completeRecords bytes ++
    if bytes.length % recordSize = 0 then [] else [decodeRecord (rest bytes)] := by
  rw [readRecords, completeRecords]
  split_ifs with hwhole
  · have hcount : (bytes.length + (recordSize - 1)) / recordSize = bytes.length / recordSize := by
      simp only [recordSize] at *
      omega
    rw [hcount, List.append_nil]
  · have hcount : (bytes.length + (recordSize - 1)) / recordSize = bytes.length / recordSize + 1 := by
      simp only [recordSize] at *
      omega
    have hshort : (rest bytes).length ≤ recordSize := by
      rw [rest, List.length_drop]
      simp only [recordSize]
      omega
    rw [hcount, List.range_succ, List.map_append, List.map_singleton, ← rest,
      List.take_of_length_le hshort]

/-- Nothing is left of a file of whole records, and nothing decodes to no known type. -/
theorem knownRecords_eq (bytes : List UInt8) : knownRecords bytes =
    ((completeRecords bytes).filter fun r => Known r) ++
      [decodeRecord (rest bytes)].filter fun r => Known r := by
  rw [knownRecords, readRecords_eq, List.filter_append]
  split_ifs with hwhole
  · have hempty : rest bytes = [] := by
      rw [rest, List.drop_eq_nil_iff]
      simp only [recordSize] at *
      omega
    rw [hempty]
    rfl
  · rfl

/-- The decoding is exact exactly if what is left at the end of the file does not begin like a
record of a known type. -/
theorem decodesExactly_iff (bytes : List UInt8) :
    DecodesExactly bytes ↔ ¬ Known (decodeRecord (rest bytes)) := by
  have hknown : ∀ r ∈ knownRecords bytes, Known r := fun r hr => known_of_mem_knownRecords hr
  obtain ⟨hlength, hevents, hpcs⟩ := run_events (knownRecords bytes) hknown
  rw [← parseLdbData_eq_run] at hlength hevents hpcs
  constructor
  · intro h hrest
    have hcount := congrArg List.length h.events
    rw [List.length_map, List.length_map, hlength, knownRecords_eq, List.length_append] at hcount
    simp [hrest] at hcount
  · intro hrest
    refine ⟨?_, hpcs⟩
    rw [hevents, knownRecords_eq, List.filter_cons_of_neg (by simpa using hrest), List.filter_nil,
      List.append_nil]

/-- A file whose second record was cut after its type. -/
def cutFile : List UInt8 := sampleBytes 0 ++ leBytes 4 eventMutexWait

/-- The four bytes become an event of thread 0 at time 0. -/
theorem short_record_decoded : ¬ (∀ bytes, DecodesExactly bytes) ∧
    ((parseLdbData cutFile).events.map fun e => (e.eventName, e.threadId, e.timestampNs)) =
      [("STACK_SAMPLE", 7, 1000000002), ("MUTEX_WAIT", 0, 0)] := by
  refine ⟨fun hall => ?_, by decide⟩
  have hevents := congrArg List.length (hall cutFile).events
  revert hevents
  decide

/-! ## Times of mutexes -/

def isMutexEvent (r : Record) : Bool :=
  decide (eventMutexWait ≤ r.eventType) && decide (r.eventType ≤ eventMutexUnlock)

def mutexEventsOf (tid : Nat) (records : List Record) : List Record :=
  records.filter fun r => isMutexEvent r && r.tid == tid

/-- The events of a thread on one mutex. -/
def eventsOn (tid mutex : Nat) (records : List Record) : List Record :=
  records.filter fun r => isMutexEvent r && r.tid == tid && r.arg1 == mutex

/-- The event of the thread on the same mutex that comes before: for a lock its wait, for an
unlock its lock. -/
def matching (before : List Record) (r : Record) : Option Record :=
  (eventsOn r.tid r.arg1 before).getLast?

/-- Every thread waits for, locks and unlocks a mutex in turn, at increasing times. -/
structure LocksInTurn (records : List Record) : Prop where
  cycles : ∀ tid mutex i r, (eventsOn tid mutex records)[i]? = some r →
    r.eventType = eventMutexWait + i % 3
  increasing : ∀ tid mutex, (eventsOn tid mutex records).Pairwise
    fun r r' => r.timestampNs < r'.timestampNs

def elapsedUs (first last : Record) : ℚ :=
  (((last.timestampNs : Int) - first.timestampNs : Int) : ℚ) / 1000

/-- Each lock has the time since its wait, and each unlock the time since its lock. The events
are those of the records, one for each. -/
structure TimesRight (records : List Record) (events : List LdbEvent) : Prop where
  wait : ∀ before r after, records = before ++ r :: after → r.eventType = eventMutexLock →
    ∃ e w, events[before.length]? = some e ∧ matching before r = some w ∧
      w.eventType = eventMutexWait ∧ e.waitTimeUs = some (elapsedUs w r)
  lock : ∀ before r after, records = before ++ r :: after → r.eventType = eventMutexUnlock →
    ∃ e w, events[before.length]? = some e ∧ matching before r = some w ∧
      w.eventType = eventMutexLock ∧ e.lockTimeUs = some (elapsedUs w r)

/-- Before a thread locks or unlocks a mutex its last mutex event is no unlock, and is at the
time of the matching event. -/
def NotInterrupted (records : List Record) : Prop :=
  ∀ before r after, records = before ++ r :: after →
    r.eventType = eventMutexLock ∨ r.eventType = eventMutexUnlock →
    ∃ p w, (mutexEventsOf r.tid before).getLast? = some p ∧ matching before r = some w ∧
      p.eventType ≠ eventMutexUnlock ∧ p.timestampNs = w.timestampNs

section Runs

variable {before after records : List Record} {r : Record} {tid : Nat}

theorem isMutexEvent_iff : isMutexEvent r = true ↔ r.eventType = eventMutexWait ∨
    r.eventType = eventMutexLock ∨ r.eventType = eventMutexUnlock := by
  simp only [isMutexEvent, Bool.and_eq_true, decide_eq_true_eq]
  change 6 ≤ r.eventType ∧ r.eventType ≤ 8 ↔ r.eventType = 6 ∨ r.eventType = 7 ∨ r.eventType = 8
  omega

theorem mutexEventsOf_append_singleton : mutexEventsOf tid (before ++ [r]) =
    if isMutexEvent r = true ∧ r.tid = tid then mutexEventsOf tid before ++ [r]
    else mutexEventsOf tid before := by
  rw [mutexEventsOf, List.filter_append]
  split_ifs with h
  · simp [mutexEventsOf, h.1, h.2]
  · have hskipped : [r].filter (fun r => isMutexEvent r && r.tid == tid) = [] := by simpa using h
    rw [hskipped, List.append_nil]
    rfl

theorem lastMutexTs_append_singleton (hr : Known r) : (run (before ++ [r])).lastMutexTs tid =
    if isMutexEvent r = true ∧ r.tid = tid then stepMutexTs ((run before).lastMutexTs tid) r
    else (run before).lastMutexTs tid := by
  rw [run_append_singleton, decodeLdb_known _ hr]
  by_cases htid : r.tid = tid
  · subst htid
    simp only [Function.update_self, and_true]
    split_ifs with hmutex
    · rfl
    · rw [isMutexEvent_iff, not_or, not_or] at hmutex
      rw [stepMutexTs, if_neg hmutex.1, if_neg hmutex.2.1, if_neg hmutex.2.2]
  · simp [htid, Function.update_of_ne (Ne.symm htid)]

/-- The time that is kept is the time of the last mutex event, which is no unlock. -/
theorem last_of_lastMutexTs (h : ∀ r ∈ before, Known r) {last : Nat}
    (hlast : (run before).lastMutexTs tid = some last) :
    ∃ p, (mutexEventsOf tid before).getLast? = some p ∧ p.eventType ≠ eventMutexUnlock ∧
      p.timestampNs = last := by
  induction before using List.reverseRecOn with
  | nil => cases hlast
  | append_singleton before r ih =>
    rw [lastMutexTs_append_singleton (h r (by simp))] at hlast
    rw [mutexEventsOf_append_singleton]
    split_ifs at hlast ⊢ with hown
    · refine ⟨r, List.getLast?_concat, ?_⟩
      rw [stepMutexTs] at hlast
      split_ifs at hlast with hwait hlock hunlock
      · cases hlast
        exact ⟨by rw [hwait]; decide, rfl⟩
      · obtain ⟨_, -, htime⟩ := Option.map_eq_some_iff.mp hlast
        exact ⟨by rw [hlock]; decide, htime⟩
      · rcases isMutexEvent_iff.mp hown.1 with heq | heq | heq
        · exact absurd heq hwait
        · exact absurd heq hlock
        · exact absurd heq hunlock
    · exact ih (fun r' hr' => h r' (List.mem_append_left _ hr')) hlast

theorem NotInterrupted.of_append (h : NotInterrupted (before ++ after)) : NotInterrupted before := by
  intro first r rest hsplit
  exact h first r (rest ++ after) (by rw [hsplit, List.append_assoc, List.cons_append])

/-- Where nothing comes between, the time of the last mutex event is kept until an unlock. -/
theorem lastMutexTs_of_last (h : ∀ r ∈ before, Known r) (hdirect : NotInterrupted before) {p : Record}
    (hp : (mutexEventsOf tid before).getLast? = some p) (htype : p.eventType ≠ eventMutexUnlock) :
    (run before).lastMutexTs tid = some p.timestampNs := by
  induction before using List.reverseRecOn generalizing p with
  | nil => cases hp
  | append_singleton before r ih =>
    have hbefore : ∀ {q}, (mutexEventsOf tid before).getLast? = some q →
        q.eventType ≠ eventMutexUnlock → (run before).lastMutexTs tid = some q.timestampNs :=
      ih (fun r' hr' => h r' (List.mem_append_left _ hr')) hdirect.of_append
    rw [lastMutexTs_append_singleton (h r (by simp))]
    rw [mutexEventsOf_append_singleton] at hp
    split_ifs at hp ⊢ with hown
    · obtain ⟨hmutex, rfl⟩ := hown
      rw [List.getLast?_concat, Option.some.injEq] at hp
      subst hp
      rw [stepMutexTs, if_neg htype]
      split_ifs with hwait hlock
      · rfl
      · obtain ⟨q, -, hq, -, hqtype, -⟩ := hdirect before r [] rfl (Or.inl hlock)
        rw [hbefore hq hqtype]
        rfl
      · rcases isMutexEvent_iff.mp hmutex with heq | heq | heq
        · exact absurd heq hwait
        · exact absurd heq hlock
        · exact absurd heq htype
    · exact hbefore hp htype

theorem events_isPrefix (h : ∀ r ∈ before ++ after, Known r) :
    (run before).events <+: (run (before ++ after)).events := by
  induction after using List.reverseRecOn with
  | nil => simp
  | append_singleton after r ih =>
    have hmem : ∀ r' ∈ before ++ after, r' ∈ before ++ (after ++ [r]) := by
      intro r' hr'
      rw [← List.append_assoc]
      exact List.mem_append_left _ hr'
    have hshorter := ih fun r' hr' => h r' (hmem r' hr')
    rw [← List.append_assoc, run_append_singleton, decodeLdb_known _ (h r (by simp))]
    exact hshorter.trans (List.prefix_append _ _)

/-- The event of a record is at the record's place. -/
theorem getElem?_events (h : ∀ r' ∈ before ++ r :: after, Known r') :
    (run (before ++ r :: after)).events[before.length]? = some (eventOf (run before) r) := by
  have hsplit : before ++ r :: after = (before ++ [r]) ++ after := by simp
  have hlength := (run_events before fun r' hr' => h r' (List.mem_append_left _ hr')).1
  have hone : (run (before ++ [r])).events = (run before).events ++ [eventOf (run before) r] := by
    rw [run_append_singleton, decodeLdb_known _ (h r (by simp))]
  rw [hsplit] at h ⊢
  obtain ⟨later, hlater⟩ := events_isPrefix h
  rw [← hlater, hone, ← hlength]
  simp

theorem eventsOn_split (hsplit : records = before ++ r :: after) (hmutex : isMutexEvent r = true) :
    eventsOn r.tid r.arg1 records =
      eventsOn r.tid r.arg1 before ++ r :: eventsOn r.tid r.arg1 after := by
  rw [hsplit, eventsOn, List.filter_append, List.filter_cons_of_pos (by simp [hmutex])]
  rfl

/-- What a thread does with a mutex before it locks or unlocks it. -/
theorem matching_of_locksInTurn (h : LocksInTurn records) (hsplit : records = before ++ r :: after)
    (htype : r.eventType = eventMutexLock ∨ r.eventType = eventMutexUnlock) :
    ∃ w, matching before r = some w ∧ w.eventType + 1 = r.eventType := by
  have hmutex : isMutexEvent r = true := isMutexEvent_iff.mpr (Or.inr htype)
  have hevents := eventsOn_split hsplit hmutex
  have hturn := h.cycles r.tid r.arg1 (eventsOn r.tid r.arg1 before).length r (by
    rw [hevents, List.getElem?_append_right (Nat.le_refl _), Nat.sub_self]
    rfl)
  -- the turn of a lock or an unlock is not the first one
  obtain ⟨n, hn⟩ : ∃ n, (eventsOn r.tid r.arg1 before).length = n + 1 := by
    refine Nat.exists_eq_succ_of_ne_zero fun hzero => ?_
    rw [hzero] at hturn
    rcases htype with heq | heq <;> rw [heq] at hturn <;> exact absurd hturn (by decide)
  obtain ⟨w, hw⟩ : ∃ w, (eventsOn r.tid r.arg1 before)[n]? = some w :=
    ⟨_, List.getElem?_eq_getElem (by omega)⟩
  have hlast : matching before r = some w := by
    rw [matching, List.getLast?_eq_getElem?, hn]
    exact hw
  have hprevious := h.cycles r.tid r.arg1 n w (by
    rw [hevents, List.getElem?_append_left (by omega)]
    exact hw)
  refine ⟨w, hlast, ?_⟩
  rw [hn] at hturn
  change r.eventType = 7 ∨ r.eventType = 8 at htype
  change r.eventType = 6 + (n + 1) % 3 at hturn
  change w.eventType = 6 + n % 3 at hprevious
  omega

theorem elapsedUs_inj {last : Nat} {w : Record}
    (h : (((r.timestampNs : Int) - last : Int) : ℚ) / 1000 = elapsedUs w r) : last = w.timestampNs := by
  have hmul := congrArg (fun q : ℚ => q * 1000) h
  simp only [elapsedUs, div_mul_cancel₀ _ (by decide : (1000 : ℚ) ≠ 0), Int.cast_inj] at hmul
  omega

theorem sinceLast_eq (s : LdbState) (r : Record) : sinceLast s r = (s.lastMutexTs r.tid).map
    fun last : Nat => (((r.timestampNs : Int) - (last : Int) : Int) : ℚ) / 1000 := by
  rw [sinceLast]
  cases s.lastMutexTs r.tid <;> rfl

theorem last_of_sinceLast (h : ∀ r ∈ before, Known r) {w : Record}
    (hsince : sinceLast (run before) r = some (elapsedUs w r)) :
    ∃ p, (mutexEventsOf r.tid before).getLast? = some p ∧ p.eventType ≠ eventMutexUnlock ∧
      p.timestampNs = w.timestampNs := by
  rw [sinceLast_eq] at hsince
  obtain ⟨last, hlast, helapsed⟩ := Option.map_eq_some_iff.mp hsince
  obtain ⟨p, hp, htype, htime⟩ := last_of_lastMutexTs h hlast
  exact ⟨p, hp, htype, htime.trans (elapsedUs_inj helapsed)⟩

theorem sinceLast_of_last (h : ∀ r ∈ before, Known r) (hdirect : NotInterrupted before) {p w : Record}
    (hp : (mutexEventsOf r.tid before).getLast? = some p) (htype : p.eventType ≠ eventMutexUnlock)
    (htime : p.timestampNs = w.timestampNs) :
    sinceLast (run before) r = some (elapsedUs w r) := by
  rw [sinceLast_eq, lastMutexTs_of_last h hdirect hp htype, htime]
  rfl

/-- The time of a lock or an unlock that is right was not interrupted. -/
theorem notInterrupted_of_timesRight (h : ∀ r ∈ records, Known r)
    (htimes : TimesRight records (run records).events) : NotInterrupted records := by
  intro before r after hsplit htype
  subst hsplit
  have hbefore : ∀ r' ∈ before, Known r' := fun r' hr' => h r' (List.mem_append_left _ hr')
  have hevent := getElem?_events h
  have hsince : ∃ w, matching before r = some w ∧
      sinceLast (run before) r = some (elapsedUs w r) := by
    rcases htype with hlock | hunlock
    · obtain ⟨e, w, he, hw, -, htime⟩ := htimes.wait before r after rfl hlock
      rw [hevent, Option.some.injEq] at he
      rw [← he, eventOf] at htime
      exact ⟨w, hw, by simpa [hlock] using htime⟩
    · obtain ⟨e, w, he, hw, -, htime⟩ := htimes.lock before r after rfl hunlock
      rw [hevent, Option.some.injEq] at he
      rw [← he, eventOf] at htime
      exact ⟨w, hw, by simpa [hunlock] using htime⟩
  obtain ⟨w, hw, htime⟩ := hsince
  obtain ⟨p, hp, hptype, hptime⟩ := last_of_sinceLast hbefore htime
  exact ⟨p, w, hp, hw, hptype, hptime⟩

theorem timesRight_of_notInterrupted (h : ∀ r ∈ records, Known r) (hturns : LocksInTurn records)
    (hdirect : NotInterrupted records) : TimesRight records (run records).events := by
  have htime : ∀ before r after, records = before ++ r :: after →
      r.eventType = eventMutexLock ∨ r.eventType = eventMutexUnlock →
      ∃ w, (run records).events[before.length]? = some (eventOf (run before) r) ∧
        matching before r = some w ∧ w.eventType + 1 = r.eventType ∧
        sinceLast (run before) r = some (elapsedUs w r) := by
    intro before r after hsplit htype
    obtain ⟨w, hw, hturn⟩ := matching_of_locksInTurn hturns hsplit htype
    obtain ⟨p, w', hp, hw', hptype, hptime⟩ := hdirect before r after hsplit htype
    cases hw.symm.trans hw'
    subst hsplit
    refine ⟨w, getElem?_events h, hw, hturn, ?_⟩
    exact sinceLast_of_last (fun r' hr' => h r' (List.mem_append_left _ hr')) hdirect.of_append hp
      hptype hptime
  constructor
  · intro before r after hsplit hlock
    obtain ⟨w, hevent, hw, hturn, hsince⟩ := htime before r after hsplit (Or.inl hlock)
    refine ⟨_, w, hevent, hw, ?_, by simp [eventOf, hlock, hsince]⟩
    rw [hlock] at hturn
    exact Nat.succ.inj hturn
  · intro before r after hsplit hunlock
    obtain ⟨w, hevent, hw, hturn, hsince⟩ := htime before r after hsplit (Or.inr hunlock)
    refine ⟨_, w, hevent, hw, ?_, by simp [eventOf, hunlock, hsince]⟩
    rw [hunlock] at hturn
    exact Nat.succ.inj hturn

end Runs

/-- For every log in which the threads use each mutex in turn, the times belong to the right
mutex exactly if no other mutex event of the thread comes in between, unless it is a wait or
a lock at the same time. -/
theorem timesRight_iff (bytes : List UInt8) (h : LocksInTurn (knownRecords bytes)) :
    TimesRight (knownRecords bytes) (parseLdbData bytes).events ↔
      NotInterrupted (knownRecords bytes) := by
  have hknown : ∀ r ∈ knownRecords bytes, Known r := fun r hr => known_of_mem_knownRecords hr
  rw [parseLdbData_eq_run]
  exact ⟨notInterrupted_of_timesRight hknown, timesRight_of_notInterrupted hknown h⟩

/-- Only the mutexes that occur need to be looked at. -/
theorem locksInTurn_of_mem {records : List Record}
    (h : ∀ r ∈ records, ((eventsOn r.tid r.arg1 records).map Record.eventType =
        (List.range (eventsOn r.tid r.arg1 records).length).map fun i => eventMutexWait + i % 3) ∧
      ((eventsOn r.tid r.arg1 records).map Record.timestampNs).Pairwise (· < ·)) :
    LocksInTurn records := by
  have hmem : ∀ {tid mutex r}, r ∈ eventsOn tid mutex records →
      r ∈ records ∧ r.tid = tid ∧ r.arg1 = mutex := by
    intro tid mutex r hr
    simp only [eventsOn, List.mem_filter, Bool.and_eq_true, beq_iff_eq] at hr
    exact ⟨hr.1, hr.2.1.2, hr.2.2⟩
  constructor
  · intro tid mutex i r hr
    obtain ⟨hin, rfl, rfl⟩ := hmem (List.mem_of_getElem? hr)
    obtain ⟨hi, -⟩ := List.getElem?_eq_some_iff.mp hr
    have htypes := congrArg (fun l => l[i]?) (h r hin).1
    simp only [List.getElem?_map, hr, List.getElem?_range hi] at htypes
    exact Option.some.inj htypes
  · intro tid mutex
    cases hlist : eventsOn tid mutex records with
    | nil => exact List.Pairwise.nil
    | cons r rest =>
      obtain ⟨hin, rfl, rfl⟩ := hmem (hlist ▸ List.mem_cons_self)
      have hpairs := (h r hin).2
      rw [hlist, List.pairwise_map] at hpairs
      exact hpairs

/-- A record of a mutex event of thread 7, at a number of nanoseconds. -/
def mutexBytes (eventType timestampNs mutex : Nat) : List UInt8 :=
  recordBytes eventType timestampNs 7 mutex 0 0

/-- One mutex after the other. -/
def plainLocks : List UInt8 :=
  mutexBytes 6 0 1 ++ mutexBytes 7 10 1 ++ mutexBytes 8 25 1 ++ mutexBytes 6 30 2

theorem plainLocks_times : LocksInTurn (knownRecords plainLocks) ∧
    TimesRight (knownRecords plainLocks) (parseLdbData plainLocks).events := by
  have hturns : LocksInTurn (knownRecords plainLocks) := locksInTurn_of_mem (by decide +kernel)
  refine ⟨hturns, (timesRight_iff plainLocks hturns).mpr ?_⟩
  have hplaces : ∀ i < (knownRecords plainLocks).length, ∀ r ∈ (knownRecords plainLocks)[i]?,
      r.eventType = eventMutexLock ∨ r.eventType = eventMutexUnlock →
      ∃ p ∈ (mutexEventsOf r.tid ((knownRecords plainLocks).take i)).getLast?,
        ∃ w ∈ matching ((knownRecords plainLocks).take i) r,
          p.eventType ≠ eventMutexUnlock ∧ p.timestampNs = w.timestampNs := by
    decide +kernel
  intro before r after hsplit htype
  have hlength := congrArg List.length hsplit
  rw [List.length_append, List.length_cons] at hlength
  obtain ⟨p, hp, w, hw, hrest⟩ := hplaces before.length (by omega) r (by simp [hsplit]) htype
  have htake : (knownRecords plainLocks).take before.length = before := by simp [hsplit]
  rw [htake] at hp hw
  exact ⟨p, w, hp, hw, hrest⟩

/-- Mutex 1 is held while the thread waits for, holds and releases mutex 2. -/
def nestedLocks : List UInt8 :=
  mutexBytes 6 0 1 ++ mutexBytes 7 10 1 ++ mutexBytes 6 20 2 ++ mutexBytes 7 30 2 ++
    mutexBytes 8 40 2 ++ mutexBytes 8 50 1

/-- Mutex 1 was held for 40 ns, and its unlock has no time. -/
theorem nested_locks_without_time : ¬ ∀ bytes, LocksInTurn (knownRecords bytes) →
    TimesRight (knownRecords bytes) (parseLdbData bytes).events := by
  intro hall
  have hturns : LocksInTurn (knownRecords nestedLocks) := locksInTurn_of_mem (by decide +kernel)
  have htypes : ((knownRecords nestedLocks).drop 5).map Record.eventType = [eventMutexUnlock] := by
    decide +kernel
  have hone : ((knownRecords nestedLocks).drop 5).length = 1 := by decide +kernel
  obtain ⟨r, hr⟩ := List.length_eq_one_iff.mp hone
  rw [hr, List.map_singleton, List.singleton_inj] at htypes
  obtain ⟨e, w, he, -, -, htime⟩ := (hall nestedLocks hturns).lock
    ((knownRecords nestedLocks).take 5) r [] (by rw [← hr, List.take_append_drop]) htypes
  have hnone : ((parseLdbData nestedLocks).events[5]?.bind LdbEvent.lockTimeUs) = none := by
    decide +kernel
  have hplace : ((knownRecords nestedLocks).take 5).length = 5 := by decide +kernel
  rw [hplace] at he
  rw [he, Option.bind_some, htime] at hnone
  cases hnone

end LdbEvents
