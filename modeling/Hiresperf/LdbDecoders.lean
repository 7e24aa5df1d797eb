import Hiresperf.Foundation.BinaryFormat
import Hiresperf.Foundation.ByteCodec
import Mathlib.Data.Finset.Insert
import Mathlib.Data.Rat.Defs

/-!
# The two decoders of the LDB log

`parse_ldb.py` and `ldb_analysis/parse_func.py` read the same records of forty
bytes. The last argument of a stack sample packs the generation number and the
depth of the frame: the second decoder takes them apart, and the first takes the
whole argument as generation number.
-/

namespace LdbDecoders

open BinaryFormat ByteCodec

/-! ## Records -/

/-- What both decoders take from the forty bytes of a record. -/
structure Record where
  eventType : Nat
  timestampNs : Nat
  tid : Nat
  arg1 : Nat
  arg2 : Nat
  arg3 : Nat
  raw : List UInt8

/-- `int.from_bytes(byte[start:stop], "little")`. -/
def fromBytes (bytes : List UInt8) (start stop : Nat) : Nat :=
  leValue ((bytes.drop start).take (stop - start))

def decodeRecord (bytes : List UInt8) : Record where
  eventType := fromBytes bytes 0 4
  timestampNs := fromBytes bytes 4 8 * 1000000000 + fromBytes bytes 8 12
  tid := fromBytes bytes 12 16
  arg1 := fromBytes bytes 16 24
  arg2 := fromBytes bytes 24 32
  arg3 := fromBytes bytes 32 40
  raw := bytes

def recordSize : Nat := 40

/-- `read(40)` until nothing is left; the last read may be short. -/
def readRecords (bytes : List UInt8) : List Record :=
  (List.range ((bytes.length + (recordSize - 1)) / recordSize)).map fun i =>
    decodeRecord ((bytes.drop (i * recordSize)).take recordSize)

def eventStackSample : Nat := 1
def eventTagSet : Nat := 2
def eventTagClear : Nat := 5
def eventMutexWait : Nat := 6
def eventMutexLock : Nat := 7
def eventMutexUnlock : Nat := 8
def eventJoinWait : Nat := 9
def eventJoinJoined : Nat := 10
def eventThreadExit : Nat := 12

/-- `EVENT_TYPE_MAP`. -/
def eventTypeMap : Nat → String
  | 1 => "STACK_SAMPLE"
  | 2 => "TAG_SET"
  | 3 => "TAG_BLOCK"
  | 4 => "TAG_UNSET"
  | 5 => "TAG_CLEAR"
  | 6 => "MUTEX_WAIT"
  | 7 => "MUTEX_LOCK"
  | 8 => "MUTEX_UNLOCK"
  | 9 => "JOIN_WAIT"
  | 10 => "JOIN_JOINED"
  | 11 => "THREAD_CREATE"
  | 12 => "THREAD_EXIT"
  | _ => "UNKNOWN"

/-! ## `parse_ldb.py` -/

structure LdbEvent where
  timestampNs : Nat
  threadId : Nat
  eventType : Nat
  eventName : String
  latencyUs : Option ℚ
  pc : Option Int
  ngen : Option Nat
  tag : Option Nat
  mutex : Option Nat
  waitTimeUs : Option ℚ
  lockTimeUs : Option ℚ
  threadToJoin : Option Nat
  threadJoined : Option Nat

def newEvent (r : Record) : LdbEvent where
  timestampNs := r.timestampNs
  threadId := r.tid
  eventType := r.eventType
  eventName := eventTypeMap r.eventType
  latencyUs := none
  pc := none
  ngen := none
  tag := none
  mutex := none
  waitTimeUs := none
  lockTimeUs := none
  threadToJoin := none
  threadJoined := none

structure LdbState where
  events : List LdbEvent
  pcs : Finset Int
  lastMutexTs : Nat → Option Nat

/-- Microseconds since the last event of the thread's mutex, in exact arithmetic. -/
def sinceLast (s : LdbState) (r : Record) : Option ℚ :=
  (s.lastMutexTs r.tid).map fun last => (((r.timestampNs : Int) - last : Int) : ℚ) / 1000

/-- The call instruction has five bytes. -/
def callPc (r : Record) : Int := (r.arg2 : Int) - 5

/-- `arg1 / 1000.0`: the argument becomes a `float`, and so does the quotient. -/
def latencyUs (r : Record) : ℚ := binary64.round (binary64.round r.arg1 / 1000)

def append (s : LdbState) (event : LdbEvent) : LdbState := { s with events := s.events ++ [event] }

def decodeLdb (s : LdbState) (r : Record) : LdbState :=
  let event := newEvent r
  if r.eventType < eventStackSample ∨ r.eventType > eventThreadExit then s
  else if r.eventType = eventStackSample then
    append { s with pcs := insert (callPc r) s.pcs }
      { event with latencyUs := some (latencyUs r), pc := some (callPc r), ngen := some r.arg3 }
  else if eventTagSet ≤ r.eventType ∧ r.eventType ≤ eventTagClear then
    append s { event with tag := some r.arg1 }
  else if r.eventType = eventMutexWait then
    append { s with lastMutexTs := Function.update s.lastMutexTs r.tid (some r.timestampNs) }
      { event with mutex := some r.arg1 }
  else if r.eventType = eventMutexLock then
    let lastMutexTs := if (s.lastMutexTs r.tid).isSome then
        Function.update s.lastMutexTs r.tid (some r.timestampNs)
      else s.lastMutexTs
    append { s with lastMutexTs := lastMutexTs }
      { event with mutex := some r.arg1, waitTimeUs := sinceLast s r }
  else if r.eventType = eventMutexUnlock then
    append { s with lastMutexTs := Function.update s.lastMutexTs r.tid none }
      { event with mutex := some r.arg1, lockTimeUs := sinceLast s r }
  else if r.eventType = eventJoinWait then
    append s { event with threadToJoin := some r.arg1 }
  else if r.eventType = eventJoinJoined then
    append s { event with threadJoined := some r.arg1 }
  else append s event

/-- `parse_ldb_data` of `parse_ldb.py`. -/
def parseLdbData (bytes : List UInt8) : LdbState :=
  (readRecords bytes).foldl decodeLdb ⟨[], ∅, fun _ => none⟩

theorem arg1_lt {bytes : List UInt8} {r : Record} (h : r ∈ readRecords bytes) :
    r.arg1 < 2 ^ 64 := by
  obtain ⟨i, -, rfl⟩ := List.mem_map.mp h
  refine lt_of_lt_of_le (leValue_lt _) ?_
  have hlength : ∀ l : List UInt8, ((l.drop 16).take (24 - 16)).length ≤ 8 :=
    fun l => (List.length_take_le _ _).trans (by decide)
  exact Nat.pow_le_pow_right (by decide) (hlength _)

/-- A latency can be turned into nanoseconds. -/
theorem latencyUs_finite {r : Record} (h : r.arg1 < 2 ^ 64) :
    0 ≤ latencyUs r ∧ (binary64.pack (latencyUs r * 1000)).isSome = true := by
  have hmin : binary64.minExponent ≤ binary64.fractionBits := by decide
  have harg : (0 : ℚ) ≤ binary64.round r.arg1 := Format.round_nonneg (Nat.cast_nonneg _)
  have hquotient : (0 : ℚ) ≤ binary64.round r.arg1 / 1000 := div_nonneg harg (by norm_num)
  have hpos : 0 ≤ latencyUs r := Format.round_nonneg hquotient
  refine ⟨hpos, Format.pack_isSome (by decide) (show (100 : ℤ) ≤ _ by decide) ?_⟩
  have hargLe := Format.round_le hmin (Nat.cast_nonneg (α := ℚ) r.arg1)
  have hquotientLe : latencyUs r ≤ _ := Format.round_le hmin hquotient
  have hword : (r.arg1 : ℚ) < 2 ^ 64 := by exact_mod_cast h
  have hpow : (2 : ℚ) ^ (100 : ℤ) = 2 ^ 100 := by norm_num
  rw [abs_of_nonneg (mul_nonneg hpos (by norm_num)), hpow]
  linarith

/-! ## `ldb_analysis/parse_func.py` -/

structure FuncEvent where
  timestampNs : Nat
  threadId : Nat
  eventType : Nat
  arg1 : Nat
  arg2 : Nat
  arg3 : Nat
  rawData : List UInt8
  latencyUs : Option ℚ
  pc : Option Int
  ngen : Option Nat
  depth : Option Nat

structure FuncState where
  threadEvents : Nat → List FuncEvent
  pcs : Finset Int

def funcEvent (r : Record) : FuncEvent :=
  let event : FuncEvent := ⟨r.timestampNs, r.tid, r.eventType, r.arg1, r.arg2, r.arg3, r.raw,
    none, none, none, none⟩
  if r.eventType = eventStackSample then
    { event with
      latencyUs := some (latencyUs r)
      pc := some (callPc r)
      ngen := some (r.arg3 >>> 16)
      depth := some (r.arg3 &&& 0xFFFF) }
  else event

def decodeFunc (s : FuncState) (r : Record) : FuncState :=
  if r.eventType < eventStackSample then s
  else
    { threadEvents := Function.update s.threadEvents r.tid (s.threadEvents r.tid ++ [funcEvent r])
      pcs := if r.eventType = eventStackSample then insert (callPc r) s.pcs else s.pcs }

/-- `parse_ldb_data` of `parse_func.py`. -/
def parseFuncData (bytes : List UInt8) : FuncState :=
  (readRecords bytes).foldl decodeFunc ⟨fun _ => [], ∅⟩

/-! ## Agreement -/

/-- What both decoders say about an event. -/
structure View where
  timestampNs : Nat
  eventType : Nat
  latencyUs : Option ℚ
  pc : Option Int
  ngen : Option Nat

def LdbEvent.view (e : LdbEvent) : View := ⟨e.timestampNs, e.eventType, e.latencyUs, e.pc, e.ngen⟩

def FuncEvent.view (e : FuncEvent) : View := ⟨e.timestampNs, e.eventType, e.latencyUs, e.pc, e.ngen⟩

structure Agree (ldb : LdbState) (func : FuncState) : Prop where
  events : ∀ tid, (ldb.events.filter fun e => e.threadId == tid).map LdbEvent.view =
    (func.threadEvents tid).map FuncEvent.view
  pcs : ldb.pcs = func.pcs

/-! ## What each decoder says about a record -/

/-- The view of a record, with the generation number as the decoder reads it. -/
def recordView (ngen : Nat → Nat) (r : Record) : View :=
  if r.eventType = eventStackSample then
    ⟨r.timestampNs, r.eventType, some (latencyUs r), some (callPc r), some (ngen r.arg3)⟩
  else ⟨r.timestampNs, r.eventType, none, none, none⟩

def addPc (pcs : Finset Int) (r : Record) : Finset Int :=
  if r.eventType = eventStackSample then insert (callPc r) pcs else pcs

/-- An event of one of the known types. -/
def Known (r : Record) : Prop := eventStackSample ≤ r.eventType ∧ r.eventType ≤ eventThreadExit

variable {r : Record} {records : List Record}

/-- Whatever the type, one event is appended. -/
theorem decodeLdb_spec (s : LdbState) (h : Known r) :
    ∃ event, (decodeLdb s r).events = s.events ++ [event] ∧ event.threadId = r.tid ∧
      event.view = recordView id r ∧ (decodeLdb s r).pcs = addPc s.pcs r := by
  have hvalid : ¬ (r.eventType < eventStackSample ∨ r.eventType > eventThreadExit) := by
    have := h.1
    have := h.2
    omega
  by_cases hsample : r.eventType = eventStackSample
  · simp only [decodeLdb, if_neg hvalid, if_pos hsample]
    exact ⟨_, rfl, rfl, by rw [recordView, if_pos hsample]; rfl, by rw [addPc, if_pos hsample]; rfl⟩
  · have hview : recordView id r = ⟨r.timestampNs, r.eventType, none, none, none⟩ := by
      rw [recordView, if_neg hsample]
    have hpcs : addPc s.pcs r = s.pcs := by rw [addPc, if_neg hsample]
    rw [hview, hpcs]
    -- the remaining branches differ in fields that the view leaves out
    simp only [decodeLdb, if_neg hvalid, if_neg hsample]
    split_ifs <;> exact ⟨_, rfl, rfl, rfl, rfl⟩

theorem foldl_decodeLdb (s : LdbState) (h : ∀ r ∈ records, Known r) (tid : Nat) :
    (((records.foldl decodeLdb s).events.filter fun e => e.threadId == tid).map LdbEvent.view =
        (s.events.filter fun e => e.threadId == tid).map LdbEvent.view ++
          (records.filter fun r => r.tid == tid).map (recordView id)) ∧
      (records.foldl decodeLdb s).pcs = records.foldl addPc s.pcs := by
  induction records generalizing s with
  | nil => simp
  | cons r rest ih =>
    obtain ⟨event, hevents, htid, hview, hpcs⟩ := decodeLdb_spec s (h r List.mem_cons_self)
    obtain ⟨hrest, hrestPcs⟩ := ih (decodeLdb s r) fun r' hr' => h r' (List.mem_cons_of_mem _ hr')
    rw [List.foldl_cons, List.foldl_cons, hrest, hrestPcs, hevents, hpcs]
    refine ⟨?_, rfl⟩
    by_cases hsame : r.tid = tid
    · simp [htid, hview, hsame]
    · simp [htid, hsame]

theorem funcEvent_view (r : Record) : (funcEvent r).view = recordView (· >>> 16) r := by
  unfold funcEvent recordView
  split_ifs <;> rfl

theorem foldl_decodeFunc (s : FuncState) (h : ∀ r ∈ records, Known r) (tid : Nat) :
    (((records.foldl decodeFunc s).threadEvents tid).map FuncEvent.view =
        (s.threadEvents tid).map FuncEvent.view ++
          (records.filter fun r => r.tid == tid).map (recordView (· >>> 16))) ∧
      (records.foldl decodeFunc s).pcs = records.foldl addPc s.pcs := by
  induction records generalizing s with
  | nil => simp
  | cons r rest ih =>
    have hvalid : ¬ r.eventType < eventStackSample := by
      have := (h r List.mem_cons_self).1
      omega
    obtain ⟨hrest, hrestPcs⟩ := ih (decodeFunc s r) fun r' hr' => h r' (List.mem_cons_of_mem _ hr')
    rw [List.foldl_cons, List.foldl_cons, hrest, hrestPcs]
    simp only [decodeFunc, if_neg hvalid]
    refine ⟨?_, rfl⟩
    by_cases hsame : r.tid = tid
    · subst hsame
      simp [funcEvent_view]
    · simp [hsame, Function.update_of_ne (Ne.symm hsame)]

/-- Shifted by sixteen bits, only zero stays the same. -/
theorem recordView_eq_iff (r : Record) :
    recordView id r = recordView (· >>> 16) r ↔ (r.eventType = eventStackSample → r.arg3 = 0) := by
  unfold recordView
  by_cases hsample : r.eventType = eventStackSample
  · simp only [hsample, if_true, View.mk.injEq, Option.some.injEq, id_eq, true_and, forall_const,
      Nat.shiftRight_eq_div_pow]
    omega
  · simp [hsample]

/-- For every log of known event types, the decoders agree exactly when no stack sample has a
generation number or a depth. -/
theorem decoders_agree_iff (bytes : List UInt8) (htypes : ∀ r ∈ readRecords bytes, Known r) :
    Agree (parseLdbData bytes) (parseFuncData bytes) ↔
      ∀ r ∈ readRecords bytes, r.eventType = eventStackSample → r.arg3 = 0 := by
  have hldb := foldl_decodeLdb ⟨[], ∅, fun _ => none⟩ htypes
  have hfunc := foldl_decodeFunc ⟨fun _ => [], ∅⟩ htypes
  constructor
  · intro hagree r hr
    have hevents := hagree.events r.tid
    rw [parseLdbData, (hldb r.tid).1, parseFuncData, (hfunc r.tid).1] at hevents
    have hmem : r ∈ (readRecords bytes).filter fun r' => r'.tid == r.tid :=
      List.mem_filter.mpr ⟨hr, by simp⟩
    exact (recordView_eq_iff r).mp (List.map_inj_left.mp hevents r hmem)
  · intro h
    constructor
    · intro tid
      rw [parseLdbData, (hldb tid).1, parseFuncData, (hfunc tid).1]
      simp only [List.filter_nil, List.map_nil, List.nil_append]
      apply List.map_congr_left
      intro r hr
      exact (recordView_eq_iff r).mpr (h r (List.mem_filter.mp hr).1)
    · exact (hldb 0).2.trans (hfunc 0).2.symm

/-- A record of a stack sample. -/
def sampleBytes (arg3 : Nat) : List UInt8 :=
  leBytes 4 eventStackSample ++ leBytes 4 1 ++ leBytes 4 2 ++ leBytes 4 7 ++ leBytes 8 3000 ++
    leBytes 8 0x401005 ++ leBytes 8 arg3

/-- A record in the first second. -/
def recordBytes (eventType timestampNs tid arg1 arg2 arg3 : Nat) : List UInt8 :=
  leBytes 4 eventType ++ leBytes 4 0 ++ leBytes 4 timestampNs ++ leBytes 4 tid ++ leBytes 8 arg1 ++
    leBytes 8 arg2 ++ leBytes 8 arg3

/-- Two threads that wait for the same mutex, with an outermost frame sampled in each. -/
def outermostLog : List UInt8 :=
  recordBytes eventMutexWait 100 7 0xA0 0 0 ++ recordBytes eventMutexLock 250 7 0xA0 0 0 ++
    recordBytes eventMutexWait 300 8 0xA0 0 0 ++ recordBytes eventStackSample 900 7 800 0x401005 0 ++
    recordBytes eventMutexUnlock 950 7 0xA0 0 0 ++ recordBytes eventMutexLock 960 8 0xA0 0 0 ++
    recordBytes eventStackSample 2000 8 1001 0x402005 0 ++ recordBytes eventThreadExit 2100 8 0 0 0

theorem decoders_agree_outermost :
    Agree (parseLdbData outermostLog) (parseFuncData outermostLog) := by
  refine (decoders_agree_iff outermostLog ?_).mpr ?_
  · unfold Known
    decide +kernel
  · decide +kernel

/-- The second generation at depth 3 is 131075 for one decoder and 2 for the other. -/
theorem packed_argument_disagrees :
    ¬ ∀ bytes, bytes.length % recordSize = 0 → (∀ r ∈ readRecords bytes, Known r) →
      Agree (parseLdbData bytes) (parseFuncData bytes) := by
  intro hall
  have hknown : ∀ r ∈ readRecords (sampleBytes 131075), Known r := by
    unfold Known
    decide
  have hevents := (hall (sampleBytes 131075) (by decide) hknown).events 7
  have hngen := congrArg (List.map View.ngen) hevents
  revert hngen
  decide

end LdbDecoders
