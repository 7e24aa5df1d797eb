import Hiresperf.Foundation.ByteCodec

/-!
# Recording and reading BPF events

`SET_EVENT_FIELDS` of `hrp_bpf.h` fills a `struct hrp_bpf_event`, and
`parse_bpf_dump.py` reads the concatenation of these records back with a native
format string. The layouts agree, hole included. The sign of a return value is to
be restored for the END events, but the test for these looks for `END` among the
words of the name, and every name is one word.
-/

namespace BpfCodec

open ByteCodec

/-! ## Recording -/

inductive EventType where
  | tcpInStart
  | tcpOutStart
  | udpInStart
  | udpOutStart
  | blkioReadStart
  | blkioWriteStart
  | tcpInEnd
  | tcpOutEnd
  | udpInEnd
  | udpOutEnd
  | blkioReadEnd
  | blkioWriteEnd
  deriving DecidableEq

/-- `HRP_BPF_EVENT_TCP_IN_START` to `HRP_BPF_EVENT_BLKIO_WRITE_END`. -/
def EventType.code : EventType → Nat
  | .tcpInStart => 1
  | .tcpOutStart => 2
  | .udpInStart => 3
  | .udpOutStart => 4
  | .blkioReadStart => 5
  | .blkioWriteStart => 6
  | .tcpInEnd => 7
  | .tcpOutEnd => 8
  | .udpInEnd => 9
  | .udpOutEnd => 10
  | .blkioReadEnd => 11
  | .blkioWriteEnd => 12

def EventType.isEnd (t : EventType) : Bool := decide (7 ≤ t.code)

/-- What a probe sees. `value` is a size, or a return value in two's complement, and stands in the
low half of a register whose high half is `upper`. `hole` is what the memory of the record holds
between `event_type` and `size_or_ret`. -/
structure Call where
  ktime : BitVec 64
  pid : BitVec 32
  tid : BitVec 32
  type : EventType
  value : BitVec 32
  upper : BitVec 32
  rbp : BitVec 64
  hole : BitVec 32

structure HrpBpfEvent where
  tsNs : BitVec 64
  pid : BitVec 32
  tid : BitVec 32
  eventType : BitVec 32
  sizeOrRet : BitVec 64
  rbpOrReqAddr : BitVec 64

/-- `bpf_get_current_pid_tgid`. -/
def pidTgid (c : Call) : BitVec 64 := c.pid ++ c.tid

def register (c : Call) : BitVec 64 := c.upper ++ c.value

def setEventFields (c : Call) : HrpBpfEvent where
  tsNs := c.ktime
  pid := (pidTgid c >>> 32).setWidth 32
  tid := (pidTgid c &&& 0xFFFFFFFF).setWidth 32
  eventType := BitVec.ofNat 32 c.type.code
  sizeOrRet := ((register c).setWidth 32).setWidth 64
  rbpOrReqAddr := c.rbp

/-- The memory of a record: four bytes after `event_type` belong to no member. -/
def eventBytes (e : HrpBpfEvent) (hole : BitVec 32) : List UInt8 :=
  leBytes 8 e.tsNs.toNat ++ leBytes 4 e.pid.toNat ++ leBytes 4 e.tid.toNat ++
    leBytes 4 e.eventType.toNat ++ leBytes 4 hole.toNat ++ leBytes 8 e.sizeOrRet.toNat ++
    leBytes 8 e.rbpOrReqAddr.toNat

def recordBytes (c : Call) : List UInt8 := eventBytes (setEventFields c) c.hole

/-- The hole is where the alignment of the members puts it. -/
theorem eventBytes_layout (e : HrpBpfEvent) :
    eventBytes e 0 = structBytes false 0
      [⟨8, leBytes 8 e.tsNs.toNat⟩, ⟨4, leBytes 4 e.pid.toNat⟩, ⟨4, leBytes 4 e.tid.toNat⟩,
        ⟨4, leBytes 4 e.eventType.toNat⟩, ⟨8, leBytes 8 e.sizeOrRet.toNat⟩,
        ⟨8, leBytes 8 e.rbpOrReqAddr.toNat⟩] := by
  have hhole : leBytes 4 (0 : BitVec 32).toNat = List.replicate 4 0 := rfl
  rw [eventBytes, hhole]
  simp [structBytes, place, padding]

/-! ## Reading -/

/-- Native fields at their alignment, each as long as it is aligned. -/
def unpackFrom (bytes : List UInt8) : Nat → List Nat → List Nat
  | _, [] => []
  | offset, size :: rest =>
    let start := offset + padding offset size
    leValue ((bytes.drop start).take size) :: unpackFrom bytes (start + size) rest

def calcsizeFrom : Nat → List Nat → Nat
  | offset, [] => offset
  | offset, size :: rest => calcsizeFrom (offset + padding offset size + size) rest

/-- `struct.unpack`; `none` is the exception for a buffer of another size. -/
def unpack (format : List Nat) (bytes : List UInt8) : Option (List Nat) :=
  if bytes.length = calcsizeFrom 0 format then some (unpackFrom bytes 0 format) else none

/-- `QIIIQL`. -/
def eventFormat : List Nat := [8, 4, 4, 4, 8, 8]

def eventSize : Nat := calcsizeFrom 0 eventFormat

def eventTypes : Nat → Option String
  | 1 => some "TCP_IN_START"
  | 2 => some "TCP_OUT_START"
  | 3 => some "UDP_IN_START"
  | 4 => some "UDP_OUT_START"
  | 5 => some "BLKIO_READ_START"
  | 6 => some "BLKIO_WRITE_START"
  | 7 => some "TCP_IN_END"
  | 8 => some "TCP_OUT_END"
  | 9 => some "UDP_IN_END"
  | 10 => some "UDP_OUT_END"
  | 11 => some "BLKIO_READ_END"
  | 12 => some "BLKIO_WRITE_END"
  | _ => none

def eventName (code : Nat) : String :=
  (eventTypes code).getD ("UNKNOWN EVENT " ++ toString code)

/-- `str.split()` on the characters of a name; `word` holds the letters of the current word. -/
def splitChars (word : List Char) : List Char → List (List Char)
  | [] => if word.isEmpty then [] else [word]
  | c :: rest =>
    if c.isWhitespace then
      if word.isEmpty then splitChars [] rest else word :: splitChars [] rest
    else splitChars (word ++ [c]) rest

def typeParts (name : String) : List String := (splitChars [] name.toList).map String.ofList

/-- `struct.unpack('i', struct.pack('I', v & 0xFFFFFFFF))`. -/
def toSigned (v : Nat) : Int := (BitVec.ofNat 32 v).toInt

def outputLine (ts : Nat) (name : String) (value : Int) : String :=
  toString ts ++ " " ++ name ++ " " ++ toString value ++ "\n"

/-- An unpacked entry, as the line it gives and the thread whose file gets it. -/
def entryLine : List Nat → Nat × String
  | [tsNs, _, tid, eventType, sizeOrRet, _] =>
    let name := eventName eventType
    let value := if "END" ∈ typeParts name then toSigned sizeOrRet else (sizeOrRet : Int)
    (tid, outputLine tsNs name value)
  | _ => (0, "")

/-- The lines of the files, by thread. -/
abbrev Files := Nat → List String

def appendLine (files : Files) (entry : Nat × String) : Files :=
  Function.update files entry.1 (files entry.1 ++ [entry.2])

/-- Every slice is a whole record but perhaps the last, for which `unpack` raises before
anything is written. -/
def parseLogFile (logData : List UInt8) (files : Files) : Option Files :=
  if logData.length % eventSize = 0 then
    ((splitRecords eventSize logData).mapM (unpack eventFormat)).map fun entries =>
      (entries.map entryLine).foldl appendLine files
  else none

/-! ## What should be read back -/

/-- A size is not negative, and a return value has the sign of an `int`. -/
def expectedValue (c : Call) : Int := if c.type.isEnd then c.value.toInt else c.value.toNat

def expectedLine (c : Call) : String :=
  outputLine c.ktime.toNat (eventName c.type.code) (expectedValue c)

/-- Each thread's file goes on with the lines of its calls, in order. -/
def ReadBack (calls : List Call) (files : Files) : Prop :=
  ∃ after, parseLogFile (calls.flatMap recordBytes) files = some after ∧
    ∀ tid, after tid = files tid ++
      (calls.filter fun c => c.tid.toNat == tid).map expectedLine

/-! ## The codec -/

/-- The halves of a register, bit by bit. -/
theorem getLsbD_halves (high low : BitVec 32) (i : Nat) :
    (high ++ low : BitVec 64).getLsbD i =
      if i < 32 then low.getLsbD i else high.getLsbD (i - 32) :=
  BitVec.getLsbD_append

@[simp] theorem setEventFields_pid (c : Call) : (setEventFields c).pid = c.pid := by
  apply BitVec.eq_of_getLsbD_eq
  intro i hi
  simp [setEventFields, pidTgid, getLsbD_halves, hi]

@[simp] theorem setEventFields_tid (c : Call) : (setEventFields c).tid = c.tid := by
  have hmask : ∀ i < 32, (0xFFFFFFFF : BitVec 64).getLsbD i = true := by decide
  apply BitVec.eq_of_getLsbD_eq
  intro i hi
  simp only [setEventFields, pidTgid, BitVec.getLsbD_setWidth, BitVec.getLsbD_and, hmask i hi]
  simp [getLsbD_halves, hi]

@[simp] theorem setEventFields_sizeOrRet (c : Call) :
    (setEventFields c).sizeOrRet.toNat = c.value.toNat := by
  have hlow : (register c).setWidth 32 = c.value := by
    apply BitVec.eq_of_getLsbD_eq
    intro i hi
    simp [register, getLsbD_halves, hi]
  have hlt := c.value.isLt
  change (((register c).setWidth 32).setWidth 64).toNat = _
  rw [hlow, BitVec.toNat_setWidth]
  omega

@[simp] theorem setEventFields_eventType (c : Call) :
    (setEventFields c).eventType.toNat = c.type.code := by
  cases h : c.type <;> simp [setEventFields, h, EventType.code]

theorem halves (v : BitVec 64) :
    (loWord v).toNat + 4294967296 * (hiWord v).toNat = v.toNat := by
  have := v.isLt
  simp only [loWord, hiWord, BitVec.toNat_ofNat]
  omega

/-- A record as ten 32-bit words. -/
def recordWords (e : HrpBpfEvent) (hole : BitVec 32) : List (BitVec 32) :=
  [loWord e.tsNs, hiWord e.tsNs, e.pid, e.tid, e.eventType, hole, loWord e.sizeOrRet,
    hiWord e.sizeOrRet, loWord e.rbpOrReqAddr, hiWord e.rbpOrReqAddr]

theorem eventBytes_eq_wordBytes (e : HrpBpfEvent) (hole : BitVec 32) :
    eventBytes e hole = wordBytes (recordWords e hole) := by
  simp [eventBytes, leBytes_eight, wordBytes, recordWords]

@[simp] theorem length_recordBytes (c : Call) : (recordBytes c).length = eventSize := by
  simp [recordBytes, eventBytes, eventSize, calcsizeFrom, eventFormat, padding]

/-- The members of the record are where the format string expects them. -/
theorem unpack_eventBytes (e : HrpBpfEvent) (hole : BitVec 32) :
    unpackFrom (eventBytes e hole) 0 eventFormat =
      [e.tsNs.toNat, e.pid.toNat, e.tid.toNat, e.eventType.toNat, e.sizeOrRet.toNat,
        e.rbpOrReqAddr.toNat] := by
  have hone := leValue_word (recordWords e hole)
  have htwo := leValue_two_words (recordWords e hole)
  rw [eventBytes_eq_wordBytes]
  simp only [eventFormat, unpackFrom, padding]
  rw [htwo 0, hone 2, hone 3, hone 4, htwo 6, htwo 8]
  simp [recordWords, halves]

theorem unpack_recordBytes (c : Call) :
    unpack eventFormat (recordBytes c) =
      some [c.ktime.toNat, c.pid.toNat, c.tid.toNat, c.type.code, c.value.toNat, c.rbp.toNat] := by
  have hsize : (recordBytes c).length = calcsizeFrom 0 eventFormat := length_recordBytes c
  rw [unpack, if_pos hsize, recordBytes, unpack_eventBytes, setEventFields_pid, setEventFields_tid,
    setEventFields_eventType, setEventFields_sizeOrRet]
  rfl

theorem mapM_unpack {records : List (List UInt8)} (hsize : ∀ r ∈ records, r.length = eventSize) :
    records.mapM (unpack eventFormat) =
      some (records.map fun r => unpackFrom r 0 eventFormat) := by
  induction records with
  | nil => rfl
  | cons r rest ih =>
    have hfirst : unpack eventFormat r = some (unpackFrom r 0 eventFormat) :=
      if_pos (hsize r List.mem_cons_self)
    rw [List.mapM_cons, hfirst, ih fun r' hr' => hsize r' (List.mem_cons_of_mem _ hr')]
    rfl

theorem foldl_appendLine (entries : List (Nat × String)) (files : Files) (tid : Nat) :
    entries.foldl appendLine files tid =
      files tid ++ (entries.filter fun e => e.1 == tid).map Prod.snd := by
  induction entries generalizing files with
  | nil => simp
  | cons e rest ih =>
    rw [List.foldl_cons, ih]
    by_cases htid : e.1 = tid
    · subst htid
      simp [appendLine]
    · simp [appendLine, htid, Function.update_of_ne (Ne.symm htid)]

/-- Whole records of any content are read one by one. -/
theorem parseLogFile_records {records : List (List UInt8)}
    (hsize : ∀ r ∈ records, r.length = eventSize) (files : Files) :
    parseLogFile records.flatten files =
      some ((records.map fun r => entryLine (unpackFrom r 0 eventFormat)).foldl
        appendLine files) := by
  have hsplit : splitRecords eventSize records.flatten = records := by
    induction records with
    | nil => rfl
    | cons r rest ih =>
      rw [List.flatten_cons, splitRecords_cons (by decide) (hsize r List.mem_cons_self),
        ih fun r' hr' => hsize r' (List.mem_cons_of_mem _ hr')]
  have hwhole : records.flatten.length % eventSize = 0 := by
    rw [List.length_flatten, List.map_congr_left hsize, List.map_const', List.sum_replicate_nat]
    exact Nat.mul_mod_left _ _
  rw [parseLogFile, if_pos hwhole, hsplit, mapM_unpack hsize, Option.map_some, List.map_map]
  rfl

/-- No name is split, so that no part of a name is `END`. -/
theorem end_not_in_typeParts (t : EventType) : "END" ∉ typeParts (eventName t.code) := by
  cases t <;> decide

/-- The line that is written: the value is never taken as signed. -/
def writtenLine (c : Call) : String :=
  outputLine c.ktime.toNat (eventName c.type.code) c.value.toNat

theorem entryLine_recordBytes (c : Call) :
    entryLine (unpackFrom (recordBytes c) 0 eventFormat) = (c.tid.toNat, writtenLine c) := by
  have hsize : (recordBytes c).length = calcsizeFrom 0 eventFormat := length_recordBytes c
  have hunpack := unpack_recordBytes c
  rw [unpack, if_pos hsize] at hunpack
  rw [Option.some.inj hunpack]
  simp only [entryLine, if_neg (end_not_in_typeParts c.type), writtenLine]

/-- The lines of the calls of a thread. -/
theorem filter_entryLines (calls : List Call) (tid : Nat) :
    ((calls.map fun c => entryLine (unpackFrom (recordBytes c) 0 eventFormat)).filter fun e =>
      e.1 == tid).map Prod.snd = (calls.filter fun c => c.tid.toNat == tid).map writtenLine := by
  simp [List.filter_map, Function.comp_def, entryLine_recordBytes]

/-- What the reader leaves in the files. -/
theorem parseLogFile_calls (calls : List Call) (files : Files) :
    ∃ after, parseLogFile (calls.flatMap recordBytes) files = some after ∧
      ∀ tid, after tid = files tid ++
        (calls.filter fun c => c.tid.toNat == tid).map writtenLine := by
  have hsize : ∀ r ∈ calls.map recordBytes, r.length = eventSize := by
    intro r hr
    obtain ⟨c, -, rfl⟩ := List.mem_map.mp hr
    exact length_recordBytes c
  have hparse := parseLogFile_records hsize files
  rw [← List.flatMap_def, List.map_map] at hparse
  refine ⟨_, hparse, fun tid => ?_⟩
  rw [foldl_appendLine, ← filter_entryLines]
  rfl

/-! ## The sign -/

/-- The text of a negative number is that of no other number. -/
theorem toString_ne_of_neg {v : Int} (h : v < 0) (n : Nat) :
    toString v ≠ toString (n : Int) := by
  intro heq
  obtain ⟨m, rfl⟩ := Int.eq_negSucc_of_lt_zero h
  have hchars := congrArg String.toList heq
  have hsign : '-' ∈ (toString (n : Int)).toList := by
    rw [← hchars]
    change '-' ∈ ("-" ++ toString (m + 1)).toList
    simp
  change '-' ∈ (Nat.repr n).toList at hsign
  rw [Nat.toList_repr] at hsign
  have hdigit := Nat.isDigit_of_mem_toDigits (by decide) (by decide) hsign
  revert hdigit
  decide

theorem outputLine_inj {ts : Nat} {name : String} {v w : Int}
    (h : outputLine ts name v = outputLine ts name w) : toString v = toString w := by
  have hchars := congrArg String.toList h
  simp only [outputLine, String.toList_append, List.append_assoc, List.append_cancel_left_eq]
    at hchars
  exact String.toList_injective (List.append_cancel_right hchars)

/-- A line is right unless it stands for a negative return value. -/
theorem writtenLine_eq_iff (c : Call) :
    writtenLine c = expectedLine c ↔ (c.type.isEnd = true → 0 ≤ c.value.toInt) := by
  constructor
  · intro h hend
    by_contra hneg
    have hvalue : expectedValue c < 0 := by
      rw [expectedValue, if_pos hend]
      omega
    exact toString_ne_of_neg hvalue c.value.toNat (outputLine_inj h).symm
  · intro h
    have hvalue : expectedValue c = c.value.toNat := by
      unfold expectedValue
      split_ifs with hend
      · have hpos := h hend
        rw [BitVec.toInt_eq_toNat_cond] at hpos ⊢
        split_ifs at hpos ⊢ with hlow
        · rfl
        · have := c.value.isLt
          omega
      · rfl
    rw [writtenLine, expectedLine, hvalue]

/-- Whatever was recorded, the files get what they should exactly when no call has returned a
negative value. -/
theorem readBack_iff (calls : List Call) (files : Files) :
    ReadBack calls files ↔ ∀ c ∈ calls, c.type.isEnd = true → 0 ≤ c.value.toInt := by
  obtain ⟨after, hparse, hafter⟩ := parseLogFile_calls calls files
  constructor
  · rintro ⟨after', hparse', hexpected⟩ c hc
    obtain rfl : after = after' := Option.some.inj (hparse.symm.trans hparse')
    have hlines := List.append_cancel_left
      ((hafter c.tid.toNat).symm.trans (hexpected c.tid.toNat))
    have hmem : c ∈ calls.filter fun c' => c'.tid.toNat == c.tid.toNat :=
      List.mem_filter.mpr ⟨hc, by simp⟩
    exact (writtenLine_eq_iff c).mp (List.map_inj_left.mp hlines c hmem)
  · intro h
    refine ⟨after, hparse, fun tid => ?_⟩
    have hlines : (calls.filter fun c => c.tid.toNat == tid).map writtenLine =
        (calls.filter fun c => c.tid.toNat == tid).map expectedLine := by
      apply List.map_congr_left
      intro c hc
      exact (writtenLine_eq_iff c).mpr (h c (List.mem_filter.mp hc).1)
    rw [hafter tid, hlines]

/-- A `recvmsg` that returns -11, `EAGAIN`. -/
def failedReceive : Call where
  ktime := 5
  pid := 7
  tid := 8
  type := .udpInEnd
  value := -11
  upper := -1
  rbp := 0
  hole := 0

/-- The return value is written as 4294967285. -/
theorem negative_return_misread : ¬ ∀ calls files, ReadBack calls files := by
  intro hall
  obtain ⟨after, hparse, hafter⟩ := hall [failedReceive] fun _ => []
  obtain ⟨written, hwritten, hlines⟩ := parseLogFile_calls [failedReceive] fun _ => []
  obtain rfl : written = after := Option.some.inj (hwritten.symm.trans hparse)
  have hline := (hlines 8).symm.trans (hafter 8)
  revert hline
  decide

end BpfCodec
