import Hiresperf.Foundation.ByteCodec

/-!
# The log entry and its reader

`HrperfTick` and `HrperfLogEntry` of `buffer.h` as they are laid out in memory,
and `read_logs_to_numpy` of `parse_hrp.py`. The members under `#if` are present
or absent with the flags they were compiled with; the reader builds its dtype
from flags of its own. A numpy record is a list of named values in dtype order.
-/

namespace LogEntry

open ByteCodec

structure LogFlags where
  logImc : Bool
  useRdt : Bool
  rdtIncludeLocalBw : Bool
  deriving DecidableEq

/-- A 64-bit member that exists exactly when it was compiled in. -/
def Field (present : Bool) : Type := { v : Option (BitVec 64) // v.isSome = present }

instance (present : Bool) : DecidableEq (Field present) :=
  inferInstanceAs (DecidableEq { v : Option (BitVec 64) // v.isSome = present })

/-- A member with the value `v` if it was compiled in. -/
def Field.of (present : Bool) (v : BitVec 64) : Field present :=
  ⟨if present then some v else none, by cases present <;> rfl⟩

structure HrperfTick (flags : LogFlags) where
  kts : BitVec 64
  stallMem : BitVec 64
  instRetire : BitVec 64
  stallsSb : BitVec 64
  cpuUnhalt : BitVec 64
  llcMisses : BitVec 64
  swPrefetch : BitVec 64
  imcReads : Field flags.logImc
  imcWrites : Field flags.logImc
  totalBw : Field flags.useRdt
  localBw : Field (flags.useRdt && flags.rdtIncludeLocalBw)
  occupancy : Field flags.useRdt
  deriving DecidableEq

structure HrperfLogEntry (flags : LogFlags) where
  cpuId : BitVec 32
  tick : HrperfTick flags
  deriving DecidableEq

variable {flags : LogFlags}

/-! ## The writer: the packed structure in memory -/

def u64Member (v : BitVec 64) : Member := ⟨8, leBytes 8 v.toNat⟩

/-- The members that were compiled in, in declaration order. -/
def HrperfTick.members (t : HrperfTick flags) : List (BitVec 64) :=
  [t.kts, t.stallMem, t.instRetire, t.stallsSb, t.cpuUnhalt, t.llcMisses, t.swPrefetch] ++
  t.imcReads.val.toList ++ t.imcWrites.val.toList ++
  t.totalBw.val.toList ++ t.localBw.val.toList ++ t.occupancy.val.toList

/-- `HrperfTick` is laid out by the usual rules, `HrperfLogEntry` is packed around it. -/
def HrperfTick.toBytes (pad : UInt8) (t : HrperfTick flags) : List UInt8 :=
  structBytes false pad (t.members.map u64Member)

def HrperfLogEntry.toBytes (pad : UInt8) (e : HrperfLogEntry flags) : List UInt8 :=
  structBytes true pad [⟨4, leBytes 4 e.cpuId.toNat⟩, ⟨8, e.tick.toBytes pad⟩]

/-- `sizeof(HrperfLogEntry)`. -/
def sizeofLogEntry (flags : LogFlags) : Nat :=
  4 + 8 * (7 + (if flags.logImc then 2 else 0) +
    (if flags.useRdt then (if flags.rdtIncludeLocalBw then 3 else 2) else 0))

/-! ## The reader -/

inductive NpType where
  | int32
  | uint64
  deriving DecidableEq

inductive NpValue where
  | int32 (v : BitVec 32)
  | uint64 (v : BitVec 64)
  deriving DecidableEq

def NpType.itemsize : NpType → Nat
  | .int32 => 4
  | .uint64 => 8

/-- `np.dtype` of a list of named scalars: no alignment, fields one after another. -/
abbrev Dtype := List (String × NpType)

def Dtype.itemsize (dt : Dtype) : Nat := (dt.map (fun f => f.2.itemsize)).sum

def NpType.decode : NpType → List UInt8 → NpValue
  | .int32, bytes => .int32 (BitVec.ofNat 32 (leValue (bytes.take 4)))
  | .uint64, bytes => .uint64 (BitVec.ofNat 64 (leValue (bytes.take 8)))

def decodeItem : Dtype → List UInt8 → List (String × NpValue)
  | [], _ => []
  | (name, ty) :: rest, bytes =>
    (name, ty.decode bytes) :: decodeItem rest (bytes.drop ty.itemsize)

/-- `np.fromfile`: the whole items of the file; a partial item at its end is ignored. -/
def fromfile (dt : Dtype) (bytes : List UInt8) : List (List (String × NpValue)) :=
  (splitRecords dt.itemsize bytes).map (decodeItem dt)

/-- The fields that are read under every flag. -/
def baseFields : Dtype :=
  [("cpu_id", .int32), ("timestamp", .uint64), ("stall_mem", .uint64),
    ("inst_retire", .uint64), ("stalls_sb", .uint64), ("cpu_unhalt", .uint64),
    ("llc_misses", .uint64), ("sw_prefetch", .uint64)]

def readLogsDtype (useImc useRdt useRdtLocalBw : Bool) : Dtype :=
  let imc : Dtype := [("imc_read", .uint64), ("imc_write", .uint64)]
  let localBw : Dtype := if useRdtLocalBw then [("local_bw", .uint64)] else []
  let rdt : Dtype := ("total_bw", .uint64) :: localBw ++ [("occupancy", .uint64)]
  baseFields ++ (if useImc then imc else []) ++ (if useRdt then rdt else [])

def readLogsToNumpy (useImc useRdt useRdtLocalBw : Bool) (bytes : List UInt8) :
    List (List (String × NpValue)) :=
  fromfile (readLogsDtype useImc useRdt useRdtLocalBw) bytes

/-! ## Agreement of the two -/

def NpValue.type : NpValue → NpType
  | .int32 _ => .int32
  | .uint64 _ => .uint64

def NpValue.bytes : NpValue → List UInt8
  | .int32 v => leBytes 4 v.toNat
  | .uint64 v => leBytes 8 v.toNat

def Field.named {present : Bool} (name : String) (f : Field present) : List (String × NpValue) :=
  f.val.toList.map (fun v => (name, .uint64 v))

def HrperfLogEntry.baseNamed (e : HrperfLogEntry flags) : List (String × NpValue) :=
  [("cpu_id", .int32 e.cpuId), ("timestamp", .uint64 e.tick.kts),
    ("stall_mem", .uint64 e.tick.stallMem), ("inst_retire", .uint64 e.tick.instRetire),
    ("stalls_sb", .uint64 e.tick.stallsSb), ("cpu_unhalt", .uint64 e.tick.cpuUnhalt),
    ("llc_misses", .uint64 e.tick.llcMisses), ("sw_prefetch", .uint64 e.tick.swPrefetch)]

/-- The record that stands for an entry, under the reader's names. -/
def HrperfLogEntry.named (e : HrperfLogEntry flags) : List (String × NpValue) :=
  e.baseNamed ++ e.tick.imcReads.named "imc_read" ++ e.tick.imcWrites.named "imc_write" ++
  e.tick.totalBw.named "total_bw" ++ e.tick.localBw.named "local_bw" ++
  e.tick.occupancy.named "occupancy"

@[simp] theorem NpValue.length_bytes (v : NpValue) : v.bytes.length = v.type.itemsize := by
  cases v <;> simp [NpValue.bytes, NpValue.type, NpType.itemsize]

theorem NpValue.decode_bytes (v : NpValue) (rest : List UInt8) :
    v.type.decode (v.bytes ++ rest) = v := by
  cases v with
  | int32 v =>
    have htake : (leBytes 4 v.toNat ++ rest).take 4 = leBytes 4 v.toNat := by simp
    simp only [NpValue.type, NpValue.bytes, NpType.decode, htake]
    rw [ofNat_leValue_leBytes 4 v]
  | uint64 v =>
    have htake : (leBytes 8 v.toNat ++ rest).take 8 = leBytes 8 v.toNat := by simp
    simp only [NpValue.type, NpValue.bytes, NpType.decode, htake]
    rw [ofNat_leValue_leBytes 8 v]

/-- Named values survive their bytes when the dtype lists the same names and types. -/
theorem decodeItem_bytes (values : List (String × NpValue)) :
    decodeItem (values.map (fun f => (f.1, f.2.type))) (values.flatMap (fun f => f.2.bytes)) =
      values := by
  induction values with
  | nil => rfl
  | cons f rest ih =>
    simp only [List.map_cons, List.flatMap_cons, decodeItem, NpValue.decode_bytes]
    rw [List.drop_left' (NpValue.length_bytes f.2), ih]

theorem HrperfTick.toBytes_eq (pad : UInt8) (t : HrperfTick flags) :
    t.toBytes pad = t.members.flatMap (fun v => leBytes 8 v.toNat) := by
  have hbytes : t.toBytes pad = (t.members.map u64Member).flatMap Member.bytes := by
    apply structBytes_uniform pad 8 (by decide)
    · simp [HrperfTick.members]
    · intro m hm
      obtain ⟨v, _, rfl⟩ := List.mem_map.mp hm
      simp [u64Member]
  rw [hbytes, List.flatMap_map]
  rfl

/-- The bytes of an entry are those of its fields, without a gap. -/
theorem HrperfLogEntry.toBytes_eq (pad : UInt8) (e : HrperfLogEntry flags) :
    e.toBytes pad = e.named.flatMap (fun f => f.2.bytes) := by
  rw [HrperfLogEntry.toBytes, structBytes_packed]
  simp [HrperfTick.toBytes_eq, HrperfTick.members, HrperfLogEntry.named,
    HrperfLogEntry.baseNamed, Field.named, NpValue.bytes, List.flatMap_append, List.flatMap_map]

theorem Field.named_types {present : Bool} (name : String) (f : Field present) :
    (f.named name).map (fun f => (f.1, f.2.type)) =
      if present then [(name, NpType.uint64)] else [] := by
  obtain ⟨v, rfl⟩ := f
  cases v <;> simp [Field.named, NpValue.type]

/-- The dtype under the matching flags lists the fields of an entry. -/
theorem HrperfLogEntry.named_types (e : HrperfLogEntry flags) :
    e.named.map (fun f => (f.1, f.2.type)) =
      readLogsDtype flags.logImc flags.useRdt flags.rdtIncludeLocalBw := by
  obtain ⟨imc, rdt, loc⟩ := flags
  simp only [HrperfLogEntry.named, List.map_append, Field.named_types, readLogsDtype]
  cases imc <;> cases rdt <;> cases loc <;> rfl

theorem itemsize_readLogsDtype (flags : LogFlags) :
    (readLogsDtype flags.logImc flags.useRdt flags.rdtIncludeLocalBw).itemsize =
      sizeofLogEntry flags := by
  obtain ⟨imc, rdt, loc⟩ := flags
  cases imc <;> cases rdt <;> cases loc <;> rfl

theorem sizeofLogEntry_pos (flags : LogFlags) : 0 < sizeofLogEntry flags := by
  rw [sizeofLogEntry]
  omega

theorem HrperfLogEntry.length_toBytes (pad : UInt8) (e : HrperfLogEntry flags) :
    (e.toBytes pad).length = sizeofLogEntry flags := by
  rw [e.toBytes_eq, ← itemsize_readLogsDtype, ← e.named_types, Dtype.itemsize,
    List.length_flatMap, List.map_map]
  simp only [NpValue.length_bytes]
  rfl

theorem HrperfLogEntry.decodeItem_toBytes (pad : UInt8) (e : HrperfLogEntry flags) :
    decodeItem (readLogsDtype flags.logImc flags.useRdt flags.rdtIncludeLocalBw)
      (e.toBytes pad) = e.named := by
  rw [e.toBytes_eq, ← e.named_types]
  exact decodeItem_bytes e.named

/-- The whole items of a file of records are the entries, whatever part of a record follows. -/
theorem fromfile_toBytes (pad : UInt8) (entries : List (HrperfLogEntry flags))
    {rest : List UInt8} (hrest : rest.length < sizeofLogEntry flags) :
    fromfile (readLogsDtype flags.logImc flags.useRdt flags.rdtIncludeLocalBw)
      (entries.flatMap (HrperfLogEntry.toBytes pad) ++ rest) =
      entries.map HrperfLogEntry.named := by
  have hsplit := splitRecords_flatMap (sizeofLogEntry_pos flags)
    (HrperfLogEntry.length_toBytes pad) entries hrest
  rw [fromfile, itemsize_readLogsDtype, hsplit, List.map_map]
  apply List.map_congr_left
  intro e _
  exact e.decodeItem_toBytes pad

/-- Reading back the concatenation of any entries, with or without a partial record after
them, gives exactly these entries, field by field under the reader's names. -/
theorem readLogs_roundtrip (flags : LogFlags) (pad : UInt8)
    (entries : List (HrperfLogEntry flags)) (rest : List UInt8)
    (hrest : rest.length < sizeofLogEntry flags) :
    readLogsToNumpy flags.logImc flags.useRdt flags.rdtIncludeLocalBw
      (entries.flatMap (HrperfLogEntry.toBytes pad) ++ rest) =
      entries.map HrperfLogEntry.named := by
  rw [readLogsToNumpy]
  exact fromfile_toBytes pad entries hrest

/-- An entry of CPU `-1` with every optional member, all bits of one field set. -/
def sampleEntry : HrperfLogEntry ⟨true, true, true⟩ where
  cpuId := -1
  tick := {
    kts := 0x0123456789abcdef
    stallMem := 2
    instRetire := 3
    stallsSb := 4
    cpuUnhalt := -1
    llcMisses := 6
    swPrefetch := 7
    imcReads := .of _ 8
    imcWrites := .of _ 9
    totalBw := .of _ 10
    localBw := .of _ 11
    occupancy := .of _ 12 }

theorem readLogs_roundtrip_sample :
    ([7, 7, 7] : List UInt8).length < sizeofLogEntry ⟨true, true, true⟩ ∧
    readLogsToNumpy true true true
      ([sampleEntry, sampleEntry].flatMap (HrperfLogEntry.toBytes 0) ++ [7, 7, 7]) =
      [sampleEntry.named, sampleEntry.named] :=
  ⟨by decide, readLogs_roundtrip ⟨true, true, true⟩ 0 [sampleEntry, sampleEntry] [7, 7, 7]
    (by decide)⟩

end LogEntry
