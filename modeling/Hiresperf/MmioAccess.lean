import Hiresperf.DiscoveryTable
import Mathlib.Order.Interval.Set.Basic

/-!
# Access to mapped memory

`mmio.h` and `mmio.c` as lists of calls of the kernel. What the kernel and the device
answer depends on the calls so far, so that a word may change between two reads. The
pointer that `ioremap` gives stands for the physical address that was mapped, and an
access is recorded with its physical address.
-/

namespace MmioAccess

open DiscoveryTable

/-! ## The kernel -/

/-- What `ioremap` returns. Mappings are numbered. -/
inductive IoPointer where
  | null
  | err (code : BitVec 64)
  | mapped (mapping : Nat)
  deriving DecidableEq

/-- `PTR_ERR` of a pointer that is null or an error. -/
def IoPointer.ptrErr : IoPointer → BitVec 64
  | .err code => code
  | _ => 0

/-- What is allocated with `kmalloc`. -/
inductive Object where
  | mmioRange
  | mmioReg32
  | mmioReg64
  deriving DecidableEq

/-- The calls; an allocation or a mapping that fails leaves no event. -/
inductive Event where
  | kmalloc (object : Object)
  | kfree (object : Object)
  | ioremap (mapping : Nat) (baseAddr size : BitVec 64)
  | iounmap (pointer : IoPointer)
  | ioread32 (addr : BitVec 64)
  | ioread64LoHi (addr : BitVec 64)
  | iowrite32 (val : BitVec 32) (addr : BitVec 64)
  | iowrite64LoHi (val : BitVec 64) (addr : BitVec 64)
  | prErr (format : String) (args : List (BitVec 64))
  | warnOn
  deriving DecidableEq

/-- What the kernel and the device answer. -/
structure Kernel where
  kmalloc : List Event → Bool
  ioremap : List Event → BitVec 64 → BitVec 64 → IoPointer
  ioread32 : List Event → BitVec 64 → BitVec 32
  ioread64LoHi : List Event → BitVec 64 → BitVec 64

/-- The bytes of physical memory that a call reads or writes. -/
def touched : Event → Set Nat
  | .ioread32 addr => Set.Ico addr.toNat (addr.toNat + 4)
  | .ioread64LoHi addr => Set.Ico addr.toNat (addr.toNat + 8)
  | .iowrite32 _ addr => Set.Ico addr.toNat (addr.toNat + 4)
  | .iowrite64LoHi _ addr => Set.Ico addr.toNat (addr.toNat + 8)
  | _ => ∅

/-! ## Ranges -/

/-- `begins` is the physical address that `mmap_addr` stands for. -/
structure MmioRange where
  mmapAddr : IoPointer
  begins : BitVec 64
  size : BitVec 64
  silent : Bool
  core : Int
  deriving DecidableEq

variable (k : Kernel)

def mmioRangeCreate (h : List Event) (baseAddr size : BitVec 64) (silent : Bool) (core : Int) :
    Option MmioRange × List Event :=
  if k.kmalloc h then
    let h := h ++ [.kmalloc .mmioRange]
    match k.ioremap h baseAddr size with
    | .mapped mapping =>
      (some ⟨.mapped mapping, baseAddr, size, silent, core⟩,
        h ++ [.ioremap mapping baseAddr size])
    | pointer =>
      let h := h ++ [.prErr "kimc: ioremap failed. Error code: %ld\n" [pointer.ptrErr]]
      -- an error is not null, so that it is unmapped
      (none, (if pointer = .null then h else h ++ [.iounmap pointer]) ++ [.kfree .mmioRange])
  else (none, h)

def mmioRangeDestroy (h : List Event) : Option MmioRange → List Event
  | none => h
  | some range =>
    (if range.mmapAddr = .null then h else h ++ [.iounmap range.mmapAddr]) ++ [.kfree .mmioRange]

/-! ## Single accesses -/

/-- A read of `bytes` bytes; 0 if it ends outside the range. -/
def mmioRead {w : Nat} (io : List Event → BitVec 64 → BitVec w) (call : BitVec 64 → Event)
    (bytes : BitVec 64) (format : String) (h : List Event) (range : MmioRange)
    (offset : BitVec 64) : BitVec w × List Event :=
  if range.size < offset + bytes then (0, h ++ [.prErr format [offset]])
  else (io h (range.begins + offset), h ++ [call (range.begins + offset)])

def read32OutOfBounds : String := "kimc: MMIO read32 out of bounds at offset %llu\n"

def mmioRead32 : List Event → MmioRange → BitVec 64 → BitVec 32 × List Event :=
  mmioRead k.ioread32 .ioread32 4 read32OutOfBounds

def mmioRead64 : List Event → MmioRange → BitVec 64 → BitVec 64 × List Event :=
  mmioRead k.ioread64LoHi .ioread64LoHi 8 "kimc: MMIO read64 out of bounds at offset %llu\n"

/-- A write of `bytes` bytes; nothing is written if it ends outside the range. -/
def mmioWrite (call : BitVec 64 → Event) (bytes : BitVec 64) (format : String) (h : List Event)
    (range : MmioRange) (offset : BitVec 64) : List Event :=
  if range.size < offset + bytes then h ++ [.prErr format [offset]]
  else h ++ [call (range.begins + offset)]

def mmioWrite32 (h : List Event) (range : MmioRange) (offset : BitVec 64) (val : BitVec 32) :
    List Event :=
  mmioWrite (.iowrite32 val) 4 "kimc: MMIO write32 out of bounds at offset %llu\n" h range offset

def mmioWrite64 (h : List Event) (range : MmioRange) (offset : BitVec 64) (val : BitVec 64) :
    List Event :=
  mmioWrite (.iowrite64LoHi val) 8 "kimc: MMIO write64 out of bounds at offset %llu\n" h range
    offset

/-! ## Block copies -/

def eio : Int := 5
def enomem : Int := 12
def einval : Int := 22

/-- The value that `mmio_memcpy` returns, the words of its destination and the calls. -/
structure Copied where
  code : Int
  dest : Nat → BitVec 32
  events : List Event

/-- The loop of `mmio_memcpy` and its end, over the words that are left. -/
def copyLoop (range : MmioRange) (src mapBegin : BitVec 64) (checkFailures silent : Bool) :
    List Event → (Nat → BitVec 32) → List Nat → Copied
  | h, dest, [] => ⟨0, dest, mmioRangeDestroy h (some range)⟩
  | h, dest, i :: rest =>
    let (value, h) := mmioRead32 k h range (src - mapBegin + BitVec.ofNat 64 (4 * i))
    if checkFailures && value == u32Max then
      let h := if silent then h else
        h ++ [.prErr "kimc: Failed to read memory at 0x%llx\n" [src + BitVec.ofNat 64 (4 * i)]]
      ⟨-eio, dest, mmioRangeDestroy h (some range)⟩
    else copyLoop range src mapBegin checkFailures silent h (Function.update dest i value) rest

def mapSize (src n : BitVec 64) : BitVec 64 := pageAlign (src + n) - (src &&& pageMask)

def mmioMemcpy (h : List Event) (dest : Nat → BitVec 32) (src n : BitVec 64)
    (checkFailures silent : Bool) : Copied :=
  if src &&& 3 ≠ 0 ∨ n &&& 3 ≠ 0 then ⟨-einval, dest, h ++ [.warnOn]⟩
  else
    let mapBegin := src &&& pageMask
    match mmioRangeCreate k h mapBegin (mapSize src n) silent (-1) with
    | (none, h) =>
      ⟨-enomem, dest, if silent then h else
        h ++ [.prErr "kimc: mmio_memcpy failed to create range for addr 0x%llx size 0x%llx\n"
          [mapBegin, mapSize src n]]⟩
    | (some range, h) =>
      copyLoop k range src mapBegin checkFailures silent h dest (List.range (n.toNat / 4))

/-! ## Ranges that are mapped -/

variable {k} {h : List Event} {baseAddr size : BitVec 64} {silent : Bool} {core : Int}
  {mapping : Nat}

/-- The kernel gives the memory and the mapping of a range. -/
def Maps (k : Kernel) (h : List Event) (baseAddr size : BitVec 64) (mapping : Nat) : Prop :=
  k.kmalloc h = true ∧ k.ioremap (h ++ [.kmalloc .mmioRange]) baseAddr size = .mapped mapping

/-- The calls of `mmio_range_create` if it succeeds. -/
def createEvents (mapping : Nat) (baseAddr size : BitVec 64) : List Event :=
  [.kmalloc .mmioRange, .ioremap mapping baseAddr size]

/-- The calls of `mmio_range_destroy` for a range that is mapped. -/
def destroyEvents (mapping : Nat) : List Event :=
  [.iounmap (.mapped mapping), .kfree .mmioRange]

theorem mmioRangeCreate_eq_some {range : MmioRange} {h' : List Event} :
    mmioRangeCreate k h baseAddr size silent core = (some range, h') ↔
      ∃ mapping, Maps k h baseAddr size mapping ∧
        range = ⟨.mapped mapping, baseAddr, size, silent, core⟩ ∧
        h' = h ++ createEvents mapping baseAddr size := by
  constructor
  · intro hcreate
    rw [mmioRangeCreate] at hcreate
    cases hmalloc : k.kmalloc h with
    | false => simp [hmalloc] at hcreate
    | true =>
      cases hmap : k.ioremap (h ++ [.kmalloc .mmioRange]) baseAddr size with
      | null => simp [hmalloc, hmap] at hcreate
      | err code => simp [hmalloc, hmap] at hcreate
      | mapped mapping =>
        simp only [hmalloc, hmap, if_true, Prod.mk.injEq, Option.some.injEq] at hcreate
        refine ⟨mapping, ⟨hmalloc, hmap⟩, hcreate.1.symm, ?_⟩
        rw [← hcreate.2, List.append_assoc]
        rfl
  · rintro ⟨mapping, ⟨hmalloc, hmap⟩, rfl, rfl⟩
    simp [mmioRangeCreate, hmalloc, hmap, createEvents]

theorem mmioRangeDestroy_mapped :
    mmioRangeDestroy h (some ⟨.mapped mapping, baseAddr, size, silent, core⟩) =
      h ++ destroyEvents mapping := by
  simp [mmioRangeDestroy, destroyEvents]

section Access

variable {w : Nat} {io : List Event → BitVec 64 → BitVec w} {call : BitVec 64 → Event}
  {bytes offset : BitVec 64} {format : String} {range : MmioRange}

theorem mmioRead_inside (hin : offset + bytes ≤ range.size) :
    mmioRead io call bytes format h range offset =
      (io h (range.begins + offset), h ++ [call (range.begins + offset)]) :=
  if_neg (BitVec.not_lt.mpr hin)

theorem mmioRead_outside (hout : range.size < offset + bytes) :
    mmioRead io call bytes format h range offset = (0, h ++ [.prErr format [offset]]) :=
  if_pos hout

theorem mmioWrite_inside (hin : offset + bytes ≤ range.size) :
    mmioWrite call bytes format h range offset = h ++ [call (range.begins + offset)] :=
  if_neg (BitVec.not_lt.mpr hin)

theorem mmioWrite_outside (hout : range.size < offset + bytes) :
    mmioWrite call bytes format h range offset = h ++ [.prErr format [offset]] :=
  if_pos hout

end Access

/-! ## The words of a copy -/

section Copy

variable {src n : BitVec 64}
  (hend : (src.toNat + n.toNat + 4095) / 4096 * 4096 ≤ 2 ^ 64 - 1)

theorem offset_toNat (src : BitVec 64) : (src - (src &&& pageMask)).toNat = src.toNat % 4096 := by
  have hbegin := and_pageMask_toNat src
  have hlt := src.isLt
  rw [BitVec.toNat_sub, hbegin]
  omega

include hend in
/-- The mapping ends with the page of the last byte. -/
theorem mapSize_toNat : (mapSize src n).toNat =
    (src.toNat + n.toNat + 4095) / 4096 * 4096 - (src.toNat - src.toNat % 4096) := by
  have hbegin := and_pageMask_toNat src
  have hstop : (pageAlign (src + n)).toNat = (src.toNat + n.toNat + 4095) / 4096 * 4096 := by
    have hmask := and_pageMask_toNat (src + n + 4095)
    rw [pageAlign, hmask, BitVec.toNat_add, BitVec.toNat_add]
    change ((src.toNat + n.toNat) % 2 ^ 64 + 4095) % 2 ^ 64 -
      ((src.toNat + n.toNat) % 2 ^ 64 + 4095) % 2 ^ 64 % 4096 = _
    omega
  have hlt := src.isLt
  rw [mapSize, BitVec.toNat_sub, hbegin, hstop]
  omega

include hend in
theorem word_inside {i : Nat} (hi : 4 * i + 4 ≤ n.toNat) :
    src - (src &&& pageMask) + BitVec.ofNat 64 (4 * i) + 4 ≤ mapSize src n := by
  rw [BitVec.le_def, mapSize_toNat hend, BitVec.toNat_add, BitVec.toNat_add, offset_toNat,
    BitVec.toNat_ofNat]
  change ((_ + 4 * i % 2 ^ 64) % 2 ^ 64 + 4) % 2 ^ 64 ≤ _
  omega

include hend in
theorem wordAddr_toNat {i : Nat} (hi : 4 * i + 4 ≤ n.toNat) :
    (wordAddr src i).toNat = src.toNat + 4 * i := by
  rw [wordAddr, BitVec.toNat_add, BitVec.toNat_ofNat]
  omega

theorem begins_add_offset (src : BitVec 64) (i : Nat) :
    (src &&& pageMask) + (src - (src &&& pageMask) + BitVec.ofNat 64 (4 * i)) = wordAddr src i := by
  rw [wordAddr, ← BitVec.add_assoc, BitVec.add_comm (src &&& pageMask), BitVec.sub_add_cancel]

/-- The range that `mmio_memcpy` creates. -/
def copyRange (src n : BitVec 64) (silent : Bool) (mapping : Nat) : MmioRange :=
  ⟨.mapped mapping, src &&& pageMask, mapSize src n, silent, -1⟩

include hend in
/-- No word falls outside the mapping. -/
theorem mmioRead32_word {i : Nat} (hi : 4 * i + 4 ≤ n.toNat) (h : List Event) :
    mmioRead32 k h (copyRange src n silent mapping)
        (src - (src &&& pageMask) + BitVec.ofNat 64 (4 * i)) =
      (k.ioread32 h (wordAddr src i), h ++ [.ioread32 (wordAddr src i)]) := by
  have hin : src - (src &&& pageMask) + BitVec.ofNat 64 (4 * i) + 4 ≤
      (copyRange src n silent mapping).size := word_inside hend hi
  rw [mmioRead32, mmioRead_inside hin]
  simp only [copyRange, begins_add_offset]

/-! ## The loop -/

/-- The reads of the first `count` words. -/
def reads (src : BitVec 64) (count : Nat) : List Event :=
  (List.range count).map fun i => .ioread32 (wordAddr src i)

/-- What the device answers at word `i`, after the calls `h` and the words before. -/
def wordRead (k : Kernel) (h : List Event) (src : BitVec 64) (i : Nat) : BitVec 32 :=
  k.ioread32 (h ++ reads src i) (wordAddr src i)

theorem reads_succ (src : BitVec 64) (count : Nat) :
    reads src (count + 1) = reads src count ++ [.ioread32 (wordAddr src count)] := by
  rw [reads, List.range_succ, List.map_append]
  rfl

/-- The message about a word that could not be read. -/
def failureEvents (silent : Bool) (src : BitVec 64) (i : Nat) : List Event :=
  if silent then [] else
    [.prErr "kimc: Failed to read memory at 0x%llx\n" [src + BitVec.ofNat 64 (4 * i)]]

include hend in
/-- A turn of the loop. -/
theorem copyLoop_cons {i : Nat} (hi : 4 * i + 4 ≤ n.toNat) (h : List Event) (dest : Nat → BitVec 32)
    (rest : List Nat) :
    copyLoop k (copyRange src n silent mapping) src (src &&& pageMask) true silent
        (h ++ reads src i) dest (i :: rest) =
      if wordRead k h src i = u32Max then
        ⟨-eio, dest, h ++ reads src (i + 1) ++ failureEvents silent src i ++ destroyEvents mapping⟩
      else
        copyLoop k (copyRange src n silent mapping) src (src &&& pageMask) true silent
          (h ++ reads src (i + 1)) (Function.update dest i (wordRead k h src i)) rest := by
  have hnext : h ++ reads src i ++ [.ioread32 (wordAddr src i)] = h ++ reads src (i + 1) := by
    rw [reads_succ, List.append_assoc]
  have hvalue : k.ioread32 (h ++ reads src i) (wordAddr src i) = wordRead k h src i := rfl
  rw [copyLoop, mmioRead32_word hend hi]
  simp only [hnext, hvalue, Bool.true_and, beq_iff_eq]
  by_cases hfail : wordRead k h src i = u32Max
  · rw [if_pos hfail, if_pos hfail, copyRange, mmioRangeDestroy_mapped, failureEvents]
    cases silent <;> simp
  · rw [if_neg hfail, if_neg hfail]

/-- What a copy ends with: all words, or the first word that could not be read. -/
inductive Ends (k : Kernel) (h : List Event) (src : BitVec 64) (silent : Bool) (mapping : Nat)
    (dest : Nat → BitVec 32) (i stop : Nat) (copy : Copied) : Prop where
  | all (readable : ∀ j, i ≤ j → j < stop → wordRead k h src j ≠ u32Max) (code : copy.code = 0)
      (words : ∀ j, copy.dest j = if i ≤ j ∧ j < stop then wordRead k h src j else dest j)
      (events : copy.events = h ++ reads src stop ++ destroyEvents mapping)
  | failed (j : Nat) (first : i ≤ j) (last : j < stop) (unreadable : wordRead k h src j = u32Max)
      (code : copy.code = -eio)
      (events : copy.events =
        h ++ reads src (j + 1) ++ failureEvents silent src j ++ destroyEvents mapping)

include hend in
theorem copyLoop_ends (h : List Event) (dest : Nat → BitVec 32) {i m : Nat}
    (hle : 4 * (i + m) ≤ n.toNat) :
    Ends k h src silent mapping dest i (i + m)
      (copyLoop k (copyRange src n silent mapping) src (src &&& pageMask) true silent
        (h ++ reads src i) dest (List.range' i m)) := by
  induction m generalizing i dest with
  | zero =>
    refine .all (fun j hj hlt => absurd hlt (by omega)) rfl (fun j => ?_) ?_
    · rw [if_neg (by omega)]
      rfl
    · rw [List.range'_zero, copyLoop, copyRange, mmioRangeDestroy_mapped, Nat.add_zero]
  | succ m ih =>
    rw [List.range'_succ, copyLoop_cons hend (by omega)]
    by_cases hfail : wordRead k h src i = u32Max
    · rw [if_pos hfail]
      exact .failed i (Nat.le_refl i) (by omega) hfail rfl rfl
    · rw [if_neg hfail]
      have hstop : i + 1 + m = i + (m + 1) := by omega
      have hrest := ih (Function.update dest i (wordRead k h src i)) (i := i + 1) (by omega)
      rw [hstop] at hrest
      cases hrest with
      | all readable code words events =>
        refine .all (fun j hj hlt => ?_) code (fun j => ?_) events
        · by_cases hji : j = i
          · rw [hji]
            exact hfail
          · exact readable j (by omega) hlt
        · rw [words]
          by_cases hji : j = i
          · subst hji
            rw [if_neg (by omega), if_pos (by omega), Function.update_self]
          · rw [Function.update_of_ne hji]
            have hsame : (i + 1 ≤ j ∧ j < i + (m + 1)) ↔ (i ≤ j ∧ j < i + (m + 1)) := by omega
            rw [if_congr hsame rfl rfl]
      | failed j first last unreadable code events =>
        exact .failed j (by omega) last unreadable code events

/-! ## The copy -/

/-- The calls before the first word is read. -/
def begun (h : List Event) (src n : BitVec 64) (mapping : Nat) : List Event :=
  h ++ createEvents mapping (src &&& pageMask) (mapSize src n)

variable (hsrc : src.toNat % 4 = 0) (hn : n.toNat % 4 = 0)
  (hmap : Maps k h (src &&& pageMask) (mapSize src n) mapping)
include hend hsrc hn hmap

theorem mmioMemcpy_ends (dest : Nat → BitVec 32) :
    Ends k (begun h src n mapping) src silent mapping dest 0 (n.toNat / 4)
      (mmioMemcpy k h dest src n true silent) := by
  have hcreate : mmioRangeCreate k h (src &&& pageMask) (mapSize src n) silent (-1) =
      (some (copyRange src n silent mapping), begun h src n mapping) :=
    mmioRangeCreate_eq_some.mpr ⟨mapping, hmap, rfl, rfl⟩
  have haligned : ¬ (src &&& 3 ≠ 0 ∨ n &&& 3 ≠ 0) := by
    rintro (hodd | hodd)
    · exact hodd ((aligned_iff src).mpr hsrc)
    · exact hodd ((aligned_iff n).mpr hn)
  have hloop : Ends k (begun h src n mapping) src silent mapping dest 0 (0 + n.toNat / 4)
      (copyLoop k (copyRange src n silent mapping) src (src &&& pageMask) true silent
        (begun h src n mapping ++ reads src 0) dest (List.range' 0 (n.toNat / 4))) :=
    copyLoop_ends hend _ dest (by omega)
  rw [Nat.zero_add, ← List.range_eq_range', reads, List.range_zero, List.map_nil,
    List.append_nil] at hloop
  rw [mmioMemcpy, if_neg haligned]
  simp only [hcreate]
  exact hloop

omit hsrc hn hmap in
theorem reads_touched {count : Nat} (hcount : 4 * count ≤ n.toNat) {e : Event}
    (he : e ∈ reads src count) : touched e ⊆ Set.Ico src.toNat (src.toNat + n.toNat) ∧
      (∀ args, e ≠ .prErr read32OutOfBounds args) ∧ ∀ pointer, e ≠ .iounmap pointer := by
  obtain ⟨i, hi, rfl⟩ := List.mem_map.mp he
  have hlt := List.mem_range.mp hi
  refine ⟨?_, by simp, by simp⟩
  rw [touched, wordAddr_toNat hend (by omega)]
  exact Set.Ico_subset_Ico (by omega) (by omega)

omit hend hsrc hn hmap in
theorem failureEvents_touched {i : Nat} {e : Event} (he : e ∈ failureEvents silent src i) :
    touched e = ∅ ∧ (∀ args, e ≠ .prErr read32OutOfBounds args) ∧
      ∀ pointer, e ≠ .iounmap pointer := by
  rw [failureEvents] at he
  split_ifs at he
  · exact absurd he List.not_mem_nil
  · rw [List.mem_singleton.mp he]
    exact ⟨rfl, by simp [read32OutOfBounds], by simp⟩

omit hend hsrc hn hmap in
theorem Ends.code_iff {dest : Nat → BitVec 32} {stop : Nat} {copy : Copied}
    (hends : Ends k h src silent mapping dest 0 stop copy) :
    copy.code = 0 ↔ ∀ i < stop, wordRead k h src i ≠ u32Max := by
  cases hends with
  | all readable code words events =>
    exact iff_of_true code fun i hi => readable i (Nat.zero_le i) hi
  | failed j first last unreadable code events =>
    refine iff_of_false ?_ fun hall => hall j last unreadable
    rw [code]
    decide

omit hend hsrc hn hmap in
theorem Ends.dest_eq {dest : Nat → BitVec 32} {stop : Nat} {copy : Copied}
    (hends : Ends k h src silent mapping dest 0 stop copy) (hzero : copy.code = 0) (i : Nat) :
    copy.dest i = if i < stop then wordRead k h src i else dest i := by
  cases hends with
  | all readable code words events =>
    rw [words, if_congr (and_iff_right (Nat.zero_le i)) rfl rfl]
  | failed j first last unreadable code events =>
    rw [code] at hzero
    exact absurd hzero (by decide)

/-- For a memory that does not change this is the copy that the discovery uses. -/
theorem mmioMemcpy_eq_discovery {mem : Memory} (hmem : ∀ h addr, k.ioread32 h addr = mem addr)
    (dest : Nat → BitVec 32) :
    DiscoveryTable.mmioMemcpy mem src n.toNat true =
      if (mmioMemcpy k h dest src n true silent).code = 0 then
        some ((List.range (n.toNat / 4)).map (mmioMemcpy k h dest src n true silent).dest)
      else none := by
  have hends : Ends k (begun h src n mapping) src silent mapping dest 0 (n.toNat / 4)
      (mmioMemcpy k h dest src n true silent) := mmioMemcpy_ends hend hsrc hn hmap dest
  have hcode := hends.code_iff
  have hdest := hends.dest_eq
  have hword : ∀ i, wordRead k (begun h src n mapping) src i = mem (wordAddr src i) :=
    fun i => hmem _ _
  have hcopy : DiscoveryTable.mmioMemcpy mem src n.toNat true =
      copyWords (fun i => mem (wordAddr src i)) true (List.range (n.toNat / 4)) := by
    rw [DiscoveryTable.mmioMemcpy, if_neg, BitVec.ofNat_toNat, BitVec.setWidth_eq]
    · refine copyWords_congr fun i hi => ?_
      have hlt := List.mem_range.mp hi
      have hin : src - (src &&& pageMask) + BitVec.ofNat 64 (4 * i) + 4 ≤ mapSize src n :=
        word_inside hend (by omega)
      rw [← begins_add_offset]
      exact if_neg (Nat.not_lt.mpr (BitVec.le_def.mp hin))
    · rintro (hodd | hodd)
      · exact hodd ((aligned_iff src).mpr hsrc)
      · exact hodd hn
  rw [hcopy, copyWords_eq]
  simp only [hword] at hcode hdest
  by_cases hall : ∀ i < n.toNat / 4, mem (wordAddr src i) ≠ u32Max
  · have hzero := hcode.mpr hall
    rw [if_pos fun i hi => hall i (List.mem_range.mp hi), if_pos hzero]
    refine congrArg some (List.map_congr_left fun i hi => ?_)
    rw [hdest hzero, if_pos (List.mem_range.mp hi)]
  · rw [if_neg fun hread => hall fun i hi => hread i (List.mem_range.mpr hi),
      if_neg fun hzero => hall (hcode.mp hzero)]

end Copy

/-- The copy succeeds if every word can be read, and then the destination has the words. It
reads nothing else, and no word through the branch for reads out of bounds; the mapping is
there for all the reads, and is unmapped once, after them. -/
theorem mmioMemcpy_spec (k : Kernel) (h : List Event) (dest : Nat → BitVec 32) (src n : BitVec 64)
    (silent : Bool) (mapping : Nat) (hsrc : src.toNat % 4 = 0) (hn : n.toNat % 4 = 0)
    (hend : (src.toNat + n.toNat + 4095) / 4096 * 4096 ≤ 2 ^ 64 - 1)
    (hmap : Maps k h (src &&& pageMask) (mapSize src n) mapping) :
    ((mmioMemcpy k h dest src n true silent).code = 0 ↔
      ∀ i < n.toNat / 4, wordRead k (begun h src n mapping) src i ≠ u32Max) ∧
    ((mmioMemcpy k h dest src n true silent).code = 0 →
      ∀ i, (mmioMemcpy k h dest src n true silent).dest i =
        if i < n.toNat / 4 then wordRead k (begun h src n mapping) src i else dest i) ∧
    ∃ calls, (mmioMemcpy k h dest src n true silent).events =
        begun h src n mapping ++ calls ++ destroyEvents mapping ∧
      ∀ e ∈ calls, touched e ⊆ Set.Ico src.toNat (src.toNat + n.toNat) ∧
        (∀ args, e ≠ .prErr read32OutOfBounds args) ∧ ∀ pointer, e ≠ .iounmap pointer := by
  have hends : Ends k (begun h src n mapping) src silent mapping dest 0 (n.toNat / 4)
      (mmioMemcpy k h dest src n true silent) := mmioMemcpy_ends hend hsrc hn hmap dest
  refine ⟨hends.code_iff, hends.dest_eq, ?_⟩
  cases hends with
  | all readable code words events =>
    exact ⟨reads src (n.toNat / 4), events, fun e he => reads_touched hend (by omega) he⟩
  | failed j first last unreadable code events =>
    refine ⟨reads src (j + 1) ++ failureEvents silent src j, ?_, fun e he => ?_⟩
    · rw [events, List.append_assoc (begun h src n mapping)]
    · rcases List.mem_append.mp he with he | he
      · exact reads_touched hend (by omega) he
      · obtain ⟨htouched, hrest⟩ := failureEvents_touched he
        exact ⟨by rw [htouched]; exact Set.empty_subset _, hrest⟩

/-- A device whose words hold their addresses. -/
def addressKernel : Kernel where
  kmalloc _ := true
  ioremap _ _ _ := .mapped 1
  ioread32 _ addr := addr.setWidth 32
  ioread64LoHi _ addr := addr

/-- Four words across the end of a page. -/
theorem mmioMemcpy_spec_crossing :
    (mmioMemcpy addressKernel [] (fun _ => 0) 0x10FF8 16 true false).code = 0 ∧
      (mmioMemcpy addressKernel [] (fun _ => 0) 0x10FF8 16 true false).dest 2 = 0x11000 := by
  have hmap : Maps addressKernel [] (0x10FF8 &&& pageMask) (mapSize 0x10FF8 16) 1 := ⟨rfl, rfl⟩
  have hspec := mmioMemcpy_spec addressKernel [] (fun _ => 0) 0x10FF8 16 false 1 (by decide)
    (by decide) (by decide) hmap
  have hcode := hspec.1.mpr (by decide)
  exact ⟨hcode, hspec.2.1 hcode 2⟩

end MmioAccess
