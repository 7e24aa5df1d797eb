import Hiresperf.ImcRegisters
import Hiresperf.MmioAccess
import Mathlib.Order.Interval.Set.LinearOrder

/-!
# Registers in mapped memory

`make_register` maps the page of an address, and the register that it returns is read,
written and destroyed through a table of operations, one for each width. The access
checks the end of the register against the size of the mapping, so that a register
across the end of its page is neither read nor written.
-/

namespace HwRegisters

open DiscoveryTable (pageMask and_pageMask_toNat)
open ImcRegisters (bytesOf lands serverMcChPmonSize)
open MmioAccess

/-! ## The code -/

/-- The fields of `mmio_reg32_t`, and of `mmio_reg64_t`, after the `hw_reg_t`. The handle is
never null: `make_register` returns before that. -/
structure MmioReg where
  handle : MmioRange
  offset : BitVec 64

/-- The functions get the register that `self` is cast to. -/
structure HwRegOps where
  write : Option (List Event → MmioReg → BitVec 64 → List Event)
  read : Option (List Event → MmioReg → BitVec 64 × List Event)
  destroy : Option (List Event → MmioReg → List Event)

structure HwReg where
  magic : Option String
  ops : Option HwRegOps
  reg : MmioReg

def hwRegMagic : String := "DEADBEEF"

variable (k : Kernel)

def mmioReg32Read (h : List Event) (reg : MmioReg) : BitVec 64 × List Event :=
  let (value, h) := mmioRead32 k h reg.handle reg.offset
  (value.setWidth 64, h)

def mmioReg32Write (h : List Event) (reg : MmioReg) (val : BitVec 64) : List Event :=
  mmioWrite32 h reg.handle reg.offset (val.setWidth 32)

def mmioReg64Read (h : List Event) (reg : MmioReg) : BitVec 64 × List Event :=
  mmioRead64 k h reg.handle reg.offset

def mmioReg64Write (h : List Event) (reg : MmioReg) (val : BitVec 64) : List Event :=
  mmioWrite64 h reg.handle reg.offset val

/-- The destructor of a register that was allocated as `object`. -/
def mmioRegDestroy (object : Object) (h : List Event) (reg : MmioReg) : List Event :=
  mmioRangeDestroy h (some reg.handle) ++ [.kfree object]

def mmioReg32Destroy : List Event → MmioReg → List Event := mmioRegDestroy .mmioReg32

def mmioReg64Destroy : List Event → MmioReg → List Event := mmioRegDestroy .mmioReg64

def vtMmioReg32Ops : HwRegOps where
  write := some mmioReg32Write
  read := some (mmioReg32Read k)
  destroy := some mmioReg32Destroy

def vtMmioReg64Ops : HwRegOps where
  write := some mmioReg64Write
  read := some (mmioReg64Read k)
  destroy := some mmioReg64Destroy

def mmioRegCreate (object : Object) (ops : HwRegOps) (format : String) (h : List Event)
    (handle : MmioRange) (offset : BitVec 64) : Option HwReg × List Event :=
  if k.kmalloc h then (some ⟨some hwRegMagic, some ops, ⟨handle, offset⟩⟩, h ++ [.kmalloc object])
  else (none, h ++ [.prErr format []])

def mmioReg32Create : List Event → MmioRange → BitVec 64 → Option HwReg × List Event :=
  mmioRegCreate k .mmioReg32 (vtMmioReg32Ops k)
    "kimc: Failed to allocate memory for mmio_reg32_t\n"

def mmioReg64Create : List Event → MmioRange → BitVec 64 → Option HwReg × List Event :=
  mmioRegCreate k .mmioReg64 (vtMmioReg64Ops k)
    "kimc: Failed to allocate memory for mmio_reg64_t\n"

def hwRegWrite (h : List Event) (self : Option HwReg) (val : BitVec 64) : List Event :=
  match self with
  | some ⟨_, some ⟨some write, _, _⟩, reg⟩ => write h reg val
  | _ => h ++ [.prErr "kimc: hw_reg_write called with NULL or invalid ops\n" []]

def hwRegRead (h : List Event) (self : Option HwReg) : BitVec 64 × List Event :=
  match self with
  | some ⟨_, some ⟨_, some read, _⟩, reg⟩ => read h reg
  | _ => (0, h ++ [.prErr "kimc: hw_reg_read called with NULL or invalid ops\n" []])

def hwRegIsValid : Option HwReg → Bool
  | some ⟨some magic, _, _⟩ => magic == hwRegMagic
  | _ => false

def hwRegDestroy (h : List Event) (self : Option HwReg) : List Event :=
  if hwRegIsValid self then
    match self with
    | some ⟨_, some ⟨_, _, some destroy⟩, reg⟩ => destroy h reg
    | _ => h ++ [.prErr "kimc: hw_reg_destroy called with NULL or invalid ops\n" []]
  else h

def makeRegister (h : List Event) (rawAddr : BitVec 64) (bits : Nat) :
    Option HwReg × List Event :=
  let mapSize := BitVec.ofNat 64 serverMcChPmonSize
  let alignedAddr := rawAddr &&& ~~~4095
  let alignDelta := rawAddr &&& 4095
  match mmioRangeCreate k h alignedAddr mapSize false (-1) with
  | (none, h) => (none, h ++ [.prErr "kimc: Failed to create MMIO range\n" []])
  | (some handle, h) =>
    if bits = 32 then mmioReg32Create k h handle alignDelta
    else if bits = 64 then mmioReg64Create k h handle alignDelta
    else
      let h := h ++ [.prErr "kimc: Unsupported register bit width: %u\n" [BitVec.ofNat 64 bits]]
      (none, mmioRangeDestroy h (some handle))

/-- What is done with a register before it is destroyed. -/
inductive Operation where
  | read
  | write (val : BitVec 64)

def operate (self : HwReg) (h : List Event) : Operation → List Event
  | .read => (hwRegRead h (some self)).2
  | .write val => hwRegWrite h (some self) val

/-! ## The register that is made -/

/-- The page that is mapped for an address. -/
def pageRange (a : BitVec 64) (mapping : Nat) : MmioRange :=
  ⟨.mapped mapping, a &&& pageMask, BitVec.ofNat 64 serverMcChPmonSize, false, -1⟩

/-- The operations of the register of a width, and what it is allocated as. -/
def opsOf (bits : Nat) : HwRegOps := if bits = 32 then vtMmioReg32Ops k else vtMmioReg64Ops k

def objectOf (bits : Nat) : Object := if bits = 32 then .mmioReg32 else .mmioReg64

def registerOf (a : BitVec 64) (bits mapping : Nat) : HwReg :=
  ⟨some hwRegMagic, some (opsOf k bits), ⟨pageRange a mapping, a &&& 4095⟩⟩

variable {k} {h h' : List Event} {a : BitVec 64} {bits mapping : Nat} {reg : HwReg}

theorem mmioRegCreate_eq_some {object : Object} {ops : HwRegOps} {format : String}
    {handle : MmioRange} {offset : BitVec 64}
    (hcreate : mmioRegCreate k object ops format h handle offset = (some reg, h')) :
    reg = ⟨some hwRegMagic, some ops, ⟨handle, offset⟩⟩ ∧ h' = h ++ [.kmalloc object] := by
  rw [mmioRegCreate] at hcreate
  split_ifs at hcreate
  · obtain ⟨hreg, rfl⟩ := Prod.mk.inj hcreate
    exact ⟨(Option.some.inj hreg).symm, rfl⟩
  · exact absurd (Prod.mk.inj hcreate).1.symm (Option.some_ne_none reg)

/-- The calls that make a register. -/
def makeEvents (a : BitVec 64) (bits mapping : Nat) : List Event :=
  createEvents mapping (a &&& pageMask) (BitVec.ofNat 64 serverMcChPmonSize) ++
    [.kmalloc (objectOf bits)]

theorem makeRegister_eq_some (hbits : bits = 32 ∨ bits = 64)
    (hmake : makeRegister k h a bits = (some reg, h')) :
    ∃ mapping, reg = registerOf k a bits mapping ∧ h' = h ++ makeEvents a bits mapping := by
  rw [makeRegister] at hmake
  cases hcreate : mmioRangeCreate k h (a &&& ~~~4095)
      (BitVec.ofNat 64 serverMcChPmonSize) false (-1) with
  | mk range events =>
    simp only [hcreate] at hmake
    cases range with
    | none => simp at hmake
    | some handle =>
      obtain ⟨mapping, -, rfl, rfl⟩ := mmioRangeCreate_eq_some.mp hcreate
      refine ⟨mapping, ?_⟩
      rw [makeEvents, ← List.append_assoc]
      rcases hbits with rfl | rfl
      · exact mmioRegCreate_eq_some hmake
      · exact mmioRegCreate_eq_some hmake

/-! ## The bytes of a register -/

theorem alignDelta_toNat (a : BitVec 64) : (a &&& 4095).toNat = a.toNat % 4096 := by
  rw [BitVec.toNat_and]
  exact Nat.and_two_pow_sub_one_eq_mod a.toNat 12

theorem aligned_add_delta (a : BitVec 64) : (a &&& pageMask) + (a &&& 4095) = a := by
  rw [← BitVec.toNat_inj, BitVec.toNat_add, and_pageMask_toNat, alignDelta_toNat]
  have hlt := a.isLt
  omega

section Access

variable {w : Nat} {io : List Event → BitVec 64 → BitVec w} {call : BitVec 64 → Event}
  {bytes : BitVec 64} {format : String} (hbytes : bytes.toNat ≤ 8)
include hbytes

/-- The test of the accesses: whether the register ends within its page. -/
theorem inside_iff : (a &&& 4095) + bytes ≤ (pageRange a mapping).size ↔
    a.toNat % 4096 + bytes.toNat ≤ serverMcChPmonSize := by
  have hsize : (pageRange a mapping).size.toNat = serverMcChPmonSize := rfl
  rw [BitVec.le_def, hsize, BitVec.toNat_add, alignDelta_toNat, Nat.mod_eq_of_lt (by omega)]

theorem mmioRead_page : mmioRead io call bytes format h (pageRange a mapping) (a &&& 4095) =
    if a.toNat % 4096 + bytes.toNat ≤ serverMcChPmonSize then (io h a, h ++ [call a])
    else (0, h ++ [.prErr format [a &&& 4095]]) := by
  have haddr : (pageRange a mapping).begins + (a &&& 4095) = a := aligned_add_delta a
  split_ifs with hin
  · rw [mmioRead_inside ((inside_iff hbytes).mpr hin), haddr]
  · exact mmioRead_outside (BitVec.not_le.mp (mt (inside_iff hbytes).mp hin))

theorem mmioWrite_page : mmioWrite call bytes format h (pageRange a mapping) (a &&& 4095) =
    if a.toNat % 4096 + bytes.toNat ≤ serverMcChPmonSize then h ++ [call a]
    else h ++ [.prErr format [a &&& 4095]] := by
  have haddr : (pageRange a mapping).begins + (a &&& 4095) = a := aligned_add_delta a
  split_ifs with hin
  · rw [mmioWrite_inside ((inside_iff hbytes).mpr hin), haddr]
  · exact mmioWrite_outside (BitVec.not_le.mp (mt (inside_iff hbytes).mp hin))

end Access

/-- What the device answers at a register. -/
def answer (k : Kernel) (bits : Nat) (h : List Event) (a : BitVec 64) : BitVec 64 :=
  if bits = 32 then (k.ioread32 h a).setWidth 64 else k.ioread64LoHi h a

def readCall (bits : Nat) (a : BitVec 64) : Event :=
  if bits = 32 then .ioread32 a else .ioread64LoHi a

def writeCall (bits : Nat) (val : BitVec 64) (a : BitVec 64) : Event :=
  if bits = 32 then .iowrite32 (val.setWidth 32) a else .iowrite64LoHi val a

/-- The register is read and written at the address, with no other byte. -/
structure Reaches (k : Kernel) (reg : HwReg) (a : BitVec 64) (bits : Nat) : Prop where
  read : ∀ h, hwRegRead h (some reg) = (answer k bits h a, h ++ [readCall bits a])
  write : ∀ h val, hwRegWrite h (some reg) val = h ++ [writeCall bits val a]
  readBytes : touched (readCall bits a) = bytesOf ⟨a, bits⟩
  writtenBytes : ∀ val, touched (writeCall bits val a) = bytesOf ⟨a, bits⟩

/-- A read gives 0, and neither a read nor a write does more than to leave a message. -/
structure Refuses (reg : HwReg) : Prop where
  read : ∀ h, ∃ format args, hwRegRead h (some reg) = (0, h ++ [.prErr format args])
  write : ∀ h val, ∃ format args, hwRegWrite h (some reg) val = h ++ [.prErr format args]

theorem bytesOf_mk (a : BitVec 64) (bits : Nat) :
    bytesOf ⟨a, bits⟩ = Set.Ico a.toNat (a.toNat + bits / 8) := rfl

theorem touched_readCall (hbits : bits = 32 ∨ bits = 64) :
    touched (readCall bits a) = bytesOf ⟨a, bits⟩ := by
  rw [bytesOf_mk]
  rcases hbits with rfl | rfl <;> rfl

theorem touched_writeCall (hbits : bits = 32 ∨ bits = 64) (val : BitVec 64) :
    touched (writeCall bits val a) = bytesOf ⟨a, bits⟩ := by
  rw [bytesOf_mk]
  rcases hbits with rfl | rfl
  · rw [writeCall, if_pos rfl]
    rfl
  · rw [writeCall, if_neg (by decide)]
    rfl

theorem mmioReg32Read_page :
    mmioReg32Read k h ⟨pageRange a mapping, a &&& 4095⟩ =
      if a.toNat % 4096 + 4 ≤ serverMcChPmonSize then
        ((k.ioread32 h a).setWidth 64, h ++ [.ioread32 a])
      else (0, h ++ [.prErr read32OutOfBounds [a &&& 4095]]) := by
  have hread : mmioRead32 k h (pageRange a mapping) (a &&& 4095) =
      if a.toNat % 4096 + 4 ≤ serverMcChPmonSize then (k.ioread32 h a, h ++ [.ioread32 a])
      else (0, h ++ [.prErr read32OutOfBounds [a &&& 4095]]) := mmioRead_page (by decide)
  rw [mmioReg32Read, hread]
  split_ifs <;> rfl

theorem registerOf_reaches (hbits : bits = 32 ∨ bits = 64)
    (hin : a.toNat % 4096 + bits / 8 ≤ serverMcChPmonSize) :
    Reaches k (registerOf k a bits mapping) a bits := by
  refine ⟨?_, ?_, touched_readCall hbits, touched_writeCall hbits⟩
  · intro h
    rcases hbits with rfl | rfl
    · exact mmioReg32Read_page.trans (if_pos hin)
    · exact (mmioRead_page (by decide)).trans (if_pos hin)
  · intro h val
    rcases hbits with rfl | rfl
    · exact (mmioWrite_page (by decide)).trans (if_pos hin)
    · exact (mmioWrite_page (by decide)).trans (if_pos hin)

theorem registerOf_refuses (hbits : bits = 32 ∨ bits = 64)
    (hout : serverMcChPmonSize < a.toNat % 4096 + bits / 8) :
    Refuses (registerOf k a bits mapping) := by
  have hnot : ¬ a.toNat % 4096 + bits / 8 ≤ serverMcChPmonSize := Nat.not_le.mpr hout
  rcases hbits with rfl | rfl
  · exact ⟨fun h => ⟨_, _, mmioReg32Read_page.trans (if_neg hnot)⟩,
      fun h val => ⟨_, _, (mmioWrite_page (by decide)).trans (if_neg hnot)⟩⟩
  · exact ⟨fun h => ⟨_, _, (mmioRead_page (by decide)).trans (if_neg hnot)⟩,
      fun h val => ⟨_, _, (mmioWrite_page (by decide)).trans (if_neg hnot)⟩⟩

/-- The calls of `hw_reg_destroy`. -/
theorem hwRegDestroy_registerOf (hbits : bits = 32 ∨ bits = 64) :
    hwRegDestroy h (some (registerOf k a bits mapping)) =
      h ++ destroyEvents mapping ++ [.kfree (objectOf bits)] := by
  have hrange : mmioRangeDestroy h (some (pageRange a mapping)) = h ++ destroyEvents mapping :=
    mmioRangeDestroy_mapped
  rcases hbits with rfl | rfl
  · change mmioRangeDestroy h (some (pageRange a mapping)) ++ [.kfree .mmioReg32] = _
    rw [hrange]
    rfl
  · change mmioRangeDestroy h (some (pageRange a mapping)) ++ [.kfree .mmioReg64] = _
    rw [hrange]
    rfl

/-! ## The life of a register -/

/-- The page of an address. -/
def pageOf (a : BitVec 64) : Set Nat :=
  Set.Ico (a &&& pageMask).toNat ((a &&& pageMask).toNat + serverMcChPmonSize)

/-- A register is within its page if its end passes the test. -/
theorem bytesOf_subset_pageOf (hbits : bits = 32 ∨ bits = 64) :
    bytesOf ⟨a, bits⟩ ⊆ pageOf a ↔ a.toNat % 4096 + bits / 8 ≤ serverMcChPmonSize := by
  have hpage := and_pageMask_toNat a
  have hmod := Nat.mod_le a.toNat 4096
  have hsome : a.toNat < a.toNat + bits / 8 := by omega
  rw [pageOf, hpage, bytesOf_mk, Set.Ico_subset_Ico_iff hsome]
  omega

theorem touches_page (hbits : bits = 32 ∨ bits = 64) (op : Operation) (h : List Event) :
    ∃ call, operate (registerOf k a bits mapping) h op = h ++ [call] ∧
      touched call ⊆ pageOf a ∧ ∀ pointer, call ≠ .iounmap pointer := by
  by_cases hin : a.toNat % 4096 + bits / 8 ≤ serverMcChPmonSize
  · have hreaches : Reaches k (registerOf k a bits mapping) a bits := registerOf_reaches hbits hin
    have hpage := (bytesOf_subset_pageOf hbits).mpr hin
    cases op with
    | read =>
      refine ⟨readCall bits a, by rw [operate, hreaches.read], ?_, ?_⟩
      · rw [hreaches.readBytes]
        exact hpage
      · intro pointer
        rw [readCall]
        split_ifs <;> simp
    | write val =>
      refine ⟨writeCall bits val a, hreaches.write h val, ?_, ?_⟩
      · rw [hreaches.writtenBytes]
        exact hpage
      · intro pointer
        rw [writeCall]
        split_ifs <;> simp
  · have hrefuses : Refuses (registerOf k a bits mapping) :=
      registerOf_refuses hbits (Nat.not_le.mp hin)
    cases op with
    | read =>
      obtain ⟨format, args, hread⟩ := hrefuses.read h
      exact ⟨_, by rw [operate, hread], Set.empty_subset _, by simp⟩
    | write val =>
      obtain ⟨format, args, hwrite⟩ := hrefuses.write h val
      exact ⟨_, hwrite, Set.empty_subset _, by simp⟩

/-- However a register is used, the accesses stay in its page. -/
theorem run_touches_page (hbits : bits = 32 ∨ bits = 64) (ops : List Operation) (h : List Event) :
    ∃ calls, ops.foldl (operate (registerOf k a bits mapping)) h = h ++ calls ∧
      ∀ e ∈ calls, touched e ⊆ pageOf a ∧ ∀ pointer, e ≠ .iounmap pointer := by
  induction ops generalizing h with
  | nil => exact ⟨[], (List.append_nil h).symm, fun e he => absurd he List.not_mem_nil⟩
  | cons op ops ih =>
    obtain ⟨call, hcall, hinside⟩ : ∃ call,
        operate (registerOf k a bits mapping) h op = h ++ [call] ∧ _ := touches_page hbits op h
    obtain ⟨calls, hcalls, hrest⟩ := ih (h ++ [call])
    refine ⟨call :: calls, ?_, fun e he => ?_⟩
    · rw [List.foldl_cons, hcall, hcalls, List.append_assoc]
      rfl
    · rcases List.mem_cons.mp he with rfl | he
      · exact hinside
      · exact hrest e he

/-- The writes that `ImcRegisters` counts as landed are those that reach the device. -/
theorem reaches_iff_lands (hbits : bits = 32 ∨ bits = 64)
    (hmake : makeRegister k h a bits = (some reg, h')) :
    Reaches k reg a bits ↔ lands ⟨a, bits⟩ = true := by
  obtain ⟨mapping, rfl, rfl⟩ := makeRegister_eq_some hbits hmake
  rw [lands, decide_eq_true_iff]
  refine ⟨fun hreaches => ?_, registerOf_reaches hbits⟩
  by_contra hout
  have hrefuses : Refuses (registerOf k a bits mapping) :=
    registerOf_refuses hbits (Nat.not_le.mp hout)
  obtain ⟨format, args, hwrite⟩ := hrefuses.write [] 0
  rw [hreaches.write, writeCall] at hwrite
  split_ifs at hwrite <;> simp at hwrite

/-- A register at a multiple of its size is read and written there; any other one too, unless
it would cross the end of the page, and then it is not accessed at all. From its making to its
end there is one mapping, of the page, which `hw_reg_destroy` unmaps. -/
theorem makeRegister_spec (hbits : bits = 32 ∨ bits = 64)
    (hmake : makeRegister k h a bits = (some reg, h')) :
    (a.toNat % (bits / 8) = 0 → Reaches k reg a bits) ∧
    (Reaches k reg a bits ∨ ¬ bytesOf ⟨a, bits⟩ ⊆ pageOf a ∧ Refuses reg) ∧
    ∃ mapping, h' = h ++ makeEvents a bits mapping ∧ ∀ ops : List Operation, ∃ calls,
      ops.foldl (operate reg) h' = h' ++ calls ∧
      (∀ e ∈ calls, touched e ⊆ pageOf a ∧ ∀ pointer, e ≠ .iounmap pointer) ∧
      hwRegDestroy (h' ++ calls) (some reg) =
        h' ++ calls ++ [.iounmap (.mapped mapping), .kfree .mmioRange, .kfree (objectOf bits)] := by
  obtain ⟨mapping, rfl, rfl⟩ := makeRegister_eq_some hbits hmake
  refine ⟨fun hmultiple => registerOf_reaches hbits ?_, ?_, mapping, rfl, fun ops => ?_⟩
  · rw [serverMcChPmonSize]
    rcases hbits with rfl | rfl <;> omega
  · by_cases hin : a.toNat % 4096 + bits / 8 ≤ serverMcChPmonSize
    · exact Or.inl (registerOf_reaches hbits hin)
    · exact Or.inr ⟨mt (bytesOf_subset_pageOf hbits).mp hin,
        registerOf_refuses hbits (Nat.not_le.mp hin)⟩
  · obtain ⟨calls, hcalls, hinside⟩ : ∃ calls, ops.foldl
        (operate (registerOf k a bits mapping)) (h ++ makeEvents a bits mapping) =
          h ++ makeEvents a bits mapping ++ calls ∧ _ := run_touches_page hbits ops _
    refine ⟨calls, hcalls, hinside, ?_⟩
    rw [hwRegDestroy_registerOf hbits, List.append_assoc]
    rfl

/-- The last eight bytes of a page. -/
theorem makeRegister_spec_lastBytes :
    ∃ reg h', makeRegister addressKernel [] 0x10FF8 64 = (some reg, h') ∧
      Reaches addressKernel reg 0x10FF8 64 := by
  have hmake : makeRegister addressKernel [] 0x10FF8 64 =
      (some (registerOf addressKernel 0x10FF8 64 1), makeEvents 0x10FF8 64 1) := rfl
  exact ⟨_, _, hmake, (makeRegister_spec (Or.inr rfl) hmake).1 (by decide)⟩

end HwRegisters
