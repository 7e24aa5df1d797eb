import Hiresperf.ImcPmus
import Mathlib.Algebra.Group.Nat.Defs
import Mathlib.Data.List.TakeWhile
import Mathlib.Order.CompletePartialOrder
import Mathlib.Order.Interval.Set.Disjoint

/-!
# Registers of a memory controller

What `init_g_uncore_pmus` does with the registers of a box. The table says how wide
the counters are and `register_step` derives their distance from it, but every
counter is read as 64 bits. A counter whose control register could not be mapped
ends the programming of its PMU early, and the initialisation still succeeds.
-/

namespace ImcRegisters

open UncoreDiscovery ImcPmus

/-! ## The bytes of a register -/

/-- The bytes that an access through the register touches. -/
def bytesOf (reg : HwReg) : Set Nat := Set.Ico reg.addr.toNat (reg.addr.toNat + reg.bits / 8)

/-- The value register that is made for a counter. -/
def valueReg (d : Discovery) (socket pos c : Nat) : Option HwReg :=
  (getBoxCtrAddr d sprImcBoxType socket pos c).map fun addr => ⟨addr, 64⟩

/-- The control register that is made for a counter. -/
def controlReg (d : Discovery) (socket pos c : Nat) : Option HwReg :=
  (getBoxCtlAddrWithCounter d sprImcBoxType socket pos c).map fun addr => ⟨addr, 32⟩

/-- The registers of two counters share no byte. -/
def Apart (reg : Nat → Option HwReg) (numRegs : Nat) : Prop :=
  ∀ c c', c < numRegs → c' < numRegs → c ≠ c' → ∀ r r', reg c = some r → reg c' = some r' →
    Disjoint (bytesOf r) (bytesOf r')

structure WindowsApart (d : Discovery) (socket pos numRegs : Nat) : Prop where
  values : Apart (valueReg d socket pos) numRegs
  controls : Apart (controlReg d socket pos) numRegs

/-- The addresses of the counters of a box do not exceed 64 bits. -/
structure NoOverflow (pmu : Table) : Prop where
  values : ∀ c < pmu.numRegs, pmu.boxCtrlAddr.toNat + pmu.ctrOffset + c * stepOfWidth pmu < 2 ^ 64
  controls : ∀ c < pmu.numRegs, pmu.boxCtrlAddr.toNat + pmu.ctrlOffset + c * 4 < 2 ^ 64

/-- Registers at a constant distance. -/
structure Spaced (reg : Nat → Option HwReg) (numRegs base step bits : Nat) : Prop where
  isReg : ∀ c < numRegs, ∃ r, reg c = some r ∧ r.addr.toNat = base + c * step ∧ r.bits = bits

theorem Spaced.apart_iff {reg : Nat → Option HwReg} {numRegs base step bits : Nat}
    (h : Spaced reg numRegs base step bits) (hbits : 8 ≤ bits) :
    Apart reg numRegs ↔ bits / 8 ≤ step ∨ numRegs ≤ 1 := by
  constructor
  · intro hapart
    by_contra hclose
    obtain ⟨r, hr, haddr, hr8⟩ := h.isReg 0 (by omega)
    obtain ⟨r', hr', haddr', hr8'⟩ := h.isReg 1 (by omega)
    have hdisjoint := hapart 0 1 (by omega) (by omega) (by decide) r r' hr hr'
    have hmem : r'.addr.toNat ∈ bytesOf r := by
      simp only [bytesOf, Set.mem_Ico]
      omega
    have hmem' : r'.addr.toNat ∈ bytesOf r' := by
      simp only [bytesOf, Set.mem_Ico]
      omega
    exact Set.disjoint_left.mp hdisjoint hmem hmem'
  · intro hfar c c' hc hc' hne r r' hr hr'
    obtain ⟨_, hsome, haddr, hr8⟩ := h.isReg c hc
    obtain ⟨_, hsome', haddr', hr8'⟩ := h.isReg c' hc'
    cases hr.symm.trans hsome
    cases hr'.symm.trans hsome'
    rw [Set.disjoint_left]
    intro byte hbyte hbyte'
    simp only [bytesOf, Set.mem_Ico] at hbyte hbyte'
    have hstep : bits / 8 ≤ step := by omega
    -- the one that comes first ends where the next begins
    rcases Nat.lt_or_gt_of_ne hne with hlt | hgt
    · have hmul : (c + 1) * step ≤ c' * step := Nat.mul_le_mul_right _ hlt
      rw [Nat.add_mul] at hmul
      omega
    · have hmul : (c' + 1) * step ≤ c * step := Nat.mul_le_mul_right _ hgt
      rw [Nat.add_mul] at hmul
      omega

theorem toNat_counterAddr {addr : BitVec 64} {offset n : Nat} (h : addr.toNat + offset + n < 2 ^ 64) :
    (addr + BitVec.ofNat 64 offset + BitVec.ofNat 64 n).toNat = addr.toNat + offset + n := by
  simp only [BitVec.toNat_add, BitVec.toNat_ofNat]
  omega

variable {d : Discovery} {socket pos : Nat} {pmu : Table}

theorem valueReg_spaced (hvalid : validBox d socket sprImcBoxType pos = true)
    (hpmu : (d.lists socket sprImcBoxType).element pos = some pmu) (hfits : NoOverflow pmu) :
    Spaced (valueReg d socket pos) pmu.numRegs (pmu.boxCtrlAddr.toNat + pmu.ctrOffset)
      (stepOfWidth pmu) 64 := by
  constructor
  intro c hc
  refine ⟨⟨_, 64⟩, ?_, toNat_counterAddr (hfits.values c hc), rfl⟩
  simp [valueReg, getBoxCtrAddr, hvalid, hpmu, hc, registerStep]

theorem controlReg_spaced (hvalid : validBox d socket sprImcBoxType pos = true)
    (hpmu : (d.lists socket sprImcBoxType).element pos = some pmu) (hfits : NoOverflow pmu) :
    Spaced (controlReg d socket pos) pmu.numRegs (pmu.boxCtrlAddr.toNat + pmu.ctrlOffset) 4 32 := by
  constructor
  intro c hc
  refine ⟨⟨_, 32⟩, ?_, toNat_counterAddr (hfits.controls c hc), rfl⟩
  simp [controlReg, getBoxCtlAddrWithCounter, hvalid, hpmu, hc]

/-- The steps below eight bytes are those of the widths up to 32. -/
theorem eight_le_stepOfWidth_iff (hmmio : AccessType.ofBits pmu.accessType = .mmio)
    (hwidth : pmu.bitWidth ≤ 64) : 8 ≤ stepOfWidth pmu ↔ 32 < pmu.bitWidth := by
  simp only [stepOfWidth, hmmio]
  split_ifs <;> omega

/-- The registers of a box share no byte exactly if its counters are wider than 32 bits, or if
there are not two of them. -/
theorem windowsApart_iff (d : Discovery) (socket pos : Nat) (pmu : Table)
    (hvalid : validBox d socket sprImcBoxType pos = true)
    (hpmu : (d.lists socket sprImcBoxType).element pos = some pmu)
    (hmmio : AccessType.ofBits pmu.accessType = .mmio) (hwidth : pmu.bitWidth ≤ 64)
    (hfits : NoOverflow pmu) :
    WindowsApart d socket pos pmu.numRegs ↔ 32 < pmu.bitWidth ∨ pmu.numRegs ≤ 1 := by
  have hvalues := (valueReg_spaced hvalid hpmu hfits).apart_iff (by decide)
  have hcontrols := (controlReg_spaced hvalid hpmu hfits).apart_iff (by decide)
  have hstep := eight_le_stepOfWidth_iff hmmio hwidth
  constructor
  · intro h
    rcases hvalues.mp h.values with hfar | hfew
    · exact Or.inl (hstep.mp hfar)
    · exact Or.inr hfew
  · intro h
    refine ⟨hvalues.mpr ?_, hcontrols.mpr (Or.inl (by decide))⟩
    rcases h with hwide | hfew
    · exact Or.inl (hstep.mpr hwide)
    · exact Or.inr hfew

/-- A box with four counters of the given width, its counters at offset 8 and their controls
at offset 64. -/
def boxOfWidth (width : BitVec 64) : Table :=
  ⟨0x4000000008004004 + width <<< 16, 0x22800, 6⟩

def discoveryOfWidth (width : BitVec 64) : Discovery where
  numSockets := 1
  lists _ _ := ⟨some [boxOfWidth width], 1⟩
  globalPmus _ := .zero
  outOfBounds := false

theorem noOverflow_boxOfWidth {width : BitVec 64} (haddr : (boxOfWidth width).numRegs = 4)
    (hctr : (boxOfWidth width).ctrOffset = 8) (hctl : (boxOfWidth width).ctrlOffset = 64)
    (hstep : stepOfWidth (boxOfWidth width) ≤ 8) : NoOverflow (boxOfWidth width) := by
  have hbase : (boxOfWidth width).boxCtrlAddr.toNat = 0x22800 := rfl
  constructor
  · intro c hc
    have hmul : c * stepOfWidth (boxOfWidth width) ≤ 3 * 8 := Nat.mul_le_mul (by omega) hstep
    omega
  · intro c hc
    omega

/-- The counters of the memory controllers have 48 bits. -/
theorem windowsApart_48 : WindowsApart (discoveryOfWidth 48) 0 0 4 :=
  (windowsApart_iff (discoveryOfWidth 48) 0 0 (boxOfWidth 48) (by decide) (by decide) (by decide)
    (by decide) (noOverflow_boxOfWidth (by decide) (by decide) (by decide) (by decide))).mpr
    (Or.inl (by decide))

/-- Counters of 32 bits are four bytes apart, and eight bytes are read from each. -/
theorem value_windows_overlap : ¬ ∀ (d : Discovery) (socket pos : Nat) (pmu : Table),
    validBox d socket sprImcBoxType pos = true →
    (d.lists socket sprImcBoxType).element pos = some pmu →
    AccessType.ofBits pmu.accessType = .mmio → pmu.bitWidth ≤ 64 → NoOverflow pmu →
    WindowsApart d socket pos pmu.numRegs := by
  intro hall
  have hapart := (hall (discoveryOfWidth 32) 0 0 (boxOfWidth 32) (by decide) (by decide) (by decide)
    (by decide) (noOverflow_boxOfWidth (by decide) (by decide) (by decide) (by decide))).values
  have hdisjoint := hapart 0 1 (by decide) (by decide) (by decide) ⟨0x22808, 64⟩ ⟨0x2280C, 64⟩
    (by decide) (by decide)
  have hmem : 0x2280C ∈ bytesOf ⟨0x22808, 64⟩ := by simp [bytesOf]
  have hmem' : 0x2280C ∈ bytesOf ⟨0x2280C, 64⟩ := by simp [bytesOf]
  exact Set.disjoint_left.mp hdisjoint hmem hmem'

/-- These are the registers of the PMUs that are stored. -/
theorem counterVal_eq_valueReg {d : Discovery} (h : WithinAllocations d) (o : Outcomes)
    {pos c : Nat} {reg : HwReg} (hreg : (pmuOfBox (imcBoxesOf d) o pos).counterVal c = some reg) :
    valueReg d socketId pos c = some reg := by
  obtain ⟨-, -, -, -, hctr⟩ := imcBoxesOf_accessors h pos c
  simp only [pmuOfBox, makeRegister] at hreg
  split_ifs at hreg
  rw [valueReg, hctr]
  exact hreg

theorem counterCtrl_eq_controlReg {d : Discovery} (h : WithinAllocations d) (o : Outcomes)
    {pos c : Nat} {reg : HwReg} (hreg : (pmuOfBox (imcBoxesOf d) o pos).counterCtrl c = some reg) :
    controlReg d socketId pos c = some reg := by
  obtain ⟨-, -, -, hctl, -⟩ := imcBoxesOf_accessors h pos c
  simp only [pmuOfBox, makeRegister] at hreg
  split_ifs at hreg
  rw [controlReg, hctl]
  exact hreg

/-! ## The writes of the initialisation -/

/-- The pointers of a PMU that `program_imc` writes through. -/
inductive Field where
  | unitCtrl
  | fixedCounterCtrl
  | counterCtrl (counter : Nat)
  deriving DecidableEq

def fieldOf (pmu : UncorePmu) : Field → Option HwReg
  | .unitCtrl => pmu.unitCtrl
  | .fixedCounterCtrl => pmu.fixedCounterCtrl
  | .counterCtrl counter => pmu.counterCtrl counter

/-- A pointer in the PMU of a slot. Each points to a register of its own, also where the table
gives two registers the same address. -/
abbrev Pointer := Nat × Field

def pointee (s : UncorePmus) (p : Pointer) : Option HwReg := (s.imcs p.1).bind fun pmu => fieldOf pmu p.2

abbrev PointerWrite := Pointer × BitVec 64

/-- `uncore_pmu_init_freeze`. -/
def freezeWrites (slot : Nat) : List PointerWrite :=
  [((slot, .unitCtrl), sprUnitCtlFrz), ((slot, .unitCtrl), sprUnitCtlFrz + sprUnitCtlRstControl)]

def fixedWrites (slot : Nat) : List PointerWrite :=
  [((slot, .fixedCounterCtrl), fixedCtlEn), ((slot, .fixedCounterCtrl), fixedCtlEn + fixedCtlRst)]

def counterWrites (slot : Nat) (pmu : UncorePmu) : List PointerWrite :=
  (List.range (min (uncorePmuGetSize pmu) mccntConf.length)).map fun i =>
    ((slot, .counterCtrl i), mccntConf.getD i 0)

/-- `uncore_pmu_reset_unfreeze`. -/
def unfreezeWrites (slot : Nat) : List PointerWrite :=
  [((slot, .unitCtrl), sprUnitCtlFrz + sprUnitCtlRstCounters), ((slot, .unitCtrl), 0)]

/-- The writes of `programPmu`, by the pointers they go through. -/
def pmuWrites (slot : Nat) (pmu : UncorePmu) : List PointerWrite :=
  match pmu.unitCtrl, pmu.fixedCounterCtrl with
  | none, _ => []
  | some _, none => freezeWrites slot
  | some _, some _ =>
    freezeWrites slot ++ (fixedWrites slot ++ counterWrites slot pmu ++ unfreezeWrites slot)

def imcWrites (s : UncorePmus) : List Nat → List PointerWrite
  | [] => []
  | slot :: rest =>
    match s.imcs slot with
    | none => []
    | some pmu =>
      if (programPmu pmu).1 then pmuWrites slot pmu ++ imcWrites s rest else pmuWrites slot pmu

def serverMcChPmonSize : Nat := 0x1000

/-- The check of `mmio_write32`: the register ends within the page that was mapped for it. -/
def lands (reg : HwReg) : Bool := decide (reg.addr.toNat % 4096 + reg.bits / 8 ≤ serverMcChPmonSize)

/-- The writes that reach the device; the others only leave a message. -/
def landed (s : UncorePmus) (writes : List PointerWrite) : List PointerWrite :=
  writes.filter fun w => (pointee s w.1).any lands

/-- What the device sees of `program_counters`. -/
def deviceWrites (s : UncorePmus) : List PointerWrite := landed s (imcWrites s (List.range s.numImcs))

def lastWrite (writes : List PointerWrite) (p : Pointer) : Option (BitVec 64) :=
  ((writes.filter fun w => w.1 == p).map Prod.snd).getLast?

def casCountRd : BitVec 64 := 0x05 + (0xcf <<< 8)
def casCountWr : BitVec 64 := 0x05 + (0xf0 <<< 8)

/-- The write of the control reset to a unit. -/
def controlReset (slot : Nat) : PointerWrite :=
  ((slot, .unitCtrl), sprUnitCtlFrz + sprUnitCtlRstControl)

/-- The counters of a PMU count reads and writes, were set up after the reset of the unit, and
run. -/
structure SlotProgrammed (writes : List PointerWrite) (slot : Nat) : Prop where
  read : lastWrite writes (slot, .counterCtrl eventRead) = some casCountRd
  write : lastWrite writes (slot, .counterCtrl eventWrite) = some casCountWr
  isReset : controlReset slot ∈ writes
  afterReset : ∀ counter ∈ [eventRead, eventWrite], writes.Pairwise fun w later =>
    w.1 = (slot, .counterCtrl counter) → later ≠ controlReset slot
  unfrozen : lastWrite writes (slot, .unitCtrl) = some 0

/-- Every PMU that is counted is programmed, and so is every counter that is summed. -/
structure ProgramsWhatIsRead (s : UncorePmus) : Prop where
  slots : ∀ slot < s.numImcs, SlotProgrammed (deviceWrites s) slot
  summed : ∀ slot < s.numImcs, ∀ pmu, s.imcs slot = some pmu → ∀ counter ∈ [eventRead, eventWrite],
    (pmu.counterVal counter).isSome = true →
      lastWrite (deviceWrites s) (slot, .counterCtrl counter) = mccntConf[counter]?

/-! ## When the initialisation returns 0 -/

/-- No box has too many registers, the boxes attempted come first and their PMUs and fixed
counters are there. -/
structure ReturnsZero (boxes : ImcBoxes) (o : Outcomes) : Prop where
  fewRegs : ∀ pos < boxes.numBoxes, tooManyRegs boxes pos = false
  first : AttemptedFirst o (some boxes)
  fixed : ∀ pos < boxes.numBoxes, attempted boxes o pos = true → o.fixedCtrl pos = true

/-- The box has the two counters, and the registers that are written can be reached. -/
structure CountersReachable (boxes : ImcBoxes) (o : Outcomes) (pos : Nat) : Prop where
  two : 2 ≤ boxes.numRegs pos
  unit : lands ⟨boxes.ctlAddr pos, 32⟩ = true
  mapped : ∀ counter < 2, o.counterCtrl pos counter = true
  reached : ∀ counter < 2, lands ⟨boxes.ctlAddrWithCounter pos counter, 32⟩ = true

/-- The pointers name the registers that `programPmu` writes. -/
def erase (s : UncorePmus) (writes : List PointerWrite) : List RegWrite :=
  writes.filterMap fun w => (pointee s w.1).map fun reg => (reg, w.2)

variable {boxes : ImcBoxes} {o : Outcomes} {s : UncorePmus}

theorem erase_cons {p : Pointer} {reg : HwReg} (h : pointee s p = some reg) (value : BitVec 64)
    (rest : List PointerWrite) : erase s ((p, value) :: rest) = (reg, value) :: erase s rest := by
  simp [erase, h]

theorem erase_append (s : UncorePmus) (first rest : List PointerWrite) :
    erase s (first ++ rest) = erase s first ++ erase s rest := List.filterMap_append

theorem erase_pmuWrites {slot : Nat} {p : UncorePmu} (hslot : s.imcs slot = some p) :
    erase s (pmuWrites slot p) = (programPmu p).2 := by
  have hpointee : ∀ field, pointee s (slot, field) = fieldOf p field := by simp [pointee, hslot]
  unfold pmuWrites programPmu
  cases hunit : p.unitCtrl with
  | none => rfl
  | some unit =>
    have hunitReg : pointee s (slot, .unitCtrl) = some unit := (hpointee _).trans hunit
    have hfreeze : erase s (freezeWrites slot) =
        [(unit, sprUnitCtlFrz), (unit, sprUnitCtlFrz + sprUnitCtlRstControl)] := by
      rw [freezeWrites, erase_cons hunitReg, erase_cons hunitReg]
      rfl
    cases hfixed : p.fixedCounterCtrl with
    | none => exact hfreeze
    | some fixed =>
      have hfixedReg : pointee s (slot, .fixedCounterCtrl) = some fixed := (hpointee _).trans hfixed
      have hcounters : erase s (counterWrites slot p) = programCounters p := by
        rw [erase, counterWrites, programCounters, List.filterMap_map]
        apply List.filterMap_congr
        intro i _
        exact congrArg (Option.map _) (hpointee _)
      simp only [erase_append, hfreeze, hcounters, fixedWrites, unfreezeWrites, erase_cons hunitReg,
        erase_cons hfixedReg, List.append_assoc]
      rfl

/-- Without the pointers, these are the writes of `program_imc`. -/
theorem erase_imcWrites (s : UncorePmus) (slots : List Nat) :
    erase s (imcWrites s slots) = (programImcs s slots).2 := by
  induction slots with
  | nil => rfl
  | cons slot rest ih =>
    rw [imcWrites, programImcs]
    cases hslot : s.imcs slot with
    | none => rfl
    | some p =>
      have hfirst := erase_pmuWrites hslot
      by_cases hok : (programPmu p).1 = true
      · simp only [hok, if_true]
        rw [← hfirst, ← ih, erase, List.filterMap_append]
        rfl
      · simpa [hok] using hfirst

theorem programPmu_fst (p : UncorePmu) :
    (programPmu p).1 = (p.unitCtrl.isSome && p.fixedCounterCtrl.isSome) := by
  unfold programPmu
  cases p.unitCtrl <;> cases p.fixedCounterCtrl <;> rfl

/-- All PMUs must be there and have both registers. -/
theorem programImcs_ok_iff (s : UncorePmus) (slots : List Nat) :
    (programImcs s slots).1 = .ok ↔
      ∀ slot ∈ slots, ∃ p, s.imcs slot = some p ∧ (programPmu p).1 = true := by
  induction slots with
  | nil => simp [programImcs]
  | cons slot rest ih =>
    rw [programImcs, List.forall_mem_cons]
    cases hslot : s.imcs slot with
    | none => simp
    | some p =>
      by_cases hok : (programPmu p).1 = true
      · simp [hok, ih]
      · simp [hok]

theorem initBoxes_exit (boxes : ImcBoxes) (o : Outcomes) (positions : List Nat) (s : UncorePmus) :
    (initBoxes boxes o positions s).2 = positions.any (tooManyRegs boxes) := by
  induction positions generalizing s with
  | nil => rfl
  | cons pos rest ih =>
    rw [initBoxes, List.any_cons]
    split_ifs with hexit
    · simp [hexit]
    · simp [hexit, ih]

theorem initGUncorePmus_result (boxes : ImcBoxes) (o : Outcomes) :
    (initGUncorePmus o (some boxes)).2 =
      if (List.range boxes.numBoxes).any (tooManyRegs boxes) then .einval
      else (programImc (initGUncorePmus o (some boxes)).1).1 := by
  have hexit := initBoxes_exit boxes o (List.range boxes.numBoxes) ⟨fun _ => none, 0, false⟩
  rw [← hexit]
  dsimp only [initGUncorePmus]
  generalize initBoxes boxes o (List.range boxes.numBoxes) ⟨fun _ => none, 0, false⟩ = result
  obtain ⟨s, exit⟩ := result
  cases exit <;> rfl

theorem processed_of_fewRegs (h : ∀ pos < boxes.numBoxes, tooManyRegs boxes pos = false) :
    processed boxes = List.range boxes.numBoxes := by
  rw [processed, List.takeWhile_eq_self_iff]
  intro pos hpos
  simp [h pos (List.mem_range.mp hpos)]

theorem ReturnsZero.densePrefix (h : ReturnsZero boxes o) : ∃ k,
    DensePrefix (pmuOfBox boxes o) k (initGUncorePmus o (some boxes)).1 ∧
      ∀ pos, pos < k ↔ pos < boxes.numBoxes ∧ attempted boxes o pos = true := by
  obtain ⟨k, hk, hfirst, halloc⟩ := h.first
  refine ⟨k, densePrefix_of_attemptedFirst hk hfirst halloc, fun pos => ?_⟩
  rw [← lt_iff_attempted hfirst, processed_of_fewRegs h.fewRegs, List.length_range]

theorem unitCtrl_isSome_of_attempted {pos : Nat} (h : attempted boxes o pos = true) :
    (pmuOfBox boxes o pos).unitCtrl = some ⟨boxes.ctlAddr pos, 32⟩ := by
  have hmapped : o.unitCtrl pos = true := (Bool.and_eq_true_iff.mp h).2
  simp [pmuOfBox, makeRegister, hmapped]

theorem returnsZero_iff (boxes : ImcBoxes) (o : Outcomes) :
    (initGUncorePmus o (some boxes)).2 = .ok ↔ ReturnsZero boxes o := by
  rw [initGUncorePmus_result]
  constructor
  · intro hok
    have hfew : ∀ pos < boxes.numBoxes, tooManyRegs boxes pos = false := by
      intro pos hpos
      by_contra hmany
      rw [if_pos (List.any_eq_true.mpr ⟨pos, List.mem_range.mpr hpos, by simpa using hmany⟩)] at hok
      cases hok
    have hnone : (List.range boxes.numBoxes).any (tooManyRegs boxes) = false := by
      rw [List.any_eq_false]
      exact fun pos hpos => by simp [hfew pos (List.mem_range.mp hpos)]
    rw [hnone, if_neg Bool.false_ne_true, programImc, programImcs_ok_iff] at hok
    have hfirst : AttemptedFirst o (some boxes) := by
      apply attemptedFirst_of_slots
      intro i hi
      obtain ⟨p, hp, -⟩ := hok i (List.mem_range.mpr hi)
      rw [hp]
      rfl
    refine ⟨hfew, hfirst, ?_⟩
    obtain ⟨k, hk, hranges, halloc⟩ := hfirst
    have hdense := densePrefix_of_attemptedFirst hk hranges halloc
    intro pos hpos hattempted
    have hlt : pos < k := by
      rw [← lt_iff_attempted hranges, processed_of_fewRegs hfew, List.length_range]
      exact ⟨hpos, hattempted⟩
    obtain ⟨p, hp, hprogram⟩ := hok pos (List.mem_range.mpr (by rw [hdense.count]; exact hlt))
    rw [hdense.slot, if_pos hlt] at hp
    cases hp
    rw [programPmu_fst, Bool.and_eq_true] at hprogram
    have hfixed := hprogram.2
    simp only [pmuOfBox, makeRegister] at hfixed
    split_ifs at hfixed with hmapped
    · exact hmapped
    · cases hfixed
  · intro h
    obtain ⟨k, hdense, hmem⟩ := h.densePrefix
    have hnone : (List.range boxes.numBoxes).any (tooManyRegs boxes) = false := by
      rw [List.any_eq_false]
      exact fun pos hpos => by simp [h.fewRegs pos (List.mem_range.mp hpos)]
    rw [hnone, if_neg Bool.false_ne_true, programImc, programImcs_ok_iff, hdense.count]
    intro slot hslot
    obtain ⟨hlt, hattempted⟩ := (hmem slot).mp (List.mem_range.mp hslot)
    refine ⟨_, by rw [hdense.slot, if_pos (List.mem_range.mp hslot)], ?_⟩
    rw [programPmu_fst, unitCtrl_isSome_of_attempted hattempted]
    simp [pmuOfBox, makeRegister, h.fixed slot hlt hattempted]

/-! ## The last writes of a slot -/

theorem flatMap_range_single {A : Type} {f : Nat → List A} {slot k : Nat} (hslot : slot < k)
    (h : ∀ i, i ≠ slot → f i = []) : (List.range k).flatMap f = f slot := by
  induction k with
  | zero => omega
  | succ k ih =>
    rw [List.range_succ, List.flatMap_append, List.flatMap_singleton]
    by_cases hk : slot = k
    · subst hk
      have hbefore : (List.range slot).flatMap f = [] := by
        rw [List.flatMap_eq_nil_iff]
        exact fun i hi => h i (by have := List.mem_range.mp hi; omega)
      rw [hbefore, List.nil_append]
    · rw [ih (by omega), h k (Ne.symm hk), List.append_nil]

theorem imcWrites_of_ok {p : Nat → UncorePmu} {slots : List Nat}
    (hslots : ∀ slot ∈ slots, s.imcs slot = some (p slot) ∧ (programPmu (p slot)).1 = true) :
    imcWrites s slots = slots.flatMap fun slot => pmuWrites slot (p slot) := by
  induction slots with
  | nil => rfl
  | cons slot rest ih =>
    obtain ⟨hfirst, hrest⟩ := List.forall_mem_cons.mp hslots
    rw [imcWrites, hfirst.1, List.flatMap_cons, ih hrest]
    simp [hfirst.2]

theorem mem_pmuWrites_slot {slot : Nat} {p : UncorePmu} {w : PointerWrite}
    (h : w ∈ pmuWrites slot p) : w.1.1 = slot := by
  have hcounters : ∀ w ∈ counterWrites slot p, w.1.1 = slot := by
    intro w hw
    obtain ⟨i, -, rfl⟩ := List.mem_map.mp hw
    rfl
  have hall : ∀ w ∈ freezeWrites slot ++ (fixedWrites slot ++ counterWrites slot p ++
      unfreezeWrites slot), w.1.1 = slot := by
    simp only [List.forall_mem_append]
    exact ⟨by simp [freezeWrites], ⟨by simp [fixedWrites], hcounters⟩, by simp [unfreezeWrites]⟩
  unfold pmuWrites at h
  split at h
  · cases h
  · exact hall w (List.mem_append_left _ h)
  · exact hall w h

theorem lastWrite_landed {p : Pointer} {reg : HwReg} (hreg : pointee s p = some reg)
    (hlands : lands reg = true) (writes : List PointerWrite) :
    lastWrite (landed s writes) p = lastWrite writes p := by
  unfold lastWrite landed
  rw [List.filter_filter]
  have hsame : ∀ w : PointerWrite,
      ((w.1 == p) && (pointee s w.1).any lands) = (w.1 == p) := by
    intro w
    by_cases hw : w.1 = p
    · simp [hw, hreg, hlands]
    · simp [hw]
  simp only [hsame]

/-- Only what is written for the slot itself matters. -/
theorem lastWrite_flatMap {p : Nat → UncorePmu} {k slot : Nat} (hslot : slot < k) (field : Field) :
    lastWrite ((List.range k).flatMap fun i => pmuWrites i (p i)) (slot, field) =
      lastWrite (pmuWrites slot (p slot)) (slot, field) := by
  unfold lastWrite
  rw [List.filter_flatMap, flatMap_range_single hslot]
  intro i hi
  rw [List.filter_eq_nil_iff]
  intro w hw heq
  have := mem_pmuWrites_slot hw
  rw [beq_iff_eq.mp heq] at this
  exact hi this.symm

/-- A PMU that passes all checks. -/
def Complete (p : UncorePmu) : Prop := p.unitCtrl.isSome = true ∧ p.fixedCounterCtrl.isSome = true

theorem pmuWrites_of_complete {p : UncorePmu} (h : Complete p) (slot : Nat) : pmuWrites slot p =
    freezeWrites slot ++ (fixedWrites slot ++ counterWrites slot p ++ unfreezeWrites slot) := by
  obtain ⟨unit, hunit⟩ := Option.isSome_iff_exists.mp h.1
  obtain ⟨fixed, hfixed⟩ := Option.isSome_iff_exists.mp h.2
  rw [pmuWrites, hunit, hfixed]

theorem two_le_getSize {p : UncorePmu} (h : ∀ counter < 2, (p.counterCtrl counter).isSome = true) :
    2 ≤ uncorePmuGetSize p := by
  have hrange : List.range maxHwRegsPerImcPmu = 0 :: 1 :: List.range' 2 14 := rfl
  simp [uncorePmuGetSize, hrange, h 0 (by decide), h 1 (by decide)]

theorem filter_counterWrites {slot counter : Nat} {p : UncorePmu}
    (h : counter < min (uncorePmuGetSize p) mccntConf.length) :
    (counterWrites slot p).filter (fun w => w.1 == (slot, .counterCtrl counter)) =
      [((slot, .counterCtrl counter), mccntConf.getD counter 0)] := by
  have hsame : ((fun w : PointerWrite => w.1 == (slot, Field.counterCtrl counter)) ∘
      fun i => ((slot, Field.counterCtrl i), mccntConf.getD i 0)) = fun i => i == counter := by
    funext i
    by_cases hi : i = counter <;> simp [hi]
  have hcount : (List.range (min (uncorePmuGetSize p) mccntConf.length)).count counter = 1 :=
    List.count_eq_one_of_mem List.nodup_range (List.mem_range.mpr h)
  rw [counterWrites, List.filter_map, hsame, List.filter_beq, hcount]
  rfl

theorem lastWrite_counter {slot counter : Nat} {p : UncorePmu} (hcomplete : Complete p)
    (h : counter < min (uncorePmuGetSize p) mccntConf.length) :
    lastWrite (pmuWrites slot p) (slot, .counterCtrl counter) = some (mccntConf.getD counter 0) := by
  rw [pmuWrites_of_complete hcomplete, lastWrite]
  simp only [List.filter_append, filter_counterWrites h]
  simp [freezeWrites, fixedWrites, unfreezeWrites]

theorem lastWrite_unit {slot : Nat} {p : UncorePmu} (hcomplete : Complete p) :
    lastWrite (pmuWrites slot p) (slot, .unitCtrl) = some 0 := by
  rw [pmuWrites_of_complete hcomplete, lastWrite]
  simp [unfreezeWrites, List.filter_append]

/-- The reset comes before the counters are set up. -/
theorem pmuWrites_afterReset {slot counter : Nat} {p : UncorePmu} (hcomplete : Complete p) :
    (pmuWrites slot p).Pairwise fun w later =>
      w.1 = (slot, .counterCtrl counter) → later ≠ controlReset slot := by
  have hlater : ∀ w ∈ fixedWrites slot ++ counterWrites slot p ++ unfreezeWrites slot,
      w ≠ controlReset slot := by
    simp only [List.forall_mem_append]
    refine ⟨⟨by simp [fixedWrites, controlReset], ?_⟩, by
      simp [unfreezeWrites, controlReset, sprUnitCtlFrz, sprUnitCtlRstControl,
        sprUnitCtlRstCounters]⟩
    intro w hw
    obtain ⟨i, -, rfl⟩ := List.mem_map.mp hw
    simp [controlReset]
  rw [pmuWrites_of_complete hcomplete, List.pairwise_append]
  refine ⟨by simp [freezeWrites], ?_, ?_⟩
  · exact List.pairwise_of_forall_mem_list fun w _ later hin _ => hlater later hin
  · intro w _ later hin _
    exact hlater later hin

/-! ## Exactly when what is read was programmed -/

theorem exists_register_of_lastWrite {p : Pointer} {value : BitVec 64} {writes : List PointerWrite}
    (h : lastWrite (landed s writes) p = some value) :
    ∃ reg, pointee s p = some reg ∧ lands reg = true := by
  obtain ⟨w, hw, -⟩ := List.mem_map.mp (List.mem_of_getLast? h)
  obtain ⟨hlanded, hp⟩ := List.mem_filter.mp hw
  rw [← beq_iff_eq.mp hp]
  exact (Option.any_eq_true _ _).mp (List.mem_filter.mp hlanded).2

theorem counterCtrl_pmuOfBox {pos counter : Nat} {reg : HwReg}
    (h : (pmuOfBox boxes o pos).counterCtrl counter = some reg) :
    counter < boxes.numRegs pos ∧ o.counterCtrl pos counter = true ∧
      reg = ⟨boxes.ctlAddrWithCounter pos counter, 32⟩ := by
  simp only [pmuOfBox, makeRegister] at h
  split_ifs at h with hregs hmapped
  exact ⟨hregs, hmapped, (Option.some.inj h).symm⟩

section Success

variable {k : Nat}

theorem pointee_of_densePrefix (hdense : DensePrefix (pmuOfBox boxes o) k s) {slot : Nat}
    (hslot : slot < k) (field : Field) :
    pointee s (slot, field) = fieldOf (pmuOfBox boxes o slot) field := by
  simp [pointee, hdense.slot, hslot]

theorem deviceWrites_of_densePrefix (hdense : DensePrefix (pmuOfBox boxes o) k s)
    (hcomplete : ∀ slot < k, Complete (pmuOfBox boxes o slot)) :
    deviceWrites s =
      landed s ((List.range k).flatMap fun slot => pmuWrites slot (pmuOfBox boxes o slot)) := by
  rw [deviceWrites, hdense.count, imcWrites_of_ok]
  intro slot hslot
  have hlt := List.mem_range.mp hslot
  obtain ⟨hunit, hfixed⟩ := hcomplete slot hlt
  exact ⟨by rw [hdense.slot, if_pos hlt], by rw [programPmu_fst, hunit, hfixed]; rfl⟩

/-- Each of the two counters gets its configuration, if its control register is reached. -/
theorem lastWrite_counter_of_reachable (hdense : DensePrefix (pmuOfBox boxes o) k s)
    (hcomplete : ∀ slot < k, Complete (pmuOfBox boxes o slot)) {slot : Nat} (hslot : slot < k)
    (h : CountersReachable boxes o slot) {counter : Nat} (hcounter : counter < 2) :
    lastWrite (deviceWrites s) (slot, .counterCtrl counter) = some (mccntConf.getD counter 0) := by
  have hreg : ∀ c < 2, (pmuOfBox boxes o slot).counterCtrl c =
      some ⟨boxes.ctlAddrWithCounter slot c, 32⟩ := by
    intro c hc
    have htwo := h.two
    have hregs : c < boxes.numRegs slot := by omega
    simp [pmuOfBox, makeRegister, hregs, h.mapped c hc]
  have hsize : 2 ≤ uncorePmuGetSize (pmuOfBox boxes o slot) :=
    two_le_getSize fun c hc => by rw [hreg c hc]; rfl
  have hmin : counter < min (uncorePmuGetSize (pmuOfBox boxes o slot)) mccntConf.length := by
    have hlength : mccntConf.length = 4 := rfl
    omega
  have hpointee : pointee s (slot, .counterCtrl counter) =
      some ⟨boxes.ctlAddrWithCounter slot counter, 32⟩ :=
    (pointee_of_densePrefix hdense hslot _).trans (hreg counter hcounter)
  rw [deviceWrites_of_densePrefix hdense hcomplete, lastWrite_landed hpointee
    (h.reached counter hcounter), lastWrite_flatMap hslot, lastWrite_counter (hcomplete slot hslot) hmin]

theorem slotProgrammed_of_reachable (hdense : DensePrefix (pmuOfBox boxes o) k s)
    (hcomplete : ∀ slot < k, Complete (pmuOfBox boxes o slot)) {slot : Nat} (hslot : slot < k)
    (hunit : (pmuOfBox boxes o slot).unitCtrl = some ⟨boxes.ctlAddr slot, 32⟩)
    (h : CountersReachable boxes o slot) : SlotProgrammed (deviceWrites s) slot := by
  have hpointee : pointee s (slot, .unitCtrl) = some ⟨boxes.ctlAddr slot, 32⟩ :=
    (pointee_of_densePrefix hdense hslot _).trans hunit
  have hwrites := deviceWrites_of_densePrefix hdense hcomplete
  constructor
  case read => exact lastWrite_counter_of_reachable hdense hcomplete hslot h (by decide)
  case write => exact lastWrite_counter_of_reachable hdense hcomplete hslot h (by decide)
  case isReset =>
    rw [hwrites, landed, List.mem_filter]
    refine ⟨List.mem_flatMap.mpr ⟨slot, List.mem_range.mpr hslot, ?_⟩, ?_⟩
    · rw [pmuWrites_of_complete (hcomplete slot hslot)]
      simp [freezeWrites, controlReset]
    · simp [controlReset, hpointee, h.unit]
  case afterReset =>
    intro counter _
    rw [hwrites]
    apply List.Pairwise.filter
    rw [List.pairwise_flatMap]
    constructor
    · intro i hi
      by_cases hsame : i = slot
      · subst hsame
        exact pmuWrites_afterReset (hcomplete i hslot)
      · -- the writes of another slot go through other pointers
        apply List.pairwise_of_forall_mem_list
        intro w hw later _ hpointer
        rw [← mem_pmuWrites_slot hw, hpointer] at hsame
        exact absurd rfl hsame
    · apply List.nodup_range.imp
      intro i j hne w hw later hlater hpointer heq
      have hi := mem_pmuWrites_slot hw
      have hj := mem_pmuWrites_slot hlater
      rw [hpointer] at hi
      rw [heq] at hj
      exact hne (hi.symm.trans hj)
  case unfrozen =>
    rw [hwrites, lastWrite_landed hpointee h.unit, lastWrite_flatMap hslot,
      lastWrite_unit (hcomplete slot hslot)]

theorem reachable_of_slotProgrammed (hdense : DensePrefix (pmuOfBox boxes o) k s) {slot : Nat}
    (hslot : slot < k) (hunit : (pmuOfBox boxes o slot).unitCtrl = some ⟨boxes.ctlAddr slot, 32⟩)
    (h : SlotProgrammed (deviceWrites s) slot) : CountersReachable boxes o slot := by
  have hcounter : ∀ counter < 2, counter < boxes.numRegs slot ∧ o.counterCtrl slot counter = true ∧
      lands ⟨boxes.ctlAddrWithCounter slot counter, 32⟩ = true := by
    intro counter hlt
    have hlast : ∃ value, lastWrite (deviceWrites s) (slot, .counterCtrl counter) = some value := by
      rcases (by omega : counter = 0 ∨ counter = 1) with rfl | rfl
      · exact ⟨_, h.read⟩
      · exact ⟨_, h.write⟩
    obtain ⟨value, hvalue⟩ := hlast
    obtain ⟨reg, hreg, hlands⟩ := exists_register_of_lastWrite hvalue
    rw [pointee_of_densePrefix hdense hslot] at hreg
    obtain ⟨hregs, hmapped, rfl⟩ := counterCtrl_pmuOfBox hreg
    exact ⟨hregs, hmapped, hlands⟩
  obtain ⟨reg, hreg, hlands⟩ := exists_register_of_lastWrite h.unfrozen
  have hsame : some reg = some ⟨boxes.ctlAddr slot, 32⟩ := by
    rw [← hreg, pointee_of_densePrefix hdense hslot, ← hunit]
    rfl
  cases hsame
  exact ⟨(hcounter 1 (by decide)).1, hlands, fun c hc => (hcounter c hc).2.1,
    fun c hc => (hcounter c hc).2.2⟩

end Success

/-- A successful initialisation has programmed what is read, exactly if whenever the boxes and
the mappings let it succeed, each box in use has two counters or more and the registers of
the first two, and of the unit, can be written. -/
theorem programsWhatIsRead_iff (o : Outcomes) (discovered : Option ImcBoxes) :
    ((initGUncorePmus o discovered).2 = .ok →
        ProgramsWhatIsRead (initGUncorePmus o discovered).1) ↔
      ∀ boxes, discovered = some boxes → ReturnsZero boxes o →
        ∀ pos < boxes.numBoxes, attempted boxes o pos = true → CountersReachable boxes o pos := by
  cases discovered with
  | none => simp [initGUncorePmus]
  | some boxes =>
    simp only [Option.some.injEq, forall_eq', returnsZero_iff]
    refine forall_congr' fun hzero => ?_
    obtain ⟨k, hdense, hmem⟩ := hzero.densePrefix
    have hunit : ∀ slot < k, (pmuOfBox boxes o slot).unitCtrl = some ⟨boxes.ctlAddr slot, 32⟩ :=
      fun slot hslot => unitCtrl_isSome_of_attempted ((hmem slot).mp hslot).2
    have hcomplete : ∀ slot < k, Complete (pmuOfBox boxes o slot) := by
      intro slot hslot
      obtain ⟨hlt, hattempted⟩ := (hmem slot).mp hslot
      exact ⟨by rw [hunit slot hslot]; rfl,
        by simp [pmuOfBox, makeRegister, hzero.fixed slot hlt hattempted]⟩
    constructor
    · intro h pos hpos hattempted
      have hslot := (hmem pos).mpr ⟨hpos, hattempted⟩
      exact reachable_of_slotProgrammed hdense hslot (hunit pos hslot)
        (h.slots pos (by rw [hdense.count]; exact hslot))
    · intro h
      have hreachable : ∀ slot < k, CountersReachable boxes o slot := by
        intro slot hslot
        obtain ⟨hlt, hattempted⟩ := (hmem slot).mp hslot
        exact h slot hlt hattempted
      constructor
      · intro slot hslot
        rw [hdense.count] at hslot
        exact slotProgrammed_of_reachable hdense hcomplete hslot (hunit slot hslot)
          (hreachable slot hslot)
      · intro slot hslot p _ counter hcounter _
        rw [hdense.count] at hslot
        have hlt : counter < 2 := by
          simp [eventRead, eventWrite] at hcounter
          omega
        rw [lastWrite_counter_of_reachable hdense hcomplete hslot (hreachable slot hslot) hlt]
        rcases (by omega : counter = 0 ∨ counter = 1) with rfl | rfl <;> rfl

/-- The control register of the first counter cannot be mapped. Nothing is programmed, the
initialisation succeeds, and the counter is summed. -/
theorem unprogrammed_counter_is_read :
    ¬ ∀ (o : Outcomes) (discovered : Option ImcBoxes), (initGUncorePmus o discovered).2 = .ok →
      ProgramsWhatIsRead (initGUncorePmus o discovered).1 := by
  intro hall
  have hslots := (hall
    ⟨fun _ => true, fun _ r => r != 0, fun _ _ => true, fun _ => true, fun _ => true, fun _ => true⟩
    (some ⟨1, fun _ => .mmio, fun _ => 4, fun _ => 0x22800, fun _ r => 0x22840 + BitVec.ofNat 64 (4 * r),
      fun _ r => 0x22808 + BitVec.ofNat 64 (8 * r)⟩) (by decide)).slots
  exact absurd (hslots 0 (by decide)).read (by decide)

end ImcRegisters
