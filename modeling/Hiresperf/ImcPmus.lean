import Hiresperf.UncoreDiscovery
import Mathlib.Data.List.Basic

/-!
# The PMUs of the memory controllers

`uncore_pmu.c`: `init_g_uncore_pmus` stores a PMU in the slot of its box's
position and counts the stores; everything later goes through the first
`num_imcs` slots. What the discovery reports of the boxes, which registers can be
mapped and which PMUs can be allocated are inputs.
-/

namespace ImcPmus

open UncoreDiscovery

def maxImcPmus : Nat := 32
def maxHwRegsPerImcPmu : Nat := 16
def socketId : Nat := 0
def eventRead : Nat := 0
def eventWrite : Nat := 1

/-- What the accessors report for the boxes of type `SPR_IMC_BOX_TYPE`, by position. -/
structure ImcBoxes where
  numBoxes : Nat
  accessType : Nat → AccessType
  numRegs : Nat → Nat
  ctlAddr : Nat → BitVec 64
  ctlAddrWithCounter : Nat → Nat → BitVec 64
  ctrAddr : Nat → Nat → BitVec 64

/-- Which registers of a box can be mapped, and whether its PMU can be allocated. -/
structure Outcomes where
  unitCtrl : Nat → Bool
  counterCtrl : Nat → Nat → Bool
  counterVal : Nat → Nat → Bool
  fixedCtrl : Nat → Bool
  fixedVal : Nat → Bool
  kzalloc : Nat → Bool

/-- A register that is mapped. -/
structure HwReg where
  addr : BitVec 64
  bits : Nat
  deriving DecidableEq

/-- `filter` is left out: both pointers are always NULL. -/
structure UncorePmu where
  unitCtrl : Option HwReg
  counterCtrl : Nat → Option HwReg
  counterVal : Nat → Option HwReg
  fixedCounterCtrl : Option HwReg
  fixedCounterVal : Option HwReg

/-- `outOfBounds` records a store outside the `maxImcPmus` slots. -/
structure UncorePmus where
  imcs : Nat → Option UncorePmu
  numImcs : Nat
  outOfBounds : Bool

variable (boxes : ImcBoxes) (o : Outcomes)

def makeRegister (mapped : Bool) (addr : BitVec 64) (bits : Nat) : Option HwReg :=
  if mapped then some ⟨addr, bits⟩ else none

/-- What `uncore_pmu_create` builds for a box. Only the first `n_regs` registers are made. -/
def pmuOfBox (pos : Nat) : UncorePmu where
  unitCtrl := makeRegister (o.unitCtrl pos) (boxes.ctlAddr pos) 32
  counterCtrl r :=
    if r < boxes.numRegs pos then
      makeRegister (o.counterCtrl pos r) (boxes.ctlAddrWithCounter pos r) 32
    else none
  counterVal r :=
    if r < boxes.numRegs pos then makeRegister (o.counterVal pos r) (boxes.ctrAddr pos r) 64
    else none
  fixedCounterCtrl := makeRegister (o.fixedCtrl pos) (boxes.ctlAddr pos + 0x54) 32
  fixedCounterVal := makeRegister (o.fixedVal pos) (boxes.ctlAddr pos + 0x38) 64

def uncorePmuCreate (pos : Nat) : Option UncorePmu :=
  if o.kzalloc pos then some (pmuOfBox boxes o pos) else none

/-- `imcs[pos] = pmu`. -/
def UncorePmus.store (s : UncorePmus) (pos : Nat) (pmu : Option UncorePmu) : UncorePmus :=
  if pos < maxImcPmus then { s with imcs := Function.update s.imcs pos pmu }
  else { s with outOfBounds := true }

def isMmio (pos : Nat) : Bool := boxes.accessType pos == .mmio

def tooManyRegs (pos : Nat) : Bool :=
  isMmio boxes pos && decide (maxHwRegsPerImcPmu < boxes.numRegs pos)

/-- The body for a box that does not end the loop. The count grows whether or not the PMU
could be allocated. -/
def initBox (s : UncorePmus) (pos : Nat) : UncorePmus :=
  if isMmio boxes pos && o.unitCtrl pos then
    let stored := s.store pos (uncorePmuCreate boxes o pos)
    { stored with numImcs := stored.numImcs + 1 }
  else s

/-- The loop, and whether it ended early with `-EINVAL`. -/
def initBoxes : List Nat → UncorePmus → UncorePmus × Bool
  | [], s => (s, false)
  | pos :: rest, s =>
    if tooManyRegs boxes pos then (s, true) else initBoxes rest (initBox boxes o s pos)

/-! ## Programming the counters -/

abbrev RegWrite := HwReg × BitVec 64

inductive InitResult where
  | ok
  | einval
  | nullDereference
  deriving DecidableEq

def sprUnitCtlFrz : BitVec 64 := 1 <<< 0
def sprUnitCtlRstControl : BitVec 64 := 1 <<< 8
def sprUnitCtlRstCounters : BitVec 64 := 1 <<< 9
def fixedCtlRst : BitVec 64 := 1 <<< 19
def fixedCtlEn : BitVec 64 := 1 <<< 22

/-- `mccnt_conf`: CAS reads, CAS writes, PMM reads, PMM writes. -/
def mccntConf : List (BitVec 64) := [0x05 + (0xcf <<< 8), 0x05 + (0xf0 <<< 8), 0xe3, 0xe7]

/-- `uncore_pmu_get_size`: the counters before the first one that is missing. -/
def uncorePmuGetSize (pmu : UncorePmu) : Nat :=
  ((List.range maxHwRegsPerImcPmu).takeWhile fun i => (pmu.counterCtrl i).isSome).length

def programCounters (pmu : UncorePmu) : List RegWrite :=
  (List.range (min (uncorePmuGetSize pmu) mccntConf.length)).filterMap fun i =>
    (pmu.counterCtrl i).map fun reg => (reg, mccntConf.getD i 0)

/-- One turn of `program_imc`. -/
def programPmu (pmu : UncorePmu) : Bool × List RegWrite :=
  match pmu.unitCtrl with
  | none => (false, [])
  | some unit =>
    let freeze := [(unit, sprUnitCtlFrz), (unit, sprUnitCtlFrz + sprUnitCtlRstControl)]
    match pmu.fixedCounterCtrl with
    | none => (false, freeze)
    | some fixed =>
      (true, freeze ++ [(fixed, fixedCtlEn), (fixed, fixedCtlEn + fixedCtlRst)] ++
        programCounters pmu ++
        [(unit, sprUnitCtlFrz + sprUnitCtlRstCounters), (unit, 0)])

def programImcs (s : UncorePmus) : List Nat → InitResult × List RegWrite
  | [] => (.ok, [])
  | i :: rest =>
    match s.imcs i with
    | none => (.nullDereference, [])
    | some pmu =>
      let (ok, writes) := programPmu pmu
      if ok then
        let (result, later) := programImcs s rest
        (result, writes ++ later)
      else (.einval, writes)

def programImc (s : UncorePmus) : InitResult × List RegWrite :=
  programImcs s (List.range s.numImcs)

/-- There are no boxes if the discovery object could not be created. -/
def initGUncorePmus (discovered : Option ImcBoxes) : UncorePmus × InitResult :=
  let empty : UncorePmus := ⟨fun _ => none, 0, false⟩
  match discovered with
  | none => (empty, .einval)
  | some boxes =>
    match initBoxes boxes o (List.range boxes.numBoxes) empty with
    | (s, true) => (s, .einval)
    | (s, false) => (s, (programImc s).1)

/-! ## The operations on the slots -/

/-- `uncore_pmu_freeze` or `uncore_pmu_unfreeze` with the value it writes; `none` where the
source dereferences NULL. -/
def writeUnitCtrl (value : BitVec 64) : Option UncorePmu → Option (List RegWrite)
  | none => none
  | some pmu => some (pmu.unitCtrl.toList.map fun reg => (reg, value))

def writeAllUnitCtrls (value : BitVec 64) (s : UncorePmus) : Option (List RegWrite) :=
  ((List.range s.numImcs).mapM fun i => writeUnitCtrl value (s.imcs i)).map List.flatten

def freezeAllCounters (s : UncorePmus) : Option (List RegWrite) :=
  writeAllUnitCtrls sprUnitCtlFrz s

def unfreezeAllCounters (s : UncorePmus) : Option (List RegWrite) := writeAllUnitCtrls 0 s

/-- A counter of a PMU; a register that could not be mapped counts nothing. -/
def counterValue (read : HwReg → BitVec 64) (pmu : UncorePmu) (counter : Nat) : BitVec 64 :=
  match pmu.counterVal counter with
  | some reg => read reg
  | none => 0

def getMcCounter (read : HwReg → BitVec 64) (s : UncorePmus) (channel counter : Nat) : BitVec 64 :=
  if channel ≥ maxImcPmus ∨ counter ≥ 4 then 0
  else
    match s.imcs channel with
    | none => 0
    | some pmu => counterValue read pmu counter

def sumOverImcs (read : HwReg → BitVec 64) (s : UncorePmus) (counter : Nat) : BitVec 64 :=
  (List.range s.numImcs).foldl (fun total i => total + getMcCounter read s i counter) 0

def getImcReads (read : HwReg → BitVec 64) (s : UncorePmus) : BitVec 64 :=
  sumOverImcs read s eventRead

def getImcWrites (read : HwReg → BitVec 64) (s : UncorePmus) : BitVec 64 :=
  sumOverImcs read s eventWrite

/-- One turn of the loop of `destroy_g_uncore_pmus`, with the PMUs released so far. -/
def destroySlot (acc : List UncorePmu × UncorePmus) (i : Nat) : List UncorePmu × UncorePmus :=
  match acc.2.imcs i with
  | some pmu => (acc.1 ++ [pmu], { acc.2 with imcs := Function.update acc.2.imcs i none })
  | none => acc

def destroyGUncorePmus (s : UncorePmus) : List UncorePmu × UncorePmus :=
  let destroyed := (List.range s.numImcs).foldl destroySlot ([], s)
  (destroyed.1, { destroyed.2 with numImcs := 0 })

/-! ## Agreement of the slots and the count -/

/-- The positions that the loop gets to. -/
def processed : List Nat :=
  (List.range boxes.numBoxes).takeWhile fun pos => !tooManyRegs boxes pos

/-- A box for which the loop stores something: it is accessed by MMIO and its control register
was mapped. -/
def attempted (pos : Nat) : Bool := isMmio boxes pos && o.unitCtrl pos

/-- The PMUs there should be, one for each box that was attempted and could be allocated. -/
def installedPmus : Option ImcBoxes → List UncorePmu
  | none => []
  | some boxes =>
    ((processed boxes).filter fun pos => attempted boxes o pos && o.kzalloc pos).map
      (pmuOfBox boxes o)

/-- The array and the count agree, and what the later operations rely on follows. -/
structure Agrees (discovered : Option ImcBoxes) : Prop where
  inSlots : (initGUncorePmus o discovered).1.outOfBounds = false
  dense : ∀ i, i < (initGUncorePmus o discovered).1.numImcs ↔
    i < maxImcPmus ∧ ((initGUncorePmus o discovered).1.imcs i).isSome = true
  perBox : (List.range (initGUncorePmus o discovered).1.numImcs).map
      (initGUncorePmus o discovered).1.imcs = (installedPmus o discovered).map some
  freeze : (freezeAllCounters (initGUncorePmus o discovered).1).isSome = true
  unfreeze : (unfreezeAllCounters (initGUncorePmus o discovered).1).isSome = true
  reads : ∀ read, getImcReads read (initGUncorePmus o discovered).1 =
    ((installedPmus o discovered).map fun pmu => counterValue read pmu eventRead).sum
  writes : ∀ read, getImcWrites read (initGUncorePmus o discovered).1 =
    ((installedPmus o discovered).map fun pmu => counterValue read pmu eventWrite).sum
  released : (destroyGUncorePmus (initGUncorePmus o discovered).1).1 = installedPmus o discovered
  cleared : ∀ i, (destroyGUncorePmus (initGUncorePmus o discovered).1).2.imcs i = none

/-- The boxes attempted come first, there is a slot for each, and each PMU can be allocated. -/
def AttemptedFirst : Option ImcBoxes → Prop
  | none => True
  | some boxes => ∃ k, k ≤ maxImcPmus ∧ (processed boxes).filter (attempted boxes o) = List.range k ∧
      ∀ pos, pos < k → o.kzalloc pos = true

variable {boxes o}

theorem processed_eq_range : processed boxes = List.range (processed boxes).length := by
  have hpre := List.takeWhile_prefix (l := List.range boxes.numBoxes)
    fun pos => !tooManyRegs boxes pos
  rw [List.prefix_iff_eq_take, List.take_range] at hpre
  have hlen := congrArg List.length hpre
  rw [List.length_range] at hlen
  unfold processed
  rw [hlen]
  exact hpre

theorem initBoxes_eq (positions : List Nat) (s : UncorePmus) :
    (initBoxes boxes o positions s).1 =
      (positions.takeWhile fun pos => !tooManyRegs boxes pos).foldl (initBox boxes o) s := by
  induction positions generalizing s with
  | nil => rfl
  | cons pos rest ih =>
    unfold initBoxes
    split_ifs with hexit
    · simp [hexit]
    · simp [hexit, ih]

/-- The state after the boxes below `turn`. -/
structure Filled (boxes : ImcBoxes) (o : Outcomes) (turn : Nat) (s : UncorePmus) : Prop where
  slot : ∀ i, s.imcs i =
    if i < turn ∧ i < maxImcPmus ∧ attempted boxes o i = true then uncorePmuCreate boxes o i
    else none
  count : s.numImcs = ((List.range turn).filter (attempted boxes o)).length
  overflow : s.outOfBounds = true ↔ ∃ i, i < turn ∧ attempted boxes o i = true ∧ maxImcPmus ≤ i

theorem length_filter_range_succ (f : Nat → Bool) (turn : Nat) :
    ((List.range (turn + 1)).filter f).length =
      ((List.range turn).filter f).length + if f turn = true then 1 else 0 := by
  rw [List.range_succ, List.filter_append, List.length_append]
  by_cases hturn : f turn = true <;> simp [hturn]

/-- A turn that comes to the store, also when nothing could be allocated. -/
theorem initBox_attempted {turn : Nat} {s : UncorePmus} (h : Filled boxes o turn s)
    (hattempted : attempted boxes o turn = true) :
    Filled boxes o (turn + 1) (initBox boxes o s turn) := by
  have hslot := h.slot
  have hinit : initBox boxes o s turn =
      { s.store turn (uncorePmuCreate boxes o turn) with numImcs := s.numImcs + 1 } := by
    unfold initBox UncorePmus.store
    rw [← attempted, if_pos hattempted]
    split_ifs <;> rfl
  rw [hinit]
  constructor
  case count => simp [length_filter_range_succ, hattempted, h.count]
  case slot =>
    intro i
    unfold UncorePmus.store
    split_ifs with hroom hi hi
    · rcases Nat.lt_succ_iff_lt_or_eq.mp hi.1 with hlt | rfl
      · have hne : i ≠ turn := by omega
        simp [hne, hslot i, hlt, hi.2]
      · simp
    · have hne : i ≠ turn := by
        rintro rfl
        exact hi ⟨by omega, hroom, hattempted⟩
      have hold : ¬ (i < turn ∧ i < maxImcPmus ∧ attempted boxes o i = true) :=
        fun hold => hi ⟨by omega, hold.2⟩
      simp [hne, hslot i, hold]
    · have hlt : i < turn := by omega
      simp [hslot i, hlt, hi.2]
    · have hold : ¬ (i < turn ∧ i < maxImcPmus ∧ attempted boxes o i = true) :=
        fun hold => hi ⟨by omega, hold.2⟩
      simp [hslot i, hold]
  case overflow =>
    unfold UncorePmus.store
    split_ifs with hroom
    · refine h.overflow.trans ⟨?_, ?_⟩
      · rintro ⟨i, hi, hrest⟩
        exact ⟨i, by omega, hrest⟩
      · rintro ⟨i, hi, ha, hge⟩
        exact ⟨i, by omega, ha, hge⟩
    · exact ⟨fun _ => ⟨turn, by omega, hattempted, by omega⟩, fun _ => rfl⟩

/-- A turn that leaves the box out. -/
theorem initBox_skipped {turn : Nat} {s : UncorePmus} (h : Filled boxes o turn s)
    (hskipped : attempted boxes o turn ≠ true) :
    Filled boxes o (turn + 1) (initBox boxes o s turn) := by
  have hinit : initBox boxes o s turn = s := by
    unfold initBox
    rw [← attempted, if_neg hskipped]
  have hbelow : ∀ i, i < turn + 1 → attempted boxes o i = true → i < turn := by
    intro i hi ha
    rcases Nat.lt_succ_iff_lt_or_eq.mp hi with hlt | rfl
    · exact hlt
    · exact absurd ha hskipped
  rw [hinit]
  constructor
  case count => simp [length_filter_range_succ, hskipped, h.count]
  case slot =>
    intro i
    rw [h.slot i]
    have hiff : (i < turn ∧ i < maxImcPmus ∧ attempted boxes o i = true) ↔
        (i < turn + 1 ∧ i < maxImcPmus ∧ attempted boxes o i = true) :=
      ⟨fun hold => ⟨by omega, hold.2⟩, fun hnew => ⟨hbelow i hnew.1 hnew.2.2, hnew.2⟩⟩
    simp only [hiff]
  case overflow =>
    refine h.overflow.trans ⟨?_, ?_⟩
    · rintro ⟨i, hi, hrest⟩
      exact ⟨i, by omega, hrest⟩
    · rintro ⟨i, hi, ha, hge⟩
      exact ⟨i, hbelow i hi ha, ha, hge⟩

theorem initBox_filled {turn : Nat} {s : UncorePmus} (h : Filled boxes o turn s) :
    Filled boxes o (turn + 1) (initBox boxes o s turn) := by
  by_cases hattempted : attempted boxes o turn = true
  · exact initBox_attempted h hattempted
  · exact initBox_skipped h hattempted

/-- The state that `init_g_uncore_pmus` leaves, in closed form. -/
theorem initGUncorePmus_filled (boxes : ImcBoxes) (o : Outcomes) :
    Filled boxes o (processed boxes).length (initGUncorePmus o (some boxes)).1 := by
  have hstate : (initGUncorePmus o (some boxes)).1 =
      (List.range (processed boxes).length).foldl (initBox boxes o) ⟨fun _ => none, 0, false⟩ := by
    rw [← processed_eq_range, processed, ← initBoxes_eq]
    dsimp only [initGUncorePmus]
    generalize initBoxes boxes o (List.range boxes.numBoxes) ⟨fun _ => none, 0, false⟩ = result
    obtain ⟨s, exit⟩ := result
    cases exit <;> rfl
  rw [hstate]
  refine Loops.foldl_range_invariant ⟨by simp, by simp, by simp⟩ ?_
  intro turn s _ hs
  exact initBox_filled hs

/-! ## A dense prefix is enough for the operations -/

/-- The first `k` slots hold the PMUs `pmu 0`, ..., `pmu (k - 1)` and the others are NULL. -/
structure DensePrefix (pmu : Nat → UncorePmu) (k : Nat) (s : UncorePmus) : Prop where
  count : s.numImcs = k
  bound : k ≤ maxImcPmus
  slot : ∀ i, s.imcs i = if i < k then some (pmu i) else none

variable {pmu : Nat → UncorePmu} {k : Nat} {s : UncorePmus}

theorem DensePrefix.slots (h : DensePrefix pmu k s) :
    (List.range s.numImcs).map s.imcs = ((List.range k).map pmu).map some := by
  rw [h.count, List.map_map]
  apply List.map_congr_left
  intro i hi
  simp [h.slot i, List.mem_range.mp hi]

theorem DensePrefix.dense (h : DensePrefix pmu k s) (i : Nat) :
    i < s.numImcs ↔ i < maxImcPmus ∧ (s.imcs i).isSome = true := by
  have hbound := h.bound
  rw [h.count, h.slot i]
  constructor
  · intro hi
    exact ⟨by omega, by simp [hi]⟩
  · rintro ⟨-, hi⟩
    by_contra hge
    simp [hge] at hi

theorem mapM_writeUnitCtrl_isSome {value : BitVec 64} {slots : List Nat}
    (h : ∀ i ∈ slots, (s.imcs i).isSome = true) :
    (slots.mapM fun i => writeUnitCtrl value (s.imcs i)).isSome = true := by
  induction slots with
  | nil => rfl
  | cons i rest ih =>
    obtain ⟨first, hfirst⟩ := Option.isSome_iff_exists.mp (h i List.mem_cons_self)
    obtain ⟨later, hlater⟩ := Option.isSome_iff_exists.mp
      (ih fun j hj => h j (List.mem_cons_of_mem _ hj))
    have hwrite : writeUnitCtrl value (s.imcs i) =
        some (first.unitCtrl.toList.map fun reg => (reg, value)) := by
      rw [hfirst]
      rfl
    simp [List.mapM_cons, hwrite, hlater]

theorem DensePrefix.writeAllUnitCtrls (h : DensePrefix pmu k s) (value : BitVec 64) :
    (writeAllUnitCtrls value s).isSome = true := by
  rw [ImcPmus.writeAllUnitCtrls, Option.isSome_map]
  apply mapM_writeUnitCtrl_isSome
  intro i hi
  exact ((h.dense i).mp (List.mem_range.mp hi)).2

theorem DensePrefix.sumOverImcs (h : DensePrefix pmu k s) (read : HwReg → BitVec 64) {counter : Nat}
    (hcounter : counter < 4) : sumOverImcs read s counter =
      (((List.range k).map pmu).map fun p => counterValue read p counter).sum := by
  rw [ImcPmus.sumOverImcs, List.sum_eq_foldl, List.map_map, List.foldl_map, h.count]
  apply List.foldl_ext
  intro total i hi
  have hlt := List.mem_range.mp hi
  have hbound := h.bound
  have hrange : ¬ (i ≥ maxImcPmus ∨ counter ≥ 4) := by omega
  simp [getMcCounter, hrange, h.slot i, hlt]

theorem DensePrefix.destroyed (h : DensePrefix pmu k s) :
    (destroyGUncorePmus s).1 = (List.range k).map pmu ∧
      ∀ i, (destroyGUncorePmus s).2.imcs i = none := by
  -- after `turn` slots the first `turn` PMUs are released
  have hloop : ((List.range k).foldl destroySlot ([], s)).1 = (List.range k).map pmu ∧
      ∀ i, ((List.range k).foldl destroySlot ([], s)).2.imcs i =
        if k ≤ i ∧ i < k then some (pmu i) else none := by
    apply Loops.foldl_range_invariant (I := fun turn (acc : List UncorePmu × UncorePmus) =>
      acc.1 = (List.range turn).map pmu ∧
        ∀ i, acc.2.imcs i = if turn ≤ i ∧ i < k then some (pmu i) else none)
    · exact ⟨rfl, fun i => by simpa using h.slot i⟩
    · rintro turn acc hturn ⟨hreleased, hslot⟩
      have hcurrent : acc.2.imcs turn = some (pmu turn) := by simp [hslot turn, hturn]
      simp only [destroySlot, hcurrent]
      refine ⟨by rw [hreleased, List.range_succ, List.map_append, List.map_singleton], ?_⟩
      intro i
      by_cases hi : i = turn
      · subst hi
        simp
      · rw [Function.update_of_ne hi, hslot i]
        have hiff : turn ≤ i ∧ i < k ↔ turn + 1 ≤ i ∧ i < k := by omega
        simp only [hiff]
  rw [destroyGUncorePmus, h.count]
  refine ⟨hloop.1, ?_⟩
  intro i
  have hempty : ¬ (k ≤ i ∧ i < k) := by omega
  exact (hloop.2 i).trans (if_neg hempty)

/-! ## Exactly when they agree -/

theorem agrees_of_densePrefix {discovered : Option ImcBoxes}
    (h : DensePrefix pmu k (initGUncorePmus o discovered).1)
    (hinstalled : installedPmus o discovered = (List.range k).map pmu)
    (hslots : (initGUncorePmus o discovered).1.outOfBounds = false) : Agrees o discovered where
  inSlots := hslots
  dense := h.dense
  perBox := by rw [hinstalled, h.slots]
  freeze := h.writeAllUnitCtrls sprUnitCtlFrz
  unfreeze := h.writeAllUnitCtrls 0
  reads read := by
    rw [hinstalled]
    exact h.sumOverImcs read (by decide)
  writes read := by
    rw [hinstalled]
    exact h.sumOverImcs read (by decide)
  released := by rw [hinstalled, h.destroyed.1]
  cleared := h.destroyed.2

theorem lt_iff_attempted {boxes : ImcBoxes} {k : Nat}
    (hfirst : (processed boxes).filter (attempted boxes o) = List.range k) (i : Nat) :
    i < (processed boxes).length ∧ attempted boxes o i = true ↔ i < k := by
  have hboth : i ∈ (processed boxes).filter (attempted boxes o) ↔ i ∈ List.range k := by
    rw [hfirst]
  rw [List.mem_filter, processed_eq_range, List.mem_range, List.mem_range] at hboth
  exact hboth

theorem densePrefix_of_attemptedFirst {boxes : ImcBoxes} {k : Nat} (hk : k ≤ maxImcPmus)
    (hfirst : (processed boxes).filter (attempted boxes o) = List.range k)
    (halloc : ∀ pos, pos < k → o.kzalloc pos = true) :
    DensePrefix (pmuOfBox boxes o) k (initGUncorePmus o (some boxes)).1 := by
  have hfilled := initGUncorePmus_filled boxes o
  have hmem := lt_iff_attempted hfirst
  refine ⟨?_, hk, ?_⟩
  · rw [hfilled.count, ← processed_eq_range, hfirst, List.length_range]
  · intro i
    rw [hfilled.slot i]
    by_cases hi : i < k
    · obtain ⟨hlt, ha⟩ := (hmem i).mpr hi
      rw [if_pos ⟨hlt, by omega, ha⟩, if_pos hi, uncorePmuCreate, if_pos (halloc i hi)]
    · rw [if_neg hi, if_neg fun hslot => hi ((hmem i).mp ⟨hslot.1, hslot.2.2⟩)]

theorem agrees_of_attemptedFirst {discovered : Option ImcBoxes} (h : AttemptedFirst o discovered) :
    Agrees o discovered := by
  cases discovered with
  | none =>
    have hempty : DensePrefix (fun _ => ⟨none, fun _ => none, fun _ => none, none, none⟩) 0
        (initGUncorePmus o none).1 := ⟨rfl, Nat.zero_le _, fun _ => rfl⟩
    exact agrees_of_densePrefix hempty rfl rfl
  | some boxes =>
    obtain ⟨k, hk, hfirst, halloc⟩ := h
    apply agrees_of_densePrefix (densePrefix_of_attemptedFirst hk hfirst halloc)
    · have hall : ((processed boxes).filter fun pos => attempted boxes o pos && o.kzalloc pos) =
          List.range k := by
        simp only [Bool.and_comm (attempted boxes o _), ← List.filter_filter, hfirst]
        rw [List.filter_eq_self]
        exact fun i hi => halloc i (List.mem_range.mp hi)
      rw [installedPmus, hall]
    · rw [← Bool.not_eq_true, (initGUncorePmus_filled boxes o).overflow]
      rintro ⟨i, hlt, ha, hge⟩
      have hi := (lt_iff_attempted hfirst i).mp ⟨hlt, ha⟩
      omega

/-- If every slot that is counted holds a PMU, there is no gap between the boxes attempted. -/
theorem attemptedFirst_of_slots {boxes : ImcBoxes}
    (h : ∀ i, i < (initGUncorePmus o (some boxes)).1.numImcs →
      ((initGUncorePmus o (some boxes)).1.imcs i).isSome = true) :
    AttemptedFirst o (some boxes) := by
  have hfilled := initGUncorePmus_filled boxes o
  have hcount := hfilled.count
  rw [← processed_eq_range] at hcount
  -- every slot below the count belongs to a box that was attempted and allocated
  have hbelow : ∀ i, i < (initGUncorePmus o (some boxes)).1.numImcs →
      i ∈ (processed boxes).filter (attempted boxes o) ∧ i < maxImcPmus ∧ o.kzalloc i = true := by
    intro i hi
    have hsome := h i hi
    rw [hfilled.slot i] at hsome
    split_ifs at hsome with hattempted
    · have halloc : o.kzalloc i = true := by
        unfold uncorePmuCreate at hsome
        split_ifs at hsome with halloc
        · exact halloc
        · cases hsome
      refine ⟨?_, hattempted.2.1, halloc⟩
      rw [List.mem_filter, processed_eq_range, List.mem_range]
      exact ⟨hattempted.1, hattempted.2.2⟩
    · cases hsome
  generalize (initGUncorePmus o (some boxes)).1.numImcs = k at hcount hbelow
  have hsorted : ((processed boxes).filter (attempted boxes o)).Pairwise (· < ·) := by
    rw [processed_eq_range]
    exact List.pairwise_lt_range.filter _
  have hsub : List.range k ⊆ (processed boxes).filter (attempted boxes o) :=
    fun i hi => (hbelow i (List.mem_range.mp hi)).1
  -- as many numbers as there are boxes attempted, so these are all of them
  have hperm : (List.range k).Perm ((processed boxes).filter (attempted boxes o)) :=
    (List.subperm_of_subset List.nodup_range hsub).perm_of_length_le
      (by rw [List.length_range, hcount])
  have heq : (processed boxes).filter (attempted boxes o) = List.range k :=
    hperm.symm.eq_of_pairwise (fun a b _ _ hab hba => by omega) hsorted List.pairwise_lt_range
  refine ⟨k, ?_, heq, fun pos hpos => (hbelow pos hpos).2.2⟩
  by_contra hk
  have hlast := (hbelow maxImcPmus (by omega)).2.1
  omega

/-- Slots that are dense leave no gap between the boxes attempted. -/
theorem attemptedFirst_of_agrees {discovered : Option ImcBoxes} (h : Agrees o discovered) :
    AttemptedFirst o discovered := by
  cases discovered with
  | none => trivial
  | some boxes => exact attemptedFirst_of_slots fun i hi => ((h.dense i).mp hi).2

/-- The slots and the count agree exactly if the boxes attempted are the first ones, at most
as many as there are slots, and all their PMUs could be allocated. -/
theorem agrees_iff (o : Outcomes) (discovered : Option ImcBoxes) :
    Agrees o discovered ↔ AttemptedFirst o discovered :=
  ⟨attemptedFirst_of_agrees, agrees_of_attemptedFirst⟩

/-- Of two boxes the control register of box 0 cannot be mapped. The only PMU is in slot 1, and
`freeze_all_counters` reads slot 0. -/
theorem freeze_reads_empty_slot : ¬ Agrees
    ⟨fun pos => pos != 0, fun _ _ => true, fun _ _ => true, fun _ => true, fun _ => true,
      fun _ => true⟩
    (some ⟨2, fun _ => .mmio, fun _ => 4, fun _ => 0x2000, fun _ _ => 0x2008,
      fun _ _ => 0x2010⟩) := by
  intro h
  exact absurd h.freeze (by decide)

/-! ## The boxes that the discovery reports -/

/-- What `init_g_uncore_pmus` finds in the discovery object. -/
def imcBoxesOf (d : Discovery) : ImcBoxes where
  numBoxes := getNumBoxes d sprImcBoxType socketId
  accessType pos := (getBoxAccessType d sprImcBoxType socketId pos).getD .unknown
  numRegs pos := (getBoxNumRegs d sprImcBoxType socketId pos).getD 0
  ctlAddr pos := (getBoxCtlAddr d sprImcBoxType socketId pos).getD 0
  ctlAddrWithCounter pos r := (getBoxCtlAddrWithCounter d sprImcBoxType socketId pos r).getD 0
  ctrAddr pos r := (getBoxCtrAddr d sprImcBoxType socketId pos r).getD 0

/-- No default is used as long as the lists are within their arrays. -/
theorem imcBoxesOf_accessors {d : Discovery} (h : WithinAllocations d) (pos r : Nat) :
    getBoxAccessType d sprImcBoxType socketId pos = some ((imcBoxesOf d).accessType pos) ∧
    getBoxNumRegs d sprImcBoxType socketId pos = some ((imcBoxesOf d).numRegs pos) ∧
    getBoxCtlAddr d sprImcBoxType socketId pos = some ((imcBoxesOf d).ctlAddr pos) ∧
    getBoxCtlAddrWithCounter d sprImcBoxType socketId pos r =
      some ((imcBoxesOf d).ctlAddrWithCounter pos r) ∧
    getBoxCtrAddr d sprImcBoxType socketId pos r = some ((imcBoxesOf d).ctrAddr pos r) := by
  have hbounds := h.accessesInBounds
  have hsome : ∀ {α : Type} {x : Option α} (y : α), x.isSome = true → x = some (x.getD y) := by
    intro α x y hx
    obtain ⟨v, rfl⟩ := Option.isSome_iff_exists.mp hx
    rfl
  exact ⟨hsome _ (hbounds.boxAccessType _ _ _), hsome _ (hbounds.numRegs _ _ _),
    hsome _ (hbounds.ctlAddr _ _ _), hsome _ (hbounds.ctlAddrWithCounter _ _ _ _),
    hsome _ (hbounds.ctrAddr _ _ _ _)⟩

end ImcPmus
