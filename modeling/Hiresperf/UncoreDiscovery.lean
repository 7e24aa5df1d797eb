import Hiresperf.Foundation.Loops
import Hiresperf.Foundation.StepMachine
import Mathlib.Data.BitVec

/-!
# Discovery of the uncore units

`uncore_pmu_discovery.c`: each callback reads the discovery table of a socket
twice, first to count the boxes of each type and then to copy them into arrays of
these sizes. What the device answers to each read, and which allocations succeed,
is part of the callback. An access outside an array gives `none`.
-/

namespace UncoreDiscovery

open StepMachine

def maxBoxTypes : Nat := 32

def sprImcBoxType : Nat := 6

/-- The three words of a record, as `struct global_pmu` or as `struct box_pmu`. -/
structure Table where
  word0 : BitVec 64
  word1 : BitVec 64
  word2 : BitVec 64
  deriving DecidableEq

namespace Table

def stride (t : Table) : Nat := (t.word0.extractLsb 15 8).toNat
def maxUnits (t : Table) : Nat := (t.word0.extractLsb 25 16).toNat

def numRegs (t : Table) : Nat := (t.word0.extractLsb 7 0).toNat
def ctrlOffset (t : Table) : Nat := (t.word0.extractLsb 15 8).toNat
def bitWidth (t : Table) : Nat := (t.word0.extractLsb 23 16).toNat
def ctrOffset (t : Table) : Nat := (t.word0.extractLsb 31 24).toNat
def accessType (t : Table) : BitVec 2 := t.word0.extractLsb 63 62
def boxCtrlAddr (t : Table) : BitVec 64 := t.word1
def boxType (t : Table) : Nat := (t.word2.extractLsb 15 0).toNat

def zero : Table := ⟨0, 0, 0⟩

end Table

/-- `enum access_type_enum`; a two-bit field has one more value than the enumeration. -/
inductive AccessType where
  | msr
  | mmio
  | pcicfg
  | reserved
  | unknown
  deriving DecidableEq

def AccessType.ofBits (b : BitVec 2) : AccessType :=
  match b.toNat with
  | 0 => .msr
  | 1 => .mmio
  | 2 => .pcicfg
  | _ => .reserved

structure BoxPmuList where
  pmus : Option (List Table)
  count : Nat
  deriving DecidableEq

/-- The number of elements of the array that `pmus` points to. -/
def BoxPmuList.allocated (l : BoxPmuList) : Nat :=
  match l.pmus with
  | some pmus => pmus.length
  | none => 0

/-- An element of the array, if there is one. -/
def BoxPmuList.element (l : BoxPmuList) (pos : Nat) : Option Table := l.pmus.bind (·[pos]?)

/-- `outOfBounds` records whether the filling pass has ever written outside an array. -/
structure Discovery where
  numSockets : Nat
  lists : Nat → Nat → BoxPmuList
  globalPmus : Nat → Table
  outOfBounds : Bool

def Discovery.setList (d : Discovery) (socket boxType : Nat) (l : BoxPmuList) : Discovery :=
  { d with lists := Function.update d.lists socket (Function.update (d.lists socket) boxType l) }

/-! ## The accessors -/

def validBox (d : Discovery) (socket boxType pos : Nat) : Bool :=
  if socket < d.numSockets ∧ boxType < maxBoxTypes then decide (pos < (d.lists socket boxType).count)
  else false

def getNumBoxes (d : Discovery) (boxType socket : Nat) : Nat :=
  if socket < d.numSockets ∧ boxType < maxBoxTypes then (d.lists socket boxType).count else 0

def stepOfWidth (pmu : Table) : Nat :=
  match AccessType.ofBits pmu.accessType with
  | .msr => if pmu.bitWidth ≤ 64 then 1 else 0
  | .pcicfg | .mmio =>
    if pmu.bitWidth ≤ 8 then 1
    else if pmu.bitWidth ≤ 16 then 2
    else if pmu.bitWidth ≤ 32 then 4
    else if pmu.bitWidth ≤ 64 then 8
    else 0
  | _ => 0

def registerStep (d : Discovery) (socket boxType pos : Nat) : Option Nat :=
  ((d.lists socket boxType).element pos).map stepOfWidth

def getBoxCtlAddr (d : Discovery) (boxType socket pos : Nat) : Option (BitVec 64) :=
  if validBox d socket boxType pos then
    ((d.lists socket boxType).element pos).map Table.boxCtrlAddr
  else some 0

def getBoxCtlAddrWithCounter (d : Discovery) (boxType socket pos c : Nat) : Option (BitVec 64) :=
  if validBox d socket boxType pos then do
    let pmu ← (d.lists socket boxType).element pos
    if c < pmu.numRegs then
      let step ← if boxType = sprImcBoxType then some 4 else registerStep d socket boxType pos
      some (pmu.boxCtrlAddr + BitVec.ofNat 64 pmu.ctrlOffset + BitVec.ofNat 64 (c * step))
    else some 0
  else some 0

def getBoxCtrAddr (d : Discovery) (boxType socket pos c : Nat) : Option (BitVec 64) :=
  if validBox d socket boxType pos then do
    let pmu ← (d.lists socket boxType).element pos
    if c < pmu.numRegs then
      let step ← registerStep d socket boxType pos
      some (pmu.boxCtrlAddr + BitVec.ofNat 64 pmu.ctrOffset + BitVec.ofNat 64 (c * step))
    else some 0
  else some 0

def getBoxAccessType (d : Discovery) (boxType socket pos : Nat) : Option AccessType :=
  if validBox d socket boxType pos then
    ((d.lists socket boxType).element pos).map fun pmu => .ofBits pmu.accessType
  else some .unknown

def getBoxNumRegs (d : Discovery) (boxType socket pos : Nat) : Option Nat :=
  if validBox d socket boxType pos then
    ((d.lists socket boxType).element pos).map Table.numRegs
  else some 0

/-! ## The callback -/

/-- One call. `mmioMemcpy n addr` is what the read number `n` of the call finds at `addr`,
`none` if it fails; `kcalloc t` says whether the array of type `t` can be allocated. -/
structure Callback where
  node : Int
  bar : BitVec 64
  mmioMemcpy : Nat → BitVec 64 → Option Table
  kcalloc : Nat → Bool

/-- The unit read by a turn of either pass, if it is a box of a known type. -/
def knownBox (read : Option Table) : Option Table :=
  read.filter fun unit =>
    !(unit.word0 == 0 && unit.word1 == 0) && decide (unit.boxType < maxBoxTypes)

def unitAddr (cb : Callback) (global : Table) (u : Nat) : BitVec 64 :=
  cb.bar + BitVec.ofNat 64 ((u + 1) * (global.stride * 8))

/-- The reads of the passes; read 0 is the one of the global record. -/
def firstPassUnit (cb : Callback) (global : Table) (u : Nat) : Option Table :=
  knownBox (cb.mmioMemcpy (1 + u) (unitAddr cb global u))

def secondPassUnit (cb : Callback) (global : Table) (u : Nat) : Option Table :=
  knownBox (cb.mmioMemcpy (1 + global.maxUnits + u) (unitAddr cb global u))

def countBox (cb : Callback) (global : Table) (counts : Nat → Nat) (u : Nat) : Nat → Nat :=
  match firstPassUnit cb global u with
  | some unit => Function.update counts unit.boxType (counts unit.boxType + 1)
  | none => counts

/-- First pass. -/
def countBoxes (cb : Callback) (global : Table) : Nat → Nat :=
  (List.range global.maxUnits).foldl (countBox cb global) (fun _ => 0)

/-- The allocation loop, and whether it came to its end. On failure the pointer is already
overwritten and the count is not. -/
def allocateLists (kcalloc : Nat → Bool) (counts : Nat → Nat) (socket : Nat) :
    List Nat → Discovery → Discovery × Bool
  | [], d => (d, true)
  | i :: rest, d =>
    if counts i > 0 then
      if kcalloc i then
        allocateLists kcalloc counts socket rest
          (d.setList socket i ⟨some (List.replicate (counts i) .zero), 0⟩)
      else (d.setList socket i { d.lists socket i with pmus := none }, false)
    else allocateLists kcalloc counts socket rest d

def fillBox (cb : Callback) (global : Table) (counts : Nat → Nat) (socket : Nat) (d : Discovery)
    (u : Nat) : Discovery :=
  match secondPassUnit cb global u with
  | none => d
  | some unit =>
    let list := d.lists socket unit.boxType
    match list.pmus with
    | none => d
    | some pmus =>
      if list.count < counts unit.boxType then
        { d.setList socket unit.boxType ⟨some (pmus.set list.count unit), list.count + 1⟩ with
          outOfBounds := d.outOfBounds || decide (pmus.length ≤ list.count) }
      else d

inductive TableResult where
  | ok
  | readFailed
  | enomem
  deriving DecidableEq

def processSocketDiscoveryTable (d : Discovery) (socket : Nat) (cb : Callback) :
    Discovery × TableResult :=
  match cb.mmioMemcpy 0 cb.bar with
  | none => (d, .readFailed)
  | some global =>
    let d := { d with globalPmus := Function.update d.globalPmus socket global }
    let counts := countBoxes cb global
    match allocateLists cb.kcalloc counts socket (List.range maxBoxTypes) d with
    | (d, false) => (d, .enomem)
    | (d, true) =>
      ((List.range global.maxUnits).foldl (fillBox cb global counts socket) d, .ok)

/-- A failure of the table is logged and otherwise ignored. -/
def processDvsecCallback (d : Discovery) (cb : Callback) : Discovery :=
  if cb.node < 0 ∨ cb.node ≥ d.numSockets then d
  else (processSocketDiscoveryTable d cb.node.toNat cb).1

/-- The object that `uncore_pmu_discovery_create` has before the first callback. -/
def uncorePmuDiscoveryCreate (numSockets : Nat) : Discovery where
  numSockets := numSockets
  lists := fun _ _ => ⟨none, 0⟩
  globalPmus := fun _ => .zero
  outOfBounds := false

def discovery (numSockets : Nat) : Machine Discovery Callback where
  init := uncorePmuDiscoveryCreate numSockets
  step d cb := some (processDvsecCallback d cb)

/-! ## What stays within its allocation -/

def BoxPmuList.Within (l : BoxPmuList) : Prop := l.count ≤ l.allocated

structure WithinAllocations (d : Discovery) : Prop where
  lists : ∀ socket boxType, (d.lists socket boxType).Within
  writes : d.outOfBounds = false

/-- No accessor reads outside an array. `register_step` has no check of its own and relies on
its callers. -/
structure AccessesInBounds (d : Discovery) : Prop where
  registerStep : ∀ socket boxType pos,
    validBox d socket boxType pos = true ∨ pos < getNumBoxes d boxType socket →
      (registerStep d socket boxType pos).isSome = true
  ctlAddr : ∀ boxType socket pos, (getBoxCtlAddr d boxType socket pos).isSome = true
  ctlAddrWithCounter : ∀ boxType socket pos c,
    (getBoxCtlAddrWithCounter d boxType socket pos c).isSome = true
  ctrAddr : ∀ boxType socket pos c, (getBoxCtrAddr d boxType socket pos c).isSome = true
  boxAccessType : ∀ boxType socket pos, (getBoxAccessType d boxType socket pos).isSome = true
  numRegs : ∀ boxType socket pos, (getBoxNumRegs d boxType socket pos).isSome = true

theorem BoxPmuList.element_isSome {l : BoxPmuList} {pos : Nat} :
    (l.element pos).isSome = true ↔ pos < l.allocated := by
  cases h : l.pmus <;> simp [BoxPmuList.element, BoxPmuList.allocated, h]

theorem WithinAllocations.element_of_validBox {d : Discovery} (h : WithinAllocations d)
    {socket boxType pos : Nat} (hvalid : validBox d socket boxType pos = true) :
    ∃ pmu, (d.lists socket boxType).element pos = some pmu := by
  have hcount : pos < (d.lists socket boxType).count := by
    unfold validBox at hvalid
    split_ifs at hvalid
    exact of_decide_eq_true hvalid
  have hwithin := h.lists socket boxType
  unfold BoxPmuList.Within at hwithin
  exact Option.isSome_iff_exists.mp (BoxPmuList.element_isSome.mpr (by omega))

theorem validBox_of_lt_getNumBoxes {d : Discovery} {socket boxType pos : Nat}
    (h : pos < getNumBoxes d boxType socket) : validBox d socket boxType pos = true := by
  unfold getNumBoxes at h
  unfold validBox
  split_ifs at h ⊢
  · exact decide_eq_true h
  · omega

theorem WithinAllocations.accessesInBounds {d : Discovery} (h : WithinAllocations d) :
    AccessesInBounds d := by
  -- a box that is not valid is never read
  have hcase : ∀ socket boxType pos, validBox d socket boxType pos = false ∨
      validBox d socket boxType pos = true ∧
        ∃ pmu, (d.lists socket boxType).element pos = some pmu := by
    intro socket boxType pos
    cases hvalid : validBox d socket boxType pos with
    | false => exact Or.inl rfl
    | true => exact Or.inr ⟨rfl, h.element_of_validBox hvalid⟩
  constructor
  case registerStep =>
    intro socket boxType pos hguard
    have hvalid := hguard.elim id validBox_of_lt_getNumBoxes
    obtain ⟨pmu, hpmu⟩ := h.element_of_validBox hvalid
    simp [UncoreDiscovery.registerStep, hpmu]
  case ctlAddr =>
    intro boxType socket pos
    rcases hcase socket boxType pos with hvalid | ⟨hvalid, pmu, hpmu⟩
    · simp [getBoxCtlAddr, hvalid]
    · simp [getBoxCtlAddr, hvalid, hpmu]
  case ctlAddrWithCounter =>
    intro boxType socket pos c
    rcases hcase socket boxType pos with hvalid | ⟨hvalid, pmu, hpmu⟩
    · simp [getBoxCtlAddrWithCounter, hvalid]
    · simp only [getBoxCtlAddrWithCounter, hvalid, hpmu, UncoreDiscovery.registerStep]
      by_cases hc : c < pmu.numRegs <;> by_cases himc : boxType = sprImcBoxType <;> simp [hc, himc]
  case ctrAddr =>
    intro boxType socket pos c
    rcases hcase socket boxType pos with hvalid | ⟨hvalid, pmu, hpmu⟩
    · simp [getBoxCtrAddr, hvalid]
    · by_cases hc : c < pmu.numRegs <;>
        simp [getBoxCtrAddr, UncoreDiscovery.registerStep, hvalid, hpmu, hc]
  case boxAccessType =>
    intro boxType socket pos
    rcases hcase socket boxType pos with hvalid | ⟨hvalid, pmu, hpmu⟩
    · simp [getBoxAccessType, hvalid]
    · simp [getBoxAccessType, hvalid, hpmu]
  case numRegs =>
    intro boxType socket pos
    rcases hcase socket boxType pos with hvalid | ⟨hvalid, pmu, hpmu⟩
    · simp [getBoxNumRegs, hvalid]
    · simp [getBoxNumRegs, hvalid, hpmu]

@[simp] theorem setList_lists (d : Discovery) (socket boxType : Nat) (l : BoxPmuList)
    (socket' boxType' : Nat) : (d.setList socket boxType l).lists socket' boxType' =
      if socket' = socket ∧ boxType' = boxType then l else d.lists socket' boxType' := by
  by_cases hs : socket' = socket
  · subst hs
    by_cases ht : boxType' = boxType <;> simp [Discovery.setList, ht]
  · simp [Discovery.setList, hs]

@[simp] theorem setList_outOfBounds (d : Discovery) (socket boxType : Nat) (l : BoxPmuList) :
    (d.setList socket boxType l).outOfBounds = d.outOfBounds := rfl

/-! ## The first pass -/

/-- Some unit of the first pass is a box of type `t`. -/
def foundInFirstPass (cb : Callback) (global : Table) (t : Nat) : Bool :=
  (List.range global.maxUnits).any fun u =>
    (firstPassUnit cb global u).any fun unit => unit.boxType == t

theorem countBoxes_pos_iff (cb : Callback) (global : Table) (t : Nat) :
    0 < countBoxes cb global t ↔ foundInFirstPass cb global t = true := by
  unfold countBoxes foundInFirstPass
  -- after `turn` units, a type has a count if one of them was a box of this type
  apply Loops.foldl_range_invariant (I := fun turn (counts : Nat → Nat) => 0 < counts t ↔
    (List.range turn).any (fun u =>
      (firstPassUnit cb global u).any fun unit => unit.boxType == t) = true)
  · simp
  · intro turn counts _ ih
    rw [List.range_succ, List.any_append, Bool.or_eq_true, ← ih]
    unfold countBox
    cases hunit : firstPassUnit cb global turn with
    | none => simp [hunit]
    | some unit =>
      by_cases ht : unit.boxType = t
      · subst ht
        simp [hunit]
      · simp [hunit, Function.update_of_ne (Ne.symm ht), ht]

/-! ## The allocation loop -/

variable {kcalloc : Nat → Bool} {counts : Nat → Nat} {socket : Nat}

/-- The types whose array cannot be allocated. -/
def allocationFails (kcalloc : Nat → Bool) (counts : Nat → Nat) (t : Nat) : Bool :=
  decide (0 < counts t) && !kcalloc t

theorem allocateLists_success (socket : Nat) {types : List Nat} (d : Discovery)
    (h : types.find? (allocationFails kcalloc counts) = none) :
    (allocateLists kcalloc counts socket types d).2 = true ∧
      (allocateLists kcalloc counts socket types d).1.outOfBounds = d.outOfBounds ∧
      ∀ socket' t, (allocateLists kcalloc counts socket types d).1.lists socket' t =
        if socket' = socket ∧ t ∈ types ∧ 0 < counts t then
          ⟨some (List.replicate (counts t) .zero), 0⟩
        else d.lists socket' t := by
  induction types generalizing d with
  | nil => simp [allocateLists]
  | cons i rest ih =>
    rw [List.find?_cons] at h
    unfold allocateLists
    by_cases hcount : 0 < counts i
    · by_cases halloc : kcalloc i = true
      · have hrest : rest.find? (allocationFails kcalloc counts) = none := by
          simpa [allocationFails, hcount, halloc] using h
        obtain ⟨hdone, hwrites, hlists⟩ :=
          ih (d.setList socket i ⟨some (List.replicate (counts i) .zero), 0⟩) hrest
        simp only [gt_iff_lt, hcount, halloc, if_true]
        refine ⟨hdone, hwrites, ?_⟩
        intro socket' t
        rw [hlists, setList_lists]
        by_cases ht : t = i
        · subst ht
          by_cases hs : socket' = socket <;> simp [hs, hcount]
        · simp [ht]
      · simp [allocationFails, hcount, halloc] at h
    · have hrest : rest.find? (allocationFails kcalloc counts) = none := by
        simpa [allocationFails, hcount] using h
      obtain ⟨hdone, hwrites, hlists⟩ := ih d hrest
      simp only [gt_iff_lt, hcount, if_false]
      refine ⟨hdone, hwrites, ?_⟩
      intro socket' t
      rw [hlists]
      by_cases ht : t = i
      · subst ht
        simp [hcount]
      · simp [ht]

/-- The loop stops at the first type that fails. This one keeps its old count without an
array, and every other list is as before or empty. -/
theorem allocateLists_failure (socket : Nat) {types : List Nat} (d : Discovery) {t : Nat}
    (hnodup : types.Nodup)
    (h : types.find? (allocationFails kcalloc counts) = some t) :
    (allocateLists kcalloc counts socket types d).2 = false ∧
      (allocateLists kcalloc counts socket types d).1.outOfBounds = d.outOfBounds ∧
      (allocateLists kcalloc counts socket types d).1.lists socket t =
        ⟨none, (d.lists socket t).count⟩ ∧
      ∀ socket' t', ¬ (socket' = socket ∧ t' = t) →
        (allocateLists kcalloc counts socket types d).1.lists socket' t' = d.lists socket' t' ∨
          ((allocateLists kcalloc counts socket types d).1.lists socket' t').count = 0 := by
  induction types generalizing d with
  | nil => cases h
  | cons i rest ih =>
    rw [List.nodup_cons] at hnodup
    rw [List.find?_cons] at h
    unfold allocateLists
    by_cases hcount : 0 < counts i
    · by_cases halloc : kcalloc i = true
      · have hrest : rest.find? (allocationFails kcalloc counts) = some t := by
          simpa [allocationFails, hcount, halloc] using h
        have hne : t ≠ i := by
          rintro rfl
          exact hnodup.1 (List.mem_of_find?_eq_some hrest)
        obtain ⟨hdone, hwrites, hfailed, hothers⟩ :=
          ih (d.setList socket i ⟨some (List.replicate (counts i) .zero), 0⟩) hnodup.2 hrest
        simp only [gt_iff_lt, hcount, halloc, if_true]
        refine ⟨hdone, hwrites, by simpa [hne] using hfailed, ?_⟩
        intro socket' t' hother
        rcases hothers socket' t' hother with hsame | hempty
        · rw [hsame, setList_lists]
          split_ifs with hi
          · exact Or.inr rfl
          · exact Or.inl rfl
        · exact Or.inr hempty
      · obtain rfl : i = t := by simpa [allocationFails, hcount, halloc] using h
        simp only [gt_iff_lt, hcount, halloc, if_true]
        refine ⟨rfl, rfl, by simp, ?_⟩
        intro socket' t' hother
        left
        simp [hother]
    · have hrest : rest.find? (allocationFails kcalloc counts) = some t := by
        simpa [allocationFails, hcount] using h
      simp only [gt_iff_lt, hcount, if_false]
      exact ih d hnodup.2 hrest

/-! ## The filling pass -/

/-- The arrays that were allocated have room for every box that was counted. -/
structure Filling (counts : Nat → Nat) (socket : Nat) (d : Discovery) : Prop where
  within : WithinAllocations d
  room : ∀ t, t < maxBoxTypes → 0 < counts t → (d.lists socket t).allocated = counts t

theorem knownBox_boxType_lt {read : Option Table} {unit : Table} (h : knownBox read = some unit) :
    unit.boxType < maxBoxTypes := by
  have hkeep := (Option.filter_eq_some_iff.mp h).2
  rw [Bool.and_eq_true, decide_eq_true_eq] at hkeep
  exact hkeep.2

theorem fillBox_filling {cb : Callback} {global : Table} {d : Discovery} (u : Nat)
    (h : Filling counts socket d) : Filling counts socket (fillBox cb global counts socket d u) := by
  unfold fillBox
  cases hunit : secondPassUnit cb global u with
  | none => exact h
  | some unit =>
    dsimp only
    cases hpmus : (d.lists socket unit.boxType).pmus with
    | none => exact h
    | some pmus =>
      dsimp only
      split_ifs with hcount
      · have hroom := h.room unit.boxType (knownBox_boxType_lt hunit) (by omega)
        have hlen : pmus.length = counts unit.boxType := by
          simpa [BoxPmuList.allocated, hpmus] using hroom
        refine ⟨⟨?_, ?_⟩, ?_⟩
        · intro socket' t
          simp only [setList_lists]
          split_ifs
          · simp only [BoxPmuList.Within, BoxPmuList.allocated, List.length_set]
            omega
          · exact h.within.lists socket' t
        · simpa [h.within.writes, hlen] using hcount
        · intro t ht hpos
          simp only [setList_lists, true_and]
          split_ifs with heq
          · subst heq
            simpa [BoxPmuList.allocated] using hlen
          · exact h.room t ht hpos
      · exact h

/-! ## One callback -/

/-- The first type, in the order of the loop, whose boxes were found and whose array cannot be
allocated has no boxes in its list yet. -/
def AllocationSafe (d : Discovery) (cb : Callback) : Prop :=
  0 ≤ cb.node → cb.node < d.numSockets → ∀ global, cb.mmioMemcpy 0 cb.bar = some global →
    ∀ t, (List.range maxBoxTypes).find?
        (fun t => foundInFirstPass cb global t && !cb.kcalloc t) = some t →
      (d.lists cb.node.toNat t).count = 0

/-- Every array is allocated, so that the second pass has room for what the first counted. -/
theorem allocateLists_filling (socket : Nat) {d : Discovery} (h : WithinAllocations d)
    (hfind : (List.range maxBoxTypes).find? (allocationFails kcalloc counts) = none) :
    Filling counts socket (allocateLists kcalloc counts socket (List.range maxBoxTypes) d).1 := by
  obtain ⟨-, hkept, hresult⟩ := allocateLists_success socket d hfind
  refine ⟨⟨?_, hkept.trans h.writes⟩, ?_⟩
  · intro socket' t
    rw [hresult]
    split_ifs
    · exact Nat.zero_le _
    · exact h.lists socket' t
  · intro t ht hpos
    rw [hresult, if_pos ⟨rfl, List.mem_range.mpr ht, hpos⟩]
    simp [BoxPmuList.allocated]

/-- An array that could not be allocated keeps its old count. -/
theorem allocateLists_within_iff (socket : Nat) {d : Discovery} (h : WithinAllocations d) {t : Nat}
    (hfind : (List.range maxBoxTypes).find? (allocationFails kcalloc counts) = some t) :
    WithinAllocations (allocateLists kcalloc counts socket (List.range maxBoxTypes) d).1 ↔
      (d.lists socket t).count = 0 := by
  obtain ⟨-, hkept, hfailed, hothers⟩ := allocateLists_failure socket d List.nodup_range hfind
  constructor
  · intro hwithin
    have hlist := hwithin.lists socket t
    rw [hfailed] at hlist
    exact Nat.le_zero.mp hlist
  · intro hempty
    refine ⟨?_, hkept.trans h.writes⟩
    intro socket' t'
    by_cases heq : socket' = socket ∧ t' = t
    · obtain ⟨rfl, rfl⟩ := heq
      rw [hfailed, hempty]
      exact Nat.le_refl 0
    · rcases hothers socket' t' heq with hsame | hzero
      · rw [hsame]
        exact h.lists socket' t'
      · unfold BoxPmuList.Within
        rw [hzero]
        exact Nat.zero_le _

theorem processSocketDiscoveryTable_within_iff {d : Discovery} (h : WithinAllocations d)
    (cb : Callback) {global : Table} (hglobal : cb.mmioMemcpy 0 cb.bar = some global) :
    WithinAllocations (processSocketDiscoveryTable d socket cb).1 ↔
      ∀ t, (List.range maxBoxTypes).find?
        (fun t => foundInFirstPass cb global t && !cb.kcalloc t) = some t →
          (d.lists socket t).count = 0 := by
  have hfails : (fun t => foundInFirstPass cb global t && !cb.kcalloc t) =
      allocationFails cb.kcalloc (countBoxes cb global) := by
    funext t
    simp [allocationFails, countBoxes_pos_iff]
  have hstart : WithinAllocations
      { d with globalPmus := Function.update d.globalPmus socket global } := ⟨h.lists, h.writes⟩
  rw [hfails]
  simp only [processSocketDiscoveryTable, hglobal]
  cases hfind : (List.range maxBoxTypes).find?
      (allocationFails cb.kcalloc (countBoxes cb global)) with
  | none =>
    have hdone := (allocateLists_success socket
      { d with globalPmus := Function.update d.globalPmus socket global } hfind).1
    have hfilling := allocateLists_filling socket hstart hfind
    generalize allocateLists cb.kcalloc (countBoxes cb global) socket (List.range maxBoxTypes) _
      = result at hdone hfilling ⊢
    obtain ⟨allocatedState, done⟩ := result
    subst hdone
    have hfilled := List.foldlRecOn (motive := Filling (countBoxes cb global) socket)
      (List.range global.maxUnits) (fillBox cb global (countBoxes cb global) socket) hfilling
      (fun _ hd u _ => fillBox_filling u hd)
    simpa using hfilled.within
  | some t =>
    have hdone := (allocateLists_failure socket
      { d with globalPmus := Function.update d.globalPmus socket global }
      List.nodup_range hfind).1
    have hiff := allocateLists_within_iff socket hstart hfind
    generalize allocateLists cb.kcalloc (countBoxes cb global) socket (List.range maxBoxTypes) _
      = result at hdone hiff ⊢
    obtain ⟨stopped, done⟩ := result
    subst hdone
    simpa only [Option.some.injEq, forall_eq'] using hiff

theorem processDvsecCallback_within_iff {d : Discovery} (h : WithinAllocations d) (cb : Callback) :
    WithinAllocations (processDvsecCallback d cb) ↔ AllocationSafe d cb := by
  unfold processDvsecCallback AllocationSafe
  split_ifs with hnode
  · refine ⟨fun _ hlow hhigh => ?_, fun _ => h⟩
    omega
  · have hvalid : 0 ≤ cb.node ∧ cb.node < d.numSockets := by omega
    simp only [hvalid.1, hvalid.2, forall_const]
    cases hglobal : cb.mmioMemcpy 0 cb.bar with
    | none => simpa [processSocketDiscoveryTable, hglobal] using h
    | some global =>
      rw [processSocketDiscoveryTable_within_iff h cb hglobal]
      simp only [Option.some.injEq, forall_eq']

/-- The lists stay within their arrays as long as no allocation fails for a type that already
has boxes, and a callback that breaks this condition leaves a count without an array. -/
theorem discovery_within_allocations (numSockets : Nat) :
    (∀ d, Reaches (discovery numSockets) AllocationSafe d →
      WithinAllocations d ∧ AccessesInBounds d) ∧
    ∀ d cb, WithinAllocations d ∧ AccessesInBounds d →
      (WithinAllocations (processDvsecCallback d cb) ∧
          AccessesInBounds (processDvsecCallback d cb) ↔ AllocationSafe d cb) := by
  have hsafe : ∀ d, WithinAllocations d ∧ AccessesInBounds d ↔ WithinAllocations d :=
    fun d => ⟨fun h => h.1, fun h => ⟨h, h.accessesInBounds⟩⟩
  constructor
  · intro d hd
    rw [hsafe]
    apply Reaches.invariant _ _ hd
    · exact ⟨fun _ _ => Nat.le_refl 0, rfl⟩
    · intro s cb t hs hok hstep
      cases hstep
      exact (processDvsecCallback_within_iff hs cb).mpr hok
  · intro d cb h
    rw [hsafe]
    exact processDvsecCallback_within_iff h.1 cb

/-- A table with one memory controller, read the same way in both passes. -/
def imcCallback (allocates : Bool) : Callback where
  node := 0
  bar := 0x1000
  mmioMemcpy n _ := some (if n = 0 then ⟨0x10300, 0, 0⟩ else ⟨0x4000000008080804, 0x2000, 6⟩)
  kcalloc _ := allocates

theorem discovery_within_allocations_imc : ∃ d,
    Reaches (discovery 1) AllocationSafe d ∧ getNumBoxes d sprImcBoxType 0 = 1 ∧
      (WithinAllocations d ∧ AccessesInBounds d) ∧
      WithinAllocations (processDvsecCallback d (imcCallback true)) := by
  have hreach : Reaches (discovery 1) AllocationSafe
      (processDvsecCallback (uncorePmuDiscoveryCreate 1) (imcCallback true)) :=
    .step .init (fun _ _ _ _ _ _ => rfl) rfl
  have hsafe := (discovery_within_allocations 1).1 _ hreach
  refine ⟨_, hreach, by decide +kernel, hsafe, ?_⟩
  refine (((discovery_within_allocations 1).2 _ (imcCallback true) hsafe).mpr ?_).1
  intro _ _ global _ t ht
  simp [imcCallback] at ht

/-- The same table again, but its array cannot be allocated: the count of the first callback
is left without an array, and an accessor that checks it reads outside. -/
theorem count_outlives_array : ∃ d, Reachable (discovery 1) d ∧
    d.lists 0 sprImcBoxType = ⟨none, 1⟩ ∧ getBoxCtlAddr d sprImcBoxType 0 0 = none ∧
    ¬ (WithinAllocations d ∧ AccessesInBounds d) := by
  obtain ⟨d, hd, hlist⟩ := reachable_of_run (m := discovery 1)
    (p := fun d => d.lists 0 sprImcBoxType == ⟨none, 1⟩ && d.numSockets == 1)
    [imcCallback true, imcCallback false] (by decide +kernel)
  simp only [Bool.and_eq_true, beq_iff_eq] at hlist
  obtain ⟨hlist, hsockets⟩ := hlist
  have hvalid : validBox d 0 sprImcBoxType 0 = true := by
    rw [validBox, hlist, hsockets]
    decide
  have houtside : getBoxCtlAddr d sprImcBoxType 0 0 = none := by
    rw [getBoxCtlAddr, if_pos hvalid, hlist]
    rfl
  refine ⟨d, hd, hlist, houtside, ?_⟩
  rintro ⟨-, haccess⟩
  have hsome := haccess.ctlAddr sprImcBoxType 0 0
  rw [houtside] at hsome
  cases hsome

end UncoreDiscovery
