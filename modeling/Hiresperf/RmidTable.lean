import Hiresperf.CpuSelection
import Hiresperf.Foundation.BitField
import Hiresperf.Foundation.Loops
import Hiresperf.Foundation.StepMachine

/-!
# The RMID table

`mbm/rmid.c` gives every online core a monitoring id. The table is filled from
its first slot on; a map from cores to slots of the table serves the lookup of the
sampling path, and `mbm_rmid_get_for_core` scans the table instead. Each write
of a `PQR_ASSOC` register keeps the register file of before in `history`.
-/

namespace RmidTable

open CpuSelection StepMachine

def maxCores : Nat := 255

def rmid0 : BitVec 32 := 0

/-- An `int` in the source. -/
def pqrAssocRmidMask : BitVec 32 := 0x3FF

structure RmidInfo where
  rmid : BitVec 32
  coreId : Nat
  inUse : Bool
  lastTotalBw : BitVec 64
  lastLocalBw : BitVec 64

/-- The table has `maxCores` slots. -/
structure RmidManager where
  numCores : Nat
  rmidTable : Nat → RmidInfo
  coreToRmidMap : Nat → BitVec 8

/-- `MSR_IA32_PQR_ASSOC` of every CPU. -/
abbrev RegisterFile := Nat → BitVec 64

structure Rdt where
  mgr : RmidManager
  pqrAssoc : RegisterFile
  history : List RegisterFile

def onlineCpus (p : Platform) : List Nat := forEachCpu p p.online

/-- The value `mbm_set_rmid` writes back. The complement of the mask is taken at 32 bits
and sign-extended. -/
def mbmSetRmid (rmid : BitVec 32) (val : BitVec 64) : BitVec 64 :=
  (val &&& (~~~pqrAssocRmidMask).signExtend 64) ||| (rmid &&& pqrAssocRmidMask).setWidth 64

def mbmResetRmid (val : BitVec 64) : BitVec 64 := mbmSetRmid rmid0 val

/-- A call on a CPU that is not online fails and does nothing. -/
def smpCallFunctionSingle (p : Platform) (cpu : Nat) (func : BitVec 64 → BitVec 64) (s : Rdt) :
    Rdt :=
  if cpu ∈ onlineCpus p then
    { s with
      pqrAssoc := Function.update s.pqrAssoc cpu (func (s.pqrAssoc cpu))
      history := s.pqrAssoc :: s.history }
  else s

def RmidManager.setEntry (m : RmidManager) (idx : Nat) (info : RmidInfo) : RmidManager :=
  { m with rmidTable := Function.update m.rmidTable idx info }

/-- All online cores are reset once for each RMID. -/
def mbmRmidClearAssoc (p : Platform) (maxRmid : Nat) (s : Rdt) : Rdt :=
  (List.range (maxRmid + 1)).foldl
    (fun s _ => (onlineCpus p).foldl (fun s cpu => smpCallFunctionSingle p cpu mbmResetRmid s) s) s

def clearAssignment (m : RmidManager) (idx : Nat) : RmidManager :=
  { m.setEntry idx { m.rmidTable idx with inUse := false, rmid := 0 } with
    coreToRmidMap := Function.update m.coreToRmidMap idx (BitVec.ofNat 8 (maxCores - 1)) }

/-- One turn of the loop of `mbm_rmid_allocate_all_cores`. -/
def assignCore (p : Platform) (cpu numCores : Nat) (s : Rdt) : Rdt :=
  let rmid := BitVec.ofNat 32 (cpu + 1)
  let info : RmidInfo := ⟨rmid, cpu, true, 0, 0⟩
  let called := smpCallFunctionSingle p cpu (mbmSetRmid rmid)
    { s with mgr := s.mgr.setEntry numCores info }
  { called with mgr := { called.mgr with
      coreToRmidMap := Function.update called.mgr.coreToRmidMap cpu (BitVec.ofNat 8 numCores) } }

/-- The loop over the online cores, with its early exit and its count. -/
def assignCores (p : Platform) (maxRmid : Nat) : List Nat → Nat → Rdt → Rdt × Nat
  | [], numCores, s => (s, numCores)
  | cpu :: rest, numCores, s =>
    if numCores > maxRmid then (s, numCores)
    else assignCores p maxRmid rest (numCores + 1) (assignCore p cpu numCores s)

def mbmRmidAllocateAllCores (p : Platform) (maxRmid : Nat) (s : Rdt) : Rdt :=
  let cleared := { s with mgr := (List.range maxCores).foldl clearAssignment s.mgr }
  let assigned := assignCores p maxRmid (onlineCpus p) 0 cleared
  { assigned.1 with mgr := { assigned.1.mgr with numCores := assigned.2 } }

/-- One turn of the loop of `mbm_rmid_deallocate_all`. -/
def deallocateEntry (p : Platform) (s : Rdt) (idx : Nat) : Rdt :=
  if (s.mgr.rmidTable idx).inUse then
    let called := smpCallFunctionSingle p (s.mgr.rmidTable idx).coreId mbmResetRmid s
    { called with mgr := called.mgr.setEntry idx { called.mgr.rmidTable idx with inUse := false } }
  else s

def mbmRmidDeallocateAll (p : Platform) (s : Rdt) : Rdt :=
  let reset := (List.range s.mgr.numCores).foldl (deallocateEntry p) s
  { reset with mgr := { reset.mgr with numCores := 0 } }

def mbmRmidGetForCore (m : RmidManager) (coreId : Nat) : BitVec 32 :=
  match (List.range m.numCores).find?
      (fun i => (m.rmidTable i).inUse && (m.rmidTable i).coreId == coreId) with
  | some i => (m.rmidTable i).rmid
  | none => rmid0

/-- The slot `mbm_get_rmid_info_for_core` points to, or NULL. -/
def mbmGetRmidInfoForCore (m : RmidManager) (coreId : Nat) : Option Nat :=
  if coreId ≥ maxCores then none
  else
    let idx := (m.coreToRmidMap coreId).toNat
    if idx ≥ maxCores then none
    else if (m.rmidTable idx).inUse && (m.rmidTable idx).coreId == coreId then some idx
    else none

/-- `none` where the source dereferences NULL: the core has no entry. -/
def mbmSetRmidForCore (p : Platform) (coreId : Nat) (rmid : BitVec 32) (s : Rdt) : Option Rdt :=
  let called := smpCallFunctionSingle p coreId (mbmSetRmid rmid) s
  (mbmGetRmidInfoForCore called.mgr coreId).map fun idx =>
    let info := { called.mgr.rmidTable idx with rmid := rmid, inUse := true }
    { called with mgr := called.mgr.setEntry idx info }

inductive Errno where
  | enomem
deriving DecidableEq, Repr

/-- What `kcalloc` and `memset` leave in the manager. -/
def zeroedManager : RmidManager := ⟨0, fun _ => ⟨0, 0, false, 0, 0⟩, fun _ => 0⟩

def mbmRmidInit (p : Platform) (maxRmid : Nat) (tableAllocated : Bool) (pqrAssoc : RegisterFile) :
    Except Errno Rdt :=
  if tableAllocated then
    .ok (mbmRmidAllocateAllCores p maxRmid (mbmRmidClearAssoc p maxRmid ⟨zeroedManager, pqrAssoc, []⟩))
  else .error .enomem

/-- The manager has no table afterwards. -/
def mbmRmidDeinit (p : Platform) (s : Rdt) : RegisterFile × List RegisterFile :=
  let done := mbmRmidDeallocateAll p s
  (done.pqrAssoc, done.history)

inductive Action where
  | setRmidForCore (coreId : Nat) (rmid : BitVec 32)
  | deallocateAll

/-- The manager after initialisation. A core without an entry is never given an RMID. -/
def manager (p : Platform) (start : Rdt) : Machine Rdt Action where
  init := start
  step s
    | .setRmidForCore coreId rmid => mbmSetRmidForCore p coreId rmid s
    | .deallocateAll => some (mbmRmidDeallocateAll p s)

@[simp] theorem smpCallFunctionSingle_mgr (p : Platform) (cpu : Nat)
    (func : BitVec 64 → BitVec 64) (s : Rdt) :
    (smpCallFunctionSingle p cpu func s).mgr = s.mgr := by
  unfold smpCallFunctionSingle
  split_ifs <;> rfl

@[simp] theorem setEntry_self (m : RmidManager) (idx : Nat) (info : RmidInfo) :
    (m.setEntry idx info).rmidTable idx = info := by
  simp [RmidManager.setEntry]

@[simp] theorem setEntry_of_ne (m : RmidManager) {i idx : Nat} (h : i ≠ idx) (info : RmidInfo) :
    (m.setEntry idx info).rmidTable i = m.rmidTable i := by
  simp [RmidManager.setEntry, h]

/-- An update that keeps the core of the entry keeps the cores of all. -/
theorem setEntry_coreId {m : RmidManager} {idx : Nat} {info : RmidInfo}
    (h : info.coreId = (m.rmidTable idx).coreId) (i : Nat) :
    ((m.setEntry idx info).rmidTable i).coreId = (m.rmidTable i).coreId := by
  by_cases hi : i = idx
  · rw [hi, setEntry_self, h]
  · rw [setEntry_of_ne m hi]

theorem mbmGetRmidInfoForCore_eq_some {m : RmidManager} {coreId idx : Nat} :
    mbmGetRmidInfoForCore m coreId = some idx ↔
      coreId < maxCores ∧ (m.coreToRmidMap coreId).toNat = idx ∧ idx < maxCores ∧
        (m.rmidTable idx).inUse = true ∧ (m.rmidTable idx).coreId = coreId := by
  dsimp only [mbmGetRmidInfoForCore]
  constructor
  · intro h
    split_ifs at h with hcore hidx hentry
    · rw [Option.some.injEq] at h
      subst h
      simp only [Bool.and_eq_true, beq_iff_eq] at hentry
      exact ⟨by omega, rfl, by omega, hentry⟩
  · rintro ⟨hcore, rfl, hidx, hentry⟩
    simp [Nat.not_le.mpr hcore, Nat.not_le.mpr hidx, hentry]

/-- The first `n` slots are in use, and the map leads back to each from its core. -/
structure Assigned (n : Nat) (m : RmidManager) : Prop where
  bound : n ≤ maxCores
  unused : ∀ i, n ≤ i → (m.rmidTable i).inUse = false
  inUse : ∀ i, i < n → (m.rmidTable i).inUse = true
  coreId_lt : ∀ i, i < n → (m.rmidTable i).coreId < maxCores
  mapped : ∀ i, i < n → (m.coreToRmidMap (m.rmidTable i).coreId).toNat = i

variable {p : Platform} {maxRmid : Nat}

/-- Clearing the table leaves nothing in use. -/
theorem foldl_clearAssignment_unused (i bound : Nat) :
    (((List.range bound).foldl clearAssignment zeroedManager).rmidTable i).inUse = false := by
  apply Loops.foldl_range_invariant
    (I := fun _ (m : RmidManager) => (m.rmidTable i).inUse = false) rfl
  intro turn m _ hm
  by_cases h : i = turn <;> simp [clearAssignment, RmidManager.setEntry, h, hm]

theorem assigned_zero {m : RmidManager} (h : ∀ i, (m.rmidTable i).inUse = false) :
    Assigned 0 m where
  bound := by simp [maxCores]
  unused i _ := h i
  inUse i hi := by omega
  coreId_lt i hi := by omega
  mapped i hi := by omega

/-- The next slot takes a core that no slot has. -/
theorem assignCore_assigned {cpu n : Nat} {s : Rdt} (h : Assigned n s.mgr) (hn : n < maxCores)
    (hcpu : cpu < maxCores) (hfresh : ∀ i, i < n → (s.mgr.rmidTable i).coreId ≠ cpu) :
    Assigned (n + 1) (assignCore p cpu n s).mgr := by
  have hbyte : n % 256 = n := Nat.mod_eq_of_lt (by simp only [maxCores] at hn; omega)
  constructor
  case bound => omega
  case unused =>
    intro i hi
    have hne : i ≠ n := by omega
    simpa [assignCore, RmidManager.setEntry, hne] using h.unused i (by omega)
  all_goals
    intro i hi
    rcases Nat.lt_succ_iff_lt_or_eq.mp hi with hlt | rfl
  · have hne : i ≠ n := by omega
    simpa [assignCore, RmidManager.setEntry, hne] using h.inUse i hlt
  · simp [assignCore, RmidManager.setEntry]
  · have hne : i ≠ n := by omega
    simpa [assignCore, RmidManager.setEntry, hne] using h.coreId_lt i hlt
  · simpa [assignCore, RmidManager.setEntry] using hcpu
  · have hne : i ≠ n := by omega
    simpa [assignCore, RmidManager.setEntry, hne, hfresh i hlt] using h.mapped i hlt
  · simpa [assignCore, RmidManager.setEntry] using hbyte

theorem assignCore_coreId (p : Platform) (cpu n i : Nat) (s : Rdt) :
    ((assignCore p cpu n s).mgr.rmidTable i).coreId =
      if i = n then cpu else (s.mgr.rmidTable i).coreId := by
  by_cases h : i = n <;> simp [assignCore, RmidManager.setEntry, h]

/-- The cores still to come are not in the table. -/
theorem assignCores_assigned {rest : List Nat} {n : Nat} {s : Rdt} (h : Assigned n s.mgr)
    (hroom : n + rest.length ≤ maxCores) (hnodup : rest.Nodup)
    (hlt : ∀ cpu ∈ rest, cpu < maxCores)
    (hfresh : ∀ i, i < n → (s.mgr.rmidTable i).coreId ∉ rest) :
    Assigned (assignCores p maxRmid rest n s).2 (assignCores p maxRmid rest n s).1.mgr := by
  induction rest generalizing n s with
  | nil => exact h
  | cons cpu rest ih =>
    rw [List.nodup_cons] at hnodup
    rw [List.length_cons] at hroom
    unfold assignCores
    split_ifs with hstop
    · exact h
    · have hnew := assignCore_assigned (p := p) h (by omega) (hlt cpu List.mem_cons_self)
        (fun i hi heq => hfresh i hi (heq ▸ List.mem_cons_self))
      apply ih hnew (by omega) hnodup.2 (fun c hc => hlt c (List.mem_cons_of_mem _ hc))
      intro i hi
      rw [assignCore_coreId]
      split_ifs with hn
      · exact hnodup.1
      · exact fun hmem => hfresh i (by omega) (List.mem_cons_of_mem _ hmem)

theorem onlineCpus_nodup (p : Platform) : (onlineCpus p).Nodup := forEachCpu_nodup _

theorem onlineCpus_length_le (hcpus : ∀ cpu ∈ onlineCpus p, cpu < maxCores) :
    (onlineCpus p).length ≤ maxCores := by
  have hsub : onlineCpus p ⊆ List.range maxCores :=
    fun cpu hcpu => List.mem_range.mpr (hcpus cpu hcpu)
  simpa using (List.subperm_of_subset (onlineCpus_nodup p) hsub).length_le

theorem mbmRmidClearAssoc_mgr (p : Platform) (maxRmid : Nat) (s : Rdt) :
    (mbmRmidClearAssoc p maxRmid s).mgr = s.mgr := by
  unfold mbmRmidClearAssoc
  apply List.foldlRecOn (motive := fun t : Rdt => t.mgr = s.mgr) _ _ rfl
  intro t ht _ _
  apply List.foldlRecOn (motive := fun t : Rdt => t.mgr = s.mgr) _ _ ht
  intro t ht cpu _
  rw [smpCallFunctionSingle_mgr, ht]

theorem mbmRmidInit_ok {tableAllocated : Bool} {pqrAssoc : RegisterFile} {s : Rdt}
    (h : mbmRmidInit p maxRmid tableAllocated pqrAssoc = .ok s) :
    s = mbmRmidAllocateAllCores p maxRmid
      (mbmRmidClearAssoc p maxRmid ⟨zeroedManager, pqrAssoc, []⟩) := by
  unfold mbmRmidInit at h
  split_ifs at h
  exact (Except.ok.inj h).symm

/-- The invariant of the manager. -/
def TableInv (m : RmidManager) : Prop := Assigned m.numCores m

theorem Assigned.tableInv {n : Nat} {m : RmidManager} (h : Assigned n m) :
    TableInv { m with numCores := n } :=
  ⟨h.bound, h.unused, h.inUse, h.coreId_lt, h.mapped⟩

theorem mbmRmidAllocateAllCores_inv (hcpus : ∀ cpu ∈ onlineCpus p, cpu < maxCores) {s : Rdt}
    (hzeroed : s.mgr = zeroedManager) : TableInv (mbmRmidAllocateAllCores p maxRmid s).mgr := by
  have hcleared : Assigned 0 ((List.range maxCores).foldl clearAssignment s.mgr) := by
    rw [hzeroed]
    exact assigned_zero fun i => foldl_clearAssignment_unused i maxCores
  have hroom := onlineCpus_length_le hcpus
  dsimp only [mbmRmidAllocateAllCores]
  generalize (List.range maxCores).foldl clearAssignment s.mgr = cleared at hcleared ⊢
  apply Assigned.tableInv
  exact assignCores_assigned hcleared (by omega) (onlineCpus_nodup p) hcpus (by intro i hi; omega)

theorem mbmRmidInit_inv (hcpus : ∀ cpu ∈ onlineCpus p, cpu < maxCores) {tableAllocated : Bool}
    {pqrAssoc : RegisterFile} {s : Rdt}
    (h : mbmRmidInit p maxRmid tableAllocated pqrAssoc = .ok s) : TableInv s.mgr := by
  rw [mbmRmidInit_ok h]
  exact mbmRmidAllocateAllCores_inv hcpus (mbmRmidClearAssoc_mgr p maxRmid _)

/-- A core's entry is below `num_cores`. -/
theorem TableInv.lookup_lt {m : RmidManager} (h : TableInv m) {coreId idx : Nat}
    (hlookup : mbmGetRmidInfoForCore m coreId = some idx) : idx < m.numCores := by
  obtain ⟨-, -, -, hinUse, -⟩ := mbmGetRmidInfoForCore_eq_some.mp hlookup
  by_contra hge
  rw [h.unused idx (by omega)] at hinUse
  cases hinUse

theorem mbmSetRmidForCore_some {coreId : Nat} {rmid : BitVec 32} {s t : Rdt}
    (h : mbmSetRmidForCore p coreId rmid s = some t) :
    ∃ idx, mbmGetRmidInfoForCore s.mgr coreId = some idx ∧
      t = { smpCallFunctionSingle p coreId (mbmSetRmid rmid) s with
        mgr := s.mgr.setEntry idx { s.mgr.rmidTable idx with rmid := rmid, inUse := true } } := by
  simp only [mbmSetRmidForCore, smpCallFunctionSingle_mgr, Option.map_eq_some_iff] at h
  obtain ⟨idx, hidx, rfl⟩ := h
  exact ⟨idx, hidx, rfl⟩

theorem mbmSetRmidForCore_inv {coreId : Nat} {rmid : BitVec 32} {s t : Rdt}
    (h : TableInv s.mgr) (hset : mbmSetRmidForCore p coreId rmid s = some t) :
    TableInv t.mgr := by
  obtain ⟨idx, hlookup, rfl⟩ := mbmSetRmidForCore_some hset
  have hlt := h.lookup_lt hlookup
  -- the entry keeps its core and stays in use
  constructor
  case bound => exact h.bound
  case unused =>
    intro i hi
    have hne : i ≠ idx := by
      rintro rfl
      exact absurd hlt (Nat.not_lt.mpr hi)
    rw [setEntry_of_ne _ hne]
    exact h.unused i hi
  case inUse =>
    intro i hi
    by_cases heq : i = idx
    · rw [heq, setEntry_self]
    · rw [setEntry_of_ne _ heq]
      exact h.inUse i hi
  case coreId_lt =>
    intro i hi
    rw [setEntry_coreId]
    · exact h.coreId_lt i hi
    · rfl
  case mapped =>
    intro i hi
    rw [setEntry_coreId]
    · exact h.mapped i hi
    · rfl

/-- `mbm_rmid_deallocate_all` takes every slot out of use. -/
theorem mbmRmidDeallocateAll_inv {s : Rdt} (h : TableInv s.mgr) :
    TableInv (mbmRmidDeallocateAll p s).mgr := by
  have hloop : ∀ i, (((List.range s.mgr.numCores).foldl (deallocateEntry p) s).mgr.rmidTable i).inUse
      = true → s.mgr.numCores ≤ i ∧ (s.mgr.rmidTable i).inUse = true := by
    apply Loops.foldl_range_invariant (I := fun turn (t : Rdt) => ∀ i,
      (t.mgr.rmidTable i).inUse = true → turn ≤ i ∧ (s.mgr.rmidTable i).inUse = true)
    · exact fun i hi => ⟨Nat.zero_le i, hi⟩
    · intro turn t _ ht i hi
      by_cases heq : i = turn
      · subst heq
        cases huse : (t.mgr.rmidTable i).inUse <;>
          simp [deallocateEntry, huse] at hi
      · have hold : (t.mgr.rmidTable i).inUse = true := by
          unfold deallocateEntry at hi
          split_ifs at hi
          · rwa [setEntry_of_ne _ heq, smpCallFunctionSingle_mgr] at hi
          · exact hi
        obtain ⟨hle, hin⟩ := ht i hold
        exact ⟨by omega, hin⟩
  apply assigned_zero
  intro i
  rw [← Bool.not_eq_true]
  intro hi
  obtain ⟨hge, hin⟩ := hloop i hi
  rw [h.unused i hge] at hin
  cases hin

theorem manager_inv (hcpus : ∀ cpu ∈ onlineCpus p, cpu < maxCores) {tableAllocated : Bool}
    {pqrAssoc : RegisterFile} {start s : Rdt}
    (hinit : mbmRmidInit p maxRmid tableAllocated pqrAssoc = .ok start)
    (hs : Reachable (manager p start) s) : TableInv s.mgr := by
  apply Reaches.invariant (I := fun t => TableInv t.mgr) (mbmRmidInit_inv hcpus hinit) _ hs
  intro s a t hinv _ hstep
  cases a with
  | setRmidForCore coreId rmid => exact mbmSetRmidForCore_inv hinv hstep
  | deallocateAll =>
    cases hstep
    exact mbmRmidDeallocateAll_inv hinv

/-- The scan finds the slot that the map leads to, and no other. -/
theorem TableInv.scan_eq_lookup {m : RmidManager} (h : TableInv m) {coreId : Nat}
    (hcore : coreId < maxCores) :
    (List.range m.numCores).find?
      (fun i => (m.rmidTable i).inUse && (m.rmidTable i).coreId == coreId) =
        mbmGetRmidInfoForCore m coreId := by
  -- an entry of the core is where the map says
  have hentry : ∀ i, i < m.numCores →
      ((m.rmidTable i).inUse && (m.rmidTable i).coreId == coreId) = true →
        mbmGetRmidInfoForCore m coreId = some i := by
    intro i hi hmatch
    simp only [Bool.and_eq_true, beq_iff_eq] at hmatch
    have hidx := h.mapped i hi
    rw [hmatch.2] at hidx
    have hbound := h.bound
    exact mbmGetRmidInfoForCore_eq_some.mpr ⟨hcore, hidx, by omega, hmatch⟩
  cases hscan : (List.range m.numCores).find?
      (fun i => (m.rmidTable i).inUse && (m.rmidTable i).coreId == coreId) with
  | some i =>
    have hi : i < m.numCores := List.mem_range.mp (List.mem_of_find?_eq_some hscan)
    have hmatch := List.find?_some hscan
    exact (hentry i hi hmatch).symm
  | none =>
    rw [List.find?_eq_none] at hscan
    cases hlookup : mbmGetRmidInfoForCore m coreId with
    | none => rfl
    | some idx =>
      obtain ⟨-, -, -, hinUse, hid⟩ := mbmGetRmidInfoForCore_eq_some.mp hlookup
      have hnot := hscan idx (List.mem_range.mpr (h.lookup_lt hlookup))
      simp [hinUse, hid] at hnot

/-- The lookup by index and the scan agree in every state of the manager. -/
theorem mbmRmidGetForCore_eq_lookup (hcpus : ∀ cpu ∈ onlineCpus p, cpu < maxCores)
    {tableAllocated : Bool} {pqrAssoc : RegisterFile} {start s : Rdt}
    (hinit : mbmRmidInit p maxRmid tableAllocated pqrAssoc = .ok start)
    (hs : Reachable (manager p start) s) {coreId : Nat} (hcore : coreId < maxCores) :
    mbmRmidGetForCore s.mgr coreId =
      match mbmGetRmidInfoForCore s.mgr coreId with
      | some idx => (s.mgr.rmidTable idx).rmid
      | none => rmid0 := by
  rw [mbmRmidGetForCore, (manager_inv hcpus hinit hs).scan_eq_lookup hcore]

/-- Core 2 of four is given RMID 7. -/
theorem mbmRmidGetForCore_after_set : ∃ start s,
    mbmRmidInit fourCpus 3 true (fun _ => 0) = .ok start ∧ Reachable (manager fourCpus start) s ∧
      mbmRmidGetForCore s.mgr 2 = 7 := by
  have hcpus : ∀ cpu ∈ onlineCpus fourCpus, cpu < maxCores := by decide
  obtain ⟨start, hinit⟩ : ∃ start, mbmRmidInit fourCpus 3 true (fun _ => 0) = .ok start := ⟨_, rfl⟩
  obtain ⟨s, hs, hentry⟩ := reachable_of_run (m := manager fourCpus start)
    (p := fun s => mbmGetRmidInfoForCore s.mgr 2 == some 2 && (s.mgr.rmidTable 2).rmid == 7)
    [.setRmidForCore 2 7] (by rw [mbmRmidInit_ok hinit]; decide +kernel)
  simp only [Bool.and_eq_true, beq_iff_eq] at hentry
  refine ⟨start, s, hinit, hs, ?_⟩
  rw [mbmRmidGetForCore_eq_lookup hcpus hinit hs (by decide), hentry.1]
  exact hentry.2

end RmidTable
