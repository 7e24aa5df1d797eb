import Hiresperf.RmidAllocation

/-!
# The SET_RMID ioctl

`HRP_PMC_IOC_RDT_SET_RMID_ON_CORE` takes a core and an RMID from user space and
hands them on unchecked. The write of the register, the lookup of the entry and
the update of the entry each go their own way: a call on a core that is not
online does nothing, a missing entry is dereferenced, and the register has room
for ten bits.
-/

namespace SetRmidIoctl

open CpuSelection StepMachine RmidTable RmidAssociation RmidAllocation

/-- `rmid_set_info_t`. -/
structure RmidSetInfo where
  rmid : BitVec 32
  coreId : BitVec 32

/-- How the ioctl ends. -/
inductive IoctlResult where
  | returned (code : Int) (s : Rdt)
  | nullDereference

def efault : Int := 14

/-- `none` where `copy_from_user` fails. -/
def setRmidOnCore (p : Platform) (s : Rdt) : Option RmidSetInfo → IoctlResult
  | none => .returned (-efault) s
  | some args =>
    match mbmSetRmidForCore p args.coreId.toNat args.rmid s with
    | none => .nullDereference
    | some t => .returned 0 t

/-- What the table records for a core. -/
def recordOf (m : RmidManager) (core : Nat) : Option RmidInfo :=
  (mbmGetRmidInfoForCore m core).map m.rmidTable

/-- Register and record of the core hold the RMID asked for, and those of every other core are
as before. -/
structure Applied (args : RmidSetInfo) (s t : Rdt) : Prop where
  register : (rmidField (t.pqrAssoc args.coreId.toNat)).toNat = args.rmid.toNat
  record : (recordOf t.mgr args.coreId.toNat).map RmidInfo.rmid = some args.rmid
  otherRegisters : ∀ core, core ≠ args.coreId.toNat → t.pqrAssoc core = s.pqrAssoc core
  otherRecords : ∀ core, core ≠ args.coreId.toNat → recordOf t.mgr core = recordOf s.mgr core

/-- All or nothing, in terms of what user space asked for. -/
def AllOrNothing (p : Platform) (s : Rdt) (arg : Option RmidSetInfo) : Prop :=
  match setRmidOnCore p s arg with
  | .nullDereference => False
  | .returned code t =>
    if code = 0 then ∃ args, arg = some args ∧ Applied args s t
    else t.pqrAssoc = s.pqrAssoc ∧ t.mgr = s.mgr

/-- The core has an entry, the RMID fits into the register, and the core is online or has this
RMID already. -/
structure Settable (p : Platform) (s : Rdt) (args : RmidSetInfo) : Prop where
  entry : (mbmGetRmidInfoForCore s.mgr args.coreId.toNat).isSome = true
  fits : args.rmid.toNat ≤ maxRmidLimit
  reached : args.coreId.toNat ∈ onlineCpus p ∨
    rmidField (s.pqrAssoc args.coreId.toNat) = args.rmid.setWidth 10

variable {p : Platform} {s : Rdt} {args : RmidSetInfo}

/-- An entry of another core is not the one that is written. -/
theorem lookup_setEntry {m : RmidManager} {core idx : Nat} {rmid : BitVec 32}
    (h : mbmGetRmidInfoForCore m core = some idx) (other : Nat) :
    mbmGetRmidInfoForCore
      (m.setEntry idx { m.rmidTable idx with rmid := rmid, inUse := true }) other =
        mbmGetRmidInfoForCore m other := by
  obtain ⟨-, -, -, hinUse, -⟩ := mbmGetRmidInfoForCore_eq_some.mp h
  unfold mbmGetRmidInfoForCore
  have hmap : (m.setEntry idx { m.rmidTable idx with rmid := rmid, inUse := true }).coreToRmidMap =
    m.coreToRmidMap := rfl
  rw [hmap]
  by_cases heq : (m.coreToRmidMap other).toNat = idx
  · simp [heq, hinUse]
  · simp [heq]

theorem recordOf_setEntry_of_ne {m : RmidManager} {core idx other : Nat} {rmid : BitVec 32}
    (h : mbmGetRmidInfoForCore m core = some idx) (hother : other ≠ core) :
    recordOf (m.setEntry idx { m.rmidTable idx with rmid := rmid, inUse := true }) other =
      recordOf m other := by
  rw [recordOf, recordOf, lookup_setEntry h]
  cases hlookup : mbmGetRmidInfoForCore m other with
  | none => rfl
  | some i =>
    obtain ⟨-, -, -, -, hcore⟩ := mbmGetRmidInfoForCore_eq_some.mp h
    obtain ⟨-, -, -, -, hid⟩ := mbmGetRmidInfoForCore_eq_some.mp hlookup
    have hne : i ≠ idx := by
      rintro rfl
      exact hother (hid.symm.trans hcore)
    simp [hne]

/-- The register of the core after the call. -/
theorem register_after (p : Platform) (s : Rdt) (core : Nat) (rmid : BitVec 32) :
    rmidField ((smpCallFunctionSingle p core (mbmSetRmid rmid) s).pqrAssoc core) =
      if core ∈ onlineCpus p then rmid.setWidth 10 else rmidField (s.pqrAssoc core) := by
  by_cases h : core ∈ onlineCpus p
  · rw [smpCallFunctionSingle_pqrAssoc h, if_pos rfl, if_pos h, rmidField_mbmSetRmid]
  · simp [smpCallFunctionSingle, h]

theorem setWidth_toNat_eq_iff (rmid : BitVec 32) :
    (rmid.setWidth 10).toNat = rmid.toNat ↔ rmid.toNat ≤ maxRmidLimit := by
  simp only [BitVec.toNat_setWidth, maxRmidLimit]
  omega

/-- Every field is below 1024, so a register that agrees with the RMID shows that it fits. -/
theorem register_agrees_iff (field : BitVec 10) (rmid : BitVec 32) :
    field.toNat = rmid.toNat ↔ rmid.toNat ≤ maxRmidLimit ∧ field = rmid.setWidth 10 := by
  constructor
  · intro h
    have hfit : rmid.toNat ≤ maxRmidLimit := by
      have := field.isLt
      simp only [maxRmidLimit]
      omega
    refine ⟨hfit, BitVec.eq_of_toNat_eq ?_⟩
    rw [h, (setWidth_toNat_eq_iff rmid).mpr hfit]
  · rintro ⟨hfit, rfl⟩
    exact (setWidth_toNat_eq_iff rmid).mpr hfit

/-- A call that found an entry, unfolded to what it did. -/
theorem allOrNothing_of_entry {t : Rdt}
    (hset : mbmSetRmidForCore p args.coreId.toNat args.rmid s = some t) :
    AllOrNothing p s (some args) ↔ Applied args s t := by
  simp only [AllOrNothing, setRmidOnCore, hset, if_true, Option.some.injEq, exists_eq_left']

theorem settable_of_allOrNothing (h : AllOrNothing p s (some args)) : Settable p s args := by
  cases hset : mbmSetRmidForCore p args.coreId.toNat args.rmid s with
  | none =>
    -- no entry: the lookup's NULL is dereferenced
    simp [AllOrNothing, setRmidOnCore, hset] at h
  | some t =>
    have happlied := (allOrNothing_of_entry hset).mp h
    obtain ⟨idx, hlookup, rfl⟩ := mbmSetRmidForCore_some hset
    obtain ⟨hfit, hfield⟩ := (register_agrees_iff _ _).mp happlied.register
    refine ⟨by simp [hlookup], hfit, ?_⟩
    by_cases honline : args.coreId.toNat ∈ onlineCpus p
    · exact Or.inl honline
    · rw [register_after, if_neg honline] at hfield
      exact Or.inr hfield

theorem allOrNothing_of_settable (h : Settable p s args) : AllOrNothing p s (some args) := by
  cases hset : mbmSetRmidForCore p args.coreId.toNat args.rmid s with
  | none =>
    have hlookup : mbmGetRmidInfoForCore s.mgr args.coreId.toNat = none := by
      simpa [mbmSetRmidForCore] using hset
    have hentry := h.entry
    simp [hlookup] at hentry
  | some t =>
    rw [allOrNothing_of_entry hset]
    obtain ⟨idx, hlookup, rfl⟩ := mbmSetRmidForCore_some hset
    constructor
    case register =>
      refine (register_agrees_iff _ _).mpr ⟨h.fits, ?_⟩
      rw [register_after]
      split_ifs with honline
      · rfl
      · exact h.reached.resolve_left honline
    case record =>
      rw [recordOf, lookup_setEntry hlookup, hlookup]
      simp
    case otherRegisters =>
      intro core hcore
      exact smpCallFunctionSingle_pqrAssoc_of_ne hcore
    case otherRecords =>
      intro core hcore
      exact recordOf_setEntry_of_ne hlookup hcore

/-- In every state, the ioctl is all-or-nothing exactly when what was read from user space, if
anything, can be set. -/
theorem allOrNothing_iff (p : Platform) (s : Rdt) (arg : Option RmidSetInfo) :
    AllOrNothing p s arg ↔ ∀ args, arg = some args → Settable p s args := by
  cases arg with
  | none => simp [AllOrNothing, setRmidOnCore, efault]
  | some args =>
    simp only [Option.some.injEq, forall_eq']
    exact ⟨settable_of_allOrNothing, allOrNothing_of_settable⟩

/-- Right after initialisation of four cores, RMID 1024 for core 2 clears its register. -/
theorem rmid_beyond_mask_splits :
    ¬ ∀ start s, mbmRmidInit fourCpus 3 true (fun _ => 0) = .ok start →
      Reachable (manager fourCpus start) s → ∀ arg, AllOrNothing fourCpus s arg := by
  intro hall
  have h := hall _ _ rfl .init (some ⟨1024, 2⟩)
  have hfit := (settable_of_allOrNothing h).fits
  revert hfit
  decide

end SetRmidIoctl
