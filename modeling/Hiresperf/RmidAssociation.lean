import Hiresperf.RmidTable

/-!
# The association registers

Bits 9..0 of `PQR_ASSOC` are the RMID of a core and the bits above are its class
of service. Every write keeps the upper bits, and a core with an RMID other than
0 has an entry below `num_cores`, so that the deallocation finds it.
-/

namespace RmidAssociation

open CpuSelection StepMachine RmidTable

def rmidField (val : BitVec 64) : BitVec 10 := val.extractLsb 9 0

def classOfService (val : BitVec 64) : BitVec 54 := val.extractLsb 63 10

theorem mbmSetRmid_eq (rmid : BitVec 32) (val : BitVec 64) :
    mbmSetRmid rmid val = BitField.replaceLow 10 (rmid.setWidth 64) val := by
  have hkeep : (~~~pqrAssocRmidMask).signExtend 64 = ~~~BitField.lowMask 64 10 := by decide
  have htake : pqrAssocRmidMask.setWidth 64 = BitField.lowMask 64 10 := by decide
  rw [mbmSetRmid, BitField.replaceLow, hkeep, BitVec.setWidth_and, htake]

@[simp] theorem classOfService_mbmSetRmid (rmid : BitVec 32) (val : BitVec 64) :
    classOfService (mbmSetRmid rmid val) = classOfService val := by
  rw [mbmSetRmid_eq]
  exact BitField.extractLsb_replaceLow_high (by decide) _ _

@[simp] theorem rmidField_mbmResetRmid (val : BitVec 64) : rmidField (mbmResetRmid val) = 0 := by
  rw [mbmResetRmid, mbmSetRmid_eq, rmidField, BitField.extractLsb_replaceLow_low (by decide)]
  rfl

/-- The upper bits of every register are those of `before`, now and at every step so far. -/
def UpperKept (before : RegisterFile) (s : Rdt) : Prop :=
  ∀ regs ∈ s.pqrAssoc :: s.history, ∀ core,
    classOfService (regs core) = classOfService (before core)

/-- An online core whose RMID is not 0 is in one of the first `n` slots. -/
def Tracked (p : Platform) (n : Nat) (s : Rdt) : Prop :=
  ∀ core ∈ onlineCpus p,
    (∃ i, i < n ∧ (s.mgr.rmidTable i).coreId = core) ∨ rmidField (s.pqrAssoc core) = 0

variable {p : Platform} {maxRmid : Nat} {before : RegisterFile}

/-- A call changes the register of its own core only. -/
theorem smpCallFunctionSingle_pqrAssoc {cpu core : Nat} {func : BitVec 64 → BitVec 64} {s : Rdt}
    (hcpu : cpu ∈ onlineCpus p) :
    (smpCallFunctionSingle p cpu func s).pqrAssoc core =
      if core = cpu then func (s.pqrAssoc cpu) else s.pqrAssoc core := by
  simp [smpCallFunctionSingle, hcpu, Function.update_apply]

theorem smpCallFunctionSingle_pqrAssoc_of_ne {cpu core : Nat} {func : BitVec 64 → BitVec 64}
    {s : Rdt} (h : core ≠ cpu) :
    (smpCallFunctionSingle p cpu func s).pqrAssoc core = s.pqrAssoc core := by
  unfold smpCallFunctionSingle
  split_ifs
  · exact Function.update_of_ne h _ _
  · rfl

theorem smpCallFunctionSingle_upperKept {cpu : Nat} {rmid : BitVec 32} {s : Rdt}
    (h : UpperKept before s) :
    UpperKept before (smpCallFunctionSingle p cpu (mbmSetRmid rmid) s) := by
  unfold smpCallFunctionSingle
  split_ifs
  · intro regs hregs core
    rcases List.mem_cons.mp hregs with rfl | hold
    · by_cases hcore : core = cpu
      · subst hcore
        simpa using h _ List.mem_cons_self core
      · simpa [hcore] using h _ List.mem_cons_self core
    · exact h regs hold core
  · exact h

/-! ## Initialisation -/

theorem resetAll_rmidField {cpus : List Nat} {core : Nat} {s : Rdt} (hcore : core ∈ onlineCpus p)
    (h : core ∈ cpus ∨ rmidField (s.pqrAssoc core) = 0) :
    rmidField ((cpus.foldl (fun s cpu => smpCallFunctionSingle p cpu mbmResetRmid s) s).pqrAssoc
      core) = 0 := by
  induction cpus generalizing s with
  | nil => simpa using h
  | cons cpu rest ih =>
    apply ih
    by_cases heq : core = cpu
    · subst heq
      right
      rw [smpCallFunctionSingle_pqrAssoc hcore, if_pos rfl]
      exact rmidField_mbmResetRmid _
    · rw [smpCallFunctionSingle_pqrAssoc_of_ne heq]
      simpa [heq] using h

theorem mbmRmidClearAssoc_rmidField {core : Nat} (hcore : core ∈ onlineCpus p) (s : Rdt) :
    rmidField ((mbmRmidClearAssoc p maxRmid s).pqrAssoc core) = 0 := by
  unfold mbmRmidClearAssoc
  rw [List.range_succ, List.foldl_append]
  exact resetAll_rmidField hcore (Or.inl hcore)

theorem mbmRmidClearAssoc_upperKept {s : Rdt} (h : UpperKept before s) :
    UpperKept before (mbmRmidClearAssoc p maxRmid s) := by
  unfold mbmRmidClearAssoc
  apply List.foldlRecOn (motive := UpperKept before) _ _ h
  intro t ht _ _
  apply List.foldlRecOn (motive := UpperKept before) _ _ ht
  intro t ht cpu _
  exact smpCallFunctionSingle_upperKept ht

theorem assignCore_upperKept {cpu n : Nat} {s : Rdt} (h : UpperKept before s) :
    UpperKept before (assignCore p cpu n s) :=
  smpCallFunctionSingle_upperKept (s := { s with mgr := s.mgr.setEntry n _ }) h

theorem assignCore_tracked {cpu n : Nat} {s : Rdt} (h : Tracked p n s) :
    Tracked p (n + 1) (assignCore p cpu n s) := by
  intro core hcore
  by_cases heq : core = cpu
  · left
    refine ⟨n, by omega, ?_⟩
    rw [assignCore_coreId, if_pos rfl, heq]
  · rcases h core hcore with ⟨i, hi, hcoreId⟩ | hzero
    · left
      refine ⟨i, by omega, ?_⟩
      rw [assignCore_coreId, if_neg (by omega), hcoreId]
    · right
      rw [← hzero]
      exact congrArg rmidField (smpCallFunctionSingle_pqrAssoc_of_ne heq)

theorem assignCores_assoc {rest : List Nat} {n : Nat} {s : Rdt} (htracked : Tracked p n s)
    (hupper : UpperKept before s) :
    Tracked p (assignCores p maxRmid rest n s).2 (assignCores p maxRmid rest n s).1 ∧
      UpperKept before (assignCores p maxRmid rest n s).1 := by
  induction rest generalizing n s with
  | nil => exact ⟨htracked, hupper⟩
  | cons cpu rest ih =>
    unfold assignCores
    split_ifs
    · exact ⟨htracked, hupper⟩
    · exact ih (assignCore_tracked htracked) (assignCore_upperKept hupper)

theorem mbmRmidAllocateAllCores_assoc {s : Rdt}
    (hzero : ∀ core ∈ onlineCpus p, rmidField (s.pqrAssoc core) = 0) (hupper : UpperKept before s) :
    Tracked p (mbmRmidAllocateAllCores p maxRmid s).mgr.numCores
        (mbmRmidAllocateAllCores p maxRmid s) ∧
      UpperKept before (mbmRmidAllocateAllCores p maxRmid s) := by
  dsimp only [mbmRmidAllocateAllCores]
  generalize (List.range maxCores).foldl clearAssignment s.mgr = cleared
  have hcleared : Tracked p 0 { s with mgr := cleared } := fun core hcore => Or.inr (hzero core hcore)
  exact assignCores_assoc hcleared hupper

structure AssocInv (p : Platform) (before : RegisterFile) (s : Rdt) : Prop where
  table : TableInv s.mgr
  tracked : Tracked p s.mgr.numCores s
  upper : UpperKept before s

theorem mbmRmidInit_assocInv (hcpus : ∀ cpu ∈ onlineCpus p, cpu < maxCores) {tableAllocated : Bool}
    {s : Rdt} (h : mbmRmidInit p maxRmid tableAllocated before = .ok s) :
    AssocInv p before s := by
  have htable := mbmRmidInit_inv hcpus h
  rw [mbmRmidInit_ok h] at htable ⊢
  have hstart : UpperKept before ⟨zeroedManager, before, []⟩ := by
    intro regs hregs core
    rw [List.mem_singleton.mp hregs]
  obtain ⟨htracked, hupper⟩ := mbmRmidAllocateAllCores_assoc
    (fun core hcore => mbmRmidClearAssoc_rmidField hcore _) (mbmRmidClearAssoc_upperKept hstart)
  exact ⟨htable, htracked, hupper⟩

/-! ## Updates and deallocation -/

theorem mbmSetRmidForCore_assocInv {coreId : Nat} {rmid : BitVec 32} {s t : Rdt}
    (h : AssocInv p before s) (hset : mbmSetRmidForCore p coreId rmid s = some t) :
    AssocInv p before t := by
  have htable := mbmSetRmidForCore_inv h.table hset
  obtain ⟨idx, hlookup, rfl⟩ := mbmSetRmidForCore_some hset
  refine ⟨htable, ?_, smpCallFunctionSingle_upperKept h.upper⟩
  intro core hcore
  by_cases heq : core = coreId
  · -- the core that is written to has the entry that the lookup found
    obtain ⟨-, -, -, -, hid⟩ := mbmGetRmidInfoForCore_eq_some.mp hlookup
    left
    refine ⟨idx, h.table.lookup_lt hlookup, ?_⟩
    rw [setEntry_coreId, hid, heq]
    rfl
  · rcases h.tracked core hcore with ⟨i, hi, hid⟩ | hzero
    · left
      refine ⟨i, hi, ?_⟩
      rw [setEntry_coreId, hid]
      rfl
    · right
      rw [← hzero]
      exact congrArg rmidField (smpCallFunctionSingle_pqrAssoc_of_ne heq)

/-- What the deallocation still has to do after `turn` slots. -/
structure Deallocated (p : Platform) (before : RegisterFile) (numCores turn : Nat) (s : Rdt) :
    Prop where
  inUse : ∀ i, turn ≤ i → i < numCores → (s.mgr.rmidTable i).inUse = true
  remaining : ∀ core ∈ onlineCpus p,
    (∃ i, turn ≤ i ∧ i < numCores ∧ (s.mgr.rmidTable i).coreId = core) ∨
      rmidField (s.pqrAssoc core) = 0
  upper : UpperKept before s

theorem deallocateEntry_deallocated {numCores turn : Nat} {s : Rdt} (hturn : turn < numCores)
    (h : Deallocated p before numCores turn s) :
    Deallocated p before numCores (turn + 1) (deallocateEntry p s turn) := by
  have huse := h.inUse turn le_rfl hturn
  have hentry : deallocateEntry p s turn =
      { smpCallFunctionSingle p (s.mgr.rmidTable turn).coreId mbmResetRmid s with
        mgr := s.mgr.setEntry turn { s.mgr.rmidTable turn with inUse := false } } := by
    simp [deallocateEntry, huse]
  have htable : ∀ i, turn + 1 ≤ i →
      (deallocateEntry p s turn).mgr.rmidTable i = s.mgr.rmidTable i := by
    intro i hi
    have hne : i ≠ turn := by omega
    rw [hentry, setEntry_of_ne _ hne]
  constructor
  case inUse =>
    intro i hi hlt
    rw [htable i hi]
    exact h.inUse i (by omega) hlt
  case remaining =>
    intro core hcore
    by_cases heq : core = (s.mgr.rmidTable turn).coreId
    · right
      rw [hentry]
      subst heq
      simp only [smpCallFunctionSingle_pqrAssoc hcore, if_true, rmidField_mbmResetRmid]
    · rcases h.remaining core hcore with ⟨i, hi, hlt, hid⟩ | hzero
      · -- the slot just freed belongs to another core
        have hne : i ≠ turn := by
          rintro rfl
          exact heq hid.symm
        left
        refine ⟨i, by omega, hlt, ?_⟩
        rw [htable i (by omega), hid]
      · right
        rw [hentry, ← hzero]
        exact congrArg rmidField (smpCallFunctionSingle_pqrAssoc_of_ne heq)
  case upper =>
    rw [hentry]
    exact smpCallFunctionSingle_upperKept h.upper

theorem mbmRmidDeallocateAll_deallocated {s : Rdt} (h : AssocInv p before s) :
    (∀ core ∈ onlineCpus p, rmidField ((mbmRmidDeallocateAll p s).pqrAssoc core) = 0) ∧
      UpperKept before (mbmRmidDeallocateAll p s) := by
  have hstart : Deallocated p before s.mgr.numCores 0 s := by
    refine ⟨fun i _ hi => h.table.inUse i hi, ?_, h.upper⟩
    intro core hcore
    simpa using h.tracked core hcore
  have hdone := Loops.foldl_range_invariant hstart
    (fun turn t hturn ht => deallocateEntry_deallocated hturn ht)
  refine ⟨?_, hdone.upper⟩
  intro core hcore
  rcases hdone.remaining core hcore with ⟨i, hge, hlt, -⟩ | hzero
  · omega
  · exact hzero

theorem manager_assocInv (hcpus : ∀ cpu ∈ onlineCpus p, cpu < maxCores) {tableAllocated : Bool}
    {start s : Rdt} (hinit : mbmRmidInit p maxRmid tableAllocated before = .ok start)
    (hs : Reachable (manager p start) s) : AssocInv p before s := by
  apply Reaches.invariant (mbmRmidInit_assocInv hcpus hinit) _ hs
  intro s a t hinv _ hstep
  cases a with
  | setRmidForCore coreId rmid => exact mbmSetRmidForCore_assocInv hinv hstep
  | deallocateAll =>
    cases hstep
    obtain ⟨hzero, hupper⟩ := mbmRmidDeallocateAll_deallocated hinv
    exact ⟨mbmRmidDeallocateAll_inv hinv.table, fun core hcore => Or.inr (hzero core hcore), hupper⟩

/-- After `mbm_rmid_deinit` every online core has RMID 0 again, and no step has touched a
class of service. -/
theorem mbmRmidDeinit_restores (hcpus : ∀ cpu ∈ onlineCpus p, cpu < maxCores)
    {tableAllocated : Bool} {start s : Rdt}
    (hinit : mbmRmidInit p maxRmid tableAllocated before = .ok start)
    (hs : Reachable (manager p start) s) :
    (∀ core ∈ onlineCpus p, ((mbmRmidDeinit p s).1 core).extractLsb 9 0 = 0) ∧
      ∀ regs ∈ (mbmRmidDeinit p s).1 :: (mbmRmidDeinit p s).2, ∀ core,
        (regs core).extractLsb 63 10 = (before core).extractLsb 63 10 :=
  mbmRmidDeallocateAll_deallocated (manager_assocInv hcpus hinit hs)

/-- Four cores of class 1 start with RMID 5, and core 2 is given RMID 7. -/
theorem mbmRmidDeinit_restores_core_two : ∃ start s,
    mbmRmidInit fourCpus 3 true (fun _ => 0x100000005) = .ok start ∧
      Reachable (manager fourCpus start) s ∧ s.pqrAssoc 2 = 0x100000007 ∧
      ((mbmRmidDeinit fourCpus s).1 2).extractLsb 9 0 = 0 ∧
      ((mbmRmidDeinit fourCpus s).1 2).extractLsb 63 10 =
        (0x100000005 : BitVec 64).extractLsb 63 10 := by
  have hcpus : ∀ cpu ∈ onlineCpus fourCpus, cpu < maxCores := by decide
  obtain ⟨start, hinit⟩ :
      ∃ start, mbmRmidInit fourCpus 3 true (fun _ => 0x100000005) = .ok start := ⟨_, rfl⟩
  obtain ⟨s, hs, hreg⟩ := reachable_of_run (m := manager fourCpus start)
    (p := fun s => s.pqrAssoc 2 == 0x100000007) [.setRmidForCore 2 7]
    (by rw [mbmRmidInit_ok hinit]; decide +kernel)
  obtain ⟨hzero, hupper⟩ := mbmRmidDeinit_restores hcpus hinit hs
  exact ⟨start, s, hinit, hs, by simpa using hreg, hzero 2 (by decide),
    hupper _ List.mem_cons_self 2⟩

end RmidAssociation
