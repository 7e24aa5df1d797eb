import Hiresperf.RmidAssociation

/-!
# RMIDs of the served cores

`mbm_rmid_allocate_all_cores` takes the RMID of a core from its number, stops by
the count of the cores it has served, and writes into two arrays of `MAX_CORES`
elements. The model of the loop lets both arrays go on for ever, so the indices
it uses are collected beside it.
-/

namespace RmidAllocation

open CpuSelection RmidTable RmidAssociation

/-- `MAX_RMID` of `mbm/types.h`. -/
def maxRmidLimit : Nat := 1023

def defaultMaxRmid : Nat := 255

/-- The `max_rmid` that `mbm_init_cap` takes from register ECX. -/
def mbmInitCap (ecx : BitVec 32) : Nat :=
  if ecx = 0 ∨ ecx.toNat > maxRmidLimit then defaultMaxRmid else ecx.toNat

/-- An element of one of the two arrays. -/
inductive Access where
  | rmidTable (idx : Nat)
  | coreToRmidMap (idx : Nat)

def Access.index : Access → Nat
  | .rmidTable idx => idx
  | .coreToRmidMap idx => idx

/-- The turns of the loop over the online cores: the slot and the core of each. -/
def servedFrom (maxRmid : Nat) : List Nat → Nat → List (Nat × Nat)
  | [], _ => []
  | cpu :: rest, numCores =>
    if numCores > maxRmid then [] else (numCores, cpu) :: servedFrom maxRmid rest (numCores + 1)

def clearAccesses : List Access :=
  (List.range maxCores).flatMap fun cpu => [.rmidTable cpu, .coreToRmidMap cpu]

/-- Every access to the arrays, those of the clearing loop first. -/
def allocateAccesses (p : Platform) (maxRmid : Nat) : List Access :=
  clearAccesses ++ (servedFrom maxRmid (onlineCpus p) 0).flatMap fun turn =>
    [.rmidTable turn.1, .coreToRmidMap turn.2]

/-- The state after the turns given. -/
def serve (p : Platform) (turns : List (Nat × Nat)) (s : Rdt) : Rdt :=
  turns.foldl (fun s turn => assignCore p turn.2 turn.1 s) s

/-- The loop of the model makes exactly these turns. -/
theorem assignCores_eq_serve (p : Platform) (maxRmid : Nat) (cpus : List Nat) (n : Nat)
    (s : Rdt) :
    assignCores p maxRmid cpus n s =
      (serve p (servedFrom maxRmid cpus n) s, n + (servedFrom maxRmid cpus n).length) := by
  induction cpus generalizing n s with
  | nil => rfl
  | cons cpu rest ih =>
    unfold assignCores servedFrom
    split_ifs with hstop
    · rfl
    · rw [ih]
      simp only [serve, List.foldl_cons, List.length_cons, Prod.mk.injEq, true_and]
      omega

theorem servedFrom_cpus (maxRmid : Nat) (cpus : List Nat) (n : Nat) :
    (servedFrom maxRmid cpus n).map Prod.snd = cpus.take (maxRmid + 1 - n) := by
  induction cpus generalizing n with
  | nil => simp [servedFrom]
  | cons cpu rest ih =>
    unfold servedFrom
    split_ifs with hstop
    · have hnone : maxRmid + 1 - n = 0 := by omega
      simp [hnone]
    · have hsome : maxRmid + 1 - n = (maxRmid + 1 - (n + 1)) + 1 := by omega
      rw [List.map_cons, ih, hsome, List.take_succ_cons]

theorem servedFrom_slots (maxRmid : Nat) (cpus : List Nat) (n : Nat) :
    (servedFrom maxRmid cpus n).map Prod.fst =
      List.range' n (servedFrom maxRmid cpus n).length := by
  induction cpus generalizing n with
  | nil => rfl
  | cons cpu rest ih =>
    unfold servedFrom
    split_ifs with hstop
    · rfl
    · rw [List.map_cons, ih, List.length_cons, List.range'_succ]

/-- What a turn leaves in its slot. -/
def servedInfo (cpu : Nat) : RmidInfo := ⟨BitVec.ofNat 32 (cpu + 1), cpu, true, 0, 0⟩

theorem assignCore_rmidTable (p : Platform) (cpu n i : Nat) (s : Rdt) :
    (assignCore p cpu n s).mgr.rmidTable i =
      if i = n then servedInfo cpu else s.mgr.rmidTable i := by
  by_cases h : i = n
  · subst h
    simp [assignCore, servedInfo]
  · simp [assignCore, h]

theorem assignCore_pqrAssoc {p : Platform} {cpu : Nat} (h : cpu ∈ onlineCpus p) (n core : Nat)
    (s : Rdt) :
    (assignCore p cpu n s).pqrAssoc core =
      if core = cpu then mbmSetRmid (servedInfo cpu).rmid (s.pqrAssoc cpu) else s.pqrAssoc core :=
  smpCallFunctionSingle_pqrAssoc (s := { s with mgr := s.mgr.setEntry n _ }) h

variable {p : Platform} {maxRmid : Nat}

theorem serve_rmidTable {turns : List (Nat × Nat)} {s : Rdt}
    (slots : (turns.map Prod.fst).Nodup) :
    (∀ i, i ∉ turns.map Prod.fst → (serve p turns s).mgr.rmidTable i = s.mgr.rmidTable i) ∧
    ∀ turn ∈ turns, (serve p turns s).mgr.rmidTable turn.1 = servedInfo turn.2 := by
  induction turns generalizing s with
  | nil => simp [serve]
  | cons first rest ih =>
    obtain ⟨hfirst, hrest⟩ := List.nodup_cons.mp slots
    obtain ⟨others, entries⟩ := ih (s := assignCore p first.2 first.1 s) hrest
    refine ⟨?_, ?_⟩
    · intro i hi
      rw [List.map_cons, List.mem_cons, not_or] at hi
      have hrec := others i hi.2
      rw [assignCore_rmidTable, if_neg hi.1] at hrec
      exact hrec
    · intro turn hturn
      rcases List.mem_cons.mp hturn with rfl | hturn
      · have hrec := others turn.1 hfirst
        rw [assignCore_rmidTable, if_pos rfl] at hrec
        exact hrec
      · exact entries turn hturn

theorem serve_pqrAssoc {turns : List (Nat × Nat)} {s : Rdt}
    (cpus : (turns.map Prod.snd).Nodup) (online : ∀ turn ∈ turns, turn.2 ∈ onlineCpus p) :
    (∀ core, core ∉ turns.map Prod.snd → (serve p turns s).pqrAssoc core = s.pqrAssoc core) ∧
    ∀ turn ∈ turns, (serve p turns s).pqrAssoc turn.2 =
      mbmSetRmid (servedInfo turn.2).rmid (s.pqrAssoc turn.2) := by
  induction turns generalizing s with
  | nil => simp [serve]
  | cons first rest ih =>
    obtain ⟨hfirst, hrest⟩ := List.nodup_cons.mp cpus
    obtain ⟨honline, hothers⟩ := List.forall_mem_cons.mp online
    obtain ⟨others, entries⟩ := ih (s := assignCore p first.2 first.1 s) hrest hothers
    refine ⟨?_, ?_⟩
    · intro core hcore
      rw [List.map_cons, List.mem_cons, not_or] at hcore
      have hrec := others core hcore.2
      rw [assignCore_pqrAssoc honline, if_neg hcore.1] at hrec
      exact hrec
    · intro turn hturn
      rcases List.mem_cons.mp hturn with rfl | hturn
      · have hrec := others turn.2 hfirst
        rw [assignCore_pqrAssoc honline, if_pos rfl] at hrec
        exact hrec
      · have hne : turn.2 ≠ first.2 := by
          intro heq
          exact hfirst (heq ▸ List.mem_map_of_mem hturn)
        have hrec := entries turn hturn
        rw [assignCore_pqrAssoc honline, if_neg hne] at hrec
        exact hrec

/-- The turns of `mbm_rmid_allocate_all_cores`. -/
abbrev served (p : Platform) (maxRmid : Nat) : List (Nat × Nat) :=
  servedFrom maxRmid (onlineCpus p) 0

theorem served_cpus : (served p maxRmid).map Prod.snd = (onlineCpus p).take (maxRmid + 1) :=
  servedFrom_cpus maxRmid (onlineCpus p) 0

theorem served_cpus_nodup : ((served p maxRmid).map Prod.snd).Nodup := by
  rw [served_cpus]
  exact (onlineCpus_nodup p).sublist (List.take_sublist _ _)

theorem served_online {turn : Nat × Nat} (h : turn ∈ served p maxRmid) :
    turn.2 ∈ onlineCpus p := by
  have hmem : turn.2 ∈ (served p maxRmid).map Prod.snd := List.mem_map_of_mem h
  rw [served_cpus] at hmem
  exact List.mem_of_mem_take hmem

theorem mem_slots {i : Nat} :
    i ∈ (served p maxRmid).map Prod.fst ↔ i < (served p maxRmid).length := by
  rw [servedFrom_slots, List.mem_range'_1, Nat.zero_add]
  exact ⟨fun h => h.2, fun h => ⟨Nat.zero_le i, h⟩⟩

theorem slots_nodup : ((served p maxRmid).map Prod.fst).Nodup := by
  rw [servedFrom_slots]
  exact List.nodup_range'

/-- The slots below `num_cores` and the turns of the loop are the same thing. -/
theorem allocated_slots (s : Rdt) :
    (mbmRmidAllocateAllCores p maxRmid s).mgr.numCores = (served p maxRmid).length ∧
    ∀ turn ∈ served p maxRmid,
      (mbmRmidAllocateAllCores p maxRmid s).mgr.rmidTable turn.1 = servedInfo turn.2 := by
  dsimp only [mbmRmidAllocateAllCores]
  generalize (List.range maxCores).foldl clearAssignment s.mgr = cleared
  rw [assignCores_eq_serve]
  refine ⟨Nat.zero_add _, ?_⟩
  exact (serve_rmidTable slots_nodup).2

theorem allocated_registers (s : Rdt) : ∀ turn ∈ served p maxRmid,
    (mbmRmidAllocateAllCores p maxRmid s).pqrAssoc turn.2 =
      mbmSetRmid (servedInfo turn.2).rmid (s.pqrAssoc turn.2) := by
  dsimp only [mbmRmidAllocateAllCores]
  generalize (List.range maxCores).foldl clearAssignment s.mgr = cleared
  rw [assignCores_eq_serve]
  exact (serve_pqrAssoc served_cpus_nodup fun turn hturn => served_online hturn).2

/-- What the allocation owes: accesses inside the arrays; for every served core an RMID that
exists and is not the reserved one; and in the register of each a field of its own. -/
structure AllocationSound (p : Platform) (maxRmid : Nat) (s : Rdt) : Prop where
  inBounds : ∀ a ∈ allocateAccesses p maxRmid, a.index < maxCores
  inRange : ∀ i, i < (mbmRmidAllocateAllCores p maxRmid s).mgr.numCores →
    1 ≤ ((mbmRmidAllocateAllCores p maxRmid s).mgr.rmidTable i).rmid.toNat ∧
      ((mbmRmidAllocateAllCores p maxRmid s).mgr.rmidTable i).rmid.toNat ≤ maxRmid
  distinct : ∀ i j, i < (mbmRmidAllocateAllCores p maxRmid s).mgr.numCores →
    j < (mbmRmidAllocateAllCores p maxRmid s).mgr.numCores → i ≠ j →
      ((mbmRmidAllocateAllCores p maxRmid s).mgr.rmidTable i).rmid &&& pqrAssocRmidMask ≠
        ((mbmRmidAllocateAllCores p maxRmid s).mgr.rmidTable j).rmid &&& pqrAssocRmidMask
  monitored : ∀ i, i < (mbmRmidAllocateAllCores p maxRmid s).mgr.numCores →
    rmidField ((mbmRmidAllocateAllCores p maxRmid s).pqrAssoc
      ((mbmRmidAllocateAllCores p maxRmid s).mgr.rmidTable i).coreId) =
        ((mbmRmidAllocateAllCores p maxRmid s).mgr.rmidTable i).rmid.setWidth 10 ∧
    ((mbmRmidAllocateAllCores p maxRmid s).mgr.rmidTable i).rmid.setWidth 10 ≠ 0

theorem mbmInitCap_le (ecx : BitVec 32) : mbmInitCap ecx ≤ maxRmidLimit := by
  rw [mbmInitCap]
  split_ifs with h
  · decide
  · rw [not_or] at h
    omega

theorem servedInfo_toNat {cpu : Nat} (h : cpu < maxCores) :
    (servedInfo cpu).rmid.toNat = cpu + 1 := by
  simp only [maxCores] at h
  simp only [servedInfo, BitVec.toNat_ofNat]
  omega

/-- A slot in use, as the turn that filled it. -/
theorem exists_turn (s : Rdt) {i : Nat}
    (hi : i < (mbmRmidAllocateAllCores p maxRmid s).mgr.numCores) :
    ∃ cpu, (i, cpu) ∈ served p maxRmid ∧
      (mbmRmidAllocateAllCores p maxRmid s).mgr.rmidTable i = servedInfo cpu := by
  obtain ⟨hnum, hslots⟩ := @allocated_slots p maxRmid s
  rw [hnum] at hi
  obtain ⟨⟨slot, cpu⟩, hturn, rfl⟩ := List.mem_map.mp (mem_slots.mpr hi)
  exact ⟨cpu, hturn, hslots _ hturn⟩

theorem turn_lt (s : Rdt) {turn : Nat × Nat} (h : turn ∈ served p maxRmid) :
    turn.1 < (mbmRmidAllocateAllCores p maxRmid s).mgr.numCores := by
  rw [(allocated_slots s).1]
  exact mem_slots.mp (List.mem_map_of_mem h)

/-- The core of a turn is an index of the map. -/
theorem AllocationSound.cpu_lt {s : Rdt} (h : AllocationSound p maxRmid s) {turn : Nat × Nat}
    (hturn : turn ∈ served p maxRmid) : turn.2 < maxCores ∧ turn.2 < maxRmid := by
  have hmap : turn.2 < maxCores := by
    refine h.inBounds (.coreToRmidMap turn.2) (List.mem_append_right _ ?_)
    exact List.mem_flatMap.mpr ⟨turn, hturn, by simp⟩
  have hrange := (h.inRange turn.1 (turn_lt s hturn)).2
  rw [(allocated_slots s).2 turn hturn, servedInfo_toNat hmap] at hrange
  exact ⟨hmap, hrange⟩

/-- With every served core below `max_rmid` there is no core that is not served: one core more
would need `max_rmid + 1` numbers below `max_rmid`. -/
theorem online_served {bound : Nat} (h : ∀ turn ∈ served p maxRmid, turn.2 < bound)
    (hbound : bound ≤ maxRmid) {cpu : Nat} (hcpu : cpu ∈ onlineCpus p) :
    ∃ turn ∈ served p maxRmid, turn.2 = cpu := by
  have hsub : (served p maxRmid).map Prod.snd ⊆ List.range bound := by
    intro c hc
    obtain ⟨turn, hturn, rfl⟩ := List.mem_map.mp hc
    exact List.mem_range.mpr (h turn hturn)
  have hlen := (List.subperm_of_subset served_cpus_nodup hsub).length_le
  rw [served_cpus, List.length_take, List.length_range] at hlen
  have hall : (served p maxRmid).map Prod.snd = onlineCpus p := by
    rw [served_cpus]
    exact List.take_of_length_le (by omega)
  rw [← hall] at hcpu
  exact List.mem_map.mp hcpu

/-- Small numbers keep apart under the mask. -/
theorem servedInfo_field {cpu : Nat} (h : cpu + 1 ≤ maxRmidLimit) :
    ((servedInfo cpu).rmid &&& pqrAssocRmidMask).toNat = cpu + 1 ∧
      ((servedInfo cpu).rmid.setWidth 10).toNat = cpu + 1 := by
  simp only [maxRmidLimit] at h
  have hmask : ∀ n : Nat, n &&& 1023 = n % 1024 := fun n => Nat.and_two_pow_sub_one_eq_mod n 10
  constructor
  · simp only [servedInfo, pqrAssocRmidMask, BitVec.toNat_and, BitVec.toNat_ofNat]
    have hconst : BitVec.toNat (0x3FF : BitVec 32) = 1023 := by decide
    rw [hconst, hmask]
    omega
  · simp only [servedInfo, BitVec.toNat_setWidth, BitVec.toNat_ofNat]
    omega

theorem rmidField_mbmSetRmid (rmid : BitVec 32) (val : BitVec 64) :
    rmidField (mbmSetRmid rmid val) = rmid.setWidth 10 := by
  rw [mbmSetRmid_eq, rmidField, BitField.extractLsb_replaceLow_low (by decide)]
  apply BitVec.eq_of_getLsbD_eq
  intro i hi
  simp [hi]

/-- No access is out of bounds if the cores have numbers below the bound: there are no more
slots than cores. -/
theorem accesses_in_bounds (h : ∀ cpu ∈ onlineCpus p, cpu < maxCores) :
    ∀ a ∈ allocateAccesses p maxRmid, a.index < maxCores := by
  intro a ha
  rcases List.mem_append.mp ha with ha | ha
  · obtain ⟨cpu, hcpu, ha⟩ := List.mem_flatMap.mp ha
    rcases List.mem_pair.mp ha with rfl | rfl
    · exact List.mem_range.mp hcpu
    · exact List.mem_range.mp hcpu
  · obtain ⟨turn, hmem, ha⟩ := List.mem_flatMap.mp ha
    rcases List.mem_pair.mp ha with rfl | rfl
    · have hslot := mem_slots.mp (List.mem_map_of_mem (f := Prod.fst) hmem)
      have hlen := onlineCpus_length_le h
      have hserved := congrArg List.length (@served_cpus p maxRmid)
      rw [List.length_map, List.length_take] at hserved
      simp only [Access.index]
      omega
    · exact h turn.2 (served_online hmem)

/-- The allocation is sound exactly when every online core has a number below `max_rmid` and
below `MAX_CORES`. -/
theorem allocation_sound_iff (p : Platform) (ecx : BitVec 32) (s : Rdt) :
    AllocationSound p (mbmInitCap ecx) s ↔
      ∀ cpu ∈ onlineCpus p, cpu < mbmInitCap ecx ∧ cpu < maxCores := by
  have hlimit := mbmInitCap_le ecx
  constructor
  · intro h cpu hcpu
    obtain ⟨turn, hturn, rfl⟩ :=
      online_served (fun turn hturn => (h.cpu_lt hturn).2) le_rfl hcpu
    exact ⟨(h.cpu_lt hturn).2, (h.cpu_lt hturn).1⟩
  · intro h
    have hturn : ∀ turn ∈ served p (mbmInitCap ecx),
        turn.2 < mbmInitCap ecx ∧ turn.2 < maxCores :=
      fun turn hturn => h turn.2 (served_online hturn)
    have hfield : ∀ turn ∈ served p (mbmInitCap ecx),
        ((servedInfo turn.2).rmid &&& pqrAssocRmidMask).toNat = turn.2 + 1 ∧
          ((servedInfo turn.2).rmid.setWidth 10).toNat = turn.2 + 1 := by
      intro turn hmem
      have := (hturn turn hmem).1
      exact servedInfo_field (by omega)
    constructor
    case inBounds =>
      exact accesses_in_bounds fun cpu hcpu => (h cpu hcpu).2
    case inRange =>
      intro i hi
      obtain ⟨cpu, hmem, hinfo⟩ := exists_turn s hi
      rw [hinfo, servedInfo_toNat (hturn _ hmem).2]
      exact ⟨by omega, (hturn _ hmem).1⟩
    case distinct =>
      intro i j hi hj hij heq
      obtain ⟨cpu, hmem, hinfo⟩ := exists_turn s hi
      obtain ⟨cpu', hmem', hinfo'⟩ := exists_turn s hj
      rw [hinfo, hinfo'] at heq
      have hnat := congrArg BitVec.toNat heq
      rw [(hfield _ hmem).1, (hfield _ hmem').1] at hnat
      have hcpu : cpu = cpu' := by simpa using hnat
      have hpair := List.inj_on_of_nodup_map served_cpus_nodup hmem hmem' hcpu
      exact hij (congrArg Prod.fst hpair)
    case monitored =>
      intro i hi
      obtain ⟨cpu, hmem, hinfo⟩ := exists_turn s hi
      rw [hinfo]
      refine ⟨?_, ?_⟩
      · change rmidField ((mbmRmidAllocateAllCores p (mbmInitCap ecx) s).pqrAssoc cpu) = _
        rw [allocated_registers s _ hmem]
        exact rmidField_mbmSetRmid _ _
      · intro hzero
        have hnat := congrArg BitVec.toNat hzero
        rw [(hfield _ hmem).2] at hnat
        cases hnat

/-- Four cores and a largest RMID of 3: the fourth core is served with RMID 4. -/
theorem fourth_core_beyond_max_rmid :
    ¬ AllocationSound fourCpus (mbmInitCap 3) ⟨zeroedManager, fun _ => 0, []⟩ := by
  intro h
  have hrange := (h.inRange 3 (by decide +kernel)).2
  revert hrange
  decide +kernel

end RmidAllocation
