import Hiresperf.DiscoveryTable
import Hiresperf.Foundation.WhileLoop
import Mathlib.Data.List.TakeWhile

/-!
# The walk over the PCI devices

`pcm_process_dvsec` of `pci.h` goes through the DVSECs of every Intel device and
calls back for those that match. How the kernel finds the capabilities is not part
of the module: a device answers where its first DVSEC is and which one follows an
offset. The loop over a device ends at the end of that chain, or at the first DVSEC
that is empty or whose BAR is of no use; a chain that leads back to itself need not
have an end.
-/

namespace DvsecWalk

open UncoreDiscovery WhileLoop

/-- `union pcm_vsec`, by its 32-bit words. -/
structure PcmVsec where
  raw0 : BitVec 32
  raw1 : BitVec 32
  raw2 : BitVec 32
  raw3 : BitVec 32
  deriving DecidableEq

namespace PcmVsec

def capId (v : PcmVsec) : BitVec 16 := v.raw0.extractLsb 15 0
def entryID (v : PcmVsec) : BitVec 16 := v.raw2.extractLsb 15 0
def tBIR (v : PcmVsec) : Nat := (v.raw3.extractLsb 2 0).toNat

/-- The field of 29 bits as a number, without the three bits below it. -/
def address (v : PcmVsec) : BitVec 64 := (v.raw3.extractLsb 31 3).setWidth 64

/-- Both 64-bit words are 0. -/
def isZero (v : PcmVsec) : Bool := v.raw0 == 0 && v.raw1 == 0 && v.raw2 == 0 && v.raw3 == 0

end PcmVsec

/-- A device as the kernel answers for it. Offset 0 says that there is no (further) DVSEC. -/
structure PciDev where
  vendor : BitVec 16
  node : Int
  readConfigDword : Nat → BitVec 32
  findDvsec : Nat
  findNextDvsec : Nat → Nat
  resourceStart : Nat → BitVec 64

def intelVendorId : BitVec 16 := 0x8086

def pciStdResourceEnd : Nat := 5

def readVsec (dev : PciDev) (capOffset : Nat) : PcmVsec where
  raw0 := dev.readConfigDword capOffset
  raw1 := dev.readConfigDword (capOffset + 4)
  raw2 := dev.readConfigDword (capOffset + 8)
  raw3 := dev.readConfigDword (capOffset + 12)

section Walk

variable {S : Type} (matchFunc : PcmVsec → Bool)
  (processFunc : PciDev → BitVec 64 → PcmVsec → S → S)

/-- The loop over the DVSECs of one device. -/
def walkDvsecs (dev : PciDev) : Nat → Nat → S → Option S
  | 0, _, _ => none
  | fuel + 1, capOffset, priv =>
    if capOffset = 0 then some priv
    else
      let vsec := readVsec dev capOffset
      if vsec.isZero then some priv
      else if matchFunc vsec then
        let tbir := vsec.tBIR
        if tbir > pciStdResourceEnd then some priv
        else
          let barAddr := dev.resourceStart tbir
          if barAddr = 0 then some priv
          else walkDvsecs dev fuel (dev.findNextDvsec capOffset)
            (processFunc dev (barAddr + vsec.address) vsec priv)
      else walkDvsecs dev fuel (dev.findNextDvsec capOffset) priv

def pcmProcessDvsec (fuel : Nat) : List PciDev → S → Option S
  | [], priv => some priv
  | dev :: rest, priv =>
    if dev.vendor ≠ intelVendorId then pcmProcessDvsec fuel rest priv
    else (walkDvsecs matchFunc processFunc dev fuel dev.findDvsec priv).bind
      (pcmProcessDvsec fuel rest)

/-! ## What is visited -/

/-- The offset after `n` turns of the loop. -/
def PciDev.offsetAt (dev : PciDev) (n : Nat) : Nat := dev.findNextDvsec^[n] dev.findDvsec

/-- A DVSEC that matches and whose table cannot be reached. -/
def unusable (dev : PciDev) (vsec : PcmVsec) : Bool :=
  matchFunc vsec && (decide (vsec.tBIR > pciStdResourceEnd) || dev.resourceStart vsec.tBIR == 0)

/-- The loop ends at this offset. -/
def breaks (dev : PciDev) (capOffset : Nat) : Bool :=
  capOffset == 0 || (readVsec dev capOffset).isZero ||
    unusable matchFunc dev (readVsec dev capOffset)

def tableAddr (dev : PciDev) (vsec : PcmVsec) : BitVec 64 :=
  dev.resourceStart vsec.tBIR + vsec.address

def visit (dev : PciDev) (priv : S) (vsec : PcmVsec) : S :=
  if matchFunc vsec then processFunc dev (tableAddr dev vsec) vsec priv else priv

abbrev EndsAfter (dev : PciDev) (n : Nat) : Prop :=
  StopsAfter (breaks matchFunc dev) dev.findNextDvsec dev.findDvsec n

open Classical in
/-- The DVSECs of a device before the end of its loop. -/
noncomputable def visitedDvsecs (dev : PciDev) : List PcmVsec :=
  if h : ∃ n, EndsAfter matchFunc dev n then
    (List.range h.choose).map fun i => readVsec dev (dev.offsetAt i)
  else []

/-- The arguments of a call of `processFunc`. -/
structure DvsecCall where
  dev : PciDev
  barAddr : BitVec 64
  vsec : PcmVsec

def callFor (dev : PciDev) (vsec : PcmVsec) : DvsecCall := ⟨dev, tableAddr dev vsec, vsec⟩

def DvsecCall.perform (priv : S) (c : DvsecCall) : S := processFunc c.dev c.barAddr c.vsec priv

noncomputable def deviceCalls (dev : PciDev) : List DvsecCall :=
  ((visitedDvsecs matchFunc dev).filter matchFunc).map (callFor dev)

/-- The calls of `processFunc`, in order. -/
noncomputable def calls (devs : List PciDev) : List DvsecCall :=
  (devs.filter fun dev => dev.vendor == intelVendorId).flatMap (deviceCalls matchFunc)

variable {matchFunc processFunc}

theorem walkDvsecs_succ (dev : PciDev) (fuel capOffset : Nat) (priv : S) :
    walkDvsecs matchFunc processFunc dev (fuel + 1) capOffset priv =
      if breaks matchFunc dev capOffset then some priv
      else walkDvsecs matchFunc processFunc dev fuel (dev.findNextDvsec capOffset)
        (visit matchFunc processFunc dev priv (readVsec dev capOffset)) := by
  rw [walkDvsecs]
  by_cases hend : capOffset = 0
  · simp [breaks, hend]
  · by_cases hzero : (readVsec dev capOffset).isZero = true
    · simp [breaks, hzero]
    · by_cases hmatch : matchFunc (readVsec dev capOffset) = true
      · by_cases htbir : (readVsec dev capOffset).tBIR > pciStdResourceEnd
        · simp [breaks, unusable, hmatch, htbir]
        · simp [breaks, unusable, visit, tableAddr, hend, hzero, hmatch, htbir]
      · simp [breaks, unusable, visit, hend, hzero, hmatch]

/-- The loop over a device is a while loop on the offset and the private data. -/
theorem walkDvsecs_eq_run (dev : PciDev) (fuel capOffset : Nat) (priv : S) :
    walkDvsecs matchFunc processFunc dev fuel capOffset priv =
      (run (fun st : Nat × S => breaks matchFunc dev st.1)
        (fun st => (dev.findNextDvsec st.1,
          visit matchFunc processFunc dev st.2 (readVsec dev st.1)))
        fuel (capOffset, priv)).map Prod.snd := by
  induction fuel generalizing capOffset priv with
  | zero => rfl
  | succ fuel ih =>
    rw [walkDvsecs_succ, run]
    by_cases hbreak : breaks matchFunc dev capOffset = true
    · simp [hbreak]
    · simp [hbreak, ih]

theorem iterate_walk (dev : PciDev) (n capOffset : Nat) (priv : S) :
    (fun st : Nat × S => (dev.findNextDvsec st.1,
        visit matchFunc processFunc dev st.2 (readVsec dev st.1)))^[n] (capOffset, priv) =
      (dev.findNextDvsec^[n] capOffset,
        ((List.range n).map fun i => readVsec dev (dev.findNextDvsec^[i] capOffset)).foldl
          (visit matchFunc processFunc dev) priv) := by
  induction n with
  | zero => rfl
  | succ n ih =>
    rw [Function.iterate_succ_apply', ih, Function.iterate_succ_apply', List.range_succ,
      List.map_append, List.foldl_append]
    rfl

/-- When the loop ends does not depend on what the callback does. -/
theorem stopsAfter_walk_iff (dev : PciDev) (n : Nat) (priv : S) :
    StopsAfter (fun st : Nat × S => breaks matchFunc dev st.1)
        (fun st => (dev.findNextDvsec st.1,
          visit matchFunc processFunc dev st.2 (readVsec dev st.1)))
        (dev.findDvsec, priv) n ↔
      EndsAfter matchFunc dev n := by
  constructor
  · intro h
    refine ⟨?_, fun m hm => ?_⟩
    · simpa only [iterate_walk] using h.stop
    · simpa only [iterate_walk] using h.going m hm
  · intro h
    refine ⟨?_, fun m hm => ?_⟩
    · simpa only [iterate_walk] using h.stop
    · simpa only [iterate_walk] using h.going m hm

theorem visitedDvsecs_eq {dev : PciDev} {n : Nat} (h : EndsAfter matchFunc dev n) :
    visitedDvsecs matchFunc dev = (List.range n).map fun i => readVsec dev (dev.offsetAt i) := by
  have hex : ∃ n, EndsAfter matchFunc dev n := ⟨n, h⟩
  rw [visitedDvsecs, dif_pos hex, stopsAfter_unique hex.choose_spec h]

theorem foldl_visit (dev : PciDev) (vsecs : List PcmVsec) (priv : S) :
    vsecs.foldl (visit matchFunc processFunc dev) priv =
      ((vsecs.filter matchFunc).map (callFor dev)).foldl (DvsecCall.perform processFunc) priv := by
  induction vsecs generalizing priv with
  | nil => rfl
  | cons vsec rest ih =>
    rw [List.foldl_cons, ih]
    by_cases hmatch : matchFunc vsec = true <;> simp [visit, callFor, DvsecCall.perform, hmatch]

/-- With enough fuel, the loop over a device makes its calls; with less it does not return. -/
theorem walkDvsecs_eq_some_iff (dev : PciDev) (fuel : Nat) (priv r : S) :
    walkDvsecs matchFunc processFunc dev fuel dev.findDvsec priv = some r ↔
      (∃ n, n < fuel ∧ EndsAfter matchFunc dev n) ∧
      r = (deviceCalls matchFunc dev).foldl (DvsecCall.perform processFunc) priv := by
  rw [walkDvsecs_eq_run, deviceCalls, ← foldl_visit]
  constructor
  · intro h
    obtain ⟨st, hst, rfl⟩ := Option.map_eq_some_iff.mp h
    obtain ⟨n, hn, hstops, rfl⟩ := stopsAfter_of_run hst
    have hends := (stopsAfter_walk_iff dev n priv).mp hstops
    rw [iterate_walk, visitedDvsecs_eq hends]
    exact ⟨⟨n, hn, hends⟩, rfl⟩
  · rintro ⟨⟨n, hn, hends⟩, rfl⟩
    rw [run_eq_some ((stopsAfter_walk_iff dev n priv).mpr hends) hn, iterate_walk,
      visitedDvsecs_eq hends]
    rfl

theorem calls_cons (dev : PciDev) (rest : List PciDev) :
    calls matchFunc (dev :: rest) =
      (if dev.vendor = intelVendorId then deviceCalls matchFunc dev else []) ++
        calls matchFunc rest := by
  by_cases hintel : dev.vendor = intelVendorId <;> simp [calls, hintel]

theorem pcmProcessDvsec_calls {fuel : Nat} {devs : List PciDev} {priv r : S}
    (h : pcmProcessDvsec matchFunc processFunc fuel devs priv = some r) :
    r = (calls matchFunc devs).foldl (DvsecCall.perform processFunc) priv := by
  induction devs generalizing priv with
  | nil => exact (Option.some.inj h).symm
  | cons dev rest ih =>
    rw [pcmProcessDvsec] at h
    by_cases hintel : dev.vendor = intelVendorId
    · rw [if_neg (not_not_intro hintel), Option.bind_eq_some_iff] at h
      obtain ⟨s, hs, hrest⟩ := h
      obtain ⟨-, rfl⟩ := (walkDvsecs_eq_some_iff dev fuel priv s).mp hs
      rw [ih hrest, calls_cons, if_pos hintel, List.foldl_append]
    · rw [if_pos hintel] at h
      rw [ih h, calls_cons, if_neg hintel]
      rfl

theorem pcmProcessDvsec_returns (processFunc : PciDev → BitVec 64 → PcmVsec → S → S)
    {devs : List PciDev}
    (h : ∀ dev ∈ devs, dev.vendor = intelVendorId → ∃ n, EndsAfter matchFunc dev n) :
    ∃ bound, ∀ fuel, bound < fuel → ∀ priv : S,
      ∃ r, pcmProcessDvsec matchFunc processFunc fuel devs priv = some r := by
  induction devs with
  | nil => exact ⟨0, fun _ _ priv => ⟨priv, rfl⟩⟩
  | cons dev rest ih =>
    obtain ⟨hdev, hrest⟩ := List.forall_mem_cons.mp h
    obtain ⟨bound, hbound⟩ := ih hrest
    by_cases hintel : dev.vendor = intelVendorId
    · obtain ⟨n, hn⟩ := hdev hintel
      refine ⟨max n bound, fun fuel hfuel priv => ?_⟩
      have hwalk : walkDvsecs matchFunc processFunc dev fuel dev.findDvsec priv = some _ :=
        (walkDvsecs_eq_some_iff dev fuel priv _).mpr ⟨⟨n, by omega, hn⟩, rfl⟩
      obtain ⟨r, hr⟩ := hbound fuel (by omega)
        ((deviceCalls matchFunc dev).foldl (DvsecCall.perform processFunc) priv)
      exact ⟨r, by rw [pcmProcessDvsec, if_neg (not_not_intro hintel), hwalk]; exact hr⟩
    · refine ⟨bound, fun fuel hfuel priv => ?_⟩
      obtain ⟨r, hr⟩ := hbound fuel hfuel priv
      exact ⟨r, by rw [pcmProcessDvsec, if_pos hintel]; exact hr⟩

theorem endsAfter_of_pcmProcessDvsec {fuel : Nat} {devs : List PciDev} {priv r : S}
    (h : pcmProcessDvsec matchFunc processFunc fuel devs priv = some r) :
    ∀ dev ∈ devs, dev.vendor = intelVendorId → ∃ n, EndsAfter matchFunc dev n := by
  induction devs generalizing priv with
  | nil => exact fun _ hdev => absurd hdev List.not_mem_nil
  | cons dev rest ih =>
    rw [pcmProcessDvsec] at h
    rw [List.forall_mem_cons]
    by_cases hintel : dev.vendor = intelVendorId
    · rw [if_neg (not_not_intro hintel), Option.bind_eq_some_iff] at h
      obtain ⟨s, hs, hrest⟩ := h
      obtain ⟨⟨n, -, hn⟩, -⟩ := (walkDvsecs_eq_some_iff dev fuel priv s).mp hs
      exact ⟨fun _ => ⟨n, hn⟩, ih hrest⟩
    · rw [if_pos hintel] at h
      exact ⟨fun hyes => absurd hyes hintel, ih h⟩

theorem pcmProcessDvsec_returns_iff (matchFunc : PcmVsec → Bool)
    (processFunc : PciDev → BitVec 64 → PcmVsec → S → S) (devs : List PciDev) (priv : S) :
    (∃ fuel r, pcmProcessDvsec matchFunc processFunc fuel devs priv = some r) ↔
      ∀ dev ∈ devs, dev.vendor = intelVendorId →
        ∃ n, breaks matchFunc dev (dev.offsetAt n) = true := by
  constructor
  · rintro ⟨fuel, r, h⟩ dev hdev hintel
    obtain ⟨n, hn⟩ := endsAfter_of_pcmProcessDvsec h dev hdev hintel
    exact ⟨n, hn.stop⟩
  · intro h
    obtain ⟨bound, hbound⟩ := pcmProcessDvsec_returns processFunc
      fun dev hdev hintel => exists_stopsAfter (h dev hdev hintel)
    exact ⟨bound + 1, hbound (bound + 1) (Nat.lt_succ_self bound) priv⟩

/-- The offsets of a chain lie in the configuration space of 4096 bytes. -/
def PciDev.InConfigSpace (dev : PciDev) : Prop := ∀ n, dev.offsetAt n < 4096

/-- The chain comes back to an offset before anything ends the loop. -/
abbrev ChainCycles (matchFunc : PcmVsec → Bool) (dev : PciDev) : Prop :=
  Cycles (breaks matchFunc dev) dev.findNextDvsec dev.findDvsec

theorem PciDev.InConfigSpace.ends_iff {dev : PciDev} (h : dev.InConfigSpace) :
    (∃ n, breaks matchFunc dev (dev.offsetAt n) = true) ↔ ¬ ChainCycles matchFunc dev := by
  refine exists_stop_iff_not_cycles ((Set.finite_lt_nat 4096).subset ?_)
  rintro _ ⟨n, rfl⟩
  exact h n

/-- The walk returns exactly if the loop of every Intel device reaches the end of its chain, an
empty DVSEC, or a matching one without a usable BAR; with all offsets in the configuration space,
exactly if no chain cycles before that. It has then called back for the matching DVSECs before that
one, device by device. -/
theorem pcmProcessDvsec_spec (matchFunc : PcmVsec → Bool)
    (processFunc : PciDev → BitVec 64 → PcmVsec → S → S) (devs : List PciDev) (priv : S) :
    ((∃ fuel r, pcmProcessDvsec matchFunc processFunc fuel devs priv = some r) ↔
      ∀ dev ∈ devs, dev.vendor = intelVendorId →
        ∃ n, breaks matchFunc dev (dev.offsetAt n) = true) ∧
    (∀ fuel r, pcmProcessDvsec matchFunc processFunc fuel devs priv = some r →
      r = (calls matchFunc devs).foldl (DvsecCall.perform processFunc) priv) ∧
    ((∀ dev ∈ devs, dev.InConfigSpace) →
      ((∃ fuel r, pcmProcessDvsec matchFunc processFunc fuel devs priv = some r) ↔
        ∀ dev ∈ devs, dev.vendor = intelVendorId → ¬ ChainCycles matchFunc dev)) := by
  refine ⟨pcmProcessDvsec_returns_iff matchFunc processFunc devs priv,
    fun fuel r h => pcmProcessDvsec_calls h, fun hspace => ?_⟩
  rw [pcmProcessDvsec_returns_iff]
  refine forall₃_congr fun dev hdev _ => ?_
  exact (hspace dev hdev).ends_iff

end Walk

/-! ## The units that the discovery finds -/

open DiscoveryTable (Memory Readable listOf overlay processTable_of_header read_record recordAt
  tableCallback unitsOfType)

/-- `match_function`. -/
def matchFunction (vsec : PcmVsec) : Bool := vsec.capId == 0x23 && vsec.entryID == 0x1

/-- Whether `kcalloc` gives an array for the type, for each table of each device. -/
abbrev Allocates := PciDev → BitVec 64 → Nat → Bool

/-- `process_dvsec_callback` on a machine whose memory does not change. -/
def processDvsec (mem : Memory) (kcalloc : Allocates) (dev : PciDev) (barAddr : BitVec 64)
    (_ : PcmVsec) (d : Discovery) : Discovery :=
  processDvsecCallback d { tableCallback mem dev.node barAddr with kcalloc := kcalloc dev barAddr }

/-- `uncore_pmu_discovery_create`. -/
def discoveryCreate (numSockets : Nat) (mem : Memory) (kcalloc : Allocates) (fuel : Nat)
    (devs : List PciDev) : Option Discovery :=
  pcmProcessDvsec matchFunction (processDvsec mem kcalloc) fuel devs
    (uncorePmuDiscoveryCreate numSockets)

/-- The last of these lists that is not empty. -/
def lastFound (found : List (List Table)) : List Table :=
  ((found.filter fun units => !units.isEmpty).getLast?).getD []

/-- The tables of a socket that can be read, in the order of the walk. -/
noncomputable def tablesOf (mem : Memory) (devs : List PciDev) (socket : Nat) : List (BitVec 64) :=
  (calls matchFunction devs).filterMap fun c =>
    if c.dev.node = (socket : Int) ∧ c.barAddr.toNat % 4 = 0 ∧
        Readable mem c.barAddr then some c.barAddr
    else none

theorem foldl_overlay (found : List (List Table)) :
    found.foldl overlay ⟨none, 0⟩ = listOf (lastFound found) := by
  induction found using List.reverseRecOn with
  | nil => rfl
  | append_singleton front units ih =>
    rw [List.foldl_append, List.foldl_cons, List.foldl_nil, ih]
    cases units with
    | nil => simp [overlay, lastFound]
    | cons unit rest => simp [overlay, lastFound, listOf]

/-- No allocation of the discovery fails. -/
def Allocates.Succeed (kcalloc : Allocates) : Prop := ∀ dev bar t, kcalloc dev bar t = true

section Calls

variable {mem : Memory} {kcalloc : Allocates}

theorem processDvsec_of_succeed (hkcalloc : kcalloc.Succeed) (dev : PciDev) (barAddr : BitVec 64)
    (vsec : PcmVsec) (d : Discovery) :
    processDvsec mem kcalloc dev barAddr vsec d =
      processDvsecCallback d (tableCallback mem dev.node barAddr) := by
  have htrue : kcalloc dev barAddr = fun _ => true := funext fun t => hkcalloc dev barAddr t
  rw [processDvsec, htrue]
  rfl

/-- One call, seen from the lists of a socket. -/
theorem processDvsec_lists (hkcalloc : kcalloc.Succeed) (dev : PciDev) (barAddr : BitVec 64)
    (vsec : PcmVsec) (d : Discovery) {socket t : Nat} (hsocket : socket < d.numSockets)
    (ht : t < maxBoxTypes) :
    (processDvsec mem kcalloc dev barAddr vsec d).lists socket t =
      if dev.node = socket ∧ barAddr.toNat % 4 = 0 ∧ Readable mem barAddr then
        overlay (d.lists socket t) (unitsOfType mem barAddr (recordAt mem barAddr) t)
      else d.lists socket t := by
  have hrecord := read_record mem barAddr
  have hcb : (tableCallback mem dev.node barAddr).node = dev.node := rfl
  rw [processDvsec_of_succeed hkcalloc, processDvsecCallback, hcb]
  by_cases hheader : barAddr.toNat % 4 = 0 ∧ Readable mem barAddr
  · rw [if_pos hheader] at hrecord
    by_cases hrange : dev.node < 0 ∨ dev.node ≥ d.numSockets
    · rw [if_pos hrange, if_neg (by omega)]
    · rw [if_neg hrange]
      by_cases hnode : dev.node = socket
      · have hnat : dev.node.toNat = socket := by omega
        rw [if_pos ⟨hnode, hheader⟩, hnat]
        exact (processTable_of_header mem dev.node socket d hheader.1 hrecord).2.1 t ht
      · rw [if_neg (fun h => hnode h.1)]
        exact (processTable_of_header mem dev.node dev.node.toNat d hheader.1 hrecord).2.2
          socket t (Or.inl (by omega))
  · rw [if_neg hheader, Option.map_eq_none_iff] at hrecord
    have hnot : ¬ (dev.node = (socket : Int) ∧ barAddr.toNat % 4 = 0 ∧ Readable mem barAddr) :=
      fun h => hheader h.2
    rw [if_neg hnot]
    split_ifs
    · rfl
    · simp [processSocketDiscoveryTable, tableCallback, hrecord]

theorem allocateLists_numSockets (kcalloc : Nat → Bool) (counts : Nat → Nat) (socket : Nat)
    (types : List Nat) (d : Discovery) :
    (allocateLists kcalloc counts socket types d).1.numSockets = d.numSockets := by
  induction types generalizing d with
  | nil => rfl
  | cons t rest ih =>
    rw [allocateLists]
    split_ifs
    · exact ih _
    · rfl
    · exact ih d

theorem fillBox_numSockets (cb : Callback) (global : Table) (counts : Nat → Nat) (socket : Nat)
    (d : Discovery) (u : Nat) :
    (fillBox cb global counts socket d u).numSockets = d.numSockets := by
  unfold fillBox
  cases secondPassUnit cb global u with
  | none => rfl
  | some unit =>
    dsimp only
    cases (d.lists socket unit.boxType).pmus with
    | none => rfl
    | some pmus =>
      split_ifs
      · rfl
      · rfl

theorem processDvsecCallback_numSockets (d : Discovery) (cb : Callback) :
    (processDvsecCallback d cb).numSockets = d.numSockets := by
  have hfill : ∀ (global : Table) (counts : Nat → Nat) (us : List Nat) (d : Discovery),
      (us.foldl (fillBox cb global counts cb.node.toNat) d).numSockets = d.numSockets := by
    intro global counts us
    induction us with
    | nil => exact fun _ => rfl
    | cons u rest ih => exact fun d => (ih _).trans (fillBox_numSockets cb global counts _ d u)
  rw [processDvsecCallback]
  split_ifs
  · rfl
  · rw [processSocketDiscoveryTable]
    cases cb.mmioMemcpy 0 cb.bar with
    | none => rfl
    | some global =>
      have halloc := allocateLists_numSockets cb.kcalloc (countBoxes cb global) cb.node.toNat
        (List.range maxBoxTypes)
        { d with globalPmus := Function.update d.globalPmus cb.node.toNat global }
      dsimp only
      generalize allocateLists _ _ _ _ _ = result at halloc ⊢
      obtain ⟨allocated, done⟩ := result
      cases done with
      | false => exact halloc
      | true => exact (hfill global _ _ allocated).trans halloc

theorem foldl_calls_lists (hkcalloc : kcalloc.Succeed) (cs : List DvsecCall) (d : Discovery)
    {socket t : Nat} (hsocket : socket < d.numSockets) (ht : t < maxBoxTypes) :
    (cs.foldl (DvsecCall.perform (processDvsec mem kcalloc)) d).lists socket t =
      ((cs.filterMap fun c => if c.dev.node = (socket : Int) ∧ c.barAddr.toNat % 4 = 0 ∧
          Readable mem c.barAddr then some c.barAddr else none).map fun bar =>
        unitsOfType mem bar (recordAt mem bar) t).foldl overlay (d.lists socket t) := by
  induction cs generalizing d with
  | nil => rfl
  | cons c rest ih =>
    have hsame : (DvsecCall.perform (processDvsec mem kcalloc) d c).numSockets = d.numSockets :=
      processDvsecCallback_numSockets d _
    rw [List.foldl_cons, ih _ (hsame ▸ hsocket), List.filterMap_cons]
    have hlists : (DvsecCall.perform (processDvsec mem kcalloc) d c).lists socket t = _ :=
      processDvsec_lists hkcalloc c.dev c.barAddr c.vsec d hsocket ht
    rw [hlists]
    split_ifs <;> rfl

end Calls

/-- For every machine whose memory does not change and has room for the lists: the list of a type
that the discovery holds for a socket are the units of the last table of this socket that has any,
where the tables of a socket are those of the matching DVSECs of its Intel devices, up to the first
broken one of each device. -/
theorem discovery_of_machine (numSockets : Nat) (mem : Memory) (kcalloc : Allocates)
    (hkcalloc : kcalloc.Succeed) (fuel : Nat) (devs : List PciDev) (d : Discovery)
    (h : discoveryCreate numSockets mem kcalloc fuel devs = some d) :
    ∀ socket, socket < numSockets → ∀ t, t < maxBoxTypes →
      d.lists socket t = listOf (lastFound ((tablesOf mem devs socket).map fun bar =>
        unitsOfType mem bar (recordAt mem bar) t)) := by
  intro socket hsocket t ht
  rw [pcmProcessDvsec_calls h, foldl_calls_lists hkcalloc _ _ hsocket ht, ← foldl_overlay]
  rfl

/-- An Intel device on socket 0 with three DVSECs, the second of which is a discovery table at its
BAR 0; the third would be another one, but its BAR is not configured. -/
def threeDvsecs : PciDev where
  vendor := intelVendorId
  node := 0
  readConfigDword
    | 0x100 => 0x14010023
    | 0x108 => 0x00000002
    | 0x140 => 0x18010023
    | 0x148 => 0x00000001
    | 0x180 => 0x00010023
    | 0x188 => 0x00000001
    | 0x18c => 0x00000001
    | _ => 0
  findDvsec := 0x100
  findNextDvsec
    | 0x100 => 0x140
    | 0x140 => 0x180
    | _ => 0
  resourceStart
    | 0 => 0x1000
    | _ => 0

theorem threeDvsecs_endsAfter : EndsAfter matchFunction threeDvsecs 2 :=
  ⟨by decide, by decide⟩

def noneFails : Allocates := fun _ _ _ => true

theorem discovery_of_threeDvsecs : ∃ d,
    discoveryCreate 1 DiscoveryTable.imcMemory noneFails 3 [threeDvsecs] = some d ∧
    d.lists 0 sprImcBoxType = ⟨some [⟨0x4000000008080804, 0x2000, 6⟩], 1⟩ := by
  have hwalk : walkDvsecs matchFunction (processDvsec DiscoveryTable.imcMemory noneFails)
      threeDvsecs 3 threeDvsecs.findDvsec (uncorePmuDiscoveryCreate 1) = some _ :=
    (walkDvsecs_eq_some_iff threeDvsecs 3 _ _).mpr ⟨⟨2, by decide, threeDvsecs_endsAfter⟩, rfl⟩
  have hcreate : ∃ d,
      discoveryCreate 1 DiscoveryTable.imcMemory noneFails 3 [threeDvsecs] = some d := by
    rw [discoveryCreate, pcmProcessDvsec, if_neg (by decide), hwalk]
    exact ⟨_, rfl⟩
  obtain ⟨d, hd⟩ := hcreate
  refine ⟨d, hd, ?_⟩
  have hcalls : calls matchFunction [threeDvsecs] =
      [callFor threeDvsecs (readVsec threeDvsecs 0x140)] := by
    have hintel : threeDvsecs.vendor = intelVendorId := rfl
    rw [calls_cons, if_pos hintel, deviceCalls, visitedDvsecs_eq threeDvsecs_endsAfter]
    rfl
  have htables : tablesOf DiscoveryTable.imcMemory [threeDvsecs] 0 = [0x1000] := by
    rw [tablesOf, hcalls]
    decide
  rw [discovery_of_machine 1 DiscoveryTable.imcMemory noneFails (fun _ _ _ => rfl) 3 [threeDvsecs]
    d hd 0 (by decide) sprImcBoxType (by decide), htables]
  decide +kernel

end DvsecWalk
