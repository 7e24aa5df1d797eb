import Hiresperf.InstructedMode
import Hiresperf.LogParsing
import Hiresperf.LogReaders
import Hiresperf.NodeBandwidth
import Hiresperf.PollerSample

/-!
# What the columns count

`hrperf_pmc_enable_and_esel` chooses the events of the four programmable counters
from the flags of `config.h`, `hrperf_poller_func` reads the counters into members
with fixed names, and each parser names these members again from its own flags.
Here the register values that are written are followed to the events that the
hardware then counts, and a column is truthful if what stands in it is the count
of the event it is named after.
-/

namespace EventColumns

open CpuSelection InstructedMode LogEntry LogParsing LogReaders PollerSample

/-! ## Event selection -/

abbrev U64 := BitVec 64

/-- `PMC_ESEL_ENTRY` -/
def pmcEselEntry (event umask cmask : U64) : U64 :=
  (event &&& 0xFF) ||| ((umask &&& 0xFF) <<< 8) ||| ((cmask &&& 0xFF) <<< 24)

def pmcEselUsr : U64 := 1 <<< 16
def pmcEselOs : U64 := 1 <<< 17
def pmcEselEnable : U64 := 1 <<< 22

/-- The `_FINAL` macros. -/
def final (entry : U64) : U64 := entry ||| pmcEselUsr ||| pmcEselOs ||| pmcEselEnable

/-- `HRP_ARCH_NAME` -/
inductive Arch where
  | skylake
  | icelake
  | sapphire
  deriving DecidableEq

def pmcArchLlcMisses : U64 := pmcEselEntry 0x2E 0x41 0

def pmcSwPrefetchAny : Arch → U64
  | .skylake | .icelake => pmcEselEntry 0x32 0x0F 0
  | .sapphire => pmcEselEntry 0x40 0x0F 0

/-! The entries that are the same on the three architectures. -/

def pmcCycleStallsMem : U64 := pmcEselEntry 0xA3 0x14 0x14
def pmcStallsSbAny : U64 := pmcEselEntry 0xA2 0x08 0
def pmcStallsTotal : U64 := pmcEselEntry 0xA3 0x04 0x04
def pmcBoundOnLoads : U64 := pmcEselEntry 0xA6 0x21 0x05
def pmcBoundOnStores : U64 := pmcEselEntry 0xA6 0x40 0x02
def pmcStallsL1dMiss : U64 := pmcEselEntry 0xA3 0x0C 0x0C
def pmcStallsL2Miss : U64 := pmcEselEntry 0xA3 0x05 0x05
def pmcStallsL3Miss : U64 := pmcEselEntry 0xA3 0x06 0x06
def pmcL2HitLoad : U64 := pmcEselEntry 0x24 0xC1 0
def pmcL2HitRfo : U64 := pmcEselEntry 0x24 0xC2 0
def pmcL2Prefetch : U64 := pmcEselEntry 0x24 0xD8 0
def pmcL3HitLoad : U64 := pmcEselEntry 0xD1 0x04 0

/-! The offcore entries exist for Sapphire Rapids only. -/

def pmcOcrReadsToCoreDram : U64 := pmcEselEntry 0x2A 0x01 0
def pmcOcrReadsToCoreDramRsp : U64 := 0x000000073C004477
def pmcOcrModifiedWriteAnyResponse : U64 := pmcEselEntry 0x2B 0x01 0

def pmcOcrModifiedWriteAnyResponseRsp (useWriteEst : Bool) : U64 :=
  if useWriteEst then 0x0000000FBFF80822 else 0x0000000000010808

/-- The flags that select events. -/
structure EventFlags where
  useHitCounts : Bool
  useOffcore : Bool
  useWriteEst : Bool
  useStallTotal : Bool
  useCounterCombination : Bool
  useBoundOnLoads : Bool
  useBoundOnStores : Bool
  deriving DecidableEq

def msrFixedCtrCtrl : Nat := 0x38d
def msrGlobalCtrl : Nat := 0x38f
def msrPerfevtsel (i : Nat) : Nat := 0x186 + i
def msrOffcoreRsp (i : Nat) : Nat := 0x1A6 + i

/-- The writes that the three versions of `hrperf_pmc_enable_and_esel` begin with. -/
def enableCounters : List (Nat × U64) :=
  [(msrFixedCtrCtrl, 0x033),
    (msrGlobalCtrl, 1 ||| (1 <<< 1) ||| (1 <<< 2) ||| (1 <<< 3) ||| (1 <<< 32) ||| (1 <<< 33))]

/-- The event of the third counter, unless hits are counted. -/
def thirdEvent (f : EventFlags) : U64 :=
  if f.useBoundOnLoads then final pmcBoundOnLoads
  else if f.useCounterCombination then final pmcStallsL2Miss
  else final pmcCycleStallsMem

def fourthEvent (f : EventFlags) : U64 :=
  if f.useBoundOnStores then final pmcBoundOnStores
  else if f.useCounterCombination then final pmcStallsL3Miss
  else final pmcStallsSbAny

/-- The MSR writes of the three versions of `hrperf_pmc_enable_and_esel`, in order. -/
def eventWrites (f : EventFlags) (arch : Arch) : List (Nat × U64) :=
  if f.useHitCounts then
    enableCounters ++ [(msrPerfevtsel 0, final pmcL2HitLoad), (msrPerfevtsel 1, final pmcL2HitRfo),
      (msrPerfevtsel 2, final pmcL2Prefetch), (msrPerfevtsel 3, final pmcL3HitLoad)]
  else if f.useOffcore then
    enableCounters ++
      [(msrPerfevtsel 0,
          if f.useStallTotal then final pmcStallsTotal else final pmcOcrReadsToCoreDram),
        (msrOffcoreRsp 0, pmcOcrReadsToCoreDramRsp),
        (msrPerfevtsel 1,
          if f.useCounterCombination then final pmcStallsL1dMiss
          else final pmcOcrModifiedWriteAnyResponse),
        (msrOffcoreRsp 1, pmcOcrModifiedWriteAnyResponseRsp f.useWriteEst),
        (msrPerfevtsel 2, thirdEvent f), (msrPerfevtsel 3, fourthEvent f)]
  else
    enableCounters ++
      [(msrPerfevtsel 0, if f.useStallTotal then final pmcStallsTotal else final pmcArchLlcMisses),
        (msrPerfevtsel 1,
          if f.useCounterCombination then final pmcStallsL1dMiss
          else final (pmcSwPrefetchAny arch)),
        (msrPerfevtsel 2, thirdEvent f), (msrPerfevtsel 3, fourthEvent f)]

/-- All macros that the chosen version uses are defined. -/
def compiles (f : EventFlags) (arch : Arch) : Bool :=
  f.useHitCounts || !f.useOffcore || arch = .sapphire

/-- The writes of a module that was compiled with the flags. -/
def hrperfPmcEnableAndEsel (f : EventFlags) (arch : Arch) : Option (List (Nat × U64)) :=
  if compiles f arch then some (eventWrites f arch) else none

/-! ## The hardware -/

/-- An event of a fixed counter, in the modes of its control bits, or of a programmable one: the
selection without the enable bit, and for an offcore event the response selected with it. -/
inductive Event where
  | fixed (i : Nat) (modes : U64)
  | core (selection : U64) (response : Option U64)
  deriving DecidableEq

/-- The last value written to a register. -/
def wrmsrl (writes : List (Nat × U64)) (msr : Nat) : U64 :=
  ((writes.reverse.find? fun w => w.1 == msr).map Prod.snd).getD 0

/-- The offcore response register belongs to the event code. -/
def responseOf (msrs : Nat → U64) (selection : U64) : Option U64 :=
  if selection &&& 0xFF = 0x2A then some (msrs (msrOffcoreRsp 0))
  else if selection &&& 0xFF = 0x2B then some (msrs (msrOffcoreRsp 1))
  else none

/-- What the programmable counter `i` counts, if it is enabled in its own and in the global
register. -/
def pmcEvent (msrs : Nat → U64) (i : Nat) : Option Event :=
  let selection := msrs (msrPerfevtsel i)
  if selection &&& pmcEselEnable ≠ 0 ∧ (msrs msrGlobalCtrl).getLsbD i = true then
    some (.core (selection &&& ~~~ pmcEselEnable)
      (responseOf msrs (selection &&& ~~~ pmcEselEnable)))
  else none

def fixedEvent (msrs : Nat → U64) (i : Nat) : Option Event :=
  let modes := (msrs msrFixedCtrCtrl >>> (4 * i)) &&& 0x3
  if modes ≠ 0 ∧ (msrs msrGlobalCtrl).getLsbD (32 + i) = true then some (.fixed i modes) else none

/-- What a counter holds when the events have occurred `hw` times. -/
def counted (hw : Event → U64) : Option Event → U64
  | some e => hw e
  | none => 0

/-- The counters of a CPU on which the events were selected; the rest is as in `r`. -/
def counting {flags : LogFlags} (msrs : Nat → U64) (hw : Event → U64) (r : Readings flags) :
    Readings flags :=
  { r with
    pmc0 := counted hw (pmcEvent msrs 0)
    pmc1 := counted hw (pmcEvent msrs 1)
    pmc2 := counted hw (pmcEvent msrs 2)
    pmc3 := counted hw (pmcEvent msrs 3)
    fixedCtr0 := counted hw (fixedEvent msrs 0)
    fixedCtr1 := counted hw (fixedEvent msrs 1) }

/-! ## The names -/

inductive ColumnName where
  | instRetire | cpuUnhalt
  | llcMisses | swPrefetch | stallMem | stallsSb
  | offcoreRead | offcoreWrite | writeEstimate
  | stallsTotal | stallsL1dMiss | stallsL2Miss | stallsL3Miss
  | boundOnLoads | boundOnStores
  | l2HitLoad | l2HitRfo | l2Prefetch | l3HitLoad
  deriving DecidableEq

/-- Counted in user and in kernel mode. -/
def everywhere (entry : U64) : U64 := entry ||| pmcEselUsr ||| pmcEselOs

/-- The event that a name stands for. -/
def ColumnName.event (arch : Arch) : ColumnName → Event
  | instRetire => .fixed 0 3
  | cpuUnhalt => .fixed 1 3
  | llcMisses => .core (everywhere pmcArchLlcMisses) none
  | swPrefetch => .core (everywhere (pmcSwPrefetchAny arch)) none
  | stallMem => .core (everywhere pmcCycleStallsMem) none
  | stallsSb => .core (everywhere pmcStallsSbAny) none
  | offcoreRead => .core (everywhere pmcOcrReadsToCoreDram) (some pmcOcrReadsToCoreDramRsp)
  | offcoreWrite => .core (everywhere pmcOcrModifiedWriteAnyResponse)
      (some (pmcOcrModifiedWriteAnyResponseRsp false))
  | writeEstimate => .core (everywhere pmcOcrModifiedWriteAnyResponse)
      (some (pmcOcrModifiedWriteAnyResponseRsp true))
  | stallsTotal => .core (everywhere pmcStallsTotal) none
  | stallsL1dMiss => .core (everywhere pmcStallsL1dMiss) none
  | stallsL2Miss => .core (everywhere pmcStallsL2Miss) none
  | stallsL3Miss => .core (everywhere pmcStallsL3Miss) none
  | boundOnLoads => .core (everywhere pmcBoundOnLoads) none
  | boundOnStores => .core (everywhere pmcBoundOnStores) none
  | l2HitLoad => .core (everywhere pmcL2HitLoad) none
  | l2HitRfo => .core (everywhere pmcL2HitRfo) none
  | l2Prefetch => .core (everywhere pmcL2Prefetch) none
  | l3HitLoad => .core (everywhere pmcL3HitLoad) none

/-- The raw columns of `parse_hrp.py`: `base_raw` after `raw_renames`. It has no flag for the hit
counts, and `use_stall_total` is not looked at. -/
def parseHrpName (f : EventFlags) : Counter → ColumnName
  | .instRetire => .instRetire
  | .cpuUnhalt => .cpuUnhalt
  | .llcMisses =>
    if f.useOffcore then .offcoreRead
    else if f.useCounterCombination then .stallsTotal else .llcMisses
  | .swPrefetch =>
    if f.useOffcore then if f.useWriteEst then .writeEstimate else .offcoreWrite
    else if f.useCounterCombination then .stallsL1dMiss else .swPrefetch
  | .stallMem =>
    if f.useOffcore then .stallMem
    else if f.useCounterCombination then .stallsL2Miss
    else if f.useBoundOnLoads then .boundOnLoads else .stallMem
  | .stallsSb =>
    if f.useOffcore then .stallsSb
    else if f.useCounterCombination then .stallsL3Miss
    else if f.useBoundOnStores then .boundOnStores else .stallsSb

/-- The part of its flags that the end of `parse_hrp.py` goes by. -/
def EventFlags.parseHrpArgs (f : EventFlags) : NodeBandwidth.Args :=
  ⟨f.useOffcore, f.useCounterCombination⟩

/-- The raw columns that `parse_hrp.py` comes to write: after they are renamed, `64.0.alias` ends
the script if there is a pair of rates. -/
def parseHrpTable (f : EventFlags) : Option (Counter → ColumnName) :=
  if f.parseHrpArgs.hasRwPair then none else some (parseHrpName f)

/-- `prepare_core_name` of the reader by step, on the members it names. -/
def byStepName (f : EventFlags) : Counter → ColumnName
  | .instRetire => .instRetire
  | .cpuUnhalt => .cpuUnhalt
  | .llcMisses =>
    if f.useOffcore then .offcoreRead else if f.useHitCounts then .l2HitLoad else .llcMisses
  | .swPrefetch =>
    if f.useOffcore then if f.useWriteEst then .writeEstimate else .offcoreWrite
    else if f.useHitCounts then .l2HitRfo else .swPrefetch
  | .stallMem =>
    if f.useOffcore then .stallMem else if f.useHitCounts then .l2Prefetch else .stallMem
  | .stallsSb =>
    if f.useOffcore then .stallsSb else if f.useHitCounts then .l3HitLoad else .stallsSb

/-- The same of the profile reader, which has no flag for the hit counts. -/
def profileName (f : EventFlags) (c : Counter) : ColumnName :=
  byStepName { f with useHitCounts := false } c

/-- The text of a name; the two instructed readers call the write estimate otherwise. -/
def ColumnName.text (writeEstimateText : String) : ColumnName → String
  | instRetire => "inst_retire"
  | cpuUnhalt => "cpu_unhalt"
  | llcMisses => "llc_misses"
  | swPrefetch => "sw_prefetch"
  | stallMem => "stall_mem"
  | stallsSb => "stalls_sb"
  | offcoreRead => "offcore_read"
  | offcoreWrite => "offcore_write"
  | writeEstimate => writeEstimateText
  | stallsTotal => "stalls_total"
  | stallsL1dMiss => "stalls_l1d_miss"
  | stallsL2Miss => "stalls_l2_miss"
  | stallsL3Miss => "stalls_l3_miss"
  | boundOnLoads => "bound_on_loads"
  | boundOnStores => "bound_on_stores"
  | l2HitLoad => "l2_hit_load"
  | l2HitRfo => "l2_hit_rfo"
  | l2Prefetch => "l2_prefetch"
  | l3HitLoad => "l3_hit_load"

def EventFlags.counterArgs (f : EventFlags) : CounterArgs :=
  ⟨f.useOffcore, f.useWriteEst, f.useHitCounts⟩

/-- The four names that a reader has chosen. -/
def coreNames (name : Counter → ColumnName) : CoreNames :=
  ⟨(name .llcMisses).text "offcore_write_est", (name .swPrefetch).text "offcore_write_est",
    (name .stallMem).text "offcore_write_est", (name .stallsSb).text "offcore_write_est"⟩

theorem byStepName_text (f : EventFlags) :
    coreNames (byStepName f) = byStepCoreName f.counterArgs := by
  obtain ⟨hit, offcore, est, -, -, -, -⟩ := f
  cases hit <;> cases offcore <;> cases est <;> rfl

theorem profileName_text (f : EventFlags) :
    coreNames (profileName f) = prepareCoreName f.counterArgs := by
  obtain ⟨hit, offcore, est, -, -, -, -⟩ := f
  cases offcore <;> cases est <;> rfl

/-! ## What is counted -/

/-- The name of the event that the module selects for a member. -/
def selectedName (f : EventFlags) : Counter → ColumnName
  | .instRetire => .instRetire
  | .cpuUnhalt => .cpuUnhalt
  | .llcMisses =>
    if f.useHitCounts then .l2HitLoad
    else if f.useStallTotal then .stallsTotal
    else if f.useOffcore then .offcoreRead else .llcMisses
  | .swPrefetch =>
    if f.useHitCounts then .l2HitRfo
    else if f.useCounterCombination then .stallsL1dMiss
    else if f.useOffcore then if f.useWriteEst then .writeEstimate else .offcoreWrite
    else .swPrefetch
  | .stallMem =>
    if f.useHitCounts then .l2Prefetch
    else if f.useBoundOnLoads then .boundOnLoads
    else if f.useCounterCombination then .stallsL2Miss else .stallMem
  | .stallsSb =>
    if f.useHitCounts then .l3HitLoad
    else if f.useBoundOnStores then .boundOnStores
    else if f.useCounterCombination then .stallsL3Miss else .stallsSb

/-- The event behind a member: `hrperf_poller_func` reads the counters in this order. -/
def memberEvent (msrs : Nat → U64) : Counter → Option Event
  | .stallMem => pmcEvent msrs 2
  | .instRetire => fixedEvent msrs 0
  | .stallsSb => pmcEvent msrs 3
  | .cpuUnhalt => fixedEvent msrs 1
  | .llcMisses => pmcEvent msrs 0
  | .swPrefetch => pmcEvent msrs 1

def member {flags : LogFlags} (e : HrperfLogEntry flags) : Counter → U64
  | .stallMem => e.tick.stallMem
  | .instRetire => e.tick.instRetire
  | .stallsSb => e.tick.stallsSb
  | .cpuUnhalt => e.tick.cpuUnhalt
  | .llcMisses => e.tick.llcMisses
  | .swPrefetch => e.tick.swPrefetch

theorem member_sample {cfg : Config} (cpu : Nat) (kts : U64) (msrs : Nat → U64)
    (hw : Event → U64) (r : Readings cfg.log) (c : Counter) :
    member (sample cfg cpu kts (counting msrs hw r)) c = counted hw (memberEvent msrs c) := by
  cases c <;> rfl

theorem wrmsrl_globalCtrl (f : EventFlags) (arch : Arch) :
    wrmsrl (eventWrites f arch) msrGlobalCtrl = 0x30000000F := by
  unfold eventWrites
  split_ifs <;> rfl

theorem wrmsrl_fixedCtrCtrl (f : EventFlags) (arch : Arch) :
    wrmsrl (eventWrites f arch) msrFixedCtrCtrl = 0x033 := by
  unfold eventWrites
  split_ifs <;> rfl

/-- The selection that is written for a programmable counter. -/
theorem wrmsrl_perfevtsel (f : EventFlags) (arch : Arch) :
    wrmsrl (eventWrites f arch) (msrPerfevtsel 0) =
        (if f.useHitCounts then final pmcL2HitLoad
        else if f.useStallTotal then final pmcStallsTotal
        else if f.useOffcore then final pmcOcrReadsToCoreDram else final pmcArchLlcMisses) ∧
      wrmsrl (eventWrites f arch) (msrPerfevtsel 1) =
        (if f.useHitCounts then final pmcL2HitRfo
        else if f.useCounterCombination then final pmcStallsL1dMiss
        else if f.useOffcore then final pmcOcrModifiedWriteAnyResponse
        else final (pmcSwPrefetchAny arch)) ∧
      wrmsrl (eventWrites f arch) (msrPerfevtsel 2) =
        (if f.useHitCounts then final pmcL2Prefetch else thirdEvent f) ∧
      wrmsrl (eventWrites f arch) (msrPerfevtsel 3) =
        (if f.useHitCounts then final pmcL3HitLoad else fourthEvent f) := by
  unfold eventWrites
  split_ifs <;> exact ⟨rfl, rfl, rfl, rfl⟩

theorem wrmsrl_offcoreRsp (f : EventFlags) (arch : Arch) (hhit : f.useHitCounts = false)
    (hoffcore : f.useOffcore = true) :
    wrmsrl (eventWrites f arch) (msrOffcoreRsp 0) = pmcOcrReadsToCoreDramRsp ∧
      wrmsrl (eventWrites f arch) (msrOffcoreRsp 1) =
        pmcOcrModifiedWriteAnyResponseRsp f.useWriteEst := by
  unfold eventWrites
  rw [if_neg (by simp [hhit]), if_pos hoffcore]
  exact ⟨rfl, rfl⟩

theorem or_and_not {n : Nat} {x mask : BitVec n} (h : x &&& mask = 0) :
    (x ||| mask) &&& ~~~ mask = x := by
  ext j hj
  have hbit : (x[j] && mask[j]) = false := by
    simpa using congrArg (fun v : BitVec n => v[j]) h
  cases hx : x[j] <;> cases hm : mask[j] <;> simp_all

/-- An enabled counter counts the event of its entry, which has no enable bit itself. -/
theorem pmcEvent_of_final {msrs : Nat → U64} {i : Nat} {entry : U64}
    (hsel : msrs (msrPerfevtsel i) = final entry) (hglobal : (msrs msrGlobalCtrl).getLsbD i = true)
    (hentry : everywhere entry &&& pmcEselEnable = 0) :
    pmcEvent msrs i = some (.core (everywhere entry) (responseOf msrs (everywhere entry))) := by
  have hfinal : final entry = everywhere entry ||| pmcEselEnable := rfl
  have hclear : final entry &&& ~~~ pmcEselEnable = everywhere entry := by
    rw [hfinal, or_and_not hentry]
  have henable : final entry &&& pmcEselEnable ≠ 0 := by
    intro hzero
    have hand := congrArg (fun v : U64 => v.getLsbD 22) hzero
    simp [final, pmcEselEnable] at hand
  simp only [pmcEvent, hsel, hclear]
  rw [if_pos ⟨henable, hglobal⟩]

/-- The module counts what `selectedName` says. -/
theorem selected_event (f : EventFlags) (arch : Arch) (c : Counter) :
    memberEvent (wrmsrl (eventWrites f arch)) c = some ((selectedName f c).event arch) := by
  have hglobal : ∀ i, i < 4 →
      (wrmsrl (eventWrites f arch) msrGlobalCtrl).getLsbD i = true := by
    intro i hi
    rw [wrmsrl_globalCtrl]
    match i, hi with
    | 0, _ | 1, _ | 2, _ | 3, _ => rfl
  obtain ⟨h0, h1, h2, h3⟩ := wrmsrl_perfevtsel f arch
  cases c with
  | instRetire =>
    simp only [memberEvent, fixedEvent, wrmsrl_globalCtrl, wrmsrl_fixedCtrCtrl]
    rfl
  | cpuUnhalt =>
    simp only [memberEvent, fixedEvent, wrmsrl_globalCtrl, wrmsrl_fixedCtrCtrl]
    rfl
  | llcMisses =>
    simp only [memberEvent, selectedName]
    split_ifs at h0 ⊢ with hhit hstall hoffcore
    · exact pmcEvent_of_final h0 (hglobal 0 (by decide)) rfl
    · exact pmcEvent_of_final h0 (hglobal 0 (by decide)) rfl
    · rw [pmcEvent_of_final h0 (hglobal 0 (by decide)) rfl]
      have hrsp := (wrmsrl_offcoreRsp f arch (by simpa using hhit) hoffcore).1
      simp only [ColumnName.event, ← hrsp]
      rfl
    · exact pmcEvent_of_final h0 (hglobal 0 (by decide)) rfl
  | swPrefetch =>
    simp only [memberEvent, selectedName]
    split_ifs at h1 ⊢ with hhit hcomb hoffcore hest
    · exact pmcEvent_of_final h1 (hglobal 1 (by decide)) rfl
    · exact pmcEvent_of_final h1 (hglobal 1 (by decide)) rfl
    · rw [pmcEvent_of_final h1 (hglobal 1 (by decide)) rfl]
      have hrsp := (wrmsrl_offcoreRsp f arch (by simpa using hhit) hoffcore).2
      simp only [ColumnName.event, ← hest, ← hrsp]
      rfl
    · rw [pmcEvent_of_final h1 (hglobal 1 (by decide)) rfl]
      have hrsp := (wrmsrl_offcoreRsp f arch (by simpa using hhit) hoffcore).2
      rw [Bool.not_eq_true] at hest
      simp only [ColumnName.event, ← hest, ← hrsp]
      rfl
    · cases arch <;> exact pmcEvent_of_final h1 (hglobal 1 (by decide)) rfl
  | stallMem =>
    simp only [memberEvent, selectedName, thirdEvent] at h2 ⊢
    split_ifs at h2 ⊢ <;> exact pmcEvent_of_final h2 (hglobal 2 (by decide)) rfl
  | stallsSb =>
    simp only [memberEvent, selectedName, fourthEvent] at h3 ⊢
    split_ifs at h3 ⊢ <;> exact pmcEvent_of_final h3 (hglobal 3 (by decide)) rfl

/-- Different names stand for different events. -/
theorem event_injective (arch : Arch) {a b : ColumnName} (h : a.event arch = b.event arch) :
    a = b := by
  cases arch <;> cases a <;> cases b <;> first | rfl | exact absurd h (by decide)

/-- In the record of a CPU every member holds the count of the event that its column is named
after, whatever the counts are. -/
def Truthful (f : EventFlags) (arch : Arch) (name : Counter → ColumnName) (cfg : Config)
    (cpu : Nat) (kts : U64) (r : Readings cfg.log) : Prop :=
  ∀ writes, hrperfPmcEnableAndEsel f arch = some writes → ∀ (hw : Event → U64) (c : Counter),
    member (sample cfg cpu kts (counting (wrmsrl writes) hw r)) c = hw ((name c).event arch)

section Truthful

variable {f : EventFlags} {arch : Arch} {name : Counter → ColumnName} {cfg : Config} {cpu : Nat}
  {kts : U64} {r : Readings cfg.log}

/-- A column is truthful if its name is the one of the event that is selected. -/
theorem truthful_iff_names (hcompiles : compiles f arch = true) :
    Truthful f arch name cfg cpu kts r ↔ ∀ c, name c = selectedName f c := by
  have hwrites : hrperfPmcEnableAndEsel f arch = some (eventWrites f arch) := if_pos hcompiles
  constructor
  · intro h c
    -- Only the event of this column has occurred.
    have hvalue := h _ hwrites (fun e => if e = (name c).event arch then 1 else 0) c
    rw [member_sample, selected_event, counted, if_pos rfl] at hvalue
    refine (event_injective arch (by_contra fun hne => ?_)).symm
    rw [if_neg hne] at hvalue
    exact absurd hvalue (by decide)
  · intro h writes heq hw c
    obtain rfl := Option.some.inj (hwrites.symm.trans heq)
    rw [member_sample, selected_event, counted, h c]

/-- No flag replaces a counter of its own. -/
structure NoReplacement (f : EventFlags) : Prop where
  stallTotal : f.useStallTotal = false
  counterCombination : f.useCounterCombination = false
  boundOnLoads : f.useBoundOnLoads = false
  boundOnStores : f.useBoundOnStores = false

theorem noReplacement_iff : NoReplacement f ↔ f.useStallTotal = false ∧
    f.useCounterCombination = false ∧ f.useBoundOnLoads = false ∧ f.useBoundOnStores = false :=
  ⟨fun h => ⟨h.1, h.2, h.3, h.4⟩, fun ⟨h1, h2, h3, h4⟩ => ⟨h1, h2, h3, h4⟩⟩

theorem forall_counter {P : Counter → Prop} : (∀ c, P c) ↔ P .stallMem ∧ P .instRetire ∧
    P .stallsSb ∧ P .cpuUnhalt ∧ P .llcMisses ∧ P .swPrefetch := by
  constructor
  · intro h
    exact ⟨h _, h _, h _, h _, h _, h _⟩
  · rintro ⟨h1, h2, h3, h4, h5, h6⟩ c
    cases c <;> assumption

/-- The flags under which `parse_hrp.py`, given the flags of the module, names its raw columns
after what they count. -/
def ParseHrpFlags (f : EventFlags) : Prop :=
  f.useHitCounts = false ∧
    (f.useOffcore = true ∧ NoReplacement f ∨
      f.useOffcore = false ∧ f.useCounterCombination = true ∧ f.useStallTotal = true ∧
        f.useBoundOnLoads = false ∧ f.useBoundOnStores = false ∨
      f.useOffcore = false ∧ f.useCounterCombination = false ∧ f.useStallTotal = false)

theorem parseHrpName_iff : (∀ c, parseHrpName f c = selectedName f c) ↔ ParseHrpFlags f := by
  rw [forall_counter, ParseHrpFlags, noReplacement_iff]
  obtain ⟨hit, offcore, est, total, comb, loads, stores⟩ := f
  cases hit <;> cases offcore <;> cases total <;> cases comb <;> cases loads <;> cases stores <;>
    cases est <;> decide

/-- The flags under which it also gets as far as writing them. -/
def ParseHrpWrites (f : EventFlags) : Prop :=
  f.useHitCounts = false ∧ f.useOffcore = false ∧ f.useCounterCombination = true ∧
    f.useStallTotal = true ∧ f.useBoundOnLoads = false ∧ f.useBoundOnStores = false

theorem hasRwPair_iff : f.parseHrpArgs.hasRwPair = true ↔
    f.useOffcore = true ∨ f.useCounterCombination = false := by
  simp [EventFlags.parseHrpArgs, NodeBandwidth.Args.hasRwPair]

theorem parseHrpWrites_iff :
    ParseHrpWrites f ↔ f.parseHrpArgs.hasRwPair = false ∧ ParseHrpFlags f := by
  rw [← Bool.not_eq_true, hasRwPair_iff, ParseHrpFlags, ParseHrpWrites]
  cases f.useOffcore <;> cases f.useCounterCombination <;> simp

theorem byStepName_iff : (∀ c, byStepName f c = selectedName f c) ↔
    f.useOffcore = false ∧ f.useHitCounts = true ∨ f.useHitCounts = false ∧ NoReplacement f := by
  rw [forall_counter, noReplacement_iff]
  obtain ⟨hit, offcore, est, total, comb, loads, stores⟩ := f
  cases hit <;> cases offcore <;> cases total <;> cases comb <;> cases loads <;> cases stores <;>
    cases est <;> decide

theorem profileName_iff : (∀ c, profileName f c = selectedName f c) ↔
    f.useHitCounts = false ∧ NoReplacement f := by
  rw [forall_counter, noReplacement_iff]
  obtain ⟨hit, offcore, est, total, comb, loads, stores⟩ := f
  cases hit <;> cases offcore <;> cases total <;> cases comb <;> cases loads <;> cases stores <;>
    cases est <;> decide

end Truthful

/-- Every counter that is read is enabled, and these are the flags under which each reader, started
with the flags that the module was compiled with, puts the count of an event under the name of this
event. -/
theorem columns_truthful_iff (f : EventFlags) (arch : Arch) (hcompiles : compiles f arch = true)
    (cfg : Config) (cpu : Nat) (kts : U64) (r : Readings cfg.log) :
    (∃ writes, hrperfPmcEnableAndEsel f arch = some writes ∧
      ∀ c, (memberEvent (wrmsrl writes) c).isSome = true) ∧
    (Truthful f arch (parseHrpName f) cfg cpu kts r ↔ ParseHrpFlags f) ∧
    ((∃ name, parseHrpTable f = some name ∧ Truthful f arch name cfg cpu kts r) ↔
      ParseHrpWrites f) ∧
    (Truthful f arch (byStepName f) cfg cpu kts r ↔
      f.useOffcore = false ∧ f.useHitCounts = true ∨ f.useHitCounts = false ∧ NoReplacement f) ∧
    (Truthful f arch (profileName f) cfg cpu kts r ↔
      f.useHitCounts = false ∧ NoReplacement f) := by
  have hparse : Truthful f arch (parseHrpName f) cfg cpu kts r ↔ ParseHrpFlags f :=
    (truthful_iff_names hcompiles).trans parseHrpName_iff
  refine ⟨⟨eventWrites f arch, if_pos hcompiles, fun c => ?_⟩, hparse, ?_,
    (truthful_iff_names hcompiles).trans byStepName_iff,
    (truthful_iff_names hcompiles).trans profileName_iff⟩
  · rw [selected_event, Option.isSome_some]
  · rw [parseHrpWrites_iff, ← hparse, parseHrpTable]
    cases f.parseHrpArgs.hasRwPair <;> simp

/-- The flags of `config.h`. -/
def configuredFlags : EventFlags := ⟨true, false, false, false, false, false, false⟩

/-- The counters combined, with the stalls in total. -/
def combinedFlags : EventFlags := ⟨false, false, false, true, true, false, false⟩

theorem columns_of_configuredFlags :
    Truthful configuredFlags .sapphire (byStepName configuredFlags) smallConfig 0 0
      (smallReadings 0) ∧
    ¬ Truthful configuredFlags .sapphire (parseHrpName configuredFlags) smallConfig 0 0
      (smallReadings 0) ∧
    ∃ name, parseHrpTable combinedFlags = some name ∧
      Truthful combinedFlags .skylake name smallConfig 0 0 (smallReadings 0) := by
  obtain ⟨-, hparse, -, hbyStep, -⟩ :=
    columns_truthful_iff configuredFlags .sapphire (by decide) smallConfig 0 0 (smallReadings 0)
  obtain ⟨-, -, htable, -, -⟩ :=
    columns_truthful_iff combinedFlags .skylake (by decide) smallConfig 0 0 (smallReadings 0)
  refine ⟨hbyStep.mpr (.inl ⟨rfl, rfl⟩), fun h => ?_, htable.mpr ⟨rfl, rfl, rfl, rfl, rfl, rfl⟩⟩
  exact absurd (hparse.mp h).1 (by decide)

end EventColumns
