import Hiresperf.CpuSelection

/-!
# One sample

The data of `hrperf_poller_func`: the entry that a CPU builds from the timestamp
of the poll and from what its counters read. The readings are inputs. A member
that the function does not write keeps what the stack held.
-/

namespace PollerSample

open CpuSelection LogEntry

/-- The clocks as `smp_poll_pmus` finds them. `ktime_t` is a signed 64-bit number. -/
structure Clocks where
  rdtsc : BitVec 64
  ktimeGetRaw : BitVec 64
  ktimeGetReal : BitVec 64

/-- Negative times are errors and count as 0. -/
def ktimeToKts (ts : BitVec 64) : BitVec 64 := if ts.toInt < 0 then 0 else ts

def takeKts (cfg : Config) (clocks : Clocks) : BitVec 64 :=
  if cfg.useTsc then clocks.rdtsc
  else if cfg.useRawClock then ktimeToKts clocks.ktimeGetRaw
  else ktimeToKts clocks.ktimeGetReal

structure MbmCounterData where
  totalBw : BitVec 64
  localBw : BitVec 64
  occupancy : BitVec 64

/-- What a CPU reads. There are no MBM data if the core has no RMID or the read fails. -/
structure Readings (flags : LogFlags) where
  pmc0 : BitVec 64
  pmc1 : BitVec 64
  pmc2 : BitVec 64
  pmc3 : BitVec 64
  fixedCtr0 : BitVec 64
  fixedCtr1 : BitVec 64
  imcReads : BitVec 64
  imcWrites : BitVec 64
  mbm : Option MbmCounterData
  stack : HrperfTick flags

/-- A member that is written if there are MBM data. -/
def fromMbm {present : Bool} (mbm : Option MbmCounterData) (member : MbmCounterData → BitVec 64)
    (old : Field present) : Field present :=
  match mbm with
  | some data => .of present (member data)
  | none => old

/-- The entry of `cpu`; only one core reports the uncore counters. -/
def sample (cfg : Config) (cpu : Nat) (kts : BitVec 64) (r : Readings cfg.log) :
    HrperfLogEntry cfg.log where
  cpuId := BitVec.ofNat 32 cpu
  tick := {
    kts := kts
    stallMem := r.pmc2
    instRetire := r.fixedCtr0
    stallsSb := r.pmc3
    cpuUnhalt := r.fixedCtr1
    llcMisses := r.pmc0
    swPrefetch := r.pmc1
    imcReads := .of _ (if cpu = cfg.imcDataAssociatedCore then r.imcReads else 0)
    imcWrites := .of _ (if cpu = cfg.imcDataAssociatedCore then r.imcWrites else 0)
    totalBw := fromMbm r.mbm MbmCounterData.totalBw r.stack.totalBw
    localBw := fromMbm r.mbm MbmCounterData.localBw r.stack.localBw
    occupancy := fromMbm r.mbm MbmCounterData.occupancy r.stack.occupancy }

@[simp] theorem sample_kts (cfg : Config) (cpu : Nat) (kts : BitVec 64) (r : Readings cfg.log) :
    (sample cfg cpu kts r).tick.kts = kts := rfl

@[simp] theorem sample_cpuId (cfg : Config) (cpu : Nat) (kts : BitVec 64)
    (r : Readings cfg.log) : (sample cfg cpu kts r).cpuId = BitVec.ofNat 32 cpu := rfl

end PollerSample
