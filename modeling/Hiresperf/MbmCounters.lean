import Hiresperf.PollerSample
import Hiresperf.RmidTable

/-!
# Bandwidth counters on the sampling path

`mbm_read_event`, `mbm_read_counters` and the entry that `hrperf_poller_func`
builds from them. The entry and the MBM result are local variables without an
initial value, so what the stack held before the call is an input here. The value
of `QM_CTR` depends on the event selected last.
-/

namespace MbmCounters

open CpuSelection LogEntry PollerSample RmidTable

inductive MbmCounterError where
  | readSuccess
  | readError
  | readUnavail
  | readInvalid
  deriving DecidableEq

def mbmEventL3Occup : BitVec 32 := 0x01
def mbmEventL3TotalBw : BitVec 32 := 0x02
def mbmEventL3LocalBw : BitVec 32 := 0x03

def qmEvtselRmidShift : Nat := 32
def qmEvtselRmidMask : BitVec 64 := 0x3FF
def qmEvtselEventMask : BitVec 64 := 0xFF
def qmCtrDataMask : BitVec 64 := 0x3FFFFFFFFFFFFFFF
def qmCtrErrorMask : BitVec 64 := 1 <<< 63
def qmCtrUnavailMask : BitVec 64 := 1 <<< 62

/-- `wrmsr` with the halves `LOWER_32` and `UPPER_32` of its value. -/
def wrmsr (val : BitVec 64) : BitVec 64 := val.extractLsb 63 32 ++ val.extractLsb 31 0

/-- What `mbm_read_event` selects. -/
def evtsel (rmid event : BitVec 32) : BitVec 64 :=
  wrmsr (((rmid.setWidth 64 &&& qmEvtselRmidMask) <<< qmEvtselRmidShift) |||
    (event.setWidth 64 &&& qmEvtselEventMask))

/-- The status, and `*data` after the call. -/
def mbmReadEvent (qmCtr : BitVec 64 → BitVec 64) (rmid event : BitVec 32) (data : BitVec 64) :
    MbmCounterError × BitVec 64 :=
  if event ≠ mbmEventL3Occup ∧ event ≠ mbmEventL3TotalBw ∧ event ≠ mbmEventL3LocalBw then
    (.readInvalid, data)
  else
    let val := qmCtr (evtsel rmid event)
    if val &&& qmCtrErrorMask ≠ 0 then (.readError, data)
    else if val &&& qmCtrUnavailMask ≠ 0 then (.readUnavail, data)
    else (.readSuccess, val &&& qmCtrDataMask)

/-- `mbm_counter_data_t`. -/
structure MbmData where
  rmid : BitVec 32
  counters : MbmCounterData
  status : MbmCounterError

/-- The last of the reads of `mbm_read_counters`. -/
def readOccupancy (qmCtr : BitVec 64 → BitVec 64) (data : MbmData) : MbmData :=
  let read := mbmReadEvent qmCtr data.rmid mbmEventL3Occup data.counters.occupancy
  let data := { data with counters := { data.counters with occupancy := read.2 } }
  if read.1 ≠ .readSuccess then { data with status := read.1 } else data

/-- The read under `HRP_RDT_INCLUDE_LOCAL_BW`, and what follows. -/
def readLocalBw (includeLocalBw : Bool) (qmCtr : BitVec 64 → BitVec 64) (data : MbmData) :
    MbmData :=
  if includeLocalBw then
    let read := mbmReadEvent qmCtr data.rmid mbmEventL3LocalBw data.counters.localBw
    let data := { data with counters := { data.counters with localBw := read.2 } }
    if read.1 ≠ .readSuccess then { data with status := read.1 } else readOccupancy qmCtr data
  else readOccupancy qmCtr data

def mbmReadCounters (includeLocalBw : Bool) (qmCtr : BitVec 64 → BitVec 64) (data : MbmData) :
    MbmData :=
  let data := { data with status := .readSuccess }
  let read := mbmReadEvent qmCtr data.rmid mbmEventL3TotalBw data.counters.totalBw
  let data := { data with counters := { data.counters with totalBw := read.2 } }
  if read.1 ≠ .readSuccess then { data with status := read.1 }
  else readLocalBw includeLocalBw qmCtr data

/-- The registers a CPU reads, and the uncore sums. -/
structure Registers where
  pmc0 : BitVec 64
  pmc1 : BitVec 64
  pmc2 : BitVec 64
  pmc3 : BitVec 64
  fixedCtr0 : BitVec 64
  fixedCtr1 : BitVec 64
  imcReads : BitVec 64
  imcWrites : BitVec 64
  qmCtr : BitVec 64 → BitVec 64

/-- The local variables before they are written. -/
structure Stack (flags : LogFlags) where
  entry : HrperfLogEntry flags
  mbmData : MbmData

/-- The MBM data that are copied to the entry, if any are. -/
def readMbm (flags : LogFlags) (cpu : Nat) (regs : Registers) (m : RmidManager) (old : MbmData) :
    Option MbmCounterData :=
  if flags.useRdt then
    match mbmGetRmidInfoForCore m cpu with
    | none => none
    | some idx =>
      let data := mbmReadCounters flags.rdtIncludeLocalBw regs.qmCtr
        { old with status := .readSuccess, rmid := (m.rmidTable idx).rmid }
      if data.status ≠ .readSuccess then none else some data.counters
  else none

/-- The entry that `hrperf_poller_func` enqueues. -/
def hrperfPollerFunc (cfg : Config) (cpu : Nat) (kts : BitVec 64) (regs : Registers)
    (m : RmidManager) (stack : Stack cfg.log) : HrperfLogEntry cfg.log :=
  sample cfg cpu kts {
    pmc0 := regs.pmc0
    pmc1 := regs.pmc1
    pmc2 := regs.pmc2
    pmc3 := regs.pmc3
    fixedCtr0 := regs.fixedCtr0
    fixedCtr1 := regs.fixedCtr1
    imcReads := regs.imcReads
    imcWrites := regs.imcWrites
    mbm := readMbm cfg.log cpu regs m stack.mbmData
    stack := stack.entry.tick }

/-- Two executions that differ in the old stack only enqueue the same entry. -/
def StackIndependent (cfg : Config) (cpu : Nat) (kts : BitVec 64) (regs : Registers)
    (m : RmidManager) : Prop :=
  ∀ stack stack' : Stack cfg.log,
    hrperfPollerFunc cfg cpu kts regs m stack = hrperfPollerFunc cfg cpu kts regs m stack'

/-! ## Reads that succeed -/

/-- Neither the error bit nor the unavailable bit is set. -/
def Readable (val : BitVec 64) : Prop := val &&& qmCtrErrorMask = 0 ∧ val &&& qmCtrUnavailMask = 0

instance (val : BitVec 64) : Decidable (Readable val) := inferInstanceAs (Decidable (_ ∧ _))

def mbmEvents (includeLocalBw : Bool) : List (BitVec 32) :=
  mbmEventL3TotalBw :: ((if includeLocalBw then [mbmEventL3LocalBw] else []) ++ [mbmEventL3Occup])

/-- Every event the poll asks for can be read. -/
def AllReadable (includeLocalBw : Bool) (qmCtr : BitVec 64 → BitVec 64) (rmid : BitVec 32) : Prop :=
  ∀ event ∈ mbmEvents includeLocalBw, Readable (qmCtr (evtsel rmid event))

instance (includeLocalBw : Bool) (qmCtr : BitVec 64 → BitVec 64) (rmid : BitVec 32) :
    Decidable (AllReadable includeLocalBw qmCtr rmid) :=
  inferInstanceAs (Decidable (∀ event ∈ _, _))

/-- What the hardware reports for an event. -/
def qmData (qmCtr : BitVec 64 → BitVec 64) (rmid event : BitVec 32) : BitVec 64 :=
  qmCtr (evtsel rmid event) &&& qmCtrDataMask

variable {qmCtr : BitVec 64 → BitVec 64} {includeLocalBw : Bool}

theorem mbmReadEvent_of_readable {rmid event : BitVec 32} {data : BitVec 64}
    (hevent : event ∈ mbmEvents true) (h : Readable (qmCtr (evtsel rmid event))) :
    mbmReadEvent qmCtr rmid event data = (.readSuccess, qmData qmCtr rmid event) := by
  have hknown : ¬ (event ≠ mbmEventL3Occup ∧ event ≠ mbmEventL3TotalBw ∧
      event ≠ mbmEventL3LocalBw) := by
    rintro ⟨hoccup, htotal, hlocal⟩
    simp [mbmEvents, hoccup, htotal, hlocal] at hevent
  simp [mbmReadEvent, hknown, h.1, h.2, qmData]

/-- A read that fails leaves the destination as it was. -/
theorem mbmReadEvent_of_not_readable {rmid event : BitVec 32} (data : BitVec 64)
    (h : ¬ Readable (qmCtr (evtsel rmid event))) :
    ∃ err, err ≠ .readSuccess ∧ mbmReadEvent qmCtr rmid event data = (err, data) := by
  dsimp only [mbmReadEvent]
  split_ifs with hknown herror hunavail
  · exact ⟨.readInvalid, by decide, rfl⟩
  · exact ⟨.readError, by decide, rfl⟩
  · exact ⟨.readUnavail, by decide, rfl⟩
  · exact absurd ⟨not_not.mp herror, not_not.mp hunavail⟩ h

/-! ## The three reads together -/

theorem allReadable_iff {rmid : BitVec 32} : AllReadable includeLocalBw qmCtr rmid ↔
    Readable (qmCtr (evtsel rmid mbmEventL3TotalBw)) ∧
      (includeLocalBw = true → Readable (qmCtr (evtsel rmid mbmEventL3LocalBw))) ∧
      Readable (qmCtr (evtsel rmid mbmEventL3Occup)) := by
  cases includeLocalBw <;> simp [AllReadable, mbmEvents]

/-- When everything can be read, all that is copied to the entry comes from the hardware. -/
theorem mbmReadCounters_of_allReadable (data : MbmData)
    (h : AllReadable includeLocalBw qmCtr data.rmid) :
    mbmReadCounters includeLocalBw qmCtr data = ⟨data.rmid,
      { totalBw := qmData qmCtr data.rmid mbmEventL3TotalBw
        localBw := if includeLocalBw then qmData qmCtr data.rmid mbmEventL3LocalBw
          else data.counters.localBw
        occupancy := qmData qmCtr data.rmid mbmEventL3Occup }, .readSuccess⟩ := by
  obtain ⟨htotal, hlocal, hoccup⟩ := allReadable_iff.mp h
  cases includeLocalBw with
  | false =>
    simp [mbmReadCounters, readLocalBw, readOccupancy, mbmReadEvent_of_readable (by decide) htotal,
      mbmReadEvent_of_readable (by decide) hoccup]
  | true =>
    simp [mbmReadCounters, readLocalBw, readOccupancy, mbmReadEvent_of_readable (by decide) htotal,
      mbmReadEvent_of_readable (by decide) (hlocal rfl),
      mbmReadEvent_of_readable (by decide) hoccup]

theorem readOccupancy_of_not_readable {data : MbmData}
    (h : ¬ Readable (qmCtr (evtsel data.rmid mbmEventL3Occup))) :
    (readOccupancy qmCtr data).status ≠ .readSuccess := by
  obtain ⟨err, herr, hread⟩ := mbmReadEvent_of_not_readable data.counters.occupancy h
  simp [readOccupancy, hread, herr]

/-- One event that cannot be read makes the whole read fail. -/
theorem mbmReadCounters_of_not_allReadable (data : MbmData)
    (h : ¬ AllReadable includeLocalBw qmCtr data.rmid) :
    (mbmReadCounters includeLocalBw qmCtr data).status ≠ .readSuccess := by
  rw [allReadable_iff] at h
  by_cases htotal : Readable (qmCtr (evtsel data.rmid mbmEventL3TotalBw))
  · simp only [mbmReadCounters, mbmReadEvent_of_readable (by decide) htotal]
    cases includeLocalBw with
    | false => exact readOccupancy_of_not_readable fun hoccup => h ⟨htotal, by simp, hoccup⟩
    | true =>
      by_cases hlocal : Readable (qmCtr (evtsel data.rmid mbmEventL3LocalBw))
      · simp only [readLocalBw, mbmReadEvent_of_readable (by decide) hlocal]
        exact readOccupancy_of_not_readable fun hoccup => h ⟨htotal, fun _ => hlocal, hoccup⟩
      · obtain ⟨err, herr, hread⟩ :=
          mbmReadEvent_of_not_readable data.counters.localBw hlocal
        simp [readLocalBw, hread, herr]
  · obtain ⟨err, herr, hread⟩ := mbmReadEvent_of_not_readable data.counters.totalBw htotal
    simp [mbmReadCounters, hread, herr]

/-! ## The entry and the stack -/

variable {cfg : Config} {cpu : Nat} {kts : BitVec 64} {regs : Registers} {m : RmidManager}

/-- The core has an entry of the table and its events can be read. -/
def MbmAvailable (flags : LogFlags) (cpu : Nat) (regs : Registers) (m : RmidManager) : Prop :=
  ∃ idx, mbmGetRmidInfoForCore m cpu = some idx ∧
    AllReadable flags.rdtIncludeLocalBw regs.qmCtr (m.rmidTable idx).rmid

theorem readMbm_of_not_available (h : ¬ MbmAvailable cfg.log cpu regs m) (old : MbmData) :
    readMbm cfg.log cpu regs m old = none := by
  unfold readMbm
  split_ifs
  · cases hlookup : mbmGetRmidInfoForCore m cpu with
    | none => rfl
    | some idx =>
      have hstatus := mbmReadCounters_of_not_allReadable
        { old with status := .readSuccess, rmid := (m.rmidTable idx).rmid }
        fun hread => h ⟨idx, hlookup, hread⟩
      exact if_pos hstatus
  · rfl

theorem readMbm_of_available (hrdt : cfg.log.useRdt = true)
    (h : MbmAvailable cfg.log cpu regs m) : ∃ rmid, ∀ old, readMbm cfg.log cpu regs m old = some
      { totalBw := qmData regs.qmCtr rmid mbmEventL3TotalBw
        localBw := if cfg.log.rdtIncludeLocalBw then qmData regs.qmCtr rmid mbmEventL3LocalBw
          else old.counters.localBw
        occupancy := qmData regs.qmCtr rmid mbmEventL3Occup } := by
  obtain ⟨idx, hlookup, hread⟩ := h
  refine ⟨(m.rmidTable idx).rmid, fun old => ?_⟩
  have hcounters := mbmReadCounters_of_allReadable
    { old with status := .readSuccess, rmid := (m.rmidTable idx).rmid } hread
  simp [readMbm, hrdt, hlookup, hcounters]

theorem Field.eq_of_absent {present : Bool} (h : present = false) (a b : Field present) : a = b := by
  subst h
  have hnone : ∀ c : Field false, c.1 = none := fun c => by simpa using c.2
  exact Subtype.ext ((hnone a).trans (hnone b).symm)

theorem Field.of_inj {present : Bool} (h : present = true) {v w : BitVec 64}
    (heq : Field.of present v = Field.of present w) : v = w := by
  subst h
  simpa [Field.of] using congrArg Subtype.val heq

/-- A stack full of one value. -/
def filledStack (flags : LogFlags) (v : BitVec 64) : Stack flags where
  entry := ⟨0, ⟨v, v, v, v, v, v, v, .of _ v, .of _ v, .of _ v, .of _ v, .of _ v⟩⟩
  mbmData := ⟨0, ⟨v, v, v⟩, .readSuccess⟩

/-- The entries differ in the MBM members at most. -/
theorem hrperfPollerFunc_eq {stack stack' : Stack cfg.log}
    (htotal : fromMbm (readMbm cfg.log cpu regs m stack.mbmData) MbmCounterData.totalBw
        stack.entry.tick.totalBw =
      fromMbm (readMbm cfg.log cpu regs m stack'.mbmData) MbmCounterData.totalBw
        stack'.entry.tick.totalBw)
    (hlocal : fromMbm (readMbm cfg.log cpu regs m stack.mbmData) MbmCounterData.localBw
        stack.entry.tick.localBw =
      fromMbm (readMbm cfg.log cpu regs m stack'.mbmData) MbmCounterData.localBw
        stack'.entry.tick.localBw)
    (hoccup : fromMbm (readMbm cfg.log cpu regs m stack.mbmData) MbmCounterData.occupancy
        stack.entry.tick.occupancy =
      fromMbm (readMbm cfg.log cpu regs m stack'.mbmData) MbmCounterData.occupancy
        stack'.entry.tick.occupancy) :
    hrperfPollerFunc cfg cpu kts regs m stack = hrperfPollerFunc cfg cpu kts regs m stack' := by
  simp only [hrperfPollerFunc, sample, htotal, hlocal, hoccup]

/-- The entry is free of old stack contents exactly if there are no MBM members or the
hardware fills all of them. -/
theorem stackIndependent_iff : StackIndependent cfg cpu kts regs m ↔
    cfg.log.useRdt = false ∨ MbmAvailable cfg.log cpu regs m := by
  constructor
  · intro h
    by_contra hnot
    rw [not_or, Bool.not_eq_false] at hnot
    obtain ⟨hrdt, hunavailable⟩ := hnot
    -- nothing is copied, so `total_bw` is what the stack held
    have heq := congrArg (fun e => e.tick.totalBw) (h (filledStack _ 0) (filledStack _ 1))
    simp only [hrperfPollerFunc, sample, readMbm_of_not_available hunavailable] at heq
    exact absurd (Field.of_inj hrdt heq) (by decide)
  · intro h stack stack'
    by_cases hrdt : cfg.log.useRdt = true
    · have havailable := h.resolve_left (by simp [hrdt])
      obtain ⟨rmid, hread⟩ := readMbm_of_available hrdt havailable
      apply hrperfPollerFunc_eq
      · simp only [hread, fromMbm]
      · by_cases hlocal : cfg.log.rdtIncludeLocalBw = true
        · simp only [hread, hlocal, fromMbm, if_true]
        · exact Field.eq_of_absent (by simp [hlocal]) _ _
      · simp only [hread, fromMbm]
    · rw [Bool.not_eq_true] at hrdt
      apply hrperfPollerFunc_eq
      · exact Field.eq_of_absent hrdt _ _
      · exact Field.eq_of_absent (by simp [hrdt]) _ _
      · exact Field.eq_of_absent hrdt _ _

/-- CPU 0 has an entry, but every `QM_CTR` read has the error bit set. -/
theorem stack_leaks_when_read_fails : ¬ StackIndependent
    { twoCpuConfig with log := ⟨false, true, false⟩ } 0 0
    ⟨0, 0, 0, 0, 0, 0, 0, 0, fun _ => qmCtrErrorMask⟩
    ⟨1, fun _ => ⟨1, 0, true, 0, 0⟩, fun _ => 0⟩ := by
  intro h
  have heq := h (filledStack _ 0) (filledStack _ 1)
  exact absurd heq (by decide)

end MbmCounters
