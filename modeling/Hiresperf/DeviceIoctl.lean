import Hiresperf.Foundation.CallPool
import Hiresperf.InstructedWork
import Hiresperf.ModuleInit
import Mathlib.Data.List.Nodup

/-!
# The device while the module is being initialised

`hrp_pmc_init` makes the device visible before it creates the threads, opens the
log file and allocates the workqueue, and `hrperf_ioctl` holds no lock. Here any
number of ioctls run against the rest of the initialisation and against each
other, each stopped at every access to a variable that another one writes. The
measured TSC frequency, the success of an allocation and of a copy to user space
come with the step.
-/

namespace DeviceIoctl

open StepMachine CallPool
open ModuleInit (einval eio enomem)
open InstructedWork (efault)

/-! ## Commands -/

/-- `_IOC` of `ioctl.h`, and of `hrperf_api.py`. -/
def ioc (dir type nr size : Nat) : Nat := dir <<< 30 ||| type <<< 8 ||| nr ||| size <<< 16

/-- `HRP_PMC_IOC_MAGIC`. -/
def magic : Nat := 0x6b

def io (nr : Nat) : Nat := ioc 0 magic nr 0
def iow (nr size : Nat) : Nat := ioc 1 magic nr size
def ior (nr size : Nat) : Nat := ioc 2 magic nr size

inductive Cmd where
  | start
  | pause
  | instructedPoll
  | instructedLog
  | instructedPollAndLog
  | rdtSetRmidOnCore
  | tscFreq
  | rdtScaleFactor
  | rdtMaxRmid
  deriving DecidableEq

def Cmd.all : List Cmd :=
  [.start, .pause, .instructedPoll, .instructedLog, .instructedPollAndLog, .rdtSetRmidOnCore,
    .tscFreq, .rdtScaleFactor, .rdtMaxRmid]

def Cmd.number : Cmd → Nat
  | .start => io 1
  | .pause => io 2
  | .instructedPoll => io 3
  | .instructedLog => io 4
  | .instructedPollAndLog => io 5
  | .rdtSetRmidOnCore => iow 6 8
  | .tscFreq => ior 10 8
  | .rdtScaleFactor => ior 11 4
  | .rdtMaxRmid => ior 12 4

/-- The cases under `#if HRP_USE_RDT`. -/
def Cmd.needsRdt : Cmd → Bool
  | .rdtSetRmidOnCore | .rdtScaleFactor | .rdtMaxRmid => true
  | _ => false

/-- The commands that queue a work item. -/
def Cmd.isInstructed : Cmd → Bool
  | .instructedPoll | .instructedLog | .instructedPollAndLog => true
  | _ => false

/-- The case of the `switch` that a number goes to. -/
def decodeCmd (useRdt : Bool) (number : Nat) : Option Cmd :=
  Cmd.all.find? fun c => c.number == number && (useRdt || !c.needsRdt)

theorem Cmd.number_inj {c c' : Cmd} (h : c.number = c'.number) : c = c' := by
  cases c <;> cases c' <;> first | rfl | exact absurd h (by decide)

theorem Cmd.mem_all (c : Cmd) : c ∈ Cmd.all := by
  cases c <;> decide

/-- A number reaches a command exactly if it is the one of this command. -/
theorem decodeCmd_eq_some {useRdt : Bool} {number : Nat} {c : Cmd} :
    decodeCmd useRdt number = some c ↔
      number = c.number ∧ (useRdt = true ∨ c.needsRdt = false) := by
  rw [decodeCmd]
  constructor
  · intro h
    have hfound := List.find?_some h
    simp only [Bool.and_eq_true, beq_iff_eq, Bool.or_eq_true, Bool.not_eq_eq_eq_not,
      Bool.not_true] at hfound
    exact ⟨hfound.1.symm, hfound.2⟩
  · rintro ⟨rfl, hrdt⟩
    have hsome : (Cmd.all.find? fun c' => c'.number == c.number &&
        (useRdt || !c'.needsRdt)).isSome = true := by
      rw [List.find?_isSome]
      exact ⟨c, c.mem_all, by rcases hrdt with h | h <;> simp [h]⟩
    obtain ⟨c', hc'⟩ := Option.isSome_iff_exists.mp hsome
    have hfound := List.find?_some hc'
    rw [Bool.and_eq_true, beq_iff_eq] at hfound
    rw [hc', Cmd.number_inj hfound.1]

/-! ## The measured frequency -/

abbrev U64 := BitVec 64

/-- What `hrp_calibrate_tsc` reads before and after its sleep. -/
structure TscReadings where
  startTsc : U64
  endTsc : U64
  startTime : U64
  endTime : U64

/-- The frequency in cycles per microsecond, `none` when no time has passed. -/
def hrpCalibrateTsc (r : TscReadings) : Option U64 :=
  if (r.endTime - r.startTime).toInt ≤ 0 then none
  else some ((r.endTsc - r.startTsc) * 1000#64 / (r.endTime - r.startTime))

/-! ## The machine -/

/-- A `task_struct` pointer: NULL, an error pointer or a thread. -/
inductive TaskPtr where
  | null
  | err
  | task
  deriving DecidableEq

/-- What is left of `hrp_pmc_init` once the device exists. `setup` is everything before the
poller thread, none of which an ioctl looks at. -/
inductive InitPc where
  | setup
  | createPoller
  | openLog
  | createLogger
  | allocWorkqueue
  | returned (code : Int)
  deriving DecidableEq

inductive Pc where
  | entered
  | startTested
  | pollerToWake
  | loggerToWake
  | pauseTested
  | calibrating
  | calibrationStored
  | calibrated (result : U64)
  | assigned
  | copying
  | workInitialised
  | workQueued
  | oops
  | returned (code : Int) (answer : Option Nat)
  deriving DecidableEq

structure Call where
  number : Nat
  pc : Pc
  deriving DecidableEq

structure DeviceConfig where
  instructedProfile : Bool
  useRdt : Bool
  useTsc : Bool
  scalingFactor : Nat
  maxRmid : Nat

/-- The variables of the module that an ioctl reads or that are written meanwhile. `measured`
is for the statements only: the frequencies that calibrations came to. -/
structure Vars where
  initPc : InitPc
  pollerThread : TaskPtr
  loggerThread : TaskPtr
  logFile : Bool
  workqueue : Bool
  hrperfRunning : Bool
  cyclesPerUs : U64
  measured : List U64

/-- What the environment decides about a step of an ioctl: `coreKnown` whether the core of a
request has an entry in the table of RMIDs, `writes` whether the work item, which may run the
function of another client by then, has entries to write. -/
structure CallEnv where
  readings : TscReadings
  copied : Bool
  coreKnown : Bool
  writes : Bool

def enotty : Int := 25

/-- The initialisation goes on. A nonzero result is a step that fails: the code of an earlier
stage, the error in a thread pointer, or a workqueue that is NULL. Without a log file it goes
on all the same. -/
def initStep (cfg : DeviceConfig) (s : Vars) (result : Int) : Option Vars :=
  match s.initPc with
  | .setup =>
    if result = 0 then some { s with initPc := .createPoller }
    else some { s with initPc := .returned result }
  | .createPoller =>
    if cfg.instructedProfile then
      some { s with pollerThread := .null, initPc := .openLog }
    else if result = 0 then some { s with pollerThread := .task, initPc := .openLog }
    else some { s with pollerThread := .err, initPc := .returned result }
  | .openLog => some { s with logFile := result == 0, initPc := .createLogger }
  | .createLogger =>
    if cfg.instructedProfile then
      some { s with loggerThread := .null, initPc := .allocWorkqueue }
    else if result = 0 then some { s with loggerThread := .task, initPc := .allocWorkqueue }
    else some { s with loggerThread := .err, initPc := .returned result }
  | .allocWorkqueue =>
    if cfg.instructedProfile then
      if result = 0 then some { s with workqueue := true, initPc := .returned 0 }
      else some { s with initPc := .returned (-enomem) }
    else some { s with initPc := .returned 0 }
  | .returned _ => none

/-- `wake_up_process` dereferences its argument. -/
def wakeUpProcess (p : TaskPtr) (next : Pc) : Pc := if p = .task then next else .oops

/-- `copy_to_user` of a value that nothing changes meanwhile. -/
def copyToUser (copied : Bool) (value : Nat) : Pc :=
  if copied then .returned 0 (some value) else .returned (-efault) none

/-- The `switch`, up to the first access to a variable that another step writes. -/
def dispatch (cfg : DeviceConfig) (s : Vars) (env : CallEnv) : Option Cmd → Pc
  | none => .returned (-enotty) none
  | some .start =>
    if cfg.instructedProfile then .returned (-einval) none
    else if s.hrperfRunning then .returned 0 none else .startTested
  | some .pause =>
    if cfg.instructedProfile then .returned (-einval) none
    else if s.hrperfRunning then .pauseTested else .returned 0 none
  | some .tscFreq => if s.cyclesPerUs = 0#64 then .calibrating else .copying
  | some .instructedPoll | some .instructedLog | some .instructedPollAndLog =>
    if cfg.instructedProfile then .workInitialised else .returned (-einval) none
  | some .rdtScaleFactor => copyToUser env.copied cfg.scalingFactor
  | some .rdtMaxRmid => copyToUser env.copied cfg.maxRmid
  | some .rdtSetRmidOnCore =>
    if env.copied then
      -- `mbm_set_rmid_for_core` dereferences the entry without a test
      if env.coreKnown then .returned 0 none else .oops
    else .returned (-efault) none

/-- One step of `hrperf_ioctl`, with what it leaves of the shared variables. -/
def hrperfIoctl (cfg : DeviceConfig) (s : Vars) (c : Call) (env : CallEnv) :
    Option (Vars × Pc) :=
  match c.pc with
  | .entered => some (s, dispatch cfg s env (decodeCmd cfg.useRdt c.number))
  | .startTested => some ({ s with hrperfRunning := true }, .pollerToWake)
  | .pollerToWake => some (s, wakeUpProcess s.pollerThread .loggerToWake)
  | .loggerToWake => some (s, wakeUpProcess s.loggerThread (.returned 0 none))
  | .pauseTested => some ({ s with hrperfRunning := false }, .returned 0 none)
  | .calibrating =>
    match hrpCalibrateTsc env.readings with
    | none => some (s, .calibrated 0#64)
    | some f =>
        some ({ s with cyclesPerUs := f, measured := s.measured ++ [f] }, .calibrationStored)
  | .calibrationStored => some (s, .calibrated s.cyclesPerUs)
  | .calibrated result => some ({ s with cyclesPerUs := result }, .assigned)
  | .assigned => some (s, if s.cyclesPerUs = 0#64 then .returned (-eio) none else .copying)
  | .copying => some (s, copyToUser env.copied s.cyclesPerUs.toNat)
  | .workInitialised =>
    some (s, if s.workqueue then .workQueued else .returned (-efault) none)
  -- the worker dereferences the log file, and `flush_work` waits for it
  | .workQueued => some (s, if env.writes && !s.logFile then .oops else .returned 0 none)
  | .oops => none
  | .returned _ _ => none

/-- The frequency `hrp_pmc_init` has measured itself, before the device exists. -/
structure InitialFrequency (cfg : DeviceConfig) where
  value : U64
  measured : cfg.useTsc = true ↔ value ≠ 0#64

/-- The module from the creation of the device on. The device stays when the initialisation
fails later, so ioctls go on then too. -/
def device (cfg : DeviceConfig) (f : InitialFrequency cfg) :
    Service Vars Call Int Nat CallEnv where
  vars :=
    { initPc := .setup, pollerThread := .null, loggerThread := .null, logFile := false,
      workqueue := false, hrperfRunning := false, cyclesPerUs := f.value,
      measured := if cfg.useTsc then [f.value] else [] }
  other := initStep cfg
  enter s number := some (s, ⟨number, .entered⟩)
  advance s _ c env := (hrperfIoctl cfg s c env).map fun r => (r.1, { c with pc := r.2 })

/-! ## The frequency that clients are told -/

section Frequency

variable {cfg : DeviceConfig} {f : InitialFrequency cfg}

def IsTscFreq (c : Call) : Prop := c.number = Cmd.tscFreq.number

/-- Between the test of `cycles_per_us` and the return. -/
def InProgress : Pc → Prop
  | .calibrating | .calibrationStored | .calibrated _ | .assigned | .copying => True
  | _ => False

/-- A frequency that some calibration came to, and that is not the mark of a failed one. -/
def Measured (s : Vars) (v : Nat) : Prop := ∃ f ∈ s.measured, f ≠ 0#64 ∧ v = f.toNat

/-- A client of `HRP_PMC_IOC_TSC_FREQ` has `v` in its variable when the call returns. -/
def Told (s : Pool Vars Call) (code : Int) (v : Nat) : Prop :=
  ∃ c ∈ s.calls, IsTscFreq c ∧ c.pc = .returned code (some v)

/-- What a step of an ioctl does to the frequency. -/
inductive TscStep (s : Vars) (c : Call) (env : CallEnv) : Vars → Pc → Prop where
  | unknown : c.pc = .entered → IsTscFreq c → s.cyclesPerUs = 0#64 → TscStep s c env s .calibrating
  | known : c.pc = .entered → IsTscFreq c → s.cyclesPerUs ≠ 0#64 → TscStep s c env s .copying
  | failed : c.pc = .calibrating → hrpCalibrateTsc env.readings = none →
      TscStep s c env s (.calibrated 0#64)
  | stored (f : U64) : c.pc = .calibrating → hrpCalibrateTsc env.readings = some f →
      TscStep s c env { s with cyclesPerUs := f, measured := s.measured ++ [f] } .calibrationStored
  | result : c.pc = .calibrationStored → TscStep s c env s (.calibrated s.cyclesPerUs)
  | assign (r : U64) : c.pc = .calibrated r → TscStep s c env { s with cyclesPerUs := r } .assigned
  | tested : c.pc = .assigned → s.cyclesPerUs ≠ 0#64 → TscStep s c env s .copying
  | copied : c.pc = .copying →
      TscStep s c env s (copyToUser env.copied s.cyclesPerUs.toNat)
  | other {t : Vars} {pc : Pc} : t.cyclesPerUs = s.cyclesPerUs → t.measured = s.measured →
      ¬ InProgress pc → (IsTscFreq c → ∀ code v, pc ≠ .returned code (some v)) →
      TscStep s c env t pc

theorem decodeCmd_tscFreq {useRdt : Bool} {number : Nat} :
    decodeCmd useRdt number = some .tscFreq ↔ number = Cmd.tscFreq.number := by
  rw [decodeCmd_eq_some]
  exact and_iff_left (.inr rfl)

theorem dispatch_tsc (s : Vars) (c : Call) (env : CallEnv) (hpc : c.pc = .entered) :
    TscStep s c env s (dispatch cfg s env (decodeCmd cfg.useRdt c.number)) := by
  by_cases htsc : IsTscFreq c
  · rw [decodeCmd_tscFreq.mpr htsc, dispatch]
    split_ifs with hzero
    · exact .unknown hpc htsc hzero
    · exact .known hpc htsc hzero
  · have hne : decodeCmd cfg.useRdt c.number ≠ some .tscFreq := fun h =>
      htsc (decodeCmd_tscFreq.mp h)
    refine .other rfl rfl ?_ (fun h => absurd h htsc)
    revert hne
    generalize decodeCmd cfg.useRdt c.number = cmd
    intro hne
    rcases cmd with - | cmd
    · exact not_false
    · cases cmd <;> simp only [dispatch, copyToUser] <;> (try split_ifs) <;>
        first | exact not_false | exact absurd rfl hne

theorem hrperfIoctl_tsc {s t : Vars} {c : Call} {env : CallEnv} {pc : Pc}
    (h : hrperfIoctl cfg s c env = some (t, pc)) : TscStep s c env t pc := by
  cases hpc : c.pc with
  | entered =>
    simp only [hrperfIoctl, hpc, Option.some.injEq, Prod.mk.injEq] at h
    obtain ⟨rfl, rfl⟩ := h
    exact dispatch_tsc s c env hpc
  | calibrating =>
    simp only [hrperfIoctl, hpc] at h
    cases hcal : hrpCalibrateTsc env.readings with
    | none =>
      simp only [hcal, Option.some.injEq, Prod.mk.injEq] at h
      obtain ⟨rfl, rfl⟩ := h
      exact .failed hpc hcal
    | some f =>
      simp only [hcal, Option.some.injEq, Prod.mk.injEq] at h
      obtain ⟨rfl, rfl⟩ := h
      exact .stored f hpc hcal
  | calibrationStored =>
    simp only [hrperfIoctl, hpc, Option.some.injEq, Prod.mk.injEq] at h
    obtain ⟨rfl, rfl⟩ := h
    exact .result hpc
  | calibrated r =>
    simp only [hrperfIoctl, hpc, Option.some.injEq, Prod.mk.injEq] at h
    obtain ⟨rfl, rfl⟩ := h
    exact .assign r hpc
  | assigned =>
    simp only [hrperfIoctl, hpc, Option.some.injEq, Prod.mk.injEq] at h
    obtain ⟨rfl, rfl⟩ := h
    split_ifs with hzero
    · exact .other rfl rfl not_false (by simp)
    · exact .tested hpc hzero
  | copying =>
    simp only [hrperfIoctl, hpc, Option.some.injEq, Prod.mk.injEq] at h
    obtain ⟨rfl, rfl⟩ := h
    exact .copied hpc
  | startTested | pauseTested =>
    simp only [hrperfIoctl, hpc, Option.some.injEq, Prod.mk.injEq] at h
    obtain ⟨rfl, rfl⟩ := h
    exact .other rfl rfl not_false (by simp)
  | pollerToWake | loggerToWake =>
    simp only [hrperfIoctl, hpc, wakeUpProcess, Option.some.injEq, Prod.mk.injEq] at h
    obtain ⟨rfl, rfl⟩ := h
    refine .other rfl rfl ?_ ?_ <;> split_ifs <;> first | exact not_false | simp
  | workInitialised | workQueued =>
    simp only [hrperfIoctl, hpc, Option.some.injEq, Prod.mk.injEq] at h
    obtain ⟨rfl, rfl⟩ := h
    refine .other rfl rfl ?_ ?_ <;> split_ifs <;> first | exact not_false | simp
  | oops | returned code answer => simp [hrperfIoctl, hpc] at h

theorem initStep_tsc {s t : Vars} {result : Int} (h : initStep cfg s result = some t) :
    t.cyclesPerUs = s.cyclesPerUs ∧ t.measured = s.measured := by
  cases hpc : s.initPc with
  | returned code => simp [initStep, hpc] at h
  | openLog =>
    simp only [initStep, hpc, Option.some.injEq] at h
    exact h ▸ ⟨rfl, rfl⟩
  | setup | createPoller | createLogger | allocWorkqueue =>
    simp only [initStep, hpc] at h
    split_ifs at h <;> obtain rfl := Option.some.inj h <;> exact ⟨rfl, rfl⟩

/-- The step of an ioctl, without the wrapping into a call. -/
theorem advance_eq {s t : Vars} {i : Nat} {c c' : Call} {env : CallEnv}
    (h : (device cfg f).advance s i c env = some (t, c')) :
    c'.number = c.number ∧ hrperfIoctl cfg s c env = some (t, c'.pc) := by
  obtain ⟨⟨t', pc⟩, hr, heq⟩ := Option.map_eq_some_iff.mp h
  obtain ⟨rfl, rfl⟩ := Prod.mk.injEq _ _ _ _ ▸ heq
  exact ⟨rfl, hr⟩

/-- No zero is written while another call is about to copy the frequency out. -/
def SafeWrite (s : Pool Vars Call) : Action Int Nat CallEnv → Prop
  | .advance i env => ∀ c t c', s.calls[i]? = some c →
      (device cfg f).advance s.vars i c env = some (t, c') →
      (s.vars.cyclesPerUs ≠ 0#64 → t.cyclesPerUs ≠ 0#64) ∨
      ∀ (j : Nat) (d : Call), j ≠ i → s.calls[j]? = some d → d.pc ≠ .copying
  | _ => True

structure FrequencyCall (s : Vars) (c : Call) : Prop where
  copying : c.pc = .copying → s.cyclesPerUs ≠ 0#64
  calibrated : ∀ r, c.pc = .calibrated r → r = 0#64 ∨ r ∈ s.measured
  told : IsTscFreq c → ∀ code v, c.pc = .returned code (some v) → code = 0 ∧ Measured s v

theorem Measured.append {s t : Vars} {v : Nat} (h : Measured s v)
    (hsub : s.measured ⊆ t.measured) : Measured t v := by
  obtain ⟨f, hf, hne, rfl⟩ := h
  exact ⟨f, hsub hf, hne, rfl⟩

theorem TscStep.measured_subset {s t : Vars} {c : Call} {env : CallEnv} {pc : Pc}
    (h : TscStep s c env t pc) : s.measured ⊆ t.measured := by
  cases h with
  | stored f _ _ => exact List.subset_append_left _ _
  | other _ hm _ _ => exact hm ▸ List.Subset.refl _
  | _ => exact List.Subset.refl _

/-- A call that does not move keeps its facts if the frequency it is about to copy stays known. -/
theorem FrequencyCall.bystander {s t : Vars} {c : Call} (h : FrequencyCall s c)
    (hsub : s.measured ⊆ t.measured)
    (hkept : c.pc = .copying → s.cyclesPerUs ≠ 0#64 → t.cyclesPerUs ≠ 0#64) :
    FrequencyCall t c where
  copying hpc := hkept hpc (h.copying hpc)
  calibrated r hr := (h.calibrated r hr).imp_right (fun hmem => hsub hmem)
  told htsc code v hpc := (h.told htsc code v hpc).imp_right fun hv => hv.append hsub

def FrequencyVars (s : Vars) : Prop := s.cyclesPerUs = 0#64 ∨ s.cyclesPerUs ∈ s.measured

theorem TscStep.vars {s t : Vars} {c : Call} {env : CallEnv} {pc : Pc}
    (h : TscStep s c env t pc) (hs : FrequencyVars s) (hc : FrequencyCall s c) :
    FrequencyVars t := by
  cases h with
  | stored f _ _ => exact .inr (List.mem_append_right _ (List.mem_singleton_self f))
  | assign r hpc => exact hc.calibrated r hpc
  | other hcyc hm _ _ =>
    rw [FrequencyVars, hcyc, hm]
    exact hs
  | _ => exact hs

theorem TscStep.moved {s t : Vars} {c c' : Call} {env : CallEnv}
    (h : TscStep s c env t c'.pc) (hnum : c'.number = c.number) (hs : FrequencyVars s)
    (hc : FrequencyCall s c) : FrequencyCall t c' := by
  obtain ⟨number, pc⟩ := c'
  dsimp only at h hnum
  cases h with
  | unknown | stored | assign => exact ⟨by simp, by simp, by simp⟩
  | known _ _ hne | tested _ hne => exact ⟨fun _ => hne, by simp, by simp⟩
  | failed => exact ⟨by simp, fun r hr => .inl (by simpa using hr.symm), by simp⟩
  | result =>
    refine ⟨by simp, fun r hr => ?_, by simp⟩
    obtain rfl : s.cyclesPerUs = r := by simpa using hr
    exact hs
  | copied hpc =>
    -- The value copied out is the one of this very step.
    have hne := hc.copying hpc
    have hmem : s.cyclesPerUs ∈ s.measured := hs.resolve_left hne
    cases hcopied : env.copied with
    | false => exact ⟨by simp [copyToUser], by simp [copyToUser], by simp [copyToUser]⟩
    | true =>
      refine ⟨by simp [copyToUser], by simp [copyToUser], fun _ code v hv => ?_⟩
      obtain ⟨rfl, rfl⟩ : 0 = code ∧ s.cyclesPerUs.toNat = v := by simpa [copyToUser] using hv
      exact ⟨rfl, s.cyclesPerUs, hmem, hne, rfl⟩
  | other hcyc hm hprogress htold =>
    refine ⟨?_, ?_, ?_⟩
    · rintro rfl
      exact absurd trivial hprogress
    · rintro r rfl
      exact absurd trivial hprogress
    · intro htsc code v hv
      exact absurd hv (htold (hnum.symm.trans htsc) code v)

theorem frequency_preserves :
    Preserves (device cfg f) (SafeWrite (f := f)) (fun _ s => FrequencyVars s)
      (fun s _ c => FrequencyCall s c) where
  init := by
    by_cases huse : cfg.useTsc = true
    · exact .inr (by simp [device, huse])
    · exact .inl (show f.value = 0#64 by simpa [huse] using f.measured)
  other s b t hs _ hb := by
    obtain ⟨hcyc, hm⟩ := initStep_tsc hb
    refine ⟨by rw [FrequencyVars, hcyc, hm]; exact hs.vars, fun _ c _ hc => ?_⟩
    exact hc.bystander (hm ▸ List.Subset.refl _) fun _ hne => hcyc ▸ hne
  enter s q t c hs _ hq := by
    obtain ⟨rfl, rfl⟩ : s.vars = t ∧ ⟨q, .entered⟩ = c := by simpa [device] using hq
    exact ⟨hs.vars, ⟨by simp, by simp, by simp⟩, fun _ _ _ hd => hd⟩
  advance s i e c t c' hs hok hc he := by
    obtain ⟨hnum, hioctl⟩ := advance_eq he
    have hstep := hrperfIoctl_tsc hioctl
    have hown := hs.call i c hc
    refine ⟨hstep.vars hs.vars hown, hstep.moved hnum hs.vars hown, fun j d hji hj hd => ?_⟩
    refine hd.bystander hstep.measured_subset fun hcopying hne => ?_
    rcases hok c t c' hc he with hkept | hnone
    · exact hkept hne
    · exact absurd hcopying (hnone j d hji hj)

/-- Every calibration of the run measures something. -/
def CalibrationsSucceed (s : Pool Vars Call) : Action Int Nat CallEnv → Prop
  | .advance i env => ∀ c, s.calls[i]? = some c → c.pc = .calibrating →
      ∃ f, hrpCalibrateTsc env.readings = some f ∧ f ≠ 0#64
  | _ => True

/-- A `HRP_PMC_IOC_TSC_FREQ` begins only when no other one is in progress. -/
def TscSerial (s : Pool Vars Call) : Action Int Nat CallEnv → Prop
  | .advance i _ => ∀ c, s.calls[i]? = some c → IsTscFreq c → c.pc = .entered →
      ∀ (j : Nat) (d : Call), j ≠ i → s.calls[j]? = some d → ¬ InProgress d.pc
  | _ => True

structure SucceedingCall (s : Vars) (c : Call) : Prop where
  stored : c.pc = .calibrationStored → s.cyclesPerUs ≠ 0#64
  calibrated : ∀ r, c.pc = .calibrated r → r ≠ 0#64

/-- A known frequency stays known when calibrations succeed. -/
theorem TscStep.keeps {s t : Vars} {c : Call} {env : CallEnv} {pc : Pc}
    (h : TscStep s c env t pc) (hc : SucceedingCall s c)
    (hok : c.pc = .calibrating → ∃ f, hrpCalibrateTsc env.readings = some f ∧ f ≠ 0#64)
    (hne : s.cyclesPerUs ≠ 0#64) : t.cyclesPerUs ≠ 0#64 := by
  cases h with
  | stored f hpc hf =>
    obtain ⟨f', hf', hne'⟩ := hok hpc
    obtain rfl : f = f' := Option.some.inj (hf.symm.trans hf')
    exact hne'
  | assign r hpc => exact hc.calibrated r hpc
  | other hcyc _ _ _ => exact hcyc ▸ hne
  | _ => exact hne

theorem succeeding_preserves :
    Preserves (device cfg f) CalibrationsSucceed (fun _ _ => True)
      (fun s _ c => SucceedingCall s c) where
  init := trivial
  other s b t _ _ hb :=
    ⟨trivial, fun _ c _ hc => ⟨fun hpc => (initStep_tsc hb).1 ▸ hc.stored hpc, hc.calibrated⟩⟩
  enter s q t c _ _ hq := by
    obtain ⟨rfl, rfl⟩ : s.vars = t ∧ ⟨q, .entered⟩ = c := by simpa [device] using hq
    exact ⟨trivial, ⟨by simp, by simp⟩, fun _ _ _ hd => hd⟩
  advance s i e c t c' hs hok hc he := by
    have hstep := hrperfIoctl_tsc (advance_eq he).2
    have hown := hs.call i c hc
    refine ⟨trivial, ?_, fun j d _ _ hd =>
      ⟨fun hpc => hstep.keeps hown (hok c hc) (hd.stored hpc), hd.calibrated⟩⟩
    obtain ⟨number, pc⟩ := c'
    dsimp only at hstep
    cases hstep with
    | unknown | known | assign | tested => exact ⟨by simp, by simp⟩
    | failed hpc hnone =>
      obtain ⟨f', hf', -⟩ := hok c hc hpc
      exact absurd (hnone.symm.trans hf') (by simp)
    | stored f' hpc hf' =>
      obtain ⟨f'', hf'', hne⟩ := hok c hc hpc
      obtain rfl : f' = f'' := Option.some.inj (hf'.symm.trans hf'')
      exact ⟨fun _ => hne, by simp⟩
    | result hpc =>
      refine ⟨by simp, fun r hr => ?_⟩
      obtain rfl : s.vars.cyclesPerUs = r := by simpa using hr
      exact hown.stored hpc
    | copied hpc =>
      constructor <;> simp only [copyToUser] <;> split_ifs <;> simp
    | other _ _ hprogress _ =>
      refine ⟨?_, ?_⟩
      · rintro rfl
        exact absurd trivial hprogress
      · rintro r rfl
        exact absurd trivial hprogress

/-- At most one `HRP_PMC_IOC_TSC_FREQ` is in progress. -/
def Exclusive (s : Pool Vars Call) : Prop :=
  ∀ (i j : Nat) (c d : Call), s.calls[i]? = some c → s.calls[j]? = some d →
    InProgress c.pc → InProgress d.pc → i = j

/-- A call is in progress because it was, or because it has just tested the frequency. -/
theorem TscStep.inProgress {s t : Vars} {c : Call} {env : CallEnv} {pc : Pc}
    (h : TscStep s c env t pc) (hpc : InProgress pc) :
    InProgress c.pc ∨ c.pc = .entered ∧ IsTscFreq c := by
  cases h with
  | unknown he ht _ | known he ht _ => exact .inr ⟨he, ht⟩
  | failed he _ | stored _ he _ | result he | assign _ he | tested he _ | copied he =>
    exact .inl (he ▸ trivial)
  | other _ _ hprogress _ => exact absurd hpc hprogress

theorem exclusive_step {s t : Pool Vars Call} {a : Action Int Nat CallEnv} (hs : Exclusive s)
    (hok : TscSerial s a) (hstep : (device cfg f).machine.step s a = some t) : Exclusive t := by
  rcases (device cfg f).step_cases hstep with ⟨b, vars, rfl, hb, rfl⟩ |
    ⟨q, vars, c, rfl, hq, rfl⟩ | ⟨i, e, c, vars, c', rfl, hc, he, rfl⟩
  · exact hs
  · obtain ⟨rfl, rfl⟩ : s.vars = vars ∧ ⟨q, .entered⟩ = c := by simpa [device] using hq
    -- The new call has not started, so a call in progress is an old one.
    have hold : ∀ (i : Nat) (c : Call), (s.calls ++ [⟨q, .entered⟩])[i]? = some c →
        InProgress c.pc → s.calls[i]? = some c := by
      intro i c hi hprogress
      by_cases hlt : i < s.calls.length
      · rwa [List.getElem?_append_left hlt] at hi
      · rw [List.getElem?_append_right (by omega)] at hi
        obtain rfl := List.mem_singleton.mp (List.mem_of_getElem? hi)
        exact absurd hprogress not_false
    intro i j c d hi hj hci hdj
    exact hs i j c d (hold i c hi hci) (hold j d hj hdj) hci hdj
  · have hlt : i < s.calls.length := (List.getElem?_eq_some_iff.mp hc).1
    have htsc := hrperfIoctl_tsc (advance_eq he).2
    -- If the call that moved is in progress now, no other one is.
    have halone : InProgress c'.pc → ∀ (j : Nat) (d : Call), j ≠ i → s.calls[j]? = some d →
        ¬ InProgress d.pc := by
      intro hprogress j d hji hj hd
      rcases htsc.inProgress hprogress with hbefore | ⟨hentered, hfreq⟩
      · exact hji (hs j i d c hj hc hd hbefore)
      · exact hok c hc hfreq hentered j d hji hj hd
    intro j k d d' hj hk hd hd'
    by_cases hji : j = i
    · by_cases hki : k = i
      · exact hji.trans hki.symm
      · rw [hji, List.getElem?_set_self hlt] at hj
        rw [List.getElem?_set_ne (Ne.symm hki)] at hk
        obtain rfl := Option.some.inj hj
        exact absurd hd' (halone hd k d' hki hk)
    · rw [List.getElem?_set_ne (Ne.symm hji)] at hj
      by_cases hki : k = i
      · rw [hki, List.getElem?_set_self hlt] at hk
        obtain rfl := Option.some.inj hk
        exact absurd hd (halone hd' j d hji hj)
      · rw [List.getElem?_set_ne (Ne.symm hki)] at hk
        exact hs j k d d' hj hk hd hd'

theorem TscStep.cyclesPerUs_eq {s t : Vars} {c : Call} {env : CallEnv} {pc : Pc}
    (h : TscStep s c env t pc) : t.cyclesPerUs = s.cyclesPerUs ∨ InProgress c.pc := by
  cases h with
  | stored _ hpc _ | assign _ hpc => exact .inr (hpc ▸ trivial)
  | other hcyc _ _ _ => exact .inl hcyc
  | _ => exact .inl rfl

/-- Writes are safe if calibrations succeed. -/
theorem safeWrite_of_succeed {s : Pool Vars Call}
    (h : Reaches (device cfg f).machine CalibrationsSucceed s) :
    Reaches (device cfg f).machine (SafeWrite (f := f)) s := by
  refine h.strengthen (I := Holds (fun _ _ => True) (fun s _ c => SucceedingCall s c))
    ⟨trivial, fun i c hc => by simp [Service.machine] at hc⟩
    (fun s a t hs hok hstep => succeeding_preserves.step hs hok hstep) fun s a hs hok => ?_
  cases a with
  | other _ | enter _ => exact trivial
  | advance i env =>
    intro c t c' hc he
    exact .inl ((hrperfIoctl_tsc (advance_eq he).2).keeps (hs.call i c hc) (hok c hc))

/-- Writes are safe if the calls do not overlap. -/
theorem safeWrite_of_serial {s : Pool Vars Call}
    (h : Reaches (device cfg f).machine TscSerial s) :
    Reaches (device cfg f).machine (SafeWrite (f := f)) s := by
  refine h.strengthen (I := Exclusive) (fun i j c d hc => by simp [Service.machine] at hc)
    (fun s a t hs hok hstep => exclusive_step hs hok hstep) fun s a hs _ => ?_
  cases a with
  | other _ | enter _ => exact trivial
  | advance i env =>
    intro c t c' hc he
    rcases (hrperfIoctl_tsc (advance_eq he).2).cyclesPerUs_eq with hsame | hprogress
    · exact .inl fun hne => hsame ▸ hne
    · refine .inr fun j d hji hj hcopying => hji ?_
      exact hs j i d c hj hc (hcopying ▸ trivial) hprogress

/-- With the frequency of `hrp_pmc_init` no ioctl calibrates. -/
structure FixedCall (value : U64) (c : Call) : Prop where
  calibrating : c.pc ≠ .calibrating
  stored : c.pc ≠ .calibrationStored
  calibrated : ∀ r, c.pc ≠ .calibrated r
  told : IsTscFreq c → ∀ code v, c.pc = .returned code (some v) → code = 0 ∧ v = value.toNat

theorem fixed_preserves (huse : cfg.useTsc = true) :
    Preserves (device cfg f) (fun _ _ => True) (fun _ s => s.cyclesPerUs = f.value)
      (fun _ _ c => FixedCall f.value c) where
  init := rfl
  other s b t hs _ hb := ⟨(initStep_tsc hb).1.trans hs.vars, fun _ _ _ hc => hc⟩
  enter s q t c hs _ hq := by
    obtain ⟨rfl, rfl⟩ : s.vars = t ∧ ⟨q, .entered⟩ = c := by simpa [device] using hq
    exact ⟨hs.vars, ⟨by simp, by simp, by simp, by simp⟩, fun _ _ _ hd => hd⟩
  advance s i e c t c' hs _ hc he := by
    have hstep := hrperfIoctl_tsc (advance_eq he).2
    have hnum := (advance_eq he).1
    have hown := hs.call i c hc
    have hvalue : s.vars.cyclesPerUs ≠ 0#64 := hs.vars ▸ f.measured.mp huse
    obtain ⟨number, pc⟩ := c'
    dsimp only at hstep hnum
    refine ⟨?_, ?_, fun _ _ _ _ hd => hd⟩
    · cases hstep with
      | stored _ hpc _ => exact absurd hpc hown.calibrating
      | assign r hpc => exact absurd hpc (hown.calibrated r)
      | other hcyc _ _ _ => exact hcyc.trans hs.vars
      | _ => exact hs.vars
    cases hstep with
    | unknown _ _ hzero => exact absurd hzero hvalue
    | failed hpc _ | stored _ hpc _ => exact absurd hpc hown.calibrating
    | result hpc => exact absurd hpc hown.stored
    | assign r hpc => exact absurd hpc (hown.calibrated r)
    | known | tested => exact ⟨by simp, by simp, by simp, by simp⟩
    | copied hpc =>
      cases hcopied : e.copied with
      | false => exact ⟨by simp [copyToUser], by simp [copyToUser], by simp [copyToUser],
          by simp [copyToUser]⟩
      | true =>
        refine ⟨by simp [copyToUser], by simp [copyToUser], by simp [copyToUser],
          fun _ code v hv => ?_⟩
        obtain ⟨rfl, rfl⟩ : 0 = code ∧ s.vars.cyclesPerUs.toNat = v := by
          simpa [copyToUser] using hv
        exact ⟨rfl, by rw [hs.vars]⟩
    | other _ _ hprogress htold =>
      refine ⟨?_, ?_, ?_, ?_⟩
      · rintro rfl
        exact hprogress trivial
      · rintro rfl
        exact hprogress trivial
      · rintro r rfl
        exact hprogress trivial
      · intro htsc code v hv
        exact absurd hv (htold (hnum.symm.trans htsc) code v)

/-- Two clients calibrate at the same time and one of them fails: its zero is what the other one
copies out. -/
def zeroTrace : List (Action Int Nat CallEnv) :=
  [.enter Cmd.tscFreq.number, .enter Cmd.tscFreq.number, .advance 0 ⟨⟨0, 0, 0, 0⟩, true, true, false⟩,
    .advance 1 ⟨⟨0, 0, 0, 0⟩, true, true, false⟩, .advance 0 ⟨⟨0, 0, 0, 0⟩, true, true, false⟩,
    .advance 1 ⟨⟨0, 2000, 0, 1000⟩, true, true, false⟩, .advance 1 ⟨⟨0, 0, 0, 0⟩, true, true, false⟩,
    .advance 1 ⟨⟨0, 0, 0, 0⟩, true, true, false⟩, .advance 1 ⟨⟨0, 0, 0, 0⟩, true, true, false⟩,
    .advance 0 ⟨⟨0, 0, 0, 0⟩, true, true, false⟩, .advance 1 ⟨⟨0, 0, 0, 0⟩, true, true, false⟩]

def tellsZero (s : Pool Vars Call) : Bool :=
  s.calls.any fun c => c.number == Cmd.tscFreq.number && c.pc == .returned 0 (some 0)

theorem told_of_tellsZero {s : Pool Vars Call} (h : tellsZero s = true) : Told s 0 0 := by
  obtain ⟨c, hc, htest⟩ := List.any_eq_true.mp h
  rw [Bool.and_eq_true, beq_iff_eq, beq_iff_eq] at htest
  exact ⟨c, hc, htest.1, htest.2⟩

theorem zero_is_told (huse : cfg.useTsc = false) :
    ∃ s, Reachable (device cfg f).machine s ∧ Told s 0 0 := by
  obtain ⟨value, hvalue⟩ := f
  obtain rfl : value = 0#64 := by simpa [huse] using hvalue
  have hrun : (run (device cfg ⟨0#64, hvalue⟩).machine (fun _ _ => True)
      (device cfg ⟨0#64, hvalue⟩).machine.init zeroTrace).any tellsZero = true := by
    obtain ⟨instructed, rdt, tsc, scaling, rmid⟩ := cfg
    cases rdt <;> rfl
  obtain ⟨s, hs, hzero⟩ := reachable_of_run zeroTrace hrun
  exact ⟨s, hs, told_of_tellsZero hzero⟩

/-- What clients are told is a frequency that was measured. With `HRP_USE_TSC` it is the one of
`hrp_pmc_init`, in every run; without it, if no calibration fails or if no two calls overlap,
and otherwise a client may be told zero, with return code 0. -/
theorem told_frequency_measured (cfg : DeviceConfig) (f : InitialFrequency cfg) :
    (cfg.useTsc = true → ∀ s, Reachable (device cfg f).machine s →
      ∀ code v, Told s code v → code = 0 ∧ v ≠ 0 ∧ v = f.value.toNat) ∧
    (∀ s, Reaches (device cfg f).machine CalibrationsSucceed s ∨
      Reaches (device cfg f).machine TscSerial s →
      ∀ code v, Told s code v → code = 0 ∧ v ≠ 0 ∧ Measured s.vars v) ∧
    (cfg.useTsc = false → ∃ s, Reachable (device cfg f).machine s ∧ Told s 0 0) := by
  refine ⟨fun huse s hs code v htold => ?_, fun s hs code v htold => ?_, zero_is_told⟩
  · obtain ⟨c, hc, htsc, hpc⟩ := htold
    obtain ⟨i, hfixed⟩ := ((fixed_preserves huse).reaches hs).mem hc
    obtain ⟨hcode, rfl⟩ := hfixed.told htsc code v hpc
    exact ⟨hcode, fun hzero => f.measured.mp huse (BitVec.eq_of_toNat_eq hzero), rfl⟩
  · obtain ⟨c, hc, htsc, hpc⟩ := htold
    have hsafe := hs.elim safeWrite_of_succeed safeWrite_of_serial
    obtain ⟨i, hcall⟩ := (frequency_preserves.reaches hsafe).mem hc
    obtain ⟨hcode, hmeasured⟩ := hcall.told htsc code v hpc
    obtain ⟨f', -, hne, rfl⟩ := id hmeasured
    exact ⟨hcode, fun hzero => hne (BitVec.eq_of_toNat_eq hzero), hmeasured⟩

end Frequency

/-! ## What ioctls return -/

section Codes

variable {cfg : DeviceConfig} {f : InitialFrequency cfg}

/-- The returns that a command may have. Before the initialisation is over an instructed
operation may find no workqueue. -/
def Served (cfg : DeviceConfig) (early : Bool) (cmd : Option Cmd) (code : Int)
    (answer : Option Nat) : Prop :=
  match cmd with
  | none => code = -enotty ∧ answer = none
  | some .start | some .pause =>
    code = (if cfg.instructedProfile then -einval else 0) ∧ answer = none
  | some .instructedPoll | some .instructedLog | some .instructedPollAndLog =>
    (if cfg.instructedProfile then code = 0 ∨ early = true ∧ code = -efault else code = -einval) ∧
      answer = none
  | some .tscFreq =>
    code = 0 ∧ answer.isSome = true ∨ (code = -eio ∨ code = -efault) ∧ answer = none
  | some .rdtScaleFactor =>
    code = 0 ∧ answer = some cfg.scalingFactor ∨ code = -efault ∧ answer = none
  | some .rdtMaxRmid => code = 0 ∧ answer = some cfg.maxRmid ∨ code = -efault ∧ answer = none
  | some .rdtSetRmidOnCore => (code = 0 ∨ code = -efault) ∧ answer = none

/-- The initialisation has succeeded. -/
def Ready (s : Vars) : Prop := s.initPc = .returned 0

/-- What an ioctl can fault at: a thread that a START wakes before it is there, a log file that
could not be opened, or a core without an entry. -/
def MayFault (cfg : DeviceConfig) (s : Vars) (cmd : Option Cmd) : Prop :=
  cmd = some .start ∧ cfg.instructedProfile = false ∨
  (∃ c, cmd = some c ∧ c.isInstructed = true) ∧ cfg.instructedProfile = true ∧ Ready s ∧
    s.logFile = false ∨
  cmd = some .rdtSetRmidOnCore

/-- Where a call of a command can stand. Faults are for the runs without any order. -/
def Stands (cfg : DeviceConfig) (early : Bool) (s : Vars) (cmd : Option Cmd) : Pc → Prop
  | .entered => True
  | .startTested | .pollerToWake | .loggerToWake =>
    cmd = some .start ∧ cfg.instructedProfile = false
  | .pauseTested => cmd = some .pause ∧ cfg.instructedProfile = false
  | .calibrating | .calibrationStored | .calibrated _ | .assigned | .copying =>
    cmd = some .tscFreq
  | .workInitialised =>
    (∃ c, cmd = some c ∧ c.isInstructed = true) ∧ cfg.instructedProfile = true
  | .workQueued =>
    (∃ c, cmd = some c ∧ c.isInstructed = true) ∧ cfg.instructedProfile = true ∧ Ready s
  | .oops => early = true ∧ MayFault cfg s cmd
  | .returned code answer => Served cfg early cmd code answer

/-- What the initialisation has made by the time it stands where it does. -/
structure Made (cfg : DeviceConfig) (early : Bool) (s : Vars) : Prop where
  poller : cfg.instructedProfile = false → s.initPc = .openLog ∨ s.initPc = .createLogger ∨
    s.initPc = .allocWorkqueue ∨ Ready s → s.pollerThread = .task
  logFile : early = false →
    s.initPc = .createLogger ∨ s.initPc = .allocWorkqueue ∨ Ready s → s.logFile = true
  logger : cfg.instructedProfile = false → s.initPc = .allocWorkqueue ∨ Ready s →
    s.loggerThread = .task
  workqueue : cfg.instructedProfile = true → (s.workqueue = true ↔ Ready s)

/-- What a call has come to stays, whatever the initialisation and the others do. -/
theorem Stands.mono {early : Bool} {s t : Vars} {cmd : Option Cmd} {pc : Pc}
    (h : Stands cfg early s cmd pc) (hready : Ready s → Ready t ∧ t.logFile = s.logFile) :
    Stands cfg early t cmd pc := by
  cases pc with
  | workQueued => exact ⟨h.1, h.2.1, (hready h.2.2).1⟩
  | oops =>
    refine ⟨h.1, h.2.imp_right (Or.imp_left ?_)⟩
    rintro ⟨hcmd, hmode, hs, hnull⟩
    exact ⟨hcmd, hmode, (hready hs).1, (hready hs).2.trans hnull⟩
  | _ => exact h

theorem Made.congr {early : Bool} {s t : Vars} (h : Made cfg early s) (hpc : t.initPc = s.initPc)
    (hpoller : t.pollerThread = s.pollerThread) (hlogger : t.loggerThread = s.loggerThread)
    (hlog : t.logFile = s.logFile) (hwq : t.workqueue = s.workqueue) : Made cfg early t := by
  constructor <;> simp only [Ready, hpc, hpoller, hlogger, hlog, hwq]
  · exact h.poller
  · exact h.logFile
  · exact h.logger
  · exact h.workqueue

end Codes

end DeviceIoctl
