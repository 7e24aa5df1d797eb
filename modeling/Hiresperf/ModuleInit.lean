import Hiresperf.CpuSelection

/-!
# Module initialisation and the CPUs it covers

`hrp_pmc_init` as a sequence of stages. A stage that fails ends the function with
its return code; what was done before it stays done, and is recorded in order as
a list of events. Which CPUs are programmed depends on the CPU that runs
`insmod`, which CPUs are polled depends on `HRP_PMC_POLLER_CPU`.
-/

namespace ModuleInit

open CpuSelection

/-- What initialisation does to the system, acquiring and releasing. -/
inductive InitEvent where
  | mbmInit
  | registerChrdevRegion
  | unregisterChrdevRegion
  | cdevAdd
  | cdevDel
  | classCreate
  | classDestroy
  | deviceCreate
  | initRingBuffer (cpu : Nat)
  | pmcEnableAndEsel (cpu : Nat)
  | enableRdpmcInUserSpace (cpu : Nat)
  | initUncorePmus
  | createPoller
  | openLogFile
  | createLogger
  | allocWorkqueue
  deriving DecidableEq

/-- The results of the calls that can fail; an errno of 0 means success. `insmodCpu` is
the CPU on which initialisation runs. -/
structure InitEnv where
  insmodCpu : Nat
  mbmInit : Int
  tscCycles : Nat
  registerChrdevRegion : Int
  cdevAdd : Int
  classCreateErrno : Nat
  deviceCreateErrno : Nat
  initRingBuffer : Nat → Bool
  pollerErrno : Nat
  logFileOpens : Bool
  loggerErrno : Nat
  workqueueAllocated : Bool

/-- A return code, 0 for going on, with the events up to there. -/
structure Outcome where
  code : Int
  events : List InitEvent

namespace Outcome

def andThen (x y : Outcome) : Outcome :=
  if x.code = 0 then ⟨y.code, x.events ++ y.events⟩ else x

theorem andThen_code {x y : Outcome} : (x.andThen y).code = 0 ↔ x.code = 0 ∧ y.code = 0 := by
  rw [andThen]
  split_ifs with h <;> simp [h]

theorem andThen_events {x y : Outcome} (h : x.code = 0) :
    (x.andThen y).events = x.events ++ y.events := by
  simp [andThen, h]

end Outcome

def eio : Int := 5
def enomem : Int := 12
def einval : Int := 22

variable (cfg : Config) (p : Platform) (env : InitEnv)

def initMbm : Outcome :=
  if cfg.log.useRdt then
    if env.mbmInit ≠ 0 then ⟨-eio, []⟩ else ⟨0, [.mbmInit]⟩
  else ⟨0, []⟩

def initTsc : Outcome :=
  if cfg.useTsc = true ∧ env.tscCycles = 0 then ⟨-eio, []⟩ else ⟨0, []⟩

/-- Step 1: the char device, with its own unwinding. -/
def initDevice : Outcome :=
  if env.registerChrdevRegion < 0 then ⟨-1, []⟩
  else if env.cdevAdd < 0 then ⟨-1, [.registerChrdevRegion, .unregisterChrdevRegion]⟩
  else if env.classCreateErrno ≠ 0 then
    ⟨-env.classCreateErrno,
      [.registerChrdevRegion, .cdevAdd, .unregisterChrdevRegion, .cdevDel]⟩
  else if env.deviceCreateErrno ≠ 0 then
    ⟨-env.deviceCreateErrno,
      [.registerChrdevRegion, .cdevAdd, .classCreate, .classDestroy, .cdevDel,
        .unregisterChrdevRegion]⟩
  else ⟨0, [.registerChrdevRegion, .cdevAdd, .classCreate, .deviceCreate]⟩

/-- Step 2.1: the CPU counts are checked. -/
def checkCpus : Outcome :=
  if nCpus cfg p ≤ 0 ∨ nCpus cfg p > p.nrCpus then ⟨-einval, []⟩
  else if nPollingCpus cfg p ≤ 0 then ⟨-einval, []⟩
  else ⟨0, []⟩

def initRingBuffers : List Nat → Outcome
  | [] => ⟨0, []⟩
  | cpu :: rest =>
    if env.initRingBuffer cpu then
      Outcome.andThen ⟨0, [.initRingBuffer cpu]⟩ (initRingBuffers rest)
    else ⟨-enomem, []⟩

/-- Step 2.2: the selected CPUs but the current one, and the current one if the poller
core is polled. -/
def enableCounters : Outcome :=
  ⟨0, (smpCallFunctionMany p env.insmodCpu (hrpSelectedCpus cfg p)).map .pmcEnableAndEsel ++
    if cfg.pollPollerCore then [.pmcEnableAndEsel env.insmodCpu] else []⟩

def initUncore : Outcome := ⟨0, if cfg.log.logImc then [.initUncorePmus] else []⟩

/-- The second half repeats `hrperf_pmc_enable_and_esel` on the current CPU, not
`enable_rdpmc_in_user_space`. -/
def enableRdpmc : Outcome :=
  if cfg.enableUserSpacePolling then
    ⟨0, (smpCallFunctionMany p env.insmodCpu (hrpSelectedCpus cfg p)).map .enableRdpmcInUserSpace ++
      if cfg.pollPollerCore then [.pmcEnableAndEsel env.insmodCpu] else []⟩
  else ⟨0, []⟩

/-- The rest of the function: threads in polling mode, the workqueue in instructed mode,
and the log file, whose absence is only reported. -/
def initWorkers (instructedProfile : Bool) : Outcome :=
  let file : List InitEvent := if env.logFileOpens then [.openLogFile] else []
  if instructedProfile then
    if env.workqueueAllocated then ⟨0, file ++ [.allocWorkqueue]⟩ else ⟨-enomem, file⟩
  else if env.pollerErrno ≠ 0 then ⟨-env.pollerErrno, []⟩
  else if env.loggerErrno ≠ 0 then ⟨-env.loggerErrno, .createPoller :: file⟩
  else ⟨0, .createPoller :: file ++ [.createLogger]⟩

def hrpPmcInit (instructedProfile : Bool) : Outcome :=
  (initMbm cfg env).andThen <| (initTsc cfg env).andThen <| (initDevice env).andThen <|
    (checkCpus cfg p).andThen <| (initRingBuffers env (logVisits cfg p)).andThen <|
    (enableCounters cfg p env).andThen <| (initUncore cfg).andThen <|
    (enableRdpmc cfg p env).andThen <| initWorkers env instructedProfile

/-- The CPUs for which initialisation has done `kind`. -/
def doneOn (kind : Nat → InitEvent) (o : Outcome) (cpu : Nat) : Prop := kind cpu ∈ o.events

instance (kind : Nat → InitEvent) (o : Outcome) (cpu : Nat) : Decidable (doneOn kind o cpu) :=
  inferInstanceAs (Decidable (kind cpu ∈ o.events))

/-- Every CPU that is ever polled has been programmed, has a ring buffer and is logged;
and every selected CPU can use `rdpmc` if that was asked for. -/
def Covered (instructedProfile : Bool) : Prop :=
  (∀ cpu ∈ pollerRuns cfg p,
    doneOn .pmcEnableAndEsel (hrpPmcInit cfg p env instructedProfile) cpu ∧
    doneOn .initRingBuffer (hrpPmcInit cfg p env instructedProfile) cpu ∧
    cpu ∈ logVisits cfg p) ∧
  (cfg.enableUserSpacePolling = true → ∀ cpu, hrpSelectedCpus cfg p cpu = true →
    doneOn .enableRdpmcInUserSpace (hrpPmcInit cfg p env instructedProfile) cpu)

variable {cfg p env}

theorem initRingBuffers_events {cpus : List Nat} (h : (initRingBuffers env cpus).code = 0) :
    (initRingBuffers env cpus).events = cpus.map .initRingBuffer := by
  induction cpus with
  | nil => rfl
  | cons cpu rest ih =>
    simp only [initRingBuffers] at h ⊢
    split_ifs at h ⊢ with hb
    · have hrest := (Outcome.andThen_code.mp h).2
      rw [Outcome.andThen_events rfl, ih hrest]
      rfl
    · simp [enomem] at h

/-- The events of a successful initialisation, stage by stage. -/
theorem hrpPmcInit_events {instructedProfile : Bool}
    (h : (hrpPmcInit cfg p env instructedProfile).code = 0) :
    (hrpPmcInit cfg p env instructedProfile).events =
      (initMbm cfg env).events ++ ((initTsc cfg env).events ++ ((initDevice env).events ++
      ((checkCpus cfg p).events ++ ((logVisits cfg p).map .initRingBuffer ++
      ((enableCounters cfg p env).events ++ ((initUncore cfg).events ++
      ((enableRdpmc cfg p env).events ++ (initWorkers env instructedProfile).events))))))) := by
  rw [hrpPmcInit] at h ⊢
  obtain ⟨h1, h⟩ := Outcome.andThen_code.mp h
  obtain ⟨h2, h⟩ := Outcome.andThen_code.mp h
  obtain ⟨h3, h⟩ := Outcome.andThen_code.mp h
  obtain ⟨h4, h⟩ := Outcome.andThen_code.mp h
  obtain ⟨h5, h⟩ := Outcome.andThen_code.mp h
  obtain ⟨h6, h⟩ := Outcome.andThen_code.mp h
  obtain ⟨h7, h⟩ := Outcome.andThen_code.mp h
  obtain ⟨h8, h⟩ := Outcome.andThen_code.mp h
  rw [Outcome.andThen_events h1, Outcome.andThen_events h2, Outcome.andThen_events h3,
    Outcome.andThen_events h4, Outcome.andThen_events h5, Outcome.andThen_events h6,
    Outcome.andThen_events h7, Outcome.andThen_events h8, initRingBuffers_events h5]

/-- The CPU that an event is about, if it is about a single one. -/
def InitEvent.onCpu : InitEvent → Option Nat
  | .initRingBuffer cpu | .pmcEnableAndEsel cpu | .enableRdpmcInUserSpace cpu => some cpu
  | _ => none

/-- The events of the stages that are about no single CPU. -/
theorem global_stages (cfg : Config) (p : Platform) (env : InitEnv) (instructedProfile : Bool) :
    ∀ e ∈ (initMbm cfg env).events ++ ((initTsc cfg env).events ++ ((initDevice env).events ++
      ((checkCpus cfg p).events ++ ((initUncore cfg).events ++
      (initWorkers env instructedProfile).events)))), e.onCpu = none := by
  have hmbm : ∀ e ∈ (initMbm cfg env).events, e.onCpu = none := by
    simp only [initMbm]
    split_ifs <;> simp [InitEvent.onCpu]
  have htsc : (initTsc cfg env).events = [] := by
    simp only [initTsc]
    split_ifs <;> rfl
  have hdevice : ∀ e ∈ (initDevice env).events, e.onCpu = none := by
    simp only [initDevice]
    split_ifs <;> simp [InitEvent.onCpu]
  have hcheck : (checkCpus cfg p).events = [] := by
    simp only [checkCpus]
    split_ifs <;> rfl
  have huncore : ∀ e ∈ (initUncore cfg).events, e.onCpu = none := by
    simp only [initUncore]
    split_ifs <;> simp [InitEvent.onCpu]
  have hworkers : ∀ e ∈ (initWorkers env instructedProfile).events, e.onCpu = none := by
    simp only [initWorkers]
    split_ifs <;> simp [InitEvent.onCpu]
  intro e he
  simp only [htsc, hcheck, List.mem_append, List.not_mem_nil, false_or] at he
  rcases he with he | he | he | he
  · exact hmbm e he
  · exact hdevice e he
  · exact huncore e he
  · exact hworkers e he

/-- The events about single CPUs come from three stages. -/
theorem mem_events_onCpu {instructedProfile : Bool}
    (h : (hrpPmcInit cfg p env instructedProfile).code = 0) {e : InitEvent} {cpu : Nat}
    (he : e.onCpu = some cpu) :
    e ∈ (hrpPmcInit cfg p env instructedProfile).events ↔
      e ∈ (logVisits cfg p).map InitEvent.initRingBuffer ∨
      e ∈ (enableCounters cfg p env).events ∨ e ∈ (enableRdpmc cfg p env).events := by
  have hglobal := global_stages cfg p env instructedProfile e
  simp only [he, reduceCtorEq, List.mem_append, imp_false, not_or] at hglobal
  obtain ⟨h1, h2, h3, h4, h5, h6⟩ := hglobal
  rw [hrpPmcInit_events h]
  simp only [List.mem_append, h1, h2, h3, h4, h5, h6, false_or, or_false]

theorem doneOn_initRingBuffer {instructedProfile : Bool}
    (h : (hrpPmcInit cfg p env instructedProfile).code = 0) (cpu : Nat) :
    doneOn .initRingBuffer (hrpPmcInit cfg p env instructedProfile) cpu ↔
      hrpSelectedCpus cfg p cpu = true := by
  rw [doneOn, mem_events_onCpu h rfl, enableCounters, enableRdpmc]
  split_ifs <;> simp

theorem doneOn_pmcEnableAndEsel {instructedProfile : Bool}
    (h : (hrpPmcInit cfg p env instructedProfile).code = 0) (cpu : Nat) :
    doneOn .pmcEnableAndEsel (hrpPmcInit cfg p env instructedProfile) cpu ↔
      cpu ∈ smpCallFunctionMany p env.insmodCpu (hrpSelectedCpus cfg p) ∨
        cfg.pollPollerCore = true ∧ cpu = env.insmodCpu := by
  rw [doneOn, mem_events_onCpu h rfl, enableCounters, enableRdpmc]
  split_ifs with hcore <;> simp [hcore]

theorem doneOn_enableRdpmcInUserSpace {instructedProfile : Bool}
    (h : (hrpPmcInit cfg p env instructedProfile).code = 0) (cpu : Nat) :
    doneOn .enableRdpmcInUserSpace (hrpPmcInit cfg p env instructedProfile) cpu ↔
      cfg.enableUserSpacePolling = true ∧
        cpu ∈ smpCallFunctionMany p env.insmodCpu (hrpSelectedCpus cfg p) := by
  rw [doneOn, mem_events_onCpu h rfl, enableCounters, enableRdpmc]
  by_cases huser : cfg.enableUserSpacePolling = true
  · split_ifs <;> simp [huser]
  · split_ifs <;> simp [huser]

/-- What coverage asks of the CPU that runs `insmod` and of the poller CPU. -/
structure CoverageCondition (cfg : Config) (p : Platform) (insmodCpu : Nat) : Prop where
  insmod : cfg.pollPollerCore = false → hrpSelectedCpus cfg p insmodCpu = true →
    insmodCpu = cfg.pollerCpu
  poller : cfg.pollPollerCore = true → hrpSelectedCpus cfg p cfg.pollerCpu = true
  rdpmc : cfg.enableUserSpacePolling = true → hrpSelectedCpus cfg p insmodCpu = false

theorem mem_smpCallFunctionMany_selected
    (honline : ∀ cpu, hrpSelectedCpus cfg p cpu = true → p.online cpu = true) {caller cpu : Nat} :
    cpu ∈ smpCallFunctionMany p caller (hrpSelectedCpus cfg p) ↔
      hrpSelectedCpus cfg p cpu = true ∧ cpu ≠ caller := by
  rw [mem_smpCallFunctionMany]
  exact ⟨fun h => ⟨h.1.2, h.2.2⟩,
    fun h => ⟨⟨hrpSelectedCpus_lt h.1, h.1⟩, honline cpu h.1, h.2⟩⟩

/-- The polled CPUs are programmed, have rings and are logged exactly when no polled CPU
ran `insmod` without being programmed and the polling poller CPU is selected. -/
theorem polled_covered_iff {instructedProfile : Bool}
    (honline : ∀ cpu, hrpSelectedCpus cfg p cpu = true → p.online cpu = true)
    (h : (hrpPmcInit cfg p env instructedProfile).code = 0) :
    (∀ cpu ∈ pollerRuns cfg p,
      doneOn .pmcEnableAndEsel (hrpPmcInit cfg p env instructedProfile) cpu ∧
      doneOn .initRingBuffer (hrpPmcInit cfg p env instructedProfile) cpu ∧
      cpu ∈ logVisits cfg p) ↔
    (cfg.pollPollerCore = false → hrpSelectedCpus cfg p env.insmodCpu = true →
      env.insmodCpu = cfg.pollerCpu) ∧
    (cfg.pollPollerCore = true → hrpSelectedCpus cfg p cfg.pollerCpu = true) := by
  simp only [doneOn_pmcEnableAndEsel h, doneOn_initRingBuffer h, mem_logVisits, mem_pollerRuns,
    mem_smpCallFunctionMany_selected honline]
  constructor
  · intro hall
    refine ⟨fun hcore hsel => ?_, fun hcore => ?_⟩
    · by_contra hne
      obtain ⟨hesel, -⟩ := hall env.insmodCpu (Or.inl ⟨hsel, honline _ hsel, hne⟩)
      simp [hcore] at hesel
    · exact (hall cfg.pollerCpu (Or.inr ⟨hcore, rfl⟩)).2.1
  · rintro ⟨hinsmod, hpoller⟩ cpu hruns
    -- A polled CPU is selected; it is programmed by the call or is the one running `insmod`.
    have hsel : hrpSelectedCpus cfg p cpu = true := by
      rcases hruns with ⟨hsel, -⟩ | ⟨hcore, rfl⟩
      · exact hsel
      · exact hpoller hcore
    refine ⟨?_, hsel, hsel⟩
    by_cases hself : cpu = env.insmodCpu
    · subst hself
      rcases hruns with ⟨-, -, hne⟩ | ⟨hcore, -⟩
      · by_cases hcore : cfg.pollPollerCore = true
        · exact Or.inr ⟨hcore, rfl⟩
        · exact absurd (hinsmod (by simpa using hcore) hsel) hne
      · exact Or.inr ⟨hcore, rfl⟩
    · exact Or.inl ⟨hsel, hself⟩

/-- Under the assumption that the selected CPUs are online, a successful initialisation
covers every CPU exactly under `CoverageCondition`. -/
theorem covered_iff_condition {instructedProfile : Bool}
    (honline : ∀ cpu, hrpSelectedCpus cfg p cpu = true → p.online cpu = true)
    (h : (hrpPmcInit cfg p env instructedProfile).code = 0) :
    Covered cfg p env instructedProfile ↔ CoverageCondition cfg p env.insmodCpu := by
  have hrdpmc : (cfg.enableUserSpacePolling = true → ∀ cpu, hrpSelectedCpus cfg p cpu = true →
      doneOn .enableRdpmcInUserSpace (hrpPmcInit cfg p env instructedProfile) cpu) ↔
      (cfg.enableUserSpacePolling = true → hrpSelectedCpus cfg p env.insmodCpu = false) := by
    simp only [doneOn_enableRdpmcInUserSpace h, mem_smpCallFunctionMany_selected honline]
    refine imp_congr_right fun huser => ⟨fun hall => ?_, fun hsel cpu hcpu => ?_⟩
    · by_contra hsel
      exact (hall env.insmodCpu (by simpa using hsel)).2.2 rfl
    · refine ⟨huser, hcpu, ?_⟩
      rintro rfl
      simp [hsel] at hcpu
  rw [Covered, polled_covered_iff honline h, hrdpmc]
  exact ⟨fun ⟨⟨h1, h2⟩, h3⟩ => ⟨h1, h2, h3⟩, fun hc => ⟨⟨hc.insmod, hc.poller⟩, hc.rdpmc⟩⟩

/-- CPU 1 polls CPUs 0 and 2, which may use `rdpmc`. -/
def rdpmcConfig : Config := { twoCpuConfig with enableUserSpacePolling := true }

/-- Every call succeeds. -/
def successfulEnv (insmodCpu : Nat) : InitEnv where
  insmodCpu := insmodCpu
  mbmInit := 0
  tscCycles := 2000
  registerChrdevRegion := 0
  cdevAdd := 0
  classCreateErrno := 0
  deviceCreateErrno := 0
  initRingBuffer := fun _ => true
  pollerErrno := 0
  logFileOpens := true
  loggerErrno := 0
  workqueueAllocated := true

theorem fourCpus_online (cpu : Nat) (_ : hrpSelectedCpus rdpmcConfig fourCpus cpu = true) :
    fourCpus.online cpu = true :=
  rfl

/-- With `insmod` on CPU 2, that CPU is polled and was never programmed, and cannot use
`rdpmc` either. -/
theorem insmod_cpu_not_covered :
    ¬ ∀ (cfg : Config) (p : Platform) (env : InitEnv) (instructedProfile : Bool),
      (∀ cpu, hrpSelectedCpus cfg p cpu = true → p.online cpu = true) →
      (hrpPmcInit cfg p env instructedProfile).code = 0 → Covered cfg p env instructedProfile := by
  intro hall
  obtain ⟨hpolled, -⟩ := hall rdpmcConfig fourCpus (successfulEnv 2) false fourCpus_online
    (by decide)
  obtain ⟨hesel, -⟩ := hpolled 2 (by decide)
  exact absurd hesel (by decide +kernel)

/-- With `insmod` on CPU 3, which is not selected, every CPU is covered. -/
theorem other_insmod_cpu_covered :
    (hrpPmcInit rdpmcConfig fourCpus (successfulEnv 3) false).code = 0 ∧
      Covered rdpmcConfig fourCpus (successfulEnv 3) false := by
  refine ⟨by decide, (covered_iff_condition fourCpus_online (by decide)).mpr ⟨?_, ?_, ?_⟩⟩
  · decide
  · decide
  · decide

end ModuleInit
