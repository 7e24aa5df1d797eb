import Hiresperf.Foundation.Ledger
import Hiresperf.ModuleInit

/-!
# What a failed initialisation leaves behind

A ledger over the events of `hrp_pmc_init`. The steps of the char device undo each
other, but nothing undoes the RMID table, and no step after the char device undoes
anything. A log file that cannot be opened, and an RMID table that cannot be
allocated, are reported and the module is loaded all the same.
-/

namespace InitUnwind

open CpuSelection ModuleInit Ledger

inductive Resource where
  | rmidTable
  | chrdevRegion
  | cdev
  | deviceClass
  | deviceNode
  | ringBuffer (cpu : Nat)
  | uncorePmus
  | pollerThread
  | logFile
  | loggerThread
  | workqueue
  deriving DecidableEq

/-- `rmidTableAllocated` is the result of the `kcalloc` in `mbm_rmid_init`, whose error code
`mbm_init` does not look at. -/
structure UnwindEnv extends InitEnv where
  rmidTableAllocated : Bool

def effect (rmidTableAllocated : Bool) : InitEvent → Effect Resource
  | .mbmInit => if rmidTableAllocated then .acquires .rmidTable else .neither
  | .registerChrdevRegion => .acquires .chrdevRegion
  | .unregisterChrdevRegion => .releases .chrdevRegion
  | .cdevAdd => .acquires .cdev
  | .cdevDel => .releases .cdev
  | .classCreate => .acquires .deviceClass
  | .classDestroy => .releases .deviceClass
  | .deviceCreate => .acquires .deviceNode
  | .initRingBuffer cpu => .acquires (.ringBuffer cpu)
  | .pmcEnableAndEsel _ => .neither
  | .enableRdpmcInUserSpace _ => .neither
  | .initUncorePmus => .acquires .uncorePmus
  | .createPoller => .acquires .pollerThread
  | .openLogFile => .acquires .logFile
  | .createLogger => .acquires .loggerThread
  | .allocWorkqueue => .acquires .workqueue

variable (cfg : Config) (p : Platform) (env : UnwindEnv) (instructedProfile : Bool)

/-- What the threads, the ioctls and `cleanup` use without a check of their own. -/
structure Usable (held : List Resource) : Prop where
  ringBuffers : ∀ cpu, hrpSelectedCpus cfg p cpu = true → .ringBuffer cpu ∈ held
  logFile : .logFile ∈ held
  workers : if instructedProfile then .workqueue ∈ held
    else .pollerThread ∈ held ∧ .loggerThread ∈ held
  rmidTable : cfg.log.useRdt = true → .rmidTable ∈ held

/-- A failed initialisation holds nothing any more, and a successful one all that is used. -/
def AllOrNothing : Prop :=
  ∃ held, account (effect env.rmidTableAllocated) []
      (hrpPmcInit cfg p env.toInitEnv instructedProfile).events = some held ∧
    if (hrpPmcInit cfg p env.toInitEnv instructedProfile).code = 0 then
      Usable cfg p instructedProfile held
    else held = []

/-! ## When it is all or nothing -/

def MbmFails : Prop := cfg.log.useRdt = true ∧ env.mbmInit ≠ 0

def TscFails : Prop := cfg.useTsc = true ∧ env.tscCycles = 0

def DeviceFails : Prop :=
  env.registerChrdevRegion < 0 ∨ env.cdevAdd < 0 ∨ env.classCreateErrno ≠ 0 ∨
    env.deviceCreateErrno ≠ 0

/-- The RMID table is acquired by the first step. -/
def TableHeld : Prop := cfg.log.useRdt = true ∧ env.rmidTableAllocated = true

/-- No step after the char device fails, the log file included. -/
structure RestSucceeds : Prop where
  cpus : 0 < nCpus cfg p ∧ nCpus cfg p ≤ p.nrCpus ∧ 0 < nPollingCpus cfg p
  ringBuffers : ∀ cpu, hrpSelectedCpus cfg p cpu = true → env.initRingBuffer cpu = true
  logFile : env.logFileOpens = true
  workers : if instructedProfile then env.workqueueAllocated = true
    else env.pollerErrno = 0 ∧ env.loggerErrno = 0
  rmidTable : cfg.log.useRdt = true → env.rmidTableAllocated = true

instance : Decidable (MbmFails cfg env) :=
  inferInstanceAs (Decidable (cfg.log.useRdt = true ∧ env.mbmInit ≠ 0))

instance : Decidable (TscFails cfg env) :=
  inferInstanceAs (Decidable (cfg.useTsc = true ∧ env.tscCycles = 0))

instance : Decidable (DeviceFails env) :=
  inferInstanceAs (Decidable (env.registerChrdevRegion < 0 ∨ env.cdevAdd < 0 ∨
    env.classCreateErrno ≠ 0 ∨ env.deviceCreateErrno ≠ 0))

/-- The first step that fails, if any, comes before anything is acquired that it does not
release. -/
def UnwindsCleanly : Prop :=
  if MbmFails cfg env then True
  else if TscFails cfg env ∨ DeviceFails env then ¬ TableHeld cfg env
  else RestSucceeds cfg p env instructedProfile

/-! ## The first three steps -/

theorem andThen_of_ne {x y : Outcome} (h : x.code ≠ 0) : x.andThen y = x := by
  simp [Outcome.andThen, h]

/-- What the first step has acquired if it succeeds. -/
def tableHeld : List Resource :=
  if cfg.log.useRdt && env.rmidTableAllocated then [.rmidTable] else []

variable {cfg p env instructedProfile}

theorem tableHeld_eq_nil : tableHeld cfg env = [] ↔ ¬ TableHeld cfg env := by
  unfold tableHeld TableHeld
  split_ifs with h <;> simpa using h

theorem initMbm_of_fails (h : MbmFails cfg env) :
    initMbm cfg env.toInitEnv = ⟨-eio, []⟩ := by
  simp [initMbm, h.1, h.2]

theorem initMbm_code (h : ¬ MbmFails cfg env) : (initMbm cfg env.toInitEnv).code = 0 := by
  unfold initMbm
  split_ifs with hrdt hmbm
  · exact absurd ⟨hrdt, hmbm⟩ h
  · rfl
  · rfl

theorem account_initMbm (h : ¬ MbmFails cfg env) :
    account (effect env.rmidTableAllocated) [] (initMbm cfg env.toInitEnv).events =
      some (tableHeld cfg env) := by
  unfold initMbm tableHeld
  split_ifs with hrdt hmbm htable htable htable
  · exact absurd ⟨hrdt, hmbm⟩ h
  · exact absurd ⟨hrdt, hmbm⟩ h
  · have hallocated : env.rmidTableAllocated = true := by simpa [hrdt] using htable
    simp [account, effect, hallocated]
  · have hmissing : env.rmidTableAllocated = false := by simpa [hrdt] using htable
    simp [account, effect, hmissing]
  · simp [hrdt] at htable
  · rfl

theorem initTsc_events : (initTsc cfg env.toInitEnv).events = [] := by
  unfold initTsc
  split_ifs <;> rfl

theorem initTsc_code : (initTsc cfg env.toInitEnv).code = 0 ↔ ¬ TscFails cfg env := by
  unfold initTsc TscFails
  split_ifs with h <;> simp [h, eio]

theorem initDevice_code : (initDevice env.toInitEnv).code = 0 ↔ ¬ DeviceFails env := by
  unfold initDevice DeviceFails
  split_ifs with hregion hcdev hclass hdevice <;> simp_all

/-- A step of the char device that fails releases what the ones before it acquired. -/
theorem account_initDevice_of_fails (h : DeviceFails env) :
    account (effect env.rmidTableAllocated) (tableHeld cfg env) (initDevice env.toInitEnv).events =
      some (tableHeld cfg env) := by
  have hheld : tableHeld cfg env = [] ∨ tableHeld cfg env = [.rmidTable] := by
    unfold tableHeld
    split_ifs <;> simp
  unfold initDevice
  split_ifs with hregion hcdev hclass hdevice
  · rfl
  · rcases hheld with hheld | hheld <;> rw [hheld] <;> rfl
  · rcases hheld with hheld | hheld <;> rw [hheld] <;> rfl
  · rcases hheld with hheld | hheld <;> rw [hheld] <;> rfl
  · simp only [DeviceFails] at h
    tauto

/-! ## After the char device -/

/-- The steps after the char device. -/
def afterDevice (cfg : Config) (p : Platform) (env : InitEnv) (instructedProfile : Bool) : Outcome :=
  (checkCpus cfg p).andThen <| (initRingBuffers env (logVisits cfg p)).andThen <|
    (enableCounters cfg p env).andThen <| (initUncore cfg).andThen <|
    (enableRdpmc cfg p env).andThen <| initWorkers env instructedProfile

theorem hrpPmcInit_eq (cfg : Config) (p : Platform) (env : InitEnv) (instructedProfile : Bool) :
    hrpPmcInit cfg p env instructedProfile =
      (initMbm cfg env).andThen ((initTsc cfg env).andThen ((initDevice env).andThen
        (afterDevice cfg p env instructedProfile))) :=
  rfl

theorem keepsAll_andThen {table : Bool} {x y : Outcome} (hx : KeepsAll (effect table) x.events)
    (hy : KeepsAll (effect table) y.events) : KeepsAll (effect table) (x.andThen y).events := by
  unfold Outcome.andThen
  split_ifs
  · intro e he
    rcases List.mem_append.mp he with hmem | hmem
    · exact hx e hmem
    · exact hy e hmem
  · exact hx

theorem keepsAll_initRingBuffers {table : Bool} (env : InitEnv) (cpus : List Nat) :
    KeepsAll (effect table) (initRingBuffers env cpus).events := by
  induction cpus with
  | nil => exact fun e he => absurd he List.not_mem_nil
  | cons cpu rest ih =>
    unfold initRingBuffers
    split_ifs
    · refine keepsAll_andThen ?_ ih
      intro e he r hrelease
      obtain rfl := List.mem_singleton.mp he
      cases hrelease
    · exact fun e he => absurd he List.not_mem_nil

def undoes : InitEvent → Bool
  | .unregisterChrdevRegion | .cdevDel | .classDestroy => true
  | _ => false

theorem keepsAll_of_any {table : Bool} {events : List InitEvent} (h : events.any undoes = false) :
    KeepsAll (effect table) events := by
  intro e he r hrelease
  have hkind : ¬ undoes e = true := List.any_eq_false.mp h e he
  cases e with
  | mbmInit =>
    unfold effect at hrelease
    split_ifs at hrelease
  | unregisterChrdevRegion | cdevDel | classDestroy => exact hkind rfl
  | _ => cases hrelease

theorem keepsAll_afterDevice {table : Bool} (cfg : Config) (p : Platform) (env : InitEnv)
    (instructedProfile : Bool) :
    KeepsAll (effect table) (afterDevice cfg p env instructedProfile).events := by
  have hcheck : KeepsAll (effect table) (checkCpus cfg p).events := by
    unfold checkCpus
    split_ifs <;> exact fun e he => absurd he List.not_mem_nil
  have hcounters : KeepsAll (effect table) (enableCounters cfg p env).events := by
    apply keepsAll_of_any
    unfold enableCounters
    split_ifs <;> simp [undoes]
  have huncore : KeepsAll (effect table) (initUncore cfg).events := by
    apply keepsAll_of_any
    unfold initUncore
    split_ifs <;> simp [undoes]
  have hrdpmc : KeepsAll (effect table) (enableRdpmc cfg p env).events := by
    apply keepsAll_of_any
    unfold enableRdpmc
    split_ifs <;> simp [undoes]
  have hworkers : KeepsAll (effect table) (initWorkers env instructedProfile).events := by
    apply keepsAll_of_any
    unfold initWorkers
    split_ifs <;> simp [undoes]
  exact keepsAll_andThen hcheck (keepsAll_andThen (keepsAll_initRingBuffers env _)
    (keepsAll_andThen hcounters (keepsAll_andThen huncore (keepsAll_andThen hrdpmc hworkers))))

/-- What is held once the char device is there. -/
theorem account_initDevice (h : ¬ DeviceFails env) (held : List Resource) :
    account (effect env.rmidTableAllocated) held (initDevice env.toInitEnv).events =
      some (held ++ [Resource.chrdevRegion, .cdev, .deviceClass, .deviceNode]) := by
  have hevents : (initDevice env.toInitEnv).events =
      [.registerChrdevRegion, .cdevAdd, .classCreate, .deviceCreate] := by
    unfold DeviceFails at h
    unfold initDevice
    split_ifs <;> first | rfl | tauto
  rw [hevents]
  simp [account, effect]

/-- The ledger after all steps, if the first three succeed. -/
theorem account_hrpPmcInit (hmbm : ¬ MbmFails cfg env) (htsc : ¬ TscFails cfg env)
    (hdevice : ¬ DeviceFails env) :
    account (effect env.rmidTableAllocated) []
        (hrpPmcInit cfg p env.toInitEnv instructedProfile).events =
      some (tableHeld cfg env ++ [Resource.chrdevRegion, .cdev, .deviceClass, .deviceNode] ++
        (afterDevice cfg p env.toInitEnv instructedProfile).events.filterMap
          (acquired (effect env.rmidTableAllocated))) := by
  rw [hrpPmcInit_eq, Outcome.andThen_events (initMbm_code hmbm),
    Outcome.andThen_events (initTsc_code.mpr htsc),
    Outcome.andThen_events (initDevice_code.mpr hdevice), initTsc_events, account_append,
    account_initMbm hmbm, Option.bind_some, List.nil_append, account_append,
    account_initDevice hdevice, Option.bind_some]
  exact account_of_keepsAll _ (keepsAll_afterDevice cfg p env.toInitEnv instructedProfile)

theorem hrpPmcInit_code (hmbm : ¬ MbmFails cfg env) (htsc : ¬ TscFails cfg env)
    (hdevice : ¬ DeviceFails env) :
    (hrpPmcInit cfg p env.toInitEnv instructedProfile).code = 0 ↔
      (afterDevice cfg p env.toInitEnv instructedProfile).code = 0 := by
  rw [hrpPmcInit_eq, Outcome.andThen_code, Outcome.andThen_code, Outcome.andThen_code]
  simp [initMbm_code hmbm, initTsc_code.mpr htsc, initDevice_code.mpr hdevice]

theorem checkCpus_code : (checkCpus cfg p).code = 0 ↔
    0 < nCpus cfg p ∧ nCpus cfg p ≤ p.nrCpus ∧ 0 < nPollingCpus cfg p := by
  unfold checkCpus
  split_ifs with hcount hpolling
  · simp only [einval]
    omega
  · simp only [einval]
    omega
  · simp only [true_iff]
    omega

theorem initRingBuffers_code {cpus : List Nat} : (initRingBuffers env.toInitEnv cpus).code = 0 ↔
    ∀ cpu ∈ cpus, env.initRingBuffer cpu = true := by
  induction cpus with
  | nil => simp [initRingBuffers]
  | cons cpu rest ih =>
    unfold initRingBuffers
    by_cases hcpu : env.initRingBuffer cpu = true
    · simp [hcpu, Outcome.andThen_code, ih]
    · simp [hcpu, enomem]

theorem initWorkers_code : (initWorkers env.toInitEnv instructedProfile).code = 0 ↔
    if instructedProfile then env.workqueueAllocated = true
    else env.pollerErrno = 0 ∧ env.loggerErrno = 0 := by
  unfold initWorkers
  split_ifs with hmode hworkqueue hpoller hlogger <;> simp_all [enomem]

theorem afterDevice_code : (afterDevice cfg p env.toInitEnv instructedProfile).code = 0 ↔
    (checkCpus cfg p).code = 0 ∧ (initRingBuffers env.toInitEnv (logVisits cfg p)).code = 0 ∧
      (initWorkers env.toInitEnv instructedProfile).code = 0 := by
  have hcounters : (enableCounters cfg p env.toInitEnv).code = 0 := rfl
  have huncore : (initUncore cfg).code = 0 := rfl
  have hrdpmc : (enableRdpmc cfg p env.toInitEnv).code = 0 := by
    unfold enableRdpmc
    split_ifs <;> rfl
  simp only [afterDevice, Outcome.andThen_code, hcounters, huncore, hrdpmc, true_and]

/-- The threads or the workqueue, and the log file. -/
def workersHeld (env : InitEnv) (instructedProfile : Bool) : List Resource :=
  let file : List Resource := if env.logFileOpens then [.logFile] else []
  if instructedProfile then file ++ [Resource.workqueue]
  else Resource.pollerThread :: file ++ [Resource.loggerThread]

theorem acquired_initWorkers {table : Bool}
    (h : (initWorkers env.toInitEnv instructedProfile).code = 0) :
    (initWorkers env.toInitEnv instructedProfile).events.filterMap (acquired (effect table)) =
      workersHeld env.toInitEnv instructedProfile := by
  rw [initWorkers_code] at h
  cases instructedProfile with
  | true =>
    have hqueue : env.workqueueAllocated = true := h
    cases hfile : env.logFileOpens <;>
      simp [initWorkers, workersHeld, hqueue, hfile, acquired, effect]
  | false =>
    have hthreads : env.pollerErrno = 0 ∧ env.loggerErrno = 0 := h
    cases hfile : env.logFileOpens <;>
      simp [initWorkers, workersHeld, hthreads, hfile, acquired, effect]

theorem mem_tableHeld {r : Resource} : r ∈ tableHeld cfg env ↔ r = .rmidTable ∧ TableHeld cfg env := by
  unfold tableHeld TableHeld
  split_ifs with h
  · simp only [Bool.and_eq_true] at h
    simp [h]
  · simp only [Bool.and_eq_true] at h
    simp [h]

theorem logFile_mem_workersHeld {env : InitEnv} :
    .logFile ∈ workersHeld env instructedProfile ↔ env.logFileOpens = true := by
  cases hfile : env.logFileOpens <;> cases instructedProfile <;> simp [workersHeld, hfile]

theorem rmidTable_not_mem_workersHeld {env : InitEnv} :
    .rmidTable ∉ workersHeld env instructedProfile := by
  cases hfile : env.logFileOpens <;> cases instructedProfile <;> simp [workersHeld, hfile]

/-- What the steps after the char device acquire if none of them fails. -/
theorem acquired_afterDevice {table : Bool}
    (h : (afterDevice cfg p env.toInitEnv instructedProfile).code = 0) :
    (afterDevice cfg p env.toInitEnv instructedProfile).events.filterMap
        (acquired (effect table)) =
      (logVisits cfg p).map Resource.ringBuffer ++
        ((if cfg.log.logImc then [Resource.uncorePmus] else []) ++
          workersHeld env.toInitEnv instructedProfile) := by
  obtain ⟨hcheck, hrings, hworkers⟩ := afterDevice_code.mp h
  have hcheckEvents : (checkCpus cfg p).events = [] := by
    unfold checkCpus
    split_ifs <;> rfl
  have hringsHeld : ((logVisits cfg p).map InitEvent.initRingBuffer).filterMap
      (acquired (effect table)) = (logVisits cfg p).map .ringBuffer := by
    rw [List.filterMap_map, ← List.filterMap_eq_map]
    rfl
  have hcounters : (enableCounters cfg p env.toInitEnv).events.filterMap
      (acquired (effect table)) = [] := by
    unfold enableCounters
    split_ifs <;> simp [acquired, effect]
  have huncore : (initUncore cfg).events.filterMap (acquired (effect table)) =
      if cfg.log.logImc then [.uncorePmus] else [] := by
    unfold initUncore
    split_ifs <;> rfl
  have hrdpmc : (enableRdpmc cfg p env.toInitEnv).events.filterMap (acquired (effect table)) =
      [] := by
    unfold enableRdpmc
    split_ifs <;> simp [acquired, effect]
  have hrdpmcCode : (enableRdpmc cfg p env.toInitEnv).code = 0 := by
    unfold enableRdpmc
    split_ifs <;> rfl
  rw [afterDevice, Outcome.andThen_events hcheck, Outcome.andThen_events hrings,
    Outcome.andThen_events rfl, Outcome.andThen_events rfl, Outcome.andThen_events hrdpmcCode,
    hcheckEvents, initRingBuffers_events hrings]
  simp only [List.nil_append, List.filterMap_append, hringsHeld, hcounters, huncore, hrdpmc,
    acquired_initWorkers hworkers]

/-! ## Every way to fail -/

theorem allOrNothing_of_mbmFails (h : MbmFails cfg env) :
    AllOrNothing cfg p env instructedProfile := by
  have hinit : hrpPmcInit cfg p env.toInitEnv instructedProfile = ⟨-eio, []⟩ := by
    rw [hrpPmcInit_eq, initMbm_of_fails h]
    exact andThen_of_ne (by simp [eio])
  refine ⟨[], by rw [hinit]; rfl, ?_⟩
  rw [hinit, if_neg (by simp [eio])]

/-- A failure before the end of the char device: what is left is the RMID table. -/
theorem allOrNothing_of_deviceFails (hmbm : ¬ MbmFails cfg env)
    (h : TscFails cfg env ∨ DeviceFails env) :
    AllOrNothing cfg p env instructedProfile ↔ ¬ TableHeld cfg env := by
  have hresult : (hrpPmcInit cfg p env.toInitEnv instructedProfile).code ≠ 0 ∧
      account (effect env.rmidTableAllocated) []
        (hrpPmcInit cfg p env.toInitEnv instructedProfile).events = some (tableHeld cfg env) := by
    rw [hrpPmcInit_eq]
    by_cases htsc : TscFails cfg env
    · have hcode : (initTsc cfg env.toInitEnv).code ≠ 0 := fun hzero => initTsc_code.mp hzero htsc
      refine ⟨fun hzero => hcode ?_, ?_⟩
      · exact (Outcome.andThen_code.mp (Outcome.andThen_code.mp hzero).2).1
      · rw [Outcome.andThen_events (initMbm_code hmbm), andThen_of_ne hcode, initTsc_events,
          List.append_nil]
        exact account_initMbm hmbm
    · have hdevice := h.resolve_left htsc
      have hcode : (initDevice env.toInitEnv).code ≠ 0 :=
        fun hzero => initDevice_code.mp hzero hdevice
      refine ⟨fun hzero => hcode ?_, ?_⟩
      · exact (Outcome.andThen_code.mp
          (Outcome.andThen_code.mp (Outcome.andThen_code.mp hzero).2).2).1
      · rw [Outcome.andThen_events (initMbm_code hmbm),
          Outcome.andThen_events (initTsc_code.mpr htsc), andThen_of_ne hcode, initTsc_events,
          List.nil_append, account_append, account_initMbm hmbm]
        exact account_initDevice_of_fails hdevice
  simp only [AllOrNothing, hresult.2, Option.some.injEq, exists_eq_left']
  rw [if_neg hresult.1]
  exact tableHeld_eq_nil

/-- A failure after the char device leaves its node behind. -/
theorem not_allOrNothing_of_afterDevice (hmbm : ¬ MbmFails cfg env) (htsc : ¬ TscFails cfg env)
    (hdevice : ¬ DeviceFails env)
    (h : (afterDevice cfg p env.toInitEnv instructedProfile).code ≠ 0) :
    ¬ AllOrNothing cfg p env instructedProfile := by
  rintro ⟨held, haccount, hheld⟩
  rw [if_neg (mt (hrpPmcInit_code hmbm htsc hdevice).mp h)] at hheld
  rw [account_hrpPmcInit hmbm htsc hdevice, hheld] at haccount
  simp at haccount

/-- A module that was loaded has all it uses exactly if the log file and the RMID table are
there. -/
theorem allOrNothing_of_loaded (hmbm : ¬ MbmFails cfg env) (htsc : ¬ TscFails cfg env)
    (hdevice : ¬ DeviceFails env)
    (h : (afterDevice cfg p env.toInitEnv instructedProfile).code = 0) :
    AllOrNothing cfg p env instructedProfile ↔
      env.logFileOpens = true ∧ (cfg.log.useRdt = true → env.rmidTableAllocated = true) := by
  simp only [AllOrNothing, account_hrpPmcInit hmbm htsc hdevice, acquired_afterDevice h,
    Option.some.injEq, exists_eq_left']
  rw [if_pos ((hrpPmcInit_code hmbm htsc hdevice).mpr h)]
  constructor
  · intro husable
    refine ⟨?_, fun hrdt => ?_⟩
    · have hfile := husable.logFile
      simp only [List.mem_append, mem_tableHeld, logFile_mem_workersHeld] at hfile
      simpa using hfile
    · have htable := husable.rmidTable hrdt
      simp only [List.mem_append, mem_tableHeld, rmidTable_not_mem_workersHeld] at htable
      have hheld : TableHeld cfg env := by simpa using htable
      exact hheld.2
  · rintro ⟨hfile, htable⟩
    constructor
    case ringBuffers =>
      intro cpu hcpu
      simp [hcpu]
    case logFile => simp [logFile_mem_workersHeld, hfile]
    case workers =>
      unfold workersHeld
      cases instructedProfile <;> simp
    case rmidTable =>
      intro hrdt
      simp [tableHeld, hrdt, htable hrdt]

theorem restSucceeds_iff : RestSucceeds cfg p env instructedProfile ↔
    (afterDevice cfg p env.toInitEnv instructedProfile).code = 0 ∧
      env.logFileOpens = true ∧ (cfg.log.useRdt = true → env.rmidTableAllocated = true) := by
  rw [afterDevice_code, checkCpus_code, initRingBuffers_code, initWorkers_code]
  simp only [mem_logVisits]
  exact ⟨fun h => ⟨⟨h.cpus, h.ringBuffers, h.workers⟩, h.logFile, h.rmidTable⟩,
    fun h => ⟨h.1.1, h.1.2.1, h.2.1, h.1.2.2, h.2.2⟩⟩

/-- For every configuration, mask, mode and choice of failing steps, the initialisation is all or
nothing exactly if it unwinds cleanly. -/
theorem hrpPmcInit_allOrNothing_iff (cfg : Config) (p : Platform) (env : UnwindEnv)
    (instructedProfile : Bool) :
    AllOrNothing cfg p env instructedProfile ↔ UnwindsCleanly cfg p env instructedProfile := by
  unfold UnwindsCleanly
  split_ifs with hmbm hdevice
  · exact iff_of_true (allOrNothing_of_mbmFails hmbm) trivial
  · exact allOrNothing_of_deviceFails hmbm hdevice
  · obtain ⟨htsc, hdev⟩ := not_or.mp hdevice
    rw [restSucceeds_iff]
    by_cases hrest : (afterDevice cfg p env.toInitEnv instructedProfile).code = 0
    · rw [allOrNothing_of_loaded hmbm htsc hdev hrest]
      simp [hrest]
    · exact iff_of_false (not_allOrNothing_of_afterDevice hmbm htsc hdev hrest)
        fun h => hrest h.1

/-- The poller thread of a module on four CPUs cannot be created: the device stays registered. -/
theorem poller_failure_leaks : ¬ ∀ cfg p env instructedProfile,
    AllOrNothing cfg p env instructedProfile := by
  intro hall
  obtain ⟨held, haccount, hheld⟩ := hall twoCpuConfig fourCpus
    ⟨{ successfulEnv 0 with pollerErrno := 12 }, true⟩ false
  rw [if_neg (by decide)] at hheld
  rw [hheld] at haccount
  revert haccount
  decide +kernel

end InitUnwind
