import Hiresperf.InstructedWork
import Hiresperf.PollerSample
import Hiresperf.RingBuffer

/-!
# Instructed mode as a bounded-queue machine

One client issues INSTRUCTED_POLL, INSTRUCTED_LOG and INSTRUCTED_POLL_AND_LOG
ioctls, without `HRP_STRICT_POLLING_SYNC`. The handlers of a poll run in some
order on the CPUs that `smp_call_function_many` calls. The reference machine
keeps a queue of samples for each CPU and knows neither rings nor handlers nor
work items.
-/

namespace InstructedMode

open CircularWindow CpuSelection InstructedWork LogEntry PollerSample RingBuffer

/-- The rings and the log file, and the work items through which they are reached. -/
structure ModuleState (cfg : Config) where
  rings : Nat → Ring cfg.bufferSize (HrperfLogEntry cfg.log)
  file : List UInt8
  item : Nat → WorkItem

/-- What a client asks for, and what the CPUs read if it is a poll. -/
structure ProfileRequest (cfg : Config) where
  op : InstructedOp
  clocks : Clocks
  readings : Nat → Readings cfg.log

/-- An ioctl as it comes to run: the CPU of the client, and the order of the handlers. -/
structure Ioctl (cfg : Config) (p : Platform) extends ProfileRequest cfg where
  clientCpu : Nat
  order : List Nat
  runs : order.Perm (calledCpus cfg p)

variable {cfg : Config} {p : Platform}

def hrperfPollerFunc (kts : BitVec 64) (readings : Nat → Readings cfg.log) (s : ModuleState cfg)
    (cpu : Nat) : ModuleState cfg :=
  let filled := (s.rings cpu).enqueue (sample cfg cpu kts (readings cpu))
  { s with rings := Function.update s.rings cpu filled }

/-- `smp_poll_pmus` without strict synchronisation: the call waits for all handlers. -/
def smpPollPmus (i : Ioctl cfg p) (s : ModuleState cfg) : ModuleState cfg :=
  let kts := takeKts cfg i.clocks
  let called := i.order.foldl (hrperfPollerFunc kts i.readings) s
  if cfg.pollPollerCore then hrperfPollerFunc kts i.readings called cfg.pollerCpu else called

def logOne (pad : UInt8) (s : ModuleState cfg) (cpu : Nat) : ModuleState cfg :=
  let logged := (s.rings cpu).logAndClear (HrperfLogEntry.toBytes pad) .all .all s.file
  { s with rings := Function.update s.rings cpu logged.1, file := logged.2 }

def logForAllCpus (p : Platform) (pad : UInt8) (s : ModuleState cfg) : ModuleState cfg :=
  (logVisits cfg p).foldl (logOne pad) s

/-- The three work functions. -/
def runWork (pad : UInt8) (i : Ioctl cfg p) (s : ModuleState cfg) : InstructedOp → ModuleState cfg
  | .pollOp => smpPollPmus i s
  | .logOp => logForAllCpus p pad s
  | .pollAndLog => logForAllCpus p pad (smpPollPmus i s)

/-- A worker runs the function of the item once for each queueing, until there is nothing
to wait for in `flush_work`. -/
def flushWork (pad : UInt8) (i : Ioctl cfg p) (s : ModuleState cfg) : ModuleState cfg :=
  let w := s.item i.clientCpu
  let idle := { w with pending := false, queueings := [] }
  w.queueings.foldl (fun t _ => (w.func.map (runWork pad i t)).getD t)
    { s with item := Function.update s.item i.clientCpu idle }

/-- `enqueue_instructed_profile_op`, with its return code. -/
def enqueueInstructedProfileOp (wc : WorkConfig) (pad : UInt8) (i : Ioctl cfg p)
    (s : ModuleState cfg) : Int × ModuleState cfg :=
  if wc.instructedProfile then
    let w := initWork (s.item i.clientCpu) i.op
    let initialised := { s with item := Function.update s.item i.clientCpu w }
    if wc.workqueue then
      (0, flushWork pad i
        { s with item := Function.update s.item i.clientCpu (queueWorkOn w 0) })
    else (-efault, initialised)
  else (-einval, s)

def runIoctls (wc : WorkConfig) (pad : UInt8) (ioctls : List (Ioctl cfg p))
    (s : ModuleState cfg) : ModuleState cfg :=
  ioctls.foldl (fun t i => (enqueueInstructedProfileOp wc pad i t).2) s

/-! ## The reference machine -/

structure Reference (cfg : Config) where
  fifo : Nat → BoundedFifo (cfg.bufferSize - 1) (HrperfLogEntry cfg.log)
  file : List UInt8

def Reference.init : Reference cfg := ⟨fun _ => .empty, []⟩

/-- One sample for each selected CPU but the poller CPU. -/
def Reference.poll (p : Platform) (q : ProfileRequest cfg) (s : Reference cfg) : Reference cfg :=
  { s with fifo := fun cpu =>
      if hrpSelectedCpus cfg p cpu = true ∧ cpu ≠ cfg.pollerCpu then
        (s.fifo cpu).push (sample cfg cpu (takeKts cfg q.clocks) (q.readings cpu))
      else s.fifo cpu }

/-- The queues of the selected CPUs go to the file in increasing CPU number. -/
def Reference.log (p : Platform) (pad : UInt8) (s : Reference cfg) : Reference cfg where
  fifo := fun cpu => if hrpSelectedCpus cfg p cpu then .empty else s.fifo cpu
  file := s.file ++ ((List.range p.nrCpus).filter (hrpSelectedCpus cfg p)).flatMap
    (fun cpu => (s.fifo cpu).items.flatMap (HrperfLogEntry.toBytes pad))

def Reference.serve (p : Platform) (pad : UInt8) (s : Reference cfg) (q : ProfileRequest cfg) :
    Reference cfg :=
  match q.op with
  | .pollOp => s.poll p q
  | .logOp => s.log p pad
  | .pollAndLog => (s.poll p q).log p pad

def Reference.serveAll (p : Platform) (pad : UInt8) (requests : List (ProfileRequest cfg))
    (s : Reference cfg) : Reference cfg :=
  requests.foldl (Reference.serve p pad) s

/-! ## The simulation -/

/-- The setting: handlers that the poller waits for, a poller CPU that does not poll, and
a selection of online CPUs. -/
structure Setting (cfg : Config) (p : Platform) : Prop where
  strict : cfg.strictPollingSync = false
  core : cfg.pollPollerCore = false
  online : ∀ cpu, hrpSelectedCpus cfg p cpu = true → p.online cpu = true
  size : 0 < cfg.bufferSize

/-- After `hrp_pmc_init`: empty rings over arbitrary memory and an empty file. -/
def ModuleState.init (hset : Setting cfg p) (cells : Nat → Nat → HrperfLogEntry cfg.log) :
    ModuleState cfg where
  rings := fun cpu => .init (cells cpu) hset.size
  file := []
  item := fun _ => .unused

/-- The rings hold what the queues hold, the files are the same, and no work is queued. -/
structure Simulates (s : ModuleState cfg) (r : Reference cfg) : Prop where
  fifo : ∀ cpu, (s.rings cpu).toFifo = r.fifo cpu
  file : s.file = r.file
  idle : ∀ cpu, (s.item cpu).queueings = []

theorem foldl_pollerFunc (kts : BitVec 64) (readings : Nat → Readings cfg.log)
    (order : List Nat) (hnodup : order.Nodup) (s : ModuleState cfg) :
    order.foldl (hrperfPollerFunc kts readings) s = { s with
      rings := fun cpu =>
        if cpu ∈ order then (s.rings cpu).enqueue (sample cfg cpu kts (readings cpu))
        else s.rings cpu } := by
  induction order generalizing s with
  | nil => simp
  | cons first rest ih =>
    obtain ⟨hfirst, hrest⟩ := List.nodup_cons.mp hnodup
    rw [List.foldl_cons, ih hrest]
    simp only [hrperfPollerFunc, ModuleState.mk.injEq, and_true]
    funext cpu
    by_cases hcpu : cpu = first
    · subst hcpu
      simp [hfirst]
    · simp [hcpu]

/-- Whatever their order, the handlers leave one sample in each ring that is polled. -/
theorem smpPollPmus_simulates (hset : Setting cfg p)
    {s : ModuleState cfg} {r : Reference cfg} (h : Simulates s r) (i : Ioctl cfg p) :
    Simulates (smpPollPmus i s) (r.poll p i.toProfileRequest) := by
  have hnodup : i.order.Nodup := i.runs.nodup_iff.mpr ((forEachCpu_nodup _).filter _)
  have hmem : ∀ cpu, cpu ∈ i.order ↔ hrpSelectedCpus cfg p cpu = true ∧ cpu ≠ cfg.pollerCpu := by
    intro cpu
    rw [i.runs.mem_iff, mem_calledCpus]
    exact ⟨fun hc => ⟨hc.1, hc.2.2⟩, fun hc => ⟨hc.1, hset.online cpu hc.1, hc.2⟩⟩
  rw [smpPollPmus, if_neg (by simp [hset.core]), foldl_pollerFunc _ _ _ hnodup]
  refine ⟨fun cpu => ?_, h.file, h.idle⟩
  simp only [Reference.poll, hmem]
  split_ifs
  · rw [Ring.toFifo_enqueue, h.fifo]
  · exact h.fifo cpu

theorem foldl_logOne (pad : UInt8) (cpus : List Nat) (hnodup : cpus.Nodup) (s : ModuleState cfg) :
    (cpus.foldl (logOne pad) s).file = s.file ++ cpus.flatMap
        (fun cpu => (s.rings cpu).toFifo.items.flatMap (HrperfLogEntry.toBytes pad)) ∧
      (cpus.foldl (logOne pad) s).item = s.item ∧
      ∀ cpu, ((cpus.foldl (logOne pad) s).rings cpu).toFifo =
        if cpu ∈ cpus then .empty else (s.rings cpu).toFifo := by
  induction cpus generalizing s with
  | nil => simp
  | cons first rest ih =>
    obtain ⟨hfirst, hrest⟩ := List.nodup_cons.mp hnodup
    obtain ⟨hfile, hitem, hrings⟩ := ih hrest (logOne pad s first)
    refine ⟨?_, hitem, ?_⟩
    · -- the rings that are still to come have not changed
      have hsame : ∀ cpu ∈ rest, (logOne pad s first).rings cpu = s.rings cpu := by
        intro cpu hcpu
        have hne : cpu ≠ first := fun he => hfirst (he ▸ hcpu)
        simp [logOne, hne]
      rw [List.foldl_cons, hfile, List.flatMap_cons, ← List.append_assoc]
      congr 1
      · exact Ring.logAndClear_file _ _ _
      · apply List.flatMap_congr
        intro cpu hcpu
        rw [hsame cpu hcpu]
    · intro cpu
      rw [List.foldl_cons, hrings]
      by_cases hcpu : cpu = first
      · subst hcpu
        simp [hfirst, logOne]
      · simp [hcpu, logOne]

theorem logForAllCpus_simulates (pad : UInt8) {s : ModuleState cfg} {r : Reference cfg}
    (h : Simulates s r) : Simulates (logForAllCpus p pad s) (r.log p pad) := by
  obtain ⟨hfile, hitem, hrings⟩ := foldl_logOne pad (logVisits cfg p) (forEachCpu_nodup _) s
  refine ⟨fun cpu => ?_, ?_, fun cpu => ?_⟩
  · rw [logForAllCpus, hrings, Reference.log, h.fifo]
    simp only [mem_logVisits]
  · rw [logForAllCpus, hfile, Reference.log, h.file]
    simp only [h.fifo]
    rfl
  · rw [logForAllCpus, hitem]
    exact h.idle cpu

theorem runWork_simulates (hset : Setting cfg p) (pad : UInt8)
    {s : ModuleState cfg} {r : Reference cfg} (h : Simulates s r) (i : Ioctl cfg p) :
    Simulates (runWork pad i s i.op) (r.serve p pad i.toProfileRequest) := by
  cases hop : i.op with
  | pollOp =>
    simp only [Reference.serve, hop]
    exact smpPollPmus_simulates hset h i
  | logOp =>
    simp only [Reference.serve, hop]
    exact logForAllCpus_simulates pad h
  | pollAndLog =>
    simp only [Reference.serve, hop]
    exact logForAllCpus_simulates pad (smpPollPmus_simulates hset h i)

/-- With one client the item is idle when it is used, so its function runs once. -/
theorem enqueue_simulates (hset : Setting cfg p) (pad : UInt8)
    {s : ModuleState cfg} {r : Reference cfg} (h : Simulates s r) (i : Ioctl cfg p) :
    (enqueueInstructedProfileOp ⟨true, true⟩ pad i s).1 = 0 ∧
      Simulates (enqueueInstructedProfileOp ⟨true, true⟩ pad i s).2
        (r.serve p pad i.toProfileRequest) := by
  refine ⟨rfl, ?_⟩
  have hidle := h.idle i.clientCpu
  simp only [enqueueInstructedProfileOp, flushWork, queueWorkOn, initWork, hidle, if_true,
    Bool.false_eq_true, if_false, Function.update_self, List.nil_append, List.foldl_cons,
    List.foldl_nil, Option.map_some, Option.getD_some]
  apply runWork_simulates hset pad
  refine ⟨h.fifo, h.file, fun cpu => ?_⟩
  by_cases hcpu : cpu = i.clientCpu
  · simp [hcpu]
  · simpa [hcpu] using h.idle cpu

theorem runIoctls_simulates (hset : Setting cfg p) (pad : UInt8)
    (ioctls : List (Ioctl cfg p)) {s : ModuleState cfg} {r : Reference cfg} (h : Simulates s r) :
    Simulates (runIoctls ⟨true, true⟩ pad ioctls s)
      (Reference.serveAll p pad (ioctls.map Ioctl.toProfileRequest) r) := by
  induction ioctls generalizing s r with
  | nil => exact h
  | cons i rest ih => exact ih (enqueue_simulates hset pad h i).2

theorem init_simulates (hset : Setting cfg p) (cells : Nat → Nat → HrperfLogEntry cfg.log) :
    Simulates (.init hset cells) .init :=
  ⟨fun _ => Ring.toFifo_init _ _, rfl, fun _ => rfl⟩

/-- The log file is that of the reference machine. The order of the handlers and the CPUs
of the client are no part of the requests, so the file does not depend on them. -/
theorem instructed_mode_refines (hset : Setting cfg p)
    (cells : Nat → Nat → HrperfLogEntry cfg.log) (pad : UInt8) (ioctls : List (Ioctl cfg p)) :
    (runIoctls ⟨true, true⟩ pad ioctls (.init hset cells)).file =
        (Reference.serveAll p pad (ioctls.map Ioctl.toProfileRequest) .init).file ∧
      ∀ ioctls' : List (Ioctl cfg p),
        ioctls'.map Ioctl.toProfileRequest = ioctls.map Ioctl.toProfileRequest →
        (runIoctls ⟨true, true⟩ pad ioctls' (.init hset cells)).file =
          (runIoctls ⟨true, true⟩ pad ioctls (.init hset cells)).file := by
  have hfile : ∀ l : List (Ioctl cfg p),
      (runIoctls ⟨true, true⟩ pad l (.init hset cells)).file =
        (Reference.serveAll p pad (l.map Ioctl.toProfileRequest) .init).file :=
    fun l => (runIoctls_simulates hset pad l (init_simulates hset cells)).file
  refine ⟨hfile ioctls, ?_⟩
  intro ioctls' hsame
  rw [hfile ioctls', hfile ioctls, hsame]

/-- The selected CPUs are 0, 1 and 2, and CPU 1 polls by the clock of `ktime_get_real`. -/
def smallConfig : Config := { twoCpuConfig with useTsc := false, selectionMask := fun c => c < 3 }

theorem smallSetting : Setting smallConfig fourCpus :=
  ⟨rfl, rfl, fun _ _ => rfl, by decide⟩

def smallReadings (v : BitVec 64) : Readings smallConfig.log where
  pmc0 := v
  pmc1 := v
  pmc2 := v
  pmc3 := v
  fixedCtr0 := v
  fixedCtr1 := v
  imcReads := v
  imcWrites := v
  mbm := none
  stack := ⟨v, v, v, v, v, v, v, .of _ v, .of _ v, .of _ v, .of _ v, .of _ v⟩

def smallRequest (op : InstructedOp) (time : BitVec 64) : ProfileRequest smallConfig where
  op := op
  clocks := ⟨0, 0, time⟩
  readings := fun cpu => smallReadings (BitVec.ofNat 64 cpu + time)

def smallIoctl (op : InstructedOp) (time : BitVec 64) : Ioctl smallConfig fourCpus where
  toProfileRequest := smallRequest op time
  clientCpu := 3
  order := [2, 0]
  runs := by decide

/-- Three polls overflow the rings and drop their third samples; after a log pass the next
sample of each CPU goes to the last slot. -/
theorem instructed_mode_overflow :
    (runIoctls ⟨true, true⟩ 0 [smallIoctl .pollOp 1, smallIoctl .pollOp 2, smallIoctl .pollOp 3,
        smallIoctl .logOp 4, smallIoctl .pollAndLog 5]
      (.init smallSetting (fun _ _ => sample smallConfig 0 0 (smallReadings 0)))).file =
      ([(0, 1), (0, 2), (2, 1), (2, 2), (0, 5), (2, 5)].map (fun e : Nat × BitVec 64 =>
        sample smallConfig e.1 e.2 (smallReadings (BitVec.ofNat 64 e.1 + e.2)))).flatMap
        (HrperfLogEntry.toBytes 0) := by
  rw [(instructed_mode_refines smallSetting _ 0 _).1]
  decide +kernel

end InstructedMode
