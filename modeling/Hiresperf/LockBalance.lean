import Hiresperf.CpuSelection
import Hiresperf.InstructedWork

/-!
# What an instructed operation leaves behind

`smp_poll_pmus` and `log_for_all_cpus` with the resources they take on the way:
`instructed_profile_lock`, the preemption count of the CPU they run on and the
cpumask. Whether the allocation succeeds and how the two waits end is given to
each poll. `none` is the result of an operation that never returns, because it
waits for a lock that nobody is going to release: operations come one after
another, so the holder is an operation that is over.
-/

namespace LockBalance

open CpuSelection InstructedWork

structure Kernel where
  lockHeld : Bool
  preemptCount : Nat
  masks : Nat
  deriving DecidableEq

inductive WaitResult where
  | reached
  | timedOut
  deriving DecidableEq

structure PollOutcome where
  maskAllocated : Bool
  ready : WaitResult
  done : WaitResult
  deriving DecidableEq

def mutexLock (k : Kernel) : Option Kernel :=
  if k.lockHeld then none else some { k with lockHeld := true }

def mutexUnlock (k : Kernel) : Kernel := { k with lockHeld := false }

def preemptDisable (k : Kernel) : Kernel := { k with preemptCount := k.preemptCount + 1 }

def preemptEnable (k : Kernel) : Kernel := { k with preemptCount := k.preemptCount - 1 }

def allocCpumaskVar (k : Kernel) : Kernel := { k with masks := k.masks + 1 }

def freeCpumaskVar (k : Kernel) : Kernel := { k with masks := k.masks - 1 }

variable (cfg : Config) (instructedProfile : Bool)

def lockInstructed (k : Kernel) : Option Kernel :=
  if cfg.concurrentInstructedProfile = true ∧ instructedProfile = true then mutexLock k else some k

def unlockInstructed (k : Kernel) : Kernel :=
  if cfg.concurrentInstructedProfile = true ∧ instructedProfile = true then mutexUnlock k else k

/-- `hrperf_poller_func` on the CPU of the caller, with `start_flag` set: its wait loop
ends at the first test. -/
def hrperfPollerFunc (k : Kernel) : Kernel :=
  if cfg.strictPollingSync then preemptEnable (preemptDisable k) else k

/-- The branch of `smp_poll_pmus` under `HRP_STRICT_POLLING_SYNC`, with the lock taken.
The first two failures return at once. -/
def strictPoll (o : PollOutcome) (k : Kernel) : Kernel :=
  let entered := preemptDisable k
  if o.maskAllocated then
    let allocated := allocCpumaskVar entered
    match o.ready with
    | .timedOut => freeCpumaskVar allocated
    | .reached =>
      let polled := if cfg.pollPollerCore then hrperfPollerFunc cfg allocated else allocated
      let waited := preemptEnable polled
      -- a timeout of the second wait breaks out of the loop and goes on
      match o.done with
      | .reached | .timedOut => unlockInstructed cfg instructedProfile (freeCpumaskVar waited)
  else entered

def smpPollPmus (o : PollOutcome) (k : Kernel) : Option Kernel :=
  (lockInstructed cfg instructedProfile k).map fun k =>
    if cfg.strictPollingSync then strictPoll cfg instructedProfile o k
    else
      unlockInstructed cfg instructedProfile
        (if cfg.pollPollerCore then hrperfPollerFunc cfg k else k)

def logForAllCpus (k : Kernel) : Option Kernel :=
  (lockInstructed cfg instructedProfile k).map (unlockInstructed cfg instructedProfile)

/-- An operation as it is going to run. -/
structure Operation where
  op : InstructedOp
  outcome : PollOutcome
  deriving DecidableEq

def runOp (o : Operation) (k : Kernel) : Option Kernel :=
  match o.op with
  | .pollOp => smpPollPmus cfg instructedProfile o.outcome k
  | .logOp => logForAllCpus cfg instructedProfile k
  | .pollAndLog =>
    (smpPollPmus cfg instructedProfile o.outcome k).bind (logForAllCpus cfg instructedProfile)

def runOps : List Operation → Kernel → Option Kernel
  | [], k => some k
  | o :: rest, k => (runOp cfg instructedProfile o k).bind (runOps rest)

/-- The lock is free and everything taken since `entry` has been given back. -/
structure Balanced (entry exit : Kernel) : Prop where
  lock : exit.lockHeld = false
  preempt : exit.preemptCount = entry.preemptCount
  masks : exit.masks = entry.masks

/-- Every operation of the sequence returns, balanced, and between two of them there is
always one that would not block. -/
structure OperationsBalanced (ops : List Operation) (k : Kernel) : Prop where
  returns : ∀ pre o post k', ops = pre ++ o :: post →
    runOps cfg instructedProfile pre k = some k' →
    ∃ k'', runOp cfg instructedProfile o k' = some k'' ∧ Balanced k' k''
  notBlocked : ∀ pre post k', ops = pre ++ post →
    runOps cfg instructedProfile pre k = some k' →
    ∃ o, (runOp cfg instructedProfile o k').isSome = true

/-- No poll fails to allocate its mask or to gather all CPUs in time. -/
def Operation.Clean (o : Operation) : Prop :=
  o.op ≠ .logOp → o.outcome.maskAllocated = true ∧ o.outcome.ready = .reached

instance (o : Operation) : Decidable o.Clean :=
  inferInstanceAs (Decidable (_ → _))

variable {cfg instructedProfile}

theorem Balanced.trans {a b c : Kernel} (hab : Balanced a b) (hbc : Balanced b c) :
    Balanced a c :=
  ⟨hbc.lock, hbc.preempt.trans hab.preempt, hbc.masks.trans hab.masks⟩

/-- With the lock free and both switches on, a poll always returns. -/
theorem smpPollPmus_free {k : Kernel} (hconc : cfg.concurrentInstructedProfile = true)
    (hstrict : cfg.strictPollingSync = true) (hfree : k.lockHeld = false) (o : PollOutcome) :
    smpPollPmus cfg true o k = some (strictPoll cfg true o { k with lockHeld := true }) := by
  simp [smpPollPmus, lockInstructed, mutexLock, hconc, hstrict, hfree]

theorem strictPoll_lock_iff {k : Kernel} (hconc : cfg.concurrentInstructedProfile = true)
    (hheld : k.lockHeld = true) (o : PollOutcome) :
    (strictPoll cfg true o k).lockHeld = false ↔
      o.maskAllocated = true ∧ o.ready = .reached := by
  obtain ⟨allocated, ready, done⟩ := o
  cases allocated with
  | false => simp [strictPoll, preemptDisable, hheld]
  | true =>
    cases ready with
    | timedOut => simp [strictPoll, preemptDisable, freeCpumaskVar, allocCpumaskVar, hheld]
    | reached => cases done <;> simp [strictPoll, unlockInstructed, mutexUnlock, hconc]

theorem strictPoll_balanced {k : Kernel} (hconc : cfg.concurrentInstructedProfile = true)
    {o : PollOutcome} (ho : o.maskAllocated = true ∧ o.ready = .reached) :
    Balanced k (strictPoll cfg true o k) := by
  obtain ⟨allocated, ready, done⟩ := o
  obtain ⟨rfl, rfl⟩ := ho
  cases done <;> by_cases hcore : cfg.pollPollerCore = true <;>
    by_cases hstrict : cfg.strictPollingSync = true <;>
    constructor <;>
    simp [strictPoll, unlockInstructed, mutexUnlock, hconc, hcore, hstrict, hrperfPollerFunc,
      preemptDisable, preemptEnable, allocCpumaskVar, freeCpumaskVar]

theorem logForAllCpus_free {k : Kernel} (hconc : cfg.concurrentInstructedProfile = true)
    (hfree : k.lockHeld = false) : logForAllCpus cfg true k = some k := by
  cases k
  simp_all [logForAllCpus, lockInstructed, unlockInstructed, mutexLock, mutexUnlock]

theorem logForAllCpus_held {k : Kernel} (hconc : cfg.concurrentInstructedProfile = true)
    (hheld : k.lockHeld = true) : logForAllCpus cfg true k = none := by
  simp [logForAllCpus, lockInstructed, mutexLock, hconc, hheld]

/-- One operation: it returns balanced exactly when it is clean. -/
theorem runOp_balanced_iff {k : Kernel} (hconc : cfg.concurrentInstructedProfile = true)
    (hstrict : cfg.strictPollingSync = true) (hfree : k.lockHeld = false) (o : Operation) :
    (∃ k', runOp cfg true o k = some k' ∧ Balanced k k') ↔ o.Clean := by
  obtain ⟨op, outcome⟩ := o
  have hlock := strictPoll_lock_iff (k := { k with lockHeld := true }) hconc rfl outcome
  have hpoll := smpPollPmus_free hconc hstrict hfree outcome
  have hbalanced : outcome.maskAllocated = true ∧ outcome.ready = .reached →
      Balanced k (strictPoll cfg true outcome { k with lockHeld := true }) := by
    intro hclean
    obtain ⟨h1, h2, h3⟩ := strictPoll_balanced (k := { k with lockHeld := true }) hconc hclean
    exact ⟨h1, h2, h3⟩
  cases op with
  | logOp =>
    simp only [runOp, logForAllCpus_free hconc hfree, Operation.Clean]
    exact ⟨fun _ h => absurd rfl h, fun _ => ⟨k, rfl, hfree, rfl, rfl⟩⟩
  | pollOp =>
    simp only [runOp, hpoll, Operation.Clean]
    constructor
    · rintro ⟨k', hk', hbal⟩ -
      exact hlock.mp (Option.some.inj hk' ▸ hbal.lock)
    · intro hclean
      exact ⟨_, rfl, hbalanced (hclean (by decide))⟩
  | pollAndLog =>
    simp only [runOp, hpoll, Operation.Clean, Option.bind_some]
    constructor
    · rintro ⟨k', hk', -⟩ -
      by_contra hnot
      -- a lock that the poll keeps blocks the log of the same operation
      have hheld : (strictPoll cfg true outcome { k with lockHeld := true }).lockHeld = true := by
        simpa using fun h => hnot (hlock.mp h)
      rw [logForAllCpus_held hconc hheld] at hk'
      cases hk'
    · intro hclean
      have hbal := hbalanced (hclean (by decide))
      exact ⟨_, logForAllCpus_free hconc hbal.lock, hbal⟩

theorem runOp_isSome_of_free {k : Kernel} (hconc : cfg.concurrentInstructedProfile = true)
    (hfree : k.lockHeld = false) (outcome : PollOutcome) :
    (runOp cfg true ⟨.logOp, outcome⟩ k).isSome = true := by
  simp [runOp, logForAllCpus_free hconc hfree]

theorem runOp_of_held {k : Kernel} (hconc : cfg.concurrentInstructedProfile = true)
    (hheld : k.lockHeld = true) (o : Operation) : runOp cfg true o k = none := by
  obtain ⟨op, outcome⟩ := o
  cases op <;> simp [runOp, smpPollPmus, logForAllCpus, lockInstructed, mutexLock, hconc, hheld]

/-- A sequence is balanced when its first operation is and the rest is from there. -/
theorem operationsBalanced_cons {k : Kernel} (hconc : cfg.concurrentInstructedProfile = true)
    (hfree : k.lockHeld = false) (o : Operation) (rest : List Operation) :
    OperationsBalanced cfg true (o :: rest) k ↔
      ∃ k', runOp cfg true o k = some k' ∧ Balanced k k' ∧ OperationsBalanced cfg true rest k' := by
  constructor
  · intro h
    obtain ⟨k', hk', hbal⟩ := h.returns [] o rest k rfl rfl
    refine ⟨k', hk', hbal, ?_, ?_⟩
    · intro pre o' post k'' hops hrun
      exact h.returns (o :: pre) o' post k'' (by rw [hops]; rfl) (by simp [runOps, hk', hrun])
    · intro pre post k'' hops hrun
      exact h.notBlocked (o :: pre) post k'' (by rw [hops]; rfl) (by simp [runOps, hk', hrun])
  · rintro ⟨k', hk', hbal, h⟩
    constructor
    · intro pre o' post k'' hops hrun
      cases pre with
      | nil =>
        obtain ⟨rfl, rfl⟩ := List.cons.inj hops
        obtain rfl := Option.some.inj hrun
        exact ⟨k', hk', hbal⟩
      | cons head pre =>
        obtain ⟨rfl, htail⟩ := List.cons.inj hops
        simp only [runOps, hk', Option.bind_some] at hrun
        exact h.returns pre o' post k'' htail hrun
    · intro pre post k'' hops hrun
      cases pre with
      | nil =>
        obtain rfl := Option.some.inj hrun
        exact ⟨⟨.logOp, o.outcome⟩, runOp_isSome_of_free hconc hfree _⟩
      | cons head pre =>
        obtain ⟨rfl, htail⟩ := List.cons.inj hops
        simp only [runOps, hk', Option.bind_some] at hrun
        exact h.notBlocked pre post k'' htail hrun

/-- From a free lock, a sequence of operations keeps the balance exactly when every poll in
it gets its mask and gathers all CPUs in time. The second wait may time out. -/
theorem operations_balanced_iff_clean {k : Kernel}
    (hconc : cfg.concurrentInstructedProfile = true) (hstrict : cfg.strictPollingSync = true)
    (hfree : k.lockHeld = false) (ops : List Operation) :
    OperationsBalanced cfg true ops k ↔ ∀ o ∈ ops, o.Clean := by
  induction ops generalizing k with
  | nil =>
    refine ⟨fun _ => by simp, fun _ => ⟨?_, ?_⟩⟩
    · intro pre o post k' hops
      simp at hops
    · intro pre post k' hops hrun
      obtain ⟨rfl, rfl⟩ := List.append_eq_nil_iff.mp hops.symm
      obtain rfl := Option.some.inj hrun
      exact ⟨⟨.logOp, ⟨true, .reached, .reached⟩⟩, runOp_isSome_of_free hconc hfree _⟩
  | cons o rest ih =>
    have hone := runOp_balanced_iff hconc hstrict hfree o
    rw [operationsBalanced_cons hconc hfree, List.forall_mem_cons, ← hone]
    constructor
    · rintro ⟨k', hk', hbal, hrest⟩
      exact ⟨⟨k', hk', hbal⟩, (ih hbal.lock).mp hrest⟩
    · rintro ⟨⟨k', hk', hbal⟩, hrest⟩
      exact ⟨k', hk', hbal, (ih hbal.lock).mpr hrest⟩

/-- Strict synchronisation with concurrent instructed profiling. -/
def lockingConfig : Config :=
  { twoCpuConfig with strictPollingSync := true, concurrentInstructedProfile := true }

/-- A poll whose CPUs are not ready within 200 ms returns with the lock held and preemption
off; no operation gets past the lock after that. -/
theorem ready_timeout_keeps_lock :
    ¬ OperationsBalanced lockingConfig true [⟨.pollOp, ⟨true, .timedOut, .reached⟩⟩]
      ⟨false, 0, 0⟩ ∧
    ∃ k, runOps lockingConfig true [⟨.pollOp, ⟨true, .timedOut, .reached⟩⟩] ⟨false, 0, 0⟩ = some k ∧
      k.lockHeld = true ∧ k.preemptCount = 1 ∧
      ∀ o, runOp lockingConfig true o k = none := by
  constructor
  · intro hbalanced
    obtain ⟨k, hk, hbal⟩ := hbalanced.returns [] _ [] ⟨false, 0, 0⟩ rfl rfl
    have hexit : k = ⟨true, 1, 0⟩ := (Option.some.inj hk).symm
    have hlock := hbal.lock
    rw [hexit] at hlock
    cases hlock
  · refine ⟨⟨true, 1, 0⟩, by decide, rfl, rfl, ?_⟩
    exact runOp_of_held rfl rfl

/-- Only the second wait times out. -/
theorem done_timeout_balanced :
    OperationsBalanced lockingConfig true
      [⟨.pollOp, ⟨true, .reached, .timedOut⟩⟩, ⟨.pollAndLog, ⟨true, .reached, .reached⟩⟩]
      ⟨false, 0, 0⟩ :=
  (operations_balanced_iff_clean rfl rfl rfl _).mpr (by decide)

end LockBalance
