import Mathlib.Data.List.Nodup
import Hiresperf.LogEntry

/-!
# Compile-time configuration and CPU masks

The macros of `config.h` that the modelled code tests, and the kernel's masks.
A mask is a predicate on CPU numbers, and every loop over one goes through the
numbers below `nrCpus` in increasing order.
-/

namespace CpuSelection

open LogEntry

/-- `config.h`. `selectionMask` is bit `c` of `hrp_pmc_cpu_selection_mask_bits`. -/
structure Config where
  bufferSize : Nat
  loggerCpu : Nat
  pollerCpu : Nat
  strictPollingSync : Bool
  pollPollerCore : Bool
  useRawClock : Bool
  useTsc : Bool
  enableUserSpacePolling : Bool
  concurrentInstructedProfile : Bool
  log : LogFlags
  imcDataAssociatedCore : Nat
  selectionMask : Nat → Bool

/-- The machine the module is loaded on. -/
structure Platform where
  nrCpus : Nat
  online : Nat → Bool

abbrev Cpumask := Nat → Bool

def forEachCpu (p : Platform) (mask : Cpumask) : List Nat := (List.range p.nrCpus).filter mask

def cpumaskWeight (p : Platform) (mask : Cpumask) : Nat := (forEachCpu p mask).length

def cpumaskTestCpu (cpu : Nat) (mask : Cpumask) : Bool := mask cpu

def cpumaskClearCpu (cpu : Nat) (mask : Cpumask) : Cpumask := fun c => c != cpu && mask c

/-- The CPUs on which `smp_call_function_many`, called on `caller`, runs its function:
every online CPU of the mask but the caller. -/
def smpCallFunctionMany (p : Platform) (caller : Nat) (mask : Cpumask) : List Nat :=
  (forEachCpu p mask).filter (fun c => p.online c && c != caller)

def selectionMaskBits : Nat := 256

variable (cfg : Config) (p : Platform)

/-- `hrp_selected_cpus`: cleared, then the 256 bits of the selection mask copied in, as
far as there are CPUs. -/
def hrpSelectedCpus : Cpumask :=
  fun c => decide (c < p.nrCpus) && decide (c < selectionMaskBits) && cfg.selectionMask c

def nCpus : Nat := cpumaskWeight p (hrpSelectedCpus cfg p)

/-- `N_POLLING_CPUS`: the poller CPU is taken off the count when it does not poll. -/
def nPollingCpus : Nat :=
  if cfg.pollPollerCore = false ∧ cpumaskTestCpu cfg.pollerCpu (hrpSelectedCpus cfg p) = true then
    nCpus cfg p - 1
  else nCpus cfg p

/-- The mask that `smp_poll_pmus` hands to `smp_call_function_many`. Under strict
synchronisation it is a copy without the poller CPU, if that does not poll. -/
def pollingMask : Cpumask :=
  if cfg.strictPollingSync = true ∧ cfg.pollPollerCore = false then
    cpumaskClearCpu cfg.pollerCpu (hrpSelectedCpus cfg p)
  else hrpSelectedCpus cfg p

/-- The CPUs that are called for one poll from the poller CPU. -/
def calledCpus : List Nat := smpCallFunctionMany p cfg.pollerCpu (pollingMask cfg p)

/-- The CPUs on which one `smp_poll_pmus` runs `hrperf_poller_func`, the last one
directly if the poller CPU polls. -/
def pollerRuns : List Nat :=
  calledCpus cfg p ++ if cfg.pollPollerCore then [cfg.pollerCpu] else []

/-- The CPUs whose rings `log_for_all_cpus` visits, in order. -/
def logVisits : List Nat := forEachCpu p (hrpSelectedCpus cfg p)

variable {cfg p}

@[simp] theorem mem_forEachCpu {mask : Cpumask} {c : Nat} :
    c ∈ forEachCpu p mask ↔ c < p.nrCpus ∧ mask c = true := by
  simp [forEachCpu]

theorem forEachCpu_nodup (mask : Cpumask) : (forEachCpu p mask).Nodup :=
  List.Nodup.filter _ List.nodup_range

@[simp] theorem mem_smpCallFunctionMany {mask : Cpumask} {caller c : Nat} :
    c ∈ smpCallFunctionMany p caller mask ↔
      (c < p.nrCpus ∧ mask c = true) ∧ p.online c = true ∧ c ≠ caller := by
  simp [smpCallFunctionMany]

theorem hrpSelectedCpus_lt {c : Nat} (h : hrpSelectedCpus cfg p c = true) : c < p.nrCpus := by
  simp only [hrpSelectedCpus, Bool.and_eq_true, decide_eq_true_eq] at h
  exact h.1.1

@[simp] theorem mem_logVisits {c : Nat} : c ∈ logVisits cfg p ↔ hrpSelectedCpus cfg p c = true := by
  rw [logVisits, mem_forEachCpu]
  exact ⟨fun h => h.2, fun h => ⟨hrpSelectedCpus_lt h, h⟩⟩

/-- The called CPUs are the same under both kinds of synchronisation. -/
@[simp] theorem mem_calledCpus {c : Nat} : c ∈ calledCpus cfg p ↔
    hrpSelectedCpus cfg p c = true ∧ p.online c = true ∧ c ≠ cfg.pollerCpu := by
  rw [calledCpus, mem_smpCallFunctionMany, pollingMask]
  split_ifs
  · simp only [cpumaskClearCpu, Bool.and_eq_true, bne_iff_ne]
    exact ⟨fun h => ⟨h.1.2.2, h.2⟩, fun h => ⟨⟨hrpSelectedCpus_lt h.1, h.2.2, h.1⟩, h.2⟩⟩
  · exact ⟨fun h => ⟨h.1.2, h.2⟩, fun h => ⟨⟨hrpSelectedCpus_lt h.1, h.1⟩, h.2⟩⟩

@[simp] theorem mem_pollerRuns {c : Nat} : c ∈ pollerRuns cfg p ↔
    (hrpSelectedCpus cfg p c = true ∧ p.online c = true ∧ c ≠ cfg.pollerCpu) ∨
      (cfg.pollPollerCore = true ∧ c = cfg.pollerCpu) := by
  rw [pollerRuns, List.mem_append, mem_calledCpus]
  split_ifs with h <;> simp [h]

theorem pollerRuns_nodup : (pollerRuns cfg p).Nodup := by
  have hcalled : (calledCpus cfg p).Nodup := (forEachCpu_nodup _).filter _
  rw [pollerRuns]
  split_ifs
  · apply hcalled.append (List.nodup_singleton _)
    rw [List.disjoint_singleton, mem_calledCpus]
    exact fun h => h.2.2 rfl
  · simpa using hcalled

theorem logVisits_nodup : (logVisits cfg p).Nodup := forEachCpu_nodup _

/-- Every CPU that runs the handler is logged, if a poller CPU that polls is selected. -/
theorem pollerRuns_subset_logVisits
    (h : cfg.pollPollerCore = true → hrpSelectedCpus cfg p cfg.pollerCpu = true) :
    pollerRuns cfg p ⊆ logVisits cfg p := by
  intro cpu hcpu
  rw [mem_logVisits]
  rcases mem_pollerRuns.mp hcpu with ⟨hsel, -⟩ | ⟨hcore, rfl⟩
  · exact hsel
  · exact h hcore

/-- `N_POLLING_CPUS` is at least the number of CPUs that run the handler. -/
theorem pollerRuns_length_le
    (h : cfg.pollPollerCore = true → hrpSelectedCpus cfg p cfg.pollerCpu = true) :
    (pollerRuns cfg p).length ≤ nPollingCpus cfg p := by
  have hsub := pollerRuns_subset_logVisits h
  rw [nPollingCpus]
  split_ifs with hexcluded
  · -- the poller CPU is selected and does not poll: it is counted on one side only
    obtain ⟨hcore, hsel⟩ := hexcluded
    have hnot : cfg.pollerCpu ∉ pollerRuns cfg p := by
      rw [mem_pollerRuns]
      simp [hcore]
    have hcons : (cfg.pollerCpu :: pollerRuns cfg p).Nodup :=
      List.nodup_cons.mpr ⟨hnot, pollerRuns_nodup⟩
    have hmem : cfg.pollerCpu :: pollerRuns cfg p ⊆ logVisits cfg p :=
      List.cons_subset.mpr ⟨mem_logVisits.mpr hsel, hsub⟩
    have hlen : (pollerRuns cfg p).length + 1 ≤ nCpus cfg p :=
      (List.subperm_of_subset hcons hmem).length_le
    omega
  · exact (List.subperm_of_subset pollerRuns_nodup hsub).length_le

/-- A small configuration for concrete runs: CPU 1 polls CPUs 0 and 2. -/
def twoCpuConfig : Config where
  bufferSize := 3
  loggerCpu := 0
  pollerCpu := 1
  strictPollingSync := false
  pollPollerCore := false
  useRawClock := false
  useTsc := true
  enableUserSpacePolling := false
  concurrentInstructedProfile := false
  log := ⟨false, false, false⟩
  imcDataAssociatedCore := 0
  selectionMask := fun c => c == 0 || c == 2

def fourCpus : Platform := ⟨4, fun _ => true⟩

end CpuSelection
