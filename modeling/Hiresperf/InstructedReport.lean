import Hiresperf.InstructedMode
import Hiresperf.LogReaders
import Hiresperf.PollDifferences

/-!
# From the polls of a run to the numbers of a report

A client in instructed mode polls and logs. The module keeps the samples in its
rings, appends them to the log file, and the parsers read the file back. Which
polls reach the file depends on the order of the ioctls and on the size of the
rings only, so that every CPU loses the same polls. What the parsers then report
are differences of the readings at these polls.
-/

namespace InstructedReport

open CircularWindow CpuSelection InstructedMode InstructedWork LogEntry LogParsing LogReaders
  PollDifferences PollerSample

variable {cfg : Config} {p : Platform}

/-! ## The polls that reach the file -/

/-- The polls whose samples wait in the rings, and those whose samples are in the file. -/
structure PollHistory (cfg : Config) where
  waiting : List (ProfileRequest cfg)
  logged : List (ProfileRequest cfg)

namespace PollHistory

def empty : PollHistory cfg := ⟨[], []⟩

def poll (h : PollHistory cfg) (q : ProfileRequest cfg) : PollHistory cfg :=
  if h.waiting.length < cfg.bufferSize - 1 then { h with waiting := h.waiting ++ [q] } else h

def log (h : PollHistory cfg) : PollHistory cfg := ⟨[], h.logged ++ h.waiting⟩

def serve (h : PollHistory cfg) (q : ProfileRequest cfg) : PollHistory cfg :=
  match q.op with
  | .pollOp => h.poll q
  | .logOp => h.log
  | .pollAndLog => (h.poll q).log

def serveAll (requests : List (ProfileRequest cfg)) (h : PollHistory cfg) : PollHistory cfg :=
  requests.foldl serve h

end PollHistory

def pollsOf (requests : List (ProfileRequest cfg)) : List (ProfileRequest cfg) :=
  requests.filter fun q => q.op != .logOp

/-- No poll finds the rings full, and a log pass follows the last one. -/
def Lossless (cap : Nat) : Nat → List InstructedOp → Prop
  | waiting, [] => waiting = 0
  | waiting, .pollOp :: rest => waiting < cap ∧ Lossless cap (waiting + 1) rest
  | _, .logOp :: rest => Lossless cap 0 rest
  | waiting, .pollAndLog :: rest => waiting < cap ∧ Lossless cap 0 rest

theorem PollHistory.serveAll_sublist (requests : List (ProfileRequest cfg)) (h : PollHistory cfg) :
    ((h.serveAll requests).logged ++ (h.serveAll requests).waiting).Sublist
      (h.logged ++ h.waiting ++ pollsOf requests) := by
  induction requests generalizing h with
  | nil => simp [serveAll, pollsOf]
  | cons q rest ih =>
    have hstep : ((h.serve q).logged ++ (h.serve q).waiting).Sublist
        (h.logged ++ h.waiting ++ pollsOf [q]) := by
      cases hop : q.op with
      | pollOp =>
        simp only [serve, hop, poll, pollsOf]
        split_ifs <;> simp [hop]
      | logOp => simp [serve, hop, log, pollsOf]
      | pollAndLog =>
        simp only [serve, hop, poll, log, pollsOf]
        split_ifs <;> simp [hop]
    have hsplit : pollsOf (q :: rest) = pollsOf [q] ++ pollsOf rest := by
      rw [pollsOf, ← List.singleton_append, List.filter_append]
      rfl
    rw [hsplit, ← List.append_assoc]
    exact (ih (h.serve q)).trans (hstep.append_right _)

/-- What is in the file are all polls exactly if no ring was full and the last samples were
logged. -/
theorem PollHistory.logged_eq_iff (requests : List (ProfileRequest cfg)) (h : PollHistory cfg) :
    (h.serveAll requests).logged = h.logged ++ h.waiting ++ pollsOf requests ↔
      Lossless (cfg.bufferSize - 1) h.waiting.length (requests.map fun q => q.op) := by
  induction requests generalizing h with
  | nil => simp [serveAll, pollsOf, Lossless]
  | cons q rest ih =>
    have hrun : h.serveAll (q :: rest) = (h.serve q).serveAll rest := rfl
    -- a poll that finds the rings full is missing for good
    have hfull : ∀ h' : PollHistory cfg, h'.logged ++ h'.waiting = h.logged ++ h.waiting →
        q.op ≠ .logOp →
        (h'.serveAll rest).logged ≠ h.logged ++ h.waiting ++ pollsOf (q :: rest) := by
      intro h' hsame hop heq
      have hle := ((List.sublist_append_left _ _).trans
        (PollHistory.serveAll_sublist rest h')).length_le
      rw [heq, hsame] at hle
      simp only [pollsOf, List.length_append, List.filter_cons, bne_iff_ne, ne_eq, hop,
        not_false_eq_true, if_true, List.length_cons] at hle
      omega
    rw [hrun]
    cases hop : q.op with
    | pollOp =>
      by_cases hroom : h.waiting.length < cfg.bufferSize - 1
      · have := ih (h.serve q)
        simp only [serve, hop, poll, hroom, if_true, List.length_append, List.length_singleton]
          at this ⊢
        simpa [Lossless, hop, hroom, pollsOf] using this
      · simpa [serve, hop, poll, hroom, Lossless] using hfull h rfl (by simp [hop])
    | logOp =>
      have := ih (h.serve q)
      simp only [serve, hop, log] at this ⊢
      simpa [Lossless, hop, pollsOf] using this
    | pollAndLog =>
      by_cases hroom : h.waiting.length < cfg.bufferSize - 1
      · have := ih (h.serve q)
        simp only [serve, hop, poll, log, hroom, if_true] at this ⊢
        simpa [Lossless, hop, hroom, pollsOf] using this
      · simpa [serve, hop, poll, hroom, Lossless] using hfull h.log (by simp [log]) (by simp [hop])

/-! ## The entries of the file -/

/-- The CPUs that a poll samples. -/
def Polled (cfg : Config) (p : Platform) (cpu : Nat) : Prop :=
  hrpSelectedCpus cfg p cpu = true ∧ cpu ≠ cfg.pollerCpu

instance (cpu : Nat) : Decidable (Polled cfg p cpu) :=
  inferInstanceAs (Decidable (_ ∧ _))

def sampleOf (cpu : Nat) (q : ProfileRequest cfg) : HrperfLogEntry cfg.log :=
  sample cfg cpu (takeKts cfg q.clocks) (q.readings cpu)

/-- The entries of every polled CPU are its samples at these polls, and there are no others. -/
structure IsLogOf (p : Platform) (polls : List (ProfileRequest cfg))
    (entries : List (HrperfLogEntry cfg.log)) : Prop where
  own : ∀ cpu, Polled cfg p cpu →
    (entries.filter fun e => e.cpuId == BitVec.ofNat 32 cpu) = polls.map (sampleOf cpu)
  polled : ∀ e ∈ entries, ∃ cpu, Polled cfg p cpu ∧ ∃ q ∈ polls, e = sampleOf cpu q

/-- The queues of the reference machine hold the samples of the polls that wait, and its file
those of the polls that were logged. -/
structure Follows (p : Platform) (pad : UInt8) (r : Reference cfg) (h : PollHistory cfg) :
    Prop where
  waiting : ∀ cpu, Polled cfg p cpu → (r.fifo cpu).items = h.waiting.map (sampleOf cpu)
  others : ∀ cpu, ¬ Polled cfg p cpu → (r.fifo cpu).items = []
  file : ∃ entries, r.file = entries.flatMap (HrperfLogEntry.toBytes pad) ∧
    IsLogOf p h.logged entries

theorem Polled.lt {cpu : Nat} (h : Polled cfg p cpu) : cpu < 256 := by
  have hsel := h.1
  simp only [hrpSelectedCpus, Bool.and_eq_true, decide_eq_true_eq] at hsel
  exact hsel.1.2

/-- CPU numbers fit in the 32 bits of an entry. -/
theorem Polled.eq_of_ofNat {cpu other : Nat} (h : Polled cfg p cpu) (h' : Polled cfg p other)
    (heq : BitVec.ofNat 32 cpu = BitVec.ofNat 32 other) : cpu = other := by
  have hnat := congrArg BitVec.toNat heq
  have hlt := h.lt
  have hlt' := h'.lt
  rw [BitVec.toNat_ofNat, BitVec.toNat_ofNat, Nat.mod_eq_of_lt (by omega),
    Nat.mod_eq_of_lt (by omega)] at hnat
  exact hnat

@[simp] theorem sampleOf_cpuId (cpu : Nat) (q : ProfileRequest cfg) :
    (sampleOf cpu q).cpuId = BitVec.ofNat 32 cpu := rfl

/-- What a filter on the name of one block leaves of a concatenation of blocks. -/
theorem filter_flatMap_block {B K : Type} [DecidableEq K] (block : Nat → List B) (key : B → K)
    (name : Nat → K) {l : List Nat} (hnodup : l.Nodup)
    (hkey : ∀ c ∈ l, ∀ b ∈ block c, key b = name c)
    {c : Nat} (hc : c ∈ l) (hname : ∀ d ∈ l, block d ≠ [] → name d = name c → d = c) :
    ((l.flatMap block).filter fun b => key b == name c) = block c := by
  induction l with
  | nil => cases hc
  | cons first rest ih =>
    obtain ⟨hfirst, hrest⟩ := List.nodup_cons.mp hnodup
    have hkeep : ∀ d ∈ first :: rest, d ≠ c → ((block d).filter fun b => key b == name c) = [] := by
      intro d hd hne
      rw [List.filter_eq_nil_iff]
      intro b hb hmatch
      have hblock : block d ≠ [] := List.ne_nil_of_mem hb
      exact hne (hname d hd hblock ((hkey d hd b hb).symm.trans (beq_iff_eq.mp hmatch)))
    have hself : ((block c).filter fun b => key b == name c) = block c := by
      rw [List.filter_eq_self]
      intro b hb
      rw [beq_iff_eq]
      exact hkey c hc b hb
    rw [List.flatMap_cons, List.filter_append]
    rcases List.mem_cons.mp hc with rfl | hmem
    · -- the blocks after its own one have other names
      have hnone : ((rest.flatMap block).filter fun b => key b == name c) = [] := by
        rw [List.filter_flatMap, List.flatMap_eq_nil_iff]
        intro d hd
        exact hkeep d (List.mem_cons_of_mem _ hd) fun heq => hfirst (heq ▸ hd)
      rw [hself, hnone, List.append_nil]
    · have hne : first ≠ c := fun heq => hfirst (heq ▸ hmem)
      rw [hkeep first List.mem_cons_self hne, List.nil_append]
      exact ih hrest (fun d hd => hkey d (List.mem_cons_of_mem _ hd)) hmem
        fun d hd => hname d (List.mem_cons_of_mem _ hd)

section Steps

variable {pad : UInt8} {r : Reference cfg} {h : PollHistory cfg}

theorem poll_fifo (r : Reference cfg) (q : ProfileRequest cfg) (cpu : Nat) :
    (r.poll p q).fifo cpu =
      if Polled cfg p cpu then (r.fifo cpu).push (sampleOf cpu q) else r.fifo cpu := rfl

theorem Follows.poll (hf : Follows p pad r h) (q : ProfileRequest cfg) :
    Follows p pad (r.poll p q) (h.poll q) := by
  have hlogged : (h.poll q).logged = h.logged := by
    rw [PollHistory.poll]
    split_ifs <;> rfl
  refine ⟨fun cpu hcpu => ?_, fun cpu hcpu => ?_, ?_⟩
  · -- every queue has as many samples as there are polls that wait
    have hitems := hf.waiting cpu hcpu
    rw [poll_fifo, if_pos hcpu, BoundedFifo.push_items, hitems, List.length_map, PollHistory.poll]
    split_ifs
    · rw [List.map_append, List.map_singleton]
    · rfl
  · rw [poll_fifo, if_neg hcpu]
    exact hf.others cpu hcpu
  · rw [hlogged]
    exact hf.file

theorem Follows.log (hf : Follows p pad r h) : Follows p pad (r.log p pad) h.log := by
  have hitems : ∀ cpu, ∀ e ∈ (r.fifo cpu).items,
      Polled cfg p cpu ∧ ∃ q ∈ h.waiting, e = sampleOf cpu q := by
    intro cpu e he
    by_cases hcpu : Polled cfg p cpu
    · rw [hf.waiting cpu hcpu] at he
      obtain ⟨q, hq, rfl⟩ := List.mem_map.mp he
      exact ⟨hcpu, q, hq, rfl⟩
    · rw [hf.others cpu hcpu] at he
      cases he
  refine ⟨fun cpu hcpu => ?_, fun cpu hcpu => ?_, ?_⟩
  · simp [Reference.log, hcpu.1, PollHistory.log, BoundedFifo.empty]
  · simp only [Reference.log]
    split_ifs
    · rfl
    · exact hf.others cpu hcpu
  · obtain ⟨entries, hfile, hlog⟩ := hf.file
    refine ⟨entries ++ (logVisits cfg p).flatMap fun cpu => (r.fifo cpu).items, ?_, ?_, ?_⟩
    · rw [Reference.log, hfile, List.flatMap_append, List.flatMap_assoc]
      rfl
    · intro cpu hcpu
      have hblock := filter_flatMap_block (fun cpu => (r.fifo cpu).items)
        (fun e : HrperfLogEntry cfg.log => e.cpuId) (fun cpu => BitVec.ofNat 32 cpu)
        (forEachCpu_nodup (p := p) (hrpSelectedCpus cfg p)) ?_ (mem_logVisits.mpr hcpu.1) ?_
      · rw [List.filter_append, hlog.own cpu hcpu, logVisits, hblock, hf.waiting cpu hcpu,
          PollHistory.log, List.map_append]
      · rintro c - e he
        obtain ⟨-, q, -, rfl⟩ := hitems c e he
        rfl
      · intro d _ hne heq
        obtain ⟨e, he⟩ := List.exists_mem_of_ne_nil _ hne
        exact (hitems d e he).1.eq_of_ofNat hcpu heq
    · intro e he
      rcases List.mem_append.mp he with hold | hnew
      · obtain ⟨cpu, hcpu, q, hq, rfl⟩ := hlog.polled e hold
        exact ⟨cpu, hcpu, q, List.mem_append_left _ hq, rfl⟩
      · obtain ⟨cpu, -, hmem⟩ := List.mem_flatMap.mp hnew
        obtain ⟨hcpu, q, hq, rfl⟩ := hitems cpu e hmem
        exact ⟨cpu, hcpu, q, List.mem_append_right _ hq, rfl⟩

theorem Follows.serve (hf : Follows p pad r h) (q : ProfileRequest cfg) :
    Follows p pad (r.serve p pad q) (h.serve q) := by
  cases hop : q.op with
  | pollOp => simpa only [Reference.serve, PollHistory.serve, hop] using hf.poll q
  | logOp => simpa only [Reference.serve, PollHistory.serve, hop] using hf.log
  | pollAndLog => simpa only [Reference.serve, PollHistory.serve, hop] using (hf.poll q).log

theorem Follows.serveAll (hf : Follows p pad r h) (requests : List (ProfileRequest cfg)) :
    Follows p pad (r.serveAll p pad requests) (h.serveAll requests) := by
  induction requests generalizing r h with
  | nil => exact hf
  | cons q rest ih => exact ih (hf.serve q)

end Steps

theorem follows_init (pad : UInt8) : Follows p pad (Reference.init : Reference cfg) .empty where
  waiting := fun _ _ => rfl
  others := fun _ _ => rfl
  file := ⟨[], rfl, fun _ _ => rfl, fun _ he => absurd he List.not_mem_nil⟩

/-- The polls of a run that reach the file. -/
def loggedPolls (ioctls : List (Ioctl cfg p)) : List (ProfileRequest cfg) :=
  (PollHistory.empty.serveAll (ioctls.map Ioctl.toProfileRequest)).logged

theorem file_of_run (hset : Setting cfg p) (cells : Nat → Nat → HrperfLogEntry cfg.log)
    (pad : UInt8)
    (ioctls : List (Ioctl cfg p)) :
    ∃ entries, (runIoctls ⟨true, true⟩ pad ioctls (.init hset cells)).file =
        entries.flatMap (HrperfLogEntry.toBytes pad) ∧
      IsLogOf p (loggedPolls ioctls) entries := by
  have hsim := runIoctls_simulates hset pad ioctls (init_simulates hset cells)
  rw [hsim.file]
  exact ((follows_init pad).serveAll _).file

/-! ## The differences of `parse_hrp.py` -/

/-- A 64-bit column of a record. -/
def column (record : List (String × NpValue)) (name : String) : BitVec 64 :=
  match record.lookup name with
  | some (.uint64 v) => v
  | _ => 0

def cpuColumn (record : List (String × NpValue)) : BitVec 32 :=
  match record.lookup "cpu_id" with
  | some (.int32 v) => v
  | _ => 0

/-- A record as a row of the frame, with the names that a reader has for the four counters. -/
def rowOf (names : CoreNames) (record : List (String × NpValue)) : Row where
  cpuId := cpuColumn record
  timestamp := column record "timestamp"
  value
    | .stallMem => column record names.c3
    | .instRetire => column record "inst_retire"
    | .stallsSb => column record names.c4
    | .cpuUnhalt => column record "cpu_unhalt"
    | .llcMisses => column record names.c1
    | .swPrefetch => column record names.c2

/-- The frame of `parse_hrp.py` with the flags that the module was compiled with. -/
def parsedRows (cfg : Config) (file : List UInt8) : List Row :=
  (readLogsToNumpy cfg.log.logImc cfg.log.useRdt cfg.log.rdtIncludeLocalBw file).map
    (rowOf defaultNames)

/-- What a CPU reads of each counter. -/
def reading (c : Counter) (cpu : Nat) (q : ProfileRequest cfg) : BitVec 64 :=
  match c with
  | .stallMem => (q.readings cpu).pmc2
  | .instRetire => (q.readings cpu).fixedCtr0
  | .stallsSb => (q.readings cpu).pmc3
  | .cpuUnhalt => (q.readings cpu).fixedCtr1
  | .llcMisses => (q.readings cpu).pmc0
  | .swPrefetch => (q.readings cpu).pmc1

def pollTime (q : ProfileRequest cfg) : BitVec 64 := takeKts cfg q.clocks

/-- The row of a CPU at a poll. -/
def sampleRow (cpu : Nat) (q : ProfileRequest cfg) : Row where
  cpuId := BitVec.ofNat 32 cpu
  timestamp := pollTime q
  value c := reading c cpu q

/-- Every poll of the run has a later time than the polls before it. -/
def TimesIncrease (polls : List (ProfileRequest cfg)) : Prop :=
  polls.Pairwise fun a b => (pollTime a).toNat < (pollTime b).toNat

theorem rowOf_named (cpu : Nat) (q : ProfileRequest cfg) :
    rowOf defaultNames (sampleOf cpu q).named = sampleRow cpu q := by
  rw [rowOf, sampleRow, Row.mk.injEq]
  refine ⟨rfl, rfl, funext fun c => ?_⟩
  cases c <;> rfl

theorem loggedPolls_sublist (ioctls : List (Ioctl cfg p)) :
    (loggedPolls ioctls).Sublist (pollsOf (ioctls.map Ioctl.toProfileRequest)) :=
  (List.sublist_append_left _ _).trans (PollHistory.serveAll_sublist _ .empty)

section Entries

variable {polls : List (ProfileRequest cfg)} {entries : List (HrperfLogEntry cfg.log)}

/-- The rows of the entries, under whatever names they are read. -/
def entryRow (e : HrperfLogEntry cfg.log) : Row := rowOf defaultNames e.named

theorem IsLogOf.recordsOf_eq (h : IsLogOf p polls entries) {cpu : Nat} (hcpu : Polled cfg p cpu) :
    recordsOf (BitVec.ofNat 32 cpu) (entries.map entryRow) = polls.map (sampleRow cpu) := by
  have hown := h.own cpu hcpu
  have hcpuId : ((fun row : Row => row.cpuId == BitVec.ofNat 32 cpu) ∘ entryRow) =
      fun e : HrperfLogEntry cfg.log => e.cpuId == BitVec.ofNat 32 cpu := rfl
  rw [recordsOf, List.filter_map, hcpuId, hown, List.map_map]
  apply List.map_congr_left
  intro q _
  exact rowOf_named cpu q

theorem IsLogOf.mem_rows (h : IsLogOf p polls entries) {row : Row} :
    row ∈ entries.map entryRow ↔ ∃ cpu, Polled cfg p cpu ∧ ∃ q ∈ polls, row = sampleRow cpu q := by
  constructor
  · intro hrow
    obtain ⟨e, he, rfl⟩ := List.mem_map.mp hrow
    obtain ⟨cpu, hcpu, q, hq, rfl⟩ := h.polled e he
    exact ⟨cpu, hcpu, q, hq, rowOf_named cpu q⟩
  · rintro ⟨cpu, hcpu, q, hq, rfl⟩
    have hrecord : sampleRow cpu q ∈ recordsOf (BitVec.ofNat 32 cpu) (entries.map entryRow) := by
      rw [h.recordsOf_eq hcpu]
      exact List.mem_map_of_mem hq
    exact (List.mem_filter.mp hrecord).1

end Entries

/-- The records of a run with which `parse_hrp.py` works are the readings at the logged polls,
and its differences are those between one logged poll and the next. -/
theorem parsed_run_is_polled (hset : Setting cfg p) (cells : Nat → Nat → HrperfLogEntry cfg.log)
    (pad : UInt8) (ioctls : List (Ioctl cfg p))
    (htimes : TimesIncrease (pollsOf (ioctls.map Ioctl.toProfileRequest))) :
    (∀ cpu, Polled cfg p cpu → diffsOf (BitVec.ofNat 32 cpu)
        (parsedRows cfg (runIoctls ⟨true, true⟩ pad ioctls (.init hset cells)).file) =
          (consecutive (loggedPolls ioctls)).map fun polls =>
            diffRow (sampleRow cpu polls.1) (sampleRow cpu polls.2)) ∧
      (∀ d ∈ logDiffs none
          (parsedRows cfg (runIoctls ⟨true, true⟩ pad ioctls (.init hset cells)).file),
        ∃ cpu, Polled cfg p cpu ∧ d.cpuId = BitVec.ofNat 32 cpu) ∧
      (loggedPolls ioctls = pollsOf (ioctls.map Ioctl.toProfileRequest) ↔
        Lossless (cfg.bufferSize - 1) 0 (ioctls.map fun i => i.op)) := by
  obtain ⟨entries, hfile, hlog⟩ := file_of_run hset cells pad ioctls
  have hrows : parsedRows cfg (runIoctls ⟨true, true⟩ pad ioctls (.init hset cells)).file =
      entries.map entryRow := by
    have hnone : ([] : List UInt8).length < sizeofLogEntry cfg.log := sizeofLogEntry_pos cfg.log
    have hread := fromfile_toBytes pad entries hnone
    rw [List.append_nil] at hread
    rw [parsedRows, hfile, readLogsToNumpy, hread, List.map_map]
    rfl
  have hincreasing : TimesIncrease (loggedPolls ioctls) :=
    htimes.sublist (loggedPolls_sublist ioctls)
  rw [hrows]
  refine ⟨fun cpu hcpu => ?_, fun d hd => ?_, ?_⟩
  · have hown := hlog.recordsOf_eq hcpu
    have hsorted : (recordsOf (BitVec.ofNat 32 cpu) (entries.map entryRow)).Pairwise
        fun a b => a.timestamp.toNat < b.timestamp.toNat := by
      rw [hown, List.pairwise_map]
      exact hincreasing
    have hdiffs := logDiffs_of_cpu (Or.inl rfl) hsorted
    rw [diffsOf, hdiffs]
    change (consecutive (recordsOf _ _)).map _ = _
    rw [hown, consecutive, ← List.map_tail, List.zip_map, List.map_map]
    rfl
  · obtain ⟨row, hrow, hcpuId⟩ := exists_row_of_mem_logDiffs hd
    obtain ⟨cpu, hcpu, q, -, rfl⟩ := hlog.mem_rows.mp hrow
    exact ⟨cpu, hcpu, hcpuId.symm⟩
  · have hiff := PollHistory.logged_eq_iff (ioctls.map Ioctl.toProfileRequest) .empty
    simpa [PollHistory.empty, loggedPolls, Function.comp_def] using hiff

/-- Three polls, a log pass, and a poll with its own log pass. -/
def overflowingRun : List (Ioctl smallConfig fourCpus) :=
  [smallIoctl .pollOp 1, smallIoctl .pollOp 2, smallIoctl .pollOp 3, smallIoctl .logOp 4,
    smallIoctl .pollAndLog 5]

/-- The rings hold two samples, so that the third poll is missing on every CPU, and the
difference after it covers the time since the second one. -/
theorem overflowing_run_parsed :
    TimesIncrease (pollsOf (overflowingRun.map Ioctl.toProfileRequest)) ∧
    ∀ cells : Nat → Nat → HrperfLogEntry smallConfig.log,
      ((diffsOf 2 (parsedRows smallConfig (runIoctls ⟨true, true⟩ 0 overflowingRun
        (.init smallSetting cells)).file)).map fun d =>
          (d.timestamp, d.timeDelta, d.diff .llcMisses)) =
          [(2, 1, 1), (5, 3, 3)] := by
  have htimes : TimesIncrease (pollsOf (overflowingRun.map Ioctl.toProfileRequest)) := by
    unfold TimesIncrease
    decide
  refine ⟨htimes, fun cells => ?_⟩
  have hdiffs := (parsed_run_is_polled smallSetting cells 0 overflowingRun htimes).1 2 (by decide)
  rw [show (2 : BitVec 32) = BitVec.ofNat 32 2 from rfl, hdiffs]
  decide

/-! ## The report of `parse_hrp_instructed_by_step.py` -/

/-- An entry without RDT members under the names of the reader by step. -/
def byStepNamed (names : CoreNames) (e : HrperfLogEntry cfg.log) : List (String × NpValue) :=
  [("cpu_id", .int32 e.cpuId), ("timestamp", .uint64 e.tick.kts),
    (names.c3, .uint64 e.tick.stallMem), ("inst_retire", .uint64 e.tick.instRetire),
    (names.c4, .uint64 e.tick.stallsSb), ("cpu_unhalt", .uint64 e.tick.cpuUnhalt),
    (names.c1, .uint64 e.tick.llcMisses), (names.c2, .uint64 e.tick.swPrefetch)] ++
  e.tick.imcReads.named "imc_read" ++ e.tick.imcWrites.named "imc_write"

def byStepRow (names : CoreNames) (record : List (String × NpValue)) : PollRow where
  row := rowOf names record
  imcRead := column record "imc_read"
  imcWrite := column record "imc_write"

/-- `read_into_df`. -/
def readIntoDf (args : CounterArgs) (useImc : Bool) (file : List UInt8) : List PollRow :=
  (byStepReadLogs args useImc file).map (byStepRow (byStepCoreName args))

/-- Only one core reports the counters of the memory controllers. -/
def imcOf (cfg : Config) (cpu : Nat) (v : BitVec 64) : BitVec 64 :=
  if cfg.log.logImc = true ∧ cpu = cfg.imcDataAssociatedCore then v else 0

def pollRow (cpu : Nat) (q : ProfileRequest cfg) : PollRow where
  row := sampleRow cpu q
  imcRead := imcOf cfg cpu (q.readings cpu).imcReads
  imcWrite := imcOf cfg cpu (q.readings cpu).imcWrites

def polledCpus (cfg : Config) (p : Platform) : Finset Nat :=
  (Finset.range p.nrCpus).filter (Polled cfg p)

/-- The memory controllers between two polls, if the CPU that is asked for reports them. -/
def imcIncrease (args : Args) (cfg : Config) (p : Platform) (a b : Nat → BitVec 64) : Int :=
  if args.useImc = true ∧ Polled cfg p cfg.imcDataAssociatedCore ∧
      args.cpuStoreImc = BitVec.ofNat 32 cfg.imcDataAssociatedCore then
    (b cfg.imcDataAssociatedCore).toNat - (a cfg.imcDataAssociatedCore).toNat
  else 0

/-- What happened between two polls, over all CPUs that are polled. -/
def stepReport (args : Args) (p : Platform) (a b : ProfileRequest cfg) : TimeRangeData where
  durationMs := ((pollTime b - pollTime a).toNat : ℚ) / args.tscFreq / 1000
  diff c := (∑ cpu ∈ polledCpus cfg p, (reading c cpu b - reading c cpu a)).toNat
  imcReadDiff := imcIncrease args cfg p (fun cpu => (a.readings cpu).imcReads)
    fun cpu => (b.readings cpu).imcReads
  imcWriteDiff := imcIncrease args cfg p (fun cpu => (a.readings cpu).imcWrites)
    fun cpu => (b.readings cpu).imcWrites
  startTs := (pollTime a).toNat
  endTs := (pollTime b).toNat

theorem Field.named_of_absent {present : Bool} (name : String) (f : Field present)
    (h : present = false) : f.named name = [] := by
  obtain ⟨v, hv⟩ := f
  rw [h, Option.isSome_eq_false_iff, Option.isNone_iff_eq_none] at hv
  simp [Field.named, hv]

theorem Field.getD_of (present : Bool) (v : BitVec 64) :
    (Field.of present v).val.getD 0 = if present then v else 0 := by
  cases present <;> rfl

section ByStep

variable (names : CoreNames) (counterArgs : CounterArgs) (hrdt : cfg.log.useRdt = false)

theorem byStepNamed_types (e : HrperfLogEntry cfg.log) :
    (byStepNamed names e).map (fun f => (f.1, f.2.type)) = byStepDtype names cfg.log.logImc := by
  simp only [byStepNamed, List.map_append, Field.named_types, byStepDtype, imcFields]
  cases cfg.log.logImc <;> rfl

include hrdt in
theorem byStepNamed_bytes (pad : UInt8) (e : HrperfLogEntry cfg.log) :
    e.toBytes pad = (byStepNamed names e).flatMap fun f => f.2.bytes := by
  have hlocal : (cfg.log.useRdt && cfg.log.rdtIncludeLocalBw) = false := by
    rw [hrdt, Bool.false_and]
  rw [e.toBytes_eq, HrperfLogEntry.named, Field.named_of_absent "total_bw" _ hrdt,
    Field.named_of_absent "local_bw" _ hlocal, Field.named_of_absent "occupancy" _ hrdt,
    List.append_nil, List.append_nil, List.append_nil]
  simp [HrperfLogEntry.baseNamed, byStepNamed]

include hrdt in
theorem itemsize_byStepDtype :
    (byStepDtype names cfg.log.logImc).itemsize = sizeofLogEntry cfg.log := by
  rw [sizeofLogEntry, hrdt]
  cases cfg.log.logImc <;> rfl

include hrdt in
/-- The checks of the file size only ever reject a file without records. -/
theorem byStepReadLogs_toBytes (pad : UInt8) (entries : List (HrperfLogEntry cfg.log)) :
    byStepReadLogs counterArgs cfg.log.logImc (entries.flatMap (HrperfLogEntry.toBytes pad)) =
      entries.map (byStepNamed (byStepCoreName counterArgs)) := by
  have hsize := itemsize_byStepDtype (byStepCoreName counterArgs) hrdt
  have hpos := sizeofLogEntry_pos cfg.log
  have hlen : (entries.flatMap (HrperfLogEntry.toBytes pad)).length =
      entries.length * sizeofLogEntry cfg.log := by
    rw [List.length_flatMap, List.map_congr_left fun e _ => e.length_toBytes pad, List.map_const',
      List.sum_replicate, Nat.nsmul_eq_mul]
  have hnone : ([] : List UInt8).length < sizeofLogEntry cfg.log := hpos
  have hsplit := ByteCodec.splitRecords_flatMap hpos (HrperfLogEntry.length_toBytes pad)
    entries hnone
  rw [List.append_nil] at hsplit
  dsimp only [byStepReadLogs]
  rw [hsize, hlen]
  split_ifs with hempty hpartial
  · have hentries : entries = [] := by
      rw [← List.length_eq_zero_iff]
      rcases Nat.mul_eq_zero.mp hempty with h | h
      · exact h
      · omega
    rw [hentries]
    rfl
  · simp at hpartial
  · rw [fromfile, hsize, hsplit, List.map_map]
    apply List.map_congr_left
    intro e _
    rw [Function.comp_apply, byStepNamed_bytes (byStepCoreName counterArgs) hrdt,
      ← byStepNamed_types]
    exact decodeItem_bytes _

theorem column_imc (e : HrperfLogEntry cfg.log) :
    column (byStepNamed (byStepCoreName counterArgs) e) "imc_read" = e.tick.imcReads.val.getD 0 ∧
      column (byStepNamed (byStepCoreName counterArgs) e) "imc_write" =
        e.tick.imcWrites.val.getD 0 := by
  obtain ⟨offcore, writeEst, hits⟩ := counterArgs
  cases hread : e.tick.imcReads.val <;> cases hwrite : e.tick.imcWrites.val <;>
    simp only [column, byStepNamed, Field.named, hread, hwrite, Option.toList] <;>
    cases offcore <;> cases writeEst <;> cases hits <;> exact ⟨rfl, rfl⟩

theorem byStepRow_named (cpu : Nat) (q : ProfileRequest cfg) :
    byStepRow (byStepCoreName counterArgs)
      (byStepNamed (byStepCoreName counterArgs) (sampleOf cpu q)) =
      pollRow cpu q := by
  have hrow : rowOf (byStepCoreName counterArgs)
      (byStepNamed (byStepCoreName counterArgs) (sampleOf cpu q)) = sampleRow cpu q := by
    obtain ⟨offcore, writeEst, hits⟩ := counterArgs
    rw [rowOf, sampleRow, Row.mk.injEq]
    refine ⟨rfl, rfl, funext fun c => ?_⟩
    cases offcore <;> cases writeEst <;> cases hits <;> cases c <;> rfl
  obtain ⟨hread, hwrite⟩ := column_imc counterArgs (sampleOf cpu q)
  rw [byStepRow, hrow, hread, hwrite]
  simp only [sampleOf, sample, Field.getD_of, pollRow, imcOf, PollRow.mk.injEq, true_and]
  constructor <;> split_ifs <;> simp_all

end ByStep

theorem distinctTimes_of_each {rows : List Row}
    (h : ∀ cpu, ((recordsOf cpu rows).map Row.timestamp).Nodup) : DistinctTimes rows := by
  induction rows with
  | nil => exact List.nodup_nil
  | cons row rest ih =>
    rw [DistinctTimes, List.map_cons, List.nodup_cons]
    constructor
    · intro hmem
      obtain ⟨other, hother, hkey⟩ := List.mem_map.mp hmem
      obtain ⟨hcpu, htime⟩ := Prod.mk.inj hkey
      have hown := h row.cpuId
      simp only [recordsOf, List.filter_cons, beq_self_eq_true, if_true, List.map_cons,
        List.nodup_cons] at hown
      have hrecord : other ∈ rest.filter fun row' => row'.cpuId == row.cpuId :=
        List.mem_filter.mpr ⟨hother, beq_iff_eq.mpr hcpu⟩
      exact hown.1 (htime ▸ List.mem_map_of_mem hrecord)
    · apply ih
      intro cpu
      exact (h cpu).sublist (((List.sublist_cons_self row rest).filter _).map _)

theorem pairUp_map {A B : Type} (f : A → B) (l : List A) :
    pairUp (l.map f) = (pairUp l).map fun ab => (f ab.1, f ab.2) := by
  induction l using pairUp.induct with
  | case1 => rfl
  | case2 a => rfl
  | case3 a b rest ih => simp only [List.map_cons, pairUp, ih]

theorem mapM_eq_some_map {A B : Type} {f : A → Option B} {g : A → B} {l : List A}
    (h : ∀ a ∈ l, f a = some (g a)) : l.mapM f = some (l.map g) := by
  induction l with
  | nil => rfl
  | cons a rest ih =>
    obtain ⟨ha, hrest⟩ := List.forall_mem_cons.mp h
    simp [List.mapM_cons, ha, ih hrest]

section Report

variable {polls : List (ProfileRequest cfg)} {rows : List PollRow}

/-- The rows that a reader has of the logged polls. -/
structure RowsOf (p : Platform) (polls : List (ProfileRequest cfg)) (rows : List PollRow) :
    Prop where
  mem : ∀ row, row ∈ rows ↔ ∃ cpu, Polled cfg p cpu ∧ ∃ q ∈ polls, row = pollRow cpu q
  distinct : DistinctTimes (rows.map PollRow.row)

theorem mem_polledCpus {cpu : Nat} : cpu ∈ polledCpus cfg p ↔ Polled cfg p cpu := by
  rw [polledCpus, Finset.mem_filter, Finset.mem_range]
  exact ⟨fun h => h.2, fun h => ⟨hrpSelectedCpus_lt h.1, h⟩⟩

variable (h : RowsOf p polls rows) (htimes : TimesIncrease polls)
include h

theorem RowsOf.cpusAt_eq {q : ProfileRequest cfg} (hq : q ∈ polls) :
    cpusAt (pollTime q) rows = (polledCpus cfg p).image (BitVec.ofNat 32) := by
  ext cpu
  rw [mem_cpusAt, Finset.mem_image]
  constructor
  · rintro ⟨row, hrow, -, rfl⟩
    obtain ⟨n, hn, q', -, rfl⟩ := (h.mem row).mp hrow
    exact ⟨n, mem_polledCpus.mpr hn, rfl⟩
  · rintro ⟨n, hn, rfl⟩
    exact ⟨pollRow n q, (h.mem _).mpr ⟨n, mem_polledCpus.mp hn, q, hq, rfl⟩, rfl, rfl⟩

theorem RowsOf.columnAt_eq {cpu : Nat} (hcpu : Polled cfg p cpu) {q : ProfileRequest cfg}
    (hq : q ∈ polls) (column : PollRow → BitVec 64) :
    columnAt column (BitVec.ofNat 32 cpu) (pollTime q) rows = column (pollRow cpu q) :=
  PollDifferences.columnAt_eq h.distinct ((h.mem _).mpr ⟨cpu, hcpu, q, hq, rfl⟩) column

/-- The sum over the CPUs of the join is the one over the polled CPUs. -/
theorem RowsOf.sum_eq {a b : ProfileRequest cfg} (ha : a ∈ polls) (hb : b ∈ polls) (c : Counter) :
    ((rangeDiffs (pollTime a) (pollTime b) (rows.map PollRow.row)).map fun d => d.diff c).sum =
      ∑ cpu ∈ polledCpus cfg p, (reading c cpu b - reading c cpu a) := by
  rw [sum_rangeDiffs h.distinct, cpusAtBoth, h.cpusAt_eq ha, h.cpusAt_eq hb, Finset.inter_self,
    Finset.sum_image]
  · apply Finset.sum_congr rfl
    intro cpu hcpu
    rw [increase, h.columnAt_eq (mem_polledCpus.mp hcpu) hb,
      h.columnAt_eq (mem_polledCpus.mp hcpu) ha]
    rfl
  · intro cpu hcpu other hother heq
    exact (mem_polledCpus.mp hcpu).eq_of_ofNat (mem_polledCpus.mp hother) heq

theorem RowsOf.imcDiff_eq {a b : ProfileRequest cfg} (ha : a ∈ polls) (hb : b ∈ polls) (args : Args)
    (himc : args.useImc = cfg.log.logImc) (column : PollRow → BitVec 64)
    (value : ProfileRequest cfg → Nat → BitVec 64)
    (hcolumn : ∀ cpu q, column (pollRow cpu q) = imcOf cfg cpu (value q cpu)) :
    imcDiff args (pollTime a) (pollTime b) rows column =
      imcIncrease args cfg p (value a) (value b) := by
  have hrecords : ∀ cpu, Polled cfg p cpu → ∀ q ∈ polls,
      recordsAt (BitVec.ofNat 32 cpu) (pollTime q) rows = [pollRow cpu q] := by
    intro cpu hcpu q hq
    exact recordsAt_eq h.distinct ((h.mem _).mpr ⟨cpu, hcpu, q, hq, rfl⟩)
  have hnone : (¬ ∃ cpu, Polled cfg p cpu ∧ args.cpuStoreImc = BitVec.ofNat 32 cpu) →
      ∀ t, recordsAt args.cpuStoreImc t rows = [] := by
    intro hstore t
    rw [List.eq_nil_iff_forall_not_mem]
    intro row hrow
    obtain ⟨hmem, -, hcpu⟩ := mem_recordsAt.mp hrow
    obtain ⟨cpu, hpolled, q, -, rfl⟩ := (h.mem row).mp hmem
    exact hstore ⟨cpu, hpolled, hcpu.symm⟩
  rw [imcDiff, imcIncrease]
  cases huse : args.useImc with
  | false => simp
  | true =>
    have hlog : cfg.log.logImc = true := himc ▸ huse
    by_cases hstore : ∃ cpu, Polled cfg p cpu ∧ args.cpuStoreImc = BitVec.ofNat 32 cpu
    · obtain ⟨cpu, hcpu, hstore⟩ := hstore
      rw [hstore, hrecords cpu hcpu a ha, hrecords cpu hcpu b hb]
      simp only [hcolumn, imcOf, hlog, true_and, if_true]
      by_cases hcore : cpu = cfg.imcDataAssociatedCore
      · subst hcore
        simp [hcpu]
      · have hother : ¬ (Polled cfg p cfg.imcDataAssociatedCore ∧
            BitVec.ofNat 32 cpu = BitVec.ofNat 32 cfg.imcDataAssociatedCore) :=
          fun hboth => hcore (hcpu.eq_of_ofNat hboth.1 hboth.2)
        rw [if_neg hcore, if_neg hcore, if_neg hother]
        simp
    · have hother : ¬ (Polled cfg p cfg.imcDataAssociatedCore ∧
          args.cpuStoreImc = BitVec.ofNat 32 cfg.imcDataAssociatedCore) :=
        fun hboth => hstore ⟨_, hboth.1, hboth.2⟩
      rw [hnone hstore, hnone hstore]
      simp [hother]

include htimes

theorem RowsOf.sortedTimestamps_eq (hpolled : ∃ cpu, Polled cfg p cpu) :
    sortedTimestamps rows = polls.map pollTime := by
  have hsorted := sortedTimestamps_increasing rows
  have hmap : (polls.map pollTime).Pairwise fun t u => t.toNat < u.toNat :=
    List.pairwise_map.mpr htimes
  have hne : ∀ {l : List (BitVec 64)}, (l.Pairwise fun t u => t.toNat < u.toNat) → l.Nodup := by
    intro l hl
    apply hl.imp
    intro t u hlt heq
    rw [heq] at hlt
    omega
  have hperm : (sortedTimestamps rows).Perm (polls.map pollTime) := by
    rw [List.perm_ext_iff_of_nodup (hne hsorted) (hne hmap)]
    intro t
    rw [mem_sortedTimestamps, List.mem_map]
    constructor
    · rintro ⟨row, hrow, rfl⟩
      obtain ⟨cpu, -, q, hq, rfl⟩ := (h.mem row).mp hrow
      exact ⟨q, hq, rfl⟩
    · rintro ⟨q, hq, rfl⟩
      obtain ⟨cpu, hcpu⟩ := hpolled
      exact ⟨pollRow cpu q, (h.mem _).mpr ⟨cpu, hcpu, q, hq, rfl⟩, rfl⟩
  apply hperm.eq_of_pairwise _ hsorted hmap
  intro t u _ _ hlt hgt
  omega

theorem RowsOf.report (hpolled : ∃ cpu, Polled cfg p cpu) (args : Args) (hcpu : args.cpuId = none)
    (himc : args.useImc = cfg.log.logImc) :
    parseHrpInstructedProfile args rows =
      some ((pairUp polls).map fun ab => stepReport args p ab.1 ab.2) := by
  have hsorted := h.sortedTimestamps_eq htimes hpolled
  have hranges : getAllTimeRanges rows =
      (pairUp polls).map fun ab => (pollTime ab.1, pollTime ab.2) := by
    rw [getAllTimeRanges_eq, hsorted, pairUp_map]
  have heach : ∀ ab ∈ pairUp polls,
      calcTimeRange args rows (pollTime ab.1, pollTime ab.2) =
        some (stepReport args p ab.1 ab.2) := by
    intro ab hab
    obtain ⟨ha, hb⟩ := mem_of_mem_pairUp hab
    have hrange : (pollTime ab.1, pollTime ab.2) ∈ getAllTimeRanges rows := by
      rw [hranges]
      exact List.mem_map_of_mem hab
    rw [calcTimeRange_of_range args hrange hcpu]
    simp only [h.sum_eq ha hb]
    rw [h.imcDiff_eq ha hb args himc PollRow.imcRead (fun q cpu => (q.readings cpu).imcReads)
        fun _ _ => rfl,
      h.imcDiff_eq ha hb args himc PollRow.imcWrite (fun q cpu => (q.readings cpu).imcWrites)
        fun _ _ => rfl]
    rfl
  have hcount : (uniqueTimestamps rows).length = polls.length := by
    rw [← (sortedTimestamps_perm rows).length_eq, hsorted, List.length_map]
  rw [parseHrpInstructedProfile, hcount, hranges]
  split_ifs with hfew
  · have hempty : pairUp polls = [] := by
      rw [← List.length_eq_zero_iff, length_pairUp]
      omega
    rw [hempty, List.map_nil]
  · rw [List.mapM_map]
    exact mapM_eq_some_map heach

end Report

theorem IsLogOf.distinctTimes {polls : List (ProfileRequest cfg)}
    {entries : List (HrperfLogEntry cfg.log)} (h : IsLogOf p polls entries)
    (htimes : TimesIncrease polls) : DistinctTimes (entries.map entryRow) := by
  apply distinctTimes_of_each
  intro cpu
  by_cases hcpu : ∃ n, Polled cfg p n ∧ BitVec.ofNat 32 n = cpu
  · obtain ⟨n, hn, rfl⟩ := hcpu
    rw [h.recordsOf_eq hn, List.map_map]
    have hdistinct : polls.Pairwise fun a b => pollTime a ≠ pollTime b := by
      apply htimes.imp
      intro a b hlt heq
      rw [heq] at hlt
      omega
    exact List.pairwise_map.mpr hdistinct
  · have hnone : recordsOf cpu (entries.map entryRow) = [] := by
      rw [List.eq_nil_iff_forall_not_mem]
      intro row hrow
      obtain ⟨hmem, hrow⟩ := List.mem_filter.mp hrow
      obtain ⟨n, hn, q, -, rfl⟩ := h.mem_rows.mp hmem
      exact hcpu ⟨n, hn, beq_iff_eq.mp hrow⟩
    rw [hnone]
    exact List.nodup_nil

theorem rowsOf_readIntoDf (hrdt : cfg.log.useRdt = false) (counterArgs : CounterArgs) (pad : UInt8)
    {polls : List (ProfileRequest cfg)} {entries : List (HrperfLogEntry cfg.log)}
    (h : IsLogOf p polls entries) (htimes : TimesIncrease polls) :
    RowsOf p polls (readIntoDf counterArgs cfg.log.logImc
      (entries.flatMap (HrperfLogEntry.toBytes pad))) := by
  rw [readIntoDf, byStepReadLogs_toBytes counterArgs hrdt, List.map_map]
  constructor
  case mem =>
    intro row
    rw [List.mem_map]
    constructor
    · rintro ⟨e, he, rfl⟩
      obtain ⟨cpu, hcpu, q, hq, rfl⟩ := h.polled e he
      exact ⟨cpu, hcpu, q, hq, byStepRow_named counterArgs cpu q⟩
    · rintro ⟨cpu, hcpu, q, hq, rfl⟩
      have hown : sampleOf cpu q ∈ entries.filter fun e => e.cpuId == BitVec.ofNat 32 cpu := by
        rw [h.own cpu hcpu]
        exact List.mem_map_of_mem hq
      exact ⟨sampleOf cpu q, (List.mem_filter.mp hown).1, byStepRow_named counterArgs cpu q⟩
  case distinct =>
    have hrows : (entries.map (byStepRow (byStepCoreName counterArgs) ∘
        byStepNamed (byStepCoreName counterArgs))).map PollRow.row = entries.map entryRow := by
      rw [List.map_map]
      apply List.map_congr_left
      intro e he
      obtain ⟨cpu, -, q, -, rfl⟩ := h.polled e he
      rw [entryRow, rowOf_named, Function.comp_apply, Function.comp_apply, byStepRow_named]
      rfl
    rw [hrows]
    exact h.distinctTimes htimes

/-- The report by step of a run has one line for each two polls that reached the file: how much
the counters grew on all polled CPUs together, and the memory controllers on the core that
reports them. -/
theorem by_step_report_of_run (hset : Setting cfg p) (cells : Nat → Nat → HrperfLogEntry cfg.log)
    (pad : UInt8) (ioctls : List (Ioctl cfg p)) (hrdt : cfg.log.useRdt = false)
    (htimes : TimesIncrease (pollsOf (ioctls.map Ioctl.toProfileRequest)))
    (hpolled : ∃ cpu, Polled cfg p cpu) (counterArgs : CounterArgs) (args : Args)
    (hcpu : args.cpuId = none) (himc : args.useImc = cfg.log.logImc) :
    parseHrpInstructedProfile args (readIntoDf counterArgs args.useImc
        (runIoctls ⟨true, true⟩ pad ioctls (.init hset cells)).file) =
      some ((pairUp (loggedPolls ioctls)).map fun ab => stepReport args p ab.1 ab.2) := by
  obtain ⟨entries, hfile, hlog⟩ := file_of_run hset cells pad ioctls
  have hincreasing : TimesIncrease (loggedPolls ioctls) :=
    htimes.sublist (loggedPolls_sublist ioctls)
  rw [hfile, himc]
  exact (rowsOf_readIntoDf hrdt counterArgs pad hlog hincreasing).report hincreasing hpolled args
    hcpu himc

/-- The same run by step: of the three polls in the file the last one has no partner. -/
theorem overflowing_run_reported :
    (∃ cpu, Polled smallConfig fourCpus cpu) ∧
    ∀ cells : Nat → Nat → HrperfLogEntry smallConfig.log,
      (parseHrpInstructedProfile ⟨smallConfig.log.logImc, 1, 0, none⟩
        (readIntoDf ⟨false, false, false⟩ smallConfig.log.logImc
          (runIoctls ⟨true, true⟩ 0 overflowingRun (.init smallSetting cells)).file)).map
        (fun data => data.map fun d => (d.startTs, d.endTs, d.diff .llcMisses)) =
          some [(1, 2, 2)] := by
  have hpolled : ∃ cpu, Polled smallConfig fourCpus cpu := ⟨0, by decide⟩
  have htimes : TimesIncrease (pollsOf (overflowingRun.map Ioctl.toProfileRequest)) := by
    unfold TimesIncrease
    decide
  refine ⟨hpolled, fun cells => ?_⟩
  rw [by_step_report_of_run smallSetting cells 0 overflowingRun rfl htimes hpolled
    ⟨false, false, false⟩ ⟨smallConfig.log.logImc, 1, 0, none⟩ rfl rfl]
  decide +kernel

end InstructedReport
