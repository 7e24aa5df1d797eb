import Hiresperf.LogEntry
import Hiresperf.RingInterleaving

/-!
# Record framing of the shared log file

Any number of per-CPU rings are filled and logged in any interleaving of their
steps, into one file opened with `O_APPEND`. Each `kernel_write` may append all
of its bytes, a proper prefix of them, or none; `log_and_clear` looks at negative
results only and advances `head` in any case.
-/

namespace Framing

open ByteCodec LogEntry RingBuffer RingInterleaving StepMachine

variable {flags : LogFlags} {n : Nat}

structure LogState (flags : LogFlags) (n : Nat) where
  channel : Fin n → Channel (HrperfLogEntry flags)
  file : List UInt8

inductive LogAction (flags : LogFlags) (n : Nat) where
  | produce (cpu : Fin n) (x : HrperfLogEntry flags)
  | consume (cpu : Fin n) (result : WriteResult)

/-- A short count is less than the number of bytes asked for. -/
def Possible (bytes : List UInt8) (result : WriteResult) : Prop :=
  ∀ count, result = .short count → count < bytes.length

instance (bytes : List UInt8) (result : WriteResult) : Decidable (Possible bytes result) :=
  match result with
  | .all => .isTrue (fun _ h => nomatch h)
  | .error _ => .isTrue (fun _ h => nomatch h)
  | .short count =>
    if h : count < bytes.length then .isTrue (fun _ he => by cases he; exact h)
    else .isFalse (fun hall => h (hall count rfl))

def setChannel (s : LogState flags n) (cpu : Fin n) (c : Channel (HrperfLogEntry flags)) :
    Fin n → Channel (HrperfLogEntry flags) :=
  fun i => if i = cpu then c else s.channel i

/-- The bytes that the next step of the consumer on `cpu` hands to `kernel_write`. -/
def handed (N : Nat) (pad : UInt8) (s : LogState flags n) (cpu : Fin n) : List UInt8 :=
  (consume N (s.channel cpu)).2.flatMap (HrperfLogEntry.toBytes pad)

def logMachine (N : Nat) (pad : UInt8) (cells : Nat → HrperfLogEntry flags) (n : Nat) :
    Machine (LogState flags n) (LogAction flags n) where
  init := ⟨fun _ => Channel.init cells, []⟩
  step s a := match a with
    | .produce cpu x => some { s with channel := setChannel s cpu (produce N (s.channel cpu) x) }
    | .consume cpu result =>
      if Possible (handed N pad s cpu) result then
        some ⟨setChannel s cpu (consume N (s.channel cpu)).1,
          s.file ++ kernelWrite result (handed N pad s cpu)⟩
      else none

/-- No pass is under way on any ring. -/
def Idle (s : LogState flags n) : Prop := ∀ cpu, (s.channel cpu).consumer = .idle

instance (s : LogState flags n) : Decidable (Idle s) :=
  inferInstanceAs (Decidable (∀ cpu, (s.channel cpu).consumer = .idle))

/-- The file is made of whole records, each of them an accepted entry, and the reader
finds exactly these. -/
def Framed (pad : UInt8) (s : LogState flags n) : Prop :=
  ∃ records : List (HrperfLogEntry flags),
    s.file = records.flatMap (HrperfLogEntry.toBytes pad) ∧
    (∀ r ∈ records, ∃ cpu, r ∈ (s.channel cpu).accepted) ∧
    readLogsToNumpy flags.logImc flags.useRdt flags.rdtIncludeLocalBw s.file =
      records.map HrperfLogEntry.named

/-- Every short count is a whole number of records. -/
def WholeRecords (_ : LogState flags n) : LogAction flags n → Prop
  | .produce _ _ => True
  | .consume _ result => ∀ count, result = .short count → sizeofLogEntry flags ∣ count

instance (s : LogState flags n) (a : LogAction flags n) : Decidable (WholeRecords s a) :=
  match a with
  | .produce _ _ => .isTrue trivial
  | .consume _ .all => .isTrue (fun _ h => nomatch h)
  | .consume _ (.error _) => .isTrue (fun _ h => nomatch h)
  | .consume _ (.short count) =>
    decidable_of_iff (sizeofLogEntry flags ∣ count)
      ⟨fun h c hc => by cases hc; exact h, fun h => h count rfl⟩

structure LogInv (N : Nat) (pad : UInt8) (s : LogState flags n)
    (records : List (HrperfLogEntry flags)) : Prop where
  channel : ∀ cpu, ∃ released, Inv N (s.channel cpu) released
  file : s.file = records.flatMap (HrperfLogEntry.toBytes pad)
  accepted : ∀ r ∈ records, ∃ cpu, r ∈ (s.channel cpu).accepted

/-- A write of whole records appends some of the entries handed over, as records. -/
theorem kernelWrite_records (pad : UInt8) (entries : List (HrperfLogEntry flags))
    {result : WriteResult} (whole : ∀ count, result = .short count → sizeofLogEntry flags ∣ count) :
    ∃ written, written ⊆ entries ∧
      kernelWrite result (entries.flatMap (HrperfLogEntry.toBytes pad)) =
        written.flatMap (HrperfLogEntry.toBytes pad) := by
  cases result with
  | all => exact ⟨entries, fun _ h => h, rfl⟩
  | error errno => exact ⟨[], by simp, rfl⟩
  | short count =>
    obtain ⟨k, rfl⟩ := whole count rfl
    refine ⟨entries.take k, fun _ h => List.mem_of_mem_take h, ?_⟩
    rw [kernelWrite, Nat.mul_comm]
    exact take_flatMap (HrperfLogEntry.length_toBytes pad) entries k

theorem setChannel_accepted {s : LogState flags n} {cpu : Fin n}
    {c : Channel (HrperfLogEntry flags)} (grows : (s.channel cpu).accepted ⊆ c.accepted)
    {r : HrperfLogEntry flags} (h : ∃ i, r ∈ (s.channel i).accepted) :
    ∃ i, r ∈ (setChannel s cpu c i).accepted := by
  obtain ⟨i, hi⟩ := h
  refine ⟨i, ?_⟩
  by_cases heq : i = cpu
  · subst heq
    simpa [setChannel] using grows hi
  · simpa [setChannel, heq] using hi

theorem setChannel_inv {N : Nat} {s : LogState flags n} {cpu : Fin n}
    {c : Channel (HrperfLogEntry flags)} (old : ∀ i, ∃ released, Inv N (s.channel i) released)
    (new : ∃ released, Inv N c released) (i : Fin n) :
    ∃ released, Inv N (setChannel s cpu c i) released := by
  by_cases heq : i = cpu
  · simpa [setChannel, heq] using new
  · simpa [setChannel, heq] using old i

theorem step_logInv {N : Nat} {pad : UInt8} {cells : Nat → HrperfLogEntry flags}
    {s t : LogState flags n} {a : LogAction flags n} {records : List (HrperfLogEntry flags)}
    (h : LogInv N pad s records) (whole : WholeRecords s a)
    (hstep : (logMachine N pad cells n).step s a = some t) :
    ∃ records', LogInv N pad t records' := by
  cases a with
  | produce cpu x =>
    have ht := (Option.some.inj hstep).symm
    subst ht
    obtain ⟨released, hinv⟩ := h.channel cpu
    refine ⟨records, ?_, h.file, ?_⟩
    · exact setChannel_inv h.channel ⟨released, (produce_inv hinv x).1⟩
    · intro r hr
      exact setChannel_accepted (produce_accepted N _ x) (h.accepted r hr)
  | consume cpu result =>
    have hpos : Possible (handed N pad s cpu) result := by
      by_contra hn
      simp [logMachine, hn] at hstep
    have ht : t = ⟨setChannel s cpu (consume N (s.channel cpu)).1,
        s.file ++ kernelWrite result (handed N pad s cpu)⟩ := by
      simp only [logMachine, if_pos hpos] at hstep
      exact (Option.some.inj hstep).symm
    subst ht
    obtain ⟨released, hinv⟩ := h.channel cpu
    obtain ⟨released', hnext, -⟩ := consume_inv hinv
    obtain ⟨written, hsub, hbytes⟩ :=
      kernelWrite_records pad (consume N (s.channel cpu)).2 whole
    refine ⟨records ++ written, ?_, ?_, ?_⟩
    · exact setChannel_inv h.channel ⟨released', hnext⟩
    · change s.file ++ kernelWrite result (handed N pad s cpu) = _
      rw [List.flatMap_append, ← hbytes, h.file]
      rfl
    · intro r hr
      have hsame : (s.channel cpu).accepted ⊆ (consume N (s.channel cpu)).1.accepted := by
        rw [consume_accepted]
        exact fun _ h => h
      apply setChannel_accepted hsame
      rcases List.mem_append.mp hr with hold | hnew
      · exact h.accepted r hold
      · exact ⟨cpu, consume_entries hinv (hsub hnew)⟩

theorem LogInv.framed {N : Nat} {pad : UInt8} {s : LogState flags n}
    {records : List (HrperfLogEntry flags)} (h : LogInv N pad s records) : Framed pad s := by
  refine ⟨records, h.file, h.accepted, ?_⟩
  have hshort : ([] : List UInt8).length < sizeofLogEntry flags := sizeofLogEntry_pos flags
  have hread := fromfile_toBytes pad records hshort
  rw [h.file, readLogsToNumpy]
  simpa using hread

theorem Framed.length_dvd {pad : UInt8} {s : LogState flags n} (h : Framed pad s) :
    sizeofLogEntry flags ∣ s.file.length := by
  obtain ⟨records, hfile, -, -⟩ := h
  rw [hfile, List.length_flatMap]
  simp only [HrperfLogEntry.length_toBytes, List.map_const', List.sum_replicate_nat]
  exact Nat.dvd_mul_left _ _

/-- A short write that ends inside a record breaks a framing that was intact. -/
theorem wholeRecords_of_framed {N : Nat} {pad : UInt8} {cells : Nat → HrperfLogEntry flags}
    {s t : LogState flags n} {a : LogAction flags n} (hs : Framed pad s)
    (hstep : (logMachine N pad cells n).step s a = some t) (ht : Framed pad t) :
    WholeRecords s a := by
  cases a with
  | produce cpu x => trivial
  | consume cpu result =>
    intro count hcount
    subst hcount
    have hpos : count < (handed N pad s cpu).length := by
      by_contra hn
      have himp : ¬ Possible (handed N pad s cpu) (.short count) := fun h => hn (h count rfl)
      simp [logMachine, himp] at hstep
    have hfile : t.file = s.file ++ (handed N pad s cpu).take count := by
      have hposs : Possible (handed N pad s cpu) (.short count) := by
        intro c hc
        cases hc
        exact hpos
      simp only [logMachine, if_pos hposs] at hstep
      rw [← Option.some.inj hstep]
      rfl
    have hlen := ht.length_dvd
    rw [hfile, List.length_append, List.length_take, Nat.min_eq_left hpos.le] at hlen
    exact (Nat.dvd_add_right hs.length_dvd).mp hlen

/-- While no short write ends inside a record the file stays a sequence of accepted
records, and the first short write that does ends that. -/
theorem framing_iff_whole_records {N : Nat} (hN : 1 ≤ N) (pad : UInt8)
    (cells : Nat → HrperfLogEntry flags) {s : LogState flags n}
    (h : Reaches (logMachine N pad cells n) WholeRecords s) :
    Framed pad s ∧ ∀ a t, (logMachine N pad cells n).step s a = some t →
      (Framed pad t ↔ WholeRecords s a) := by
  have hinv : ∃ records, LogInv N pad s records := by
    refine h.invariant (I := fun s => ∃ records, LogInv N pad s records)
      ⟨[], ?_, rfl, by simp⟩ ?_
    · exact fun cpu => ⟨[], init_inv hN cells⟩
    · rintro s a t ⟨records, hs⟩ whole hstep
      exact step_logInv hs whole hstep
  obtain ⟨records, hrec⟩ := hinv
  refine ⟨hrec.framed, ?_⟩
  intro a t hstep
  constructor
  · exact wholeRecords_of_framed hrec.framed hstep
  · intro whole
    obtain ⟨records', hrec'⟩ := step_logInv hrec whole hstep
    exact hrec'.framed

/-- An entry of 60 bytes, compiled without any optional member. -/
def plainEntry (kts : BitVec 64) : HrperfLogEntry ⟨false, false, false⟩ where
  cpuId := 0
  tick := {
    kts := kts
    stallMem := 0
    instRetire := 0
    stallsSb := 0
    cpuUnhalt := 0
    llcMisses := 0
    swPrefetch := 0
    imcReads := .of _ 0
    imcWrites := .of _ 0
    totalBw := .of _ 0
    localBw := .of _ 0
    occupancy := .of _ 0 }

/-- Two entries are enqueued, and the write that logs them ends as `result`. -/
def passTrace (result : WriteResult) : List (LogAction ⟨false, false, false⟩ 1) :=
  List.replicate 5 (.produce 0 (plainEntry 5)) ++ List.replicate 5 (.produce 0 (plainEntry 6)) ++
    [.consume 0 .all, .consume 0 .all, .consume 0 result, .consume 0 .all]

/-- Of the 120 bytes asked for 61 are written: the file does not end with a record. -/
theorem framing_broken_by_short_write :
    ¬ ∀ s, Reachable (logMachine 3 0 (fun _ => plainEntry 0) 1) s → Idle s → Framed 0 s := by
  intro hall
  obtain ⟨s, hs, hp⟩ := reachable_of_run (m := logMachine 3 0 (fun _ => plainEntry 0) 1)
    (p := fun s => Idle s ∧ s.file.length = 61) (passTrace (.short 61)) (by decide +kernel)
  obtain ⟨hidle, hshort⟩ := of_decide_eq_true hp
  have hdvd : 60 ∣ s.file.length := (hall s hs hidle).length_dvd
  omega

/-- A short write of one whole record loses the other entry and keeps the framing. -/
theorem framing_kept_by_record_write :
    ∃ s, Reaches (logMachine 3 0 (fun _ => plainEntry 0) 1) WholeRecords s ∧
      Idle s ∧ s.file.length = 60 ∧ Framed 0 s := by
  obtain ⟨s, hs, hp⟩ := reaches_of_run (m := logMachine 3 0 (fun _ => plainEntry 0) 1)
    WholeRecords (p := fun s => Idle s ∧ s.file.length = 60) (passTrace (.short 60))
    (by decide +kernel)
  obtain ⟨hidle, hone⟩ := of_decide_eq_true hp
  exact ⟨s, hs, hidle, hone, (framing_iff_whole_records (by decide) 0 _ hs).1⟩

end Framing
