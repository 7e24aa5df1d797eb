import Hiresperf.Foundation.ByteCodec
import Hiresperf.Foundation.StepMachine
import Mathlib.Data.List.Perm.Basic
import Mathlib.Data.List.Sort

/-!
# The log of the BPF events

`src/io/log.c`: every callback takes its place in the mapped file by an atomic
addition, then checks whether the place lies in the file, then copies its event.
The counter goes on when events are refused, and the cleanup uses it as the length
of the file. Callbacks interleave between the addition and the rest.
-/

namespace BpfLog

open StepMachine ByteCodec

def hrpBpfLogFileSize : Nat := 1024 * 1024 * 200

/-- `sizeof(struct hrp_bpf_event)`. -/
def eventSize : Nat := 40

/-- The number of values of a `size_t`. -/
def sizeRange : Nat := 2 ^ 64

/-- The bytes of a `struct hrp_bpf_event`. -/
structure Event where
  bytes : List UInt8
  size : bytes.length = eventSize

/-- The longest file the file system can hold. The log fits, or `hrp_bpf_log_init` has failed,
and no `off_t` is larger than 63 bits. -/
structure FileSystem where
  limit : Nat
  holdsLog : hrpBpfLogFileSize ≤ limit
  signed : limit < 2 ^ 63

/-- A length beyond the limit is an error and leaves the file as it is. -/
def ftruncate (fs : FileSystem) (file : List UInt8) (length : Nat) : List UInt8 :=
  if fs.limit < length then file
  else file.take length ++ List.replicate (length - file.length) 0

/-- An event and the offset its callback was given. -/
structure Slot where
  offset : Nat
  event : Event

/-- `calls`, `stored`, `refused` and `outside` are kept for the record: the callbacks so far, what
became of their events, and whether one was copied to memory outside the mapping. `file` is the
file that the cleanup leaves. -/
structure Log where
  logOffset : Nat
  mapping : Nat → UInt8
  calls : Nat
  pending : List Slot
  stored : List Slot
  refused : List Slot
  outside : Bool
  file : Option (List UInt8)

/-- The file is not emptied when it is opened: what an earlier run left stays in the mapping. -/
def hrpBpfLogInit (fs : FileSystem) (old : List UInt8) : Log where
  logOffset := 0
  mapping := fun pos => (ftruncate fs old hrpBpfLogFileSize).getD pos 0
  calls := 0
  pending := []
  stored := []
  refused := []
  outside := false
  file := none

/-- The addresses wrap around like the offset does. -/
def memcpy (mapping : Nat → UInt8) (slot : Slot) (pos : Nat) : UInt8 :=
  let i := (pos + sizeRange - slot.offset) % sizeRange
  if i < eventSize then slot.event.bytes.getD i 0 else mapping pos

def fetchAdd (s : Log) (e : Event) : Log :=
  { s with
    logOffset := (s.logOffset + eventSize) % sizeRange
    calls := s.calls + 1
    pending := ⟨s.logOffset, e⟩ :: s.pending }

def isFull (slot : Slot) : Bool :=
  decide (hrpBpfLogFileSize < (slot.offset + eventSize) % sizeRange)

/-- The rest of a callback. -/
def complete (s : Log) (slot : Slot) : Log :=
  if isFull slot then { s with refused := slot :: s.refused }
  else
    { s with
      mapping := memcpy s.mapping slot
      stored := slot :: s.stored
      outside := s.outside || decide (hrpBpfLogFileSize < slot.offset + eventSize) }

def hrpBpfLogCleanup (fs : FileSystem) (s : Log) : Log :=
  { s with
    file := some (ftruncate fs ((List.range hrpBpfLogFileSize).map s.mapping) s.logOffset) }

inductive Action where
  | fetchAdd (e : Event)
  | complete (i : Nat)
  | cleanup

def step (fs : FileSystem) (s : Log) (action : Action) : Option Log :=
  if s.file.isSome then none
  else
    match action with
    | .fetchAdd e => some (fetchAdd s e)
    | .complete i =>
      (s.pending[i]?).map fun slot => complete { s with pending := s.pending.eraseIdx i } slot
    | .cleanup => if s.pending.isEmpty then some (hrpBpfLogCleanup fs s) else none

def bpfLog (fs : FileSystem) (old : List UInt8) : Machine Log Action where
  init := hrpBpfLogInit fs old
  step := step fs

/-! ## What the file should be -/

/-- The file is the stored events in the order of their offsets, and nothing else. -/
structure Faithful (s : Log) (file : List UInt8) : Prop where
  inside : s.outside = false
  bounded : file.length ≤ hrpBpfLogFileSize
  length : file.length = eventSize * s.stored.length
  content : ∃ slots : List Slot, slots.Perm s.stored ∧
    slots.Pairwise (fun a b => a.offset < b.offset) ∧ file = slots.flatMap (·.event.bytes)
  noStale : ∀ i, i * eventSize < file.length →
    ∃ slot ∈ s.stored, (file.drop (i * eventSize)).take eventSize = slot.event.bytes

/-- Every callback finds room, or the length that the cleanup asks for is refused as too large
(and the counter has not wrapped around). -/
def CounterSafe (fs : FileSystem) (calls : Nat) : Prop :=
  eventSize * calls ≤ hrpBpfLogFileSize ∨
    fs.limit < eventSize * calls ∧ eventSize * calls < sizeRange

/-! ## The callbacks -/

/-- Every callback so far. -/
def slots (s : Log) : List Slot := s.pending ++ (s.stored ++ s.refused)

structure Consistent (fs : FileSystem) (s : Log) : Prop where
  counter : s.logOffset = eventSize * s.calls % sizeRange
  offsets : ((slots s).map Slot.offset).Perm
    ((List.range s.calls).map fun k => eventSize * k % sizeRange)
  stored : ∀ slot ∈ s.stored, isFull slot = false
  refused : ∀ slot ∈ s.refused, isFull slot = true
  outside : s.outside = s.stored.any fun slot =>
    decide (hrpBpfLogFileSize < slot.offset + eventSize)
  written : eventSize * s.calls < sizeRange → ∀ slot ∈ s.stored, ∀ i < eventSize,
    s.mapping (slot.offset + i) = slot.event.bytes.getD i 0
  final : ∀ file, s.file = some file → s.pending = [] ∧
    file = ftruncate fs ((List.range hrpBpfLogFileSize).map s.mapping) s.logOffset

variable {fs : FileSystem} {s t : Log} {slot : Slot}

/-- As long as the counter has not wrapped around, the offsets are the multiples of the size. -/
theorem Consistent.plainOffsets (h : Consistent fs s) (hwrap : eventSize * s.calls < sizeRange) :
    ((slots s).map Slot.offset).Perm ((List.range s.calls).map fun k => eventSize * k) := by
  refine h.offsets.trans (List.Perm.of_eq (List.map_congr_left ?_))
  intro k hk
  have hlt := List.mem_range.mp hk
  apply Nat.mod_eq_of_lt
  simp only [eventSize] at hwrap ⊢
  omega

theorem Consistent.offset_eq (h : Consistent fs s) (hwrap : eventSize * s.calls < sizeRange)
    (hmem : slot ∈ slots s) : ∃ k < s.calls, slot.offset = eventSize * k := by
  have hoffset := (h.plainOffsets hwrap).subset (List.mem_map_of_mem hmem)
  obtain ⟨k, hk, heq⟩ := List.mem_map.mp hoffset
  exact ⟨k, List.mem_range.mp hk, heq.symm⟩

theorem Consistent.offsets_nodup (h : Consistent fs s) (hwrap : eventSize * s.calls < sizeRange) :
    ((slots s).map Slot.offset).Nodup := by
  apply (h.plainOffsets hwrap).nodup_iff.mpr
  apply List.Nodup.map _ List.nodup_range
  intro a b hab
  simp only [eventSize] at hab
  omega

theorem init_consistent (old : List UInt8) : Consistent fs (hrpBpfLogInit fs old) where
  counter := rfl
  offsets := .refl _
  stored := fun _ h => nomatch h
  refused := fun _ h => nomatch h
  outside := rfl
  written := fun _ _ h => nomatch h
  final := fun _ h => nomatch h

theorem fetchAdd_consistent (h : Consistent fs s) (hfile : s.file = none) (e : Event) :
    Consistent fs (fetchAdd s e) where
  counter := by
    change (s.logOffset + eventSize) % sizeRange = eventSize * (s.calls + 1) % sizeRange
    rw [h.counter, Nat.mod_add_mod, Nat.mul_succ]
  offsets := by
    change (s.logOffset :: (slots s).map Slot.offset).Perm _
    rw [h.counter]
    refine (List.Perm.cons _ h.offsets).trans ?_
    change List.Perm _ ((List.range (s.calls + 1)).map _)
    rw [List.range_succ, List.map_append]
    exact (List.perm_append_singleton _ _).symm
  stored := h.stored
  refused := h.refused
  outside := h.outside
  written := by
    intro hwrap
    change eventSize * (s.calls + 1) < sizeRange at hwrap
    exact h.written (by simp only [eventSize] at hwrap ⊢; omega)
  final := by
    intro file hsome
    change s.file = some file at hsome
    rw [hfile] at hsome
    cases hsome

/-- The bytes of another event are not touched. -/
theorem memcpy_of_ne (mapping : Nat → UInt8) {other k k' : Nat} (hother : other = eventSize * k')
    (hoffset : slot.offset = eventSize * k) (hk : eventSize * (k + 1) < sizeRange)
    (hk' : eventSize * (k' + 1) < sizeRange) (hne : k' ≠ k) {i : Nat} (hi : i < eventSize) :
    memcpy mapping slot (other + i) = mapping (other + i) := by
  have hfar : ¬ (other + i + sizeRange - slot.offset) % sizeRange < eventSize := by
    rcases Nat.lt_or_gt_of_ne hne with hbelow | habove
    · rw [Nat.mod_eq_of_lt] <;> simp only [eventSize, sizeRange] at * <;> omega
    · have hwraps : other + i + sizeRange - slot.offset =
          eventSize * (k' - k) + i + sizeRange := by
        simp only [eventSize, sizeRange] at *
        omega
      rw [hwraps, Nat.add_mod_right, Nat.mod_eq_of_lt] <;> simp only [eventSize, sizeRange] at * <;>
        omega
  simp [memcpy, hfar]

theorem memcpy_self (mapping : Nat → UInt8) (slot : Slot) {i : Nat} (hi : i < eventSize) :
    memcpy mapping slot (slot.offset + i) = slot.event.bytes.getD i 0 := by
  have hnear : (slot.offset + i + sizeRange - slot.offset) % sizeRange = i := by
    simp only [eventSize, sizeRange] at *
    omega
  simp [memcpy, hnear, hi]

/-- A pending callback with the others it leaves behind. -/
theorem slots_perm {i : Nat} (h : s.pending[i]? = some slot) :
    (slots s).Perm (slot :: (s.pending.eraseIdx i ++ (s.stored ++ s.refused))) := by
  obtain ⟨hi, rfl⟩ := List.getElem?_eq_some_iff.mp h
  exact (List.getElem_cons_eraseIdx_perm hi).symm.append_right _

/-- The copy of an event leaves the stored ones as they are: no two callbacks were given the same
offset. -/
theorem Consistent.memcpy_stored {i j : Nat} {other : Slot} (h : Consistent fs s)
    (hwrap : eventSize * s.calls < sizeRange) (hslot : s.pending[i]? = some slot)
    (hother : other ∈ s.stored) (hj : j < eventSize) :
    memcpy s.mapping slot (other.offset + j) = other.event.bytes.getD j 0 := by
  have hperm := slots_perm hslot
  have hmem : slot ∈ slots s := hperm.symm.subset List.mem_cons_self
  have hrest : other ∈ s.pending.eraseIdx i ++ (s.stored ++ s.refused) := by simp [hother]
  obtain ⟨k, hk, hoffset⟩ := h.offset_eq hwrap hmem
  obtain ⟨k', hk', hoffset'⟩ :=
    h.offset_eq hwrap (hperm.symm.subset (List.mem_cons_of_mem _ hrest))
  have hnodup := ((hperm.map Slot.offset).nodup_iff).mp (h.offsets_nodup hwrap)
  have hne : k' ≠ k := by
    rintro rfl
    apply (List.nodup_cons.mp hnodup).1
    rw [hoffset, ← hoffset']
    exact List.mem_map_of_mem hrest
  rw [memcpy_of_ne s.mapping hoffset' hoffset (by simp only [eventSize] at *; omega)
    (by simp only [eventSize] at *; omega) hne hj]
  exact h.written hwrap other hother j hj

theorem complete_consistent {i : Nat} (h : Consistent fs s) (hfile : s.file = none)
    (hslot : s.pending[i]? = some slot) :
    Consistent fs (complete { s with pending := s.pending.eraseIdx i } slot) := by
  have hperm := slots_perm hslot
  have hopen : ∀ file, s.file = some file → False := by
    intro file hsome
    rw [hfile] at hsome
    cases hsome
  unfold complete
  by_cases hfull : isFull slot = true
  · simp only [hfull, if_true]
    exact {
      counter := h.counter
      offsets := by
        refine (List.Perm.map _ ?_).trans h.offsets
        refine List.Perm.trans ?_ hperm.symm
        simp only [slots, ← List.append_assoc]
        exact List.perm_middle
      stored := h.stored
      refused := by
        intro other hother
        rcases List.mem_cons.mp hother with rfl | hold
        · exact hfull
        · exact h.refused other hold
      outside := h.outside
      written := h.written
      final := fun file hsome => absurd hsome (hopen file) }
  · have hroom : isFull slot = false := by simpa using hfull
    simp only [hroom, Bool.false_eq_true, if_false]
    exact {
      counter := h.counter
      offsets := by
        refine (List.Perm.map _ ?_).trans h.offsets
        refine List.Perm.trans ?_ hperm.symm
        exact List.perm_middle
      stored := by
        intro other hother
        rcases List.mem_cons.mp hother with rfl | hold
        · exact hroom
        · exact h.stored other hold
      refused := h.refused
      outside := by
        rw [h.outside, List.any_cons, Bool.or_comm]
      written := by
        intro hwrap other hother j hj
        rcases List.mem_cons.mp hother with rfl | hold
        · exact memcpy_self s.mapping _ hj
        · exact h.memcpy_stored hwrap hslot hold hj
      final := fun file hsome => absurd hsome (hopen file) }

theorem step_consistent {action : Action} (h : Consistent fs s)
    (hstep : step fs s action = some t) : Consistent fs t := by
  have hnone : s.file = none := by
    cases hfile : s.file with
    | none => rfl
    | some file => simp [step, hfile] at hstep
  unfold step at hstep
  rw [if_neg (by simp [hnone])] at hstep
  cases action with
  | fetchAdd e =>
    cases hstep
    exact fetchAdd_consistent h hnone e
  | complete i =>
    obtain ⟨slot, hslot, rfl⟩ := Option.map_eq_some_iff.mp hstep
    exact complete_consistent h hnone hslot
  | cleanup =>
    dsimp only at hstep
    split_ifs at hstep with hidle
    cases hstep
    refine ⟨h.counter, h.offsets, h.stored, h.refused, h.outside, h.written, ?_⟩
    intro file hsome
    exact ⟨List.isEmpty_iff.mp hidle, (Option.some.inj hsome).symm⟩

theorem reachable_consistent {old : List UInt8} (h : Reachable (bpfLog fs old) s) :
    Consistent fs s :=
  Reaches.invariant (I := Consistent fs) (init_consistent old)
    (fun _ _ _ hs _ hstep => step_consistent hs hstep) h

/-! ## The file -/

/-- The number of events the log has room for. -/
def capacity : Nat := hrpBpfLogFileSize / eventSize

theorem isFull_iff {k : Nat} (hoffset : slot.offset = eventSize * k)
    (hwrap : eventSize * (k + 1) < sizeRange) : isFull slot = true ↔ capacity ≤ k := by
  have hsum : slot.offset + eventSize = eventSize * (k + 1) := by rw [hoffset, Nat.mul_succ]
  rw [isFull, decide_eq_true_eq, hsum, Nat.mod_eq_of_lt hwrap]
  simp only [capacity, eventSize, hrpBpfLogFileSize]
  omega

/-- At the cleanup, the first callbacks are stored, as many as there is room for. -/
theorem Consistent.mem_stored_offsets (h : Consistent fs s) (hidle : s.pending = [])
    (hwrap : eventSize * s.calls < sizeRange) (offset : Nat) :
    offset ∈ s.stored.map Slot.offset ↔
      offset ∈ (List.range (min s.calls capacity)).map fun k => eventSize * k := by
  have hslots : slots s = s.stored ++ s.refused := by simp [slots, hidle]
  constructor
  · intro hmem
    obtain ⟨slot, hslot, rfl⟩ := List.mem_map.mp hmem
    obtain ⟨k, hk, hoffset⟩ := h.offset_eq hwrap (hslots ▸ List.mem_append_left _ hslot)
    have hroom : ¬ capacity ≤ k := by
      rw [← isFull_iff hoffset (by simp only [eventSize] at *; omega), h.stored slot hslot]
      exact Bool.false_ne_true
    exact List.mem_map.mpr ⟨k, List.mem_range.mpr (by omega), hoffset.symm⟩
  · intro hmem
    obtain ⟨k, hk, rfl⟩ := List.mem_map.mp hmem
    have hlt := List.mem_range.mp hk
    have htaken : eventSize * k ∈ (slots s).map Slot.offset :=
      (h.plainOffsets hwrap).symm.subset
        (List.mem_map.mpr ⟨k, List.mem_range.mpr (by omega), rfl⟩)
    obtain ⟨slot, hslot, hoffset⟩ := List.mem_map.mp htaken
    rw [hslots] at hslot
    rcases List.mem_append.mp hslot with hstored | hrefused
    · exact List.mem_map.mpr ⟨slot, hstored, hoffset⟩
    · have hfull := (isFull_iff hoffset (by simp only [eventSize] at *; omega)).mp
        (h.refused slot hrefused)
      omega

/-- The stored events in the order of their offsets. -/
def inOrder (s : Log) : List Slot := s.stored.mergeSort fun a b => decide (a.offset ≤ b.offset)

theorem inOrder_perm (s : Log) : (inOrder s).Perm s.stored := List.mergeSort_perm _ _

theorem Consistent.inOrder_sorted (h : Consistent fs s) (hidle : s.pending = [])
    (hwrap : eventSize * s.calls < sizeRange) :
    (inOrder s).Pairwise fun a b => a.offset < b.offset := by
  have hle : (inOrder s).Pairwise fun a b => decide (a.offset ≤ b.offset) = true := by
    apply List.pairwise_mergeSort
    · intro a b c hab hbc
      simp only [decide_eq_true_eq] at *
      omega
    · intro a b
      simp only [Bool.or_eq_true, decide_eq_true_eq]
      omega
  have hnodup : ((inOrder s).map Slot.offset).Nodup := by
    have hslots := h.offsets_nodup hwrap
    simp only [slots, hidle, List.nil_append, List.map_append] at hslots
    exact ((inOrder_perm s).map _).nodup_iff.mpr hslots.of_append_left
  have hne := List.pairwise_map.mp hnodup
  refine (hle.and hne).imp ?_
  rintro a b ⟨hab, hdiffer⟩
  have := of_decide_eq_true hab
  omega

theorem Consistent.inOrder_offsets (h : Consistent fs s) (hidle : s.pending = [])
    (hwrap : eventSize * s.calls < sizeRange) :
    (inOrder s).map Slot.offset =
      (List.range (min s.calls capacity)).map fun k => eventSize * k := by
  apply List.Pairwise.eq_of_mem_iff (r := (· < ·))
  · exact List.pairwise_map.mpr (h.inOrder_sorted hidle hwrap)
  · refine List.pairwise_map.mpr (List.pairwise_lt_range.imp ?_)
    intro a b hab
    simp only [eventSize]
    omega
  · intro offset
    rw [((inOrder_perm s).map Slot.offset).mem_iff]
    exact h.mem_stored_offsets hidle hwrap offset

/-- Bytes that hold the events from number `start` on are these events one after the other. -/
theorem map_range_eq_flatMap (mapping : Nat → UInt8) (start : Nat) (entries : List Slot)
    (hoffsets : entries.map Slot.offset =
      (List.range' start entries.length).map fun k => eventSize * k)
    (hwritten : ∀ slot ∈ entries, ∀ i < eventSize,
      mapping (slot.offset + i) = slot.event.bytes.getD i 0) :
    (List.range' (eventSize * start) (eventSize * entries.length)).map mapping =
      entries.flatMap (·.event.bytes) := by
  induction entries generalizing start with
  | nil => rfl
  | cons slot rest ih =>
    rw [List.length_cons, List.range'_succ, List.map_cons, List.map_cons, List.cons.injEq]
      at hoffsets
    have hfirst : (List.range' (eventSize * start) eventSize).map mapping = slot.event.bytes := by
      apply List.ext_getElem
      · simp [slot.event.size]
      · intro i hi hbytes
        have hlt : i < eventSize := slot.event.size ▸ hbytes
        have hbyte := hwritten slot List.mem_cons_self i hlt
        rw [hoffsets.1] at hbyte
        simpa [hbytes] using hbyte
    have hrest := ih (start + 1) hoffsets.2 fun other hother =>
      hwritten other (List.mem_cons_of_mem _ hother)
    rw [List.length_cons, Nat.mul_succ, Nat.add_comm, ← List.range'_append_1, List.map_append, hfirst,
      List.flatMap_cons, ← hrest, Nat.mul_succ]

theorem Consistent.bytes_inOrder (h : Consistent fs s) (hidle : s.pending = [])
    (hwrap : eventSize * s.calls < sizeRange) :
    (List.range (eventSize * min s.calls capacity)).map s.mapping =
      (inOrder s).flatMap (·.event.bytes) := by
  have hoffsets := h.inOrder_offsets hidle hwrap
  have hlength : (inOrder s).length = min s.calls capacity := by
    simpa using congrArg List.length hoffsets
  rw [← hlength, List.range_eq_range'] at hoffsets ⊢
  refine map_range_eq_flatMap s.mapping 0 (inOrder s) hoffsets ?_
  intro slot hslot
  exact h.written hwrap slot ((inOrder_perm s).subset hslot)

/-- A file with the stored events in order has all that is asked of it. -/
theorem faithful_of_inOrder (h : Consistent fs s) (hidle : s.pending = [])
    (hwrap : eventSize * s.calls < sizeRange) {file : List UInt8}
    (hfile : file = (inOrder s).flatMap (·.event.bytes)) : Faithful s file := by
  have hsize : ∀ slot : Slot, slot.event.bytes.length = eventSize := fun slot => slot.event.size
  have hperm := inOrder_perm s
  have hcount : s.stored.length ≤ capacity := by
    have hlength := congrArg List.length (h.inOrder_offsets hidle hwrap)
    rw [List.length_map, List.length_map, List.length_range, hperm.length_eq] at hlength
    omega
  have hlength : file.length = eventSize * s.stored.length := by
    rw [hfile, List.length_flatMap, ← hperm.length_eq, List.map_congr_left fun slot _ => hsize slot,
      List.map_const', List.sum_replicate_nat, Nat.mul_comm]
  constructor
  case inside =>
    rw [h.outside, List.any_eq_false]
    intro slot hslot
    obtain ⟨k, hk, hoffset⟩ := h.offset_eq hwrap
      (List.mem_append_right _ (List.mem_append_left _ hslot))
    have hroom := (isFull_iff hoffset (by simp only [eventSize] at *; omega)).not.mp
      (by simp [h.stored slot hslot])
    simp only [decide_eq_true_eq, hoffset]
    simp only [capacity, eventSize, hrpBpfLogFileSize] at hroom ⊢
    omega
  case bounded =>
    rw [hlength]
    simp only [capacity, eventSize, hrpBpfLogFileSize] at hcount ⊢
    omega
  case length => exact hlength
  case content => exact ⟨inOrder s, hperm, h.inOrder_sorted hidle hwrap, hfile⟩
  case noStale =>
    intro i hi
    rw [hlength, Nat.mul_comm, Nat.mul_lt_mul_left (by decide), ← hperm.length_eq] at hi
    refine ⟨(inOrder s)[i], hperm.subset (List.getElem_mem hi), ?_⟩
    rw [hfile, drop_flatMap hsize, List.drop_eq_getElem_cons hi, List.flatMap_cons,
      ← hsize (inOrder s)[i], List.take_left]

/-- Before the counter wraps around, one callback is given the last bytes below `2 ^ 64`, and the
sum it checks wraps around first. -/
theorem Consistent.outside_of_wrap (h : Consistent fs s) (hidle : s.pending = [])
    (hwrap : sizeRange ≤ eventSize * s.calls) : s.outside = true := by
  have hlast : sizeRange - 16 ∈ (List.range s.calls).map fun k => eventSize * k % sizeRange := by
    refine List.mem_map.mpr ⟨(sizeRange - 16) / eventSize, List.mem_range.mpr ?_, by decide⟩
    simp only [eventSize, sizeRange] at hwrap ⊢
    omega
  obtain ⟨slot, hslot, hoffset⟩ := List.mem_map.mp (h.offsets.symm.subset hlast)
  have hroom : isFull slot = false := by
    rw [isFull, hoffset]
    decide
  simp only [slots, hidle, List.nil_append] at hslot
  rcases List.mem_append.mp hslot with hstored | hrefused
  · rw [h.outside, List.any_eq_true]
    refine ⟨slot, hstored, ?_⟩
    rw [hoffset]
    decide
  · rw [h.refused slot hrefused] at hroom
    cases hroom

/-- A counter that has not wrapped around gives the length, unless the length is refused. -/
theorem Consistent.file_eq (h : Consistent fs s) {file : List UInt8} (hfile : s.file = some file)
    (hwrap : eventSize * s.calls < sizeRange) :
    file = ftruncate fs ((List.range hrpBpfLogFileSize).map s.mapping) (eventSize * s.calls) := by
  rw [(h.final file hfile).2, h.counter, Nat.mod_eq_of_lt hwrap]

theorem counterSafe_of_faithful (h : Consistent fs s) {file : List UInt8}
    (hfile : s.file = some file) (hfaithful : Faithful s file) : CounterSafe fs s.calls := by
  have hidle := (h.final file hfile).1
  have hwrap : eventSize * s.calls < sizeRange := by
    by_contra hlarge
    have hinside := hfaithful.inside
    rw [h.outside_of_wrap hidle (by omega)] at hinside
    cases hinside
  by_cases hlimit : fs.limit < eventSize * s.calls
  · exact Or.inr ⟨hlimit, hwrap⟩
  · left
    -- the file has the length that was asked for
    have hlength : file.length = eventSize * s.calls := by
      rw [h.file_eq hfile hwrap, ftruncate, if_neg hlimit]
      simp only [List.length_append, List.length_take, List.length_map, List.length_range,
        List.length_replicate]
      omega
    rw [← hlength]
    exact hfaithful.bounded

theorem faithful_of_counterSafe (h : Consistent fs s) {file : List UInt8}
    (hfile : s.file = some file) (hsafe : CounterSafe fs s.calls) : Faithful s file := by
  have hidle := (h.final file hfile).1
  have hlog := fs.holdsLog
  have hsigned := fs.signed
  have hwrap : eventSize * s.calls < sizeRange := by
    rcases hsafe with hroom | hlimit
    · simp only [sizeRange]
      omega
    · exact hlimit.2
  apply faithful_of_inOrder h hidle hwrap
  rw [← h.bytes_inOrder hidle hwrap, h.file_eq hfile hwrap, ftruncate]
  rcases hsafe with hroom | hlimit
  · have hmin : min s.calls capacity = s.calls := by
      simp only [capacity, eventSize, hrpBpfLogFileSize] at hroom ⊢
      omega
    rw [if_neg (by omega), hmin, ← List.map_take, List.take_range, Nat.min_eq_left hroom]
    simp [Nat.sub_eq_zero_of_le hroom]
  · have hmin : eventSize * min s.calls capacity = hrpBpfLogFileSize := by
      simp only [capacity, eventSize, hrpBpfLogFileSize] at hlog hlimit ⊢
      omega
    rw [if_pos hlimit.1, hmin]

/-- After every run, the file is exactly the stored events if and only if every callback found
room or the counter is so large that the file could not be given this length. -/
theorem file_faithful_iff (fs : FileSystem) (old : List UInt8) (s : Log)
    (hreach : Reachable (bpfLog fs old) s) (file : List UInt8) (hfile : s.file = some file) :
    Faithful s file ↔ CounterSafe fs s.calls :=
  ⟨counterSafe_of_faithful (reachable_consistent hreach) hfile,
    faithful_of_counterSafe (reachable_consistent hreach) hfile⟩

/-! ## Runs of callbacks -/

/-- The condition of a run lets its callbacks be given the event and come to their end. -/
structure Allows (ok : Log → Action → Prop) (e : Event) : Prop where
  fetchAdd : ∀ s, ok s (.fetchAdd e)
  complete : ∀ s i, ok s (.complete i)
  cleanup : ∀ s, ok s .cleanup

section Runs

variable {ok : Log → Action → Prop} {e : Event} {old : List UInt8}

theorem reaches_fetchAdd (h : Allows ok e) (hs : Reaches (bpfLog fs old) ok s)
    (hfile : s.file = none) : Reaches (bpfLog fs old) ok (fetchAdd s e) := by
  refine .step hs (h.fetchAdd s) ?_
  simp [bpfLog, step, hfile]

/-- The end of a callback: its event is refused or stored. -/
theorem exists_completed (h : Allows ok e) (hs : Reaches (bpfLog fs old) ok s)
    (hfile : s.file = none) {rest : List Slot} (hpending : s.pending = slot :: rest) :
    ∃ t, Reaches (bpfLog fs old) ok t ∧ t.file = none ∧ t.pending = rest ∧ t.calls = s.calls ∧
      t.stored = (if isFull slot then s.stored else slot :: s.stored) ∧
      t.refused = if isFull slot then slot :: s.refused else s.refused := by
  refine ⟨complete { s with pending := rest } slot, .step hs (h.complete s 0) ?_, ?_⟩
  · simp [bpfLog, step, hfile, hpending]
  · rw [complete]
    split_ifs <;> exact ⟨hfile, rfl, rfl, rfl, rfl⟩

theorem reaches_cleanup (h : Allows ok e) (hs : Reaches (bpfLog fs old) ok s)
    (hfile : s.file = none) (hidle : s.pending = []) :
    Reaches (bpfLog fs old) ok (hrpBpfLogCleanup fs s) := by
  refine .step hs (h.cleanup s) ?_
  simp [bpfLog, step, hfile, hidle]

/-- `n` callbacks, one after the other. -/
theorem exists_idle (h : Allows ok e) (fs : FileSystem) (old : List UInt8) (n : Nat) :
    ∃ s, Reaches (bpfLog fs old) ok s ∧ s.file = none ∧ s.pending = [] ∧ s.calls = n := by
  induction n with
  | zero => exact ⟨_, .init, rfl, rfl, rfl⟩
  | succ n ih =>
    obtain ⟨s, hs, hfile, hidle, hn⟩ := ih
    have hpending : (fetchAdd s e).pending = ⟨s.logOffset, e⟩ :: [] := by
      rw [fetchAdd, hidle]
    obtain ⟨t, ht, hfile', hidle', hcalls, -⟩ :=
      exists_completed h (reaches_fetchAdd h hs hfile) hfile hpending
    exact ⟨t, ht, hfile', hidle', hcalls.trans (congrArg (· + 1) hn)⟩

/-- The cleanup ends such a run. -/
theorem exists_run (h : Allows ok e) (fs : FileSystem) (old : List UInt8) (n : Nat) :
    ∃ s file, Reaches (bpfLog fs old) ok s ∧ s.file = some file ∧ s.calls = n := by
  obtain ⟨s, hs, hfile, hidle, hn⟩ := exists_idle h fs old n
  exact ⟨_, _, reaches_cleanup h hs hfile hidle, rfl, hn⟩

end Runs

theorem allows_all (e : Event) : Allows (fun _ _ => True) e :=
  ⟨fun _ => trivial, fun _ _ => trivial, fun _ => trivial⟩

/-- Files of at most 16 TiB. -/
def smallFileSystem : FileSystem where
  limit := 2 ^ 44
  holdsLog := by decide
  signed := by decide

/-- Files that are not longer than the log. -/
def fullFileSystem : FileSystem where
  limit := hrpBpfLogFileSize
  holdsLog := Nat.le_refl _
  signed := by decide

def zeroEvent : Event := ⟨List.replicate 40 0, by decide⟩
def oneEvent : Event := ⟨List.replicate 40 1, by decide⟩

/-- The log is full but for two events, and three callbacks overlap: the last of them finds no room,
and the other two are stored the later one first. -/
theorem exists_overlapping_run (fs : FileSystem) (old : List UInt8) : ∃ s file first second stored,
    Reachable (bpfLog fs old) s ∧ s.file = some file ∧ s.calls = capacity + 1 ∧
    s.stored = first :: second :: stored ∧ first.offset < second.offset ∧
    s.refused ≠ [] := by
  obtain ⟨s, hs, hfile, hidle, hn⟩ := exists_idle (allows_all zeroEvent) fs old (capacity - 2)
  have hoffset : s.logOffset = eventSize * (capacity - 2) := by
    rw [(reachable_consistent hs).counter, hn]
    decide
  let first : Slot := ⟨eventSize * (capacity - 2), oneEvent⟩
  let second : Slot := ⟨eventSize * (capacity - 1), zeroEvent⟩
  let third : Slot := ⟨eventSize * capacity, oneEvent⟩
  have hone := allows_all oneEvent
  have hbegun := reaches_fetchAdd hone (reaches_fetchAdd (allows_all zeroEvent)
    (reaches_fetchAdd hone hs hfile) hfile) hfile
  have hpending : (fetchAdd (fetchAdd (fetchAdd s oneEvent) zeroEvent) oneEvent).pending =
      [third, second, first] := by
    have hnext : (eventSize * (capacity - 2) + eventSize) % sizeRange = eventSize * (capacity - 1) ∧
        (eventSize * (capacity - 1) + eventSize) % sizeRange = eventSize * capacity := by decide
    simp only [fetchAdd, hoffset, hidle, hnext, first, second, third]
  have hfull : isFull third = true := by decide
  have hroom : isFull second = false ∧ isFull first = false := by decide
  -- the callbacks end in the opposite order
  obtain ⟨t, ht, hfile, hpending, hcalls, hstored, hrefused⟩ :=
    exists_completed hone hbegun hfile hpending
  obtain ⟨u, hu, hfile, hpending, hcalls', hstored', hrefused'⟩ :=
    exists_completed hone ht hfile hpending
  obtain ⟨v, hv, hfile, hidle, hcalls'', hstored'', hrefused''⟩ :=
    exists_completed hone hu hfile hpending
  refine ⟨_, _, first, second, t.stored, reaches_cleanup hone hv hfile hidle, rfl, ?_, ?_, ?_, ?_⟩
  · have hcount : v.calls = s.calls + 3 := by rw [hcalls'', hcalls', hcalls]; rfl
    rw [hrpBpfLogCleanup, hcount, hn]
    decide
  · rw [hroom.1, if_neg Bool.false_ne_true] at hstored'
    rw [hroom.2, if_neg Bool.false_ne_true] at hstored''
    rw [hrpBpfLogCleanup, hstored'', hstored']
  · decide
  · rw [hfull, if_pos rfl] at hrefused
    rw [hroom.1, if_neg Bool.false_ne_true] at hrefused'
    rw [hroom.2, if_neg Bool.false_ne_true] at hrefused''
    rw [hrpBpfLogCleanup, hrefused'', hrefused', hrefused]
    exact List.cons_ne_nil _ _

theorem file_faithful_overlapping : ∃ s file first second stored,
    Reachable (bpfLog fullFileSystem []) s ∧ s.file = some file ∧
    s.stored = first :: second :: stored ∧ first.offset < second.offset ∧ s.refused ≠ [] ∧
    Faithful s file := by
  obtain ⟨s, file, first, second, stored, hs, hfile, hcalls, hstored, hlt, hrefused⟩ :=
    exists_overlapping_run fullFileSystem []
  refine ⟨s, file, first, second, stored, hs, hfile, hstored, hlt, hrefused, ?_⟩
  refine (file_faithful_iff _ _ s hs file hfile).mpr (Or.inr ?_)
  rw [hcalls]
  decide

/-- One callback more than there is room for, and the file ends with a record of zeros. -/
theorem refused_event_lengthens_file :
    ¬ ∀ s file, Reachable (bpfLog smallFileSystem []) s → s.file = some file → Faithful s file := by
  intro hall
  obtain ⟨s, file, hs, hfile, hcalls⟩ :=
    exists_run (allows_all zeroEvent) smallFileSystem [] (capacity + 1)
  have hsafe := counterSafe_of_faithful (reachable_consistent hs) hfile (hall s file hs hfile)
  rw [hcalls] at hsafe
  revert hsafe
  simp only [CounterSafe]
  decide

end BpfLog
