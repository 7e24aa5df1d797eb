import Hiresperf.BpfCodec
import Hiresperf.BpfLog
import Mathlib.Data.Set.List

/-!
# From the probes to the files of the threads

The log of the BPF events and the script that reads it, together: what
`parse_bpf_dump.py` makes of the file that a run of the collector leaves. An event
that found no room lengthens the file by the bytes of a record, unless the file
system refuses the length, and the script takes these zeros for an event of the
thread 0.
-/

namespace BpfRoundTrip

open BpfCodec BpfLog ByteCodec StepMachine

/-- A callback is given the record of a call. -/
def GivesRecord (_ : Log) : Action → Prop
  | .fetchAdd e => ∃ c : Call, e.bytes = recordBytes c
  | .complete _ => True
  | .cleanup => True

/-- The records of zeros at the end of the file. -/
def zeroRecords (fs : FileSystem) (calls : Nat) : Nat :=
  if fs.limit < BpfLog.eventSize * calls then 0 else calls - capacity

/-- The line of a record of zeros. -/
def zeroLine : String := outputLine 0 (eventName 0) 0

/-- The files of the threads go on with the lines of the calls that found room, which are those of
the first callbacks, in their order, and the file of the thread 0 with one line for each record of
zeros. -/
structure ReadOff (fs : FileSystem) (s : Log) (file : List UInt8) (files : Files) : Prop where
  first : (inOrder s).map Slot.offset =
    (List.range (min s.calls capacity)).map fun k => BpfLog.eventSize * k
  lines : ∃ calls : List Call, (inOrder s).map (·.event.bytes) = calls.map recordBytes ∧
    ∃ after, parseLogFile file files = some after ∧
      ∀ tid, after tid = files tid ++ (calls.filter fun c => c.tid.toNat == tid).map writtenLine ++
        if tid = 0 then List.replicate (zeroRecords fs s.calls) zeroLine else []

/-! ## The log -/

/-- A step brings no slot but the one that it hands out. -/
theorem mem_slots_step {fs : FileSystem} {s t : Log} {action : Action}
    (h : step fs s action = some t) {slot : Slot} (hslot : slot ∈ slots t) :
    slot ∈ slots s ∨ action = .fetchAdd slot.event := by
  unfold step at h
  split at h
  · cases h
  cases action with
  | fetchAdd e =>
    cases h
    rcases List.mem_cons.mp hslot with rfl | hold
    · exact Or.inr rfl
    · exact Or.inl hold
  | complete i =>
    obtain ⟨done, hdone, rfl⟩ := Option.map_eq_some_iff.mp h
    left
    rw [(slots_perm hdone).mem_iff]
    rw [complete] at hslot
    split at hslot
    · exact ((List.perm_middle.append_left _).trans List.perm_middle).mem_iff.mp hslot
    · exact List.perm_middle.mem_iff.mp hslot
  | cleanup =>
    dsimp only at h
    split at h
    · cases h
      exact Or.inl hslot
    · cases h

theorem slots_of_run {fs : FileSystem} {old : List UInt8} {s : Log}
    (h : Reaches (bpfLog fs old) GivesRecord s) :
    ∀ slot ∈ slots s, ∃ c : Call, slot.event.bytes = recordBytes c := by
  refine h.invariant (I := fun s => ∀ slot ∈ slots s, ∃ c : Call, slot.event.bytes = recordBytes c)
    ?_ ?_
  · intro slot hslot
    cases hslot
  · intro s action t ih hok hstep slot hslot
    rcases mem_slots_step hstep hslot with hold | rfl
    · exact ih slot hold
    · exact hok

/-- The file: the stored events, and then zeros. -/
theorem file_of_run {fs : FileSystem} {s : Log} (h : Consistent fs s) {file : List UInt8}
    (hfile : s.file = some file) (hwrap : BpfLog.eventSize * s.calls < sizeRange) :
    file = (inOrder s).flatMap (·.event.bytes) ++
      (List.replicate (zeroRecords fs s.calls) (List.replicate BpfLog.eventSize 0)).flatten := by
  have hidle := (h.final file hfile).1
  have hbytes := h.bytes_inOrder hidle hwrap
  have hlog := fs.holdsLog
  have hzeros : ∀ n : Nat,
      (List.replicate n (List.replicate BpfLog.eventSize (0 : UInt8))).flatten =
      List.replicate (BpfLog.eventSize * n) 0 := by
    intro n
    rw [List.flatten_replicate_replicate, Nat.mul_comm]
  rw [h.file_eq hfile hwrap, ftruncate, hzeros, ← hbytes, zeroRecords]
  split
  · have hmin : BpfLog.eventSize * min s.calls capacity = hrpBpfLogFileSize := by
      simp only [capacity, BpfLog.eventSize, hrpBpfLogFileSize] at *
      omega
    rw [hmin]
    simp
  · by_cases hroom : s.calls ≤ capacity
    · have hless : BpfLog.eventSize * s.calls ≤ hrpBpfLogFileSize := by
        simp only [capacity, BpfLog.eventSize, hrpBpfLogFileSize] at *
        omega
      rw [Nat.min_eq_left hroom, ← List.map_take, List.take_range, Nat.min_eq_left hless]
      simp [Nat.sub_eq_zero_of_le hroom, Nat.sub_eq_zero_of_le hless]
    · have hmin : BpfLog.eventSize * min s.calls capacity = hrpBpfLogFileSize := by
        simp only [capacity, BpfLog.eventSize, hrpBpfLogFileSize] at *
        omega
      have hmore : BpfLog.eventSize * s.calls - hrpBpfLogFileSize =
          BpfLog.eventSize * (s.calls - capacity) := by
        simp only [capacity, BpfLog.eventSize, hrpBpfLogFileSize] at *
        omega
      have hlonger : hrpBpfLogFileSize ≤ BpfLog.eventSize * s.calls := by
        simp only [capacity, BpfLog.eventSize, hrpBpfLogFileSize] at *
        omega
      rw [hmin, List.take_of_length_le (by simpa using hlonger)]
      simp [hmore]

/-! ## The script -/

/-- A record of zeros is an unknown event of the thread 0. -/
theorem entryLine_zeros : entryLine (unpackFrom (List.replicate BpfLog.eventSize 0) 0 eventFormat) =
    (0, zeroLine) := by
  decide

/-! ## Both -/

theorem log_read_off (fs : FileSystem) (old : List UInt8) (s : Log)
    (hreach : Reaches (bpfLog fs old) GivesRecord s) (file : List UInt8)
    (hfile : s.file = some file) (hwrap : BpfLog.eventSize * s.calls < sizeRange) (files : Files) :
    ReadOff fs s file files := by
  have hconsistent : Consistent fs s :=
    hreach.invariant (I := Consistent fs) (init_consistent old)
      fun _ _ _ hs _ hstep => step_consistent hs hstep
  have hidle := (hconsistent.final file hfile).1
  obtain ⟨calls, hcalls⟩ : (inOrder s).map (·.event.bytes) ∈ Set.range (List.map recordBytes) := by
    rw [Set.range_list_map]
    intro bytes hbytes
    obtain ⟨slot, hslot, rfl⟩ := List.mem_map.mp hbytes
    have hstored : slot ∈ slots s := by simp [slots, (inOrder_perm s).subset hslot]
    obtain ⟨c, hc⟩ := slots_of_run hreach slot hstored
    exact ⟨c, hc.symm⟩
  have hrecords : file = (calls.map recordBytes ++
      List.replicate (zeroRecords fs s.calls) (List.replicate BpfLog.eventSize 0)).flatten := by
    rw [List.flatten_append, hcalls]
    exact file_of_run hconsistent hfile hwrap
  have hsize : ∀ r ∈ calls.map recordBytes ++
      List.replicate (zeroRecords fs s.calls) (List.replicate BpfLog.eventSize 0),
      r.length = BpfCodec.eventSize := by
    intro r hr
    rcases List.mem_append.mp hr with hcall | hzero
    · obtain ⟨c, -, rfl⟩ := List.mem_map.mp hcall
      exact length_recordBytes c
    · rw [List.eq_of_mem_replicate hzero]
      decide
  have hparse := parseLogFile_records hsize files
  rw [← hrecords, List.map_append, List.map_map, List.map_replicate, entryLine_zeros] at hparse
  refine ⟨hconsistent.inOrder_offsets hidle hwrap, calls, hcalls.symm, _, hparse, fun tid => ?_⟩
  rw [foldl_appendLine, List.filter_append, List.map_append, List.append_assoc,
    ← filter_entryLines calls tid]
  congr 2
  · by_cases hzero : tid = 0
    · simp [hzero]
    · simp [hzero, Ne.symm hzero]

def recordEvent (c : Call) : Event := ⟨recordBytes c, length_recordBytes c⟩

theorem allows_record (c : Call) : Allows GivesRecord (recordEvent c) :=
  ⟨fun _ => ⟨c, rfl⟩, fun _ _ => trivial, fun _ => trivial⟩

/-- One callback more than there is room for, and the thread 0 has done something unknown. -/
theorem overfull_log_read_off : ∃ s file after, Reaches (bpfLog smallFileSystem []) GivesRecord s ∧
    s.file = some file ∧ parseLogFile file (fun _ => []) = some after ∧
    (after 0).getLast? = some "0 UNKNOWN EVENT 0 0\n" := by
  obtain ⟨s, file, hs, hfile, hcalls⟩ :=
    exists_run (allows_record failedReceive) smallFileSystem [] (capacity + 1)
  have hwrap : BpfLog.eventSize * s.calls < sizeRange := by
    rw [hcalls]
    decide
  obtain ⟨calls, -, after, hparse, hlines⟩ :=
    (log_read_off smallFileSystem [] s hs file hfile hwrap fun _ => []).lines
  refine ⟨s, file, after, hs, hfile, hparse, ?_⟩
  have hzeros : zeroRecords smallFileSystem s.calls = 1 := by
    rw [hcalls]
    decide
  rw [hlines 0, hzeros, if_pos rfl, List.replicate_one, List.getLast?_concat]
  decide

end BpfRoundTrip
