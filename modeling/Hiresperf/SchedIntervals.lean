import Mathlib.Algebra.Order.BigOperators.Group.List
import Mathlib.Algebra.Ring.Int.Defs
import Mathlib.Data.List.Basic
import Mathlib.Data.List.Chain

/-!
# Scheduling intervals

`parse_sched_script` of `parse_sched.py` on the lines that its pattern matches,
and the times that `analyze_thread.py` takes from the intervals. A thread is
tracked from the first event on that shows it under the executable's name. Seen
from one thread the lines are a sequence of marks, switches out and switches in,
and the parser is a small machine on these.
-/

namespace SchedIntervals

/-- A `sched:sched_switch` line with both sides well formed. -/
structure SwitchEvent where
  cpuId : Nat
  prevComm : String
  prevPid : Int
  nextComm : String
  nextPid : Int

/-- A line that matches the pattern. One that is skipped still sets `timestamp_ns`. -/
inductive Line where
  | schedSwitch (timestampNs : Nat) (e : SwitchEvent)
  | skipped (timestampNs : Nat)

def Line.timestampNs : Line → Nat
  | .schedSwitch t _ => t
  | .skipped t => t

structure Interval where
  threadId : Int
  coreNumber : Nat
  startTimeNs : Nat
  endTimeNs : Nat
  deriving DecidableEq

/-- `current_interval`, whose end is still missing. -/
structure OpenInterval where
  coreNumber : Nat
  startTimeNs : Nat

def OpenInterval.close (o : OpenInterval) (pid : Int) (endTimeNs : Nat) : Interval :=
  ⟨pid, o.coreNumber, o.startTimeNs, endTimeNs⟩

structure ThreadData where
  intervals : List Interval
  currentInterval : Option OpenInterval

def ThreadData.empty : ThreadData := ⟨[], none⟩

/-- The variables of the loop. A thread without an entry has `none`. -/
structure ParserState where
  executablePids : Int → Bool
  perThreadData : Int → Option ThreadData
  warningLines : List SwitchEvent
  timestampNs : Nat

def ParserState.dataOf (s : ParserState) (pid : Int) : ThreadData :=
  (s.perThreadData pid).getD .empty

def ParserState.setData (s : ParserState) (pid : Int) (data : ThreadData) : ParserState :=
  { s with perThreadData := Function.update s.perThreadData pid (some data) }

def collectPids (executableName : String) (e : SwitchEvent) (s : ParserState) : ParserState :=
  { s with executablePids := fun pid => s.executablePids pid ||
      (pid == e.prevPid && e.prevComm == executableName) ||
      (pid == e.nextPid && e.nextComm == executableName) }

/-- Close the interval that is open, if one is. -/
def ThreadData.closeAt (pid : Int) (timestampNs : Nat) (data : ThreadData) : ThreadData :=
  match data.currentInterval with
  | some o => ⟨data.intervals ++ [o.close pid timestampNs], none⟩
  | none => data

def scheduledOut (timestampNs : Nat) (e : SwitchEvent) (s : ParserState) : ParserState :=
  if s.executablePids e.prevPid then
    s.setData e.prevPid ((s.dataOf e.prevPid).closeAt e.prevPid timestampNs)
  else s

def scheduledIn (timestampNs : Nat) (e : SwitchEvent) (s : ParserState) : ParserState :=
  if s.executablePids e.nextPid then
    let data := s.dataOf e.nextPid
    match data.currentInterval with
    | none => s.setData e.nextPid { data with currentInterval := some ⟨e.cpuId, timestampNs⟩ }
    | some _ => { s.setData e.nextPid data with warningLines := s.warningLines ++ [e] }
  else s

def parseLine (executableName : String) (s : ParserState) (line : Line) : ParserState :=
  let s := { s with timestampNs := line.timestampNs }
  match line with
  | .skipped _ => s
  | .schedSwitch t e => scheduledIn t e (scheduledOut t e (collectPids executableName e s))

/-- Nothing is known yet; `timestamp_ns` has no value before the first line. -/
def ParserState.initial : ParserState := ⟨fun _ => false, fun _ => none, [], 0⟩

/-- The intervals of a thread once those still open are closed at the last line's time. -/
def parseSchedScript (executableName : String) (lines : List Line) (pid : Int) : List Interval :=
  let s := lines.foldl (parseLine executableName) .initial
  ((s.dataOf pid).closeAt pid s.timestampNs).intervals

/-! ## `analyze_thread.py` -/

def Interval.durationNs (i : Interval) : Int := i.endTimeNs - i.startTimeNs

/-- `core_times[core] += duration`. -/
def addCoreTime : List (Nat × Int) → Nat → Int → List (Nat × Int)
  | [], core, duration => [(core, duration)]
  | (c, time) :: rest, core, duration =>
    if c = core then (c, time + duration) :: rest else (c, time) :: addCoreTime rest core duration

def coreTimes (sched : List Interval) : List (Nat × Int) :=
  sched.foldl (fun times i => addCoreTime times i.coreNumber i.durationNs) []

structure ThreadTimes where
  lifespanNs : Int
  totalScheduledNs : Int
  unscheduledNs : Int

/-- `none` where the program exits because a thread has no intervals. -/
def analyzeThread (sched : List Interval) : Option ThreadTimes :=
  match sched with
  | [] => none
  | first :: rest =>
    let lifespanStart := (rest.map Interval.startTimeNs).foldl min first.startTimeNs
    let lifespanEnd := (rest.map Interval.endTimeNs).foldl max first.endTimeNs
    let lifespan : Int := lifespanEnd - lifespanStart
    let total := ((coreTimes sched).map Prod.snd).sum
    some ⟨lifespan, total, lifespan - total⟩

/-! ## A thread's own view -/

/-- What a line means for one thread: a switch out, or a switch in under a name by which the
thread is known now or not. -/
inductive Mark where
  | out (timestampNs cpuId : Nat)
  | into (timestampNs cpuId : Nat) (tracked : Bool)

def Mark.timestampNs : Mark → Nat
  | .out t _ => t
  | .into t _ _ => t

def Mark.isInto : Mark → Bool
  | .out _ _ => false
  | .into _ _ _ => true

/-- The event shows the thread under the executable's name, on either side. -/
def matchesName (executableName : String) (pid : Int) (e : SwitchEvent) : Bool :=
  (pid == e.prevPid && e.prevComm == executableName) ||
    (pid == e.nextPid && e.nextComm == executableName)

/-- The marks of one event. A thread that replaces itself is switched out first. -/
def eventMarks (pid : Int) (timestampNs : Nat) (e : SwitchEvent) (tracked : Bool) : List Mark :=
  (if e.prevPid = pid then [.out timestampNs e.cpuId] else []) ++
    if e.nextPid = pid then [.into timestampNs e.cpuId tracked] else []

def marks (executableName : String) (pid : Int) : Bool → List Line → List Mark
  | _, [] => []
  | tracked, .skipped _ :: rest => marks executableName pid tracked rest
  | tracked, .schedSwitch t e :: rest =>
    let tracked := tracked || matchesName executableName pid e
    eventMarks pid t e tracked ++ marks executableName pid tracked rest

/-- What the parser does with a mark. -/
def applyMark (pid : Int) (data : ThreadData) : Mark → ThreadData
  | .out t _ => data.closeAt pid t
  | .into t cpu tracked =>
    match data.currentInterval with
    | none => if tracked then { data with currentInterval := some ⟨cpu, t⟩ } else data
    | some _ => data

/-- Only a tracked thread has an interval open. -/
def TrackedIfOpen (pid : Int) (s : ParserState) : Prop :=
  (s.dataOf pid).currentInterval.isSome = true → s.executablePids pid = true

theorem closeAt_of_none {pid : Int} {t : Nat} {data : ThreadData}
    (h : data.currentInterval = none) : data.closeAt pid t = data := by
  rw [ThreadData.closeAt, h]

@[simp] theorem dataOf_setData (s : ParserState) (p : Int) (data : ThreadData) (pid : Int) :
    (s.setData p data).dataOf pid = if p = pid then data else s.dataOf pid := by
  by_cases h : p = pid
  · subst h
    simp [ParserState.setData, ParserState.dataOf]
  · simp [ParserState.setData, ParserState.dataOf, h, Ne.symm h]

theorem scheduledOut_dataOf {s : ParserState} {pid : Int} (open_ : TrackedIfOpen pid s) (t : Nat)
    (e : SwitchEvent) :
    (scheduledOut t e s).dataOf pid =
      if e.prevPid = pid then (s.dataOf pid).closeAt pid t else s.dataOf pid := by
  rw [scheduledOut]
  split
  · rw [dataOf_setData]
    split
    · rename_i h
      rw [h]
    · rfl
  · rename_i untracked
    split
    · rename_i h
      -- An untracked thread has nothing open, so there was nothing to close.
      have closed : (s.dataOf pid).currentInterval = none := by
        by_contra hopen
        exact untracked (h ▸ open_ (Option.isSome_iff_ne_none.mpr hopen))
      exact (closeAt_of_none closed).symm
    · rfl

theorem scheduledIn_dataOf (s : ParserState) (pid : Int) (t : Nat) (e : SwitchEvent) :
    (scheduledIn t e s).dataOf pid =
      if e.nextPid = pid then applyMark pid (s.dataOf pid) (.into t e.cpuId (s.executablePids pid))
      else s.dataOf pid := by
  by_cases h : e.nextPid = pid
  · subst h
    rw [scheduledIn]
    cases tracked : s.executablePids e.nextPid with
    | false => cases hc : (s.dataOf e.nextPid).currentInterval <;> simp [applyMark, hc]
    | true =>
      cases hc : (s.dataOf e.nextPid).currentInterval with
      | none => simp [applyMark, hc]
      | some o =>
        have hset := dataOf_setData s e.nextPid (s.dataOf e.nextPid) e.nextPid
        rw [if_pos rfl] at hset
        simp only [applyMark, hc, if_true]
        exact hset
  · rw [scheduledIn, if_neg h]
    split
    · dsimp only
      split
      · simp [h]
      · have hset := dataOf_setData s e.nextPid (s.dataOf e.nextPid) pid
        rw [if_neg h] at hset
        exact hset
    · rfl

/-- Neither side of an event touches the set of threads or the time. -/
@[simp] theorem scheduledOut_frame (t : Nat) (e : SwitchEvent) (s : ParserState) :
    (scheduledOut t e s).executablePids = s.executablePids ∧
      (scheduledOut t e s).timestampNs = s.timestampNs := by
  rw [scheduledOut]
  split <;> exact ⟨rfl, rfl⟩

@[simp] theorem scheduledIn_frame (t : Nat) (e : SwitchEvent) (s : ParserState) :
    (scheduledIn t e s).executablePids = s.executablePids ∧
      (scheduledIn t e s).timestampNs = s.timestampNs := by
  rw [scheduledIn]
  split
  · dsimp only
    split <;> exact ⟨rfl, rfl⟩
  · exact ⟨rfl, rfl⟩

theorem parseLine_timestampNs (executableName : String) (s : ParserState) (line : Line) :
    (parseLine executableName s line).timestampNs = line.timestampNs := by
  cases line with
  | schedSwitch t e => simp [parseLine, collectPids, Line.timestampNs]
  | skipped t => rfl

/-- Whether the thread is tracked once the line has been read. -/
def trackedAfter (executableName : String) (pid : Int) (tracked : Bool) : Line → Bool
  | .skipped _ => tracked
  | .schedSwitch _ e => tracked || matchesName executableName pid e

/-- The marks of one line. -/
def lineMarks (executableName : String) (pid : Int) (tracked : Bool) : Line → List Mark
  | .skipped _ => []
  | .schedSwitch t e => eventMarks pid t e (tracked || matchesName executableName pid e)

theorem marks_cons (executableName : String) (pid : Int) (tracked : Bool) (line : Line)
    (rest : List Line) :
    marks executableName pid tracked (line :: rest) =
      lineMarks executableName pid tracked line ++
        marks executableName pid (trackedAfter executableName pid tracked line) rest := by
  cases line with
  | schedSwitch t e => rfl
  | skipped t => rfl

theorem parseLine_executablePids (executableName : String) (s : ParserState) (line : Line)
    (pid : Int) :
    (parseLine executableName s line).executablePids pid =
      trackedAfter executableName pid (s.executablePids pid) line := by
  cases line with
  | schedSwitch t e => simp [parseLine, collectPids, trackedAfter, matchesName, Bool.or_assoc]
  | skipped t => rfl

/-- One line moves a thread's data by the line's marks for that thread. -/
theorem parseLine_dataOf (executableName : String) {s : ParserState} {pid : Int}
    (open_ : TrackedIfOpen pid s) (line : Line) :
    (parseLine executableName s line).dataOf pid =
      (lineMarks executableName pid (s.executablePids pid) line).foldl (applyMark pid)
        (s.dataOf pid) := by
  cases line with
  | skipped t => rfl
  | schedSwitch t e =>
    let s₁ := collectPids executableName e { s with timestampNs := t }
    have tracked : s₁.executablePids pid =
        (s.executablePids pid || matchesName executableName pid e) := by
      simp [s₁, collectPids, matchesName, Bool.or_assoc]
    have hopen : TrackedIfOpen pid s₁ := by
      intro h
      rw [tracked, open_ h, Bool.true_or]
    change (scheduledIn t e (scheduledOut t e s₁)).dataOf pid = _
    rw [scheduledIn_dataOf, (scheduledOut_frame t e s₁).1, scheduledOut_dataOf hopen, tracked]
    have hdata : s₁.dataOf pid = s.dataOf pid := rfl
    rw [hdata, lineMarks, eventMarks]
    by_cases hp : e.prevPid = pid <;> by_cases hn : e.nextPid = pid <;>
      simp [hp, hn, applyMark]

theorem parseLine_trackedIfOpen (executableName : String) {s : ParserState} {pid : Int}
    (open_ : TrackedIfOpen pid s) (line : Line) :
    TrackedIfOpen pid (parseLine executableName s line) := by
  intro h
  rw [parseLine_dataOf executableName open_] at h
  rw [parseLine_executablePids]
  cases line with
  | skipped t => exact open_ h
  | schedSwitch t e =>
    rw [trackedAfter]
    by_contra untracked
    have hfalse := Bool.eq_false_iff.mpr untracked
    have hclosed : (s.dataOf pid).currentInterval = none := by
      by_contra hopen
      simp [open_ (Option.isSome_iff_ne_none.mpr hopen)] at hfalse
    rw [lineMarks, hfalse, eventMarks] at h
    split at h <;> split at h <;>
      simp [applyMark, closeAt_of_none hclosed, hclosed] at h

/-- The whole run, seen from one thread. -/
theorem foldl_parseLine_dataOf (executableName : String) (pid : Int) (lines : List Line)
    (s : ParserState) (open_ : TrackedIfOpen pid s) :
    (lines.foldl (parseLine executableName) s).dataOf pid =
      (marks executableName pid (s.executablePids pid) lines).foldl (applyMark pid)
        (s.dataOf pid) := by
  induction lines generalizing s with
  | nil => rfl
  | cons line rest ih =>
    rw [List.foldl_cons, ih _ (parseLine_trackedIfOpen executableName open_ line),
      parseLine_dataOf executableName open_, parseLine_executablePids, marks_cons,
      List.foldl_append]

/-! ## Order of the intervals -/

/-- The closed intervals lie one after the other before `now`, and the open one after them. -/
structure InOrder (now : Nat) (data : ThreadData) : Prop where
  valid : ∀ i ∈ data.intervals, i.startTimeNs ≤ i.endTimeNs
  past : ∀ i ∈ data.intervals, i.endTimeNs ≤ now
  apart : data.intervals.Pairwise fun a b => a.endTimeNs ≤ b.startTimeNs
  started : ∀ o ∈ data.currentInterval, o.startTimeNs ≤ now
  after : ∀ o ∈ data.currentInterval, ∀ i ∈ data.intervals, i.endTimeNs ≤ o.startTimeNs

theorem InOrder.mono {now later : Nat} {data : ThreadData} (h : InOrder now data)
    (hle : now ≤ later) : InOrder later data where
  valid := h.valid
  past := fun i hi => (h.past i hi).trans hle
  apart := h.apart
  started := fun o ho => (h.started o ho).trans hle
  after := h.after

theorem InOrder.closeAt {now : Nat} {data : ThreadData} (h : InOrder now data) (pid : Int) :
    InOrder now (data.closeAt pid now) := by
  cases hc : data.currentInterval with
  | none => rwa [closeAt_of_none hc]
  | some o =>
    have started := h.started o hc
    have after := h.after o hc
    rw [ThreadData.closeAt, hc]
    refine ⟨?_, ?_, ?_, by simp, by simp⟩
    · intro i hi
      rcases List.mem_append.mp hi with hi | hi
      · exact h.valid i hi
      · rw [List.mem_singleton.mp hi]
        exact started
    · intro i hi
      rcases List.mem_append.mp hi with hi | hi
      · exact h.past i hi
      · rw [List.mem_singleton.mp hi]
        exact le_refl now
    · refine List.pairwise_append.mpr ⟨h.apart, List.pairwise_singleton _ _, ?_⟩
      intro a ha b hb
      rw [List.mem_singleton.mp hb]
      exact after a ha

theorem InOrder.applyMark {now : Nat} {data : ThreadData} (h : InOrder now data) (pid : Int)
    {m : Mark} (hm : m.timestampNs = now) : InOrder now (applyMark pid data m) := by
  cases m with
  | out t cpu =>
    obtain rfl : t = now := hm
    exact h.closeAt pid
  | into t cpu tracked =>
    obtain rfl : t = now := hm
    rw [SchedIntervals.applyMark]
    split
    · split
      · refine ⟨h.valid, h.past, h.apart, ?_, ?_⟩
        · rintro o ⟨⟩
          exact le_refl t
        · rintro o ⟨⟩ i hi
          exact h.past i hi
      · exact h
    · exact h

theorem lineMarks_timestampNs {executableName : String} {pid : Int} {tracked : Bool} {line : Line}
    {m : Mark} (hm : m ∈ lineMarks executableName pid tracked line) :
    m.timestampNs = line.timestampNs := by
  cases line with
  | skipped t => cases hm
  | schedSwitch t e =>
    rw [lineMarks, eventMarks] at hm
    rcases List.mem_append.mp hm with hm | hm
    · split at hm
      · rw [List.mem_singleton.mp hm]
        rfl
      · cases hm
    · split at hm
      · rw [List.mem_singleton.mp hm]
        rfl
      · cases hm

theorem InOrder.foldl_applyMark {now : Nat} (pid : Int) (ms : List Mark) {data : ThreadData}
    (h : InOrder now data) (hms : ∀ m ∈ ms, m.timestampNs = now) :
    InOrder now (ms.foldl (SchedIntervals.applyMark pid) data) := by
  induction ms generalizing data with
  | nil => exact h
  | cons m ms ih =>
    have hm := h.applyMark pid (hms m (List.mem_cons_self ..))
    exact ih hm fun m' hm' => hms m' (List.mem_cons_of_mem _ hm')

/-- What every line of a trace in time order keeps, for one thread. -/
structure ParserInv (pid : Int) (s : ParserState) : Prop where
  tracked : TrackedIfOpen pid s
  inOrder : InOrder s.timestampNs (s.dataOf pid)

theorem ParserInv.initial (pid : Int) : ParserInv pid .initial where
  tracked := by simp [TrackedIfOpen, ParserState.dataOf, ParserState.initial, ThreadData.empty]
  inOrder := by
    constructor <;> simp [ParserState.dataOf, ParserState.initial, ThreadData.empty]

theorem ParserInv.parseLine {pid : Int} {s : ParserState} (h : ParserInv pid s)
    (executableName : String) {line : Line} (hle : s.timestampNs ≤ line.timestampNs) :
    ParserInv pid (parseLine executableName s line) := by
  refine ⟨parseLine_trackedIfOpen executableName h.tracked line, ?_⟩
  rw [parseLine_timestampNs, parseLine_dataOf executableName h.tracked]
  exact (h.inOrder.mono hle).foldl_applyMark pid _ fun m hm => lineMarks_timestampNs hm

theorem ParserInv.foldl_parseLine {pid : Int} (executableName : String) (lines : List Line)
    {s : ParserState} (h : ParserInv pid s)
    (sorted : lines.Pairwise fun a b => a.timestampNs ≤ b.timestampNs)
    (first : ∀ line ∈ lines, s.timestampNs ≤ line.timestampNs) :
    ParserInv pid (lines.foldl (SchedIntervals.parseLine executableName) s) := by
  induction lines generalizing s with
  | nil => exact h
  | cons line rest ih =>
    obtain ⟨hline, hrest⟩ := List.pairwise_cons.mp sorted
    refine ih (h.parseLine executableName (first line (List.mem_cons_self ..))) hrest ?_
    intro later hlater
    rw [parseLine_timestampNs]
    exact hline later hlater

/-- The state at the end of a trace in time order. -/
theorem inOrder_parseSchedScript (executableName : String) (lines : List Line) (pid : Int)
    (sorted : lines.Pairwise fun a b => a.timestampNs ≤ b.timestampNs) :
    ∃ data : ThreadData, ∃ now, data.intervals = parseSchedScript executableName lines pid ∧
      InOrder now data := by
  have inv := (ParserInv.initial pid).foldl_parseLine executableName lines sorted
    fun line _ => Nat.zero_le _
  exact ⟨_, _, rfl, inv.inOrder.closeAt pid⟩

/-! ## Time on the cores -/

theorem addCoreTime_sum (times : List (Nat × Int)) (core : Nat) (duration : Int) :
    ((addCoreTime times core duration).map Prod.snd).sum =
      (times.map Prod.snd).sum + duration := by
  induction times with
  | nil => simp [addCoreTime]
  | cons entry rest ih =>
    obtain ⟨c, time⟩ := entry
    rw [addCoreTime]
    split
    · simp only [List.map_cons, List.sum_cons]
      omega
    · simp only [List.map_cons, List.sum_cons, ih]
      omega

/-- However the cores are told apart, each duration is counted once. -/
theorem coreTimes_sum (sched : List Interval) :
    ((coreTimes sched).map Prod.snd).sum = (sched.map Interval.durationNs).sum := by
  have go : ∀ times : List (Nat × Int),
      ((sched.foldl (fun times i => addCoreTime times i.coreNumber i.durationNs) times).map
        Prod.snd).sum = (times.map Prod.snd).sum + (sched.map Interval.durationNs).sum := by
    induction sched with
    | nil => simp
    | cons i rest ih =>
      intro times
      rw [List.foldl_cons, ih, addCoreTime_sum, List.map_cons, List.sum_cons, add_assoc]
  simpa [coreTimes] using go []

/-- Intervals that lie one after the other inside a span are not longer than it together. -/
theorem durations_le_span (sched : List Interval) (a b : Nat) (hab : a ≤ b)
    (valid : ∀ i ∈ sched, i.startTimeNs ≤ i.endTimeNs)
    (apart : sched.Pairwise fun i j => i.endTimeNs ≤ j.startTimeNs)
    (hstart : ∀ i ∈ sched, a ≤ i.startTimeNs) (hend : ∀ i ∈ sched, i.endTimeNs ≤ b) :
    (sched.map Interval.durationNs).sum ≤ (b : Int) - a := by
  induction sched generalizing a with
  | nil =>
    simp only [List.map_nil, List.sum_nil]
    omega
  | cons i rest ih =>
    obtain ⟨hi, hrest⟩ := List.pairwise_cons.mp apart
    obtain ⟨validi, validrest⟩ := List.forall_mem_cons.mp valid
    obtain ⟨starti, _⟩ := List.forall_mem_cons.mp hstart
    obtain ⟨endi, endrest⟩ := List.forall_mem_cons.mp hend
    -- What is left of the span begins where the first interval ends.
    have hih := ih i.endTimeNs endi validrest hrest hi endrest
    rw [List.map_cons, List.sum_cons, Interval.durationNs]
    omega

/-- The rows come back from the database in the order of their starts, which may exchange
intervals that start at the same time. -/
theorem analyzeThread_bounds {sched ordered : List Interval} (perm : sched.Perm ordered)
    (valid : ∀ i ∈ ordered, i.startTimeNs ≤ i.endTimeNs)
    (apart : ordered.Pairwise fun i j => i.endTimeNs ≤ j.startTimeNs)
    {times : ThreadTimes} (h : analyzeThread sched = some times) :
    (ordered.map Interval.durationNs).sum ≤ times.lifespanNs ∧ 0 ≤ times.unscheduledNs := by
  cases sched with
  | nil => cases h
  | cons first rest =>
    simp only [analyzeThread, Option.some.injEq] at h
    subst h
    -- the two folds are the least start and the greatest end of the rows
    have hmin : ∀ i ∈ first :: rest,
        (rest.map Interval.startTimeNs).foldl min first.startTimeNs ≤ i.startTimeNs :=
      fun i hi => List.min_le_of_mem (List.mem_map_of_mem hi)
    have hmax : ∀ i ∈ first :: rest,
        i.endTimeNs ≤ (rest.map Interval.endTimeNs).foldl max first.endTimeNs :=
      fun i hi => List.le_max_of_mem (List.mem_map_of_mem hi)
    generalize (rest.map Interval.startTimeNs).foldl min first.startTimeNs = a at hmin
    generalize (rest.map Interval.endTimeNs).foldl max first.endTimeNs = b at hmax
    have hstart : ∀ i ∈ ordered, a ≤ i.startTimeNs :=
      fun i hi => hmin i (perm.mem_iff.mpr hi)
    have hend : ∀ i ∈ ordered, i.endTimeNs ≤ b := fun i hi => hmax i (perm.mem_iff.mpr hi)
    have startFirst := hmin first (List.mem_cons_self ..)
    have endFirst := hmax first (List.mem_cons_self ..)
    have validFirst := valid first (perm.mem_iff.mp (List.mem_cons_self ..))
    have hsum := durations_le_span ordered a b (by omega) valid apart hstart hend
    have hperm : ((first :: rest).map Interval.durationNs).sum =
        (ordered.map Interval.durationNs).sum := (perm.map _).sum_eq
    refine ⟨hsum, ?_⟩
    dsimp only
    rw [coreTimes_sum, hperm]
    omega

/-! ## Consistent traces -/

/-- A thread's switches in and out alternate. -/
def Alternating (ms : List Mark) : Prop := ms.IsChain fun a b => a.isInto ≠ b.isInto

/-- The time of the next switch out. -/
def nextOut : List Mark → Option Nat
  | [] => none
  | .out t _ :: _ => some t
  | .into _ _ _ :: rest => nextOut rest

/-- The periods that start at a switch in of the thread while it is known, each up to the next
switch out or to the last line. -/
def periods (pid : Int) (last : Nat) : List Mark → List Interval
  | [] => []
  | .out _ _ :: rest => periods pid last rest
  | .into t cpu tracked :: rest =>
    if tracked then ⟨pid, cpu, t, (nextOut rest).getD last⟩ :: periods pid last rest
    else periods pid last rest

def lastTimeNs (lines : List Line) : Nat := (lines.getLast?.map Line.timestampNs).getD 0

theorem foldl_parseLine_timestampNs (executableName : String) (lines : List Line) :
    (lines.foldl (parseLine executableName) .initial).timestampNs = lastTimeNs lines := by
  rcases List.eq_nil_or_concat lines with rfl | ⟨rest, line, rfl⟩
  · rfl
  · simp [lastTimeNs, parseLine_timestampNs]

/-- With the switches alternating no interval is left out: while one is open the next mark of
the thread is a switch out. -/
theorem foldl_applyMark_eq_periods (pid : Int) (last : Nat) (ms : List Mark) (data : ThreadData)
    (alternating : Alternating ms)
    (next : ∀ o ∈ data.currentInterval, ∀ m ∈ ms.head?, m.isInto = false) :
    ((ms.foldl (applyMark pid) data).closeAt pid last).intervals =
      (data.closeAt pid ((nextOut ms).getD last)).intervals ++ periods pid last ms := by
  induction ms generalizing data with
  | nil => simp [nextOut, periods]
  | cons m ms ih =>
    have htail : Alternating ms := alternating.tail
    cases m with
    | out t cpu =>
      have hclosed : (data.closeAt pid t).currentInterval = none := by
        cases hc : data.currentInterval with
        | none => rwa [closeAt_of_none hc]
        | some o => rw [ThreadData.closeAt, hc]
      rw [List.foldl_cons, applyMark, ih _ htail (by simp [hclosed]), closeAt_of_none hclosed]
      rfl
    | into t cpu tracked =>
      have hc : data.currentInterval = none := by
        cases hc : data.currentInterval with
        | none => rfl
        | some o => cases next o hc _ rfl
      cases tracked with
      | false =>
        rw [List.foldl_cons]
        have hsame : applyMark pid data (.into t cpu false) = data := by simp [applyMark, hc]
        rw [hsame, ih _ htail (by simp [hc]), closeAt_of_none hc, closeAt_of_none hc]
        rfl
      | true =>
        have hopened : applyMark pid data (.into t cpu true) =
            { data with currentInterval := some ⟨cpu, t⟩ } := by simp [applyMark, hc]
        have hnext : ∀ m ∈ ms.head?, m.isInto = false := by
          intro m hm
          have hne := List.IsChain.rel_head? alternating hm
          simpa [Mark.isInto] using hne
        rw [List.foldl_cons, hopened, ih _ htail fun _ _ => hnext, closeAt_of_none hc]
        simp [ThreadData.closeAt, OpenInterval.close, periods]

theorem parseSchedScript_eq_periods (executableName : String) (lines : List Line) (pid : Int)
    (alternating : Alternating (marks executableName pid false lines)) :
    parseSchedScript executableName lines pid =
      periods pid (lastTimeNs lines) (marks executableName pid false lines) := by
  have hrun : (lines.foldl (parseLine executableName) .initial).dataOf pid =
      (marks executableName pid false lines).foldl (applyMark pid) .empty :=
    foldl_parseLine_dataOf executableName pid lines .initial (ParserInv.initial pid).tracked
  rw [parseSchedScript, hrun, foldl_parseLine_timestampNs,
    foldl_applyMark_eq_periods pid _ _ _ alternating (by simp [ThreadData.empty])]
  rfl

/-- The intervals of every thread are in time order and meet at most at their ends, so together
they fit into the thread's lifespan. When the thread's switches alternate they are its periods
on a core; on which CPU it is switched out does not matter. -/
theorem intervals_in_order_and_exact (executableName : String) (lines : List Line)
    (sorted : lines.Pairwise fun a b => a.timestampNs ≤ b.timestampNs) (pid : Int) :
    (∀ i ∈ parseSchedScript executableName lines pid, i.startTimeNs ≤ i.endTimeNs) ∧
    ((parseSchedScript executableName lines pid).Pairwise
      fun a b => a.endTimeNs ≤ b.startTimeNs) ∧
    (∀ (sched : List Interval) (times : ThreadTimes),
      sched.Perm (parseSchedScript executableName lines pid) →
      analyzeThread sched = some times →
      ((parseSchedScript executableName lines pid).map Interval.durationNs).sum ≤
        times.lifespanNs ∧ 0 ≤ times.unscheduledNs) ∧
    (Alternating (marks executableName pid false lines) →
      parseSchedScript executableName lines pid =
        periods pid (lastTimeNs lines) (marks executableName pid false lines)) := by
  obtain ⟨data, now, hdata, inOrder⟩ := inOrder_parseSchedScript executableName lines pid sorted
  have valid := inOrder.valid
  have apart := inOrder.apart
  rw [hdata] at valid apart
  refine ⟨valid, apart, ?_, parseSchedScript_eq_periods executableName lines pid⟩
  intro sched times perm h
  exact analyzeThread_bounds perm valid apart h

/-- Thread 7 runs twice; it takes the name `app` only while it is on core 1 the first time. -/
def renamedTrace : List Line :=
  [.schedSwitch 10 ⟨1, "idle", 0, "sh", 7⟩, .schedSwitch 20 ⟨1, "app", 7, "idle", 0⟩,
    .schedSwitch 25 ⟨2, "idle", 0, "app", 7⟩, .schedSwitch 30 ⟨2, "app", 7, "idle", 0⟩,
    .schedSwitch 30 ⟨1, "idle", 0, "app", 7⟩, .skipped 40]

theorem intervals_of_renamedTrace :
    Alternating (marks "app" 7 false renamedTrace) ∧
    parseSchedScript "app" renamedTrace 7 =
      periods 7 (lastTimeNs renamedTrace) (marks "app" 7 false renamedTrace) ∧
    periods 7 (lastTimeNs renamedTrace) (marks "app" 7 false renamedTrace) =
      [⟨7, 2, 25, 30⟩, ⟨7, 1, 30, 40⟩] := by
  have alternating : Alternating (marks "app" 7 false renamedTrace) := by
    unfold Alternating
    decide
  refine ⟨alternating, ?_, by decide⟩
  exact (intervals_in_order_and_exact "app" renamedTrace (by decide) 7).2.2.2 alternating

end SchedIntervals
