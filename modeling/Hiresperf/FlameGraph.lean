import Hiresperf.Foundation.Nesting
import Hiresperf.FunctionSearch

/-!
# The rows of a flame graph

`draw_flamegraph` of `draw_invocation.py`, as far as the bars of the functions go.
The stack samples are sorted by their ends and then, stably, by their starts, so
that of two calls that start together the inner one comes first. All intervals
before the first one with the description of the invocation are left out, and the
depth of the others is the number of intervals that are still open. The coordinates of
the bars are in exact arithmetic.
-/

namespace FlameGraph

open AnalysisDatabase FunctionSearch InvocationMetrics LdbDecoders Nesting

/-! ## The script -/

structure FunctionInterval where
  startTimeNs : Int
  endTimeNs : Int
  functionDesc : Option String
  deriving DecidableEq

def functionInterval (row : LdbRow) : Option FunctionInterval :=
  if row.event.eventType = eventStackSample then
    some ⟨row.event.timestampNs - latencyNs (sampleOf row), row.event.timestampNs, row.funcDesc⟩
  else none

/-- The intervals of the stack samples, by the times of the events. -/
def functionIntervals (events : LdbTable) : List FunctionInterval :=
  (events.rows.mergeSort fun a b =>
    decide (a.event.timestampNs ≤ b.event.timestampNs)).filterMap functionInterval

def byStartTime (intervals : List FunctionInterval) : List FunctionInterval :=
  intervals.mergeSort fun a b => decide (a.startTimeNs ≤ b.startTimeNs)

/-- The loop with `target_func_appeared`. -/
def filteredIntervals (funcDesc : Option String) : Bool → List FunctionInterval →
    List FunctionInterval
  | _, [] => []
  | targetFuncAppeared, interval :: rest =>
    if !targetFuncAppeared && interval.functionDesc != funcDesc then
      filteredIntervals funcDesc targetFuncAppeared rest
    else interval :: filteredIntervals funcDesc true rest

structure Depths where
  activeIntervals : List FunctionInterval
  maxDepth : Nat
  assigned : List (FunctionInterval × Nat)

def assignDepth (s : Depths) (interval : FunctionInterval) : Depths :=
  let active := s.activeIntervals.filter fun i => decide (i.endTimeNs > interval.startTimeNs)
  let depth := active.length
  ⟨active ++ [interval], if depth > s.maxDepth then depth else s.maxDepth,
    s.assigned ++ [(interval, depth)]⟩

def assignDepths (invocation : FoundInvocation) (events : LdbTable) : Depths :=
  (filteredIntervals invocation.funcDesc false (byStartTime (functionIntervals events))).foldl
    assignDepth ⟨[], 0, []⟩

/-- A coordinate is `none` where it is not a finite number. -/
structure Bar where
  interval : FunctionInterval
  startX : Option ℚ
  y : Int
  rectWidth : Option ℚ

/-- The times of an invocation are `np.int64`: for one that takes no time the quotient is
infinite or not a number. -/
def timeToX (invocation : FoundInvocation) (timestampNs : Int) : Option ℚ :=
  if invocation.endTimeNs - invocation.startTimeNs = 0 then none
  else
    some (20 + (timestampNs - invocation.startTimeNs) /
      ((invocation.endTimeNs - invocation.startTimeNs : Int) : ℚ) * 1000)

def width (startX endX : Option ℚ) : Option ℚ :=
  startX.bind fun startX => endX.map fun endX => max (endX - startX) (1 / 2)

/-- The depths are reversed, so that the shallowest bar is at the bottom. -/
def bar (invocation : FoundInvocation) (maxDepth : Nat) (p : FunctionInterval × Nat) : Bar where
  interval := p.1
  startX := timeToX invocation p.1.startTimeNs
  y := 100 + ((maxDepth : Int) - p.2) * 20
  rectWidth := width (timeToX invocation p.1.startTimeNs) (timeToX invocation p.1.endTimeNs)

/-- The bars, from top to bottom by `y`. A missing description has no `replace`; `parse_ldb.py`
gives every stack sample one. -/
def drawFlamegraph (invocation : FoundInvocation) (events : LdbTable) : Option (List Bar) :=
  let depths := assignDepths invocation events
  if depths.assigned.all fun p => p.1.functionDesc.isSome then
    some (depths.assigned.map (bar invocation depths.maxDepth))
  else none

/-! ## What the graph should show -/

abbrev start (i : FunctionInterval) : Int := i.startTimeNs

abbrev stop (i : FunctionInterval) : Int := i.endTimeNs

/-- An invocation with the stack samples of its thread: nested calls, of which the invocation
is the outermost. -/
structure NestedCalls where
  invocation : FoundInvocation
  events : LdbTable
  laminar : Laminar start stop (functionIntervals events)
  inside : ∀ i ∈ functionIntervals events,
    invocation.startTimeNs ≤ i.startTimeNs ∧ i.endTimeNs ≤ invocation.endTimeNs
  own : ⟨invocation.startTimeNs, invocation.endTimeNs, invocation.funcDesc⟩ ∈
    functionIntervals events

/-- Every interval is kept and lies as deep as the number of the others that contain it, so
that calls are drawn above their callers and intervals that overlap in different rows. -/
structure ShowsNesting (invocation : FoundInvocation) (events : LdbTable) : Prop where
  keeps : ((assignDepths invocation events).assigned.map Prod.fst).Perm (functionIntervals events)
  depth : ∀ p ∈ (assignDepths invocation events).assigned,
    p.2 = (containers start stop (functionIntervals events) p.1).length
  above : ∀ bars, drawFlamegraph invocation events = some bars → ∀ callee ∈ bars,
    ∀ caller ∈ bars, callee.interval ≠ caller.interval →
      Contains start stop caller.interval callee.interval → callee.y < caller.y
  rows : ∀ bars, drawFlamegraph invocation events = some bars → ∀ a ∈ bars, ∀ b ∈ bars,
    a.interval ≠ b.interval → ¬ Apart start stop a.interval b.interval → a.y ≠ b.y

/-! ## The loops -/

theorem foldl_assignDepth (s : Depths) (l : List FunctionInterval) :
    (l.foldl assignDepth s).assigned = s.assigned ++ scan start stop s.activeIntervals l := by
  induction l generalizing s with
  | nil => rw [List.foldl_nil, scan, List.append_nil]
  | cons i rest ih =>
    rw [List.foldl_cons, ih, scan, assignDepth, List.append_assoc]
    rfl

theorem filteredIntervals_true (funcDesc : Option String) (l : List FunctionInterval) :
    filteredIntervals funcDesc true l = l := by
  induction l with
  | nil => rfl
  | cons i rest ih => simp [filteredIntervals, ih]

theorem filteredIntervals_sublist (funcDesc : Option String) (appeared : Bool)
    (l : List FunctionInterval) : (filteredIntervals funcDesc appeared l).Sublist l := by
  induction l generalizing appeared with
  | nil => exact List.Sublist.slnil
  | cons i rest ih =>
    rw [filteredIntervals]
    split_ifs with hskip
    · exact (ih appeared).cons i
    · exact (ih true).cons_cons i

/-- All are kept if the first is of the function. -/
theorem filteredIntervals_of_head {funcDesc : Option String} {i : FunctionInterval}
    (hdesc : i.functionDesc = funcDesc) (rest : List FunctionInterval) :
    filteredIntervals funcDesc false (i :: rest) = i :: rest := by
  rw [filteredIntervals, if_neg (by simp [hdesc]), filteredIntervals_true]

/-! ## The order -/

theorem functionIntervals_byEnd (events : LdbTable) :
    (functionIntervals events).Pairwise fun a b => stop a ≤ stop b := by
  have htimes : (events.rows.mergeSort fun a b =>
      decide (a.event.timestampNs ≤ b.event.timestampNs)).Pairwise
      fun a b => decide (a.event.timestampNs ≤ b.event.timestampNs) = true :=
    List.pairwise_mergeSort (by simpa using fun a b c => le_trans)
      (by simpa using fun a b : LdbRow => le_total a.event.timestampNs b.event.timestampNs) _
  refine htimes.filterMap functionInterval fun a b hab i hi j hj => ?_
  simp only [functionInterval, Option.ite_none_right_eq_some, Option.some.injEq] at hi hj
  rw [decide_eq_true_iff] at hab
  rw [← hi.2, ← hj.2]
  exact Int.ofNat_le.mpr hab

theorem byStartTime_perm (intervals : List FunctionInterval) :
    (byStartTime intervals).Perm intervals := List.mergeSort_perm intervals _

theorem byStartTime_sorted (events : LdbTable) :
    (byStartTime (functionIntervals events)).Pairwise (ByStart start stop) :=
  pairwise_byStart_mergeSort (functionIntervals_byEnd events)

/-! ## When the graph is right -/

/-- The list that the depths are assigned over. -/
def kept (invocation : FoundInvocation) (events : LdbTable) : List FunctionInterval :=
  filteredIntervals invocation.funcDesc false (byStartTime (functionIntervals events))

theorem assigned_eq_scan (invocation : FoundInvocation) (events : LdbTable) :
    (assignDepths invocation events).assigned = scan start stop [] (kept invocation events) := by
  rw [assignDepths, foldl_assignDepth]
  rfl

theorem map_fst_assigned (invocation : FoundInvocation) (events : LdbTable) :
    (assignDepths invocation events).assigned.map Prod.fst = kept invocation events := by
  rw [assigned_eq_scan, map_fst_scan]

theorem kept_eq_of_perm {invocation : FoundInvocation} {events : LdbTable}
    (hperm : (kept invocation events).Perm (functionIntervals events)) :
    kept invocation events = byStartTime (functionIntervals events) := by
  apply (filteredIntervals_sublist _ _ _).eq_of_length
  exact hperm.length_eq.trans (byStartTime_perm _).length_eq.symm

/-- If no two intervals start together, the invocation is the first of them. -/
theorem kept_of_separate (input : NestedCalls)
    (hsep : Separate start stop (functionIntervals input.events)) :
    kept input.invocation input.events = byStartTime (functionIntervals input.events) := by
  have hperm := byStartTime_perm (functionIntervals input.events)
  have hown := hperm.mem_iff.mpr input.own
  have hsorted := pairwise_start (byStartTime_sorted input.events)
  rw [kept]
  cases hlist : byStartTime (functionIntervals input.events) with
  | nil => rw [hlist] at hown; exact absurd hown List.not_mem_nil
  | cons first rest =>
    rw [hlist] at hown hsorted hperm
    have hmem : first ∈ functionIntervals input.events := hperm.mem_iff.mp List.mem_cons_self
    apply filteredIntervals_of_head
    rcases List.mem_cons.mp hown with heq | hrest
    · rw [← heq]
    · -- nothing starts before the invocation, and the first interval not after it
      have hle := (List.pairwise_cons.mp hsorted).1 _ hrest
      have hge := (input.inside first hmem).1
      by_contra hdesc
      refine hsep.starts first hmem _ input.own ?_ (le_antisymm hle hge)
      rintro rfl
      exact hdesc rfl

theorem depth_iff_separate {input : NestedCalls}
    (hkept : kept input.invocation input.events = byStartTime (functionIntervals input.events)) :
    (∀ p ∈ (assignDepths input.invocation input.events).assigned,
        p.2 = (containers start stop (functionIntervals input.events) p.1).length) ↔
      Separate start stop (functionIntervals input.events) := by
  have hperm := byStartTime_perm (functionIntervals input.events)
  have hiff := depths_iff_separate (input.laminar.perm hperm.symm) (byStartTime_sorted input.events)
  rw [separate_perm hperm] at hiff
  rw [← hiff, assigned_eq_scan, hkept]
  simp only [containers_length_perm hperm]

theorem mem_bars {invocation : FoundInvocation} {events : LdbTable} {bars : List Bar}
    (hbars : drawFlamegraph invocation events = some bars) {b : Bar} (hb : b ∈ bars) :
    ∃ p ∈ (assignDepths invocation events).assigned, b.interval = p.1 ∧
      b.y = 100 + (((assignDepths invocation events).maxDepth : Int) - p.2) * 20 := by
  rw [drawFlamegraph] at hbars
  split_ifs at hbars
  rw [← Option.some.inj hbars] at hb
  obtain ⟨p, hp, rfl⟩ := List.mem_map.mp hb
  exact ⟨p, hp, rfl, rfl⟩

/-- With the right depths a call is drawn above each interval that contains it. -/
theorem y_lt_of_contains {input : NestedCalls}
    (hkeeps : ((assignDepths input.invocation input.events).assigned.map Prod.fst).Perm
      (functionIntervals input.events))
    (hdepth : ∀ p ∈ (assignDepths input.invocation input.events).assigned,
      p.2 = (containers start stop (functionIntervals input.events) p.1).length)
    {bars : List Bar} (hbars : drawFlamegraph input.invocation input.events = some bars)
    {callee caller : Bar} (hcallee : callee ∈ bars) (hcaller : caller ∈ bars)
    (hne : callee.interval ≠ caller.interval)
    (hcontains : Contains start stop caller.interval callee.interval) : callee.y < caller.y := by
  obtain ⟨p, hp, hpi, hpy⟩ := mem_bars hbars hcallee
  obtain ⟨q, hq, hqi, hqy⟩ := mem_bars hbars hcaller
  rw [hpi, hqi] at hne hcontains
  have hpmem := hkeeps.mem_iff.mp (List.mem_map_of_mem hp)
  have hqmem := hkeeps.mem_iff.mp (List.mem_map_of_mem hq)
  have hlt := containers_length_lt input.laminar hpmem hqmem hne hcontains
  rw [← hdepth p hp, ← hdepth q hq] at hlt
  rw [hpy, hqy]
  omega

theorem showsNesting_of_separate (input : NestedCalls)
    (hsep : Separate start stop (functionIntervals input.events)) :
    ShowsNesting input.invocation input.events := by
  have hkept := kept_of_separate input hsep
  have hkeeps : ((assignDepths input.invocation input.events).assigned.map Prod.fst).Perm
      (functionIntervals input.events) := by
    rw [map_fst_assigned, hkept]
    exact byStartTime_perm _
  have hdepth := (depth_iff_separate hkept).mpr hsep
  have habove : ∀ bars, drawFlamegraph input.invocation input.events = some bars →
      ∀ callee ∈ bars, ∀ caller ∈ bars, callee.interval ≠ caller.interval →
        Contains start stop caller.interval callee.interval → callee.y < caller.y :=
    fun bars hbars callee hcallee caller hcaller => y_lt_of_contains hkeeps hdepth hbars hcallee hcaller
  refine ⟨hkeeps, hdepth, habove, ?_⟩
  intro bars hbars a ha b hb hne hoverlap
  obtain ⟨p, hp, hpi, -⟩ := mem_bars hbars ha
  obtain ⟨q, hq, hqi, -⟩ := mem_bars hbars hb
  have hpmem := hkeeps.mem_iff.mp (List.mem_map_of_mem hp)
  have hqmem := hkeeps.mem_iff.mp (List.mem_map_of_mem hq)
  rw [← hpi] at hpmem
  rw [← hqi] at hqmem
  rcases input.laminar.nested _ hpmem _ hqmem with hab | hba | hapart
  · exact ne_of_gt (habove bars hbars b hb a ha (Ne.symm hne) hab)
  · exact ne_of_lt (habove bars hbars a ha b hb hne hba)
  · exact absurd hapart hoverlap

theorem separate_of_showsNesting {input : NestedCalls}
    (hshows : ShowsNesting input.invocation input.events) :
    Separate start stop (functionIntervals input.events) := by
  have hkeeps := hshows.keeps
  rw [map_fst_assigned] at hkeeps
  exact (depth_iff_separate (kept_eq_of_perm hkeeps)).mp hshows.depth

/-- The graph is right exactly if no two intervals start together and no interval that takes
no time lies at the end of another one. -/
theorem showsNesting_iff_separate (input : NestedCalls) :
    ShowsNesting input.invocation input.events ↔
      Separate start stop (functionIntervals input.events) :=
  ⟨separate_of_showsNesting, showsNesting_of_separate input⟩

/-! ## A call made at once -/

/-- The sample of a call that ends at `stopNs` after `durationNs`. -/
def callRow (stopNs durationNs : Nat) (funcDesc : String) : LdbRow where
  event := LdbEvents.recordEvent ⟨eventStackSample, stopNs, 7, durationNs, 5, 0, []⟩
  funcDesc := some funcDesc
  funcDescId := 1
  sourceLoc := none

theorem functionInterval_callRow :
    functionInterval (callRow 5 5 "g") = some ⟨0, 5, some "g"⟩ ∧
      functionInterval (callRow 10 10 "f") = some ⟨0, 10, some "f"⟩ := by
  decide +kernel

def callsAtOnce : LdbTable where
  rows := [callRow 5 5 "g", callRow 10 10 "f"]
  latency row hrow _ := by
    simp only [List.mem_cons, List.not_mem_nil, or_false] at hrow
    rcases hrow with rfl | rfl
    · exact ⟨_, rfl, latencyUs_finite (by decide)⟩
    · exact ⟨_, rfl, latencyUs_finite (by decide)⟩

theorem functionIntervals_callsAtOnce :
    functionIntervals callsAtOnce = [⟨0, 5, some "g"⟩, ⟨0, 10, some "f"⟩] := by
  have hsorted : callsAtOnce.rows.mergeSort (fun a b =>
      decide (a.event.timestampNs ≤ b.event.timestampNs)) = callsAtOnce.rows :=
    List.mergeSort_of_pairwise (by decide)
  rw [functionIntervals, hsorted, callsAtOnce, List.filterMap_cons_some functionInterval_callRow.1,
    List.filterMap_cons_some functionInterval_callRow.2]
  rfl

/-- The interval of the invocation `f`. -/
theorem foundInvocation_callRow :
    (foundInvocation 1 (callRow 10 10 "f")).startTimeNs = 0 ∧
      (foundInvocation 1 (callRow 10 10 "f")).endTimeNs = 10 := by
  decide +kernel

/-- The function `f` from 0 to 10, which calls `g` at once and until 5. -/
def callAtOnce : NestedCalls where
  invocation := foundInvocation 1 (callRow 10 10 "f")
  events := callsAtOnce
  laminar := by
    rw [functionIntervals_callsAtOnce]
    exact ⟨by decide, by decide, by decide⟩
  inside := by
    rw [functionIntervals_callsAtOnce, foundInvocation_callRow.1, foundInvocation_callRow.2]
    decide
  own := by
    rw [functionIntervals_callsAtOnce, foundInvocation_callRow.1, foundInvocation_callRow.2]
    decide

/-- The inner call sorts before `f` and is left out. -/
theorem callAtOnce_left_out :
    (assignDepths callAtOnce.invocation callAtOnce.events).assigned =
        [(⟨0, 10, some "f"⟩, 0)] ∧
      ¬ ShowsNesting callAtOnce.invocation callAtOnce.events := by
  have hstart : byStartTime [⟨0, 5, some "g"⟩, ⟨0, 10, some "f"⟩] =
      [⟨0, 5, some "g"⟩, ⟨0, 10, some "f"⟩] := List.mergeSort_of_pairwise (by decide)
  have hassigned : (assignDepths callAtOnce.invocation callAtOnce.events).assigned =
      [(⟨0, 10, some "f"⟩, 0)] := by
    have hevents : functionIntervals callAtOnce.events =
        [⟨0, 5, some "g"⟩, ⟨0, 10, some "f"⟩] := functionIntervals_callsAtOnce
    rw [assignDepths, hevents, hstart]
    decide
  refine ⟨hassigned, fun hshows => ?_⟩
  have hlength := hshows.keeps.length_eq
  have hevents : functionIntervals callAtOnce.events =
      [⟨0, 5, some "g"⟩, ⟨0, 10, some "f"⟩] := functionIntervals_callsAtOnce
  rw [hassigned, hevents] at hlength
  exact absurd hlength (by decide)

end FlameGraph
