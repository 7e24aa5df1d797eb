import Hiresperf.Foundation.PythonText
import Hiresperf.SchedIntervals
import Mathlib.Data.List.Infix

/-!
# Lines of `perf sched script`

How `parse_sched_script` takes a `sched:sched_switch` event apart. It splits the
text at the arrow, each side at white space, and the first word of a side at its
last colon. A task may have any name: where the name has a blank in it, the first
word is only a part of the name. The text is checked for `==` and then split at
`==>` into exactly two parts.
-/

namespace SchedLines

open PythonText SchedIntervals

def arrow : Text := ['=', '=', '>']

/-- `event_details.split('==>')`. -/
def splitArrow : Text → List Text
  | '=' :: '=' :: '>' :: rest => [] :: splitArrow rest
  | [] => [[]]
  | c :: rest =>
    match splitArrow rest with
    | [] => [[c]]
    | first :: more => (c :: first) :: more

/-- What becomes of the text of an event. -/
inductive Outcome where
  | skipped
  | raised
  | sched (prevComm : Text) (prevPid : Int) (nextComm : Text) (nextPid : Int)
  deriving DecidableEq

/-- The name and the number of a task; `none` where the line is skipped. -/
def commPid (word : Text) : Option (Text × Int) :=
  (rsplit ':' word).bind fun p => (int p.2).map fun pid => (p.1, pid)

/-- The first word of one side, if there is a second one. -/
def firstToken (part : Text) : Option Text :=
  match split (strip part) with
  | word :: _ :: _ => some word
  | _ => none

/-- The body of the loop for a text that the pattern has matched. -/
def parseEventDetails (details : Text) : Outcome :=
  if ¬ ['=', '='] <:+: details then .skipped
  else
    match splitArrow details with
    | [prevPart, nextPart] =>
      match (firstToken prevPart).bind fun prev => (firstToken nextPart).bind fun next =>
          (commPid prev).bind fun p => (commPid next).map fun n => (p, n) with
      | some (p, n) => .sched p.1 p.2 n.1 n.2
      | none => .skipped
    | _ => .raised

/-! ## The texts that `perf` prints -/

/-- The fields of `pcomm:ppid [pprio] state ==> ncomm:npid [nprio]`. -/
structure SwitchText where
  prevComm : Text
  prevPid : Int
  prevPrio : Int
  prevState : Text
  nextComm : Text
  nextPid : Int
  nextPrio : Int

def taskText (comm : Text) (pid prio : Int) : Text :=
  comm ++ ':' :: (showInt pid ++ ' ' :: '[' :: (showInt prio ++ [']']))

def SwitchText.render (e : SwitchText) : Text :=
  taskText e.prevComm e.prevPid e.prevPrio ++ ' ' :: (e.prevState ++ ' ' :: (arrow ++
    ' ' :: taskText e.nextComm e.nextPid e.nextPrio))

/-- A name that a task may have in the text. -/
structure TaskName (comm : Text) : Prop where
  nonempty : comm ≠ []
  noNewline : '\n' ∉ comm
  noBracket : '[' ∉ comm
  noArrow : ¬ arrow <:+: comm
  head : ∀ c ∈ comm.head?, isSpace c = false
  last : ∀ c ∈ comm.getLast?, isSpace c = false

structure SwitchText.WellFormed (e : SwitchText) : Prop where
  prev : TaskName e.prevComm
  next : TaskName e.nextComm
  state : ¬ arrow <:+: e.prevState

/-- How often the arrow occurs. -/
def arrows (text : Text) : Nat := text.tails.countP fun s => arrow.isPrefixOf s

/-- An event that `perf` prints is taken apart as it was put together, and no other text raises
an exception. -/
structure Handled (text : Text) : Prop where
  events : ∀ e : SwitchText, e.WellFormed → e.render = text →
    parseEventDetails text = .sched e.prevComm e.prevPid e.nextComm e.nextPid
  others : (¬ ∃ e : SwitchText, e.WellFormed ∧ e.render = text) → parseEventDetails text ≠ .raised

/-- No task has a blank in its name, and the arrow occurs once if there is an `==`. -/
structure Parseable (text : Text) : Prop where
  names : ∀ e : SwitchText, e.WellFormed → e.render = text → Solid e.prevComm ∧ Solid e.nextComm
  oneArrow : ['=', '='] <:+: text → arrows text = 1

/-! ## Splitting at the arrow -/

variable {s t : Text}

theorem arrow_isPrefix_iff : arrow <+: s ↔ ∃ rest, s = '=' :: '=' :: '>' :: rest := by
  constructor
  · rintro ⟨rest, rfl⟩
    exact ⟨rest, rfl⟩
  · rintro ⟨rest, rfl⟩
    exact ⟨rest, rfl⟩

theorem splitArrow_arrow (s : Text) : splitArrow (arrow ++ s) = [] :: splitArrow s := by
  rw [arrow, List.cons_append, List.cons_append, List.cons_append, List.nil_append, splitArrow]

theorem splitArrow_cons {c : Char} {first : Text} {more : List Text} (h : ¬ arrow <+: c :: s)
    (hrest : splitArrow s = first :: more) : splitArrow (c :: s) = (c :: first) :: more := by
  rw [splitArrow, hrest]
  rintro rest rfl rfl
  exact h ⟨rest, rfl⟩

theorem exists_splitArrow (s : Text) : ∃ first more, splitArrow s = first :: more := by
  induction s with
  | nil => exact ⟨[], [], rfl⟩
  | cons c s ih =>
    by_cases harrow : arrow <+: c :: s
    · obtain ⟨rest, hrest⟩ := harrow
      exact ⟨[], splitArrow rest, by rw [← hrest, splitArrow_arrow]⟩
    · obtain ⟨first, more, hrest⟩ := ih
      exact ⟨c :: first, more, splitArrow_cons harrow hrest⟩

theorem arrows_cons (c : Char) (s : Text) :
    arrows (c :: s) = arrows s + if arrow <+: c :: s then 1 else 0 := by
  have hhead : (arrow.isPrefixOf (c :: s) = true) = (arrow <+: c :: s) :=
    propext List.isPrefixOf_iff_prefix
  rw [arrows, List.tails_cons, List.countP_cons]
  simp only [hhead]
  rfl

/-- Arrows do not overlap. -/
theorem arrows_arrow (s : Text) : arrows (arrow ++ s) = arrows s + 1 := by
  have hsecond : ¬ arrow <+: '=' :: '>' :: s := by
    rw [arrow_isPrefix_iff]
    simp
  have hthird : ¬ arrow <+: '>' :: s := by
    rw [arrow_isPrefix_iff]
    simp
  have hfirst : arrow <+: '=' :: '=' :: '>' :: s := ⟨s, rfl⟩
  change arrows ('=' :: '=' :: '>' :: s) = _
  rw [arrows_cons, if_pos hfirst, arrows_cons, if_neg hsecond, arrows_cons, if_neg hthird]

theorem length_splitArrow (s : Text) : (splitArrow s).length = arrows s + 1 := by
  induction hn : s.length using Nat.strong_induction_on generalizing s with
  | _ n ih =>
    cases s with
    | nil => rfl
    | cons c rest =>
      by_cases harrow : arrow <+: c :: rest
      · obtain ⟨after, hafter⟩ := harrow
        have hlength : after.length < n := by
          rw [← hn, ← hafter, List.length_append]
          simp [arrow]
        rw [← hafter, splitArrow_arrow, arrows_arrow, List.length_cons, ih _ hlength after rfl]
      · obtain ⟨first, more, hrest⟩ := exists_splitArrow rest
        have hlength := ih rest.length (by rw [← hn]; exact Nat.lt_succ_self _) rest rfl
        rw [splitArrow_cons harrow hrest, arrows_cons, if_neg harrow, ← hlength, hrest]
        rfl

theorem splitArrow_of_noArrow (h : ¬ arrow <:+: s) : splitArrow s = [s] := by
  induction s with
  | nil => rfl
  | cons c s ih =>
    rw [List.infix_cons_iff, not_or] at h
    exact splitArrow_cons h.1 (ih h.2)

/-- A blank before the arrow keeps it apart from what comes before. -/
theorem splitArrow_append (h : ¬ arrow <:+: s) (t : Text) :
    splitArrow (s ++ ' ' :: (arrow ++ t)) = (s ++ [' ']) :: splitArrow t := by
  induction s with
  | nil =>
    apply splitArrow_cons _ (splitArrow_arrow t)
    rw [arrow_isPrefix_iff]
    simp
  | cons c s ih =>
    rw [List.infix_cons_iff, not_or, arrow_isPrefix_iff] at h
    apply splitArrow_cons _ (ih h.2)
    rw [arrow_isPrefix_iff]
    rintro ⟨rest, heq⟩
    rcases s with _ | ⟨d, _ | ⟨e, s⟩⟩
    · simp at heq
    · simp at heq
    · simp only [List.cons_append, List.cons.injEq] at heq
      obtain ⟨rfl, rfl, rfl, -⟩ := heq
      exact h.1 ⟨s, rfl⟩

/-! ## One side of the arrow -/

/-- The name and the number that are taken from one side. -/
def sideOf (part : Text) : Option (Text × Int) := (firstToken part).bind commPid

theorem parseEventDetails_parts {prevPart nextPart : Text} (h : splitArrow s = [prevPart, nextPart])
    (hequals : ['=', '='] <:+: s) : parseEventDetails s =
      match sideOf prevPart, sideOf nextPart with
      | some p, some n => .sched p.1 p.2 n.1 n.2
      | _, _ => .skipped := by
  rw [parseEventDetails, if_neg (not_not.mpr hequals), h]
  simp only [sideOf]
  cases firstToken prevPart with
  | none => rfl
  | some prev =>
    cases firstToken nextPart with
    | none =>
      simp only [Option.bind_some, Option.bind_none]
      cases commPid prev <;> rfl
    | some next =>
      simp only [Option.bind_some]
      cases commPid prev <;> cases commPid next <;> rfl

theorem solid_append (hs : Solid s) (ht : Solid t) : Solid (s ++ t) := by
  intro c hc
  exact (List.mem_append.mp hc).elim (hs c) (ht c)

variable {comm : Text} {pid prio : Int}

/-- A name without blanks is read back. -/
theorem sideOf_solid (hcomm : Solid comm) (rest : Text) :
    sideOf (taskText comm pid prio ++ rest) = some (comm, pid) := by
  have hsolid : Solid (comm ++ ':' :: showInt pid) :=
    solid_append hcomm (List.forall_mem_cons.mpr ⟨by decide, solid_showInt pid⟩)
  have htext : taskText comm pid prio ++ rest =
      (comm ++ ':' :: showInt pid) ++ ' ' :: '[' :: (showInt prio ++ [']'] ++ rest) := by
    simp [taskText]
  have hmore : split ('[' :: (showInt prio ++ [']'] ++ rest)) ≠ [] :=
    split_ne_nil ⟨'[', List.mem_cons_self, by decide⟩
  obtain ⟨word, more, hwords⟩ := List.exists_cons_of_ne_nil hmore
  have hfirst : firstToken (taskText comm pid prio ++ rest) = some (comm ++ ':' :: showInt pid) := by
    rw [firstToken, split_strip, htext, split_word hsolid (by simp) (by decide), hwords]
  have hcolon : ':' ∉ showInt pid := notMem_showInt (by decide) (by decide) pid
  rw [sideOf, hfirst, Option.bind_some, commPid, rsplit_append hcolon, Option.bind_some,
    int_showInt]
  rfl

theorem head?_of_firstToken {part word : Text} (h : firstToken part = some word) :
    (split part).head? = some word := by
  rw [firstToken, split_strip] at h
  split at h
  · rename_i heq
    rw [heq]
    exact h
  · cases h

/-- From a name with a blank, less than the name is read. -/
theorem length_lt_of_sideOf (hname : TaskName comm) (hblank : ¬ Solid comm) {rest : Text}
    {p : Text × Int} (h : sideOf (comm ++ rest) = some p) : p.1.length < comm.length := by
  obtain ⟨word, hword, hpid⟩ := Option.bind_eq_some_iff.mp h
  have hlength : word.length < comm.length := by
    have hhead := head?_of_firstToken hword
    obtain ⟨c, tail, rfl⟩ := List.exists_cons_of_ne_nil hname.nonempty
    rw [List.cons_append, head?_split (hname.head c rfl), ← List.cons_append,
      List.takeWhile_append] at hhead
    have hshort : ((c :: tail).takeWhile fun c => !isSpace c).length < (c :: tail).length := by
      apply Nat.lt_of_le_of_ne (List.takeWhile_sublist _).length_le
      intro heq
      have hall := (List.takeWhile_sublist _).eq_of_length heq
      rw [List.takeWhile_eq_self_iff] at hall
      exact hblank fun c hc => by simpa using hall c hc
    rw [if_neg hshort.ne, Option.some.injEq] at hhead
    rw [← hhead]
    exact hshort
  obtain ⟨parts, hsplit, hint⟩ := Option.bind_eq_some_iff.mp hpid
  obtain ⟨n, -, rfl⟩ := Option.map_eq_some_iff.mp hint
  exact Nat.lt_trans (length_lt_of_rsplit hsplit) hlength

variable (pid prio) in
theorem sideOf_eq_iff (hname : TaskName comm) (rest : Text) :
    sideOf (taskText comm pid prio ++ rest) = some (comm, pid) ↔ Solid comm := by
  constructor
  · intro h
    by_contra hblank
    rw [taskText, List.append_assoc] at h
    exact absurd (length_lt_of_sideOf hname hblank h) (Nat.lt_irrefl _)
  · intro hcomm
    exact sideOf_solid hcomm rest

theorem sideOf_blank {c : Char} (hc : isSpace c = true) (part : Text) :
    sideOf (c :: part) = sideOf part := by
  simp only [sideOf, firstToken, split_strip, split_blank hc]

/-! ## Whole texts -/

theorem noArrow_showInt (z : Int) : ¬ arrow <:+: showInt z := by
  intro h
  have hmem : '=' ∈ showInt z := h.subset List.mem_cons_self
  exact notMem_showInt (by decide) (by decide) z hmem

theorem noArrow_taskText (h : ¬ arrow <:+: comm) : ¬ arrow <:+: taskText comm pid prio := by
  have hnil : ¬ arrow <:+: [] := by simp [arrow]
  have hprio : ¬ arrow <:+: showInt prio ++ [']'] :=
    not_isInfix_append_cons (by decide) (noArrow_showInt prio) hnil
  have hbracket : ¬ arrow <:+: '[' :: (showInt prio ++ [']']) := by
    rw [← List.nil_append ('[' :: _)]
    exact not_isInfix_append_cons (by decide) hnil hprio
  have hpid : ¬ arrow <:+: showInt pid ++ ' ' :: '[' :: (showInt prio ++ [']']) :=
    not_isInfix_append_cons (by decide) (noArrow_showInt pid) hbracket
  exact not_isInfix_append_cons (by decide) h hpid

/-- The two sides that a well-formed text is split into. -/
theorem splitArrow_render {e : SwitchText} (h : e.WellFormed) : splitArrow e.render =
    [taskText e.prevComm e.prevPid e.prevPrio ++ ' ' :: (e.prevState ++ [' ']),
      ' ' :: taskText e.nextComm e.nextPid e.nextPrio] := by
  have hprev : ¬ arrow <:+: taskText e.prevComm e.prevPid e.prevPrio ++ ' ' :: e.prevState :=
    not_isInfix_append_cons (by decide) (noArrow_taskText h.prev.noArrow) h.state
  have hnext : ¬ arrow <:+: ' ' :: taskText e.nextComm e.nextPid e.nextPrio := by
    have hnil : ¬ arrow <:+: [] := by simp [arrow]
    exact not_isInfix_append_cons (by decide) hnil (noArrow_taskText h.next.noArrow)
  have hrender : e.render = (taskText e.prevComm e.prevPid e.prevPrio ++ ' ' :: e.prevState) ++
      ' ' :: (arrow ++ ' ' :: taskText e.nextComm e.nextPid e.nextPrio) := by
    rw [SwitchText.render, List.append_assoc, List.cons_append]
  rw [hrender, splitArrow_append hprev, splitArrow_of_noArrow hnext, List.append_assoc, List.cons_append]

theorem equals_of_arrows {text : Text} (h : arrow <:+: text) : ['=', '='] <:+: text :=
  (List.prefix_append ['=', '='] ['>']).isInfix.trans h

theorem arrow_isInfix_render (e : SwitchText) : arrow <:+: e.render :=
  ⟨taskText e.prevComm e.prevPid e.prevPrio ++ ' ' :: (e.prevState ++ [' ']),
    ' ' :: taskText e.nextComm e.nextPid e.nextPrio, by simp [SwitchText.render]⟩

/-- A well-formed text is taken apart correctly exactly if no name has a blank in it. -/
theorem parse_render_iff {e : SwitchText} (h : e.WellFormed) :
    parseEventDetails e.render = .sched e.prevComm e.prevPid e.nextComm e.nextPid ↔
      Solid e.prevComm ∧ Solid e.nextComm := by
  have hsides := parseEventDetails_parts (splitArrow_render h)
    (equals_of_arrows (arrow_isInfix_render e))
  rw [sideOf_blank (by decide)] at hsides
  have hprev := sideOf_eq_iff e.prevPid e.prevPrio h.prev
    (' ' :: (e.prevState ++ [' ']))
  have hnext := sideOf_eq_iff e.nextPid e.nextPrio h.next []
  rw [List.append_nil] at hnext
  rw [hsides, ← hprev, ← hnext]
  split
  · rename_i p n hp hn
    rw [hp, hn, Option.some.injEq, Option.some.injEq, Outcome.sched.injEq, Prod.ext_iff, Prod.ext_iff]
    tauto
  · rename_i hnone
    constructor
    · intro hskipped
      cases hskipped
    · rintro ⟨hp, hn⟩
      exact absurd hn (hnone _ _ hp)

theorem raised_iff (text : Text) :
    parseEventDetails text = .raised ↔ ['=', '='] <:+: text ∧ arrows text ≠ 1 := by
  have hlength := length_splitArrow text
  by_cases hequals : ['=', '='] <:+: text
  · by_cases hone : arrows text = 1
    · rw [hone] at hlength
      obtain ⟨prevPart, nextPart, hparts⟩ := List.length_eq_two.mp hlength
      rw [parseEventDetails_parts hparts hequals]
      simp only [hone, ne_eq, not_true_eq_false, and_false, iff_false]
      split <;> simp
    · rw [parseEventDetails, if_neg (not_not.mpr hequals)]
      split
      · rename_i hparts
        rw [hparts] at hlength
        simp only [List.length_cons, List.length_nil] at hlength
        omega
      · simp [hequals, hone]
  · simp [parseEventDetails, hequals]

theorem arrows_render {e : SwitchText} (h : e.WellFormed) : arrows e.render = 1 := by
  have hlength := length_splitArrow e.render
  rw [splitArrow_render h] at hlength
  simp only [List.length_cons, List.length_nil] at hlength
  omega

/-- The text of an event is handled exactly if no task in it has a blank in its name and it
does not have an `==` without having exactly one `==>`. -/
theorem handled_iff (text : Text) : Handled text ↔ Parseable text := by
  constructor
  · intro h
    constructor
    · intro e he hrender
      have hparsed := h.events e he hrender
      rw [← hrender] at hparsed
      exact (parse_render_iff he).mp hparsed
    · intro hequals
      by_cases hform : ∃ e : SwitchText, e.WellFormed ∧ e.render = text
      · obtain ⟨e, he, rfl⟩ := hform
        exact arrows_render he
      · by_contra hone
        exact h.others hform ((raised_iff text).mpr ⟨hequals, hone⟩)
  · intro h
    constructor
    · intro e he hrender
      have hsolid := h.names e he hrender
      rw [← hrender]
      exact (parse_render_iff he).mpr hsolid
    · intro _ hraised
      obtain ⟨hequals, hone⟩ := (raised_iff text).mp hraised
      exact hone (h.oneArrow hequals)

/-- The switch away from a task of a browser. -/
def webContent : SwitchText :=
  ⟨"Web Content".toList, 4711, 120, ['S'], "swapper/3".toList, 0, 120⟩

/-- The event is skipped: its first word is `Web`. And `a == b` raises an exception. -/
theorem name_with_blank_is_skipped : ¬ (∀ text, Handled text) ∧
    parseEventDetails webContent.render = .skipped ∧
    parseEventDetails "a == b".toList = .raised := by
  have hskipped : parseEventDetails webContent.render = .skipped := by decide +kernel
  have hedge : ∀ {o : Option Char} (d : Char), o = some d → isSpace d = false →
      ∀ c ∈ o, isSpace c = false := by
    rintro o d rfl hd c hc
    rwa [← Option.some.inj hc]
  have hwell : webContent.WellFormed := by
    refine ⟨⟨?_, ?_, ?_, ?_, hedge 'W' ?_ ?_, hedge 't' ?_ ?_⟩,
      ⟨?_, ?_, ?_, ?_, hedge 's' ?_ ?_, hedge '3' ?_ ?_⟩, ?_⟩ <;> decide +kernel
  refine ⟨fun hall => ?_, hskipped, by decide⟩
  have hparsed := (hall webContent.render).events webContent hwell rfl
  rw [hskipped] at hparsed
  cases hparsed

/-! ## The lines of the script -/

/-- A line with its time and CPU, as the pattern takes it apart; `none` for an exception. -/
def toLine (timestampNs cpuId : Nat) (details : Text) : Option Line :=
  match parseEventDetails details with
  | .skipped => some (.skipped timestampNs)
  | .raised => none
  | .sched prevComm prevPid nextComm nextPid =>
    some (.schedSwitch timestampNs
      ⟨cpuId, String.ofList prevComm, prevPid, String.ofList nextComm, nextPid⟩)

def SwitchText.event (e : SwitchText) (cpuId : Nat) : SwitchEvent :=
  ⟨cpuId, String.ofList e.prevComm, e.prevPid, String.ofList e.nextComm, e.nextPid⟩

/-- The parser of the intervals sees every event of a script if no task has a blank in its
name. -/
theorem toLine_of_solid (script : List (Nat × Nat × SwitchText))
    (h : ∀ l ∈ script, l.2.2.WellFormed ∧ Solid l.2.2.prevComm ∧ Solid l.2.2.nextComm) :
    (script.mapM fun l => toLine l.1 l.2.1 l.2.2.render) =
      some (script.map fun l => .schedSwitch l.1 (l.2.2.event l.2.1)) := by
  induction script with
  | nil => rfl
  | cons l rest ih =>
    obtain ⟨⟨hwell, hsolid⟩, hrest⟩ := List.forall_mem_cons.mp h
    have hparsed := (parse_render_iff hwell).mpr hsolid
    have hline : toLine l.1 l.2.1 l.2.2.render = some (.schedSwitch l.1 (l.2.2.event l.2.1)) := by
      rw [toLine, hparsed]
      rfl
    rw [List.mapM_cons, hline, ih hrest]
    rfl

end SchedLines
