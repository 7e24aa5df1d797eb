import Mathlib.Data.List.Induction

/-!
# Marks in pairs

A reader of marks that open and close one thing in turn. It refuses to open what is
open and to close what is not; the lists that it accepts are those of pairs.
-/

namespace Alternation

universe u

variable {T : Type u}

/-- The pairs so far, and what is open. -/
structure Pairs (T : Type u) where
  closed : List (T × T)
  opened : Option T

/-- A mark is `true` where it opens. -/
def step (s : Pairs T) (mark : Bool × T) : Option (Pairs T) :=
  match s.opened with
  | none => if mark.1 then some ⟨s.closed, some mark.2⟩ else none
  | some time => if mark.1 then none else some ⟨s.closed ++ [(time, mark.2)], none⟩

def read (marks : List (Bool × T)) : Option (Pairs T) := marks.foldlM step ⟨[], none⟩

def pairMarks (pair : T × T) : List (Bool × T) := [(true, pair.1), (false, pair.2)]

/-- The marks of pairs, and of what is open. -/
def Pairs.marks (s : Pairs T) : List (Bool × T) :=
  s.closed.flatMap pairMarks ++ s.opened.toList.map fun time => (true, time)

theorem read_concat (marks : List (Bool × T)) (mark : Bool × T) :
    read (marks ++ [mark]) = (read marks).bind fun s => step s mark := by
  rw [read, List.foldlM_append]
  simp [read]

theorem step_marks {s t : Pairs T} {mark : Bool × T} (h : step s mark = some t) :
    t.marks = s.marks ++ [mark] := by
  obtain ⟨opens, time⟩ := mark
  obtain ⟨closed, opened⟩ := s
  cases opened with
  | none =>
    cases opens with
    | true =>
      cases h
      simp [Pairs.marks]
    | false => cases h
  | some start =>
    cases opens with
    | true => cases h
    | false =>
      cases h
      simp [Pairs.marks, pairMarks]

theorem read_marks (s : Pairs T) : read s.marks = some s := by
  have hclosed : ∀ closed : List (T × T),
      read (closed.flatMap pairMarks) = some ⟨closed, none⟩ := by
    intro closed
    induction closed using List.reverseRecOn with
    | nil => rfl
    | append_singleton closed pair ih =>
      have hsplit : (closed ++ [pair]).flatMap pairMarks =
          closed.flatMap pairMarks ++ [(true, pair.1)] ++ [(false, pair.2)] := by
        simp [pairMarks]
      rw [hsplit, read_concat, read_concat, ih]
      rfl
  obtain ⟨closed, opened⟩ := s
  cases opened with
  | none => simpa [Pairs.marks] using hclosed closed
  | some time =>
    have hmarks : Pairs.marks ⟨closed, some time⟩ =
        closed.flatMap pairMarks ++ [(true, time)] := rfl
    rw [hmarks, read_concat, hclosed]
    rfl

/-- The reader accepts pairs, and finds them. -/
theorem read_eq_some_iff {marks : List (Bool × T)} {s : Pairs T} :
    read marks = some s ↔ marks = s.marks := by
  constructor
  · intro h
    induction marks using List.reverseRecOn generalizing s with
    | nil =>
      cases h
      rfl
    | append_singleton marks mark ih =>
      rw [read_concat] at h
      obtain ⟨mid, hmid, hstep⟩ := Option.bind_eq_some_iff.mp h
      rw [step_marks hstep, ih hmid]
  · rintro rfl
    exact read_marks s

/-- What is refused once is not accepted later. -/
theorem read_append_none {marks : List (Bool × T)} (h : read marks = none)
    (more : List (Bool × T)) : read (marks ++ more) = none := by
  rw [read, List.foldlM_append, ← read, h]
  rfl

end Alternation
