import Mathlib.Data.List.Sort

/-!
# Merging sorted streams

The merge of any number of streams by the least head, as a heap with one entry
for each stream does it. The streams are kept as lists of what is left of them,
and an exhausted one is skipped.
-/

namespace StreamMerge

universe u v

variable {Item : Type u} {Key : Type v} [LinearOrder Key] (key : Item → Key)

/-- The stream with the least head loses it; among equal heads the first stream is taken. -/
def popLeast : List (List Item) → Option (Item × List (List Item))
  | [] => none
  | [] :: rest => popLeast rest
  | (x :: xs) :: rest =>
    match popLeast rest with
    | none => some (x, [xs])
    | some (y, rest') => if key y < key x then some (y, (x :: xs) :: rest') else some (x, xs :: rest)

/-- The first `n` items of the merge. -/
def mergeStreams : Nat → List (List Item) → List Item
  | 0, _ => []
  | n + 1, streams =>
    match popLeast key streams with
    | none => []
    | some (x, rest) => x :: mergeStreams n rest

variable {key}

theorem popLeast_none {streams : List (List Item)} (h : popLeast key streams = none) :
    streams.flatten = [] := by
  fun_induction popLeast key streams with
  | case1 => rfl
  | case2 rest ih => exact ih h
  | case3 x xs rest hrest ih => cases h
  | case4 x xs rest y rest' hrest hlt ih => cases h
  | case5 x xs rest y rest' hrest hlt ih => cases h

theorem popLeast_perm {streams rest : List (List Item)} {x : Item}
    (h : popLeast key streams = some (x, rest)) : streams.flatten.Perm (x :: rest.flatten) := by
  fun_induction popLeast key streams generalizing x rest with
  | case1 => cases h
  | case2 rest ih => exact ih h
  | case3 x xs rest hrest ih =>
    cases h
    simp [popLeast_none hrest]
  | case4 x xs rest y rest' hrest hlt ih =>
    cases h
    have hperm := (ih hrest).append_left (x :: xs)
    simp only [List.flatten_cons]
    exact hperm.trans List.perm_middle
  | case5 x xs rest y rest' hrest hlt ih =>
    cases h
    simp

/-- What is left are streams and the rest of one. -/
theorem mem_of_popLeast {streams rest : List (List Item)} {x : Item}
    (h : popLeast key streams = some (x, rest)) :
    ∀ s ∈ rest, s ∈ streams ∨ x :: s ∈ streams := by
  fun_induction popLeast key streams generalizing x rest with
  | case1 => cases h
  | case2 rest ih =>
    intro s hs
    exact (ih h s hs).imp (List.mem_cons_of_mem _) (List.mem_cons_of_mem _)
  | case3 x xs rest hrest ih =>
    cases h
    intro s hs
    rw [List.mem_singleton.mp hs]
    exact Or.inr List.mem_cons_self
  | case4 x xs rest y rest' hrest hlt ih =>
    cases h
    intro s hs
    rcases List.mem_cons.mp hs with rfl | hs
    · exact Or.inl List.mem_cons_self
    · exact (ih hrest s hs).imp (List.mem_cons_of_mem _) (List.mem_cons_of_mem _)
  | case5 x xs rest y rest' hrest hlt ih =>
    cases h
    intro s hs
    rcases List.mem_cons.mp hs with rfl | hs
    · exact Or.inr List.mem_cons_self
    · exact Or.inl (List.mem_cons_of_mem _ hs)

section Sorted

variable {streams rest : List (List Item)} {x : Item}
  (hsorted : ∀ s ∈ streams, s.Pairwise (fun a b => key a ≤ key b))
  (h : popLeast key streams = some (x, rest))
include hsorted h

theorem popLeast_sorted : ∀ s ∈ rest, s.Pairwise (fun a b => key a ≤ key b) := by
  intro s hs
  rcases mem_of_popLeast h s hs with hmem | hmem
  · exact hsorted s hmem
  · exact (List.pairwise_cons.mp (hsorted _ hmem)).2

theorem popLeast_least : ∀ y ∈ rest.flatten, key x ≤ key y := by
  fun_induction popLeast key streams generalizing x rest with
  | case1 => cases h
  | case2 rest ih => exact ih (fun s hs => hsorted s (List.mem_cons_of_mem _ hs)) h
  | case3 x xs rest hrest ih =>
    cases h
    intro y hy
    exact (List.pairwise_cons.mp (hsorted _ List.mem_cons_self)).1 y (by simpa using hy)
  | case4 x xs rest y rest' hrest hlt ih =>
    cases h
    have hstream := (List.pairwise_cons.mp (hsorted _ List.mem_cons_self)).1
    intro z hz
    rw [List.flatten_cons, List.mem_append, List.mem_cons] at hz
    rcases hz with (rfl | hz) | hz
    · exact le_of_lt hlt
    · exact le_trans (le_of_lt hlt) (hstream z hz)
    · exact ih (fun s hs => hsorted s (List.mem_cons_of_mem _ hs)) hrest z hz
  | case5 x xs rest y rest' hrest hlt ih =>
    cases h
    intro z hz
    rw [List.flatten_cons, List.mem_append] at hz
    rcases hz with hz | hz
    · exact (List.pairwise_cons.mp (hsorted _ List.mem_cons_self)).1 z hz
    · -- the least head of the other streams is not below this one
      have hy : key x ≤ key y := not_lt.mp hlt
      rcases List.mem_cons.mp ((popLeast_perm hrest).subset hz) with rfl | hz
      · exact hy
      · exact le_trans hy (ih (fun s hs => hsorted s (List.mem_cons_of_mem _ hs)) hrest z hz)

end Sorted

/-- With as many turns as there are items, the merge is a sorted permutation of the streams. -/
theorem mergeStreams_perm {n : Nat} {streams : List (List Item)} (hn : streams.flatten.length = n) :
    (mergeStreams key n streams).Perm streams.flatten := by
  induction n generalizing streams with
  | zero =>
    rw [List.length_eq_zero_iff.mp hn]
    rfl
  | succ n ih =>
    unfold mergeStreams
    cases hpop : popLeast key streams with
    | none =>
      rw [popLeast_none hpop] at hn
      cases hn
    | some result =>
      obtain ⟨x, rest⟩ := result
      have hperm := popLeast_perm hpop
      have hlength := hperm.length_eq
      rw [List.length_cons] at hlength
      exact ((ih (by omega)).cons x).trans hperm.symm

theorem mergeStreams_sorted {n : Nat} {streams : List (List Item)}
    (hn : streams.flatten.length = n)
    (hsorted : ∀ s ∈ streams, s.Pairwise (fun a b => key a ≤ key b)) :
    (mergeStreams key n streams).Pairwise (fun a b => key a ≤ key b) := by
  induction n generalizing streams with
  | zero => exact List.Pairwise.nil
  | succ n ih =>
    unfold mergeStreams
    cases hpop : popLeast key streams with
    | none => exact List.Pairwise.nil
    | some result =>
      obtain ⟨x, rest⟩ := result
      have hlength := (popLeast_perm hpop).length_eq
      rw [List.length_cons] at hlength
      have hleft : rest.flatten.length = n := by omega
      refine List.pairwise_cons.mpr ⟨?_, ih hleft (popLeast_sorted hsorted hpop)⟩
      intro y hy
      exact popLeast_least hsorted hpop y ((mergeStreams_perm hleft).subset hy)

/-- A pop leaves each stream as it is or takes its head. -/
theorem popLeast_streams {streams rest : List (List Item)} {x : Item}
    (h : popLeast key streams = some (x, rest)) :
    ∀ s ∈ streams, s = [] ∨ s ∈ rest ∨ ∃ s', s = x :: s' ∧ s' ∈ rest := by
  fun_induction popLeast key streams generalizing x rest with
  | case1 => cases h
  | case2 rest ih =>
    intro s hs
    rcases List.mem_cons.mp hs with rfl | hs
    · exact Or.inl rfl
    · exact ih h s hs
  | case3 x xs rest hrest ih =>
    cases h
    intro s hs
    rcases List.mem_cons.mp hs with rfl | hs
    · exact Or.inr (Or.inr ⟨xs, rfl, List.mem_cons_self⟩)
    · exact Or.inl (List.flatten_eq_nil_iff.mp (popLeast_none hrest) s hs)
  | case4 x xs rest y rest' hrest hlt ih =>
    cases h
    intro s hs
    rcases List.mem_cons.mp hs with rfl | hs
    · exact Or.inr (Or.inl List.mem_cons_self)
    · rcases ih hrest s hs with hnil | hmem | ⟨s', hs', hmem⟩
      · exact Or.inl hnil
      · exact Or.inr (Or.inl (List.mem_cons_of_mem _ hmem))
      · exact Or.inr (Or.inr ⟨s', hs', List.mem_cons_of_mem _ hmem⟩)
  | case5 x xs rest y rest' hrest hlt ih =>
    cases h
    intro s hs
    rcases List.mem_cons.mp hs with rfl | hs
    · exact Or.inr (Or.inr ⟨xs, rfl, List.mem_cons_self⟩)
    · exact Or.inr (Or.inl (List.mem_cons_of_mem _ hs))

/-- The items of a stream keep their order. -/
theorem sublist_mergeStreams {n : Nat} {streams : List (List Item)}
    (hn : streams.flatten.length = n) : ∀ s ∈ streams, s.Sublist (mergeStreams key n streams) := by
  induction n generalizing streams with
  | zero =>
    intro s hs
    rw [List.flatten_eq_nil_iff.mp (List.length_eq_zero_iff.mp hn) s hs]
    exact List.nil_sublist _
  | succ n ih =>
    intro s hs
    unfold mergeStreams
    cases hpop : popLeast key streams with
    | none =>
      rw [popLeast_none hpop] at hn
      cases hn
    | some result =>
      obtain ⟨x, rest⟩ := result
      have hlength := (popLeast_perm hpop).length_eq
      rw [List.length_cons] at hlength
      have hrest : ∀ s ∈ rest, s.Sublist (mergeStreams key n rest) := ih (by omega)
      rcases popLeast_streams hpop s hs with rfl | hmem | ⟨s', rfl, hmem⟩
      · exact List.nil_sublist _
      · exact (hrest s hmem).cons x
      · exact (hrest s' hmem).cons_cons x

end StreamMerge
