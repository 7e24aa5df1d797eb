import Mathlib.Data.List.Infix

/-!
# SQL patterns

`LIKE` without an escape character, on texts as lists of characters: `%` stands for
any text, `_` for any character, and every other character for itself. A word is
turned into a pattern for the texts that begin with it by a `%` at its end; if the
word has underscores, other texts match as well.
-/

namespace LikePattern

def like : List Char → List Char → Bool
  | [], s => s.isEmpty
  | c :: pattern, s =>
    if c = '%' then s.tails.any (like pattern)
    else
      match s with
      | [] => false
      | x :: rest => (c == '_' || c == x) && like pattern rest

/-- The text has the characters of the word, apart from its underscores. -/
structure Agrees (word s : List Char) : Prop where
  length : word.length ≤ s.length
  same : ∀ (i : Nat) (c : Char), word[i]? = some c → c ≠ '_' → s[i]? = some c

/-- The text agrees with the word but has another character in the place of an
underscore. -/
structure Lookalike (word s : List Char) : Prop where
  agrees : Agrees word s
  differs : ∃ i : Nat, word[i]? = some '_' ∧ s[i]? ≠ some '_'

theorem like_percent (s : List Char) : like ['%'] s = true := by
  simp only [like, if_true, List.any_eq_true]
  exact ⟨[], (List.mem_tails _ _).mpr List.nil_suffix, rfl⟩

theorem agrees_nil (s : List Char) : Agrees [] s where
  length := Nat.zero_le _
  same i c h := by simp at h

theorem agrees_cons {c x : Char} {word s : List Char} :
    Agrees (c :: word) (x :: s) ↔ (c = '_' ∨ c = x) ∧ Agrees word s := by
  constructor
  · intro h
    refine ⟨?_, ⟨Nat.le_of_succ_le_succ h.length, fun i d hd => h.same (i + 1) d hd⟩⟩
    by_cases hc : c = '_'
    · exact Or.inl hc
    · have hx : some x = some c := h.same 0 c rfl hc
      exact Or.inr (Option.some.inj hx).symm
  · rintro ⟨hfirst, h⟩
    refine ⟨Nat.succ_le_succ h.length, ?_⟩
    intro i d hd hne
    cases i with
    | zero =>
      have hdc : c = d := Option.some.inj hd
      rcases hfirst with hc | hc
      · exact absurd (hdc.symm.trans hc) hne
      · simp [← hdc, hc]
    | succ i => exact h.same i d hd hne

/-- What a word with a `%` at its end matches. -/
theorem like_append_percent {word : List Char} (h : '%' ∉ word) (s : List Char) :
    like (word ++ ['%']) s = true ↔ Agrees word s := by
  induction word generalizing s with
  | nil => exact iff_of_true (like_percent s) (agrees_nil s)
  | cons c word ih =>
    obtain ⟨hc, hword⟩ := List.ne_and_not_mem_of_not_mem_cons h
    have hne : ¬ c = '%' := fun heq => hc heq.symm
    cases s with
    | nil =>
      refine iff_of_false (by simp [like, hne]) ?_
      intro hagrees
      exact absurd hagrees.length (Nat.not_succ_le_zero _)
    | cons x s =>
      rw [agrees_cons, ← ih hword]
      simp [like, hne]

theorem agrees_of_prefix {word s : List Char} (h : word <+: s) : Agrees word s := by
  refine ⟨h.length_le, ?_⟩
  intro i c hc _
  obtain ⟨hi, rfl⟩ := List.getElem?_eq_some_iff.mp hc
  exact List.prefix_iff_getElem?.mp h i hi

theorem not_lookalike_of_prefix {word s : List Char} (h : word <+: s) : ¬ Lookalike word s := by
  rintro ⟨-, i, hi, hne⟩
  obtain ⟨hlt, heq⟩ := List.getElem?_eq_some_iff.mp hi
  exact hne ((List.prefix_iff_getElem?.mp h i hlt).trans (congrArg some heq))

/-- A text that matches begins with the word or is a lookalike. -/
theorem prefix_of_agrees {word s : List Char} (h : Agrees word s) (hnot : ¬ Lookalike word s) :
    word <+: s := by
  rw [List.prefix_iff_getElem?]
  intro i hi
  by_cases hc : word[i] = '_'
  · by_contra hne
    rw [hc] at hne
    exact hnot ⟨h, i, by rw [List.getElem?_eq_getElem hi, hc], hne⟩
  · exact h.same i word[i] (List.getElem?_eq_getElem hi) hc

end LikePattern
