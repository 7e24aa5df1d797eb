import Mathlib.Data.List.Infix
import Mathlib.Data.List.TakeWhile

/-!
# Python's text operations

`str.strip`, `str.split`, `str.rsplit` and `int` on texts as lists of characters.
-/

namespace PythonText

abbrev Text := List Char

def spaces : List Nat :=
  [0x9, 0xA, 0xB, 0xC, 0xD, 0x1C, 0x1D, 0x1E, 0x1F, 0x20, 0x85, 0xA0, 0x1680, 0x2000, 0x2001, 0x2002,
    0x2003, 0x2004, 0x2005, 0x2006, 0x2007, 0x2008, 0x2009, 0x200A, 0x2028, 0x2029, 0x202F, 0x205F,
    0x3000]

/-- `str.isspace` of one character. -/
def isSpace (c : Char) : Bool := spaces.contains c.toNat

/-- `str.strip()`. -/
def strip (s : Text) : Text := ((s.dropWhile isSpace).reverse.dropWhile isSpace).reverse

/-- A word that is complete, if there is one. -/
def closeWord (word : Text) : List Text := if word = [] then [] else [word]

/-- The words of a text after the beginning of a word. -/
def wordsFrom (word : Text) : Text → List Text
  | [] => closeWord word
  | c :: rest => if isSpace c then closeWord word ++ wordsFrom [] rest else wordsFrom (word ++ [c]) rest

/-- `str.split()`. -/
def split (s : Text) : List Text := wordsFrom [] s

/-- `str.rsplit(sep, 1)`, if the separator occurs. -/
def rsplit (sep : Char) : Text → Option (Text × Text)
  | [] => none
  | c :: rest =>
    match rsplit sep rest with
    | some (before, after) => some (c :: before, after)
    | none => if c = sep then some ([], rest) else none

/-- The zeros of the blocks of decimal digits. -/
def decimalZeros : List Nat :=
  [0x30, 0x660, 0x6F0, 0x7C0, 0x966, 0x9E6, 0xA66, 0xAE6, 0xB66, 0xBE6, 0xC66, 0xCE6, 0xD66, 0xDE6, 0xE50,
    0xED0, 0xF20, 0x1040, 0x1090, 0x17E0, 0x1810, 0x1946, 0x19D0, 0x1A80, 0x1A90, 0x1B50, 0x1BB0,
    0x1C40, 0x1C50, 0xA620, 0xA8D0, 0xA900, 0xA9D0, 0xA9F0, 0xAA50, 0xABF0, 0xFF10, 0x104A0, 0x10D30,
    0x11066, 0x110F0, 0x11136, 0x111D0, 0x112F0, 0x11450, 0x114D0, 0x11650, 0x116C0, 0x11730, 0x118E0,
    0x11950, 0x11C50, 0x11D50, 0x11DA0, 0x16A60, 0x16AC0, 0x16B50, 0x1D7CE, 0x1D7D8, 0x1D7E2, 0x1D7EC,
    0x1D7F6, 0x1E140, 0x1E2F0, 0x1E950, 0x1FBF0]

def decimalDigit (c : Char) : Option Nat :=
  (decimalZeros.find? fun z => decide (z ≤ c.toNat) && decide (c.toNat < z + 10)).map
    fun z => c.toNat - z

/-- The digits of a number, with single underscores between them. -/
def digitsValue (value : Nat) (afterDigit : Bool) : Text → Option Nat
  | [] => if afterDigit then some value else none
  | c :: rest =>
    match decimalDigit c with
    | some d => digitsValue (value * 10 + d) true rest
    | none => if c = '_' ∧ afterDigit = true then digitsValue value false rest else none

/-- `int(s)`; `none` for a `ValueError`. -/
def int (s : Text) : Option Int :=
  match strip s with
  | '+' :: digits => (digitsValue 0 false digits).map fun n : Nat => (n : Int)
  | '-' :: digits => (digitsValue 0 false digits).map fun n : Nat => -(n : Int)
  | digits => (digitsValue 0 false digits).map fun n : Nat => (n : Int)

/-- An integer as `%d` prints it. -/
def showInt : Int → Text
  | .ofNat n => Nat.toDigits 10 n
  | .negSucc n => '-' :: Nat.toDigits 10 (n + 1)

/-! ## Words -/

/-- No character of the text is white space. -/
def Solid (s : Text) : Prop := ∀ c ∈ s, isSpace c = false

instance (s : Text) : Decidable (Solid s) := inferInstanceAs (Decidable (∀ c ∈ s, isSpace c = false))

variable {s t : Text} {c : Char}

theorem wordsFrom_solid (word : Text) (h : Solid s) (rest : Text) :
    wordsFrom word (s ++ rest) = wordsFrom (word ++ s) rest := by
  induction s generalizing word with
  | nil => simp
  | cons c s ih =>
    obtain ⟨hc, hs⟩ := List.forall_mem_cons.mp h
    rw [List.cons_append, wordsFrom, hc, if_neg Bool.false_ne_true, ih _ hs, List.append_assoc]
    rfl

/-- A word that is followed by a blank. -/
theorem split_word (h : Solid s) (hne : s ≠ []) (hc : isSpace c = true) (rest : Text) :
    split (s ++ c :: rest) = s :: split rest := by
  rw [split, wordsFrom_solid [] h, wordsFrom, hc, if_pos rfl, List.nil_append, closeWord, if_neg hne]
  rfl

theorem split_blank (hc : isSpace c = true) (rest : Text) : split (c :: rest) = split rest := by
  rw [split, wordsFrom, hc, if_pos rfl]
  rfl

theorem wordsFrom_ne_nil (word : Text) (h : word ≠ [] ∨ ∃ c ∈ s, isSpace c = false) :
    wordsFrom word s ≠ [] := by
  induction s generalizing word with
  | nil =>
    have hword : word ≠ [] := by simpa using h
    simp [wordsFrom, closeWord, hword]
  | cons c s ih =>
    rw [wordsFrom]
    split_ifs with hc
    · by_cases hword : word = []
      · have hrest : ∃ c' ∈ s, isSpace c' = false := by
          rcases h with hne | ⟨c', hmem, hc'⟩
          · exact absurd hword hne
          · rcases List.mem_cons.mp hmem with rfl | hmem
            · rw [hc] at hc'
              cases hc'
            · exact ⟨c', hmem, hc'⟩
        simp [hword, closeWord, ih [] (Or.inr hrest)]
      · simp [closeWord, hword]
    · exact ih _ (Or.inl (by simp))

theorem split_ne_nil (h : ∃ c ∈ s, isSpace c = false) : split s ≠ [] := wordsFrom_ne_nil [] (Or.inr h)

theorem wordsFrom_trailing (word : Text) (h : ∀ c ∈ t, isSpace c = true) :
    wordsFrom word (s ++ t) = wordsFrom word s := by
  induction s generalizing word with
  | nil =>
    rw [List.nil_append]
    induction t generalizing word with
    | nil => rfl
    | cons c t ih =>
      obtain ⟨hc, ht⟩ := List.forall_mem_cons.mp h
      have hstep : wordsFrom word (c :: t) = closeWord word ++ wordsFrom [] t := by
        rw [wordsFrom, hc, if_pos rfl]
      rw [hstep, ih ht []]
      simp [wordsFrom, closeWord]
  | cons c s ih =>
    rw [List.cons_append, wordsFrom, wordsFrom, ih, ih]

theorem split_leading (h : ∀ c ∈ t, isSpace c = true) : split (t ++ s) = split s := by
  induction t with
  | nil => rfl
  | cons c t ih =>
    obtain ⟨hc, ht⟩ := List.forall_mem_cons.mp h
    rw [List.cons_append, split_blank hc, ih ht]

/-- Splitting ignores the blanks that stripping removes. -/
theorem split_strip (s : Text) : split (strip s) = split s := by
  have hback : ∀ s : Text, split ((s.reverse.dropWhile isSpace).reverse) = split s := by
    intro s
    have hsplit : s = (s.reverse.dropWhile isSpace).reverse ++ (s.reverse.takeWhile isSpace).reverse := by
      rw [← List.reverse_append, List.takeWhile_append_dropWhile, List.reverse_reverse]
    have hspaces : ∀ c ∈ (s.reverse.takeWhile isSpace).reverse, isSpace c = true := by
      intro c hc
      exact List.mem_takeWhile_imp (List.mem_reverse.mp hc)
    conv_rhs => rw [hsplit]
    exact (wordsFrom_trailing [] hspaces).symm
  rw [strip, hback]
  conv_rhs => rw [← List.takeWhile_append_dropWhile (p := isSpace) (l := s)]
  exact (split_leading fun c hc => List.mem_takeWhile_imp hc).symm

/-- The first word of a text that does not begin with a blank ends at the first blank. -/
theorem head?_split (hc : isSpace c = false) (s : Text) :
    (split (c :: s)).head? = some ((c :: s).takeWhile fun c => !isSpace c) := by
  have hsolid : Solid ((c :: s).takeWhile fun c => !isSpace c) := by
    intro c' hc'
    simpa using List.mem_takeWhile_imp hc'
  have hne : ((c :: s).takeWhile fun c => !isSpace c) ≠ [] := by simp [hc]
  have hwhole := List.takeWhile_append_dropWhile (p := fun c => !isSpace c) (l := c :: s)
  cases hrest : (c :: s).dropWhile fun c => !isSpace c with
  | nil =>
    rw [hrest, List.append_nil] at hwhole
    rw [hwhole] at hsolid ⊢
    have hone := wordsFrom_solid [] hsolid []
    rw [List.append_nil] at hone
    rw [split, hone]
    rfl
  | cons d rest =>
    have hd : isSpace d = true := by
      have hhead := List.head?_dropWhile_not (fun c => !isSpace c) (c :: s)
      rw [hrest] at hhead
      simpa using hhead
    rw [hrest] at hwhole
    conv_lhs => rw [← hwhole, split_word hsolid hne hd]
    rfl

/-! ## The last separator -/

theorem rsplit_none_iff (sep : Char) : rsplit sep s = none ↔ sep ∉ s := by
  induction s with
  | nil => simp [rsplit]
  | cons c s ih =>
    rw [rsplit, List.mem_cons, not_or, ← ih]
    cases hrest : rsplit sep s with
    | some p => simp
    | none => simp [eq_comm]

theorem rsplit_append {sep : Char} (h : sep ∉ t) (s : Text) :
    rsplit sep (s ++ sep :: t) = some (s, t) := by
  induction s with
  | nil =>
    have hnone := (rsplit_none_iff sep).mpr h
    simp [rsplit, hnone]
  | cons c s ih => rw [List.cons_append, rsplit, ih]

/-- The part before the separator is shorter than the text. -/
theorem length_lt_of_rsplit {sep : Char} {before after : Text} (h : rsplit sep s = some (before, after)) :
    before.length < s.length := by
  induction s generalizing before after with
  | nil => cases h
  | cons c s ih =>
    rw [rsplit] at h
    split at h
    · rename_i first rest hrest
      cases h
      exact Nat.succ_lt_succ (ih hrest)
    · split_ifs at h
      cases h
      exact Nat.succ_pos _

/-! ## Numbers -/

theorem decimalDigit_digitChar {d : Nat} (h : d < 10) : decimalDigit (Nat.digitChar d) = some d := by
  have hall : ∀ d < 10, decimalDigit (Nat.digitChar d) = some d := by decide
  exact hall d h

theorem digitsValue_toDigits (n : Nat) (b : Bool) (rest : Text) :
    digitsValue 0 b (Nat.toDigits 10 n ++ rest) = digitsValue n true rest := by
  induction n using Nat.strong_induction_on generalizing rest with
  | _ n ih =>
    rw [Nat.toDigits_eq_if (by decide)]
    split_ifs with hsmall
    · simp [digitsValue, decimalDigit_digitChar hsmall]
    · have hdigit : decimalDigit (Nat.digitChar (n % 10)) = some (n % 10) :=
        decimalDigit_digitChar (Nat.mod_lt _ (by decide))
      rw [List.append_assoc, ih (n / 10) (by omega), List.singleton_append, digitsValue, hdigit]
      have hvalue : n / 10 * 10 + n % 10 = n := by omega
      simp only [hvalue]

theorem isDigit_bounds (h : c.isDigit = true) : 48 ≤ c.toNat ∧ c.toNat ≤ 57 := by
  simp only [Char.isDigit, Bool.and_eq_true, decide_eq_true_eq] at h
  exact ⟨h.1, h.2⟩

theorem not_isSpace_of_isDigit (h : c.isDigit = true) : isSpace c = false := by
  have hall : ∀ n < 58, 48 ≤ n → spaces.contains n = false := by decide
  obtain ⟨hlow, hhigh⟩ := isDigit_bounds h
  exact hall c.toNat (by omega) hlow

/-- A printed integer is digits, after a minus sign perhaps. -/
theorem notMem_showInt (hc : c.isDigit = false) (hminus : c ≠ '-') (z : Int) : c ∉ showInt z := by
  have hdigits : ∀ n, c ∉ Nat.toDigits 10 n := by
    intro n hmem
    rw [Nat.isDigit_of_mem_toDigits (by decide) (by decide) hmem] at hc
    cases hc
  cases z with
  | ofNat n => exact hdigits n
  | negSucc n =>
    rw [showInt, List.mem_cons, not_or]
    exact ⟨hminus, hdigits (n + 1)⟩

theorem solid_toDigits (n : Nat) : Solid (Nat.toDigits 10 n) :=
  fun _ hc => not_isSpace_of_isDigit (Nat.isDigit_of_mem_toDigits (by decide) (by decide) hc)

theorem solid_showInt (z : Int) : Solid (showInt z) := by
  cases z with
  | ofNat n => exact solid_toDigits n
  | negSucc n => exact List.forall_mem_cons.mpr ⟨by decide, solid_toDigits (n + 1)⟩

theorem strip_solid (h : Solid s) : strip s = s := by
  have hdrop : ∀ s : Text, Solid s → s.dropWhile isSpace = s := by
    intro s hs
    cases s with
    | nil => rfl
    | cons c s => simp [(List.forall_mem_cons.mp hs).1]
  have hreverse : Solid s.reverse := fun c hc => h c (List.mem_reverse.mp hc)
  rw [strip, hdrop s h, hdrop _ hreverse, List.reverse_reverse]

theorem int_toDigits (n : Nat) : int (Nat.toDigits 10 n) = some (n : Int) := by
  have hvalue := digitsValue_toDigits n false []
  rw [List.append_nil] at hvalue
  have hdigits : ∀ c ∈ Nat.toDigits 10 n, c.isDigit = true :=
    fun c hc => Nat.isDigit_of_mem_toDigits (by decide) (by decide) hc
  rw [int, strip_solid (solid_toDigits n)]
  split
  · rename_i digits heq
    exact absurd (hdigits '+' (heq ▸ List.mem_cons_self)) (by decide)
  · rename_i digits heq
    exact absurd (hdigits '-' (heq ▸ List.mem_cons_self)) (by decide)
  · rw [hvalue]
    rfl

/-- `int` reads back what `%d` prints. -/
theorem int_showInt (z : Int) : int (showInt z) = some z := by
  cases z with
  | ofNat n => exact int_toDigits n
  | negSucc n =>
    have hvalue := digitsValue_toDigits (n + 1) false []
    rw [List.append_nil] at hvalue
    rw [int, strip_solid (solid_showInt _)]
    simp only [showInt, hvalue]
    rfl

/-! ## Infixes -/

/-- A pattern that does not contain the separator lies on one side of it. -/
theorem isInfix_append_cons {p : Text} (hc : c ∉ p) (h : p <:+: s ++ c :: t) : p <:+: s ∨ p <:+: t := by
  obtain ⟨before, after, heq⟩ := h
  rw [List.append_assoc, List.append_eq_append_iff] at heq
  rcases heq with ⟨middle, hs, hrest⟩ | ⟨middle, hbefore, hrest⟩
  · -- the pattern begins in `s`
    rw [List.append_eq_append_iff] at hrest
    rcases hrest with ⟨gap, hmiddle, -⟩ | ⟨gap, hp, hrest⟩
    · exact Or.inl ⟨before, gap, by rw [hs, hmiddle, List.append_assoc]⟩
    · cases gap with
      | nil => exact Or.inl ⟨before, [], by rw [hs, hp, List.append_nil, List.append_nil]⟩
      | cons d gap =>
        rw [List.cons_append, List.cons.injEq] at hrest
        exact absurd (by rw [hp, ← hrest.1]; simp) hc
  · -- the pattern begins at the separator or after it
    cases middle with
    | nil =>
      cases p with
      | nil => exact Or.inl (List.nil_infix)
      | cons d p =>
        rw [List.nil_append, List.cons_append, List.cons.injEq] at hrest
        exact absurd (by rw [hrest.1]; simp) hc
    | cons d middle =>
      rw [List.cons_append, List.cons.injEq] at hrest
      exact Or.inr ⟨middle, after, by rw [hrest.2, List.append_assoc]⟩

theorem not_isInfix_append_cons {p : Text} (hc : c ∉ p) (hs : ¬ p <:+: s) (ht : ¬ p <:+: t) :
    ¬ p <:+: s ++ c :: t :=
  fun h => (isInfix_append_cons hc h).elim hs ht

end PythonText
