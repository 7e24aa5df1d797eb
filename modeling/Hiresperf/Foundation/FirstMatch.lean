import Mathlib.Data.List.AList

/-!
# Rules over a shared list of keys

A list of rules is gone through once for a whole list of keys. A rule gives its
value to the keys that it covers and that still wait, and takes them off the
list; the value may be missing, which ends the run. Each key gets the value of
the first rule that covers it, whatever the other keys are.
-/

namespace FirstMatch

variable {α β γ : Type} [DecidableEq α]

structure Batch (α γ : Type) where
  pending : List α
  found : AList fun _ : α => γ

def record (value : Option γ) (b : Batch α γ) (a : α) : Option (Batch α γ) :=
  value.map fun v => ⟨b.pending.erase a, b.found.insert a v⟩

/-- One rule. The covered keys are listed before the first of them is taken off. -/
def pass (covers : β → α → Bool) (value : β → Option γ) (b : Batch α γ) (r : β) :
    Option (Batch α γ) :=
  (b.pending.filter (covers r)).foldlM (record (value r)) b

/-! ## One rule -/

theorem foldl_erase_cons {a : α} {keys : List α} (hnot : a ∉ keys) (l : List α) :
    keys.foldl List.erase (a :: l) = a :: keys.foldl List.erase l := by
  induction keys generalizing l with
  | nil => rfl
  | cons k keys ih =>
    rw [List.mem_cons, not_or] at hnot
    rw [List.foldl_cons, List.erase_cons_tail (by simpa using hnot.1), ih hnot.2, List.foldl_cons]

/-- Taking off one by one all that pass a test leaves those that do not. -/
theorem foldl_erase_filter (test : α → Bool) (l : List α) :
    (l.filter test).foldl List.erase l = l.filter fun a => !test a := by
  induction l with
  | nil => rfl
  | cons a l ih =>
    cases htest : test a with
    | true =>
      rw [List.filter_cons_of_pos htest, List.foldl_cons, List.erase_cons_head, ih,
        List.filter_cons_of_neg (by simp [htest])]
    | false =>
      have hnot : a ∉ l.filter test := by
        intro hmem
        rw [List.mem_filter, htest] at hmem
        exact Bool.false_ne_true hmem.2
      rw [List.filter_cons_of_neg (by simp [htest]), foldl_erase_cons hnot, ih,
        List.filter_cons_of_pos (by simp [htest])]

theorem lookup_foldl_insert (v : γ) (keys : List α) (found : AList fun _ : α => γ) (x : α) :
    (keys.foldl (fun d a => d.insert a v) found).lookup x =
      if x ∈ keys then some v else found.lookup x := by
  induction keys generalizing found with
  | nil => rfl
  | cons k keys ih =>
    rw [List.foldl_cons, ih]
    by_cases hmem : x ∈ keys
    · rw [if_pos hmem, if_pos (List.mem_cons_of_mem k hmem)]
    · rw [if_neg hmem]
      by_cases heq : x = k
      · subst heq
        rw [AList.lookup_insert, if_pos List.mem_cons_self]
      · rw [AList.lookup_insert_ne heq, if_neg (by simp [heq, hmem])]

theorem foldlM_record_some (v : γ) (keys : List α) (b : Batch α γ) :
    keys.foldlM (record (some v)) b =
      some ⟨keys.foldl List.erase b.pending, keys.foldl (fun d a => d.insert a v) b.found⟩ := by
  induction keys generalizing b with
  | nil => rfl
  | cons k keys ih => exact ih _

theorem foldlM_record_none {keys : List α} (hne : keys ≠ []) (b : Batch α γ) :
    keys.foldlM (record none) b = none := by
  cases keys with
  | nil => exact absurd rfl hne
  | cons k keys => rfl

section Rules

variable (covers : β → α → Bool) (value : β → Option γ)

theorem pass_of_some {r : β} {v : γ} (hv : value r = some v) (b : Batch α γ) :
    pass covers value b r = some
      ⟨b.pending.filter fun a => !covers r a,
        (b.pending.filter (covers r)).foldl (fun d a => d.insert a v) b.found⟩ := by
  rw [pass, hv, foldlM_record_some, foldl_erase_filter]

theorem pass_of_idle {r : β} {b : Batch α γ} (hidle : b.pending.filter (covers r) = []) :
    pass covers value b r = some b := by
  rw [pass, hidle]
  rfl

/-- A rule fails on a key that it covers and has no value for. -/
theorem pass_eq_none_iff (b : Batch α γ) (r : β) :
    pass covers value b r = none ↔ ∃ x ∈ b.pending, covers r x = true ∧ value r = none := by
  cases hv : value r with
  | some v => simp [pass_of_some covers value hv]
  | none =>
    constructor
    · intro hnone
      by_contra hall
      push Not at hall
      have hidle : b.pending.filter (covers r) = [] := by
        rw [List.filter_eq_nil_iff]
        intro x hx hcovers
        exact hall x hx hcovers rfl
      rw [pass_of_idle covers value hidle] at hnone
      exact Option.some_ne_none b hnone
    · rintro ⟨x, hx, hcovers, -⟩
      rw [pass, hv]
      exact foldlM_record_none (List.ne_nil_of_mem (List.mem_filter.mpr ⟨hx, hcovers⟩)) b

theorem pass_pending {r : β} {b b' : Batch α γ} (hpass : pass covers value b r = some b') :
    b'.pending = b.pending.filter fun a => !covers r a := by
  cases hv : value r with
  | some v =>
    rw [pass_of_some covers value hv, Option.some.injEq] at hpass
    rw [← hpass]
  | none =>
    have hidle : b.pending.filter (covers r) = [] := by
      rw [List.filter_eq_nil_iff]
      intro x hx hcovers
      have hnone := (pass_eq_none_iff covers value b r).mpr ⟨x, hx, hcovers, hv⟩
      rw [hnone] at hpass
      exact Option.some_ne_none b' hpass.symm
    rw [pass_of_idle covers value hidle, Option.some.injEq] at hpass
    subst hpass
    rw [List.filter_eq_nil_iff] at hidle
    exact (List.filter_eq_self.mpr fun a ha => by simpa using hidle a ha).symm

theorem pass_lookup {r : β} {b b' : Batch α γ} (hpass : pass covers value b r = some b') (x : α) :
    b'.found.lookup x =
      if x ∈ b.pending ∧ covers r x = true then value r else b.found.lookup x := by
  cases hv : value r with
  | some v =>
    rw [pass_of_some covers value hv, Option.some.injEq] at hpass
    rw [← hpass, lookup_foldl_insert]
    simp only [List.mem_filter]
  | none =>
    have hnot : ¬(x ∈ b.pending ∧ covers r x = true) := by
      rintro ⟨hx, hcovers⟩
      have hnone := (pass_eq_none_iff covers value b r).mpr ⟨x, hx, hcovers, hv⟩
      rw [hnone] at hpass
      exact Option.some_ne_none b' hpass.symm
    rw [if_neg hnot]
    rw [pass, hv] at hpass
    cases hkeys : b.pending.filter (covers r) with
    | nil =>
      rw [hkeys] at hpass
      rw [← Option.some.inj hpass]
    | cons k keys =>
      rw [hkeys, foldlM_record_none (List.cons_ne_nil k keys)] at hpass
      exact absurd hpass (Option.some_ne_none b').symm

/-! ## All rules -/

/-- With no key left the other rules do nothing. -/
theorem foldlM_pass_of_done (rules : List β) {b : Batch α γ} (hdone : b.pending = []) :
    rules.foldlM (pass covers value) b = some b := by
  induction rules with
  | nil => rfl
  | cons r rules ih =>
    have hidle : b.pending.filter (covers r) = [] := by rw [hdone]; rfl
    rw [List.foldlM_cons, pass_of_idle covers value hidle]
    exact ih

theorem foldlM_pass_lookup_of_notMem (rules : List β) {b b' : Batch α γ}
    (hrun : rules.foldlM (pass covers value) b = some b') {x : α} (hnot : x ∉ b.pending) :
    b'.found.lookup x = b.found.lookup x := by
  induction rules generalizing b with
  | nil => rw [← Option.some.inj hrun]
  | cons r rules ih =>
    rw [List.foldlM_cons] at hrun
    obtain ⟨next, hpass, hrest⟩ := Option.bind_eq_some_iff.mp hrun
    have hgone : x ∉ next.pending := by
      rw [pass_pending covers value hpass]
      exact fun hmem => hnot (List.mem_of_mem_filter hmem)
    rw [ih hrest hgone, pass_lookup covers value hpass, if_neg fun h => hnot h.1]

theorem foldlM_pass_lookup_of_mem (rules : List β) {b b' : Batch α γ}
    (hrun : rules.foldlM (pass covers value) b = some b') {x : α} (hmem : x ∈ b.pending)
    (hnew : b.found.lookup x = none) :
    b'.found.lookup x = (rules.find? fun r => covers r x).bind value := by
  induction rules generalizing b with
  | nil => rw [← Option.some.inj hrun, hnew]; rfl
  | cons r rules ih =>
    rw [List.foldlM_cons] at hrun
    obtain ⟨next, hpass, hrest⟩ := Option.bind_eq_some_iff.mp hrun
    have hlookup := pass_lookup covers value hpass x
    have hpending := pass_pending covers value hpass
    cases hcovers : covers r x with
    | true =>
      rw [if_pos ⟨hmem, hcovers⟩] at hlookup
      have hgone : x ∉ next.pending := by
        rw [hpending, List.mem_filter, hcovers]
        exact fun h => Bool.false_ne_true h.2
      rw [foldlM_pass_lookup_of_notMem covers value rules hrest hgone, hlookup, List.find?_cons,
        hcovers]
      rfl
    | false =>
      rw [if_neg fun h => Bool.false_ne_true (hcovers.symm.trans h.2), hnew] at hlookup
      have hwaits : x ∈ next.pending := by
        rw [hpending, List.mem_filter, hcovers]
        exact ⟨hmem, rfl⟩
      rw [ih hrest hwaits hlookup, List.find?_cons, hcovers]

/-- Each waiting key gets the value of the first rule that covers it. -/
theorem lookup_foldlM_pass (rules : List β) {keys : List α} {b : Batch α γ}
    (hrun : rules.foldlM (pass covers value) ⟨keys, ∅⟩ = some b) (x : α) :
    b.found.lookup x =
      if x ∈ keys then (rules.find? fun r => covers r x).bind value else none := by
  by_cases hmem : x ∈ keys
  · rw [if_pos hmem]
    exact foldlM_pass_lookup_of_mem covers value rules hrun hmem (AList.lookup_empty x)
  · rw [if_neg hmem, foldlM_pass_lookup_of_notMem covers value rules hrun hmem]
    exact AList.lookup_empty x

/-- The run fails exactly if the first rule that covers some key has no value. -/
theorem foldlM_pass_eq_none_iff (rules : List β) (b : Batch α γ) :
    rules.foldlM (pass covers value) b = none ↔
      ∃ x ∈ b.pending, ∃ r, rules.find? (fun r => covers r x) = some r ∧ value r = none := by
  induction rules generalizing b with
  | nil => simp
  | cons r rules ih =>
    rw [List.foldlM_cons]
    cases hpass : pass covers value b r with
    | none =>
      obtain ⟨x, hx, hcovers, hv⟩ := (pass_eq_none_iff covers value b r).mp hpass
      refine iff_of_true rfl ⟨x, hx, r, ?_, hv⟩
      rw [List.find?_cons, hcovers]
    | some next =>
      have hkept : ∀ x ∈ b.pending, covers r x = true → value r ≠ none := by
        intro x hx hcovers hv
        rw [(pass_eq_none_iff covers value b r).mpr ⟨x, hx, hcovers, hv⟩] at hpass
        exact Option.some_ne_none next hpass.symm
      refine Iff.trans (ih next) ?_
      rw [pass_pending covers value hpass]
      constructor
      · rintro ⟨x, hx, s, hfind, hv⟩
        obtain ⟨hx, hcovers⟩ := List.mem_filter.mp hx
        refine ⟨x, hx, s, ?_, hv⟩
        rw [Bool.not_eq_true'] at hcovers
        rw [List.find?_cons, hcovers]
        exact hfind
      · rintro ⟨x, hx, s, hfind, hv⟩
        cases hcovers : covers r x with
        | true =>
          rw [List.find?_cons, hcovers, Option.some.injEq] at hfind
          exact absurd (hfind ▸ hv) (hkept x hx hcovers)
        | false =>
          rw [List.find?_cons, hcovers] at hfind
          exact ⟨x, List.mem_filter.mpr ⟨hx, by simp [hcovers]⟩, s, hfind, hv⟩

end Rules

end FirstMatch
