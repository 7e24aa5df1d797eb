import Mathlib.Data.List.Basic
import Mathlib.Data.List.Perm.Basic

/-!
# Openings and closings

A scan over marks that open and close something with a key. The open ones wait in a
dictionary; a new opening takes the place of an open one with its key, and what is
still open at the end is closed there. Keys are compared by a test that need not be
reflexive: a key that is not even equal to itself is never found again.
-/

namespace Pairing

universe u v

variable {K : Type u} {T : Type v}

inductive Mark (K : Type u) (T : Type v) where
  | opens (key : K) (time : T)
  | closes (key : K) (time : T)

def Mark.key : Mark K T → K
  | .opens key _ => key
  | .closes key _ => key

/-- The test of a dictionary on its keys. -/
structure KeyTest (K : Type u) where
  same : K → K → Bool
  symm : ∀ a b, same a b = same b a
  trans : ∀ a b c, same a b = true → same b c = true → same a c = true

def KeyTest.equal [DecidableEq K] : KeyTest K where
  same a b := a == b
  symm a b := Bool.beq_comm
  trans a b c hab hbc := by
    rw [beq_iff_eq] at hab hbc ⊢
    exact hab.trans hbc

variable (test : KeyTest K)

/-! ## The scan -/

/-- `d[key] = time`: an entry keeps its place. -/
def setItem : List (K × T) → K → T → List (K × T)
  | [], key, time => [(key, time)]
  | entry :: rest, key, time =>
    if test.same entry.1 key then (entry.1, time) :: rest else entry :: setItem rest key time

def getItem (d : List (K × T)) (key : K) : Option (K × T) := d.find? fun e => test.same e.1 key

def delItem (d : List (K × T)) (key : K) : List (K × T) := d.eraseP fun e => test.same e.1 key

structure Scan (K : Type u) (T : Type v) where
  closed : List (T × T)
  open_ : List (K × T)

def step (s : Scan K T) : Mark K T → Scan K T
  | .opens key time => { s with open_ := setItem test s.open_ key time }
  | .closes key time =>
    match getItem test s.open_ key with
    | some entry => ⟨s.closed ++ [(entry.2, time)], delItem test s.open_ key⟩
    | none => s

def scan (marks : List (Mark K T)) : Scan K T := marks.foldl (step test) ⟨[], []⟩

/-- What was closed, in this order, and then what was not. -/
def Scan.periods (s : Scan K T) (stop : T) : List (T × T) :=
  s.closed ++ s.open_.map fun entry => (entry.2, stop)

/-! ## What the scan finds -/

/-- The end of something open: the next closing of its key, if there is no other opening
before. -/
def endOf (stop : T) (key : K) : List (Mark K T) → Option T
  | [] => some stop
  | .opens k _ :: rest => if test.same key k then none else endOf stop key rest
  | .closes k time :: rest => if test.same key k then some time else endOf stop key rest

def periodOf (stop : T) (marks : List (Mark K T)) (entry : K × T) : List (T × T) :=
  ((endOf test stop entry.1 marks).map fun time => (entry.2, time)).toList

/-- Each opening with its end. -/
def periods (stop : T) : List (Mark K T) → List (T × T)
  | [] => []
  | .opens key time :: rest => periodOf test stop rest (key, time) ++ periods stop rest
  | .closes _ _ :: rest => periods stop rest

/-- A dictionary has a key once. -/
def Distinct (d : List (K × T)) : Prop := d.Pairwise fun a b => test.same a.1 b.1 = false

variable {test} {stop : T} {key : K} {time : T} {marks : List (Mark K T)} {d : List (K × T)}

theorem KeyTest.same_congr {a b : K} (h : test.same a b = true) (c : K) :
    test.same a c = test.same b c := by
  rw [Bool.eq_iff_iff]
  constructor
  · exact test.trans b a c (by rw [test.symm]; exact h)
  · exact test.trans a b c h

theorem endOf_congr {a b : K} (h : test.same a b = true) (marks : List (Mark K T)) :
    endOf test stop a marks = endOf test stop b marks := by
  induction marks with
  | nil => rfl
  | cons m marks ih =>
    cases m with
    | opens k t => rw [endOf, endOf, test.same_congr h, ih]
    | closes k t => rw [endOf, endOf, test.same_congr h, ih]

/-- A mark ends only what has its key. -/
theorem periodOf_cons {m : Mark K T} {entry : K × T} (h : test.same entry.1 m.key = false) :
    periodOf test stop (m :: marks) entry = periodOf test stop marks entry := by
  cases m with
  | opens k t =>
    rw [periodOf, endOf, if_neg (by rw [Mark.key] at h; simp [h])]
    rfl
  | closes k t =>
    rw [periodOf, endOf, if_neg (by rw [Mark.key] at h; simp [h])]
    rfl

theorem flatMap_periodOf_cons {m : Mark K T} (h : ∀ e ∈ d, test.same e.1 m.key = false) :
    d.flatMap (periodOf test stop (m :: marks)) = d.flatMap (periodOf test stop marks) :=
  List.flatMap_congr fun e he => periodOf_cons (h e he)

/-- No other entry has the key of the first. -/
theorem other_keys {entry : K × T} (h : Distinct test (entry :: d))
    (hkey : test.same entry.1 key = true) : ∀ e ∈ d, test.same e.1 key = false := by
  intro e he
  have hne := (List.pairwise_cons.mp h).1 e he
  rw [test.same_congr hkey, test.symm] at hne
  exact hne

/-! ## One mark -/

theorem distinct_setItem (h : Distinct test d) : Distinct test (setItem test d key time) := by
  have hmem : ∀ d : List (K × T), ∀ e ∈ setItem test d key time,
      e.1 = key ∨ ∃ e' ∈ d, e.1 = e'.1 := by
    intro d
    induction d with
    | nil => simp [setItem]
    | cons entry d ih =>
      intro e he
      rw [setItem] at he
      split at he
      · rcases List.mem_cons.mp he with rfl | hrest
        · exact Or.inr ⟨entry, List.mem_cons_self, rfl⟩
        · exact Or.inr ⟨e, List.mem_cons_of_mem _ hrest, rfl⟩
      · rcases List.mem_cons.mp he with rfl | hrest
        · exact Or.inr ⟨e, List.mem_cons_self, rfl⟩
        · rcases ih e hrest with hkey | ⟨e', he', heq⟩
          · exact Or.inl hkey
          · exact Or.inr ⟨e', List.mem_cons_of_mem _ he', heq⟩
  induction d with
  | nil => exact List.pairwise_singleton _ _
  | cons entry d ih =>
    obtain ⟨hhead, htail⟩ := List.pairwise_cons.mp h
    rw [setItem]
    split
    · exact List.pairwise_cons.mpr ⟨hhead, htail⟩
    case isFalse hne =>
      refine List.pairwise_cons.mpr ⟨fun e he => ?_, ih htail⟩
      rcases hmem d e he with hkey | ⟨e', he', heq⟩
      · rw [hkey]
        simpa using hne
      · rw [heq]
        exact hhead e' he'

theorem distinct_delItem (h : Distinct test d) : Distinct test (delItem test d key) :=
  h.sublist List.eraseP_sublist

theorem distinct_step {s : Scan K T} (h : Distinct test s.open_) (m : Mark K T) :
    Distinct test (step test s m).open_ := by
  cases m with
  | opens key time => exact distinct_setItem h
  | closes key time =>
    rw [step]
    split
    · exact distinct_delItem h
    · exact h

/-- An opening ends what is open with its key without a period, and is open itself. -/
theorem perm_setItem (h : Distinct test d) :
    ((setItem test d key time).flatMap (periodOf test stop marks)).Perm
      (d.flatMap (periodOf test stop (.opens key time :: marks)) ++
        periodOf test stop marks (key, time)) := by
  induction d with
  | nil => simp [setItem]
  | cons entry d ih =>
    rw [setItem]
    split
    case isTrue hkey =>
      have hnone : periodOf test stop (.opens key time :: marks) entry = [] := by
        rw [periodOf, endOf, if_pos hkey]
        rfl
      have hsame : periodOf test stop marks (entry.1, time) =
          periodOf test stop marks (key, time) := by
        rw [periodOf, periodOf, endOf_congr hkey]
      rw [List.flatMap_cons, List.flatMap_cons, hnone, hsame, List.nil_append,
        flatMap_periodOf_cons (m := .opens key time) (other_keys h hkey)]
      exact List.perm_append_comm
    case isFalse hkey =>
      have hne : test.same entry.1 key = false := by simpa using hkey
      rw [List.flatMap_cons, List.flatMap_cons, periodOf_cons hne, List.append_assoc]
      exact (ih (List.pairwise_cons.mp h).2).append_left _

/-- A closing ends what is open with its key. -/
theorem perm_delItem (h : Distinct test d) {entry : K × T}
    (hget : getItem test d key = some entry) :
    (d.flatMap (periodOf test stop (.closes key time :: marks))).Perm
      ((entry.2, time) :: (delItem test d key).flatMap (periodOf test stop marks)) := by
  induction d with
  | nil => cases hget
  | cons first d ih =>
    rw [getItem, List.find?_cons] at hget
    rw [delItem, List.eraseP_cons]
    cases hkey : test.same first.1 key with
    | true =>
      simp only [hkey, Option.some.injEq] at hget
      subst hget
      have hclosed : periodOf test stop (.closes key time :: marks) first = [(first.2, time)] := by
        rw [periodOf, endOf, if_pos hkey]
        rfl
      rw [List.flatMap_cons, hclosed,
        flatMap_periodOf_cons (m := .closes key time) (other_keys h hkey)]
      simp
    | false =>
      simp only [hkey] at hget
      rw [List.flatMap_cons, periodOf_cons hkey]
      simp only [cond_false, List.flatMap_cons]
      exact ((ih (List.pairwise_cons.mp h).2 hget).append_left _).trans List.perm_middle

theorem perm_step (s : Scan K T) (h : Distinct test s.open_) (m : Mark K T) :
    (s.closed ++ s.open_.flatMap (periodOf test stop (m :: marks)) ++
        periods test stop (m :: marks)).Perm
      ((step test s m).closed ++ (step test s m).open_.flatMap (periodOf test stop marks) ++
        periods test stop marks) := by
  cases m with
  | opens key time =>
    rw [step, periods, List.append_assoc, List.append_assoc, ← List.append_assoc _ (periodOf ..)]
    exact ((perm_setItem h).symm.append_right _).append_left _
  | closes key time =>
    rw [step, periods]
    cases hget : getItem test s.open_ key with
    | none =>
      have hother : ∀ e ∈ s.open_, test.same e.1 key = false := by
        intro e he
        simpa using List.find?_eq_none.mp hget e he
      rw [flatMap_periodOf_cons hother]
    | some entry =>
      simp only [List.append_assoc]
      exact ((perm_delItem h hget).append_right _).append_left _

/-! ## All marks -/

/-- The scan finds each opening with its end, once. -/
theorem scan_periods_perm (marks : List (Mark K T)) (stop : T) :
    ((scan test marks).periods stop).Perm (periods test stop marks) := by
  have hall : ∀ (marks : List (Mark K T)) (s : Scan K T), Distinct test s.open_ →
      ((marks.foldl (step test) s).periods stop).Perm
        (s.closed ++ s.open_.flatMap (periodOf test stop marks) ++ periods test stop marks) := by
    intro marks
    induction marks with
    | nil =>
      intro s _
      have hopen : s.open_.flatMap (periodOf test stop []) =
          s.open_.map fun entry => (entry.2, stop) := by
        rw [List.map_eq_flatMap]
        rfl
      rw [hopen, periods, List.append_nil]
      rfl
    | cons m marks ih =>
      intro s hs
      exact (ih (step test s m) (distinct_step hs m)).trans (perm_step s hs m).symm
  exact hall marks ⟨[], []⟩ List.Pairwise.nil

/-! ## Keys -/

section Keys

variable {L : Type u} {other : KeyTest L}

def Mark.mapKey (f : K → L) : Mark K T → Mark L T
  | .opens key time => .opens (f key) time
  | .closes key time => .closes (f key) time

theorem endOf_mapKey {f : K → L} {key : K} {marks : List (Mark K T)}
    (hf : ∀ m ∈ marks, other.same (f key) (f m.key) = test.same key m.key) :
    endOf other stop (f key) (marks.map (Mark.mapKey f)) = endOf test stop key marks := by
  induction marks with
  | nil => rfl
  | cons m marks ih =>
    have hkey := hf m List.mem_cons_self
    have ih := ih fun m' hm' => hf m' (List.mem_cons_of_mem _ hm')
    cases m with
    | opens k t =>
      rw [Mark.key] at hkey
      rw [List.map_cons, Mark.mapKey, endOf, endOf, hkey, ih]
    | closes k t =>
      rw [Mark.key] at hkey
      rw [List.map_cons, Mark.mapKey, endOf, endOf, hkey, ih]

/-- Only the outcome of the tests on the keys that occur matters. -/
theorem periods_mapKey {f : K → L} {marks : List (Mark K T)}
    (hf : ∀ m ∈ marks, ∀ m' ∈ marks, other.same (f m.key) (f m'.key) = test.same m.key m'.key) :
    periods other stop (marks.map (Mark.mapKey f)) = periods test stop marks := by
  induction marks with
  | nil => rfl
  | cons m marks ih =>
    have hkey := fun m' (hm' : m' ∈ marks) => hf m List.mem_cons_self m' (List.mem_cons_of_mem _ hm')
    have ih := ih fun a ha b hb => hf a (List.mem_cons_of_mem _ ha) b (List.mem_cons_of_mem _ hb)
    cases m with
    | opens k t =>
      have hend : endOf other stop (f k) (marks.map (Mark.mapKey f)) = endOf test stop k marks :=
        endOf_mapKey hkey
      rw [List.map_cons, Mark.mapKey, periods, periods, ih, periodOf, hend, periodOf]
    | closes k t => rw [List.map_cons, Mark.mapKey, periods, periods, ih]

end Keys

def Mark.isOpens : Mark K T → Bool
  | .opens _ _ => true
  | .closes _ _ => false

/-- Closings that no key matches can be left out. -/
theorem endOf_filter_isOpens (h : ∀ m ∈ marks, m.isOpens = false → ∀ k, test.same k m.key = false)
    (key : K) : endOf test stop key (marks.filter Mark.isOpens) = endOf test stop key marks := by
  induction marks with
  | nil => rfl
  | cons m marks ih =>
    have ih := ih fun m' hm' => h m' (List.mem_cons_of_mem _ hm')
    cases m with
    | opens k t =>
      rw [List.filter_cons_of_pos rfl, endOf, endOf, ih]
    | closes k t =>
      have hne : test.same key k = false := h _ List.mem_cons_self rfl key
      rw [List.filter_cons_of_neg (by simp [Mark.isOpens]), endOf, if_neg (by simp [hne]), ih]

theorem periods_filter_isOpens
    (h : ∀ m ∈ marks, m.isOpens = false → ∀ k, test.same k m.key = false) :
    periods test stop (marks.filter Mark.isOpens) = periods test stop marks := by
  induction marks with
  | nil => rfl
  | cons m marks ih =>
    have hrest : ∀ m' ∈ marks, m'.isOpens = false → ∀ k, test.same k m'.key = false :=
      fun m' hm' => h m' (List.mem_cons_of_mem _ hm')
    cases m with
    | opens k t =>
      rw [List.filter_cons_of_pos rfl, periods, periods, ih hrest, periodOf,
        endOf_filter_isOpens hrest, periodOf]
    | closes k t => rw [List.filter_cons_of_neg (by simp [Mark.isOpens]), periods, ih hrest]

/-- Without closings all periods last until the end. -/
theorem ends_of_opens (h : ∀ m ∈ marks, m.isOpens = true) :
    ∀ period ∈ periods test stop marks, period.2 = stop := by
  have hend : ∀ (marks : List (Mark K T)), (∀ m ∈ marks, m.isOpens = true) →
      ∀ key time, endOf test stop key marks = some time → time = stop := by
    intro marks hopens key time
    induction marks with
    | nil =>
      intro hsome
      exact (Option.some.inj hsome).symm
    | cons m marks ih =>
      cases m with
      | opens k t =>
        rw [endOf]
        split
        · intro hsome
          cases hsome
        · exact ih fun m hm => hopens m (List.mem_cons_of_mem _ hm)
      | closes k t => cases hopens _ List.mem_cons_self
  induction marks with
  | nil =>
    intro period hp
    cases hp
  | cons m marks ih =>
    have hrest : ∀ m ∈ marks, m.isOpens = true := fun m hm => h m (List.mem_cons_of_mem _ hm)
    cases m with
    | opens k t =>
      intro period hp
      rcases List.mem_append.mp hp with hown | hother
      · obtain ⟨time, htime, rfl⟩ := Option.map_eq_some_iff.mp (Option.mem_toList.mp hown)
        exact hend marks hrest k time htime
      · exact ih hrest period hother
    | closes k t => cases h _ List.mem_cons_self

end Pairing
