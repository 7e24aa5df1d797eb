import Mathlib.Algebra.Ring.Int.Defs
import Mathlib.Data.List.Basic

/-!
# How long something is in use

A sequence of events at times `time 0, time 1, …`; `level n` is how many users
there are after the first `n` of them, so between event `n - 1` and event `n`. A
scan over the events collects the periods in which the level is not zero. The
time with users is the total length of the periods; the time summed over the
users counts each moment as often as its level says.
-/

namespace Occupancy

variable (level : Nat → Nat) (time : Nat → Int)

/-- The users come with event `i` and the last one goes with event `j`. -/
structure IsPeriod (i j : Nat) : Prop where
  before : level i = 0
  during : ∀ k, i < k → k ≤ j → level k ≠ 0
  after : level (j + 1) = 0
  nonempty : i < j

/-- The length of the steps before event `n` that have a user. -/
def usedTime : Nat → Int
  | 0 => 0
  | n + 1 => usedTime n + if level n = 0 then 0 else time n - time (n - 1)

/-- The length of the steps before event `n`, each counted once for every user. -/
def userTime : Nat → Int
  | 0 => 0
  | n + 1 => userTime n + level n * (time n - time (n - 1))

/-- The times do not go back before event `n`. -/
def Ordered (n : Nat) : Prop := ∀ k < n, time (k - 1) ≤ time k

/-- Every step with more than one user has length zero. -/
def OneAtATime (n : Nat) : Prop := ∀ k < n, 2 ≤ level k → time k = time (k - 1)

def lengthOf (p : Int × Int) : Int := p.2 - p.1

def endpoints (p : Nat × Nat) : Int × Int := (time p.1, time p.2)

/-- What a scan of the first `n` events knows: the periods that are over, in order, and
where the current one began. -/
structure Scanned (n : Nat) (periods : List (Nat × Nat)) (start : Option Nat) : Prop where
  sorted : periods.Pairwise fun p q => p.2 < q.1
  exact : ∀ i j, (i, j) ∈ periods ↔ IsPeriod level i j ∧ j < n
  idle : start = none ↔ level n = 0
  current : ∀ i, start = some i → i < n ∧ level i = 0 ∧ ∀ k, i < k → k ≤ n → level k ≠ 0
  length : ((periods.map (endpoints time)).map lengthOf).sum +
    (start.map fun i => time (n - 1) - time i).getD 0 = usedTime level time n

variable {level time}

/-! ## The scan -/

theorem scanned_zero (h : level 0 = 0) : Scanned level time 0 [] none where
  sorted := List.Pairwise.nil
  exact i j := by simp
  idle := by simp [h]
  current i hi := by simp at hi
  length := rfl

/-- A period that ends with event `n` is the current one. -/
theorem Scanned.no_new_period {n : Nat} {periods : List (Nat × Nat)} {start : Option Nat}
    (h : Scanned level time n periods start) (hsame : level n = 0 ∨ level (n + 1) ≠ 0) (i j : Nat) :
    (i, j) ∈ periods ↔ IsPeriod level i j ∧ j < n + 1 := by
  rw [h.exact]
  constructor
  · rintro ⟨hp, hj⟩
    exact ⟨hp, by omega⟩
  · rintro ⟨hp, hj⟩
    refine ⟨hp, ?_⟩
    by_contra hge
    have hjn : j = n := by omega
    subst j
    rcases hsame with hbefore | hafter
    · exact hp.during n hp.nonempty (Nat.le_refl n) hbefore
    · exact hafter hp.after

theorem Scanned.stay_idle {n : Nat} {periods : List (Nat × Nat)}
    (h : Scanned level time n periods none) (hnext : level (n + 1) = 0) :
    Scanned level time (n + 1) periods none where
  sorted := h.sorted
  exact := h.no_new_period (Or.inl (h.idle.mp rfl))
  idle := by simp [hnext]
  current i hi := by simp at hi
  length := by
    have hidle : level n = 0 := h.idle.mp rfl
    have hlen := h.length
    simp only [Option.map_none, Option.getD_none] at hlen ⊢
    simp only [usedTime, hidle, if_true]
    omega

theorem Scanned.begin {n : Nat} {periods : List (Nat × Nat)}
    (h : Scanned level time n periods none) (hnext : level (n + 1) ≠ 0) :
    Scanned level time (n + 1) periods (some n) where
  sorted := h.sorted
  exact := h.no_new_period (Or.inl (h.idle.mp rfl))
  idle := by simp [hnext]
  current i hi := by
    obtain rfl : n = i := Option.some.inj hi
    refine ⟨Nat.lt_succ_self n, h.idle.mp rfl, ?_⟩
    intro k hlow hhigh
    obtain rfl : k = n + 1 := by omega
    exact hnext
  length := by
    have hidle : level n = 0 := h.idle.mp rfl
    have hlen := h.length
    simp only [Option.map_none, Option.map_some, Option.getD_none, Option.getD_some,
      Nat.add_sub_cancel] at hlen ⊢
    simp only [usedTime, hidle, if_true]
    omega

theorem Scanned.stay_used {n i : Nat} {periods : List (Nat × Nat)}
    (h : Scanned level time n periods (some i)) (hnext : level (n + 1) ≠ 0) :
    Scanned level time (n + 1) periods (some i) where
  sorted := h.sorted
  exact := h.no_new_period (Or.inr hnext)
  idle := by simp [hnext]
  current i' hi' := by
    obtain ⟨hi, hbefore, hduring⟩ := h.current i' hi'
    refine ⟨by omega, hbefore, ?_⟩
    intro k hlow hhigh
    rcases Nat.lt_or_ge n k with hk | hk
    · obtain rfl : k = n + 1 := by omega
      exact hnext
    · exact hduring k hlow hk
  length := by
    have hused : level n ≠ 0 := fun hzero => by simpa using h.idle.mpr hzero
    have hlen := h.length
    simp only [Option.map_some, Option.getD_some, Nat.add_sub_cancel] at hlen ⊢
    simp only [usedTime, hused, if_false]
    omega

/-- The current period ends with event `n`. -/
theorem Scanned.finish {n i : Nat} {periods : List (Nat × Nat)}
    (h : Scanned level time n periods (some i)) (hnext : level (n + 1) = 0) :
    Scanned level time (n + 1) (periods ++ [(i, n)]) none := by
  obtain ⟨hi, hbefore, hduring⟩ := h.current i rfl
  have hnew : IsPeriod level i n := ⟨hbefore, hduring, hnext, hi⟩
  refine ⟨?_, ?_, by simp [hnext], fun i' hi' => by simp at hi', ?_⟩
  · rw [List.pairwise_append]
    refine ⟨h.sorted, List.pairwise_singleton _ _, ?_⟩
    intro p hp q hq
    obtain rfl := List.mem_singleton.mp hq
    obtain ⟨hperiod, hlt⟩ := (h.exact p.1 p.2).mp hp
    -- the step after an earlier period is idle, so it is not inside the current one
    by_contra hge
    exact hduring (p.2 + 1) (by omega) (by omega) hperiod.after
  · intro i' j
    rw [List.mem_append, List.mem_singleton, h.exact]
    constructor
    · rintro (⟨hp, hj⟩ | heq)
      · exact ⟨hp, by omega⟩
      · obtain ⟨rfl, rfl⟩ := Prod.mk.inj heq
        exact ⟨hnew, Nat.lt_succ_self _⟩
    · rintro ⟨hp, hj⟩
      rcases Nat.lt_or_ge j n with hlt | hge
      · exact Or.inl ⟨hp, hlt⟩
      · obtain rfl : j = n := by omega
        -- both starts are idle, and neither lies inside the other period
        rcases Nat.lt_trichotomy i i' with hlt | rfl | hgt
        · exact absurd hp.before (hduring i' hlt (Nat.le_of_lt hp.nonempty))
        · exact Or.inr rfl
        · exact absurd hbefore (hp.during i hgt (Nat.le_of_lt hi))
  · have hused : level n ≠ 0 := hduring n hi (Nat.le_refl n)
    have hlen := h.length
    simp only [Option.map_some, Option.map_none, Option.getD_some, Option.getD_none, List.map_append,
      List.map_cons, List.map_nil, List.sum_append, List.sum_cons, List.sum_nil, endpoints,
      lengthOf] at hlen ⊢
    simp only [usedTime, hused, if_false]
    omega

theorem Scanned.unchanged {n : Nat} {periods : List (Nat × Nat)} {start : Option Nat}
    (h : Scanned level time n periods start) (hsame : level (n + 1) = level n) :
    Scanned level time (n + 1) periods start := by
  cases start with
  | none => exact h.stay_idle (hsame.trans (h.idle.mp rfl))
  | some i =>
    apply h.stay_used
    intro hzero
    have hnone := h.idle.mpr (hsame.symm.trans hzero)
    cases hnone

/-! ## The two times -/

theorem usedTime_le_span {n : Nat} (h : Ordered time n) :
    usedTime level time n ≤ time (n - 1) - time 0 := by
  induction n with
  | zero => simp [usedTime]
  | succ n ih =>
    have hstep := h n (Nat.lt_succ_self n)
    have hrest := ih fun k hk => h k (by omega)
    simp only [usedTime, Nat.add_sub_cancel]
    split <;> omega

theorem step_used_le_user (level : Nat → Nat) {n : Nat} (hstep : time (n - 1) ≤ time n) :
    (if level n = 0 then 0 else time n - time (n - 1)) ≤ level n * (time n - time (n - 1)) := by
  by_cases hzero : level n = 0
  · simp [hzero]
  · rw [if_neg hzero]
    have hone : (1 : Int) ≤ level n := by omega
    calc time n - time (n - 1) = 1 * (time n - time (n - 1)) := (Int.one_mul _).symm
      _ ≤ level n * (time n - time (n - 1)) :=
        Int.mul_le_mul_of_nonneg_right hone (by omega)

theorem usedTime_le_userTime (level : Nat → Nat) {n : Nat} (h : Ordered time n) :
    usedTime level time n ≤ userTime level time n := by
  induction n with
  | zero => exact Int.le_refl 0
  | succ n ih =>
    have hrest := ih fun k hk => h k (by omega)
    exact Int.add_le_add hrest (step_used_le_user level (h n (Nat.lt_succ_self n)))

/-- The two parts of a step are equal unless there is more than one user. -/
theorem step_user_eq_used_iff {n : Nat} :
    level n * (time n - time (n - 1)) = (if level n = 0 then 0 else time n - time (n - 1)) ↔
      (2 ≤ level n → time n = time (n - 1)) := by
  match hlevel : level n with
  | 0 => simp
  | 1 => simp
  | m + 2 =>
    rw [if_neg (by omega)]
    constructor
    · intro heq _
      have hzero : ((m + 2 : Nat) - 1 : Int) * (time n - time (n - 1)) = 0 := by
        rw [Int.sub_mul, heq]
        omega
      rcases Int.mul_eq_zero.mp hzero with hm | ht
      · omega
      · omega
    · intro h
      rw [h (by omega), Int.sub_self, Int.mul_zero]

theorem userTime_eq_usedTime_iff {n : Nat} (h : Ordered time n) :
    userTime level time n = usedTime level time n ↔ OneAtATime level time n := by
  induction n with
  | zero => exact ⟨fun _ k hk => absurd hk (Nat.not_lt_zero k), fun _ => rfl⟩
  | succ n ih =>
    have hordered : Ordered time n := fun k hk => h k (by omega)
    have hrest := usedTime_le_userTime level hordered
    have hstep := step_used_le_user level (h n (Nat.lt_succ_self n))
    simp only [userTime, usedTime]
    constructor
    · intro heq k hk
      rcases Nat.lt_or_ge k n with hlt | hge
      · exact (ih hordered).mp (by omega) k hlt
      · obtain rfl : k = n := by omega
        exact step_user_eq_used_iff.mp (by omega)
    · intro hone
      rw [(ih hordered).mpr fun k hk => hone k (by omega),
        step_user_eq_used_iff.mpr (hone n (Nat.lt_succ_self n))]

end Occupancy
