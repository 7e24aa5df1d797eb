import Mathlib.Data.List.Nodup
import Mathlib.Data.List.Perm.Subperm
import Mathlib.Order.Lattice
import Mathlib.Order.Nat

/-!
# Depths of nested intervals

A list of intervals by their starts is gone through with the intervals that are
still open; the depth of an interval is their number. In a family whose members
are nested or apart this is the number of the other members that contain it,
exactly if no two members have one start and no empty member lies at the end of
another.
-/

namespace Nesting

variable {ι T : Type} [LinearOrder T] (lo hi : ι → T)

def Contains (j i : ι) : Prop := lo j ≤ lo i ∧ hi i ≤ hi j

instance (j i : ι) : Decidable (Contains lo hi j i) :=
  inferInstanceAs (Decidable (lo j ≤ lo i ∧ hi i ≤ hi j))

/-- At most an endpoint in common. -/
def Apart (i j : ι) : Prop := hi i ≤ lo j ∨ hi j ≤ lo i

instance (i j : ι) : Decidable (Apart lo hi i j) :=
  inferInstanceAs (Decidable (hi i ≤ lo j ∨ hi j ≤ lo i))

structure Laminar (l : List ι) : Prop where
  forward : ∀ i ∈ l, lo i ≤ hi i
  nested : ∀ i ∈ l, ∀ j ∈ l, Contains lo hi i j ∨ Contains lo hi j i ∨ Apart lo hi i j
  distinct : (l.map fun i => (lo i, hi i)).Nodup

/-- No two start together, and none is empty at the end of another. -/
structure Separate (l : List ι) : Prop where
  starts : ∀ i ∈ l, ∀ j ∈ l, i ≠ j → lo i ≠ lo j
  ends : ∀ i ∈ l, ∀ j ∈ l, i ≠ j → lo i = hi i → hi j ≠ lo i

/-- Each member with the number of members that are open when it starts. -/
def scan : List ι → List ι → List (ι × Nat)
  | _, [] => []
  | active, i :: rest =>
    let still := active.filter fun j => decide (lo i < hi j)
    (i, still.length) :: scan (still ++ [i]) rest

/-- The other members that contain `i`. -/
def containers [DecidableEq ι] (l : List ι) (i : ι) : List ι :=
  l.filter fun j => decide (j ≠ i ∧ Contains lo hi j i)

/-- By start and then by end. -/
def ByStart (a b : ι) : Prop := lo a < lo b ∨ lo a = lo b ∧ hi a ≤ hi b

variable {lo hi}

theorem Contains.trans {i j k : ι} (hij : Contains lo hi i j) (hjk : Contains lo hi j k) :
    Contains lo hi i k :=
  ⟨le_trans hij.1 hjk.1, le_trans hjk.2 hij.2⟩

theorem Laminar.perm {l l' : List ι} (hl : Laminar lo hi l) (hperm : l.Perm l') :
    Laminar lo hi l' where
  forward i hi' := hl.forward i (hperm.mem_iff.mpr hi')
  nested i hi' j hj := hl.nested i (hperm.mem_iff.mpr hi') j (hperm.mem_iff.mpr hj)
  distinct := (hperm.map _).nodup_iff.mp hl.distinct

omit [LinearOrder T] in
theorem separate_perm {l l' : List ι} (hperm : l.Perm l') :
    Separate lo hi l ↔ Separate lo hi l' := by
  constructor
  · intro hsep
    exact ⟨fun i hi' j hj => hsep.starts i (hperm.mem_iff.mpr hi') j (hperm.mem_iff.mpr hj),
      fun i hi' j hj => hsep.ends i (hperm.mem_iff.mpr hi') j (hperm.mem_iff.mpr hj)⟩
  · intro hsep
    exact ⟨fun i hi' j hj => hsep.starts i (hperm.mem_iff.mp hi') j (hperm.mem_iff.mp hj),
      fun i hi' j hj => hsep.ends i (hperm.mem_iff.mp hi') j (hperm.mem_iff.mp hj)⟩

theorem Laminar.nodup {l : List ι} (hl : Laminar lo hi l) : l.Nodup := hl.distinct.of_map _

theorem Laminar.eq_of_contains {l : List ι} (hl : Laminar lo hi l) {i j : ι} (hi' : i ∈ l)
    (hj : j ∈ l) (hij : Contains lo hi i j) (hji : Contains lo hi j i) : i = j := by
  apply List.inj_on_of_nodup_map hl.distinct hi' hj
  exact Prod.ext (le_antisymm hij.1 hji.1) (le_antisymm hji.2 hij.2)

/-- A member that starts inside another one lies in it. -/
theorem Laminar.contains_of_open {l : List ι} (hl : Laminar lo hi l) {i j : ι} (hi' : i ∈ l)
    (hj : j ∈ l) (hbefore : lo j < lo i) (hopen : lo i < hi j) : Contains lo hi j i := by
  obtain hij | hji | hapart := hl.nested i hi' j hj
  · exact absurd hij.1 (not_le.mpr hbefore)
  · exact hji
  · rcases hapart with hapart | hapart
    · exact absurd (le_trans (hl.forward i hi') hapart) (not_le.mpr hbefore)
    · exact absurd hapart (not_le.mpr hopen)

/-! ## The scan -/

theorem map_fst_scan (active l : List ι) : (scan lo hi active l).map Prod.fst = l := by
  induction l generalizing active with
  | nil => rfl
  | cons i rest ih => simp only [scan, List.map_cons, ih]

/-- What a start closes stays closed at later starts. -/
theorem filter_open_append {active : List ι} {i k : ι} (hstart : lo i ≤ lo k) (before : List ι) :
    ((active.filter (fun j => decide (lo i < hi j)) ++ [i] ++ before).filter
        fun j => decide (lo k < hi j)) =
      (active ++ i :: before).filter fun j => decide (lo k < hi j) := by
  have hclosed : (active.filter fun j => decide (lo i < hi j)).filter
      (fun j => decide (lo k < hi j)) = active.filter fun j => decide (lo k < hi j) := by
    rw [List.filter_filter]
    apply List.filter_congr
    intro j _
    by_cases hopen : lo k < hi j
    · simp [hopen, lt_of_le_of_lt hstart hopen]
    · simp [hopen]
  rw [List.append_assoc, List.filter_append, hclosed, ← List.filter_append]
  rfl

theorem mem_scan_iff {l : List ι} (hsorted : l.Pairwise fun a b => lo a ≤ lo b) (active : List ι)
    (p : ι × Nat) :
    p ∈ scan lo hi active l ↔ ∃ before after, l = before ++ p.1 :: after ∧
      p.2 = ((active ++ before).filter fun j => decide (lo p.1 < hi j)).length := by
  induction l generalizing active with
  | nil => simp [scan]
  | cons i rest ih =>
    obtain ⟨hfirst, hrest⟩ := List.pairwise_cons.mp hsorted
    rw [scan, List.mem_cons, ih hrest]
    constructor
    · rintro (rfl | ⟨before, after, hsplit, hcount⟩)
      · exact ⟨[], rest, rfl, by rw [List.append_nil]⟩
      · have hstart : lo i ≤ lo p.1 := hfirst p.1 (by rw [hsplit]; simp)
        refine ⟨i :: before, after, by rw [hsplit]; rfl, ?_⟩
        rw [hcount, filter_open_append hstart]
    · rintro ⟨before, after, hsplit, hcount⟩
      cases before with
      | nil =>
        obtain ⟨rfl, -⟩ := List.cons.inj hsplit
        rw [List.append_nil] at hcount
        exact Or.inl (Prod.ext rfl hcount)
      | cons k before =>
        obtain ⟨rfl, hrestSplit⟩ := List.cons.inj hsplit
        have hstart : lo i ≤ lo p.1 := hfirst p.1 (by rw [hrestSplit]; simp)
        refine Or.inr ⟨before, after, hrestSplit, ?_⟩
        rw [hcount, filter_open_append hstart]

theorem scan_count_of_split {l before after : List ι} {i : ι}
    (hsorted : l.Pairwise fun a b => lo a ≤ lo b) (hsplit : l = before ++ i :: after) :
    (i, (before.filter fun j => decide (lo i < hi j)).length) ∈ scan lo hi [] l :=
  (mem_scan_iff hsorted [] _).mpr ⟨before, after, hsplit, rfl⟩

/-! ## Depth and containment -/

theorem pairwise_start {l : List ι} (hsorted : l.Pairwise (ByStart lo hi)) :
    l.Pairwise fun a b => lo a ≤ lo b :=
  hsorted.imp fun h => h.elim le_of_lt fun h => le_of_eq h.1

theorem nodup_open {l before after : List ι} {i : ι} (hl : Laminar lo hi l) (hsplit : l = before ++ i :: after) :
    (before.filter fun j => decide (lo i < hi j)).Nodup := by
  apply List.Nodup.filter
  have hnodup := hl.nodup
  rw [hsplit] at hnodup
  exact (List.nodup_append.mp hnodup).1

theorem earlier_of_separate {l before after : List ι} {i : ι} (hl : Laminar lo hi l)
    (hsep : Separate lo hi l) (hsorted : l.Pairwise (ByStart lo hi))
    (hsplit : l = before ++ i :: after) :
    (∀ j ∈ before, lo j < lo i) ∧ ∀ j ∈ after, lo i < lo j := by
  have hnodup := hl.nodup
  have hstarts := hsep.starts
  rw [hsplit] at hnodup hsorted hstarts
  obtain ⟨-, hafter, hbefore⟩ := List.pairwise_append.mp (pairwise_start hsorted)
  obtain ⟨-, hnodupAfter, hdisjoint⟩ := List.nodup_append.mp hnodup
  constructor
  · intro j hj
    have hne : j ≠ i := hdisjoint j hj i List.mem_cons_self
    exact lt_of_le_of_ne (hbefore j hj i List.mem_cons_self) (hstarts j (by simp [hj]) i (by simp) hne)
  · intro j hj
    have hne : i ≠ j := fun heq => (List.nodup_cons.mp hnodupAfter).1 (heq ▸ hj)
    exact lt_of_le_of_ne ((List.pairwise_cons.mp hafter).1 j hj)
      (hstarts i (by simp) j (by simp [hj]) hne)

section Depth

variable [DecidableEq ι] {l before after : List ι} {i : ι}

theorem mem_containers {j : ι} :
    j ∈ containers lo hi l i ↔ j ∈ l ∧ j ≠ i ∧ Contains lo hi j i := by
  rw [containers, List.mem_filter, decide_eq_true_iff]

theorem containers_length_perm {l' : List ι} (hperm : l.Perm l') (i : ι) :
    (containers lo hi l i).length = (containers lo hi l' i).length :=
  (hperm.filter _).length_eq

/-- If nothing before `i` starts with it, the open members contain it. -/
theorem open_subset_containers (hl : Laminar lo hi l) (hsplit : l = before ++ i :: after)
    (hearlier : ∀ j ∈ before, lo j < lo i) :
    (before.filter fun j => decide (lo i < hi j)) ⊆ containers lo hi l i := by
  intro j hj
  rw [List.mem_filter, decide_eq_true_iff] at hj
  obtain ⟨hj, hopen⟩ := hj
  have hmem : j ∈ l := by rw [hsplit]; exact List.mem_append_left _ hj
  have hstart := hearlier j hj
  refine mem_containers.mpr ⟨hmem, ?_, hl.contains_of_open (by rw [hsplit]; simp) hmem hstart hopen⟩
  rintro rfl
  exact lt_irrefl _ hstart

theorem open_length_lt (hl : Laminar lo hi l) (hsplit : l = before ++ i :: after)
    (hearlier : ∀ j ∈ before, lo j < lo i) {k : ι} (hk : k ∈ containers lo hi l i)
    (hclosed : k ∉ before.filter fun j => decide (lo i < hi j)) :
    (before.filter fun j => decide (lo i < hi j)).length < (containers lo hi l i).length := by
  have hsub : k :: (before.filter fun j => decide (lo i < hi j)) ⊆ containers lo hi l i :=
    List.cons_subset.mpr ⟨hk, open_subset_containers hl hsplit hearlier⟩
  have hnodup : (k :: before.filter fun j => decide (lo i < hi j)).Nodup :=
    List.nodup_cons.mpr ⟨hclosed, nodup_open hl hsplit⟩
  exact (List.subperm_of_subset hnodup hsub).length_le

theorem containers_subset_open (hl : Laminar lo hi l) (hsep : Separate lo hi l)
    (hsorted : l.Pairwise (ByStart lo hi)) (hsplit : l = before ++ i :: after) :
    containers lo hi l i ⊆ before.filter fun j => decide (lo i < hi j) := by
  obtain ⟨-, hlater⟩ := earlier_of_separate hl hsep hsorted hsplit
  intro j hj
  obtain ⟨hmem, hne, hcontains⟩ := mem_containers.mp hj
  have hi' : i ∈ l := by rw [hsplit]; simp
  have hbefore : j ∈ before := by
    rw [hsplit, List.mem_append, List.mem_cons] at hmem
    rcases hmem with hmem | rfl | hmem
    · exact hmem
    · exact absurd rfl hne
    · exact absurd hcontains.1 (not_le.mpr (hlater j hmem))
  rw [List.mem_filter, decide_eq_true_iff]
  refine ⟨hbefore, ?_⟩
  -- an end at the start of `i` leaves no room for `i` unless it is empty
  refine lt_of_le_of_ne (le_trans (hl.forward i hi') hcontains.2) fun hend => ?_
  have hempty : lo i = hi i :=
    le_antisymm (hl.forward i hi') (le_trans hcontains.2 (le_of_eq hend.symm))
  exact hsep.ends i hi' j hmem (Ne.symm hne) hempty hend.symm

/-- Members that start together: the first of them is too low. -/
theorem starts_of_depths (hl : Laminar lo hi l) (hsorted : l.Pairwise (ByStart lo hi))
    (hdepths : ∀ p ∈ scan lo hi [] l, p.2 = (containers lo hi l p.1).length) :
    ∀ i ∈ l, ∀ j ∈ l, i ≠ j → lo i ≠ lo j := by
  intro a ha b hb hab hstart
  cases hfirst : l.find? fun i => decide (lo i = lo a) with
  | none =>
    rw [List.find?_eq_none] at hfirst
    exact hfirst a ha (by simp)
  | some i =>
    obtain ⟨hi', before, after, hsplit, hnone⟩ := List.find?_eq_some_iff_append.mp hfirst
    rw [decide_eq_true_iff] at hi'
    have hord := hsorted
    rw [hsplit] at hord
    obtain ⟨-, hafter, hbefore⟩ := List.pairwise_append.mp hord
    have hearlier : ∀ j ∈ before, lo j < lo i := by
      intro j hj
      rcases hbefore j hj i List.mem_cons_self with hlt | ⟨heq, -⟩
      · exact hlt
      · have := hnone j hj
        simp [heq, hi'] at this
    -- one of the two is not the first, so it comes later and contains the first
    obtain ⟨k, hk, hki, hkstart⟩ : ∃ k ∈ l, k ≠ i ∧ lo k = lo i := by
      by_cases hai : a = i
      · exact ⟨b, hb, fun hbi => hab (hai.trans hbi.symm), hstart.symm.trans hi'.symm⟩
      · exact ⟨a, ha, hai, hi'.symm⟩
    have hkbefore : k ∉ before := fun hmem => absurd hkstart (ne_of_lt (hearlier k hmem))
    have hkafter : k ∈ after := by
      rw [hsplit, List.mem_append, List.mem_cons] at hk
      exact (hk.resolve_left hkbefore).resolve_left hki
    have hcontains : Contains lo hi k i := by
      rcases (List.pairwise_cons.mp hafter).1 k hkafter with hlt | ⟨heq, hends⟩
      · exact absurd hkstart (ne_of_gt hlt)
      · exact ⟨le_of_eq hkstart, hends⟩
    have hlt := open_length_lt hl hsplit hearlier (mem_containers.mpr ⟨hk, hki, hcontains⟩)
      fun hmem => hkbefore (List.mem_of_mem_filter hmem)
    exact absurd (hdepths _ (scan_count_of_split (pairwise_start hsorted) hsplit)) (ne_of_lt hlt)

/-- The scan counts the members that contain each member exactly for a separate family. -/
theorem depths_iff_separate (hl : Laminar lo hi l) (hsorted : l.Pairwise (ByStart lo hi)) :
    (∀ p ∈ scan lo hi [] l, p.2 = (containers lo hi l p.1).length) ↔ Separate lo hi l := by
  constructor
  · intro hdepths
    have hstarts := starts_of_depths hl hsorted hdepths
    refine ⟨hstarts, ?_⟩
    intro i hi' j hj hij hempty hend
    obtain ⟨before, after, hsplit⟩ := List.append_of_mem hi'
    have hearlier : ∀ k ∈ before, lo k < lo i := by
      have hord := pairwise_start hsorted
      have hnodup := hl.nodup
      rw [hsplit] at hord hnodup
      intro k hk
      refine lt_of_le_of_ne ((List.pairwise_append.mp hord).2.2 k hk i List.mem_cons_self) ?_
      exact hstarts k (by rw [hsplit]; simp [hk]) i hi'
        ((List.nodup_append.mp hnodup).2.2 k hk i List.mem_cons_self)
    have hcontains : Contains lo hi j i :=
      ⟨le_trans (hl.forward j hj) (le_of_eq hend), le_of_eq (hempty.symm.trans hend.symm)⟩
    have hclosed : j ∉ before.filter fun j => decide (lo i < hi j) := by
      rw [List.mem_filter, decide_eq_true_iff]
      exact fun h => absurd hend (ne_of_gt h.2)
    have hlt := open_length_lt hl hsplit hearlier
      (mem_containers.mpr ⟨hj, Ne.symm hij, hcontains⟩) hclosed
    exact absurd (hdepths _ (scan_count_of_split (pairwise_start hsorted) hsplit)) (ne_of_lt hlt)
  · intro hsep p hp
    obtain ⟨before, after, hsplit, hcount⟩ := (mem_scan_iff (pairwise_start hsorted) [] p).mp hp
    rw [hcount, List.nil_append]
    have hopen := open_subset_containers hl hsplit (earlier_of_separate hl hsep hsorted hsplit).1
    have hcontain := containers_subset_open hl hsep hsorted hsplit
    apply le_antisymm
    · exact (List.subperm_of_subset (nodup_open hl hsplit) hopen).length_le
    · exact (List.subperm_of_subset (hl.nodup.filter _) hcontain).length_le

/-- A member lies deeper than one that contains it. -/
theorem containers_length_lt (hl : Laminar lo hi l) {j : ι} (hi' : i ∈ l) (hj : j ∈ l)
    (hne : i ≠ j) (hcontains : Contains lo hi j i) :
    (containers lo hi l j).length < (containers lo hi l i).length := by
  have hself : j ∉ containers lo hi l j := fun hmem => (mem_containers.mp hmem).2.1 rfl
  have hsub : j :: containers lo hi l j ⊆ containers lo hi l i := by
    rw [List.cons_subset]
    refine ⟨mem_containers.mpr ⟨hj, Ne.symm hne, hcontains⟩, ?_⟩
    intro k hk
    obtain ⟨hmem, -, hkj⟩ := mem_containers.mp hk
    refine mem_containers.mpr ⟨hmem, ?_, hkj.trans hcontains⟩
    rintro rfl
    exact hne (hl.eq_of_contains hi' hj hkj hcontains)
  have hnodup : (j :: containers lo hi l j).Nodup :=
    List.nodup_cons.mpr ⟨hself, hl.nodup.filter _⟩
  exact (List.subperm_of_subset hnodup hsub).length_le

end Depth

/-! ## Sorting by two keys -/

/-- A stable sort by one key does not change the order of the members with one value of it. -/
theorem filter_mergeSort (l : List ι) (t : T) :
    (l.mergeSort fun a b => decide (lo a ≤ lo b)).filter (fun i => decide (lo i = t)) =
      l.filter fun i => decide (lo i = t) := by
  have hall : ∀ a ∈ l.filter (fun i => decide (lo i = t)), lo a = t := fun a ha => by
    simpa using (List.mem_filter.mp ha).2
  have hpairs : (l.filter fun i => decide (lo i = t)).Pairwise
      fun a b => decide (lo a ≤ lo b) = true := by
    apply List.pairwise_of_forall_mem_list
    intro a ha b hb
    rw [decide_eq_true_iff, hall a ha, hall b hb]
  have hsub := (List.sublist_mergeSort (by simpa using fun a b c => le_trans)
    (by simpa using fun a b => le_total (lo a) (lo b)) hpairs List.filter_sublist).filter
      fun i => decide (lo i = t)
  rw [List.filter_filter, List.filter_congr fun i _ => Bool.and_self _] at hsub
  exact (hsub.eq_of_length ((List.mergeSort_perm l _).filter _).length_eq.symm).symm

/-- A stable sort by end and then by start. -/
theorem pairwise_byStart_mergeSort {l : List ι} (hsorted : l.Pairwise fun a b => hi a ≤ hi b) :
    (l.mergeSort fun a b => decide (lo a ≤ lo b)).Pairwise (ByStart lo hi) := by
  have hstarts : (l.mergeSort fun a b => decide (lo a ≤ lo b)).Pairwise
      fun a b => decide (lo a ≤ lo b) = true :=
    List.pairwise_mergeSort (by simpa using fun a b c => le_trans)
      (by simpa using fun a b => le_total (lo a) (lo b)) l
  rw [List.pairwise_iff_forall_sublist] at hstarts hsorted ⊢
  intro a b hab
  have hle : lo a ≤ lo b := by simpa using hstarts hab
  rcases lt_or_eq_of_le hle with hlt | heq
  · exact Or.inl hlt
  · refine Or.inr ⟨heq, hsorted ?_⟩
    have hfiltered := hab.filter fun i => decide (lo i = lo b)
    rw [filter_mergeSort, List.filter_eq_self.mpr (by simp [heq])] at hfiltered
    exact hfiltered.trans List.filter_sublist

end Nesting
