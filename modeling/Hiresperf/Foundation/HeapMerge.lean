import Mathlib.Data.List.Perm.Subperm
import Mathlib.Order.Lattice

/-!
# Merging streams with a heap

A heap with at most one pending item for each stream, and an iterator over what is
left of it. The least item is popped and the next one of its stream is pushed. The
heap is kept as the list of its items, since with one item for each stream, and the
stream a part of the key, no two of them compare equal.
-/

namespace HeapMerge

variable {Item Key Stream : Type} [LinearOrder Key] [DecidableEq Stream]

structure Merge (Item Stream : Type) where
  heap : List Item
  iterators : Stream → List Item

/-- The least item, and the others. -/
def heappop (key : Item → Key) : List Item → Option (Item × List Item)
  | [] => none
  | x :: rest =>
    match heappop key rest with
    | none => some (x, [])
    | some (y, others) => if key y < key x then some (y, x :: others) else some (x, rest)

/-- Pops the least item and pushes the next one of its stream. -/
def pop (key : Item → Key) (stream : Item → Stream) (m : Merge Item Stream) :
    Option (Item × Merge Item Stream) :=
  match heappop key m.heap with
  | none => none
  | some (x, heap) =>
    match m.iterators (stream x) with
    | [] => some (x, ⟨heap, m.iterators⟩)
    | next :: rest => some (x, ⟨next :: heap, Function.update m.iterators (stream x) rest⟩)

/-- The first items are pushed. -/
def start (streams : Stream → List Item) (ids : List Stream) : Merge Item Stream where
  heap := ids.filterMap fun s => (streams s).head?
  iterators s := (streams s).tail

/-- The items of one stream. -/
def ofStream (stream : Item → Stream) (l : List Item) (s : Stream) : List Item :=
  l.filter fun x => decide (stream x = s)

/-! ## The heap -/

theorem heappop_eq_none (key : Item → Key) {heap : List Item} :
    heappop key heap = none ↔ heap = [] := by
  cases heap with
  | nil => simp [heappop]
  | cons x rest =>
    rw [heappop]
    cases heappop key rest with
    | none => simp
    | some result =>
      obtain ⟨y, others⟩ := result
      refine iff_of_false ?_ (List.cons_ne_nil x rest)
      simp only
      split_ifs <;> exact not_false

theorem heappop_spec {key : Item → Key} {heap rest : List Item} {x : Item}
    (h : heappop key heap = some (x, rest)) :
    (∃ before after, heap = before ++ x :: after ∧ rest = before ++ after) ∧
      ∀ y ∈ rest, key x ≤ key y := by
  induction heap generalizing x rest with
  | nil => exact absurd h.symm (Option.some_ne_none _)
  | cons a heap ih =>
    rw [heappop] at h
    cases hpop : heappop key heap with
    | none =>
      rw [hpop] at h
      obtain ⟨rfl, rfl⟩ := Prod.mk.inj (Option.some.inj h)
      rw [(heappop_eq_none key).mp hpop]
      exact ⟨⟨[], [], rfl, rfl⟩, fun y hy => absurd hy List.not_mem_nil⟩
    | some result =>
      obtain ⟨b, others⟩ := result
      obtain ⟨⟨before, after, hheap, hothers⟩, hleast⟩ := ih hpop
      rw [hpop] at h
      by_cases hlt : key b < key a
      · simp only [hlt, if_true] at h
        obtain ⟨rfl, rfl⟩ := Prod.mk.inj (Option.some.inj h)
        refine ⟨⟨a :: before, after, by rw [hheap]; rfl, by rw [hothers]; rfl⟩, ?_⟩
        intro y hy
        rcases List.mem_cons.mp hy with rfl | hy
        · exact le_of_lt hlt
        · exact hleast y hy
      · simp only [hlt, if_false] at h
        obtain ⟨rfl, rfl⟩ := Prod.mk.inj (Option.some.inj h)
        refine ⟨⟨[], heap, rfl, rfl⟩, ?_⟩
        intro y hy
        have hle : key a ≤ key b := not_lt.mp hlt
        rw [hheap] at hy
        rcases List.mem_append.mp hy with hy | hy
        · exact le_trans hle (hleast y (by rw [hothers]; exact List.mem_append_left _ hy))
        · rcases List.mem_cons.mp hy with rfl | hy
          · exact hle
          · exact le_trans hle (hleast y (by rw [hothers]; exact List.mem_append_right _ hy))

/-! ## The invariant -/

section Run

variable (key : Item → Key) (stream : Item → Stream) (streams : Stream → List Item)

/-- One item of each stream that is not exhausted waits, and all smaller ones are out. -/
structure Running (popped : List Item) (m : Merge Item Stream) : Prop where
  pending : (m.heap.map stream).Nodup
  split : ∀ s, ofStream stream popped s ++ (ofStream stream m.heap s ++ m.iterators s) = streams s
  waits : ∀ s, ofStream stream m.heap s = [] → m.iterators s = []
  sorted : popped.Pairwise fun a b => key a ≤ key b
  least : ∀ p ∈ popped, ∀ x ∈ m.heap, key p ≤ key x

variable {key stream streams} {popped : List Item} {m : Merge Item Stream}

theorem ofStream_append (l l' : List Item) (s : Stream) :
    ofStream stream (l ++ l') s = ofStream stream l s ++ ofStream stream l' s :=
  List.filter_append ..

theorem ofStream_cons (x : Item) (l : List Item) (s : Stream) :
    ofStream stream (x :: l) s =
      if stream x = s then x :: ofStream stream l s else ofStream stream l s := by
  simp only [ofStream, List.filter_cons, decide_eq_true_iff]

theorem ofStream_concat (l : List Item) (x : Item) (s : Stream) :
    ofStream stream (l ++ [x]) s = ofStream stream l s ++ if stream x = s then [x] else [] := by
  rw [ofStream_append, ofStream_cons]
  rfl

theorem ofStream_eq_nil {l : List Item} {s : Stream} :
    ofStream stream l s = [] ↔ s ∉ l.map stream := by
  rw [ofStream, List.filter_eq_nil_iff, List.mem_map]
  simp only [decide_eq_true_iff]
  push Not
  rfl

section Start

variable (hstream : ∀ s, ∀ x ∈ streams s, stream x = s)
include hstream

omit [DecidableEq Stream] in
theorem map_stream_heads (ids : List Stream) :
    ((ids.filterMap fun s => (streams s).head?).map stream).Sublist ids := by
  induction ids with
  | nil => exact List.Sublist.slnil
  | cons s ids ih =>
    cases hhead : (streams s).head? with
    | none =>
      simp only [List.filterMap_cons, hhead]
      exact ih.cons s
    | some x =>
      simp only [List.filterMap_cons, hhead, List.map_cons,
        hstream s x (List.mem_of_mem_head? hhead)]
      exact ih.cons_cons s

theorem ofStream_heads {ids : List Stream} (hnodup : ids.Nodup) (s : Stream) :
    ofStream stream (ids.filterMap fun s => (streams s).head?) s =
      if s ∈ ids then (streams s).head?.toList else [] := by
  induction ids with
  | nil => rfl
  | cons id ids ih =>
    obtain ⟨hnew, hrest⟩ := List.nodup_cons.mp hnodup
    have ih := ih hrest
    cases hhead : (streams id).head? with
    | none =>
      simp only [List.filterMap_cons, hhead, ih]
      by_cases hid : s = id
      · subst hid
        simp [hnew, hhead]
      · simp [hid]
    | some x =>
      have hx := hstream id x (List.mem_of_mem_head? hhead)
      simp only [List.filterMap_cons, hhead]
      rw [ofStream_cons, hx, ih]
      by_cases hid : s = id
      · subst hid
        simp [hnew, hhead]
      · simp [hid, Ne.symm hid]

theorem start_running {ids : List Stream} (hnodup : ids.Nodup)
    (hids : ∀ s, s ∉ ids → streams s = []) :
    Running key stream streams [] (start streams ids) := by
  have hheads : ∀ s, ofStream stream (start streams ids).heap s = (streams s).head?.toList := by
    intro s
    rw [start, ofStream_heads hstream hnodup]
    by_cases hs : s ∈ ids
    · rw [if_pos hs]
    · rw [if_neg hs, hids s hs]
      rfl
  refine ⟨(map_stream_heads hstream ids).nodup hnodup, ?_, ?_, List.Pairwise.nil,
    fun p hp => absurd hp List.not_mem_nil⟩
  · intro s
    have hlist : (streams s).head?.toList ++ (streams s).tail = streams s := by
      cases streams s <;> rfl
    rw [hheads]
    exact hlist
  · intro s hs
    rw [hheads] at hs
    have htail : (streams s).tail = [] := by
      cases hlist : streams s with
      | nil => rfl
      | cons x rest => rw [hlist] at hs; exact absurd hs (List.cons_ne_nil x [])
    exact htail

end Start

/-- All that a pop can do. -/
theorem pop_cases {x : Item} {m' : Merge Item Stream} (hpop : pop key stream m = some (x, m')) :
    ∃ before after, m.heap = before ++ x :: after ∧ (∀ y ∈ before ++ after, key x ≤ key y) ∧
      (m.iterators (stream x) = [] ∧ m' = ⟨before ++ after, m.iterators⟩ ∨
        ∃ next rest, m.iterators (stream x) = next :: rest ∧
          m' = ⟨next :: (before ++ after), Function.update m.iterators (stream x) rest⟩) := by
  rw [pop] at hpop
  cases hheap : heappop key m.heap with
  | none => rw [hheap] at hpop; exact absurd hpop.symm (Option.some_ne_none _)
  | some result =>
    obtain ⟨y, heap⟩ := result
    obtain ⟨⟨before, after, hbefore, rfl⟩, hleast⟩ := heappop_spec hheap
    rw [hheap] at hpop
    cases hnext : m.iterators (stream y) with
    | nil =>
      simp only [hnext] at hpop
      obtain ⟨rfl, rfl⟩ := Prod.mk.inj (Option.some.inj hpop)
      exact ⟨before, after, hbefore, hleast, Or.inl ⟨hnext, rfl⟩⟩
    | cons next rest =>
      simp only [hnext] at hpop
      obtain ⟨rfl, rfl⟩ := Prod.mk.inj (Option.some.inj hpop)
      exact ⟨before, after, hbefore, hleast, Or.inr ⟨next, rest, hnext, rfl⟩⟩

theorem pop_eq_none : pop key stream m = none ↔ m.heap = [] := by
  rw [pop, ← heappop_eq_none key]
  cases heappop key m.heap with
  | none => simp
  | some result =>
    obtain ⟨x, heap⟩ := result
    refine iff_of_false ?_ (Option.some_ne_none _)
    simp only
    cases m.iterators (stream x) with
    | nil => exact Option.some_ne_none _
    | cons next rest => exact Option.some_ne_none _

/-! ## A pop keeps the invariant -/

section Pop

variable {before after : List Item} {x : Item} (h : Running key stream streams popped m)
  (hheap : m.heap = before ++ x :: after)
include h hheap

/-- No other item of the stream waits. -/
theorem Running.alone : stream x ∉ (before ++ after).map stream ∧
    ((before ++ after).map stream).Nodup := by
  have hperm : m.heap.Perm (x :: (before ++ after)) := by
    rw [hheap]
    exact List.perm_middle
  exact List.nodup_cons.mp ((hperm.map stream).nodup_iff.mp h.pending)

theorem Running.ofStream_others : ofStream stream (before ++ after) (stream x) = [] :=
  ofStream_eq_nil.mpr (h.alone hheap).1

theorem Running.ofStream_heap (s : Stream) : ofStream stream m.heap s =
    if stream x = s then [x] else ofStream stream (before ++ after) s := by
  have hgone := h.ofStream_others hheap
  rw [hheap, ofStream_append, ofStream_cons]
  split_ifs with hs
  · subst hs
    rw [ofStream_append, List.append_eq_nil_iff] at hgone
    rw [hgone.1, hgone.2]
    rfl
  · rw [ofStream_append]

theorem Running.le_popped : ∀ p ∈ popped ++ [x], key p ≤ key x := by
  intro p hp
  rcases List.mem_append.mp hp with hp | hp
  · exact h.least p hp x (by rw [hheap]; simp)
  · rw [List.mem_singleton.mp hp]

theorem Running.sorted_concat : (popped ++ [x]).Pairwise fun a b => key a ≤ key b := by
  refine List.pairwise_append.mpr ⟨h.sorted, List.pairwise_singleton _ _, ?_⟩
  intro p hp y hy
  rw [List.mem_singleton.mp hy]
  exact h.le_popped hheap p (List.mem_append_left _ hp)

variable (hleast : ∀ y ∈ before ++ after, key x ≤ key y)
include hleast

/-- The last item of its stream is popped. -/
theorem Running.pop_last (hdone : m.iterators (stream x) = []) :
    Running key stream streams (popped ++ [x]) ⟨before ++ after, m.iterators⟩ := by
  refine ⟨(h.alone hheap).2, ?_, ?_, h.sorted_concat hheap,
    fun p hp y hy => le_trans (h.le_popped hheap p hp) (hleast y hy)⟩
  · intro s
    have hsplit := h.split s
    rw [h.ofStream_heap hheap] at hsplit
    rw [ofStream_concat, List.append_assoc]
    by_cases hs : stream x = s
    · subst hs
      rw [if_pos rfl] at hsplit ⊢
      rw [h.ofStream_others hheap]
      exact hsplit
    · rw [if_neg hs] at hsplit ⊢
      exact hsplit
  · intro s hs
    by_cases heq : stream x = s
    · rw [← heq]
      exact hdone
    · exact h.waits s (by rw [h.ofStream_heap hheap, if_neg heq]; exact hs)

/-- An item is popped and the next one of its stream is pushed. -/
theorem Running.pop_next (hsorted : ∀ s, (streams s).Pairwise fun a b => key a ≤ key b)
    (hstream : ∀ s, ∀ x ∈ streams s, stream x = s) {next : Item} {rest : List Item}
    (hnext : m.iterators (stream x) = next :: rest) :
    Running key stream streams (popped ++ [x])
      ⟨next :: (before ++ after), Function.update m.iterators (stream x) rest⟩ := by
  have hmem : next ∈ streams (stream x) := by
    rw [← h.split, hnext]
    simp
  have hnextStream : stream next = stream x := hstream _ next hmem
  have hle : key x ≤ key next := by
    have hord := hsorted (stream x)
    rw [← h.split, h.ofStream_heap hheap, if_pos rfl, hnext] at hord
    exact (List.pairwise_cons.mp (List.pairwise_append.mp hord).2.1).1 next (by simp)
  refine ⟨?_, ?_, ?_, h.sorted_concat hheap, ?_⟩
  · rw [List.map_cons, hnextStream]
    exact List.nodup_cons.mpr (h.alone hheap)
  · intro s
    have hsplit := h.split s
    rw [h.ofStream_heap hheap] at hsplit
    simp only [ofStream_concat, ofStream_cons, hnextStream]
    by_cases hs : stream x = s
    · subst hs
      rw [if_pos rfl] at hsplit
      rw [if_pos rfl, if_pos rfl, h.ofStream_others hheap, Function.update_self, ← hsplit, hnext,
        List.append_assoc]
      rfl
    · rw [if_neg hs] at hsplit
      rw [if_neg hs, if_neg hs, Function.update_of_ne (Ne.symm hs), ← hsplit, List.append_nil]
  · intro s hs
    simp only [ofStream_cons, hnextStream] at hs ⊢
    by_cases heq : stream x = s
    · rw [if_pos heq] at hs
      exact absurd hs (List.cons_ne_nil next _)
    · rw [if_neg heq] at hs
      rw [Function.update_of_ne (Ne.symm heq)]
      exact h.waits s (by rw [h.ofStream_heap hheap, if_neg heq]; exact hs)
  · intro p hp y hy
    have hpx := h.le_popped hheap p hp
    rcases List.mem_cons.mp hy with rfl | hy
    · exact le_trans hpx hle
    · exact le_trans hpx (hleast y hy)

end Pop

theorem pop_running (hsorted : ∀ s, (streams s).Pairwise fun a b => key a ≤ key b)
    (hstream : ∀ s, ∀ x ∈ streams s, stream x = s) (h : Running key stream streams popped m)
    {x : Item} {m' : Merge Item Stream} (hpop : pop key stream m = some (x, m')) :
    Running key stream streams (popped ++ [x]) m' := by
  obtain ⟨before, after, hheap, hleast, ⟨hdone, rfl⟩ | ⟨next, rest, hnext, rfl⟩⟩ := pop_cases hpop
  · exact h.pop_last hheap hleast hdone
  · exact h.pop_next hheap hleast hsorted hstream hnext

/-- At the end every stream is out. -/
theorem Running.done (h : Running key stream streams popped m) (hempty : m.heap = []) (s : Stream) :
    ofStream stream popped s = streams s := by
  have hnone : ofStream stream m.heap s = [] := by rw [hempty]; rfl
  have hsplit := h.split s
  rw [hnone, h.waits s hnone, List.append_nil, List.append_nil] at hsplit
  exact hsplit

/-! ## All items -/

section Items

variable [DecidableEq Item] {items : List Item}
  (hitems : ∀ s, (streams s).Perm (ofStream stream items s))

omit [LinearOrder Key] in
theorem count_ofStream (l : List Item) (x : Item) :
    (ofStream stream l (stream x)).count x = l.count x :=
  List.count_filter (decide_eq_true rfl)

include hitems

/-- What is out and what waits are different items. -/
theorem Running.subperm (h : Running key stream streams popped m) :
    (popped ++ m.heap).Subperm items := by
  rw [List.subperm_iff_count]
  intro x
  have hsub : (ofStream stream (popped ++ m.heap) (stream x)).Sublist (streams (stream x)) := by
    rw [← h.split, ← List.append_assoc, ofStream_append]
    exact List.sublist_append_left _ _
  calc (popped ++ m.heap).count x
      = (ofStream stream (popped ++ m.heap) (stream x)).count x := (count_ofStream _ x).symm
    _ ≤ (streams (stream x)).count x := hsub.count_le x
    _ = (ofStream stream items (stream x)).count x := (hitems _).count_eq x
    _ = items.count x := count_ofStream items x

omit [LinearOrder Key] in
theorem perm_of_streams {l : List Item} (hl : ∀ s, ofStream stream l s = streams s) :
    l.Perm items := by
  rw [List.perm_iff_count]
  intro x
  calc l.count x
      = (ofStream stream l (stream x)).count x := (count_ofStream l x).symm
    _ = (streams (stream x)).count x := by rw [hl]
    _ = (ofStream stream items (stream x)).count x := (hitems _).count_eq x
    _ = items.count x := count_ofStream items x

/-- Every run can be continued to its end. -/
theorem Running.complete (hsorted : ∀ s, (streams s).Pairwise fun a b => key a ≤ key b)
    (hstream : ∀ s, ∀ x ∈ streams s, stream x = s) (h : Running key stream streams popped m) :
    ∃ rest, (popped ++ rest).Pairwise (fun a b => key a ≤ key b) ∧
      ∀ s, ofStream stream (popped ++ rest) s = streams s := by
  -- induction on the number of items that are left
  generalize hleft : items.length - popped.length = left
  induction left generalizing popped m with
  | zero =>
    have hlength := (h.subperm hitems).length_le
    rw [List.length_append] at hlength
    have hempty : m.heap = [] := List.length_eq_zero_iff.mp (by omega)
    exact ⟨[], by rw [List.append_nil]; exact h.sorted, by
      rw [List.append_nil]; exact h.done hempty⟩
  | succ left ih =>
    cases hpop : pop key stream m with
    | none =>
      have hempty := pop_eq_none.mp hpop
      exact ⟨[], by rw [List.append_nil]; exact h.sorted, by
        rw [List.append_nil]; exact h.done hempty⟩
    | some result =>
      obtain ⟨x, m'⟩ := result
      have hnext := pop_running hsorted hstream h hpop
      obtain ⟨rest, hrest, hall⟩ := ih hnext (by rw [List.length_append, List.length_singleton]; omega)
      refine ⟨x :: rest, ?_, ?_⟩
      · rw [← List.append_cons] at hrest
        exact hrest
      · intro s
        rw [List.append_cons]
        exact hall s

end Items

/-- The order is determined where the key says which stream an item is of. -/
theorem eq_of_streams (hkey : ∀ a b, key a = key b → stream a = stream b) {l l' : List Item}
    (hl : l.Pairwise fun a b => key a ≤ key b) (hl' : l'.Pairwise fun a b => key a ≤ key b)
    (hsame : ∀ s, ofStream stream l s = ofStream stream l' s) : l = l' := by
  have hmem : ∀ (l l' : List Item), (∀ s, ofStream stream l s = ofStream stream l' s) →
      ∀ x ∈ l, x ∈ l' := by
    intro l l' hsame x hx
    have hx' : x ∈ ofStream stream l (stream x) := List.mem_filter.mpr ⟨hx, decide_eq_true rfl⟩
    rw [hsame] at hx'
    exact List.mem_of_mem_filter hx'
  induction l generalizing l' with
  | nil =>
    cases l' with
    | nil => rfl
    | cons y l' => exact absurd (hmem _ _ (fun s => (hsame s).symm) y (by simp)) List.not_mem_nil
  | cons x l ih =>
    cases l' with
    | nil => exact absurd (hmem _ _ hsame x (by simp)) List.not_mem_nil
    | cons y l' =>
      obtain ⟨hxl, htail⟩ := List.pairwise_cons.mp hl
      obtain ⟨hyl, htail'⟩ := List.pairwise_cons.mp hl'
      have hxy : key x ≤ key y := by
        rcases List.mem_cons.mp (hmem _ _ (fun s => (hsame s).symm) y (by simp)) with rfl | hy
        · exact le_refl _
        · exact hxl y hy
      have hyx : key y ≤ key x := by
        rcases List.mem_cons.mp (hmem _ _ hsame x (by simp)) with rfl | hx
        · exact le_refl _
        · exact hyl x hx
      have hstreams : stream y = stream x := (hkey x y (le_antisymm hxy hyx)).symm
      have hfirst := hsame (stream x)
      rw [ofStream_cons, if_pos rfl, ofStream_cons, if_pos hstreams] at hfirst
      obtain ⟨rfl, -⟩ := List.cons.inj hfirst
      congr 1
      refine ih htail htail' fun s => ?_
      have hs := hsame s
      rw [ofStream_cons, ofStream_cons] at hs
      split_ifs at hs with heq
      · exact (List.cons.inj hs).2
      · exact hs

end Run

end HeapMerge
