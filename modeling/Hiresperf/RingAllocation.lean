import Hiresperf.DiscoveryTable
import Hiresperf.Foundation.Ledger

/-!
# The memory of a ring buffer

`buffer.c` with `HRP_EXLARGE_HEAP_ALLOCATED_RB`: the buffer is a mapping of pages that
are allocated one by one, with an array of pointers to them. The failed allocation of
the array, of any page and of the mapping, and the end of a buffer, all go through
`free_alloc_pages`.
-/

namespace RingAllocation

open DiscoveryTable Ledger

/-! ## The code -/

inductive Resource where
  | pageArray (addr : Nat)
  | page (addr : Nat)
  | mapping (addr : Nat)
  deriving DecidableEq

/-- The calls that allocate and free. `vmap` also says how many pages it maps. -/
inductive Event where
  | kcalloc (addr : Nat)
  | allocPage (addr : Nat)
  | vmap (addr numPages : Nat)
  | vunmap (addr : Nat)
  | freePage (addr : Nat)
  | kfree (addr : Nat)
  deriving DecidableEq

def effect : Event → Effect Resource
  | .kcalloc addr => .acquires (.pageArray addr)
  | .allocPage addr => .acquires (.page addr)
  | .vmap addr _ => .acquires (.mapping addr)
  | .vunmap addr => .releases (.mapping addr)
  | .freePage addr => .releases (.page addr)
  | .kfree addr => .releases (.pageArray addr)

/-- An array of pointers to pages, which `kcalloc` gives with null pointers. -/
structure PageArray where
  addr : Nat
  slots : Nat → Option Nat

/-- The fields of the ring buffer but for its entries. A null pointer is `none`. -/
structure HrperfRingBuffer where
  buffer : Option Nat
  pages : Option PageArray
  numPages : Nat
  head : Nat
  tail : Nat

/-- What the allocations of one call give: the array by its length, each page by its index and
the mapping by the number of its pages. The kernel gives no page twice, no array of `2 ^ 32`
pointers, since `kmalloc` ends at a few megabytes, and no mapping without pages. -/
structure Allocations where
  kcalloc : Nat → Option Nat
  allocPage : Nat → Option Nat
  vmap : Nat → Option Nat
  distinct : ∀ i j p, allocPage i = some p → allocPage j = some p → i = j
  kcalloc_lt : ∀ n addr, kcalloc n = some addr → n < 2 ^ 32
  vmap_zero : vmap 0 = none

/-- `HRP_PMC_BUFFER_SIZE` and `sizeof(HrperfLogEntry)`. -/
structure BufferSize where
  entries : Nat
  entrySize : Nat
  entries_pos : 0 < entries
  entrySize_pos : 0 < entrySize
  fits : entries * entrySize < 2 ^ 64

def pageSize : Nat := 4096

def enomem : Int := 12

def freeAllocPages (rb : HrperfRingBuffer) : HrperfRingBuffer × List Event :=
  let unmapped := rb.buffer.toList.map Event.vunmap
  let freed := match rb.pages with
    | some pages =>
      ((List.range rb.numPages).filterMap fun i => (pages.slots i).map Event.freePage) ++
        [Event.kfree pages.addr]
    | none => []
  ({ rb with buffer := none, pages := none, numPages := 0 }, unmapped ++ freed)

structure Outcome where
  code : Int
  rb : HrperfRingBuffer
  events : List Event

/-- The path of every failure. -/
def fail (rb : HrperfRingBuffer) (events : List Event) : Outcome :=
  let (rb, freed) := freeAllocPages rb
  ⟨-enomem, rb, events ++ freed⟩

/-- The loop over the pages from `i` on, `count` of them; `false` if one cannot be allocated. -/
def allocPages (alloc : Allocations) (i : Nat) (pages : PageArray) :
    Nat → Bool × PageArray × List Event
  | 0 => (true, pages, [])
  | count + 1 =>
    let filled := { pages with slots := Function.update pages.slots i (alloc.allocPage i) }
    match alloc.allocPage i with
    | none => (false, filled, [])
    | some page =>
      let (ok, pages, events) := allocPages alloc (i + 1) filled count
      (ok, pages, .allocPage page :: events)

def numPages (size : BufferSize) : Nat :=
  (pageAlign (BitVec.ofNat 64 (size.entries * size.entrySize))).toNat / pageSize

/-- The number of pages as `vmap` takes it, an `unsigned int`. -/
def vmapCount (numPages : Nat) : Nat := numPages % 2 ^ 32

def hrpAllocRbBuf (size : BufferSize) (alloc : Allocations) (rb : HrperfRingBuffer) : Outcome :=
  let rb := { rb with numPages := numPages size }
  match alloc.kcalloc rb.numPages with
  | none => fail { rb with pages := none } []
  | some addr =>
    let (ok, pages, events) := allocPages alloc 0 ⟨addr, fun _ => none⟩ rb.numPages
    let rb := { rb with pages := some pages }
    if !ok then fail rb (.kcalloc addr :: events)
    else
      match alloc.vmap (vmapCount rb.numPages) with
      | none => fail rb (.kcalloc addr :: events)
      | some buf =>
        ⟨0, { rb with buffer := some buf },
          .kcalloc addr :: events ++ [.vmap buf (vmapCount rb.numPages)]⟩

def initRingBuffer (size : BufferSize) (alloc : Allocations) (rb : HrperfRingBuffer) : Outcome :=
  hrpAllocRbBuf size alloc
    { rb with head := 0, tail := 0, buffer := none, pages := none, numPages := 0 }

def deinitRingBuffer (rb : HrperfRingBuffer) : HrperfRingBuffer × List Event :=
  let (rb, events) := freeAllocPages rb
  ({ rb with head := 0, tail := 0 }, events)

/-- Calls of `deinit_ring_buffer`, one after the other. -/
def deinitCalls (rb : HrperfRingBuffer) : Nat → HrperfRingBuffer × List Event
  | 0 => (rb, [])
  | calls + 1 =>
    let (rb, events) := deinitRingBuffer rb
    let (rb, rest) := deinitCalls rb calls
    (rb, events ++ rest)

/-! ## What a ring buffer holds -/

/-- The resources that the fields of a ring buffer point to, in the order in which they are
freed. -/
def holdings (rb : HrperfRingBuffer) : List Resource :=
  rb.buffer.toList.map .mapping ++
    match rb.pages with
    | some pages => ((List.range rb.numPages).filterMap pages.slots).map .page ++
        [.pageArray pages.addr]
    | none => []

def empty (rb : HrperfRingBuffer) : Prop :=
  rb.buffer = none ∧ rb.pages = none ∧ rb.numPages = 0

theorem freeAllocPages_effects (rb : HrperfRingBuffer) :
    (freeAllocPages rb).2.map effect = (holdings rb).map .releases := by
  rw [freeAllocPages, holdings]
  cases rb.pages with
  | none => simp [effect, Function.comp_def]
  | some pages =>
    simp only [List.map_append, List.map_map, List.map_filterMap, List.map_cons, List.map_nil,
      Function.comp_def, Option.map_map, effect]

/-- Whoever holds exactly what a ring buffer points to holds nothing after it is freed. -/
theorem account_freeAllocPages {rb : HrperfRingBuffer} {held : List Resource}
    (hheld : held.Perm (holdings rb)) :
    account effect held (freeAllocPages rb).2 = some [] :=
  account_of_releases (freeAllocPages_effects rb) hheld

theorem freeAllocPages_empty (rb : HrperfRingBuffer) : empty (freeAllocPages rb).1 :=
  ⟨rfl, rfl, rfl⟩

/-- Nothing is freed twice. -/
theorem freeAllocPages_of_empty {rb : HrperfRingBuffer} (h : empty rb) : freeAllocPages rb = (rb, []) := by
  obtain ⟨buffer, pages, numPages, head, tail⟩ := rb
  obtain ⟨rfl, rfl, rfl⟩ := h
  rfl

/-! ## The pages -/

/-- The first `k` pages. -/
def firstPages (alloc : Allocations) (k : Nat) : List Nat :=
  (List.range k).filterMap alloc.allocPage

/-- The loop allocates `k` pages and stops before the end only at a page that it cannot get. -/
theorem allocPages_spec (alloc : Allocations) (i : Nat) (pages : PageArray)
    (hnull : ∀ j, i ≤ j → pages.slots j = none) (count : Nat) :
    ∃ k ≤ count, (allocPages alloc i pages count).1 = decide (k = count) ∧
      (allocPages alloc i pages count).2.1 = ⟨pages.addr, fun j =>
        if i ≤ j ∧ j < i + k then alloc.allocPage j else pages.slots j⟩ ∧
      (allocPages alloc i pages count).2.2 =
        ((List.range' i k).filterMap alloc.allocPage).map .allocPage ∧
      (∀ j, i ≤ j → j < i + k → (alloc.allocPage j).isSome = true) ∧
      (k < count → alloc.allocPage (i + k) = none) := by
  induction count generalizing i pages with
  | zero =>
    refine ⟨0, Nat.le_refl 0, rfl, ?_, rfl, fun j hij hj => absurd hj (by omega),
      fun hlt => absurd hlt (Nat.lt_irrefl 0)⟩
    have hnone : ∀ j, ¬ (i ≤ j ∧ j < i + 0) := fun j => by omega
    simp only [allocPages, hnone, if_false]
  | succ count ih =>
    cases hpage : alloc.allocPage i with
    | none =>
      refine ⟨0, Nat.zero_le _, ?_, ?_, ?_, fun j hij hj => absurd hj (by omega), fun _ => hpage⟩
      · simp [allocPages, hpage]
      · have hnone : ∀ j, ¬ (i ≤ j ∧ j < i + 0) := fun j => by omega
        have hsame : Function.update pages.slots i none = pages.slots := by
          rw [← hnull i (Nat.le_refl i), Function.update_eq_self]
        simp only [allocPages, hpage, hnone, if_false, hsame]
      · simp [allocPages, hpage]
    | some page =>
      obtain ⟨k, hk, hok, hslots, hevents, hsome, hstop⟩ := ih (i + 1)
        { pages with slots := Function.update pages.slots i (alloc.allocPage i) } fun j hj =>
          (Function.update_of_ne (by omega) _ _).trans (hnull j (by omega))
      refine ⟨k + 1, by omega, ?_, ?_, ?_, ?_, ?_⟩
      · simp only [allocPages, hpage] at hok ⊢
        rw [hok]
        simp
      · simp only [allocPages, hpage] at hslots ⊢
        rw [hslots]
        congr 1
        funext j
        by_cases hj : j = i
        · subst hj
          simp [hpage]
        · have hiff : (i + 1 ≤ j ∧ j < i + 1 + k) ↔ (i ≤ j ∧ j < i + (k + 1)) := by omega
          simp only [hiff, Function.update_of_ne hj]
      · simp only [allocPages, hpage] at hevents ⊢
        rw [hevents, List.range'_succ, List.filterMap_cons_some hpage, List.map_cons]
      · intro j hij hj
        by_cases heq : j = i
        · rw [heq, hpage]
          rfl
        · exact hsome j (by omega) (by omega)
      · intro hlt
        rw [← hstop (by omega), Nat.add_assoc, Nat.add_comm 1 k]

theorem filterMap_slots {alloc : Allocations} {slots : Nat → Option Nat} {k n : Nat} (hk : k ≤ n)
    (hslots : ∀ j, slots j = if j < k then alloc.allocPage j else none) :
    (List.range n).filterMap slots = firstPages alloc k := by
  obtain ⟨rest, rfl⟩ := Nat.exists_eq_add_of_le hk
  have hfirst : (List.range k).filterMap slots = (List.range k).filterMap alloc.allocPage := by
    apply List.filterMap_congr
    intro j hj
    rw [hslots, if_pos (List.mem_range.mp hj)]
  have hrest : ((List.range rest).map fun j => k + j).filterMap slots = [] := by
    rw [List.filterMap_map, List.filterMap_eq_nil_iff]
    intro j _
    rw [Function.comp_apply, hslots, if_neg (by omega)]
  rw [List.range_add, List.filterMap_append, hfirst, hrest, List.append_nil, firstPages]

/-- The ring buffer with its array and the first `k` pages. -/
def filled (rb : HrperfRingBuffer) (alloc : Allocations) (n addr k : Nat) : HrperfRingBuffer :=
  { rb with
    numPages := n
    pages := some ⟨addr, fun j => if j < k then alloc.allocPage j else none⟩ }

/-- The calls that got them. -/
def fillEvents (alloc : Allocations) (addr k : Nat) : List Event :=
  .kcalloc addr :: (firstPages alloc k).map .allocPage

/-- What is held then. -/
def heldPages (alloc : Allocations) (addr k : Nat) : List Resource :=
  .pageArray addr :: (firstPages alloc k).map .page

theorem holdings_filled (rb : HrperfRingBuffer) (alloc : Allocations) {n : Nat} (addr : Nat) {k : Nat}
    (hk : k ≤ n) : holdings (filled rb alloc n addr k) = rb.buffer.toList.map .mapping ++
      ((firstPages alloc k).map .page ++ [.pageArray addr]) := by
  have hslots : (List.range n).filterMap (fun j => if j < k then alloc.allocPage j else none) =
      firstPages alloc k := filterMap_slots hk fun _ => rfl
  rw [holdings, filled]
  simp only [hslots]

theorem fillEvents_keepsAll (alloc : Allocations) (addr k : Nat) :
    KeepsAll effect (fillEvents alloc addr k) := by
  intro e he r
  rcases List.mem_cons.mp he with rfl | he
  · simp [effect]
  · obtain ⟨p, -, rfl⟩ := List.mem_map.mp he
    simp [effect]

theorem acquired_fillEvents (alloc : Allocations) (addr k : Nat) :
    (fillEvents alloc addr k).filterMap (acquired effect) = heldPages alloc addr k := by
  simp [fillEvents, heldPages, acquired, effect, List.filterMap_map, Function.comp_def]

theorem account_fillEvents (alloc : Allocations) (addr k : Nat) :
    account effect [] (fillEvents alloc addr k) = some (heldPages alloc addr k) := by
  rw [account_of_keepsAll [] (fillEvents_keepsAll alloc addr k), acquired_fillEvents,
    List.nil_append]

theorem heldPages_nodup (alloc : Allocations) (addr k : Nat) : (heldPages alloc addr k).Nodup := by
  have hpages : (firstPages alloc k).Nodup := by
    apply List.nodup_range.filterMap
    intro i j p hi hj
    exact alloc.distinct i j p hi hj
  refine List.nodup_cons.mpr ⟨by simp, hpages.map ?_⟩
  intro p q hpq
  exact Resource.page.inj hpq

/-! ## The size of the mapping -/

/-- The size in whole pages, or 0 if rounding up wraps around. -/
theorem numPages_spec (size : BufferSize) :
    numPages size = 0 ∨
      size.entries * size.entrySize ≤ numPages size * pageSize ∧
        numPages size * pageSize < size.entries * size.entrySize + pageSize := by
  have hfits := size.fits
  have halign : (pageAlign (BitVec.ofNat 64 (size.entries * size.entrySize))).toNat = _ :=
    and_pageMask_toNat (BitVec.ofNat 64 (size.entries * size.entrySize) + 4095)
  have hsum : (BitVec.ofNat 64 (size.entries * size.entrySize) + 4095).toNat =
      (size.entries * size.entrySize + 4095) % 2 ^ 64 := by
    rw [BitVec.toNat_add, BitVec.toNat_ofNat, Nat.mod_eq_of_lt hfits]
    rfl
  rw [hsum] at halign
  simp only [numPages, halign, pageSize]
  omega

/-! ## One call -/

variable (size : BufferSize) (alloc : Allocations)

/-- A ring buffer that points to exactly what is held. -/
def Owns (out : Outcome) : Prop :=
  ∃ held, account effect [] out.events = some held ∧ held.Perm (holdings out.rb)

/-- All that the call asks for is given. -/
structure Granted : Prop where
  array : (alloc.kcalloc (numPages size)).isSome = true
  pages : ∀ i < numPages size, (alloc.allocPage i).isSome = true
  mapping : (alloc.vmap (vmapCount (numPages size))).isSome = true

/-- A mapping of all pages, large enough by less than a page. -/
structure Allocated (out : Outcome) : Prop where
  code : out.code = 0
  mapped : ∃ buf pages, out.rb.buffer = some buf ∧ out.rb.pages = some pages ∧
    .vmap buf out.rb.numPages ∈ out.events ∧
    ∀ i < out.rb.numPages, (pages.slots i).isSome = true ∧ pages.slots i = alloc.allocPage i
  large : size.entries * size.entrySize ≤ out.rb.numPages * pageSize
  tight : out.rb.numPages * pageSize < size.entries * size.entrySize + pageSize
  owns : Owns out

/-- All that was allocated is freed again. -/
structure RolledBack (out : Outcome) : Prop where
  code : out.code = -enomem
  balanced : account effect [] out.events = some []
  nothing : empty out.rb

theorem fail_rolledBack {rb : HrperfRingBuffer} {events : List Event} {held : List Resource}
    (haccount : account effect [] events = some held) (hheld : held.Perm (holdings rb)) :
    RolledBack (fail rb events) where
  code := rfl
  balanced := by
    have hevents : (fail rb events).events = events ++ (freeAllocPages rb).2 := rfl
    rw [hevents, account_append, haccount]
    exact account_freeAllocPages hheld
  nothing := freeAllocPages_empty rb

/-- All that `hrp_alloc_rb_buf` can do. -/
theorem hrpAllocRbBuf_cases (rb : HrperfRingBuffer) :
    (¬ Granted size alloc ∧
      hrpAllocRbBuf size alloc rb = fail { rb with numPages := numPages size, pages := none } []) ∨
    ∃ addr k, alloc.kcalloc (numPages size) = some addr ∧ k ≤ numPages size ∧
      (∀ i < k, (alloc.allocPage i).isSome = true) ∧
      ((¬ Granted size alloc ∧ hrpAllocRbBuf size alloc rb =
          fail (filled rb alloc (numPages size) addr k) (fillEvents alloc addr k)) ∨
        k = numPages size ∧ ∃ buf, alloc.vmap (vmapCount (numPages size)) = some buf ∧
          hrpAllocRbBuf size alloc rb =
            ⟨0, filled { rb with buffer := some buf } alloc (numPages size) addr k,
              fillEvents alloc addr k ++ [.vmap buf (vmapCount (numPages size))]⟩) := by
  cases hkcalloc : alloc.kcalloc (numPages size) with
  | none =>
    left
    refine ⟨fun hgranted => ?_, by simp only [hrpAllocRbBuf, hkcalloc]⟩
    have harray := hgranted.array
    rw [hkcalloc] at harray
    cases harray
  | some addr =>
    right
    obtain ⟨k, hk, hok, hpages, hevents, hsome, hstop⟩ :=
      allocPages_spec alloc 0 ⟨addr, fun _ => none⟩ (fun _ _ => rfl) (numPages size)
    rcases hresult : allocPages alloc 0 ⟨addr, fun _ => none⟩ (numPages size) with ⟨ok, pages, events⟩
    rw [hresult] at hok hpages hevents
    simp only [Nat.zero_le, true_and, Nat.zero_add] at hok hpages hevents hsome hstop
    rw [← List.range_eq_range', ← firstPages] at hevents
    subst hok hpages hevents
    refine ⟨addr, k, rfl, hk, fun i hi => hsome i trivial hi, ?_⟩
    simp only [hrpAllocRbBuf, hkcalloc, hresult]
    by_cases hall : k = numPages size
    · subst hall
      cases hvmap : alloc.vmap (vmapCount (numPages size)) with
      | none =>
        left
        refine ⟨fun hgranted => ?_, by simp [filled, fillEvents]⟩
        have hmapping := hgranted.mapping
        rw [hvmap] at hmapping
        cases hmapping
      | some buf =>
        right
        exact ⟨rfl, buf, rfl, by simp [filled, fillEvents]⟩
    · left
      refine ⟨fun hgranted => ?_, by simp [hall, filled, fillEvents]⟩
      have hpage := hgranted.pages k (by omega)
      rw [hstop (by omega)] at hpage
      cases hpage

theorem hrpAllocRbBuf_spec {rb : HrperfRingBuffer} (hbuffer : rb.buffer = none) :
    (Granted size alloc ∧ Allocated size alloc (hrpAllocRbBuf size alloc rb)) ∨
      (¬ Granted size alloc ∧ RolledBack (hrpAllocRbBuf size alloc rb)) := by
  obtain ⟨hnot, hnone⟩ | ⟨addr, k, harray, hk, hsome, ⟨hnot, hfail⟩ | ⟨rfl, buf, hvmap, hdone⟩⟩ :=
    hrpAllocRbBuf_cases size alloc rb
  · rw [hnone]
    exact Or.inr ⟨hnot, fail_rolledBack rfl (by simp [holdings, hbuffer])⟩
  · rw [hfail]
    refine Or.inr ⟨hnot, fail_rolledBack (account_fillEvents alloc addr k) ?_⟩
    rw [holdings_filled rb alloc addr hk, hbuffer]
    exact (List.perm_append_singleton _ _).symm
  · have hcount : vmapCount (numPages size) = numPages size :=
      Nat.mod_eq_of_lt (alloc.kcalloc_lt _ _ harray)
    have hpos : numPages size ≠ 0 := by
      intro hzero
      rw [hzero] at hvmap
      exact Option.some_ne_none buf (hvmap.symm.trans alloc.vmap_zero)
    obtain ⟨hlarge, htight⟩ := (numPages_spec size).resolve_left hpos
    refine Or.inl ⟨⟨by simp [harray], hsome, by simp [hvmap]⟩, ?_⟩
    rw [hdone, hcount]
    refine ⟨rfl, ⟨buf, _, rfl, rfl, by simp [filled], ?_⟩, hlarge, htight, ?_⟩
    · intro i hi
      have hi' : i < numPages size := hi
      simp only [hi', if_true]
      exact ⟨hsome i hi', trivial⟩
    · refine ⟨heldPages alloc addr (numPages size) ++ [.mapping buf], ?_, ?_⟩
      · rw [account_append, account_fillEvents]
        rfl
      · rw [holdings_filled { rb with buffer := some buf } alloc addr hk]
        refine (List.perm_append_singleton _ _).trans (List.Perm.cons _ ?_)
        exact (List.perm_append_singleton _ _).symm

/-! ## Teardown -/

theorem holdings_of_empty {rb : HrperfRingBuffer} (h : empty rb) : holdings rb = [] := by
  obtain ⟨hbuffer, hpages, -⟩ := h
  simp [holdings, hbuffer, hpages]

theorem RolledBack.owns {out : Outcome} (h : RolledBack out) : Owns out :=
  ⟨[], h.balanced, by rw [holdings_of_empty h.nothing]⟩

/-- Only the first call frees anything. -/
theorem deinitCalls_of_empty {rb : HrperfRingBuffer} (h : empty rb) (calls : Nat) :
    (deinitCalls rb calls).2 = [] ∧ empty (deinitCalls rb calls).1 := by
  induction calls generalizing rb with
  | zero => exact ⟨rfl, h⟩
  | succ calls ih =>
    have hfree := freeAllocPages_of_empty h
    simp only [deinitCalls, deinitRingBuffer, hfree, List.nil_append]
    exact ih h

/-- Whatever the cursors were. -/
theorem deinitCalls_cursors (rb : HrperfRingBuffer) (calls : Nat) :
    (deinitCalls rb (calls + 1)).1.head = 0 ∧ (deinitCalls rb (calls + 1)).1.tail = 0 := by
  induction calls generalizing rb with
  | zero => exact ⟨rfl, rfl⟩
  | succ calls ih => exact ih (deinitRingBuffer rb).1

theorem account_deinitCalls {events : List Event} {held : List Resource} {rb : HrperfRingBuffer}
    (haccount : account effect [] events = some held) (hheld : held.Perm (holdings rb))
    (calls : Nat) : account effect [] (events ++ (deinitCalls rb (calls + 1)).2) = some [] := by
  have hempty : empty (deinitRingBuffer rb).1 := freeAllocPages_empty rb
  have hevents : (deinitCalls rb (calls + 1)).2 = (freeAllocPages rb).2 := by
    have hrest := (deinitCalls_of_empty hempty calls).1
    simp only [deinitCalls, hrest, List.append_nil]
    rfl
  rw [hevents, account_append, haccount]
  exact account_freeAllocPages hheld

theorem initRingBuffer_cursors (rb : HrperfRingBuffer) :
    (initRingBuffer size alloc rb).rb.head = 0 ∧ (initRingBuffer size alloc rb).rb.tail = 0 := by
  rw [initRingBuffer]
  obtain ⟨-, hnone⟩ | ⟨addr, k, -, -, -, ⟨-, hfail⟩ | ⟨-, buf, -, hdone⟩⟩ :=
    hrpAllocRbBuf_cases size alloc
      { rb with head := 0, tail := 0, buffer := none, pages := none, numPages := 0 }
  · rw [hnone]
    exact ⟨rfl, rfl⟩
  · rw [hfail]
    exact ⟨rfl, rfl⟩
  · rw [hdone]
    exact ⟨rfl, rfl⟩

theorem acquired_freeAllocPages (rb : HrperfRingBuffer) :
    (freeAllocPages rb).2.filterMap (acquired effect) = [] := by
  rw [List.filterMap_eq_nil_iff]
  intro e he
  have hrelease : effect e ∈ (holdings rb).map Effect.releases := by
    rw [← freeAllocPages_effects]
    exact List.mem_map_of_mem he
  obtain ⟨r, -, hr⟩ := List.mem_map.mp hrelease
  rw [acquired, ← hr]

theorem acquired_fail (rb : HrperfRingBuffer) (events : List Event) :
    (fail rb events).events.filterMap (acquired effect) = events.filterMap (acquired effect) := by
  have hevents : (fail rb events).events = events ++ (freeAllocPages rb).2 := rfl
  rw [hevents, List.filterMap_append, acquired_freeAllocPages, List.append_nil]

/-- No resource is acquired twice. -/
theorem acquired_nodup (rb : HrperfRingBuffer) :
    ((initRingBuffer size alloc rb).events.filterMap (acquired effect)).Nodup := by
  rw [initRingBuffer]
  obtain ⟨-, hnone⟩ | ⟨addr, k, -, -, -, ⟨-, hfail⟩ | ⟨-, buf, -, hdone⟩⟩ :=
    hrpAllocRbBuf_cases size alloc
      { rb with head := 0, tail := 0, buffer := none, pages := none, numPages := 0 }
  · rw [hnone, acquired_fail]
    exact List.nodup_nil
  · rw [hfail, acquired_fail, acquired_fillEvents]
    exact heldPages_nodup alloc addr k
  · rw [hdone, List.filterMap_append, acquired_fillEvents]
    refine (List.perm_append_singleton _ _).nodup_iff.mpr (List.nodup_cons.mpr ⟨?_, ?_⟩)
    · simp [heldPages]
    · exact heldPages_nodup alloc addr k

/-- The ring buffer after entries have gone through it, which moves only the cursors. -/
def used (rb : HrperfRingBuffer) (head tail : Nat) : HrperfRingBuffer :=
  { rb with head := head, tail := tail }

/-- What calls of `deinit_ring_buffer` leave of a ring buffer after the events so far. -/
structure TornDown (events : List Event) (rb : HrperfRingBuffer) : Prop where
  head : rb.head = 0
  tail : rb.tail = 0
  balanced : account effect [] events = some []
  nothing : empty rb

/-- A ring buffer is allocated as a whole, if everything is given, or not at all; and calls of
`deinit_ring_buffer` free what it holds once, whatever has gone through it. -/
theorem initRingBuffer_atomic (rb : HrperfRingBuffer) :
    (Granted size alloc → Allocated size alloc (initRingBuffer size alloc rb)) ∧
    (¬ Granted size alloc → RolledBack (initRingBuffer size alloc rb)) ∧
    ((initRingBuffer size alloc rb).events.filterMap (acquired effect)).Nodup ∧
    (initRingBuffer size alloc rb).rb.head = 0 ∧ (initRingBuffer size alloc rb).rb.tail = 0 ∧
    ∀ head tail calls, TornDown
      ((initRingBuffer size alloc rb).events ++
        (deinitCalls (used (initRingBuffer size alloc rb).rb head tail) (calls + 1)).2)
      (deinitCalls (used (initRingBuffer size alloc rb).rb head tail) (calls + 1)).1 := by
  have hinit : (Granted size alloc ∧ Allocated size alloc (initRingBuffer size alloc rb)) ∨
      (¬ Granted size alloc ∧ RolledBack (initRingBuffer size alloc rb)) :=
    hrpAllocRbBuf_spec size alloc rfl
  obtain ⟨hhead, htail⟩ := initRingBuffer_cursors size alloc rb
  have howns : Owns (initRingBuffer size alloc rb) :=
    hinit.elim (fun h => h.2.owns) (fun h => h.2.owns)
  refine ⟨fun hgranted => ?_, fun hnot => ?_, acquired_nodup size alloc rb, hhead, htail, ?_⟩
  · exact (hinit.resolve_right fun h => h.1 hgranted).2
  · exact (hinit.resolve_left fun h => hnot h.1).2
  · intro head tail calls
    obtain ⟨held, haccount, hheld⟩ := howns
    obtain ⟨hzeroHead, hzeroTail⟩ :=
      deinitCalls_cursors (used (initRingBuffer size alloc rb).rb head tail) calls
    have hempty : empty (deinitRingBuffer (used (initRingBuffer size alloc rb).rb head tail)).1 :=
      freeAllocPages_empty (used (initRingBuffer size alloc rb).rb head tail)
    exact ⟨hzeroHead, hzeroTail, account_deinitCalls haccount hheld calls,
      (deinitCalls_of_empty hempty calls).2⟩

/-- A hundred entries of sixty bytes. -/
def hundredEntries : BufferSize := ⟨100, 60, by decide, by decide, by decide⟩

/-- A machine with memory for them. -/
def enoughMemory : Allocations where
  kcalloc n := if n < 2 ^ 32 then some 0 else none
  allocPage := some
  vmap count := if count = 0 then none else some 0
  distinct i j p hi hj := by
    rw [Option.some.inj hi, Option.some.inj hj]
  kcalloc_lt n addr h := by
    by_contra hnot
    rw [if_neg hnot] at h
    cases h
  vmap_zero := if_pos rfl

theorem hundredEntries_atomic :
    (initRingBuffer hundredEntries enoughMemory ⟨none, none, 0, 7, 9⟩).code = 0 ∧
      numPages hundredEntries = 2 ∧
      ∀ head tail, TornDown
        ((initRingBuffer hundredEntries enoughMemory ⟨none, none, 0, 7, 9⟩).events ++
          (deinitCalls (used (initRingBuffer hundredEntries enoughMemory
            ⟨none, none, 0, 7, 9⟩).rb head tail) 2).2)
        (deinitCalls (used (initRingBuffer hundredEntries enoughMemory
          ⟨none, none, 0, 7, 9⟩).rb head tail) 2).1 := by
  have hpages : numPages hundredEntries = 2 := by decide
  have hgranted : Granted hundredEntries enoughMemory := by
    refine ⟨?_, fun i _ => rfl, ?_⟩
    · rw [hpages]
      decide
    · rw [hpages]
      decide
  obtain ⟨hallocated, -, -, -, -, hdown⟩ :=
    initRingBuffer_atomic hundredEntries enoughMemory ⟨none, none, 0, 7, 9⟩
  exact ⟨(hallocated hgranted).code, hpages, fun head tail => hdown head tail 1⟩

end RingAllocation
