import Hiresperf.Foundation.ByteCodec
import Hiresperf.UncoreDiscovery

/-!
# The units of a discovery table

The reads of a callback go through `mmio_memcpy` of `mmio.h`, word by word through
a mapping of whole pages. With a memory that answers both passes alike, the pass
that fills meets the boxes of the pass that counts, so that every array is filled
to its end, in the order of the table.
-/

namespace DiscoveryTable

open UncoreDiscovery ByteCodec

/-! ## Reading mapped memory -/

/-- What `ioread32` gives at a physical address. -/
abbrev Memory := BitVec 64 → BitVec 32

def u32Max : BitVec 32 := 0xFFFFFFFF

def pageMask : BitVec 64 := ~~~4095

def pageAlign (addr : BitVec 64) : BitVec 64 := (addr + 4095) &&& pageMask

/-- A `mmio_range_t`, by the physical address where its mapping begins. -/
structure MmioRange where
  begins : BitVec 64
  size : BitVec 64

def mmioRead32 (mem : Memory) (range : MmioRange) (offset : BitVec 64) : BitVec 32 :=
  if range.size.toNat < (offset + 4).toNat then 0 else mem (range.begins + offset)

/-- The loop of `mmio_memcpy` over the words of the destination. -/
def copyWords (read : Nat → BitVec 32) (checkFailures : Bool) :
    List Nat → Option (List (BitVec 32))
  | [] => some []
  | i :: rest =>
    let value := read i
    if checkFailures && value == u32Max then none
    else (copyWords read checkFailures rest).map (value :: ·)

/-- `none` for each of the error codes; the range can always be created. -/
def mmioMemcpy (mem : Memory) (src : BitVec 64) (n : Nat) (checkFailures : Bool) :
    Option (List (BitVec 32)) :=
  if src &&& 3 ≠ 0 ∨ n % 4 ≠ 0 then none
  else
    let mapBegin := src &&& pageMask
    let range : MmioRange := ⟨mapBegin, pageAlign (src + BitVec.ofNat 64 n) - mapBegin⟩
    copyWords (fun i => mmioRead32 mem range (src - mapBegin + BitVec.ofNat 64 (4 * i)))
      checkFailures (List.range (n / 4))

/-- The `union` of a record and of the words copied into it. -/
def tableOfWords : List (BitVec 32) → Table
  | [a, b, c, d, e, f] => ⟨joinWords a b, joinWords c d, joinWords e f⟩
  | _ => .zero

/-- A callback of a device whose memory does not change; all allocations succeed. -/
def tableCallback (mem : Memory) (node : Int) (bar : BitVec 64) : Callback where
  node := node
  bar := bar
  mmioMemcpy _ addr := (mmioMemcpy mem addr 24 true).map tableOfWords
  kcalloc _ := true

/-! ## What the table holds -/

def wordAddr (addr : BitVec 64) (i : Nat) : BitVec 64 := addr + BitVec.ofNat 64 (4 * i)

/-- None of the six words of the record is the answer of a failed read. -/
def Readable (mem : Memory) (addr : BitVec 64) : Prop :=
  ∀ i < 6, mem (wordAddr addr i) ≠ u32Max

instance (mem : Memory) (addr : BitVec 64) : Decidable (Readable mem addr) :=
  inferInstanceAs (Decidable (∀ i < 6, mem (wordAddr addr i) ≠ u32Max))

def recordAt (mem : Memory) (addr : BitVec 64) : Table where
  word0 := joinWords (mem (wordAddr addr 0)) (mem (wordAddr addr 1))
  word1 := joinWords (mem (wordAddr addr 2)) (mem (wordAddr addr 3))
  word2 := joinWords (mem (wordAddr addr 4)) (mem (wordAddr addr 5))

/-- The units of a type, in the order of the table. -/
def unitsOfType (mem : Memory) (bar : BitVec 64) (global : Table) (t : Nat) : List Table :=
  (List.range global.maxUnits).filterMap fun u =>
    let addr := bar + BitVec.ofNat 64 ((u + 1) * (global.stride * 8))
    let unit := recordAt mem addr
    if Readable mem addr ∧ ¬ (unit.word0 = 0 ∧ unit.word1 = 0) ∧ unit.boxType = t then some unit
    else none

/-- The list of a type: no array if there are no units of this type. -/
def listOf (units : List Table) : BoxPmuList :=
  if units = [] then ⟨none, 0⟩ else ⟨some units, units.length⟩

/-! ## The mapping covers the record -/

theorem and_pageMask_toNat (addr : BitVec 64) :
    (addr &&& pageMask).toNat = addr.toNat - addr.toNat % 4096 := by
  have hshift : addr &&& pageMask = (addr >>> 12) <<< 12 := by
    have hmask : ∀ i < 64, pageMask.getLsbD i = decide (12 ≤ i) := by decide
    apply BitVec.eq_of_getLsbD_eq
    intro i hi
    rw [BitVec.getLsbD_and, hmask i hi, BitVec.getLsbD_shiftLeft, BitVec.getLsbD_ushiftRight]
    by_cases hlow : 12 ≤ i
    · have hback : 12 + (i - 12) = i := by omega
      simp [hlow, hi, hback]
    · have hnot : i < 12 := by omega
      simp [hlow, hnot]
  rw [hshift, BitVec.toNat_shiftLeft, BitVec.toNat_ushiftRight, Nat.shiftRight_eq_div_pow,
    Nat.shiftLeft_eq]
  have := addr.isLt
  omega

theorem aligned_iff (addr : BitVec 64) : addr &&& 3 = 0 ↔ addr.toNat % 4 = 0 := by
  rw [← BitVec.toNat_inj, BitVec.toNat_and]
  have hmod := Nat.and_two_pow_sub_one_eq_mod addr.toNat 2
  simpa using Eq.congr_left hmod

/-- The mapping reaches from the page of the first byte to the page after the last one. -/
theorem mapping_covers (src : BitVec 64) {i : Nat} (hi : i < 6) :
    (src - (src &&& pageMask) + BitVec.ofNat 64 (4 * i) + 4).toNat ≤
      (pageAlign (src + 24) - (src &&& pageMask)).toNat := by
  have hbegin := and_pageMask_toNat src
  have hend : (pageAlign (src + 24)).toNat = _ := and_pageMask_toNat (src + 24 + 4095)
  have hoffset : (src - (src &&& pageMask)).toNat = src.toNat % 4096 := by
    have hlt := src.isLt
    rw [BitVec.toNat_sub, hbegin]
    omega
  have hsize : (pageAlign (src + 24) - (src &&& pageMask)).toNat =
      (src.toNat % 4096 + 24 + 4095) / 4096 * 4096 := by
    have hlt := src.isLt
    rw [BitVec.toNat_sub, hbegin, hend, BitVec.toNat_add, BitVec.toNat_add]
    change (2 ^ 64 - _ + (((src.toNat + 24) % 2 ^ 64 + 4095) % 2 ^ 64 -
      ((src.toNat + 24) % 2 ^ 64 + 4095) % 2 ^ 64 % 4096)) % 2 ^ 64 = _
    omega
  rw [hsize, BitVec.toNat_add, BitVec.toNat_add, hoffset, BitVec.toNat_ofNat]
  change ((_ + 4 * i % 2 ^ 64) % 2 ^ 64 + 4) % 2 ^ 64 ≤ _
  omega

/-- No read of the record falls outside its mapping. -/
theorem mmioRead32_of_lt (mem : Memory) (src : BitVec 64) {i : Nat} (hi : i < 6) :
    mmioRead32 mem ⟨src &&& pageMask, pageAlign (src + 24) - (src &&& pageMask)⟩
      (src - (src &&& pageMask) + BitVec.ofNat 64 (4 * i)) = mem (wordAddr src i) := by
  have hcovers := mapping_covers src hi
  have haddr : (src &&& pageMask) + (src - (src &&& pageMask) + BitVec.ofNat 64 (4 * i)) =
      wordAddr src i := by
    rw [wordAddr, ← BitVec.add_assoc, BitVec.add_comm (src &&& pageMask), BitVec.sub_add_cancel]
  rw [mmioRead32, if_neg (Nat.not_lt.mpr hcovers), haddr]

theorem copyWords_eq (read : Nat → BitVec 32) (is : List Nat) :
    copyWords read true is = if ∀ i ∈ is, read i ≠ u32Max then some (is.map read) else none := by
  induction is with
  | nil => simp [copyWords]
  | cons i rest ih =>
    by_cases hfail : read i = u32Max
    · simp [copyWords, hfail]
    · by_cases hrest : ∀ j ∈ rest, read j ≠ u32Max <;> simp [copyWords, ih, hfail, hrest]

theorem copyWords_congr {read read' : Nat → BitVec 32} {checkFailures : Bool} {is : List Nat}
    (h : ∀ i ∈ is, read i = read' i) :
    copyWords read checkFailures is = copyWords read' checkFailures is := by
  induction is with
  | nil => rfl
  | cons i rest ih =>
    have hrest := ih fun j hj => h j (List.mem_cons_of_mem _ hj)
    simp only [copyWords, h i List.mem_cons_self, hrest]

/-- What a read of 24 bytes gives. -/
theorem read_record (mem : Memory) (src : BitVec 64) :
    (mmioMemcpy mem src 24 true).map tableOfWords =
      if src.toNat % 4 = 0 ∧ Readable mem src then some (recordAt mem src) else none := by
  by_cases haligned : src.toNat % 4 = 0
  · have hwords : mmioMemcpy mem src 24 true =
        copyWords (fun i => mem (wordAddr src i)) true (List.range 6) := by
      rw [mmioMemcpy, if_neg]
      · exact copyWords_congr fun i hi => mmioRead32_of_lt mem src (List.mem_range.mp hi)
      · rintro (hsrc | hn)
        · exact hsrc ((aligned_iff src).mpr haligned)
        · exact hn rfl
    have hiff : (∀ i ∈ List.range 6, mem (wordAddr src i) ≠ u32Max) ↔ Readable mem src :=
      forall_congr' fun i => by rw [List.mem_range]
    rw [hwords, copyWords_eq]
    by_cases hread : Readable mem src
    · rw [if_pos (hiff.mpr hread), if_pos ⟨haligned, hread⟩]
      rfl
    · rw [if_neg (mt hiff.mp hread), if_neg (fun h => hread h.2)]
      rfl
  · rw [mmioMemcpy, if_pos (Or.inl (mt (aligned_iff src).mp haligned)),
      if_neg (fun h => haligned h.1)]
    rfl

/-! ## The two passes -/

/-- The boxes of a type among the first `n` units of a pass. -/
def boxes (unit : Nat → Option Table) (n t : Nat) : List Table :=
  (List.range n).filterMap fun u => (unit u).filter (·.boxType == t)

variable {unit : Nat → Option Table} {n t : Nat}

theorem boxes_succ_none (h : unit n = none) : boxes unit (n + 1) t = boxes unit n t := by
  simp [boxes, List.range_succ, List.filterMap_append, h]

theorem boxes_succ_some {box : Table} (h : unit n = some box) :
    boxes unit (n + 1) t =
      if box.boxType = t then boxes unit n t ++ [box] else boxes unit n t := by
  by_cases ht : box.boxType = t <;>
    simp [boxes, List.range_succ, List.filterMap_append, h, Option.filter, ht]

theorem length_boxes_mono (unit : Nat → Option Table) (t : Nat) {m n : Nat} (h : m ≤ n) :
    (boxes unit m t).length ≤ (boxes unit n t).length := by
  induction n, h using Nat.le_induction with
  | base => exact Nat.le_refl _
  | succ n _ ih =>
    cases hunit : unit n with
    | none => rwa [boxes_succ_none hunit]
    | some box =>
      rw [boxes_succ_some hunit]
      split_ifs
      · rw [List.length_append]
        omega
      · exact ih

theorem countBoxes_eq_length (cb : Callback) (global : Table) (t : Nat) :
    countBoxes cb global t = (boxes (firstPassUnit cb global) global.maxUnits t).length := by
  unfold countBoxes
  apply Loops.foldl_range_invariant (I := fun turn (counts : Nat → Nat) =>
    counts t = (boxes (firstPassUnit cb global) turn t).length)
  · rfl
  · intro turn counts _ ih
    unfold countBox
    cases hunit : firstPassUnit cb global turn with
    | none => rwa [boxes_succ_none hunit]
    | some unit =>
      rw [boxes_succ_some hunit]
      by_cases ht : unit.boxType = t
      · subst ht
        simp [ih]
      · simp [Function.update_of_ne (Ne.symm ht), ht, ih]

/-- The units of a type that a table has take the place of those that were there before. -/
def overlay (old : BoxPmuList) (units : List Table) : BoxPmuList :=
  if units = [] then old else ⟨some units, units.length⟩

/-- An array with room for `total` boxes that holds those found so far. Without boxes there is no
new array. -/
def partialList (old : BoxPmuList) (total : Nat) (found : List Table) : BoxPmuList :=
  if total = 0 then old
  else ⟨some (found ++ List.replicate (total - found.length) .zero), found.length⟩

theorem partialList_full (old : BoxPmuList) (units : List Table) :
    partialList old units.length units = overlay old units := by
  cases units <;> simp [partialList, overlay]

/-- The next box goes to the first free place. -/
theorem set_next (found : List Table) (box : Table) {total : Nat} (h : found.length < total) :
    (found ++ List.replicate (total - found.length) Table.zero).set found.length box =
      found ++ [box] ++ List.replicate (total - (found.length + 1)) .zero := by
  obtain ⟨rest, rfl⟩ : ∃ rest, total = found.length + 1 + rest :=
    ⟨total - (found.length + 1), by omega⟩
  have hfree : found.length + 1 + rest - found.length = rest + 1 := by omega
  have hleft : found.length + 1 + rest - (found.length + 1) = rest := by omega
  rw [hfree, hleft, List.set_append_right _ _ (Nat.le_refl _)]
  simp [List.replicate_succ]

/-- After `turn` units of the filling pass, every array holds the boxes found so far. -/
def Filled (unit : Nat → Option Table) (counts : Nat → Nat) (before : Nat → BoxPmuList)
    (socket turn : Nat) (d : Discovery) : Prop :=
  ∀ t, t < maxBoxTypes → d.lists socket t = partialList (before t) (counts t) (boxes unit turn t)

/-- What a turn of the filling pass leaves alone: the other sockets, and types that are not
known. -/
def SameOutside (socket : Nat) (before after : Discovery) : Prop :=
  ∀ socket' t, socket' ≠ socket ∨ maxBoxTypes ≤ t →
    after.lists socket' t = before.lists socket' t

variable {cb : Callback} {global : Table} {counts : Nat → Nat} {before : Nat → BoxPmuList}
  {socket turn : Nat} {d : Discovery}

theorem fillBox_filled (hturn : turn < global.maxUnits)
    (hcounts : ∀ t, counts t = (boxes (secondPassUnit cb global) global.maxUnits t).length)
    (h : Filled (secondPassUnit cb global) counts before socket turn d) :
    Filled (secondPassUnit cb global) counts before socket (turn + 1)
      (fillBox cb global counts socket d turn) := by
  intro t ht
  unfold fillBox
  cases hunit : secondPassUnit cb global turn with
  | none =>
    rw [boxes_succ_none hunit]
    exact h t ht
  | some box =>
    have hknown : box.boxType < maxBoxTypes := knownBox_boxType_lt hunit
    -- the box was counted, so that the array of its type has a place left
    have hroom : (boxes (secondPassUnit cb global) turn box.boxType).length <
        counts box.boxType := by
      have hmono := length_boxes_mono (secondPassUnit cb global) box.boxType
        (Nat.succ_le_of_lt hturn)
      rw [boxes_succ_some hunit, if_pos rfl, List.length_append, List.length_singleton] at hmono
      rw [hcounts]
      omega
    have hlist := h box.boxType hknown
    rw [partialList, if_neg (by omega)] at hlist
    simp only [hlist, hroom, if_true, setList_lists, true_and]
    rw [boxes_succ_some hunit]
    by_cases hsame : t = box.boxType
    · subst hsame
      rw [if_pos rfl, if_pos rfl, set_next _ _ hroom, partialList, if_neg (by omega)]
      simp
    · rw [if_neg hsame, if_neg (Ne.symm hsame)]
      exact h t ht

theorem fillBox_sameOutside (d : Discovery) (u : Nat) :
    SameOutside socket d (fillBox cb global counts socket d u) := by
  intro socket' t houtside
  unfold fillBox
  cases hunit : secondPassUnit cb global u with
  | none => rfl
  | some box =>
    have hknown : box.boxType < maxBoxTypes := knownBox_boxType_lt hunit
    have hne : ¬ (socket' = socket ∧ t = box.boxType) := by omega
    dsimp only
    cases (d.lists socket box.boxType).pmus with
    | none => rfl
    | some pmus =>
      split_ifs
      · exact (setList_lists ..).trans (if_neg hne)
      · rfl

/-! ## The whole table -/

/-- Units stand at multiples of eight bytes from the header. -/
theorem unitAddr_aligned (global : Table) (u : Nat) (h : cb.bar.toNat % 4 = 0) :
    (unitAddr cb global u).toNat % 4 = 0 := by
  have height : (u + 1) * (global.stride * 8) = 8 * ((u + 1) * global.stride) := by
    rw [← Nat.mul_assoc, Nat.mul_comm]
  rw [unitAddr, height, BitVec.toNat_add, BitVec.toNat_ofNat]
  omega

theorem knownBox_some (unit : Table) :
    knownBox (some unit) =
      if ¬ (unit.word0 = 0 ∧ unit.word1 = 0) ∧ unit.boxType < maxBoxTypes then some unit
      else none := by
  simp [knownBox, Option.filter, imp_iff_not_or]

theorem filter_knownBox_read (mem : Memory) {addr : BitVec 64} (haddr : addr.toNat % 4 = 0)
    (ht : t < maxBoxTypes) :
    (knownBox ((mmioMemcpy mem addr 24 true).map tableOfWords)).filter (·.boxType == t) =
      if Readable mem addr ∧
          ¬ ((recordAt mem addr).word0 = 0 ∧ (recordAt mem addr).word1 = 0) ∧
          (recordAt mem addr).boxType = t then
        some (recordAt mem addr)
      else none := by
  rw [read_record]
  generalize recordAt mem addr = unit
  by_cases hread : Readable mem addr
  · rw [if_pos ⟨haddr, hread⟩, knownBox_some]
    by_cases htype : unit.boxType = t
    · subst htype
      by_cases hzero : unit.word0 = 0 ∧ unit.word1 = 0
      · rw [if_neg fun h => h.1 hzero, if_neg fun h => h.2.1 hzero]
        rfl
      · rw [if_pos ⟨hzero, ht⟩, if_pos ⟨hread, hzero, rfl⟩]
        simp [Option.filter]
    · have hother : ¬ (Readable mem addr ∧ ¬ (unit.word0 = 0 ∧ unit.word1 = 0) ∧
          unit.boxType = t) := fun h => htype h.2.2
      rw [if_neg hother]
      split_ifs
      · simp [Option.filter, htype]
      · rfl
  · rw [if_neg fun h => hread h.2, if_neg fun h => hread h.1]
    rfl

/-- The second pass of such a callback, by the contents of the table. -/
theorem boxes_eq_unitsOfType (mem : Memory) (node : Int) {bar : BitVec 64} (global : Table)
    (haligned : bar.toNat % 4 = 0) (ht : t < maxBoxTypes) :
    boxes (secondPassUnit (tableCallback mem node bar) global) global.maxUnits t =
      unitsOfType mem bar global t := by
  apply List.filterMap_congr
  intro u _
  exact filter_knownBox_read mem
    (unitAddr_aligned global u haligned) ht

/-- Every new array starts empty. -/
theorem allocateLists_filled (socket : Nat) (unit : Nat → Option Table) (d : Discovery)
    (counts : Nat → Nat) :
    (allocateLists (fun _ => true) counts socket (List.range maxBoxTypes) d).2 = true ∧
      Filled unit counts (d.lists socket) socket 0
        (allocateLists (fun _ => true) counts socket (List.range maxBoxTypes) d).1 ∧
      SameOutside socket d
        (allocateLists (fun _ => true) counts socket (List.range maxBoxTypes) d).1 := by
  have hfind : (List.range maxBoxTypes).find? (allocationFails (fun _ => true) counts) = none := by
    simp [allocationFails]
  obtain ⟨hdone, -, hlists⟩ := allocateLists_success socket d hfind
  refine ⟨hdone, ?_, ?_⟩
  · intro t ht
    rw [hlists, partialList]
    by_cases hcount : counts t = 0
    · rw [if_pos hcount, if_neg (by omega)]
    · rw [if_neg hcount, if_pos ⟨rfl, List.mem_range.mpr ht, by omega⟩]
      rfl
  · intro socket' t houtside
    rw [hlists, if_neg]
    rintro ⟨hsocket, hmem, -⟩
    have := List.mem_range.mp hmem
    omega

/-- The filling pass. -/
theorem fillPass_filled
    (hcounts : ∀ t, counts t = (boxes (secondPassUnit cb global) global.maxUnits t).length)
    (h : Filled (secondPassUnit cb global) counts before socket 0 d) :
    Filled (secondPassUnit cb global) counts before socket global.maxUnits
      ((List.range global.maxUnits).foldl (fillBox cb global counts socket) d) :=
  Loops.foldl_range_invariant (I := Filled (secondPassUnit cb global) counts before socket) h
    fun _ _ hturn hfilled => fillBox_filled hturn hcounts hfilled

theorem fillPass_sameOutside (us : List Nat) (d : Discovery) :
    SameOutside socket d (us.foldl (fillBox cb global counts socket) d) := by
  induction us generalizing d with
  | nil => exact fun _ _ _ => rfl
  | cons u rest ih =>
    intro socket' t houtside
    rw [List.foldl_cons, ih _ socket' t houtside]
    exact fillBox_sameOutside d u socket' t houtside

/-- A table whose header was read puts its units over those of the tables before it, type by
type. -/
theorem processTable_of_header (mem : Memory) (node : Int) {bar : BitVec 64} {global : Table}
    (socket : Nat) (d : Discovery) (haligned : bar.toNat % 4 = 0)
    (hglobal : (mmioMemcpy mem bar 24 true).map tableOfWords = some global) :
    (processSocketDiscoveryTable d socket (tableCallback mem node bar)).2 = .ok ∧
      (∀ t, t < maxBoxTypes →
        (processSocketDiscoveryTable d socket (tableCallback mem node bar)).1.lists socket t =
          overlay (d.lists socket t) (unitsOfType mem bar global t)) ∧
      SameOutside socket d
        (processSocketDiscoveryTable d socket (tableCallback mem node bar)).1 := by
  have hread : (tableCallback mem node bar).mmioMemcpy 0 (tableCallback mem node bar).bar =
      some global := hglobal
  -- the passes make the same reads
  have hcounts : ∀ t, countBoxes (tableCallback mem node bar) global t =
      (boxes (secondPassUnit (tableCallback mem node bar) global) global.maxUnits t).length :=
    countBoxes_eq_length (tableCallback mem node bar) global
  obtain ⟨hdone, hempty, hother⟩ := allocateLists_filled socket
    (secondPassUnit (tableCallback mem node bar) global)
    { d with globalPmus := Function.update d.globalPmus socket global }
    (countBoxes (tableCallback mem node bar) global)
  have hunits : ∀ t, t < maxBoxTypes →
      boxes (secondPassUnit (tableCallback mem node bar) global) global.maxUnits t =
        unitsOfType mem bar global t :=
    fun t ht => boxes_eq_unitsOfType mem node global haligned ht
  have hkcalloc : (tableCallback mem node bar).kcalloc = fun _ => true := rfl
  simp only [processSocketDiscoveryTable, hread, hkcalloc]
  generalize allocateLists (fun _ => true) (countBoxes (tableCallback mem node bar) global) socket
    (List.range maxBoxTypes) _ = result at hdone hempty hother ⊢
  obtain ⟨allocatedState, done⟩ := result
  subst hdone
  refine ⟨rfl, ?_, ?_⟩
  · intro t ht
    rw [fillPass_filled hcounts hempty t ht, hcounts, hunits t ht, partialList_full]
  · intro socket' t houtside
    exact (fillPass_sameOutside _ allocatedState socket' t houtside).trans
      (hother socket' t houtside)

/-- On a fresh socket, every list is exactly the units of its type, and nothing else changes. A
table whose header cannot be read leaves every list as it was. -/
theorem lists_are_units_of_table (mem : Memory) (node : Int) (bar : BitVec 64) (socket : Nat)
    (d : Discovery) (hfresh : ∀ t, d.lists socket t = ⟨none, 0⟩) :
    (∀ words, mmioMemcpy mem bar 24 true = some words →
      tableOfWords words = recordAt mem bar ∧
      (processSocketDiscoveryTable d socket (tableCallback mem node bar)).2 = .ok ∧
      (∀ t, t < maxBoxTypes →
        (processSocketDiscoveryTable d socket (tableCallback mem node bar)).1.lists socket t =
          listOf (unitsOfType mem bar (recordAt mem bar) t)) ∧
      SameOutside socket d
        (processSocketDiscoveryTable d socket (tableCallback mem node bar)).1) ∧
    (mmioMemcpy mem bar 24 true = none →
      processSocketDiscoveryTable d socket (tableCallback mem node bar) = (d, .readFailed)) := by
  constructor
  · intro words hwords
    have hrecord := read_record mem bar
    rw [hwords, Option.map_some] at hrecord
    split_ifs at hrecord with hheader
    have hglobal : tableOfWords words = recordAt mem bar := Option.some.inj hrecord
    have hread : (mmioMemcpy mem bar 24 true).map tableOfWords = some (recordAt mem bar) := by
      rw [hwords]
      exact hrecord
    obtain ⟨hok, hlists, hother⟩ := processTable_of_header mem node socket d hheader.1 hread
    refine ⟨hglobal, hok, fun t ht => ?_, hother⟩
    rw [hlists t ht, hfresh]
    rfl
  · intro hfailed
    simp [processSocketDiscoveryTable, tableCallback, hfailed]

/-- A table with three units: the first cannot be read, the last is empty. -/
def imcMemory : Memory := fun addr =>
  match addr.toNat with
  | 0x1000 => 0x00030300
  | 0x1018 => 0xFFFFFFFF
  | 0x1030 => 0x08080804
  | 0x1034 => 0x40000000
  | 0x1038 => 0x00002000
  | 0x1040 => 0x00000006
  | _ => 0

theorem lists_of_imcMemory :
    (processSocketDiscoveryTable (uncorePmuDiscoveryCreate 1) 0
        (tableCallback imcMemory 0 0x1000)).1.lists 0 sprImcBoxType =
      ⟨some [⟨0x4000000008080804, 0x2000, 6⟩], 1⟩ := by
  obtain ⟨words, hwords⟩ : ∃ words, mmioMemcpy imcMemory 0x1000 24 true = some words :=
    ⟨[0x00030300, 0, 0, 0, 0, 0], by decide⟩
  have hlists := (lists_are_units_of_table imcMemory 0 0x1000 0 (uncorePmuDiscoveryCreate 1)
    fun _ => rfl).1 words hwords
  rw [hlists.2.2.1 sprImcBoxType (by decide)]
  decide +kernel

end DiscoveryTable
