import Hiresperf.Foundation.CircularWindow
import Mathlib.Algebra.Group.Nat.Defs

/-!
# The per-CPU ring buffer

`buffer.c` and `log_and_clear` of `log.c`, each run without interruption. `N` is
`HRP_PMC_BUFFER_SIZE`, `enc` gives the bytes of an entry in memory. The indices
are `unsigned int` in the source: a `WordRing` has these, and does what the ring
over the natural numbers does if they can address all slots.
-/

namespace RingBuffer

open CircularWindow

universe u v
variable {α : Type u} {β : Type v}

structure HrperfRingBuffer (α : Type u) where
  buffer : Nat → α
  head : Nat
  tail : Nat

/-- `init_ring_buffer` once its memory, with arbitrary cells, has been obtained. -/
def initRingBuffer (cells : Nat → α) : HrperfRingBuffer α := ⟨cells, 0, 0⟩

def nextTail (N tail : Nat) : Nat := (tail + 1) % N

def isFull (N : Nat) (rb : HrperfRingBuffer α) : Bool := nextTail N rb.tail = rb.head

def setSlot (cells : Nat → α) (i : Nat) (data : α) : Nat → α :=
  fun j => if j = i then data else cells j

def enqueue (N : Nat) (rb : HrperfRingBuffer α) (data : α) : HrperfRingBuffer α :=
  let next := nextTail N rb.tail
  -- buffer is full, data will be lost
  if next = rb.head then rb
  else { rb with buffer := setSlot rb.buffer rb.tail data, tail := next }

/-- What a call of `kernel_write` does: append everything, append a proper prefix and
return its length, or append nothing and return a negative error. -/
inductive WriteResult where
  | all
  | short (count : Nat)
  | error (errno : Nat)
  deriving DecidableEq

/-- The bytes that `kernel_write` appends to the file. -/
def kernelWrite (result : WriteResult) (bytes : List β) : List β :=
  match result with
  | .all => bytes
  | .short count => bytes.take count
  | .error _ => []

/-- The bytes of `count` entries at `&rb->buffer[start]`. -/
def chunk (enc : α → List β) (rb : HrperfRingBuffer α) (start count : Nat) : List β :=
  (slice rb.buffer start count).flatMap enc

/-- `first` and `second` are the results of the first and second `kernel_write`;
both are ignored but for a message, and `head` advances in any case. -/
def logAndClear (N : Nat) (enc : α → List β) (first second : WriteResult)
    (rb : HrperfRingBuffer α) (file : List β) : HrperfRingBuffer α × List β :=
  let head := rb.head
  let tail := rb.tail
  if head = tail then (rb, file)
  else if head < tail then
    ({ rb with head := tail }, file ++ kernelWrite first (chunk enc rb head (tail - head)))
  else
    let file1 := file ++ kernelWrite first (chunk enc rb head (N - head))
    let file2 := if 0 < tail then file1 ++ kernelWrite second (chunk enc rb 0 tail) else file1
    ({ rb with head := tail }, file2)

/-- The entries in slots `head..tail`, circularly. -/
def contents (N : Nat) (rb : HrperfRingBuffer α) : List α :=
  window N rb.buffer rb.head (occupied N rb.head rb.tail)

theorem nextTail_lt {N tail : Nat} (h : tail < N) : nextTail N tail < N :=
  Nat.mod_lt _ (by omega)

/-- The test that `enqueue` makes says that all but one slot is in use. -/
theorem nextTail_eq_head_iff {N head tail : Nat} (hh : head < N) (ht : tail < N) :
    nextTail N tail = head ↔ occupied N head tail = N - 1 := by
  have hlt : occupied N head tail < N := occupied_lt (by omega)
  have hnext : nextTail N tail = (head + (occupied N head tail + 1)) % N := by
    rw [← next_slot, slot_occupied hh ht, nextTail]
  rw [hnext, next_eq_start_iff hh hlt]
  omega

theorem occupied_nextTail {N head tail : Nat} (hh : head < N) (ht : tail < N)
    (h : nextTail N tail ≠ head) :
    occupied N head (nextTail N tail) = occupied N head tail + 1 := by
  have hlt : occupied N head tail < N := occupied_lt (by omega)
  have hfree : occupied N head tail ≠ N - 1 := fun he => h ((nextTail_eq_head_iff hh ht).mpr he)
  have hnext : nextTail N tail = (head + (occupied N head tail + 1)) % N := by
    rw [← next_slot, slot_occupied hh ht, nextTail]
  rw [hnext, occupied_slot hh (by omega)]

/-- Writing the cell at `tail` leaves every window that ends at or before it alone. -/
theorem window_setSlot_tail {N head tail len : Nat} (cells : Nat → α) (data : α)
    (hh : head < N) (ht : tail < N) (hl : len ≤ occupied N head tail) :
    window N (setSlot cells tail data) head len = window N cells head len := by
  apply window_congr
  intro i hi
  have hlt : occupied N head tail < N := occupied_lt (by omega)
  have hne : (head + i) % N ≠ tail := by
    intro he
    have := slot_injective hh (by omega) hlt (he.trans (slot_occupied hh ht).symm)
    omega
  simp [setSlot, hne]

/-- Publishing a written cell appends it to the entries in use. -/
theorem window_publish {N head tail : Nat} (cells : Nat → α) (hh : head < N) (ht : tail < N)
    (h : nextTail N tail ≠ head) :
    window N cells head (occupied N head (nextTail N tail)) =
      window N cells head (occupied N head tail) ++ [cells tail] := by
  rw [occupied_nextTail hh ht h, window_succ, slot_occupied hh ht]

/-- Giving back the first `occupied head mid` slots leaves those from `mid` on. -/
theorem window_release {N head mid tail : Nat} (cells : Nat → α) (hh : head < N)
    (hm : mid < N) (ht : tail < N) (h : occupied N head mid ≤ occupied N head tail) :
    occupied N mid tail = occupied N head tail - occupied N head mid ∧
      window N cells head (occupied N head tail) =
        window N cells head (occupied N head mid) ++
          window N cells mid (occupied N mid tail) := by
  have hlt : occupied N head tail < N := occupied_lt (by omega)
  have htail : (mid + (occupied N head tail - occupied N head mid)) % N = tail := by
    calc (mid + (occupied N head tail - occupied N head mid)) % N
        = ((head + occupied N head mid) % N +
            (occupied N head tail - occupied N head mid)) % N := by rw [slot_occupied hh hm]
      _ = (head + occupied N head tail) % N := by
          rw [Nat.mod_add_mod, Nat.add_assoc, Nat.add_sub_cancel' h]
      _ = tail := slot_occupied hh ht
  have hrest : occupied N mid tail = occupied N head tail - occupied N head mid := by
    have hslot : occupied N mid ((mid + (occupied N head tail - occupied N head mid)) % N) =
        occupied N head tail - occupied N head mid := occupied_slot hm (by omega)
    rwa [htail] at hslot
  refine ⟨hrest, ?_⟩
  have hsum : occupied N head tail = occupied N head mid + occupied N mid tail := by omega
  rw [hsum, window_add, slot_occupied hh hm]

/-- The pieces that `log_and_clear` writes are the slots `head..tail`. -/
theorem chunk_contiguous (enc : α → List β) (rb : HrperfRingBuffer α) {N head tail : Nat}
    (ht : tail < N) (h : head < tail) :
    chunk enc rb head (tail - head) =
      (window N rb.buffer head (occupied N head tail)).flatMap enc := by
  rw [chunk, window_contiguous ht h]

theorem chunk_wraps (enc : α → List β) (rb : HrperfRingBuffer α) {N head tail : Nat}
    (hh : head < N) (h : tail < head) :
    chunk enc rb head (N - head) ++ chunk enc rb 0 tail =
      (window N rb.buffer head (occupied N head tail)).flatMap enc := by
  rw [chunk, chunk, window_wraps hh h, List.flatMap_append]

theorem contents_enqueue {N : Nat} {rb : HrperfRingBuffer α} (hh : rb.head < N)
    (ht : rb.tail < N) (data : α) :
    contents N (enqueue N rb data) =
      if (contents N rb).length < N - 1 then contents N rb ++ [data] else contents N rb := by
  have hlt : occupied N rb.head rb.tail < N := occupied_lt (by omega)
  have hiff := nextTail_eq_head_iff hh ht
  simp only [enqueue]
  split
  · rename_i hfull
    have hN := hiff.mp hfull
    rw [if_neg (by simp [contents, hN])]
  · rename_i hfree
    have hN : occupied N rb.head rb.tail ≠ N - 1 := fun h => hfree (hiff.mpr h)
    rw [if_pos (by simp [contents]; omega)]
    change window N (setSlot rb.buffer rb.tail data) rb.head
      (occupied N rb.head (nextTail N rb.tail)) = _
    rw [window_publish _ hh ht hfree, window_setSlot_tail _ _ hh ht (le_refl _)]
    simp [contents, setSlot]

@[simp] theorem logAndClear_buffer (N : Nat) (enc : α → List β) (first second : WriteResult)
    (rb : HrperfRingBuffer α) (file : List β) :
    (logAndClear N enc first second rb file).1 = { rb with head := rb.tail } := by
  cases rb
  simp only [logAndClear]
  split_ifs <;> simp_all

/-- When every write succeeds in full, the pass appends the entries in slots `head..tail`. -/
theorem logAndClear_all {N : Nat} (enc : α → List β) {rb : HrperfRingBuffer α}
    (hh : rb.head < N) (ht : rb.tail < N) (file : List β) :
    (logAndClear N enc .all .all rb file).2 = file ++ (contents N rb).flatMap enc := by
  simp only [logAndClear, kernelWrite]
  split_ifs with hempty hcontig hpos
  · simp [contents, hempty]
  · rw [chunk_contiguous enc rb ht hcontig, contents]
  · rw [List.append_assoc, chunk_wraps enc rb hh (by omega), contents]
  · have hzero : rb.tail = 0 := by omega
    have hwrap := chunk_wraps enc rb hh (show rb.tail < rb.head by omega)
    rw [contents, ← hwrap]
    simp [hzero, chunk, slice]

/-- A ring buffer whose indices are in bounds. -/
structure Ring (N : Nat) (α : Type u) extends HrperfRingBuffer α where
  head_lt : head < N
  tail_lt : tail < N

namespace Ring
variable {N : Nat}

def init (cells : Nat → α) (hN : 0 < N) : Ring N α where
  toHrperfRingBuffer := initRingBuffer cells
  head_lt := hN
  tail_lt := hN

def enqueue (r : Ring N α) (data : α) : Ring N α where
  toHrperfRingBuffer := RingBuffer.enqueue N r.toHrperfRingBuffer data
  head_lt := by
    simp only [RingBuffer.enqueue]
    split_ifs <;> exact r.head_lt
  tail_lt := by
    simp only [RingBuffer.enqueue]
    split_ifs
    · exact r.tail_lt
    · exact nextTail_lt r.tail_lt

def logAndClear (enc : α → List β) (first second : WriteResult) (r : Ring N α)
    (file : List β) : Ring N α × List β :=
  let result := RingBuffer.logAndClear N enc first second r.toHrperfRingBuffer file
  (⟨result.1, by simpa [result] using r.tail_lt, by simpa [result] using r.tail_lt⟩, result.2)

/-- What the ring is for: a bounded queue of the entries not yet logged. -/
def toFifo (r : Ring N α) : BoundedFifo (N - 1) α where
  items := contents N r.toHrperfRingBuffer
  bound := by
    have hlt : occupied N r.head r.tail < N := occupied_lt (by have := r.head_lt; omega)
    simp only [contents, length_window]
    omega

@[simp] theorem toFifo_init (cells : Nat → α) (hN : 0 < N) :
    (init cells hN).toFifo = .empty := by
  ext1
  simp [toFifo, init, initRingBuffer, contents, BoundedFifo.empty]

@[simp] theorem toFifo_enqueue (r : Ring N α) (data : α) :
    (r.enqueue data).toFifo = r.toFifo.push data := by
  ext1
  rw [BoundedFifo.push_items]
  exact contents_enqueue r.head_lt r.tail_lt data

@[simp] theorem toFifo_logAndClear (enc : α → List β) (first second : WriteResult)
    (r : Ring N α) (file : List β) :
    (r.logAndClear enc first second file).1.toFifo = .empty := by
  ext1
  simp [toFifo, logAndClear, contents, BoundedFifo.empty]

theorem isFull_iff (r : Ring N α) :
    isFull N r.toHrperfRingBuffer = true ↔ r.toFifo.items.length = N - 1 := by
  simp only [isFull, decide_eq_true_eq, toFifo, contents, length_window]
  exact nextTail_eq_head_iff r.head_lt r.tail_lt

theorem logAndClear_file (enc : α → List β) (r : Ring N α) (file : List β) :
    (r.logAndClear enc .all .all file).2 = file ++ r.toFifo.items.flatMap enc :=
  logAndClear_all enc r.head_lt r.tail_lt file

end Ring

/-! ## Indices of 32 bits -/

/-- In a ring that 32-bit indices can address, neither the addition nor the subtractions wrap
around in a way that shows. -/
theorem nextTail_word {N tail : Nat} (ht : tail < N) (hN : N ≤ 2 ^ 32) :
    (tail + 1) % 2 ^ 32 % N = nextTail N tail := by
  by_cases h : tail + 1 < 2 ^ 32
  · rw [Nat.mod_eq_of_lt h, nextTail]
  · have hfull : tail + 1 = 2 ^ 32 := by omega
    have hsize : N = 2 ^ 32 := by omega
    rw [nextTail, hfull, hsize, Nat.mod_mod]

theorem sub_word {a b : Nat} (hb : b < 2 ^ 32) (h : a < b) :
    (2 ^ 32 - a + b) % 2 ^ 32 = b - a := by
  omega

theorem size_sub_word {N head tail : Nat} (hN : N ≤ 2 ^ 32) (hh : head < N) (h : tail < head) :
    (2 ^ 32 - head + N % 2 ^ 32) % 2 ^ 32 = N - head := by
  omega

/-- The `HrperfRingBuffer` of the source, with its indices in bounds. -/
structure WordRing (N : Nat) (α : Type u) where
  buffer : Nat → α
  head : BitVec 32
  tail : BitVec 32
  head_lt : head.toNat < N
  tail_lt : tail.toNat < N

namespace WordRing
variable {N : Nat}

def init (cells : Nat → α) (hN : 0 < N) : WordRing N α := ⟨cells, 0, 0, hN, hN⟩

/-- The ring over the natural numbers that it stands for. -/
def toRing (r : WordRing N α) : Ring N α :=
  ⟨⟨r.buffer, r.head.toNat, r.tail.toNat⟩, r.head_lt, r.tail_lt⟩

/-- `(rb->tail + 1) % HRP_PMC_BUFFER_SIZE`. -/
def nextTail (r : WordRing N α) : BitVec 32 := BitVec.ofNat 32 ((r.tail + 1).toNat % N)

theorem nextTail_toNat_lt (r : WordRing N α) : r.nextTail.toNat < N := by
  have hN : 0 < N := Nat.zero_lt_of_lt r.tail_lt
  rw [nextTail, BitVec.toNat_ofNat]
  exact lt_of_le_of_lt (Nat.mod_le _ _) (Nat.mod_lt _ hN)

def enqueue (r : WordRing N α) (data : α) : WordRing N α :=
  if r.nextTail = r.head then r
  else
    { r with
      buffer := setSlot r.buffer r.tail.toNat data
      tail := r.nextTail
      tail_lt := r.nextTail_toNat_lt }

/-- The numbers of entries are differences of indices. -/
def logAndClear (enc : α → List β) (first second : WriteResult) (r : WordRing N α)
    (file : List β) : WordRing N α × List β :=
  let rb := r.toRing.toHrperfRingBuffer
  let cleared := { r with head := r.tail, head_lt := r.tail_lt }
  if r.head = r.tail then (r, file)
  else if r.head < r.tail then
    (cleared, file ++ kernelWrite first (chunk enc rb r.head.toNat (r.tail - r.head).toNat))
  else
    let file1 := file ++
      kernelWrite first (chunk enc rb r.head.toNat (BitVec.ofNat 32 N - r.head).toNat)
    let file2 := if 0 < r.tail then file1 ++ kernelWrite second (chunk enc rb 0 r.tail.toNat)
      else file1
    (cleared, file2)

@[simp] theorem toRing_init (cells : Nat → α) (hN : 0 < N) :
    (init cells hN).toRing = Ring.init cells hN := rfl

theorem nextTail_toNat (r : WordRing N α) (hN : N ≤ 2 ^ 32) :
    r.nextTail.toNat = RingBuffer.nextTail N r.tail.toNat := by
  have hsum : (r.tail + 1).toNat = (r.tail.toNat + 1) % 2 ^ 32 := BitVec.toNat_add _ _
  have hlt := RingBuffer.nextTail_lt r.tail_lt
  rw [nextTail, BitVec.toNat_ofNat, hsum, nextTail_word r.tail_lt hN]
  exact Nat.mod_eq_of_lt (by omega)

/-- Both operations are those of the ring over the natural numbers. -/
theorem toRing_enqueue (r : WordRing N α) (hN : N ≤ 2 ^ 32) (data : α) :
    (r.enqueue data).toRing = r.toRing.enqueue data := by
  have hnext := r.nextTail_toNat hN
  have hiff : r.nextTail = r.head ↔ RingBuffer.nextTail N r.tail.toNat = r.head.toNat := by
    rw [← hnext, BitVec.toNat_inj]
  by_cases hfull : r.nextTail = r.head
  · rw [enqueue, if_pos hfull]
    simp [toRing, Ring.enqueue, RingBuffer.enqueue, hiff.mp hfull]
  · rw [enqueue, if_neg hfull]
    simp [toRing, Ring.enqueue, RingBuffer.enqueue, mt hiff.mpr hfull, hnext]

theorem toRing_logAndClear (enc : α → List β) (first second : WriteResult) (r : WordRing N α)
    (hN : N ≤ 2 ^ 32) (file : List β) :
    ((r.logAndClear enc first second file).1.toRing, (r.logAndClear enc first second file).2) =
      r.toRing.logAndClear enc first second file := by
  have hempty : r.head = r.tail ↔ r.head.toNat = r.tail.toNat := BitVec.toNat_inj.symm
  have hless : r.head < r.tail ↔ r.head.toNat < r.tail.toNat := BitVec.lt_def
  have hpos : 0#32 < r.tail ↔ 0 < r.tail.toNat := BitVec.lt_def
  have hbelow : r.head.toNat < r.tail.toNat →
      (r.tail - r.head).toNat = r.tail.toNat - r.head.toNat := by
    intro h
    rw [BitVec.toNat_sub]
    exact sub_word r.tail.isLt h
  have habove : r.tail.toNat < r.head.toNat →
      (BitVec.ofNat 32 N - r.head).toNat = N - r.head.toNat := by
    intro h
    rw [BitVec.toNat_sub, BitVec.toNat_ofNat]
    exact size_sub_word hN r.head_lt h
  by_cases hsame : r.head = r.tail
  · simp [logAndClear, Ring.logAndClear, RingBuffer.logAndClear, toRing, hsame]
  have hne : r.head.toNat ≠ r.tail.toNat := mt hempty.mpr hsame
  by_cases hlt : r.head < r.tail
  · have hcount := hbelow (hless.mp hlt)
    simp [logAndClear, Ring.logAndClear, RingBuffer.logAndClear, toRing, hsame, hne, hlt,
      hless.mp hlt, hcount]
  · have hnlt := mt hless.mpr hlt
    have hcount := habove (by omega)
    simp [logAndClear, Ring.logAndClear, RingBuffer.logAndClear, toRing, hsame, hne, hlt, hnlt,
      hcount, hpos]

/-- What the operations do to the entries that are not yet logged. -/
theorem toFifo_enqueue (r : WordRing N α) (hN : N ≤ 2 ^ 32) (data : α) :
    (r.enqueue data).toRing.toFifo = r.toRing.toFifo.push data := by
  rw [toRing_enqueue r hN, Ring.toFifo_enqueue]

theorem toFifo_logAndClear (enc : α → List β) (r : WordRing N α) (hN : N ≤ 2 ^ 32)
    (file : List β) :
    (r.logAndClear enc .all .all file).1.toRing.toFifo = .empty ∧
      (r.logAndClear enc .all .all file).2 = file ++ r.toRing.toFifo.items.flatMap enc := by
  have hboth := toRing_logAndClear enc .all .all r hN file
  have hring : (r.logAndClear enc .all .all file).1.toRing = (r.toRing.logAndClear enc .all .all
      file).1 := congrArg Prod.fst hboth
  have hfile : (r.logAndClear enc .all .all file).2 = (r.toRing.logAndClear enc .all .all
      file).2 := congrArg Prod.snd hboth
  rw [hring, hfile, Ring.toFifo_logAndClear, Ring.logAndClear_file]
  exact ⟨rfl, rfl⟩

end WordRing

end RingBuffer
