import Mathlib.Data.List.Range

/-!
# Windows of a circular array

A window is given by a start index and a length; slot `i` of it is the array
cell `(start + i) % N`. An array of `N` cells with a head and a tail index holds
the window from the head of length `occupied N head tail < N`, so at most
`N - 1` cells are in use and equal indices mean an empty window.
-/

namespace CircularWindow

universe u
variable {α : Type u} {N : Nat}

/-- Consecutive cells, without wrap-around. -/
def slice (cells : Nat → α) (start len : Nat) : List α :=
  (List.range len).map (fun i => cells (start + i))

def window (N : Nat) (cells : Nat → α) (start len : Nat) : List α :=
  (List.range len).map (fun i => cells ((start + i) % N))

def occupied (N head tail : Nat) : Nat := (tail + N - head) % N

@[simp] theorem length_slice (cells : Nat → α) (start len : Nat) :
    (slice cells start len).length = len := by
  simp [slice]

@[simp] theorem length_window (cells : Nat → α) (start len : Nat) :
    (window N cells start len).length = len := by
  simp [window]

@[simp] theorem window_zero (cells : Nat → α) (start : Nat) : window N cells start 0 = [] := rfl

/-- Below `2 * N` the remainder is a single conditional subtraction. -/
theorem mod_of_lt_two_mul {a : Nat} (h : a < 2 * N) :
    a % N = if a < N then a else a - N := by
  split
  · rename_i hlt
    exact Nat.mod_eq_of_lt hlt
  · rename_i hge
    rw [Nat.mod_eq_sub_mod (by omega), Nat.mod_eq_of_lt (by omega)]

theorem slot_injective {start i j : Nat} (hs : start < N) (hi : i < N) (hj : j < N)
    (h : (start + i) % N = (start + j) % N) : i = j := by
  rw [mod_of_lt_two_mul (show start + i < 2 * N by omega),
    mod_of_lt_two_mul (show start + j < 2 * N by omega)] at h
  split_ifs at h <;> omega

theorem occupied_slot {head len : Nat} (hh : head < N) (hl : len < N) :
    occupied N head ((head + len) % N) = len := by
  rw [occupied, mod_of_lt_two_mul (show head + len < 2 * N by omega)]
  split_ifs
  · rw [show head + len + N - head = len + N by omega, Nat.add_mod_right, Nat.mod_eq_of_lt hl]
  · rw [show head + len - N + N - head = len by omega, Nat.mod_eq_of_lt hl]

theorem occupied_lt {head tail : Nat} (hN : 0 < N) : occupied N head tail < N :=
  Nat.mod_lt _ hN

theorem slot_occupied {head tail : Nat} (hh : head < N) (ht : tail < N) :
    (head + occupied N head tail) % N = tail := by
  rw [occupied, mod_of_lt_two_mul (show tail + N - head < 2 * N by omega)]
  split_ifs
  · rw [show head + (tail + N - head) = tail + N by omega, Nat.add_mod_right,
      Nat.mod_eq_of_lt ht]
  · rw [show head + (tail + N - head - N) = tail by omega, Nat.mod_eq_of_lt ht]

@[simp] theorem occupied_self {head : Nat} : occupied N head head = 0 := by
  simp [occupied]

theorem next_slot {start i : Nat} : ((start + i) % N + 1) % N = (start + (i + 1)) % N := by
  rw [Nat.mod_add_mod, Nat.add_assoc]

/-- The successor of the last used cell is the first one exactly when one cell is free. -/
theorem next_eq_start_iff {start len : Nat} (hs : start < N) (hl : len < N) :
    (start + (len + 1)) % N = start ↔ len + 1 = N := by
  constructor
  · intro h
    by_contra hne
    have h0 : (start + (len + 1)) % N = (start + 0) % N := by
      simpa [Nat.mod_eq_of_lt hs] using h
    have := slot_injective hs (by omega) (by omega) h0
    omega
  · intro h
    rw [h, Nat.add_mod_right, Nat.mod_eq_of_lt hs]

theorem window_succ (cells : Nat → α) (start len : Nat) :
    window N cells start (len + 1) = window N cells start len ++ [cells ((start + len) % N)] := by
  simp [window, List.range_succ]

theorem window_add (cells : Nat → α) (start k len : Nat) :
    window N cells start (k + len) =
      window N cells start k ++ window N cells ((start + k) % N) len := by
  induction len with
  | zero => simp
  | succ len ih =>
    rw [← Nat.add_assoc, window_succ, ih, window_succ, List.append_assoc, Nat.mod_add_mod,
      Nat.add_assoc]

theorem window_congr {cells cells' : Nat → α} {start len : Nat}
    (h : ∀ i, i < len → cells ((start + i) % N) = cells' ((start + i) % N)) :
    window N cells start len = window N cells' start len := by
  apply List.map_congr_left
  intro i hi
  exact h i (List.mem_range.mp hi)

theorem window_eq_slice {cells : Nat → α} {start len : Nat} (h : start + len ≤ N) :
    window N cells start len = slice cells start len := by
  apply List.map_congr_left
  intro i hi
  have := List.mem_range.mp hi
  rw [Nat.mod_eq_of_lt (by omega)]

theorem occupied_contiguous {head tail : Nat} (ht : tail < N) (h : head < tail) :
    occupied N head tail = tail - head := by
  rw [occupied, show tail + N - head = (tail - head) + N by omega, Nat.add_mod_right,
    Nat.mod_eq_of_lt (by omega)]

theorem occupied_wraps {head tail : Nat} (hh : head < N) (h : tail < head) :
    occupied N head tail = (N - head) + tail := by
  rw [occupied, Nat.mod_eq_of_lt (by omega)]
  omega

/-- A nonempty window whose end index lies above its start is contiguous. -/
theorem window_contiguous {cells : Nat → α} {head tail : Nat} (ht : tail < N)
    (h : head < tail) :
    window N cells head (occupied N head tail) = slice cells head (tail - head) := by
  rw [occupied_contiguous ht h, window_eq_slice (by omega)]

/-- A nonempty window whose end index lies below its start is two contiguous pieces. -/
theorem window_wraps {cells : Nat → α} {head tail : Nat} (hh : head < N)
    (h : tail < head) :
    window N cells head (occupied N head tail) =
      slice cells head (N - head) ++ slice cells 0 tail := by
  rw [occupied_wraps hh h, window_add, window_eq_slice (by omega),
    show head + (N - head) = N by omega, Nat.mod_self, window_eq_slice (by omega)]

/-- A queue that keeps at most `cap` items and refuses new ones when it is full. -/
structure BoundedFifo (cap : Nat) (α : Type u) where
  items : List α
  bound : items.length ≤ cap

namespace BoundedFifo
variable {cap : Nat}

@[ext] theorem ext {q r : BoundedFifo cap α} (h : q.items = r.items) : q = r := by
  cases q
  cases r
  cases h
  rfl

def empty : BoundedFifo cap α := ⟨[], Nat.zero_le _⟩

def push (q : BoundedFifo cap α) (a : α) : BoundedFifo cap α :=
  if h : q.items.length < cap then ⟨q.items ++ [a], by rw [List.length_append]; exact h⟩ else q

theorem push_items (q : BoundedFifo cap α) (a : α) :
    (q.push a).items = if q.items.length < cap then q.items ++ [a] else q.items := by
  rw [push]
  split <;> rfl

theorem mem_push_self {q : BoundedFifo cap α} {a : α} (h : q.items.length ≠ cap) :
    a ∈ (q.push a).items := by
  have hlt : q.items.length < cap := Nat.lt_of_le_of_ne q.bound h
  simp [push_items, hlt]

end BoundedFifo

end CircularWindow
