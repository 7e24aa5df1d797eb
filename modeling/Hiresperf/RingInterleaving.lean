import Hiresperf.Foundation.StepMachine
import Hiresperf.RingBuffer

/-!
# One producer and one consumer on a ring

`enqueue` and `log_and_clear` cut into their accesses to shared memory, in any
interleaving. The store of an entry is a structure copy and not atomic: it is
two steps here, and between them the slot holds an arbitrary value. Release and
acquire ordering is assumed to make the steps sequentially consistent.

`accepted` and `dropped` are histories that the code does not keep: an entry is
accepted when its tail is published, and dropped when the ring is found full.
-/

namespace RingInterleaving

open CircularWindow RingBuffer StepMachine

universe u v
variable {α : Type u} {β : Type v}

/-- Where `enqueue` stands, with its argument and its local `next_tail`. -/
inductive Producer (α : Type u) where
  | idle
  | tailRead (data : α) (next : Nat)
  | headRead (data : α) (next : Nat)
  | copying (data : α) (next : Nat)
  | copied (data : α) (next : Nat)

/-- Where `log_and_clear` stands, with its locals `head` and `tail`. -/
inductive Consumer where
  | idle
  | headRead (head : Nat)
  | tailRead (head tail : Nat)
  | firstWritten (head tail : Nat)
  | written (head tail : Nat)
  deriving DecidableEq

structure Channel (α : Type u) where
  rb : HrperfRingBuffer α
  producer : Producer α
  consumer : Consumer
  accepted : List α
  dropped : List α

def Channel.init (cells : Nat → α) : Channel α :=
  ⟨initRingBuffer cells, .idle, .idle, [], []⟩

/-- One step of the producer. `x` is the entry of a new call, and otherwise the value
that a half-done structure copy leaves in the slot. -/
def produce (N : Nat) (c : Channel α) (x : α) : Channel α :=
  match c.producer with
  | .idle => { c with producer := .tailRead x (nextTail N c.rb.tail) }
  | .tailRead data next =>
    if next = c.rb.head then { c with producer := .idle, dropped := c.dropped ++ [data] }
    else { c with producer := .headRead data next }
  | .headRead data next =>
    { c with
      rb := { c.rb with buffer := setSlot c.rb.buffer c.rb.tail x }
      producer := .copying data next }
  | .copying data next =>
    { c with
      rb := { c.rb with buffer := setSlot c.rb.buffer c.rb.tail data }
      producer := .copied data next }
  | .copied data next =>
    { c with
      rb := { c.rb with tail := next }
      producer := .idle
      accepted := c.accepted ++ [data] }

/-- One step of the consumer, with the entries that it hands to `kernel_write`. -/
def consume (N : Nat) (c : Channel α) : Channel α × List α :=
  match c.consumer with
  | .idle => ({ c with consumer := .headRead c.rb.head }, [])
  | .headRead head =>
    if head = c.rb.tail then ({ c with consumer := .idle }, [])
    else ({ c with consumer := .tailRead head c.rb.tail }, [])
  | .tailRead head tail =>
    if head < tail then
      ({ c with consumer := .written head tail }, slice c.rb.buffer head (tail - head))
    else if 0 < tail then
      ({ c with consumer := .firstWritten head tail }, slice c.rb.buffer head (N - head))
    else
      ({ c with consumer := .written head tail }, slice c.rb.buffer head (N - head))
  | .firstWritten head tail =>
    ({ c with consumer := .written head tail }, slice c.rb.buffer 0 tail)
  | .written _ tail =>
    ({ c with rb := { c.rb with head := tail }, consumer := .idle }, [])

/-- The slots that the consumer has taken a snapshot of and not given back yet. -/
def Consumer.snapshot : Consumer → Option (Nat × Nat)
  | .idle => none
  | .headRead _ => none
  | .tailRead head tail => some (head, tail)
  | .firstWritten head tail => some (head, tail)
  | .written head tail => some (head, tail)

def ProducerOk (N : Nat) (rb : HrperfRingBuffer α) : Producer α → Prop
  | .idle => True
  | .tailRead _ next => next = nextTail N rb.tail
  | .headRead _ next => next = nextTail N rb.tail ∧ next ≠ rb.head
  | .copying _ next => next = nextTail N rb.tail ∧ next ≠ rb.head
  | .copied data next => next = nextTail N rb.tail ∧ next ≠ rb.head ∧ rb.buffer rb.tail = data

/-- A snapshot starts at the current head and ends at or before the current tail. -/
def SnapshotOk (N : Nat) (rb : HrperfRingBuffer α) (head tail : Nat) : Prop :=
  head = rb.head ∧ tail < N ∧ head ≠ tail ∧ occupied N head tail ≤ occupied N rb.head rb.tail

def ConsumerOk (N : Nat) (rb : HrperfRingBuffer α) : Consumer → Prop
  | .idle => True
  | .headRead head => head = rb.head
  | .tailRead head tail => SnapshotOk N rb head tail
  | .firstWritten head tail => SnapshotOk N rb head tail ∧ tail < head
  | .written head tail => SnapshotOk N rb head tail

/-- `released` are the accepted entries whose slots have been given back. -/
structure Inv (N : Nat) (c : Channel α) (released : List α) : Prop where
  head_lt : c.rb.head < N
  tail_lt : c.rb.tail < N
  accepted : c.accepted = released ++ contents N c.rb
  producer : ProducerOk N c.rb c.producer
  consumer : ConsumerOk N c.rb c.consumer

/-- The entries of the current pass that have been written and not given back. -/
def logged (N : Nat) (c : Channel α) : List α :=
  match c.consumer with
  | .idle => []
  | .headRead _ => []
  | .tailRead _ _ => []
  | .firstWritten head _ => slice c.rb.buffer head (N - head)
  | .written head tail => window N c.rb.buffer head (occupied N head tail)

theorem init_inv {N : Nat} (hN : 0 < N) (cells : Nat → α) : Inv N (Channel.init cells) [] where
  head_lt := hN
  tail_lt := hN
  accepted := by simp [Channel.init, initRingBuffer, contents]
  producer := trivial
  consumer := trivial

theorem ConsumerOk.snapshot {N : Nat} {rb : HrperfRingBuffer α} {consumer : Consumer}
    {head tail : Nat} (h : ConsumerOk N rb consumer)
    (hs : consumer.snapshot = some (head, tail)) : SnapshotOk N rb head tail := by
  cases consumer with
  | idle => cases hs
  | headRead _ => cases hs
  | tailRead _ _ => cases hs; exact h
  | firstWritten _ _ => cases hs; exact h.1
  | written _ _ => cases hs; exact h

/-- The consumer's position depends on the indices only, and survives a later tail. -/
theorem ConsumerOk.advance {N : Nat} {rb rb' : HrperfRingBuffer α} {consumer : Consumer}
    (h : ConsumerOk N rb consumer) (head : rb'.head = rb.head)
    (grows : occupied N rb.head rb.tail ≤ occupied N rb'.head rb'.tail) :
    ConsumerOk N rb' consumer := by
  have snapshot : ∀ a b, SnapshotOk N rb a b → SnapshotOk N rb' a b := by
    rintro a b ⟨ha, hb, hne, hle⟩
    exact ⟨ha.trans head.symm, hb, hne, hle.trans grows⟩
  cases consumer with
  | idle => trivial
  | headRead a => exact Eq.trans h head.symm
  | tailRead a b => exact snapshot a b h
  | firstWritten a b => exact ⟨snapshot a b h.1, h.2⟩
  | written a b => exact snapshot a b h

/-- A store into the slot at `tail` touches neither the entries in use nor the snapshot. -/
theorem store_window {N : Nat} {c : Channel α} {released : List α} (h : Inv N c released)
    (x : α) {len : Nat} (hl : len ≤ occupied N c.rb.head c.rb.tail) :
    window N (setSlot c.rb.buffer c.rb.tail x) c.rb.head len =
      window N c.rb.buffer c.rb.head len :=
  window_setSlot_tail _ _ h.head_lt h.tail_lt hl

theorem store_logged {N : Nat} {c : Channel α} {released : List α} (h : Inv N c released)
    (x : α) (producer : Producer α) :
    logged N { c with
      rb := { c.rb with buffer := setSlot c.rb.buffer c.rb.tail x }
      producer := producer } = logged N c := by
  have hc := h.consumer
  cases hpc : c.consumer with
  | idle => simp [logged, hpc]
  | headRead _ => simp [logged, hpc]
  | tailRead _ _ => simp [logged, hpc]
  | firstWritten head tail =>
    rw [hpc] at hc
    obtain ⟨⟨rfl, ht, hne, hle⟩, hlt⟩ := hc
    have hh := h.head_lt
    rw [occupied_wraps hh hlt] at hle
    simp only [logged, hpc]
    rw [← window_eq_slice (N := N) (by omega), ← window_eq_slice (N := N) (by omega)]
    exact store_window h x (by omega)
  | written head tail =>
    rw [hpc] at hc
    obtain ⟨rfl, ht, hne, hle⟩ := hc
    simp only [logged, hpc]
    exact store_window h x hle

theorem store_inv {N : Nat} {c : Channel α} {released : List α} (h : Inv N c released)
    (x : α) {producer : Producer α}
    (hp : ProducerOk N { c.rb with buffer := setSlot c.rb.buffer c.rb.tail x } producer) :
    Inv N { c with
      rb := { c.rb with buffer := setSlot c.rb.buffer c.rb.tail x }
      producer := producer } released where
  head_lt := h.head_lt
  tail_lt := h.tail_lt
  accepted := by
    rw [h.accepted]
    congr 1
    exact (store_window h x (le_refl _)).symm
  producer := hp
  consumer := h.consumer.advance rfl (le_refl _)

/-- What a step of the producer preserves, whatever the consumer is doing. -/
theorem produce_inv {N : Nat} {c : Channel α} {released : List α} (h : Inv N c released)
    (x : α) : Inv N (produce N c x) released ∧ logged N (produce N c x) = logged N c := by
  have hp := h.producer
  cases hpc : c.producer with
  | idle =>
    simp only [produce, hpc]
    exact ⟨⟨h.head_lt, h.tail_lt, h.accepted, rfl, h.consumer⟩, rfl⟩
  | tailRead data next =>
    rw [hpc] at hp
    simp only [produce, hpc]
    split
    · exact ⟨⟨h.head_lt, h.tail_lt, h.accepted, trivial, h.consumer⟩, rfl⟩
    · rename_i hne
      exact ⟨⟨h.head_lt, h.tail_lt, h.accepted, ⟨hp, hne⟩, h.consumer⟩, rfl⟩
  | headRead data next =>
    rw [hpc] at hp
    simp only [produce, hpc]
    exact ⟨store_inv h x hp, store_logged h x _⟩
  | copying data next =>
    rw [hpc] at hp
    simp only [produce, hpc]
    exact ⟨store_inv h data ⟨hp.1, hp.2, by simp [setSlot]⟩, store_logged h data _⟩
  | copied data next =>
    rw [hpc] at hp
    obtain ⟨rfl, hne, hdata⟩ := hp
    simp only [produce, hpc]
    refine ⟨⟨h.head_lt, nextTail_lt h.tail_lt, ?_, trivial, ?_⟩, rfl⟩
    · change c.accepted ++ [data] =
        released ++ window N c.rb.buffer c.rb.head (occupied N c.rb.head (nextTail N c.rb.tail))
      rw [h.accepted, window_publish _ h.head_lt h.tail_lt hne, hdata, List.append_assoc]
      rfl
    · refine h.consumer.advance ?_ ?_
      · rfl
      · have := occupied_nextTail h.head_lt h.tail_lt hne
        simp only
        omega

/-- Giving slots back leaves the producer's free slot free. -/
theorem ProducerOk.release {N : Nat} {rb : HrperfRingBuffer α} {producer : Producer α}
    {tail : Nat} (h : ProducerOk N rb producer) (hh : rb.head < N) (ht : rb.tail < N)
    (hs : SnapshotOk N rb rb.head tail) : ProducerOk N { rb with head := tail } producer := by
  obtain ⟨-, hlt, hne, hle⟩ := hs
  have hpos : 0 < occupied N rb.head tail := by
    by_contra hz
    have hzero : occupied N rb.head tail = 0 := by omega
    have hslot := slot_occupied hh hlt
    rw [hzero, Nat.add_zero, Nat.mod_eq_of_lt hh] at hslot
    exact hne hslot
  have hfree : nextTail N rb.tail ≠ tail := by
    intro he
    have hrest := (window_release rb.buffer hh hlt ht hle).1
    have hfull := (nextTail_eq_head_iff hlt ht).mp he
    have hbound : occupied N rb.head rb.tail < N := occupied_lt (by omega)
    omega
  cases producer with
  | idle => trivial
  | tailRead data next => exact h
  | headRead data next => exact ⟨h.1, h.1 ▸ hfree⟩
  | copying data next => exact ⟨h.1, h.1 ▸ hfree⟩
  | copied data next => exact ⟨h.1, h.1 ▸ hfree, h.2.2⟩

/-- What a step of the consumer preserves: the entries it hands to `kernel_write` extend
those of the pass, and only a finished pass gives slots back. -/
theorem consume_inv {N : Nat} {c : Channel α} {released : List α} (h : Inv N c released) :
    ∃ released', Inv N (consume N c).1 released' ∧
      released' ++ logged N (consume N c).1 = released ++ logged N c ++ (consume N c).2 := by
  have hc := h.consumer
  cases hpc : c.consumer with
  | idle =>
    refine ⟨released, ?_, ?_⟩
    · simp only [consume, hpc]
      exact ⟨h.head_lt, h.tail_lt, h.accepted, h.producer, rfl⟩
    · simp [consume, logged, hpc]
  | headRead head =>
    rw [hpc] at hc
    have heq : head = c.rb.head := hc
    refine ⟨released, ?_, ?_⟩
    · simp only [consume, hpc]
      split
      · exact ⟨h.head_lt, h.tail_lt, h.accepted, h.producer, trivial⟩
      · rename_i hne
        exact ⟨h.head_lt, h.tail_lt, h.accepted, h.producer,
          heq, h.tail_lt, hne, by rw [heq]⟩
    · simp only [consume, hpc]
      split <;> simp [logged, hpc]
  | tailRead head tail =>
    rw [hpc] at hc
    have hh : head < N := hc.1 ▸ h.head_lt
    refine ⟨released, ?_, ?_⟩
    · simp only [consume, hpc]
      split_ifs
      · exact ⟨h.head_lt, h.tail_lt, h.accepted, h.producer, hc⟩
      · exact ⟨h.head_lt, h.tail_lt, h.accepted, h.producer, hc, by have := hc.2.2.1; omega⟩
      · exact ⟨h.head_lt, h.tail_lt, h.accepted, h.producer, hc⟩
    · simp only [consume, hpc]
      split_ifs with hlt hpos
      · simp [logged, hpc, window_contiguous hc.2.1 hlt]
      · simp [logged, hpc]
      · have hzero : tail = 0 := by omega
        have hback : tail < head := by have := hc.2.2.1; omega
        subst hzero
        simp [logged, hpc, window_wraps hh hback, slice]
  | firstWritten head tail =>
    rw [hpc] at hc
    have hh : head < N := hc.1.1 ▸ h.head_lt
    refine ⟨released, ?_, ?_⟩
    · simp only [consume, hpc]
      exact ⟨h.head_lt, h.tail_lt, h.accepted, h.producer, hc.1⟩
    · simp [consume, logged, hpc, window_wraps hh hc.2]
  | written head tail =>
    rw [hpc] at hc
    obtain ⟨rfl, hlt, hne, hle⟩ := hc
    have hrel := window_release c.rb.buffer h.head_lt hlt h.tail_lt hle
    refine ⟨released ++ window N c.rb.buffer c.rb.head (occupied N c.rb.head tail), ?_, ?_⟩
    · simp only [consume, hpc]
      refine ⟨hlt, h.tail_lt, ?_, ?_, trivial⟩
      · change c.accepted = _ ++ window N c.rb.buffer tail (occupied N tail c.rb.tail)
        rw [h.accepted, contents, hrel.2, List.append_assoc]
      · exact h.producer.release h.head_lt h.tail_lt ⟨rfl, hlt, hne, hle⟩
    · simp [consume, logged, hpc]

theorem logged_subset {N : Nat} {c : Channel α} {released : List α} (h : Inv N c released)
    {e : α} (he : e ∈ logged N c) : e ∈ contents N c.rb := by
  have hc := h.consumer
  have hprefix : ∀ k, k ≤ occupied N c.rb.head c.rb.tail →
      e ∈ window N c.rb.buffer c.rb.head k → e ∈ contents N c.rb := by
    intro k hk hmem
    rw [contents, ← Nat.add_sub_cancel' hk, window_add]
    exact List.mem_append_left _ hmem
  cases hpc : c.consumer with
  | idle => simp [logged, hpc] at he
  | headRead _ => simp [logged, hpc] at he
  | tailRead _ _ => simp [logged, hpc] at he
  | firstWritten head tail =>
    rw [hpc] at hc
    obtain ⟨⟨rfl, ht, hne, hle⟩, hlt⟩ := hc
    have hh := h.head_lt
    rw [occupied_wraps hh hlt] at hle
    simp only [logged, hpc] at he
    rw [← window_eq_slice (N := N) (by omega)] at he
    exact hprefix _ (by omega) he
  | written head tail =>
    rw [hpc] at hc
    obtain ⟨rfl, ht, hne, hle⟩ := hc
    simp only [logged, hpc] at he
    exact hprefix _ hle he

theorem produce_accepted (N : Nat) (c : Channel α) (x : α) :
    c.accepted ⊆ (produce N c x).accepted := by
  cases hpc : c.producer with
  | idle => simp [produce, hpc]
  | tailRead data next =>
    simp only [produce, hpc]
    split_ifs <;> simp
  | headRead data next => simp [produce, hpc]
  | copying data next => simp [produce, hpc]
  | copied data next => simp [produce, hpc]

@[simp] theorem consume_accepted (N : Nat) (c : Channel α) :
    (consume N c).1.accepted = c.accepted := by
  simp only [consume]
  split
  · rfl
  · split_ifs <;> rfl
  · split_ifs <;> rfl
  · rfl
  · rfl

@[simp] theorem produce_consumer (N : Nat) (c : Channel α) (x : α) :
    (produce N c x).consumer = c.consumer := by
  cases hpc : c.producer with
  | idle => simp [produce, hpc]
  | tailRead data next =>
    simp only [produce, hpc]
    split_ifs <;> rfl
  | headRead data next => simp [produce, hpc]
  | copying data next => simp [produce, hpc]
  | copied data next => simp [produce, hpc]

@[simp] theorem consume_producer (N : Nat) (c : Channel α) :
    (consume N c).1.producer = c.producer := by
  simp only [consume]
  split
  · rfl
  · split_ifs <;> rfl
  · split_ifs <;> rfl
  · rfl
  · rfl

/-- The entries handed to `kernel_write` have all been accepted. -/
theorem consume_entries {N : Nat} {c : Channel α} {released : List α} (h : Inv N c released)
    {e : α} (he : e ∈ (consume N c).2) : e ∈ c.accepted := by
  obtain ⟨released', hinv, heq⟩ := consume_inv h
  have hmem : e ∈ released' ++ logged N (consume N c).1 := by
    rw [heq]
    exact List.mem_append_right _ he
  rw [← consume_accepted N c, hinv.accepted]
  rcases List.mem_append.mp hmem with hold | hnew
  · exact List.mem_append_left _ hold
  · exact List.mem_append_right _ (logged_subset hinv hnew)

/-- Any number of calls on one ring, logging to one file. -/
structure Spsc (α : Type u) (β : Type v) where
  channel : Channel α
  file : List β

inductive Action (α : Type u) where
  | produce (x : α)
  | consume

def Spsc.produce (N : Nat) (s : Spsc α β) (x : α) : Spsc α β :=
  { s with channel := RingInterleaving.produce N s.channel x }

def Spsc.consume (N : Nat) (enc : α → List β) (result : WriteResult) (s : Spsc α β) :
    Spsc α β where
  channel := (RingInterleaving.consume N s.channel).1
  file := s.file ++
    kernelWrite result ((RingInterleaving.consume N s.channel).2.flatMap enc)

/-- Every `kernel_write` appends all the bytes that it is given. -/
def spsc (N : Nat) (enc : α → List β) (cells : Nat → α) : Machine (Spsc α β) (Action α) where
  init := ⟨Channel.init cells, []⟩
  step s a := match a with
    | .produce x => some (s.produce N x)
    | .consume => some (s.consume N enc .all)

def SpscInv (N : Nat) (enc : α → List β) (s : Spsc α β) : Prop :=
  ∃ released, Inv N s.channel released ∧
    s.file = (released ++ logged N s.channel).flatMap enc

theorem spsc_inv {N : Nat} (hN : 0 < N) (enc : α → List β) (cells : Nat → α) {s : Spsc α β}
    (h : Reachable (spsc N enc cells) s) : SpscInv N enc s := by
  refine h.invariant ⟨[], init_inv hN cells, rfl⟩ ?_
  rintro s a t ⟨released, hinv, hfile⟩ - hstep
  cases a with
  | produce x =>
    have ht : t = s.produce N x := (Option.some.inj hstep).symm
    obtain ⟨hnext, hlogged⟩ := produce_inv hinv x
    subst ht
    refine ⟨released, hnext, ?_⟩
    change s.file = (released ++ logged N (produce N s.channel x)).flatMap enc
    rw [hlogged, hfile]
  | consume =>
    have ht : t = s.consume N enc .all := (Option.some.inj hstep).symm
    obtain ⟨released', hnext, hentries⟩ := consume_inv hinv
    subst ht
    refine ⟨released', hnext, ?_⟩
    change s.file ++ (consume N s.channel).2.flatMap enc =
      (released' ++ logged N (consume N s.channel).1).flatMap enc
    rw [hentries, List.flatMap_append, hfile]

/-- The producer stores into the slot at `tail` only. -/
theorem produce_frame (N : Nat) (c : Channel α) (x : α) {j : Nat} (hj : j ≠ c.rb.tail) :
    (produce N c x).rb.buffer j = c.rb.buffer j := by
  cases hpc : c.producer with
  | idle => simp only [produce, hpc]
  | tailRead data next =>
    simp only [produce, hpc]
    split_ifs <;> rfl
  | headRead data next => simp [produce, hpc, setSlot, hj]
  | copying data next => simp [produce, hpc, setSlot, hj]
  | copied data next => simp only [produce, hpc]

/-- The slot at `tail` is not one of those that the consumer is copying. -/
theorem snapshot_slot_ne {N : Nat} {c : Channel α} {released : List α} (h : Inv N c released)
    {head tail : Nat} (hs : c.consumer.snapshot = some (head, tail)) {i : Nat}
    (hi : i < occupied N head tail) : (head + i) % N ≠ c.rb.tail := by
  obtain ⟨rfl, ht, hne, hle⟩ := h.consumer.snapshot hs
  intro he
  have hN := h.head_lt
  have hlt : occupied N c.rb.head c.rb.tail < N := occupied_lt (by omega)
  have := slot_injective hN (by omega) hlt (he.trans (slot_occupied hN h.tail_lt).symm)
  omega

/-- An entry is dropped by the step that reads `head`, when all but one slot is in use. -/
theorem produce_drops_iff {N : Nat} {c : Channel α} {released : List α} (h : Inv N c released)
    (x : α) :
    (produce N c x).dropped ≠ c.dropped ↔
      ∃ data next, c.producer = .tailRead data next ∧ (contents N c.rb).length = N - 1 := by
  have hlen : (contents N c.rb).length = occupied N c.rb.head c.rb.tail := by simp [contents]
  have hiff := nextTail_eq_head_iff h.head_lt h.tail_lt
  have hp := h.producer
  cases hpc : c.producer with
  | idle => simp [produce, hpc]
  | tailRead data next =>
    rw [hpc] at hp
    have hnext : next = nextTail N c.rb.tail := hp
    simp only [produce, hpc, hnext, hlen, ← hiff]
    split_ifs with hfull
    · simp [hfull]
    · simp [hfull]
  | headRead data next => simp [produce, hpc]
  | copying data next => simp [produce, hpc]
  | copied data next => simp [produce, hpc]

/-- The additions and subtractions of the two threads are on 32 bits, which makes no difference for
a ring that such indices can address. -/
theorem Inv.word_arithmetic {N : Nat} {c : Channel α} {released : List α} (h : Inv N c released)
    (hN : N ≤ 2 ^ 32) :
    (c.rb.tail + 1) % 2 ^ 32 % N = nextTail N c.rb.tail ∧
    ∀ head tail, c.consumer.snapshot = some (head, tail) →
      (head < tail → (2 ^ 32 - head + tail) % 2 ^ 32 = tail - head) ∧
      (tail < head → (2 ^ 32 - head + N % 2 ^ 32) % 2 ^ 32 = N - head) := by
  refine ⟨nextTail_word h.tail_lt hN, fun head tail hs => ?_⟩
  obtain ⟨rfl, ht, -, -⟩ := h.consumer.snapshot hs
  exact ⟨sub_word (by omega), size_sub_word hN h.head_lt⟩

/-- One producer and one consumer, in any interleaving: the indices stay in bounds;
whenever the consumer is idle the file and the slots `head..tail` together hold the
accepted entries in order; the producer stores into no slot that is being copied; and an
entry is dropped exactly when `N - 1` entries are unread as `head` is read. -/
theorem ring_interleaving_exact {N : Nat} (hN : 1 ≤ N) (enc : α → List β) (cells : Nat → α)
    {s : Spsc α β} (h : Reachable (spsc N enc cells) s) :
    (s.channel.rb.head < N ∧ s.channel.rb.tail < N) ∧
    (s.channel.consumer = .idle → ∃ written, s.file = written.flatMap enc ∧
      written ++ contents N s.channel.rb = s.channel.accepted) ∧
    (∀ head tail, s.channel.consumer.snapshot = some (head, tail) →
      ∀ i, i < occupied N head tail → (head + i) % N ≠ s.channel.rb.tail ∧
        ∀ x, (produce N s.channel x).rb.buffer ((head + i) % N) =
          s.channel.rb.buffer ((head + i) % N)) ∧
    (∀ x, (produce N s.channel x).dropped ≠ s.channel.dropped ↔
      ∃ data next, s.channel.producer = .tailRead data next ∧
        (contents N s.channel.rb).length = N - 1) := by
  obtain ⟨released, hinv, hfile⟩ := spsc_inv hN enc cells h
  refine ⟨⟨hinv.head_lt, hinv.tail_lt⟩, ?_, ?_, ?_⟩
  · intro hidle
    refine ⟨released, ?_, hinv.accepted.symm⟩
    simpa [logged, hidle] using hfile
  · intro head tail hs i hi
    have hne := snapshot_slot_ne hinv hs hi
    exact ⟨hne, fun x => produce_frame N s.channel x hne⟩
  · intro x
    exact produce_drops_iff hinv x

/-- The steps of a call that finds room, with `99` in the slot halfway through the copy. -/
def enqueueCall (x : Nat) : List (Action Nat) :=
  [.produce x, .produce 0, .produce 99, .produce 0, .produce 0]

/-- Five entries offered to a ring of three slots while a pass is under way: the pass
wraps around, and one entry is dropped. -/
def wrapTrace : List (Action Nat) :=
  List.flatten [enqueueCall 10, enqueueCall 11, List.replicate 4 .consume, enqueueCall 12,
    enqueueCall 13, [.consume, .consume], [.produce 14, .produce 0], List.replicate 3 .consume]

theorem ring_interleaving_wraps :
    ∃ s, Reachable (spsc 3 (fun e => [e]) (fun _ => 0)) s ∧
      s.channel.consumer = .idle ∧ s.file = [10, 11, 12, 13] ∧ s.channel.dropped = [14] ∧
      s.channel.rb.head < 3 ∧ ∃ written, s.file = written.flatMap (fun e => [e]) ∧
        written ++ contents 3 s.channel.rb = s.channel.accepted := by
  obtain ⟨s, hs, hp⟩ := reachable_of_run (m := spsc 3 (fun e => [e]) (fun _ => 0))
    (p := fun s => s.channel.consumer = .idle ∧ s.file = [10, 11, 12, 13] ∧
      s.channel.dropped = [14]) wrapTrace (by decide +kernel)
  obtain ⟨hidle, hfile, hdrop⟩ := of_decide_eq_true hp
  have hall := ring_interleaving_exact (by decide) (fun e => [e]) (fun _ => 0) hs
  exact ⟨s, hs, hidle, hfile, hdrop, hall.1.1, hall.2.1 hidle⟩

/-- A call that is not interrupted is `enqueue`. -/
theorem produce_uninterrupted (N : Nat) (c : Channel α) (idle : c.producer = .idle)
    (data torn : α) : ∃ n,
    ((fun c => produce N c torn)^[n] (produce N c data)).rb = enqueue N c.rb data ∧
      ((fun c => produce N c torn)^[n] (produce N c data)).producer = .idle := by
  by_cases hfull : nextTail N c.rb.tail = c.rb.head
  · refine ⟨1, ?_⟩
    simp [produce, idle, hfull, enqueue]
  · refine ⟨4, ?_⟩
    have hstore : ∀ x, setSlot (setSlot c.rb.buffer c.rb.tail x) c.rb.tail data =
        setSlot c.rb.buffer c.rb.tail data := by
      intro x
      funext j
      simp only [setSlot]
      split_ifs <;> rfl
    simp [produce, idle, hfull, enqueue, hstore]

/-- A pass that is not interrupted is `log_and_clear`. -/
theorem consume_uninterrupted (N : Nat) (enc : α → List β) (result : WriteResult)
    (s : Spsc α β) (idle : s.channel.consumer = .idle) : ∃ n,
    (((Spsc.consume N enc result)^[n] s).channel.rb, ((Spsc.consume N enc result)^[n] s).file) =
      logAndClear N enc result result s.channel.rb s.file ∧
    ((Spsc.consume N enc result)^[n] s).channel.consumer = .idle := by
  have hnone : kernelWrite result ([] : List β) = [] := by cases result <;> simp [kernelWrite]
  by_cases hempty : s.channel.rb.head = s.channel.rb.tail
  · refine ⟨2, ?_⟩
    simp [Spsc.consume, consume, idle, hempty, logAndClear, hnone]
  by_cases hlt : s.channel.rb.head < s.channel.rb.tail
  · refine ⟨4, ?_⟩
    simp [Spsc.consume, consume, idle, hempty, hlt, logAndClear, hnone, chunk]
  by_cases hpos : 0 < s.channel.rb.tail
  · refine ⟨5, ?_⟩
    simp [Spsc.consume, consume, idle, hempty, hlt, hpos, logAndClear, hnone, chunk]
  · refine ⟨4, ?_⟩
    simp [Spsc.consume, consume, idle, hempty, hlt, hpos, logAndClear, hnone, chunk]

end RingInterleaving
