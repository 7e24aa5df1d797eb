import Mathlib.Algebra.BigOperators.Ring.List
import Mathlib.Algebra.Ring.Nat

/-!
# Bytes of integers, structures and fixed-size records

Little-endian integers, the memory image of a C structure (members at their
alignment, or packed) and the division of a byte string into records of one
size, with what remains at the end ignored.
-/

namespace ByteCodec

universe u

/-- The low `w` bytes of `v`, least significant first. -/
def leBytes : Nat → Nat → List UInt8
  | 0, _ => []
  | w + 1, v => UInt8.ofNat v :: leBytes w (v / 256)

def leValue : List UInt8 → Nat
  | [] => 0
  | b :: rest => b.toNat + 256 * leValue rest

@[simp] theorem length_leBytes (w v : Nat) : (leBytes w v).length = w := by
  induction w generalizing v with
  | zero => rfl
  | succ w ih => simp [leBytes, ih]

theorem leValue_lt (bytes : List UInt8) : leValue bytes < 256 ^ bytes.length := by
  induction bytes with
  | nil => exact Nat.one_pos
  | cons b rest ih =>
    have hbyte := b.toNat_lt
    rw [leValue, List.length_cons, Nat.pow_succ']
    omega

theorem leValue_leBytes (w v : Nat) : leValue (leBytes w v) = v % 256 ^ w := by
  induction w generalizing v with
  | zero => simp [leBytes, leValue, Nat.mod_one]
  | succ w ih =>
    have hbyte : (UInt8.ofNat v).toNat = v % 256 := by simp
    rw [leBytes, leValue, ih, hbyte, Nat.pow_succ', Nat.mod_mul]

theorem ofNat_leValue_leBytes (w : Nat) (v : BitVec (8 * w)) :
    BitVec.ofNat (8 * w) (leValue (leBytes w v.toNat)) = v := by
  have hlt : v.toNat < 256 ^ w := by
    have := v.isLt
    rwa [Nat.pow_mul] at this
  rw [leValue_leBytes, Nat.mod_eq_of_lt hlt, BitVec.ofNat_toNat, BitVec.setWidth_eq]

theorem leBytes_mod (w v : Nat) : leBytes w (v % 256 ^ w) = leBytes w v := by
  induction w generalizing v with
  | zero => rfl
  | succ w ih =>
    have hbyte : UInt8.ofNat (v % 256 ^ (w + 1)) = UInt8.ofNat v := by
      apply UInt8.toNat_inj.mp
      simp only [UInt8.toNat_ofNat']
      exact Nat.mod_mod_of_dvd v (Dvd.intro_left (256 ^ w) rfl)
    rw [leBytes, leBytes, hbyte, Nat.pow_succ', Nat.mod_mul_right_div_self, ih]

theorem leBytes_add (a b v : Nat) : leBytes (a + b) v = leBytes a v ++ leBytes b (v / 256 ^ a) := by
  induction a generalizing v with
  | zero => simp [leBytes]
  | succ a ih =>
    rw [Nat.succ_add, leBytes, leBytes, ih, Nat.div_div_eq_div_mul, ← Nat.pow_succ']
    rfl

theorem leValue_append (front back : List UInt8) :
    leValue (front ++ back) = leValue front + 256 ^ front.length * leValue back := by
  induction front with
  | nil => simp [leValue]
  | cons b front ih =>
    rw [List.cons_append, leValue, leValue, ih, List.length_cons, Nat.pow_succ', Nat.mul_add,
      Nat.mul_assoc, Nat.add_assoc]

/-- A member of a structure: its alignment and its own bytes. -/
structure Member where
  align : Nat
  bytes : List UInt8

def padding (offset align : Nat) : Nat := (align - offset % align) % align

/-- Members in order from `offset` on, each at the next multiple of its alignment. -/
def place (packed : Bool) (pad : UInt8) : Nat → List Member → List UInt8
  | _, [] => []
  | offset, m :: rest =>
    let gap := if packed then 0 else padding offset m.align
    List.replicate gap pad ++ m.bytes ++ place packed pad (offset + gap + m.bytes.length) rest

/-- The memory image; a structure that is not packed ends at a multiple of the largest
alignment. The value of padding bytes is not determined by C, so `pad` is arbitrary. -/
def structBytes (packed : Bool) (pad : UInt8) (members : List Member) : List UInt8 :=
  let body := place packed pad 0 members
  let align := (members.map Member.align).foldr max 1
  body ++ List.replicate (if packed then 0 else padding body.length align) pad

theorem structBytes_packed (pad : UInt8) (members : List Member) :
    structBytes true pad members = members.flatMap Member.bytes := by
  have hplace : ∀ offset, place true pad offset members = members.flatMap Member.bytes := by
    induction members with
    | nil => intro offset; rfl
    | cons m rest ih =>
      intro offset
      simp [place, ih]
  simp [structBytes, hplace]

theorem padding_eq_zero {offset align : Nat} (h : align ∣ offset) : padding offset align = 0 := by
  simp [padding, Nat.mod_eq_zero_of_dvd h]

/-- Members of one alignment that all fill it leave no padding anywhere. -/
theorem structBytes_uniform (pad : UInt8) (align : Nat) (hpos : 1 ≤ align)
    {members : List Member} (hne : members ≠ [])
    (h : ∀ m ∈ members, m.align = align ∧ align ∣ m.bytes.length) :
    structBytes false pad members = members.flatMap Member.bytes := by
  have hplace : ∀ (ms : List Member), (∀ m ∈ ms, m.align = align ∧ align ∣ m.bytes.length) →
      ∀ offset, align ∣ offset → place false pad offset ms = ms.flatMap Member.bytes := by
    intro ms
    induction ms with
    | nil => intro _ offset _; rfl
    | cons m rest ih =>
      intro hms offset hoff
      obtain ⟨ha, hb⟩ := hms m List.mem_cons_self
      have hnext := ih (fun m hm => hms m (List.mem_cons_of_mem _ hm))
        (offset + m.bytes.length) (Nat.dvd_add hoff hb)
      simp [place, ha, padding_eq_zero hoff, hnext]
  have halign : (members.map Member.align).foldr max 1 = align := by
    clear hplace
    induction members with
    | nil => exact absurd rfl hne
    | cons m rest ih =>
      have ha := (h m List.mem_cons_self).1
      by_cases hrest : rest = []
      · subst hrest
        simp [ha, hpos]
      · have htail := ih hrest (fun m hm => h m (List.mem_cons_of_mem _ hm))
        simp [ha, htail]
  have hlen : align ∣ (members.flatMap Member.bytes).length := by
    rw [List.length_flatMap]
    apply List.dvd_sum
    intro n hn
    obtain ⟨m, hm, rfl⟩ := List.mem_map.mp hn
    exact (h m hm).2
  have hbody := hplace members h 0 (Nat.dvd_zero _)
  simp only [structBytes, hbody, halign, padding_eq_zero hlen]
  simp

/-- The whole records of a byte string; a partial record at the end is ignored. -/
def splitRecords (size : Nat) (bytes : List UInt8) : List (List UInt8) :=
  (List.range (bytes.length / size)).map (fun i => (bytes.drop (i * size)).take size)

theorem splitRecords_short {size : Nat} {rest : List UInt8} (h : rest.length < size) :
    splitRecords size rest = [] := by
  simp [splitRecords, Nat.div_eq_of_lt h]

theorem splitRecords_cons {size : Nat} (hpos : 0 < size) {record : List UInt8}
    (hlen : record.length = size) (rest : List UInt8) :
    splitRecords size (record ++ rest) = record :: splitRecords size rest := by
  have hcount : (record ++ rest).length / size = rest.length / size + 1 := by
    rw [List.length_append, hlen, Nat.add_comm, Nat.add_div_right _ hpos]
  rw [splitRecords, hcount, List.range_succ_eq_map, List.map_cons, List.map_map]
  congr 1
  · simp [← hlen]
  · apply List.map_congr_left
    intro i _
    have hdrop : (record ++ rest).drop ((i + 1) * size) = rest.drop (i * size) := by
      rw [Nat.succ_mul, Nat.add_comm, ← hlen, List.drop_length_add_append]
    simp [hdrop]

/-- Records of one size come back from their concatenation, with or without a tail. -/
theorem splitRecords_flatMap {E : Type u} {size : Nat} (hpos : 0 < size) {enc : E → List UInt8}
    (hlen : ∀ e, (enc e).length = size) (entries : List E) {rest : List UInt8}
    (hrest : rest.length < size) :
    splitRecords size (entries.flatMap enc ++ rest) = entries.map enc := by
  induction entries with
  | nil => simpa using splitRecords_short hrest
  | cons e tail ih =>
    rw [List.flatMap_cons, List.append_assoc, splitRecords_cons hpos (hlen e), ih]
    rfl

/-- A prefix of a whole number of records is the concatenation of the first ones. -/
theorem take_flatMap {E : Type u} {size : Nat} {enc : E → List UInt8}
    (hlen : ∀ e, (enc e).length = size) (entries : List E) (k : Nat) :
    (entries.flatMap enc).take (k * size) = (entries.take k).flatMap enc := by
  induction entries generalizing k with
  | nil => simp
  | cons e tail ih =>
    cases k with
    | zero => simp
    | succ k =>
      rw [List.flatMap_cons, Nat.succ_mul, Nat.add_comm, ← hlen e, List.take_length_add_append,
        hlen e, ih, List.take_succ_cons, List.flatMap_cons]

theorem drop_flatMap {E : Type u} {size : Nat} {enc : E → List UInt8}
    (hlen : ∀ e, (enc e).length = size) (entries : List E) (k : Nat) :
    (entries.flatMap enc).drop (k * size) = (entries.drop k).flatMap enc := by
  induction entries generalizing k with
  | nil => simp
  | cons e tail ih =>
    cases k with
    | zero => simp
    | succ k =>
      rw [List.flatMap_cons, Nat.succ_mul, Nat.add_comm, ← hlen e, List.drop_length_add_append,
        hlen e, ih, List.drop_succ_cons]

/-! ## Bytes of 32-bit words -/

def wordBytes (words : List (BitVec 32)) : List UInt8 :=
  words.flatMap fun w => leBytes 4 w.toNat

/-- The number with these halves. -/
def joinWords (lo hi : BitVec 32) : BitVec 64 := BitVec.ofNat 64 (lo.toNat + 2 ^ 32 * hi.toNat)

theorem joinWords_inj {lo hi lo' hi' : BitVec 32} :
    joinWords lo hi = joinWords lo' hi' ↔ lo = lo' ∧ hi = hi' := by
  constructor
  · intro h
    have hval := congrArg BitVec.toNat h
    have h1 := lo.isLt
    have h2 := hi.isLt
    have h3 := lo'.isLt
    have h4 := hi'.isLt
    simp only [joinWords, BitVec.toNat_ofNat] at hval
    rw [Nat.mod_eq_of_lt (by omega), Nat.mod_eq_of_lt (by omega)] at hval
    constructor <;> apply BitVec.eq_of_toNat_eq <;> omega
  · rintro ⟨rfl, rfl⟩
    rfl

def loWord (v : BitVec 64) : BitVec 32 := BitVec.ofNat 32 v.toNat

def hiWord (v : BitVec 64) : BitVec 32 := BitVec.ofNat 32 (v.toNat / 2 ^ 32)

theorem leBytes_eight (v : BitVec 64) : leBytes 8 v.toNat = wordBytes [loWord v, hiWord v] := by
  have hlo : leBytes 4 (loWord v).toNat = leBytes 4 v.toNat := by
    rw [loWord, BitVec.toNat_ofNat]
    exact leBytes_mod 4 v.toNat
  have hhi : leBytes 4 (hiWord v).toNat = leBytes 4 (v.toNat / 256 ^ 4) := by
    rw [hiWord, BitVec.toNat_ofNat]
    exact leBytes_mod 4 _
  rw [leBytes_add 4 4, wordBytes, List.flatMap_cons, List.flatMap_cons, List.flatMap_nil,
    List.append_nil, hlo, hhi]

theorem leValue_leBytes_word (w : BitVec 32) : leValue (leBytes 4 w.toNat) = w.toNat := by
  rw [leValue_leBytes]
  exact Nat.mod_eq_of_lt w.isLt

theorem drop_wordBytes (words : List (BitVec 32)) (a : Nat) :
    (wordBytes words).drop (a * 4) = wordBytes (words.drop a) :=
  drop_flatMap (fun _ => length_leBytes 4 _) words a

/-- One word from the middle of the bytes; past their end it reads as 0. -/
theorem leValue_word (words : List (BitVec 32)) (a : Nat) :
    leValue (((wordBytes words).drop (a * 4)).take 4) = (words.getD a 0).toNat := by
  have hget : words.getD a 0 = (words.drop a).getD 0 0 := by simp [List.getD_eq_getElem?_getD]
  rw [drop_wordBytes, hget]
  cases words.drop a with
  | nil => rfl
  | cons w rest => simp [wordBytes, leValue_leBytes_word]

theorem leValue_two_words (words : List (BitVec 32)) (a : Nat) :
    leValue (((wordBytes words).drop (a * 4)).take 8) =
      (words.getD a 0).toNat + 2 ^ 32 * (words.getD (a + 1) 0).toNat := by
  have hlo : words.getD a 0 = (words.drop a).getD 0 0 := by simp [List.getD_eq_getElem?_getD]
  have hhi : words.getD (a + 1) 0 = (words.drop a).getD 1 0 := by
    simp [List.getD_eq_getElem?_getD]
  rw [drop_wordBytes, hlo, hhi]
  match words.drop a with
  | [] => rfl
  | [w] => simp [wordBytes, leValue_leBytes_word, List.take_of_length_le]
  | w :: w' :: rest =>
    have htake : (wordBytes (w :: w' :: rest)).take 8 =
        leBytes 4 w.toNat ++ leBytes 4 w'.toNat := by
      rw [wordBytes, List.flatMap_cons, List.flatMap_cons, ← List.append_assoc]
      exact List.take_left' (by simp)
    rw [htake, leValue_append, leValue_leBytes_word, leValue_leBytes_word, length_leBytes]
    rfl

end ByteCodec
