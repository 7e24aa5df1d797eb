import Hiresperf.LogEntry

/-!
# Four readers of one log

`parse_hrp.py`, `parse_hrp_instructed_profile.py`, `parse_hrp_instructed_by_step.py`
and `parse_hrp_instructed_outlier.py` each have a copy of the record layout. The
file is looked at as 32-bit words: every field of every layout starts at a
multiple of four bytes, so that two layouts differ in word offsets only.
-/

namespace LogReaders

open ByteCodec LogEntry

/-- The arguments that choose the counter names. -/
structure CounterArgs where
  useOffcore : Bool
  useWriteEst : Bool
  useHitCounts : Bool

structure CoreNames where
  c1 : String
  c2 : String
  c3 : String
  c4 : String

def offcoreNames (args : CounterArgs) : CoreNames :=
  ⟨"offcore_read", if args.useWriteEst then "offcore_write_est" else "offcore_write",
    "stall_mem", "stalls_sb"⟩

def defaultNames : CoreNames := ⟨"llc_misses", "sw_prefetch", "stall_mem", "stalls_sb"⟩

/-- `prepare_core_name` of the profile and the outlier reader. They have no names of their own
for the third and fourth counter. -/
def prepareCoreName (args : CounterArgs) : CoreNames :=
  if args.useOffcore then offcoreNames args else defaultNames

/-- `prepare_core_name` of the reader by step. -/
def byStepCoreName (args : CounterArgs) : CoreNames :=
  if args.useOffcore then offcoreNames args
  else if args.useHitCounts then ⟨"l2_hit_load", "l2_hit_rfo", "l2_prefetch", "l3_hit_load"⟩
  else defaultNames

def imcFields (useImc : Bool) : Dtype :=
  if useImc then [("imc_read", .uint64), ("imc_write", .uint64)] else []

def profileDtype (names : CoreNames) (useImc : Bool) : Dtype :=
  [("cpu_id", .int32), ("timestamp", .uint64), ("stall_mem", .uint64), ("inst_retire", .uint64),
    ("stalls_sb", .uint64), ("cpu_unhalt", .uint64), (names.c1, .uint64), (names.c2, .uint64)] ++
  imcFields useImc

def byStepDtype (names : CoreNames) (useImc : Bool) : Dtype :=
  [("cpu_id", .int32), ("timestamp", .uint64), (names.c3, .uint64), ("inst_retire", .uint64),
    (names.c4, .uint64), ("cpu_unhalt", .uint64), (names.c1, .uint64), (names.c2, .uint64)] ++
  imcFields useImc

/-- The layout without `stalls_sb`. -/
def outlierDtype (names : CoreNames) (useImc : Bool) : Dtype :=
  [("cpu_id", .int32), ("timestamp", .uint64), ("stall_mem", .uint64), ("inst_retire", .uint64),
    ("cpu_unhalt", .uint64), (names.c1, .uint64), (names.c2, .uint64)] ++
  imcFields useImc

abbrev Records := List (List (String × NpValue))

def profileReadLogs (args : CounterArgs) (useImc : Bool) (bytes : List UInt8) : Records :=
  fromfile (profileDtype (prepareCoreName args) useImc) bytes

/-- An empty file, or one that is not a whole number of records, gives no records. -/
def byStepReadLogs (args : CounterArgs) (useImc : Bool) (bytes : List UInt8) : Records :=
  let dt := byStepDtype (byStepCoreName args) useImc
  if bytes.length = 0 then []
  else if bytes.length % dt.itemsize ≠ 0 then []
  else fromfile dt bytes

def outlierReadLogs (args : CounterArgs) (useImc : Bool) (bytes : List UInt8) : Records :=
  fromfile (outlierDtype (prepareCoreName args) useImc) bytes

/-- The values compared: CPU, timestamp, instructions, cycles, the first and the second
counter, and the IMC counters if there are any. -/
def view (names : CoreNames) (useImc : Bool) (record : List (String × NpValue)) :
    List (Option NpValue) :=
  (["cpu_id", "timestamp", "inst_retire", "cpu_unhalt", names.c1, names.c2] ++
    if useImc then ["imc_read", "imc_write"] else []).map fun name => record.lookup name

/-- The readers return the same values in the same order. -/
structure ReadersAgree (profileArgs byStepArgs outlierArgs : CounterArgs) (useImc : Bool)
    (bytes : List UInt8) : Prop where
  profile : (profileReadLogs profileArgs useImc bytes).map
      (view (prepareCoreName profileArgs) useImc) =
    (readLogsToNumpy useImc false false bytes).map (view defaultNames useImc)
  byStep : (byStepReadLogs byStepArgs useImc bytes).map
      (view (byStepCoreName byStepArgs) useImc) =
    (readLogsToNumpy useImc false false bytes).map (view defaultNames useImc)
  outlier : (outlierReadLogs outlierArgs useImc bytes).map
      (view (prepareCoreName outlierArgs) useImc) =
    (readLogsToNumpy useImc false false bytes).map (view defaultNames useImc)

/-! ## Records of words -/

/-- The fields of an item that starts at word `a`. -/
def decodeWords : Dtype → List (BitVec 32) → Nat → List (String × NpValue)
  | [], _, _ => []
  | (name, .int32) :: rest, words, a =>
    (name, .int32 (words.getD a 0)) :: decodeWords rest words (a + 1)
  | (name, .uint64) :: rest, words, a =>
    (name, .uint64 (joinWords (words.getD a 0) (words.getD (a + 1) 0))) ::
      decodeWords rest words (a + 2)

theorem decodeItem_wordBytes (dt : Dtype) (words : List (BitVec 32)) (a n : Nat)
    (hn : dt.itemsize ≤ n) :
    decodeItem dt (((wordBytes words).drop (a * 4)).take n) = decodeWords dt words a := by
  induction dt generalizing a n with
  | nil => rfl
  | cons field rest ih =>
    obtain ⟨name, ty⟩ := field
    have hsize : ty.itemsize + Dtype.itemsize rest ≤ n := by simpa [Dtype.itemsize] using hn
    have hdrop : ∀ k, (((wordBytes words).drop (a * 4)).take n).drop (k * 4) =
        ((wordBytes words).drop ((a + k) * 4)).take (n - k * 4) := by
      intro k
      rw [List.drop_take, List.drop_drop, ← Nat.add_mul]
    cases ty with
    | int32 =>
      have hsize : 4 + Dtype.itemsize rest ≤ n := hsize
      have htake : (((wordBytes words).drop (a * 4)).take n).take 4 =
          ((wordBytes words).drop (a * 4)).take 4 := by
        rw [List.take_take, Nat.min_eq_left (by omega)]
      rw [decodeItem, decodeWords, NpType.decode, htake, leValue_word, BitVec.ofNat_toNat,
        BitVec.setWidth_eq]
      congr 1
      exact (congrArg (decodeItem rest) (hdrop 1)).trans (ih (a + 1) _ (by omega))
    | uint64 =>
      have hsize : 8 + Dtype.itemsize rest ≤ n := hsize
      have htake : (((wordBytes words).drop (a * 4)).take n).take 8 =
          ((wordBytes words).drop (a * 4)).take 8 := by
        rw [List.take_take, Nat.min_eq_left (by omega)]
      rw [decodeItem, decodeWords, NpType.decode, htake, leValue_two_words]
      congr 1
      exact (congrArg (decodeItem rest) (hdrop 2)).trans (ih (a + 2) _ (by omega))

theorem length_wordBytes (words : List (BitVec 32)) :
    (wordBytes words).length = words.length * 4 := by
  induction words with
  | nil => rfl
  | cons w rest ih =>
    rw [wordBytes, List.flatMap_cons, List.length_append, ← wordBytes, ih, length_leBytes,
      List.length_cons]
    omega

/-- A reader with records of `size` words. -/
theorem fromfile_wordBytes {dt : Dtype} {size : Nat} (hsize : dt.itemsize = size * 4)
    (words : List (BitVec 32)) : fromfile dt (wordBytes words) =
      (List.range (words.length / size)).map fun i => decodeWords dt words (i * size) := by
  rw [fromfile, splitRecords, hsize, length_wordBytes, Nat.mul_div_mul_right _ _ (by omega),
    List.map_map]
  apply List.map_congr_left
  intro i _
  rw [Function.comp_apply, ← Nat.mul_assoc]
  exact decodeItem_wordBytes dt words (i * size) _ (by omega)

/-- What a reader returns of the item at word `a` if its `cpu_unhalt` is at offset `unhalt`. -/
def viewAt (useImc : Bool) (unhalt : Nat) (words : List (BitVec 32)) (a : Nat) :
    List (Option NpValue) :=
  let u64 (i : Nat) : Option NpValue :=
    some (.uint64 (joinWords (words.getD (a + i) 0) (words.getD (a + i + 1) 0)))
  [some (.int32 (words.getD a 0)), u64 1, u64 5, u64 unhalt, u64 (unhalt + 2), u64 (unhalt + 4)] ++
    if useImc then [u64 (unhalt + 6), u64 (unhalt + 8)] else []

theorem view_readLogsDtype (useImc : Bool) (words : List (BitVec 32)) (a : Nat) :
    view defaultNames useImc (decodeWords (readLogsDtype useImc false false) words a) =
      viewAt useImc 9 words a := by
  cases useImc <;> rfl

theorem view_profileDtype (args : CounterArgs) (useImc : Bool) (words : List (BitVec 32)) (a : Nat) :
    view (prepareCoreName args) useImc
      (decodeWords (profileDtype (prepareCoreName args) useImc) words a) =
        viewAt useImc 9 words a := by
  obtain ⟨off, est, hits⟩ := args
  cases useImc <;> cases off <;> cases est <;> rfl

theorem view_byStepDtype (args : CounterArgs) (useImc : Bool) (words : List (BitVec 32)) (a : Nat) :
    view (byStepCoreName args) useImc
      (decodeWords (byStepDtype (byStepCoreName args) useImc) words a) =
        viewAt useImc 9 words a := by
  obtain ⟨off, est, hits⟩ := args
  cases useImc <;> cases off <;> cases est <;> cases hits <;> rfl

theorem view_outlierDtype (args : CounterArgs) (useImc : Bool) (words : List (BitVec 32)) (a : Nat) :
    view (prepareCoreName args) useImc
      (decodeWords (outlierDtype (prepareCoreName args) useImc) words a) =
        viewAt useImc 7 words a := by
  obtain ⟨off, est, hits⟩ := args
  cases useImc <;> cases off <;> cases est <;> rfl

/-! ## The file -/

variable {flags : LogFlags}

def entryWords (e : HrperfLogEntry flags) : List (BitVec 32) :=
  e.cpuId :: e.tick.members.flatMap fun v => [loWord v, hiWord v]

def fileWords (entries : List (HrperfLogEntry flags)) : List (BitVec 32) :=
  entries.flatMap entryWords

theorem toBytes_eq_wordBytes (pad : UInt8) (e : HrperfLogEntry flags) :
    e.toBytes pad = wordBytes (entryWords e) := by
  rw [HrperfLogEntry.toBytes, structBytes_packed]
  simp only [List.flatMap_cons, List.flatMap_nil, List.append_nil, HrperfTick.toBytes_eq]
  rw [entryWords, wordBytes, List.flatMap_cons, List.flatMap_assoc]
  simp only [leBytes_eight, wordBytes]

theorem flatMap_toBytes (pad : UInt8) (entries : List (HrperfLogEntry flags)) :
    entries.flatMap (HrperfLogEntry.toBytes pad) = wordBytes (fileWords entries) := by
  rw [fileWords, wordBytes, List.flatMap_assoc]
  apply List.flatMap_congr
  intro e _
  exact toBytes_eq_wordBytes pad e

/-- Words of a record, and of an item of the outlier reader. -/
def recordWords (useImc : Bool) : Nat := if useImc then 19 else 15

def outlierWords (useImc : Bool) : Nat := if useImc then 17 else 13

theorem Field.length_toList {present : Bool} (f : Field present) :
    f.val.toList.length = if present then 1 else 0 := by
  obtain ⟨v, rfl⟩ := f
  cases v <;> simp

theorem length_entryWords {useImc includeLocalBw : Bool}
    (e : HrperfLogEntry ⟨useImc, false, includeLocalBw⟩) :
    (entryWords e).length = recordWords useImc := by
  have hpairs : ∀ members : List (BitVec 64),
      (members.flatMap fun v => [loWord v, hiWord v]).length = members.length * 2 := by
    intro members
    induction members with
    | nil => rfl
    | cons v rest ih =>
      rw [List.flatMap_cons, List.length_append, ih, List.length_cons]
      simp only [List.length_cons, List.length_nil]
      omega
  rw [entryWords, List.length_cons, hpairs]
  simp only [HrperfTick.members, List.length_append, Field.length_toList]
  cases useImc <;> rfl

theorem length_fileWords {useImc includeLocalBw : Bool}
    (entries : List (HrperfLogEntry ⟨useImc, false, includeLocalBw⟩)) :
    (fileWords entries).length = entries.length * recordWords useImc := by
  induction entries with
  | nil => simp [fileWords]
  | cons e rest ih =>
    rw [fileWords, List.flatMap_cons, List.length_append, length_entryWords, ← fileWords, ih,
      List.length_cons, Nat.succ_mul, Nat.add_comm]

/-! ## Exactly when they agree -/

/-- The words of an outlier item that are compared. -/
def comparedWords (useImc : Bool) : List Nat :=
  [0, 1, 2, 5, 6] ++ List.range' 7 (if useImc then 10 else 6)

/-- Where the field of such a word is in a record: `stalls_sb` is at words 7 and 8. -/
def currentOffset (j : Nat) : Nat := if j < 7 then j else j + 2

theorem viewAt_eq_iff (useImc : Bool) (words : List (BitVec 32)) (b a : Nat) :
    viewAt useImc 7 words b = viewAt useImc 9 words a ↔
      ∀ j ∈ comparedWords useImc,
        words.getD (b + j) 0 = words.getD (a + currentOffset j) 0 := by
  cases useImc <;>
    simp [viewAt, comparedWords, currentOffset, List.range'_succ, joinWords_inj, Nat.add_assoc,
      and_assoc]

theorem map_range_eq_iff {B : Type} {f g : Nat → B} {m n : Nat} :
    (List.range m).map f = (List.range n).map g ↔ m = n ∧ ∀ k, k < n → f k = g k := by
  constructor
  · intro h
    have hlen : m = n := by simpa using congrArg List.length h
    subst hlen
    exact ⟨rfl, fun k hk => List.map_inj_left.mp h k (List.mem_range.mpr hk)⟩
  · rintro ⟨rfl, h⟩
    exact List.map_congr_left fun k hk => h k (List.mem_range.mp hk)

section File

variable {useImc includeLocalBw : Bool}
  (entries : List (HrperfLogEntry ⟨useImc, false, includeLocalBw⟩)) (pad : UInt8)

/-- A reader whose layout is the one of the structure. -/
theorem current_reader {names : CoreNames} {dt : Dtype}
    (hsize : dt.itemsize = recordWords useImc * 4)
    (hview : ∀ words a, view names useImc (decodeWords dt words a) = viewAt useImc 9 words a) :
    (fromfile dt (entries.flatMap (HrperfLogEntry.toBytes pad))).map (view names useImc) =
      (List.range entries.length).map fun k =>
        viewAt useImc 9 (fileWords entries) (k * recordWords useImc) := by
  have hpos : 0 < recordWords useImc := by cases useImc <;> decide
  rw [flatMap_toBytes, fromfile_wordBytes hsize, length_fileWords, Nat.mul_div_cancel _ hpos,
    List.map_map]
  apply List.map_congr_left
  intro k _
  exact hview _ _

theorem readLogs_views :
    (readLogsToNumpy useImc false false (entries.flatMap (HrperfLogEntry.toBytes pad))).map
        (view defaultNames useImc) =
      (List.range entries.length).map fun k =>
        viewAt useImc 9 (fileWords entries) (k * recordWords useImc) :=
  current_reader entries pad (by cases useImc <;> rfl) (view_readLogsDtype useImc)

theorem profile_views (args : CounterArgs) :
    (profileReadLogs args useImc (entries.flatMap (HrperfLogEntry.toBytes pad))).map
        (view (prepareCoreName args) useImc) =
      (List.range entries.length).map fun k =>
        viewAt useImc 9 (fileWords entries) (k * recordWords useImc) :=
  current_reader entries pad (by cases useImc <;> rfl) (view_profileDtype args useImc)

/-- The checks of the file size only ever reject a file without records. -/
theorem byStep_views (args : CounterArgs) :
    (byStepReadLogs args useImc (entries.flatMap (HrperfLogEntry.toBytes pad))).map
        (view (byStepCoreName args) useImc) =
      (List.range entries.length).map fun k =>
        viewAt useImc 9 (fileWords entries) (k * recordWords useImc) := by
  have hsize : (byStepDtype (byStepCoreName args) useImc).itemsize = recordWords useImc * 4 := by
    cases useImc <;> rfl
  have hlen : (entries.flatMap (HrperfLogEntry.toBytes pad)).length =
      entries.length * (recordWords useImc * 4) := by
    rw [flatMap_toBytes, length_wordBytes, length_fileWords, Nat.mul_assoc]
  dsimp only [byStepReadLogs]
  rw [hsize, hlen]
  split_ifs with hempty hpartial
  · have hpos : 0 < recordWords useImc := by cases useImc <;> decide
    have hnone : entries.length = 0 := by
      rcases Nat.mul_eq_zero.mp hempty with h | h
      · exact h
      · omega
    rw [hnone]
    rfl
  · simp at hpartial
  · exact current_reader entries pad hsize (view_byStepDtype args useImc)

theorem outlier_views (args : CounterArgs) :
    (outlierReadLogs args useImc (entries.flatMap (HrperfLogEntry.toBytes pad))).map
        (view (prepareCoreName args) useImc) =
      (List.range (entries.length * recordWords useImc / outlierWords useImc)).map fun k =>
        viewAt useImc 7 (fileWords entries) (k * outlierWords useImc) := by
  have hsize : (outlierDtype (prepareCoreName args) useImc).itemsize = outlierWords useImc * 4 := by
    cases useImc <;> rfl
  rw [outlierReadLogs, flatMap_toBytes, fromfile_wordBytes hsize, length_fileWords, List.map_map]
  apply List.map_congr_left
  intro k _
  exact view_outlierDtype args useImc _ _

/-- The outlier reader agrees with the others exactly on a file too short for the words it
does not know of to make up an item, whose words happen to repeat where it looks for them. -/
theorem readersAgree_iff (profileArgs byStepArgs outlierArgs : CounterArgs) :
    ReadersAgree profileArgs byStepArgs outlierArgs useImc
        (entries.flatMap (HrperfLogEntry.toBytes pad)) ↔
      entries.length * 2 < outlierWords useImc ∧
      ∀ k, k < entries.length → ∀ j ∈ comparedWords useImc,
        (fileWords entries).getD (k * outlierWords useImc + j) 0 =
          (fileWords entries).getD (k * recordWords useImc + currentOffset j) 0 := by
  have hcount : entries.length * recordWords useImc / outlierWords useImc = entries.length ↔
      entries.length * 2 < outlierWords useImc := by
    cases useImc <;> simp only [recordWords, outlierWords] <;> simp <;> omega
  have hviews := readLogs_views entries pad
  simp only [← viewAt_eq_iff, ← hcount]
  rw [← map_range_eq_iff, ← outlier_views entries pad outlierArgs, ← hviews]
  constructor
  · exact fun h => h.outlier
  · intro houtlier
    refine ⟨?_, ?_, houtlier⟩
    · rw [hviews, profile_views]
    · rw [hviews, byStep_views]

end File

/-- One record with 4 stalls and 5 cycles: the outlier reader takes the stalls for the cycles. -/
theorem outlier_reads_stalls_as_cycles : ¬ ReadersAgree ⟨false, false, false⟩ ⟨false, false, false⟩
    ⟨false, false, false⟩ false
    (([⟨0, ⟨1, 2, 3, 4, 5, 6, 7, .of _ 0, .of _ 0, .of _ 0, .of _ 0, .of _ 0⟩⟩] :
      List (HrperfLogEntry ⟨false, false, false⟩)).flatMap (HrperfLogEntry.toBytes 0)) := by
  intro h
  exact absurd h.outlier (by decide +kernel)

end LogReaders
