import Hiresperf.Foundation.BinaryFormat
import Hiresperf.Foundation.ByteCodec
import Hiresperf.Foundation.PythonText
import Hiresperf.PerCoreEntries
import Mathlib.Data.List.AList
import Mathlib.Data.Set.List

/-!
# The directory of the core files

The end of `ldb_analysis/compute_per_core_performance.py` writes the entries of each
core to a file of the directory `core_performance_data`, and `load_performance_data` of
`ldb_analysis/compute_invocation_metrics.py` reads what it finds there. Nothing clears
the directory between two runs. A run that ends with an error at an entry that cannot be
packed leaves the file of that core cut short and those of the cores after it as they
were. The rates are exact quotients up to the rounding to four bytes.
-/

namespace CoreFiles

open BinaryFormat ByteCodec PerCoreEntries PerCoreMerge PythonText TotalBandwidth

/-! ## Writing -/

/-- The format of `f` in `struct`. -/
def single : Format := ⟨23, 8⟩

/-- The fields of an entry that are packed as `f`. -/
inductive Rate where
  | stallsPerUs
  | instRetireRate
  | cpuUsage
  | llcMissesRate
  | swPrefetchRate
  | memoryBandwidthBytesPerUs
  deriving DecidableEq

/-- The order of the fields in the file. -/
def Rate.all : List Rate :=
  [.stallsPerUs, .instRetireRate, .cpuUsage, .llcMissesRate, .swPrefetchRate,
    .memoryBandwidthBytesPerUs]

def rateOf (p : PerfEntry) : Rate → ℚ
  | .stallsPerUs => p.stallsPerUs
  | .instRetireRate => p.instRetireRate
  | .cpuUsage => p.cpuUsage
  | .llcMissesRate => p.llcMissesRate
  | .swPrefetchRate => p.swPrefetchRate
  | .memoryBandwidthBytesPerUs => p.memoryBandwidthBytesPerUs

/-- An integer in the range of `Q`. -/
def fitsUnsigned (v : Int) : Bool := decide (0 ≤ v) && decide (v < 2 ^ 64)

/-- `struct.pack` takes the entry; else it raises `struct.error` or `OverflowError`. -/
def packs (p : PerfEntry) : Bool :=
  fitsUnsigned p.timestampNs && (Rate.all.all fun r => (single.pack (rateOf p r)).isSome) &&
    fitsUnsigned p.timeDeltaNs

/-- The bytes of a rate that can be packed. -/
def rateBytes (p : PerfEntry) (r : Rate) : List UInt8 :=
  leBytes 4 ((single.pack (rateOf p r)).getD 0)

/-- The bytes of an entry that can be packed, in the format `<Q f f f f f f Q`. -/
def entryBytes (p : PerfEntry) : List UInt8 :=
  leBytes 8 p.timestampNs.toNat ++ Rate.all.flatMap (rateBytes p) ++ leBytes 8 p.timeDeltaNs.toNat

/-- What is in a file when the loop over its entries ends or is left. -/
def fileBytes (perfEntries : List PerfEntry) : List UInt8 :=
  (perfEntries.takeWhile packs).flatMap entryBytes

/-- `_perf_data.bin` without the underscore at its front. -/
def perfDataBin : Text := ['p', 'e', 'r', 'f', '_', 'd', 'a', 't', 'a', '.', 'b', 'i', 'n']

/-- `core_{cpu_id}_perf_data.bin`. -/
def filename (cpuId : Int) : Text :=
  ['c', 'o', 'r', 'e'] ++ '_' :: (showInt cpuId ++ '_' :: perfDataBin)

/-- The files of the directory by their names. -/
abbrev Directory := Text → Option (List UInt8)

/-- The loop over the cores. An entry that cannot be packed ends it. -/
def saveCores : List (Int × List PerfEntry) → Directory → Directory
  | [], dir => dir
  | (cpuId, perfEntries) :: rest, dir =>
    let opened := Function.update dir (filename cpuId) (some (fileBytes perfEntries))
    if perfEntries.all packs then saveCores rest opened else opened

/-- The cores in the order of their first records, which is that of the dictionary. -/
def coresInOrder (log : List Entry) : List Int := (log.map Entry.cpuId).reverse.dedup.reverse

structure Run where
  tscPerUs : TscPerUs
  log : List Entry

/-- What a run does to the directory, `none` while there is none. -/
def parseHrperfLogFiles (dir : Option Directory) (run : Run) : Option Directory :=
  if (heapLoop run.log).raised then dir
  else
    let perfDataPerCore := (coresInOrder run.log).map fun cpuId =>
      (cpuId, (afterCore run.tscPerUs (merged run.log)).perfDataPerCore cpuId)
    some (saveCores perfDataPerCore (dir.getD fun _ => none))

def afterRuns (runs : List Run) : Option Directory := runs.foldl parseHrperfLogFiles none

/-! ## Reading -/

/-- An entry as it is read. A rate is `none` for a pattern that stands for no number. -/
structure LoadedEntry where
  timestampNs : Nat
  rate : Rate → Option ℚ
  timeDeltaNs : Nat

def Rate.offset : Rate → Nat
  | .stallsPerUs => 0
  | .instRetireRate => 1
  | .cpuUsage => 2
  | .llcMissesRate => 3
  | .swPrefetchRate => 4
  | .memoryBandwidthBytesPerUs => 5

def unpackEntry (data : List UInt8) : LoadedEntry where
  timestampNs := leValue (data.take 8)
  rate r := single.unpack (leValue (((data.drop 8).drop (r.offset * 4)).take 4))
  timeDeltaNs := leValue ((data.drop 32).take 8)

/-- The entries of a file; `struct.unpack` does not take a part of an entry at the end. -/
def loadFile (fileData : List UInt8) : Option (List LoadedEntry) :=
  if fileData.length % 40 = 0 then some ((splitRecords 40 fileData).map unpackEntry) else none

def isPerfDataFile (name : Text) : Bool :=
  ['c', 'o', 'r', 'e', '_'].isPrefixOf name && ('_' :: perfDataBin).isSuffixOf name

/-- `int(filename.split('_')[1])`. -/
def cpuIdOf (name : Text) : Option Int := (name.splitOn '_')[1]?.bind int

/-- One file into the dictionary. -/
def loadInto (dir : Directory) (data : AList fun _ : Int => List LoadedEntry) (name : Text) :
    Option (AList fun _ : Int => List LoadedEntry) := do
  let cpuId ← cpuIdOf name
  let fileData ← dir name
  let entries ← loadFile fileData
  return data.insert cpuId entries

/-- `load_performance_data`, with the names as `os.listdir` gives them. -/
def loadPerformanceData (dir : Directory) (names : List Text) :
    Option (AList fun _ : Int => List LoadedEntry) :=
  (names.filter isPerfDataFile).foldlM (loadInto dir) ∅

/-! ## An entry there and back -/

/-- What is read where `p` was written. -/
def stored (p : PerfEntry) : LoadedEntry where
  timestampNs := p.timestampNs.toNat
  rate r := some (single.round (rateOf p r))
  timeDeltaNs := p.timeDeltaNs.toNat

theorem length_rateBytes (p : PerfEntry) (r : Rate) : (rateBytes p r).length = 4 :=
  length_leBytes 4 _

theorem length_rates (p : PerfEntry) : (Rate.all.flatMap (rateBytes p)).length = 24 := by
  simp [Rate.all, length_rateBytes]

theorem length_entryBytes (p : PerfEntry) : (entryBytes p).length = 40 := by
  rw [entryBytes, List.length_append, List.length_append, length_rates, length_leBytes,
    length_leBytes]

theorem mem_all (r : Rate) : r ∈ Rate.all := by
  cases r <;> decide

theorem fitsUnsigned_iff {v : Int} : fitsUnsigned v = true ↔ 0 ≤ v ∧ v < 2 ^ 64 := by
  rw [fitsUnsigned, Bool.and_eq_true, decide_eq_true_iff, decide_eq_true_iff]

theorem leValue_unsigned {v : Int} (h : fitsUnsigned v = true) :
    leValue (leBytes 8 v.toNat) = v.toNat := by
  have hrange := fitsUnsigned_iff.mp h
  rw [leValue_leBytes]
  exact Nat.mod_eq_of_lt (by omega)

theorem unpack_rateBytes {p : PerfEntry} {r : Rate} (h : (single.pack (rateOf p r)).isSome = true) :
    single.unpack (leValue (rateBytes p r)) = some (single.round (rateOf p r)) := by
  obtain ⟨n, hn⟩ := Option.isSome_iff_exists.mp h
  have hlt : n < 256 ^ 4 := Format.pack_lt hn
  rw [rateBytes, hn, Option.getD_some, leValue_leBytes, Nat.mod_eq_of_lt hlt]
  exact Format.unpack_of_pack hn

/-- The four bytes at the place of a rate are its own. -/
theorem take_rates (p : PerfEntry) (r : Rate) (rest : List UInt8) :
    ((Rate.all.flatMap (rateBytes p) ++ rest).drop (r.offset * 4)).take 4 = rateBytes p r := by
  have hoffset : r.offset ≤ 5 := by cases r <;> decide
  have hdrop : Rate.all.drop r.offset = r :: Rate.all.drop (r.offset + 1) := by cases r <;> rfl
  rw [List.drop_append_of_le_length (by rw [length_rates]; omega),
    drop_flatMap (length_rateBytes p), hdrop, List.flatMap_cons, List.append_assoc]
  exact List.take_left' (length_rateBytes p r)

theorem unpack_entryBytes {p : PerfEntry} (h : packs p = true) :
    unpackEntry (entryBytes p) = stored p := by
  simp only [packs, Bool.and_eq_true, List.all_eq_true] at h
  obtain ⟨⟨htime, hrates⟩, hdelta⟩ := h
  have hfront : (entryBytes p).drop 8 =
      Rate.all.flatMap (rateBytes p) ++ leBytes 8 p.timeDeltaNs.toNat := by
    rw [entryBytes, List.append_assoc]
    exact List.drop_left' (length_leBytes 8 _)
  have hback : (entryBytes p).drop 32 = leBytes 8 p.timeDeltaNs.toNat := by
    rw [entryBytes]
    exact List.drop_left' (by rw [List.length_append, length_rates, length_leBytes])
  have htake : (entryBytes p).take 8 = leBytes 8 p.timestampNs.toNat := by
    rw [entryBytes, List.append_assoc]
    exact List.take_left' (length_leBytes 8 _)
  have hrate : ∀ r, single.unpack (leValue ((((entryBytes p).drop 8).drop (r.offset * 4)).take 4)) =
      some (single.round (rateOf p r)) := by
    intro r
    rw [hfront, take_rates, unpack_rateBytes (hrates r (mem_all r))]
  simp only [unpackEntry, stored, htake, hback, hrate, leValue_unsigned htime,
    leValue_unsigned hdelta, List.take_of_length_le (length_leBytes 8 _).le]

theorem loadFile_entries {entries : List PerfEntry} (h : ∀ p ∈ entries, packs p = true) :
    loadFile (entries.flatMap entryBytes) = some (entries.map stored) := by
  have hlength : (entries.flatMap entryBytes).length % 40 = 0 := by
    rw [List.length_flatMap]
    simp [length_entryBytes]
  have hsplit : splitRecords 40 (entries.flatMap entryBytes ++ []) = entries.map entryBytes :=
    splitRecords_flatMap (by norm_num) length_entryBytes entries (by norm_num)
  rw [List.append_nil] at hsplit
  rw [loadFile, if_pos hlength, hsplit, List.map_map]
  exact congrArg some (List.map_congr_left fun p hp => unpack_entryBytes (h p hp))

/-! ## The names -/

theorem cpuIdOf_filename (cpuId : Int) : cpuIdOf (filename cpuId) = some cpuId := by
  have hsplit : (filename cpuId).splitOn '_' =
      ['c', 'o', 'r', 'e'] :: showInt cpuId :: perfDataBin.splitOn '_' := by
    rw [filename, List.splitOn_append_cons_self_of_not_mem (by decide),
      List.splitOn_append_cons_self_of_not_mem (notMem_showInt (by decide) (by decide) cpuId)]
  rw [cpuIdOf, hsplit]
  exact int_showInt cpuId

theorem filename_inj {a b : Int} : filename a = filename b ↔ a = b := by
  constructor
  · intro h
    have hid := congrArg cpuIdOf h
    rwa [cpuIdOf_filename, cpuIdOf_filename, Option.some_inj] at hid
  · exact congrArg filename

theorem isPerfDataFile_filename (cpuId : Int) : isPerfDataFile (filename cpuId) = true := by
  rw [isPerfDataFile, Bool.and_eq_true, List.isPrefixOf_iff_prefix, List.isSuffixOf_iff_suffix]
  constructor
  · exact ⟨showInt cpuId ++ '_' :: perfDataBin, rfl⟩
  · exact ⟨['c', 'o', 'r', 'e'] ++ '_' :: showInt cpuId, by simp [filename]⟩

/-! ## The directory over the runs -/

/-- What the files of the cores hold, where there are any. -/
abbrev Contents := Int → Option (List PerfEntry)

/-- The directory holds exactly these entries, and each of them can be packed. -/
structure Holds (dir : Directory) (contents : Contents) : Prop where
  file : ∀ cpuId, dir (filename cpuId) = (contents cpuId).map fun entries =>
    entries.flatMap entryBytes
  named : ∀ name, (dir name).isSome = true → ∃ cpuId, name = filename cpuId
  packed : ∀ cpuId entries, contents cpuId = some entries → ∀ p ∈ entries, packs p = true

/-- The cores whose file is opened: up to the first with an entry that cannot be packed. -/
def openedFrom (file : Int → List PerfEntry) : List Int → List Int
  | [] => []
  | cpuId :: rest => cpuId :: if (file cpuId).all packs then openedFrom file rest else []

theorem openedFrom_subset (file : Int → List PerfEntry) (cpus : List Int) :
    openedFrom file cpus ⊆ cpus := by
  induction cpus with
  | nil => exact List.Subset.refl _
  | cons cpuId rest ih =>
    rw [openedFrom]
    refine List.cons_subset_cons cpuId ?_
    split_ifs
    · exact ih
    · exact List.nil_subset _

theorem openedFrom_of_packs {file : Int → List PerfEntry} {cpus : List Int}
    (h : ∀ cpuId ∈ cpus, (file cpuId).all packs = true) : openedFrom file cpus = cpus := by
  induction cpus with
  | nil => rfl
  | cons cpuId rest ih =>
    obtain ⟨hown, hrest⟩ := List.forall_mem_cons.mp h
    rw [openedFrom, if_pos hown, ih hrest]

/-- The contents after a run has opened the files of some cores. -/
def overwrite (file : Int → List PerfEntry) (opened : List Int) (contents : Contents) : Contents :=
  fun cpuId => if cpuId ∈ opened then some ((file cpuId).takeWhile packs) else contents cpuId

theorem Holds.update {dir : Directory} {contents : Contents} (h : Holds dir contents)
    (file : Int → List PerfEntry) (cpuId : Int) :
    Holds (Function.update dir (filename cpuId) (some (fileBytes (file cpuId))))
      (overwrite file [cpuId] contents) where
  file other := by
    by_cases hother : other = cpuId
    · simp [overwrite, hother, fileBytes]
    · rw [Function.update_of_ne (fun heq => hother (filename_inj.mp heq)), overwrite,
        if_neg (by simpa using hother)]
      exact h.file other
  named name hname := by
    by_cases hown : name = filename cpuId
    · exact ⟨cpuId, hown⟩
    · rw [Function.update_of_ne hown] at hname
      exact h.named name hname
  packed other entries hentries p hp := by
    rw [overwrite] at hentries
    split_ifs at hentries
    · rw [← Option.some.inj hentries] at hp
      exact List.mem_takeWhile_imp hp
    · exact h.packed other entries hentries p hp

theorem overwrite_cons (file : Int → List PerfEntry) (cpuId : Int) (rest : List Int)
    (contents : Contents) :
    overwrite file rest (overwrite file [cpuId] contents) =
      overwrite file (cpuId :: rest) contents := by
  funext other
  by_cases hrest : other ∈ rest
  · simp [overwrite, hrest]
  · by_cases hother : other = cpuId
    · simp [overwrite, hother]
    · simp [overwrite, hother, hrest]

/-- The loop over the cores writes the files that it opens and no others. -/
theorem Holds.saveCores {dir : Directory} {contents : Contents} (h : Holds dir contents)
    (file : Int → List PerfEntry) (cpus : List Int) :
    Holds (saveCores (cpus.map fun cpuId => (cpuId, file cpuId)) dir)
      (overwrite file (openedFrom file cpus) contents) := by
  induction cpus generalizing dir contents with
  | nil => exact h
  | cons cpuId rest ih =>
    have hopened := h.update file cpuId
    rw [List.map_cons, CoreFiles.saveCores, openedFrom, ← overwrite_cons]
    split_ifs
    · exact ih hopened
    · exact hopened

/-- The file of a core that a run sets out to write. -/
def Run.file (run : Run) (cpuId : Int) : List PerfEntry := coreFile run.tscPerUs run.log cpuId

/-- The cores whose file the run opens. -/
def Run.opened (run : Run) : List Int :=
  if (heapLoop run.log).raised then [] else openedFrom run.file (coresInOrder run.log)

/-- What the run leaves in the file of a core that it opens. -/
def Run.written (run : Run) (cpuId : Int) : List PerfEntry := (run.file cpuId).takeWhile packs

/-- The last run that opened the file of a core. -/
def lastToOpen (runs : List Run) (cpuId : Int) : Option Run :=
  runs.reverse.find? fun run => decide (cpuId ∈ run.opened)

/-- What is in the files after some runs. -/
def contentsAfter (runs : List Run) : Contents :=
  fun cpuId => (lastToOpen runs cpuId).map fun run => run.written cpuId

theorem contentsAfter_concat (runs : List Run) (run : Run) :
    contentsAfter (runs ++ [run]) = overwrite run.file run.opened (contentsAfter runs) := by
  funext cpuId
  rw [contentsAfter, lastToOpen, List.reverse_append, List.reverse_singleton, List.singleton_append,
    List.find?_cons, overwrite]
  by_cases hopened : cpuId ∈ run.opened
  · simp [hopened, Run.written]
  · simp [hopened, contentsAfter, lastToOpen]

theorem afterRuns_concat (runs : List Run) (run : Run) :
    afterRuns (runs ++ [run]) = parseHrperfLogFiles (afterRuns runs) run := by
  rw [afterRuns, List.foldl_append]
  rfl

/-- The directory refines the contents, a missing one those of no core. -/
theorem afterRuns_holds (runs : List Run) :
    Holds ((afterRuns runs).getD fun _ => none) (contentsAfter runs) := by
  induction runs using List.reverseRecOn with
  | nil => exact ⟨fun _ => rfl, fun _ h => absurd h (by simp [afterRuns]), fun _ _ h => by
      simp [contentsAfter, lastToOpen] at h⟩
  | append_singleton runs run ih =>
    rw [afterRuns_concat, contentsAfter_concat, parseHrperfLogFiles, Run.opened]
    split_ifs
    · have hsame : overwrite run.file [] (contentsAfter runs) = contentsAfter runs := by
        funext cpuId
        simp [overwrite]
      rwa [hsame]
    · simp only [afterCore_entries, Option.getD_some]
      exact ih.saveCores run.file (coresInOrder run.log)

/-- The directory is there once a run has got through its log. -/
theorem afterRuns_isSome (runs : List Run) :
    (afterRuns runs).isSome = true ↔ ∃ run ∈ runs, (heapLoop run.log).raised = false := by
  induction runs using List.reverseRecOn with
  | nil => simp [afterRuns]
  | append_singleton runs run ih =>
    rw [afterRuns_concat, parseHrperfLogFiles]
    cases hraised : (heapLoop run.log).raised with
    | true => simp [ih, hraised, or_and_right, exists_or]
    | false =>
      simp only [Bool.false_eq_true, if_false, Option.isSome_some, true_iff]
      exact ⟨run, List.mem_append_right _ List.mem_cons_self, hraised⟩

/-! ## Loading -/

/-- The names are those of the files, in any order. -/
def Lists (dir : Directory) (names : List Text) : Prop :=
  ∀ name, name ∈ names ↔ (dir name).isSome = true

theorem contentsAfter_isSome (runs : List Run) (cpuId : Int) :
    (contentsAfter runs cpuId).isSome = true ↔ cpuId ∈ runs.flatMap Run.opened := by
  rw [contentsAfter, Option.isSome_map, lastToOpen, List.find?_isSome, List.mem_flatMap]
  simp only [List.mem_reverse, decide_eq_true_iff]

/-- The files after some runs are those of the cores that a run has opened. -/
theorem lists_opened {runs : List Run} {dir : Directory} (hdir : afterRuns runs = some dir) :
    Lists dir ((runs.flatMap Run.opened).map filename) := by
  have hholds := afterRuns_holds runs
  rw [hdir, Option.getD_some] at hholds
  intro name
  rw [List.mem_map]
  constructor
  · rintro ⟨cpuId, hcpu, rfl⟩
    rw [hholds.file, Option.isSome_map]
    exact (contentsAfter_isSome runs cpuId).mpr hcpu
  · intro hname
    obtain ⟨cpuId, rfl⟩ := hholds.named name hname
    rw [hholds.file, Option.isSome_map] at hname
    exact ⟨cpuId, (contentsAfter_isSome runs cpuId).mp hname, rfl⟩

theorem loadInto_filename {dir : Directory} {contents : Contents} (h : Holds dir contents)
    (data : AList fun _ : Int => List LoadedEntry) {cpuId : Int} {entries : List PerfEntry}
    (hentries : contents cpuId = some entries) :
    loadInto dir data (filename cpuId) = some (data.insert cpuId (entries.map stored)) := by
  have hfile : dir (filename cpuId) = some (entries.flatMap entryBytes) := by
    rw [h.file, hentries, Option.map_some]
  rw [loadInto, cpuIdOf_filename, hfile]
  simp only [Option.bind_eq_bind, Option.bind_some]
  rw [loadFile_entries (h.packed cpuId entries hentries)]
  rfl

theorem foldlM_loadInto {dir : Directory} {contents : Contents} (h : Holds dir contents)
    (cpus : List Int) (hcpus : ∀ cpuId ∈ cpus, (contents cpuId).isSome = true)
    (data : AList fun _ : Int => List LoadedEntry) :
    ∃ loaded, (cpus.map filename).foldlM (loadInto dir) data = some loaded ∧
      ∀ cpuId, loaded.lookup cpuId = if cpuId ∈ cpus then
        (contents cpuId).map (List.map stored) else data.lookup cpuId := by
  induction cpus generalizing data with
  | nil => exact ⟨data, rfl, fun _ => by simp⟩
  | cons cpuId rest ih =>
    obtain ⟨hown, hrest⟩ := List.forall_mem_cons.mp hcpus
    obtain ⟨entries, hentries⟩ := Option.isSome_iff_exists.mp hown
    obtain ⟨loaded, hloaded, hlookup⟩ := ih hrest (data.insert cpuId (entries.map stored))
    refine ⟨loaded, ?_, fun other => ?_⟩
    · rw [List.map_cons, List.foldlM_cons, loadInto_filename h data hentries]
      exact hloaded
    · rw [hlookup]
      by_cases hmem : other ∈ rest
      · simp [hmem]
      · by_cases hother : other = cpuId
        · subst hother
          simp [hmem, hentries]
        · simp [hmem, hother, AList.lookup_insert_ne hother]

theorem loadPerformanceData_holds {dir : Directory} {contents : Contents} (h : Holds dir contents)
    {names : List Text} (hnames : Lists dir names) :
    ∃ loaded, loadPerformanceData dir names = some loaded ∧
      ∀ cpuId, loaded.lookup cpuId = (contents cpuId).map (List.map stored) := by
  have hfilter : names.filter isPerfDataFile = names := by
    refine List.filter_eq_self.mpr fun name hname => ?_
    obtain ⟨cpuId, rfl⟩ := h.named name ((hnames name).mp hname)
    exact isPerfDataFile_filename cpuId
  obtain ⟨cpus, rfl⟩ : names ∈ Set.range (List.map filename) := by
    rw [Set.range_list_map]
    intro name hname
    obtain ⟨cpuId, rfl⟩ := h.named name ((hnames name).mp hname)
    exact ⟨cpuId, rfl⟩
  have hmem : ∀ cpuId, cpuId ∈ cpus ↔ (contents cpuId).isSome = true := by
    intro cpuId
    rw [← List.mem_map_of_injective fun a b hab => filename_inj.mp hab, hnames, h.file,
      Option.isSome_map]
  obtain ⟨loaded, hloaded, hlookup⟩ := foldlM_loadInto h cpus (fun cpuId => (hmem cpuId).mp) ∅
  refine ⟨loaded, by rw [loadPerformanceData, hfilter, hloaded], fun cpuId => ?_⟩
  rw [hlookup]
  split_ifs with hcpu
  · rfl
  · rw [hmem, Option.not_isSome_iff_eq_none] at hcpu
    rw [hcpu, AList.lookup_empty]
    rfl

/-! ## What the entries are -/

/-- A log of 64-bit counters and times from 0 on, and a frequency of at least 1 Hz. -/
structure Run.Measured (run : Run) : Prop where
  time : ∀ e ∈ run.log, 0 ≤ e.timestampNs ∧ e.timestampNs < 2 ^ 63
  counter : ∀ e ∈ run.log, ∀ counter ∈ [Entry.stallMem, Entry.instRetire, Entry.cpuUnhalt,
    Entry.llcMisses, Entry.swPrefetch], counter e < 2 ^ 64
  frequency : 1 / 10 ^ 6 ≤ run.tscPerUs.val

theorem abs_sinceLast_lt {counter : Entry → Nat} {a b : Entry} (ha : counter a < 2 ^ 64)
    (hb : counter b < 2 ^ 64) : |sinceLast counter a b| < 2 ^ 64 := by
  have haq : (counter a : ℚ) < 2 ^ 64 := by exact_mod_cast ha
  have hbq : (counter b : ℚ) < 2 ^ 64 := by exact_mod_cast hb
  have hazero : (0 : ℚ) ≤ counter a := Nat.cast_nonneg _
  have hbzero : (0 : ℚ) ≤ counter b := Nat.cast_nonneg _
  rw [sinceLast_eq, abs_lt]
  constructor <;> linarith

/-- A microsecond is divided into 1000 parts. -/
theorem le_timeDeltaUs {a b : Entry} (h : a.timestampNs < b.timestampNs) :
    1 / 1000 ≤ timeDeltaUs a b := by
  have hdelta : (1 : ℚ) ≤ timeDeltaNs a b := by
    rw [timeDeltaNs]
    exact_mod_cast (by omega : 1 ≤ b.timestampNs - a.timestampNs)
  exact div_le_div_of_nonneg_right hdelta (by norm_num)

theorem abs_div_lt {x bound d low : ℚ} (hx : |x| < bound) (hlow : 0 < low) (hd : low ≤ d) :
    |x / d| < bound / low := by
  have hpos : 0 < d := lt_of_lt_of_le hlow hd
  have hbound : 0 ≤ bound := (abs_nonneg x).trans hx.le
  rw [abs_div, abs_of_pos hpos]
  calc |x| / d < bound / d := div_lt_div_of_pos_right hx hpos
    _ ≤ bound / low := div_le_div_of_nonneg_left hbound hlow hd

/-- The rates of 64-bit counters are far below the largest number of the format. -/
theorem Run.Measured.rate_lt {run : Run} (h : run.Measured) {a b : Entry} (ha : a ∈ run.log)
    (hb : b ∈ run.log) (hlt : a.timestampNs < b.timestampNs) (r : Rate) :
    |rateOf (perfEntry run.tscPerUs a b) r| < 2 ^ (127 : ℤ) := by
  have hdelta := le_timeDeltaUs hlt
  have hsince : ∀ counter ∈ [Entry.stallMem, Entry.instRetire, Entry.cpuUnhalt,
      Entry.llcMisses, Entry.swPrefetch], |sinceLast counter a b| < 2 ^ 64 :=
    fun counter hcounter => abs_sinceLast_lt (h.counter a ha counter hcounter)
      (h.counter b hb counter hcounter)
  have hrate : ∀ x, |x| < 2 ^ 64 → |x / timeDeltaUs a b| < 2 ^ 64 * 1000 := by
    intro x hx
    have := abs_div_lt hx (by norm_num) hdelta
    linarith
  cases r with
  | stallsPerUs =>
    exact (hrate _ (hsince Entry.stallMem (by simp))).trans (by norm_num)
  | instRetireRate =>
    exact (hrate _ (hsince Entry.instRetire (by simp))).trans (by norm_num)
  | llcMissesRate =>
    exact (hrate _ (hsince Entry.llcMisses (by simp))).trans (by norm_num)
  | swPrefetchRate =>
    exact (hrate _ (hsince Entry.swPrefetch (by simp))).trans (by norm_num)
  | cpuUsage =>
    have hlow : 1 / 10 ^ 6 * (1 / 1000) ≤ run.tscPerUs.val * timeDeltaUs a b :=
      mul_le_mul h.frequency hdelta (by norm_num) run.tscPerUs.property.le
    refine (abs_div_lt (hsince Entry.cpuUnhalt (by simp)) (by norm_num) hlow).trans ?_
    norm_num
  | memoryBandwidthBytesPerUs =>
    have hsum : |64 * (sinceLast Entry.llcMisses a b + sinceLast Entry.swPrefetch a b)| <
        2 ^ 64 * 128 := by
      have hmisses := abs_lt.mp (hsince Entry.llcMisses (by simp))
      have hprefetch := abs_lt.mp (hsince Entry.swPrefetch (by simp))
      rw [abs_lt]
      constructor <;> linarith
    have hmemory : rateOf (perfEntry run.tscPerUs a b) .memoryBandwidthBytesPerUs =
        memoryBandwidth a b := rfl
    rw [hmemory, memoryBandwidth_eq]
    refine (abs_div_lt hsum (by norm_num) hdelta).trans ?_
    norm_num

theorem Run.Measured.packs {run : Run} (h : run.Measured) {cpuId : Int} {p : PerfEntry}
    (hp : p ∈ run.file cpuId) : packs p = true := by
  obtain ⟨a, ha, b, hb, hlt, rfl⟩ := mem_coreFile hp
  have htimeA := h.time a ha
  have htimeB := h.time b hb
  have hrates : ∀ r, (single.pack (rateOf (perfEntry run.tscPerUs a b) r)).isSome = true :=
    fun r => Format.pack_isSome (by decide) (by decide) (h.rate_lt ha hb hlt r)
  have hdelta : (perfEntry run.tscPerUs a b).timeDeltaNs = b.timestampNs - a.timestampNs := rfl
  have htime : (perfEntry run.tscPerUs a b).timestampNs = b.timestampNs := rfl
  rw [CoreFiles.packs, Bool.and_eq_true, Bool.and_eq_true, List.all_eq_true, fitsUnsigned_iff,
    fitsUnsigned_iff, hdelta, htime]
  exact ⟨⟨by omega, fun r _ => hrates r⟩, by omega⟩

theorem mem_coresInOrder {log : List Entry} {cpuId : Int} :
    cpuId ∈ coresInOrder log ↔ cpuId ∈ cores log := by
  rw [coresInOrder, cores, List.mem_reverse, List.mem_dedup, List.mem_reverse, List.mem_dedup]

theorem Run.opened_subset (run : Run) : run.opened ⊆ cores run.log := by
  intro cpuId h
  rw [Run.opened] at h
  split_ifs at h
  · exact absurd h List.not_mem_nil
  · exact mem_coresInOrder.mp (openedFrom_subset run.file _ h)

/-- Such a run opens the file of every core of its log and fills it. -/
theorem Run.Measured.complete {run : Run} (h : run.Measured) {cpuId : Int}
    (hcpu : cpuId ∈ cores run.log) : cpuId ∈ run.opened ∧ run.written cpuId = run.file cpuId := by
  have hall : ∀ cpuId, (run.file cpuId).all CoreFiles.packs = true :=
    fun cpuId => List.all_eq_true.mpr fun p hp => h.packs hp
  constructor
  · rw [Run.opened, heapLoop_of_nonneg fun e he => (h.time e he).1, if_neg Bool.false_ne_true,
      openedFrom_of_packs fun cpuId _ => hall cpuId]
    exact mem_coresInOrder.mpr hcpu
  · exact List.takeWhile_eq_self_iff.mpr fun p hp => h.packs hp

/-- The entries of a core in the order of time. -/
theorem Run.file_sorted (run : Run) (cpuId : Int) :
    (run.file cpuId).Pairwise fun p q => p.timestampNs < q.timestampNs := by
  have hkept : ((kept (coreRecords run.log cpuId)).map Entry.timestampNs).Pairwise (· < ·) :=
    List.isChain_iff_pairwise.mp ((List.isChain_map _).mpr (kept_chain _))
  have htimes : (run.file cpuId).map PerfEntry.timestampNs =
      ((kept (coreRecords run.log cpuId)).map Entry.timestampNs).tail := by
    rw [Run.file, coreFile, List.map_map, ← List.map_tail]
    have hsnd : (LogParsing.consecutive (kept (coreRecords run.log cpuId))).map Prod.snd =
        (kept (coreRecords run.log cpuId)).tail :=
      List.map_snd_zip (by simp)
    rw [← hsnd, List.map_map]
    rfl
  rw [← List.pairwise_map (f := PerfEntry.timestampNs), htimes]
  exact hkept.tail

/-- The entry read back: times as they were, rates to half the distance of neighbours. -/
structure ReadBack (p : PerfEntry) (q : LoadedEntry) : Prop where
  timestampNs : (q.timestampNs : Int) = p.timestampNs
  timeDeltaNs : (q.timeDeltaNs : Int) = p.timeDeltaNs
  rate : ∀ r, ∃ y, q.rate r = some y ∧
    |y - rateOf p r| ≤ max (|rateOf p r| / 2 ^ 24) (1 / 2 ^ 150)

theorem readBack_stored {p : PerfEntry} (h : packs p = true) : ReadBack p (stored p) := by
  simp only [packs, Bool.and_eq_true, fitsUnsigned_iff] at h
  obtain ⟨⟨⟨htime, -⟩, -⟩, hdelta, -⟩ := h
  refine ⟨Int.toNat_of_nonneg htime, Int.toNat_of_nonneg hdelta, fun r => ⟨_, rfl, ?_⟩⟩
  have hleast : single.spacing single.minExponent / 2 = 1 / 2 ^ 150 := by
    rw [Format.spacing, Format.minExponent]
    norm_num [single]
  rw [← hleast]
  exact Format.abs_round_sub_le _

/-- Over any runs the directory can be read once there is one, whatever the order of the names.
Each core has the entries of the last run that opened its file, which may be earlier than the last
run of all. -/
theorem loaded_from_last_runs (runs : List Run) :
    ((afterRuns runs).isSome = true ↔ ∃ run ∈ runs, (heapLoop run.log).raised = false) ∧
    (∀ dir names, afterRuns runs = some dir → Lists dir names →
      ∃ loaded, loadPerformanceData dir names = some loaded ∧
        ∀ cpuId, loaded.lookup cpuId =
          (lastToOpen runs cpuId).map fun run => (run.written cpuId).map stored) ∧
    (∀ run : Run, ∀ cpuId, run.written cpuId <+: coreFile run.tscPerUs run.log cpuId ∧
      ((run.written cpuId).Pairwise fun p q => p.timestampNs < q.timestampNs) ∧
      ∀ p ∈ run.written cpuId, ReadBack p (stored p)) ∧
    (∀ run : Run, run.opened ⊆ cores run.log) ∧
    ∀ run : Run, run.Measured → ∀ cpuId ∈ cores run.log, cpuId ∈ run.opened ∧
      run.written cpuId = coreFile run.tscPerUs run.log cpuId := by
  refine ⟨afterRuns_isSome runs, ?_, ?_, Run.opened_subset, fun run h cpuId => h.complete⟩
  · intro dir names hdir hnames
    have hholds := afterRuns_holds runs
    rw [hdir, Option.getD_some] at hholds
    obtain ⟨loaded, hloaded, hlookup⟩ := loadPerformanceData_holds hholds hnames
    refine ⟨loaded, hloaded, fun cpuId => ?_⟩
    rw [hlookup, contentsAfter, Option.map_map]
    rfl
  · intro run cpuId
    have hbegins : run.written cpuId <+: run.file cpuId := List.takeWhile_prefix _
    refine ⟨hbegins, (run.file_sorted cpuId).sublist hbegins.sublist, fun p hp => ?_⟩
    exact readBack_stored (List.mem_takeWhile_imp hp)

theorem one_megahertz_pos : (0 : ℚ) < 1 := one_pos

/-- A run on the log of two cores, and one on a later log that has only the first of them. -/
def steadyRun : Run := ⟨⟨1, one_megahertz_pos⟩, steadyLog⟩
def laterRun : Run :=
  ⟨⟨1, one_megahertz_pos⟩, [⟨0, 4000, 0, 0, 0, 5, 0⟩, ⟨0, 5000, 0, 0, 0, 6, 0⟩]⟩

theorem steadyRun_measured : steadyRun.Measured where
  time := by decide
  counter := by decide
  frequency := by norm_num [steadyRun]

/-- The second core still has the entries of the first run. -/
theorem core_of_earlier_run_loaded : ∃ dir names loaded,
    afterRuns [steadyRun, laterRun] = some dir ∧ Lists dir names ∧
    loadPerformanceData dir names = some loaded ∧
    loaded.lookup 1 = some ((coreFile steadyRun.tscPerUs steadyLog 1).map stored) := by
  obtain ⟨hmade, hload, -, hopened, hfull⟩ := loaded_from_last_runs [steadyRun, laterRun]
  have hlater : (heapLoop laterRun.log).raised = false := heapLoop_of_nonneg (by decide)
  obtain ⟨dir, hdir⟩ := Option.isSome_iff_exists.mp
    (hmade.mpr ⟨laterRun, List.mem_cons_of_mem _ List.mem_cons_self, hlater⟩)
  obtain ⟨loaded, hloaded, hlookup⟩ := hload dir _ hdir (lists_opened hdir)
  obtain ⟨hfirst, hwritten⟩ := hfull steadyRun steadyRun_measured 1 (by decide)
  have hnot : 1 ∉ laterRun.opened := fun h => absurd (hopened laterRun h) (by decide)
  have hlast : lastToOpen [steadyRun, laterRun] 1 = some steadyRun := by
    simp [lastToOpen, hnot, hfirst]
  refine ⟨dir, _, loaded, hdir, lists_opened hdir, hloaded, ?_⟩
  rw [hlookup, hlast, Option.map_some, hwritten]
  rfl

end CoreFiles
