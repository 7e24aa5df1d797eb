import Hiresperf.InvocationMetrics
import Hiresperf.LdbDecoders
import Hiresperf.NodeBandwidth
import Mathlib.Algebra.Order.Round
import Mathlib.Data.Rat.Floor

/-!
# The analysis database over many runs

The scripts that write to `analysis.duckdb`. Each of them creates its tables if
they are missing and else appends to them. `parse_hrp.py` numbers its rows from
1 in every run, `parse_ldb.py` starts a new map of descriptions, and
`compute_invocation_metrics.py` inserts the pairs of its join whether or not they
are there. `search_func.py` continues the numbers of its table, and
`parse_sched.py` refuses to run twice.
-/

namespace AnalysisDatabase

open InvocationMetrics LdbDecoders LogParsing SchedIntervals

/-! ## Tables -/

structure PerfTable where
  columns : List String
  rows : List PerfEvent

/-- What `finfomap` holds for a program counter. -/
structure FuncInfo where
  funcDesc : String
  sourceLoc : String

/-- A row of `ldb_events`. -/
structure LdbRow where
  event : LdbEvent
  funcDesc : Option String
  funcDescId : Nat
  sourceLoc : Option String

/-- A missing table is `none`. The tables of a function are named after it. -/
structure AnalysisDb where
  performanceEvents : Option PerfTable
  nodeMemoryBandwidth : Option (List NodeInterval)
  threadsScheduling : Option (List Interval)
  ldbEvents : Option (List LdbRow)
  invocations : String → Option Invocations
  invToPerf : String → Option (List (Int × Int))

def AnalysisDb.empty : AnalysisDb := ⟨none, none, none, none, fun _ => none, fun _ => none⟩

def AnalysisDb.perfRows (db : AnalysisDb) : List PerfEvent :=
  (db.performanceEvents.map PerfTable.rows).getD []

def AnalysisDb.ldbRows (db : AnalysisDb) : List LdbRow := db.ldbEvents.getD []

def AnalysisDb.pairRows (db : AnalysisDb) (functionName : String) : List (Int × Int) :=
  (db.invToPerf functionName).getD []

/-! ## `parse_hrp.py` -/

structure HrpArgs extends NodeBandwidth.Args where
  useRaw : Bool
  useImc : Bool
  useRdt : Bool
  useRdtLocalBw : Bool
  useTscTs : Bool
  tscPerUs : ℚ
  cpuId : Option (BitVec 32)
  tscPerUs_pos : 0 < tscPerUs

/-- `round(0).cast(pl.UInt64, strict=False)`: null if the number does not fit. -/
def castUInt64 (x : ℚ) : Option Nat :=
  if 0 ≤ round x ∧ round x < 2 ^ 64 then some (round x).toNat else none

/-- A time of the log in nanoseconds. -/
def HrpArgs.toNs (args : HrpArgs) (time : BitVec 64) : Option Nat :=
  if args.useTscTs then castUInt64 (time.toNat * 1000 / args.tscPerUs) else some time.toNat

def HrpArgs.timeDeltaUs (args : HrpArgs) (d : DiffRow) : ℚ :=
  if args.useTscTs then d.timeDelta.toNat / args.tscPerUs else d.timeDelta.toNat / 1000

/-- The columns with the counters combined. In the other modes the script ends before it opens
the database. -/
def HrpArgs.columns (args : HrpArgs) : List String :=
  ["id", "cpu_id", "timestamp_ns", "stalls_total_rate", "stalls_l1d_miss_rate",
    "stalls_l2_miss_rate", "stalls_l3_miss_rate", "inst_retire_rate", "cpu_usage",
    "time_delta_ns"] ++
  (if args.useRaw then ["stalls_l2_miss", "inst_retire", "stalls_l3_miss", "cpu_unhalt",
    "stalls_total", "stalls_l1d_miss"] else []) ++
  (if args.useImc then ["imc_read", "imc_write"] else []) ++
  (if args.useRdt then ["total_bw"] ++ (if args.useRdtLocalBw then ["local_bw"] else []) ++
    ["occupancy"] else [])

/-- A row of `perf_df` with the columns that are read again. -/
def HrpArgs.perfEvent (args : HrpArgs) (id : Int) (d : DiffRow) : PerfEvent where
  id := id
  cpuId := d.cpuId.toInt
  timestampNs := args.toNs d.timestamp
  stallsPerUs := none
  cpuUsage := some ((d.diff .cpuUnhalt).toNat / (args.tscPerUs * args.timeDeltaUs d))
  memoryBandwidthBytesPerUs := none
  instRetireRate := some ((d.diff .instRetire).toNat / args.timeDeltaUs d)
  timeDeltaNs := args.toNs d.timeDelta

/-- `with_row_index("id", offset=1)`. -/
def HrpArgs.perfDf (args : HrpArgs) (log : List Row) : List PerfEvent :=
  (logDiffs args.cpuId log).zipIdx.map fun p => args.perfEvent (p.2 + 1) p.1

/-- `create_tables_dynamic`. -/
def AnalysisDb.createPerf (args : HrpArgs) (db : AnalysisDb) : AnalysisDb :=
  { db with
    performanceEvents := some (db.performanceEvents.getD ⟨args.columns, []⟩)
    nodeMemoryBandwidth := some (db.nodeMemoryBandwidth.getD []) }

/-- The run gets to its `INSERT`, and the table has the columns. -/
def hrpInserts (args : HrpArgs) (log : List Row) (db : AnalysisDb) : Bool :=
  !(selectCpu args.cpuId log).isEmpty && !args.hasRwPair &&
    args.columns.all fun c => (db.performanceEvents.getD ⟨args.columns, []⟩).columns.contains c

/-- An empty log is not written; `64.0.alias` raises before the database is opened; and an
`INSERT` into columns that the table does not have fails after the tables were made. -/
def parseHrp (args : HrpArgs) (log : List Row) (db : AnalysisDb) : AnalysisDb :=
  if (selectCpu args.cpuId log).isEmpty || args.hasRwPair then db
  else if hrpInserts args log db then
    { db.createPerf args with
      performanceEvents := (db.createPerf args).performanceEvents.map fun table =>
        { table with rows := table.rows ++ args.perfDf log } }
  else db.createPerf args

/-! ## `parse_ldb.py` -/

/-- The description of an event with a program counter. -/
def describe (finfomap : Int → Option FuncInfo) (event : LdbEvent) : Option FuncInfo :=
  event.pc.map fun pc => (finfomap pc).getD ⟨"???", "???"⟩

/-- The loop with `func_desc_map` and `next_func_desc_id`. -/
def annotate (finfomap : Int → Option FuncInfo) (funcDescMap : List (String × Nat))
    (nextFuncDescId : Nat) : List LdbEvent → List LdbRow
  | [] => []
  | event :: rest =>
    match describe finfomap event with
    | none => ⟨event, none, 0, none⟩ :: annotate finfomap funcDescMap nextFuncDescId rest
    | some info =>
      match funcDescMap.lookup info.funcDesc with
      | some id => ⟨event, some info.funcDesc, id, some info.sourceLoc⟩ ::
          annotate finfomap funcDescMap nextFuncDescId rest
      | none => ⟨event, some info.funcDesc, nextFuncDescId, some info.sourceLoc⟩ ::
          annotate finfomap (funcDescMap ++ [(info.funcDesc, nextFuncDescId)])
            (nextFuncDescId + 1) rest

/-- One run on a log, with what the executable says about the program counters. DuckDB refuses
the `INSERT` as a whole if a value does not fit its column. -/
structure LdbInput where
  ldbData : List UInt8
  finfomap : Int → Option FuncInfo
  accepts : List LdbRow → Bool

def LdbInput.rows (input : LdbInput) : List LdbRow :=
  annotate input.finfomap [] 1 (parseLdbData input.ldbData).events

def parseLdb (input : LdbInput) (db : AnalysisDb) : AnalysisDb :=
  { db with
    ldbEvents := some (if input.accepts input.rows then db.ldbRows ++ input.rows else db.ldbRows) }

/-! ## The other scripts -/

/-- The columns of `performance_events` that the second join names. -/
def joinColumns : List String :=
  ["id", "cpu_id", "timestamp_ns", "stalls_per_us", "cpu_usage", "memory_bandwidth_bytes_per_us",
    "inst_retire_rate", "time_delta_ns"]

/-- The tables of a run of `compute_invocation_metrics.py`, if it has all that it needs. -/
def AnalysisDb.tables (db : AnalysisDb) (functionName : String) : Option Tables :=
  match db.threadsScheduling, db.performanceEvents, db.nodeMemoryBandwidth,
      db.invocations functionName with
  | some sched, some perf, some node, some invs =>
    if joinColumns.all fun c => perf.columns.contains c then
      some ⟨sched, perf.rows, node, invs, db.pairRows functionName⟩
    else none
  | _, _, _, _ => none

def compute (functionName : String) (db : AnalysisDb) : AnalysisDb :=
  match db.tables functionName with
  | none => db
  | some t =>
    { db with
      invocations := Function.update db.invocations functionName
        (some (computeInvocationMetrics t).invocations)
      invToPerf := Function.update db.invToPerf functionName
        (some (computeInvocationMetrics t).invToPerf) }

/-- `parse_sched.py` does not touch a table that exists, and makes none without intervals. -/
def parseSched (intervals : List Interval) (db : AnalysisDb) : AnalysisDb :=
  if intervals.isEmpty then db
  else { db with threadsScheduling := some (db.threadsScheduling.getD intervals) }

/-- `search_func.py` with the samples that it takes from `ldb_events`. -/
def search (functionName : String) (samples : List StackSample) (db : AnalysisDb) : AnalysisDb :=
  if db.ldbEvents.isNone then db
  else
    { db with
      invocations := Function.update db.invocations functionName (some
        (searchFunc ((db.invocations functionName).getD ⟨[], List.nodup_nil⟩) samples)) }

/-- One run of a script on its inputs. -/
inductive Script where
  | parseHrp (args : HrpArgs) (log : List Row)
  | parseLdb (input : LdbInput)
  | compute (functionName : String)
  | parseSched (intervals : List Interval)
  | searchFunc (functionName : String) (samples : List StackSample)

def Script.run (db : AnalysisDb) : Script → AnalysisDb
  | .parseHrp args log => AnalysisDatabase.parseHrp args log db
  | .parseLdb input => AnalysisDatabase.parseLdb input db
  | .compute functionName => AnalysisDatabase.compute functionName db
  | .parseSched intervals => AnalysisDatabase.parseSched intervals db
  | .searchFunc functionName samples => search functionName samples db

/-- The database after the scripts have run in order. -/
def after (db : AnalysisDb) (scripts : List Script) : AnalysisDb := scripts.foldl Script.run db

/-! ## Keys -/

/-- Among the ids other than 0, an id has one description and a description one id. -/
def FuncDescKeys (rows : List LdbRow) : Prop :=
  ∀ r ∈ rows, ∀ r' ∈ rows, r.funcDescId ≠ 0 → r'.funcDescId ≠ 0 →
    (r.funcDescId = r'.funcDescId ↔ r.funcDesc = r'.funcDesc)

@[mk_iff]
structure KeysUnique (db : AnalysisDb) : Prop where
  perfIds : (db.perfRows.map PerfEvent.id).Nodup
  funcDescIds : FuncDescKeys db.ldbRows
  pairs : ∀ functionName, (db.pairRows functionName).Nodup

/-- The keys are unique in every state of the run, and a second run of
`compute_invocation_metrics.py` right after the first changes nothing. -/
structure KeysSurvive (db : AnalysisDb) (scripts : List Script) : Prop where
  unique : ∀ done, done <+: scripts → KeysUnique (after db done)
  twice : ∀ done functionName,
    done ++ [Script.compute functionName, Script.compute functionName] <+: scripts →
      after db (done ++ [Script.compute functionName, Script.compute functionName]) =
        after db (done ++ [Script.compute functionName])

/-- The descriptions in the order in which they first occur. -/
def firstSeen (finfomap : Int → Option FuncInfo) (seen : List String) :
    List LdbEvent → List String
  | [] => seen
  | event :: rest =>
    match describe finfomap event with
    | none => firstSeen finfomap seen rest
    | some info =>
      if info.funcDesc ∈ seen then firstSeen finfomap seen rest
      else firstSeen finfomap (seen ++ [info.funcDesc]) rest

def LdbInput.descs (input : LdbInput) : List String :=
  firstSeen input.finfomap [] (parseLdbData input.ldbData).events

/-- When a script may run: the ids that `parse_hrp.py` counts up to are not taken; the table
numbers the descriptions of the log as the log does; and no event of an invocation is mapped to
it yet. -/
def MeetsCondition (db : AnalysisDb) : Script → Prop
  | .parseHrp args log => hrpInserts args log db = true →
      ∀ e ∈ db.perfRows, e.id < 1 ∨ ((logDiffs args.cpuId log).length : Int) < e.id
  | .parseLdb input => input.accepts input.rows = true →
      ∀ r ∈ db.ldbRows, r.funcDescId ≠ 0 → ∀ d ∈ input.descs,
        (r.funcDescId = input.descs.idxOf d + 1 ↔ r.funcDesc = some d)
  | .compute functionName => ∀ t ∈ db.tables functionName, ∀ inv ∈ t.invocations.rows,
      ∀ e ∈ t.attributed inv, (inv.id, e.id) ∉ db.pairRows functionName
  | .parseSched _ => True
  | .searchFunc _ _ => True

/-- Every step of the run meets the condition in the state it starts in. -/
def StepsMeet (db : AnalysisDb) (scripts : List Script) : Prop :=
  ∀ done script, done ++ [script] <+: scripts → MeetsCondition (after db done) script

/-! ## One run of `parse_hrp.py` -/

theorem perfRows_parseHrp (args : HrpArgs) (log : List Row) (db : AnalysisDb) :
    (parseHrp args log db).perfRows =
      if hrpInserts args log db then db.perfRows ++ args.perfDf log else db.perfRows := by
  rw [parseHrp]
  by_cases hearly : ((selectCpu args.cpuId log).isEmpty || args.hasRwPair) = true
  · have hnone : hrpInserts args log db = false := by
      rw [Bool.or_eq_true] at hearly
      rcases hearly with hempty | hpair
      · simp [hrpInserts, hempty]
      · simp [hrpInserts, hpair]
    rw [if_pos hearly, hnone]
    rfl
  · rw [if_neg hearly]
    split_ifs
    all_goals
      cases hperf : db.performanceEvents <;>
        simp [AnalysisDb.perfRows, AnalysisDb.createPerf, hperf]

theorem ldbRows_parseHrp (args : HrpArgs) (log : List Row) (db : AnalysisDb) :
    (parseHrp args log db).ldbRows = db.ldbRows := by
  rw [parseHrp]
  split_ifs <;> rfl

theorem pairRows_parseHrp (args : HrpArgs) (log : List Row) (db : AnalysisDb) :
    (parseHrp args log db).pairRows = db.pairRows := by
  rw [parseHrp]
  split_ifs <;> rfl

/-- The ids of a run are the numbers from 1 on. -/
theorem ids_perfDf (args : HrpArgs) (log : List Row) :
    (args.perfDf log).map PerfEvent.id =
      (List.range (logDiffs args.cpuId log).length).map fun i : Nat => (i : Int) + 1 := by
  rw [HrpArgs.perfDf, List.map_map, List.range_eq_range', ← List.zipIdx_map_snd, List.map_map]
  rfl

theorem ids_append_nodup_iff {rows : List PerfEvent} (hrows : (rows.map PerfEvent.id).Nodup)
    (args : HrpArgs) (log : List Row) :
    ((rows ++ args.perfDf log).map PerfEvent.id).Nodup ↔
      ∀ e ∈ rows, e.id < 1 ∨ ((logDiffs args.cpuId log).length : Int) < e.id := by
  have hnew : ((List.range (logDiffs args.cpuId log).length).map fun i : Nat => (i : Int) + 1).Nodup :=
    List.nodup_range.map fun i j h => by simpa using h
  rw [List.map_append, ids_perfDf, List.nodup_append]
  constructor
  · rintro ⟨-, -, hdisjoint⟩ e he
    by_contra hcon
    rw [not_or, not_lt, not_lt] at hcon
    have hmem : e.id ∈ (List.range (logDiffs args.cpuId log).length).map fun i : Nat => (i : Int) + 1 := by
      refine List.mem_map.mpr ⟨(e.id - 1).toNat, List.mem_range.mpr (by omega), by omega⟩
    exact hdisjoint e.id (List.mem_map_of_mem he) e.id hmem rfl
  · intro h
    refine ⟨hrows, hnew, ?_⟩
    intro id hid id' hid' heq
    obtain ⟨e, he, rfl⟩ := List.mem_map.mp hid
    obtain ⟨i, hi, rfl⟩ := List.mem_map.mp hid'
    have hlt := List.mem_range.mp hi
    have := h e he
    omega

theorem keysUnique_parseHrp_iff {db : AnalysisDb} (h : KeysUnique db) (args : HrpArgs)
    (log : List Row) :
    KeysUnique (parseHrp args log db) ↔ MeetsCondition db (.parseHrp args log) := by
  rw [keysUnique_iff, perfRows_parseHrp, ldbRows_parseHrp, pairRows_parseHrp]
  simp only [h.pairs, h.funcDescIds, MeetsCondition, implies_true, and_true]
  split_ifs with hinserts
  · rw [ids_append_nodup_iff h.perfIds]
    simp [hinserts]
  · simp [hinserts, h.perfIds]

/-! ## One run of `parse_ldb.py` -/

/-- The map of the loop: the descriptions seen so far, numbered from 1. -/
def descMap (seen : List String) : List (String × Nat) :=
  seen.map fun d => (d, seen.idxOf d + 1)

theorem lookup_descMap (seen : List String) (d : String) :
    (descMap seen).lookup d = if d ∈ seen then some (seen.idxOf d + 1) else none :=
  Relational.lookup_map_pair _ _ _

theorem descMap_append {seen : List String} {d : String} (h : d ∉ seen) :
    descMap seen ++ [(d, seen.length + 1)] = descMap (seen ++ [d]) := by
  simp only [descMap, List.map_append, List.map_cons, List.map_nil]
  congr 1
  · apply List.map_congr_left
    intro d' hd'
    rw [List.idxOf_append_of_mem hd']
  · rw [List.idxOf_append_of_notMem h]
    simp

theorem prefix_firstSeen (finfomap : Int → Option FuncInfo) (seen : List String)
    (events : List LdbEvent) : seen <+: firstSeen finfomap seen events := by
  induction events generalizing seen with
  | nil => exact List.prefix_refl seen
  | cons event rest ih =>
    rw [firstSeen]
    cases describe finfomap event with
    | none => exact ih seen
    | some info =>
      by_cases hseen : info.funcDesc ∈ seen
      · simpa [hseen] using ih seen
      · simpa [hseen] using (List.prefix_append _ _).trans (ih (seen ++ [info.funcDesc]))

theorem idxOf_extended {l l' : List String} (h : l <+: l') {d : String} (hd : d ∈ l) :
    l'.idxOf d = l.idxOf d := by
  obtain ⟨rest, rfl⟩ := h
  exact List.idxOf_append_of_mem hd

/-- What the loop writes into a row: no id without a description, else the number of the
description in the log. -/
def RowNumbered (descs : List String) (r : LdbRow) : Prop :=
  (r.funcDesc = none ∧ r.funcDescId = 0) ∨
    ∃ d ∈ descs, r.funcDesc = some d ∧ r.funcDescId = descs.idxOf d + 1

theorem annotate_numbered (finfomap : Int → Option FuncInfo) (seen : List String)
    (events : List LdbEvent) :
    ∀ r ∈ annotate finfomap (descMap seen) (seen.length + 1) events,
      RowNumbered (firstSeen finfomap seen events) r := by
  induction events generalizing seen with
  | nil => simp [annotate]
  | cons event rest ih =>
    rw [annotate, firstSeen]
    cases describe finfomap event with
    | none =>
      intro r hr
      rcases List.mem_cons.mp hr with rfl | htail
      · exact Or.inl ⟨rfl, rfl⟩
      · exact ih seen r htail
    | some info =>
      simp only [lookup_descMap]
      by_cases hseen : info.funcDesc ∈ seen
      · simp only [hseen, if_true]
        intro r hr
        rcases List.mem_cons.mp hr with rfl | htail
        · have hpre := prefix_firstSeen finfomap seen rest
          exact Or.inr ⟨info.funcDesc, hpre.subset hseen, rfl, by rw [idxOf_extended hpre hseen]⟩
        · exact ih seen r htail
      · simp only [hseen, if_false, descMap_append hseen]
        intro r hr
        rcases List.mem_cons.mp hr with rfl | htail
        · have hpre := prefix_firstSeen finfomap (seen ++ [info.funcDesc]) rest
          have hmem : info.funcDesc ∈ seen ++ [info.funcDesc] := by simp
          refine Or.inr ⟨info.funcDesc, hpre.subset hmem, rfl, ?_⟩
          rw [idxOf_extended hpre hmem, List.idxOf_append_of_notMem hseen]
          simp
        · exact ih (seen ++ [info.funcDesc]) r (by simpa using htail)

/-- Every description of the log is in a row. -/
theorem exists_row_of_firstSeen (finfomap : Int → Option FuncInfo) (seen : List String)
    (events : List LdbEvent) {d : String} (hd : d ∈ firstSeen finfomap seen events)
    (hnew : d ∉ seen) :
    ∃ r ∈ annotate finfomap (descMap seen) (seen.length + 1) events, r.funcDesc = some d := by
  induction events generalizing seen with
  | nil => exact absurd hd hnew
  | cons event rest ih =>
    rw [annotate]
    rw [firstSeen] at hd
    cases hdescribe : describe finfomap event with
    | none =>
      obtain ⟨r, hr, hrd⟩ := ih seen (by simpa [hdescribe] using hd) hnew
      exact ⟨r, List.mem_cons_of_mem _ hr, hrd⟩
    | some info =>
      simp only [hdescribe] at hd
      simp only [lookup_descMap]
      by_cases hseen : info.funcDesc ∈ seen
      · simp only [hseen, if_true] at hd ⊢
        obtain ⟨r, hr, hrd⟩ := ih seen hd hnew
        exact ⟨r, List.mem_cons_of_mem _ hr, hrd⟩
      · simp only [hseen, if_false, descMap_append hseen] at hd ⊢
        by_cases heq : d = info.funcDesc
        · exact ⟨_, List.mem_cons_self, by rw [heq]⟩
        · obtain ⟨r, hr, hrd⟩ := ih (seen ++ [info.funcDesc]) hd (by simp [hnew, heq])
          exact ⟨r, List.mem_cons_of_mem _ (by simpa using hr), hrd⟩

theorem LdbInput.rows_numbered (input : LdbInput) {r : LdbRow} (hr : r ∈ input.rows) :
    RowNumbered input.descs r :=
  annotate_numbered input.finfomap [] _ r hr

theorem LdbInput.exists_row (input : LdbInput) {d : String} (hd : d ∈ input.descs) :
    ∃ r ∈ input.rows, r.funcDesc = some d :=
  exists_row_of_firstSeen input.finfomap [] _ hd List.not_mem_nil

/-- A row of the log with an id, as description and number. -/
theorem LdbInput.desc_of_row (input : LdbInput) {r : LdbRow} (hr : r ∈ input.rows)
    (hid : r.funcDescId ≠ 0) :
    ∃ d ∈ input.descs, r.funcDesc = some d ∧ r.funcDescId = input.descs.idxOf d + 1 := by
  rcases input.rows_numbered hr with ⟨-, hzero⟩ | hnumbered
  · exact absurd hzero hid
  · exact hnumbered

theorem funcDescKeys_append_iff {rows : List LdbRow} (h : FuncDescKeys rows) (input : LdbInput) :
    FuncDescKeys (rows ++ input.rows) ↔
      ∀ r ∈ rows, r.funcDescId ≠ 0 → ∀ d ∈ input.descs,
        (r.funcDescId = input.descs.idxOf d + 1 ↔ r.funcDesc = some d) := by
  constructor
  · intro hkeys r hr hid d hd
    obtain ⟨new, hnew, hdesc⟩ := input.exists_row hd
    rcases input.rows_numbered hnew with ⟨hnone, -⟩ | ⟨d', -, hdesc', hid'⟩
    · rw [hdesc] at hnone
      cases hnone
    · rw [hdesc] at hdesc'
      cases hdesc'
      have := hkeys r (List.mem_append_left _ hr) new (List.mem_append_right _ hnew) hid (by omega)
      rwa [hid', hdesc] at this
  · intro hagree
    have hmixed : ∀ r ∈ rows, ∀ new ∈ input.rows, r.funcDescId ≠ 0 → new.funcDescId ≠ 0 →
        (r.funcDescId = new.funcDescId ↔ r.funcDesc = new.funcDesc) := by
      intro r hr new hnew hid hid'
      obtain ⟨d, hd, hdesc, hnum⟩ := input.desc_of_row hnew hid'
      rw [hdesc, hnum]
      exact hagree r hr hid d hd
    intro r hr r' hr' hid hid'
    rcases List.mem_append.mp hr with hold | hnew <;> rcases List.mem_append.mp hr' with hold' | hnew'
    · exact h r hold r' hold' hid hid'
    · exact hmixed r hold r' hnew' hid hid'
    · rw [eq_comm, hmixed r' hold' r hnew hid' hid, eq_comm]
    · -- within one run the numbers are positions
      obtain ⟨d, hd, hdesc, hnum⟩ := input.desc_of_row hnew hid
      obtain ⟨d', hd', hdesc', hnum'⟩ := input.desc_of_row hnew' hid'
      rw [hdesc, hdesc', hnum, hnum', Nat.add_right_cancel_iff, List.idxOf_inj hd, Option.some_inj]

theorem keysUnique_parseLdb_iff {db : AnalysisDb} (h : KeysUnique db) (input : LdbInput) :
    KeysUnique (parseLdb input db) ↔ MeetsCondition db (.parseLdb input) := by
  have hperf : (parseLdb input db).perfRows = db.perfRows := rfl
  have hpairs : (parseLdb input db).pairRows = db.pairRows := rfl
  have hldb : (parseLdb input db).ldbRows =
      if input.accepts input.rows then db.ldbRows ++ input.rows else db.ldbRows := rfl
  rw [keysUnique_iff, hperf, hpairs, hldb]
  simp only [h.perfIds, h.pairs, MeetsCondition, implies_true, and_true, true_and]
  split_ifs with haccepts
  · rw [funcDescKeys_append_iff h.funcDescIds]
    simp [haccepts]
  · simp [haccepts, h.funcDescIds]

/-! ## One run of `compute_invocation_metrics.py` -/

theorem compute_of_none {db : AnalysisDb} {functionName : String}
    (h : db.tables functionName = none) : compute functionName db = db := by
  rw [compute, h]

/-- Where the tables of a run come from. -/
theorem tables_eq_some_iff {db : AnalysisDb} {functionName : String} {t : Tables} :
    db.tables functionName = some t ↔
      db.threadsScheduling = some t.threadsScheduling ∧
      (∃ columns, db.performanceEvents = some ⟨columns, t.performanceEvents⟩ ∧
        (joinColumns.all fun c => columns.contains c) = true) ∧
      db.nodeMemoryBandwidth = some t.nodeMemoryBandwidth ∧
      db.invocations functionName = some t.invocations ∧
      t.invToPerf = db.pairRows functionName := by
  rw [AnalysisDb.tables]
  constructor
  · intro h
    split at h
    next sched perf node invs hsched hperf hnode hinvs =>
      split_ifs at h with hcolumns
      cases h
      exact ⟨hsched, ⟨perf.columns, hperf, hcolumns⟩, hnode, hinvs, rfl⟩
    next => cases h
  · rintro ⟨hsched, ⟨columns, hperf, hcolumns⟩, hnode, hinvs, hpairs⟩
    simp only [hsched, hperf, hnode, hinvs, hcolumns, if_true, ← hpairs]

theorem pairRows_compute {db : AnalysisDb} {functionName : String} {t : Tables}
    (h : db.tables functionName = some t) (other : String) :
    (compute functionName db).pairRows other =
      if other = functionName then db.pairRows functionName ++ t.pairs else db.pairRows other := by
  rw [compute, h, ← (tables_eq_some_iff.mp h).2.2.2.2]
  by_cases heq : other = functionName
  · subst heq
    simp [AnalysisDb.pairRows, computeInvocationMetrics]
  · simp [AnalysisDb.pairRows, heq]

theorem perfRows_compute (functionName : String) (db : AnalysisDb) :
    (compute functionName db).perfRows = db.perfRows := by
  rw [compute]
  split <;> rfl

theorem ldbRows_compute (functionName : String) (db : AnalysisDb) :
    (compute functionName db).ldbRows = db.ldbRows := by
  rw [compute]
  split <;> rfl

theorem pairs_append_nodup_iff {t : Tables} {pairs : List (Int × Int)} (h : pairs.Nodup) :
    (pairs ++ t.pairs).Nodup ↔
      ∀ inv ∈ t.invocations.rows, ∀ e ∈ t.attributed inv, (inv.id, e.id) ∉ pairs := by
  rw [List.nodup_append]
  constructor
  · rintro ⟨-, -, hdisjoint⟩ inv hinv e he hmem
    exact hdisjoint _ hmem _ (mem_pairs.mpr ⟨inv, hinv, e, he, rfl⟩) rfl
  · intro hnew
    refine ⟨h, List.nodup_dedup _, ?_⟩
    rintro pair hmem pair' hmem' rfl
    obtain ⟨inv, hinv, e, he, rfl⟩ := mem_pairs.mp hmem'
    exact hnew inv hinv e he hmem

theorem keysUnique_compute_iff {db : AnalysisDb} (h : KeysUnique db) (functionName : String) :
    KeysUnique (compute functionName db) ↔ MeetsCondition db (.compute functionName) := by
  cases htables : db.tables functionName with
  | none =>
    rw [compute_of_none htables]
    simp [h, MeetsCondition, htables]
  | some t =>
    rw [keysUnique_iff, perfRows_compute, ldbRows_compute]
    simp only [h.perfIds, h.funcDescIds, pairRows_compute htables, MeetsCondition, htables,
      Option.mem_some_iff, forall_eq', true_and]
    rw [← pairs_append_nodup_iff (h.pairs functionName)]
    constructor
    · intro hall
      simpa using hall functionName
    · intro hpairs other
      split_ifs
      · exact hpairs
      · exact h.pairs other

/-- A second run finds the tables as the first one left them. -/
theorem tables_compute {db : AnalysisDb} {functionName : String} {t : Tables}
    (h : db.tables functionName = some t) :
    (compute functionName db).tables functionName = some (computeInvocationMetrics t) := by
  obtain ⟨hsched, hperf, hnode, -, -⟩ := tables_eq_some_iff.mp h
  rw [compute, h, tables_eq_some_iff]
  refine ⟨hsched, hperf, hnode, ?_, ?_⟩
  · simp
  · simp [AnalysisDb.pairRows]

/-- A second run that keeps the pairs unique has found none, and so changes nothing. -/
theorem compute_twice {db : AnalysisDb} {functionName : String}
    (h : KeysUnique (compute functionName (compute functionName db))) :
    compute functionName (compute functionName db) = compute functionName db := by
  cases htables : db.tables functionName with
  | none => rw [compute_of_none htables, compute_of_none htables]
  | some t =>
    have hagain := tables_compute htables
    have hnodup := h.pairs functionName
    rw [pairRows_compute hagain, if_pos rfl, pairRows_compute htables, if_pos rfl,
      pairs_computeInvocationMetrics, List.nodup_append] at hnodup
    have hnil : t.pairs = [] := by
      rw [List.eq_nil_iff_forall_not_mem]
      intro pair hpair
      exact hnodup.2.2 pair (List.mem_append_right _ hpair) pair hpair rfl
    have hsame := computeInvocationMetrics_of_pairs_nil hnil
    rw [hsame] at hagain
    rw [compute, hagain, compute, htables]
    simp only [hsame, Function.update_idem]

/-! ## Many runs -/

/-- Every script keeps the keys unique exactly if its condition holds. -/
theorem keysUnique_run_iff {db : AnalysisDb} (h : KeysUnique db) (script : Script) :
    KeysUnique (script.run db) ↔ MeetsCondition db script := by
  cases script with
  | parseHrp args log => exact keysUnique_parseHrp_iff h args log
  | parseLdb input => exact keysUnique_parseLdb_iff h input
  | compute functionName => exact keysUnique_compute_iff h functionName
  | parseSched intervals =>
    have hkeys : KeysUnique (parseSched intervals db) := by
      rw [parseSched]
      split_ifs
      · exact h
      · exact ⟨h.perfIds, h.funcDescIds, h.pairs⟩
    exact iff_of_true hkeys trivial
  | searchFunc functionName samples =>
    have hkeys : KeysUnique (search functionName samples db) := by
      rw [search]
      split_ifs
      · exact h
      · exact ⟨h.perfIds, h.funcDescIds, h.pairs⟩
    exact iff_of_true hkeys trivial

theorem after_append (db : AnalysisDb) (done : List Script) (script : Script) :
    after db (done ++ [script]) = script.run (after db done) := by
  simp [after]

/-- The keys survive a sequence of runs exactly if every run starts in a database that leaves
its ids and pairs free. -/
theorem keys_survive_iff (db : AnalysisDb) (h : KeysUnique db) (scripts : List Script) :
    KeysSurvive db scripts ↔ StepsMeet db scripts := by
  constructor
  · intro hsurvive done script hpre
    have hbefore := hsurvive.unique done ((List.prefix_append done [script]).trans hpre)
    have hafter := hsurvive.unique (done ++ [script]) hpre
    rw [after_append] at hafter
    exact (keysUnique_run_iff hbefore script).mp hafter
  · intro hmeet
    have hunique : ∀ done, done <+: scripts → KeysUnique (after db done) := by
      intro done
      induction done using List.reverseRecOn with
      | nil => exact fun _ => h
      | append_singleton done script ih =>
        intro hpre
        have hbefore := ih ((List.prefix_append done [script]).trans hpre)
        rw [after_append]
        exact (keysUnique_run_iff hbefore script).mpr (hmeet done script hpre)
    refine ⟨hunique, fun done functionName hpre => ?_⟩
    have hlast := hunique _ hpre
    have htwice : done ++ [Script.compute functionName, Script.compute functionName] =
        (done ++ [Script.compute functionName]) ++ [Script.compute functionName] := by simp
    rw [htwice, after_append, after_append] at hlast ⊢
    exact compute_twice hlast

theorem stepsMeet_nil (db : AnalysisDb) : StepsMeet db [] := by
  intro done script hpre
  simp at hpre

theorem stepsMeet_cons {db : AnalysisDb} {first : Script} {rest : List Script}
    (hfirst : MeetsCondition db first) (hrest : StepsMeet (first.run db) rest) :
    StepsMeet db (first :: rest) := by
  intro done script hpre
  cases done with
  | nil =>
    obtain ⟨rfl, -⟩ := List.cons_prefix_cons.mp hpre
    exact hfirst
  | cons head done =>
    obtain ⟨rfl, htail⟩ := List.cons_prefix_cons.mp hpre
    exact hrest done script htail

/-- A database with the tables of one function, before its metrics are computed. -/
def prepared : AnalysisDb where
  performanceEvents := some ⟨joinColumns, (twoTicks (some 1)).performanceEvents⟩
  nodeMemoryBandwidth := some []
  threadsScheduling := some (twoTicks (some 1)).threadsScheduling
  ldbEvents := none
  invocations := Function.update (fun _ => none) "work" (some (twoTicks (some 1)).invocations)
  invToPerf _ := none

theorem prepared_keysUnique : KeysUnique prepared where
  perfIds := by decide
  funcDescIds := by
    intro r hr
    cases hr
  pairs _ := List.nodup_nil

/-- A log with one stack sample, of the given function. -/
def sampleInput (funcDesc : String) : LdbInput :=
  ⟨sampleBytes 0, fun _ => some ⟨funcDesc, "work.c:1:1"⟩, fun _ => true⟩

theorem keys_survive_first_runs :
    KeysSurvive prepared [.parseLdb (sampleInput "work"), .compute "work"] := by
  refine (keys_survive_iff prepared prepared_keysUnique _).mpr ?_
  refine stepsMeet_cons ?_ (stepsMeet_cons ?_ (stepsMeet_nil _))
  · intro _ r hr
    cases hr
  · intro t _ inv _ e _ hmem
    cases hmem

/-- The arguments for a log with combined counters of CPU 10. -/
def combinedArgs : HrpArgs where
  useOffcore := false
  useCounterCombination := true
  useRaw := false
  useImc := false
  useRdt := false
  useRdtLocalBw := false
  useTscTs := false
  tscPerUs := 2000
  cpuId := some 10
  tscPerUs_pos := by decide +kernel

def twoSamples : List Row := [⟨10, 100, fun _ => 0⟩, ⟨10, 200, fun _ => 1⟩]

theorem twoSamples_ticks : 0 < (logDiffs combinedArgs.cpuId twoSamples).length := by
  have hcpu : combinedArgs.cpuId = none ∨ combinedArgs.cpuId = some 10 := Or.inr rfl
  have hincreasing : (twoSamples.filter fun row => row.cpuId == 10).Pairwise
      fun a b => a.timestamp.toNat < b.timestamp.toNat := by decide +kernel
  have htick := congrArg List.length (logDiffs_of_cpu hcpu hincreasing)
  have hle := List.length_filter_le (fun row : DiffRow => row.cpuId == 10)
    (logDiffs combinedArgs.cpuId twoSamples)
  have hone : ((consecutive (twoSamples.filter fun row => row.cpuId == 10)).map
      fun p => diffRow p.1 p.2).length = 1 := by decide +kernel
  omega

theorem empty_keysUnique : KeysUnique .empty where
  perfIds := List.nodup_nil
  funcDescIds _ hr := absurd hr List.not_mem_nil
  pairs _ := List.nodup_nil

/-- The same log twice gives the id 1 twice. -/
theorem not_keysUnique_same_log :
    ¬KeysUnique (parseHrp combinedArgs twoSamples (parseHrp combinedArgs twoSamples .empty)) := by
  have hrows : (parseHrp combinedArgs twoSamples .empty).perfRows =
      combinedArgs.perfDf twoSamples := by
    rw [perfRows_parseHrp]
    simp only [show hrpInserts combinedArgs twoSamples .empty = true by decide +kernel, if_true]
    rfl
  have hone : (1 : Int) ∈ (combinedArgs.perfDf twoSamples).map PerfEvent.id := by
    rw [ids_perfDf]
    exact List.mem_map.mpr ⟨0, List.mem_range.mpr twoSamples_ticks, rfl⟩
  obtain ⟨e, he, hid⟩ := List.mem_map.mp hone
  intro hkeys
  have hfirst : KeysUnique (parseHrp combinedArgs twoSamples .empty) := by
    rw [keysUnique_parseHrp_iff empty_keysUnique]
    intro _ e he
    cases he
  have hmeets := (keysUnique_parseHrp_iff hfirst _ _).mp hkeys (by decide +kernel) e (hrows ▸ he)
  have hticks := twoSamples_ticks
  omega

/-- Two logs give the id 1 to two descriptions. -/
theorem not_keysUnique_two_logs :
    ¬KeysUnique (parseLdb (sampleInput "idle") (parseLdb (sampleInput "work") .empty)) := by
  intro hkeys
  have hrows : ∀ pair ∈ [(1, some "work"), (1, some "idle")], ∃ r ∈
      (parseLdb (sampleInput "idle") (parseLdb (sampleInput "work") .empty)).ldbRows,
      (r.funcDescId, r.funcDesc) = pair := by
    decide +kernel
  obtain ⟨r, hr, hpair⟩ := hrows (1, some "work") (by simp)
  obtain ⟨r', hr', hpair'⟩ := hrows (1, some "idle") (by simp)
  rw [Prod.mk.injEq] at hpair hpair'
  have hdescs := (hkeys.funcDescIds r hr r' hr' (by omega) (by omega)).mp (by omega)
  rw [hpair.2, hpair'.2] at hdescs
  exact absurd hdescs (by decide)

/-- Each of the three keys is lost when its script runs a second time. -/
theorem second_runs_break_keys :
    ¬KeysSurvive .empty [.parseHrp combinedArgs twoSamples, .parseHrp combinedArgs twoSamples] ∧
    ¬KeysSurvive .empty [.parseLdb (sampleInput "work"), .parseLdb (sampleInput "idle")] ∧
    ¬KeysSurvive prepared [.compute "work", .compute "work"] := by
  refine ⟨fun h => ?_, fun h => ?_, fun h => ?_⟩
  · exact not_keysUnique_same_log (h.unique _ (List.prefix_refl _))
  · exact not_keysUnique_two_logs (h.unique _ (List.prefix_refl _))
  · exact absurd ((h.unique _ (List.prefix_refl _)).pairs "work") (by decide +kernel)

end AnalysisDatabase
