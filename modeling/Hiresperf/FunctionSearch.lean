import Hiresperf.AnalysisDatabase
import Hiresperf.Foundation.LikePattern
import Hiresperf.Foundation.PythonText
import Hiresperf.LdbEvents

/-!
# The search for the invocations of a function

`search_func.py` on the rows of `ldb_events`. The name of the function is spliced into
the name of a table, unquoted, so that the script ends with an error for a name such as
`std::sort`, and into a `LIKE` pattern, in which its underscores are wildcards.
`parse_func.py` selects with `startswith`. DuckDB does not tell upper from lower case in
the names of tables, and `random()` gives a number from 0 up to but not including 1.
-/

namespace FunctionSearch

open AnalysisDatabase BinaryFormat InvocationMetrics LdbDecoders LikePattern PythonText

/-! ## Names -/

/-- What an identifier may begin with, as far as ASCII goes. -/
def isIdentStart (c : Char) : Bool := c.isAlpha || c == '_'

def isIdentCont (c : Char) : Bool := isIdentStart c || c.isDigit || c == '$'

def isIdentifier : Text → Bool
  | [] => false
  | c :: rest => isIdentStart c && rest.all isIdentCont

/-- `{function_of_interest}_invocations`. -/
def invocationsTable (functionName : Text) : Text := functionName ++ "_invocations".toList

/-- The table that DuckDB takes `{function_of_interest}_invocations` for, `none` where the
`CREATE TABLE` is an error. An identifier names the table in lower case. Other names are left
open: a name with the schema in front can be read as well, but none with a percent sign or a
quotation mark. Names with a comment in them are counted as errors. -/
structure TableNames where
  table : Text → Option Text
  identifier : ∀ functionName, isIdentifier (invocationsTable functionName) = true →
    table functionName = some ((invocationsTable functionName).map Char.toLower)
  plain : ∀ functionName t, table functionName = some t →
    '%' ∉ functionName ∧ Char.ofNat 39 ∉ functionName

/-! ## `search_func.py` -/

/-- The table `ldb_events`. Its stack samples have a latency, and `int(latency_us * 1000)` has
a value. -/
structure LdbTable where
  rows : List LdbRow
  latency : ∀ row ∈ rows, row.event.eventType = eventStackSample →
    ∃ us, row.event.latencyUs = some us ∧ 0 ≤ us ∧ (binary64.pack (us * 1000)).isSome = true

/-- A value of `random()`. -/
structure Draw where
  value : ℚ
  nonneg : 0 ≤ value
  lt_one : value < 1

/-- The condition of the query. A null is not like anything. -/
def selects (name : Text) (samplingRatio : ℚ) (row : LdbRow) (draw : Draw) : Bool :=
  row.event.eventType == eventStackSample &&
    row.funcDesc.any (fun funcDesc => like (name ++ ['%']) funcDesc.toList) &&
    decide (draw.value < samplingRatio)

def stackSamples (name : Text) (samplingRatio : ℚ) (random : Nat → Draw)
    (rows : List LdbRow) : List LdbRow :=
  (rows.zipIdx.filter fun p => selects name samplingRatio p.1 (random p.2)).map Prod.fst

/-- A row of the invocations of a function, with the two columns that are only stored. -/
structure FoundInvocation extends Invocation where
  latencyUs : ℚ
  funcDesc : Option String

def sampleOf (row : LdbRow) : StackSample where
  timestampNs := row.event.timestampNs
  threadId := row.event.threadId
  latencyUs := row.event.latencyUs.getD 0

def foundInvocation (id : Int) (row : LdbRow) : FoundInvocation where
  toInvocation := newInvocation id (sampleOf row)
  latencyUs := (sampleOf row).latencyUs
  funcDesc := row.funcDesc

/-- The loop that inserts the samples. -/
def insertSamples (nextId : Int) : List LdbRow → List FoundInvocation
  | [] => []
  | row :: rest => foundInvocation nextId row :: insertSamples (nextId + 1) rest

/-- The numbers are those that `InvocationMetrics` gives. -/
theorem insertSamples_numbered (next : Int) (rows : List LdbRow) :
    (insertSamples next rows).map FoundInvocation.toInvocation =
      numbered next (rows.map sampleOf) := by
  induction rows generalizing next with
  | nil => rfl
  | cons row rest ih => simp [insertSamples, numbered, ih, foundInvocation]

structure FoundTable where
  rows : List FoundInvocation
  ids_nodup : ((rows.map FoundInvocation.toInvocation).map Invocation.id).Nodup

def FoundTable.toInvocations (table : FoundTable) : Invocations :=
  ⟨table.rows.map FoundInvocation.toInvocation, table.ids_nodup⟩

def FoundTable.insert (table : FoundTable) (samples : List LdbRow) : FoundTable where
  rows := table.rows ++ insertSamples (nextId table.toInvocations.rows) samples
  ids_nodup := by
    rw [List.map_append, insertSamples_numbered]
    exact (searchFunc table.toInvocations (samples.map sampleOf)).ids_nodup

/-- The columns that are read again are those of `InvocationMetrics.searchFunc`. -/
theorem insert_toInvocations (table : FoundTable) (samples : List LdbRow) :
    (table.insert samples).toInvocations =
      searchFunc table.toInvocations (samples.map sampleOf) := by
  apply Invocations.ext
  change (table.rows ++ insertSamples _ samples).map _ = table.toInvocations.rows ++ _
  rw [List.map_append, insertSamples_numbered]
  rfl

/-- The tables of invocations, by their names; a missing table is empty. -/
abbrev Database := Text → FoundTable

/-- One run of the script, on the table of events as it is then. -/
structure Search where
  functionName : Text
  ldbEvents : LdbTable
  random : Nat → Draw

/-- A ratio that is not valid ends the script before it opens the database, and a name that is
not one of a table before it inserts anything. -/
def searchFunction (sql : TableNames) (samplingRatio : ℚ) (db : Database) (run : Search) :
    Database :=
  if 0 < samplingRatio ∧ samplingRatio ≤ 1 then
    match sql.table run.functionName with
    | none => db
    | some table =>
      Function.update db table ((db table).insert
        (stackSamples run.functionName samplingRatio run.random run.ldbEvents.rows))
  else db

/-- The tables after runs without a sampling ratio, which is 1 then. -/
def afterSearches (sql : TableNames) (db : Database) (runs : List Search) : Database :=
  runs.foldl (searchFunction sql 1) db

/-! ## The rows of `parse_ldb.py` -/

/-- Each event becomes a row. -/
theorem map_event_annotate (finfomap : Int → Option FuncInfo) (funcDescMap : List (String × Nat))
    (next : Nat) (events : List LdbEvent) :
    (annotate finfomap funcDescMap next events).map LdbRow.event = events := by
  induction events generalizing funcDescMap next with
  | nil => rfl
  | cons event rest ih =>
    cases hinfo : describe finfomap event with
    | none => simp [annotate, hinfo, ih]
    | some info =>
      cases hid : funcDescMap.lookup info.funcDesc with
      | none => simp [annotate, hinfo, hid, ih]
      | some id => simp [annotate, hinfo, hid, ih]

/-- A stack sample is written with its latency. -/
theorem latency_of_parseLdb (input : LdbInput) : ∀ row ∈ input.rows,
    row.event.eventType = eventStackSample →
      ∃ us, row.event.latencyUs = some us ∧ 0 ≤ us ∧
        (binary64.pack (us * 1000)).isSome = true := by
  intro row hrow htype
  have hevent : row.event ∈ input.rows.map LdbRow.event := List.mem_map_of_mem hrow
  rw [LdbInput.rows, map_event_annotate] at hevent
  rw [LdbEvents.parseLdbData_eq_run] at hevent
  obtain ⟨-, hevents, -⟩ := LdbEvents.run_events (LdbEvents.knownRecords input.ldbData)
    fun r hr => LdbEvents.known_of_mem_knownRecords hr
  have hmem : LdbEvents.untimed row.event ∈
      (LdbEvents.run (LdbEvents.knownRecords input.ldbData)).events.map LdbEvents.untimed :=
    List.mem_map_of_mem hevent
  rw [hevents] at hmem
  obtain ⟨r, hrecord, hr⟩ := List.mem_map.mp hmem
  have hlatency : (LdbEvents.recordEvent r).latencyUs = row.event.latencyUs := by
    rw [hr]
    rfl
  have hrtype : (LdbEvents.recordEvent r).eventType = row.event.eventType := by
    rw [hr]
    rfl
  have hsample : r.eventType = eventStackSample := hrtype.trans htype
  rw [← hlatency, LdbEvents.recordEvent, if_pos hsample]
  exact ⟨latencyUs r, rfl, latencyUs_finite (arg1_lt (List.mem_of_mem_filter hrecord))⟩

/-- What `parse_ldb.py` writes for a log is such a table. -/
def tableOf (input : LdbInput) : LdbTable := ⟨input.rows, latency_of_parseLdb input⟩

/-! ## Selection by prefix -/

/-- The test of `parse_func.py`. -/
def startsWith (name : Text) (row : LdbRow) : Bool :=
  row.event.eventType == eventStackSample &&
    row.funcDesc.any fun funcDesc => name.isPrefixOf funcDesc.toList

/-- What an invocation says, apart from its number. -/
def content (inv : FoundInvocation) : Int × Int × Int × ℚ × Option String :=
  (inv.threadId, inv.startTimeNs, inv.endTimeNs, inv.latencyUs, inv.funcDesc)

/-- The invocation that a stack sample is the end of. -/
def contentOf (row : LdbRow) : Int × Int × Int × ℚ × Option String :=
  (row.event.threadId, row.event.timestampNs - latencyNs (sampleOf row), row.event.timestampNs,
    row.event.latencyUs.getD 0, row.funcDesc)

variable (sql : TableNames)

/-- The run adds one invocation to the table of the function for each stack sample whose
description starts with the name, and nothing else to any table. -/
def InsertsByPrefix (db : Database) (run : Search) : Prop :=
  ∃ table new, (∀ t ∈ sql.table run.functionName, t = table) ∧
    (∀ other, (searchFunction sql 1 db run other).rows =
      (db other).rows ++ if other = table then new else []) ∧
    (new.map content).Perm
      ((run.ldbEvents.rows.filter (startsWith run.functionName)).map contentOf)

/-- Every run of the sequence selects by prefix, and the ids of a table are distinct after
each of them. -/
structure SearchesRight (db : Database) (runs : List Search) : Prop where
  inserts : ∀ done run rest, runs = done ++ run :: rest →
    InsertsByPrefix sql (afterSearches sql db done) run
  distinct : ∀ done, done <+: runs → ∀ table,
    (((afterSearches sql db done table).rows.map FoundInvocation.toInvocation).map
      Invocation.id).Nodup

/-- No stack sample is in a function whose description differs from the name only in the
places of its underscores. -/
def NoLookalike (run : Search) : Prop :=
  ∀ row ∈ run.ldbEvents.rows, row.event.eventType = eventStackSample →
    ∀ funcDesc, row.funcDesc = some funcDesc → ¬ Lookalike run.functionName funcDesc.toList

/-- A name that is one of a table has no lookalike, and for any other name there is nothing
to find. -/
structure Searchable (run : Search) : Prop where
  named : (sql.table run.functionName).isSome = true → NoLookalike run
  refused : sql.table run.functionName = none →
    ∀ row ∈ run.ldbEvents.rows, startsWith run.functionName row = false

/-! ## What the query selects -/

/-- The condition without the sampling. -/
def matchesName (name : Text) (row : LdbRow) : Bool :=
  row.event.eventType == eventStackSample &&
    row.funcDesc.any fun funcDesc => like (name ++ ['%']) funcDesc.toList

theorem stackSamples_one (name : Text) (random : Nat → Draw) (rows : List LdbRow) :
    stackSamples name 1 random rows = rows.filter (matchesName name) := by
  have hselects : ∀ p : LdbRow × Nat,
      selects name 1 p.1 (random p.2) = matchesName name p.1 := by
    intro p
    simp [selects, matchesName, (random p.2).lt_one]
  have hfst : rows.zipIdx.map Prod.fst = rows := List.zipIdx_map_fst 0 rows
  calc stackSamples name 1 random rows
      = (rows.zipIdx.filter (matchesName name ∘ Prod.fst)).map Prod.fst := by
        simp only [stackSamples, hselects, Function.comp_def]
    _ = (rows.zipIdx.map Prod.fst).filter (matchesName name) := by rw [List.filter_map]
    _ = rows.filter (matchesName name) := by rw [hfst]

section Names

variable {name : Text} {row : LdbRow} (hplain : '%' ∉ name)

include hplain

theorem startsWith_matches (h : startsWith name row = true) : matchesName name row = true := by
  simp only [startsWith, matchesName, Bool.and_eq_true, Option.any_eq_true] at h ⊢
  obtain ⟨htype, funcDesc, hdesc, hbegins⟩ := h
  refine ⟨htype, funcDesc, hdesc, ?_⟩
  rw [like_append_percent hplain]
  exact agrees_of_prefix (List.isPrefixOf_iff_prefix.mp hbegins)

/-- A row that the pattern selects beyond those that start with the name. -/
theorem lookalike_of_matches (h : matchesName name row = true)
    (hnot : startsWith name row = false) :
    row.event.eventType = eventStackSample ∧
      ∃ funcDesc, row.funcDesc = some funcDesc ∧ Lookalike name funcDesc.toList := by
  simp only [matchesName, Bool.and_eq_true, Option.any_eq_true, beq_iff_eq] at h
  obtain ⟨htype, funcDesc, hdesc, hlike⟩ := h
  refine ⟨htype, funcDesc, hdesc, ?_⟩
  by_contra hlook
  have hbegins := prefix_of_agrees ((like_append_percent hplain _).mp hlike) hlook
  have hstarts : startsWith name row = true := by
    simp only [startsWith, Bool.and_eq_true, Option.any_eq_true, beq_iff_eq]
    exact ⟨htype, funcDesc, hdesc, List.isPrefixOf_iff_prefix.mpr hbegins⟩
  rw [hstarts] at hnot
  cases hnot

theorem matches_of_lookalike {funcDesc : String} (htype : row.event.eventType = eventStackSample)
    (hdesc : row.funcDesc = some funcDesc) (h : Lookalike name funcDesc.toList) :
    matchesName name row = true ∧ startsWith name row = false := by
  constructor
  · simp only [matchesName, Bool.and_eq_true, Option.any_eq_true, beq_iff_eq]
    exact ⟨htype, funcDesc, hdesc, (like_append_percent hplain _).mpr h.agrees⟩
  · rw [Bool.eq_false_iff]
    intro hstarts
    simp only [startsWith, Bool.and_eq_true, Option.any_eq_true, hdesc] at hstarts
    obtain ⟨-, other, hother, hbegins⟩ := hstarts
    obtain rfl : funcDesc = other := Option.some.inj hother
    exact not_lookalike_of_prefix (List.isPrefixOf_iff_prefix.mp hbegins) h

end Names

/-- The two selections agree exactly if there is no lookalike. -/
theorem filter_matchesName_iff {run : Search} (hplain : '%' ∉ run.functionName) :
    run.ldbEvents.rows.filter (matchesName run.functionName) =
        run.ldbEvents.rows.filter (startsWith run.functionName) ↔ NoLookalike run := by
  constructor
  · intro heq row hrow htype funcDesc hdesc hlook
    obtain ⟨hmatches, hnot⟩ := matches_of_lookalike hplain htype hdesc hlook
    have hmem : row ∈ run.ldbEvents.rows.filter (startsWith run.functionName) := by
      rw [← heq]
      exact List.mem_filter.mpr ⟨hrow, hmatches⟩
    have hstarts := (List.mem_filter.mp hmem).2
    rw [hnot] at hstarts
    cases hstarts
  · intro hno
    apply List.filter_congr
    intro row hrow
    cases hstarts : startsWith run.functionName row with
    | true => exact startsWith_matches hplain hstarts
    | false =>
      rw [Bool.eq_false_iff]
      intro hmatches
      obtain ⟨htype, funcDesc, hdesc, hlook⟩ := lookalike_of_matches hplain hmatches hstarts
      exact hno row hrow htype funcDesc hdesc hlook

/-! ## What the runs insert -/

theorem content_insertSamples (next : Int) (rows : List LdbRow) :
    (insertSamples next rows).map content = rows.map contentOf := by
  induction rows generalizing next with
  | nil => rfl
  | cons row rest ih =>
    rw [insertSamples, List.map_cons, List.map_cons, ih]
    rfl

theorem searchFunction_refused {run : Search} (h : sql.table run.functionName = none)
    (db : Database) : searchFunction sql 1 db run = db := by
  simp only [searchFunction, h, ite_self]

theorem searchFunction_named {run : Search} {table : Text}
    (h : sql.table run.functionName = some table) (db : Database) (other : Text) :
    (searchFunction sql 1 db run other).rows =
      (db other).rows ++
        if other = table then
          insertSamples (nextId (db table).toInvocations.rows)
            (run.ldbEvents.rows.filter (matchesName run.functionName))
        else [] := by
  have hvalid : (0 : ℚ) < 1 ∧ (1 : ℚ) ≤ 1 := ⟨zero_lt_one, le_refl 1⟩
  simp only [searchFunction, if_pos hvalid, h, stackSamples_one]
  by_cases hother : other = table
  · rw [hother, Function.update_self, if_pos rfl]
    rfl
  · rw [Function.update_of_ne hother, if_neg hother, List.append_nil]

theorem insertsByPrefix_of_refused {run : Search} (h : sql.table run.functionName = none)
    (db : Database) : InsertsByPrefix sql db run ↔
      ∀ row ∈ run.ldbEvents.rows, startsWith run.functionName row = false := by
  have hnothing : run.ldbEvents.rows.filter (startsWith run.functionName) = [] ↔
      ∀ row ∈ run.ldbEvents.rows, startsWith run.functionName row = false := by
    simp only [List.filter_eq_nil_iff, Bool.not_eq_true]
  rw [← hnothing]
  constructor
  · rintro ⟨table, new, -, hrows, hperm⟩
    have hnew := hrows table
    rw [searchFunction_refused sql h, if_pos rfl, List.self_eq_append_right] at hnew
    rw [hnew, List.map_nil, List.nil_perm, List.map_eq_nil_iff] at hperm
    exact hperm
  · intro hnone
    refine ⟨[], [], by simp [h], fun other => ?_, by simp [hnone]⟩
    rw [searchFunction_refused sql h, ite_self, List.append_nil]

theorem insertsByPrefix_of_named {run : Search} {table : Text}
    (h : sql.table run.functionName = some table) (db : Database) :
    InsertsByPrefix sql db run ↔ NoLookalike run := by
  have hplain := (sql.plain _ _ h).1
  rw [← filter_matchesName_iff hplain]
  constructor
  · rintro ⟨other, new, htable, hnew, hperm⟩
    obtain rfl : table = other := htable table h
    have hrows := hnew table
    rw [searchFunction_named sql h, List.append_cancel_left_eq, if_pos rfl, if_pos rfl] at hrows
    rw [← hrows, content_insertSamples] at hperm
    -- every row that starts with the name is selected, so equal numbers leave no other row
    have hsub : (run.ldbEvents.rows.filter (startsWith run.functionName)).Sublist
        (run.ldbEvents.rows.filter (matchesName run.functionName)) :=
      List.monotone_filter_right _ fun row => startsWith_matches hplain
    have hlength := hperm.length_eq
    rw [List.length_map, List.length_map] at hlength
    exact (hsub.eq_of_length hlength.symm).symm
  · intro heq
    refine ⟨table, _, ?_, searchFunction_named sql h db, ?_⟩
    · intro t ht
      exact (Option.some.inj (h.symm.trans ht)).symm
    · rw [content_insertSamples, heq]

theorem insertsByPrefix_iff (db : Database) (run : Search) :
    InsertsByPrefix sql db run ↔ Searchable sql run := by
  cases h : sql.table run.functionName with
  | none =>
    rw [insertsByPrefix_of_refused sql h]
    exact ⟨fun hnone => ⟨by simp [h], fun _ => hnone⟩, fun hsearch => hsearch.refused h⟩
  | some table =>
    rw [insertsByPrefix_of_named sql h]
    exact ⟨fun hno => ⟨fun _ => hno, by simp [h]⟩, fun hsearch => hsearch.named (by simp [h])⟩

/-- The ids are distinct in any case. The selection is by prefix exactly if no run meets a
description that differs from its name in place of an underscore only, and no run for a name
that no table can have has anything to find. -/
theorem searchesRight_iff (db : Database) (runs : List Search) :
    SearchesRight sql db runs ↔ ∀ run ∈ runs, Searchable sql run := by
  constructor
  · intro h run hrun
    obtain ⟨done, rest, hsplit⟩ := List.append_of_mem hrun
    exact (insertsByPrefix_iff sql _ run).mp (h.inserts done run rest hsplit)
  · intro h
    refine ⟨?_, fun done _ table => (afterSearches sql db done table).ids_nodup⟩
    rintro done run rest rfl
    exact (insertsByPrefix_iff sql _ run).mpr (h run (by simp))

/-- For the names of C functions only the lookalikes matter. -/
theorem searchable_of_identifier {run : Search}
    (h : isIdentifier (invocationsTable run.functionName) = true) :
    Searchable sql run ↔ NoLookalike run := by
  have htable := sql.identifier _ h
  exact ⟨fun hsearch => hsearch.named (by simp [htable]), fun hno => ⟨fun _ => hno, by simp [htable]⟩⟩

/-! ## A name with an underscore -/

theorem not_mem_of_isIdentifier {name : Text} {c : Char} (hc : isIdentCont c = false)
    (h : isIdentifier (invocationsTable name) = true) : c ∉ name := by
  have hall : ∀ text, isIdentifier text = true → c ∉ text := by
    intro text htext hmem
    cases text with
    | nil => cases hmem
    | cons first rest =>
      simp only [isIdentifier, Bool.and_eq_true, List.all_eq_true] at htext
      rcases List.mem_cons.mp hmem with rfl | hrest
      · simp [isIdentCont, htext.1] at hc
      · rw [htext.2 c hrest] at hc
        cases hc
  exact fun hmem => hall _ h (List.mem_append_left _ hmem)

/-- A database in which nothing but an identifier names a table. -/
def identifiersOnly : TableNames where
  table name :=
    if isIdentifier (invocationsTable name) then some ((invocationsTable name).map Char.toLower)
    else none
  identifier name h := if_pos h
  plain name t h := by
    have hident : isIdentifier (invocationsTable name) = true := by
      by_contra hnot
      rw [if_neg hnot] at h
      cases h
    exact ⟨not_mem_of_isIdentifier (by decide) hident, not_mem_of_isIdentifier (by decide) hident⟩

/-- A stack sample of thread 7 in a function. -/
def sampleIn (funcDesc : String) : LdbRow where
  event := LdbEvents.recordEvent ⟨eventStackSample, 1000, 7, 500, 5, 0, []⟩
  funcDesc := some funcDesc
  funcDescId := 1
  sourceLoc := none

def searchFor (name funcDesc : String) : Search where
  functionName := name.toList
  ldbEvents := ⟨[sampleIn funcDesc], fun row hrow _ => by
    rw [List.mem_singleton.mp hrow]
    exact ⟨_, rfl, latencyUs_finite (by decide)⟩⟩
  random _ := ⟨0, le_refl 0, zero_lt_one⟩

/-- A search for `read_block` where the only stack sample is in `readXblock`. -/
def searchReadBlock : Search := searchFor "read_block" "readXblock(fd)"

theorem lookalike_is_inserted :
    (afterSearches identifiersOnly (fun _ => ⟨[], List.nodup_nil⟩) [searchReadBlock]
        "read_block_invocations".toList).rows.length = 1 ∧
      searchReadBlock.ldbEvents.rows.filter (startsWith searchReadBlock.functionName) = [] ∧
      ¬ SearchesRight identifiersOnly (fun _ => ⟨[], List.nodup_nil⟩) [searchReadBlock] := by
  have hlike : like ("read_block".toList ++ ['%']) "readXblock(fd)".toList = true := by
    decide +kernel
  have hlook : Lookalike "read_block".toList "readXblock(fd)".toList :=
    ⟨(like_append_percent (by decide +kernel) _).mp hlike, 4, by decide +kernel, by decide +kernel⟩
  have hrow : matchesName searchReadBlock.functionName (sampleIn "readXblock(fd)") = true ∧
      startsWith searchReadBlock.functionName (sampleIn "readXblock(fd)") = false :=
    matches_of_lookalike (by decide +kernel) rfl rfl hlook
  have hfound : searchReadBlock.ldbEvents.rows.filter (matchesName searchReadBlock.functionName) =
      [sampleIn "readXblock(fd)"] := List.filter_cons_of_pos hrow.1
  have htable : identifiersOnly.table searchReadBlock.functionName =
      some "read_block_invocations".toList := by decide +kernel
  refine ⟨?_, List.filter_cons_of_neg (by simp [hrow.2]), ?_⟩
  · rw [afterSearches, List.foldl_cons, List.foldl_nil, searchFunction_named _ htable, if_pos rfl,
      hfound]
    rfl
  · intro h
    have hno := (insertsByPrefix_of_named _ htable _).mp (h.inserts [] searchReadBlock [] rfl)
    exact hno (sampleIn "readXblock(fd)") (List.mem_singleton.mpr rfl) rfl _ rfl hlook

/-- A name that is no identifier finds nothing, whatever the table of events has. -/
theorem scoped_name_refused :
    ¬ Searchable identifiersOnly (searchFor "std::sort" "std::sort(a,") := by
  have hstarts : startsWith "std::sort".toList (sampleIn "std::sort(a,") = true := by
    decide +kernel
  intro h
  have hfound := h.refused (by decide +kernel) (sampleIn "std::sort(a,") (List.mem_singleton.mpr rfl)
  rw [show (searchFor "std::sort" "std::sort(a,").functionName = "std::sort".toList from rfl,
    hstarts] at hfound
  cases hfound

end FunctionSearch
