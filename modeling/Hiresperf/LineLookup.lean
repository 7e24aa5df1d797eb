import Hiresperf.AnalysisDatabase
import Hiresperf.Foundation.FirstMatch
import Hiresperf.LdbEvents
import Mathlib.Data.Finset.Sort

/-!
# Source lines of program counters

`decode_file_line` of `parse_ldb.py` goes once through the line programs of all
compilation units for a whole list of addresses. It carries the row before,
forgets it at the end of a sequence, takes each address that it has found off the
list and returns when the list is empty. A file number that the tables of the unit
do not have raises.
-/

namespace LineLookup

open AnalysisDatabase FirstMatch LdbDecoders

/-! ## The script -/

structure LineState where
  address : Int
  file : Nat
  line : Nat
  column : Nat
  endSequence : Bool

/-- Some entries of a line program only change registers and have no state. -/
structure LineProgramEntry where
  state : Option LineState

structure FileEntry where
  name : List UInt8
  dirIndex : Nat
  mtime : Nat
  length : Nat
  deriving DecidableEq

/-- The line program of a compilation unit. -/
structure LineProgram where
  includeDirectory : List (List UInt8)
  fileEntry : List FileEntry
  entries : List LineProgramEntry

structure LineInfo where
  fname : List UInt8
  dir : List UInt8
  line : Nat
  col : Nat
  deriving DecidableEq

/-- Indexing a list in Python: a negative index counts from the end. -/
def item {α : Type} (l : List α) (i : Int) : Option α :=
  if 0 ≤ i then l[i.toNat]?
  else if 0 ≤ l.length + i then l[(l.length + i).toNat]?
  else none

/-- The workaround for tables that give their first file twice. -/
def LineProgram.offset (lineprog : LineProgram) : Int :=
  if 1 < lineprog.fileEntry.length ∧ lineprog.fileEntry[0]? = lineprog.fileEntry[1]? then 0 else 1

/-- What is stored for an address; `none` is an `IndexError`. -/
def LineProgram.info (lineprog : LineProgram) (prevstate : LineState) : Option LineInfo := do
  let fe ← item lineprog.fileEntry (prevstate.file - lineprog.offset)
  let dirPath ← if 0 < fe.dirIndex then lineprog.includeDirectory[fe.dirIndex - 1]? else some [46]
  pure ⟨fe.name, dirPath, prevstate.line, prevstate.column⟩

/-- `addresses` and `ret`. -/
abbrev Lookup := Batch Int LineInfo

/-- The loop over the entries; the flag says that the function has returned. -/
def scanEntries (lineprog : LineProgram) :
    Option LineState → List LineProgramEntry → Lookup → Option (Bool × Lookup)
  | _, [], s => some (false, s)
  | prevstate, entry :: rest, s =>
    match entry.state with
    | none => scanEntries lineprog prevstate rest s
    | some state =>
      let next := if state.endSequence then none else some state
      match prevstate with
      | none => scanEntries lineprog next rest s
      | some prev => do
        let addrs := s.pending.filter fun x => decide (prev.address ≤ x) && decide (x < state.address)
        let s ← addrs.foldlM (record (lineprog.info prev)) s
        if s.pending.length = 0 then some (true, s) else scanEntries lineprog next rest s

def scanUnits : List LineProgram → Lookup → Option Lookup
  | [], s => some s
  | lineprog :: rest, s => do
    let (returned, s) ← scanEntries lineprog none lineprog.entries s
    if returned then some s else scanUnits rest s

def decodeFileLine (dwarfinfo : List LineProgram) (addresses : List Int) :
    Option (AList fun _ : Int => LineInfo) :=
  (scanUnits dwarfinfo ⟨addresses, ∅⟩).map Batch.found

section Descriptions

-- `bytes2str` belongs to the ELF library.
variable (bytes2str : List UInt8 → String)

def sourceLoc (info : LineInfo) : String :=
  bytes2str info.dir ++ "/" ++ bytes2str info.fname ++ ":" ++ toString info.line ++ ":" ++
    toString info.col

/-- `os.path.join`. -/
def pathJoin (a b : List UInt8) : List UInt8 :=
  if b.head? = some 47 then b
  else if a = [] ∨ a.getLast? = some 47 then a ++ b
  else a ++ 47 :: b

/-- `extract` is `extract_func_desc_from_source`, which reads the sources. -/
def funcInfo (extract : List UInt8 → Nat → Nat → String) (info : LineInfo) : FuncInfo :=
  ⟨extract (pathJoin info.dir info.fname) info.line info.col, sourceLoc bytes2str info⟩

def getFinfos (extract : List UInt8 → Nat → Nat → String) (dwarfinfo : Option (List LineProgram))
    (addresses : Finset Int) : Option (Int → Option FuncInfo) :=
  match dwarfinfo with
  | none => some fun _ => none
  | some dwarfinfo =>
    (decodeFileLine dwarfinfo addresses.sort).map fun lineInfoMap addr =>
      (lineInfoMap.lookup addr).map (funcInfo bytes2str extract)

end Descriptions

/-! ## The lookup of one address -/

/-- Two rows of a unit of which the first gives the line of the addresses up to the second. -/
structure RowPair where
  lineprog : LineProgram
  prev : LineState
  state : LineState

def RowPair.covers (p : RowPair) (x : Int) : Bool :=
  decide (p.prev.address ≤ x) && decide (x < p.state.address)

def RowPair.info (p : RowPair) : Option LineInfo := p.lineprog.info p.prev

/-- The entries with a state. -/
def LineProgram.rows (lineprog : LineProgram) : List LineState :=
  lineprog.entries.filterMap LineProgramEntry.state

/-- The pairs of consecutive rows whose first does not end a sequence. -/
def LineProgram.pairs (lineprog : LineProgram) : List RowPair :=
  ((lineprog.rows.zip lineprog.rows.tail).filter fun p => !p.1.endSequence).map fun p =>
    ⟨lineprog, p.1, p.2⟩

/-- The first pair that covers the address, in the order of the units and their entries. -/
def firstPair (dwarfinfo : List LineProgram) (x : Int) : Option RowPair :=
  (dwarfinfo.flatMap LineProgram.pairs).find? fun p => p.covers x

/-! ## One unit -/

/-- The pairs that are still to come, with the row before. -/
def pairsFrom (lineprog : LineProgram) (prevstate : Option LineState)
    (rows : List LineState) : List RowPair :=
  let all := (prevstate.toList ++ rows)
  ((all.zip all.tail).filter fun p => !p.1.endSequence).map fun p => ⟨lineprog, p.1, p.2⟩

theorem pairsFrom_cons (lineprog : LineProgram) (state : LineState) (rows : List LineState) :
    pairsFrom lineprog (some state) rows =
      pairsFrom lineprog (if state.endSequence then none else some state) rows := by
  cases hend : state.endSequence with
  | false => rfl
  | true =>
    cases rows with
    | nil => rfl
    | cons next rows => simp [pairsFrom, hend]

theorem pairsFrom_some_cons (lineprog : LineProgram) {prev : LineState}
    (hprev : prev.endSequence = false) (state : LineState) (rows : List LineState) :
    pairsFrom lineprog (some prev) (state :: rows) = ⟨lineprog, prev, state⟩ ::
      pairsFrom lineprog (if state.endSequence then none else some state) rows := by
  rw [← pairsFrom_cons]
  simp [pairsFrom, hprev]

theorem pairsFrom_none_cons (lineprog : LineProgram) (state : LineState) (rows : List LineState) :
    pairsFrom lineprog none (state :: rows) =
      pairsFrom lineprog (if state.endSequence then none else some state) rows := by
  rw [← pairsFrom_cons]
  rfl

/-- The row that is carried never ends a sequence. -/
def Carried (prevstate : Option LineState) : Prop :=
  ∀ prev, prevstate = some prev → prev.endSequence = false

theorem carried_next (state : LineState) :
    Carried (if state.endSequence then none else some state) := by
  intro prev hprev
  cases hend : state.endSequence with
  | true => simp [hend] at hprev
  | false =>
    rw [hend, if_neg Bool.false_ne_true, Option.some.injEq] at hprev
    rw [← hprev, hend]

/-- The pairs as rules on the addresses. -/
abbrev runPairs (pairs : List RowPair) (s : Lookup) : Option Lookup :=
  pairs.foldlM (pass RowPair.covers RowPair.info) s

/-- The loop over the entries runs the pairs, and returns early only with no address left. -/
theorem scanEntries_spec (lineprog : LineProgram) (prevstate : Option LineState)
    (hcarried : Carried prevstate) (entries : List LineProgramEntry) (s : Lookup) :
    (scanEntries lineprog prevstate entries s).map Prod.snd =
        runPairs (pairsFrom lineprog prevstate (entries.filterMap LineProgramEntry.state)) s ∧
      ∀ s', scanEntries lineprog prevstate entries s = some (true, s') → s'.pending = [] := by
  induction entries generalizing prevstate s with
  | nil =>
    have hnone : pairsFrom lineprog prevstate [] = [] := by
      cases prevstate <;> rfl
    refine ⟨by rw [List.filterMap_nil, hnone]; rfl, ?_⟩
    intro s' hs'
    simp [scanEntries] at hs'
  | cons entry rest ih =>
    obtain ⟨entryState⟩ := entry
    cases entryState with
    | none => exact ih prevstate hcarried s
    | some state =>
      have hnext := carried_next state
      have hrows : List.filterMap LineProgramEntry.state (⟨some state⟩ :: rest) =
          state :: rest.filterMap LineProgramEntry.state := rfl
      rw [hrows]
      cases prevstate with
      | none =>
        rw [pairsFrom_none_cons]
        exact ih _ hnext s
      | some prev =>
        rw [pairsFrom_some_cons lineprog (hcarried prev rfl), runPairs, List.foldlM_cons]
        have hstep : scanEntries lineprog (some prev) (⟨some state⟩ :: rest) s =
            (pass RowPair.covers RowPair.info s ⟨lineprog, prev, state⟩).bind fun s =>
              if s.pending.length = 0 then some (true, s)
              else scanEntries lineprog (if state.endSequence then none else some state) rest s :=
          rfl
        rw [hstep]
        cases hpass : pass RowPair.covers RowPair.info s ⟨lineprog, prev, state⟩ with
        | none => exact ⟨rfl, fun s' hs' => by simp at hs'⟩
        | some s =>
          by_cases hdone : s.pending.length = 0
          · rw [Option.bind_some, if_pos hdone]
            refine ⟨?_, ?_⟩
            · exact (foldlM_pass_of_done RowPair.covers RowPair.info _
                (List.length_eq_zero_iff.mp hdone)).symm
            · intro s' hs'
              simp only [Option.some.injEq, Prod.mk.injEq, true_and] at hs'
              rw [← hs']
              exact List.length_eq_zero_iff.mp hdone
          · rw [Option.bind_some, if_neg hdone]
            exact ih _ hnext s

/-! ## All units -/

theorem scanUnits_eq_runPairs (dwarfinfo : List LineProgram) (s : Lookup) :
    scanUnits dwarfinfo s = runPairs (dwarfinfo.flatMap LineProgram.pairs) s := by
  induction dwarfinfo generalizing s with
  | nil => rfl
  | cons lineprog rest ih =>
    have hcarried : Carried none := fun prev hprev => by simp at hprev
    obtain ⟨hrun, hreturned⟩ := scanEntries_spec lineprog none hcarried lineprog.entries s
    have hpairs : pairsFrom lineprog none (lineprog.entries.filterMap LineProgramEntry.state) =
        lineprog.pairs := rfl
    rw [hpairs] at hrun
    rw [List.flatMap_cons, runPairs, List.foldlM_append, ← runPairs, ← hrun, scanUnits]
    cases hscan : scanEntries lineprog none lineprog.entries s with
    | none => rfl
    | some result =>
      obtain ⟨returned, s'⟩ := result
      cases returned with
      | true =>
        have hdone := hreturned s' hscan
        exact (foldlM_pass_of_done RowPair.covers RowPair.info _ hdone).symm
      | false => exact ih s'

theorem lookup_decodeFileLine {dwarfinfo : List LineProgram} {addresses : List Int}
    {ret : AList fun _ : Int => LineInfo} (hret : decodeFileLine dwarfinfo addresses = some ret)
    (x : Int) :
    ret.lookup x = if x ∈ addresses then (firstPair dwarfinfo x).bind RowPair.info else none := by
  obtain ⟨s, hs, hfound⟩ := Option.map_eq_some_iff.mp hret
  rw [scanUnits_eq_runPairs] at hs
  rw [← hfound]
  exact lookup_foldlM_pass RowPair.covers RowPair.info _ hs x

theorem decodeFileLine_eq_none_iff (dwarfinfo : List LineProgram) (addresses : List Int) :
    decodeFileLine dwarfinfo addresses = none ↔
      ∃ x ∈ addresses, ∃ p, firstPair dwarfinfo x = some p ∧ p.info = none := by
  rw [decodeFileLine, Option.map_eq_none_iff, scanUnits_eq_runPairs]
  exact foldlM_pass_eq_none_iff RowPair.covers RowPair.info _ _

/-- The batch returns if the files of the rows that are found are in the tables, and then gives
for each address what the address alone would give. -/
theorem decodeFileLine_each_address (dwarfinfo : List LineProgram) (addresses : List Int) :
    ((∃ ret, decodeFileLine dwarfinfo addresses = some ret) ↔
      ∀ x ∈ addresses, ∀ p, firstPair dwarfinfo x = some p → p.info ≠ none) ∧
    ∀ ret, decodeFileLine dwarfinfo addresses = some ret →
      (∀ x ∈ addresses, ∀ p, firstPair dwarfinfo x = some p → x ∈ ret ∧ ret.lookup x = p.info) ∧
      (∀ x ∈ addresses, firstPair dwarfinfo x = none → x ∉ ret) ∧
      (∀ x ∉ addresses, x ∉ ret) ∧
      ∀ others ret', decodeFileLine dwarfinfo others = some ret' →
        ∀ x ∈ addresses, x ∈ others → ret'.lookup x = ret.lookup x := by
  have hreturns : (∃ ret, decodeFileLine dwarfinfo addresses = some ret) ↔
      ∀ x ∈ addresses, ∀ p, firstPair dwarfinfo x = some p → p.info ≠ none := by
    rw [← Option.ne_none_iff_exists', ne_eq, decodeFileLine_eq_none_iff]
    push Not
    rfl
  refine ⟨hreturns, fun ret hret => ⟨?_, ?_, ?_, ?_⟩⟩
  · intro x hx p hp
    have hvalue : ret.lookup x = p.info := by
      rw [lookup_decodeFileLine hret, if_pos hx, hp]
      rfl
    refine ⟨?_, hvalue⟩
    rw [← AList.lookup_isSome, hvalue]
    exact Option.isSome_iff_ne_none.mpr (hreturns.mp ⟨ret, hret⟩ x hx p hp)
  · intro x hx hnone
    rw [← AList.lookup_eq_none, lookup_decodeFileLine hret, if_pos hx, hnone]
    rfl
  · intro x hx
    rw [← AList.lookup_eq_none, lookup_decodeFileLine hret, if_neg hx]
  · intro others ret' hret' x hx hx'
    rw [lookup_decodeFileLine hret, lookup_decodeFileLine hret', if_pos hx, if_pos hx']

/-- Two sequences with a gap between them and an entry without a state. -/
def twoSequences : LineProgram where
  includeDirectory := [[115, 114, 99]]
  fileEntry := [⟨[97], 1, 0, 0⟩, ⟨[98], 0, 0, 0⟩]
  entries := [⟨some ⟨0, 1, 3, 1, false⟩⟩, ⟨none⟩, ⟨some ⟨8, 2, 7, 5, false⟩⟩,
    ⟨some ⟨16, 2, 9, 1, true⟩⟩, ⟨some ⟨32, 1, 20, 1, false⟩⟩, ⟨some ⟨40, 1, 21, 1, true⟩⟩]

/-- The addresses 4 and 12 have lines, and 20 lies between the sequences. -/
theorem decodeFileLine_twoSequences : ∃ ret, decodeFileLine [twoSequences] [20, 12, 4] = some ret ∧
    ret.lookup 4 = some ⟨[97], [115, 114, 99], 3, 1⟩ ∧ ret.lookup 12 = some ⟨[98], [46], 7, 5⟩ ∧
    20 ∉ ret := by
  obtain ⟨hreturns, hvalues⟩ := decodeFileLine_each_address [twoSequences] [20, 12, 4]
  obtain ⟨ret, hret⟩ := hreturns.mpr (by
    intro x hx p hp
    simp only [List.mem_cons, List.not_mem_nil, or_false] at hx
    obtain rfl | rfl | rfl := hx
    · exact absurd hp (by simp [show firstPair [twoSequences] 20 = none from rfl])
    · rw [← Option.some.inj hp]
      decide
    · rw [← Option.some.inj hp]
      decide)
  obtain ⟨hfound, hmissing, -, -⟩ := hvalues ret hret
  exact ⟨ret, hret, (hfound 4 (by decide) _ rfl).2, (hfound 12 (by decide) _ rfl).2,
    hmissing 20 (by decide) rfl⟩

/-! ## The rows of `ldb_events` -/

variable {bytes2str : List UInt8 → String} {extract : List UInt8 → Nat → Nat → String}

theorem getFinfos_apply {dwarfinfo : List LineProgram} {addresses : Finset Int}
    {finfomap : Int → Option FuncInfo}
    (hfinfos : getFinfos bytes2str extract (some dwarfinfo) addresses = some finfomap) {x : Int}
    (hx : x ∈ addresses) :
    finfomap x = ((firstPair dwarfinfo x).bind RowPair.info).map (funcInfo bytes2str extract) := by
  obtain ⟨ret, hret, hfinfomap⟩ := Option.map_eq_some_iff.mp hfinfos
  have hentry : (ret.lookup x).map (funcInfo bytes2str extract) = finfomap x := congrFun hfinfomap x
  rw [← hentry, lookup_decodeFileLine hret, if_pos ((Finset.mem_sort _).mpr hx)]

/-- An event with a program counter is a stack sample, and its counter is looked up. -/
theorem mem_pcs_of_pc (bytes : List UInt8) {event : LdbEvent}
    (hevent : event ∈ (parseLdbData bytes).events) {pc : Int} (hpc : event.pc = some pc) :
    pc ∈ (parseLdbData bytes).pcs := by
  obtain ⟨-, hevents, hpcs⟩ := LdbEvents.run_events (LdbEvents.knownRecords bytes)
    fun r hr => LdbEvents.known_of_mem_knownRecords hr
  rw [← LdbEvents.parseLdbData_eq_run] at hevents hpcs
  refine (hpcs pc).mpr ⟨event, hevent, ?_, hpc⟩
  obtain ⟨r, -, hr⟩ := List.mem_map.mp (hevents ▸ List.mem_map_of_mem (f := LdbEvents.untimed) hevent)
  have htype : event.eventType = r.eventType := congrArg LdbEvent.eventType hr.symm
  have hsample : event.pc = if r.eventType = eventStackSample then some (callPc r) else none :=
    congrArg LdbEvent.pc hr.symm
  by_contra hother
  rw [if_neg (htype ▸ hother), hpc] at hsample
  exact Option.some_ne_none pc hsample

/-- A row of the log gets its description from its own program counter alone. -/
theorem describe_getFinfos {dwarfinfo : List LineProgram} {bytes : List UInt8}
    {finfomap : Int → Option FuncInfo}
    (hfinfos : getFinfos bytes2str extract (some dwarfinfo) (parseLdbData bytes).pcs =
      some finfomap)
    {event : LdbEvent} (hevent : event ∈ (parseLdbData bytes).events) :
    describe finfomap event = event.pc.map fun pc =>
      (((firstPair dwarfinfo pc).bind RowPair.info).map (funcInfo bytes2str extract)).getD ⟨"???", "???"⟩ := by
  cases hpc : event.pc with
  | none => rw [describe, hpc]; rfl
  | some pc =>
    rw [describe, hpc, Option.map_some, Option.map_some,
      getFinfos_apply hfinfos (mem_pcs_of_pc bytes hevent hpc)]

end LineLookup
