import Hiresperf.FileBandwidth
import Hiresperf.FileMetrics
import Hiresperf.Foundation.StepMachine
import Mathlib.Algebra.BigOperators.Fin
import Mathlib.Algebra.Order.BigOperators.Group.Finset
import Mathlib.Data.List.FinRange

/-!
# The worker processes of the metrics

`compute_invocation_metrics` of `ldb_analysis` divides the invocations among 36
processes. A process puts the length of its chunk into a shared dictionary when it has
gone through it and then returns the results. The main process adds up the dictionary
every 5 seconds until all invocations are in, and only then looks at what the processes
have returned. A process may fail at any time before its results have arrived; the main
process does not notice while it waits for the dictionary.
-/

namespace MetricsPool

open FileBandwidth FileMetrics InvocationMetrics StepMachine

/-! ## The chunks -/

def numProcesses : Nat := 36

section Chunks

variable {α : Type}

/-- The loop that makes the chunks, from its turn `i` on. -/
def chunksFrom (invocations : List α) (baseChunkSize remainder : Nat) :
    Nat → Nat → Nat → List (List α)
  | 0, _, _ => []
  | turns + 1, i, start =>
    let stop := start + baseChunkSize + if i < remainder then 1 else 0
    (invocations.drop start).take (stop - start) ::
      chunksFrom invocations baseChunkSize remainder turns (i + 1) stop

def chunks (invocations : List α) : List (List α) :=
  chunksFrom invocations (invocations.length / numProcesses) (invocations.length % numProcesses)
    numProcesses 0 0

theorem length_chunksFrom (invocations : List α) (baseChunkSize remainder turns i start : Nat) :
    (chunksFrom invocations baseChunkSize remainder turns i start).length = turns := by
  induction turns generalizing i start with
  | zero => rfl
  | succ turns ih => rw [chunksFrom, List.length_cons, ih]

/-- The chunks are the items from `start` on, one after the other. -/
theorem flatten_chunksFrom (invocations : List α) (baseChunkSize remainder turns i start : Nat) :
    (chunksFrom invocations baseChunkSize remainder turns i start).flatten =
      (invocations.drop start).take (turns * baseChunkSize + min turns (remainder - i)) := by
  induction turns generalizing i start with
  | zero => simp [chunksFrom]
  | succ turns ih =>
    obtain ⟨size, hsize⟩ : ∃ size, size = baseChunkSize + if i < remainder then 1 else 0 := ⟨_, rfl⟩
    have hsum : (turns + 1) * baseChunkSize + min (turns + 1) (remainder - i) =
        size + (turns * baseChunkSize + min turns (remainder - (i + 1))) := by
      rw [hsize, Nat.succ_mul]
      split_ifs <;> omega
    rw [chunksFrom, List.flatten_cons, ih, Nat.add_assoc start, ← hsize, Nat.add_sub_cancel_left,
      hsum, List.take_add (i := size), List.drop_drop]

theorem flatten_chunks (invocations : List α) : (chunks invocations).flatten = invocations := by
  have hlength := Nat.div_add_mod invocations.length numProcesses
  have hmod := Nat.mod_lt invocations.length (by decide : 0 < numProcesses)
  rw [chunks, flatten_chunksFrom, List.drop_zero, List.take_of_length_le]
  rw [Nat.min_eq_right (by omega)]
  omega

/-- The chunk of a process. -/
def chunk (invocations : List α) (i : Fin numProcesses) : List α := (chunks invocations).getD i []

/-- Each invocation is in one chunk, at one place. -/
theorem flatMap_chunk (invocations : List α) :
    (List.finRange numProcesses).flatMap (chunk invocations) = invocations := by
  have hlength : (chunks invocations).length = numProcesses := length_chunksFrom _ _ _ _ _ _
  have hmap : (List.finRange numProcesses).map (chunk invocations) = chunks invocations := by
    apply List.ext_getElem
    · rw [List.length_map, List.length_finRange, hlength]
    · intro i hi hchunk
      rw [List.getElem_map, List.getElem_finRange, chunk, List.getD_eq_getElem?_getD]
      exact congrArg (Option.getD · []) (List.getElem?_eq_getElem hchunk)
  rw [List.flatMap_def, hmap, flatten_chunks]

end Chunks

/-! ## The processes -/

/-- A process on its chunk: still in the loop, with its length in the dictionary, with its
results in the main process, or failed. -/
inductive Task (α β : Type) where
  | working (results : List β) (rest : List α)
  | published (results : List β)
  | returned (results : List β)
  | failed

/-- The main process: `nothing` to do, adding up the dictionary, going through the results, done,
or ended by the error of a process. -/
inductive Main (β : Type) where
  | nothing
  | polling (processedInvocations : Nat)
  | collecting (yielded : List (Fin numProcesses)) (invocationMetrics : List β)
  | saved (invocationMetrics : List β)
  | raised

structure PoolState (α β : Type) where
  tasks : Fin numProcesses → Task α β
  progress : Fin numProcesses → Option Nat
  main : Main β

/-- `compute` and `publish` are steps of `process_chunk`. `fail` is an exception or the death of
the process. -/
inductive Action where
  | compute (i : Fin numProcesses)
  | publish (i : Fin numProcesses)
  | deliver (i : Fin numProcesses)
  | fail (i : Fin numProcesses)
  | poll
  | collect (i : Fin numProcesses)
  | save

section Pool

variable {α β : Type} (compute : α → Option β) (invocations : List α)

def setTask (s : PoolState α β) (i : Fin numProcesses) (task : Task α β) : PoolState α β :=
  { s with tasks := Function.update s.tasks i task }

@[simp] theorem setTask_progress (s : PoolState α β) (i : Fin numProcesses) (task : Task α β) :
    (setTask s i task).progress = s.progress := rfl

@[simp] theorem setTask_main (s : PoolState α β) (i : Fin numProcesses) (task : Task α β) :
    (setTask s i task).main = s.main := rfl

@[simp] theorem setTask_self (s : PoolState α β) (i : Fin numProcesses) (task : Task α β) :
    (setTask s i task).tasks i = task := by
  simp [setTask]

theorem setTask_of_ne (s : PoolState α β) {i j : Fin numProcesses} (h : j ≠ i) (task : Task α β) :
    (setTask s i task).tasks j = s.tasks j := by
  simp [setTask, h]

/-- `progress[index] = len(invocations_chunk)`. -/
def publishTask (s : PoolState α β) (i : Fin numProcesses) (results : List β) : PoolState α β where
  tasks := Function.update s.tasks i (.published results)
  progress := Function.update s.progress i (some (chunk invocations i).length)
  main := s.main

/-- `sum(progress.values())`. -/
def processed (s : PoolState α β) : Nat := ∑ i, (s.progress i).getD 0

def step (s : PoolState α β) : Action → Option (PoolState α β)
  | .compute i =>
    match s.tasks i with
    | .working results (inv :: rest) => some (setTask s i
        (match compute inv with
        | some metrics => .working (results ++ [metrics]) rest
        | none => .failed))
    | _ => none
  | .publish i =>
    match s.tasks i with
    | .working results [] => some (publishTask invocations s i results)
    | _ => none
  | .deliver i =>
    match s.tasks i with
    | .published results => some (setTask s i (.returned results))
    | _ => none
  | .fail i =>
    match s.tasks i with
    | .returned _ => none
    | _ => some (setTask s i .failed)
  | .poll =>
    match s.main with
    | .polling _ => some { s with
        main := if processed s < invocations.length then .polling (processed s)
          else .collecting [] [] }
    | _ => none
  | .collect i =>
    match s.main, s.tasks i with
    | .collecting yielded invocationMetrics, .returned results =>
      if i ∈ yielded then none
      else some { s with
        main := .collecting (yielded ++ [i]) (invocationMetrics ++ results) }
    | .collecting yielded _, .failed =>
      if i ∈ yielded then none else some { s with main := .raised }
    | _, _ => none
  | .save =>
    match s.main with
    | .collecting yielded invocationMetrics =>
      if yielded.length = numProcesses then some { s with main := .saved invocationMetrics }
      else none
    | _ => none

def pool : Machine (PoolState α β) Action where
  init :=
    { tasks := fun i => .working [] (chunk invocations i)
      progress := fun _ => none
      main := if invocations = [] then .nothing else .polling 0 }
  step := step compute invocations

/-! ## What a step can do -/

/-- The steps, one case for each thing that can happen. -/
inductive Stepped (s : PoolState α β) : Action → PoolState α β → Prop where
  | compute {i : Fin numProcesses} {results : List β} {inv : α} {rest : List α} {metrics : β}
      (task : s.tasks i = .working results (inv :: rest)) (value : compute inv = some metrics) :
      Stepped s (.compute i) (setTask s i (.working (results ++ [metrics]) rest))
  | raises {i : Fin numProcesses} {results : List β} {inv : α} {rest : List α}
      (task : s.tasks i = .working results (inv :: rest)) (value : compute inv = none) :
      Stepped s (.compute i) (setTask s i .failed)
  | publish {i : Fin numProcesses} {results : List β} (task : s.tasks i = .working results []) :
      Stepped s (.publish i) (publishTask invocations s i results)
  | deliver {i : Fin numProcesses} {results : List β} (task : s.tasks i = .published results) :
      Stepped s (.deliver i) (setTask s i (.returned results))
  | fail {i : Fin numProcesses} (task : ∀ results, s.tasks i ≠ .returned results) :
      Stepped s (.fail i) (setTask s i .failed)
  | wait {seen : Nat} (main : s.main = .polling seen) (less : processed s < invocations.length) :
      Stepped s .poll { s with main := .polling (processed s) }
  | leave {seen : Nat} (main : s.main = .polling seen) (all : invocations.length ≤ processed s) :
      Stepped s .poll { s with main := .collecting [] [] }
  | collect {i : Fin numProcesses} {yielded : List (Fin numProcesses)} {metrics results : List β}
      (main : s.main = .collecting yielded metrics) (fresh : i ∉ yielded)
      (task : s.tasks i = .returned results) :
      Stepped s (.collect i) { s with main := .collecting (yielded ++ [i]) (metrics ++ results) }
  | error {i : Fin numProcesses} {yielded : List (Fin numProcesses)} {metrics : List β}
      (main : s.main = .collecting yielded metrics) (task : s.tasks i = .failed) :
      Stepped s (.collect i) { s with main := .raised }
  | save {yielded : List (Fin numProcesses)} {metrics : List β}
      (main : s.main = .collecting yielded metrics) (all : yielded.length = numProcesses) :
      Stepped s .save { s with main := .saved metrics }

variable {compute invocations} {s t : PoolState α β} {a : Action}

theorem stepped_of_step (h : step compute invocations s a = some t) :
    Stepped compute invocations s a t := by
  cases a with
  | compute i =>
    rw [step] at h
    split at h
    · rename_i results inv rest htask
      rw [Option.some_inj] at h
      subst h
      cases hvalue : compute inv with
      | some metrics => exact .compute htask hvalue
      | none => exact .raises htask hvalue
    · cases h
  | publish i =>
    rw [step] at h
    split at h
    · rename_i results htask
      exact Option.some.inj h ▸ .publish htask
    · cases h
  | deliver i =>
    rw [step] at h
    split at h
    · rename_i results htask
      exact Option.some.inj h ▸ .deliver htask
    · cases h
  | fail i =>
    rw [step] at h
    split at h
    · cases h
    · rename_i hreturned
      exact Option.some.inj h ▸ .fail hreturned
  | poll =>
    rw [step] at h
    split at h
    · rename_i seen hmain
      rw [Option.some_inj] at h
      subst h
      split_ifs with hless
      · exact .wait hmain hless
      · exact .leave hmain (not_lt.mp hless)
    · cases h
  | collect i =>
    rw [step] at h
    split at h
    · rename_i hmain htask
      split_ifs at h with hmem
      exact Option.some.inj h ▸ .collect hmain hmem htask
    · rename_i hmain htask
      split_ifs at h
      exact Option.some.inj h ▸ .error hmain htask
    · cases h
  | save =>
    rw [step] at h
    split at h
    · rename_i hmain
      split_ifs at h with hall
      exact Option.some.inj h ▸ .save hmain hall
    · cases h

/-! ## The invariant -/

variable (compute invocations) in
/-- Where a process is in its chunk, and what the dictionary has for it. -/
inductive Stage (items : List α) : Task α β → Option Nat → Prop where
  | working {front rest : List α} {results : List β} (split : front ++ rest = items)
      (values : front.map compute = results.map some) : Stage items (.working results rest) none
  | published {results : List β} (values : items.map compute = results.map some) :
      Stage items (.published results) (some items.length)
  | returned {results : List β} (values : items.map compute = results.map some) :
      Stage items (.returned results) (some items.length)
  | failed : Stage items .failed none
  | lost : Stage items .failed (some items.length)

theorem Stage.of_working {items rest : List α} {results : List β} {entry : Option Nat}
    (h : Stage compute items (.working results rest) entry) :
    entry = none ∧ ∃ front, front ++ rest = items ∧ front.map compute = results.map some := by
  cases h with
  | working hsplit hvalues => exact ⟨rfl, _, hsplit, hvalues⟩

theorem Stage.of_published {items : List α} {results : List β} {entry : Option Nat}
    (h : Stage compute items (.published results) entry) :
    entry = some items.length ∧ items.map compute = results.map some := by
  cases h with
  | published hvalues => exact ⟨rfl, hvalues⟩

theorem Stage.of_returned {items : List α} {results : List β} {entry : Option Nat}
    (h : Stage compute items (.returned results) entry) :
    entry = some items.length ∧ items.map compute = results.map some := by
  cases h with
  | returned hvalues => exact ⟨rfl, hvalues⟩

theorem Stage.fail {items : List α} {task : Task α β} {entry : Option Nat}
    (h : Stage compute items task entry) : Stage compute items .failed entry := by
  cases h with
  | working => exact .failed
  | published => exact .lost
  | returned => exact .lost
  | failed => exact .failed
  | lost => exact .lost

variable (invocations) in
/-- The dictionary has all invocations. -/
def AllIn (s : PoolState α β) : Prop := ∀ i, chunk invocations i ≠ [] → s.progress i ≠ none

variable (compute invocations) in
/-- What the main process has collected are the metrics of whole chunks. -/
def Phase (s : PoolState α β) : Main β → Prop
  | .nothing => invocations = []
  | .polling seen => seen < invocations.length
  | .collecting yielded metrics =>
    AllIn invocations s ∧ yielded.Nodup ∧ (∀ i ∈ yielded, ∃ r, s.tasks i = .returned r) ∧
      metrics.map some = yielded.flatMap fun i => (chunk invocations i).map compute
  | .saved metrics =>
    AllIn invocations s ∧ ∃ order : List (Fin numProcesses),
      order.Perm (List.finRange numProcesses) ∧
      metrics.map some = order.flatMap fun i => (chunk invocations i).map compute
  | .raised => AllIn invocations s

variable (compute invocations) in
structure PoolOk (s : PoolState α β) : Prop where
  stage : ∀ i, Stage compute (chunk invocations i) (s.tasks i) (s.progress i)
  phase : Phase compute invocations s s.main

/-- The main process keeps its phase while entries are added and results stay. -/
theorem Phase.mono {main : Main β} (h : Phase compute invocations s main)
    (hprogress : ∀ i, s.progress i ≠ none → t.progress i ≠ none)
    (htasks : ∀ i r, s.tasks i = .returned r → t.tasks i = .returned r) :
    Phase compute invocations t main := by
  have hall : AllIn invocations s → AllIn invocations t :=
    fun hall i hi => hprogress i (hall i hi)
  cases main with
  | nothing => exact h
  | polling seen => exact h
  | collecting yielded metrics =>
    obtain ⟨hin, hnodup, hreturned, hmetrics⟩ := h
    refine ⟨hall hin, hnodup, fun i hi => ?_, hmetrics⟩
    obtain ⟨r, hr⟩ := hreturned i hi
    exact ⟨r, htasks i r hr⟩
  | saved metrics => exact ⟨hall h.1, h.2⟩
  | raised => exact hall h

theorem setTask_stage (h : PoolOk compute invocations s) {i : Fin numProcesses} {task : Task α β}
    (hstage : Stage compute (chunk invocations i) task (s.progress i)) (j : Fin numProcesses) :
    Stage compute (chunk invocations j) ((setTask s i task).tasks j) (s.progress j) := by
  by_cases hj : j = i
  · subst hj
    rwa [setTask_self]
  · rw [setTask_of_ne s hj]
    exact h.stage j

theorem setTask_returned {i : Fin numProcesses} {task : Task α β}
    (hnot : ∀ r, s.tasks i ≠ .returned r) (j : Fin numProcesses) (r : List β)
    (hj : s.tasks j = .returned r) : (setTask s i task).tasks j = .returned r := by
  rw [setTask_of_ne]
  · exact hj
  · rintro rfl
    exact hnot r hj

/-- A process that moves on its own chunk. -/
theorem setTask_ok (h : PoolOk compute invocations s) {i : Fin numProcesses} {task : Task α β}
    (hnot : ∀ r, s.tasks i ≠ .returned r)
    (hstage : Stage compute (chunk invocations i) task (s.progress i)) :
    PoolOk compute invocations (setTask s i task) :=
  ⟨setTask_stage h hstage, h.phase.mono (fun _ hp => hp) (setTask_returned hnot)⟩

theorem sum_length_chunk (invocations : List α) :
    ∑ i, (chunk invocations i).length = invocations.length := by
  have hlength := congrArg List.length (flatMap_chunk invocations)
  rwa [List.length_flatMap, ← Fin.sum_univ_def] at hlength

theorem Stage.getD_le {items : List α} {task : Task α β} {entry : Option Nat}
    (h : Stage compute items task entry) : entry.getD 0 ≤ items.length := by
  cases h with
  | working => exact Nat.zero_le _
  | published => exact le_refl _
  | returned => exact le_refl _
  | failed => exact Nat.zero_le _
  | lost => exact le_refl _

/-- A chunk that is missing in the dictionary keeps the sum below the number of invocations. -/
theorem processed_lt (h : PoolOk compute invocations s) {i : Fin numProcesses}
    (hchunk : chunk invocations i ≠ []) (hprogress : s.progress i = none) :
    processed s < invocations.length := by
  rw [← sum_length_chunk, processed]
  refine Finset.sum_lt_sum (fun j _ => (h.stage j).getD_le) ⟨i, Finset.mem_univ i, ?_⟩
  rw [hprogress]
  exact List.length_pos_iff.mpr hchunk

theorem allIn_of_processed (h : PoolOk compute invocations s)
    (hall : invocations.length ≤ processed s) : AllIn invocations s := by
  intro i hchunk hprogress
  exact absurd (processed_lt h hchunk hprogress) (not_lt.mpr hall)

theorem perm_finRange {n : Nat} {order : List (Fin n)} (hnodup : order.Nodup)
    (hlength : order.length = n) : order.Perm (List.finRange n) := by
  refine List.perm_of_nodup_nodup_toFinset_eq hnodup (List.nodup_finRange n) ?_
  rw [List.toFinset_finRange]
  refine Finset.eq_univ_of_card _ ?_
  rw [List.toFinset_card_of_nodup hnodup, hlength, Fintype.card_fin]

theorem publishTask_ok (h : PoolOk compute invocations s) {i : Fin numProcesses}
    {results : List β} (htask : s.tasks i = .working results []) :
    PoolOk compute invocations (publishTask invocations s i results) := by
  have hstage := h.stage i
  rw [htask] at hstage
  obtain ⟨-, front, hsplit, hvalues⟩ := hstage.of_working
  rw [List.append_nil] at hsplit
  refine ⟨fun j => ?_, h.phase.mono (fun j hj => ?_) fun j r hj => ?_⟩
  · by_cases hj : j = i
    · subst hj
      simp only [publishTask, Function.update_self]
      exact .published (hsplit ▸ hvalues)
    · simp only [publishTask, Function.update_of_ne hj]
      exact h.stage j
  · by_cases hji : j = i
    · simp [publishTask, hji]
    · simpa [publishTask, hji] using hj
  · have hji : j ≠ i := by
      rintro rfl
      rw [htask] at hj
      cases hj
    simpa [publishTask, hji] using hj

theorem Stepped.ok (hstep : Stepped compute invocations s a t) (h : PoolOk compute invocations s) :
    PoolOk compute invocations t := by
  cases hstep with
  | @compute i results inv rest metrics htask hvalue =>
    have hstage := h.stage i
    rw [htask] at hstage
    obtain ⟨hentry, front, hsplit, hvalues⟩ := hstage.of_working
    have hfront : front ++ [inv] ++ rest = chunk invocations i := by
      rw [List.append_assoc]
      exact hsplit
    refine setTask_ok h (by simp [htask]) ?_
    rw [hentry]
    refine .working hfront ?_
    rw [List.map_append, hvalues, List.map_append, List.map_singleton, hvalue]
    rfl
  | raises htask hvalue => exact setTask_ok h (by simp [htask]) (h.stage _).fail
  | publish htask => exact publishTask_ok h htask
  | @deliver i results htask =>
    have hstage := h.stage i
    rw [htask] at hstage
    obtain ⟨hentry, hvalues⟩ := hstage.of_published
    refine setTask_ok h (by simp [htask]) ?_
    rw [hentry]
    exact .returned hvalues
  | fail htask => exact setTask_ok h htask (h.stage _).fail
  | wait hmain hless => exact ⟨h.stage, hless⟩
  | leave hmain hall =>
    have hin : AllIn invocations s := allIn_of_processed h hall
    exact ⟨h.stage, hin, List.nodup_nil, by simp, rfl⟩
  | @collect i yielded metrics results hmain hfresh htask =>
    have hphase := h.phase
    have hstage := h.stage i
    rw [hmain] at hphase
    rw [htask] at hstage
    obtain ⟨hin, hnodup, hreturned, hmetrics⟩ := hphase
    have hvalues := hstage.of_returned.2
    refine ⟨h.stage, hin, hnodup.append (List.nodup_singleton i) ?_, fun j hj => ?_, ?_⟩
    · exact List.disjoint_singleton.mpr hfresh
    · rcases List.mem_append.mp hj with hold | hnew
      · exact hreturned j hold
      · exact ⟨results, List.mem_singleton.mp hnew ▸ htask⟩
    · rw [List.map_append, hmetrics, List.flatMap_append, List.flatMap_singleton, hvalues]
  | error hmain htask =>
    have hphase := h.phase
    rw [hmain] at hphase
    exact ⟨h.stage, hphase.1⟩
  | @save yielded metrics hmain hall =>
    have hphase := h.phase
    rw [hmain] at hphase
    obtain ⟨hin, hnodup, -, hmetrics⟩ := hphase
    exact ⟨h.stage, hin, yielded, perm_finRange hnodup hall, hmetrics⟩

theorem init_ok : PoolOk compute invocations (pool compute invocations).init where
  stage i := .working (List.nil_append _) rfl
  phase := by
    by_cases hempty : invocations = []
    · simp [pool, hempty, Phase]
    · simpa [pool, hempty, Phase] using List.length_pos_iff.mpr hempty

theorem ok_of_reachable (h : Reachable (pool compute invocations) s) :
    PoolOk compute invocations s :=
  h.invariant init_ok fun _ _ _ hok _ hstep => (stepped_of_step hstep).ok hok

/-! ## A process that fails -/

/-- A failed process stays what it is, and so does its place in the dictionary. -/
theorem Stepped.failed (hstep : Stepped compute invocations s a t) {i : Fin numProcesses}
    (htask : s.tasks i = .failed) (hprogress : s.progress i = none) :
    t.tasks i = .failed ∧ t.progress i = none := by
  have hmoved : ∀ {j task}, s.tasks j ≠ .failed →
      (setTask s j task).tasks i = .failed ∧ (setTask s j task).progress i = none := by
    intro j task hj
    have hij : i ≠ j := by
      rintro rfl
      exact hj htask
    exact ⟨(setTask_of_ne s hij task).trans htask, hprogress⟩
  cases hstep with
  | compute hj => exact hmoved (by simp [hj])
  | raises hj => exact hmoved (by simp [hj])
  | @publish j results hj =>
    have hij : i ≠ j := by
      rintro rfl
      rw [htask] at hj
      cases hj
    simp [publishTask, hij, htask, hprogress]
  | deliver hj => exact hmoved (by simp [hj])
  | @fail j hj =>
    by_cases hij : i = j
    · exact ⟨hij ▸ setTask_self s i .failed, hprogress⟩
    · exact ⟨(setTask_of_ne s hij .failed).trans htask, hprogress⟩
  | wait => exact ⟨htask, hprogress⟩
  | leave => exact ⟨htask, hprogress⟩
  | collect => exact ⟨htask, hprogress⟩
  | error => exact ⟨htask, hprogress⟩
  | save => exact ⟨htask, hprogress⟩

theorem chunk_subset (invocations : List α) (i : Fin numProcesses) :
    chunk invocations i ⊆ invocations := by
  intro inv hinv
  rw [← flatMap_chunk invocations]
  exact List.mem_flatMap.mpr ⟨i, List.mem_finRange i, hinv⟩

/-- Before it has all chunks the main process is in its loop. -/
theorem PoolOk.polling (h : PoolOk compute invocations s) {i : Fin numProcesses}
    (hchunk : chunk invocations i ≠ []) (hprogress : s.progress i = none) :
    ∃ seen, s.main = .polling seen ∧ seen < invocations.length := by
  have hphase := h.phase
  have hmissing : ¬ AllIn invocations s := fun hin => hin i hchunk hprogress
  cases hmain : s.main with
  | nothing =>
    rw [hmain] at hphase
    have hnil : chunk invocations i = [] :=
      List.eq_nil_iff_forall_not_mem.mpr fun inv hinv => by
        have := chunk_subset invocations i hinv
        rw [hphase] at this
        exact List.not_mem_nil this
    exact absurd hnil hchunk
  | polling seen =>
    rw [hmain] at hphase
    exact ⟨seen, rfl, hphase⟩
  | collecting yielded metrics =>
    rw [hmain] at hphase
    exact absurd hphase.1 hmissing
  | saved metrics =>
    rw [hmain] at hphase
    exact absurd hphase.1 hmissing
  | raised =>
    rw [hmain] at hphase
    exact absurd hphase hmissing

/-- A process that fails before its chunk is in the dictionary leaves the main process in its
loop for good. -/
theorem waits_for_good (h : Reachable (pool compute invocations) s) {i : Fin numProcesses}
    (hchunk : chunk invocations i ≠ []) (htask : s.tasks i = .failed)
    (hprogress : s.progress i = none)
    (hmoves : Relation.ReflTransGen (Moves (pool compute invocations) fun _ _ => True) s t) :
    ∃ seen, t.main = .polling seen ∧ seen < invocations.length := by
  have hkept : PoolOk compute invocations t ∧ t.tasks i = .failed ∧ t.progress i = none := by
    refine invariant_of_moves (I := fun u => PoolOk compute invocations u ∧ u.tasks i = .failed ∧
      u.progress i = none) ?_ ⟨ok_of_reachable h, htask, hprogress⟩ hmoves
    rintro u b v ⟨hok, hu⟩ - hstep
    exact ⟨(stepped_of_step hstep).ok hok, (stepped_of_step hstep).failed hu.1 hu.2⟩
  exact hkept.1.polling hchunk hkept.2.2

/-! ## Without failures -/

/-- What a process still has to do. -/
def Task.weight : Task α β → Nat
  | .working _ rest => rest.length + 2
  | .published _ => 1
  | .returned _ => 0
  | .failed => 0

/-- What the main process still has to do. -/
def Main.weight : Main β → Nat
  | .polling _ => numProcesses + 2
  | .collecting yielded _ => numProcesses + 1 - yielded.length
  | _ => 0

def remaining (s : PoolState α β) : Nat := ∑ i, (s.tasks i).weight + s.main.weight

theorem remaining_lt {i : Fin numProcesses} (hi : (t.tasks i).weight < (s.tasks i).weight)
    (hothers : ∀ j, j ≠ i → t.tasks j = s.tasks j) (hmain : t.main = s.main) :
    remaining t < remaining s := by
  rw [remaining, remaining, hmain]
  refine Nat.add_lt_add_right (Finset.sum_lt_sum (fun j _ => ?_) ⟨i, Finset.mem_univ i, hi⟩) _
  by_cases hj : j = i
  · exact hj ▸ hi.le
  · rw [hothers j hj]

variable (compute invocations) in
/-- No process has failed. -/
structure Healthy (s : PoolState α β) : Prop where
  ok : PoolOk compute invocations s
  tasks : ∀ i, s.tasks i ≠ .failed
  main : s.main ≠ .raised

/-- No process is made to fail. -/
def NoFailure (_ : PoolState α β) (a : Action) : Prop := ∀ i, a ≠ .fail i

theorem Stepped.healthy (hstep : Stepped compute invocations s a t)
    (hvalues : ∀ inv ∈ invocations, (compute inv).isSome = true) (hno : NoFailure s a)
    (h : Healthy compute invocations s) : Healthy compute invocations t := by
  have hmoved : ∀ {j task}, task ≠ .failed → ∀ i, (setTask s j task).tasks i ≠ .failed := by
    intro j task htask i
    by_cases hij : i = j
    · subst hij
      rwa [setTask_self]
    · rw [setTask_of_ne s hij]
      exact h.tasks i
  refine ⟨hstep.ok h.ok, ?_, ?_⟩
  · cases hstep with
    | compute => exact hmoved (by simp)
    | @raises i results inv rest htask hvalue =>
      have hstage := h.ok.stage i
      rw [htask] at hstage
      obtain ⟨-, front, hsplit, -⟩ := hstage.of_working
      have hmem : inv ∈ chunk invocations i := by
        rw [← hsplit]
        exact List.mem_append_right _ List.mem_cons_self
      have hsome := hvalues inv (chunk_subset invocations i hmem)
      rw [hvalue] at hsome
      cases hsome
    | publish => exact hmoved (by simp)
    | deliver => exact hmoved (by simp)
    | fail => exact absurd rfl (hno _)
    | wait => exact h.tasks
    | leave => exact h.tasks
    | collect => exact h.tasks
    | error => exact h.tasks
    | save => exact h.tasks
  · cases hstep with
    | compute => exact h.main
    | raises => exact h.main
    | publish => exact h.main
    | deliver => exact h.main
    | fail => exact h.main
    | wait => simp
    | leave => simp
    | collect => simp
    | error hmain htask => exact absurd htask (h.tasks _)
    | save => simp

/-- A process that has not returned can move, and leaves the main process alone. -/
theorem Healthy.task_moves (h : Healthy compute invocations s)
    (hvalues : ∀ inv ∈ invocations, (compute inv).isSome = true) {i : Fin numProcesses}
    (hi : ∀ r, s.tasks i ≠ .returned r) :
    ∃ a t, NoFailure s a ∧ step compute invocations s a = some t ∧ t.main = s.main ∧
      remaining t < remaining s := by
  have hstage := h.ok.stage i
  cases htask : s.tasks i with
  | working results rest =>
    cases rest with
    | nil =>
      refine ⟨.publish i, publishTask invocations s i results, by simp [NoFailure],
        by simp [step, htask], rfl, remaining_lt (i := i) ?_ (fun j hj => ?_) rfl⟩
      · simp [publishTask, htask, Task.weight]
      · simp [publishTask, hj]
    | cons inv rest =>
      rw [htask] at hstage
      obtain ⟨-, front, hsplit, -⟩ := hstage.of_working
      have hmem : inv ∈ chunk invocations i := by
        rw [← hsplit]
        exact List.mem_append_right _ List.mem_cons_self
      obtain ⟨metrics, hvalue⟩ :=
        Option.isSome_iff_exists.mp (hvalues inv (chunk_subset invocations i hmem))
      refine ⟨.compute i, setTask s i (.working (results ++ [metrics]) rest), by simp [NoFailure],
        by simp [step, htask, hvalue], rfl,
        remaining_lt (i := i) ?_ (fun j hj => setTask_of_ne s hj _) rfl⟩
      simp [htask, Task.weight]
  | published results =>
    refine ⟨.deliver i, setTask s i (.returned results), by simp [NoFailure],
      by simp [step, htask], rfl,
      remaining_lt (i := i) ?_ (fun j hj => setTask_of_ne s hj _) rfl⟩
    simp [htask, Task.weight]
  | returned results => exact absurd htask (hi results)
  | failed => exact absurd htask (h.tasks i)

/-- All chunks are in the dictionary once their results are there. -/
theorem processed_eq (h : PoolOk compute invocations s)
    (hall : ∀ i, ∃ r, s.tasks i = .returned r) : processed s = invocations.length := by
  rw [← sum_length_chunk, processed]
  refine Finset.sum_congr rfl fun i _ => ?_
  obtain ⟨r, hr⟩ := hall i
  have hstage := h.stage i
  rw [hr] at hstage
  rw [hstage.of_returned.1, Option.getD_some]

theorem exists_notMem {n : Nat} {l : List (Fin n)} (h : l.length < n) : ∃ i, i ∉ l := by
  by_contra hall
  have hsub : List.finRange n ⊆ l := fun i _ => not_not.mp (not_exists.mp hall i)
  have hle := ((List.nodup_finRange n).subperm hsub).length_le
  rw [List.length_finRange] at hle
  omega

/-- With all results there the main process can move until it has saved them. -/
theorem Healthy.main_moves (h : Healthy compute invocations s) (hne : invocations ≠ [])
    (hall : ∀ i, ∃ r, s.tasks i = .returned r) (hgoal : ¬ ∃ metrics, s.main = .saved metrics) :
    ∃ a t, NoFailure s a ∧ step compute invocations s a = some t ∧ remaining t < remaining s := by
  have hphase := h.ok.phase
  have hlower : ∀ main : Main β, main.weight < s.main.weight →
      remaining { s with main := main } < remaining s := fun _ hlt => Nat.add_lt_add_left hlt _
  cases hmain : s.main with
  | nothing =>
    rw [hmain] at hphase
    exact absurd hphase hne
  | polling seen =>
    refine ⟨.poll, { s with main := .collecting [] [] }, by simp [NoFailure], ?_, hlower _ ?_⟩
    · simp [step, hmain, processed_eq h.ok hall]
    · simp [hmain, Main.weight]
  | collecting yielded metrics =>
    rw [hmain] at hphase
    have hle : yielded.length ≤ numProcesses := by
      have hsub := (hphase.2.1.subperm fun i _ => List.mem_finRange i).length_le
      rwa [List.length_finRange] at hsub
    rcases hle.eq_or_lt with hlast | hmore
    · refine ⟨.save, { s with main := .saved metrics }, by simp [NoFailure], ?_, hlower _ ?_⟩
      · simp [step, hmain, hlast]
      · simp [hmain, Main.weight, hlast]
    · obtain ⟨i, hi⟩ := exists_notMem hmore
      obtain ⟨results, hresults⟩ := hall i
      refine ⟨.collect i, { s with main := .collecting (yielded ++ [i]) (metrics ++ results) },
        by simp [NoFailure], ?_, hlower _ ?_⟩
      · simp [step, hmain, hresults, hi]
      · simp only [hmain, Main.weight, List.length_append, List.length_singleton]
        omega
  | saved metrics => exact absurd ⟨metrics, hmain⟩ hgoal
  | raised => exact absurd hmain h.main

theorem init_healthy : Healthy compute invocations (pool compute invocations).init where
  ok := init_ok
  tasks i := by simp [pool]
  main := by
    by_cases hempty : invocations = []
    · simp [pool, hempty]
    · simp [pool, hempty]

/-- Without failures the results can be saved from wherever a run has come to. -/
theorem can_be_saved (hvalues : ∀ inv ∈ invocations, (compute inv).isSome = true)
    (hne : invocations ≠ []) (h : Reaches (pool compute invocations) NoFailure s) :
    ∃ t, Relation.ReflTransGen (Moves (pool compute invocations) NoFailure) s t ∧
      ∃ metrics, t.main = .saved metrics := by
  have hhealthy : Healthy compute invocations s :=
    h.invariant init_healthy fun _ _ _ hs hno hstep =>
      (stepped_of_step hstep).healthy hvalues hno hs
  refine exists_moves_to (I := Healthy compute invocations) remaining
    (fun u hu hgoal => ?_) hhealthy
  have hmoves : ∃ a t, NoFailure u a ∧ step compute invocations u a = some t ∧
      remaining t < remaining u := by
    by_cases hall : ∀ i, ∃ r, u.tasks i = .returned r
    · exact hu.main_moves hne hall hgoal
    · obtain ⟨i, hi⟩ := not_forall.mp hall
      obtain ⟨a, t, hno, hstep, -, hlt⟩ := hu.task_moves hvalues fun r hr => hi ⟨r, hr⟩
      exact ⟨a, t, hno, hstep, hlt⟩
  obtain ⟨a, v, hno, hstep, hlt⟩ := hmoves
  exact ⟨a, v, hno, hstep, (stepped_of_step hstep).healthy hvalues hno hu, hlt⟩

/-- All processes can return while the main process waits. -/
theorem exists_all_returned (hvalues : ∀ inv ∈ invocations, (compute inv).isSome = true) :
    ∃ s, Reachable (pool compute invocations) s ∧ PoolOk compute invocations s ∧
      s.main = (pool compute invocations).init.main ∧ ∀ i, ∃ r, s.tasks i = .returned r := by
  have hreturned : ∃ s, Relation.ReflTransGen (Moves (pool compute invocations) NoFailure)
      (pool compute invocations).init s ∧
      (Healthy compute invocations s ∧ s.main = (pool compute invocations).init.main) ∧
      ∀ i, ∃ r, s.tasks i = .returned r := by
    refine exists_moves_to (I := fun u => Healthy compute invocations u ∧
      u.main = (pool compute invocations).init.main) remaining
      (fun u hu hgoal => ?_) ⟨init_healthy, rfl⟩
    obtain ⟨i, hi⟩ := not_forall.mp fun hall => hgoal ⟨hu, hall⟩
    obtain ⟨a, t, hno, hstep, hmain, hlt⟩ := hu.1.task_moves hvalues fun r hr => hi ⟨r, hr⟩
    exact ⟨a, t, hno, hstep,
      ⟨(stepped_of_step hstep).healthy hvalues hno hu.1, hmain.trans hu.2⟩, hlt⟩
  obtain ⟨s, hmoves, hs, hall⟩ := hreturned
  exact ⟨s, reachable_of_moves .init hmoves, hs.1.ok, hs.2, hall⟩

theorem exists_collecting (hall : ∀ i, ∃ r, s.tasks i = .returned r)
    (rest : List (Fin numProcesses)) {yielded : List (Fin numProcesses)} {metrics : List β}
    (h : Reachable (pool compute invocations) { s with main := .collecting yielded metrics })
    (hnodup : (yielded ++ rest).Nodup) : ∃ metrics',
    Reachable (pool compute invocations)
      { s with main := .collecting (yielded ++ rest) metrics' } := by
  induction rest generalizing yielded metrics with
  | nil => exact ⟨metrics, by rwa [List.append_nil]⟩
  | cons i rest ih =>
    obtain ⟨results, hresults⟩ := hall i
    have hfresh : i ∉ yielded := fun hi =>
      (List.disjoint_of_nodup_append hnodup) hi List.mem_cons_self
    have hcollected : Reachable (pool compute invocations)
        { s with main := .collecting (yielded ++ [i]) (metrics ++ results) } := by
      refine .step (a := .collect i) h trivial ?_
      simp [pool, step, hresults, hfresh]
    have hassoc : yielded ++ i :: rest = yielded ++ [i] ++ rest := by simp
    rw [hassoc] at hnodup ⊢
    exact ih hcollected hnodup

/-- The processes can finish in any order. -/
theorem exists_saved_in_order (hvalues : ∀ inv ∈ invocations, (compute inv).isSome = true)
    (hne : invocations ≠ []) {order : List (Fin numProcesses)}
    (horder : order.Perm (List.finRange numProcesses)) :
    ∃ s metrics, Reachable (pool compute invocations) s ∧ s.main = .saved metrics ∧
      metrics.map some = order.flatMap fun i => (chunk invocations i).map compute := by
  obtain ⟨s, hs, hok, hmain, hall⟩ := exists_all_returned hvalues
  have hleft : Reachable (pool compute invocations) { s with main := .collecting [] [] } := by
    refine .step (a := .poll) hs trivial ?_
    have hpolling : s.main = .polling 0 := hmain.trans (if_neg hne)
    simp [pool, step, hpolling, processed_eq hok hall]
  obtain ⟨metrics, hcollected⟩ :=
    exists_collecting hall order hleft (horder.nodup_iff.mpr (List.nodup_finRange _))
  have hmetrics := (ok_of_reachable hcollected).phase.2.2.2
  have hlength : order.length = numProcesses := by
    rw [horder.length_eq, List.length_finRange]
  refine ⟨_, metrics, .step (a := .save) hcollected trivial (if_pos hlength), rfl, hmetrics⟩

/-- A process can fail at once. -/
theorem exists_failed (hne : invocations ≠ []) :
    ∃ (s : PoolState α β) (i : Fin numProcesses), Reachable (pool compute invocations) s ∧
      chunk invocations i ≠ [] ∧ s.tasks i = .failed ∧ s.progress i = none := by
  obtain ⟨i, hi⟩ : ∃ i, chunk invocations i ≠ [] := by
    by_contra hall
    have hempty : ∀ i, chunk invocations i = [] := fun i => not_not.mp (not_exists.mp hall i)
    refine hne ?_
    rw [← flatMap_chunk invocations]
    simp [hempty]
  refine ⟨setTask (pool compute invocations).init i .failed, i, ?_, hi, setTask_self _ i _, rfl⟩
  exact .step (a := .fail i) .init trivial rfl

end Pool

/-! ## The metrics -/

/-- What `compute_metrics_for_invocation` does to an invocation, and its `performance_ticks`. -/
def computeMetrics (files : AnalysisFiles) (totalBwData : List BwInterval) (inv : Invocation) :
    Option (Invocation × List (Nat × Tick)) :=
  (avgTotalMemoryBandwidth inv totalBwData (totalBwStartTimes totalBwData)
    (totalBwEndTimes totalBwData)).map fun total =>
      ({ (computeMetricsForInvocation files inv).1 with avgTotalMemoryBandwidth := some total },
        (computeMetricsForInvocation files inv).2)

/-- The processes with what they have been given. -/
def metricsPool (files : AnalysisFiles) (timeline : Timeline) (invocations : List Invocation) :
    Machine (PoolState Invocation (Invocation × List (Nat × Tick))) Action :=
  pool (computeMetrics files timeline.data) invocations

/-- Whatever the processes do and whichever of them fail, metrics are saved only for all
invocations, each once and chunk by chunk. A process that fails before its chunk is in the
dictionary makes the main process wait for good; without failures the metrics can be saved from
wherever a run has come to. -/
theorem metrics_saved_whole (files : AnalysisFiles) (timeline : Timeline)
    (invocations : List Invocation) :
    (∀ s metrics, Reachable (metricsPool files timeline invocations) s → s.main = .saved metrics →
      (∃ order : List (Fin numProcesses), order.Perm (List.finRange numProcesses) ∧
        metrics.map some = order.flatMap fun i =>
          (chunk invocations i).map (computeMetrics files timeline.data)) ∧
      (metrics.map some).Perm (invocations.map (computeMetrics files timeline.data))) ∧
    (∀ s i, Reachable (metricsPool files timeline invocations) s → chunk invocations i ≠ [] →
      s.tasks i = .failed → s.progress i = none → ∀ t,
      Relation.ReflTransGen (Moves (metricsPool files timeline invocations) fun _ _ => True) s t →
      ∃ seen, t.main = .polling seen ∧ seen < invocations.length) ∧
    (invocations ≠ [] →
      (∃ s i, Reachable (metricsPool files timeline invocations) s ∧ chunk invocations i ≠ [] ∧
        s.tasks i = .failed ∧ s.progress i = none) ∧
      ∀ s, Reaches (metricsPool files timeline invocations) NoFailure s →
        ∃ t, Relation.ReflTransGen (Moves (metricsPool files timeline invocations) NoFailure) s t ∧
          ∃ metrics, t.main = .saved metrics) := by
  refine ⟨fun s metrics hs hmain => ?_, fun s i hs hchunk htask hprogress t hmoves =>
    waits_for_good hs hchunk htask hprogress hmoves, fun hne => ⟨exists_failed hne, fun s hs =>
      can_be_saved (fun inv _ => ?_) hne hs⟩⟩
  · have hphase := (ok_of_reachable hs).phase
    rw [hmain] at hphase
    obtain ⟨-, order, hperm, hmetrics⟩ := hphase
    refine ⟨⟨order, hperm, hmetrics⟩, ?_⟩
    have hall : (List.finRange numProcesses).flatMap
        (fun i => (chunk invocations i).map (computeMetrics files timeline.data)) =
        invocations.map (computeMetrics files timeline.data) := by
      rw [← List.map_flatMap, flatMap_chunk]
    rw [hmetrics, ← hall]
    exact hperm.flatMap_right _
  · rw [computeMetrics, timeline.avg_eq_scanAverage inv]
    rfl

/-- Three invocations of a thread that is on core 2 and then on core 3. -/
def threeInvocations : List Invocation :=
  [fiveToThirty, ⟨2, 7, 10, 90, fun _ => none, none⟩, ⟨3, 7, 40, 120, fun _ => none, none⟩]

/-- The last process is the first to be collected, so that the metrics are saved in the opposite
order. -/
theorem metrics_saved_backwards : ∃ s metrics,
    Reachable (metricsPool (coreTwo [⟨2, 0, 60⟩, ⟨3, 61, 200⟩]) threeIntervals threeInvocations) s ∧
    s.main = .saved metrics ∧
    metrics.map some = threeInvocations.reverse.map
      (computeMetrics (coreTwo [⟨2, 0, 60⟩, ⟨3, 61, 200⟩]) threeIntervals.data) ∧
    (metrics.map some).Perm (threeInvocations.map
      (computeMetrics (coreTwo [⟨2, 0, 60⟩, ⟨3, 61, 200⟩]) threeIntervals.data)) := by
  have hvalues : ∀ inv ∈ threeInvocations, (computeMetrics (coreTwo [⟨2, 0, 60⟩, ⟨3, 61, 200⟩])
      threeIntervals.data inv).isSome = true := by
    intro inv _
    rw [computeMetrics, threeIntervals.avg_eq_scanAverage inv]
    rfl
  obtain ⟨s, metrics, hs, hmain, hmetrics⟩ := exists_saved_in_order hvalues
    (List.cons_ne_nil _ _) (List.reverse_perm (List.finRange numProcesses))
  have hbackwards : (List.finRange numProcesses).reverse.flatMap (chunk threeInvocations) =
      threeInvocations.reverse := rfl
  refine ⟨s, metrics, hs, hmain, ?_, ?_⟩
  · rw [hmetrics, ← List.map_flatMap, hbackwards]
  · exact ((metrics_saved_whole _ threeIntervals threeInvocations).1 s metrics hs hmain).2

end MetricsPool
