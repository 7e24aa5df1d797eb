import Mathlib.Data.List.Nodup
import Hiresperf.Foundation.StepMachine

/-!
# Instructed operations on the workqueue

`enqueue_instructed_profile_op` as any number of ioctls run it at the same time,
against the workers of `instructed_profile_wq`. There is one work item for each
CPU; an ioctl uses the item of the CPU it runs on. The body of an operation is
the span between its start and its end on a worker, however long it waits for
`instructed_profile_lock`.

A queueing remembers the ioctl that made it. That, and the history of events,
are for the statements only: no step looks at them.
-/

namespace InstructedWork

open StepMachine

/-- The three functions that are handed to `INIT_WORK`. -/
inductive InstructedOp where
  | pollOp
  | logOp
  | pollAndLog
  deriving DecidableEq

/-- `struct work_struct`, with its queueings not yet taken by a worker and its executions
under way. -/
structure WorkItem where
  func : Option InstructedOp
  pending : Bool
  queueings : List Nat
  running : List (Nat × InstructedOp)
  deriving DecidableEq

def WorkItem.unused : WorkItem := ⟨none, false, [], []⟩

def initWork (w : WorkItem) (func : InstructedOp) : WorkItem :=
  { w with func := some func, pending := false }

/-- Queueing by the ioctl `r`; nothing happens when the item is pending. -/
def queueWorkOn (w : WorkItem) (r : Nat) : WorkItem :=
  if w.pending then w else { w with pending := true, queueings := w.queueings ++ [r] }

/-- `flush_work` returns. -/
def WorkItem.flushed (w : WorkItem) : Bool := !w.pending && w.running.isEmpty

inductive Pc where
  | entered
  | picked
  | initialised
  | flushing
  | returned (code : Int)
  deriving DecidableEq

/-- One ioctl: the operation asked for and the CPU whose item it uses. -/
structure Request where
  op : InstructedOp
  cpu : Nat
  pc : Pc
  deriving DecidableEq

inductive Event where
  | called (r : Nat) (op : InstructedOp)
  | started (r : Nat) (op : InstructedOp)
  | finished (r : Nat) (op : InstructedOp)
  | returned (r : Nat) (code : Int)
  deriving DecidableEq

def Event.request : Event → Nat
  | .called r _ | .started r _ | .finished r _ | .returned r _ => r

structure WorkState where
  requests : List Request
  item : Nat → WorkItem
  history : List Event

inductive WorkAction where
  | call (op : InstructedOp) (cpu : Nat)
  | advance (r : Nat)
  | startWork (cpu : Nat)
  | finishWork (cpu : Nat) (r : Nat) (func : InstructedOp)

def efault : Int := 14
def einval : Int := 22

/-- The module parameter `instructed_profile`, and whether the workqueue exists. -/
structure WorkConfig where
  instructedProfile : Bool
  workqueue : Bool

def WorkState.setPc (s : WorkState) (r : Nat) (q : Request) (pc : Pc) : WorkState :=
  { s with requests := s.requests.set r { q with pc := pc } }

def WorkState.setItem (s : WorkState) (cpu : Nat) (w : WorkItem) : WorkState :=
  { s with item := Function.update s.item cpu w }

def WorkState.log (s : WorkState) (e : Event) : WorkState := { s with history := s.history ++ [e] }

section Updates

variable (s : WorkState) (r cpu : Nat) (q : Request) (pc : Pc) (w : WorkItem) (e : Event)

@[simp] theorem setPc_item : (s.setPc r q pc).item = s.item := rfl
@[simp] theorem setPc_history : (s.setPc r q pc).history = s.history := rfl
@[simp] theorem setItem_requests : (s.setItem cpu w).requests = s.requests := rfl
@[simp] theorem setItem_item : (s.setItem cpu w).item = Function.update s.item cpu w := rfl
@[simp] theorem setItem_history : (s.setItem cpu w).history = s.history := rfl
@[simp] theorem log_requests : (s.log e).requests = s.requests := rfl
@[simp] theorem log_item : (s.log e).item = s.item := rfl
@[simp] theorem log_history : (s.log e).history = s.history ++ [e] := rfl

end Updates

/-- The next step of `enqueue_instructed_profile_op` for the ioctl `r`. The item is never
NULL, so of the two NULL tests that follow `INIT_WORK` the first passes. -/
def enqueueInstructedProfileOp (cfg : WorkConfig) (s : WorkState) (r : Nat) (q : Request) :
    Option WorkState :=
  match q.pc with
  | .entered =>
    if cfg.instructedProfile then some (s.setPc r q .picked)
    else some ((s.setPc r q (.returned (-einval))).log (.returned r (-einval)))
  | .picked => some ((s.setPc r q .initialised).setItem q.cpu (initWork (s.item q.cpu) q.op))
  | .initialised =>
    if cfg.workqueue then
      some ((s.setPc r q .flushing).setItem q.cpu (queueWorkOn (s.item q.cpu) r))
    else some ((s.setPc r q (.returned (-efault))).log (.returned r (-efault)))
  | .flushing =>
    if (s.item q.cpu).flushed then some ((s.setPc r q (.returned 0)).log (.returned r 0)) else none
  | .returned _ => none

/-- A worker takes the oldest queueing of an item, clears the pending mark and calls the
function that the item has now. -/
def startWork (s : WorkState) (cpu : Nat) : Option WorkState :=
  match (s.item cpu).queueings, (s.item cpu).func with
  | r :: rest, some func =>
    some ((s.setItem cpu { s.item cpu with
      pending := false, queueings := rest,
      running := (s.item cpu).running ++ [(r, func)] }).log (.started r func))
  | _, _ => none

def finishWork (s : WorkState) (cpu r : Nat) (func : InstructedOp) : Option WorkState :=
  if (r, func) ∈ (s.item cpu).running then
    some ((s.setItem cpu { s.item cpu with
      running := (s.item cpu).running.erase (r, func) }).log (.finished r func))
  else none

def workMachine (cfg : WorkConfig) : Machine WorkState WorkAction where
  init := ⟨[], fun _ => .unused, []⟩
  step s a := match a with
    | .call op cpu => some { s with
        requests := s.requests ++ [⟨op, cpu, .entered⟩]
        history := s.history ++ [.called s.requests.length op] }
    | .advance r => (s.requests[r]?).bind (enqueueInstructedProfileOp cfg s r)
    | .startWork cpu => startWork s cpu
    | .finishWork cpu r func => finishWork s cpu r func

/-- What happened to the ioctl `r` so far, in order. -/
def eventsOf (r : Nat) (history : List Event) : List Event :=
  history.filter (fun e => e.request == r)

/-- Between the call and the return of `r` its queueing was executed once, and what ran was
the operation it asked for. -/
def ExecutedOnce (s : WorkState) (r : Nat) (op : InstructedOp) : Prop :=
  eventsOf r s.history = [.called r op, .started r op, .finished r op, .returned r 0]

instance (s : WorkState) (r : Nat) (op : InstructedOp) : Decidable (ExecutedOnce s r op) :=
  inferInstanceAs (Decidable (_ = _))

/-- `INIT_WORK` finds no request between its own `INIT_WORK` on the same item and the start
of its execution. -/
def InitUndisturbing (s : WorkState) : WorkAction → Prop
  | .advance r => ∀ q, s.requests[r]? = some q → q.pc = .picked →
      (s.item q.cpu).queueings = [] ∧ ∀ q' ∈ s.requests, q'.cpu = q.cpu → q'.pc ≠ .initialised
  | _ => True

instance (s : WorkState) (a : WorkAction) : Decidable (InitUndisturbing s a) :=
  match a with
  | .advance r =>
    match h : s.requests[r]? with
    | none => .isTrue (fun _ hq => nomatch h.symm.trans hq)
    | some q => decidable_of_iff
        (q.pc = .picked → (s.item q.cpu).queueings = [] ∧
          ∀ q' ∈ s.requests, q'.cpu = q.cpu → q'.pc ≠ .initialised)
        ⟨fun hq q' h' => by cases h.symm.trans h'; exact hq, fun hall => hall q h⟩
  | .call _ _ => .isTrue trivial
  | .startWork _ => .isTrue trivial
  | .finishWork _ _ _ => .isTrue trivial

/-- Where a request stands, told from the events about it. -/
def Phase (s : WorkState) (r : Nat) (q : Request) : Prop :=
  match q.pc with
  | .entered | .picked | .initialised => eventsOf r s.history = [.called r q.op]
  | .flushing => r ∈ (s.item q.cpu).queueings ∨ (r, q.op) ∈ (s.item q.cpu).running ∨
      eventsOf r s.history = [.called r q.op, .started r q.op, .finished r q.op]
  | .returned code => code = 0 → ExecutedOnce s r q.op

structure WorkInv (s : WorkState) : Prop where
  /-- A queueing belongs to a request whose function is still in the item. -/
  queued : ∀ cpu r, r ∈ (s.item cpu).queueings → ∃ q, s.requests[r]? = some q ∧ q.cpu = cpu ∧
    q.pc = .flushing ∧ (s.item cpu).func = some q.op ∧ eventsOf r s.history = [.called r q.op]
  single : ∀ cpu, (s.item cpu).queueings.length ≤ 1
  pending : ∀ cpu, (s.item cpu).pending = true ↔ (s.item cpu).queueings ≠ []
  running : ∀ cpu r f, (r, f) ∈ (s.item cpu).running → ∃ q, s.requests[r]? = some q ∧
    q.cpu = cpu ∧ q.pc = .flushing ∧ f = q.op ∧
    eventsOf r s.history = [.called r q.op, .started r q.op]
  runningOnce : ∀ cpu, (s.item cpu).running.Nodup
  /-- Nobody comes between `INIT_WORK` and `queue_work_on`. -/
  initialised : ∀ (r : Nat) (q : Request), s.requests[r]? = some q → q.pc = .initialised →
    (s.item q.cpu).func = some q.op ∧ (s.item q.cpu).queueings = [] ∧
    ∀ (r' : Nat) (q' : Request), s.requests[r']? = some q' → q'.cpu = q.cpu →
      q'.pc = .initialised → r' = r
  phase : ∀ (r : Nat) (q : Request), s.requests[r]? = some q → Phase s r q
  fresh : ∀ r : Nat, s.requests.length ≤ r → eventsOf r s.history = []

@[simp] theorem eventsOf_append (i : Nat) (history : List Event) (e : Event) :
    eventsOf i (history ++ [e]) = eventsOf i history ++ if e.request = i then [e] else [] := by
  by_cases h : e.request = i <;> simp [eventsOf, h]

theorem get_set {requests : List Request} {r : Nat} {q q' : Request}
    (h : requests[r]? = some q) (i : Nat) :
    (requests.set r q')[i]? = if i = r then some q' else requests[i]? := by
  have hlt : r < requests.length := (List.getElem?_eq_some_iff.mp h).1
  by_cases hi : i = r
  · subst hi
    simp [hlt]
  · simp [hi, Ne.symm hi]

theorem get_same {requests : List Request} {r : Nat} {q : Request}
    (h : requests[r]? = some q) (i : Nat) :
    requests[i]? = if i = r then some q else requests[i]? := by
  split_ifs with hi
  · exact hi ▸ h
  · rfl

/-- A request that a step is not about stays in its phase. -/
theorem Phase.of_bystander {s t : WorkState} {i : Nat} {q : Request} (h : Phase s i q)
    (hevents : eventsOf i t.history = eventsOf i s.history)
    (hqueued : i ∈ (s.item q.cpu).queueings → i ∈ (t.item q.cpu).queueings)
    (hrunning : (i, q.op) ∈ (s.item q.cpu).running → (i, q.op) ∈ (t.item q.cpu).running) :
    Phase t i q := by
  cases hpc : q.pc with
  | entered | picked | initialised =>
    simp only [Phase, hpc, hevents] at h ⊢
    exact h
  | flushing =>
    simp only [Phase, hpc, hevents] at h ⊢
    rcases h with hq | hr | hdone
    · exact Or.inl (hqueued hq)
    · exact Or.inr (Or.inl (hrunning hr))
    · exact Or.inr (Or.inr hdone)
  | returned code =>
    simp only [Phase, hpc, ExecutedOnce, hevents] at h ⊢
    exact h

theorem WorkInv.not_queued {s : WorkState} (h : WorkInv s) {r : Nat} {q : Request}
    (hr : s.requests[r]? = some q) (hpc : q.pc ≠ .flushing) (cpu : Nat) :
    r ∉ (s.item cpu).queueings := by
  intro hq
  obtain ⟨q', hr', -, hpc', -⟩ := h.queued cpu r hq
  obtain rfl := Option.some.inj (hr.symm.trans hr')
  exact hpc hpc'

theorem WorkInv.not_running {s : WorkState} (h : WorkInv s) {r : Nat} {q : Request}
    (hr : s.requests[r]? = some q) (hpc : q.pc ≠ .flushing) (cpu : Nat) (f : InstructedOp) :
    (r, f) ∉ (s.item cpu).running := by
  intro hf
  obtain ⟨q', hr', -, hpc', -⟩ := h.running cpu r f hf
  obtain rfl := Option.some.inj (hr.symm.trans hr')
  exact hpc hpc'

/-- What a step about the request `r`, now `q`, has to show of the item it leaves as `w`: the
facts about `r` itself, and that the others are as they were. -/
structure StepFacts (s t : WorkState) (r : Nat) (q : Request) (w : WorkItem) : Prop where
  phase : Phase t r q
  queued : r ∈ w.queueings →
    q.pc = .flushing ∧ w.func = some q.op ∧ eventsOf r t.history = [.called r q.op]
  running : ∀ f, (r, f) ∈ w.running →
    q.pc = .flushing ∧ f = q.op ∧ eventsOf r t.history = [.called r q.op, .started r q.op]
  initialised : q.pc = .initialised → w.func = some q.op ∧ w.queueings = []
  queuedOther : ∀ i, i ≠ r → (i ∈ w.queueings ↔ i ∈ (s.item q.cpu).queueings)
  runningOther : ∀ i f, i ≠ r → ((i, f) ∈ w.running ↔ (i, f) ∈ (s.item q.cpu).running)
  funcOther : ∀ i, i ≠ r → i ∈ w.queueings → w.func = (s.item q.cpu).func
  initialisedOther : ∀ (i : Nat) (q' : Request), i ≠ r → s.requests[i]? = some q' →
    q'.cpu = q.cpu → q'.pc = .initialised →
    w.func = (s.item q.cpu).func ∧ w.queueings = [] ∧ q.pc ≠ .initialised
  single : w.queueings.length ≤ 1
  pending : w.pending = true ↔ w.queueings ≠ []
  once : w.running.Nodup

/-- A step about the request `r`, before it `q₀` and after it `q`, touches that request, its
item and its events only. -/
structure Touches (s t : WorkState) (r : Nat) (q₀ q : Request) (w : WorkItem) : Prop where
  old : s.requests[r]? = some q₀
  cpu : q₀.cpu = q.cpu
  requests : ∀ i : Nat, t.requests[i]? = if i = r then some q else s.requests[i]?
  length : t.requests.length = s.requests.length
  item : ∀ c, t.item c = if c = q.cpu then w else s.item c
  events : ∀ i, i ≠ r → eventsOf i t.history = eventsOf i s.history

namespace Touches

variable {s t : WorkState} {r : Nat} {q₀ q : Request} {w : WorkItem}

theorem own (ht : Touches s t r q₀ q w) : t.item q.cpu = w := by
  rw [ht.item, if_pos rfl]

theorem far (ht : Touches s t r q₀ q w) {c : Nat} (hc : c ≠ q.cpu) : t.item c = s.item c := by
  rw [ht.item, if_neg hc]

theorem self (ht : Touches s t r q₀ q w) : t.requests[r]? = some q := by
  rw [ht.requests, if_pos rfl]

theorem rest (ht : Touches s t r q₀ q w) {i : Nat} (hi : i ≠ r) :
    t.requests[i]? = s.requests[i]? := by
  rw [ht.requests, if_neg hi]

/-- A request found on another item is not `r`. -/
theorem ne_of_cpu (ht : Touches s t r q₀ q w) {i : Nat} {q' : Request}
    (hi : s.requests[i]? = some q') (hc : q'.cpu ≠ q.cpu) : i ≠ r := by
  rintro rfl
  obtain rfl := Option.some.inj (ht.old.symm.trans hi)
  exact hc ht.cpu

theorem queued (ht : Touches s t r q₀ q w) (h : WorkInv s) (facts : StepFacts s t r q w)
    {c i : Nat} (hi : i ∈ (t.item c).queueings) : ∃ q', t.requests[i]? = some q' ∧ q'.cpu = c ∧
      q'.pc = .flushing ∧ (t.item c).func = some q'.op ∧
      eventsOf i t.history = [.called i q'.op] := by
  by_cases hc : c = q.cpu
  · subst hc
    rw [ht.own] at hi ⊢
    by_cases hir : i = r
    · subst hir
      exact ⟨q, ht.self, rfl, facts.queued hi⟩
    · obtain ⟨q', hq', hc', hpc, hfunc, hev⟩ := h.queued _ i ((facts.queuedOther i hir).mp hi)
      refine ⟨q', by rw [ht.rest hir, hq'], hc', hpc, ?_, by rw [ht.events i hir, hev]⟩
      rw [facts.funcOther i hir hi, hfunc]
  · rw [ht.far hc] at hi ⊢
    obtain ⟨q', hq', rfl, hpc, hfunc, hev⟩ := h.queued c i hi
    have hir := ht.ne_of_cpu hq' hc
    exact ⟨q', by rw [ht.rest hir, hq'], rfl, hpc, hfunc, by rw [ht.events i hir, hev]⟩

theorem running (ht : Touches s t r q₀ q w) (h : WorkInv s) (facts : StepFacts s t r q w)
    {c i : Nat} {f : InstructedOp} (hi : (i, f) ∈ (t.item c).running) :
    ∃ q', t.requests[i]? = some q' ∧ q'.cpu = c ∧ q'.pc = .flushing ∧ f = q'.op ∧
      eventsOf i t.history = [.called i q'.op, .started i q'.op] := by
  by_cases hc : c = q.cpu
  · subst hc
    rw [ht.own] at hi
    by_cases hir : i = r
    · subst hir
      exact ⟨q, ht.self, rfl, facts.running f hi⟩
    · obtain ⟨q', hq', hc', hpc, hf, hev⟩ := h.running _ i f ((facts.runningOther i f hir).mp hi)
      exact ⟨q', by rw [ht.rest hir, hq'], hc', hpc, hf, by rw [ht.events i hir, hev]⟩
  · rw [ht.far hc] at hi
    obtain ⟨q', hq', rfl, hpc, hf, hev⟩ := h.running c i f hi
    have hir := ht.ne_of_cpu hq' hc
    exact ⟨q', by rw [ht.rest hir, hq'], rfl, hpc, hf, by rw [ht.events i hir, hev]⟩

/-- Two requests on one item do not both stand between `INIT_WORK` and `queue_work_on`. -/
theorem initialised_unique (ht : Touches s t r q₀ q w) (h : WorkInv s)
    (facts : StepFacts s t r q w) {i j : Nat} {q' q'' : Request}
    (hi : t.requests[i]? = some q') (hpc : q'.pc = .initialised)
    (hj : t.requests[j]? = some q'') (hpc' : q''.pc = .initialised) (hc : q''.cpu = q'.cpu) :
    j = i := by
  by_cases hir : i = r
  · subst hir
    obtain rfl := Option.some.inj (ht.self.symm.trans hi)
    by_contra hji
    rw [ht.rest hji] at hj
    exact (facts.initialisedOther j q'' hji hj hc hpc').2.2 hpc
  · rw [ht.rest hir] at hi
    by_cases hjr : j = r
    · subst hjr
      obtain rfl := Option.some.inj (ht.self.symm.trans hj)
      exact absurd hpc' (facts.initialisedOther i q' hir hi hc.symm hpc).2.2
    · rw [ht.rest hjr] at hj
      exact (h.initialised i q' hi hpc).2.2 j q'' hj hc hpc'

theorem initialised (ht : Touches s t r q₀ q w) (h : WorkInv s) (facts : StepFacts s t r q w)
    {i : Nat} {q' : Request} (hi : t.requests[i]? = some q') (hpc : q'.pc = .initialised) :
    (t.item q'.cpu).func = some q'.op ∧ (t.item q'.cpu).queueings = [] := by
  by_cases hir : i = r
  · subst hir
    obtain rfl := Option.some.inj (ht.self.symm.trans hi)
    rw [ht.own]
    exact facts.initialised hpc
  · rw [ht.rest hir] at hi
    obtain ⟨hfunc, hqueue, -⟩ := h.initialised i q' hi hpc
    by_cases hc : q'.cpu = q.cpu
    · obtain ⟨hkeep, hempty, -⟩ := facts.initialisedOther i q' hir hi hc hpc
      rw [hc] at hfunc ⊢
      rw [ht.own, hkeep]
      exact ⟨hfunc, hempty⟩
    · rw [ht.far hc]
      exact ⟨hfunc, hqueue⟩

theorem phase (ht : Touches s t r q₀ q w) (h : WorkInv s) (facts : StepFacts s t r q w)
    {i : Nat} {q' : Request} (hi : t.requests[i]? = some q') : Phase t i q' := by
  by_cases hir : i = r
  · subst hir
    obtain rfl := Option.some.inj (ht.self.symm.trans hi)
    exact facts.phase
  · rw [ht.rest hir] at hi
    apply (h.phase i q' hi).of_bystander (ht.events i hir)
    · by_cases hc : q'.cpu = q.cpu
      · rw [hc, ht.own]
        exact (facts.queuedOther i hir).mpr
      · rw [ht.far hc]
        exact id
    · by_cases hc : q'.cpu = q.cpu
      · rw [hc, ht.own]
        exact (facts.runningOther i q'.op hir).mpr
      · rw [ht.far hc]
        exact id

/-- What holds of the new item and of the old ones holds of every item. -/
theorem forall_item (ht : Touches s t r q₀ q w) {P : WorkItem → Prop} (hw : P w)
    (hs : ∀ c, P (s.item c)) (c : Nat) : P (t.item c) := by
  rw [ht.item]
  split_ifs
  · exact hw
  · exact hs c

/-- The invariant after a step follows from the facts about the one request. -/
theorem workInv (ht : Touches s t r q₀ q w) (h : WorkInv s) (facts : StepFacts s t r q w) :
    WorkInv t := by
  constructor
  case queued => exact fun c i hi => ht.queued h facts hi
  case single =>
    exact ht.forall_item (P := fun w => w.queueings.length ≤ 1) facts.single h.single
  case pending =>
    exact ht.forall_item (P := fun w => w.pending = true ↔ w.queueings ≠ []) facts.pending h.pending
  case running => exact fun c i f hi => ht.running h facts hi
  case runningOnce =>
    exact ht.forall_item (P := fun w => w.running.Nodup) facts.once h.runningOnce
  case initialised =>
    intro i q' hi hpc
    obtain ⟨hfunc, hqueue⟩ := ht.initialised h facts hi hpc
    refine ⟨hfunc, hqueue, ?_⟩
    intro j q'' hj hc hpc'
    exact ht.initialised_unique h facts hi hpc hj hpc' hc
  case phase => exact fun i q' hi => ht.phase h facts hi
  case fresh =>
    intro i hi
    have hlt : r < s.requests.length := (List.getElem?_eq_some_iff.mp ht.old).1
    have hlen := ht.length
    rw [ht.events i (by omega)]
    exact h.fresh i (by omega)

end Touches

/-- A request was there before the call, or is the one that is called. -/
theorem old_or_called {requests : List Request} {called q : Request} {i : Nat}
    (hi : (requests ++ [called])[i]? = some q) :
    requests[i]? = some q ∨ (i = requests.length ∧ q = called) := by
  rcases Nat.lt_trichotomy i requests.length with hlt | rfl | hgt
  · rw [List.getElem?_append_left hlt] at hi
    exact Or.inl hi
  · rw [List.getElem?_concat_length] at hi
    exact Or.inr ⟨rfl, (Option.some.inj hi).symm⟩
  · rw [List.getElem?_eq_none (by simp; omega)] at hi
    cases hi

theorem call_inv {s : WorkState} (h : WorkInv s) (op : InstructedOp) (cpu : Nat) :
    WorkInv { s with
      requests := s.requests ++ [⟨op, cpu, .entered⟩]
      history := s.history ++ [.called s.requests.length op] } := by
  have hold : ∀ (i : Nat) (q : Request), s.requests[i]? = some q →
      (s.requests ++ [⟨op, cpu, .entered⟩])[i]? = some q ∧
      eventsOf i (s.history ++ [.called s.requests.length op]) = eventsOf i s.history := by
    intro i q hi
    have hlt : i < s.requests.length := (List.getElem?_eq_some_iff.mp hi).1
    exact ⟨by rw [List.getElem?_append_left hlt, hi], by simp [Event.request, Nat.ne_of_gt hlt]⟩
  constructor
  case queued =>
    intro c i hi
    obtain ⟨q, hq, hc, hpc, hfunc, hev⟩ := h.queued c i hi
    obtain ⟨hq', hev'⟩ := hold i q hq
    exact ⟨q, hq', hc, hpc, hfunc, hev'.trans hev⟩
  case single => exact h.single
  case pending => exact h.pending
  case running =>
    intro c i f hi
    obtain ⟨q, hq, hc, hpc, hf, hev⟩ := h.running c i f hi
    obtain ⟨hq', hev'⟩ := hold i q hq
    exact ⟨q, hq', hc, hpc, hf, hev'.trans hev⟩
  case runningOnce => exact h.runningOnce
  case initialised =>
    intro i q hi hpc
    obtain hi | ⟨rfl, rfl⟩ := old_or_called hi
    · obtain ⟨hfunc, hqueue, honly⟩ := h.initialised i q hi hpc
      refine ⟨hfunc, hqueue, ?_⟩
      intro j q' hj hc hpc'
      obtain hj | ⟨rfl, rfl⟩ := old_or_called hj
      · exact honly j q' hj hc hpc'
      · cases hpc'
    · cases hpc
  case phase =>
    intro i q hi
    obtain hi | ⟨rfl, rfl⟩ := old_or_called hi
    · exact (h.phase i q hi).of_bystander (hold i q hi).2 id id
    · simp [Phase, Event.request, h.fresh]
  case fresh =>
    intro i hi
    simp only [List.length_append, List.length_singleton] at hi
    have hne : s.requests.length ≠ i := by omega
    simpa [Event.request, hne] using h.fresh i (by omega)

theorem pick_inv {s : WorkState} (h : WorkInv s) {r : Nat} {q : Request}
    (hr : s.requests[r]? = some q) (hpc : q.pc = .entered) : WorkInv (s.setPc r q .picked) := by
  have hq := h.not_queued hr (by simp [hpc]) q.cpu
  have hrun := h.not_running hr (by simp [hpc]) q.cpu
  have htouch : Touches s (s.setPc r q .picked) r q { q with pc := .picked } (s.item q.cpu) :=
    ⟨hr, rfl, get_set hr, by simp [WorkState.setPc],
      fun c => by split_ifs with hc <;> simp [hc], fun _ _ => rfl⟩
  apply htouch.workInv h
  constructor
  case phase => simpa [Phase, hpc] using h.phase r q hr
  case queued => exact fun hin => absurd hin hq
  case running => exact fun f hin => absurd hin (hrun f)
  case initialised => simp
  case queuedOther => exact fun _ _ => Iff.rfl
  case runningOther => exact fun _ _ _ => Iff.rfl
  case funcOther => exact fun _ _ _ => rfl
  case initialisedOther =>
    intro i q' _ hi hc hpc'
    obtain ⟨-, hqueue, -⟩ := h.initialised i q' hi hpc'
    exact ⟨rfl, hc ▸ hqueue, by simp⟩
  case single => exact h.single q.cpu
  case pending => exact h.pending q.cpu
  case once => exact h.runningOnce q.cpu

/-- `INIT_WORK` on an item that nobody waits for. -/
theorem initWork_inv {s : WorkState} (h : WorkInv s) {r : Nat} {q : Request}
    (hr : s.requests[r]? = some q) (hpc : q.pc = .picked)
    (hok : InitUndisturbing s (.advance r)) :
    WorkInv ((s.setPc r q .initialised).setItem q.cpu (initWork (s.item q.cpu) q.op)) := by
  obtain ⟨hempty, hnone⟩ := hok q hr hpc
  have hrun := h.not_running hr (by simp [hpc]) q.cpu
  have htouch : Touches s ((s.setPc r q .initialised).setItem q.cpu (initWork (s.item q.cpu) q.op))
      r q { q with pc := .initialised } (initWork (s.item q.cpu) q.op) :=
    ⟨hr, rfl, get_set hr, by simp [WorkState.setPc], fun c => by simp [Function.update_apply],
      fun _ _ => rfl⟩
  apply htouch.workInv h
  constructor
  case phase => simpa [Phase, hpc] using h.phase r q hr
  case queued => simp [initWork, hempty]
  case running => exact fun f hin => absurd hin (hrun f)
  case initialised => exact fun _ => ⟨rfl, hempty⟩
  case queuedOther => exact fun _ _ => Iff.rfl
  case runningOther => exact fun _ _ _ => Iff.rfl
  case funcOther => simp [initWork, hempty]
  case initialisedOther =>
    exact fun i q' _ hi hc hpc' => absurd hpc' (hnone q' (List.mem_of_getElem? hi) hc)
  case single => simp [initWork, hempty]
  case pending => simp [initWork, hempty]
  case once => exact h.runningOnce q.cpu

/-- After an undisturbed `INIT_WORK` the item is not pending, and gets queued. -/
theorem queueWorkOn_inv {s : WorkState} (h : WorkInv s) {r : Nat} {q : Request}
    (hr : s.requests[r]? = some q) (hpc : q.pc = .initialised) :
    WorkInv ((s.setPc r q .flushing).setItem q.cpu (queueWorkOn (s.item q.cpu) r)) := by
  obtain ⟨hfunc, hempty, honly⟩ := h.initialised r q hr hpc
  have hrun := h.not_running hr (by simp [hpc]) q.cpu
  have hpend : (s.item q.cpu).pending = false := by
    by_contra hp
    exact (h.pending q.cpu).mp (by simpa using hp) hempty
  have hcalled : eventsOf r s.history = [.called r q.op] := by
    simpa [Phase, hpc] using h.phase r q hr
  have hqueue : queueWorkOn (s.item q.cpu) r =
      { s.item q.cpu with pending := true, queueings := [r] } := by
    simp [queueWorkOn, hpend, hempty]
  have htouch : Touches s ((s.setPc r q .flushing).setItem q.cpu (queueWorkOn (s.item q.cpu) r))
      r q { q with pc := .flushing } (queueWorkOn (s.item q.cpu) r) :=
    ⟨hr, rfl, get_set hr, by simp [WorkState.setPc], fun c => by simp [Function.update_apply],
      fun _ _ => rfl⟩
  apply htouch.workInv h
  rw [hqueue]
  constructor
  case phase => exact Or.inl (by simp)
  case queued => exact fun _ => ⟨rfl, hfunc, hcalled⟩
  case running => exact fun f hin => absurd hin (hrun f)
  case initialised => simp
  case queuedOther => simp +contextual [hempty]
  case runningOther => exact fun _ _ _ => Iff.rfl
  case funcOther => exact fun _ _ _ => rfl
  case initialisedOther => exact fun i q' hne hi hc hpc' => absurd (honly i q' hi hc hpc') hne
  case single => simp
  case pending => simp
  case once => exact h.runningOnce q.cpu

/-- A return: a request that has queued nothing may return any error, one that flushes
returns 0 once its item is idle. -/
theorem return_inv {s : WorkState} (h : WorkInv s) {r : Nat} {q : Request} {code : Int}
    (hr : s.requests[r]? = some q)
    (hpc : (q.pc = .entered ∨ q.pc = .initialised) ∧ code ≠ 0 ∨
      q.pc = .flushing ∧ (s.item q.cpu).flushed = true ∧ code = 0) :
    WorkInv ((s.setPc r q (.returned code)).log (.returned r code)) := by
  have hidle : r ∉ (s.item q.cpu).queueings ∧ ∀ f, (r, f) ∉ (s.item q.cpu).running := by
    rcases hpc with ⟨hpc, -⟩ | ⟨-, hflushed, -⟩
    · have hnot : q.pc ≠ .flushing := by
        rcases hpc with hpc | hpc <;> simp [hpc]
      exact ⟨h.not_queued hr hnot _, h.not_running hr hnot _⟩
    · simp only [WorkItem.flushed, Bool.and_eq_true, Bool.not_eq_true', List.isEmpty_iff]
        at hflushed
      have hempty : (s.item q.cpu).queueings = [] := by
        by_contra hne
        simp [(h.pending q.cpu).mpr hne] at hflushed
      simp [hempty, hflushed]
  have htouch : Touches s ((s.setPc r q (.returned code)).log (.returned r code)) r q
      { q with pc := .returned code } (s.item q.cpu) :=
    ⟨hr, rfl, get_set hr, by simp [WorkState.setPc], fun c => by split_ifs with hc <;> simp [hc],
      fun i hi => by simp [Event.request, Ne.symm hi]⟩
  apply htouch.workInv h
  constructor
  case phase =>
    rintro rfl
    rcases hpc with ⟨-, hne⟩ | ⟨hflush, -, -⟩
    · exact absurd rfl hne
    · have hphase := h.phase r q hr
      simp only [Phase, hflush, hidle, false_or] at hphase
      simp [ExecutedOnce, Event.request, hphase]
  case queued => exact fun hin => absurd hin hidle.1
  case running => exact fun f hin => absurd hin (hidle.2 f)
  case initialised => simp
  case queuedOther => exact fun _ _ => Iff.rfl
  case runningOther => exact fun _ _ _ => Iff.rfl
  case funcOther => exact fun _ _ _ => rfl
  case initialisedOther =>
    intro i q' _ hi hc hpc'
    obtain ⟨-, hqueue, -⟩ := h.initialised i q' hi hpc'
    exact ⟨rfl, hc ▸ hqueue, by simp⟩
  case single => exact h.single q.cpu
  case pending => exact h.pending q.cpu
  case once => exact h.runningOnce q.cpu

/-- The worker takes the only queueing of the item, whose function is that of its request. -/
theorem startWork_inv {s t : WorkState} (h : WorkInv s) {cpu : Nat}
    (hstep : startWork s cpu = some t) : WorkInv t := by
  simp only [startWork] at hstep
  split at hstep
  · rename_i r rest func hqueue hfunc
    have hrest : rest = [] := by
      have hone := h.single cpu
      rw [hqueue] at hone
      simpa using hone
    subst hrest
    obtain ⟨q, hr, rfl, hpc, hq, hev⟩ := h.queued cpu r (by simp [hqueue])
    have hown : func = q.op := Option.some.inj (hfunc.symm.trans hq)
    have hnew : ∀ f, (r, f) ∉ (s.item q.cpu).running := by
      intro f hf
      obtain ⟨q', -, -, -, -, hev'⟩ := h.running q.cpu r f hf
      simp [hev] at hev'
    obtain rfl := Option.some.inj hstep
    refine Touches.workInv ⟨hr, rfl, get_same hr, rfl, fun c => Function.update_apply _ _ _ _,
      fun i hi => by simp [Event.request, Ne.symm hi]⟩ h ?_
    constructor
    case phase =>
      simp only [Phase, hpc]
      exact Or.inr (Or.inl (by simp [hown]))
    case queued => simp
    case running =>
      intro f hin
      have hf : f = func := by simpa [hnew] using hin
      exact ⟨hpc, hf.trans hown, by simp [Event.request, hev, hown]⟩
    case initialised => simp [hpc]
    case queuedOther => simp +contextual [hqueue]
    case runningOther => simp +contextual
    case funcOther => simp
    case initialisedOther =>
      intro i q' _ hi hc hpc'
      obtain ⟨-, hempty, -⟩ := h.initialised i q' hi hpc'
      simp [hc, hqueue] at hempty
    case single => simp
    case pending => simp
    case once =>
      apply (h.runningOnce q.cpu).append (List.nodup_singleton _)
      exact List.disjoint_singleton.mpr (hnew func)
  · cases hstep

theorem finishWork_inv {s t : WorkState} (h : WorkInv s) {cpu r : Nat} {func : InstructedOp}
    (hstep : finishWork s cpu r func = some t) : WorkInv t := by
  simp only [finishWork] at hstep
  split_ifs at hstep with hrun
  obtain ⟨q, hr, rfl, hpc, rfl, hev⟩ := h.running cpu r func hrun
  have herase : ∀ e, e ∈ (s.item q.cpu).running.erase (r, q.op) ↔
      e ≠ (r, q.op) ∧ e ∈ (s.item q.cpu).running := fun e => (h.runningOnce q.cpu).mem_erase_iff
  have hnotqueued : r ∉ (s.item q.cpu).queueings := by
    intro hin
    obtain ⟨q', -, -, -, -, hev'⟩ := h.queued q.cpu r hin
    simp [hev] at hev'
  obtain rfl := Option.some.inj hstep
  refine Touches.workInv ⟨hr, rfl, get_same hr, rfl, fun c => Function.update_apply _ _ _ _,
    fun i hi => by simp [Event.request, Ne.symm hi]⟩ h ?_
  constructor
  case phase =>
    simp only [Phase, hpc]
    exact Or.inr (Or.inr (by simp [Event.request, hev]))
  case queued => exact fun hin => absurd hin hnotqueued
  case running =>
    intro f hin
    obtain ⟨hne, hin⟩ := (herase _).mp hin
    obtain ⟨q', hr', -, -, rfl, -⟩ := h.running q.cpu r f hin
    obtain rfl := Option.some.inj (hr.symm.trans hr')
    exact absurd rfl hne
  case initialised => simp [hpc]
  case queuedOther => exact fun _ _ => Iff.rfl
  case runningOther =>
    intro i f hi
    simp [herase, hi]
  case funcOther => exact fun _ _ _ => rfl
  case initialisedOther =>
    intro i q' _ hi hc hpc'
    obtain ⟨-, hqueue, -⟩ := h.initialised i q' hi hpc'
    exact ⟨rfl, hc ▸ hqueue, by simp [hpc]⟩
  case single => exact h.single q.cpu
  case pending => exact h.pending q.cpu
  case once => exact (h.runningOnce q.cpu).erase _

/-- One step of an ioctl, case by case of where it stands. -/
theorem advance_inv {cfg : WorkConfig} {s t : WorkState} {r : Nat} {q : Request} (h : WorkInv s)
    (hr : s.requests[r]? = some q) (hok : InitUndisturbing s (.advance r))
    (hstep : enqueueInstructedProfileOp cfg s r q = some t) : WorkInv t := by
  cases hpc : q.pc with
  | entered =>
    simp only [enqueueInstructedProfileOp, hpc] at hstep
    split_ifs at hstep
    · exact Option.some.inj hstep ▸ pick_inv h hr hpc
    · exact Option.some.inj hstep ▸ return_inv h hr (Or.inl ⟨Or.inl hpc, by decide⟩)
  | picked =>
    simp only [enqueueInstructedProfileOp, hpc] at hstep
    exact Option.some.inj hstep ▸ initWork_inv h hr hpc hok
  | initialised =>
    simp only [enqueueInstructedProfileOp, hpc] at hstep
    split_ifs at hstep
    · exact Option.some.inj hstep ▸ queueWorkOn_inv h hr hpc
    · exact Option.some.inj hstep ▸ return_inv h hr (Or.inl ⟨Or.inr hpc, by decide⟩)
  | flushing =>
    simp only [enqueueInstructedProfileOp, hpc] at hstep
    split_ifs at hstep with hflushed
    exact Option.some.inj hstep ▸ return_inv h hr (Or.inr ⟨hpc, hflushed, rfl⟩)
  | returned code =>
    simp [enqueueInstructedProfileOp, hpc] at hstep

theorem step_inv {cfg : WorkConfig} {s t : WorkState} {a : WorkAction} (h : WorkInv s)
    (hok : InitUndisturbing s a) (hstep : (workMachine cfg).step s a = some t) : WorkInv t := by
  cases a with
  | call op cpu => exact Option.some.inj hstep ▸ call_inv h op cpu
  | advance r =>
    simp only [workMachine, Option.bind_eq_some_iff] at hstep
    obtain ⟨q, hr, hq⟩ := hstep
    exact advance_inv h hr hok hq
  | startWork cpu => exact startWork_inv h hstep
  | finishWork cpu r func => exact finishWork_inv h hstep

theorem init_workInv (cfg : WorkConfig) : WorkInv (workMachine cfg).init := by
  constructor <;> simp [workMachine, WorkItem.unused, eventsOf]

/-- In every run in which no `INIT_WORK` disturbs another request on the item, each ioctl
that has returned 0 had its own operation executed exactly once in between. -/
theorem executed_once_undisturbed {cfg : WorkConfig} {s : WorkState}
    (h : Reaches (workMachine cfg) InitUndisturbing s) {r : Nat} {q : Request}
    (hr : s.requests[r]? = some q) (hpc : q.pc = .returned 0) : ExecutedOnce s r q.op := by
  have hinv : WorkInv s := h.invariant (I := WorkInv) (init_workInv cfg)
    (fun s a t hs hok hstep => step_inv hs hok hstep)
  simpa [Phase, hpc] using hinv.phase r q hr

/-- A poll and a log are asked for on one CPU; the log's `INIT_WORK` comes before the poll
is queued, and its own queueing does nothing. -/
def sharedItemTrace : List WorkAction :=
  [.call .pollOp 3, .call .logOp 3, .advance 0, .advance 0, .advance 1, .advance 1, .advance 0,
    .advance 1, .startWork 3, .finishWork 3 0 .logOp, .advance 0, .advance 1]

theorem poll_replaced_by_log :
    ¬ ∀ s, Reachable (workMachine ⟨true, true⟩) s → ∀ (r : Nat) (q : Request),
      s.requests[r]? = some q → q.pc = .returned 0 → ExecutedOnce s r q.op := by
  intro hall
  obtain ⟨s, hs, hp⟩ := reachable_of_run (m := workMachine ⟨true, true⟩)
    (p := fun s => s.requests[0]? = some ⟨.pollOp, 3, .returned 0⟩ ∧ ¬ ExecutedOnce s 0 .pollOp)
    sharedItemTrace (by decide)
  obtain ⟨hr, hnot⟩ := of_decide_eq_true hp
  exact hnot (hall s hs 0 _ hr rfl)

/-- The log comes while the poll is running on the same item, and a third client works on
another CPU. -/
def overlappingTrace : List WorkAction :=
  [.call .pollOp 3, .call .logOp 3, .call .pollAndLog 5, .advance 0, .advance 0, .advance 2,
    .advance 0, .startWork 3, .advance 1, .advance 1, .advance 1, .finishWork 3 0 .pollOp,
    .advance 2, .advance 2, .startWork 3, .startWork 5, .finishWork 3 1 .logOp, .advance 0,
    .advance 1]

theorem overlapping_executed_once : ∃ s, Reaches (workMachine ⟨true, true⟩) InitUndisturbing s ∧
    ExecutedOnce s 0 .pollOp ∧ ExecutedOnce s 1 .logOp := by
  obtain ⟨s, hs, hp⟩ := reaches_of_run (m := workMachine ⟨true, true⟩) InitUndisturbing
    (p := fun s => s.requests[0]? = some ⟨.pollOp, 3, .returned 0⟩ ∧
      s.requests[1]? = some ⟨.logOp, 3, .returned 0⟩)
    overlappingTrace (by decide)
  obtain ⟨h0, h1⟩ := of_decide_eq_true hp
  exact ⟨s, hs, executed_once_undisturbed hs h0 rfl, executed_once_undisturbed hs h1 rfl⟩

end InstructedWork
