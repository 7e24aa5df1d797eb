import Hiresperf.DeviceIoctl
import Mathlib.Logic.Function.Basic

/-!
# The client functions

The functions of `workloads/hrperf_api.h`, called by any number of threads of one
process whose other threads open files and close any descriptor. They share the
descriptor table. Each function opens the device, makes one ioctl and closes the
descriptor; the three instruct functions do not return when the ioctl fails, and
close it a second time.

`open` may give any free descriptor here, of which the lowest one is a case. The
record of who closed what is for the statements only.
-/

namespace ClientApi

open StepMachine CallPool
open DeviceIoctl (Cmd)

inductive ApiFunction where
  | hrperfStart
  | hrperfPause
  | hrperfGetTscFreq
  | hrperfSetRmid
  | hrperfGetRdtScaleFactor
  | hrperfGetRdtMaxRmid
  | hrperfInstructLog
  | hrperfInstructPoll
  | hrperfInstructPollAndLog
  deriving DecidableEq

namespace ApiFunction

/-- The request that a function makes; `HRP_IOC_STOP` has the number of PAUSE. -/
def cmd : ApiFunction → Cmd
  | hrperfStart => .start
  | hrperfPause => .pause
  | hrperfGetTscFreq => .tscFreq
  | hrperfSetRmid => .rdtSetRmidOnCore
  | hrperfGetRdtScaleFactor => .rdtScaleFactor
  | hrperfGetRdtMaxRmid => .rdtMaxRmid
  | hrperfInstructLog => .instructedLog
  | hrperfInstructPoll => .instructedPoll
  | hrperfInstructPollAndLog => .instructedPollAndLog

/-- The functions that go on after a failed `open` and a failed ioctl. -/
def goesOn (f : ApiFunction) : Bool := f.cmd.isInstructed

/-- What is returned after a failure, nothing from the instruct functions. -/
def failure : ApiFunction → Option Nat
  | hrperfStart | hrperfPause | hrperfSetRmid => some 1
  | hrperfGetTscFreq | hrperfGetRdtScaleFactor | hrperfGetRdtMaxRmid => some 0
  | hrperfInstructLog | hrperfInstructPoll | hrperfInstructPollAndLog => none

/-- What is returned after an ioctl that put `answer` into the variable it was given. -/
def success (f : ApiFunction) (answer : Nat) : Option Nat :=
  match f with
  | hrperfStart | hrperfPause | hrperfSetRmid => some 0
  | hrperfGetTscFreq | hrperfGetRdtScaleFactor | hrperfGetRdtMaxRmid => some answer
  | hrperfInstructLog | hrperfInstructPoll | hrperfInstructPollAndLog => none

end ApiFunction

/-- Who has opened a file: the program itself or the call `i`. -/
inductive Opener where
  | app
  | call (i : Nat)
  deriving DecidableEq

/-- A failed `open` gives no descriptor (`-1`). -/
abbrev Fd := Option Nat

inductive Pc where
  | entered
  | opened (fd : Fd)
  | failed (fd : Fd)
  | failedOnce (fd : Fd)
  | done (fd : Fd) (result : Option Nat)
  | returned (result : Option Nat)
  deriving DecidableEq

/-- `reached` is what the descriptor stood for when the ioctl was made. -/
structure Call where
  function : ApiFunction
  pc : Pc
  reached : Option Opener
  deriving DecidableEq

structure Vars where
  table : Nat → Option Opener
  closes : List (Opener × Opener)

/-- What the rest of the program does. -/
inductive AppAction where
  | openFile (fd : Nat)
  | closeFile (fd : Nat)

/-- The descriptor that `open` gives, and the answer of the ioctl if it succeeds. -/
structure Choice where
  openFd : Fd
  answer : Option Nat

/-- `close`, which fails without an effect on a descriptor that is not in use. -/
def close (s : Vars) (closer : Opener) : Fd → Vars
  | none => s
  | some fd =>
    match s.table fd with
    | none => s
    | some owner =>
      { table := Function.update s.table fd none, closes := s.closes ++ [(closer, owner)] }

def appStep (s : Vars) : AppAction → Option Vars
  | .openFile fd =>
    if s.table fd = none then some { s with table := Function.update s.table fd (some .app) }
    else none
  | .closeFile fd => some (close s .app (some fd))

/-- What a descriptor stands for. -/
def Vars.lookup (s : Vars) (fd : Fd) : Option Opener := fd.bind s.table

/-- One step of a client function. -/
def apiStep (s : Vars) (i : Nat) (c : Call) (e : Choice) : Option (Vars × Call) :=
  match c.pc with
  | .entered =>
    match e.openFd with
    | none =>
      if c.function.goesOn then some (s, { c with pc := .opened none })
      else some (s, { c with pc := .returned c.function.failure })
    | some fd =>
      if s.table fd = none then
        some ({ s with table := Function.update s.table fd (some (.call i)) },
          { c with pc := .opened (some fd) })
      else none
  | .opened fd =>
    match s.lookup fd, e.answer with
    | some owner, some v => some (s, { c with
        pc := .done fd (c.function.success v), reached := some owner })
    | reached, _ => some (s, { c with pc := .failed fd, reached := reached })
  | .failed fd =>
    if c.function.goesOn then some (close s (.call i) fd, { c with pc := .failedOnce fd })
    else some (close s (.call i) fd, { c with pc := .returned c.function.failure })
  | .failedOnce fd => some (close s (.call i) fd, { c with pc := .returned c.function.failure })
  | .done fd result => some (close s (.call i) fd, { c with pc := .returned result })
  | .returned _ => none

def client : Service Vars Call AppAction ApiFunction Choice where
  vars := ⟨fun _ => none, []⟩
  other := appStep
  enter s f := some (s, ⟨f, .entered, none⟩)
  advance := apiStep

/-! ## Descriptors are not leaked -/

/-- The descriptor of a call, while it has one. -/
def Pc.held : Pc → Fd
  | .opened fd | .failed fd | .done fd _ => fd
  | .entered | .failedOnce _ | .returned _ => none

/-- What the call `i` has opened is in the table only under the descriptor it holds. -/
def OnlyHeld (s : Vars) (i : Nat) (c : Call) : Prop :=
  ∀ fd, s.table fd = some (.call i) → c.pc.held = some fd

theorem close_table {s : Vars} {o : Opener} {fd : Fd} {k : Nat} :
    (close s o fd).table k = if fd = some k then none else s.table k := by
  cases fd with
  | none => simp [close]
  | some k' =>
    rw [close]
    cases hk : s.table k' with
    | none =>
      by_cases h : k' = k
      · simp [← h, hk]
      · simp [h]
    | some owner =>
      by_cases h : k' = k
      · simp [h]
      · simp [h, Function.update_of_ne (Ne.symm h)]

/-- A step of a call: it opens, asks, or closes. -/
inductive ApiStep (s : Vars) (i : Nat) (c : Call) (e : Choice) : Vars → Call → Prop where
  | notOpened {pc : Pc} : c.pc = .entered → pc.held = none → (∀ fd, pc ≠ .failedOnce fd) →
      ApiStep s i c e s { c with pc := pc }
  | opened (fd : Nat) : c.pc = .entered → e.openFd = some fd → s.table fd = none →
      ApiStep s i c e { s with table := Function.update s.table fd (some (.call i)) }
        { c with pc := .opened (some fd) }
  | asked (fd : Fd) {pc : Pc} : c.pc = .opened fd → pc.held = fd →
      (∀ fd, pc ≠ .failedOnce fd) →
      ApiStep s i c e s { c with pc := pc, reached := s.lookup fd }
  | closed {pc : Pc} : (∀ fd, pc = .failedOnce fd → fd = c.pc.held) → pc.held = none →
      ApiStep s i c e (close s (.call i) c.pc.held) { c with pc := pc }
  | closedAgain (fd : Fd) {pc : Pc} : c.pc = .failedOnce fd → pc.held = none →
      (∀ fd, pc ≠ .failedOnce fd) → ApiStep s i c e (close s (.call i) fd) { c with pc := pc }

theorem apiStep_cases {s t : Vars} {i : Nat} {c c' : Call} {e : Choice}
    (h : apiStep s i c e = some (t, c')) : ApiStep s i c e t c' := by
  cases hpc : c.pc with
  | entered =>
    simp only [apiStep, hpc] at h
    split at h
    · split_ifs at h <;> obtain ⟨rfl, rfl⟩ := Prod.mk.inj (Option.some.inj h) <;>
        exact .notOpened hpc rfl (by simp)
    · next fd hfd =>
      split_ifs at h with hfree
      obtain ⟨rfl, rfl⟩ := Prod.mk.inj (Option.some.inj h)
      exact .opened fd hpc hfd hfree
  | opened fd =>
    simp only [apiStep, hpc] at h
    split at h
    · next owner v howner hv =>
      obtain ⟨rfl, rfl⟩ := Prod.mk.inj (Option.some.inj h)
      exact howner ▸ .asked fd hpc rfl (by simp)
    · obtain ⟨rfl, rfl⟩ := Prod.mk.inj (Option.some.inj h)
      exact .asked fd hpc rfl (by simp)
  | failed fd =>
    have hheld : c.pc.held = fd := by rw [hpc]; rfl
    simp only [apiStep, hpc] at h
    split_ifs at h <;> obtain ⟨rfl, rfl⟩ := Prod.mk.inj (Option.some.inj h) <;>
      exact hheld ▸ .closed (by simp [hheld]) rfl
  | failedOnce fd =>
    simp only [apiStep, hpc] at h
    obtain ⟨rfl, rfl⟩ := Prod.mk.inj (Option.some.inj h)
    exact .closedAgain fd hpc rfl (by simp)
  | done fd result =>
    have hheld : c.pc.held = fd := by rw [hpc]; rfl
    simp only [apiStep, hpc] at h
    obtain ⟨rfl, rfl⟩ := Prod.mk.inj (Option.some.inj h)
    exact hheld ▸ .closed (by simp) rfl
  | returned result => simp [apiStep, hpc] at h

theorem appStep_table {s t : Vars} {a : AppAction} (h : appStep s a = some t) {fd k : Nat}
    (hk : t.table fd = some (.call k)) : s.table fd = some (.call k) := by
  cases a with
  | openFile fd' =>
    simp only [appStep, Option.ite_none_right_eq_some, Option.some.injEq] at h
    obtain ⟨-, rfl⟩ := h
    by_cases hfd : fd = fd'
    · simp [hfd] at hk
    · simpa [Function.update_of_ne hfd] using hk
  | closeFile fd' =>
    obtain rfl := Option.some.inj h
    rw [close_table] at hk
    split_ifs at hk
    exact hk

/-- A step of the call `i` brings at most a descriptor of its own. -/
theorem ApiStep.table {s t : Vars} {i : Nat} {c c' : Call} {e : Choice}
    (h : ApiStep s i c e t c') {fd k : Nat} (hk : t.table fd = some (.call k)) :
    s.table fd = some (.call k) ∨ k = i ∧ c.pc = .entered ∧ c'.pc = .opened (some fd) := by
  have hclose : ∀ fd', (close s (.call i) fd').table fd = some (.call k) →
      s.table fd = some (.call k) := by
    intro fd' hk'
    rw [close_table] at hk'
    split_ifs at hk'
    exact hk'
  cases h with
  | notOpened | asked => exact .inl hk
  | opened fd' hpc _ _ =>
    by_cases hfd : fd = fd'
    · subst hfd
      have hki : Opener.call i = .call k := by simpa using hk
      exact .inr ⟨(Opener.call.inj hki).symm, hpc, rfl⟩
    · exact .inl (by simpa [Function.update_of_ne hfd] using hk)
  | closed => exact .inl (hclose _ hk)
  | closedAgain fd' => exact .inl (hclose _ hk)

theorem ApiStep.onlyHeld {s t : Vars} {i : Nat} {c c' : Call} {e : Choice}
    (h : ApiStep s i c e t c') (hc : OnlyHeld s i c) : OnlyHeld t i c' := by
  intro fd hfd
  cases h with
  | notOpened hpc hheld _ => simpa [hpc, Pc.held] using hc fd hfd
  | opened fd' hpc _ _ =>
    by_cases hne : fd = fd'
    · rw [hne]
      rfl
    · have hold : s.table fd = some (.call i) := by simpa [Function.update_of_ne hne] using hfd
      simpa [hpc, Pc.held] using hc fd hold
  | asked fd' hpc hheld _ =>
    have hbefore := hc fd hfd
    rw [hpc] at hbefore
    exact hheld.trans hbefore
  | closed _ hheld =>
    -- The descriptor just closed was the only one.
    rw [close_table] at hfd
    split_ifs at hfd with hcur
    exact absurd (hc fd hfd) hcur
  | closedAgain fd' hpc _ _ =>
    rw [close_table] at hfd
    split_ifs at hfd
    simpa [hpc, Pc.held] using hc fd hfd

theorem onlyHeld_preserves :
    Preserves client (fun _ _ => True)
      (fun n s => ∀ fd k, s.table fd = some (.call k) → k < n) OnlyHeld where
  init := by simp [client]
  other s b t hs _ hb :=
    ⟨fun fd k hk => hs.vars fd k (appStep_table hb hk), fun i c _ hc fd hfd =>
      hc fd (appStep_table hb hfd)⟩
  enter s q t c hs _ hq := by
    obtain ⟨rfl, rfl⟩ : s.vars = t ∧ ⟨q, .entered, none⟩ = c := by simpa [client] using hq
    refine ⟨fun fd k hk => (hs.vars fd k hk).trans (Nat.lt_succ_self _), fun fd hfd => ?_,
      fun _ _ _ hd => hd⟩
    exact absurd (hs.vars fd _ hfd) (Nat.lt_irrefl _)
  advance s i e c t c' hs _ hc he := by
    have hstep := apiStep_cases he
    have hlt : i < s.calls.length := (List.getElem?_eq_some_iff.mp hc).1
    refine ⟨fun fd k hk => ?_, hstep.onlyHeld (hs.call i c hc), fun j d hji hj hd fd hfd => ?_⟩
    · rcases hstep.table hk with hold | ⟨rfl, -⟩
      · exact hs.vars fd k hold
      · exact hlt
    · rcases hstep.table hfd with hold | ⟨rfl, -⟩
      · exact hd fd hold
      · exact absurd rfl hji

/-! ## Descriptors of others are not closed -/

/-- The call is between its two `close`. -/
def Call.inWindow (c : Call) : Bool :=
  match c.pc with
  | .failedOnce _ => true
  | _ => false

/-- The step opens a file. -/
def opens (s : Pool Vars Call) : Action AppAction ApiFunction Choice → Bool
  | .other (.openFile _) => true
  | .advance i e => (s.calls[i]?).any (fun c => c.pc = .entered) && e.openFd.isSome
  | _ => false

/-- No file is opened while a call is between its two `close`. -/
def NoOpenInWindow (s : Pool Vars Call) (a : Action AppAction ApiFunction Choice) : Prop :=
  opens s a = true → ∀ c ∈ s.calls, c.inWindow = false

instance (s : Pool Vars Call) (a : Action AppAction ApiFunction Choice) :
    Decidable (NoOpenInWindow s a) :=
  inferInstanceAs (Decidable (_ → _))

/-- The rest of the program closes only what it has opened. -/
def AppClosesOwn (s : Pool Vars Call) : Action AppAction ApiFunction Choice → Prop
  | .other (.closeFile fd) => s.vars.table fd = some .app ∨ s.vars.table fd = none
  | _ => True

instance (s : Pool Vars Call) : DecidablePred (AppClosesOwn s)
  | .other (.closeFile _) => inferInstanceAs (Decidable (_ ∨ _))
  | .other (.openFile _) => inferInstanceAs (Decidable True)
  | .enter _ => inferInstanceAs (Decidable True)
  | .advance _ _ => inferInstanceAs (Decidable True)

structure Owns (s : Vars) (i : Nat) (c : Call) : Prop where
  held : ∀ fd, c.pc.held = some fd → s.table fd = some (.call i)
  window : ∀ fd, c.pc = .failedOnce (some fd) → s.table fd = none
  reached : ∀ o, c.reached = some o → o = .call i

def OwnCloses (s : Vars) : Prop := ∀ p ∈ s.closes, p.1 = p.2

/-- A call is not concerned by a step that keeps its descriptors and opens nothing in its window. -/
theorem Owns.bystander {s t : Vars} {j : Nat} {d : Call} (h : Owns s j d)
    (hkept : ∀ fd, s.table fd = some (.call j) → t.table fd = some (.call j))
    (hfree : d.inWindow = true → ∀ fd, s.table fd = none → t.table fd = none) : Owns t j d where
  held fd hfd := hkept fd (h.held fd hfd)
  window fd hfd := hfree (by simp [Call.inWindow, hfd]) fd (h.window fd hfd)
  reached := h.reached

/-- `close` by the owner, or of a free descriptor. -/
theorem close_own {s : Vars} {o : Opener} {fd : Fd}
    (hfd : ∀ k, fd = some k → s.table k = some o ∨ s.table k = none) (hs : OwnCloses s) :
    OwnCloses (close s o fd) := by
  cases fd with
  | none => exact hs
  | some k =>
    rcases hfd k rfl with hown | hnone
    · simp only [close, hown]
      intro p hp
      rcases List.mem_append.mp hp with hold | hnew
      · exact hs p hold
      · rw [List.mem_singleton.mp hnew]
    · simpa only [close, hnone] using hs

theorem ApiStep.ownCloses {s t : Vars} {i : Nat} {c c' : Call} {e : Choice}
    (h : ApiStep s i c e t c') (hc : Owns s i c) (hs : OwnCloses s) : OwnCloses t := by
  cases h with
  | notOpened | opened | asked => exact hs
  | closed => exact close_own (fun k hk => .inl (hc.held k hk)) hs
  | closedAgain fd hpc _ _ =>
    exact close_own (fun k hk => .inr (hc.window k (hk ▸ hpc))) hs

theorem ApiStep.owns {s t : Vars} {i : Nat} {c c' : Call} {e : Choice}
    (h : ApiStep s i c e t c') (hc : Owns s i c) : Owns t i c' := by
  cases h with
  | notOpened hpc hheld hnot =>
    exact ⟨fun fd hfd => absurd (hheld.symm.trans hfd) (by simp),
      fun fd hfd => absurd hfd (hnot _), hc.reached⟩
  | opened fd' hpc _ _ =>
    refine ⟨fun fd hfd => ?_, by simp, hc.reached⟩
    obtain rfl : fd' = fd := by simpa [Pc.held] using hfd
    exact Function.update_self ..
  | asked fd' hpc hheld hnot =>
    refine ⟨fun fd hfd => hc.held fd ?_, fun fd hfd => absurd hfd (hnot _), fun o ho => ?_⟩
    · rw [hpc]
      exact hheld.symm.trans hfd
    · obtain ⟨fd, rfl, hfd⟩ := Option.bind_eq_some_iff.mp ho
      have hown := hc.held fd (by rw [hpc]; rfl)
      exact Option.some.inj (hfd.symm.trans hown)
  | closed hwindow hheld =>
    refine ⟨fun fd hfd => absurd (hheld.symm.trans hfd) (by simp), fun fd hfd => ?_, hc.reached⟩
    rw [close_table, if_pos (hwindow _ hfd).symm]
  | closedAgain fd' hpc hheld hnot =>
    exact ⟨fun fd hfd => absurd (hheld.symm.trans hfd) (by simp),
      fun fd hfd => absurd hfd (hnot _), hc.reached⟩

/-- Such a `close` leaves what somebody else has opened. -/
theorem close_keeps {s : Vars} {o other : Opener} {fd : Fd} {k : Nat}
    (hfd : ∀ k, fd = some k → s.table k = some o ∨ s.table k = none) (hne : other ≠ o)
    (hk : s.table k = some other) : (close s o fd).table k = some other := by
  rw [close_table, if_neg, hk]
  intro heq
  rcases hfd k heq with hsame | hnone
  · exact hne (Option.some.inj (hk.symm.trans hsame))
  · exact Option.some_ne_none other (hk.symm.trans hnone)

/-- A step of the call `i` leaves the descriptors that others hold. -/
theorem ApiStep.keeps {s t : Vars} {i j : Nat} {c c' : Call} {e : Choice}
    (h : ApiStep s i c e t c') (hc : Owns s i c) (hji : j ≠ i) {fd : Nat}
    (hfd : s.table fd = some (.call j)) : t.table fd = some (.call j) := by
  have hne : Opener.call j ≠ .call i := by simpa using hji
  cases h with
  | notOpened | asked => exact hfd
  | opened fd' _ _ hfree =>
    have hfd' : fd ≠ fd' := by
      rintro rfl
      exact absurd (hfd.symm.trans hfree) (by simp)
    simpa [Function.update_of_ne hfd'] using hfd
  | closed => exact close_keeps (fun k hk => .inl (hc.held k hk)) hne hfd
  | closedAgain fd' hpc _ _ =>
    exact close_keeps (fun k hk => .inr (hc.window k (hk ▸ hpc))) hne hfd

/-- A step of a call fills a free descriptor only by opening. -/
theorem ApiStep.free {s t : Vars} {i : Nat} {c c' : Call} {e : Choice}
    (h : ApiStep s i c e t c') {fd : Nat} (hfd : s.table fd = none) :
    t.table fd = none ∨ c.pc = .entered ∧ e.openFd.isSome = true := by
  cases h with
  | notOpened | asked => exact .inl hfd
  | opened fd' hpc hopen _ => exact .inr ⟨hpc, by rw [hopen]; rfl⟩
  | closed | closedAgain =>
    refine .inl ?_
    rw [close_table]
    split_ifs
    · rfl
    · exact hfd

theorem appStep_keeps {s : Pool Vars Call} {t : Vars} {a : AppAction}
    (h : appStep s.vars a = some t) (hown : AppClosesOwn s (.other a)) {fd j : Nat}
    (hfd : s.vars.table fd = some (.call j)) : t.table fd = some (.call j) := by
  cases a with
  | openFile fd' =>
    simp only [appStep, Option.ite_none_right_eq_some, Option.some.injEq] at h
    obtain ⟨htable, rfl⟩ := h
    have hne : fd ≠ fd' := by
      rintro rfl
      exact absurd (hfd.symm.trans htable) (by simp)
    simpa [Function.update_of_ne hne] using hfd
  | closeFile fd' =>
    obtain rfl := Option.some.inj h
    exact close_keeps (fun k hk => Option.some.inj hk ▸ hown) (by simp) hfd

theorem appStep_free {s t : Vars} {fd' : Nat} (h : appStep s (.closeFile fd') = some t) {fd : Nat}
    (hfd : s.table fd = none) : t.table fd = none := by
  obtain rfl := Option.some.inj h
  rw [close_table, hfd, ite_self]

theorem appStep_ownCloses {s : Pool Vars Call} {t : Vars} {a : AppAction}
    (h : appStep s.vars a = some t) (hown : AppClosesOwn s (.other a)) (hs : OwnCloses s.vars) :
    OwnCloses t := by
  cases a with
  | openFile fd' =>
    simp only [appStep, Option.ite_none_right_eq_some, Option.some.injEq] at h
    obtain ⟨-, rfl⟩ := h
    exact hs
  | closeFile fd' =>
    obtain rfl := Option.some.inj h
    exact close_own (fun k hk => Option.some.inj hk ▸ hown) hs

theorem owns_preserves : Preserves client (fun s a => NoOpenInWindow s a ∧ AppClosesOwn s a)
    (fun _ s => OwnCloses s) Owns where
  init := by simp [client, OwnCloses]
  other s b t hs hok hb := by
    refine ⟨appStep_ownCloses hb hok.2 hs.vars, fun i c hi hc => ?_⟩
    refine hc.bystander (fun fd => appStep_keeps hb hok.2) fun hwindow fd hfd => ?_
    cases b with
    | openFile fd' =>
      have hout := hok.1 rfl c (List.mem_of_getElem? hi)
      exact absurd (hwindow.symm.trans hout) (by simp)
    | closeFile fd' => exact appStep_free hb hfd
  enter s q t c hs _ hq := by
    obtain ⟨rfl, rfl⟩ : s.vars = t ∧ ⟨q, .entered, none⟩ = c := by simpa [client] using hq
    exact ⟨hs.vars, ⟨by simp [Pc.held], by simp, by simp⟩, fun _ _ _ hd => hd⟩
  advance s i e c t c' hs hok hc he := by
    have hstep := apiStep_cases he
    have hown := hs.call i c hc
    refine ⟨hstep.ownCloses hown hs.vars, hstep.owns hown, fun j d hji hj hd => ?_⟩
    refine hd.bystander (fun fd => hstep.keeps hown hji) fun hwindow fd hfd => ?_
    rcases hstep.free hfd with hfree | ⟨hentered, hopen⟩
    · exact hfree
    · have hout := hok.1 (by simp [opens, hc, hentered, hopen]) d (List.mem_of_getElem? hj)
      exact absurd (hwindow.symm.trans hout) (by simp)

/-- A poll is refused, and between the two `close` of its descriptor another thread opens a
file. -/
def stolenTrace : List (Action AppAction ApiFunction Choice) :=
  [.enter .hrperfInstructPoll, .advance 0 ⟨some 3, none⟩, .advance 0 ⟨none, none⟩,
    .advance 0 ⟨none, none⟩, .other (.openFile 3), .advance 0 ⟨none, none⟩]

/-- The program closes the descriptor of a call and opens a file, which the call closes. -/
def takenTrace : List (Action AppAction ApiFunction Choice) :=
  [.enter .hrperfPause, .advance 0 ⟨some 3, none⟩, .other (.closeFile 3), .other (.openFile 3),
    .advance 0 ⟨none, some 0⟩, .advance 0 ⟨none, none⟩]

/-- The descriptors of the client functions, in every interleaving of any number of calls with
the opens and closes of the rest of the program. A call leaves none open. If nothing is opened
between the two `close` of an instruct function whose ioctl failed and the program closes only
what it has opened, a call closes, and asks, only what it has opened itself. Without either
condition it may close a file of the program. -/
theorem client_descriptors :
    (∀ s, Reachable client.machine s → ∀ (i : Nat) (c : Call) (result : Option Nat),
      s.calls[i]? = some c → c.pc = .returned result → ∀ fd, s.vars.table fd ≠ some (.call i)) ∧
    (∀ s, Reaches client.machine (fun s a => NoOpenInWindow s a ∧ AppClosesOwn s a) s →
      OwnCloses s.vars ∧
      ∀ (i : Nat) (c : Call), s.calls[i]? = some c →
        (∀ o, c.reached = some o → o = .call i) ∧
        ∀ fd, c.pc.held = some fd → s.vars.table fd = some (.call i)) ∧
    (∃ s, Reaches client.machine AppClosesOwn s ∧ (.call 0, .app) ∈ s.vars.closes) ∧
    ∃ s, Reaches client.machine NoOpenInWindow s ∧ (.call 0, .app) ∈ s.vars.closes := by
  refine ⟨fun s hs i c result hc hpc fd hfd => ?_, fun s hs => ?_, ?_, ?_⟩
  · have hheld := (onlyHeld_preserves.reaches hs).call i c hc fd hfd
    simp [hpc, Pc.held] at hheld
  · have hinv := owns_preserves.reaches hs
    exact ⟨hinv.vars, fun i c hc => ⟨(hinv.call i c hc).reached, (hinv.call i c hc).held⟩⟩
  · obtain ⟨s, hs, hclosed⟩ := reaches_of_run (m := client.machine)
      (p := fun s => (Opener.call 0, Opener.app) ∈ s.vars.closes) AppClosesOwn stolenTrace
      (by decide)
    exact ⟨s, hs, of_decide_eq_true hclosed⟩
  · obtain ⟨s, hs, hclosed⟩ := reaches_of_run (m := client.machine)
      (p := fun s => (Opener.call 0, Opener.app) ∈ s.vars.closes) NoOpenInWindow takenTrace
      (by decide)
    exact ⟨s, hs, of_decide_eq_true hclosed⟩

/-- The same refusal with the two `close` next to each other. -/
example : ((run client.machine NoOpenInWindow client.machine.init
    [.enter .hrperfInstructPoll, .advance 0 ⟨some 3, none⟩, .advance 0 ⟨none, none⟩,
      .advance 0 ⟨none, none⟩, .advance 0 ⟨none, none⟩, .other (.openFile 3)]).map
    (fun s => (s.vars.closes, s.vars.table 3))) =
    some ([(.call 0, .call 0)], some .app) := by
  decide

end ClientApi
