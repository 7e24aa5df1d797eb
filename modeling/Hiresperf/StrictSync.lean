import Mathlib.Logic.Function.Basic
import Hiresperf.Foundation.StepMachine
import Hiresperf.InstructedWork
import Hiresperf.PollerSample
import Hiresperf.RingBuffer

/-!
# Polling under strict synchronisation

`smp_poll_pmus` and `hrperf_poller_func` with `HRP_STRICT_POLLING_SYNC`, one step
for each access to the shared counters. The coordinator is whoever calls
`smp_poll_pmus`, one call after another; a call is a round. The handlers run on
their CPUs when the asynchronous calls are delivered, which may be at any time,
also in a later round. The deadlines of 150 ms and 200 ms may pass at any test
of the clock.

`poller_data` lives in a stack slot of the caller. A handler holds a pointer to
it, whatever the slot is used for by then. The rounds of a call and of an entry,
and the last four fields of the state, are for the statements only.
-/

namespace StrictSync

open CpuSelection InstructedWork LogEntry PollerSample RingBuffer StepMachine

/-- An asynchronous call of `hrperf_poller_func`: the round that made it and the stack slot
of its `poller_data`. -/
structure Launch where
  round : Nat
  data : Nat
  deriving DecidableEq

/-- `hrperf_poller_func` on one CPU: between its increment of `ready_cpus` and the end of
`enqueue`. -/
inductive Handler (flags : LogFlags) where
  | idle
  | waiting (l : Launch)
  | spun (l : Launch)
  | released (l : Launch)
  | sampled (l : Launch) (entry : HrperfLogEntry flags)
  | counted (l : Launch) (entry : HrperfLogEntry flags)
  deriving DecidableEq

/-- Where the coordinator stands. -/
inductive Pc where
  | idle
  | clearReady
  | clearStart
  | clearDone
  | allocMask
  | calling (rest : List Nat)
  | awaitReady
  | spunReady
  | setStart
  | ownCall
  | ownHandler
  | awaitDone
  | spunDone
  | pollReturned
  | logging (rest : List Nat)
  | opReturned
  deriving DecidableEq

/-- What became of a sample in `enqueue`. -/
inductive Fate where
  | stored
  | dropped
  deriving DecidableEq

structure SyncState (cfg : Config) where
  readyCpus : Nat
  startFlag : Bool
  doneCpus : Nat
  kts : Nat → BitVec 64
  pc : Pc
  op : InstructedOp
  data : Nat
  queue : Nat → List Launch
  handler : Nat → Handler cfg.log
  rings : Nat → Ring cfg.bufferSize (HrperfLogEntry cfg.log)
  file : List (HrperfLogEntry cfg.log)
  round : Nat
  taken : Nat → BitVec 64
  readied : Nat → Nat → Bool
  finished : Nat → Nat → Bool
  fate : Nat → Nat → Option (HrperfLogEntry cfg.log × Fate)

/-- A step of a handler. -/
inductive HandlerAction (flags : LogFlags) where
  | deliver
  | look
  | relax
  | deadline
  | read (readings : Readings flags)
  | count
  | publish

/-- A step of the system. The steps of the coordinator that fail or pass a deadline are
apart from the ordinary ones. -/
inductive SyncAction (cfg : Config) where
  | begin (op : InstructedOp) (slot : Nat) (clocks : Clocks)
  | advance
  | allocFails
  | deadline
  | overwrite (slot : Nat) (v : BitVec 64)
  | handler (cpu : Nat) (a : HandlerAction cfg.log)

/-- A call of `smp_poll_pmus` is under way, and its `poller_data` in use. -/
def Pc.polling : Pc → Bool
  | .idle | .pollReturned | .logging _ | .opReturned => false
  | _ => true

def mark (f : Nat → Nat → Bool) (round cpu : Nat) : Nat → Nat → Bool :=
  fun r c => if r = round ∧ c = cpu then true else f r c

theorem mark_round (f : Nat → Nat → Bool) (round cpu : Nat) :
    mark f round cpu round = Function.update (f round) cpu true := by
  funext c
  simp [mark, Function.update_apply]

variable {cfg : Config} (p : Platform)

def SyncState.setHandler (s : SyncState cfg) (cpu : Nat) (h : Handler cfg.log) : SyncState cfg :=
  { s with handler := Function.update s.handler cpu h }

/-- `hrperf_poller_func` begins on `cpu`. -/
def enterHandler (s : SyncState cfg) (cpu : Nat) (l : Launch) : SyncState cfg :=
  { s.setHandler cpu (.waiting l) with
    readyCpus := s.readyCpus + 1
    readied := mark s.readied s.round cpu }

/-- The timestamp of a poll, taken before anything else. -/
def beginPoll (s : SyncState cfg) (op : InstructedOp) (slot : Nat) (clocks : Clocks) :
    SyncState cfg :=
  { s with
    op := op
    pc := .clearReady
    data := slot
    kts := Function.update s.kts slot (takeKts cfg clocks)
    round := s.round + 1
    taken := Function.update s.taken (s.round + 1) (takeKts cfg clocks) }

def beginOp (s : SyncState cfg) (op : InstructedOp) (slot : Nat) (clocks : Clocks) :
    SyncState cfg :=
  match op with
  | .logOp => { s with op := op, pc := .logging (logVisits cfg p) }
  | .pollOp | .pollAndLog => beginPoll s op slot clocks

def logNext (s : SyncState cfg) (cpu : Nat) (rest : List Nat) : SyncState cfg :=
  let logged := (s.rings cpu).logAndClear (fun e => [e]) .all .all s.file
  { s with rings := Function.update s.rings cpu logged.1, file := logged.2, pc := .logging rest }

/-- The next ordinary step of the coordinator. -/
def advance (s : SyncState cfg) : Option (SyncState cfg) :=
  match s.pc with
  | .idle => none
  | .clearReady => some { s with readyCpus := 0, pc := .clearStart }
  | .clearStart => some { s with startFlag := false, pc := .clearDone }
  | .clearDone => some { s with doneCpus := 0, pc := .allocMask }
  | .allocMask => some { s with pc := .calling (calledCpus cfg p) }
  | .calling (cpu :: rest) =>
    let queued := s.queue cpu ++ [⟨s.round, s.data⟩]
    some { s with queue := Function.update s.queue cpu queued, pc := .calling rest }
  | .calling [] =>
    -- the poller CPU counts itself before it starts its own handler
    if cfg.pollPollerCore then
      some { s with
        readyCpus := s.readyCpus + 1
        readied := mark s.readied s.round cfg.pollerCpu
        pc := .awaitReady }
    else some { s with pc := .awaitReady }
  | .awaitReady =>
    some { s with pc := if s.readyCpus < nPollingCpus cfg p then .spunReady else .setStart }
  | .spunReady => some { s with pc := .awaitReady }
  | .setStart =>
    some { s with startFlag := true, pc := if cfg.pollPollerCore then .ownCall else .awaitDone }
  | .ownCall => some { enterHandler s cfg.pollerCpu ⟨s.round, s.data⟩ with pc := .ownHandler }
  | .ownHandler =>
    if s.handler cfg.pollerCpu = .idle then some { s with pc := .awaitDone } else none
  | .awaitDone =>
    some { s with pc := if s.doneCpus < nPollingCpus cfg p then .spunDone else .pollReturned }
  | .spunDone => some { s with pc := .awaitDone }
  | .pollReturned =>
    some { s with
      pc := if s.op = .pollAndLog then .logging (logVisits cfg p) else .opReturned }
  | .logging (cpu :: rest) => some (logNext s cpu rest)
  | .logging [] => some { s with pc := .opReturned }
  | .opReturned => none

/-- The clock is tested after the counter has been found too low. A poll that gives up
waiting for its CPUs returns; one that gives up waiting for their samples goes on. -/
def deadline (s : SyncState cfg) : Option (SyncState cfg) :=
  match s.pc with
  | .spunReady | .spunDone => some { s with pc := .pollReturned }
  | _ => none

/-- A step of the handler on `cpu`. Between the test of `start_flag` and that of the clock
the flag may change. -/
def handlerStep (s : SyncState cfg) (cpu : Nat) : HandlerAction cfg.log → Option (SyncState cfg)
  | .deliver =>
    match s.queue cpu, s.handler cpu with
    | l :: rest, .idle =>
      some { enterHandler s cpu l with queue := Function.update s.queue cpu rest }
    | _, _ => none
  | .look =>
    match s.handler cpu with
    | .waiting l => some (s.setHandler cpu (if s.startFlag then .released l else .spun l))
    | _ => none
  | .relax =>
    match s.handler cpu with
    | .spun l => some (s.setHandler cpu (.waiting l))
    | _ => none
  | .deadline =>
    match s.handler cpu with
    | .spun _ => some { s.setHandler cpu .idle with doneCpus := s.doneCpus + 1 }
    | _ => none
  | .read readings =>
    match s.handler cpu with
    | .released l => some (s.setHandler cpu (.sampled l (sample cfg cpu (s.kts l.data) readings)))
    | _ => none
  | .count =>
    match s.handler cpu with
    | .sampled l e =>
      some { s.setHandler cpu (.counted l e) with
        doneCpus := s.doneCpus + 1
        finished := mark s.finished s.round cpu }
    | _ => none
  | .publish =>
    match s.handler cpu with
    | .counted l e =>
      let full := isFull cfg.bufferSize (s.rings cpu).toHrperfRingBuffer
      let fate := Function.update (s.fate l.round) cpu (some (e, if full then .dropped else .stored))
      some { s.setHandler cpu .idle with
        rings := Function.update s.rings cpu ((s.rings cpu).enqueue e)
        fate := Function.update s.fate l.round fate }
    | _ => none

/-- The steps of a handler, each with the place it starts from and the state it leads to. -/
inductive HandlerMove (s : SyncState cfg) (cpu : Nat) :
    HandlerAction cfg.log → SyncState cfg → Prop where
  | deliver {l : Launch} {rest : List Launch} (hqueue : s.queue cpu = l :: rest)
      (hidle : s.handler cpu = .idle) : HandlerMove s cpu .deliver
        { enterHandler s cpu l with queue := Function.update s.queue cpu rest }
  | look {l : Launch} (hwait : s.handler cpu = .waiting l) : HandlerMove s cpu .look
      (s.setHandler cpu (if s.startFlag then .released l else .spun l))
  | relax {l : Launch} (hspun : s.handler cpu = .spun l) :
      HandlerMove s cpu .relax (s.setHandler cpu (.waiting l))
  | deadline {l : Launch} (hspun : s.handler cpu = .spun l) : HandlerMove s cpu .deadline
      { s.setHandler cpu .idle with doneCpus := s.doneCpus + 1 }
  | read {l : Launch} (readings : Readings cfg.log) (hrel : s.handler cpu = .released l) :
      HandlerMove s cpu (.read readings)
        (s.setHandler cpu (.sampled l (sample cfg cpu (s.kts l.data) readings)))
  | count {l : Launch} {e : HrperfLogEntry cfg.log} (hsampled : s.handler cpu = .sampled l e) :
      HandlerMove s cpu .count { s.setHandler cpu (.counted l e) with
        doneCpus := s.doneCpus + 1
        finished := mark s.finished s.round cpu }
  | publish {l : Launch} {e : HrperfLogEntry cfg.log} (hcounted : s.handler cpu = .counted l e) :
      HandlerMove s cpu .publish { s.setHandler cpu .idle with
        rings := Function.update s.rings cpu ((s.rings cpu).enqueue e)
        fate := Function.update s.fate l.round (Function.update (s.fate l.round) cpu
          (some (e, if isFull cfg.bufferSize (s.rings cpu).toHrperfRingBuffer then .dropped
            else .stored))) }

/-- What a handler can do, said once for all invariants. -/
theorem handlerStep_move {s t : SyncState cfg} {cpu : Nat} {a : HandlerAction cfg.log}
    (h : handlerStep s cpu a = some t) : HandlerMove s cpu a t := by
  cases a with
  | deliver =>
    simp only [handlerStep] at h
    split at h
    · rename_i l rest hqueue hidle
      exact Option.some.inj h ▸ .deliver hqueue hidle
    · cases h
  | look =>
    simp only [handlerStep] at h
    split at h
    · rename_i l hwait
      exact Option.some.inj h ▸ .look hwait
    · cases h
  | relax =>
    simp only [handlerStep] at h
    split at h
    · rename_i l hspun
      exact Option.some.inj h ▸ .relax hspun
    · cases h
  | deadline =>
    simp only [handlerStep] at h
    split at h
    · rename_i l hspun
      exact Option.some.inj h ▸ .deadline hspun
    · cases h
  | read readings =>
    simp only [handlerStep] at h
    split at h
    · rename_i l hrel
      exact Option.some.inj h ▸ .read readings hrel
    · cases h
  | count =>
    simp only [handlerStep] at h
    split at h
    · rename_i l e hsampled
      exact Option.some.inj h ▸ .count hsampled
    · cases h
  | publish =>
    simp only [handlerStep] at h
    split at h
    · rename_i l e hcounted
      exact Option.some.inj h ▸ .publish hcounted
    · cases h

def syncMachine (hN : 0 < cfg.bufferSize) (cells : Nat → Nat → HrperfLogEntry cfg.log) :
    Machine (SyncState cfg) (SyncAction cfg) where
  init := {
    readyCpus := 0
    startFlag := false
    doneCpus := 0
    kts := fun _ => 0
    pc := .idle
    op := .pollOp
    data := 0
    queue := fun _ => []
    handler := fun _ => .idle
    rings := fun cpu => .init (cells cpu) hN
    file := []
    round := 0
    taken := fun _ => 0
    readied := fun _ _ => false
    finished := fun _ _ => false
    fate := fun _ _ => none }
  step s a := match a with
    | .begin op slot clocks =>
      if s.pc = .idle ∨ s.pc = .opReturned then some (beginOp p s op slot clocks) else none
    | .advance => advance p s
    | .allocFails => if s.pc = .allocMask then some { s with pc := .pollReturned } else none
    | .deadline => deadline s
    | .overwrite slot v =>
      if s.pc.polling = true ∧ slot = s.data then none
      else some { s with kts := Function.update s.kts slot v }
    | .handler cpu a => handlerStep s cpu a

end StrictSync
