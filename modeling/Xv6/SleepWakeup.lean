import Xv6.ThreadTable

/-! `sleep` and `wakeup` on one channel. The threads wait in `acquire(lk); while(!cond) sleep(chan, lk);` for
a condition on data that the spinlock `lk` guards, or change the data while they hold `lk`. Every acquire,
release, store and context switch is a step of its own. -/

namespace Xv6.SleepWakeup

open Xv6.Threads (ProcState ThreadState)

structure Table (Proc Thread : Type) where
  rows : List Proc
  threads : Proc → List Thread
  proc : Thread → Proc
  complete : ∀ t, proc t ∈ rows ∧ t ∈ threads (proc t)

/-- The next instruction of a thread. A waiter goes from `enter true` to `test` and from there to `critical`
or through the lines of `sleep`; `inner` tells whether `lk` is held during the call of `wakeup`. -/
inductive Pc (Proc Thread : Type) where
  | forkret
  | idle
  | enter (waits : Bool)
  | test
  | sleepEnter
  | sleepRelease
  | sleepChan
  | sleepState
  | sleepSched
  | sleepTidy
  | sleepLeave
  | sleepReturn
  | critical
  | wakeEnter (inner : Bool)
  | wakeThreads (inner : Bool) (threads : List Thread) (procs : List Proc)
  | wakeLeave (inner : Bool)
  deriving DecidableEq, Repr

inductive Switch where
  | entering (exits : Bool)
  | marking (exits : Bool)
  | switching
  | returning
  deriving DecidableEq, Repr

/-- `owes` is not read by the code: the thread has made the condition true and not finished a `wakeup(chan)`
since. -/
structure Kthread (Proc Thread : Type) where
  state : ThreadState
  chan : ℕ
  pc : Pc Proc Thread
  switch : Option Switch
  owes : Bool
  deriving DecidableEq, Repr

/-- `scans` and `runs` keep the rest of the two loops of the scheduler. -/
inductive CpuState (Proc Thread : Type) where
  | idle
  | scans (threads : List Thread) (procs : List Proc)
  | runs (t : Thread) (threads : List Thread) (procs : List Proc)
  deriving DecidableEq, Repr

structure State (Cpu Proc Thread σ : Type) where
  cpu : Cpu → CpuState Proc Thread
  lk : Option Cpu
  lock : Option Cpu
  proc : Proc → ProcState
  thread : Thread → Kthread Proc Thread
  data : σ

structure Setup (Proc Thread σ : Type) where
  table : Table Proc Thread
  chan : ℕ
  cond : σ → Bool

inductive Choice (σ : Type) where
  | wait
  | enter
  | exit
  | wakeup
  | change (data : σ)
  | leave

/-- `trap` is the kill branch of `trap()` in a thread of the process of `u`; `proc` stands for the calls that
change the state of a process. -/
inductive Event (Cpu Proc Thread σ : Type) where
  | run (c : Cpu)
  | choose (c : Cpu) (choice : Choice σ)
  | preempt (c : Cpu)
  | trap (c : Cpu) (u : Thread)
  | proc (p : Proc) (state : ProcState)

section Code

variable {Cpu Proc Thread σ : Type} [DecidableEq Cpu] [DecidableEq Proc] [DecidableEq Thread]

@[simps]
def State.move (s : State Cpu Proc Thread σ) (t : Thread) (k : Kthread Proc Thread) (lk lock : Option Cpu) :
    State Cpu Proc Thread σ :=
  { s with thread := Function.update s.thread t k, lk := lk, lock := lock }

@[simps]
def State.goto (s : State Cpu Proc Thread σ) (c : Cpu) (pos : CpuState Proc Thread) : State Cpu Proc Thread σ :=
  { s with cpu := Function.update s.cpu c pos }

@[simps]
def State.setState (s : State Cpu Proc Thread σ) (t : Thread) (state : ThreadState) : State Cpu Proc Thread σ :=
  { s with thread := Function.update s.thread t { s.thread t with state := state } }

def wakeOne (chan : ℕ) (s : State Cpu Proc Thread σ) (u : Thread) : State Cpu Proc Thread σ :=
  if (s.thread u).state = .sleeping ∧ (s.thread u).chan = chan then s.setState u .runnable else s

def scheduler (table : Table Proc Thread) (s : State Cpu Proc Thread σ) (c : Cpu) :
    Option (State Cpu Proc Thread σ) :=
  match s.cpu c with
  | .idle => if s.lock = none then some { s.goto c (.scans [] table.rows) with lock := some c } else none
  | .scans [] [] => some { s.goto c .idle with lock := none }
  | .scans [] (p :: procs) => some (s.goto c (.scans (if s.proc p = .used then table.threads p else []) procs))
  | .scans (t :: threads) procs =>
    if (s.thread t).state = .runnable then some ((s.setState t .running).goto c (.runs t threads procs))
    else some (s.goto c (.scans threads procs))
  | .runs _ _ _ => none

def sched (s : State Cpu Proc Thread σ) (c : Cpu) (t : Thread) (k : Kthread Proc Thread) (threads : List Thread)
    (procs : List Proc) : Option (State Cpu Proc Thread σ) :=
  if s.lock = some c ∧ k.state ≠ .running then some ((s.move t k s.lk s.lock).goto c (.scans threads procs))
    else none

def switchStep (s : State Cpu Proc Thread σ) (c : Cpu) (t : Thread) (threads : List Thread) (procs : List Proc) :
    Switch → Option (State Cpu Proc Thread σ)
  | .entering exits =>
    if s.lock = none then some (s.move t { s.thread t with switch := some (.marking exits) } s.lk (some c))
      else none
  | .marking exits =>
    some (s.move t { s.thread t with state := if exits then .terminated else .runnable, switch := some .switching }
      s.lk s.lock)
  | .switching => sched s c t { s.thread t with switch := some .returning } threads procs
  | .returning => if s.lock = some c then some (s.move t { s.thread t with switch := none } s.lk none) else none

def pcStep (sys : Setup Proc Thread σ) (s : State Cpu Proc Thread σ) (c : Cpu) (t : Thread) (threads : List Thread)
    (procs : List Proc) : Pc Proc Thread → Option (State Cpu Proc Thread σ)
  | .forkret => if s.lock = some c then some (s.move t { s.thread t with pc := .idle } s.lk none) else none
  | .idle => none
  | .enter waits =>
    if s.lk = none then
      some (s.move t { s.thread t with pc := if waits then .test else .critical } (some c) s.lock)
    else none
  | .test =>
    some (s.move t { s.thread t with pc := if sys.cond s.data then .critical else .sleepEnter } s.lk s.lock)
  | .sleepEnter =>
    if s.lock = none then some (s.move t { s.thread t with pc := .sleepRelease } s.lk (some c)) else none
  | .sleepRelease =>
    if s.lk = some c then some (s.move t { s.thread t with pc := .sleepChan } none s.lock) else none
  | .sleepChan => some (s.move t { s.thread t with pc := .sleepState, chan := sys.chan } s.lk s.lock)
  | .sleepState => some (s.move t { s.thread t with pc := .sleepSched, state := .sleeping } s.lk s.lock)
  | .sleepSched => sched s c t { s.thread t with pc := .sleepTidy } threads procs
  | .sleepTidy => some (s.move t { s.thread t with pc := .sleepLeave, chan := 0 } s.lk s.lock)
  | .sleepLeave =>
    if s.lock = some c then some (s.move t { s.thread t with pc := .sleepReturn } s.lk none) else none
  | .sleepReturn => if s.lk = none then some (s.move t { s.thread t with pc := .test } (some c) s.lock) else none
  | .critical => none
  | .wakeEnter inner =>
    if s.lock = none then
      some (s.move t { s.thread t with pc := .wakeThreads inner [] sys.table.rows } s.lk (some c))
    else none
  | .wakeThreads inner (u :: threads) procs =>
    some ((wakeOne sys.chan s u).move t { s.thread t with pc := .wakeThreads inner threads procs } s.lk s.lock)
  | .wakeThreads inner [] (p :: procs) =>
    some (s.move t
      { s.thread t with pc := .wakeThreads inner (if s.proc p = .unused then [] else sys.table.threads p) procs }
      s.lk s.lock)
  | .wakeThreads inner [] [] => some (s.move t { s.thread t with pc := .wakeLeave inner } s.lk s.lock)
  | .wakeLeave inner =>
    if s.lock = some c then
      some (s.move t { s.thread t with pc := if inner then .critical else .idle, owes := false } s.lk none)
    else none

def choose (sys : Setup Proc Thread σ) (s : State Cpu Proc Thread σ) (c : Cpu) (t : Thread) :
    Choice σ → Option (State Cpu Proc Thread σ)
  | .wait =>
    if (s.thread t).pc = .idle then some (s.move t { s.thread t with pc := .enter true } s.lk s.lock) else none
  | .enter =>
    if (s.thread t).pc = .idle then some (s.move t { s.thread t with pc := .enter false } s.lk s.lock) else none
  | .exit =>
    if (s.thread t).pc = .idle then some (s.move t { s.thread t with switch := some (.entering true) } s.lk s.lock)
    else none
  | .wakeup =>
    match (s.thread t).pc with
    | .idle => some (s.move t { s.thread t with pc := .wakeEnter false } s.lk s.lock)
    | .critical => some (s.move t { s.thread t with pc := .wakeEnter true } s.lk s.lock)
    | _ => none
  | .change data =>
    if (s.thread t).pc = .critical then
      some { s.move t
          { s.thread t with owes := (s.thread t).owes || (!sys.cond s.data && sys.cond data) } s.lk s.lock with
        data := data }
    else none
  | .leave =>
    if (s.thread t).pc = .critical ∧ s.lk = some c then
      some (s.move t { s.thread t with pc := if (s.thread t).owes then .wakeEnter false else .idle } none s.lock)
    else none

def Pc.interruptible : Pc Proc Thread → Bool
  | .idle | .enter _ | .sleepReturn | .wakeEnter false => true
  | _ => false

def step (sys : Setup Proc Thread σ) (s : State Cpu Proc Thread σ) : Event Cpu Proc Thread σ →
    Option (State Cpu Proc Thread σ)
  | .run c =>
    match s.cpu c with
    | .runs t threads procs =>
      match (s.thread t).switch with
      | some switch => switchStep s c t threads procs switch
      | none => pcStep sys s c t threads procs (s.thread t).pc
    | _ => scheduler sys.table s c
  | .choose c choice =>
    match s.cpu c with
    | .runs t _ _ => if (s.thread t).switch = none then choose sys s c t choice else none
    | _ => none
  | .preempt c =>
    match s.cpu c with
    | .runs t _ _ =>
      if (s.thread t).switch = none ∧ (s.thread t).pc.interruptible then
        some (s.move t { s.thread t with switch := some (.entering false) } s.lk s.lock)
      else none
    | _ => none
  | .trap c u =>
    match s.cpu c with
    | .runs t _ _ =>
      if (s.thread t).switch = none ∧ (s.thread t).pc = .idle ∧ sys.table.proc t = sys.table.proc u then
        some (if (s.thread u).state = .sleeping then s.setState u .runnable else s)
      else none
    | _ => none
  | .proc p state =>
    if state = .unused ∧ (sys.table.threads p).any (fun t => (s.thread t).state.live) then none
    else some { s with proc := Function.update s.proc p state }

end Code

end Xv6.SleepWakeup
