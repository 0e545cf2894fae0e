import Xv6.ProcessTable
import Xv6.Runs

namespace Xv6.Kernel

open Xv6.Threads

/-- Where a thread is in the calls modelled here; `q` is the row of a new process and `j` the slot of a
new thread. In `free` it is in user mode or in some other part of the kernel. -/
inductive Pc where
  | free
  | allocproc
  | forkStack (q : ℕ)
  | forkCopy (q : ℕ)
  | forkUnused (q : ℕ)
  | forkUninit (q : ℕ)
  | forkParent (q : ℕ)
  | forkUsed (q : ℕ)
  | createSearch
  | createStack (j : ℕ)
  | createContext (j : ℕ)
  | createRequest (j : ℕ)
  | createRunnable (j : ℕ)
  | kexitScan
  | exitScan (kexit : Bool)
  | exitClose
  | kexitWake
  | kexitMark
  | panic
  | join (threadId : ℤ)
  | wait
  deriving DecidableEq, Repr

/-- What a thread does, with `ptable.lock` held, when the scheduler switches to its saved context. -/
inductive Context where
  | forkret
  | yielded (pc : Pc)
  | slept (pc : Pc)
  | waiting
  | joining (t : ℕ)
  | dead
  deriving DecidableEq, Repr

/-- `idle` is the scheduler without the lock, `procs` and `threads` are its two loops, and `resumes` is a
thread from the switch to it until it releases the lock. -/
inductive CpuState where
  | idle
  | procs (p : ℕ)
  | threads (p k : ℕ)
  | resumes (k : ℕ) (context : Context)
  | runs (k : ℕ) (pc : Pc)
  deriving DecidableEq, Repr

/-- A zombie found by `wait`: the process whose thread called it, what it returned, and the parent and the
state of the zombie at that moment. -/
structure Waited where
  proc : ℕ
  pid : ℤ
  parent : Option ℕ
  state : ProcState
  deriving DecidableEq, Repr

variable {Cpu : Type} [DecidableEq Cpu]

structure State (Cpu : Type) where
  proc : ℕ → Proc
  thr : Table
  context : ℕ → Context
  cpu : Cpu → CpuState
  lock : Option Cpu
  nextpid : ℤ
  nexttid : ℤ
  waited : List Waited

def procChan (p : ℕ) : Chan := .other p

inductive Call where
  | fork
  | kthreadCreate
  | kthreadExit
  | exit
  | kthreadJoin (threadId : ℤ)
  | wait
  deriving DecidableEq, Repr

def Call.pc : Call → Pc
  | .fork => .allocproc
  | .kthreadCreate => .createSearch
  | .kthreadExit => .kexitScan
  | .exit => .exitScan false
  | .kthreadJoin threadId => .join threadId
  | .wait => .wait

/-- `alloc` is the end of `kalloc` or of `copyuvm`, with or without success. -/
inductive Event (Cpu : Type) where
  | scheduler (c : Cpu)
  | call (c : Cpu) (call : Call)
  | run (c : Cpu)
  | alloc (c : Cpu) (ok : Bool)
  | sleep (c : Cpu) (addr : ℕ)
  | preempt (c : Cpu)
  | wakeup (addr : ℕ)
  | kill (pid : ℤ)
  deriving DecidableEq, Repr

section

variable (s : State Cpu) (c : Cpu) (k : ℕ)

def State.goto (pc : Pc) : State Cpu := { s with cpu := Function.update s.cpu c (.runs k pc) }

def State.setThr (thr : Table) : State Cpu := { s with thr := thr }

def State.setProc (q : ℕ) (p : Proc) : State Cpu := { s with proc := Function.update s.proc q p }

def State.sched (context : Context) : State Cpu :=
  { s with
    context := Function.update s.context k context
    cpu := Function.update s.cpu c (.threads (row k) (k + 1))
    lock := some c }

def State.release : State Cpu := { s with lock := none }

def allocproc : State Cpu :=
  match searchUnused fun q => (s.proc q).state with
  | none => s.goto c k .free
  | some q =>
    { ((s.setProc q ((s.proc q).embryo s.nextpid)).setThr
        (allocprocTable s.thr q s.nexttid)).goto c k (.forkStack q) with
      nextpid := s.nextpid + 1
      nexttid := s.nexttid + 1 }

def createSearch : State Cpu :=
  match searchUninit s.thr (base (row k)) with
  | none => s.goto c k .free
  | some j =>
    { (s.setThr (Function.update s.thr j { s.thr j with tproc := some (row k), tid := s.nexttid })).goto c k
        (.createStack j) with
      nexttid := s.nexttid + 1 }

def kexitScan : State Cpu :=
  if lastRunning s.thr (base (row k)) k then s.goto c k (.exitScan true)
  else (s.setThr (setState (wakeup1 s.proc s.thr (.thread k)) k .terminated)).sched c k .dead

def exitScan (kexit : Bool) : State Cpu :=
  if lastRunning s.thr (base (row k)) k then s.goto c k .exitClose
  else (s.setThr (requestExit s.thr (base (row k)) k)).goto c k (if kexit then .kexitWake else .free)

def parentChan (p : ℕ) : Chan :=
  match (s.proc p).parent with
  | some q => procChan q
  | none => .null

def exitFinal : State Cpu :=
  let p := row k
  let thr := wakeup1 s.proc s.thr (parentChan s p)
  let thr := if hasZombie s.proc p then wakeup1 s.proc thr (procChan initproc) else thr
  let thr := wakeup1 s.proc thr (.thread k)
  let proc := passToInit s.proc p
  { s with
    proc := Function.update proc p { proc p with state := .zombie }
    thr := setState thr k .terminated }.sched c k .dead

def joinStep : JoinResult → State Cpu
  | .fails => (s.goto c k .free).release
  | .sleeps t => (s.setThr (JoinResult.table s.thr k (.sleeps t))).sched c k (.joining t)
  | .reaps t => ((s.setThr (JoinResult.table s.thr k (.reaps t))).goto c k .free).release

def waitFound (q : ℕ) : State Cpu :=
  let pid := if hasNonTerminated s.thr k q then 0 else (s.proc q).pid
  { ((s.setThr (waitTable s.thr (base q))).goto c k .free).release with
    proc := freeRow s.proc s.thr k q
    waited := ⟨row k, pid, (s.proc q).parent, (s.proc q).state⟩ :: s.waited }

def waitLoop : State Cpu :=
  match zombieChild s.proc (row k) with
  | some q => waitFound s c k q
  | none =>
    if havekids s.proc (row k) = false ∨ (s.proc (row k)).killed ∨ (s.thr k).exitRequest ≠ 0 then
      (s.goto c k .free).release
    else
      (s.setThr (Function.update s.thr k { s.thr k with chan := procChan (row k), state := .sleeping })).sched c k
        .waiting

def scheduler : Option (State Cpu) :=
  let goto (pos : CpuState) : State Cpu := { s with cpu := Function.update s.cpu c pos }
  match s.cpu c with
  | .idle => if s.lock = none then some { goto (.procs 0) with lock := some c } else none
  | .procs p =>
    if p ≥ NPROC then some (goto .idle).release
    else some (goto (if (s.proc p).state = .used then .threads p (base p) else .procs (p + 1)))
  | .threads p k =>
    if k ≥ base p + NTHREAD then some (goto (.procs (p + 1)))
    else if (s.thr k).state ≠ .runnable then some (goto (.threads p (k + 1)))
    else some ((goto (.resumes k (s.context k))).setThr (setState s.thr k .running))
  | _ => none

def clearChan : State Cpu := s.setThr (Function.update s.thr k { s.thr k with chan := .null })

def resume : Context → Option (State Cpu)
  | .forkret => some (s.goto c k .free).release
  | .yielded pc => some (s.goto c k pc).release
  | .slept pc => some ((clearChan s k).goto c k pc).release
  | .waiting => some (waitLoop (clearChan s k) c k)
  | .joining t => some (joinStep (clearChan s k) c k (joinLoop (clearChan s k).thr t))
  | .dead => none

/-- A region under `ptable.lock` is one step; it starts when the lock is free. -/
def region (s' : State Cpu) : Option (State Cpu) := if s.lock = none then some s' else none

def run (pc : Pc) : Option (State Cpu) :=
  match pc with
  | .allocproc => region s (allocproc s c k)
  | .forkUnused q => some ((s.setProc q { s.proc q with state := .unused }).goto c k (.forkUninit q))
  | .forkUninit q => some ((s.setThr (setState s.thr (base q) .uninit)).goto c k .free)
  | .forkParent q => some ((s.setProc q { s.proc q with parent := some (row k) }).goto c k (.forkUsed q))
  | .forkUsed q =>
    region s
      (((s.setProc q { s.proc q with state := .used }).setThr (setState s.thr (base q) .runnable)).goto c k .free)
  | .createSearch => region s (createSearch s c k)
  | .createContext j => some { s.goto c k (.createRequest j) with context := Function.update s.context j .forkret }
  | .createRequest j =>
    some ((s.setThr (Function.update s.thr j { s.thr j with exitRequest := 0 })).goto c k (.createRunnable j))
  | .createRunnable j => some ((s.setThr (setState s.thr j .runnable)).goto c k .free)
  | .kexitScan => region s (kexitScan s c k)
  | .exitScan kexit => if row k = initproc then none else region s (exitScan s c k kexit)
  | .exitClose => region s (exitFinal s c k)
  | .kexitWake => some ((s.setThr (wakeup1 s.proc s.thr (.thread k))).goto c k .kexitMark)
  | .kexitMark => some ((s.setThr (setState s.thr k .terminated)).goto c k .panic)
  | .join threadId => region s (joinStep s c k (kthreadJoin s.thr (base (row k)) k threadId))
  | .wait => region s (waitLoop s c k)
  | .free | .forkStack _ | .forkCopy _ | .createStack _ | .panic => none

def alloc (ok : Bool) (pc : Pc) : Option (State Cpu) :=
  match pc with
  | .forkStack q =>
    some (if ok then { s.goto c k (.forkCopy q) with context := Function.update s.context (base q) .forkret }
      else s.goto c k .free)
  | .forkCopy q => some (s.goto c k (if ok then .forkParent q else .forkUnused q))
  | .createStack j => some (s.goto c k (if ok then .createContext j else .free))
  | _ => none

end

def Pc.maySleep : Pc → Bool
  | .free | .exitClose => true
  | _ => false

def step (s : State Cpu) : Event Cpu → Option (State Cpu)
  | .scheduler c => scheduler s c
  | .call c call =>
    match s.cpu c with
    | .runs k .free => some (s.goto c k call.pc)
    | _ => none
  | .run c =>
    match s.cpu c with
    | .runs k pc => run s c k pc
    | .resumes k context => resume s c k context
    | _ => none
  | .alloc c ok =>
    match s.cpu c with
    | .runs k pc => alloc s c k ok pc
    | _ => none
  | .sleep c addr =>
    match s.cpu c with
    | .runs k pc =>
      if pc.maySleep ∧ NPROC ≤ addr then
        region s ((s.setThr (Function.update s.thr k
          { s.thr k with chan := .other addr, state := .sleeping })).sched c k
          (.slept pc))
      else none
    | _ => none
  | .preempt c =>
    match s.cpu c with
    | .runs k pc =>
      if (s.thr k).state = .running then region s ((s.setThr (setState s.thr k .runnable)).sched c k (.yielded pc))
      else none
    | _ => none
  | .wakeup addr => if NPROC ≤ addr then region s (s.setThr (wakeup1 s.proc s.thr (.other addr))) else none
  | .kill pid => region s { s with proc := killTable s.proc pid }

end Xv6.Kernel
