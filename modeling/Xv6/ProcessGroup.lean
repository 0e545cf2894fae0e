import Xv6.Creators

namespace Xv6.Process

open Xv6.Threads

inductive Cont where
  | dispatch
  | yield (timer : Bool)
  | leave
  | user
  | kexit
  deriving DecidableEq, Repr

inductive Pc where
  | dead
  | forkret
  | user
  | testExit (next : Cont)
  | testKilled (next : Cont)
  | dispatch
  | yield (timer : Bool)
  | busy
  | exitScan (next : Cont)
  | exitClose
  | kexitScan
  | kexitWake
  | kexitMark
  | createSearch (startFunc stack : ℕ)
  | create (slot sp : ℕ) (ops : List Op)
  | join (threadId : ℤ)
  | joinWait (threadId : ℤ) (slot : ℕ)
  | execTest
  | execScan
  | execBody
  | execImage (pgdir : ℕ)
  | execOld (pgdir oldpgdir : ℕ)
  | execSwitch (oldpgdir : ℕ)
  | execFree (oldpgdir : ℕ)
  deriving DecidableEq, Repr

def Cont.pc : Cont → Pc
  | .dispatch => .dispatch
  | .yield timer => .yield timer
  | .leave => .testExit .user
  | .user => .user
  | .kexit => .kexitWake

/-- One process. `pages` are the kernel stacks it has obtained; page directories are numbered in the order
in which `setupkvm` makes them and `cr3` is the one each thread runs in. Not read by the code: `freed`,
`created` (the tids that `kthread_create` returned, with their slots), `reaped` and `exited`. -/
structure State where
  thr : Table
  pc : ℕ → Pc
  eax : ℕ → ℤ
  nexttid : ℤ
  killed : Bool
  state : ProcState
  pages : ℕ → Bool
  pgdir : ℕ
  nextpgdir : ℕ
  cr3 : ℕ → ℕ
  freed : List ℕ
  created : List (ℤ × ℕ)
  reaped : List ℤ
  exited : ℕ → Bool

inductive Trap where
  | syscall
  | timer
  | device
  | fault
  deriving DecidableEq, Repr

inductive Call where
  | exit
  | kthreadExit
  | kthreadCreate (startFunc stack : ℕ)
  | kthreadJoin (threadId : ℤ)
  | exec
  | other
  deriving DecidableEq, Repr

def Call.pc : Call → Pc
  | .exit => .exitScan .leave
  | .kthreadExit => .kexitScan
  | .kthreadCreate startFunc stack => .createSearch startFunc stack
  | .kthreadJoin threadId => .join threadId
  | .exec => .execTest
  | .other => .busy

/-- `wake`, `kill`, `tick`, `other` and `wait` are steps of the rest of the system: a wakeup of a sleeping
thread, a `kill` of the process, a use of `nexttid`, a write to a slot of another process, and the
parent's `wait`. -/
inductive Event where
  | trap (k : ℕ) (kind : Trap)
  | syscall (k : ℕ) (call : Call)
  | run (k : ℕ)
  | kalloc (k page : ℕ)
  | setupkvm (k : ℕ)
  | bad (k : ℕ)
  | sleep (k chan : ℕ)
  | finish (k : ℕ) (value : ℤ)
  | scheduler (k : ℕ)
  | preempt (k : ℕ)
  | wake (k : ℕ)
  | kill
  | tick
  | other (k : ℕ) (t : Kthread)
  | wait
  deriving DecidableEq, Repr

@[simps]
def State.goto (s : State) (k : ℕ) (pc : Pc) : State := { s with pc := Function.update s.pc k pc }

@[simps]
def State.setThr (s : State) (thr : Table) : State := { s with thr := thr }

def State.ret (s : State) (k : ℕ) (value : ℤ) : State :=
  { s with eax := Function.update s.eax k value, pc := Function.update s.pc k (.testExit .user) }

section

variable (base : ℕ) (s : State) (k : ℕ)

def exitScan (next : Cont) : State :=
  if lastRunning s.thr base k then s.goto k .exitClose
  else { (s.setThr (requestExit s.thr base k)).goto k next.pc with exited := Function.update s.exited k true }

def exitFinal : State :=
  { (s.setThr (setState (wakeupThreads s.thr (.thread k)) k .terminated)).goto k .dead with
    state := .zombie
    exited := Function.update s.exited k true }

def kexitScan : State :=
  if lastRunning s.thr base k then s.goto k (.exitScan .kexit)
  else (s.setThr (setState (wakeupThreads s.thr (.thread k)) k .terminated)).goto k .dead

def createSearch (startFunc stack : ℕ) : State :=
  match searchUninit s.thr base with
  | none => s.ret k (-1)
  | some t =>
    { (s.setThr (Function.update s.thr t { s.thr t with tproc := some (row base), tid := s.nexttid })).goto k
        (.create t 0 (kthreadCreate startFunc stack)) with
      nexttid := s.nexttid + 1 }

def createStore (t sp : ℕ) (op : Op) (ops : List Op) : State :=
  let s' := s.setThr (Function.update s.thr t (op.thread (row base) sp (s.thr t)))
  let s' := if op = .contextEip then s'.goto t .forkret else s'
  s'.goto k (.create t (if op = .loadSp then (s.thr t).kstack + KSTACKSIZE else sp) ops)

def createReturn (t : ℕ) : State :=
  { s.ret k (s.thr t).tid with created := ((s.thr t).tid, t) :: s.created }

def joinStep (threadId : ℤ) : JoinResult → State
  | .fails => s.ret k (-1)
  | .sleeps t => (s.setThr (JoinResult.table s.thr k (.sleeps t))).goto k (.joinWait threadId t)
  | .reaps t =>
    { (s.setThr (JoinResult.table s.thr k (.reaps t))).ret k 0 with
      pages := if t ∈ slots base then Function.update s.pages (s.thr t).kstack false else s.pages
      reaped := (s.thr t).tid :: s.reaped }

def run : Option State :=
  match s.pc k with
  | .forkret => some (s.goto k .user)
  | .testExit next => some (s.goto k (if (s.thr k).exitRequest ≠ 0 then .kexitScan else .testKilled next))
  | .testKilled next => some (s.goto k (if s.killed then .exitScan next else next.pc))
  | .yield timer =>
    some ((s.setThr (if timer then setState s.thr k .runnable else s.thr)).goto k (.testExit .user))
  | .exitScan next => some (exitScan base s k next)
  | .exitClose => some (exitFinal s k)
  | .kexitScan => some (kexitScan base s k)
  | .kexitWake => some ((s.setThr (wakeupThreads s.thr (.thread k))).goto k .kexitMark)
  | .kexitMark => some ((s.setThr (setState s.thr k .terminated)).goto k .dead)
  | .createSearch startFunc stack => some (createSearch base s k startFunc stack)
  | .create t _ [] => some (createReturn s k t)
  | .create _ _ (.kalloc :: _) => none
  | .create t sp (op :: ops) => some (createStore base s k t sp op ops)
  | .join threadId => some (joinStep base s k threadId (kthreadJoin s.thr base k threadId))
  | .joinWait threadId t => some (joinStep base s k threadId (joinLoop s.thr t))
  | .execTest => some (s.goto k (if (s.thr k).exitRequest = 1 then .kexitScan else .execScan))
  | .execScan => some ((s.setThr (requestExit s.thr base k)).goto k .execBody)
  | .execImage pgdir => some (s.goto k (.execOld pgdir s.pgdir))
  | .execOld pgdir oldpgdir => some { s.goto k (.execSwitch oldpgdir) with pgdir := pgdir }
  | .execSwitch oldpgdir =>
    some { s.goto k (.execFree oldpgdir) with cr3 := Function.update s.cr3 k s.pgdir }
  | .execFree oldpgdir => some { s.ret k 0 with freed := oldpgdir :: s.freed }
  | .dead | .user | .dispatch | .busy | .execBody => none

def Trap.next : Trap → Cont
  | .syscall => .dispatch
  | .timer => .yield true
  | .device | .fault => .yield false

def trapTable (kind : Trap) : Table := fun i =>
  if kind = .fault ∧ i ∈ slots base ∧ (s.thr i).state = .sleeping then
    { s.thr i with state := .runnable } else s.thr i

def trap (kind : Trap) : State :=
  { (s.setThr (trapTable base s kind)).goto k (.testExit kind.next) with
    killed := s.killed || kind = .fault }

def kallocStep (t sp page : ℕ) (ops : List Op) : State :=
  let s' := s.setThr (Function.update s.thr t { s.thr t with kstack := page })
  if page = 0 then s'.ret k 0
  else { s'.goto k (.create t sp ops) with pages := Function.update s.pages page true }

def Pc.maySleep : Pc → Bool
  | .busy | .exitClose | .execBody | .execImage _ => true
  | _ => false

def wait : State :=
  { s.setThr (waitTable s.thr base) with
    pages := fun page =>
      s.pages page && !(slots base).any (fun i => (s.thr i).state = .terminated && (s.thr i).kstack = page)
    reaped := ((slots base).filter (fun i => (s.thr i).state = .terminated)).map
      (fun i => (s.thr i).tid) ++ s.reaped
    state := if (slots base).all (fun i => !(s.thr i).state.live) then .unused else s.state
    freed := if (slots base).all (fun i => !(s.thr i).state.live) then s.pgdir :: s.freed else s.freed }

def State.running : Bool := k ∈ slots base ∧ (s.thr k).state = .running

end

def step (base : ℕ) (s : State) : Event → Option State
  | .trap k kind => if s.running base k ∧ s.pc k = .user then some (trap base s k kind) else none
  | .syscall k call => if s.running base k ∧ s.pc k = .dispatch then some (s.goto k call.pc) else none
  | .run k => if s.running base k then run base s k else none
  | .kalloc k page =>
    match s.pc k with
    | .create t sp (.kalloc :: ops) =>
      if s.running base k ∧ (page = 0 ∨ s.pages page = false) then some (kallocStep s k t sp page ops) else none
    | _ => none
  | .setupkvm k =>
    if s.running base k ∧ s.pc k = .execBody then
      some { s.goto k (.execImage s.nextpgdir) with nextpgdir := s.nextpgdir + 1 }
    else none
  | .bad k =>
    match s.pc k with
    | .execBody => if s.running base k then some (s.ret k (-1)) else none
    | .execImage pgdir => if s.running base k then some { s.ret k (-1) with freed := pgdir :: s.freed } else none
    | _ => none
  | .sleep k chan =>
    if s.running base k ∧ (s.pc k).maySleep then
      some (s.setThr (Function.update s.thr k { s.thr k with chan := .other chan, state := .sleeping }))
    else none
  | .finish k value => if s.running base k ∧ s.pc k = .busy then some (s.ret k value) else none
  | .scheduler k =>
    if k ∈ slots base ∧ s.state = .used ∧ (s.thr k).state = .runnable then
      some { s.setThr (setState s.thr k .running) with cr3 := Function.update s.cr3 k s.pgdir }
    else none
  | .preempt k =>
    if s.running base k ∧ s.pc k ≠ .user then some (s.setThr (setState s.thr k .runnable)) else none
  | .wake k =>
    if k ∈ slots base ∧ (s.thr k).state = .sleeping then some (s.setThr (setState s.thr k .runnable)) else none
  | .kill => some { s with killed := true }
  | .tick => some { s with nexttid := s.nexttid + 1 }
  | .other k t => if k ∈ slots base then none else some (s.setThr (Function.update s.thr k t))
  | .wait => if s.state = .zombie then some (wait base s) else none

end Xv6.Process
