import Xv6.Creators

namespace Xv6.Threads

inductive Creator where
  | boot
  | thread (k : ℕ)
  deriving DecidableEq, Repr

structure Goal where
  proc : ℕ
  tid : ℤ
  page : ℕ
  frame : Trapframe
  deriving DecidableEq, Repr

structure Job where
  slot : ℕ
  sp : ℕ
  goal : Goal
  isThread : Bool
  ops : List Op
  deriving DecidableEq, Repr

/-- Not read by the code: which slot a page in `pages` was obtained for, the goal of a job, and `first`,
the goal of a thread from its publication until it leaves the kernel for the first time. -/
structure Machine where
  procs : ℕ → ProcState
  thr : Table
  mem : StackMemory
  pages : ℕ → Option ℕ
  nexttid : ℤ
  lock : Option Creator
  job : Creator → Option Job
  esp0 : ℕ → ℕ
  onCpu : ℕ → Bool
  first : ℕ → Option Goal

inductive Event where
  | userinit
  | trap (k : ℕ) (frame : Trapframe)
  | fork (k : ℕ) (frame : Trapframe)
  | kthreadCreate (k : ℕ) (frame : Trapframe) (startFunc stack : ℕ)
  | run (c : Creator)
  | kalloc (c : Creator) (page : ℕ)
  | copyuvm (c : Creator) (copied : Bool)
  | scheduler (k : ℕ)
  | trapret (k : ℕ)
  | yield (k context : ℕ)
  deriving DecidableEq, Repr

def allocprocFound (s : Machine) (c : Creator) (frame : Trapframe) (ops : List Op) (p : ℕ) : Machine :=
  { s with
    procs := Function.update s.procs p .embryo
    thr := allocprocTable s.thr p s.nexttid
    nexttid := s.nexttid + 1
    job := Function.update s.job c (some ⟨base p, 0, ⟨p, s.nexttid, 0, frame⟩, false, ops⟩) }

def allocproc (s : Machine) (c : Creator) (frame : Trapframe) (ops : List Op) : Machine :=
  match searchUnused s.procs with
  | none => s
  | some p => allocprocFound s c frame ops p

def initFrame : Trapframe :=
  { Trapframe.filled 0 0 with cs := 27, ds := 35, es := 35, ss := 35, eflags := 512, esp := 4096 }

def frameOf (s : Machine) (k : ℕ) : Trapframe := s.mem.frames (s.thr k).tf

def createFound (s : Machine) (k : ℕ) (frame : Trapframe) (startFunc stack t : ℕ) : Machine :=
  let goal : Goal := ⟨row k, s.nexttid, 0, { frame with eip := startFunc, esp := stack }⟩
  { s with
    thr := Function.update s.thr t { s.thr t with tproc := some (row k), tid := s.nexttid }
    nexttid := s.nexttid + 1
    job := Function.update s.job (.thread k) (some ⟨t, 0, goal, true, kthreadCreate startFunc stack⟩) }

def createSearch (s : Machine) (k : ℕ) (frame : Trapframe) (startFunc stack : ℕ) : Machine :=
  match searchUninit s.thr (base (row k)) with
  | none => s
  | some t => createFound s k frame startFunc stack t

def Machine.free (s : Machine) (c : Creator) : Bool :=
  match s.job c with
  | none => true
  | some j => j.ops.isEmpty

def Machine.inUser (s : Machine) (k : ℕ) : Bool := s.onCpu k && (s.first k).isNone && s.free (.thread k)

def source (s : Machine) : Creator → Trapframe
  | .boot => .filled 0 0
  | .thread k => frameOf s k

def Op.procs (p : ℕ) (procs : ℕ → ProcState) : Op → ℕ → ProcState
  | .used => Function.update procs p .used
  | .unused => Function.update procs p .unused
  | _ => procs

def perform (s : Machine) (c : Creator) (j : Job) (op : Op) (ops : List Op) : Machine :=
  let t := s.thr j.slot
  { s with
    procs := op.procs j.goal.proc s.procs
    thr := Function.update s.thr j.slot (op.thread j.goal.proc j.sp t)
    mem := if op = .kfree then s.mem.kfree t.kstack else s.mem.store j.sp t (source s c) op
    pages := if op = .kfree then Function.update s.pages t.kstack none else s.pages
    lock := if op = .acquire then some c else if op = .release then none else s.lock
    job := Function.update s.job c
      (some { j with ops := ops, sp := if op = .loadSp then t.kstack + KSTACKSIZE else j.sp })
    first := if op = .runnable then Function.update s.first j.slot (some j.goal) else s.first }

def runJob (s : Machine) (c : Creator) : Option Machine :=
  match s.job c with
  | none => none
  | some j =>
    match j.ops with
    | [] | .kalloc :: _ | .copyuvm :: _ => none
    | op :: ops => if op = .acquire ∧ s.lock ≠ none then none else some (perform s c j op ops)

def kallocJob (s : Machine) (c : Creator) (j : Job) (page : ℕ) (ops : List Op) : Machine :=
  { s with
    thr := Function.update s.thr j.slot { s.thr j.slot with kstack := page }
    pages := if page = 0 then s.pages else Function.update s.pages page (some j.slot)
    job := Function.update s.job c
      (some { j with goal := { j.goal with page := page }, ops := if page = 0 then [] else ops }) }

def copyuvmJob (s : Machine) (c : Creator) (j : Job) (copied : Bool) (ops : List Op) : Machine :=
  { s with job := Function.update s.job c (some { j with ops := if copied then ops else forkFails }) }

def trap (s : Machine) (k : ℕ) (frame : Trapframe) : Machine :=
  { s with
    thr := Function.update s.thr k { s.thr k with tf := tfAddr (s.esp0 k) }
    mem := { s.mem with frames := Function.update s.mem.frames (tfAddr (s.esp0 k)) frame } }

def scheduler (s : Machine) (k : ℕ) : Machine :=
  { s with
    thr := setState s.thr k .running
    esp0 := Function.update s.esp0 k ((s.thr k).kstack + KSTACKSIZE)
    onCpu := Function.update s.onCpu k true }

def yield (s : Machine) (k context : ℕ) : Machine :=
  { s with
    thr := Function.update s.thr k { s.thr k with state := .runnable, context := context }
    onCpu := Function.update s.onCpu k false
    first := Function.update s.first k none }

def step (s : Machine) : Event → Option Machine
  | .userinit =>
    if s.lock = none ∧ s.job .boot = none then some (allocproc s .boot initFrame userinit) else none
  | .trap k frame => if s.inUser k then some (trap s k frame) else none
  | .fork k frame =>
    if s.lock = none ∧ s.inUser k then
      some (allocproc (trap s k frame) (.thread k) { frame with eax := 0 } fork)
    else none
  | .kthreadCreate k frame startFunc stack =>
    if s.lock = none ∧ s.inUser k then some (createSearch (trap s k frame) k frame startFunc stack) else none
  | .run c => runJob s c
  | .kalloc c page =>
    match s.job c with
    | none => none
    | some j =>
      match j.ops with
      | .kalloc :: ops => if page = 0 ∨ s.pages page = none then some (kallocJob s c j page ops) else none
      | _ => none
  | .copyuvm c copied =>
    match s.job c with
    | none => none
    | some j =>
      match j.ops with
      | .copyuvm :: ops => some (copyuvmJob s c j copied ops)
      | _ => none
  | .scheduler k =>
    if s.lock = none ∧ s.procs (row k) = .used ∧ (s.thr k).state = .runnable then some (scheduler s k)
    else none
  | .trapret k =>
    if s.onCpu k ∧ s.first k ≠ none then some { s with first := Function.update s.first k none } else none
  | .yield k context =>
    if s.lock = none ∧ s.onCpu k ∧ (s.thr k).state = .running then some (yield s k context) else none

end Xv6.Threads
