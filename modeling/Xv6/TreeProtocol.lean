import Xv6.MutexWaiters
import Xv6.TournamentTree

namespace Xv6.Tournament

open Xv6.Mutex (Pc SlotChange nextPc step_slot step_pc_actor step_pc_other resume_catch AtCatch lockLoop)

inductive TreePc where
  | idle
  | returned (value : ℤ)
  | climbing (leaf curNode : TreeNode)
  | locking (leaf curNode parent : TreeNode)
  | releasing (leaf : TreeNode) (i : ℤ)
  | unlocking (leaf : TreeNode) (i : ℤ)
  deriving DecidableEq, Repr

variable {Thread : Type} [DecidableEq Thread]

/-- `inside` is not read by the code: it follows the acquire calls that return 0 and the release calls. -/
structure State (Thread : Type) where
  mx : Mutex.State Thread
  pc : Thread → TreePc
  lockPath : ℕ → ℤ → ℤ
  inside : Thread → Bool

structure Setup (Thread : Type) where
  tree : Tree
  treeDepth : ℤ
  tid : Thread ↪ ℤ
  ID : Thread ↪ ℤ

@[simps]
def State.goto (s : State Thread) (t : Thread) (pc : TreePc) : State Thread :=
  { s with pc := Function.update s.pc t pc }

@[simps]
def State.setInside (s : State Thread) (t : Thread) (b : Bool) : State Thread :=
  { s with inside := Function.update s.inside t b }

@[simps]
def State.setMx (s : State Thread) (mx : Mutex.State Thread) : State Thread :=
  { s with mx := mx }

@[simps]
def State.setLockPath (s : State Thread) (path : ℕ) (i value : ℤ) : State Thread :=
  { s with lockPath := Function.update s.lockPath path (Function.update (s.lockPath path) i value) }

inductive Event (Thread : Type) where
  | acquire (t : Thread)
  | release (t : Thread)
  | run (t : Thread)
  | wake (t : Thread)
  deriving DecidableEq, Repr

def TreePc.free : TreePc → Bool
  | .idle | .returned _ => true
  | _ => false

def mutexStep (c : Setup Thread) (s : State Thread) (e : Mutex.Event Thread) : Option (State Thread) :=
  (Mutex.step c.tid s.mx e).map s.setMx

def climb (c : Setup Thread) (s : State Thread) (t : Thread) (leaf curNode : TreeNode) : Option (State Thread) :=
  if curNode.parent = 0 then some ((s.goto t (.returned 0)).setInside t true)
  else
    match c.tree.nodeAt curNode.parent with
    | some parent =>
      mutexStep c (s.goto t (.locking leaf curNode parent)) (.call t (.lock parent.mutexId))
    | none => none

def lockDone (s : State Thread) (t : Thread) (leaf curNode parent : TreeNode) (mutexLock : ℤ) : State Thread :=
  let s := s.setLockPath leaf.lockPath parent.level parent.mutexId
  if mutexLock = -1 then s.goto t (.returned (-1))
  else if mutexLock = 0 then s.goto t (.climbing leaf parent)
  else s.goto t (.climbing leaf curNode)

def unlockNext (c : Setup Thread) (s : State Thread) (t : Thread) (leaf : TreeNode) (i : ℤ) :
    Option (State Thread) :=
  if i < 0 then some (s.goto t (.returned 0))
  else mutexStep c (s.goto t (.unlocking leaf i)) (.call t (.unlock (s.lockPath leaf.lockPath i)))

def unlockDone (s : State Thread) (t : Thread) (leaf : TreeNode) (i res : ℤ) : State Thread :=
  if res = -1 then s.goto t (.returned (-1))
  else (s.setLockPath leaf.lockPath i 0).goto t (.releasing leaf (i - 1))

def resume (c : Setup Thread) (s : State Thread) (t : Thread) : Option (State Thread) :=
  match s.pc t with
  | .climbing leaf curNode => climb c s t leaf curNode
  | .locking leaf curNode parent =>
    match s.mx.pc t with
    | .returned value => some (lockDone s t leaf curNode parent value)
    | _ => mutexStep c s (.run t)
  | .releasing leaf i => unlockNext c s t leaf i
  | .unlocking leaf i =>
    match s.mx.pc t with
    | .returned value => some (unlockDone s t leaf i value)
    | _ => mutexStep c s (.run t)
  | _ => none

def step (c : Setup Thread) (s : State Thread) : Event Thread → Option (State Thread)
  | .acquire t =>
    if (s.pc t).free then (findLeaf (c.ID t) c.tree).map (fun leaf => s.goto t (.climbing leaf leaf)) else none
  | .release t =>
    if (s.pc t).free then
      (findLeaf (c.ID t) c.tree).map
        (fun leaf => (s.goto t (.releasing leaf (c.treeDepth - 1))).setInside t false)
    else none
  | .run t => resume c s t
  | .wake t => mutexStep c s (.wake t)

end Xv6.Tournament
