import Xv6.MutexSteps
import Xv6.TournamentTree

open Function

namespace Xv6.Mutex

def kthreadMutexDealloc (mutexes : Slots) (mutexId : ℤ) : Slots × ℤ :=
  let m := searchId mutexes mutexId
  if m = MAX_MUTEXES then (mutexes, -1)
  else if (mutexes m).locked = 1 then (mutexes, -1)
  else if (mutexes m).used = 0 then (mutexes, -1)
  else (Function.update mutexes m cleared, 0)

/-- `kthread_mutex_lock` by the thread `me`, with no other thread in between; `none` when it goes to sleep. -/
def kthreadMutexLock (mutexes : Slots) (me mutexId : ℤ) : Option (Slots × ℤ) :=
  let m := searchId mutexes mutexId
  if (mutexes m).id ≠ mutexId then some (mutexes, -1)
  else if (mutexes m).used = 0 then some (mutexes, -1)
  else if (lockArrive (mutexes m) me).locked ≠ 0 then none
  else some (Function.update mutexes m (lockCatch (lockArrive (mutexes m) me) me), 0)

def kthreadMutexUnlock (mutexes : Slots) (me mutexId : ℤ) : Slots × ℤ :=
  let m := searchId mutexes mutexId
  if (mutexes m).id ≠ mutexId then (mutexes, -1)
  else if me ≠ (mutexes m).tid then (mutexes, -1)
  else if (mutexes m).locked = 0 then (mutexes, -1)
  else (Function.update mutexes m { mutexes m with locked := 0 }, 0)

end Xv6.Mutex

namespace Xv6.Tournament

open Xv6.Mutex

def Tree.leaves : Tree → List TreeNode
  | .leaf node => [node]
  | .inner _ left right => left.leaves ++ right.leaves

structure Freed where
  mutexes : Slots
  freed : List ℕ

def Freed.free (s : Freed) (addr : ℕ) : Freed := { s with freed := addr :: s.freed }

def Freed.freeNode (s : Freed) (node : TreeNode) : Freed :=
  (if node.lockPath ≠ 0 then s.free node.lockPath else s).free node.addr

def deleteNode : Tree → Freed → Freed × ℤ
  | .leaf node, s =>
    let (mutexes, result) := kthreadMutexDealloc s.mutexes node.mutexId
    if result = -1 then (s, -1)
    else (Freed.freeNode { s with mutexes := mutexes } node, 0)
  | .inner node left right, s =>
    let (mutexes, result) := kthreadMutexDealloc s.mutexes node.mutexId
    if result = -1 then (s, -1)
    else
      let (s, _) := deleteNode left { s with mutexes := mutexes }
      let (s, _) := deleteNode right s
      (s.freeNode node, 0)

def trnmntTreeDealloc (tree : TrnmntTree) (mutexes : Slots) : Freed × ℤ :=
  let (s, result) := deleteNode tree.root ⟨mutexes, []⟩
  if result = 0 then (s.free tree.addr, 0) else (s, -1)

structure Locks where
  mutexes : Slots
  lockPath : ℕ → ℤ → ℤ

@[simps]
def Locks.setPath (s : Locks) (path : ℕ) (i value : ℤ) : Locks :=
  { s with lockPath := Function.update s.lockPath path (Function.update (s.lockPath path) i value) }

/-- The loop of `trnmnt_tree_acquire`; `none` when the thread goes to sleep. A round that returns 0 goes up by
one node, so the fuel `tree.nodes.length` is enough. -/
def climbFrom (tree : Tree) (me : ℤ) (leaf : TreeNode) : ℕ → TreeNode → Locks → Option (Locks × ℤ)
  | 0, _, _ => none
  | fuel + 1, curNode, s =>
    if curNode.parent = 0 then some (s, 0)
    else
      (tree.nodeAt curNode.parent).bind fun parent =>
        (kthreadMutexLock s.mutexes me parent.mutexId).bind fun (mutexes, mutexLock) =>
          let s := Locks.setPath { s with mutexes := mutexes } leaf.lockPath parent.level parent.mutexId
          if mutexLock = -1 then some (s, -1)
          else if mutexLock = 0 then climbFrom tree me leaf fuel parent s
          else climbFrom tree me leaf fuel curNode s

def trnmntTreeAcquire (tree : TrnmntTree) (me id : ℤ) (s : Locks) : Option (Locks × ℤ) :=
  (findLeaf id tree.root).bind fun leaf => climbFrom tree.root me leaf tree.root.nodes.length leaf s

/-- How a release ends: `read` are the indices of `lockPath` that it used. -/
structure Released where
  locks : Locks
  value : ℤ
  read : List ℕ

def unlockFrom (me : ℤ) (leaf : TreeNode) : ℕ → Locks → List ℕ → Released
  | 0, s, read => ⟨s, 0, read⟩
  | i + 1, s, read =>
    let (mutexes, res) := kthreadMutexUnlock s.mutexes me (s.lockPath leaf.lockPath i)
    if res = -1 then ⟨{ s with mutexes := mutexes }, -1, i :: read⟩
    else unlockFrom me leaf i (Locks.setPath { s with mutexes := mutexes } leaf.lockPath i 0) (i :: read)

def trnmntTreeRelease (treeDepth : ℤ) (tree : TrnmntTree) (me id : ℤ) (s : Locks) : Option Released :=
  (findLeaf id tree.root).map fun leaf => unlockFrom me leaf treeDepth.toNat s []

def trnmntTreeAllocs (h : Memory) : List ℤ → List TrnmntTree × Memory
  | [] => ([], h)
  | depth :: depths =>
    match trnmntTreeAlloc h depth with
    | none => trnmntTreeAllocs h depths
    | some (tree, h) => (tree :: (trnmntTreeAllocs h depths).1, (trnmntTreeAllocs h depths).2)

end Xv6.Tournament
