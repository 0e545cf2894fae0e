import Xv6.MutexTable

namespace Xv6.Tournament

open Xv6.Mutex (Slots kthreadMutexAlloc)

structure TreeNode where
  addr : ℕ
  parent : ℕ
  mutexId : ℤ
  index : ℤ
  level : ℤ
  lockPath : ℕ
  deriving DecidableEq, Repr

inductive Tree where
  | leaf (node : TreeNode)
  | inner (node : TreeNode) (left right : Tree)
  deriving DecidableEq, Repr

def Tree.node : Tree → TreeNode
  | .leaf node => node
  | .inner node _ _ => node

def Tree.nodes : Tree → List TreeNode
  | .leaf node => [node]
  | .inner node left right => node :: (left.nodes ++ right.nodes)

def Tree.inners : Tree → List TreeNode
  | .leaf _ => []
  | .inner node left right => node :: (left.inners ++ right.inners)

/-- The globals of `tree.c` and the part of the heap and of the mutex table that building a tree uses;
`junk` is what `malloc` leaves in a block. -/
structure Memory where
  fresh : ℕ
  junk : ℕ → TreeNode
  treeDepth : ℤ
  index : ℤ
  curLevel : ℤ
  levelIndex : ℕ → ℤ
  mutexes : Slots

def Memory.malloc (h : Memory) : ℕ × Memory := (h.fresh, { h with fresh := h.fresh + 1 })

def Memory.enterLevel (h : Memory) (depth : ℕ) : Memory :=
  if h.curLevel ≠ (depth : ℤ) - 2 then
    { h with index := h.levelIndex (depth - 1), curLevel := (depth : ℤ) - 2 }
  else h

def Memory.countNode (h : Memory) (depth : ℕ) : Memory :=
  { h with index := h.index + 1, levelIndex := Function.update h.levelIndex (depth - 1) (h.index + 1) }

def Memory.mutexAlloc (h : Memory) : ℤ × Memory :=
  let result := kthreadMutexAlloc h.mutexes
  (result.2, { h with mutexes := result.1 })

def createTree (h : Memory) (addr parent : ℕ) : ℕ → Tree × Memory
  | 0 => (.leaf { h.junk addr with addr := addr, parent := parent }, h)
  | depth + 1 =>
    let h := h.enterLevel (depth + 1)
    let node := { h.junk addr with addr := addr, parent := parent, level := h.curLevel, index := h.index }
    let h := h.countNode (depth + 1)
    if depth = 0 then
      let (path, h) := h.malloc
      (.leaf { node with lockPath := path }, h)
    else
      let (left, h) := h.malloc
      let (right, h) := h.malloc
      let (mutexId, h) := h.mutexAlloc
      let (leftTree, h) := createTree h left addr depth
      let (rightTree, h) := createTree h right addr depth
      (.inner { node with mutexId := mutexId } leftTree rightTree, h)

structure TrnmntTree where
  addr : ℕ
  root : Tree
  depth : ℤ

def trnmntTreeAlloc (h : Memory) (depth : ℤ) : Option (TrnmntTree × Memory) :=
  if depth < 1 then none
  else
    let (tree, h) := h.malloc
    let (root, h) := h.malloc
    let (rootTree, h) := createTree { h with treeDepth := depth, levelIndex := fun _ => 0 } root 0
      (depth.toNat + 1)
    some (⟨tree, rootTree, depth⟩, h)

def findLeaf (id : ℤ) : Tree → Option TreeNode
  | .leaf node => if id = node.index then some node else none
  | .inner _ left right =>
    match findLeaf id left, findLeaf id right with
    | some leaf1, _ => some leaf1
    | none, leaf2 => leaf2

def Tree.nodeAt (tree : Tree) (addr : ℕ) : Option TreeNode := tree.nodes.find? (fun node => node.addr = addr)

def emptyHeap : Memory := ⟨1, fun _ => ⟨0, 0, 0, 0, 0, 0⟩, 0, 0, -2, fun _ => 0, fun _ => Mutex.cleared⟩

def smallTree : TrnmntTree × Memory := (trnmntTreeAlloc emptyHeap 1).get rfl

def twoLevels : TrnmntTree × Memory := (trnmntTreeAlloc emptyHeap 2).get rfl

end Xv6.Tournament
