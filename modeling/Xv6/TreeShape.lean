import Xv6.MutexNames
import Xv6.TournamentTree

namespace Xv6.Tournament

open Xv6.Mutex (Named MAX_MUTEXES allocated allocated_used kthreadMutexAlloc kthreadMutexAlloc_keeps
  kthreadMutexAlloc_spec named_alloc)

def Memory.openNode (h : Memory) (depth : ℕ) : Memory :=
  { (h.enterLevel depth).countNode depth with fresh := h.fresh + 2 }

def Memory.nodeData (h : Memory) (addr parent depth : ℕ) : TreeNode :=
  { h.junk addr with
    addr := addr, parent := parent, level := (depth : ℤ) - 2, index := (h.enterLevel depth).index }

theorem enterLevel_fields (h : Memory) (depth : ℕ) :
    (h.enterLevel depth).fresh = h.fresh ∧ (h.enterLevel depth).junk = h.junk ∧
      (h.enterLevel depth).mutexes = h.mutexes ∧ (h.enterLevel depth).curLevel = (depth : ℤ) - 2 := by
  unfold Memory.enterLevel
  split_ifs with hc
  · exact ⟨rfl, rfl, rfl, rfl⟩
  · exact ⟨rfl, rfl, rfl, not_not.mp hc⟩

theorem openNode_mutexes (h : Memory) (depth : ℕ) : (h.openNode depth).mutexes = h.mutexes :=
  (enterLevel_fields h depth).2.2.1

theorem createTree_leaf (h : Memory) (addr parent : ℕ) :
    createTree h addr parent 1 = (.leaf { h.nodeData addr parent 1 with lockPath := h.fresh },
      { h.openNode 1 with fresh := h.fresh + 1 }) := by
  obtain ⟨hf, hj, _, hl⟩ := enterLevel_fields h 1
  simp only [createTree, Memory.malloc, Memory.openNode, Memory.nodeData,
    Memory.countNode, Nat.zero_add, ↓reduceIte, hf, hj, hl]

theorem createTree_inner (h : Memory) (addr parent d : ℕ) :
    createTree h addr parent (d + 2) =
      let alloc := (h.openNode (d + 2)).mutexAlloc
      let left := createTree alloc.2 h.fresh addr (d + 1)
      let right := createTree left.2 (h.fresh + 1) addr (d + 1)
      (.inner { h.nodeData addr parent (d + 2) with mutexId := alloc.1 } left.1 right.1, right.2) := by
  obtain ⟨hf, hj, _, hl⟩ := enterLevel_fields h (d + 2)
  rw [createTree]
  simp only [Memory.malloc, Memory.openNode, Memory.nodeData, Memory.countNode,
    Nat.add_eq_zero_iff, Nat.one_ne_zero, and_false, ↓reduceIte, hf, hj, hl]

theorem createTree_fresh (h : Memory) (addr parent d : ℕ) :
    h.fresh ≤ (createTree h addr parent (d + 1)).2.fresh := by
  induction d generalizing h addr parent with
  | zero =>
    rw [createTree_leaf]
    exact Nat.le_succ _
  | succ d ih =>
    rw [createTree_inner]
    have hleft := ih (h.openNode (d + 2)).mutexAlloc.2 h.fresh addr
    have hright := ih (createTree (h.openNode (d + 2)).mutexAlloc.2 h.fresh addr (d + 1)).2 (h.fresh + 1) addr
    have hopen : (h.openNode (d + 2)).mutexAlloc.2.fresh = h.fresh + 2 := rfl
    simp only
    omega

theorem createTree_parent (h : Memory) (addr parent d : ℕ) (ha : addr ≠ 0) (hf : h.fresh ≠ 0) (hp : parent ≠ 0) :
    ∀ n ∈ (createTree h addr parent (d + 1)).1.nodes, n.parent ≠ 0 := by
  induction d generalizing h addr parent with
  | zero => simpa [createTree_leaf, Tree.nodes, Memory.nodeData] using hp
  | succ d ih =>
    rw [createTree_inner]
    intro n hn
    simp only [Tree.nodes, List.mem_cons, List.mem_append] at hn
    obtain rfl | hn | hn := hn
    · exact hp
    · exact ih _ _ _ hf (Nat.succ_ne_zero _) ha n hn
    · refine ih _ _ _ (Nat.succ_ne_zero _) ?_ ha n hn
      have hgrow := createTree_fresh (h.openNode (d + 2)).mutexAlloc.2 h.fresh addr d
      have hopen : (h.openNode (d + 2)).mutexAlloc.2.fresh = h.fresh + 2 := rfl
      omega

theorem createTree_keeps (h : Memory) (addr parent d k : ℕ) (hu : (h.mutexes k).used ≠ 0) :
    (createTree h addr parent (d + 1)).2.mutexes k = h.mutexes k := by
  induction d generalizing h addr parent with
  | zero =>
    rw [createTree_leaf]
    exact congrFun (openNode_mutexes h 1) k
  | succ d ih =>
    have halloc : (h.openNode (d + 2)).mutexAlloc.2.mutexes k = h.mutexes k := by
      simp only [Memory.mutexAlloc, openNode_mutexes]
      exact kthreadMutexAlloc_keeps h.mutexes hu
    have hleft := ih (h.openNode (d + 2)).mutexAlloc.2 h.fresh addr (by rwa [halloc])
    rw [createTree_inner]
    simp only
    rw [ih _ _ _ (by rwa [hleft, halloc]), hleft, halloc]

theorem createTree_named (h : Memory) (addr parent d : ℕ) (hn : Named h.mutexes) :
    Named (createTree h addr parent (d + 1)).2.mutexes := by
  induction d generalizing h addr parent with
  | zero =>
    rw [createTree_leaf]
    simpa only [openNode_mutexes] using hn
  | succ d ih =>
    rw [createTree_inner]
    apply ih
    apply ih
    simpa only [Memory.mutexAlloc, openNode_mutexes] using named_alloc hn

structure Built (tree : Tree) (mutexes : Xv6.Mutex.Slots) (root : ℕ) : Prop where
  rootOnly : ∀ n ∈ tree.nodes, n.parent = 0 → n = tree.node
  leafChild : ∀ id n, findLeaf id tree = some n → n.parent ≠ 0
  mutexId : tree.node.mutexId = root
  slot : root < MAX_MUTEXES ∧ mutexes root = allocated root
  named : Named mutexes

variable {id : ℤ} {n : TreeNode} {tree : Tree}

theorem findLeaf_inner {node : TreeNode} {left right : Tree}
    (h : findLeaf id (.inner node left right) = some n) : findLeaf id left = some n ∨
    findLeaf id right = some n := by
  simp only [findLeaf] at h
  split at h
  · rename_i hl
    exact .inl (hl.trans h)
  · exact .inr h

theorem findLeaf_mem (h : findLeaf id tree = some n) : n ∈ tree.nodes := by
  induction tree with
  | leaf node =>
    simp only [findLeaf, Option.ite_none_right_eq_some, Option.some.injEq] at h
    simp [Tree.nodes, h.2]
  | inner node left right ihl ihr =>
    simp only [Tree.nodes, List.mem_cons, List.mem_append]
    obtain hl | hr := findLeaf_inner h
    · exact .inr (.inl (ihl hl))
    · exact .inr (.inr (ihr hr))

theorem nodeAt_mem {addr : ℕ} (h : tree.nodeAt addr = some n) : n ∈ tree.nodes :=
  List.mem_of_find?_eq_some h

theorem createTree_built (h : Memory) (addr d : ℕ) (ha : addr ≠ 0) (hf : h.fresh ≠ 0) (hn : Named h.mutexes)
    (hall : ∀ n ∈ (createTree h addr 0 (d + 2)).1.inners, n.mutexId ≠ -1) :
    ∃ root, Built (createTree h addr 0 (d + 2)).1 (createTree h addr 0 (d + 2)).2.mutexes root := by
  have hnamed := createTree_named h addr 0 (d + 1) hn
  simp only [createTree_inner] at hall hnamed ⊢
  let opened := h.openNode (d + 2)
  let left := createTree opened.mutexAlloc.2 h.fresh addr (d + 1)
  have hchild (n : TreeNode) (hc : n ∈ left.1.nodes ∨ n ∈ (createTree left.2 (h.fresh + 1) addr (d + 1)).1.nodes) :
      n.parent ≠ 0 := by
    obtain hc | hc := hc
    · exact createTree_parent _ _ _ d hf (Nat.succ_ne_zero _) ha n hc
    · have hgrow : h.fresh + 2 ≤ left.2.fresh := createTree_fresh opened.mutexAlloc.2 h.fresh addr d
      exact createTree_parent _ _ _ d (Nat.succ_ne_zero _) (by omega) ha n hc
  obtain ⟨i, hi, _, hid, hm⟩ := kthreadMutexAlloc_spec opened.mutexes
    (hall _ List.mem_cons_self)
  have hslot : opened.mutexAlloc.2.mutexes i = allocated i := by
    change (kthreadMutexAlloc opened.mutexes).1 i = allocated i
    rw [hm, Function.update_self]
  have hleft : left.2.mutexes i = allocated i :=
    (createTree_keeps _ _ _ d i (by rw [hslot]; exact allocated_used i)).trans hslot
  refine ⟨i, ?_, ?_, hid, ⟨hi, ?_⟩, hnamed⟩
  · intro n hmem hp
    simp only [Tree.nodes, List.mem_cons, List.mem_append] at hmem
    obtain rfl | hc := hmem
    · rfl
    · exact absurd hp (hchild n hc)
  · intro id n hfind
    exact hchild n ((findLeaf_inner hfind).imp findLeaf_mem findLeaf_mem)
  · exact (createTree_keeps _ _ _ d i (by rw [hleft]; exact allocated_used i)).trans hleft

theorem trnmntTreeAlloc_built {h h' : Memory} {depth : ℤ} {t : TrnmntTree} (hn : Named h.mutexes)
    (halloc : trnmntTreeAlloc h depth = some (t, h')) (hall : ∀ n ∈ t.root.inners, n.mutexId ≠ -1) :
    ∃ root, Built t.root h'.mutexes root := by
  simp only [trnmntTreeAlloc, Option.ite_none_left_eq_some, Option.some.injEq, Prod.mk.injEq] at halloc
  obtain ⟨hd, rfl, rfl⟩ := halloc
  obtain ⟨d, hd'⟩ : ∃ d, depth.toNat = d + 1 := ⟨depth.toNat - 1, by omega⟩
  rw [hd'] at hall ⊢
  exact createTree_built _ _ d (Nat.succ_ne_zero _) (Nat.succ_ne_zero _) hn hall

end Xv6.Tournament
