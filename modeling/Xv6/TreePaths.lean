import Mathlib.Algebra.Group.Int.Defs
import Mathlib.Algebra.Group.Nat.Defs
import Mathlib.Data.List.Nodup
import Xv6.TreeCalls
import Xv6.TreeShape

namespace Xv6.Tournament

def Tree.Shaped : Tree → ℕ → ℕ → Prop
  | .leaf node, parent, 0 => node.parent = parent ∧ node.level = -1
  | .inner node left right, parent, k + 1 =>
    node.parent = parent ∧ node.level = k ∧ left.Shaped node.addr k ∧ right.Shaped node.addr k
  | _, _, _ => False

theorem createTree_shaped (h : Memory) (addr parent d : ℕ) :
    (createTree h addr parent (d + 1)).1.Shaped parent d ∧
    (createTree h addr parent (d + 1)).1.node.addr = addr := by
  induction d generalizing h addr parent with
  | zero =>
    rw [createTree_leaf]
    exact ⟨⟨rfl, rfl⟩, rfl⟩
  | succ d ih =>
    rw [createTree_inner]
    have hlevel : ((d + 2 : ℕ) : ℤ) - 2 = d := by omega
    refine ⟨⟨rfl, hlevel, (ih _ _ _).1, (ih _ _ _).1⟩, rfl⟩

def Tree.blocks : Tree → List ℕ
  | .leaf node => [node.addr, node.lockPath]
  | .inner node left right => node.addr :: (left.blocks ++ right.blocks)

theorem createTree_blocks (h : Memory) (addr parent d : ℕ) (ha : addr < h.fresh) :
    (createTree h addr parent (d + 1)).1.blocks.Nodup ∧
    ∀ b ∈ (createTree h addr parent (d + 1)).1.blocks,
      b = addr ∨ h.fresh ≤ b ∧ b < (createTree h addr parent (d + 1)).2.fresh := by
  induction d generalizing h addr parent with
  | zero =>
    rw [createTree_leaf]
    simp only [Tree.blocks, Memory.nodeData, List.nodup_cons, List.mem_cons, List.not_mem_nil, or_false]
    exact ⟨⟨by omega, by simp⟩, by omega⟩
  | succ d ih =>
    have hopen : (h.openNode (d + 2)).mutexAlloc.2.fresh = h.fresh + 2 := rfl
    obtain ⟨hl, hlb⟩ := ih (h.openNode (d + 2)).mutexAlloc.2 h.fresh addr (by omega)
    have hgrow := createTree_fresh (h.openNode (d + 2)).mutexAlloc.2 h.fresh addr d
    obtain ⟨hr, hrb⟩ := ih (createTree (h.openNode (d + 2)).mutexAlloc.2 h.fresh addr (d + 1)).2 (h.fresh + 1) addr
      (by omega)
    have hend := createTree_fresh (createTree (h.openNode (d + 2)).mutexAlloc.2 h.fresh addr
      (d + 1)).2 (h.fresh + 1) addr d
    rw [createTree_inner]
    simp only [Tree.blocks]
    generalize createTree (h.openNode (d + 2)).mutexAlloc.2 h.fresh addr (d + 1) = left at *
    generalize createTree left.2 (h.fresh + 1) addr (d + 1) = right at *
    refine ⟨List.nodup_cons.mpr ⟨fun hmem => ?_, List.nodup_append'.mpr ⟨hl, hr, fun b hbl hbr => ?_⟩⟩,
      fun b hb => ?_⟩
    · obtain hb | hb := List.mem_append.mp hmem
      · have := hlb _ hb
        simp only [Memory.nodeData] at this
        omega
      · have := hrb _ hb
        simp only [Memory.nodeData] at this
        omega
    · have h1 := hlb b hbl
      have h2 := hrb b hbr
      omega
    · obtain rfl | hb := List.mem_cons.mp hb
      · exact .inl rfl
      · obtain hb | hb := List.mem_append.mp hb
        · have := hlb b hb
          omega
        · have := hrb b hb
          omega

def Tree.path (id : ℤ) : Tree → Option (TreeNode × List TreeNode)
  | .leaf node => if id = node.index then some (node, []) else none
  | .inner node left right => ((left.path id).or (right.path id)).map fun below => (below.1, below.2 ++ [node])

theorem path_findLeaf (id : ℤ) (tree : Tree) : findLeaf id tree = (tree.path id).map Prod.fst := by
  induction tree with
  | leaf node =>
    unfold findLeaf Tree.path
    split_ifs <;> rfl
  | inner node left right ihl ihr =>
    rw [findLeaf, ihl, ihr, Tree.path]
    cases left.path id <;> cases right.path id <;> rfl

def Links : TreeNode → List TreeNode → ℕ → Prop
  | node, [], top => node.parent = top
  | node, next :: above, top => node.parent = next.addr ∧ Links next above top

variable {above : List TreeNode} {id : ℤ} {tree : Tree} {depth k parent : ℕ} {leaf n : TreeNode}
  {h h' : Memory} {t : TrnmntTree}

theorem Links.append {node last : TreeNode} (h : Links node above last.addr) :
    Links node (above ++ [last]) last.parent := by
  induction above generalizing node with
  | nil => exact ⟨h, rfl⟩
  | cons next above ih => exact ⟨h.1, ih h.2⟩

structure Rises (tree : Tree) (parent k : ℕ) (leaf : TreeNode) (above : List TreeNode) : Prop where
  links : Links leaf above parent
  levels : above.map TreeNode.level = (List.range k).map Nat.cast
  inners : ∀ n ∈ above, n ∈ tree.inners
  leaf : leaf ∈ tree.leaves

theorem path_rises
    (hs : tree.Shaped parent k) (h : tree.path id = some (leaf, above)) :
    Rises tree parent k leaf above ∧ leaf.index = id := by
  induction tree generalizing parent k above with
  | leaf node =>
    cases k with
    | zero =>
      simp only [Tree.path, Option.ite_none_right_eq_some, Option.some.injEq, Prod.mk.injEq] at h
      obtain ⟨hid, rfl, rfl⟩ := h
      exact ⟨⟨hs.1, rfl, nofun, List.mem_singleton_self _⟩, hid.symm⟩
    | succ k => exact hs.elim
  | inner node left right ihl ihr =>
    cases k with
    | zero => exact hs.elim
    | succ k =>
      obtain ⟨hparent, hlevel, hl, hr⟩ := hs
      obtain ⟨⟨leaf', below⟩, hbelow, heq⟩ := Option.map_eq_some_iff.mp h
      obtain ⟨rfl, rfl⟩ := Prod.mk.inj heq
      have hup {sub : Tree} (hsub : Rises sub node.addr k leaf' below) (hin : ∀ n ∈ sub.inners,
        n ∈ left.inners ++ right.inners)
          (hlf : ∀ n ∈ sub.leaves, n ∈ left.leaves ++ right.leaves) :
          Rises (.inner node left right) parent (k + 1) leaf' (below ++ [node]) := by
        refine ⟨hparent ▸ hsub.links.append, ?_, fun n hn => ?_, hlf _ hsub.leaf⟩
        · rw [List.map_append, hsub.levels, List.range_succ, List.map_append,
            List.map_singleton, List.map_singleton, hlevel]
        · obtain hn | hn := List.mem_append.mp hn
          · exact List.mem_cons_of_mem _ (hin n (hsub.inners n hn))
          · rw [List.mem_singleton.mp hn]
            exact List.mem_cons_self
      obtain hp | ⟨_, hp⟩ := Option.or_eq_some_iff.mp hbelow
      · obtain ⟨hrise, hid⟩ := ihl hl hp
        exact ⟨hup hrise (fun n => List.mem_append_left _) (fun n => List.mem_append_left _), hid⟩
      · obtain ⟨hrise, hid⟩ := ihr hr hp
        exact ⟨hup hrise (fun n => List.mem_append_right _) (fun n => List.mem_append_right _), hid⟩

theorem Rises.length
    (h : Rises tree parent k leaf above) : above.length = k := by
  have hlen := congrArg List.length h.levels
  simpa using hlen

theorem Rises.level {i : ℕ}
    (h : Rises tree parent k leaf above) (hi : i < above.length) : above[i].level = i := by
  have hk := h.length
  have hget : (above.map TreeNode.level)[i]? = ((List.range k).map Nat.cast)[i]? := by rw [h.levels]
  rw [List.getElem?_map, List.getElem?_map, List.getElem?_eq_getElem hi, List.getElem?_range (by omega)] at hget
  simpa using hget

structure Laid (tree : Tree) (depth : ℕ) : Prop where
  shaped : tree.Shaped 0 depth
  blocks : tree.blocks.Nodup
  nonzero : ∀ b ∈ tree.blocks, b ≠ 0

theorem addrs_blocks (tree : Tree) : (tree.nodes.map TreeNode.addr).Sublist tree.blocks := by
  induction tree with
  | leaf node => exact List.Sublist.cons_cons _ (List.nil_sublist _)
  | inner node left right ihl ihr =>
    rw [Tree.nodes, List.map_cons, List.map_append]
    exact List.Sublist.cons_cons _ (List.Sublist.append ihl ihr)

theorem inners_nodes (h : n ∈ tree.inners) : n ∈ tree.nodes := by
  induction tree with
  | leaf node => cases h
  | inner node left right ihl ihr =>
    simp only [Tree.inners, Tree.nodes, List.mem_cons, List.mem_append] at h ⊢
    exact h.imp_right (Or.imp ihl ihr)

theorem Laid.addr_ne_zero (h : Laid tree depth) (hn : n ∈ tree.inners) :
    n.addr ≠ 0 :=
  h.nonzero _ ((addrs_blocks tree).subset (List.mem_map_of_mem (inners_nodes hn)))

theorem Laid.nodeAt (h : Laid tree depth) (hn : n ∈ tree.inners) :
    tree.nodeAt n.addr = some n := by
  have hnodup := (addrs_blocks tree).nodup h.blocks
  have hmem := inners_nodes hn
  unfold Tree.nodeAt
  generalize tree.nodes = nodes at hnodup hmem
  induction nodes with
  | nil => cases hmem
  | cons m nodes ih =>
    rw [List.map_cons, List.nodup_cons] at hnodup
    obtain rfl | hmem := List.mem_cons.mp hmem
    · simp
    · have hne : m.addr ≠ n.addr := fun heq => hnodup.1 (heq ▸ List.mem_map_of_mem hmem)
      rw [List.find?_cons_of_neg (by simpa using hne)]
      exact ih hnodup.2 hmem

theorem createTree_treeDepth (h : Memory) (addr parent d : ℕ) :
    (createTree h addr parent (d + 1)).2.treeDepth = h.treeDepth := by
  have hopen (h : Memory) (depth : ℕ) : (h.openNode depth).treeDepth = h.treeDepth := by
    unfold Memory.openNode Memory.countNode Memory.enterLevel
    split_ifs <;> rfl
  induction d generalizing h addr parent with
  | zero =>
    rw [createTree_leaf]
    exact hopen h 1
  | succ d ih =>
    rw [createTree_inner]
    simp only
    rw [ih, ih]
    exact hopen h (d + 2)

theorem trnmntTreeAlloc_laid {depth : ℤ}
    (halloc : trnmntTreeAlloc h depth = some (t, h')) :
    Laid t.root t.depth.toNat ∧ t.depth = depth ∧ 1 ≤ depth ∧ h'.treeDepth = depth := by
  simp only [trnmntTreeAlloc, Option.ite_none_left_eq_some, Option.some.injEq, Prod.mk.injEq] at halloc
  obtain ⟨hd, rfl, rfl⟩ := halloc
  have hfresh : h.malloc.2.malloc.1 < h.malloc.2.malloc.2.fresh := Nat.lt_succ_self _
  obtain ⟨hnodup, hrange⟩ := createTree_blocks
    { h.malloc.2.malloc.2 with treeDepth := depth, levelIndex := fun _ => 0 }
    h.malloc.2.malloc.1 0 depth.toNat hfresh
  refine ⟨⟨(createTree_shaped _ _ _ _).1, hnodup, fun b hb => ?_⟩, rfl, by omega, createTree_treeDepth _ _ _ _⟩
  have hb := hrange b hb
  simp only [Memory.malloc] at hb
  omega

def Memory.Counts (h : Memory) : Prop := h.curLevel = -1 → h.index = h.levelIndex 0

theorem openNode_counts (h : Memory) (d : ℕ) :
    (h.openNode (d + 2)).mutexAlloc.2.Counts ∧
    (h.openNode (d + 2)).mutexAlloc.2.levelIndex 0 = h.levelIndex 0 := by
  have hlevel : (h.openNode (d + 2)).mutexAlloc.2.curLevel = d := by
    have hcur := (enterLevel_fields h (d + 2)).2.2.2
    have hd : ((d + 2 : ℕ) : ℤ) - 2 = d := by omega
    exact hcur.trans hd
  refine ⟨fun h => by omega, ?_⟩
  have hkeep : (h.enterLevel (d + 2)).levelIndex = h.levelIndex := by
    unfold Memory.enterLevel
    split_ifs <;> rfl
  simp [Memory.mutexAlloc, Memory.openNode, Memory.countNode, hkeep]

theorem createTree_indices (h : Memory) (addr parent d : ℕ) (hc : d = 0 → h.Counts) :
    (createTree h addr parent (d + 1)).1.leaves.map TreeNode.index =
      (List.range (2 ^ d)).map (fun i : ℕ => h.levelIndex 0 + i) ∧
    (createTree h addr parent (d + 1)).2.Counts ∧
    (createTree h addr parent (d + 1)).2.levelIndex 0 = h.levelIndex 0 + (2 ^ d : ℕ) := by
  induction d generalizing h addr parent with
  | zero =>
    have hindex : (h.enterLevel 1).index = h.levelIndex 0 := by
      unfold Memory.enterLevel
      split_ifs with hl
      · rfl
      · exact hc rfl (not_not.mp hl)
    rw [createTree_leaf]
    simp [Tree.leaves, Memory.nodeData, Memory.openNode, Memory.countNode, Memory.Counts, hindex]
  | succ d ih =>
    obtain ⟨hcount, hstart⟩ := openNode_counts h d
    obtain ⟨hleft, hcl, hnl⟩ := ih _ h.fresh addr fun _ => hcount
    obtain ⟨hright, hcr, hnr⟩ := ih _ (h.fresh + 1) addr fun _ => hcl
    rw [createTree_inner]
    refine ⟨?_, hcr, ?_⟩
    · simp only [Tree.leaves, List.map_append]
      rw [hleft, hright, hnl, hstart, Nat.pow_succ, Nat.mul_two, List.range_add, List.map_append, List.map_map]
      congr 1
      apply List.map_congr_left
      intro i _
      simp only [Function.comp_apply, Int.natCast_add]
      omega
    · simp only
      rw [hnr, hnl, hstart, Nat.pow_succ, Nat.mul_two, Int.natCast_add]
      omega

theorem trnmntTreeAlloc_indices {depth : ℤ}
    (halloc : trnmntTreeAlloc h depth = some (t, h')) :
    t.root.leaves.map TreeNode.index = (List.range (2 ^ depth.toNat)).map Nat.cast := by
  simp only [trnmntTreeAlloc, Option.ite_none_left_eq_some, Option.some.injEq, Prod.mk.injEq] at halloc
  obtain ⟨hd, rfl, rfl⟩ := halloc
  have hindices := (createTree_indices { h.malloc.2.malloc.2 with treeDepth := depth, levelIndex := fun _ => 0 }
    h.malloc.2.malloc.1 0 depth.toNat (by omega)).1
  simpa using hindices

theorem path_isSome (h : id ∈ tree.leaves.map TreeNode.index) : (tree.path id).isSome := by
  induction tree with
  | leaf node =>
    have hid : id = node.index := List.mem_singleton.mp h
    rw [Tree.path, if_pos hid]
    rfl
  | inner node left right ihl ihr =>
    rw [Tree.leaves, List.map_append, List.mem_append] at h
    rw [Tree.path, Option.isSome_map, Option.isSome_or, Bool.or_eq_true]
    exact h.imp ihl ihr

theorem Laid.findLeaf_none (h : Laid tree depth)
    (hindices : tree.leaves.map TreeNode.index = (List.range (2 ^ depth)).map Nat.cast) :
    findLeaf id tree = none ↔ ¬(0 ≤ id ∧ id < 2 ^ depth) := by
  have hpow : ((2 ^ depth : ℕ) : ℤ) = 2 ^ depth := Int.natCast_pow 2 _
  rw [path_findLeaf, Option.map_eq_none_iff]
  constructor
  · rintro hnone ⟨hlow, hhigh⟩
    have hmem : id ∈ tree.leaves.map TreeNode.index := by
      rw [hindices]
      refine List.mem_map.mpr ⟨id.toNat, List.mem_range.mpr ?_, Int.toNat_of_nonneg hlow⟩
      omega
    have hsome := path_isSome hmem
    rw [hnone] at hsome
    cases hsome
  · intro hout
    by_contra hsome
    obtain ⟨⟨leaf, above⟩, hpath⟩ := Option.ne_none_iff_exists'.mp hsome
    obtain ⟨hrise, hindex⟩ := path_rises h.shaped hpath
    have hmem : leaf.index ∈ tree.leaves.map TreeNode.index := List.mem_map_of_mem hrise.leaf
    rw [hindices] at hmem
    obtain ⟨i, hi, heq⟩ := List.mem_map.mp hmem
    rw [List.mem_range] at hi
    apply hout
    omega

end Xv6.Tournament
