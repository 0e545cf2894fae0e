import Xv6.Counting
import Xv6.TreePaths

namespace Xv6.Mutex

open Xv6.Counting

def usedBit (mutex : KthreadMutex) : ℕ := if mutex.used = 0 then 0 else 1

def usedCount (mutexes : Slots) : ℕ := ∑ k ∈ Finset.range MAX_MUTEXES, usedBit (mutexes k)

theorem searchId_le (mutexes : Slots) (mutexId : ℤ) : searchId mutexes mutexId ≤ MAX_MUTEXES := by
  unfold searchId
  cases h : (List.range MAX_MUTEXES).find? (fun i => (mutexes i).id = mutexId) with
  | none => exact Nat.le_refl _
  | some i => exact Nat.le_of_lt (List.mem_range.mp (List.mem_of_find?_eq_some h))

theorem kthreadMutexDealloc_count (mutexes : Slots) (mutexId : ℤ) :
    (kthreadMutexDealloc mutexes mutexId).2 = -1 ∨
      usedCount (kthreadMutexDealloc mutexes mutexId).1 + 1 = usedCount mutexes := by
  have hle := searchId_le mutexes mutexId
  unfold kthreadMutexDealloc
  simp only
  generalize searchId mutexes mutexId = m at hle ⊢
  split_ifs with hm hl hu
  · exact .inl rfl
  · exact .inl rfl
  · exact .inl rfl
  · right
    have hmem : m ∈ Finset.range MAX_MUTEXES := Finset.mem_range.mpr (by omega)
    have hsum := sum_update usedBit mutexes cleared hmem
    have hbefore : usedBit (mutexes m) = 1 := if_neg hu
    have hafter : usedBit cleared = 0 := rfl
    simp only [usedCount]
    omega

end Xv6.Mutex

namespace Xv6.Tournament

open Xv6.Mutex

theorem freeNode_length (s : Freed) (node : TreeNode) : (s.freeNode node).freed.length ≤ s.freed.length + 2 := by
  unfold Freed.freeNode Freed.free
  split_ifs <;> simp

theorem freeNode_mutexes (s : Freed) (node : TreeNode) : (s.freeNode node).mutexes = s.mutexes := by
  unfold Freed.freeNode Freed.free
  split_ifs <;> rfl

theorem deleteNode_count (tree : Tree) (s : Freed) :
    (deleteNode tree s).1.freed.length + 2 * usedCount (deleteNode tree s).1.mutexes ≤
      s.freed.length + 2 * usedCount s.mutexes := by
  induction tree generalizing s with
  | leaf node =>
    have hcount := kthreadMutexDealloc_count s.mutexes node.mutexId
    unfold deleteNode
    simp only
    generalize kthreadMutexDealloc s.mutexes node.mutexId = result at hcount ⊢
    split_ifs with hr
    · exact Nat.le_refl _
    · have hlen := freeNode_length { s with mutexes := result.1 } node
      have hone := hcount.resolve_left hr
      simp only [freeNode_mutexes] at hlen ⊢
      omega
  | inner node left right ihl ihr =>
    have hcount := kthreadMutexDealloc_count s.mutexes node.mutexId
    unfold deleteNode
    simp only
    generalize kthreadMutexDealloc s.mutexes node.mutexId = result at hcount ⊢
    split_ifs with hr
    · exact Nat.le_refl _
    · have hone := hcount.resolve_left hr
      have hl := ihl { s with mutexes := result.1 }
      have hr := ihr (deleteNode left { s with mutexes := result.1 }).1
      have hlen := freeNode_length (deleteNode right (deleteNode left { s with mutexes := result.1 }).1).1 node
      simp only [freeNode_mutexes] at hl hr hlen ⊢
      omega

theorem leaves_length (tree : Tree) : tree.leaves.length = tree.inners.length + 1 := by
  induction tree with
  | leaf node => rfl
  | inner node left right ihl ihr =>
    simp only [Tree.leaves, Tree.inners, List.length_append, List.length_cons]
    omega

theorem nodes_length (tree : Tree) : tree.nodes.length = 2 * tree.inners.length + 1 := by
  induction tree with
  | leaf node => rfl
  | inner node left right ihl ihr =>
    simp only [Tree.nodes, Tree.inners, List.length_append, List.length_cons]
    omega

structure FreesExactly (tree : TrnmntTree) (mutexes : Slots) (result : Freed × ℤ) : Prop where
  returns : result.2 = 0
  mutexes : ∀ k < MAX_MUTEXES, result.1.mutexes k =
    if ∃ n ∈ tree.root.inners, n.mutexId = k then cleared else mutexes k
  freed : (result.1.freed : Multiset ℕ) =
    ((tree.root.nodes.map TreeNode.addr ++ tree.root.leaves.map TreeNode.lockPath ++
      [tree.addr] : List ℕ) : Multiset ℕ)

theorem FreesExactly.count {tree : TrnmntTree} {mutexes : Slots} {result : Freed × ℤ}
    (h : FreesExactly tree mutexes result) :
    usedCount mutexes ≤ usedCount result.1.mutexes + tree.root.inners.length := by
  have hcard (m : Slots) : usedCount m = ((Finset.range MAX_MUTEXES).filter fun k => (m k).used ≠ 0).card := by
    rw [Finset.card_filter]
    refine Finset.sum_congr rfl fun k _ => ?_
    unfold usedBit
    split_ifs with h1 h2 <;> first | rfl | contradiction
  have hsub : (Finset.range MAX_MUTEXES).filter (fun k => (mutexes k).used ≠ 0) ⊆
      (Finset.range MAX_MUTEXES).filter (fun k => (result.1.mutexes k).used ≠ 0) ∪
        (tree.root.inners.map fun n => n.mutexId.toNat).toFinset := by
    intro k hk
    obtain ⟨hlt, hused⟩ := Finset.mem_filter.mp hk
    have hslot := h.mutexes k (Finset.mem_range.mp hlt)
    rw [Finset.mem_union, Finset.mem_filter, List.mem_toFinset, List.mem_map]
    split_ifs at hslot with hc
    · obtain ⟨n, hn, hid⟩ := hc
      exact .inr ⟨n, hn, by rw [hid]; rfl⟩
    · exact .inl ⟨hlt, by rwa [hslot]⟩
  rw [hcard, hcard]
  have hle := (Finset.card_le_card hsub).trans (Finset.card_union_le _ _)
  have hids := List.toFinset_card_le (tree.root.inners.map fun n => n.mutexId.toNat)
  rw [List.length_map] at hids
  omega

theorem dealloc_never_exact (tree : TrnmntTree) (mutexes : Slots) :
    ¬ FreesExactly tree mutexes (trnmntTreeDealloc tree mutexes) := by
  intro h
  have hcost := h.count
  have hpaid := deleteNode_count tree.root ⟨mutexes, []⟩
  have hfreed := congrArg Multiset.card h.freed
  have hleaves := leaves_length tree.root
  have hnodes := nodes_length tree.root
  have hreturns := h.returns
  simp only [Multiset.coe_card, List.length_append, List.length_map, List.length_singleton] at hfreed
  unfold trnmntTreeDealloc at hcost hfreed hreturns
  simp only at hcost hfreed hreturns
  split_ifs at hcost hfreed hreturns with hr
  · simp only [Freed.free, List.length_cons, List.length_nil] at hcost hfreed hpaid
    omega
  · cases hreturns

def Held (mutexes : Slots) (mutexId : ℤ) : Prop :=
  searchId mutexes mutexId ≠ MAX_MUTEXES ∧ (mutexes (searchId mutexes mutexId)).used ≠ 0 ∧
    (mutexes (searchId mutexes mutexId)).locked = 1

def Busy (tree : Tree) (mutexes : Slots) : Prop := ∃ n ∈ tree.inners, Held mutexes n.mutexId

structure Quiet (tree : Tree) (mutexes later : Slots) : Prop where
  names : ∀ k, (later k).id = (mutexes k).id ∧ (later k).used = (mutexes k).used
  free : ∀ n ∈ tree.inners, (later (searchId later n.mutexId)).locked = 0

structure FailsCleanly (tree : TrnmntTree) (mutexes : Slots) : Prop where
  fails : trnmntTreeDealloc tree mutexes = (⟨mutexes, []⟩, -1)
  later : ∀ later, Quiet tree.root mutexes later → (trnmntTreeDealloc tree later).2 = 0

theorem dealloc_zero_iff (mutexes : Slots) (mutexId : ℤ) :
    (kthreadMutexDealloc mutexes mutexId).2 = 0 ↔ searchId mutexes mutexId ≠ MAX_MUTEXES ∧
      (mutexes (searchId mutexes mutexId)).used ≠ 0 ∧ (mutexes (searchId mutexes mutexId)).locked ≠ 1 := by
  unfold kthreadMutexDealloc
  simp only
  split_ifs with hm hl hu <;> simp [*]

theorem dealloc_value (mutexes : Slots) (mutexId : ℤ) :
    kthreadMutexDealloc mutexes mutexId = (mutexes, -1) ∨ (kthreadMutexDealloc mutexes mutexId).2 = 0 := by
  unfold kthreadMutexDealloc
  simp only
  split_ifs <;> simp

theorem deleteNode_zero (tree : Tree) (s : Freed) (h : (kthreadMutexDealloc s.mutexes tree.node.mutexId).2 = 0) :
    (deleteNode tree s).2 = 0 := by
  have hne : (kthreadMutexDealloc s.mutexes tree.node.mutexId).2 ≠ -1 := by
    rw [h]
    decide
  cases tree with
  | leaf node =>
    simp only [Tree.node] at hne
    simp only [deleteNode, if_neg hne]
  | inner node left right =>
    simp only [Tree.node] at hne
    simp only [deleteNode, if_neg hne]

theorem deleteNode_fails (tree : Tree) (s : Freed)
    (h : kthreadMutexDealloc s.mutexes tree.node.mutexId = (s.mutexes, -1)) : deleteNode tree s = (s, -1) := by
  have heq : (kthreadMutexDealloc s.mutexes tree.node.mutexId).2 = -1 := by rw [h]
  cases tree with
  | leaf node =>
    simp only [Tree.node] at heq
    simp only [deleteNode, if_pos heq]
  | inner node left right =>
    simp only [Tree.node] at heq
    simp only [deleteNode, if_pos heq]

theorem trnmntTreeDealloc_zero (tree : TrnmntTree) (mutexes : Slots)
    (h : (kthreadMutexDealloc mutexes tree.root.node.mutexId).2 = 0) : (trnmntTreeDealloc tree mutexes).2 = 0 := by
  simp only [trnmntTreeDealloc, if_pos (deleteNode_zero tree.root ⟨mutexes, []⟩ h)]

theorem trnmntTreeDealloc_fails (tree : TrnmntTree) (mutexes : Slots)
    (h : kthreadMutexDealloc mutexes tree.root.node.mutexId = (mutexes, -1)) :
    trnmntTreeDealloc tree mutexes = (⟨mutexes, []⟩, -1) := by
  rw [trnmntTreeDealloc, deleteNode_fails tree.root ⟨mutexes, []⟩ h]
  rfl

theorem Quiet.search {tree : Tree} {mutexes later : Slots} (h : Quiet tree mutexes later) (mutexId : ℤ) :
    searchId later mutexId = searchId mutexes mutexId := by
  unfold searchId
  simp only [(h.names _).1]

theorem quiet_unlocked (tree : Tree) (mutexes : Slots) :
    Quiet tree mutexes (fun k => { mutexes k with locked := 0 }) :=
  ⟨fun _ => ⟨rfl, rfl⟩, fun _ _ => rfl⟩

theorem busy_dealloc_fails_cleanly (tree : TrnmntTree) (mutexes : Slots) (hbusy : Busy tree.root mutexes) :
    FailsCleanly tree mutexes ↔ Held mutexes tree.root.node.mutexId := by
  have hroot : tree.root.node ∈ tree.root.inners := by
    obtain ⟨n, hn, _⟩ := hbusy
    cases hr : tree.root with
    | leaf node =>
      rw [hr] at hn
      cases hn
    | inner node left right => exact List.mem_cons_self
  constructor
  · rintro ⟨hfails, hlater⟩
    have hquiet := quiet_unlocked tree.root mutexes
    have hfree := hlater _ hquiet
    have hzero : (kthreadMutexDealloc (fun k => { mutexes k with locked := 0 }) tree.root.node.mutexId).2 = 0 := by
      refine (dealloc_value _ _).resolve_left fun h => ?_
      rw [trnmntTreeDealloc_fails tree _ h] at hfree
      cases hfree
    rw [dealloc_zero_iff, hquiet.search] at hzero
    refine ⟨hzero.1, hzero.2.1, ?_⟩
    by_contra hl
    have hok := trnmntTreeDealloc_zero tree mutexes ((dealloc_zero_iff _ _).mpr ⟨hzero.1, hzero.2.1, hl⟩)
    rw [hfails] at hok
    cases hok
  · rintro ⟨hm, hu, hl⟩
    refine ⟨trnmntTreeDealloc_fails tree mutexes ?_, fun later hq => trnmntTreeDealloc_zero tree later ?_⟩
    · refine (dealloc_value _ _).resolve_right fun h => ?_
      exact ((dealloc_zero_iff _ _).mp h).2.2 hl
    · rw [dealloc_zero_iff, hq.search, (hq.names _).2]
      have hfree := hq.free _ hroot
      rw [hq.search] at hfree
      exact ⟨hm, hu, by rw [hfree]; decide⟩

def topHeld : Slots := ((kthreadMutexLock twoLevels.2.mutexes 3 0).get rfl).1

theorem busy_dealloc_fails_cleanly_topHeld : Busy twoLevels.1.root topHeld ∧ FailsCleanly twoLevels.1 topHeld := by
  have hheld : Held topHeld twoLevels.1.root.node.mutexId := by
    unfold Held
    decide +kernel
  have hbusy : Busy twoLevels.1.root topHeld := ⟨twoLevels.1.root.node, by decide +kernel, hheld⟩
  exact ⟨hbusy, (busy_dealloc_fails_cleanly twoLevels.1 topHeld hbusy).mpr hheld⟩

def litteredHeap : Memory := ⟨1, fun _ => ⟨0, 0, 1, 0, 0, 0⟩, 0, 0, -2, fun _ => 0, fun _ => cleared⟩

def firstTree : TrnmntTree × Memory := (trnmntTreeAlloc litteredHeap 1).get rfl

def secondTree : TrnmntTree × Memory := (trnmntTreeAlloc firstTree.2 1).get rfl

theorem dealloc_takes_other_mutex :
    trnmntTreeAlloc litteredHeap 1 = some firstTree ∧ trnmntTreeAlloc firstTree.2 1 = some secondTree ∧
    (∀ k < MAX_MUTEXES, (secondTree.2.mutexes k).locked = 0) ∧ secondTree.1.root.node.mutexId = 1 ∧
    (trnmntTreeDealloc firstTree.1 secondTree.2.mutexes).2 = 0 ∧
    (secondTree.2.mutexes 1).used = 1 ∧
    ((trnmntTreeDealloc firstTree.1 secondTree.2.mutexes).1.mutexes 1).used = 0 ∧
    ∃ n ∈ firstTree.1.root.leaves, n.addr ∉ (trnmntTreeDealloc firstTree.1 secondTree.2.mutexes).1.freed := by
  refine ⟨(Option.some_get _).symm, (Option.some_get _).symm, ?_⟩
  decide +kernel

def climbing : Slots := ((kthreadMutexLock twoLevels.2.mutexes 3 1).get rfl).1

theorem dealloc_deletes_busy : trnmntTreeAlloc emptyHeap 2 = some twoLevels ∧
    (climbing 1).locked = 1 ∧ (climbing 1).tid = 3 ∧ (∃ n ∈ twoLevels.1.root.inners, n.mutexId = 1) ∧
    (trnmntTreeDealloc twoLevels.1 climbing).2 = 0 ∧
    (climbing 0).used = 1 ∧ ((trnmntTreeDealloc twoLevels.1 climbing).1.mutexes 0).used = 0 ∧
    ((trnmntTreeDealloc twoLevels.1 climbing).1.mutexes 1).locked = 1 := by
  refine ⟨(Option.some_get _).symm, ?_⟩
  decide +kernel

end Xv6.Tournament
