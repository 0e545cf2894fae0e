import Mathlib.Data.Finset.Card
import Xv6.TreePaths

open Function

namespace Xv6.Mutex

def freeSlots (mutexes : Slots) : Finset ℕ := (Finset.range MAX_MUTEXES).filter fun k => (mutexes k).used = 0

theorem mem_freeSlots {mutexes : Slots} {k : ℕ} : k ∈ freeSlots mutexes ↔ k < MAX_MUTEXES ∧
    (mutexes k).used = 0 := by
  rw [freeSlots, Finset.mem_filter, Finset.mem_range]

structure Supplies (mutexes : Slots) (ids : List ℤ) (mutexes' : Slots) : Prop where
  fresh : ∀ i ∈ ids, ∃ k < MAX_MUTEXES, i = k ∧ (mutexes k).used = 0 ∧ (mutexes' k).used ≠ 0 ∧ (mutexes' k).id = k
  nodup : ids.Nodup
  keeps : ∀ k, (mutexes k).used ≠ 0 → mutexes' k = mutexes k
  count : (freeSlots mutexes').card + ids.length = (freeSlots mutexes).card

theorem Supplies.nil (mutexes : Slots) : Supplies mutexes [] mutexes :=
  ⟨fun _ hi => absurd hi List.not_mem_nil, List.nodup_nil, fun _ _ => rfl, rfl⟩

theorem Supplies.append {a b c : Slots} {xs ys : List ℤ} (h : Supplies a xs b) (h' : Supplies b ys c) :
    Supplies a (xs ++ ys) c := by
  constructor
  · intro i hi
    rw [List.mem_append] at hi
    obtain hi | hi := hi
    · obtain ⟨k, hk, heq, hfree, hused, hid⟩ := h.fresh i hi
      refine ⟨k, hk, heq, hfree, ?_⟩
      rw [h'.keeps k hused]
      exact ⟨hused, hid⟩
    · obtain ⟨k, hk, heq, hfree, hused⟩ := h'.fresh i hi
      refine ⟨k, hk, heq, ?_, hused⟩
      by_contra hu
      rw [h.keeps k hu] at hfree
      exact hu hfree
  · apply List.nodup_append'.mpr
    refine ⟨h.nodup, h'.nodup, fun i hi hi' => ?_⟩
    -- what the first part allocates is not free for the second
    obtain ⟨k, _, rfl, _, hused, _⟩ := h.fresh i hi
    obtain ⟨j, _, heq, hfree, _⟩ := h'.fresh k hi'
    rw [← Int.ofNat_inj.mp heq] at hfree
    exact hused hfree
  · intro k hu
    have hb := h.keeps k hu
    rw [h'.keeps k (by rwa [hb]), hb]
  · rw [List.length_append, ← h.count, ← h'.count]
    omega

theorem kthreadMutexAlloc_supplies {mutexes : Slots} (h : 0 < (freeSlots mutexes).card) :
    Supplies mutexes [(kthreadMutexAlloc mutexes).2] (kthreadMutexAlloc mutexes).1 := by
  obtain ⟨j, hj⟩ := Finset.card_pos.mp h
  rw [mem_freeSlots] at hj
  unfold kthreadMutexAlloc
  cases hfree : searchFree mutexes with
  | none => exact absurd hj.2 (searchFree_none.mp hfree j hj.1)
  | some i =>
    obtain ⟨hi, hui⟩ := searchFree_spec hfree
    constructor
    · intro x hx
      refine ⟨i, hi, List.mem_singleton.mp hx, hui, ?_⟩
      simp only [update_self]
      exact ⟨allocated_used i, rfl⟩
    · exact List.nodup_singleton _
    · intro k hu
      apply update_of_ne
      rintro rfl
      exact hu hui
    · have herase : freeSlots (update mutexes i (allocated i)) = (freeSlots mutexes).erase i := by
        ext k
        rw [Finset.mem_erase, mem_freeSlots, mem_freeSlots]
        by_cases hk : k = i
        · simp [hk, allocated]
        · simp [hk]
      rw [herase, Finset.card_erase_of_mem (mem_freeSlots.mpr ⟨hi, hui⟩), List.length_singleton]
      have hpos := h
      omega

end Xv6.Mutex

namespace Xv6.Tournament

open Xv6.Mutex

variable {tree : Tree} {d k parent : ℕ} {h : Memory}

theorem Tree.Shaped.inners_length (h : tree.Shaped parent k) : tree.inners.length + 1 = 2 ^ k := by
  induction tree generalizing parent k with
  | leaf node =>
    cases k with
    | zero => rfl
    | succ k => exact h.elim
  | inner node left right ihl ihr =>
    cases k with
    | zero => exact h.elim
    | succ k =>
      have hl := ihl h.2.2.1
      have hr := ihr h.2.2.2
      rw [Tree.inners, List.length_cons, List.length_append, Nat.pow_succ]
      omega

theorem createTree_supplies (h : Memory) (addr parent d : ℕ) (hroom : 2 ^ d ≤ (freeSlots h.mutexes).card + 1) :
    Supplies h.mutexes ((createTree h addr parent (d + 1)).1.inners.map TreeNode.mutexId)
      (createTree h addr parent (d + 1)).2.mutexes := by
  induction d generalizing h addr parent with
  | zero =>
    rw [createTree_leaf]
    simp only [openNode_mutexes]
    exact Supplies.nil _
  | succ d ih =>
    have htwo : 2 ^ (d + 1) = 2 ^ d + 2 ^ d := by rw [Nat.pow_succ, Nat.mul_two]
    have hpow : 1 ≤ 2 ^ d := Nat.one_le_two_pow
    have hroot : Supplies h.mutexes [(h.openNode (d + 2)).mutexAlloc.1]
        (h.openNode (d + 2)).mutexAlloc.2.mutexes := by
      simp only [Memory.mutexAlloc, openNode_mutexes]
      apply kthreadMutexAlloc_supplies
      omega
    have hrest := hroot.count
    rw [List.length_singleton] at hrest
    have hleft := ih (h.openNode (d + 2)).mutexAlloc.2 h.fresh addr (by omega)
    have hlength := (createTree_shaped (h.openNode (d + 2)).mutexAlloc.2 h.fresh addr d).1.inners_length
    have hcount := hleft.count
    rw [List.length_map] at hcount
    have hright := ih (createTree (h.openNode (d + 2)).mutexAlloc.2 h.fresh addr (d + 1)).2
      (h.fresh + 1) addr (by omega)
    rw [createTree_inner]
    simp only [Tree.inners, List.map_cons, List.map_append]
    exact hroot.append (hleft.append hright)

structure AllOrNothing (h : Memory) (depth : ℤ) : Prop where
  all : ∀ t h', trnmntTreeAlloc h depth = some (t, h') → t.root.inners.length = 2 ^ depth.toNat - 1 ∧
    Supplies h.mutexes (t.root.inners.map TreeNode.mutexId) h'.mutexes
  nothing : (freeSlots h.mutexes).card < 2 ^ depth.toNat - 1 → trnmntTreeAlloc h depth = none ∧
    ∀ k, (((trnmntTreeAlloc h depth).elim h.mutexes fun r => r.2.mutexes) k).used = (h.mutexes k).used

theorem alloc_all_or_nothing_iff (h : Memory) (depth : ℤ) (hdepth : 1 ≤ depth) :
    AllOrNothing h depth ↔ 2 ^ depth.toNat - 1 ≤ (freeSlots h.mutexes).card := by
  constructor
  · intro hall
    by_contra hfew
    obtain ⟨hnone, _⟩ := hall.nothing (by omega)
    unfold trnmntTreeAlloc at hnone
    rw [if_neg (by omega)] at hnone
    cases hnone
  · intro hroom
    constructor
    · intro t h' halloc
      obtain ⟨hlaid, hdepth', _⟩ := trnmntTreeAlloc_laid halloc
      have hlength := hlaid.shaped.inners_length
      rw [hdepth'] at hlength
      refine ⟨by omega, ?_⟩
      simp only [trnmntTreeAlloc, Option.ite_none_left_eq_some, Option.some.injEq, Prod.mk.injEq] at halloc
      obtain ⟨_, rfl, rfl⟩ := halloc
      apply createTree_supplies { h.malloc.2.malloc.2 with treeDepth := depth, levelIndex := fun _ => 0 }
      change 2 ^ depth.toNat ≤ (freeSlots h.mutexes).card + 1
      omega
    · intro hfew
      omega

theorem alloc_all_or_nothing_iff_emptyHeap : AllOrNothing emptyHeap 2 ∧ (freeSlots emptyHeap.mutexes).card = 64 :=
  ⟨(alloc_all_or_nothing_iff emptyHeap 2 (by decide)).mpr (by decide), by decide⟩

def scarceHeap : Memory := { emptyHeap with mutexes := fun k => if k < 62 then allocated k else cleared }

theorem alloc_without_mutex : ∃ t h', trnmntTreeAlloc scarceHeap 2 = some (t, h') ∧
    (freeSlots scarceHeap.mutexes).card = 2 ∧ (∃ n ∈ t.root.inners, n.mutexId = -1) ∧
    (freeSlots h'.mutexes).card = 0 :=
  ⟨_, _, rfl, by decide +kernel, by decide +kernel, by decide +kernel⟩

def Tree.row : ℕ → Tree → List TreeNode
  | 0, tree => [tree.node]
  | _ + 1, .leaf _ => []
  | j + 1, .inner _ left right => left.row j ++ right.row j

theorem Tree.Shaped.row_levels {j : ℕ} (h : tree.Shaped parent k) (hj : j ≤ k) :
    ∀ n ∈ tree.row j, n.level = (k : ℤ) - j - 1 := by
  induction tree generalizing parent k j with
  | leaf node =>
    cases k with
    | zero =>
      intro n hn
      rw [Nat.le_zero.mp hj, Tree.row, List.mem_singleton] at hn
      rw [hn, Nat.le_zero.mp hj]
      exact h.2
    | succ k => exact h.elim
  | inner node left right ihl ihr =>
    cases k with
    | zero => exact h.elim
    | succ k =>
      obtain ⟨_, hlevel, hl, hr⟩ := h
      cases j with
      | zero =>
        intro n hn
        rw [Tree.row, List.mem_singleton] at hn
        rw [hn]
        change node.level = _
        omega
      | succ j =>
        intro n hn
        rw [Tree.row, List.mem_append] at hn
        obtain hn | hn := hn
        · have := ihl hl (by omega) n hn
          omega
        · have := ihr hr (by omega) n hn
          omega

theorem Tree.Shaped.row_leaves (h : tree.Shaped parent k) : tree.row k = tree.leaves := by
  induction tree generalizing parent k with
  | leaf node =>
    cases k with
    | zero => rfl
    | succ k => exact h.elim
  | inner node left right ihl ihr =>
    cases k with
    | zero => exact h.elim
    | succ k => rw [Tree.row, Tree.leaves, ihl h.2.2.1, ihr h.2.2.2]

def Memory.CountsAt (h : Memory) (i : ℕ) : Prop := h.curLevel = (i : ℤ) - 1 → h.index = h.levelIndex i

theorem openNode_index (h : Memory) (d : ℕ) (hc : h.CountsAt d) :
    (h.enterLevel (d + 1)).index = h.levelIndex d := by
  unfold Memory.enterLevel
  split_ifs with hl
  · rfl
  · apply hc
    omega

theorem openNode_levelIndex (h : Memory) (d : ℕ) (hc : h.CountsAt d) :
    (h.openNode (d + 1)).levelIndex = update h.levelIndex d (h.levelIndex d + 1) := by
  have hkeep : (h.enterLevel (d + 1)).levelIndex = h.levelIndex := by
    unfold Memory.enterLevel
    split_ifs <;> rfl
  simp only [Memory.openNode, Memory.countNode, hkeep, openNode_index h d hc, Nat.add_sub_cancel]

structure Numbers (h : Memory) (d : ℕ) (r : Tree × Memory) : Prop where
  rows : ∀ j ≤ d, (r.1.row j).map TreeNode.index = (List.range (2 ^ j)).map fun i : ℕ => h.levelIndex (d - j) + i
  counts : ∀ j ≤ d, r.2.levelIndex (d - j) = h.levelIndex (d - j) + (2 ^ j : ℕ)
  above : ∀ i, d < i → r.2.levelIndex i = h.levelIndex i
  level : r.2.curLevel = -1
  next : r.2.index = r.2.levelIndex 0

theorem Numbers.countsAt {r : Tree × Memory} (hn : Numbers h d r) : r.2.CountsAt d := by
  intro hl
  rw [hn.level] at hl
  have hd : d = 0 := by omega
  rw [hn.next, hd]

theorem range_split (j : ℕ) (a : ℤ) :
    (List.range (2 ^ (j + 1))).map (fun i : ℕ => a + i) =
      (List.range (2 ^ j)).map (fun i : ℕ => a + i) ++ (List.range (2 ^ j)).map
      (fun i : ℕ => a + (2 ^ j : ℕ) + i) := by
  rw [Nat.pow_succ, Nat.mul_two, List.range_add, List.map_append, List.map_map]
  congr 1
  apply List.map_congr_left
  intro i _
  rw [Function.comp_apply, Int.natCast_add]
  omega

theorem createTree_numbers (h : Memory) (addr parent d : ℕ) (hc : h.CountsAt d) :
    Numbers h d (createTree h addr parent (d + 1)) := by
  induction d generalizing h addr parent with
  | zero =>
    have hindex := openNode_index h 0 hc
    have hcounts := openNode_levelIndex h 0 hc
    rw [createTree_leaf]
    constructor
    · intro j hj
      rw [Nat.le_zero.mp hj]
      simp [Tree.row, Tree.node, Memory.nodeData, hindex]
    · intro j hj
      rw [Nat.le_zero.mp hj]
      simp [hcounts]
    · intro i hi
      simp only [hcounts]
      apply update_of_ne
      omega
    · exact (enterLevel_fields h 1).2.2.2
    · simp only [hcounts, update_self]
      change (h.enterLevel 1).index + 1 = _
      rw [hindex]
  | succ d ih =>
    have hindex := openNode_index h (d + 1) hc
    have hcounts := openNode_levelIndex h (d + 1) hc
    have hlevel : (h.openNode (d + 2)).mutexAlloc.2.curLevel = ((d + 2 : ℕ) : ℤ) - 2 :=
      (enterLevel_fields h (d + 2)).2.2.2
    have hleft : Numbers (h.openNode (d + 2)).mutexAlloc.2 d
        (createTree (h.openNode (d + 2)).mutexAlloc.2 h.fresh addr (d + 1)) := by
      apply ih
      intro hl
      omega
    have hright : Numbers (createTree (h.openNode (d + 2)).mutexAlloc.2 h.fresh addr (d + 1)).2 d
        (createTree (createTree (h.openNode (d + 2)).mutexAlloc.2 h.fresh addr (d + 1)).2
          (h.fresh + 1) addr (d + 1)) :=
      ih _ _ _ hleft.countsAt
    have hbelow (i : ℕ) (hi : i ≠ d + 1) : (h.openNode (d + 2)).mutexAlloc.2.levelIndex i = h.levelIndex i := by
      change (h.openNode (d + 2)).levelIndex i = _
      rw [hcounts, update_of_ne hi]
    rw [createTree_inner]
    constructor
    · intro j hj
      cases j with
      | zero => simp [Tree.row, Tree.node, Memory.nodeData, hindex]
      | succ j =>
        have hsub : d + 1 - (j + 1) = d - j := by omega
        simp only [Tree.row, List.map_append]
        rw [hleft.rows j (by omega), hright.rows j (by omega), hleft.counts j (by omega),
          hbelow _ (by omega), hsub, range_split]
    · intro j hj
      cases j with
      | zero =>
        rw [hright.above _ (by omega), hleft.above _ (by omega)]
        change (h.openNode (d + 2)).levelIndex (d + 1) = h.levelIndex (d + 1) + 1
        rw [hcounts, update_self]
      | succ j =>
        have hsub : d + 1 - (j + 1) = d - j := by omega
        rw [hsub, hright.counts j (by omega), hleft.counts j (by omega), hbelow _ (by omega), Nat.pow_succ]
        omega
    · intro i hi
      rw [hright.above i (by omega), hleft.above i (by omega), hbelow i (by omega)]
    · exact hright.level
    · exact hright.next

structure Numbered (tree : Tree) (d : ℕ) : Prop where
  laid : Laid tree d
  rows : ∀ j ≤ d, (tree.row j).map TreeNode.index = (List.range (2 ^ j)).map Nat.cast
  levels : ∀ j ≤ d, ∀ n ∈ tree.row j, n.level = ((d - j : ℕ) : ℤ) - 1
  leaves : tree.leaves = tree.row d
  found : ∀ id : ℤ, 0 ≤ id → id < 2 ^ d → ∃ leaf ∈ tree.leaves, findLeaf id tree = some leaf ∧ leaf.index = id ∧
    ∀ leaf' ∈ tree.leaves, leaf'.index = id → leaf' = leaf
  missed : ∀ id : ℤ, ¬(0 ≤ id ∧ id < 2 ^ d) → findLeaf id tree = none

theorem Laid.numbered (hlaid : Laid tree d)
    (hrows : ∀ j ≤ d, (tree.row j).map TreeNode.index = (List.range (2 ^ j)).map Nat.cast) : Numbered tree d := by
  have hleaves := hlaid.shaped.row_leaves
  have hindices := hrows d (Nat.le_refl d)
  rw [hleaves] at hindices
  have hnodup : (tree.leaves.map TreeNode.index).Nodup := by
    rw [hindices]
    exact List.nodup_range.map fun _ _ heq => Int.ofNat_inj.mp heq
  refine ⟨hlaid, hrows, fun j hj n hn => ?_, hleaves.symm, fun id hlow hhigh => ?_,
    fun id hid => (hlaid.findLeaf_none hindices).mpr hid⟩
  · have := hlaid.shaped.row_levels hj n hn
    omega
  · have hsome : findLeaf id tree ≠ none := fun hnone => (hlaid.findLeaf_none hindices).mp hnone ⟨hlow, hhigh⟩
    obtain ⟨leaf, hfind⟩ := Option.ne_none_iff_exists'.mp hsome
    rw [path_findLeaf] at hfind
    obtain ⟨⟨leaf, above⟩, hpath, rfl⟩ := Option.map_eq_some_iff.mp hfind
    obtain ⟨hrise, hindex⟩ := path_rises hlaid.shaped hpath
    refine ⟨leaf, hrise.leaf, ?_, hindex, fun leaf' hleaf' hindex' => ?_⟩
    · rw [path_findLeaf, hpath]
      rfl
    · exact List.inj_on_of_nodup_map hnodup hleaf' hrise.leaf (hindex'.trans hindex.symm)

theorem trnmntTreeAlloc_numbers {h' : Memory} {depth : ℤ} {t : TrnmntTree} (hlevel : h.curLevel < 0)
    (halloc : trnmntTreeAlloc h depth = some (t, h')) :
    (∀ j ≤ depth.toNat, (t.root.row j).map TreeNode.index = (List.range (2 ^ j)).map Nat.cast) ∧
    h'.curLevel < 0 := by
  simp only [trnmntTreeAlloc, Option.ite_none_left_eq_some, Option.some.injEq, Prod.mk.injEq] at halloc
  obtain ⟨hd, rfl, rfl⟩ := halloc
  have hn : Numbers { h.malloc.2.malloc.2 with treeDepth := depth, levelIndex := fun _ => 0 } depth.toNat
      (createTree { h.malloc.2.malloc.2 with treeDepth := depth, levelIndex := fun _ => 0 } h.malloc.2.malloc.1 0
        (depth.toNat + 1)) := by
    apply createTree_numbers
    intro hl
    change h.curLevel = _ at hl
    omega
  refine ⟨fun j hj => ?_, ?_⟩
  · simpa using hn.rows j hj
  · rw [hn.level]
    omega

theorem allocs_curLevel {depths : List ℤ} (hlevel : h.curLevel < 0) :
    (trnmntTreeAllocs h depths).2.curLevel < 0 := by
  induction depths generalizing h with
  | nil => exact hlevel
  | cons depth depths ih =>
    unfold trnmntTreeAllocs
    cases halloc : trnmntTreeAlloc h depth with
    | none => exact ih hlevel
    | some r => exact ih (trnmntTreeAlloc_numbers hlevel halloc).2

theorem tree_numbered (h : Memory) (depths : List ℤ) (depth : ℤ) (hstart : h.curLevel = -2) (hdepth : 1 ≤ depth) :
    ∃ t h', trnmntTreeAlloc (trnmntTreeAllocs h depths).2 depth = some (t, h') ∧ Numbered t.root depth.toNat := by
  have hlevel : (trnmntTreeAllocs h depths).2.curLevel < 0 := allocs_curLevel (by omega)
  obtain ⟨⟨t, h'⟩, halloc⟩ : ∃ r, trnmntTreeAlloc (trnmntTreeAllocs h depths).2 depth = some r := by
    unfold trnmntTreeAlloc
    rw [if_neg (by omega)]
    exact ⟨_, rfl⟩
  obtain ⟨hlaid, hd, _⟩ := trnmntTreeAlloc_laid halloc
  rw [hd] at hlaid
  exact ⟨t, h', halloc, hlaid.numbered (trnmntTreeAlloc_numbers hlevel halloc).1⟩

theorem tree_numbered_third : ∃ t h', trnmntTreeAlloc (trnmntTreeAllocs emptyHeap [2, 1]).2 3 = some (t, h') ∧
    Numbered t.root 3 :=
  tree_numbered emptyHeap [2, 1] 3 rfl (by decide)

end Xv6.Tournament
