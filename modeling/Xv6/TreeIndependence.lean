import Xv6.TreePaths

open Function

namespace Xv6.Mutex

variable {mutexes mutexes' : Slots} {me mutexId : ℤ}

theorem searchId_congr (h : ∀ k, (mutexes' k).id = (mutexes k).id) (mutexId : ℤ) :
    searchId mutexes' mutexId = searchId mutexes mutexId := by
  unfold searchId
  simp only [h]

def Takes (mutexes : Slots) (me mutexId : ℤ) : Prop :=
  ¬((mutexes (searchId mutexes mutexId)).tid = me ∧ (mutexes (searchId mutexes mutexId)).waitingThreads ≠ 0)

instance (mutexes : Slots) (me mutexId : ℤ) : Decidable (Takes mutexes me mutexId) :=
  inferInstanceAs (Decidable (¬ _))

def grabbed (mutex : KthreadMutex) (me : ℤ) : KthreadMutex :=
  if mutex.tid = me ∧ mutex.waitingThreads ≠ 0 then mutex else { mutex with locked := 1, tid := me }

theorem lockCatch_lockArrive {mutex : KthreadMutex} (hl : mutex.locked = 0) :
    lockCatch (lockArrive mutex me) me = grabbed mutex me := by
  unfold grabbed
  by_cases ht : mutex.tid = me
  · have harrive : lockArrive mutex me = mutex := if_neg (not_not.mpr ht)
    rw [harrive]
    split_ifs with hw
    · exact lockCatch_skipped hl ht hw.2
    · rw [lockCatch_last hl ht (by simpa [ht] using hw), ht]
  · have harrive : lockArrive mutex me = { mutex with waitingThreads := mutex.waitingThreads + 1 } := if_pos ht
    rw [if_neg fun h => ht h.1, harrive, lockCatch_other (by exact hl) (by exact ht), Int.add_sub_cancel]

theorem grabbed_id (mutex : KthreadMutex) (me : ℤ) : (grabbed mutex me).id = mutex.id := by
  unfold grabbed
  split_ifs <;> rfl

theorem lock_zero (h : kthreadMutexLock mutexes me mutexId = some (mutexes', 0)) :
    (mutexes (searchId mutexes mutexId)).id = mutexId ∧ (mutexes (searchId mutexes mutexId)).locked = 0 ∧
    mutexes' = update mutexes (searchId mutexes mutexId)
      (grabbed (mutexes (searchId mutexes mutexId)) me) := by
  unfold kthreadMutexLock at h
  simp only at h
  split_ifs at h with hid hu hl
  · cases h
  · cases h
  · cases h
    rw [lockArrive_locked, not_not] at hl
    exact ⟨not_not.mp hid, hl, by rw [lockCatch_lockArrive hl]⟩

theorem lock_value {value : ℤ} (h : kthreadMutexLock mutexes me mutexId = some (mutexes', value)) :
    value = -1 ∨ value = 0 := by
  unfold kthreadMutexLock at h
  simp only at h
  split_ifs at h
  · cases h
    exact .inl rfl
  · cases h
    exact .inl rfl
  · cases h
    exact .inr rfl

def LocksAll (me : ℤ) : Slots → List ℤ → Slots → Prop
  | mutexes, [], mutexes' => mutexes' = mutexes
  | mutexes, mutexId :: ids, mutexes' =>
    ∃ next, kthreadMutexLock mutexes me mutexId = some (next, 0) ∧ LocksAll me next ids mutexes'

structure Grabs (me : ℤ) (mutexes : Slots) (ids : List ℤ) (mutexes' : Slots) : Prop where
  names : ∀ k, (mutexes' k).id = (mutexes k).id
  others : ∀ k, (∀ i ∈ ids, searchId mutexes i ≠ k) → mutexes' k = mutexes k
  slots : ∀ i ∈ ids, (mutexes (searchId mutexes i)).id = i ∧ (mutexes (searchId mutexes i)).locked = 0 ∧
    mutexes' (searchId mutexes i) = grabbed (mutexes (searchId mutexes i)) me
  once : ids.Pairwise fun i j => searchId mutexes i = searchId mutexes j → ¬ Takes mutexes me i

variable {ids : List ℤ} {i : ℤ} {k m : ℕ}

theorem locksAll_grabs (h : LocksAll me mutexes ids mutexes') : Grabs me mutexes ids mutexes' := by
  induction ids generalizing mutexes with
  | nil =>
    cases h
    exact ⟨fun _ => rfl, fun _ _ => rfl, nofun, List.Pairwise.nil⟩
  | cons a ids ih =>
    obtain ⟨next, hlock, hrest⟩ := h
    obtain ⟨hid, hfree, rfl⟩ := lock_zero hlock
    have hg := ih hrest
    by_cases htake : Takes mutexes me a
    · have hnames (k : ℕ) : (update mutexes (searchId mutexes a)
          (grabbed (mutexes (searchId mutexes a)) me) k).id = (mutexes k).id := by
        by_cases hk : k = searchId mutexes a
        · rw [hk, update_self, grabbed_id]
        · rw [update_of_ne hk]
      have hsearch := searchId_congr hnames
      have hlocked : (grabbed (mutexes (searchId mutexes a)) me).locked = 1 := by
        rw [grabbed, if_neg htake]
      -- a later call for the same slot would find it locked
      have hapart (i : ℤ) (hi : i ∈ ids) : searchId mutexes i ≠ searchId mutexes a := by
        intro heq
        have hsecond := (hg.slots i hi).2.1
        rw [hsearch, heq, update_self, hlocked] at hsecond
        exact Int.one_ne_zero hsecond
      refine ⟨fun k => (hg.names k).trans (hnames k), fun k hk => ?_, fun i hi => ?_,
        List.Pairwise.cons (fun j hj heq => absurd heq.symm (hapart j hj)) ?_⟩
      · rw [hg.others k fun i hi => by rw [hsearch]; exact hk i (List.mem_cons_of_mem a hi),
          update_of_ne (hk a List.mem_cons_self).symm]
      · obtain rfl | hi := List.mem_cons.mp hi
        · refine ⟨hid, hfree, ?_⟩
          rw [hg.others _ fun j hj => by rw [hsearch]; exact hapart j hj, update_self]
        · have hslot := hg.slots i hi
          rw [hsearch, update_of_ne (hapart i hi)] at hslot
          exact hslot
      · refine hg.once.imp_of_mem fun {i j} hi _ h heq => ?_
        rw [hsearch, hsearch, Takes, hsearch, update_of_ne (hapart i hi)] at h
        exact h heq
    · have hsame : update mutexes (searchId mutexes a) (grabbed (mutexes (searchId mutexes a)) me) =
          mutexes := by
        rw [grabbed, if_pos (not_not.mp htake), update_eq_self]
      rw [hsame] at hg
      refine ⟨hg.names, fun k hk => hg.others k fun i hi => hk i (List.mem_cons_of_mem a hi), fun i hi => ?_,
        List.Pairwise.cons (fun _ _ _ => htake) hg.once⟩
      obtain rfl | hi := List.mem_cons.mp hi
      · refine ⟨hid, hfree, ?_⟩
        by_cases hagain : ∃ j ∈ ids, searchId mutexes j = searchId mutexes i
        · obtain ⟨j, hj, heq⟩ := hagain
          rw [← heq]
          exact (hg.slots j hj).2.2
        · rw [hg.others _ fun j hj heq => hagain ⟨j, hj, heq⟩, grabbed, if_pos (not_not.mp htake)]
      · exact hg.slots i hi

theorem Grabs.taken (h : Grabs me mutexes ids mutexes') (hi : i ∈ ids)
    (ht : Takes mutexes me i) : (mutexes' (searchId mutexes i)).id = i ∧ (mutexes' (searchId mutexes i)).tid = me ∧
      (mutexes' (searchId mutexes i)).locked = 1 := by
  obtain ⟨hid, _, hslot⟩ := h.slots i hi
  rw [hslot, grabbed, if_neg ht]
  exact ⟨hid, rfl, rfl⟩

theorem Grabs.skipped (h : Grabs me mutexes ids mutexes') (hi : i ∈ ids)
    (ht : ¬ Takes mutexes me i) : (mutexes' (searchId mutexes i)).locked = 0 := by
  obtain ⟨_, hfree, hslot⟩ := h.slots i hi
  rw [hslot, grabbed, if_pos (not_not.mp ht)]
  exact hfree

theorem Grabs.apart (h : Grabs me mutexes ids mutexes') {i j : ℕ} (hi : i < ids.length)
    (hj : j < ids.length) (ht : Takes mutexes me ids[i])
    (heq : searchId mutexes ids[i] = searchId mutexes ids[j]) : i = j := by
  by_contra hne
  obtain hlt | hlt := Nat.lt_or_gt_of_ne hne
  · exact List.pairwise_iff_getElem.mp h.once i j hi hj hlt heq ht
  · refine List.pairwise_iff_getElem.mp h.once j i hj hi hlt heq.symm ?_
    rw [Takes, ← heq]
    exact ht

def unlocked (mutexes : Slots) (m : ℕ) : Slots := Function.update mutexes m { mutexes m with locked := 0 }

theorem unlocked_names (mutexes : Slots) (m k : ℕ) : (unlocked mutexes m k).id = (mutexes k).id := by
  unfold unlocked
  by_cases hk : k = m
  · rw [hk, update_self]
  · rw [update_of_ne hk]

theorem unlocked_free (h : k = m ∨ (mutexes k).locked = 0) : (unlocked mutexes m k).locked = 0 := by
  unfold unlocked
  by_cases hk : k = m
  · rw [hk, update_self]
  · rw [update_of_ne hk]
    exact h.resolve_left hk

theorem unlocked_other (h : k ≠ m) : unlocked mutexes m k = mutexes k := update_of_ne h _ _

theorem unlock_held (hid : (mutexes (searchId mutexes mutexId)).id = mutexId)
    (htid : (mutexes (searchId mutexes mutexId)).tid = me) (hl : (mutexes (searchId mutexes mutexId)).locked ≠ 0) :
    kthreadMutexUnlock mutexes me mutexId = (unlocked mutexes (searchId mutexes mutexId), 0) := by
  unfold kthreadMutexUnlock
  simp only
  rw [if_neg (not_not.mpr hid), if_neg (not_not.mpr htid.symm), if_neg hl]
  rfl

theorem unlock_free (hl : (mutexes (searchId mutexes mutexId)).locked = 0) :
    kthreadMutexUnlock mutexes me mutexId = (mutexes, -1) := by
  unfold kthreadMutexUnlock
  simp only
  split_ifs <;> rfl

theorem unlock_cases (mutexes : Slots) (me mutexId : ℤ) :
    kthreadMutexUnlock mutexes me mutexId = (mutexes, -1) ∨
      kthreadMutexUnlock mutexes me mutexId = (unlocked mutexes (searchId mutexes mutexId), 0) := by
  unfold kthreadMutexUnlock
  simp only
  split_ifs
  · exact .inl rfl
  · exact .inl rfl
  · exact .inl rfl
  · exact .inr rfl

end Xv6.Mutex

namespace Xv6.Tournament

open Xv6.Mutex

variable {tree : Tree} {depth : ℕ} {me : ℤ} {leaf : TreeNode} {s s' : Locks}

variable {above : List TreeNode} {i j k : ℕ} {read : List ℕ} {mutexes : Slots} {ids : ℕ → ℤ}
  {t : TrnmntTree}

theorem climb_locks {curNode : TreeNode} {fuel : ℕ} (hlaid : Laid tree depth)
    (hlinks : Links curNode above 0) (hin : ∀ n ∈ above, n ∈ tree.inners) (hfuel : above.length < fuel)
    (hlevels : (above.map TreeNode.level).Nodup) (h : climbFrom tree me leaf fuel curNode s = some (s', 0)) :
    LocksAll me s.mutexes (above.map TreeNode.mutexId) s'.mutexes ∧
    (∀ n ∈ above, s'.lockPath leaf.lockPath n.level = n.mutexId) ∧
    ∀ i, i ∉ above.map TreeNode.level → s'.lockPath leaf.lockPath i = s.lockPath leaf.lockPath i := by
  induction above generalizing curNode fuel s with
  | nil =>
    obtain ⟨fuel, rfl⟩ : ∃ f, fuel = f + 1 := ⟨fuel - 1, by omega⟩
    have hroot : curNode.parent = 0 := hlinks
    rw [climbFrom, if_pos hroot] at h
    cases h
    exact ⟨rfl, nofun, fun _ _ => rfl⟩
  | cons next above ih =>
    obtain ⟨fuel, rfl⟩ : ∃ f, fuel = f + 1 := ⟨fuel - 1, by omega⟩
    obtain ⟨hparent, hlinks⟩ := hlinks
    have hnext := hin next List.mem_cons_self
    rw [climbFrom, if_neg (by rw [hparent]; exact hlaid.addr_ne_zero hnext), hparent, hlaid.nodeAt hnext,
      Option.bind_some] at h
    obtain ⟨⟨mutexes, value⟩, hlock, h⟩ := Option.bind_eq_some_iff.mp h
    obtain rfl | rfl := lock_value hlock
    · cases h
    · rw [List.map_cons, List.nodup_cons] at hlevels
      rw [List.length_cons] at hfuel
      obtain ⟨hall, hpath, hrest⟩ :=
        ih hlinks (fun n hn => hin n (List.mem_cons_of_mem _ hn)) (by omega) hlevels.2 h
      refine ⟨⟨mutexes, hlock, hall⟩, fun n hn => ?_, fun i hi => ?_⟩
      · obtain rfl | hn := List.mem_cons.mp hn
        · rw [hrest _ hlevels.1]
          simp
        · exact hpath n hn
      · rw [List.map_cons, List.mem_cons, not_or] at hi
        rw [hrest i hi.2]
        simp [hi.1]

theorem unlockFrom_read (hj : j ∈ read) : j ∈ (unlockFrom me leaf k s read).read := by
  induction k generalizing s read with
  | zero => exact hj
  | succ k ih =>
    unfold unlockFrom
    simp only
    split_ifs
    · exact List.mem_cons_of_mem _ hj
    · exact ih (List.mem_cons_of_mem _ hj)

theorem unlockFrom_first : k ∈ (unlockFrom me leaf (k + 1) s read).read := by
  unfold unlockFrom
  simp only
  split_ifs
  · exact List.mem_cons_self
  · exact unlockFrom_read List.mem_cons_self

theorem unlockFrom_bound (hj : j ∈ (unlockFrom me leaf k s read).read) :
    j < k ∨ j ∈ read := by
  induction k generalizing s read with
  | zero => exact .inr hj
  | succ k ih =>
    unfold unlockFrom at hj
    simp only at hj
    split_ifs at hj
    · obtain rfl | hj := List.mem_cons.mp hj
      · exact .inl (Nat.lt_succ_self _)
      · exact .inr hj
    · obtain hj | hj := ih hj
      · exact .inl (Nat.lt_succ_of_lt hj)
      · obtain rfl | hj := List.mem_cons.mp hj
        · exact .inl (Nat.lt_succ_self _)
        · exact .inr hj

theorem unlockFrom_stop
    (h : kthreadMutexUnlock s.mutexes me (s.lockPath leaf.lockPath k) = (mutexes, -1)) :
    (unlockFrom me leaf (k + 1) s read).value = -1 := by
  rw [unlockFrom, h]
  rfl

theorem unlockFrom_next (read : List ℕ)
    (h : kthreadMutexUnlock s.mutexes me (s.lockPath leaf.lockPath k) = (mutexes, 0)) :
    ∃ s₁, unlockFrom me leaf (k + 1) s read = unlockFrom me leaf k s₁ (k :: read) ∧ s₁.mutexes = mutexes ∧
      ∀ j < k, s₁.lockPath leaf.lockPath j = s.lockPath leaf.lockPath j := by
  refine ⟨Locks.setPath ⟨mutexes, s.lockPath⟩ leaf.lockPath k 0, ?_, rfl, fun j hj => ?_⟩
  · rw [unlockFrom, h]
    rfl
  · have hjk : (j : ℤ) ≠ k := by omega
    simp only [Locks.setPath_lockPath, update_self, update_of_ne hjk]

theorem unlockFrom_fails (hpath : ∀ j < k, s.lockPath leaf.lockPath j = ids j)
    (hi : i < k) (hfree : (s.mutexes (searchId s.mutexes (ids i))).locked = 0) :
    (unlockFrom me leaf k s read).value = -1 := by
  induction k generalizing s read with
  | zero => omega
  | succ k ih =>
    have hk : s.lockPath leaf.lockPath k = ids k := hpath k (Nat.lt_succ_self k)
    by_cases hik : i = k
    · subst hik
      exact unlockFrom_stop (by rw [hk]; exact unlock_free hfree)
    · obtain hfail | hok := unlock_cases s.mutexes me (ids k)
      · exact unlockFrom_stop (by rw [hk]; exact hfail)
      · rw [← hk] at hok
        obtain ⟨s₁, heq, hm, hsame⟩ := unlockFrom_next read hok
        rw [heq]
        refine ih (fun j hj => (hsame j hj).trans (hpath j (by omega))) (by omega) ?_
        rw [hm, searchId_congr (unlocked_names _ _)]
        exact unlocked_free (.inr hfree)

structure Holding (me : ℤ) (mutexes : Slots) (ids : ℕ → ℤ) (k : ℕ) : Prop where
  held : ∀ i < k, (mutexes (searchId mutexes (ids i))).id = ids i ∧ (mutexes (searchId mutexes (ids i))).tid = me ∧
    (mutexes (searchId mutexes (ids i))).locked ≠ 0
  apart : ∀ i < k, ∀ j < k, searchId mutexes (ids i) = searchId mutexes (ids j) → i = j

structure Frees (mutexes : Slots) (ids : ℕ → ℤ) (k : ℕ) (result : Released) : Prop where
  value : result.value = 0
  names : ∀ m, (result.locks.mutexes m).id = (mutexes m).id
  freed : ∀ i < k, (result.locks.mutexes (searchId mutexes (ids i))).locked = 0
  others : ∀ m, (∀ i < k, searchId mutexes (ids i) ≠ m) → result.locks.mutexes m = mutexes m

theorem unlockFrom_frees (hpath : ∀ j < k, s.lockPath leaf.lockPath j = ids j)
    (hh : Holding me s.mutexes ids k) : Frees s.mutexes ids k (unlockFrom me leaf k s read) := by
  induction k generalizing s read with
  | zero => exact ⟨rfl, fun _ => rfl, fun _ hi => by omega, fun _ _ => rfl⟩
  | succ k ih =>
    have hk : s.lockPath leaf.lockPath k = ids k := hpath k (Nat.lt_succ_self k)
    obtain ⟨hid, htid, hl⟩ := hh.held k (Nat.lt_succ_self k)
    have hunlock := unlock_held hid htid hl
    rw [← hk] at hunlock
    obtain ⟨s₁, heq, hm, hsame⟩ := unlockFrom_next read hunlock
    rw [hk] at hm
    have hnames (m : ℕ) : (s₁.mutexes m).id = (s.mutexes m).id := by
      rw [hm]
      exact unlocked_names _ _ _
    have hsearch := searchId_congr hnames
    have hne (i : ℕ) (hi : i < k) : searchId s.mutexes (ids i) ≠ searchId s.mutexes (ids k) := fun h =>
      absurd (hh.apart i (by omega) k (by omega) h) (by omega)
    have hrest : Holding me s₁.mutexes ids k := by
      refine ⟨fun i hi => ?_, fun i hi j hj => ?_⟩
      · rw [hsearch, hm, unlocked_other (hne i hi)]
        exact hh.held i (by omega)
      · rw [hsearch, hsearch]
        exact hh.apart i (by omega) j (by omega)
    rw [heq]
    have hf : Frees s₁.mutexes ids k (unlockFrom me leaf k s₁ (k :: read)) :=
      ih (fun j hj => (hsame j hj).trans (hpath j (by omega))) hrest
    refine ⟨hf.value, fun m => (hf.names m).trans (hnames m), fun i hi => ?_, fun m hm' => ?_⟩
    · by_cases hik : i = k
      · subst hik
        rw [hf.others _ fun j hj => by rw [hsearch]; exact hne j hj, hm]
        exact unlocked_free (.inl rfl)
      · rw [← hsearch]
        exact hf.freed i (by omega)
    · rw [hf.others m fun i hi => by rw [hsearch]; exact hm' i (by omega), hm,
        unlocked_other (hm' k (Nat.lt_succ_self k)).symm]

theorem shaped_nodes {parent : ℕ} (h : tree.Shaped parent k) : k < tree.nodes.length := by
  induction tree generalizing parent k with
  | leaf node =>
    cases k with
    | zero => exact Nat.one_pos
    | succ k => exact h.elim
  | inner node left right ihl ihr =>
    cases k with
    | zero => exact h.elim
    | succ k =>
      have hleft := ihl h.2.2.1
      simp only [Tree.nodes, List.length_cons, List.length_append]
      omega

theorem allocs_laid {h : Memory} {depths : List ℤ} (ht : t ∈ (trnmntTreeAllocs h depths).1) :
    Laid t.root t.depth.toNat ∧ 1 ≤ t.depth := by
  induction depths generalizing h with
  | nil => cases ht
  | cons depth depths ih =>
    unfold trnmntTreeAllocs at ht
    cases halloc : trnmntTreeAlloc h depth with
    | none =>
      rw [halloc] at ht
      exact ih ht
    | some r =>
      rw [halloc] at ht
      obtain rfl | ht := List.mem_cons.mp ht
      · obtain ⟨t, h'⟩ := r
        obtain ⟨hlaid, hdepth, hpos, _⟩ := trnmntTreeAlloc_laid halloc
        exact ⟨hlaid, hdepth ▸ hpos⟩
      · exact ih ht

def ReleaseUndoes (treeDepth : ℤ) (t : TrnmntTree) (me id : ℤ) (s : Locks) : Prop :=
  ∃ leaf above result, t.root.path id = some (leaf, above) ∧ trnmntTreeRelease treeDepth t me id s = some result ∧
    result.value = 0 ∧
    (∀ n ∈ above, (result.locks.mutexes (searchId result.locks.mutexes n.mutexId)).locked = 0) ∧
    ∀ i ∈ result.read, (i : ℤ) < t.depth

theorem acquire_spec {id : ℤ} (hlaid : Laid t.root t.depth.toNat)
    (h : trnmntTreeAcquire t me id s = some (s', 0)) :
    ∃ leaf above, t.root.path id = some (leaf, above) ∧ above.length = t.depth.toNat ∧
      Grabs me s.mutexes (above.map TreeNode.mutexId) s'.mutexes ∧
      ∀ i (hi : i < above.length), above[i].level = i ∧ s'.lockPath leaf.lockPath i = above[i].mutexId := by
  obtain ⟨leaf, hfind, hclimb⟩ := Option.bind_eq_some_iff.mp h
  rw [path_findLeaf] at hfind
  obtain ⟨⟨leaf', above⟩, hpath, rfl⟩ := Option.map_eq_some_iff.mp hfind
  obtain ⟨hrise, _⟩ := path_rises hlaid.shaped hpath
  have hlevels : (above.map TreeNode.level).Nodup := by
    rw [hrise.levels]
    exact List.nodup_range.map fun _ _ heq => Int.ofNat_inj.mp heq
  have hfuel : above.length < t.root.nodes.length := by
    rw [hrise.length]
    exact shaped_nodes hlaid.shaped
  obtain ⟨hall, harray, _⟩ := climb_locks hlaid hrise.links hrise.inners hfuel hlevels hclimb
  refine ⟨leaf', above, hpath, hrise.length, locksAll_grabs hall, fun i hi => ?_⟩
  have hlevel := hrise.level hi
  refine ⟨hlevel, ?_⟩
  rw [← hlevel]
  exact harray _ (List.getElem_mem hi)

def idAt (above : List TreeNode) (i : ℕ) : ℤ := (above.map TreeNode.mutexId).getD i 0

theorem idAt_eq (hi : i < above.length) : idAt above i = above[i].mutexId := by
  simp [idAt, hi]

variable {above : List TreeNode} {mutexes mutexes' : Slots}

theorem idAt_mem {i : ℕ} (hi : i < above.length) : idAt above i ∈ above.map TreeNode.mutexId := by
  rw [idAt_eq hi]
  exact List.mem_map_of_mem (List.getElem_mem hi)

theorem grabs_apart (hg : Grabs me mutexes (above.map TreeNode.mutexId) mutexes') {i j : ℕ} (hi : i < above.length)
    (hj : j < above.length) (ht : Takes mutexes me (idAt above i))
    (heq : searchId mutexes (idAt above i) = searchId mutexes (idAt above j)) : i = j := by
  rw [idAt_eq hi] at ht heq
  rw [idAt_eq hj] at heq
  exact hg.apart (by rwa [List.length_map]) (by rwa [List.length_map]) (by rwa [List.getElem_map])
    (by rwa [List.getElem_map, List.getElem_map])

theorem grabs_holding (hg : Grabs me mutexes (above.map TreeNode.mutexId) mutexes') {k : ℕ} (hk : k ≤ above.length)
    (ht : ∀ i < k, Takes mutexes me (idAt above i)) : Holding me mutexes' (idAt above) k := by
  have hsearch := searchId_congr hg.names
  refine ⟨fun i hi => ?_, fun i hi j hj heq => ?_⟩
  · obtain ⟨hid, htid, hl⟩ := hg.taken (idAt_mem (by omega)) (ht i hi)
    rw [hsearch]
    exact ⟨hid, htid, by rw [hl]; decide⟩
  · rw [hsearch, hsearch] at heq
    exact grabs_apart hg (by omega) (by omega) (ht i hi) heq

theorem release_levels {k : ℕ} (hg : Grabs me s.mutexes (above.map TreeNode.mutexId) s'.mutexes)
    (hat : ∀ i < above.length, s'.lockPath leaf.lockPath i = idAt above i) (hk : k ≤ above.length) :
    ((unlockFrom me leaf k s' []).value = 0 ∧ ∀ i < above.length,
        ((unlockFrom me leaf k s' []).locks.mutexes
          (searchId (unlockFrom me leaf k s' []).locks.mutexes (idAt above i))).locked = 0) ↔
      ∀ i < above.length, (i < k ↔ Takes s.mutexes me (idAt above i)) := by
  have hpath : ∀ j < k, s'.lockPath leaf.lockPath j = idAt above j := fun j hj => hat j (by omega)
  have hsearch := searchId_congr hg.names
  have hfrees (ht : ∀ i < k, Takes s.mutexes me (idAt above i)) :
      Frees s'.mutexes (idAt above) k (unlockFrom me leaf k s' []) :=
      unlockFrom_frees hpath (grabs_holding hg hk ht)
  constructor
  · rintro ⟨hvalue, hfree⟩
    have hbelow : ∀ i < k, Takes s.mutexes me (idAt above i) := by
      intro i hi
      by_contra ht
      have hskip := hg.skipped (idAt_mem (by omega)) ht
      rw [← hsearch] at hskip
      rw [unlockFrom_fails hpath hi hskip] at hvalue
      cases hvalue
    refine fun i hi => ⟨hbelow i, fun ht => ?_⟩
    by_contra hik
    have hf := hfrees hbelow
    have hlast := hfree i hi
    rw [searchId_congr hf.names, hf.others _ fun j hj heq => ?_, hsearch, (hg.taken (idAt_mem hi) ht).2.2] at hlast
    · cases hlast
    · rw [hsearch, hsearch] at heq
      have hij := grabs_apart hg (by omega) hi (hbelow j hj) heq
      omega
  · intro hiff
    have hf := hfrees fun i hi => (hiff i (by omega)).mp hi
    refine ⟨hf.value, fun i hi => ?_⟩
    rw [searchId_congr hf.names]
    by_cases hslot : ∃ j < k, searchId s'.mutexes (idAt above j) = searchId s'.mutexes (idAt above i)
    · obtain ⟨j, hj, heq⟩ := hslot
      rw [← heq]
      exact hf.freed j hj
    · rw [hf.others _ fun j hj heq => hslot ⟨j, hj, heq⟩, hsearch]
      refine hg.skipped (idAt_mem hi) fun ht => hslot ⟨i, (hiff i hi).mpr ht, rfl⟩

theorem release_undoes_iff (h : Memory) (depths : List ℤ) (t : TrnmntTree) (ht : t ∈ (trnmntTreeAllocs h depths).1)
    (me id : ℤ) (s s' : Locks) (hacquire : trnmntTreeAcquire t me id s = some (s', 0)) :
    ReleaseUndoes (trnmntTreeAllocs h depths).2.treeDepth t me id s' ↔
      (trnmntTreeAllocs h depths).2.treeDepth ≤ t.depth ∧
      ∀ leaf above, t.root.path id = some (leaf, above) → ∀ n ∈ above,
        (n.level < (trnmntTreeAllocs h depths).2.treeDepth ↔ Takes s.mutexes me n.mutexId) := by
  obtain ⟨hlaid, hpos⟩ := allocs_laid ht
  generalize (trnmntTreeAllocs h depths).2.treeDepth = treeDepth
  obtain ⟨leaf, above, hpath, hlength, hg, hat⟩ := acquire_spec hlaid hacquire
  have hrelease : trnmntTreeRelease treeDepth t me id s' = some (unlockFrom me leaf treeDepth.toNat s' []) := by
    rw [trnmntTreeRelease, path_findLeaf, hpath]
    rfl
  have harray : ∀ i < above.length, s'.lockPath leaf.lockPath i = idAt above i := fun i hi => by
    rw [idAt_eq hi]
    exact (hat i hi).2
  have hlevel (i : ℕ) (hi : i < above.length) : above[i].level < treeDepth ↔ i < treeDepth.toNat := by
    rw [(hat i hi).1]
    omega
  constructor
  · rintro ⟨leaf', above', result, hpath', hresult, hvalue, hfree, hread⟩
    rw [hpath] at hpath'
    cases hpath'
    rw [hrelease] at hresult
    cases hresult
    have hle : treeDepth ≤ t.depth := by
      by_contra hgt
      obtain ⟨k, hk⟩ : ∃ k, treeDepth.toNat = k + 1 := ⟨treeDepth.toNat - 1, by omega⟩
      have hlast := hread k (by rw [hk]; exact unlockFrom_first)
      omega
    have hiff := (release_levels (k := treeDepth.toNat) hg harray (by omega)).mp ⟨hvalue, fun i hi => by
      rw [idAt_eq hi]
      exact hfree _ (List.getElem_mem hi)⟩
    refine ⟨hle, fun leaf' above' hpath' n hn => ?_⟩
    rw [hpath] at hpath'
    cases hpath'
    obtain ⟨i, hi, rfl⟩ := List.getElem_of_mem hn
    rw [hlevel i hi, hiff i hi, idAt_eq hi]
  · rintro ⟨hle, htakes⟩
    have hiff : ∀ i < above.length, (i < treeDepth.toNat ↔ Takes s.mutexes me (idAt above i)) := fun i hi => by
      rw [← hlevel i hi, idAt_eq hi]
      exact htakes leaf above hpath _ (List.getElem_mem hi)
    obtain ⟨hvalue, hfree⟩ := (release_levels (k := treeDepth.toNat) hg harray (by omega)).mpr hiff
    refine ⟨leaf, above, _, hpath, hrelease, hvalue, fun n hn => ?_, fun i hi => ?_⟩
    · obtain ⟨i, hi, rfl⟩ := List.getElem_of_mem hn
      rw [← idAt_eq hi]
      exact hfree i hi
    · obtain hi | hi := unlockFrom_bound hi
      · omega
      · cases hi

def deepFirst : List TrnmntTree × Memory := trnmntTreeAllocs emptyHeap [2, 1]

def deepTree : TrnmntTree := deepFirst.1.head (by decide +kernel)

def shallowFirst : List TrnmntTree × Memory := trnmntTreeAllocs emptyHeap [1, 2]

def shallowTree : TrnmntTree := shallowFirst.1.head (by decide +kernel)

def quiet (h : Memory) : Locks := ⟨h.mutexes, fun _ _ => 0⟩

def roundTrip (t : TrnmntTree) (h : Memory) : Option Released :=
  (trnmntTreeAcquire t 7 0 (quiet h)).bind fun r => trnmntTreeRelease h.treeDepth t 7 0 r.1

def lastTree : TrnmntTree := shallowFirst.1.getLast (by decide +kernel)

theorem release_undoes_iff_lastTree :
    (∃ s', trnmntTreeAcquire lastTree 7 0 (quiet shallowFirst.2) = some (s', 0) ∧
      ReleaseUndoes shallowFirst.2.treeDepth lastTree 7 0 s') ∧
    ∃ s', trnmntTreeAcquire deepTree 7 0 (quiet deepFirst.2) = some (s', 0) ∧
      ¬ ReleaseUndoes deepFirst.2.treeDepth deepTree 7 0 s' := by
  have hlast : (trnmntTreeAcquire lastTree 7 0 (quiet shallowFirst.2)).map Prod.snd = some 0 := by decide +kernel
  have hdeep : (trnmntTreeAcquire deepTree 7 0 (quiet deepFirst.2)).map Prod.snd = some 0 := by decide +kernel
  obtain ⟨⟨s₁, v₁⟩, hlast, rfl⟩ := Option.map_eq_some_iff.mp hlast
  obtain ⟨⟨s₂, v₂⟩, hdeep, rfl⟩ := Option.map_eq_some_iff.mp hdeep
  refine ⟨⟨s₁, hlast, ?_⟩, s₂, hdeep, fun h => ?_⟩
  · refine (release_undoes_iff emptyHeap [1, 2] lastTree
      (List.getLast_mem _) 7 0 _ s₁ hlast).mpr ⟨by decide +kernel, ?_⟩
    have hlevels : ∀ p ∈ lastTree.root.path 0, ∀ n ∈ p.2,
        (n.level < shallowFirst.2.treeDepth ↔ Takes (quiet shallowFirst.2).mutexes 7 n.mutexId) := by
          decide +kernel
    exact fun leaf above hpath => hlevels (leaf, above) hpath
  · have hlevels := ((release_undoes_iff emptyHeap [2, 1] deepTree (List.head_mem _) 7 0 _ s₂ hdeep).mp h).2
    have hroot : ∃ p ∈ deepTree.root.path 0, ∃ n ∈ p.2,
        ¬(n.level < deepFirst.2.treeDepth ↔ Takes (quiet deepFirst.2).mutexes 7 n.mutexId) := by decide +kernel
    obtain ⟨⟨leaf, above⟩, hpath, n, hn, hne⟩ := hroot
    exact hne (hlevels leaf above hpath n hn)

theorem release_uses_last_depth :
    (trnmntTreeAcquire deepTree 7 0 (quiet deepFirst.2)).map Prod.snd = some 0 ∧
    (roundTrip deepTree deepFirst.2).map Released.value = some 0 ∧
    (roundTrip deepTree deepFirst.2).map (fun r => (r.locks.mutexes deepTree.root.node.mutexId.toNat).locked) =
    some 1 ∧
    (trnmntTreeAcquire shallowTree 7 0 (quiet shallowFirst.2)).map Prod.snd = some 0 ∧ shallowTree.depth = 1 ∧
    (roundTrip shallowTree shallowFirst.2).map Released.read = some [0, 1] ∧
    (roundTrip shallowTree shallowFirst.2).map Released.value = some (-1) := by
  decide +kernel

end Xv6.Tournament
