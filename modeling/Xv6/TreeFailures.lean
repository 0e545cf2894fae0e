import Xv6.TreeIndependence
import Xv6.TreeProtocol

open Function

namespace Xv6.Mutex

def HeldBy (mutexes : Slots) (me : ℤ) (k : ℕ) : Prop := (mutexes k).locked ≠ 0 ∧ (mutexes k).tid = me

instance (mutexes : Slots) (me : ℤ) (k : ℕ) : Decidable (HeldBy mutexes me k) :=
  inferInstanceAs (Decidable (_ ∧ _))

def Tests (mutexes : Slots) : Pc → Prop
  | .lockFound mutexId m => (mutexes m).id = mutexId
  | .lockNamed m => (mutexes m).used ≠ 0
  | _ => True

instance (mutexes : Slots) : DecidablePred (Tests mutexes)
  | .lockFound _ _ => inferInstanceAs (Decidable (_ = _))
  | .lockNamed _ => inferInstanceAs (Decidable (_ ≠ _))
  | .idle | .returned _ | .lockChecked _ | .lockSleeping _ _ | .lockWoken _ _ | .unlockFound _ _ | .unlockNamed _
  | .unlockChecked _ | .unlockWakeup _ | .deallocTested _ => inferInstanceAs (Decidable True)

def Pc.passing : Pc → Prop
  | .lockFound _ _ | .lockNamed _ | .lockChecked _ | .lockSleeping _ _ | .lockWoken _ _ => True
  | .returned value => value = 0
  | _ => False

section Held

variable {Thread : Type} [DecidableEq Thread] {tid : Thread → ℤ} {s s' : State Thread}
    {e : Event Thread} {t : Thread} {k : ℕ}

theorem step_heldBy (htid : Injective tid) (h : step tid s e = some s') (hk : HeldBy s'.mutexes (tid t) k) :
    HeldBy s.mutexes (tid t) k ∨ e = .run t ∧ s'.pc t = .returned 0 := by
  cases step_slot k h with
  | untouched e hm hh =>
    rw [HeldBy, hm] at hk
    exact .inl hk
  | alloc u hu hm hh =>
    rw [HeldBy, hm] at hk
    exact absurd rfl hk.1
  | arrive u hpc hl hm hh =>
    rw [HeldBy, hm, lockArrive_tid] at hk
    exact .inl ⟨hl, hk.2⟩
  | lock u hpc hl hm hh =>
    rw [HeldBy, hm, lockCatch_tid _ (by rwa [arrived_locked])] at hk
    obtain rfl := htid hk.2
    exact .inr ⟨rfl, (resume_pc h).trans (nextPc_catch hpc hl)⟩
  | unlock u hpc hl hm hh =>
    rw [HeldBy, hm] at hk
    exact absurd rfl hk.1
  | dealloc u hpc hm hh =>
    rw [HeldBy, hm] at hk
    exact absurd rfl hk.1

theorem wake_pc (h : step tid s (.wake t) = some s') :
    ∃ m counted, s.pc t = .lockSleeping m counted ∧ s'.pc t = .lockWoken m counted := by
  simp only [step] at h
  split at h
  · rename_i m counted hpc
    cases h
    exact ⟨m, counted, hpc, update_self _ _ _⟩
  · cases h

theorem nextPc_passing {me : ℤ} {mutexes : Slots} {pc : Pc} (h : pc.passing) (ht : Tests mutexes pc) :
    (nextPc me mutexes pc).passing := by
  cases pc with
  | lockFound mutexId m =>
    have hid : (mutexes m).id = mutexId := ht
    rw [nextPc, if_neg (not_not.mpr hid)]
    trivial
  | lockNamed m =>
    rw [nextPc, if_neg ht]
    trivial
  | lockChecked m =>
    rw [nextPc]
    split_ifs <;> trivial
  | lockWoken m counted =>
    rw [nextPc]
    split_ifs <;> trivial
  | lockSleeping m counted => trivial
  | returned value => exact h
  | _ => exact h.elim

end Held

end Xv6.Mutex

namespace Xv6.Tournament

open Xv6.Mutex (Slots Pc HeldBy Tests searchId)
open Xv6.Runs

section Caller

variable {Thread : Type} [DecidableEq Thread]

/-- What can happen during a call: steps of the caller, mutex calls of other threads, stores to the arrays
`lockPath`. -/
inductive During (Thread : Type) where
  | own (e : Event Thread)
  | others (e : Mutex.Event Thread)
  | store (path : ℕ) (i value : ℤ)
  deriving DecidableEq

def during (c : Setup Thread) (s : State Thread) : During Thread → Option (State Thread)
  | .own e => step c s e
  | .others e => mutexStep c s e
  | .store path i value => some (s.setLockPath path i value)

def Meanwhile (t : Thread) : During Thread → Prop
  | .own e => e = .run t ∨ e = .wake t
  | .others e => e.actor ≠ t
  | .store _ _ _ => True

instance (t : Thread) : DecidablePred (Meanwhile t)
  | .own _ => inferInstanceAs (Decidable (_ ∨ _))
  | .others _ => inferInstanceAs (Decidable (_ ≠ _))
  | .store _ _ _ => inferInstanceAs (Decidable True)

def TreePc.upper : TreePc → Bool
  | .locking leaf curNode _ => curNode ≠ leaf
  | _ => false

/-- The lock calls for the nodes above the first one find their mutexes allocated. -/
def UpperAllocated (t : Thread) (s : State Thread) (e : During Thread) : Prop :=
  Meanwhile t e ∧ (e = .own (.run t) → (s.pc t).upper → Tests s.mx.mutexes (s.mx.pc t))

instance (t : Thread) (s : State Thread) (e : During Thread) : Decidable (UpperAllocated t s e) :=
  inferInstanceAs (Decidable (_ ∧ _))

variable {c : Setup Thread} {t : Thread} {s s' : State Thread} {depth : ℕ} {H : ℕ → Prop}

def Keeps (c : Setup Thread) (t : Thread) (H : ℕ → Prop) (mx : Mutex.State Thread) : Prop :=
  ∀ k, HeldBy mx.mutexes (c.tid t) k → H k

def Attempt (tree : Tree) (keeps : Prop) (call : Pc) : TreePc → Prop
  | .climbing leaf curNode => leaf.level = -1 ∧ curNode ∈ tree.nodes ∧ (curNode = leaf → keeps)
  | .locking leaf curNode parent => leaf.level = -1 ∧ curNode ∈ tree.nodes ∧ parent ∈ tree.inners ∧
    (curNode = leaf → call ≠ .returned 0 → keeps) ∧ (curNode ≠ leaf → call.passing)
  | .returned value => value = -1 → keeps
  | _ => False

section Shape

variable {tree : Tree} {top k : ℕ} {n : TreeNode}

theorem Tree.Shaped.parent (h : tree.Shaped top k) (hn : n ∈ tree.nodes) :
    n.parent = top ∨ ∃ m ∈ tree.inners, n.parent = m.addr := by
  induction tree generalizing top k with
  | leaf node =>
    cases k with
    | zero =>
      rw [List.mem_singleton.mp hn]
      exact .inl h.1
    | succ k => exact h.elim
  | inner node left right ihl ihr =>
    cases k with
    | zero => exact h.elim
    | succ k =>
      obtain ⟨hparent, _, hl, hr⟩ := h
      obtain rfl | hn := List.mem_cons.mp hn
      · exact .inl hparent
      · -- a node of a subtree hangs below this node or below one of the subtree
        have hsub {sub : Tree} (hin : ∀ m ∈ sub.inners, m ∈ left.inners ++ right.inners)
            (h : n.parent = node.addr ∨ ∃ m ∈ sub.inners, n.parent = m.addr) :
            ∃ m ∈ (Tree.inner node left right).inners, n.parent = m.addr := by
          obtain heq | ⟨m, hm, heq⟩ := h
          · exact ⟨node, List.mem_cons_self, heq⟩
          · exact ⟨m, List.mem_cons_of_mem _ (hin m hm), heq⟩
        obtain hn | hn := List.mem_append.mp hn
        · exact .inr (hsub (fun m => List.mem_append_left _) (ihl hl hn))
        · exact .inr (hsub (fun m => List.mem_append_right _) (ihr hr hn))

theorem Tree.Shaped.level_nonneg (h : tree.Shaped top k) (hn : n ∈ tree.inners) : 0 ≤ n.level := by
  induction tree generalizing top k with
  | leaf node => cases hn
  | inner node left right ihl ihr =>
    cases k with
    | zero => exact h.elim
    | succ k =>
      obtain ⟨_, hlevel, hl, hr⟩ := h
      obtain rfl | hn := List.mem_cons.mp hn
      · omega
      · exact (List.mem_append.mp hn).elim (ihl hl) (ihr hr)

theorem Tree.Shaped.findLeaf_level {id : ℤ} (h : tree.Shaped top k) (hfind : findLeaf id tree = some n) :
    n.level = -1 := by
  induction tree generalizing top k with
  | leaf node =>
    cases k with
    | zero =>
      obtain ⟨_, heq⟩ := Option.ite_none_right_eq_some.mp hfind
      cases heq
      exact h.2
    | succ k => exact h.elim
  | inner node left right ihl ihr =>
    cases k with
    | zero => exact h.elim
    | succ k =>
      obtain ⟨_, _, hl, hr⟩ := h
      obtain hfind | hfind := findLeaf_inner hfind
      · exact ihl hl hfind
      · exact ihr hr hfind

end Shape

theorem Keeps.step {e : Mutex.Event Thread} {mx mx' : Mutex.State Thread} (h : Keeps c t H mx)
    (hs : Mutex.step c.tid mx e = some mx') (hpc : e = .run t → mx'.pc t ≠ .returned 0) : Keeps c t H mx' := by
  intro k hk
  obtain hk | ⟨he, hret⟩ := Mutex.step_heldBy c.tid.injective hs hk
  · exact h k hk
  · exact absurd hret (hpc he)

theorem Attempt.frame {tree : Tree} {keeps keeps' : Prop} {call call' : Pc} {pc : TreePc}
    (h : Attempt tree keeps call pc) (hk : keeps → keeps')
    (hcall : call' = call ∨ ∃ m counted, call = .lockSleeping m counted ∧ call' = .lockWoken m counted) :
    Attempt tree keeps' call' pc := by
  cases pc with
  | climbing leaf curNode => exact ⟨h.1, h.2.1, fun heq => hk (h.2.2 heq)⟩
  | locking leaf curNode parent =>
    obtain ⟨hlevel, hcur, hparent, hfirst, hlater⟩ := h
    refine ⟨hlevel, hcur, hparent, fun heq hret => hk (hfirst heq ?_), fun hne => ?_⟩
    · obtain rfl | ⟨m, counted, rfl, _⟩ := hcall
      · exact hret
      · exact nofun
    · obtain rfl | ⟨m, counted, _, rfl⟩ := hcall
      · exact hlater hne
      · trivial
  | returned value => exact fun heq => hk (h heq)
  | _ => exact h

def Trying (c : Setup Thread) (t : Thread) (H : ℕ → Prop) (s : State Thread) : Prop :=
  Attempt c.tree (Keeps c t H s.mx) (s.mx.pc t) (s.pc t)

theorem Trying.climb {leaf curNode : TreeNode} (hlaid : Laid c.tree depth) (h : Trying c t H s)
    (hpc : s.pc t = .climbing leaf curNode) (hs : climb c s t leaf curNode = some s') : Trying c t H s' := by
  unfold Trying at h ⊢
  rw [hpc] at h
  obtain ⟨hlevel, hcur, hfirst⟩ := h
  unfold Tournament.climb at hs
  split_ifs at hs with hroot
  · cases hs
    rw [State.setInside_pc, State.goto_pc, update_self]
    intro heq
    cases heq
  · obtain hzero | ⟨m, hm, haddr⟩ := hlaid.shaped.parent hcur
    · exact absurd hzero hroot
    · rw [haddr, hlaid.nodeAt hm] at hs
      obtain ⟨mx, hmx, rfl⟩ := Option.map_eq_some_iff.mp hs
      have hcall : mx.pc t = .lockFound m.mutexId (searchId s.mx.mutexes m.mutexId) := Mutex.step_pc_actor hmx
      rw [State.setMx_pc, State.goto_pc, update_self, State.setMx_mx, hcall]
      refine ⟨hlevel, hcur, hm, fun heq _ => (hfirst heq).step hmx ?_, fun _ => trivial⟩
      exact fun he => by cases he

theorem Trying.lockDone {leaf curNode parent : TreeNode} {value : ℤ}
    (hlaid : Laid c.tree depth) (h : Trying c t H s)
    (hpc : s.pc t = .locking leaf curNode parent) (hret : s.mx.pc t = .returned value) :
    Trying c t H (lockDone s t leaf curNode parent value) := by
  unfold Trying at h ⊢
  rw [hpc, hret] at h
  obtain ⟨hlevel, hcur, hparent, hfirst, hlater⟩ := h
  have hnonneg := hlaid.shaped.level_nonneg hparent
  unfold Tournament.lockDone
  dsimp only
  split_ifs with hfail hzero
  · rw [State.goto_pc, update_self]
    intro _
    by_cases heq : curNode = leaf
    · exact hfirst heq fun hv => by
        rw [hfail] at hv
        cases hv
    · have hv : value = 0 := hlater heq
      omega
  · rw [State.goto_pc, update_self]
    exact ⟨hlevel, inners_nodes hparent, fun heq => by
      rw [heq] at hnonneg
      omega⟩
  · rw [State.goto_pc, update_self]
    exact ⟨hlevel, hcur, fun heq => hfirst heq fun hv => hzero (Pc.returned.inj hv)⟩

theorem Trying.run {leaf curNode parent : TreeNode} {mx : Mutex.State Thread} (h : Trying c t H s)
    (hpc : s.pc t = .locking leaf curNode parent) (hret : ∀ value, s.mx.pc t ≠ .returned value)
    (htests : curNode ≠ leaf → Tests s.mx.mutexes (s.mx.pc t)) (hs : Mutex.step c.tid s.mx (.run t) = some mx) :
    Trying c t H (s.setMx mx) := by
  unfold Trying at h ⊢
  rw [State.setMx_pc, State.setMx_mx, hpc]
  rw [hpc] at h
  obtain ⟨hlevel, hcur, hparent, hfirst, hlater⟩ := h
  refine ⟨hlevel, hcur, hparent, fun heq hzero => (hfirst heq (hret 0)).step hs fun _ => hzero, fun hne => ?_⟩
  rw [show mx.pc t = Mutex.nextPc (c.tid t) s.mx.mutexes (s.mx.pc t) from Mutex.step_pc_actor hs]
  exact Mutex.nextPc_passing (hlater hne) (htests hne)

theorem Trying.resume (hlaid : Laid c.tree depth) (h : Trying c t H s)
    (htests : (s.pc t).upper → Tests s.mx.mutexes (s.mx.pc t)) (hs : resume c s t = some s') :
    Trying c t H s' := by
  cases hpc : s.pc t with
  | climbing leaf curNode =>
    rw [Tournament.resume, hpc] at hs
    exact h.climb hlaid hpc hs
  | locking leaf curNode parent =>
    rw [Tournament.resume, hpc] at hs
    dsimp only at hs
    split at hs
    · rename_i value hret
      cases hs
      exact h.lockDone hlaid hpc hret
    · rename_i hret
      obtain ⟨mx, hmx, rfl⟩ := Option.map_eq_some_iff.mp hs
      refine h.run hpc hret (fun hne => htests ?_) hmx
      rw [hpc]
      exact decide_eq_true hne
  | idle | returned value =>
    rw [Tournament.resume, hpc] at hs
    cases hs
  | releasing leaf i | unlocking leaf i =>
    rw [Trying, hpc] at h
    exact h.elim

theorem trying_step (hlaid : Laid c.tree depth) : Preserves (during c) (UpperAllocated t) (Trying c t H) := by
  rintro s e s' h hok hs
  cases e with
  | own e =>
    obtain ⟨rfl | rfl, htests⟩ := hok
    · exact h.resume hlaid (htests rfl) hs
    · obtain ⟨mx, hmx, rfl⟩ := Option.map_eq_some_iff.mp hs
      refine h.frame (fun hk => hk.step hmx fun he => by cases he) ?_
      exact .inr (Mutex.wake_pc hmx)
  | others e =>
    obtain ⟨mx, hmx, rfl⟩ := Option.map_eq_some_iff.mp hs
    refine h.frame (fun hk => hk.step hmx fun he => absurd ?_ hok.1) (Mutex.step_pc_other hmx hok.1.symm)
    rw [he]
    rfl
  | store path i value =>
    cases hs
    exact h

theorem failed_acquire_clean (h h' : Memory) (depth : ℤ) (tree : TrnmntTree)
    (halloc : trnmntTreeAlloc h depth = some (tree, h')) (c : Setup Thread) (hc : c.tree = tree.root) (t : Thread)
    (hID : 0 ≤ c.ID t ∧ c.ID t < 2 ^ depth.toNat) (s : State Thread) (hfree : (s.pc t).free) :
    (∃ s₁, step c s (.acquire t) = some s₁ ∧ ∀ s', Reaches (during c) (UpperAllocated t) s₁ s' →
      s'.pc t = .returned (-1) → ∀ k, HeldBy s'.mx.mutexes (c.tid t) k → HeldBy s.mx.mutexes (c.tid t) k) ∧
    ∃ s₁, step c s (.release t) = some s₁ := by
  obtain ⟨hlaid, hd, _⟩ := trnmntTreeAlloc_laid halloc
  rw [← hc, hd] at hlaid
  have hindices := trnmntTreeAlloc_indices halloc
  rw [← hc] at hindices
  obtain ⟨leaf, hleaf⟩ : ∃ leaf, findLeaf (c.ID t) c.tree = some leaf := by
    rw [← Option.ne_none_iff_exists']
    exact fun hnone => (hlaid.findLeaf_none hindices).mp hnone hID
  refine ⟨⟨_, by rw [step, if_pos hfree, hleaf, Option.map_some], fun s' hr hpc => ?_⟩,
    ⟨_, by rw [step, if_pos hfree, hleaf, Option.map_some]⟩⟩
  have hstart : Trying c t (HeldBy s.mx.mutexes (c.tid t)) (s.goto t (.climbing leaf leaf)) := by
    rw [Trying, State.goto_pc, update_self]
    exact ⟨hlaid.shaped.findLeaf_level hleaf, findLeaf_mem hleaf, fun _ _ hk => hk⟩
  have hend := hr.invariant (trying_step hlaid) hstart
  rw [Trying, hpc] at hend
  exact hend rfl

end Caller

def pairSetup (ID : Bool ↪ ℤ) : Setup Bool := ⟨twoLevels.1.root, 2, ⟨fun b => if b then 8 else 7, by decide⟩, ID⟩

def outerIDs : Bool ↪ ℤ := ⟨fun b => if b then 3 else 0, by decide⟩

def noLeaf : Bool ↪ ℤ := ⟨fun b => if b then 3 else 4, by decide⟩

def pairStart (mutexes : Slots) : State Bool :=
  ⟨⟨mutexes, none, fun _ => .idle, fun _ _ => false⟩, fun _ => .idle, fun _ _ => 0, fun _ => false⟩

theorem pairStart_acquires (mutexes : Slots) :
    (step (pairSetup outerIDs) (pairStart mutexes) (.acquire false)).isSome := rfl

def calling (mutexes : Slots) : State Bool :=
  (step (pairSetup outerIDs) (pairStart mutexes) (.acquire false)).get (pairStart_acquires mutexes)

def lowerless : Slots := update (update twoLevels.2.mutexes 1 Mutex.cleared) 0 ⟨0, 1, 7, 1, 0⟩

def refused : State Bool :=
  (exec (during (pairSetup outerIDs)) (UpperAllocated false) (calling lowerless) [.own (.run false),
    .others (.call true (.lock 2)), .others (.run true), .own (.run false),
    .others (.run true), .others (.run true), .own (.run false)]).get (by decide +kernel)

theorem failed_acquire_clean_refused : (refused.pc false = .returned (-1)) ∧ HeldBy refused.mx.mutexes 7 0 ∧
    HeldBy refused.mx.mutexes 8 2 ∧ ∀ k, HeldBy refused.mx.mutexes 7 k → HeldBy lowerless 7 k := by
  obtain ⟨⟨s₁, hs₁, hclean⟩, _⟩ :=
    failed_acquire_clean emptyHeap twoLevels.2 2 twoLevels.1 rfl (pairSetup outerIDs) rfl
      false (by decide) (pairStart lowerless) rfl
  have hfirst : calling lowerless = s₁ := Option.get_of_eq_some _ hs₁
  have hpc : refused.pc false = .returned (-1) := by decide +kernel
  exact ⟨hpc, by decide +kernel, by decide +kernel, hclean refused (hfirst ▸ exec_get_reaches _ _ _) hpc⟩

def rootless : Slots := update (update twoLevels.2.mutexes 0 Mutex.cleared) 1 ⟨1, 1, 8, 1, 0⟩

theorem acquire_keeps_lower : (∃ s', Reaches (during (pairSetup outerIDs))
    (fun _ => Meanwhile false) (calling rootless) s' ∧
      s'.pc false = .returned (-1) ∧ HeldBy s'.mx.mutexes 7 1 ∧ ¬ HeldBy rootless 7 1) ∧
    findLeaf 4 twoLevels.1.root = none ∧ (step (pairSetup noLeaf) (pairStart rootless) (.acquire false)).isNone ∧
    (step (pairSetup noLeaf) (pairStart rootless) (.release false)).isNone := by
  have hr : Reaches (during (pairSetup outerIDs)) (fun _ => Meanwhile false) (calling rootless) _ :=
    exec_get_reaches _ [.own (.run false), .own (.run false), .own (.run false), .own (.run false),
      .others (.call true (.unlock 1)), .others (.run true), .others (.run true),
      .others (.run true), .others (.run true),
      .own (.run false), .own (.run false), .own (.run false), .own (.run false),
      .own (.run false), .own (.run false)] (by decide +kernel)
  exact ⟨⟨_, hr, by decide +kernel, by decide +kernel, by decide +kernel⟩, by decide +kernel, by decide +kernel,
    by decide +kernel⟩

section Release

open Xv6.Mutex

variable {mutexes : Slots} {me mutexId : ℤ} {s : Locks}

def ReleaseRefused (treeDepth : ℤ) (t : TrnmntTree) (me id : ℤ) (s : Locks) : Prop :=
  ∃ result, trnmntTreeRelease treeDepth t me id s = some result ∧ result.value = -1 ∧
  result.locks.mutexes = s.mutexes

def Unlocks (mutexes : Slots) (me mutexId : ℤ) : Prop :=
  (mutexes (searchId mutexes mutexId)).id = mutexId ∧ HeldBy mutexes me (searchId mutexes mutexId)

theorem unlock_refused (h : ¬ Unlocks mutexes me mutexId) :
    kthreadMutexUnlock mutexes me mutexId = (mutexes, -1) := by
  obtain hfail | hok := unlock_cases mutexes me mutexId
  · exact hfail
  · exfalso
    apply h
    unfold kthreadMutexUnlock at hok
    simp only at hok
    split_ifs at hok with hid htid hl
    · cases congrArg Prod.snd hok
    · cases congrArg Prod.snd hok
    · cases congrArg Prod.snd hok
    · exact ⟨not_not.mp hid, hl, (not_not.mp htid).symm⟩

theorem unlockFrom_unlocked {leaf : TreeNode} {m k : ℕ} {read : List ℕ} (hl : (s.mutexes m).locked = 0) :
    ((unlockFrom me leaf k s read).locks.mutexes m).locked = 0 := by
  induction k generalizing s read with
  | zero => exact hl
  | succ k ih =>
    obtain hfail | hok := unlock_cases s.mutexes me (s.lockPath leaf.lockPath k)
    · rw [unlockFrom, hfail]
      exact hl
    · obtain ⟨s₁, heq, hm, _⟩ := unlockFrom_next read hok
      rw [heq]
      apply ih
      rw [hm]
      exact unlocked_free (.inr hl)

theorem release_refused_iff (treeDepth : ℤ) (t : TrnmntTree) (me id : ℤ) (s : Locks) :
    ReleaseRefused treeDepth t me id s ↔ 0 < treeDepth ∧ ∃ leaf, findLeaf id t.root = some leaf ∧
      ¬ Unlocks s.mutexes me (s.lockPath leaf.lockPath (treeDepth - 1)) := by
  constructor
  · rintro ⟨result, hresult, hvalue, hsame⟩
    obtain ⟨leaf, hleaf, rfl⟩ := Option.map_eq_some_iff.mp hresult
    obtain hpos | hpos := Int.lt_or_le 0 treeDepth
    · obtain ⟨k, rfl⟩ : ∃ k : ℕ, treeDepth = k + 1 := ⟨(treeDepth - 1).toNat, by omega⟩
      refine ⟨hpos, leaf, hleaf, fun ⟨hid, hl, htid⟩ => ?_⟩
      rw [Int.add_sub_cancel] at hid hl htid
      have hunlock := unlock_held hid htid hl
      obtain ⟨s₁, heq, hm, _⟩ := unlockFrom_next [] hunlock
      have hfreed : (s₁.mutexes (searchId s.mutexes (s.lockPath leaf.lockPath k))).locked = 0 := by
        rw [hm]
        exact unlocked_free (.inl rfl)
      have hlast : ((unlockFrom me leaf k s₁ [k]).locks.mutexes
          (searchId s.mutexes (s.lockPath leaf.lockPath k))).locked = 0 := unlockFrom_unlocked hfreed
      rw [← heq] at hlast
      rw [show ((k : ℤ) + 1).toNat = k + 1 from rfl] at hsame
      rw [hsame] at hlast
      exact hl hlast
    · rw [Int.toNat_of_nonpos hpos] at hvalue
      cases hvalue
  · rintro ⟨hpos, leaf, hleaf, hno⟩
    obtain ⟨k, rfl⟩ : ∃ k : ℕ, treeDepth = k + 1 := ⟨(treeDepth - 1).toNat, by omega⟩
    rw [Int.add_sub_cancel] at hno
    have hrelease : trnmntTreeRelease (k + 1) t me id s = some ⟨s, -1, [k]⟩ := by
      rw [trnmntTreeRelease, hleaf, Option.map_some, show ((k : ℤ) + 1).toNat = k + 1 from rfl, unlockFrom,
        unlock_refused hno]
      rfl
    exact ⟨_, hrelease, rfl, rfl⟩

end Release

/-- `holds` is not read by the code: it follows the calls that return 0, by thread, number of the tree and ID. -/
structure Calls where
  locks : Locks
  holds : ℤ → ℕ → ℤ → Bool

inductive TreeCall where
  | acquire (me : ℤ) (i : ℕ) (id : ℤ)
  | release (me : ℤ) (i : ℕ) (id : ℤ)

def Calls.note (s : Calls) (locks : Locks) (value me : ℤ) (i : ℕ) (id : ℤ) (b : Bool) : Calls :=
  ⟨locks, fun me' i' id' => if value = 0 ∧ me' = me ∧ i' = i ∧ id' = id then b else s.holds me' i' id'⟩

def callStep (trees : List TrnmntTree) (treeDepth : ℤ) (s : Calls) : TreeCall → Option Calls
  | .acquire me i id => trees[i]?.bind fun t =>
    (trnmntTreeAcquire t me id s.locks).map fun r => s.note r.1 r.2 me i id true
  | .release me i id => trees[i]?.bind fun t =>
    (trnmntTreeRelease treeDepth t me id s.locks).map fun r => s.note r.locks r.value me i id false

def twoTrees : List TrnmntTree × Memory := trnmntTreeAllocs emptyHeap [1, 1]

def otherTree : TrnmntTree := twoTrees.1.getLast (by decide +kernel)

def untouched : Calls := ⟨quiet twoTrees.2, fun _ _ _ => false⟩

theorem release_frees_other_tree : ∃ s, Reaches (callStep twoTrees.1 twoTrees.2.treeDepth) Always untouched s ∧
    twoTrees.1[1]? = some otherTree ∧ s.holds 7 1 0 = false ∧ s.holds 7 0 0 = true ∧ HeldBy s.locks.mutexes 7 0 ∧
    ∃ result, trnmntTreeRelease twoTrees.2.treeDepth otherTree 7 0 s.locks = some result ∧ result.value = 0 ∧
      (result.locks.mutexes 0).locked = 0 :=
  have hr : Reaches (callStep twoTrees.1 twoTrees.2.treeDepth) Always untouched _ :=
    exec_get_reaches untouched [.acquire 7 0 0] (by decide +kernel)
  ⟨_, hr, rfl, by decide +kernel, by decide +kernel, ⟨by decide +kernel, by decide +kernel⟩, _, rfl,
    by decide +kernel, by decide +kernel⟩

end Xv6.Tournament
