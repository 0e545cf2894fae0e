import Xv6.Runs
import Xv6.TreeCalls
import Xv6.TreeProtocol

/-! `trnmnt_tree_acquire` and `trnmnt_tree_release` as functions are what the interleaved calls compute when
no other thread comes in between. -/

open Function

namespace Xv6.Mutex

open Xv6.Runs

variable {Thread : Type} [DecidableEq Thread] {tid : Thread → ℤ} {s : State Thread} {t : Thread} {mutexes : Slots}
  {value : ℤ}

def Alone (tid : Thread → ℤ) (t : Thread) (s : State Thread) (mutexes : Slots) (value : ℤ) : Prop :=
  ∃ s', Reaches (step tid) (fun _ e => e = .run t) s s' ∧ s'.mutexes = mutexes ∧ s'.tableLock = none ∧
    s'.pc t = .returned value

theorem Alone.done (hm : s.mutexes = mutexes) (hlock : s.tableLock = none) (hpc : s.pc t = .returned value) :
    Alone tid t s mutexes value := ⟨s, .refl, hm, hlock, hpc⟩

theorem Alone.run {s' : State Thread} (hs : resume tid s t = some s') (h : Alone tid t s' mutexes value) :
    Alone tid t s mutexes value := by
  obtain ⟨x, hr, hm⟩ := h
  exact ⟨x, Reaches.trans (Reaches.tail .refl rfl hs) hr, hm⟩

theorem goto_goto (s : State Thread) (t : Thread) (pc pc' : Pc) : (s.goto t pc).goto t pc' = s.goto t pc' := by
  simp [State.goto]

theorem unlock_alone (tid : Thread → ℤ) (t : Thread) (mutexId : ℤ) (hlock : s.tableLock = none) :
    Alone tid t (enter s t (.unlock mutexId))
      (kthreadMutexUnlock s.mutexes (tid t) mutexId).1 (kthreadMutexUnlock s.mutexes (tid t) mutexId).2 := by
  unfold enter kthreadMutexUnlock
  simp only
  generalize searchId s.mutexes mutexId = m
  by_cases hid : (s.mutexes m).id = mutexId
  · rw [if_neg (not_not.mpr hid)]
    refine .run (by simp [resume, hid, goto_goto]; rfl) ?_
    by_cases htid : tid t = (s.mutexes m).tid
    · rw [if_neg (not_not.mpr htid)]
      refine .run (by simp [resume, htid, goto_goto]; rfl) ?_
      by_cases hl : (s.mutexes m).locked = 0
      · rw [if_pos hl]
        refine .run (by simp [resume, unlockRegion, hl, goto_goto]; rfl) ?_
        exact .done rfl hlock (by simp)
      · rw [if_neg hl]
        refine .run (by simp [resume, unlockRegion, hl]; rfl) ?_
        refine .run (by simp [resume]; rfl) ?_
        exact .done rfl hlock (by simp)
    · rw [if_pos htid]
      refine .run (by simp [resume, htid, goto_goto]; rfl) ?_
      exact .done rfl hlock (by simp)
  · rw [if_pos hid]
    refine .run (by simp [resume, hid, goto_goto]; rfl) ?_
    exact .done rfl hlock (by simp)

theorem lock_alone {mutexId : ℤ} (hlock : s.tableLock = none)
    (h : kthreadMutexLock s.mutexes (tid t) mutexId = some (mutexes, value)) :
    Alone tid t (enter s t (.lock mutexId)) mutexes value := by
  unfold kthreadMutexLock at h
  unfold enter
  simp only at h ⊢
  generalize searchId s.mutexes mutexId = m at h ⊢
  by_cases hid : (s.mutexes m).id = mutexId
  · rw [if_neg (not_not.mpr hid)] at h
    refine .run (by simp [resume, hid, goto_goto]; rfl) ?_
    by_cases hu : (s.mutexes m).used = 0
    · rw [if_pos hu] at h
      cases h
      refine .run (by simp [resume, hu, goto_goto]; rfl) ?_
      exact .done rfl hlock (by simp)
    · rw [if_neg hu] at h
      obtain ⟨hl, heq⟩ := Option.ite_none_left_eq_some.mp h
      cases heq
      refine .run (by simp [resume, hu, goto_goto]; rfl) ?_
      refine .run (by
        simp only [resume, State.goto_pc, update_self, lockLoop, State.goto_mutexes, if_neg hl]
        rfl) ?_
      exact .done rfl hlock (by simp)
  · rw [if_pos hid] at h
    cases h
    refine .run (by simp [resume, hid, goto_goto]; rfl) ?_
    exact .done rfl hlock (by simp)

end Xv6.Mutex

namespace Xv6.Tournament

open Xv6.Mutex (kthreadMutexUnlock)
open Xv6.Runs

variable {Thread : Type} [DecidableEq Thread]

def Ends (t : Thread) (locks : Locks) (value : ℤ) (s : State Thread) : Prop :=
  s.pc t = .returned value ∧ s.mx.mutexes = locks.mutexes ∧ s.lockPath = locks.lockPath

def Finishes (c : Setup Thread) (t : Thread) (s : State Thread) (locks : Locks) (value : ℤ) : Prop :=
  ∀ x, Reaches (step c) (fun _ e => e = .run t) s x → ∃ s', Reaches (step c) (fun _ e => e = .run t) x s' ∧
    Ends t locks value s'

def RunsTo (c : Setup Thread) (t : Thread) (P : State Thread → Prop) (s : State Thread) : Prop :=
  ∃ s', Reaches (step c) (fun _ e => e = .run t) s s' ∧ P s'

variable {c : Setup Thread} {t : Thread} {s s' : State Thread} {locks locks' : Locks}
    {value : ℤ} {leaf curNode : TreeNode}
  {P : State Thread → Prop}

theorem RunsTo.here (h : P s) : RunsTo c t P s := ⟨s, .refl, h⟩

theorem RunsTo.run (hs : resume c s t = some s') (h : RunsTo c t P s') : RunsTo c t P s := by
  obtain ⟨x, hr, hx⟩ := h
  exact ⟨x, Reaches.trans (Reaches.tail .refl rfl hs) hr, hx⟩

theorem RunsTo.finishes (h : RunsTo c t (Ends t locks value) s) : Finishes c t s locks value := by
  obtain ⟨s', hs', hend⟩ := h
  intro x hx
  have hunique : Relator.RightUnique (Guarded (step c) fun _ e => e = .run t) := by
    rintro a y z ⟨_, rfl, hy⟩ ⟨_, rfl, hz⟩
    exact Option.some.inj (hy.symm.trans hz)
  obtain hback | hon := Relation.ReflTransGen.total_of_right_unique hunique hs' hx
  · -- the thread does not run on once it has returned
    obtain rfl | ⟨y, ⟨_, rfl, hstep⟩, _⟩ := hback.cases_head
    · exact ⟨s', .refl, hend⟩
    · rw [step, resume, hend.1] at hstep
      cases hstep
  · exact ⟨s', hon, hend⟩

structure Between (t : Thread) (pc : TreePc) (locks : Locks) (s : State Thread) : Prop where
  pc : s.pc t = pc
  free : (s.mx.pc t).free
  table : s.mx.tableLock = none
  mutexes : s.mx.mutexes = locks.mutexes
  lockPath : s.lockPath = locks.lockPath

def TreePc.calls : TreePc → Bool
  | .locking _ _ _ | .unlocking _ _ => true
  | _ => false

theorem resume_mutex {mx : Mutex.State Thread} (hpc : (s.pc t).calls) (hs : Mutex.resume c.tid s.mx t = some mx) :
    resume c s t = some (s.setMx mx) := by
  have hcall (value : ℤ) : s.mx.pc t ≠ .returned value := by
    intro hret
    rw [Mutex.resume, hret] at hs
    cases hs
  have hstep : mutexStep c s (.run t) = some (s.setMx mx) := by rw [mutexStep, Mutex.step, hs, Option.map_some]
  cases heq : s.pc t with
  | locking leaf curNode parent =>
    rw [resume, heq]
    dsimp only
    split
    · exact absurd ‹_› (hcall _)
    · exact hstep
  | unlocking leaf i =>
    rw [resume, heq]
    dsimp only
    split
    · exact absurd ‹_› (hcall _)
    · exact hstep
  | _ =>
    rw [heq] at hpc
    cases hpc

theorem reaches_mutex {mx mx' : Mutex.State Thread} (hpc : (s.pc t).calls)
    (h : Reaches (Mutex.step c.tid) (fun _ e => e = .run t) mx mx') :
    Reaches (step c) (fun _ e => e = .run t) (s.setMx mx) (s.setMx mx') := by
  induction h with
  | refl => exact .refl
  | tail _ hstep ih =>
    obtain ⟨_, rfl, hs⟩ := hstep
    exact ih.tail rfl (resume_mutex (s := s.setMx _) hpc hs)

theorem RunsTo.call {pc pc' : TreePc} {call : Mutex.Call} {mutexes : Mutex.Slots} (hs : Between t pc locks s)
    (hcalls : pc'.calls) (hstep : resume c s t = mutexStep c (s.goto t pc') (.call t call))
    (halone : Mutex.Alone c.tid t (Mutex.enter s.mx t call) mutexes value)
    (h : ∀ x, Between t pc' { locks with mutexes := mutexes } x → x.mx.pc t = .returned value → RunsTo c t P x) :
    RunsTo c t P s := by
  obtain ⟨mx, hr, hmutexes, htable, hpc⟩ := halone
  have hrun : resume c s t = some ((s.goto t pc').setMx (Mutex.enter s.mx t call)) := by
    rw [hstep, mutexStep, Mutex.step, State.goto_mx, if_pos ⟨hs.table, hs.free⟩, Option.map_some]
  have hpc' : ((s.goto t pc').setMx mx).pc t = pc' := by rw [State.setMx_pc, State.goto_pc, update_self]
  refine RunsTo.run hrun ?_
  have hbetween : Between t pc' { locks with mutexes := mutexes } ((s.goto t pc').setMx mx) := by
    refine ⟨hpc', ?_, htable, hmutexes, hs.lockPath⟩
    rw [State.setMx_mx, hpc]
    rfl
  obtain ⟨y, hr', hy⟩ := h _ hbetween hpc
  refine ⟨y, Reaches.trans (reaches_mutex (s := s.goto t pc') ?_ hr) hr', hy⟩
  rw [State.goto_pc, update_self]
  exact hcalls

theorem climbFrom_runs {fuel : ℕ} (h : climbFrom c.tree (c.tid t) leaf fuel curNode locks = some (locks', value))
    (hs : Between t (.climbing leaf curNode) locks s) : RunsTo c t (Ends t locks' value) s := by
  induction fuel generalizing curNode locks s with
  | zero => cases h
  | succ fuel ih =>
    rw [climbFrom] at h
    split_ifs at h with hroot
    · cases h
      have hrun : resume c s t = some ((s.goto t (.returned 0)).setInside t true) := by
        rw [resume, hs.pc]
        exact if_pos hroot
      refine RunsTo.run hrun (.here ⟨?_, hs.mutexes, hs.lockPath⟩)
      rw [State.setInside_pc, State.goto_pc, update_self]
    · obtain ⟨parent, hparent, h⟩ := Option.bind_eq_some_iff.mp h
      obtain ⟨⟨mutexes, mutexLock⟩, hlock, h⟩ := Option.bind_eq_some_iff.mp h
      have hstep : resume c s t = mutexStep c (s.goto t (.locking leaf curNode parent))
          (.call t (.lock parent.mutexId)) := by
        rw [resume, hs.pc]
        simp only [climb, if_neg hroot, hparent]
      rw [← hs.mutexes] at hlock
      refine RunsTo.call hs rfl hstep (Mutex.lock_alone hs.table hlock) fun x hx hret => ?_
      have hdone : resume c x t = some (lockDone x t leaf curNode parent mutexLock) := by
        rw [resume, hx.pc]
        simp only [hret]
      refine RunsTo.run hdone ?_
      have hnext (pc : TreePc) : Between t pc
          (Locks.setPath { locks with mutexes := mutexes } leaf.lockPath parent.level parent.mutexId)
          ((x.setLockPath leaf.lockPath parent.level parent.mutexId).goto t pc) := by
        refine ⟨?_, hx.free, hx.table, hx.mutexes, ?_⟩
        · rw [State.goto_pc, update_self]
        · exact congrArg (fun f => update f leaf.lockPath
            (update (f leaf.lockPath) parent.level parent.mutexId)) hx.lockPath
      dsimp only at h
      unfold lockDone
      dsimp only
      split_ifs at h ⊢ with hfail hzero
      · cases h
        have hend := hnext (.returned (-1))
        exact .here ⟨hend.pc, hend.mutexes, hend.lockPath⟩
      · exact ih h (hnext _)
      · exact ih h (hnext _)

theorem unlockFrom_runs {k : ℕ} {i : ℤ} {read : List ℕ} (hi : (i + 1).toNat = k)
    (hs : Between t (.releasing leaf i) locks s) :
    RunsTo c t (Ends t (unlockFrom (c.tid t) leaf k locks read).locks
      (unlockFrom (c.tid t) leaf k locks read).value) s := by
  induction k generalizing locks s i read with
  | zero =>
    have hrun : resume c s t = some (s.goto t (.returned 0)) := by
      rw [resume, hs.pc]
      exact if_pos (by omega)
    refine RunsTo.run hrun (.here ⟨?_, hs.mutexes, hs.lockPath⟩)
    rw [State.goto_pc, update_self]
    rfl
  | succ k ih =>
    obtain rfl : i = k := by omega
    have hstep : resume c s t =
        mutexStep c (s.goto t (.unlocking leaf k)) (.call t (.unlock (locks.lockPath leaf.lockPath k))) := by
      rw [resume, hs.pc]
      simp only [unlockNext, if_neg (show ¬ (k : ℤ) < 0 by omega), hs.lockPath]
    have halone := Mutex.unlock_alone c.tid t (locks.lockPath leaf.lockPath k) hs.table
    rw [hs.mutexes] at halone
    refine RunsTo.call hs rfl hstep halone fun x hx hret => ?_
    have hdone : resume c x t = some (unlockDone x t leaf k
        (kthreadMutexUnlock locks.mutexes (c.tid t) (locks.lockPath leaf.lockPath k)).2) := by
      rw [resume, hx.pc]
      simp only [hret]
    refine RunsTo.run hdone ?_
    rw [unlockFrom]
    generalize kthreadMutexUnlock locks.mutexes (c.tid t) (locks.lockPath leaf.lockPath k) = r at hx ⊢
    dsimp only
    unfold unlockDone
    split_ifs with hfail
    · refine .here ⟨?_, hx.mutexes, hx.lockPath⟩
      rw [State.goto_pc, update_self]
    · refine ih (i := (k : ℤ) - 1) (by omega) ⟨?_, hx.free, hx.table, hx.mutexes, ?_⟩
      · rw [State.goto_pc, update_self]
      · exact congrArg (fun f => update f leaf.lockPath (update (f leaf.lockPath) (k : ℤ) 0)) hx.lockPath

theorem tree_calls_alone (tree : TrnmntTree) (c : Setup Thread) (hc : c.tree = tree.root)
    (t : Thread) (s : State Thread)
    (hpc : (s.pc t).free) (hfree : (s.mx.pc t).free) (hlock : s.mx.tableLock = none) :
    (∀ locks value, trnmntTreeAcquire tree (c.tid t) (c.ID t) ⟨s.mx.mutexes, s.lockPath⟩ = some (locks, value) →
      ∃ s₁, step c s (.acquire t) = some s₁ ∧ Finishes c t s₁ locks value) ∧
    ∀ result, trnmntTreeRelease c.treeDepth tree (c.tid t) (c.ID t) ⟨s.mx.mutexes, s.lockPath⟩ = some result →
      ∃ s₁, step c s (.release t) = some s₁ ∧ Finishes c t s₁ result.locks result.value := by
  have hbetween (s' : State Thread) (pc : TreePc) (h : s'.pc t = pc) (hmx : s'.mx = s.mx)
    (hpath : s'.lockPath = s.lockPath) :
      Between t pc ⟨s.mx.mutexes, s.lockPath⟩ s' :=
    ⟨h, hmx ▸ hfree, hmx ▸ hlock, hmx ▸ rfl, hpath⟩
  constructor
  · intro locks value h
    obtain ⟨leaf, hleaf, h⟩ := Option.bind_eq_some_iff.mp h
    rw [← hc] at hleaf h
    refine ⟨s.goto t (.climbing leaf leaf), by rw [step, if_pos hpc, hleaf, Option.map_some], ?_⟩
    exact (climbFrom_runs h (hbetween (s.goto t (.climbing leaf leaf)) _ (update_self _ _ _) rfl rfl)).finishes
  · intro result h
    obtain ⟨leaf, hleaf, rfl⟩ := Option.map_eq_some_iff.mp h
    rw [← hc] at hleaf
    refine ⟨(s.goto t (.releasing leaf (c.treeDepth - 1))).setInside t false,
      by rw [step, if_pos hpc, hleaf, Option.map_some], ?_⟩
    have hk : (c.treeDepth - 1 + 1).toNat = c.treeDepth.toNat := by omega
    have hs₁ := hbetween ((s.goto t (.releasing leaf (c.treeDepth - 1))).setInside t false)
      (.releasing leaf (c.treeDepth - 1)) (update_self _ _ _) rfl rfl
    exact (unlockFrom_runs hk hs₁).finishes

def oneThread : Setup Unit := ⟨smallTree.1.root, smallTree.2.treeDepth,
    ⟨fun _ => 7, by decide⟩, ⟨fun _ => 1, by decide⟩⟩

def resting (locks : Locks) : State Unit :=
  ⟨⟨locks.mutexes, none, fun _ => .idle, fun _ _ => false⟩, fun _ => .idle, locks.lockPath, fun _ => false⟩

def unheld : Locks := ⟨smallTree.2.mutexes, fun _ _ => 0⟩

theorem unheld_acquires : (trnmntTreeAcquire smallTree.1 7 1 unheld).isSome := rfl

def taken : Locks := ((trnmntTreeAcquire smallTree.1 7 1 unheld).get unheld_acquires).1

theorem taken_releases : (trnmntTreeRelease smallTree.2.treeDepth smallTree.1 7 1 taken).isSome := rfl

def givenBack : Released := (trnmntTreeRelease smallTree.2.treeDepth smallTree.1 7 1 taken).get taken_releases

theorem tree_calls_alone_taken : (taken.mutexes 0).locked = 1 ∧ (givenBack.locks.mutexes 0).locked = 0 ∧
    (∃ s₁, step oneThread (resting unheld) (.acquire ()) = some s₁ ∧ Finishes oneThread () s₁ taken 0) ∧
    ∃ s₁, step oneThread (resting taken) (.release ()) = some s₁ ∧ Finishes oneThread () s₁ givenBack.locks 0 :=
  ⟨by decide +kernel, by decide +kernel,
    (tree_calls_alone smallTree.1 oneThread rfl () (resting unheld) rfl rfl rfl).1 taken 0 rfl,
    (tree_calls_alone smallTree.1 oneThread rfl () (resting taken) rfl rfl rfl).2 givenBack rfl⟩

end Xv6.Tournament
