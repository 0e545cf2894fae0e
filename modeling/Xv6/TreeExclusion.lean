import Xv6.MutexExclusion
import Xv6.TreeProtocol
import Xv6.TreeShape

open Function

namespace Xv6.Mutex

def Pc.inLock : Pc → Bool
  | .returned _ | .lockFound _ _ | .lockNamed _ | .lockChecked _ | .lockSleeping _ _ | .lockWoken _ _ => true
  | _ => false

def Pc.inUnlock : Pc → Bool
  | .returned _ | .unlockFound _ _ | .unlockNamed _ | .unlockChecked _ | .unlockWakeup _ => true
  | _ => false

def Pc.locks (k : ℕ) (held : Bool) : Pc → Bool
  | .returned value => value = 0 → held
  | pc => pc.pending k

section

variable {me : ℤ} {mutexes : Slots} {pc : Pc}

theorem nextPc_inLock (h : pc.inLock) : (nextPc me mutexes pc).inLock := by
  cases pc <;> simp only [Pc.inLock, nextPc, Bool.false_eq_true] at h ⊢
  all_goals split_ifs <;> rfl

theorem nextPc_inUnlock (h : pc.inUnlock) : (nextPc me mutexes pc).inUnlock := by
  cases pc <;> simp only [Pc.inUnlock, nextPc, Bool.false_eq_true] at h ⊢
  all_goals split_ifs <;> rfl

theorem Pc.locks_pending {k : ℕ} {held : Bool} (h : pc.locks k held) (hp : ∀ value, pc ≠ .returned value) :
    pc.pending k := by
  cases pc with
  | returned value => exact absurd rfl (hp value)
  | _ => exact h

theorem Pc.inLock_calm {k : ℕ} (h : pc.inLock) : pc ≠ .unlockChecked k ∧ pc ≠ .deallocTested k := by
  cases pc <;> simp_all [Pc.inLock]

theorem Pc.inUnlock_calm {k : ℕ} (h : pc.inUnlock) : pc ≠ .deallocTested k := by
  cases pc <;> simp_all [Pc.inUnlock]

theorem Pc.free_calm {k : ℕ} (h : pc.free) : pc ≠ .unlockChecked k ∧ pc ≠ .deallocTested k := by
  cases pc <;> simp_all [Pc.free]

end

variable {Thread : Type} [DecidableEq Thread] {tid : Thread → ℤ}

theorem resume_locks {s s' : State Thread} {t : Thread} {k : ℕ} (h : resume tid s t = some s')
    (hp : (s.pc t).pending k) : (s'.pc t).locks k (s'.holds t k) := by
  have hpc := resume_pc h
  cases hq : s.pc t <;> simp only [hq, Pc.pending, decide_eq_true_eq, Bool.false_eq_true] at hp
  case lockFound mutexId m =>
    rw [hpc, hq, nextPc]
    split_ifs <;> simp [Pc.locks, Pc.pending, hp]
  case lockNamed m =>
    rw [hpc, hq, nextPc]
    split_ifs <;> simp [Pc.locks, Pc.pending, hp]
  case lockSleeping => simp [resume, hq] at h
  all_goals
    obtain ⟨counted, rfl⟩ := resume_catch (k := k) (by simp [hq, AtCatch, hp]) h
    unfold lockLoop
    split_ifs <;> simp [Pc.locks, Pc.pending]

end Xv6.Mutex

namespace Xv6.Tournament

open Xv6.Runs
open Xv6.Mutex (Pc Owned Named ExclusionOk RelockSkipped UnlockStale first second)

def Placed (root : ℕ) (mpc : Pc) (inside held : Bool) : TreePc → Prop
  | .idle | .returned _ => mpc.free
  | .climbing _ curNode => mpc.free ∧ (curNode.parent = 0 → held)
  | .locking _ curNode parent => mpc.inLock ∧ curNode.parent ≠ 0 ∧ (parent.parent = 0 → mpc.locks root held)
  | .releasing _ _ => mpc.free ∧ inside = false
  | .unlocking _ _ => mpc.inUnlock ∧ inside = false

variable {Thread : Type}

structure Seated (root : ℕ) (s : State Thread) (t : Thread) : Prop where
  held : s.inside t → s.mx.holds t root
  placed : Placed root (s.mx.pc t) (s.inside t) (s.mx.holds t root) (s.pc t)

structure Climbs (c : Setup Thread) (root : ℕ) (s : State Thread) : Prop where
  owned : Owned c.tid root s.mx
  named : Named s.mx.mutexes
  seated : ∀ t, Seated root s t

/-- What a run must avoid at the root's mutex: its last owner coming back while others wait, and an
unlock whose owner test is out of date. -/
def TreeOk (c : Setup Thread) (root : ℕ) (s : State Thread) : Event Thread → Prop
  | .run t => ¬ RelockSkipped c.tid root s.mx (.run t) ∧ ¬ UnlockStale c.tid root s.mx (.run t)
  | _ => True

instance (c : Setup Thread) (root : ℕ) (s : State Thread) : ∀ e, Decidable (TreeOk c root s e)
  | .run _ => inferInstanceAs (Decidable (_ ∧ _))
  | .acquire _ | .release _ | .wake _ => inferInstanceAs (Decidable True)

variable [DecidableEq Thread] {c : Setup Thread} {root : ℕ} {s s' : State Thread}

variable {e : Mutex.Event Thread} {t : Thread} {mutexes : Mutex.Slots}
  {curNode leaf parent : TreeNode} {i value : ℤ}

theorem mutexStep_mx (h : mutexStep c s e = some s') :
    Mutex.step c.tid s.mx e = some s'.mx ∧ s' = s.setMx s'.mx := by
  obtain ⟨mx, hmx, rfl⟩ := Option.map_eq_some_iff.mp h
  exact ⟨hmx, rfl⟩

omit [DecidableEq Thread] in
theorem seated_woken {u : Thread} (h : Seated root s u) (hin : s'.inside u = s.inside u) (hp : s'.pc u = s.pc u)
    (hpc : s'.mx.pc u = s.mx.pc u ∨
      ∃ m counted, s.mx.pc u = .lockSleeping m counted ∧ s'.mx.pc u = .lockWoken m counted)
    (hh : s'.mx.holds u root = s.mx.holds u root) : Seated root s' u := by
  refine ⟨by rw [hin, hh]; exact h.held, ?_⟩
  have hplaced := h.placed
  rw [hin, hh, hp]
  obtain hsame | ⟨m, counted, hsleep, hwoken⟩ := hpc
  · rwa [hsame]
  · rw [hwoken]
    rw [hsleep] at hplaced
    cases hq : s.pc u <;> simp_all [Placed, Pc.free, Pc.inLock, Pc.inUnlock, Pc.locks, Pc.pending]

theorem climbs_mutexStep (ho : Owned c.tid root s.mx) (hn : Named s.mx.mutexes)
    (hothers : ∀ u, u ≠ e.actor → Seated root s u) (hok : ExclusionOk c.tid root s.mx e)
    (hs : mutexStep c s e = some s') (ha : Seated root s' e.actor) : Climbs c root s' := by
  obtain ⟨hmx, hs'⟩ := mutexStep_mx hs
  have hpc : s'.pc = s.pc := by rw [hs']; rfl
  have hin : s'.inside = s.inside := by rw [hs']; rfl
  refine ⟨Mutex.owned_step c.tid root _ _ _ ho hok hmx, Mutex.named_step c.tid _ _ _ _ hn trivial hmx, fun u => ?_⟩
  by_cases hu : u = e.actor
  · rwa [hu]
  · exact seated_woken (hothers u hu) (congrFun hin u) (congrFun hpc u) (Mutex.step_pc_other hmx hu)
      (Mutex.step_holds_other hmx root hu)

omit [DecidableEq Thread] in
theorem climbs_local (hi : Climbs c root s) (hmx : s'.mx = s.mx)
    (hothers : ∀ u, u ≠ t → s'.pc u = s.pc u ∧ s'.inside u = s.inside u) (ha : Seated root s' t) :
    Climbs c root s' := by
  refine ⟨hmx ▸ hi.owned, hmx ▸ hi.named, fun u => ?_⟩
  by_cases hu : u = t
  · rwa [hu]
  · obtain ⟨hpc, hin⟩ := hothers u hu
    exact seated_woken (hi.seated u) hin hpc (.inl (by rw [hmx])) (by rw [hmx])

omit [DecidableEq Thread] in
theorem Seated.free (h : Seated root s t) (hp : (s.pc t).free) : (s.mx.pc t).free := by
  have hplaced := h.placed
  cases hq : s.pc t <;> simp_all [Placed, TreePc.free]

theorem climbs_acquire (hb : Built c.tree mutexes root) (hi : Climbs c root s)
    (hs : step c s (.acquire t) = some s') : Climbs c root s' := by
  simp only [step, Option.ite_none_right_eq_some, Option.map_eq_some_iff] at hs
  obtain ⟨hfree, leaf, hleaf, rfl⟩ := hs
  refine climbs_local (t := t) hi rfl (fun u hu => ⟨by simp [update_of_ne hu], rfl⟩) ⟨(hi.seated t).held, ?_⟩
  simp only [State.goto_pc, State.goto_mx, update_self]
  exact ⟨(hi.seated t).free hfree, fun hp => absurd hp (hb.leafChild _ _ hleaf)⟩

theorem climbs_release (hi : Climbs c root s) (hs : step c s (.release t) = some s') :
    Climbs c root s' := by
  simp only [step, Option.ite_none_right_eq_some, Option.map_eq_some_iff] at hs
  obtain ⟨hfree, leaf, hleaf, rfl⟩ := hs
  refine climbs_local (t := t) hi rfl (fun u hu => by simp [update_of_ne hu]) ⟨by simp, ?_⟩
  simp only [State.goto_pc, State.goto_mx, State.setInside_pc, State.setInside_mx, State.setInside_inside,
    update_self]
  exact ⟨(hi.seated t).free hfree, rfl⟩

theorem climbs_wake (hi : Climbs c root s) (hs : step c s (.wake t) = some s') : Climbs c root s' := by
  obtain ⟨hmx, hs'⟩ := mutexStep_mx hs
  refine climbs_mutexStep (e := .wake t) hi.owned hi.named (fun u _ => hi.seated u) ⟨id, id, id⟩ hs ?_
  simp only [Mutex.step] at hmx
  split at hmx
  · rename_i m counted hsleep
    simp only [Option.some.injEq] at hmx
    refine seated_woken (hi.seated t) (by rw [hs']; rfl) (by rw [hs']; rfl) (.inr ⟨m, counted, hsleep, ?_⟩)
      (by rw [← hmx]; rfl)
    rw [← hmx]
    exact update_self _ _ _
  · cases hmx

theorem climbs_climb (hb : Built c.tree mutexes root)
    (hi : Climbs c root s) (hp : s.pc t = .climbing leaf curNode) (hs : climb c s t leaf curNode = some s') :
    Climbs c root s' := by
  have hseat := (hi.seated t).placed
  rw [hp] at hseat
  obtain ⟨hfree, hheld⟩ := hseat
  unfold climb at hs
  split_ifs at hs with hroot
  · simp only [Option.some.injEq] at hs
    subst hs
    refine climbs_local (t := t) hi rfl (fun u hu => by simp [update_of_ne hu]) ⟨fun _ => hheld hroot, ?_⟩
    simpa [Placed] using hfree
  · split at hs
    case h_2 => cases hs
    rename_i parent hparent
    obtain ⟨hmx, hs'⟩ := mutexStep_mx hs
    have hpc := Mutex.step_pc_actor hmx
    refine climbs_mutexStep (s := s.goto t (.locking leaf curNode parent)) (e := .call t (.lock parent.mutexId))
      hi.owned hi.named (fun u hu => ?_) ⟨id, id, id⟩ hs ⟨fun hin => ?_, ?_⟩
    · exact seated_woken (hi.seated u) rfl (by simp [update_of_ne (show u ≠ t from hu)]) (.inl rfl) rfl
    · rw [hs'] at hin
      exact Mutex.step_holds_actor hmx (Mutex.Pc.free_calm hfree).1 ((hi.seated t).held hin)
    · have htree : s'.pc t = .locking leaf curNode parent := by
        rw [hs']
        exact update_self _ _ _
      change Placed _ _ _ _ (s'.pc t)
      rw [htree, hpc]
      refine ⟨rfl, hroot, fun hp0 => ?_⟩
      have hslot : Mutex.searchId s.mx.mutexes parent.mutexId = root := by
        rw [hb.rootOnly _ (nodeAt_mem hparent) hp0, hb.mutexId]
        exact Mutex.searchId_used hi.named hb.slot.1 hi.owned.used
      simpa [Mutex.actorPc, Mutex.firstPc, Pc.locks, Pc.pending] using hslot

theorem climbs_locking (hi : Climbs c root s)
    (hok : TreeOk c root s (.run t)) (hp : s.pc t = .locking leaf curNode parent)
    (hcall : ∀ value, s.mx.pc t ≠ .returned value) (hs : mutexStep c s (.run t) = some s') : Climbs c root s' := by
  have hseat := (hi.seated t).placed
  rw [hp] at hseat
  obtain ⟨hstage, hcur, hlocks⟩ := hseat
  obtain ⟨hmx, hs'⟩ := mutexStep_mx hs
  have hpc : s'.mx.pc t = _ := Mutex.step_pc_actor hmx
  refine climbs_mutexStep (e := .run t) hi.owned hi.named (fun u _ => hi.seated u)
    ⟨hok.1, hok.2, (Mutex.Pc.inLock_calm hstage).2⟩ hs ⟨fun hin => ?_, ?_⟩
  · rw [hs'] at hin
    exact Mutex.step_holds_actor hmx (Mutex.Pc.inLock_calm hstage).1 ((hi.seated t).held hin)
  · have htree : s'.pc t = .locking leaf curNode parent := by
      rw [hs']
      exact hp
    change Placed _ (s'.mx.pc t) _ _ (s'.pc t)
    rw [htree]
    refine ⟨by rw [hpc]; exact Mutex.nextPc_inLock hstage, hcur, fun hp0 => ?_⟩
    exact Mutex.resume_locks hmx (Mutex.Pc.locks_pending (hlocks hp0) hcall)

theorem climbs_unlocking (hi : Climbs c root s)
    (hok : TreeOk c root s (.run t)) (hp : s.pc t = .unlocking leaf i)
    (hs : mutexStep c s (.run t) = some s') : Climbs c root s' := by
  have hseat := (hi.seated t).placed
  rw [hp] at hseat
  obtain ⟨hstage, hin⟩ := hseat
  obtain ⟨hmx, hs'⟩ := mutexStep_mx hs
  have hpc : s'.mx.pc t = _ := Mutex.step_pc_actor hmx
  have hin' : s'.inside t = false := by
    rw [hs']
    exact hin
  refine climbs_mutexStep (e := .run t) hi.owned hi.named (fun u _ => hi.seated u)
    ⟨hok.1, hok.2, Mutex.Pc.inUnlock_calm hstage⟩ hs ⟨fun hx => ?_, ?_⟩
  · exact absurd hx (by simp [Mutex.Event.actor, hin'])
  · have htree : s'.pc t = .unlocking leaf i := by
      rw [hs']
      exact hp
    change Placed _ (s'.mx.pc t) (s'.inside t) _ (s'.pc t)
    rw [htree]
    exact ⟨by rw [hpc]; exact Mutex.nextPc_inUnlock hstage, hin'⟩

theorem climbs_lockDone (hi : Climbs c root s)
    (hp : s.pc t = .locking leaf curNode parent) (hv : s.mx.pc t = .returned value) :
    Climbs c root (lockDone s t leaf curNode parent value) := by
  have hseat := (hi.seated t).placed
  rw [hp, hv] at hseat
  obtain ⟨_, hcur, hlocks⟩ := hseat
  have hfree : (s.mx.pc t).free := by
    rw [hv]
    rfl
  unfold lockDone
  split_ifs with hneg hzero
  all_goals
    refine climbs_local (t := t) hi rfl (fun u hu => by simp [update_of_ne hu]) ⟨(hi.seated t).held, ?_⟩
    simp only [State.goto_pc, State.goto_mx, State.setLockPath_mx, update_self]
  · exact hfree
  · refine ⟨hfree, fun hp0 => ?_⟩
    have hl := hlocks hp0
    simp only [Pc.locks, hzero, true_imp_iff, decide_eq_true_eq] at hl
    exact hl
  · exact ⟨hfree, fun hp0 => absurd hp0 hcur⟩

theorem climbs_unlockDone (hi : Climbs c root s)
    (hp : s.pc t = .unlocking leaf i) (hv : s.mx.pc t = .returned value) :
    Climbs c root (unlockDone s t leaf i value) := by
  have hseat := (hi.seated t).placed
  rw [hp] at hseat
  have hfree : (s.mx.pc t).free := by
    rw [hv]
    rfl
  unfold unlockDone
  split_ifs with hneg
  all_goals
    refine climbs_local (t := t) hi rfl (fun u hu => by simp [update_of_ne hu]) ⟨(hi.seated t).held, ?_⟩
    simp only [State.goto_pc, State.goto_mx, State.setLockPath_mx, State.goto_inside, update_self]
  · exact hfree
  · exact ⟨hfree, hseat.2⟩

theorem climbs_unlockNext (hi : Climbs c root s)
    (hp : s.pc t = .releasing leaf i) (hs : unlockNext c s t leaf i = some s') : Climbs c root s' := by
  have hseat := (hi.seated t).placed
  rw [hp] at hseat
  obtain ⟨hfree, hin⟩ := hseat
  unfold unlockNext at hs
  split_ifs at hs with hend
  · simp only [Option.some.injEq] at hs
    subst hs
    refine climbs_local (t := t) hi rfl (fun u hu => by simp [update_of_ne hu]) ⟨(hi.seated t).held, ?_⟩
    simpa [Placed] using hfree
  · obtain ⟨hmx, hs'⟩ := mutexStep_mx hs
    have hpc := Mutex.step_pc_actor hmx
    have hin' : s'.inside t = false := by
      rw [hs']
      exact hin
    refine climbs_mutexStep (s := s.goto t (.unlocking leaf i))
      (e := .call t (.unlock (s.lockPath leaf.lockPath i)))
      hi.owned hi.named (fun u hu => ?_) ⟨id, id, id⟩ hs ⟨fun hx => ?_, ?_⟩
    · exact seated_woken (hi.seated u) rfl (by simp [update_of_ne (show u ≠ t from hu)]) (.inl rfl) rfl
    · exact absurd hx (by simp [Mutex.Event.actor, hin'])
    · have htree : s'.pc t = .unlocking leaf i := by
        rw [hs']
        exact update_self _ _ _
      change Placed _ _ (s'.inside t) _ (s'.pc t)
      rw [htree, hpc]
      exact ⟨rfl, hin'⟩

theorem climbs_step (hb : Built c.tree mutexes root) :
    Preserves (step c) (TreeOk c root) (Climbs c root) := by
  intro s e s' hi hok hs
  cases e with
  | acquire t => exact climbs_acquire hb hi hs
  | release t => exact climbs_release hi hs
  | wake t => exact climbs_wake hi hs
  | run t =>
    simp only [step, resume] at hs
    split at hs
    · exact climbs_climb hb hi ‹_› hs
    · rename_i leaf curNode parent hp
      split at hs
      · cases hs
        exact climbs_lockDone hi hp ‹_›
      · rename_i hcall
        exact climbs_locking hi hok hp hcall hs
    · exact climbs_unlockNext hi ‹_› hs
    · rename_i leaf i hp
      split at hs
      · cases hs
        exact climbs_unlockDone hi hp ‹_›
      · exact climbs_unlocking hi hok hp hs
    · cases hs

structure Start (mutexes : Mutex.Slots) (s : State Thread) : Prop where
  mutexes : s.mx.mutexes = mutexes
  unheld : ∀ t k, s.mx.holds t k = false
  quiet : ∀ t, s.mx.pc t = .idle ∧ s.pc t = .idle ∧ s.inside t = false

omit [DecidableEq Thread] in
theorem Start.climbs (hb : Built c.tree mutexes root) (h : Start mutexes s) :
    Climbs c root s := by
  have hslot : s.mx.mutexes root = Mutex.allocated root := by
    rw [h.mutexes]
    exact hb.slot.2
  refine ⟨⟨by rw [hslot]; exact Mutex.allocated_used root, fun t ht => ?_⟩, h.mutexes ▸ hb.named, fun t => ?_⟩
  · simp [h.unheld] at ht
  · obtain ⟨hm, hp, hin⟩ := h.quiet t
    exact ⟨by simp [hin], by rw [hm, hp]; rfl⟩

theorem smallTree_alloc : trnmntTreeAlloc emptyHeap 1 = some (smallTree.1, smallTree.2) :=
  (Option.some_get rfl).symm

def firstLeaves (n : ℕ) : Fin n ↪ ℤ :=
  ⟨fun t => (t : ℤ), fun a b h => Fin.ext (by simp only at h; omega)⟩

def smallSetup : Setup (Fin 2) := ⟨smallTree.1.root, smallTree.2.treeDepth, Mutex.numbered 2, firstLeaves 2⟩

def smallStart : State (Fin 2) :=
  ⟨⟨smallTree.2.mutexes, none, fun _ => .idle, fun _ _ => false⟩, fun _ => .idle, fun _ _ => 0, fun _ => false⟩

def acquireTurns (t : Fin 2) : List (Event (Fin 2)) := .acquire t :: List.replicate 6 (.run t)

def waitTurns (t : Fin 2) : List (Event (Fin 2)) := .acquire t :: List.replicate 4 (.run t)

def releaseTurns (t : Fin 2) : List (Event (Fin 2)) := .release t :: List.replicate 7 (.run t)

def handOver : List (Event (Fin 2)) :=
  acquireTurns first ++ waitTurns second ++ releaseTurns first ++ List.replicate 3 (.run second)

def reacquire : List (Event (Fin 2)) :=
  acquireTurns first ++ waitTurns second ++ releaseTurns first ++ acquireTurns first ++
  List.replicate 3 (.run second)

end Xv6.Tournament
