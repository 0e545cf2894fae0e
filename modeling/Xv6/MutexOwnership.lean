import Xv6.MutexExclusion

namespace Xv6.Mutex

open Xv6.Runs

variable {Thread : Type}

def UnlockUnheld (tid : Thread → ℤ) (k : ℕ) (s : State Thread) : Event Thread → Prop
  | .run t => s.pc t = .unlockNamed k ∧ (s.mutexes k).tid = tid t ∧ (s.mutexes k).locked = 0
  | _ => False

def OwnershipOk (tid : Thread → ℤ) (k : ℕ) (s : State Thread) (e : Event Thread) : Prop :=
  ¬ UnlockUnheld tid k s e ∧ ¬ Deallocates k s e

instance (tid : Thread → ℤ) (k : ℕ) (s : State Thread) : ∀ e, Decidable (UnlockUnheld tid k s e)
  | .run _ => inferInstanceAs (Decidable (_ ∧ _ ∧ _))
  | .call _ _ | .wake _ => inferInstanceAs (Decidable False)

instance (tid : Thread → ℤ) (k : ℕ) (s : State Thread) (e : Event Thread) :
    Decidable (OwnershipOk tid k s e) :=
  inferInstanceAs (Decidable (_ ∧ _))

def LockedBy (tid : Thread → ℤ) (k : ℕ) (s : State Thread) (t : Thread) : Prop :=
  (s.mutexes k).locked = 1 ∧ (s.mutexes k).tid = tid t

instance (tid : Thread → ℤ) (k : ℕ) (s : State Thread) (t : Thread) : Decidable (LockedBy tid k s t) :=
  inferInstanceAs (Decidable (_ ∧ _))

structure Unlocking (tid : Thread → ℤ) (k : ℕ) (s : State Thread) : Prop where
  used : (s.mutexes k).used ≠ 0
  locked : (s.mutexes k).locked = 0 ∨ (s.mutexes k).locked = 1
  owner : ∀ t, s.pc t = .unlockChecked k → LockedBy tid k s t

variable [DecidableEq Thread]

variable {tid : Thread → ℤ} {s s' : State Thread} {e : Event Thread} {k : ℕ} {u : Thread}

omit [DecidableEq Thread] in
theorem actorPc_unlockChecked
    (h : actorPc tid s e = .unlockChecked k) :
    e = .run e.actor ∧ s.pc e.actor = .unlockNamed k ∧ (s.mutexes k).tid = tid e.actor := by
  cases e with
  | call t c =>
    cases c <;> simp only [actorPc, firstPc] at h
    case dealloc => split_ifs at h
    all_goals cases h
  | run t =>
    cases hp : s.pc t <;> simp only [actorPc, nextPc, hp] at h
    case unlockNamed m =>
      split_ifs at h with ht
      cases h
      exact ⟨rfl, hp, (not_not.mp ht).symm⟩
    all_goals
      try split_ifs at h
      all_goals cases h
  | wake t =>
    simp only [actorPc] at h
    split at h <;> cases h

theorem unlockChecked_origin
    (h : step tid s e = some s') (hu : s'.pc u = .unlockChecked k) :
    (s.pc u = .unlockChecked k ∧ e ≠ .run u) ∨
      (e = .run u ∧ s.pc u = .unlockNamed k ∧ (s.mutexes k).tid = tid u) := by
  by_cases ha : u = e.actor
  · subst ha
    exact .inr (actorPc_unlockChecked ((step_pc_actor h).symm.trans hu))
  · left
    obtain hsame | ⟨m, counted, _, hw⟩ := step_pc_other h ha
    · exact ⟨hsame ▸ hu, fun he => ha (he ▸ rfl)⟩
    · simp [hw] at hu

theorem lockCatch_locked (mutex : KthreadMutex) (me : ℤ) (hl : mutex.locked = 0) :
    (lockCatch mutex me).locked = 0 ∨ (lockCatch mutex me).locked = 1 := by
  by_cases ht : mutex.tid = me
  · by_cases hw : mutex.waitingThreads = 0
    · simp [lockCatch_last hl ht hw]
    · simp [lockCatch_skipped hl ht hw, hl]
  · simp [lockCatch_other hl ht]

theorem slot_used_step
    (hs : step tid s e = some s') (hd : ¬ Deallocates k s e) (hu : (s.mutexes k).used ≠ 0) :
    (s'.mutexes k).used ≠ 0 := by
  cases step_slot k hs with
  | untouched e hm hh => rwa [hm]
  | alloc t hfree hm hh => exact absurd hfree hu
  | arrive t hpc hl hm hh =>
    rwa [hm, (lockArrive_names _ _).2]
  | lock t hpc hl hm hh => rwa [hm, (lockCatch_names _ _ _).2]
  | unlock t hpc hl hm hh => rwa [hm]
  | dealloc t hpc hm hh => exact absurd hpc hd

theorem slot_locked_step
    (hs : step tid s e = some s') (hl : (s.mutexes k).locked = 0 ∨ (s.mutexes k).locked = 1) :
    (s'.mutexes k).locked = 0 ∨ (s'.mutexes k).locked = 1 := by
  cases step_slot k hs with
  | untouched e hm hh => rwa [hm]
  | alloc t hfree hm hh => simp [hm, allocated]
  | arrive t hpc hn hm hh => rwa [hm, lockArrive_locked]
  | lock t hpc hz hm hh => exact hm ▸ lockCatch_locked _ _ ((arrived_locked _ _ _).trans hz)
  | unlock t hpc hn hm hh => simp [hm]
  | dealloc t hpc hm hh => simp [hm, cleared]

theorem lockedBy_step {tid : Thread ↪ ℤ}
    (hi : Unlocking tid k s) (hok : OwnershipOk tid k s e) (hs : step tid s e = some s')
    (hrun : e ≠ .run u) (hu : LockedBy tid k s u) : LockedBy tid k s' u := by
  obtain ⟨hl, ht⟩ := hu
  cases step_slot k hs with
  | untouched e hm hh => exact ⟨hm ▸ hl, hm ▸ ht⟩
  | alloc t hfree hm hh => exact absurd hfree hi.used
  | arrive t hpc hn hm hh => exact ⟨by rw [hm, lockArrive_locked, hl], by rw [hm, lockArrive_tid, ht]⟩
  | lock t hpc hz hm hh => omega
  | unlock t hpc hn hm hh =>
    have hsame : tid t = tid u := (hi.owner t hpc).2.symm.trans ht
    exact absurd (congrArg Event.run (tid.injective hsame)) hrun
  | dealloc t hpc hm hh => exact absurd hpc hok.2

theorem unlocking_step (tid : Thread ↪ ℤ) (k : ℕ) :
    Preserves (step tid) (OwnershipOk tid k) (Unlocking tid k) := by
  intro s e s' hi hok hs
  refine ⟨slot_used_step hs hok.2 hi.used, slot_locked_step hs hi.locked, fun u hu => ?_⟩
  obtain ⟨hpc, hrun⟩ | ⟨rfl, hpc, ht⟩ := unlockChecked_origin hs hu
  · exact lockedBy_step hi hok hs hrun (hi.owner u hpc)
  · have hl : (s.mutexes k).locked ≠ 0 := fun hz => hok.1 ⟨hpc, ht, hz⟩
    have hs' : s'.mutexes = s.mutexes := by
      simp only [step, resume, hpc, Option.some.injEq] at hs
      exact hs ▸ rfl
    exact ⟨hs' ▸ hi.locked.resolve_left hl, hs' ▸ ht⟩

theorem unlock_by_owner (tid : Thread ↪ ℤ) (k : ℕ) (s s' : State Thread) (hf : Fresh k s)
    (hq : ∀ t, s.pc t ≠ .unlockChecked k) (hr : Reaches (step tid) (OwnershipOk tid k) s s')
    (t : Thread) (s'' : State Thread) (hok : OwnershipOk tid k s' (.run t))
    (hs : step tid s' (.run t) = some s'') :
    (s'.pc t = .unlockNamed k → s''.mutexes = s'.mutexes ∧
      s''.pc t = if LockedBy tid k s' t then .unlockChecked k else .returned (-1)) ∧
    (s'.pc t = .unlockChecked k → LockedBy tid k s' t ∧ s''.pc t = .unlockWakeup k ∧
      s''.mutexes = Function.update s'.mutexes k { s'.mutexes k with locked := 0 }) ∧
    (s''.pc t = .unlockWakeup k → s'.pc t = .unlockChecked k) ∧
    (s'.pc t = .unlockWakeup k → s''.mutexes = s'.mutexes ∧ s''.pc t = .returned 0) := by
  have hi : Unlocking tid k s' := hr.invariant (unlocking_step tid k)
    ⟨hf.used, .inl hf.locked, fun u hu => absurd hu (hq u)⟩
  have hpc : s''.pc t = nextPc (tid t) s'.mutexes (s'.pc t) := step_pc_actor hs
  refine ⟨fun hp => ⟨?_, ?_⟩, fun hp => ?_, fun hp => ?_, fun hp => ⟨?_, ?_⟩⟩
  · simp only [step, resume, hp, Option.some.injEq] at hs
    exact hs ▸ rfl
  · rw [hpc, hp, nextPc]
    by_cases ht : (s'.mutexes k).tid = tid t
    · have hl := hi.locked.resolve_left (fun hz => hok.1 ⟨hp, ht, hz⟩)
      simp [LockedBy, ht, hl]
    · simp [LockedBy, ht, Ne.symm ht]
  · have hown := hi.owner t hp
    have hl : (s'.mutexes k).locked ≠ 0 := by simp [hown.1]
    refine ⟨hown, by simp [hpc, hp, nextPc, hl], ?_⟩
    simp only [step, resume, hp, unlockRegion, hl, ↓reduceIte, Option.some.injEq] at hs
    exact hs ▸ rfl
  · rw [hpc] at hp
    cases hq : s'.pc t <;> simp only [hq, nextPc] at hp
    case unlockChecked m =>
      split_ifs at hp
      cases hp
      rfl
    all_goals
      try split_ifs at hp
      all_goals cases hp
  · simp only [step, resume, hp, Option.some.injEq] at hs
    exact hs ▸ rfl
  · rw [hpc, hp, nextPc]

def unlockTurns : List (Event (Fin 2)) :=
  lockCall first 0 ++ [.call first (.unlock 0), .run first, .run first]

theorem unlock_by_owner_unlockTurns : ∃ s',
    Reaches (step (numbered 2)) (OwnershipOk (numbered 2) 0) (oneMutex (Fin 2)) s' ∧
    LockedBy (numbered 2) 0 s' 0 :=
  have hr := exec_get_reaches (oneMutex (Fin 2)) unlockTurns (by decide +kernel)
  ⟨_, hr, ((unlock_by_owner (numbered 2) 0 _ _ oneMutex_fresh (fun _ => nofun) hr 0 _ (by decide +kernel)
    (Option.some_get (by decide +kernel)).symm).2.1 (by decide +kernel)).1⟩

def doubleUnlock : List (Event (Fin 2)) :=
  lockCall first 0 ++ unlockCall first 0 ++ [.call first (.unlock 0), .run first, .run first] ++ lockCall second 0

theorem unlock_by_owner_fails : ∃ s' s'',
    Reaches (step (numbered 2)) (fun s e => ¬ Deallocates 0 s e) (oneMutex (Fin 2)) s' ∧
    s'.pc 0 = .unlockChecked 0 ∧ LockedBy (numbered 2) 0 s' 1 ∧ step (numbered 2) s' (.run 0) = some s'' ∧
    s''.pc 0 = .unlockWakeup 0 ∧ (s''.mutexes 0).locked = 0 :=
  have hr := exec_get_reaches (oneMutex (Fin 2)) doubleUnlock (by decide +kernel)
  ⟨_, _, hr, by decide +kernel, by decide +kernel, (Option.some_get (by decide +kernel)).symm,
    by decide +kernel, by decide +kernel⟩

end Xv6.Mutex
