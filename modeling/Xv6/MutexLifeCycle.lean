import Xv6.MutexOwnership
import Xv6.MutexWaiters

namespace Xv6.Mutex

open Xv6.Runs Xv6.Counting

variable {Thread : Type}

def Pc.conflicts (pc : Pc) : Pc → Bool
  | .deallocTested m => pc.pending m
  | _ => false

/-- A deallocation passes its tests while a lock call that has found the slot has not returned. -/
def DeallocBusy (s : State Thread) : Event Thread → Prop
  | .call _ (.dealloc mutexId) => ∃ u, (s.pc u).conflicts (firstPc s.mutexes (.dealloc mutexId))
  | _ => False

def LifeCycleOk (tid : Thread → ℤ) (s : State Thread) (e : Event Thread) : Prop :=
  ¬ DeallocBusy s e ∧ ∀ k, ¬ UnlockStale tid k s e

def Pc.unlockSlot : Pc → ℕ
  | .unlockChecked m => m
  | _ => 0

theorem unlockStale_slot {tid : Thread → ℤ} {k : ℕ} {s : State Thread} {e : Event Thread}
    (h : UnlockStale tid k s e) : k = (s.pc e.actor).unlockSlot := by
  cases e with
  | run t => simp [Event.actor, h.1, Pc.unlockSlot]
  | _ => exact h.elim

instance [Fintype Thread] (s : State Thread) : ∀ e, Decidable (DeallocBusy s e)
  | .call _ (.dealloc _) => inferInstanceAs (Decidable (∃ _, _))
  | .call _ .alloc | .call _ (.lock _) | .call _ (.unlock _) | .run _ | .wake _ =>
    inferInstanceAs (Decidable False)

instance [Fintype Thread] (tid : Thread → ℤ) (s : State Thread) (e : Event Thread) :
    Decidable (LifeCycleOk tid s e) :=
  decidable_of_iff (¬ DeallocBusy s e ∧ ¬ UnlockStale tid (s.pc e.actor).unlockSlot s e)
    ⟨fun h => ⟨h.1, fun _ hk => h.2 (unlockStale_slot hk ▸ hk)⟩, fun h => ⟨h.1, h.2 _⟩⟩

structure Boot (s : State Thread) : Prop where
  zero : ∀ k < MAX_MUTEXES, s.mutexes k = cleared
  unlocked : s.tableLock = none
  idle : ∀ t, s.pc t = .idle

variable [Fintype Thread]

def waiters (s : State Thread) (k : ℕ) : ℕ := count (Pc.counted k) s.pc

structure LifeCycle (tid : Thread → ℤ) (s : State Thread) : Prop where
  used : ∀ k < MAX_MUTEXES, (s.mutexes k).used = 0 ∨ (s.mutexes k).used = 1
  locked : ∀ k < MAX_MUTEXES, (s.mutexes k).locked = 0 ∨ (s.mutexes k).locked = 1 ∧ (s.mutexes k).used = 1
  waiting : ∀ k < MAX_MUTEXES, (s.mutexes k).waitingThreads = waiters s k
  entered : ∀ t k, (s.pc t).entered k → (s.mutexes k).used ≠ 0
  counted : ∀ t k, (s.pc t).counted k → (s.mutexes k).tid ≠ tid t
  owner : ∀ t k, (s.pc t).waiting k → (s.pc t).counted k = false →
    (s.mutexes k).locked ≠ 0 ∧ (s.mutexes k).tid = tid t
  dealloc : ∀ t k, s.pc t = .deallocTested k →
    s.tableLock = some t ∧ (s.mutexes k).locked = 0 ∧ ∀ u, (s.pc u).pending k = false

theorem Boot.lifeCycle {tid : Thread → ℤ} {s : State Thread} (h : Boot s) : LifeCycle tid s where
  used k hk := by simp [h.zero k hk, cleared]
  locked k hk := by simp [h.zero k hk, cleared]
  waiting k hk := by
    have hw : waiters s k = 0 := count_eq_zero (fun t => by simp [h.idle t, Pc.counted])
    simp [h.zero k hk, cleared, hw]
  entered t k ht := by simp [h.idle t, Pc.entered] at ht
  counted t k ht := by simp [h.idle t, Pc.counted] at ht
  owner t k ht := by simp [h.idle t, Pc.waiting] at ht
  dealloc t k ht := by simp [h.idle t] at ht

variable [DecidableEq Thread] {s s' : State Thread} {e : Event Thread} {k : ℕ}

omit [Fintype Thread] in
theorem lockLoop_tableLock (s : State Thread) (t : Thread) (me : ℤ) (m : ℕ) (mutex : KthreadMutex)
    (counted : Bool) : (lockLoop s t me m mutex counted).tableLock = s.tableLock := by
  unfold lockLoop
  split_ifs <;> rfl

omit [Fintype Thread] in
theorem unlockRegion_tableLock (s : State Thread) (t : Thread) (m : ℕ) :
    (unlockRegion s t m).tableLock = s.tableLock := by
  unfold unlockRegion
  split_ifs <;> rfl

variable {tid : Thread → ℤ}

omit [Fintype Thread] in
theorem step_tableLock (hs : step tid s e = some s') :
    s'.tableLock = s.tableLock ∨ (s.tableLock = none ∧ s'.tableLock = some e.actor) ∨
      ∃ m, e = .run e.actor ∧ s.pc e.actor = .deallocTested m := by
  cases e with
  | call t c =>
    simp only [step, Option.ite_none_right_eq_some, Option.some.injEq] at hs
    obtain ⟨⟨hfree, _⟩, rfl⟩ := hs
    cases c with
    | dealloc mutexId =>
      simp only [enter, deallocTest]
      split_ifs <;> simp [hfree, Event.actor]
    | _ => exact .inl rfl
  | run t =>
    cases hp : s.pc t <;> simp only [step, resume, hp, Option.some.injEq, reduceCtorEq] at hs
    case deallocTested m => exact .inr (.inr ⟨m, rfl, hp⟩)
    case lockChecked => exact .inl (hs ▸ lockLoop_tableLock _ _ _ _ _ _)
    case lockWoken => exact .inl (hs ▸ lockLoop_tableLock _ _ _ _ _ _)
    case unlockChecked => exact .inl (hs ▸ unlockRegion_tableLock _ _ _)
    all_goals exact .inl (hs ▸ rfl)
  | wake t =>
    simp only [step] at hs
    split at hs
    · cases hs
      exact .inl rfl
    · cases hs

omit [DecidableEq Thread] in
theorem LifeCycle.waiters_unused (hi : LifeCycle tid s) (hu : (s.mutexes k).used = 0) :
    waiters s k = 0 := by
  apply count_eq_zero
  intro t
  by_contra hc
  exact hi.entered t k (Pc.waiting_entered (Pc.counted_waiting (by simpa using hc))) hu

omit [Fintype Thread] in
theorem call_counted {t : Thread} {c : Call} (hs : step tid s (.call t c) = some s') :
    (s.pc t).counted k = false := by
  simp only [step, Option.ite_none_right_eq_some] at hs
  have hf := hs.1.2
  cases hp : s.pc t <;> simp_all [Pc.free, Pc.counted]

omit [Fintype Thread] [DecidableEq Thread] in
theorem firstPc_counted (mutexes : Slots) (c : Call) (k : ℕ) : (firstPc mutexes c).counted k = false := by
  cases c <;> simp only [firstPc, Pc.counted]
  split_ifs <;> rfl

section

variable {tid : Thread ↪ ℤ} (hi : LifeCycle tid s) (hok : LifeCycleOk tid s e) (hs : step tid s e = some s')

include hi hs

theorem LifeCycle.step_used (hk : k < MAX_MUTEXES) : (s'.mutexes k).used = 0 ∨ (s'.mutexes k).used = 1 := by
  have hu := hi.used k hk
  cases step_slot k hs with
  | untouched e hm hh => rwa [hm]
  | alloc t hfree hm hh => simp [hm, allocated]
  | arrive t hpc hl hm hh =>
    rwa [hm, (lockArrive_names _ _).2]
  | lock t hpc hl hm hh => rwa [hm, (lockCatch_names _ _ _).2]
  | unlock t hpc hl hm hh => rwa [hm]
  | dealloc t hpc hm hh => simp [hm, cleared]

theorem LifeCycle.step_locked (hk : k < MAX_MUTEXES) :
    (s'.mutexes k).locked = 0 ∨ (s'.mutexes k).locked = 1 ∧ (s'.mutexes k).used = 1 := by
  have hl := hi.locked k hk
  cases step_slot k hs with
  | untouched e hm hh => rwa [hm]
  | alloc t hfree hm hh => simp [hm, allocated]
  | arrive t hpc hn hm hh =>
    rwa [hm, lockArrive_locked, (lockArrive_names _ _).2]
  | lock t hpc hz hm hh =>
    have hu : (s.mutexes k).used = 1 := (hi.used k hk).resolve_left (hi.entered t k (atCatch_entered hpc))
    have hlocked := lockCatch_locked (arrived (s.mutexes k) (tid t) (s.pc t)) (tid t)
      ((arrived_locked _ _ _).trans hz)
    rw [hm, (lockCatch_names _ _ _).2]
    exact hlocked.imp_right (fun h => ⟨h, hu⟩)
  | unlock t hpc hn hm hh => simp [hm]
  | dealloc t hpc hm hh => simp [hm, cleared]

variable {t u : Thread}

theorem LifeCycle.not_deallocates (hu : (s'.pc u).pending k) : ¬ Deallocates k s e := by
  intro hd
  cases e with
  | run t =>
    have hpc : s.pc t = .deallocTested k := hd
    have hnone := (hi.dealloc t k hpc).2.2 u
    by_cases hut : u = t
    · have hret : s'.pc u = .returned 0 := by
        rw [hut, show t = (Event.run t).actor from rfl, step_pc_actor hs, actorPc, hpc, nextPc]
      simp [hret, Pc.pending] at hu
    · rw [step_pred_other (f := Pc.pending k) (fun _ _ => rfl) hs hut, hnone] at hu
      cases hu
  | call t c => exact hd
  | wake t => exact hd

theorem LifeCycle.step_entered (hu : (s'.pc u).entered k) : (s'.mutexes k).used ≠ 0 := by
  have hbefore : (s.mutexes k).used ≠ 0 := by
    by_cases ha : u = e.actor
    · rw [ha, step_pc_actor hs] at hu
      exact (actorPc_entered hu).elim (hi.entered _ k) id
    · rw [step_pred_other (f := Pc.entered k) (fun _ _ => rfl) hs ha] at hu
      exact hi.entered u k hu
  exact slot_used_step hs (hi.not_deallocates hs (Pc.entered_pending hu)) hbefore

theorem LifeCycle.step_counted (hu : (s'.pc u).counted k) : (s'.mutexes k).tid ≠ tid u := by
  have hd := hi.not_deallocates hs (Pc.entered_pending (Pc.waiting_entered (Pc.counted_waiting hu)))
  have hbefore : (s.mutexes k).tid ≠ tid u ∧ (s.pc u).entered k := by
    by_cases ha : u = e.actor
    · rw [ha, step_pc_actor hs] at hu
      rw [ha]
      obtain hc | ⟨hc, ht⟩ := actorPc_counted hu
      · exact ⟨hi.counted _ k hc, Pc.waiting_entered (Pc.counted_waiting hc)⟩
      · exact ⟨ht, by simp [hc, Pc.entered]⟩
    · rw [step_pred_other (f := Pc.counted k) (fun _ _ => rfl) hs ha] at hu
      exact ⟨hi.counted u k hu, Pc.waiting_entered (Pc.counted_waiting hu)⟩
  cases step_slot k hs with
  | untouched e hm hh => exact hm ▸ hbefore.1
  | alloc t hfree hm hh => exact absurd hfree (hi.entered u k hbefore.2)
  | arrive t hpc hl hm hh => rw [hm, lockArrive_tid]; exact hbefore.1
  | lock t hpc hl hm hh =>
    rw [hm, lockCatch_tid _ ((arrived_locked _ _ _).trans hl)]
    intro htu
    obtain rfl : t = u := tid.injective htu
    have hret : s'.pc t = .returned 0 := (step_pc_actor hs).trans (nextPc_catch hpc hl)
    simp [hret, Pc.counted] at hu
  | unlock t hpc hl hm hh => exact hm ▸ hbefore.1
  | dealloc t hpc hm hh => exact absurd hpc hd

theorem LifeCycle.step_owner (hok : LifeCycleOk tid s e) (hu : (s'.pc u).waiting k)
    (hc : (s'.pc u).counted k = false) : (s'.mutexes k).locked ≠ 0 ∧ (s'.mutexes k).tid = tid u := by
  have hd := hi.not_deallocates hs (Pc.entered_pending (Pc.waiting_entered hu))
  have hbefore : ((s.mutexes k).locked ≠ 0 ∧ (s.mutexes k).tid = tid u) ∧ (s.pc u).entered k := by
    by_cases ha : u = e.actor
    · rw [ha, step_pc_actor hs] at hu hc
      rw [ha]
      obtain ⟨hw, hn⟩ | ⟨hp, hl, ht⟩ := actorPc_owner hu hc
      · exact ⟨hi.owner _ k hw hn, Pc.waiting_entered hw⟩
      · exact ⟨⟨hl, ht⟩, by simp [hp, Pc.entered]⟩
    · rw [step_pred_other (f := Pc.waiting k) (fun _ _ => rfl) hs ha] at hu
      rw [step_pred_other (f := Pc.counted k) (fun _ _ => rfl) hs ha] at hc
      exact ⟨hi.owner u k hu hc, Pc.waiting_entered hu⟩
  cases step_slot k hs with
  | untouched e hm hh => exact hm ▸ hbefore.1
  | alloc t hfree hm hh => exact absurd hfree (hi.entered u k hbefore.2)
  | arrive t hpc hl hm hh => rw [hm, lockArrive_locked, lockArrive_tid]; exact hbefore.1
  | lock t hpc hl hm hh => exact absurd hl hbefore.1.1
  | unlock t hpc hl hm hh =>
    have ht : (s.mutexes k).tid = tid t := by
      by_contra hne
      exact hok.2 k ⟨hpc, hl, hne⟩
    obtain rfl : t = u := tid.injective (ht.symm.trans hbefore.1.2)
    simp [hpc, Pc.entered] at hbefore
  | dealloc t hpc hm hh => exact absurd hpc hd

theorem LifeCycle.step_waiting (hk : k < MAX_MUTEXES) : (s'.mutexes k).waitingThreads = waiters s' k := by
  have hw := hi.waiting k hk
  have hcount : waiters s' k + _ = waiters s k + _ := step_count (f := Pc.counted k) (fun _ _ => rfl) hs
  cases e with
  | call t c =>
    have hsame : waiters s' k = waiters s k := by
      simpa [Event.actor, actorPc, call_counted hs, firstPc_counted] using hcount
    cases step_slot k hs with
    | untouched e hm hh => rw [hm, hw, hsame]
    | alloc t hfree hm hh => rw [hm, hsame, hi.waiters_unused hfree]; rfl
  | run t =>
    by_cases hd : s.pc t = .deallocTested k
    · have hzero : waiters s' k = 0 := by
        apply count_eq_zero
        intro u
        by_contra hc
        have hp := Pc.entered_pending (Pc.waiting_entered (Pc.counted_waiting (by simpa using hc)))
        exact hi.not_deallocates hs hp hd
      simp only [step, resume, hd, Option.some.injEq] at hs
      rw [hzero, ← hs]
      simp [cleared]
    · have hstep := resume_waiting (hi.counted t k) (fun h1 h2 => (hi.owner t k h1 h2).1) hd hs
      simp only [Event.actor] at hcount
      cases h1 : (s.pc t).counted k <;> cases h2 : (actorPc tid s (.run t)).counted k <;>
        simp only [h1, h2, Bool.false_eq_true, ↓reduceIte] at hstep hcount <;> omega
  | wake t =>
    have hsame : waiters s' k = waiters s k := by
      simp only [step] at hs
      split at hs
      · rename_i hp
        simpa [actorPc, hp, Event.actor, Pc.counted] using hcount
      · cases hs
    cases step_slot k hs with
    | untouched e hm hh => rw [hm, hw, hsame]

theorem LifeCycle.dealloc_enters (hok : LifeCycleOk tid s e) (ht : s'.pc t = .deallocTested k)
    (ha : t = e.actor) :
    s'.tableLock = some t ∧ (s'.mutexes k).locked = 0 ∧ ∀ u, (s'.pc u).pending k = false := by
  obtain ⟨t', mutexId, rfl, hf, hk, hl⟩ := actorPc_dealloc ((step_pc_actor hs).symm.trans (ha ▸ ht))
  obtain rfl : t = t' := ha
  have hpending (u : Thread) : (s'.pc u).pending k = false := by
    by_cases hut : u = t
    · simp [hut, ht, Pc.pending]
    · rw [step_pred_other (f := Pc.pending k) (fun _ _ => rfl) hs hut]
      by_contra hp
      exact hok.1 ⟨u, by simpa [hf, Pc.conflicts] using hp⟩
  have hs' := hs
  simp only [step, Option.ite_none_right_eq_some, Option.some.injEq, enter, deallocTest] at hs'
  obtain ⟨-, rfl⟩ := hs'
  refine ⟨?_, ?_, hpending⟩
  · split_ifs at ht ⊢ <;> simp at ht ⊢
  · have hzero := (hi.locked k hk).resolve_right (fun h => hl h.1)
    split_ifs <;> exact hzero

theorem LifeCycle.dealloc_stays (ht : s'.pc t = .deallocTested k) (ha : t ≠ e.actor) :
    s'.tableLock = some t ∧ (s'.mutexes k).locked = 0 ∧ ∀ u, (s'.pc u).pending k = false := by
  have hsame : s.pc t = .deallocTested k := by
    obtain hsame | ⟨m, c, _, hw⟩ := step_pc_other hs ha
    · rwa [hsame] at ht
    · simp [hw] at ht
  obtain ⟨hlock, hl, hpending⟩ := hi.dealloc t k hsame
  have hcall : ∀ c, e ≠ .call e.actor c := by
    rintro c he
    rw [he] at hs
    simp [step, hlock] at hs
  refine ⟨?_, ?_, fun u => ?_⟩
  · obtain h | ⟨h, -⟩ | ⟨m, -, hm⟩ := step_tableLock hs
    · rw [h, hlock]
    · simp [hlock] at h
    · have := (hi.dealloc _ m hm).1
      exact absurd (Option.some.inj (hlock.symm.trans this)) ha
  · cases step_slot k hs with
    | untouched e hm hh => rwa [hm]
    | alloc t' hfree hm hh => exact absurd rfl (hcall _)
    | arrive t' hpc hn hm hh => exact absurd hl hn
    | lock t' hpc hz hm hh =>
      have := hpending t'
      rw [Pc.entered_pending (atCatch_entered hpc)] at this
      cases this
    | unlock t' hpc hn hm hh => exact absurd hl hn
    | dealloc t' hpc hm hh => simp [hm, cleared]
  · by_cases hu : u = e.actor
    · by_contra hp
      rw [hu, step_pc_actor hs] at hp
      obtain hbefore | ⟨mutexId, he⟩ := actorPc_pending (by simpa using hp)
      · simp [hpending] at hbefore
      · exact hcall _ he
    · rw [step_pred_other (f := Pc.pending k) (fun _ _ => rfl) hs hu, hpending]

theorem LifeCycle.step_dealloc (hok : LifeCycleOk tid s e) (ht : s'.pc t = .deallocTested k) :
    s'.tableLock = some t ∧ (s'.mutexes k).locked = 0 ∧ ∀ u, (s'.pc u).pending k = false := by
  by_cases ha : t = e.actor
  · exact hi.dealloc_enters hs hok ht ha
  · exact hi.dealloc_stays hs ht ha

end

theorem lifeCycle_step (tid : Thread ↪ ℤ) : Preserves (step tid) (LifeCycleOk tid) (LifeCycle tid) :=
  fun _ _ _ hi hok hs =>
    { used := fun _ => hi.step_used hs
      locked := fun _ => hi.step_locked hs
      waiting := fun _ => hi.step_waiting hs
      entered := fun _ _ => hi.step_entered hs
      counted := fun _ _ => hi.step_counted hs
      owner := fun _ _ => hi.step_owner hs hok
      dealloc := fun _ _ => hi.step_dealloc hs hok }

theorem mutex_life_cycle (tid : Thread ↪ ℤ) (s s' : State Thread) (hb : Boot s)
    (hr : Reaches (step tid) (LifeCycleOk tid) s s') :
    (∀ k < MAX_MUTEXES, (s'.mutexes k).locked = 1 → (s'.mutexes k).used = 1) ∧
      (∀ k < MAX_MUTEXES, (s'.mutexes k).used = 1 → (s'.mutexes k).waitingThreads = waiters s' k) ∧
      (∀ k e, Deallocates k s' e → ∀ u, (s'.pc u).pending k = false) ∧
      ∀ k < MAX_MUTEXES, ∀ e s'' t, step tid s' e = some s'' → LockReturns k s' s'' t e →
        (s''.mutexes k).used = 1 := by
  have hi : LifeCycle tid s' := hr.invariant (lifeCycle_step tid) hb.lifeCycle
  refine ⟨fun k hk hl => ?_, fun k hk _ => hi.waiting k hk, fun k e hd => ?_, fun k hk e s'' t hs hl => ?_⟩
  · obtain hz | ⟨_, hu⟩ := hi.locked k hk
    · omega
    · exact hu
  · cases e with
    | run t => exact (hi.dealloc t k hd).2.2
    | call t c => exact hd.elim
    | wake t => exact hd.elim
  · cases e with
    | run t' =>
      obtain ⟨rfl, hpc, _⟩ := hl
      have hd : ¬ Deallocates k s' (.run t') := by
        intro hd
        simp [show s'.pc t' = .deallocTested k from hd, AtCatch] at hpc
      exact (hi.step_used hs hk).resolve_left (slot_used_step hs hd (hi.entered t' k (atCatch_entered hpc)))
    | call t c => exact hl.elim
    | wake t => exact hl.elim

def noMutex (Thread : Type) : State Thread := ⟨fun _ => cleared, none, fun _ => .idle, fun _ _ => false⟩

omit [Fintype Thread] [DecidableEq Thread] in
theorem noMutex_boot : Boot (noMutex Thread) := ⟨fun _ _ => rfl, rfl, fun _ => rfl⟩

def waitTurns : List (Event (Fin 2)) := .call first .alloc :: (lockCall first 0 ++ lockCall second 0)

theorem mutex_life_cycle_waitTurns :
    ∃ s', Reaches (step (numbered 2)) (LifeCycleOk (numbered 2)) (noMutex (Fin 2)) s' ∧
    (s'.mutexes 0).waitingThreads = 1 ∧ (s'.mutexes 0).waitingThreads = waiters s' 0 :=
  have hr := exec_get_reaches (noMutex (Fin 2)) waitTurns (by decide +kernel)
  ⟨_, hr, by decide +kernel,
    (mutex_life_cycle (numbered 2) _ _ noMutex_boot hr).2.1 0 (by decide) (by decide +kernel)⟩

def deallocTurns : List (Event (Fin 2)) :=
  [.call first .alloc, .call second (.lock 0), .run second, .run second, .call first (.dealloc 0), .run first,
    .run second]

theorem mutex_life_cycle_fails : ∃ s', Reaches (step (numbered 2)) Always (noMutex (Fin 2)) s' ∧
    (s'.mutexes 0).locked = 1 ∧ (s'.mutexes 0).used = 0 ∧ s'.pc 1 = .returned 0 :=
  ⟨_, exec_get_reaches (noMutex (Fin 2)) deallocTurns (by decide +kernel), by decide +kernel, by decide +kernel,
    by decide +kernel⟩

end Xv6.Mutex
