import Xv6.Counting
import Xv6.MutexSteps

namespace Xv6.Mutex

open Xv6.Counting Function

def Pc.pending (k : ℕ) : Pc → Bool
  | .lockFound _ m | .lockNamed m | .lockChecked m | .lockSleeping m _ | .lockWoken m _ => m = k
  | _ => false

def Pc.entered (k : ℕ) : Pc → Bool
  | .lockChecked m | .lockSleeping m _ | .lockWoken m _ => m = k
  | _ => false

def Pc.waiting (k : ℕ) : Pc → Bool
  | .lockSleeping m _ | .lockWoken m _ => m = k
  | _ => false

def Pc.counted (k : ℕ) : Pc → Bool
  | .lockSleeping m counted | .lockWoken m counted => m = k && counted
  | _ => false

variable {Thread : Type} {k : ℕ} {pc : Pc}

theorem Pc.entered_pending (h : pc.entered k) : pc.pending k := by
  cases pc <;> simp_all [Pc.entered, Pc.pending]

theorem Pc.waiting_entered (h : pc.waiting k) : pc.entered k := by
  cases pc <;> simp_all [Pc.entered, Pc.waiting]

theorem Pc.counted_waiting (h : pc.counted k) : pc.waiting k := by
  cases pc <;> simp_all [Pc.counted, Pc.waiting]

theorem atCatch_entered (h : AtCatch pc k) : pc.entered k := by
  cases pc <;> simp_all [AtCatch, Pc.entered]

section

variable {tid : Thread → ℤ} {s : State Thread} {e : Event Thread} {k : ℕ}

theorem actorPc_entered (h : (actorPc tid s e).entered k) :
    (s.pc e.actor).entered k ∨ (s.mutexes k).used ≠ 0 := by
  cases e with
  | call t c =>
    cases c <;> simp only [actorPc, firstPc] at h
    case dealloc => split_ifs at h <;> simp [Pc.entered] at h
    all_goals simp [Pc.entered] at h
  | run t =>
    cases hp : s.pc t <;> simp only [actorPc, nextPc, hp] at h
    all_goals
      try split_ifs at h
      all_goals simp_all [Pc.entered, Event.actor]
  | wake t =>
    cases hp : s.pc t <;> simp_all [actorPc, Pc.entered, Event.actor]

theorem actorPc_pending (h : (actorPc tid s e).pending k) :
    (s.pc e.actor).pending k ∨ ∃ mutexId, e = .call e.actor (.lock mutexId) := by
  cases e with
  | call t c =>
    cases c <;> simp only [actorPc, firstPc] at h
    case dealloc => split_ifs at h <;> simp [Pc.pending] at h
    case lock mutexId => exact .inr ⟨mutexId, rfl⟩
    all_goals simp [Pc.pending] at h
  | run t =>
    cases hp : s.pc t <;> simp only [actorPc, nextPc, hp] at h
    all_goals
      try split_ifs at h
      all_goals simp_all [Pc.pending, Event.actor]
  | wake t =>
    cases hp : s.pc t <;> simp_all [actorPc, Pc.pending, Event.actor]

theorem actorPc_counted (h : (actorPc tid s e).counted k) :
    (s.pc e.actor).counted k ∨ (s.pc e.actor = .lockChecked k ∧ (s.mutexes k).tid ≠ tid e.actor) := by
  cases e with
  | call t c =>
    cases c <;> simp only [actorPc, firstPc] at h
    case dealloc => split_ifs at h <;> simp [Pc.counted] at h
    all_goals simp [Pc.counted] at h
  | run t =>
    cases hp : s.pc t <;> simp only [actorPc, nextPc, hp] at h
    case lockChecked m =>
      split_ifs at h <;> simp only [Pc.counted, Bool.and_eq_true, decide_eq_true_eq, Bool.false_eq_true] at h
      obtain ⟨rfl, ht⟩ := h
      exact .inr ⟨hp, ht⟩
    all_goals
      try split_ifs at h
      all_goals simp_all [Pc.counted, Event.actor]
  | wake t =>
    cases hp : s.pc t <;> simp_all [actorPc, Pc.counted, Event.actor]

theorem actorPc_owner (h : (actorPc tid s e).waiting k) (hc : (actorPc tid s e).counted k = false) :
    ((s.pc e.actor).waiting k ∧ (s.pc e.actor).counted k = false) ∨
      (s.pc e.actor = .lockChecked k ∧ (s.mutexes k).locked ≠ 0 ∧ (s.mutexes k).tid = tid e.actor) := by
  cases e with
  | call t c =>
    cases c <;> simp only [actorPc, firstPc] at h
    case dealloc => split_ifs at h <;> simp [Pc.waiting] at h
    all_goals simp [Pc.waiting] at h
  | run t =>
    cases hp : s.pc t <;> simp only [actorPc, nextPc, hp] at h hc
    all_goals
      try split_ifs at h hc
      all_goals simp_all [Pc.waiting, Pc.counted, Event.actor]
  | wake t =>
    cases hp : s.pc t <;> simp_all [actorPc, Pc.waiting, Pc.counted, Event.actor]

theorem searchId_lt {mutexes : Slots} {mutexId : ℤ} (h : searchId mutexes mutexId ≠ MAX_MUTEXES) :
    searchId mutexes mutexId < MAX_MUTEXES := by
  unfold searchId at h ⊢
  cases hf : (List.range MAX_MUTEXES).find? (fun i => (mutexes i).id = mutexId) with
  | none => simp [hf] at h
  | some i => simpa using List.mem_range.mp (List.mem_of_find?_eq_some hf)

theorem actorPc_dealloc (h : actorPc tid s e = .deallocTested k) :
    ∃ t mutexId, e = .call t (.dealloc mutexId) ∧
      firstPc s.mutexes (.dealloc mutexId) = .deallocTested k ∧ k < MAX_MUTEXES ∧ (s.mutexes k).locked ≠ 1 := by
  cases e with
  | call t c =>
    cases c with
    | dealloc mutexId =>
      have hf : firstPc s.mutexes (.dealloc mutexId) = .deallocTested k := h
      refine ⟨t, mutexId, rfl, hf, ?_⟩
      simp only [firstPc] at hf
      split_ifs at hf with hc
      push Not at hc
      cases hf
      exact ⟨searchId_lt hc.1, hc.2.1⟩
    | _ => simp [actorPc, firstPc] at h
  | run t =>
    cases hp : s.pc t <;> simp only [actorPc, nextPc, hp] at h
    all_goals
      try split_ifs at h
      all_goals cases h
  | wake t =>
    simp only [actorPc] at h
    split at h <;> cases h

end

variable [DecidableEq Thread]

section

variable {tid : Thread → ℤ} {s s' : State Thread} {e : Event Thread}

theorem step_pred_other {f : Pc → Bool} (hf : ∀ m c, f (.lockSleeping m c) = f (.lockWoken m c))
    (hs : step tid s e = some s') {u : Thread} (hu : u ≠ e.actor) : f (s'.pc u) = f (s.pc u) := by
  obtain hsame | ⟨m, c, hp, hw⟩ := step_pc_other hs hu
  · rw [hsame]
  · rw [hp, hw, hf]

theorem step_count [Fintype Thread] {f : Pc → Bool} (hf : ∀ m c, f (.lockSleeping m c) = f (.lockWoken m c))
    (hs : step tid s e = some s') :
    count f s'.pc + (if f (s.pc e.actor) then 1 else 0) =
      count f s.pc + (if f (actorPc tid s e) then 1 else 0) := by
  rw [← step_pc_actor hs, ← count_update]
  congr 1
  apply count_congr
  intro u
  by_cases hu : u = e.actor
  · rw [hu, update_self]
  · rw [update_of_ne hu, step_pred_other hf hs hu]

theorem lockArrive_waiting (mutex : KthreadMutex) (me : ℤ) :
    (lockArrive mutex me).waitingThreads = mutex.waitingThreads + (if mutex.tid ≠ me then 1 else 0) := by
  unfold lockArrive
  split_ifs <;> simp

theorem lockCatch_waiting {mutex : KthreadMutex} (me : ℤ) (hl : mutex.locked = 0) :
    (lockCatch mutex me).waitingThreads = mutex.waitingThreads - (if mutex.tid ≠ me then 1 else 0) := by
  by_cases ht : mutex.tid = me
  · by_cases hw : mutex.waitingThreads = 0
    · simp [lockCatch_last hl ht hw, ht]
    · simp [lockCatch_skipped hl ht hw, ht]
  · simp [lockCatch_other hl ht, ht]

theorem lockLoop_waiting (s : State Thread) (t : Thread) (me : ℤ) (m : ℕ) (mutex : KthreadMutex) (counted : Bool) :
    ((lockLoop s t me m mutex counted).mutexes m).waitingThreads =
      mutex.waitingThreads - (if mutex.locked = 0 ∧ mutex.tid ≠ me then 1 else 0) := by
  by_cases hl : mutex.locked = 0
  · simp [lockLoop, hl, lockCatch_waiting me hl]
  · simp [lockLoop, hl]

theorem lockLoop_other (s : State Thread) (t : Thread) (me : ℤ) {m k : ℕ} (hk : k ≠ m) (mutex : KthreadMutex)
    (counted : Bool) : (lockLoop s t me m mutex counted).mutexes k = s.mutexes k := by
  unfold lockLoop
  split_ifs <;> simp [update_of_ne hk]

theorem resume_waiting {k : ℕ} {t : Thread} (hcounted : (s.pc t).counted k → (s.mutexes k).tid ≠ tid t)
    (howner : (s.pc t).waiting k → (s.pc t).counted k = false → (s.mutexes k).locked ≠ 0)
    (hd : s.pc t ≠ .deallocTested k) (h : resume tid s t = some s') :
    (s'.mutexes k).waitingThreads + (if (s.pc t).counted k then 1 else 0) =
      (s.mutexes k).waitingThreads + (if (actorPc tid s (.run t)).counted k then 1 else 0) := by
  cases hp : s.pc t <;> simp only [resume, hp, Option.some.injEq, reduceCtorEq] at h
  case lockChecked m =>
    subst h
    by_cases hk : k = m
    · subst hk
      rw [lockLoop_waiting, lockArrive_waiting, lockArrive_locked, lockArrive_tid]
      by_cases hl : (s.mutexes k).locked = 0 <;> by_cases ht : (s.mutexes k).tid = tid t <;>
        simp [actorPc, nextPc, hp, hl, ht, Pc.counted]
    · rw [lockLoop_other _ _ _ hk]
      by_cases hl : (s.mutexes m).locked = 0 <;> simp [actorPc, nextPc, hp, hl, Pc.counted, Ne.symm hk]
  case lockWoken m counted =>
    subst h
    by_cases hk : k = m
    · subst hk
      rw [lockLoop_waiting]
      cases counted with
      | true =>
        have ht := hcounted (by simp [hp, Pc.counted])
        by_cases hl : (s.mutexes k).locked = 0 <;> simp [actorPc, nextPc, hp, hl, ht, Pc.counted]
      | false =>
        have hl := howner (by simp [hp, Pc.waiting]) (by simp [hp, Pc.counted])
        simp [actorPc, nextPc, hp, hl, Pc.counted]
    · rw [lockLoop_other _ _ _ hk]
      by_cases hl : (s.mutexes m).locked = 0 <;> simp [actorPc, nextPc, hp, hl, Pc.counted, Ne.symm hk]
  case unlockChecked m =>
    subst h
    have hw : ((unlockRegion s t m).mutexes k).waitingThreads = (s.mutexes k).waitingThreads := by
      unfold unlockRegion
      split_ifs
      · rfl
      · by_cases hk : k = m
        · subst hk; simp
        · simp [update_of_ne hk]
    by_cases hl : (s.mutexes m).locked = 0 <;> simp [hw, actorPc, nextPc, hp, hl, Pc.counted]
  case deallocTested m =>
    subst h
    have hk : k ≠ m := fun hk => hd (hk ▸ hp)
    simp [update_of_ne hk, actorPc, nextPc, hp, Pc.counted]
  all_goals
    subst h
    simp only [actorPc, nextPc, hp]
    try split_ifs
    all_goals simp_all [Pc.counted]

end

end Xv6.Mutex
