import Mathlib.Tactic.SplitIfs
import Xv6.MutexTable

namespace Xv6.Mutex

open Function

variable {Thread : Type} [DecidableEq Thread] {tid : Thread → ℤ}

variable {mutexes : Slots} {k m : ℕ} {mutex : KthreadMutex} {me : ℤ} {s s' : State Thread}
  {t u : Thread} {e : Event Thread}

theorem searchFree_spec {i : ℕ} (h : searchFree mutexes = some i) :
    i < MAX_MUTEXES ∧ (mutexes i).used = 0 :=
  ⟨List.mem_range.mp (List.mem_of_find?_eq_some h), by simpa using List.find?_some h⟩

def AtCatch (pc : Pc) (k : ℕ) : Bool :=
  match pc with
  | .lockChecked m => m = k
  | .lockWoken m _ => m = k
  | _ => false

def arrived (mutex : KthreadMutex) (me : ℤ) : Pc → KthreadMutex
  | .lockChecked _ => lockArrive mutex me
  | _ => mutex

inductive SlotChange (tid : Thread → ℤ) (k : ℕ) (s s' : State Thread) : Event Thread → Prop
  | untouched (e : Event Thread) (hm : s'.mutexes k = s.mutexes k) (hh : ∀ t, s'.holds t k = s.holds t k) :
    SlotChange tid k s s' e
  | alloc (t : Thread) (hu : (s.mutexes k).used = 0) (hm : s'.mutexes k = allocated k)
    (hh : ∀ t, s'.holds t k = s.holds t k) : SlotChange tid k s s' (.call t .alloc)
  | arrive (t : Thread) (hpc : s.pc t = .lockChecked k) (hl : (s.mutexes k).locked ≠ 0)
    (hm : s'.mutexes k = lockArrive (s.mutexes k) (tid t)) (hh : ∀ t, s'.holds t k = s.holds t k) :
    SlotChange tid k s s' (.run t)
  | lock (t : Thread) (hpc : AtCatch (s.pc t) k) (hl : (s.mutexes k).locked = 0)
    (hm : s'.mutexes k = lockCatch (arrived (s.mutexes k) (tid t) (s.pc t)) (tid t))
    (hh : ∀ t', s'.holds t' k = if t' = t then true else s.holds t' k) :
    SlotChange tid k s s' (.run t)
  | unlock (t : Thread) (hpc : s.pc t = .unlockChecked k) (hl : (s.mutexes k).locked ≠ 0)
    (hm : s'.mutexes k = { s.mutexes k with locked := 0 })
    (hh : ∀ t', s'.holds t' k = if t' = t then false else s.holds t' k) : SlotChange tid k s s' (.run t)
  | dealloc (t : Thread) (hpc : s.pc t = .deallocTested k) (hm : s'.mutexes k = cleared)
    (hh : ∀ t, s'.holds t k = s.holds t k) : SlotChange tid k s s' (.run t)

theorem lockArrive_locked (mutex : KthreadMutex) (me : ℤ) : (lockArrive mutex me).locked = mutex.locked := by
  unfold lockArrive
  split_ifs <;> rfl

theorem lockArrive_tid (mutex : KthreadMutex) (me : ℤ) : (lockArrive mutex me).tid = mutex.tid := by
  unfold lockArrive
  split_ifs <;> rfl

theorem setHolds_slot (s : State Thread) (t t' : Thread) (m : ℕ) (b : Bool) :
    (s.setHolds t m b).holds t' m = if t' = t then b else s.holds t' m := by
  by_cases ht : t' = t <;> simp [State.setHolds, ht]

theorem setHolds_other (s : State Thread) (t t' : Thread) (hk : k ≠ m) (b : Bool) :
    (s.setHolds t m b).holds t' k = s.holds t' k := by
  by_cases ht : t' = t
  · subst ht
    simp [State.setHolds, update_of_ne hk]
  · simp [State.setHolds, update_of_ne ht]

theorem enter_slot (k : ℕ) (s : State Thread) (t : Thread) (c : Call) :
    SlotChange tid k s (enter s t c) (.call t c) := by
  cases c with
  | alloc =>
    cases hf : searchFree s.mutexes with
    | none => exact .untouched _ (by simp [enter, kthreadMutexAlloc, hf]) (fun _ => rfl)
    | some i =>
      by_cases hk : k = i
      · subst hk
        exact .alloc t (searchFree_spec hf).2 (by simp [enter, kthreadMutexAlloc, hf]) (fun _ => rfl)
      · exact .untouched _ (by simp [enter, kthreadMutexAlloc, hf, update_of_ne hk]) (fun _ => rfl)
  | dealloc mutexId =>
    refine .untouched _ ?_ (fun _ => ?_) <;>
      · simp only [enter, deallocTest]
        split_ifs <;> rfl
  | lock mutexId => exact .untouched _ rfl (fun _ => rfl)
  | unlock mutexId => exact .untouched _ rfl (fun _ => rfl)

theorem arrived_locked (mutex : KthreadMutex) (me : ℤ) (pc : Pc) :
    (arrived mutex me pc).locked = mutex.locked := by
  cases pc <;> simp [arrived, lockArrive_locked]

theorem lockArrive_names (mutex : KthreadMutex) (me : ℤ) :
    (lockArrive mutex me).id = mutex.id ∧ (lockArrive mutex me).used = mutex.used := by
  unfold lockArrive
  split_ifs <;> exact ⟨rfl, rfl⟩

theorem lockCatch_names (mutex : KthreadMutex) (me : ℤ) (pc : Pc) :
    (lockCatch (arrived mutex me pc) me).id = mutex.id ∧
    (lockCatch (arrived mutex me pc) me).used = mutex.used := by
  have ha : (arrived mutex me pc).id = mutex.id ∧ (arrived mutex me pc).used = mutex.used := by
    cases pc <;> simp only [arrived, lockArrive_names, and_self]
  unfold lockCatch lockTake lockLeave
  split_ifs <;> exact ha

theorem lockCatch_other (hl : mutex.locked = 0) (ht : mutex.tid ≠ me) :
    lockCatch mutex me =
      { mutex with locked := 1, tid := me, waitingThreads := mutex.waitingThreads - 1 } := by
  simp [lockCatch, hl, lockLeave, ht, lockTake]

theorem lockCatch_last (hl : mutex.locked = 0) (ht : mutex.tid = me)
    (hw : mutex.waitingThreads = 0) : lockCatch mutex me = { mutex with locked := 1 } := by
  subst ht
  simp [lockCatch, hl, lockLeave, lockTake, hw]

theorem lockCatch_skipped (hl : mutex.locked = 0) (ht : mutex.tid = me)
    (hw : mutex.waitingThreads ≠ 0) : lockCatch mutex me = mutex := by
  simp [lockCatch, hl, lockLeave, ht, lockTake, hw]

theorem lockCatch_tid (me : ℤ) (hl : mutex.locked = 0) : (lockCatch mutex me).tid = me := by
  by_cases ht : mutex.tid = me
  · by_cases hw : mutex.waitingThreads = 0
    · simp [lockCatch_last hl ht hw, ht]
    · simp [lockCatch_skipped hl ht hw, ht]
  · simp [lockCatch_other hl ht]

theorem resume_catch (hpc : AtCatch (s.pc t) k)
    (h : resume tid s t = some s') :
    ∃ counted, s' = lockLoop s t (tid t) k (arrived (s.mutexes k) (tid t) (s.pc t)) counted := by
  cases hp : s.pc t <;> simp only [hp, AtCatch, decide_eq_true_eq, Bool.false_eq_true] at hpc
  all_goals
    subst hpc
    simp only [resume, hp, Option.some.injEq] at h
    exact ⟨_, h.symm⟩

theorem resume_catch_slot (k : ℕ) (hpc : AtCatch (s.pc t) m)
    (h : resume tid s t = some s') : SlotChange tid k s s' (.run t) := by
  obtain ⟨counted, rfl⟩ := resume_catch hpc h
  by_cases hl : (s.mutexes m).locked = 0
  · simp only [lockLoop, arrived_locked, hl, ne_eq, not_true_eq_false, ↓reduceIte]
    by_cases hk : k = m
    · subst hk
      exact .lock t hpc hl (by simp) (fun t' => by rw [setHolds_slot]; rfl)
    · exact .untouched _ (by simp [update_of_ne hk]) (fun t' => by rw [setHolds_other _ _ _ hk]; rfl)
  · simp only [lockLoop, arrived_locked, ne_eq, hl, not_false_eq_true, ↓reduceIte]
    by_cases hk : k = m
    · subst hk
      cases hp : s.pc t <;> simp only [hp, AtCatch, decide_eq_true_eq, Bool.false_eq_true] at hpc
      case lockChecked =>
        subst hpc
        exact .arrive t hp hl (by simp [arrived]) (fun _ => rfl)
      case lockWoken => exact .untouched _ (by simp [arrived]) (fun _ => rfl)
    · exact .untouched _ (by simp [update_of_ne hk]) (fun _ => rfl)

theorem unlockRegion_slot (hpc : s.pc t = .unlockChecked m) :
    SlotChange tid k s (unlockRegion s t m) (.run t) := by
  unfold unlockRegion
  split_ifs with hl
  · exact .untouched _ rfl (fun _ => rfl)
  · by_cases hk : k = m
    · subst hk
      exact .unlock t hpc hl (by simp) (fun t' => by rw [setHolds_slot]; rfl)
    · exact .untouched _ (by simp [update_of_ne hk]) (fun t' => by rw [setHolds_other _ _ _ hk]; rfl)

theorem resume_slot (k : ℕ) (h : resume tid s t = some s') :
    SlotChange tid k s s' (.run t) := by
  cases hp : s.pc t
  case lockChecked m => exact resume_catch_slot k (m := m) (by simp [hp, AtCatch]) h
  case lockWoken m _ => exact resume_catch_slot k (m := m) (by simp [hp, AtCatch]) h
  all_goals simp only [resume, hp, Option.some.injEq, reduceCtorEq] at h
  case unlockChecked m =>
    subst h
    exact unlockRegion_slot hp
  case deallocTested m =>
    subst h
    by_cases hk : k = m
    · subst hk
      exact .dealloc t hp (by simp) (fun _ => rfl)
    · exact .untouched _ (by simp [update_of_ne hk]) (fun _ => rfl)
  all_goals
    subst h
    exact .untouched _ rfl (fun _ => rfl)

theorem step_slot (k : ℕ) (h : step tid s e = some s') :
    SlotChange tid k s s' e := by
  cases e with
  | call t c =>
    simp only [step, Option.ite_none_right_eq_some, Option.some.injEq] at h
    obtain ⟨_, rfl⟩ := h
    exact enter_slot k s t c
  | run t => exact resume_slot k h
  | wake t =>
    simp only [step] at h
    split at h
    · cases h
      exact .untouched _ rfl (fun _ => rfl)
    · cases h

def nextPc (me : ℤ) (mutexes : Slots) : Pc → Pc
  | .lockFound mutexId m => if (mutexes m).id ≠ mutexId then .returned (-1) else .lockNamed m
  | .lockNamed m => if (mutexes m).used = 0 then .returned (-1) else .lockChecked m
  | .lockChecked m =>
    if (mutexes m).locked ≠ 0 then .lockSleeping m (decide ((mutexes m).tid ≠ me)) else .returned 0
  | .lockWoken m counted => if (mutexes m).locked ≠ 0 then .lockSleeping m counted else .returned 0
  | .unlockFound mutexId m => if (mutexes m).id ≠ mutexId then .returned (-1) else .unlockNamed m
  | .unlockNamed m => if me ≠ (mutexes m).tid then .returned (-1) else .unlockChecked m
  | .unlockChecked m => if (mutexes m).locked = 0 then .returned (-1) else .unlockWakeup m
  | .unlockWakeup _ => .returned 0
  | .deallocTested _ => .returned 0
  | pc => pc

theorem nextPc_catch {pc : Pc} (hpc : AtCatch pc k)
    (hl : (mutexes k).locked = 0) : nextPc me mutexes pc = .returned 0 := by
  cases pc <;> simp_all [AtCatch, nextPc]

theorem resume_pc (h : resume tid s t = some s') :
    s'.pc t = nextPc (tid t) s.mutexes (s.pc t) := by
  cases hp : s.pc t <;> simp only [resume, hp, Option.some.injEq, reduceCtorEq] at h
  case lockChecked m =>
    subst h
    simp only [lockLoop, lockArrive_locked, nextPc]
    split_ifs <;> simp
  case lockWoken m counted =>
    subst h
    simp only [lockLoop, nextPc]
    split_ifs <;> simp
  case unlockChecked m =>
    subst h
    simp only [unlockRegion, nextPc]
    split_ifs <;> simp
  all_goals
    subst h
    simp [nextPc]

def firstPc (mutexes : Slots) : Call → Pc
  | .alloc => .returned (kthreadMutexAlloc mutexes).2
  | .dealloc mutexId =>
    let m := searchId mutexes mutexId
    if m = MAX_MUTEXES ∨ (mutexes m).locked = 1 ∨ (mutexes m).used = 0 then .returned (-1)
    else .deallocTested m
  | .lock mutexId => .lockFound mutexId (searchId mutexes mutexId)
  | .unlock mutexId => .unlockFound mutexId (searchId mutexes mutexId)

theorem enter_pc (s : State Thread) (t : Thread) (c : Call) : (enter s t c).pc t = firstPc s.mutexes c := by
  cases c with
  | dealloc mutexId =>
    simp only [enter, deallocTest, firstPc]
    split_ifs <;> simp_all
  | _ => simp [enter, firstPc]

def Event.actor : Event Thread → Thread
  | .call t _ => t
  | .run t => t
  | .wake t => t

def actorPc (tid : Thread → ℤ) (s : State Thread) : Event Thread → Pc
  | .call _ c => firstPc s.mutexes c
  | .run t => nextPc (tid t) s.mutexes (s.pc t)
  | .wake t =>
    match s.pc t with
    | .lockSleeping m counted => .lockWoken m counted
    | _ => .idle

theorem step_pc_actor (h : step tid s e = some s') :
    s'.pc e.actor = actorPc tid s e := by
  cases e with
  | call t c =>
    simp only [step, Option.ite_none_right_eq_some, Option.some.injEq] at h
    obtain ⟨_, rfl⟩ := h
    exact enter_pc s t c
  | run t => exact resume_pc h
  | wake t =>
    simp only [step] at h
    split at h
    · rename_i hp
      cases h
      simp [Event.actor, actorPc, hp]
    · cases h

theorem goto_pc_other (s : State Thread) (hu : u ≠ t) (pc : Pc) : (s.goto t pc).pc u = s.pc u := by
  simp [update_of_ne hu]

theorem lockLoop_pc_other (s : State Thread) (hu : u ≠ t) (me : ℤ) (m : ℕ)
    (mutex : KthreadMutex) (counted : Bool) : (lockLoop s t me m mutex counted).pc u = s.pc u := by
  unfold lockLoop
  split_ifs <;> simp [update_of_ne hu]

theorem unlockRegion_pc_other (s : State Thread) (hu : u ≠ t) (m : ℕ) :
    (unlockRegion s t m).pc u = s.pc u := by
  unfold unlockRegion
  split_ifs <;> simp [update_of_ne hu]

theorem step_pc_other (h : step tid s e = some s')
    (hu : u ≠ e.actor) : s'.pc u = s.pc u ∨
      ∃ m counted, s.pc u = .lockSleeping m counted ∧ s'.pc u = .lockWoken m counted := by
  cases e with
  | call t c =>
    simp only [step, Option.ite_none_right_eq_some, Option.some.injEq] at h
    obtain ⟨_, rfl⟩ := h
    left
    cases c <;> simp only [enter, deallocTest]
    case dealloc => split_ifs <;> simp [update_of_ne (show u ≠ t from hu)]
    all_goals simp [update_of_ne (show u ≠ t from hu)]
  | run t =>
    have hut : u ≠ t := hu
    cases hp : s.pc t <;> simp only [step, resume, hp, Option.some.injEq, reduceCtorEq] at h
    case unlockWakeup m =>
      subst h
      rw [goto_pc_other _ hut]
      cases hq : s.pc u with
      | lockSleeping m' counted =>
        by_cases hm : m' = m
        · exact .inr ⟨m', counted, rfl, by simp [Pc.wakeup, hq, hm]⟩
        · exact .inl (by simp [Pc.wakeup, hq, hm])
      | _ => exact .inl (by simp [Pc.wakeup, hq])
    case lockChecked => exact .inl (h ▸ lockLoop_pc_other s hut _ _ _ _)
    case lockWoken => exact .inl (h ▸ lockLoop_pc_other s hut _ _ _ _)
    case unlockChecked => exact .inl (h ▸ unlockRegion_pc_other s hut _)
    all_goals exact .inl (h ▸ by simp [update_of_ne hut])
  | wake t =>
    simp only [step] at h
    split at h
    · cases h
      exact .inl (goto_pc_other _ hu _)
    · cases h

theorem step_holds_other (h : step tid s e = some s') (k : ℕ)
    (hu : u ≠ e.actor) : s'.holds u k = s.holds u k := by
  cases step_slot k h with
  | lock t hpc hl hm hh | unlock t hpc hl hm hh =>
    rw [hh u]
    exact if_neg hu
  | untouched e hm hh | alloc t hu' hm hh | arrive t hpc hl hm hh | dealloc t hpc hm hh => exact hh u

theorem step_holds_actor (h : step tid s e = some s')
    (hpc : s.pc e.actor ≠ .unlockChecked k) (hh : s.holds e.actor k) : s'.holds e.actor k := by
  cases step_slot k h with
  | lock t hpc hl hm hheld =>
    rw [hheld]
    exact if_pos rfl
  | unlock t hun hl hm hheld => exact absurd hun hpc
  | untouched e hm hheld | alloc t hu' hm hheld | arrive t hpc hl hm hheld | dealloc t hpc hm hheld =>
    rwa [hheld]

end Xv6.Mutex
