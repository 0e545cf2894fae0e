import Xv6.Runs
import Xv6.MutexSteps
import Mathlib.Logic.Embedding.Basic

namespace Xv6.Mutex

open Xv6.Runs

variable {Thread : Type}

/-- The last owner comes back while other threads wait: the call returns 0 without the lock. -/
def RelockSkipped (tid : Thread → ℤ) (k : ℕ) (s : State Thread) : Event Thread → Prop
  | .run t => AtCatch (s.pc t) k ∧ (s.mutexes k).locked = 0 ∧ (s.mutexes k).tid = tid t ∧
      (s.mutexes k).waitingThreads ≠ 0
  | _ => False

/-- The owner test was passed earlier and the mutex has meanwhile been locked by another thread. -/
def UnlockStale (tid : Thread → ℤ) (k : ℕ) (s : State Thread) : Event Thread → Prop
  | .run t => s.pc t = .unlockChecked k ∧ (s.mutexes k).locked ≠ 0 ∧ (s.mutexes k).tid ≠ tid t
  | _ => False

def Deallocates (k : ℕ) (s : State Thread) : Event Thread → Prop
  | .run t => s.pc t = .deallocTested k
  | _ => False

def ExclusionOk (tid : Thread → ℤ) (k : ℕ) (s : State Thread) (e : Event Thread) : Prop :=
  ¬ RelockSkipped tid k s e ∧ ¬ UnlockStale tid k s e ∧ ¬ Deallocates k s e

instance (tid : Thread → ℤ) (k : ℕ) (s : State Thread) : ∀ e, Decidable (RelockSkipped tid k s e)
  | .run _ => inferInstanceAs (Decidable (_ ∧ _ ∧ _ ∧ _))
  | .call _ _ | .wake _ => inferInstanceAs (Decidable False)

instance (tid : Thread → ℤ) (k : ℕ) (s : State Thread) : ∀ e, Decidable (UnlockStale tid k s e)
  | .run _ => inferInstanceAs (Decidable (_ ∧ _ ∧ _))
  | .call _ _ | .wake _ => inferInstanceAs (Decidable False)

instance (k : ℕ) (s : State Thread) : ∀ e, Decidable (Deallocates k s e)
  | .run _ => inferInstanceAs (Decidable (_ = _))
  | .call _ _ | .wake _ => inferInstanceAs (Decidable False)

instance (tid : Thread → ℤ) (k : ℕ) (s : State Thread) (e : Event Thread) :
    Decidable (ExclusionOk tid k s e) :=
  inferInstanceAs (Decidable (_ ∧ _ ∧ _))

structure Fresh (k : ℕ) (s : State Thread) : Prop where
  used : (s.mutexes k).used ≠ 0
  locked : (s.mutexes k).locked = 0
  unheld : ∀ t, s.holds t k = false

structure Owned (tid : Thread → ℤ) (k : ℕ) (s : State Thread) : Prop where
  used : (s.mutexes k).used ≠ 0
  holder : ∀ t, s.holds t k = true → (s.mutexes k).locked = 1 ∧ (s.mutexes k).tid = tid t

variable {tid : Thread → ℤ} {k : ℕ} {s : State Thread}

theorem Fresh.owned (h : Fresh k s) : Owned tid k s where
  used := h.used
  holder := fun t ht => by simp [h.unheld t] at ht

theorem lockCatch_owned (mutex : KthreadMutex) (me : ℤ) (pc : Pc) (hl : mutex.locked = 0)
    (h : mutex.tid = me → mutex.waitingThreads = 0) : (lockCatch (arrived mutex me pc) me).locked = 1 := by
  by_cases ht : mutex.tid = me
  · have ha : arrived mutex me pc = mutex := by cases pc <;> simp [arrived, lockArrive, ht]
    rw [ha, lockCatch_last hl ht (h ht)]
  · have hta : (arrived mutex me pc).tid ≠ me := by cases pc <;> simp [arrived, lockArrive_tid, ht]
    rw [lockCatch_other ((arrived_locked mutex me pc).trans hl) hta]

theorem waiting_of_not_skipped {t : Thread}
    (h : ¬ RelockSkipped tid k s (.run t)) (hpc : AtCatch (s.pc t) k) (hl : (s.mutexes k).locked = 0)
    (ht : (s.mutexes k).tid = tid t) : (s.mutexes k).waitingThreads = 0 := by
  by_contra hw
  exact h ⟨hpc, hl, ht, hw⟩

variable [DecidableEq Thread]

theorem owned_step (tid : Thread ↪ ℤ) (k : ℕ) : Preserves (step tid) (ExclusionOk tid k) (Owned tid k) := by
  intro s e s' hi hok hs
  obtain ⟨hskip, hstale, hdealloc⟩ := hok
  cases step_slot k hs with
  | untouched e hm hh => exact ⟨hm ▸ hi.used, fun t ht => hm ▸ hi.holder t (by rwa [← hh t])⟩
  | alloc t hu hm hh => exact absurd hu hi.used
  | arrive t hpc hl hm hh =>
    refine ⟨?_, fun t' ht => ?_⟩
    · rw [hm, (lockArrive_names _ _).2]
      exact hi.used
    · rw [hm, lockArrive_locked, lockArrive_tid]
      exact hi.holder t' (by rwa [← hh t'])
  | lock t hpc hl hm hh =>
    refine ⟨by rw [hm, (lockCatch_names _ _ _).2]; exact hi.used, fun t' hheld => ?_⟩
    rw [hh t'] at hheld
    split_ifs at hheld with he
    · rw [hm, he, lockCatch_tid _ ((arrived_locked _ _ _).trans hl)]
      exact ⟨lockCatch_owned _ _ (s.pc t) hl (waiting_of_not_skipped hskip hpc hl), rfl⟩
    · have hlocked := (hi.holder t' hheld).1
      omega
  | unlock t hpc hl hm hh =>
    have hme : (s.mutexes k).tid = tid t := by
      by_contra hne
      exact hstale ⟨hpc, hl, hne⟩
    refine ⟨by rw [hm]; exact hi.used, fun t' hheld => ?_⟩
    rw [hh t'] at hheld
    split_ifs at hheld with he
    exact absurd (tid.injective ((hi.holder t' hheld).2.symm.trans hme)) he
  | dealloc t hpc hm hh => exact absurd hpc hdealloc

def LockReturns (k : ℕ) (s s' : State Thread) (t : Thread) : Event Thread → Prop
  | .run t' => t' = t ∧ AtCatch (s.pc t) k ∧ s'.pc t = .returned 0
  | _ => False

theorem lockReturns_owner {tid : Thread → ℤ} {k : ℕ} {s s' : State Thread} {t : Thread} {e : Event Thread}
    (hok : ¬ RelockSkipped tid k s e) (hs : step tid s e = some s') (hl : LockReturns k s s' t e) :
    (s'.mutexes k).locked = 1 ∧ (s'.mutexes k).tid = tid t := by
  cases e with
  | run t' =>
    obtain ⟨rfl, hpc, hret⟩ := hl
    obtain ⟨counted, rfl⟩ := resume_catch hpc hs
    by_cases hfree : (s.mutexes k).locked = 0
    · have hlocked := lockCatch_owned _ _ (s.pc t') hfree (waiting_of_not_skipped hok hpc hfree)
      have htid := lockCatch_tid (tid t') ((arrived_locked (s.mutexes k) (tid t') (s.pc t')).trans hfree)
      simpa [lockLoop, arrived_locked, hfree] using And.intro hlocked htid
    · simp [lockLoop, arrived_locked, hfree] at hret
  | call t' c => exact hl.elim
  | wake t' => exact hl.elim

theorem mutex_exclusion (tid : Thread ↪ ℤ) (k : ℕ) (s s' : State Thread) (hf : Fresh k s)
    (hr : Reaches (step tid) (ExclusionOk tid k) s s') :
    (∀ t u, s'.holds t k = true → s'.holds u k = true → t = u) ∧
      ∀ e s'' t, ExclusionOk tid k s' e → step tid s' e = some s'' → LockReturns k s' s'' t e →
        (s''.mutexes k).locked = 1 ∧ (s''.mutexes k).tid = tid t := by
  have ho : Owned tid k s' := hr.invariant (owned_step tid k) hf.owned
  refine ⟨fun t u ht hu => ?_, fun e s'' t hok hs hl => lockReturns_owner hok.1 hs hl⟩
  exact tid.injective ((ho.holder t ht).2.symm.trans (ho.holder u hu).2)

def numbered (n : ℕ) : Fin n ↪ ℤ :=
  ⟨fun t => (t : ℤ) + 1, fun a b h => Fin.ext (by simp only at h; omega)⟩

def oneMutex (Thread : Type) : State Thread :=
  ⟨Function.update (fun _ => cleared) 0 (allocated 0), none, fun _ => .idle, fun _ _ => false⟩

omit [DecidableEq Thread] in
theorem oneMutex_fresh : Fresh 0 (oneMutex Thread) :=
  ⟨by simp [oneMutex, allocated], by simp [oneMutex, allocated], fun _ => rfl⟩

def lockCall (t : Thread) (mutexId : ℤ) : List (Event Thread) :=
  [.call t (.lock mutexId), .run t, .run t, .run t]

def unlockCall (t : Thread) (mutexId : ℤ) : List (Event Thread) :=
  [.call t (.unlock mutexId), .run t, .run t, .run t, .run t]

def first : Fin 2 := 0

def second : Fin 2 := 1

def fairTurns : List (Event (Fin 2)) :=
  lockCall first 0 ++ lockCall second 0 ++ unlockCall first 0 ++ [.run second]

theorem mutex_exclusion_fairTurns : ∃ s',
    Reaches (step (numbered 2)) (ExclusionOk (numbered 2) 0) (oneMutex (Fin 2)) s' ∧ s'.holds 1 0 = true ∧
      ∀ t u, s'.holds t 0 = true → s'.holds u 0 = true → t = u :=
  have hr := exec_get_reaches (oneMutex (Fin 2)) fairTurns (by decide +kernel)
  ⟨_, hr, by decide +kernel, (mutex_exclusion (numbered 2) 0 _ _ oneMutex_fresh hr).1⟩

def relockTurns : List (Event (Fin 2)) :=
  lockCall first 0 ++ lockCall second 0 ++ unlockCall first 0 ++ lockCall first 0 ++ [.run second]

theorem mutex_exclusion_fails : ∃ s',
    Reaches (step (numbered 2)) (fun s e => ¬ Deallocates 0 s e) (oneMutex (Fin 2)) s' ∧ s'.holds 0 0 = true ∧
      s'.holds 1 0 = true :=
  ⟨_, exec_get_reaches (oneMutex (Fin 2)) relockTurns (by decide +kernel), by decide +kernel, by decide +kernel⟩

end Xv6.Mutex
