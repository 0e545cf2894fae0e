import Xv6.ProcessGroup

namespace Xv6.Process

open Xv6.Threads Function

def Event.actor : Event → Option ℕ
  | .trap k _ | .syscall k _ | .run k | .kalloc k _ | .setupkvm k | .bad k | .finish k _ => some k
  | _ => none

def Pc.returns : Pc → Bool
  | .createSearch _ _ | .join _ | .joinWait _ _ | .execBody | .execImage _ | .execFree _ | .busy => true
  | .create _ _ ops => ops.isEmpty || ops.head? = some .kalloc
  | _ => false

inductive Move (base : ℕ) (s : State) (k : ℕ) : Pc → Pc → Prop
  | forkret : Move base s k .forkret .user
  | trap (kind : Trap) : Move base s k .user (.testExit kind.next)
  | exits (next : Cont) (h : (s.thr k).exitRequest ≠ 0) : Move base s k (.testExit next) .kexitScan
  | stays (next : Cont) (h : (s.thr k).exitRequest = 0) : Move base s k (.testExit next) (.testKilled next)
  | killed (next : Cont) : Move base s k (.testKilled next) (.exitScan next)
  | goes (next : Cont) : Move base s k (.testKilled next) next.pc
  | call (c : Call) : Move base s k .dispatch c.pc
  | yields (timer : Bool) : Move base s k (.yield timer) (.testExit .user)
  | last (next : Cont) (h : lastRunning s.thr base k) : Move base s k (.exitScan next) .exitClose
  | exit (next : Cont) (h : lastRunning s.thr base k = false) : Move base s k (.exitScan next) next.pc
  | final : Move base s k .exitClose .dead
  | kexitLast (h : lastRunning s.thr base k) : Move base s k .kexitScan (.exitScan .kexit)
  | kexit : Move base s k .kexitScan .dead
  | kexitWake : Move base s k .kexitWake .kexitMark
  | kexitMark : Move base s k .kexitMark .dead
  | returns (pc : Pc) (h : pc.returns) : Move base s k pc (.testExit .user)
  | claim (startFunc stack t : ℕ) (h : searchUninit s.thr base = some t) :
    Move base s k (.createSearch startFunc stack) (.create t 0 (kthreadCreate startFunc stack))
  | store (t sp sp' : ℕ) (op : Op) (ops : List Op) : Move base s k (.create t sp (op :: ops)) (.create t sp' ops)
  | joinSleeps (threadId : ℤ) (t : ℕ) (h : kthreadJoin s.thr base k threadId = .sleeps t) :
    Move base s k (.join threadId) (.joinWait threadId t)
  | waits (threadId : ℤ) (t : ℕ) (h : (s.thr t).state ≠ .terminated) :
    Move base s k (.joinWait threadId t) (.joinWait threadId t)
  | execExit : Move base s k .execTest .kexitScan
  | execGo : Move base s k .execTest .execScan
  | execScan : Move base s k .execScan .execBody
  | execImage (pgdir : ℕ) : Move base s k .execBody (.execImage pgdir)
  | execOld (pgdir old : ℕ) : Move base s k (.execImage pgdir) (.execOld pgdir old)
  | execSwitch (pgdir old : ℕ) : Move base s k (.execOld pgdir old) (.execSwitch old)
  | execFree (old : ℕ) : Move base s k (.execSwitch old) (.execFree old)

variable {base k : ℕ} {s s' : State} {e : Event}

theorem ret_pc (value : ℤ) : (s.ret k value).pc k = .testExit .user := by simp [State.ret]

theorem goto_pc (pc : Pc) : (s.goto k pc).pc k = pc := by simp

theorem joinStep_move {threadId : ℤ} {r : JoinResult} (hpc : (s.pc k).returns)
    (hsleeps : ∀ t, r = .sleeps t → Move base s k (s.pc k) (.joinWait threadId t)) :
    Move base s k (s.pc k) ((joinStep base s k threadId r).pc k) := by
  cases r with
  | fails =>
    rw [joinStep, ret_pc]
    exact .returns _ hpc
  | sleeps t =>
    rw [joinStep, goto_pc]
    exact hsleeps t rfl
  | reaps t =>
    simp only [joinStep, ret_pc]
    exact .returns _ hpc

theorem run_move (h : run base s k = some s') : Move base s k (s.pc k) (s'.pc k) := by
  unfold run at h
  split at h <;> rename_i hp
  case h_1 => cases h; rw [hp, goto_pc]; exact .forkret
  case h_2 next =>
    cases h
    rw [hp, goto_pc]
    split_ifs with hr
    · exact .exits next hr
    · exact .stays next (not_not.mp hr)
  case h_3 next =>
    cases h
    rw [hp, goto_pc]
    split_ifs
    · exact .killed next
    · exact .goes next
  case h_4 timer => cases h; rw [hp, goto_pc]; exact .yields timer
  case h_5 next =>
    cases h
    rw [hp, exitScan]
    split_ifs with hl
    · rw [goto_pc]
      exact .last next hl
    · simp only [goto_pc]
      exact .exit next (by simpa using hl)
  case h_6 => cases h; rw [hp, exitFinal]; simp only [goto_pc]; exact .final
  case h_7 =>
    cases h
    rw [hp, kexitScan]
    split_ifs with hl
    · rw [goto_pc]
      exact .kexitLast hl
    · rw [goto_pc]
      exact .kexit
  case h_8 => cases h; rw [hp, goto_pc]; exact .kexitWake
  case h_9 => cases h; rw [hp, goto_pc]; exact .kexitMark
  case h_10 startFunc stack =>
    cases h
    rw [hp, createSearch]
    split
    · rw [ret_pc]
      exact .returns _ rfl
    · simp only [goto_pc]
      exact .claim startFunc stack _ ‹_›
  case h_11 t sp => cases h; rw [hp, createReturn]; simp only [ret_pc]; exact .returns _ rfl
  case h_12 => cases h
  case h_13 t sp op ops _ => cases h; rw [hp, createStore, goto_pc]; exact .store t sp _ op ops
  case h_14 threadId =>
    cases h
    refine joinStep_move (by rw [hp]; rfl) (fun t ht => ?_)
    rw [hp]
    exact .joinSleeps threadId t ht
  case h_15 threadId t =>
    cases h
    refine joinStep_move (by rw [hp]; rfl) (fun t' ht => ?_)
    unfold joinLoop at ht
    split_ifs at ht with hstate
    cases ht
    rw [hp]
    exact .waits threadId t hstate
  case h_16 =>
    cases h
    rw [hp, goto_pc]
    split_ifs
    · exact .execExit
    · exact .execGo
  case h_17 => cases h; rw [hp, goto_pc]; exact .execScan
  case h_18 pgdir => cases h; rw [hp, goto_pc]; exact .execOld pgdir _
  case h_19 pgdir old => cases h; rw [hp]; simp only [goto_pc]; exact .execSwitch pgdir old
  case h_20 old => cases h; rw [hp]; simp only [goto_pc]; exact .execFree old
  case h_21 old => cases h; rw [hp]; simp only [ret_pc]; exact .returns _ rfl
  all_goals cases h

theorem step_move (h : step base s e = some s') (ha : e.actor = some k) :
    s.running base k ∧ Move base s k (s.pc k) (s'.pc k) := by
  cases e <;> simp only [Event.actor, Option.some.injEq, reduceCtorEq] at ha <;> subst ha
  case trap kind =>
    simp only [step, Option.ite_none_right_eq_some, Option.some.injEq] at h
    obtain ⟨⟨hrun, hp⟩, rfl⟩ := h
    rw [hp, trap]
    simp only [goto_pc]
    exact ⟨hrun, .trap kind⟩
  case syscall call =>
    simp only [step, Option.ite_none_right_eq_some, Option.some.injEq] at h
    obtain ⟨⟨hrun, hp⟩, rfl⟩ := h
    rw [hp, goto_pc]
    exact ⟨hrun, .call call⟩
  case run =>
    simp only [step, Option.ite_none_right_eq_some] at h
    exact ⟨h.1, run_move h.2⟩
  case kalloc page =>
    simp only [step] at h
    split at h
    · rename_i t sp ops hp
      simp only [Option.ite_none_right_eq_some, Option.some.injEq] at h
      obtain ⟨⟨hrun, _⟩, rfl⟩ := h
      rw [hp, kallocStep]
      split_ifs
      · rw [ret_pc]
        exact ⟨hrun, .returns _ rfl⟩
      · simp only [goto_pc]
        exact ⟨hrun, .store t sp sp _ ops⟩
    · cases h
  case setupkvm =>
    simp only [step, Option.ite_none_right_eq_some, Option.some.injEq] at h
    obtain ⟨⟨hrun, hp⟩, rfl⟩ := h
    rw [hp]
    simp only [goto_pc]
    exact ⟨hrun, .execImage _⟩
  case bad =>
    simp only [step] at h
    split at h
    · rename_i hp
      simp only [Option.ite_none_right_eq_some, Option.some.injEq] at h
      obtain ⟨hrun, rfl⟩ := h
      rw [hp, ret_pc]
      exact ⟨hrun, .returns _ rfl⟩
    · rename_i pgdir hp
      simp only [Option.ite_none_right_eq_some, Option.some.injEq] at h
      obtain ⟨hrun, rfl⟩ := h
      rw [hp]
      simp only [ret_pc]
      exact ⟨hrun, .returns _ rfl⟩
    · cases h
  case finish value =>
    simp only [step, Option.ite_none_right_eq_some, Option.some.injEq] at h
    obtain ⟨⟨hrun, hp⟩, rfl⟩ := h
    rw [hp, ret_pc]
    exact ⟨hrun, .returns _ rfl⟩

section

variable {i : ℕ} (hi : i ≠ k)
include hi

theorem goto_pc_other (pc : Pc) : (s.goto k pc).pc i = s.pc i := by simp [update_of_ne hi]

theorem ret_pc_other (value : ℤ) : (s.ret k value).pc i = s.pc i := by simp [State.ret, update_of_ne hi]

theorem joinStep_pc_other (threadId : ℤ) (r : JoinResult) : (joinStep base s k threadId r).pc i = s.pc i := by
  cases r with
  | fails => exact ret_pc_other hi _
  | sleeps t => exact goto_pc_other hi _
  | reaps t => exact ret_pc_other (s := s.setThr _) hi 0

theorem run_pc_other (h : run base s k = some s') : s'.pc i = s.pc i ∨
    (s'.pc i = .forkret ∧ ∃ sp ops, s.pc k = .create i sp (.contextEip :: ops)) := by
  unfold run at h
  split at h <;> rename_i hp
  case h_5 next =>
    cases h
    unfold exitScan
    split_ifs <;> exact .inl (goto_pc_other hi _)
  case h_7 =>
    cases h
    unfold kexitScan
    split_ifs <;> exact .inl (goto_pc_other hi _)
  case h_10 =>
    cases h
    unfold createSearch
    split
    · exact .inl (ret_pc_other hi _)
    · exact .inl (goto_pc_other hi _)
  case h_13 t sp op ops _ =>
    cases h
    rw [createStore, goto_pc_other hi]
    by_cases hop : op = .contextEip
    · subst hop
      by_cases ht : i = t
      · subst ht
        exact .inr ⟨by simp, sp, ops, hp⟩
      · exact .inl (by simp [update_of_ne ht])
    · exact .inl (by simp [hop])
  case h_14 => cases h; exact .inl (joinStep_pc_other hi _ _)
  case h_15 => cases h; exact .inl (joinStep_pc_other hi _ _)
  case h_11 t _ => cases h; exact .inl (ret_pc_other hi (s.thr t).tid)
  case h_21 => cases h; exact .inl (ret_pc_other hi 0)
  all_goals first | (cases h; exact .inl (goto_pc_other hi _)) | cases h

end

theorem step_pc_other {i : ℕ} (h : step base s e = some s') (hi : e.actor ≠ some i) : s'.pc i = s.pc i ∨
    (s'.pc i = .forkret ∧ ∃ k sp ops, e = .run k ∧ s.pc k = .create i sp (.contextEip :: ops)) := by
  cases e <;> simp only [Event.actor, ne_eq, Option.some.injEq, reduceCtorEq, not_false_eq_true] at hi
  case trap k kind =>
    simp only [step, Option.ite_none_right_eq_some, Option.some.injEq] at h
    obtain ⟨_, rfl⟩ := h
    exact .inl (goto_pc_other (Ne.symm hi) _)
  case syscall k call =>
    simp only [step, Option.ite_none_right_eq_some, Option.some.injEq] at h
    obtain ⟨_, rfl⟩ := h
    exact .inl (goto_pc_other (Ne.symm hi) _)
  case run k =>
    simp only [step, Option.ite_none_right_eq_some] at h
    obtain hsame | ⟨hfork, sp, ops, hp⟩ := run_pc_other (Ne.symm hi) h.2
    · exact .inl hsame
    · exact .inr ⟨hfork, k, sp, ops, rfl, hp⟩
  case kalloc k page =>
    simp only [step] at h
    split at h
    · simp only [Option.ite_none_right_eq_some, Option.some.injEq] at h
      obtain ⟨_, rfl⟩ := h
      unfold kallocStep
      split_ifs
      · exact .inl (ret_pc_other (Ne.symm hi) _)
      · exact .inl (goto_pc_other (Ne.symm hi) _)
    · cases h
  case setupkvm k =>
    simp only [step, Option.ite_none_right_eq_some, Option.some.injEq] at h
    obtain ⟨_, rfl⟩ := h
    exact .inl (goto_pc_other (Ne.symm hi) _)
  case bad k =>
    simp only [step] at h
    split at h
    · simp only [Option.ite_none_right_eq_some, Option.some.injEq] at h
      obtain ⟨_, rfl⟩ := h
      exact .inl (ret_pc_other (Ne.symm hi) (-1))
    · simp only [Option.ite_none_right_eq_some, Option.some.injEq] at h
      obtain ⟨_, rfl⟩ := h
      exact .inl (ret_pc_other (Ne.symm hi) (-1))
    · cases h
  case finish k value =>
    simp only [step, Option.ite_none_right_eq_some, Option.some.injEq] at h
    obtain ⟨_, rfl⟩ := h
    exact .inl (ret_pc_other (Ne.symm hi) _)
  case kill => cases h; exact .inl rfl
  case tick => cases h; exact .inl rfl
  case other k t =>
    simp only [step, Option.ite_none_left_eq_some, Option.some.injEq] at h
    obtain ⟨_, rfl⟩ := h
    exact .inl rfl
  all_goals
    simp only [step, Option.ite_none_right_eq_some, Option.some.injEq] at h
    obtain ⟨_, rfl⟩ := h
    exact .inl rfl

theorem step_pc (k : ℕ) (h : step base s e = some s') :
    (e.actor ≠ some k ∧ s'.pc k = s.pc k) ∨
    (e.actor = some k ∧ s.running base k ∧ Move base s k (s.pc k) (s'.pc k)) ∨
    (s'.pc k = .forkret ∧ ∃ j sp ops, e = .run j ∧ s.pc j = .create k sp (.contextEip :: ops)) := by
  by_cases ha : e.actor = some k
  · exact .inr (.inl ⟨ha, step_move h ha⟩)
  · obtain hsame | hfork := step_pc_other h ha
    · exact .inl ⟨ha, hsame⟩
    · exact .inr (.inr hfork)

theorem actor_run (h : step base s e = some s') (ha : e.actor = some k)
    (hpc : s.pc k ≠ .user ∧ s.pc k ≠ .dispatch ∧ s.pc k ≠ .execBody ∧ s.pc k ≠ .busy ∧
      (∀ pgdir, s.pc k ≠ .execImage pgdir) ∧ ∀ t sp ops, s.pc k ≠ .create t sp (.kalloc :: ops)) : e = .run k := by
  cases e <;> simp only [Event.actor, Option.some.injEq, reduceCtorEq] at ha <;> subst ha
  case run => rfl
  case kalloc =>
    simp only [step] at h
    split at h
    · exact absurd ‹_› (hpc.2.2.2.2.2 _ _ _)
    · cases h
  case bad =>
    simp only [step] at h
    split at h
    · exact absurd ‹_› hpc.2.2.1
    · exact absurd ‹_› (hpc.2.2.2.2.1 _)
    · cases h
  all_goals simp [step, hpc] at h

end Xv6.Process
