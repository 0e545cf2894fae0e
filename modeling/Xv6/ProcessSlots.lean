import Xv6.ProcessSteps

namespace Xv6.Process

open Xv6.Threads Function

inductive SlotChange (base : ℕ) (s s' : State) (i : ℕ) : Event → Prop
  | same (e : Event) (h : s'.thr i = s.thr i) : SlotChange base s s' i e
  | moved (e : Event) (state : ThreadState) (hl : (s.thr i).state.live)
    (hl' : state = .runnable ∨ (state = .running ∧ e = .scheduler i))
    (h : s'.thr i = { s.thr i with state := state }) : SlotChange base s s' i e
  | slept (c : ℕ) (hl : (s.thr i).state.live) (hpc : (s.pc i).maySleep)
    (h : s'.thr i = { s.thr i with chan := .other c, state := .sleeping }) : SlotChange base s s' i (.sleep i c)
  | joins (threadId : ℤ) (t : ℕ) (hl : (s.thr i).state.live) (hpc : s'.pc i = .joinWait threadId t)
    (ht : (s'.thr t).state ≠ .terminated) (h : s'.thr i = { s.thr i with chan := .thread t, state := .sleeping }) :
    SlotChange base s s' i (.run i)
  | marked (k : ℕ) (hk : i ≠ k) (hpc : (∃ next, s.pc k = .exitScan next) ∨ s.pc k = .execScan)
    (hl : (s.thr i).state.live) (h : s'.thr i = { s.thr i with exitRequest := 1 }) :
    SlotChange base s s' i (.run k)
  | ended (hl : (s.thr i).state.live) (hpc : s'.pc i = .dead)
      (h : s'.thr i = { s.thr i with state := .terminated }) :
    SlotChange base s s' i (.run i)
  | reaped (k : ℕ) (threadId : ℤ)
    (hpc : (s.pc k = .join threadId ∧ kthreadJoin s.thr base k threadId = .reaps i) ∨
      s.pc k = .joinWait threadId i)
    (ht : (s.thr i).state = .terminated) (h : s'.thr i = { s.thr i with kstack := 0, state := .uninit }) :
    SlotChange base s s' i (.run k)
  | cleaned (hi : i ∈ slots base) (ht : (s.thr i).state = .terminated)
    (h : s'.thr i = { s.thr i with kstack := 0, tid := 0, tproc := none, exitRequest := 0, state := .uninit }) :
    SlotChange base s s' i .wait
  | claimed (k startFunc stack : ℕ) (hpc : s.pc k = .createSearch startFunc stack)
    (hs : searchUninit s.thr base = some i)
    (h : s'.thr i = { s.thr i with tproc := some (row base), tid := s.nexttid }) :
    SlotChange base s s' i (.run k)
  | stored (k sp : ℕ) (op : Op) (ops : List Op) (hpc : s.pc k = .create i sp (op :: ops))
    (h : s'.thr i = op.thread (row base) sp (s.thr i)) : SlotChange base s s' i (.run k)
  | kalloced (k sp page : ℕ) (ops : List Op) (hpc : s.pc k = .create i sp (.kalloc :: ops))
    (h : s'.thr i = { s.thr i with kstack := page }) : SlotChange base s s' i (.kalloc k page)
  | foreign (t : Kthread) (hi : i ∉ slots base) : SlotChange base s s' i (.other i t)

section

variable {base i k : ℕ} {s s' : State} {e : Event}

theorem change_setState {state : ThreadState} (hl : (s.thr k).state.live)
    (hl' : state = .runnable ∨ (state = .running ∧ e = .scheduler k)) (h : s'.thr = setState s.thr k state) :
    SlotChange base s s' i e := by
  by_cases hi : i = k
  · subst hi
    exact .moved e state hl hl' (by simp [h, setState])
  · exact .same e (by simp [h, setState, update_of_ne hi])

theorem change_wakeup (chan : Chan) (h : s'.thr i = wakeupThreads s.thr chan i) : SlotChange base s s' i e := by
  unfold wakeupThreads at h
  split_ifs at h with hw
  · exact .moved e .runnable (by rw [hw.1]; rfl) (.inl rfl) h
  · exact .same e h

theorem change_ended {chan : Chan} (hl : (s.thr k).state.live) (hrun : (s.thr k).state ≠ .sleeping)
    (hpc : s'.pc k = .dead) (h : s'.thr = setState (wakeupThreads s.thr chan) k .terminated) :
    SlotChange base s s' i (.run k) := by
  by_cases hi : i = k
  · subst hi
    exact .ended hl hpc (by simp [h, setState, wakeupThreads, hrun])
  · exact change_wakeup chan (by simp [h, setState, update_of_ne hi])

theorem change_requestExit (hpc : (∃ next, s.pc k = .exitScan next) ∨ s.pc k = .execScan)
    (h : s'.thr = requestExit s.thr base k) : SlotChange base s s' i (.run k) := by
  by_cases hm : i ∈ slots base ∧ i ≠ k ∧ (s.thr i).state.live
  · exact .marked k hm.2.1 hpc hm.2.2 (by rw [h, requestExit, if_pos hm])
  · exact .same _ (by rw [h, requestExit, if_neg hm])

theorem change_join {threadId : ℤ} {r : JoinResult} (hrun : (s.thr k).state = .running)
    (hw : ∀ t, r = .sleeps t → (s.thr t).state ≠ .terminated)
    (hr : ∀ t, r = .reaps t → (s.thr t).state = .terminated ∧
      ((s.pc k = .join threadId ∧ kthreadJoin s.thr base k threadId = .reaps t) ∨ s.pc k = .joinWait threadId t))
    (h : s' = joinStep base s k threadId r) : SlotChange base s s' i (.run k) := by
  subst h
  cases r with
  | fails => exact .same _ rfl
  | sleeps t =>
    by_cases hi : i = k
    · subst hi
      refine .joins threadId t (by rw [hrun]; rfl) (by simp [joinStep]) ?_ (by simp [joinStep, JoinResult.table])
      by_cases ht : t = i
      · simp [joinStep, JoinResult.table, ht]
      · simpa [joinStep, JoinResult.table, update_of_ne ht] using hw t rfl
    · exact .same _ (by simp [joinStep, JoinResult.table, update_of_ne hi])
  | reaps t =>
    obtain ⟨ht, hpc⟩ := hr t rfl
    by_cases hi : i = t
    · subst hi
      exact .reaped k threadId hpc ht (by simp [joinStep, JoinResult.table, State.ret])
    · exact .same _ (by simp [joinStep, JoinResult.table, State.ret, update_of_ne hi])

theorem run_slot (hrun : (s.thr k).state = .running) (h : run base s k = some s') :
    SlotChange base s s' i (.run k) := by
  have hl : (s.thr k).state.live := by rw [hrun]; rfl
  unfold run at h
  split at h <;> rename_i hp
  case h_4 timer =>
    cases h
    cases timer with
    | false => exact .same _ rfl
    | true => exact change_setState hl (.inl rfl) rfl
  case h_5 next =>
    cases h
    unfold exitScan
    split_ifs
    · exact .same _ rfl
    · exact change_requestExit (.inl ⟨next, hp⟩) rfl
  case h_6 => cases h; exact change_ended hl (by simp [hrun]) (by simp [exitFinal]) rfl
  case h_7 =>
    cases h
    unfold kexitScan
    split_ifs
    · exact .same _ rfl
    · exact change_ended hl (by simp [hrun]) (by simp) rfl
  case h_8 => cases h; exact change_wakeup _ rfl
  case h_9 =>
    cases h
    by_cases hi : i = k
    · subst hi
      exact .ended hl (by simp) (by simp [setState])
    · exact .same _ (by simp [setState, update_of_ne hi])
  case h_10 startFunc stack =>
    cases h
    unfold createSearch
    split
    · exact .same _ rfl
    · rename_i t hs
      by_cases hi : i = t
      · subst hi
        exact .claimed k startFunc stack hp hs (by simp)
      · exact .same _ (by simp [update_of_ne hi])
  case h_13 t sp op ops _ =>
    cases h
    have hthr : (createStore base s k t sp op ops).thr =
        update s.thr t (op.thread (row base) sp (s.thr t)) := by
      unfold createStore
      split_ifs <;> rfl
    by_cases hi : i = t
    · subst hi
      exact .stored k sp op ops hp (by rw [hthr, update_self])
    · exact .same _ (by rw [hthr, update_of_ne hi])
  case h_14 threadId =>
    cases h
    exact change_join hrun (fun t ht => (kthreadJoin_sleeps ht).1)
      (fun t ht => ⟨(kthreadJoin_reaps ht).1, .inl ⟨hp, ht⟩⟩) rfl
  case h_15 threadId t =>
    cases h
    refine change_join hrun (fun t' ht => ?_) (fun t' ht => ?_) rfl
    · obtain ⟨rfl, hterm⟩ := joinLoop_sleeps ht
      exact hterm
    · obtain ⟨rfl, hterm⟩ := joinLoop_reaps ht
      exact ⟨hterm, .inr hp⟩
  case h_17 => cases h; exact change_requestExit (.inr hp) rfl
  all_goals first | (cases h; exact .same _ rfl) | cases h

theorem State.running_spec (h : s.running base k) : k ∈ slots base ∧ (s.thr k).state = .running := by
  simpa [State.running] using h

theorem step_slot (i : ℕ) (h : step base s e = some s') : SlotChange base s s' i e := by
  cases e <;> simp only [step, Option.ite_none_right_eq_some, Option.ite_none_left_eq_some, Option.some.injEq] at h
  case trap k kind =>
    obtain ⟨_, rfl⟩ := h
    by_cases hw : kind = .fault ∧ i ∈ slots base ∧ (s.thr i).state = .sleeping
    · exact .moved _ .runnable (by rw [hw.2.2]; rfl) (.inl rfl) (by simp [trap, trapTable, hw])
    · exact .same _ (by simp only [trap, State.setThr_thr, State.goto_thr, trapTable, if_neg hw])
  case run k => exact run_slot (State.running_spec h.1).2 h.2
  case kalloc k page =>
    split at h
    · rename_i t sp ops hp
      simp only [Option.ite_none_right_eq_some, Option.some.injEq] at h
      obtain ⟨_, rfl⟩ := h
      have hthr : (kallocStep s k t sp page ops).thr = update s.thr t { s.thr t with kstack := page } := by
        unfold kallocStep
        split_ifs <;> rfl
      by_cases hi : i = t
      · subst hi
        exact .kalloced k sp page ops hp (by rw [hthr, update_self])
      · exact .same _ (by rw [hthr, update_of_ne hi])
    · cases h
  case bad k =>
    split at h
    · simp only [Option.ite_none_right_eq_some, Option.some.injEq] at h
      obtain ⟨_, rfl⟩ := h
      exact .same _ rfl
    · simp only [Option.ite_none_right_eq_some, Option.some.injEq] at h
      obtain ⟨_, rfl⟩ := h
      exact .same _ rfl
    · cases h
  case sleep k chan =>
    obtain ⟨⟨hrun, hsleep⟩, rfl⟩ := h
    by_cases hi : i = k
    · subst hi
      exact .slept chan (by rw [(State.running_spec hrun).2]; rfl) hsleep (by simp)
    · exact .same _ (by simp [update_of_ne hi])
  case scheduler k =>
    obtain ⟨⟨_, _, hr⟩, rfl⟩ := h
    exact change_setState (by rw [hr]; rfl) (.inr ⟨rfl, rfl⟩) rfl
  case preempt k =>
    obtain ⟨⟨hrun, _⟩, rfl⟩ := h
    exact change_setState (by rw [(State.running_spec hrun).2]; rfl) (.inl rfl) rfl
  case wake k =>
    obtain ⟨⟨_, hsl⟩, rfl⟩ := h
    exact change_setState (by rw [hsl]; rfl) (.inl rfl) rfl
  case kill => cases h; exact .same _ rfl
  case tick => cases h; exact .same _ rfl
  case other k t =>
    obtain ⟨hk, rfl⟩ := h
    by_cases hi : i = k
    · subst hi
      exact .foreign t hk
    · exact .same _ (by simp [update_of_ne hi])
  case wait =>
    obtain ⟨_, rfl⟩ := h
    by_cases hc : i ∈ slots base ∧ (s.thr i).state = .terminated
    · exact .cleaned hc.1 hc.2 (by simp [wait, waitTable, hc])
    · exact .same _ (by simp only [wait, State.setThr_thr, waitTable, if_neg hc])
  all_goals
    obtain ⟨_, rfl⟩ := h
    exact .same _ rfl

end

end Xv6.Process
