import Xv6.ProcessWaits

namespace Xv6.Process

open Xv6.Threads Xv6.Runs

structure JoinsOk (s : State) : Prop where
  once : s.reaped.Nodup
  asleep : ∀ k threadId t, s.pc k = .joinWait threadId t → (s.thr k).state = .sleeping →
    (s.thr t).state ≠ .terminated ∧ (s.thr t).state ≠ .uninit ∧ (s.thr t).tid = threadId

structure JoinInv (base : ℕ) (s : State) : Prop where
  sound : Sound base s
  tids : TidsOk base s
  reaped : ReapedOk base s
  waits : WaitsOk base s

variable {base : ℕ} {s s' : State}

theorem start_joinInv (h : Start base s) : JoinInv base s where
  sound := start_sound h
  tids := start_tids h
  reaped := ⟨by simp [h.logs.2.2.1], by simp [h.logs.2.2.1], by simp [h.logs.2.2.1]⟩
  waits := ⟨fun _ _ _ hpc => (h.place_ne hpc (by simp) (by simp)).elim,
    fun _ _ _ _ _ hpc _ => (h.place_ne hpc (by simp) (by simp)).elim,
    fun _ _ _ hpc => (h.place_ne hpc (by simp) (by simp)).elim⟩

theorem joinInv_step (base : ℕ) : Preserves (step base) (JoinTurn base) (JoinInv base) :=
  fun _ _ _ hi hturn h => ⟨sound_step hi.sound h hturn.1, tidsOk_step hi.tids hi.sound h,
    reapedOk_step hi.reaped hi.tids hi.sound hi.waits h hturn.2, waitsOk_step hi.waits hi.sound h hturn.2⟩

theorem JoinInv.joins (hi : JoinInv base s) : JoinsOk s where
  once := hi.reaped.once
  asleep k threadId t hpc hsl := by
    obtain ⟨_, htid, hu⟩ := hi.waits.target k threadId t hpc
    exact ⟨(hi.waits.asleep k threadId t hpc hsl).2, hu, htid⟩

theorem JoinInv.empties {k t : ℕ} {threadId : ℤ} (hi : JoinInv base s)
    (hpc : s.pc k = .join threadId ∨ ∃ u, s.pc k = .joinWait threadId u) (h : step base s (.run k) = some s')
    (hu : (s.thr t).state ≠ .uninit) (hu' : (s'.thr t).state = .uninit) :
    (s.thr t).state = .terminated ∧ (s.thr t).tid = threadId := by
  have hchange := step_slot t h
  generalize he : Event.run k = e at hchange
  cases hchange with
  | reaped j threadId' hj hterm _ =>
    cases he
    refine ⟨hterm, ?_⟩
    obtain ⟨hj, hreaps⟩ | hj := hj
    · obtain hpc | ⟨_, hpc⟩ := hpc <;> rw [hj] at hpc <;> cases hpc
      exact (kthreadJoin_reaps hreaps).2
    · obtain hpc | ⟨_, hpc⟩ := hpc <;> rw [hj] at hpc <;> cases hpc
      exact (hi.waits.target _ _ t hj).2.1
  | stored j sp op ops hj _ =>
    cases he
    obtain hpc | ⟨_, hpc⟩ := hpc <;> rw [hj] at hpc <;> cases hpc
  | claimed j f st _ hsearch _ => exact absurd (searchUninit_spec hsearch).2 hu
  | moved _ _ _ hl' h =>
    rw [h] at hu'
    obtain rfl | ⟨rfl, _⟩ := hl' <;> cases hu'
  | _ => simp_all

theorem joins_right (s s' : State) (hstart : Start base s) (h : Reaches (step base) (JoinTurn base) s s') :
    JoinsOk s' ∧ ∀ k threadId s'', s'.pc k = .join threadId ∨ (∃ u, s'.pc k = .joinWait threadId u) →
      step base s' (.run k) = some s'' → ∀ t, (s'.thr t).state ≠ .uninit → (s''.thr t).state = .uninit →
        (s'.thr t).state = .terminated ∧ (s'.thr t).tid = threadId := by
  have hi : JoinInv base s' := h.invariant (joinInv_step base) (start_joinInv hstart)
  exact ⟨hi.joins, fun k threadId s'' hpc hstep t hu hu' => hi.empties hpc hstep hu hu'⟩

def joinTurns : List Event :=
  secondThread ++ enterCall 16 (.kthreadJoin 3) ++ [.run 16] ++
  enterCall 17 .kthreadExit ++ [.run 17, .scheduler 16]

theorem joins_right_joinTurns : ∃ s' s'', Reaches (step 16) (JoinTurn 16) forked s' ∧
    step 16 s' (.run 16) = some s'' ∧ (s''.thr 17).state = .uninit ∧ s''.eax 16 = 0 ∧
    (s'.thr 17).state = .terminated ∧ (s'.thr 17).tid = 3 := by
  obtain ⟨s', hr, hpc, hu, hmap⟩ : ∃ s', Reaches (step 16) (JoinTurn 16) forked s' ∧ s'.pc 16 = .joinWait 3 17 ∧
      (s'.thr 17).state ≠ .uninit ∧
      (step 16 s' (.run 16)).map (fun s'' => ((s''.thr 17).state, s''.eax 16)) = some (.uninit, 0) :=
    ⟨_, exec_get_reaches forked joinTurns (by decide +kernel), by decide +kernel⟩
  obtain ⟨s'', hstep, heq⟩ := Option.map_eq_some_iff.mp hmap
  obtain ⟨hu', heax⟩ := Prod.mk.inj heq
  exact ⟨s', s'', hr, hstep, hu', heax,
    (joins_right forked s' forked_start hr).2 16 3 s'' (.inr ⟨17, hpc⟩) hstep 17 hu hu'⟩

def twoJoiners : List Event :=
  secondThread ++ enterCall 16 (.kthreadCreate 64 8192) ++ [.run 16, .kalloc 16 12288] ++
    List.replicate 13 (.run 16) ++ leaveCall 16 ++ startThread 18 ++
    enterCall 16 (.kthreadJoin 4) ++ [.run 16] ++ enterCall 17 (.kthreadJoin 4) ++ [.run 17] ++
    enterCall 18 .kthreadExit ++ [.run 18, .scheduler 16, .run 16, .scheduler 17, .run 17]

def wrongThread : List Event :=
  twoJoiners ++ leaveCall 16 ++ enterCall 16 (.kthreadCreate 64 8192) ++ [.run 16, .kalloc 16 12288] ++
    List.replicate 13 (.run 16) ++ startThread 18 ++ enterCall 18 .kthreadExit ++ [.run 18, .scheduler 17]

theorem joins_right_fails : (∃ s', Reaches (step 16) Always forked s' ∧ s'.pc 17 = .joinWait 4 18 ∧
      (s'.thr 17).state = .sleeping ∧ (s'.thr 18).state = .uninit) ∧
    ∃ s', Reaches (step 16) Always forked s' ∧ s'.pc 17 = .joinWait 4 18 ∧ (s'.thr 18).tid = 5 ∧
      ∃ s'', step 16 s' (.run 17) = some s'' ∧ (s''.thr 18).state = .uninit ∧
      s''.eax 17 = 0 ∧ s''.reaped = [5, 4] :=
  ⟨⟨_, exec_get_reaches forked twoJoiners (by decide +kernel), by decide +kernel⟩,
    ⟨_, exec_get_reaches forked wrongThread (by decide +kernel), by decide +kernel, by decide +kernel,
      (step 16 _ (.run 17)).get (by decide +kernel), (Option.some_get _).symm, by decide +kernel⟩⟩

end Xv6.Process
