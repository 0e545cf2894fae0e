import Xv6.ProcessCreate

namespace Xv6.Process

open Xv6.Threads Xv6.Runs Function

def Pc.mayCreate : Pc → Bool
  | .testKilled .dispatch | .exitScan .dispatch | .dispatch | .createSearch _ _ => true
  | .create _ _ ops => .runnable ∈ ops
  | _ => false

def Pc.leaving : Pc → Bool
  | .dead | .testExit .user | .yield _ | .kexitScan | .exitScan .kexit | .exitClose => true
  | _ => false

def Cont.tested : Cont → Bool
  | .leave | .yield _ => true
  | _ => false

/-- An `exit` with live siblings, by a thread that has no exit request itself, or at a place where the request
is not tested again, or while a sibling may still publish a thread. -/
def lingers (base : ℕ) (s : State) : Event → Bool
  | .run k =>
    match s.pc k with
    | .exitScan next =>
      !lastRunning s.thr base k && !((s.thr k).exitRequest = 1 && next.tested &&
        (slots base).all (fun j => j = k || !(s.pc j).mayCreate))
    | _ => false
  | _ => false

def ExitTurn (base : ℕ) (s : State) (e : Event) : Prop := collides base s e = false ∧ lingers base s e = false

instance (base : ℕ) (s : State) (e : Event) : Decidable (ExitTurn base s e) := inferInstanceAs (Decidable (_ ∧ _))

structure ExitOk (base : ℕ) (s : State) : Prop where
  requested : ∀ i ∈ slots base, (s.thr i).state.live → (s.thr i).exitRequest = 1
  noCreate : ∀ k, (s.pc k).mayCreate = false
  leaving : ∀ i, s.exited i = true → i ∈ slots base ∧ (s.pc i).leaving

section

variable {base i k : ℕ} {s s' : State} {e : Event}

theorem SlotChange.exitRequest (h : SlotChange base s s' i e) (hs : Sound base s) (hi : i ∈ slots base)
    (hl : (s.thr i).state.live) :
    (s'.thr i).exitRequest = (s.thr i).exitRequest ∨ (s'.thr i).exitRequest = 1 := by
  cases h with
  | marked _ _ _ _ h => exact .inr (by rw [h])
  | cleaned _ ht _ => simp [ht, ThreadState.live] at hl
  | stored k sp op ops hpc h =>
    left
    rw [h]
    by_cases hop : op = .exitRequest
    · subst hop
      simp [(hs.early hpc (by decide)).2, ThreadState.live] at hl
    · cases op <;> first | rfl | exact absurd rfl hop
  | foreign _ hn => exact absurd hi hn
  | _ => simp_all

theorem Move.to_mayCreate {p q : Pc} (h : Move base s k p q) (hq : q.mayCreate) :
    p.mayCreate ∨ (s.thr k).exitRequest = 0 := by
  cases h
  case stays _ hr => exact .inr hr
  case killed next => cases next <;> first | exact .inl rfl | cases hq
  case goes next => cases next <;> first | exact .inl rfl | cases hq
  case exit next _ => cases next <;> first | exact .inl rfl | cases hq
  case call c => exact .inl rfl
  case claim => exact .inl rfl
  case store t sp sp' op ops =>
    simp only [Pc.mayCreate, decide_eq_true_eq] at hq ⊢
    exact .inl (List.mem_cons_of_mem op hq)
  all_goals cases hq

theorem Move.from_leaving {p q : Pc} (h : Move base s k p q) (hp : p.leaving) :
    q.leaving ∨ (s.thr k).exitRequest = 0 ∨ (p = .exitScan .kexit ∧ lastRunning s.thr base k = false) := by
  cases h
  case stays _ hr => exact .inr (.inl hr)
  case exit next hl =>
    cases next
    case kexit => exact .inr (.inr ⟨rfl, hl⟩)
    all_goals cases hp
  all_goals first | exact .inl rfl | cases hp

theorem step_exited (h : step base s e = some s') : s'.exited = s.exited ∨
    (∃ k next, e = .run k ∧ s.pc k = .exitScan next ∧ lastRunning s.thr base k = false ∧
      s'.exited = update s.exited k true) ∨
    ∃ k, e = .run k ∧ s.pc k = .exitClose ∧ s'.exited = update s.exited k true := by
  have heffect := step_effect h
  generalize hb : s'.ledger = b at heffect
  have hexited : s'.exited = b.exited := congrArg Ledger.exited hb
  cases heffect
  case exit k next hp hl => exact .inr (.inl ⟨k, next, rfl, hp, hl, hexited⟩)
  case final k hp => exact .inr (.inr ⟨k, rfl, hp, hexited⟩)
  all_goals exact .inl hexited

theorem exited_mono (h : step base s e = some s') (hi : s.exited i = true) : s'.exited i = true := by
  obtain hsame | ⟨k, _, _, _, _, hset⟩ | ⟨k, _, _, hset⟩ := step_exited h
  · rw [hsame]
    exact hi
  all_goals
    rw [hset, update_apply]
    split_ifs
    · rfl
    · exact hi

section

variable (hx : ExitOk base s) (hs : Sound base s) (h : step base s e = some s')
include hx hs h

theorem exit_requested (hi : i ∈ slots base) (hl : (s'.thr i).state.live) : (s'.thr i).exitRequest = 1 := by
  by_cases hold : (s.thr i).state.live
  · obtain hsame | hone := (step_slot i h).exitRequest hs hi hold
    · rw [hsame]
      exact hx.requested i hi hold
    · exact hone
  · obtain ⟨k, sp, ops, _, hk⟩ := (step_slot i h).wakes hi (by simpa using hold) hl
    have hno := hx.noCreate k
    simp [hk, Pc.mayCreate] at hno

omit hs in
theorem exit_noCreate : (s'.pc k).mayCreate = false := by
  obtain ⟨_, hsame⟩ | ⟨_, hrun, hmove⟩ | ⟨hfork, _⟩ := step_pc k h
  · rw [hsame]
    exact hx.noCreate k
  · by_contra hq
    obtain hp | hr := hmove.to_mayCreate (by simpa using hq)
    · rw [hx.noCreate k] at hp
      cases hp
    · rw [hx.requested k (State.running_spec hrun).1 (running_live hrun)] at hr
      cases hr
  · rw [hfork]
    rfl

theorem exit_leaving (hi : s.exited i = true) : i ∈ slots base ∧ (s'.pc i).leaving := by
  obtain ⟨hown, hp⟩ := hx.leaving i hi
  refine ⟨hown, ?_⟩
  obtain ⟨_, hsame⟩ | ⟨_, hrun, hmove⟩ | ⟨_, j, sp, ops, _, hj⟩ := step_pc i h
  · rwa [hsame]
  · obtain hq | hr | ⟨hpc, hl⟩ := hmove.from_leaving hp
    · exact hq
    · rw [hx.requested i hown (running_live hrun)] at hr
      cases hr
    · rw [lastRunning_iff.mpr (hs.alone i (.inr hpc))] at hl
      cases hl
  · -- nobody is left to start it again
    have hno := hx.noCreate j
    simp [hj, Pc.mayCreate, (hs.early hj (by decide)).1] at hno

end

theorem lingers_spec {next : Cont} (hc : lingers base s (.run k) = false) (hp : s.pc k = .exitScan next)
    (hl : lastRunning s.thr base k = false) : (s.thr k).exitRequest = 1 ∧ next.tested ∧
      ∀ j ∈ slots base, j ≠ k → (s.pc j).mayCreate = false := by
  simpa [lingers, hp, hl, and_assoc, or_iff_not_imp_left] using hc

theorem exit_scan {next : Cont} (hs : Sound base s) (h : step base s (.run k) = some s')
    (hc : lingers base s (.run k) = false) (hp : s.pc k = .exitScan next) (hl : lastRunning s.thr base k = false) :
    (∀ i ∈ slots base, (s'.thr i).state.live → (s'.thr i).exitRequest = 1) ∧ (∀ j, (s'.pc j).mayCreate = false) ∧
      k ∈ slots base ∧ (s'.pc k).leaving := by
  obtain ⟨hreq, htested, hnone⟩ := lingers_spec hc hp hl
  have hown := (State.running_spec (step_run h)).1
  simp only [step, run, hp, exitScan, hl, Option.ite_none_right_eq_some, Option.some.injEq] at h
  obtain ⟨_, rfl⟩ := h
  refine ⟨fun i hi hlive => ?_, fun j => ?_, hown, ?_⟩
  · by_cases hik : i = k
    · subst hik
      simpa [requestExit] using hreq
    · by_cases hold : (s.thr i).state.live
      · simp [requestExit, hi, hik, hold]
      · simp [requestExit, hold] at hlive
  · by_cases hjk : j = k
    · subst hjk
      cases next <;> simp_all [Cont.tested, Cont.pc, Pc.mayCreate]
    · simp only [Bool.false_eq_true, ↓reduceIte, goto_pc_other hjk]
      by_cases hj : j ∈ slots base
      · exact hnone j hj hjk
      · have hdead := hs.outside j hj
        simp [hdead, Pc.mayCreate]
  · cases next <;> simp_all [Cont.tested, Cont.pc, Pc.leaving]

theorem exit_last (h : step base s (.run k) = some s') (hs' : Sound base s')
    (hp : s.pc k = .exitClose) :
    (∀ i ∈ slots base, (s'.thr i).state.live → (s'.thr i).exitRequest = 1) ∧ (∀ j, (s'.pc j).mayCreate = false) ∧
      k ∈ slots base ∧ (s'.pc k).leaving := by
  have hown := (State.running_spec (step_run h)).1
  simp only [step, run, hp, Option.ite_none_right_eq_some, Option.some.injEq] at h
  obtain ⟨_, rfl⟩ := h
  have hstate : (exitFinal s k).state ≠ .used := by simp [exitFinal]
  refine ⟨fun i hi hl => ?_, fun j => ?_, hown, by simp [exitFinal, Pc.leaving]⟩
  · rw [hs'.used hstate i hi] at hl
    cases hl
  · obtain hq | hq := hs'.stopped hstate j <;> rw [hq] <;> rfl

theorem exitOk_step (hx : (∃ i, s.exited i = true) → ExitOk base s) (hs : Sound base s)
    (h : step base s e = some s') (hs' : Sound base s') (hc : lingers base s e = false) :
    (∃ i, s'.exited i = true) → ExitOk base s' := by
  -- an exit adds thread `k` to those that were leaving already
  have hadd {k : ℕ} (hset : s'.exited = update s.exited k true)
      (hnew : (∀ i ∈ slots base, (s'.thr i).state.live → (s'.thr i).exitRequest = 1) ∧
        (∀ j, (s'.pc j).mayCreate = false) ∧ k ∈ slots base ∧ (s'.pc k).leaving) : ExitOk base s' := by
    refine ⟨hnew.1, hnew.2.1, fun i hi => ?_⟩
    rw [hset, update_apply] at hi
    split_ifs at hi with hik
    · rw [hik]
      exact hnew.2.2
    · exact exit_leaving (hx ⟨i, hi⟩) hs h hi
  rintro ⟨i, hi⟩
  obtain hsame | ⟨k, next, rfl, hp, hl, hset⟩ | ⟨k, rfl, hp, hset⟩ := step_exited h
  · rw [hsame] at hi
    have hold := hx ⟨i, hi⟩
    refine ⟨fun j hj hl => exit_requested hold hs h hj hl, fun k => exit_noCreate hold h, fun j hj => ?_⟩
    exact exit_leaving hold hs h (hsame ▸ hj)
  · exact hadd hset (exit_scan hs h hc hp hl)
  · exact hadd hset (exit_last h hs' hp)

structure ExitInv (base : ℕ) (s : State) : Prop where
  sound : Sound base s
  exit : (∃ i, s.exited i = true) → ExitOk base s

theorem exitInv_step (base : ℕ) : Preserves (step base) (ExitTurn base) (ExitInv base) := by
  intro s e s' hi hturn h
  have hs' := sound_step hi.sound h hturn.1
  exact ⟨hs', exitOk_step hi.exit hi.sound h hs' hturn.2⟩

theorem start_exitInv (h : Start base s) : ExitInv base s :=
  ⟨start_sound h, fun ⟨i, hi⟩ => by simp [h.logs.2.2.2 i] at hi⟩

end

theorem exit_final {base i : ℕ} (s s' s'' : State) (hstart : Start base s)
    (h : Reaches (step base) (ExitTurn base) s s') (hexit : s'.exited i = true)
    (hlater : Reaches (step base) (ExitTurn base) s' s'') : i ∈ slots base ∧ s''.pc i ≠ .user ∧
    ∀ j ∈ slots base, (s''.thr j).state = .terminated ∨ (s''.thr j).state = .uninit ∨
    (s''.thr j).exitRequest = 1 := by
  have hi : ExitInv base s'' := (h.trans hlater).invariant (exitInv_step base) (start_exitInv hstart)
  have hmono : s''.exited i = true :=
    hlater.invariant (I := fun t => t.exited i = true) (fun _ _ _ hi _ hstep => exited_mono hstep hi) hexit
  have hok := hi.exit ⟨i, hmono⟩
  obtain ⟨hown, hleaving⟩ := hok.leaving i hmono
  refine ⟨hown, fun huser => ?_, fun j hj => ?_⟩
  · rw [huser] at hleaving
    cases hleaving
  · have hreq := hok.requested j hj
    cases hstate : (s''.thr j).state <;> simp [hstate, ThreadState.live] at hreq ⊢ <;> exact hreq

def exitTurns : List Event :=
  secondThread ++ enterCall 16 .exit ++ enterCall 17 .exec ++ [.run 17, .run 17, .run 16]

def leaveTurns : List Event :=
  [.run 16, .run 16, .bad 17, .run 17, .run 17, .run 17, .run 17]

theorem exit_final_leaveTurns : ∃ s' s'', Reaches (step 16) (ExitTurn 16) forked s' ∧ s'.exited 16 = true ∧
    (s'.thr 17).state = .running ∧ Reaches (step 16) (ExitTurn 16) s' s'' ∧ s''.state = .zombie ∧
    s''.pc 16 ≠ .user := by
  obtain ⟨s', hr, hexit, hrun, hlater⟩ : ∃ s', Reaches (step 16) (ExitTurn 16) forked s' ∧ s'.exited 16 = true ∧
      (s'.thr 17).state = .running ∧
      (exec (step 16) (ExitTurn 16) s' leaveTurns).map (fun s'' => s''.state) = some .zombie :=
    ⟨_, exec_get_reaches forked exitTurns (by decide +kernel), by decide +kernel⟩
  obtain ⟨s'', hexec, hz⟩ := Option.map_eq_some_iff.mp hlater
  have hr' := exec_reaches hexec
  exact ⟨s', s'', hr, hexit, hrun, hr', hz, (exit_final forked s' s'' forked_start hr hexit hr').2.1⟩

def exitReturns : List Event := secondThread ++ enterCall 16 .exit ++ [.run 16] ++ leaveCall 16

def exitMissed : List Event :=
  secondThread ++ enterCall 17 (.kthreadCreate 64 8192) ++ [.run 17, .kalloc 17 12288] ++ enterCall 16 .exit ++
    [.run 16] ++ List.replicate 8 (.run 17)

theorem exit_final_fails : (∃ s', Reaches (step 16) Always forked s' ∧ s'.exited 16 = true ∧
      (s'.thr 16).state = .running ∧ s'.pc 16 = .user ∧ (s'.thr 16).exitRequest = 0) ∧
    ∃ s', Reaches (step 16) Always forked s' ∧ s'.exited 16 = true ∧ (s'.thr 18).state = .runnable ∧
      (s'.thr 18).exitRequest = 0 :=
  ⟨⟨_, exec_get_reaches forked exitReturns (by decide +kernel), by decide +kernel⟩,
    ⟨_, exec_get_reaches forked exitMissed (by decide +kernel), by decide +kernel⟩⟩

end Xv6.Process
