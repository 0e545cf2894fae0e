import Xv6.ProcessCreate

namespace Xv6.Process

open Xv6.Threads Xv6.Runs

def Pc.waitsOn (t : ℕ) : Pc → Bool
  | .joinWait _ t' => t' = t
  | _ => false

def crosses (base : ℕ) (s : State) : Event → Bool
  | .run k =>
    match s.pc k with
    | .join threadId =>
      match kthreadJoin s.thr base k threadId with
      | .fails => false
      | .sleeps t | .reaps t => t ∉ slots base || (slots base).any (fun j => (s.pc j).waitsOn t)
    | _ => false
  | _ => false

def JoinTurn (base : ℕ) (s : State) (e : Event) : Prop := collides base s e = false ∧ crosses base s e = false

instance (base : ℕ) (s : State) (e : Event) : Decidable (JoinTurn base s e) := inferInstanceAs (Decidable (_ ∧ _))

structure ReapedOk (base : ℕ) (s : State) : Prop where
  below : ∀ a ∈ s.reaped, a < s.nexttid
  once : s.reaped.Nodup
  fresh : ∀ i ∈ slots base, Taken s i → (s.thr i).tid ∉ s.reaped

structure WaitsOk (base : ℕ) (s : State) : Prop where
  target : ∀ k threadId t, s.pc k = .joinWait threadId t →
    t ∈ slots base ∧ (s.thr t).tid = threadId ∧ (s.thr t).state ≠ .uninit
  unique : ∀ j k id id' t, s.pc j = .joinWait id t → s.pc k = .joinWait id' t → j = k
  asleep : ∀ k threadId t, s.pc k = .joinWait threadId t → (s.thr k).state = .sleeping →
    (s.thr k).chan = .thread t ∧ (s.thr t).state ≠ .terminated

section

variable {base i k t : ℕ} {s s' : State} {e : Event} {threadId : ℤ}

theorem Move.to_joinWait {p : Pc} (h : Move base s k p (.joinWait threadId t)) :
    (p = .join threadId ∧ kthreadJoin s.thr base k threadId = .sleeps t) ∨ p = .joinWait threadId t := by
  generalize hq : Pc.joinWait threadId t = q at h
  cases h
  case joinSleeps id t hj => cases hq; exact .inl ⟨rfl, hj⟩
  case waits id t _ => cases hq; exact .inr rfl
  case goes next => cases next <;> cases hq
  case exit next _ => cases next <;> cases hq
  case call c => cases c <;> cases hq
  all_goals cases hq

theorem wait_back (h : step base s e = some s') (hpc : s'.pc k = .joinWait threadId t) :
    s.pc k = .joinWait threadId t ∨
    (e = .run k ∧ s.pc k = .join threadId ∧ kthreadJoin s.thr base k threadId = .sleeps t) := by
  obtain ⟨_, hsame⟩ | ⟨ha, _, hmove⟩ | ⟨hfork, _⟩ := step_pc k h
  · exact .inl (hsame ▸ hpc)
  · rw [hpc] at hmove
    obtain ⟨hp, hj⟩ | hp := hmove.to_joinWait
    · exact .inr ⟨actor_run h ha (by simp [hp]), hp, hj⟩
    · exact .inl hp
  · rw [hpc] at hfork
    cases hfork

theorem crosses_spec (hc : crosses base s (.run k) = false) (hpc : s.pc k = .join threadId)
    (hj : kthreadJoin s.thr base k threadId = .sleeps t ∨ kthreadJoin s.thr base k threadId = .reaps t) :
    t ∈ slots base ∧ ∀ j ∈ slots base, ∀ id, s.pc j ≠ .joinWait id t := by
  have hboth : t ∈ slots base ∧ (slots base).any (fun j => (s.pc j).waitsOn t) = false := by
    obtain hj | hj := hj <;>
      simpa only [crosses, hpc, hj, Bool.or_eq_false_iff, decide_eq_false_iff_not, not_not] using hc
  refine ⟨hboth.1, fun j hjo id hjp => ?_⟩
  have hany : (slots base).any (fun j => (s.pc j).waitsOn t) = true :=
    List.any_eq_true.mpr ⟨j, hjo, by simp [hjp, Pc.waitsOn]⟩
  rw [hboth.2] at hany
  cases hany

theorem ended_wakes (hs : Sound base s) (h : step base s (.run t) = some s') (hd : s'.pc t = .dead) :
    s'.thr = setState (wakeupThreads s.thr (.thread t)) t .terminated := by
  have hmove := (step_move h rfl).2
  rw [hd] at hmove
  simp only [step, Option.ite_none_right_eq_some] at h
  obtain hp | hp | hp := hmove.to_dead
  · simp only [run, hp, Option.some.injEq] at h
    rw [← h.2]
    rfl
  · simp only [run, hp, Option.some.injEq] at h
    obtain ⟨_, rfl⟩ := h
    unfold kexitScan at hd ⊢
    split_ifs at hd ⊢
    · simp at hd
    · rfl
  · exact absurd hp (hs.kexit t).2.2.2

theorem SlotChange.terminates (h : SlotChange base s s' i e) (hi : i ∈ slots base)
    (hn : (s.thr i).state ≠ .terminated) (ht : (s'.thr i).state = .terminated) : e = .run i ∧ s'.pc i = .dead := by
  cases h with
  | ended _ hpc _ => exact ⟨rfl, hpc⟩
  | foreign _ hn => exact absurd hi hn
  | moved _ _ _ hl' h =>
    rw [h] at ht
    obtain rfl | ⟨rfl, _⟩ := hl' <;> cases ht
  | stored k sp op ops hpc h =>
    rw [h] at ht
    cases op <;> simp_all [Op.thread]
  | _ => simp_all

theorem SlotChange.sleeping (h : SlotChange base s s' k e) (hk : k ∈ slots base)
    (hsl : (s'.thr k).state = .sleeping) :
    ((s.thr k).state = .sleeping ∧ (s'.thr k).chan = (s.thr k).chan) ∨ (∃ c, e = .sleep k c ∧ (s.pc k).maySleep) ∨
    ∃ threadId t, s'.pc k = .joinWait threadId t ∧ (s'.thr t).state ≠ .terminated ∧
    (s'.thr k).chan = .thread t := by
  cases h with
  | slept c _ hpc _ => exact .inr (.inl ⟨c, rfl, hpc⟩)
  | joins id t _ hpc ht h => exact .inr (.inr ⟨id, t, hpc, ht, by rw [h]⟩)
  | foreign _ hn => exact absurd hk hn
  | moved _ _ _ hl' h =>
    rw [h] at hsl
    obtain rfl | ⟨rfl, _⟩ := hl' <;> cases hsl
  | stored j sp op ops hpc h =>
    left
    rw [h] at hsl ⊢
    cases op <;> simp_all [Op.thread]
  | claimed _ _ _ _ hsearch h => simp [h, (searchUninit_spec hsearch).2] at hsl
  | _ => simp_all

theorem not_taken_reap (hs : Sound base s) (ht : (s.thr t).state = .terminated) :
    ¬ Taken (joinStep base s k threadId (.reaps t)) t := by
  rintro (hstate | ⟨j, sp, ops, hj, hr⟩)
  · simp [reap_thr] at hstate
  · by_cases hjk : j = k
    · subst hjk
      simp [joinStep, State.ret] at hj
    · rw [joinStep_pc_other hjk] at hj
      rw [(hs.create _ _ _ _ hj).pending hr] at ht
      cases ht

theorem ReapedOk.frame (hr : ReapedOk base s) (htid : ∀ i ∈ slots base, (s'.thr i).tid = (s.thr i).tid)
    (hnext : s.nexttid ≤ s'.nexttid) (hreaped : s'.reaped = s.reaped)
    (htaken : ∀ i ∈ slots base, Taken s' i → Taken s i) : ReapedOk base s' := by
  refine ⟨fun a ha => Int.lt_of_lt_of_le (hr.below a (hreaped ▸ ha)) hnext, ?_, fun i hi ht => ?_⟩
  · rw [hreaped]
    exact hr.once
  · rw [htid i hi, hreaped]
    exact hr.fresh i hi (htaken i hi ht)

theorem ReapedOk.claim (hr : ReapedOk base s)
    (htid : ∀ i, (s'.thr i).tid = if i = t then s.nexttid else (s.thr i).tid) (hnext : s'.nexttid = s.nexttid + 1)
    (hreaped : s'.reaped = s.reaped) (htaken : ∀ i ∈ slots base, i ≠ t → Taken s' i → Taken s i) :
    ReapedOk base s' := by
  refine ⟨fun a ha => ?_, ?_, fun i hi ht => ?_⟩
  · have hbelow := hr.below a (hreaped ▸ ha)
    omega
  · rw [hreaped]
    exact hr.once
  · rw [htid, hreaped]
    split_ifs with hit
    · exact fun hmem => Int.lt_irrefl _ (hr.below _ hmem)
    · exact hr.fresh i hi (htaken i hi hit ht)

theorem ReapedOk.reap (hr : ReapedOk base s) (hi : TidsOk base s) (ho : t ∈ slots base)
    (ht : (s.thr t).state = .terminated)
    (htaken : ∀ i ∈ slots base, Taken (joinStep base s k threadId (.reaps t)) i → Taken s i ∧ i ≠ t) :
    ReapedOk base (joinStep base s k threadId (.reaps t)) := by
  have hfresh := hr.fresh t ho (.inl (by simp [ht]))
  refine ⟨List.forall_mem_cons.mpr ⟨hi.below t ho, hr.below⟩, List.nodup_cons.mpr ⟨hfresh, hr.once⟩,
    fun i hio hti => ?_⟩
  obtain ⟨hti, hit⟩ := htaken i hio hti
  rw [reap_tid]
  refine List.mem_cons.not.mpr (not_or.mpr ⟨fun heq => ?_, hr.fresh i hio hti⟩)
  exact hit (hi.inj i hio t ho heq (hi.positive i hio hti))

theorem ReapedOk.wait (hr : ReapedOk base s) (hi : TidsOk base s)
    (htaken : ∀ i ∈ slots base, Taken (wait base s) i →
    Taken s i ∧ (s.thr i).state ≠ .terminated) : ReapedOk base (wait base s) := by
  have hnodup : (slots base).Nodup := List.nodup_range'
  have hterm {i : ℕ} (hm : i ∈ (slots base).filter (fun i => (s.thr i).state = .terminated)) :
      i ∈ slots base ∧ Taken s i := by
    simp only [List.mem_filter, decide_eq_true_eq] at hm
    exact ⟨hm.1, .inl (by simp [hm.2])⟩
  refine ⟨fun a ha => ?_, List.nodup_append.mpr ⟨List.Nodup.map_on ?_ (hnodup.filter _), hr.once, ?_⟩,
    fun i ho ht hmem => ?_⟩
  · obtain ⟨i, ho, _, rfl⟩ | ha := wait_reaped.mp ha
    · exact hi.below i ho
    · exact hr.below a ha
  · exact fun i him j hjm hij =>
      hi.inj i (hterm him).1 j (hterm hjm).1 hij (hi.positive i (hterm him).1 (hterm him).2)
  · rintro a ha b hb rfl
    obtain ⟨i, him, rfl⟩ := List.mem_map.mp ha
    exact hr.fresh i (hterm him).1 (hterm him).2 hb
  · obtain ⟨hti, hlive⟩ := htaken i ho ht
    rw [wait_kept hlive] at hmem
    obtain ⟨j, hj, hjt, heq⟩ | hmem := wait_reaped.mp hmem
    · obtain rfl := hi.inj i ho j hj heq.symm (hi.positive i ho hti)
      exact hlive hjt
    · exact hr.fresh i ho hti hmem

theorem reapedOk_step (hr : ReapedOk base s) (hi : TidsOk base s) (hs : Sound base s) (hw : WaitsOk base s)
    (h : step base s e = some s') (hc : crosses base s e = false) : ReapedOk base s' := by
  cases step_stock hs h with
  | quiet _ hslot hnext _ _ hreaped hclaim =>
    exact hr.frame (fun i ho => (hslot i ho).1) hnext hreaped
      (fun i ho ht => taken_kept ho h ht (fun k f st he hp => hclaim k f st i he hp))
  | claim k t f st hp hsearch hs' =>
    subst hs'
    refine hr.claim (fun i => claim_tid hsearch) (by rw [createSearch_some hsearch])
      (by rw [createSearch_some hsearch]; rfl) (fun i ho hit ht => taken_kept ho h ht (fun _ _ _ _ _ hn => hit ?_))
    rw [hsearch] at hn
    exact (Option.some.inj hn).symm
  | kalloc k t sp page ops hp hfree hs' =>
    subst hs'
    exact hr.frame (fun i _ => kallocStep_tid) (Int.le_of_eq kallocStep_rest.1.symm) kallocStep_rest.2.2
      (fun i ho ht => taken_kept ho h ht (by simp))
  | created k t sp hp hs' =>
    subst hs'
    refine hr.frame (fun i _ => rfl) (Int.le_refl _) rfl
      (fun i ho ht => taken_kept ho h ht (fun k' f st he hp' => ?_))
    cases he
    simp [hp] at hp'
  | reap k t id hp ht hs' =>
    subst hs'
    have ho : t ∈ slots base := by
      obtain ⟨hp, hj⟩ | hp := hp
      · exact (crosses_spec hc hp (.inr hj)).1
      · exact (hw.target k id t hp).1
    refine hr.reap hi ho ht (fun i hio hti => ⟨taken_kept hio h hti (fun k' f st he hp' => ?_), ?_⟩)
    · cases he
      obtain ⟨hp, _⟩ | hp := hp <;> simp [hp] at hp'
    · rintro rfl
      exact not_taken_reap hs ht hti
  | wait hz hs' =>
    subst hs'
    exact hr.wait hi (fun i ho => taken_wait hs hz ho)

section waits

variable (hw : WaitsOk base s) (hs : Sound base s) (h : step base s e = some s') (hc : crosses base s e = false)
include hw hs h hc

theorem waits_target (hpc : s'.pc k = .joinWait threadId t) :
    t ∈ slots base ∧ (s'.thr t).tid = threadId ∧ (s'.thr t).state ≠ .uninit := by
  have hbefore : t ∈ slots base ∧ (s.thr t).tid = threadId ∧ (s.thr t).state ≠ .uninit := by
    obtain hp | ⟨rfl, hp, hj⟩ := wait_back h hpc
    · exact hw.target k threadId t hp
    · obtain ⟨_, hu, htid⟩ := kthreadJoin_sleeps hj
      exact ⟨(crosses_spec hc hp (.inl hj)).1, htid, hu⟩
  obtain ⟨hown, htid, hu⟩ := hbefore
  refine ⟨hown, ?_⟩
  obtain hkept | ⟨j, id, rfl, hj, rfl⟩ | ⟨hz, _, rfl⟩ := slot_kept hs h hown hu
  · rwa [htid] at hkept
  · -- the only thread that can join `t` is `k`, and that ends its wait
    have hjk : j ≠ k := by
      rintro rfl
      simp [joinStep, State.ret] at hpc
    rw [joinStep_pc_other hjk.symm] at hpc
    obtain ⟨hj, hreaps⟩ | hj := hj
    · exact absurd hpc ((crosses_spec hc hj (.inr hreaps)).2 k (hs.own (by simp [hpc])) threadId)
    · exact absurd (hw.unique j k id threadId t hj hpc) hjk
  · have hstop := hs.stopped (by simp [hz]) k
    simp [show s.pc k = _ from hpc] at hstop

theorem waits_unique {j : ℕ} {id : ℤ} (hj : s'.pc j = .joinWait id t) (hk : s'.pc k = .joinWait threadId t) :
    j = k := by
  obtain hj | ⟨rfl, hj, hsleeps⟩ := wait_back h hj
  · obtain hk | ⟨rfl, hk, hsleeps⟩ := wait_back h hk
    · exact hw.unique j k id threadId t hj hk
    · exact absurd hj ((crosses_spec hc hk (.inl hsleeps)).2 j (hs.own (by simp [hj])) id)
  · obtain hk | ⟨he, _⟩ := wait_back h hk
    · exact absurd hk ((crosses_spec hc hj (.inl hsleeps)).2 k (hs.own (by simp [hk])) threadId)
    · cases he
      rfl

theorem waits_asleep (hpc : s'.pc k = .joinWait threadId t) (hsl : (s'.thr k).state = .sleeping) :
    (s'.thr k).chan = .thread t ∧ (s'.thr t).state ≠ .terminated := by
  have hown := (waits_target hw hs h hc hpc).1
  have hk : k ∈ slots base := not_not.mp (fun hk => by simp [sound_outside hs h hk] at hpc)
  have hback := wait_back h hpc
  obtain ⟨hold, hchan⟩ | ⟨c, rfl, hmay⟩ | ⟨id, t', hpc', ht, hchan⟩ := (step_slot k h).sleeping hk hsl
  · -- it slept before the step, so it took no part in it
    obtain hp | ⟨rfl, _⟩ := hback
    · obtain ⟨hthread, hlive⟩ := hw.asleep k threadId t hp hold
      refine ⟨hchan.trans hthread, fun ht => ?_⟩
      obtain ⟨rfl, hd⟩ := (step_slot t h).terminates hown hlive ht
      have hkt : k ≠ t := by
        rintro rfl
        simp [hpc] at hd
      rw [ended_wakes hs h hd] at hsl
      simp [setState, Function.update_of_ne hkt, wakeupThreads, hold, hthread] at hsl
    · simp [(State.running_spec (step_run h)).2] at hold
  · obtain hp | ⟨he, _⟩ := hback
    · simp [hp, Pc.maySleep] at hmay
    · cases he
  · rw [hpc] at hpc'
    cases hpc'
    exact ⟨hchan, ht⟩

theorem waitsOk_step : WaitsOk base s' where
  target _ _ _ hpc := waits_target hw hs h hc hpc
  unique _ _ _ _ _ hj hk := waits_unique hw hs h hc hj hk
  asleep _ _ _ hpc hsl := waits_asleep hw hs h hc hpc hsl

end waits

end

end Xv6.Process
