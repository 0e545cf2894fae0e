import Xv6.ProcessTids

namespace Xv6.Process

open Xv6.Threads

def Held (s : State) (a : ℤ) (t : ℕ) : Prop := a ∈ s.reaped ∨ ((s.thr t).tid = a ∧ (s.thr t).state ≠ .uninit)

structure LogsOk (base : ℕ) (s : State) : Prop where
  nodup : (s.created.map Prod.fst).Nodup
  entry : ∀ a t, (a, t) ∈ s.created → t ∈ slots base ∧ 0 < a ∧ a < s.nexttid ∧ Held s a t
  unlisted : ∀ k t sp ops, s.pc k = .create t sp ops → (s.thr t).tid ∉ s.created.map Prod.fst
  finished : ∀ k t sp ops, s.pc k = .create t sp ops → .runnable ∉ ops → Held s (s.thr t).tid t
  positive : ∀ k t sp ops, s.pc k = .create t sp ops → 0 < (s.thr t).tid

variable {base i k t : ℕ} {s s' : State} {e : Event} {sp : ℕ} {ops : List Op} {a : ℤ}

theorem step_store {op : Op} (h : step base s (.run k) = some s')
    (hp : s.pc k = .create t sp (op :: ops)) : s'.thr t = op.thread (row base) sp (s.thr t) := by
  simp only [step, Option.ite_none_right_eq_some] at h
  obtain ⟨_, h⟩ := h
  cases op <;> simp only [run, hp, createStore, Option.some.injEq, reduceCtorEq] at h <;> subst h <;> simp

theorem slot_kept (hs : Sound base s) (h : step base s e = some s') (ht : t ∈ slots base)
    (hu : (s.thr t).state ≠ .uninit) : ((s'.thr t).tid = (s.thr t).tid ∧ (s'.thr t).state ≠ .uninit) ∨
    (∃ k threadId, e = .run k ∧ ((s.pc k = .join threadId ∧ kthreadJoin s.thr base k threadId = .reaps t) ∨
      s.pc k = .joinWait threadId t) ∧ s' = joinStep base s k threadId (.reaps t)) ∨
    (s.state = .zombie ∧ (s.thr t).state = .terminated ∧ s' = wait base s) := by
  cases step_stock hs h with
  | quiet _ hslot _ _ _ _ _ =>
    obtain ⟨htid, _, hstate⟩ := hslot t ht
    exact .inl ⟨htid, fun hu' => hu (hstate hu')⟩
  | claim k t' f st hp hsearch hs' =>
    have hne : t ≠ t' := fun heq => hu (heq ▸ (searchUninit_spec hsearch).2)
    rw [hs', createSearch_some hsearch]
    simp only [State.goto_thr, State.setThr_thr, Function.update_of_ne hne]
    exact .inl ⟨trivial, hu⟩
  | kalloc k t' sp page ops hp hfree hs' =>
    rw [hs', kallocStep_tid, kallocStep_state]
    exact .inl ⟨rfl, hu⟩
  | created k t' sp hp hs' =>
    rw [hs']
    exact .inl ⟨rfl, hu⟩
  | reap k t' id hp hterm hs' =>
    by_cases htt : t = t'
    · subst htt
      exact .inr (.inl ⟨k, id, rfl, hp, hs'⟩)
    · rw [hs', reap_thr, Function.update_of_ne htt]
      exact .inl ⟨rfl, hu⟩
  | wait hz hs' =>
    by_cases hterm : (s.thr t).state = .terminated
    · exact .inr (.inr ⟨hz, hterm, hs'⟩)
    · rw [hs', wait_kept hterm]
      exact .inl ⟨rfl, hu⟩

theorem reaped_mono (hs : Sound base s) (h : step base s e = some s') (ha : a ∈ s.reaped) : a ∈ s'.reaped := by
  cases step_stock hs h with
  | quiet _ _ _ _ _ hreaped _ => rwa [hreaped]
  | claim _ _ _ _ _ hsearch hs' => rwa [hs', createSearch_some hsearch]
  | kalloc => subst_vars; rwa [kallocStep_rest.2.2]
  | created => subst_vars; exact ha
  | reap => subst_vars; exact List.mem_cons_of_mem _ ha
  | wait => subst_vars; exact wait_reaped.mpr (.inr ha)

theorem held_step (hs : Sound base s) (h : step base s e = some s') (ht : t ∈ slots base) (hh : Held s a t) :
    Held s' a t := by
  obtain hr | ⟨rfl, hu⟩ := hh
  · exact .inl (reaped_mono hs h hr)
  · obtain hkept | ⟨k, id, _, _, hs'⟩ | ⟨_, hterm, hs'⟩ := slot_kept hs h ht hu
    · exact .inr hkept
    · exact .inl (by rw [hs']; exact List.mem_cons_self)
    · exact .inl (by rw [hs']; exact wait_reaped.mpr (.inl ⟨t, ht, hterm, rfl⟩))

theorem target_tid (hs : Sound base s) (h : step base s e = some s')
    (hc : collides base s e = false) (hp : s.pc k = .create t sp ops) : (s'.thr t).tid = (s.thr t).tid := by
  cases step_stock hs h with
  | quiet _ hslot _ _ _ _ _ => exact (hslot t (hs.create _ _ _ _ hp).own).1
  | claim k' t' f st hp' hsearch hs' =>
    have hne : t ≠ t' := by
      rintro rfl
      exact collides_spec hc hp' hsearch (hs.own (by simp [hp])) hp
    rw [hs', claim_tid hsearch, if_neg hne]
  | kalloc => subst_vars; exact kallocStep_tid
  | created => subst_vars; rfl
  | reap => subst_vars; exact reap_tid
  | wait hz _ => exact absurd hp (hs.not_creating hz)

theorem createReturn_created (h : step base s e = some s') (hs : Sound base s) : s'.created = s.created ∨
    ∃ k t sp, e = .run k ∧ s.pc k = .create t sp [] ∧ s'.created = ((s.thr t).tid, t) :: s.created := by
  cases step_stock hs h with
  | quiet _ _ _ _ hcreated _ _ => exact .inl hcreated
  | claim _ _ _ _ _ hsearch hs' => exact .inl (by rw [hs', createSearch_some hsearch]; rfl)
  | kalloc => subst_vars; exact .inl kallocStep_rest.2.1
  | created k t sp hp hs' => exact .inr ⟨k, t, sp, rfl, hp, by rw [hs']; rfl⟩
  | reap => subst_vars; exact .inl rfl
  | wait => subst_vars; exact .inl rfl

theorem step_nexttid (h : step base s e = some s') (hs : Sound base s) : s.nexttid ≤ s'.nexttid := by
  cases step_stock hs h with
  | quiet _ _ hnext _ _ _ _ => exact hnext
  | claim _ _ _ _ _ hsearch hs' =>
    rw [hs', createSearch_some hsearch]
    exact Int.le_add_of_nonneg_right (by decide)
  | kalloc => subst_vars; exact Int.le_of_eq kallocStep_rest.1.symm
  | created => subst_vars; exact Int.le_refl _
  | reap => subst_vars; exact Int.le_refl _
  | wait => subst_vars; exact Int.le_refl _

theorem create_work (h : step base s e = some s') (hpc : s'.pc k = .create t sp ops) :
    (∃ sp' ops', s.pc k = .create t sp' ops') ∨ (s'.created = s.created ∧ (s'.thr t).tid = s.nexttid) := by
  obtain ⟨_, hp⟩ | ⟨_, sp', op, hp⟩ | ⟨rfl, f, st, hp, hsearch, rfl⟩ := create_back h hpc
  · exact .inl ⟨sp, ops, hp⟩
  · exact .inl ⟨sp', _, hp⟩
  · simp only [step, run, hp, Option.ite_none_right_eq_some, Option.some.injEq] at h
    obtain ⟨_, rfl⟩ := h
    refine .inr ⟨by rw [createSearch_some hsearch]; rfl, ?_⟩
    rw [claim_tid hsearch, if_pos rfl]

section

variable (hl : LogsOk base s) (hi : TidsOk base s) (hs : Sound base s) (h : step base s e = some s')
  (hc : collides base s e = false)
include hl hs h

theorem logs_nodup : (s'.created.map Prod.fst).Nodup := by
  obtain hsame | ⟨k, t, sp, rfl, hp, hnew⟩ := createReturn_created h hs
  · rw [hsame]
    exact hl.nodup
  · rw [hnew, List.map_cons, List.nodup_cons]
    exact ⟨hl.unlisted k t sp [] hp, hl.nodup⟩

include hi in
theorem logs_entry {a : ℤ} (hm : (a, t) ∈ s'.created) : t ∈ slots base ∧ 0 < a ∧ a < s'.nexttid ∧ Held s' a t := by
  have hnext := step_nexttid h hs
  have hold (hm : (a, t) ∈ s.created) : t ∈ slots base ∧ 0 < a ∧ a < s'.nexttid ∧ Held s' a t := by
    obtain ⟨hown, hpos, hbelow, hheld⟩ := hl.entry a t hm
    exact ⟨hown, hpos, Int.lt_of_lt_of_le hbelow hnext, held_step hs h hown hheld⟩
  obtain hsame | ⟨k, t', sp, rfl, hp, hnew⟩ := createReturn_created h hs
  · exact hold (hsame ▸ hm)
  · rw [hnew, List.mem_cons, Prod.mk.injEq] at hm
    obtain ⟨rfl, rfl⟩ | hm := hm
    · have hown := (hs.create _ _ _ _ hp).own
      exact ⟨hown, hl.positive k t sp [] hp, Int.lt_of_lt_of_le (hi.below t hown) hnext,
        held_step hs h hown (hl.finished k t sp [] hp (by simp))⟩
    · exact hold hm

variable {sp : ℕ} {ops : List Op}

include hi hc in
theorem logs_unlisted (hpc : s'.pc k = .create t sp ops) :
    (s'.thr t).tid ∉ s'.created.map Prod.fst := by
  obtain ⟨sp', ops', hp⟩ | ⟨hsame, htid⟩ := create_work h hpc
  · have hun := hl.unlisted k t sp' ops' hp
    rw [target_tid hs h hc hp]
    obtain hsame | ⟨k', t', sp'', rfl, hp', hnew⟩ := createReturn_created h hs
    · rwa [hsame]
    · rw [hnew, List.map_cons, List.mem_cons, not_or]
      refine ⟨fun heq => ?_, hun⟩
      obtain rfl := hi.inj t (hs.create _ _ _ _ hp).own t' (hs.create _ _ _ _ hp').own heq
        (hl.positive k t sp' ops' hp)
      obtain rfl := hs.apart _ _ _ _ _ _ _ hp hp'
      have hmove := (step_move h rfl).2
      rw [hp', hpc] at hmove
      obtain ⟨_, _, hcons⟩ | ⟨_, _, hsearch, _⟩ := hmove.to_create
      · cases hcons
      · cases hsearch
  · rw [hsame, htid]
    intro ha
    obtain ⟨⟨a, t'⟩, hm, ha⟩ := List.mem_map.mp ha
    exact Int.lt_irrefl _ (ha ▸ (hl.entry a t' hm).2.2.1)

include hc in
theorem logs_finished (hpc : s'.pc k = .create t sp ops) (hr : .runnable ∉ ops) :
    Held s' (s'.thr t).tid t := by
  obtain ⟨ha, hp⟩ | ⟨ha, sp', op, hp⟩ | ⟨_, f, st, _, _, rfl⟩ := create_back h hpc
  · rw [target_tid hs h hc hp]
    exact held_step hs h (hs.create _ _ _ _ hp).own (hl.finished k t sp ops hp hr)
  · rw [target_tid hs h hc hp]
    by_cases hop : op = .runnable
    · subst hop
      obtain rfl := actor_run h ha (by simp [hp])
      right
      rw [step_store h hp]
      simp [Op.thread]
    · exact held_step hs h (hs.create _ _ _ _ hp).own
        (hl.finished k t sp' (op :: ops) hp (by simp [hr, Ne.symm hop]))
  · simp [kthreadCreate, kernelStack] at hr

include hi hc in
theorem logs_positive (hpc : s'.pc k = .create t sp ops) : 0 < (s'.thr t).tid := by
  obtain ⟨sp', ops', hp⟩ | ⟨_, htid⟩ := create_work h hpc
  · rw [target_tid hs h hc hp]
    exact hl.positive k t sp' ops' hp
  · rw [htid]
    exact hi.next

include hi hc in
theorem logsOk_step : LogsOk base s' where
  nodup := logs_nodup hl hs h
  entry _ _ hm := logs_entry hl hi hs h hm
  unlisted _ _ _ _ hpc := logs_unlisted hl hi hs h hc hpc
  finished _ _ _ _ hpc hr := logs_finished hl hs h hc hpc hr
  positive _ _ _ _ hpc := logs_positive hl hi hs h hc hpc

end

theorem start_logs (hs : Start base s) : LogsOk base s where
  nodup := by simp [hs.logs.2.1]
  entry _ _ hm := by simp [hs.logs.2.1] at hm
  unlisted _ _ _ _ hpc := (hs.place_ne hpc (by simp) (by simp)).elim
  finished _ _ _ _ hpc := (hs.place_ne hpc (by simp) (by simp)).elim
  positive _ _ _ _ hpc := (hs.place_ne hpc (by simp) (by simp)).elim

end Xv6.Process
