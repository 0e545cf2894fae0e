import Xv6.ProcessLogs

namespace Xv6.Process

open Xv6.Threads Function

structure StacksOk (base : ℕ) (s : State) : Prop where
  zero : s.pages 0 = false
  held : ∀ i ∈ slots base, (s.thr i).kstack ≠ 0 → s.pages (s.thr i).kstack = true
  owner : ∀ page, s.pages page = true → ∃ i ∈ slots base, (s.thr i).kstack = page
  inj : ∀ i ∈ slots base, ∀ j ∈ slots base, (s.thr i).kstack = (s.thr j).kstack → (s.thr i).kstack ≠ 0 → i = j
  empty : ∀ i ∈ slots base, (s.thr i).state = .uninit → (s.thr i).kstack = 0 ∨
    ∃ k sp ops, s.pc k = .create i sp ops ∧ .runnable ∈ ops ∧ .kalloc ∉ ops

section

variable {base i k t : ℕ} {s s' : State} {e : Event} {page sp : ℕ} {ops : List Op}

theorem create_forward (hs : Sound base s) (h : step base s e = some s')
    (hp : s.pc k = .create t sp ops) (hr : .runnable ∈ ops) (hk : .kalloc ∉ ops)
    (hu : (s'.thr t).state = .uninit) :
    ∃ sp' ops', s'.pc k = .create t sp' ops' ∧ .runnable ∈ ops' ∧ .kalloc ∉ ops' := by
  obtain ⟨_, hsame⟩ | ⟨ha, _, hmove⟩ | ⟨_, j, sp', ops', _, hj⟩ := step_pc k h
  · exact ⟨sp, ops, hsame.trans hp, hr, hk⟩
  · rw [hp] at hmove
    generalize hq : s'.pc k = q at hmove
    cases hmove with
    | returns _ hret => cases ops <;> simp_all [Pc.returns]
    | store _ _ sp' op ops' =>
      refine ⟨sp', ops', rfl, ?_, fun hmem => hk (List.mem_cons_of_mem op hmem)⟩
      obtain rfl | hr := List.mem_cons.mp hr
      · obtain rfl := actor_run h ha (by simp [hp])
        simp [step_store h hp, Op.thread] at hu
      · exact hr
  · -- a thread at work is live, and nobody starts a live thread
    have hlive := hs.live (k := k) (by simp [hp]) (by simp [hp])
    rw [(hs.early hj (by decide)).2] at hlive
    cases hlive

theorem StacksOk.frame (hk : StacksOk base s) (hs : Sound base s) (h : step base s e = some s')
    (hslot : ∀ i ∈ slots base, (s'.thr i).kstack = (s.thr i).kstack ∧
      ((s'.thr i).state = .uninit → (s.thr i).state = .uninit)) (hpages :
      s'.pages = s.pages) : StacksOk base s' := by
  refine ⟨?_, fun i ho => ?_, fun page hpage => ?_, fun i ho j hj => ?_, fun i ho hu => ?_⟩
  · rw [hpages]
    exact hk.zero
  · rw [(hslot i ho).1, hpages]
    exact hk.held i ho
  · obtain ⟨i, ho, rfl⟩ := hk.owner page (hpages ▸ hpage)
    exact ⟨i, ho, (hslot i ho).1⟩
  · rw [(hslot i ho).1, (hslot j hj).1]
    exact hk.inj i ho j hj
  · rw [(hslot i ho).1]
    obtain h0 | ⟨k, sp, ops, hp, hr, hka⟩ := hk.empty i ho ((hslot i ho).2 hu)
    · exact .inl h0
    · exact .inr ⟨k, create_forward hs h hp hr hka hu⟩

theorem StacksOk.fresh (hk : StacksOk base s) (hs : Sound base s)
    (hp : s.pc k = .create t sp (.kalloc :: ops)) : (s.thr t).kstack = 0 := by
  obtain h0 | ⟨j, sp', ops', hj, _, hka⟩ := hk.empty t (hs.create _ _ _ _ hp).own (hs.early hp (by decide)).2
  · exact h0
  · obtain rfl := hs.apart _ _ _ _ _ _ _ hj hp
    rw [hp] at hj
    cases hj
    exact absurd List.mem_cons_self hka

theorem kallocStep_kstack :
    ((kallocStep s k t sp page ops).thr i).kstack = if i = t then page else (s.thr i).kstack := by
  rw [kallocStep_thr, update_apply]
  split_ifs <;> rfl

theorem kallocStep_pages :
    (kallocStep s k t sp page ops).pages = if page = 0 then s.pages else update s.pages page true := by
  unfold kallocStep
  split_ifs <;> rfl

theorem stacksOk_kalloc (hk : StacksOk base s) (hs : Sound base s)
    (hp : s.pc k = .create t sp (.kalloc :: ops)) (hfree : page = 0 ∨ s.pages page = false)
    (h : step base s e = some (kallocStep s k t sp page ops)) : StacksOk base (kallocStep s k t sp page ops) := by
  have h0 := hk.fresh hs hp
  obtain ⟨hown, _, ⟨f, st, hpart⟩, _⟩ := hs.create _ _ _ _ hp
  by_cases hpage : page = 0
  · refine hk.frame hs h (fun i _ => ⟨?_, fun hu => kallocStep_state.symm.trans hu⟩)
      (by rw [kallocStep_pages, if_pos hpage])
    rw [kallocStep_kstack, hpage]
    split_ifs with hit
    · rw [hit, h0]
    · rfl
  · have hpages : (kallocStep s k t sp page ops).pages = update s.pages page true := by
      rw [kallocStep_pages, if_neg hpage]
    have hnew := hfree.resolve_left hpage
    have hother {j : ℕ} (hj : j ∈ slots base) : (s.thr j).kstack ≠ page := by
      rintro rfl
      rw [hk.held j hj hpage] at hnew
      cases hnew
    refine ⟨?_, fun i ho hne => ?_, fun pg hpg => ?_, fun i ho j hj hij hne => ?_, fun i ho hu => ?_⟩
    · rw [hpages, update_of_ne (Ne.symm hpage)]
      exact hk.zero
    · rw [kallocStep_kstack] at hne ⊢
      rw [hpages]
      split_ifs at hne ⊢ with hit
      · rw [update_self]
      · rw [update_of_ne (hother ho)]
        exact hk.held i ho hne
    · rw [hpages, update_apply] at hpg
      split_ifs at hpg with heq
      · exact ⟨t, hown, by rw [kallocStep_kstack, if_pos rfl, heq]⟩
      · obtain ⟨i, ho, rfl⟩ := hk.owner pg hpg
        refine ⟨i, ho, ?_⟩
        rw [kallocStep_kstack, if_neg]
        rintro rfl
        rw [h0, hk.zero] at hpg
        cases hpg
    · rw [kallocStep_kstack] at hij hne
      rw [kallocStep_kstack] at hij
      split_ifs at hij hne with hit hjt hjt
      · rw [hit, hjt]
      · exact absurd hij.symm (hother hj)
      · exact absurd hij (hother ho)
      · exact hk.inj i ho j hj hij hne
    · rw [kallocStep_state] at hu
      rw [kallocStep_kstack]
      split_ifs with hit
      · subst hit
        exact .inr ⟨k, sp, ops, by simp [kallocStep, hpage], (hs.early hp (by decide)).1, kthreadCreate_once hpart⟩
      · obtain hz | ⟨j, sp', ops', hj, hr, hka⟩ := hk.empty i ho hu
        · exact .inl hz
        · exact .inr ⟨j, create_forward hs h hj hr hka (kallocStep_state.trans hu)⟩

theorem stacksOk_reap {threadId : ℤ} (hk : StacksOk base s) (hs : Sound base s) (ho : t ∈ slots base)
    (h : step base s e = some (joinStep base s k threadId (.reaps t))) :
    StacksOk base (joinStep base s k threadId (.reaps t)) := by
  have hpages : (joinStep base s k threadId (.reaps t)).pages = update s.pages (s.thr t).kstack false :=
    if_pos ho
  have hslot {i : ℕ} (hit : i ≠ t) : (joinStep base s k threadId (.reaps t)).thr i = s.thr i := by
    rw [reap_thr, update_of_ne hit]
  have hzero : ((joinStep base s k threadId (.reaps t)).thr t).kstack = 0 := by simp [reap_thr]
  refine ⟨?_, fun i hi hne => ?_, fun page hpage => ?_, fun i hi j hj hij hne => ?_, fun i hi hu => ?_⟩
  · rw [hpages, update_apply, hk.zero, ite_self]
  · have hit : i ≠ t := by
      rintro rfl
      exact hne hzero
    rw [hslot hit] at hne ⊢
    rw [hpages, update_of_ne (fun heq => hit (hk.inj i hi t ho heq hne))]
    exact hk.held i hi hne
  · rw [hpages, update_apply] at hpage
    split_ifs at hpage with heq
    obtain ⟨i, hi, rfl⟩ := hk.owner page hpage
    refine ⟨i, hi, ?_⟩
    rw [hslot]
    rintro rfl
    exact heq rfl
  · have hit : i ≠ t := by
      rintro rfl
      exact hne hzero
    rw [hslot hit] at hij hne
    by_cases hjt : j = t
    · rw [hjt, hzero] at hij
      exact absurd hij hne
    · rw [hslot hjt] at hij
      exact hk.inj i hi j hj hij hne
  · by_cases hit : i = t
    · rw [hit]
      exact .inl hzero
    · obtain h0 | ⟨j, sp, ops, hj, hr, hka⟩ := hk.empty i hi (by rwa [hslot hit] at hu)
      · exact .inl (by rwa [hslot hit])
      · exact .inr ⟨j, create_forward hs h hj hr hka hu⟩

theorem stacksOk_wait (hk : StacksOk base s) (hs : Sound base s) (hz : s.state = .zombie) :
    StacksOk base (wait base s) := by
  have hpages (page : ℕ) : (wait base s).pages page = true ↔
      s.pages page = true ∧ ∀ i ∈ slots base, (s.thr i).state = .terminated → (s.thr i).kstack ≠ page := by
    simp [wait]
  have hkept {i : ℕ} (hi : i ∈ slots base) (hne : ((wait base s).thr i).kstack ≠ 0) :
      (s.thr i).state ≠ .terminated ∧ (wait base s).thr i = s.thr i := by
    have ht : (s.thr i).state ≠ .terminated := fun ht => hne (wait_cleaned hi ht).2.1
    exact ⟨ht, wait_kept ht⟩
  refine ⟨?_, fun i hi hne => ?_, fun page hpage => ?_, fun i hi j hj hij hne => ?_, fun i hi hu => ?_⟩
  · rw [← Bool.not_eq_true, hpages, hk.zero]
    simp
  · obtain ⟨ht, hsame⟩ := hkept hi hne
    rw [hsame] at hne ⊢
    refine (hpages _).mpr ⟨hk.held i hi hne, fun j hj hjt heq => ht ?_⟩
    rwa [hk.inj i hi j hj heq.symm hne]
  · obtain ⟨hold, hnone⟩ := (hpages page).mp hpage
    obtain ⟨i, hi, rfl⟩ := hk.owner page hold
    exact ⟨i, hi, by rw [wait_kept (fun ht => hnone i hi ht rfl)]⟩
  · have hsame := (hkept hi hne).2
    have hsame' := (hkept hj (hij ▸ hne)).2
    rw [hsame] at hij hne
    rw [hsame'] at hij
    exact hk.inj i hi j hj hij hne
  · by_cases ht : (s.thr i).state = .terminated
    · exact .inl (wait_cleaned hi ht).2.1
    · rw [wait_kept ht] at hu ⊢
      obtain h0 | ⟨k, sp, ops, hp, _⟩ := hk.empty i hi hu
      · exact .inl h0
      · exact absurd hp (hs.not_creating hz)

theorem stacksOk_step (hk : StacksOk base s) (hs : Sound base s) (h : step base s e = some s') :
    StacksOk base s' := by
  cases step_stock hs h with
  | quiet _ hslot _ hpages _ _ _ => exact hk.frame hs h (fun i hi => (hslot i hi).2) hpages
  | claim k t f st hp hsearch hs' =>
    refine hk.frame hs h (fun i _ => ?_) (by rw [hs', createSearch_some hsearch]; rfl)
    rw [hs', createSearch_some hsearch]
    simp only [State.goto_thr, State.setThr_thr, update_apply]
    split_ifs with hit
    · rw [hit]
      exact ⟨rfl, id⟩
    · exact ⟨rfl, id⟩
  | kalloc k t sp page ops hp hfree hs' =>
    subst hs'
    exact stacksOk_kalloc hk hs hp hfree h
  | created k t sp hp hs' =>
    subst hs'
    exact hk.frame hs h (fun i _ => ⟨rfl, id⟩) rfl
  | reap k t id hp ht hs' =>
    subst hs'
    by_cases ho : t ∈ slots base
    · exact stacksOk_reap hk hs ho h
    · refine hk.frame hs h (fun i hi => ?_) (if_neg ho)
      have hit : i ≠ t := fun heq => ho (heq ▸ hi)
      rw [reap_thr, update_of_ne hit]
      exact ⟨rfl, fun hu => hu⟩
  | wait hz hs' =>
    subst hs'
    exact stacksOk_wait hk hs hz

theorem start_stacks (h : Start base s) : StacksOk base s := by
  obtain ⟨hne, hpages⟩ := h.pages
  have hmain {i : ℕ} (hi : i ∈ slots base) (h0 : (s.thr i).kstack ≠ 0) : i = base :=
    not_not.mp (fun hb => h0 (h.rest i hi hb).2)
  refine ⟨?_, fun i hi h0 => ?_, fun page hpage => ?_, fun i hi j hj hij h0 => ?_, fun i hi hu => ?_⟩
  · rw [← Bool.not_eq_true, hpages]
    exact Ne.symm hne
  · rw [hmain hi h0]
    exact (hpages _).mpr rfl
  · exact ⟨base, base_mem base, ((hpages page).mp hpage).symm⟩
  · rw [hmain hi h0, hmain hj (hij ▸ h0)]
  · by_cases hb : i = base
    · rw [hb, h.main.1] at hu
      cases hu
    · exact .inl (h.rest i hi hb).2

end

end Xv6.Process
