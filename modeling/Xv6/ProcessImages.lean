import Xv6.ProcessCreate
import Xv6.ProcessPaging

namespace Xv6.Process

open Xv6.Threads Xv6.Runs Function

/-- An `exec` goes over its siblings while one of them is still live. -/
def crowded (base : ℕ) (s : State) : Event → Bool
  | .run k => s.pc k = .execScan && !lastRunning s.thr base k
  | _ => false

def ExecTurn (base : ℕ) (s : State) (e : Event) : Prop := collides base s e = false ∧ crowded base s e = false

instance (base : ℕ) (s : State) (e : Event) : Decidable (ExecTurn base s e) := inferInstanceAs (Decidable (_ ∧ _))

def Spare (s : State) (pgdir : ℕ) : Prop := pgdir < s.nextpgdir ∧ pgdir ∉ s.freed ∧ pgdir ≠ s.pgdir

def PlaceOk (s : State) : Pc → Prop
  | .execImage pgdir => Spare s pgdir
  | .execOld pgdir old => Spare s pgdir ∧ old = s.pgdir
  | .execSwitch old | .execFree old => Spare s old
  | _ => True

structure ExecOk (base : ℕ) (s : State) : Prop where
  alone : ∀ k, (s.pc k).replacing → Alone base s k
  place : ∀ k, PlaceOk s (s.pc k)
  pgdir : s.pgdir < s.nextpgdir
  freed : ∀ d ∈ s.freed, d < s.nextpgdir
  once : s.freed.Nodup
  kept : s.state ≠ .unused → s.pgdir ∉ s.freed
  running : ∀ k ∈ slots base, (s.thr k).state = .running → s.cr3 k = s.pgdir ∨ s.pc k = .execSwitch (s.cr3 k)

section

variable {base i k : ℕ} {s s' : State} {e : Event} {pc : Pc}

theorem PlaceOk.of_quiet (h : pc.paging = false) : PlaceOk s pc := by
  cases pc <;> trivial

theorem PlaceOk.mono (h : PlaceOk s pc) (hpgdir : s'.pgdir = s.pgdir) (hnext : s.nextpgdir ≤ s'.nextpgdir)
    (hfreed : s'.freed = s.freed) : PlaceOk s' pc := by
  have hspare {d : ℕ} (hd : Spare s d) : Spare s' d := by
    rw [Spare, hpgdir, hfreed]
    exact ⟨Nat.lt_of_lt_of_le hd.1 hnext, hd.2⟩
  cases pc with
  | execImage d => exact hspare h
  | execOld d old => exact ⟨hspare h.1, h.2.trans hpgdir.symm⟩
  | execSwitch old => exact hspare h
  | execFree old => exact hspare h
  | _ => trivial

theorem Pc.replacing_of_paging (h : pc.paging) : pc.replacing := by simp [Pc.replacing, h]

theorem replacing_live (hs : Sound base s) (hp : (s.pc k).replacing) : k ∈ slots base ∧ (s.thr k).state.live := by
  have hd : s.pc k ≠ .dead := by
    intro hd
    rw [hd] at hp
    cases hp
  have hf : s.pc k ≠ .forkret := by
    intro hf
    rw [hf] at hp
    cases hp
  exact ⟨hs.own hd, hs.live hd hf⟩

theorem ExecOk.only (hx : ExecOk base s) (hs : Sound base s) (hk : (s.pc k).replacing) (hi : (s.pc i).replacing) :
    i = k := by
  by_contra hik
  obtain ⟨hown, hlive⟩ := replacing_live hs hi
  rw [hx.alone k hk i hown hik] at hlive
  cases hlive

theorem ExecOk.others (hx : ExecOk base s) (hs : Sound base s) (hk : (s.pc k).replacing) (hik : i ≠ k) :
    (s.pc i).paging = false := by
  by_contra hp
  exact hik (hx.only hs hk (Pc.replacing_of_paging (by simpa using hp)))

theorem ExecOk.placeAt (hx : ExecOk base s) (hp : s.pc k = pc) : PlaceOk s pc := hp ▸ hx.place k

theorem place_update (hpc : s'.pc = update s.pc i pc) (hself : PlaceOk s' pc)
    (hother : k ≠ i → PlaceOk s' (s.pc k)) : PlaceOk s' (s'.pc k) := by
  rw [hpc]
  by_cases hk : k = i
  · rw [hk, update_self]
    exact hself
  · rw [update_of_ne hk]
    exact hother hk

theorem crowded_spec (hc : crowded base s (.run k) = false) (hp : s.pc k = .execScan) :
    lastRunning s.thr base k := by
  simpa [crowded, hp] using hc

theorem exec_alone_step (hx : ExecOk base s) (h : step base s e = some s') (hc : crowded base s e = false)
    (hp : (s'.pc k).replacing) : Alone base s' k := by
  have hcreate (hq : (s.pc k).replacing) (t sp : ℕ) (ops : List Op) : s.pc k ≠ .create t sp ops := by
    intro hpc
    rw [hpc] at hq
    cases hq
  obtain ⟨_, hsame⟩ | ⟨ha, _, hmove⟩ | ⟨hfork, _⟩ := step_pc k h
  · rw [hsame] at hp
    exact (hx.alone k hp).step h (hcreate hp)
  · obtain hq | hq := hmove.to_replacing hp
    · exact (hx.alone k hq).step h (hcreate hq)
    · obtain rfl := actor_run h ha (by simp [hq])
      exact (lastRunning_iff.mp (crowded_spec hc hq)).step h (by simp [hq])
  · rw [hfork] at hp
    cases hp

theorem SlotChange.runs (h : SlotChange base s s' i e) (hi : i ∈ slots base) (hr : (s'.thr i).state = .running) :
    (s.thr i).state = .running ∨ e = .scheduler i := by
  cases h with
  | moved _ _ _ hl' h =>
    rw [h] at hr
    obtain rfl | ⟨_, he⟩ := hl'
    · cases hr
    · exact .inr he
  | stored k sp op ops hpc h =>
    left
    rw [h] at hr
    cases op <;> simp_all [Op.thread]
  | foreign _ hn => exact absurd hi hn
  | _ => simp_all

theorem step_unused (hs : Sound base s) (h : step base s e = some s') (hu : s.state = .unused) :
    s'.state = .unused := by
  have heffect := step_effect h
  generalize hb : s'.ledger = b at heffect
  have hstate : s'.state = b.state := congrArg Ledger.state hb
  cases heffect
  case final k hp =>
    have hstop := hs.stopped (by simp [hu]) k
    simp [hp] at hstop
  case wait hz => rw [hu] at hz; cases hz
  all_goals exact hstate.trans hu

section

variable (hx : ExecOk base s) (hs : Sound base s) (h : step base s e = some s')
include hx hs h

theorem exec_place : PlaceOk s' (s'.pc k) := by
  cases step_paging hs h with
  | quiet _ hpgdir hnext hfreed _ hpc _ =>
    obtain hsame | ⟨_, hq⟩ := hpc k
    · rw [hsame]
      exact (hx.place k).mono hpgdir (Nat.le_of_eq hnext.symm) hfreed
    · exact .of_quiet hq
  | setupkvm k' hp hs' =>
    subst hs'
    refine place_update rfl ?_ (fun _ => (hx.place k).mono rfl (Nat.le_succ _) rfl)
    exact ⟨Nat.lt_succ_self _, fun hf => Nat.lt_irrefl _ (hx.freed _ hf), Nat.ne_of_gt hx.pgdir⟩
  | image k' d hp hs' =>
    subst hs'
    refine place_update rfl ?_ (fun _ => (hx.place k).mono rfl (Nat.le_refl _) rfl)
    exact ⟨hx.placeAt hp, rfl⟩
  | install k' d old hp hs' =>
    subst hs'
    refine place_update rfl ?_ (fun hk => .of_quiet (hx.others hs (by rw [hp]; rfl) hk))
    obtain ⟨⟨_, _, hne⟩, rfl⟩ := hx.placeAt hp
    have hunused : s.state ≠ .unused := fun hu => by
      have hstop := hs.stopped (by simp [hu]) k'
      simp [hp] at hstop
    exact ⟨hx.pgdir, hx.kept hunused, Ne.symm hne⟩
  | switch k' old hp hs' =>
    subst hs'
    exact place_update rfl (hx.placeAt hp) (fun _ => (hx.place k).mono rfl (Nat.le_refl _) rfl)
  | free k' old hp hs' =>
    subst hs'
    exact place_update rfl trivial (fun hk => .of_quiet (hx.others hs (by rw [hp]; rfl) hk))
  | bad k' d hp hs' =>
    subst hs'
    exact place_update rfl trivial (fun hk => .of_quiet (hx.others hs (by rw [hp]; rfl) hk))
  | scheduler k' hs' =>
    subst hs'
    exact (hx.place k).mono rfl (Nat.le_refl _) rfl
  | wait hz hs' =>
    subst hs'
    have hpc : (wait base s).pc k = s.pc k := rfl
    obtain hp | hp := hs.stopped (by simp [hz]) k <;> rw [hpc, hp] <;> trivial

theorem exec_books : s'.pgdir < s'.nextpgdir ∧ (∀ d ∈ s'.freed, d < s'.nextpgdir) ∧ s'.freed.Nodup ∧
    (s'.state ≠ .unused → s'.pgdir ∉ s'.freed) := by
  have hkept (hu : s'.state ≠ .unused) : s.pgdir ∉ s.freed := hx.kept (fun hn => hu (step_unused hs h hn))
  have hfree {d : ℕ} (hd : Spare s d) : s.pgdir < s.nextpgdir ∧ (∀ d' ∈ d :: s.freed, d' < s.nextpgdir) ∧
      (d :: s.freed).Nodup ∧ (s'.state ≠ .unused → s.pgdir ∉ d :: s.freed) := by
    refine ⟨hx.pgdir, List.forall_mem_cons.mpr ⟨hd.1, hx.freed⟩,
      List.nodup_cons.mpr ⟨hd.2.1, hx.once⟩, fun hu => ?_⟩
    exact List.mem_cons.not.mpr (not_or.mpr ⟨Ne.symm hd.2.2, hkept hu⟩)
  cases step_paging hs h with
  | quiet _ hpgdir hnext hfreed _ _ _ =>
    rw [hpgdir, hnext, hfreed]
    exact ⟨hx.pgdir, hx.freed, hx.once, hkept⟩
  | setupkvm k' hp hs' =>
    subst hs'
    exact ⟨Nat.lt_succ_of_lt hx.pgdir, fun d hd => Nat.lt_succ_of_lt (hx.freed d hd), hx.once, hkept⟩
  | image k' d hp hs' =>
    subst hs'
    exact ⟨hx.pgdir, hx.freed, hx.once, hkept⟩
  | install k' d old hp hs' =>
    subst hs'
    have hplace := hx.placeAt hp
    exact ⟨hplace.1.1, hx.freed, hx.once, fun _ => hplace.1.2.1⟩
  | switch k' old hp hs' =>
    subst hs'
    exact ⟨hx.pgdir, hx.freed, hx.once, hkept⟩
  | free k' old hp hs' =>
    subst hs'
    exact hfree (hx.placeAt hp)
  | bad k' d hp hs' =>
    subst hs'
    exact hfree (hx.placeAt hp)
  | scheduler k' hs' =>
    subst hs'
    exact ⟨hx.pgdir, hx.freed, hx.once, hkept⟩
  | wait hz hs' =>
    subst hs'
    have hall : (slots base).all (fun i => !(s.thr i).state.live) = true :=
      List.all_eq_true.mpr (fun i hi => by simp [hs.used (by simp [hz]) i hi])
    have hstate : (wait base s).state = .unused := if_pos hall
    have hfreed : (wait base s).freed = s.pgdir :: s.freed := if_pos hall
    rw [hfreed]
    refine ⟨hx.pgdir, List.forall_mem_cons.mpr ⟨hx.pgdir, hx.freed⟩, ?_, fun hu => absurd hstate hu⟩
    exact List.nodup_cons.mpr ⟨hx.kept (by simp [hz]), hx.once⟩

theorem exec_running (hk : k ∈ slots base) (hr : (s'.thr k).state = .running) :
    s'.cr3 k = s'.pgdir ∨ s'.pc k = .execSwitch (s'.cr3 k) := by
  have hback := (step_slot k h).runs hk hr
  have hold (hsched : ∀ j, e ≠ .scheduler j) : (s.thr k).state = .running ∧
      (s.cr3 k = s.pgdir ∨ s.pc k = .execSwitch (s.cr3 k)) := by
    obtain hr | he := hback
    · exact ⟨hr, hx.running k hk hr⟩
    · exact absurd he (hsched k)
  have hother {k' : ℕ} {pc : Pc} (hp : s.pc k' = pc) (hpc : ∀ d, pc ≠ .execSwitch d)
      (hd : s.cr3 k = s.pgdir ∨ s.pc k = .execSwitch (s.cr3 k)) : s.cr3 k = s.pgdir ∨
      (s.pc k = .execSwitch (s.cr3 k) ∧ k ≠ k') :=
    hd.imp_right (fun hq => ⟨hq, fun heq => hpc _ (hp.symm.trans (heq ▸ hq))⟩)
  cases step_paging hs h with
  | quiet _ hpgdir _ _ hcr3 hpc hsched =>
    rw [hpgdir, hcr3]
    refine (hold hsched).2.imp_right (fun hq => ?_)
    obtain hsame | ⟨hn, _⟩ := hpc k
    · exact hsame.trans hq
    · rw [hq] at hn
      cases hn
  | setupkvm k' hp hs' =>
    subst hs'
    exact (hother hp (by simp) (hold (by simp)).2).imp_right (fun hq => (goto_pc_other hq.2 _).trans hq.1)
  | image k' d hp hs' =>
    subst hs'
    exact (hother hp (by simp) (hold (by simp)).2).imp_right (fun hq => (goto_pc_other hq.2 _).trans hq.1)
  | install k' d old hp hs' =>
    subst hs'
    obtain ⟨hrun, hcr3⟩ := hold (by simp)
    obtain rfl : k = k' := by
      by_contra hk'
      have hdead := hx.alone k' (by rw [hp]; rfl) k hk hk'
      rw [hrun] at hdead
      cases hdead
    right
    simp only [State.goto_pc, update_self, State.goto_cr3]
    rw [hcr3.resolve_right (by simp [hp]), (hx.placeAt hp).2]
  | switch k' old hp hs' =>
    subst hs'
    by_cases hkk : k = k'
    · subst hkk
      exact .inl (update_self _ _ _)
    · simp only [update_of_ne hkk, goto_pc_other hkk]
      exact (hold (by simp)).2
  | free k' old hp hs' =>
    subst hs'
    exact (hother hp (by simp) (hold (by simp)).2).imp_right (fun hq => (ret_pc_other hq.2 0).trans hq.1)
  | bad k' d hp hs' =>
    subst hs'
    exact (hother hp (by simp) (hold (by simp)).2).imp_right (fun hq => (ret_pc_other hq.2 (-1)).trans hq.1)
  | scheduler k' hs' =>
    subst hs'
    by_cases hkk : k = k'
    · subst hkk
      exact .inl (update_self _ _ _)
    · obtain hr | he := hback
      · simp only [update_of_ne hkk]
        exact hx.running k hk hr
      · cases he
        exact absurd rfl hkk
  | wait hz hs' =>
    subst hs'
    exact (hold (by simp)).2

theorem execOk_step (hc : crowded base s e = false) : ExecOk base s' where
  alone _ hp := exec_alone_step hx h hc hp
  place _ := exec_place hx hs h
  pgdir := (exec_books hx hs h).1
  freed := (exec_books hx hs h).2.1
  once := (exec_books hx hs h).2.2.1
  kept := (exec_books hx hs h).2.2.2
  running _ hk hr := exec_running hx hs h hk hr

end

theorem start_exec (h : Start base s) : ExecOk base s where
  alone k hp := by obtain hq | hq := h.place k <;> rw [hq] at hp <;> cases hp
  place k := by obtain hq | hq := h.place k <;> rw [hq] <;> trivial
  pgdir := h.pgdir
  freed := by simp [h.logs.1]
  once := by simp [h.logs.1]
  kept _ := by simp [h.logs.1]
  running k hk hr := by
    by_cases hb : k = base
    · rw [hb, h.main.1] at hr
      cases hr
    · rw [(h.rest k hk hb).1] at hr
      cases hr

end

end Xv6.Process
