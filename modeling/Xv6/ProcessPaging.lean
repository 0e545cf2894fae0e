import Xv6.ProcessSound

namespace Xv6.Process

open Xv6.Threads

def Pc.paging : Pc → Bool
  | .execImage _ | .execOld _ _ | .execSwitch _ | .execFree _ => true
  | _ => false

def Pc.replacing (pc : Pc) : Bool := pc.paging || pc = .execBody

inductive Paging (base : ℕ) (s s' : State) : Event → Prop
  | quiet (e : Event) (hpgdir : s'.pgdir = s.pgdir) (hnext : s'.nextpgdir = s.nextpgdir)
      (hfreed : s'.freed = s.freed)
    (hcr3 : s'.cr3 = s.cr3) (hpc : ∀ k, s'.pc k = s.pc k ∨ ((s.pc k).paging = false ∧ (s'.pc k).paging = false))
    (hsched : ∀ k, e ≠ .scheduler k) : Paging base s s' e
  | setupkvm (k : ℕ) (hpc : s.pc k = .execBody)
    (h : s' = { s.goto k (.execImage s.nextpgdir) with nextpgdir := s.nextpgdir + 1 }) :
    Paging base s s' (.setupkvm k)
  | image (k pgdir : ℕ) (hpc : s.pc k = .execImage pgdir) (h : s' = s.goto k (.execOld pgdir s.pgdir)) :
    Paging base s s' (.run k)
  | install (k pgdir old : ℕ) (hpc : s.pc k = .execOld pgdir old)
    (h : s' = { s.goto k (.execSwitch old) with pgdir := pgdir }) : Paging base s s' (.run k)
  | switch (k old : ℕ) (hpc : s.pc k = .execSwitch old)
    (h : s' = { s.goto k (.execFree old) with cr3 := Function.update s.cr3 k s.pgdir }) : Paging base s s' (.run k)
  | free (k old : ℕ) (hpc : s.pc k = .execFree old) (h : s' = { s.ret k 0 with freed := old :: s.freed }) :
    Paging base s s' (.run k)
  | bad (k pgdir : ℕ) (hpc : s.pc k = .execImage pgdir)
      (h : s' = { s.ret k (-1) with freed := pgdir :: s.freed }) :
    Paging base s s' (.bad k)
  | scheduler (k : ℕ)
    (h : s' = { s.setThr (setState s.thr k .running) with cr3 := Function.update s.cr3 k s.pgdir }) :
    Paging base s s' (.scheduler k)
  | wait (hz : s.state = .zombie) (h : s' = wait base s) : Paging base s s' .wait

section

variable {base i k : ℕ} {s s' : State} {e : Event}

theorem Move.to_paging {p q : Pc} (h : Move base s k p q) (hq : q.paging) :
    p = .execBody ∨ (∃ d, p = .execImage d) ∨ (∃ d old, p = .execOld d old) ∨ ∃ old, p = .execSwitch old := by
  cases h
  case goes next => cases next <;> cases hq
  case exit next _ => cases next <;> cases hq
  case call c => cases c <;> cases hq
  case execImage => exact .inl rfl
  case execOld d _ => exact .inr (.inl ⟨d, rfl⟩)
  case execSwitch d old => exact .inr (.inr (.inl ⟨d, old, rfl⟩))
  case execFree old => exact .inr (.inr (.inr ⟨old, rfl⟩))
  all_goals cases hq

theorem Move.to_replacing {p q : Pc} (h : Move base s k p q) (hq : q.replacing) :
    p.replacing ∨ p = .execScan := by
  by_cases hp : q.paging
  · obtain rfl | ⟨d, rfl⟩ | ⟨d, old, rfl⟩ | ⟨old, rfl⟩ := h.to_paging hp <;> exact .inl rfl
  · simp only [Pc.replacing, hp, Bool.false_or, decide_eq_true_eq] at hq
    cases h
    case execScan => exact .inr rfl
    case goes next => cases next <;> cases hq
    case exit next _ => cases next <;> cases hq
    case call c => cases c <;> cases hq
    all_goals cases hq

theorem actor_execBody (h : step base s e = some s') (ha : e.actor = some k) (hp : s.pc k = .execBody) :
    e = .setupkvm k ∨ s'.pc k = .testExit .user := by
  cases e <;> simp only [Event.actor, Option.some.injEq,
    reduceCtorEq] at ha <;> subst ha <;> simp [step, hp, run] at h
  case setupkvm => exact .inl rfl
  case bad =>
    obtain ⟨_, rfl⟩ := h
    exact .inr (ret_pc _)

theorem actor_execImage {pgdir : ℕ} (h : step base s e = some s') (ha : e.actor = some k)
    (hp : s.pc k = .execImage pgdir) : e = .run k ∨ e = .bad k := by
  cases e <;> simp only [Event.actor, Option.some.injEq, reduceCtorEq] at ha <;> subst ha <;> simp [step, hp] at h
  case run => exact .inl rfl
  case bad => exact .inr rfl

theorem paging_actor (h : step base s e = some s') (ha : e.actor = some k) (hp : (s.pc k).paging) :
    e = .run k ∨ ∃ pgdir, e = .bad k ∧ s.pc k = .execImage pgdir := by
  cases hpc : s.pc k with
  | execImage d =>
    obtain he | he := actor_execImage h ha hpc
    · exact .inl he
    · exact .inr ⟨d, he, rfl⟩
  | execOld | execSwitch | execFree => exact .inl (actor_run h ha (by simp [hpc]))
  | _ => simp [hpc, Pc.paging] at hp

theorem step_paging (hs : Sound base s) (h : step base s e = some s') : Paging base s s' e := by
  by_cases hsetup : ∃ k, e = .setupkvm k
  · obtain ⟨k, rfl⟩ := hsetup
    simp only [step, Option.ite_none_right_eq_some, Option.some.injEq] at h
    exact .setupkvm k h.1.2 h.2.symm
  by_cases hbad : ∃ k pgdir, e = .bad k ∧ s.pc k = .execImage pgdir
  · obtain ⟨k, pgdir, rfl, hp⟩ := hbad
    simp only [step, hp, Option.ite_none_right_eq_some, Option.some.injEq] at h
    exact .bad k pgdir hp h.2.symm
  by_cases hsched : ∃ k, e = .scheduler k
  · obtain ⟨k, rfl⟩ := hsched
    simp only [step, Option.ite_none_right_eq_some, Option.some.injEq] at h
    exact .scheduler k h.2.symm
  by_cases hwait : e = .wait
  · subst hwait
    simp only [step, Option.ite_none_right_eq_some, Option.some.injEq] at h
    exact .wait h.1 h.2.symm
  by_cases hrun : ∃ k, e = .run k ∧ (s.pc k).paging
  · obtain ⟨k, rfl, hp⟩ := hrun
    simp only [step, Option.ite_none_right_eq_some] at h
    cases hpc : s.pc k <;> simp only [run, hpc, Option.some.injEq] at h <;> simp only [hpc, Pc.paging] at hp
    case execImage d => exact .image k d hpc h.2.symm
    case execOld d old => exact .install k d old hpc h.2.symm
    case execSwitch old => exact .switch k old hpc h.2.symm
    case execFree old => exact .free k old hpc h.2.symm
    all_goals cases hp
  have hledger : s'.pgdir = s.pgdir ∧ s'.nextpgdir = s.nextpgdir ∧ s'.freed = s.freed ∧ s'.cr3 = s.cr3 := by
    have heffect := step_effect h
    generalize hb : s'.ledger = b at heffect
    have hd : s'.pgdir = b.pgdir := congrArg Ledger.pgdir hb
    have hn : s'.nextpgdir = b.nextpgdir := congrArg Ledger.nextpgdir hb
    have hf : s'.freed = b.freed := congrArg Ledger.freed hb
    have hc : s'.cr3 = b.cr3 := congrArg Ledger.cr3 hb
    rw [hd, hn, hf, hc]
    cases heffect
    case setupkvm k _ => exact absurd ⟨k, rfl⟩ hsetup
    case install k d old hp => exact absurd ⟨k, rfl, by rw [hp]; rfl⟩ hrun
    case switch k old hp => exact absurd ⟨k, rfl, by rw [hp]; rfl⟩ hrun
    case free k old hp => exact absurd ⟨k, rfl, by rw [hp]; rfl⟩ hrun
    case bad k d hp => exact absurd ⟨k, d, rfl, hp⟩ hbad
    case scheduler k _ => exact absurd ⟨k, rfl⟩ hsched
    case wait => exact absurd rfl hwait
    all_goals exact ⟨rfl, rfl, rfl, rfl⟩
  refine .quiet e hledger.1 hledger.2.1 hledger.2.2.1 hledger.2.2.2 (fun k => ?_) (fun k he => hsched ⟨k, he⟩)
  obtain ⟨_, hsame⟩ | ⟨ha, _, hmove⟩ | ⟨hfork, j, sp, ops, _, hj⟩ := step_pc k h
  · exact .inl hsame
  · have hfrom : (s.pc k).paging = false := by
      by_contra hp
      obtain he | hbad' := paging_actor h ha (by simpa using hp)
      · exact hrun ⟨k, he, by simpa using hp⟩
      · obtain ⟨d, he, hp⟩ := hbad'
        exact hbad ⟨k, d, he, hp⟩
    refine .inr ⟨hfrom, ?_⟩
    by_contra hp
    obtain hp' | ⟨d, hp'⟩ | ⟨d, old, hp'⟩ | ⟨old, hp'⟩ := hmove.to_paging (by simpa using hp)
    · obtain he | hret := actor_execBody h ha hp'
      · exact hsetup ⟨k, he⟩
      · simp [hret, Pc.paging] at hp
    all_goals simp [hp', Pc.paging] at hfrom
  · -- nobody starts a thread that is in `exec`
    refine .inr ⟨?_, by rw [hfork]; rfl⟩
    have hu := (hs.early hj (by decide)).2
    obtain hp | hp := hs.idle k (hs.create _ _ _ _ hj).own (by rw [hu]; rfl) <;> rw [hp] <;> rfl

end

end Xv6.Process
