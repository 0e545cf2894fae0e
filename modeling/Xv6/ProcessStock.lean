import Xv6.ProcessStart

namespace Xv6.Process

open Xv6.Threads

inductive Stock (base : ℕ) (s s' : State) : Event → Prop
  | quiet (e : Event) (hslot : ∀ i ∈ slots base, (s'.thr i).tid = (s.thr i).tid ∧
      (s'.thr i).kstack = (s.thr i).kstack ∧ ((s'.thr i).state = .uninit → (s.thr i).state = .uninit))
    (hnext : s.nexttid ≤ s'.nexttid) (hpages : s'.pages = s.pages) (hcreated : s'.created = s.created)
    (hreaped : s'.reaped = s.reaped)
    (hclaim : ∀ k startFunc stack t, e = .run k → s.pc k = .createSearch startFunc stack →
      searchUninit s.thr base ≠ some t) : Stock base s s' e
  | claim (k t startFunc stack : ℕ) (hpc : s.pc k = .createSearch startFunc stack)
    (hs : searchUninit s.thr base = some t) (h : s' = createSearch base s k startFunc stack) :
    Stock base s s' (.run k)
  | kalloc (k t sp page : ℕ) (ops : List Op) (hpc : s.pc k = .create t sp (.kalloc :: ops))
    (hfree : page = 0 ∨ s.pages page = false) (h : s' = kallocStep s k t sp page ops) :
    Stock base s s' (.kalloc k page)
  | created (k t sp : ℕ) (hpc : s.pc k = .create t sp []) (h : s' = createReturn s k t) : Stock base s s' (.run k)
  | reap (k t : ℕ) (threadId : ℤ)
    (hpc : (s.pc k = .join threadId ∧ kthreadJoin s.thr base k threadId = .reaps t) ∨
      s.pc k = .joinWait threadId t)
    (ht : (s.thr t).state = .terminated) (h : s' = joinStep base s k threadId (.reaps t)) :
    Stock base s s' (.run k)
  | wait (hz : s.state = .zombie) (h : s' = wait base s) : Stock base s s' .wait

section

variable {base i k t : ℕ} {s s' : State} {e : Event} {proc sp : ℕ} {th : Kthread} {op : Op}

theorem step_reap {threadId : ℤ} (h : step base s (.run k) = some s')
    (hpc : (s.pc k = .join threadId ∧ kthreadJoin s.thr base k threadId = .reaps t) ∨
      s.pc k = .joinWait threadId t)
    (ht : (s.thr t).state = .terminated) : s' = joinStep base s k threadId (.reaps t) := by
  simp only [step, Option.ite_none_right_eq_some] at h
  obtain ⟨_, h⟩ := h
  obtain ⟨hp, hj⟩ | hp := hpc
  · simp only [run, hp, hj, Option.some.injEq] at h
    exact h.symm
  · have hj : joinLoop s.thr t = .reaps t := by simp [joinLoop, ht]
    simp only [run, hp, hj, Option.some.injEq] at h
    exact h.symm

theorem kstack_thread (hz : op ≠ .kstackZero) :
    (op.thread proc sp th).kstack = th.kstack := by
  cases op <;> first | rfl | exact absurd rfl hz

theorem tid_thread : (op.thread proc sp th).tid = th.tid := by
  cases op <;> rfl

theorem uninit_thread (hu : op ≠ .uninit)
    (h : (op.thread proc sp th).state = .uninit) : th.state = .uninit := by
  cases op <;> first | exact h | exact absurd rfl hu | cases h

theorem SlotChange.quiet (hs : Sound base s) (h : SlotChange base s s' i e) (hi : i ∈ slots base)
    (hclaim : ∀ k f st, e = .run k → s.pc k = .createSearch f st → searchUninit s.thr base ≠ some i)
    (hreap : ∀ k id, e = .run k → (s.pc k = .join id ∧ kthreadJoin s.thr base k id = .reaps i) ∨
      s.pc k = .joinWait id i → (s.thr i).state ≠ .terminated)
    (hkalloc : ∀ k page, e ≠ .kalloc k page) (hwait : e ≠ .wait) :
    (s'.thr i).tid = (s.thr i).tid ∧ (s'.thr i).kstack = (s.thr i).kstack ∧
      ((s'.thr i).state = .uninit → (s.thr i).state = .uninit) := by
  cases h with
  | same _ h => rw [h]; exact ⟨rfl, rfl, id⟩
  | moved _ state hl hl' h =>
    rw [h]
    obtain rfl | ⟨rfl, _⟩ := hl' <;> exact ⟨rfl, rfl, by simp⟩
  | slept c hl hpc h => rw [h]; exact ⟨rfl, rfl, by simp⟩
  | joins id t hl hpc ht h => rw [h]; exact ⟨rfl, rfl, by simp⟩
  | marked k hk hpc hl h => rw [h]; exact ⟨rfl, rfl, id⟩
  | ended hl hpc h => rw [h]; exact ⟨rfl, rfl, by simp⟩
  | reaped k id hpc ht h => exact absurd ht (hreap k id rfl hpc)
  | cleaned hi ht h => exact absurd rfl hwait
  | claimed k f st hpc hsearch h => exact absurd hsearch (hclaim k f st rfl hpc)
  | stored k sp op ops hpc h =>
    obtain ⟨_, _, ⟨f, st, hpart⟩, _⟩ := hs.create _ _ _ _ hpc
    obtain ⟨hu, hz⟩ := kthreadCreate_head hpart
    rw [h]
    exact ⟨tid_thread, kstack_thread hz, uninit_thread hu⟩
  | kalloced k sp page ops hpc h => exact absurd rfl (hkalloc k page)
  | foreign t hn => exact absurd hi hn

theorem step_stock (hs : Sound base s) (h : step base s e = some s') : Stock base s s' e := by
  by_cases hclaim : ∃ k f st t, e = .run k ∧ s.pc k = .createSearch f st ∧ searchUninit s.thr base = some t
  · obtain ⟨k, f, st, t, rfl, hp, hsearch⟩ := hclaim
    simp only [step, run, hp, Option.ite_none_right_eq_some, Option.some.injEq] at h
    exact .claim k t f st hp hsearch h.2.symm
  by_cases hreap : ∃ k t id, e = .run k ∧ ((s.pc k = .join id ∧ kthreadJoin s.thr base k id = .reaps t) ∨
      s.pc k = .joinWait id t) ∧ (s.thr t).state = .terminated
  · obtain ⟨k, t, id, rfl, hp, ht⟩ := hreap
    exact .reap k t id hp ht (step_reap h hp ht)
  by_cases hcreated : ∃ k t sp, e = .run k ∧ s.pc k = .create t sp []
  · obtain ⟨k, t, sp, rfl, hp⟩ := hcreated
    simp only [step, run, hp, Option.ite_none_right_eq_some, Option.some.injEq] at h
    exact .created k t sp hp h.2.symm
  by_cases hkalloc : ∃ k page, e = .kalloc k page
  · obtain ⟨k, page, rfl⟩ := hkalloc
    simp only [step] at h
    split at h
    · rename_i t sp ops hp
      simp only [Option.ite_none_right_eq_some, Option.some.injEq] at h
      exact .kalloc k t sp page ops hp h.1.2 h.2.symm
    · cases h
  by_cases hwait : e = .wait
  · subst hwait
    simp only [step, Option.ite_none_right_eq_some, Option.some.injEq] at h
    exact .wait h.1 h.2.symm
  have hledger : s.nexttid ≤ s'.nexttid ∧ s'.pages = s.pages ∧ s'.created = s.created ∧ s'.reaped = s.reaped := by
    have heffect := step_effect h
    generalize hb : s'.ledger = b at heffect
    have hn : s'.nexttid = b.nexttid := congrArg Ledger.nexttid hb
    have hpages : s'.pages = b.pages := congrArg Ledger.pages hb
    have hc : s'.created = b.created := congrArg Ledger.created hb
    have hr : s'.reaped = b.reaped := congrArg Ledger.reaped hb
    rw [hn, hpages, hc, hr]
    cases heffect
    case tick => exact ⟨Int.le_add_of_nonneg_right (by decide), rfl, rfl, rfl⟩
    case claim k t f st hp hsearch => exact absurd ⟨k, f, st, t, rfl, hp, hsearch⟩ hclaim
    case kalloc k page t sp ops hp h0 hfree => exact absurd ⟨k, page, rfl⟩ hkalloc
    case created k t sp hp => exact absurd ⟨k, t, sp, rfl, hp⟩ hcreated
    case reap k t id hp ht => exact absurd ⟨k, t, id, rfl, hp, ht⟩ hreap
    case wait hz => exact absurd rfl hwait
    all_goals exact ⟨Int.le_refl _, rfl, rfl, rfl⟩
  refine .quiet e (fun i hi => (step_slot i h).quiet hs hi ?_ ?_ ?_ hwait) hledger.1 hledger.2.1 hledger.2.2.1
    hledger.2.2.2 (fun k f st t he hp hsearch => hclaim ⟨k, f, st, t, he, hp, hsearch⟩)
  · exact fun k f st he hp hsearch => hclaim ⟨k, f, st, i, he, hp, hsearch⟩
  · exact fun k id he hp ht => hreap ⟨k, i, id, he, hp, ht⟩
  · exact fun k page he => hkalloc ⟨k, page, he⟩

end

end Xv6.Process
