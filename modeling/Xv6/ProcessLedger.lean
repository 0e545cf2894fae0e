import Xv6.ProcessSlots

namespace Xv6.Process

open Xv6.Threads

structure Ledger where
  nexttid : ℤ
  state : ProcState
  pages : ℕ → Bool
  pgdir : ℕ
  nextpgdir : ℕ
  cr3 : ℕ → ℕ
  freed : List ℕ
  created : List (ℤ × ℕ)
  reaped : List ℤ
  exited : ℕ → Bool

def State.ledger (s : State) : Ledger :=
  { nexttid := s.nexttid, state := s.state, pages := s.pages, pgdir := s.pgdir, nextpgdir := s.nextpgdir
    cr3 := s.cr3, freed := s.freed, created := s.created, reaped := s.reaped, exited := s.exited }

inductive Effect (base : ℕ) (s : State) : Event → Ledger → Prop
  | same (e : Event) : Effect base s e s.ledger
  | tick : Effect base s .tick { s.ledger with nexttid := s.nexttid + 1 }
  | claim (k t startFunc stack : ℕ) (hpc : s.pc k = .createSearch startFunc stack)
    (hs : searchUninit s.thr base = some t) : Effect base s (.run k) { s.ledger with nexttid := s.nexttid + 1 }
  | kalloc (k page t sp : ℕ) (ops : List Op) (hpc : s.pc k = .create t sp (.kalloc :: ops)) (hp : page ≠ 0)
    (hfree : s.pages page = false) :
    Effect base s (.kalloc k page) { s.ledger with pages := Function.update s.pages page true }
  | created (k t sp : ℕ) (hpc : s.pc k = .create t sp []) :
    Effect base s (.run k) { s.ledger with created := ((s.thr t).tid, t) :: s.created }
  | reap (k t : ℕ) (threadId : ℤ)
    (hpc : (s.pc k = .join threadId ∧ kthreadJoin s.thr base k threadId = .reaps t) ∨
      s.pc k = .joinWait threadId t)
    (ht : (s.thr t).state = .terminated) :
    Effect base s (.run k)
      { s.ledger with
        pages := if t ∈ slots base then Function.update s.pages (s.thr t).kstack false else s.pages
        reaped := (s.thr t).tid :: s.reaped }
  | exit (k : ℕ) (next : Cont) (hpc : s.pc k = .exitScan next) (h : lastRunning s.thr base k = false) :
    Effect base s (.run k) { s.ledger with exited := Function.update s.exited k true }
  | final (k : ℕ) (hpc : s.pc k = .exitClose) :
    Effect base s (.run k) { s.ledger with state := .zombie, exited := Function.update s.exited k true }
  | setupkvm (k : ℕ) (hpc : s.pc k = .execBody) :
    Effect base s (.setupkvm k) { s.ledger with nextpgdir := s.nextpgdir + 1 }
  | install (k pgdir old : ℕ) (hpc : s.pc k = .execOld pgdir old) :
    Effect base s (.run k) { s.ledger with pgdir := pgdir }
  | switch (k old : ℕ) (hpc : s.pc k = .execSwitch old) :
    Effect base s (.run k) { s.ledger with cr3 := Function.update s.cr3 k s.pgdir }
  | free (k old : ℕ) (hpc : s.pc k = .execFree old) :
      Effect base s (.run k) { s.ledger with freed := old :: s.freed }
  | bad (k pgdir : ℕ) (hpc : s.pc k = .execImage pgdir) :
    Effect base s (.bad k) { s.ledger with freed := pgdir :: s.freed }
  | scheduler (k : ℕ) (hused : s.state = .used) :
    Effect base s (.scheduler k) { s.ledger with cr3 := Function.update s.cr3 k s.pgdir }
  | wait (hz : s.state = .zombie) : Effect base s .wait (wait base s).ledger

variable {base k : ℕ} {s s' : State} {e : Event}

theorem joinStep_effect {threadId : ℤ} {r : JoinResult}
    (hr : ∀ t, r = .reaps t → (s.thr t).state = .terminated ∧
      ((s.pc k = .join threadId ∧ kthreadJoin s.thr base k threadId = .reaps t) ∨ s.pc k = .joinWait threadId t)) :
    Effect base s (.run k) (joinStep base s k threadId r).ledger := by
  cases r with
  | fails => exact .same _
  | sleeps t => exact .same _
  | reaps t => exact .reap k t threadId (hr t rfl).2 (hr t rfl).1

theorem run_effect (h : run base s k = some s') : Effect base s (.run k) s'.ledger := by
  unfold run at h
  split at h <;> rename_i hp
  case h_5 next =>
    cases h
    unfold exitScan
    split_ifs with hl
    · exact .same _
    · exact .exit k next hp (by simpa using hl)
  case h_6 => cases h; exact .final k hp
  case h_7 =>
    cases h
    unfold kexitScan
    split_ifs <;> exact .same _
  case h_10 startFunc stack =>
    cases h
    unfold createSearch
    split
    · exact .same _
    · exact .claim k _ startFunc stack hp ‹_›
  case h_11 t sp => cases h; exact .created k t sp hp
  case h_13 t sp op ops _ =>
    cases h
    have hledger : (createStore base s k t sp op ops).ledger = s.ledger := by
      unfold createStore
      split_ifs <;> rfl
    rw [hledger]
    exact .same _
  case h_14 threadId =>
    cases h
    exact joinStep_effect (fun t ht => ⟨(kthreadJoin_reaps ht).1, .inl ⟨hp, ht⟩⟩)
  case h_15 threadId t =>
    cases h
    refine joinStep_effect (fun t' ht => ?_)
    obtain ⟨rfl, hterm⟩ := joinLoop_reaps ht
    exact ⟨hterm, .inr hp⟩
  case h_19 pgdir old => cases h; exact .install k pgdir old hp
  case h_20 old => cases h; exact .switch k old hp
  case h_21 old => cases h; exact .free k old hp
  all_goals first | (cases h; exact .same _) | cases h

theorem step_effect (h : step base s e = some s') : Effect base s e s'.ledger := by
  cases e <;> simp only [step, Option.ite_none_right_eq_some, Option.ite_none_left_eq_some, Option.some.injEq] at h
  case run k => exact run_effect h.2
  case kalloc k page =>
    split at h
    · rename_i t sp ops hp
      simp only [Option.ite_none_right_eq_some, Option.some.injEq] at h
      obtain ⟨⟨_, hfree⟩, rfl⟩ := h
      unfold kallocStep
      split_ifs with h0
      · exact .same _
      · exact .kalloc k page t sp ops hp h0 (hfree.resolve_left h0)
    · cases h
  case setupkvm k =>
    obtain ⟨⟨_, hp⟩, rfl⟩ := h
    exact .setupkvm k hp
  case bad k =>
    split at h
    · simp only [Option.ite_none_right_eq_some, Option.some.injEq] at h
      obtain ⟨_, rfl⟩ := h
      exact .same _
    · rename_i pgdir hp
      simp only [Option.ite_none_right_eq_some, Option.some.injEq] at h
      obtain ⟨_, rfl⟩ := h
      exact .bad k pgdir hp
    · cases h
  case scheduler k =>
    obtain ⟨⟨_, hused, _⟩, rfl⟩ := h
    exact .scheduler k hused
  case kill => cases h; exact .same _
  case tick => cases h; exact .tick
  case wait =>
    obtain ⟨hz, rfl⟩ := h
    exact .wait hz
  all_goals
    obtain ⟨_, rfl⟩ := h
    exact .same _

end Xv6.Process
