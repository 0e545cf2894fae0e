import Xv6.ProcessLedger

namespace Xv6.Process

open Xv6.Threads

def Pc.creates (t : ℕ) : Pc → Bool
  | .create t' _ _ => t' = t
  | _ => false

def collides (base : ℕ) (s : State) : Event → Bool
  | .run k =>
    match s.pc k, searchUninit s.thr base with
    | .createSearch _ _, some t => (slots base).any (fun j => (s.pc j).creates t)
    | _, _ => false
  | _ => false

def Alone (base : ℕ) (s : State) (k : ℕ) : Prop := ∀ i ∈ slots base, i ≠ k → (s.thr i).state.live = false

structure CreateOk (base : ℕ) (s : State) (k t : ℕ) (ops : List Op) : Prop where
  own : t ∈ slots base
  other : t ≠ k
  part : ∃ startFunc stack, ops <:+ kthreadCreate startFunc stack
  pending : .runnable ∈ ops → (s.thr t).state = .uninit

structure Sound (base : ℕ) (s : State) : Prop where
  outside : ∀ k, k ∉ slots base → s.pc k = .dead
  idle : ∀ i ∈ slots base, (s.thr i).state.live = false → s.pc i = .dead ∨ s.pc i = .forkret
  create : ∀ k t sp ops, s.pc k = .create t sp ops → CreateOk base s k t ops
  apart : ∀ j k t sp sp' ops ops', s.pc j = .create t sp ops → s.pc k = .create t sp' ops' → j = k
  alone : ∀ k, s.pc k = .exitClose ∨ s.pc k = .exitScan .kexit → Alone base s k
  kexit : ∀ k, s.pc k ≠ .testExit .kexit ∧ s.pc k ≠ .testKilled .kexit ∧ s.pc k ≠ .kexitWake ∧ s.pc k ≠ .kexitMark
  used : s.state ≠ .used → ∀ i ∈ slots base, (s.thr i).state.live = false

section ops

variable {startFunc stack : ℕ} {op : Op} {ops : List Op}

theorem kthreadCreate_head (h : op :: ops <:+ kthreadCreate startFunc stack) :
    op ≠ .uninit ∧ op ≠ .kstackZero := by
  have hmem : op ∈ kthreadCreate startFunc stack := h.subset List.mem_cons_self
  constructor <;> rintro rfl <;> simp [kthreadCreate, kernelStack] at hmem

theorem kthreadCreate_nodup : (kthreadCreate startFunc stack).Nodup := by
  simp [kthreadCreate, kernelStack]

theorem kthreadCreate_once (h : op :: ops <:+ kthreadCreate startFunc stack) : op ∉ ops :=
  (List.nodup_cons.mp (kthreadCreate_nodup.sublist h.sublist)).1

theorem kthreadCreate_early (h : op :: ops <:+ kthreadCreate startFunc stack)
    (hop : op ∈ kernelStack ++ [.exitRequest]) : .runnable ∈ ops := by
  simp only [kernelStack, List.cons_append, List.nil_append, List.mem_cons, List.not_mem_nil, or_false] at hop
  rcases hop with rfl | rfl | rfl | rfl | rfl | rfl | rfl | rfl <;>
    simp [kthreadCreate, kernelStack, List.suffix_cons_iff] at h <;> simp [h]

end ops

section table

variable {base i k : ℕ} {thr : Table} {s s' : State} {e : Event}

theorem searchUninit_spec (h : searchUninit thr base = some i) : i ∈ slots base ∧ (thr i).state = .uninit :=
  ⟨List.mem_of_find?_eq_some h, by simpa using List.find?_some h⟩

theorem lastRunning_iff : lastRunning s.thr base k ↔ Alone base s k := by
  simp only [lastRunning, Alone, List.all_eq_true, Bool.or_eq_true, decide_eq_true_eq, Bool.not_eq_true',
    or_iff_not_imp_left]

theorem running_live (h : s.running base k) : (s.thr k).state.live := by
  rw [(State.running_spec h).2]
  rfl

theorem SlotChange.wakes (h : SlotChange base s s' i e) (hi : i ∈ slots base) (hd : (s.thr i).state.live = false)
    (hl : (s'.thr i).state.live) : ∃ k sp ops, e = .run k ∧ s.pc k = .create i sp (.runnable :: ops) := by
  cases h with
  | stored k sp op ops hpc h =>
    by_cases hop : op = .runnable
    · subst hop
      exact ⟨k, sp, ops, rfl, hpc⟩
    · rw [h] at hl
      by_cases hu : op = .uninit
      · subst hu
        simp [Op.thread, ThreadState.live] at hl
      · cases op <;> simp_all [Op.thread]
  | foreign t hn => exact absurd hi hn
  | same _ h => simp_all
  | moved _ _ hl _ _ => simp_all
  | slept _ hl _ _ => simp_all
  | joins _ _ hl _ _ _ => simp_all
  | marked _ _ _ hl _ => simp_all
  | ended hl _ _ => simp_all
  | reaped _ _ _ _ h => simp [h, ThreadState.live] at hl
  | cleaned _ _ h => simp [h, ThreadState.live] at hl
  | claimed _ _ _ _ _ h => simp_all
  | kalloced _ _ _ _ _ h => simp_all

theorem SlotChange.uninit (h : SlotChange base s s' i e) (hi : i ∈ slots base) (hu : (s.thr i).state = .uninit) :
    (s'.thr i).state = .uninit ∨ ∃ k sp ops, e = .run k ∧ s.pc k = .create i sp (.runnable :: ops) := by
  by_cases hl : (s'.thr i).state.live
  · exact .inr (h.wakes hi (by rw [hu]; rfl) hl)
  · left
    cases h with
    | stored k sp op ops hpc h => cases op <;> simp_all [Op.thread, ThreadState.live]
    | foreign t hn => exact absurd hi hn
    | moved _ _ hl _ _ => simp [hu, ThreadState.live] at hl
    | _ => simp_all [ThreadState.live]

theorem SlotChange.stops (h : SlotChange base s s' i e) (hs : Sound base s) (hi : i ∈ slots base)
    (hl : (s.thr i).state.live) (hd : (s'.thr i).state.live = false) :
    e = .run i ∧ s'.pc i = .dead ∧ (s'.thr i).state = .terminated := by
  cases h with
  | ended _ hpc h => exact ⟨rfl, hpc, by rw [h]⟩
  | stored k sp op ops hpc h =>
    obtain ⟨_, _, ⟨f, st, hpart⟩, _⟩ := hs.create _ _ _ _ hpc
    have hhead := kthreadCreate_head hpart
    rw [h] at hd
    cases op <;> simp_all [Op.thread, ThreadState.live]
  | foreign t hn => exact absurd hi hn
  | claimed _ _ _ _ hsearch h => simp [(searchUninit_spec hsearch).2, ThreadState.live] at hl
  | reaped _ _ _ ht _ => simp [ht, ThreadState.live] at hl
  | cleaned _ ht _ => simp [ht, ThreadState.live] at hl
  | moved _ state _ hl' h =>
    rw [h] at hd
    obtain rfl | ⟨rfl, _⟩ := hl' <;> cases hd
  | slept _ _ _ h => simp [h, ThreadState.live] at hd
  | joins _ _ _ _ _ h => simp [h, ThreadState.live] at hd
  | _ => simp_all

end table

section moves

variable {base k t sp : ℕ} {ops : List Op} {s : State} {p : Pc}

theorem Move.to_create (h : Move base s k p (.create t sp ops)) : (∃ sp' op, p = .create t sp' (op :: ops)) ∨
    ∃ startFunc stack, p = .createSearch startFunc stack ∧ searchUninit s.thr base = some t ∧
      ops = kthreadCreate startFunc stack := by
  generalize hq : Pc.create t sp ops = q at h
  cases h
  case store => cases hq; exact .inl ⟨_, _, rfl⟩
  case claim startFunc stack t hs => cases hq; exact .inr ⟨startFunc, stack, rfl, hs, rfl⟩
  case goes next => cases next <;> cases hq
  case exit next _ => cases next <;> cases hq
  case call c => cases c <;> cases hq
  all_goals cases hq

theorem Move.to_exitClose (h : Move base s k p .exitClose) : lastRunning s.thr base k ∧
    ∃ next, p = .exitScan next := by
  generalize hq : Pc.exitClose = q at h
  cases h
  case last next hl => exact ⟨hl, next, rfl⟩
  case goes next => cases next <;> cases hq
  case exit next _ => cases next <;> cases hq
  case call c => cases c <;> cases hq
  all_goals cases hq

theorem Move.to_exitScan_kexit (h : Move base s k p (.exitScan .kexit)) :
    (lastRunning s.thr base k ∧ p = .kexitScan) ∨ p = .testKilled .kexit := by
  generalize hq : Pc.exitScan .kexit = q at h
  cases h
  case kexitLast hl => exact .inl ⟨hl, rfl⟩
  case killed next => cases hq; exact .inr rfl
  case goes next => cases next <;> cases hq
  case exit next _ => cases next <;> cases hq
  case call c => cases c <;> cases hq
  all_goals cases hq

theorem Move.to_kexit {q : Pc} (h : Move base s k p q) (hq : q = .testExit .kexit ∨ q = .testKilled .kexit ∨
    q = .kexitWake ∨ q = .kexitMark) : p = .testExit .kexit ∨ p = .testKilled .kexit ∨ p = .kexitWake ∨
      p = .exitScan .kexit ∧ lastRunning s.thr base k = false := by
  cases h
  case trap kind => cases kind <;> simp [Trap.next] at hq
  case goes next => cases next <;> simp_all [Cont.pc]
  case exit next hl => cases next <;> simp_all [Cont.pc]
  case call c => cases c <;> simp [Call.pc] at hq
  all_goals simp_all

theorem Move.from_exitClose {q : Pc} (h : Move base s k .exitClose q) : q = .dead := by
  cases h with
  | final => rfl
  | returns _ h => cases h

theorem Move.to_dead (h : Move base s k p .dead) : p = .exitClose ∨ p = .kexitScan ∨ p = .kexitMark := by
  generalize hq : Pc.dead = q at h
  cases h
  case goes next => cases next <;> cases hq
  case exit next _ => cases next <;> cases hq
  case call c => cases c <;> cases hq
  all_goals simp_all

end moves

section steps

variable {base i k t : ℕ} {s s' : State} {e : Event} {sp : ℕ} {ops : List Op}

theorem step_run (h : step base s (.run k) = some s') : s.running base k := (step_move h rfl).1

theorem step_dead (h : step base s e = some s') (ha : e.actor = some k) (hd : s'.pc k = .dead) :
    (s'.thr k).state = .terminated := by
  obtain ⟨_, hmove⟩ := step_move h ha
  rw [hd] at hmove
  have hp := hmove.to_dead
  have he := actor_run h ha (by obtain hp | hp | hp := hp <;> simp [hp])
  subst he
  simp only [step, Option.ite_none_right_eq_some] at h
  obtain hp | hp | hp := hp <;> simp only [run, hp, Option.some.injEq] at h
  · rw [← h.2]
    simp [exitFinal, setState]
  · obtain ⟨_, rfl⟩ := h
    unfold kexitScan at hd ⊢
    split_ifs at hd ⊢ with hl
    · simp at hd
    · simp [setState]
  · rw [← h.2]
    simp [setState]

theorem collides_spec {j startFunc stack : ℕ} (hc : collides base s (.run k) = false)
    (hpc : s.pc k = .createSearch startFunc stack) (hs : searchUninit s.thr base = some t) (hj : j ∈ slots base) :
    s.pc j ≠ .create t sp ops := by
  intro hjpc
  have hany : (slots base).any (fun j => (s.pc j).creates t) = true :=
    List.any_eq_true.mpr ⟨j, hj, by simp [hjpc, Pc.creates]⟩
  simp [collides, hpc, hs, hany] at hc

theorem Alone.step (ha : Alone base s k) (h : step base s e = some s')
    (hpc : ∀ t sp ops, s.pc k ≠ .create t sp ops) :
    Alone base s' k := by
  intro i hi hik
  by_contra hl
  obtain ⟨j, sp, ops, rfl, hj⟩ := (step_slot i h).wakes hi (ha i hi hik) (by simpa using hl)
  have hrun := step_run h
  by_cases hjk : j = k
  · subst hjk
    exact hpc _ _ _ hj
  · have hdead := ha j (State.running_spec hrun).1 hjk
    rw [running_live hrun] at hdead
    cases hdead

theorem Sound.own (hs : Sound base s) (hpc : s.pc k ≠ .dead) : k ∈ slots base :=
  not_not.mp (fun hk => hpc (hs.outside k hk))

theorem Sound.live (hs : Sound base s) (hd : s.pc k ≠ .dead) (hf : s.pc k ≠ .forkret) : (s.thr k).state.live := by
  by_contra hl
  exact (hs.idle k (hs.own hd) (by simpa using hl)).elim hd hf

theorem Sound.early {op : Op} (hs : Sound base s) (hpc : s.pc k = .create t sp (op :: ops))
    (hop : op ∈ kernelStack ++ [.exitRequest]) : .runnable ∈ ops ∧ (s.thr t).state = .uninit := by
  obtain ⟨_, _, ⟨f, st, hpart⟩, hpending⟩ := hs.create _ _ _ _ hpc
  have hr := kthreadCreate_early hpart hop
  exact ⟨hr, hpending (List.mem_cons_of_mem op hr)⟩

theorem create_back (h : step base s e = some s') (hpc : s'.pc k = .create t sp ops) :
    (e.actor ≠ some k ∧ s.pc k = .create t sp ops) ∨
    (e.actor = some k ∧ ∃ sp' op, s.pc k = .create t sp' (op :: ops)) ∨
    (e = .run k ∧ ∃ startFunc stack, s.pc k = .createSearch startFunc stack ∧ searchUninit s.thr base = some t ∧
      ops = kthreadCreate startFunc stack) := by
  obtain ⟨ha, hsame⟩ | ⟨ha, _, hmove⟩ | ⟨hfork, _⟩ := step_pc k h
  · exact .inl ⟨ha, hsame ▸ hpc⟩
  · rw [hpc] at hmove
    obtain hstore | ⟨f, st, hp, hsearch⟩ := hmove.to_create
    · exact .inr (.inl ⟨ha, hstore⟩)
    · exact .inr (.inr ⟨actor_run h ha (by simp [hp]), f, st, hp, hsearch⟩)
  · rw [hpc] at hfork
    cases hfork

variable (hs : Sound base s) (h : step base s e = some s') (hc : collides base s e = false)
include hs h

theorem sound_outside (hk : k ∉ slots base) : s'.pc k = .dead := by
  obtain ⟨_, hsame⟩ | ⟨_, hrun, _⟩ | ⟨_, j, sp, ops, _, hj⟩ := step_pc k h
  · rw [hsame]
    exact hs.outside k hk
  · exact absurd (State.running_spec hrun).1 hk
  · exact absurd (hs.create _ _ _ _ hj).own hk

theorem sound_idle (hi : i ∈ slots base) (hd : (s'.thr i).state.live = false) :
    s'.pc i = .dead ∨ s'.pc i = .forkret := by
  by_cases hl : (s.thr i).state.live
  · exact .inl ((step_slot i h).stops hs hi hl hd).2.1
  · obtain ⟨_, hsame⟩ | ⟨_, hrun, _⟩ | ⟨hfork, _⟩ := step_pc i h
    · rw [hsame]
      exact hs.idle i hi (by simpa using hl)
    · exact absurd (running_live hrun) hl
    · exact .inr hfork

include hc in
theorem sound_create {sp : ℕ} {ops : List Op} (hpc : s'.pc k = .create t sp ops) : CreateOk base s' k t ops := by
  obtain ⟨ha, hp⟩ | ⟨ha, sp', op, hp⟩ | ⟨rfl, f, st, hp, hsearch, rfl⟩ := create_back h hpc
  · obtain ⟨hown, hother, hpart, hpending⟩ := hs.create _ _ _ _ hp
    refine ⟨hown, hother, hpart, fun hr => ?_⟩
    obtain hu | ⟨j, sp', ops', rfl, hj⟩ := (step_slot t h).uninit hown (hpending hr)
    · exact hu
    · exact absurd (congrArg some (hs.apart _ _ _ _ _ _ _ hj hp)) ha
  · obtain ⟨hown, hother, ⟨f, st, hpart⟩, hpending⟩ := hs.create _ _ _ _ hp
    refine ⟨hown, hother, ⟨f, st, (List.suffix_cons op ops).trans hpart⟩, fun hr => ?_⟩
    obtain hu | ⟨j, sp'', ops', rfl, hj⟩ := (step_slot t h).uninit hown (hpending (List.mem_cons_of_mem op hr))
    · exact hu
    · obtain rfl := hs.apart _ _ _ _ _ _ _ hj hp
      rw [hp] at hj
      cases hj
      exact absurd hr (kthreadCreate_once hpart)
  · obtain ⟨hown, hu⟩ := searchUninit_spec hsearch
    have hrun := step_run h
    refine ⟨hown, ?_, ⟨f, st, List.suffix_rfl⟩, fun _ => ?_⟩
    · rintro rfl
      simp [(State.running_spec hrun).2] at hu
    · obtain hu' | ⟨j, sp', ops', hj, hjpc⟩ := (step_slot t h).uninit hown hu
      · exact hu'
      · exact absurd hjpc (collides_spec hc hp hsearch (hs.own (by simp [hjpc])))

include hc in
theorem sound_apart {j sp sp' : ℕ} {ops ops' : List Op} (hj : s'.pc j = .create t sp ops)
    (hk : s'.pc k = .create t sp' ops') : j = k := by
  by_contra hjk
  -- whoever did not claim the slot in this step was at work on it before
  have hback {i sp : ℕ} {ops : List Op} (hi : s'.pc i = .create t sp ops) : (∃ sp ops, s.pc i = .create t sp ops) ∨
      (e = .run i ∧ ∃ f st, s.pc i = .createSearch f st ∧ searchUninit s.thr base = some t) := by
    obtain ⟨_, hp⟩ | ⟨_, _, _, hp⟩ | ⟨he, f, st, hp, hsearch, _⟩ := create_back h hi
    · exact .inl ⟨_, _, hp⟩
    · exact .inl ⟨_, _, hp⟩
    · exact .inr ⟨he, f, st, hp, hsearch⟩
  obtain ⟨_, _, hj⟩ | ⟨rfl, f, st, hj, hsearch⟩ := hback hj
  · obtain ⟨_, _, hk⟩ | ⟨rfl, f, st, hk, hsearch⟩ := hback hk
    · exact hjk (hs.apart _ _ _ _ _ _ _ hj hk)
    · exact collides_spec hc hk hsearch (hs.own (by simp [hj])) hj
  · obtain ⟨_, _, hk⟩ | ⟨he, _⟩ := hback hk
    · exact collides_spec hc hj hsearch (hs.own (by simp [hk])) hk
    · cases he
      exact hjk rfl

theorem sound_alone (hpc : s'.pc k = .exitClose ∨ s'.pc k = .exitScan .kexit) : Alone base s' k := by
  obtain ⟨_, hsame⟩ | ⟨_, _, hmove⟩ | ⟨hfork, _⟩ := step_pc k h
  · rw [hsame] at hpc
    exact (hs.alone k hpc).step h (by obtain hpc | hpc := hpc <;> simp [hpc])
  · obtain hpc | hpc := hpc <;> rw [hpc] at hmove
    · obtain ⟨hl, next, hp⟩ := hmove.to_exitClose
      exact (lastRunning_iff.mp hl).step h (by simp [hp])
    · obtain ⟨hl, hp⟩ | hp := hmove.to_exitScan_kexit
      · exact (lastRunning_iff.mp hl).step h (by simp [hp])
      · exact absurd hp (hs.kexit k).2.1
  · obtain hpc | hpc := hpc <;> rw [hpc] at hfork <;> cases hfork

theorem sound_kexit : s'.pc k ≠ .testExit .kexit ∧ s'.pc k ≠ .testKilled .kexit ∧ s'.pc k ≠ .kexitWake ∧
    s'.pc k ≠ .kexitMark := by
  obtain ⟨_, hsame⟩ | ⟨_, _, hmove⟩ | ⟨hfork, _⟩ := step_pc k h
  · rw [hsame]
    exact hs.kexit k
  · by_contra hn
    obtain ⟨ht, hk, hw, _⟩ := hs.kexit k
    obtain hp | hp | hp | ⟨hp, hl⟩ := hmove.to_kexit (by simpa only [not_and_or, not_not] using hn)
    · exact ht hp
    · exact hk hp
    · exact hw hp
    · rw [lastRunning_iff.mpr (hs.alone k (.inr hp))] at hl
      cases hl
  · simp [hfork]

theorem sound_used (hu : s'.state ≠ .used) (hi : i ∈ slots base) : (s'.thr i).state.live = false := by
  by_cases hused : s.state = .used
  · have heffect := step_effect h
    generalize hb : s'.ledger = b at heffect
    have hstate : s'.state = b.state := congrArg Ledger.state hb
    cases heffect
    case final k hp =>
      have hdead : s'.pc k = .dead := by
        have hmove := (step_move h rfl).2
        rw [hp] at hmove
        exact hmove.from_exitClose
      by_cases hik : i = k
      · subst hik
        rw [step_dead h rfl hdead]
        rfl
      · exact (hs.alone k (.inl hp)).step h (by simp [hp]) i hi hik
    case wait hz => rw [hused] at hz; cases hz
    all_goals exact absurd (hstate.trans hused) hu
  · by_contra hl
    obtain ⟨k, _, _, rfl, _⟩ := (step_slot i h).wakes hi (hs.used hused i hi) (by simpa using hl)
    have hrun := step_run h
    have hdead := hs.used hused k (State.running_spec hrun).1
    rw [running_live hrun] at hdead
    cases hdead

include hc in
theorem sound_step : Sound base s' where
  outside _ hk := sound_outside hs h hk
  idle _ hi hd := sound_idle hs h hi hd
  create _ _ _ _ hpc := sound_create hs h hc hpc
  apart _ _ _ _ _ _ _ hj hk := sound_apart hs h hc hj hk
  alone _ hpc := sound_alone hs h hpc
  kexit _ := sound_kexit hs h
  used hu _ hi := sound_used hs h hu hi

end steps

end Xv6.Process
