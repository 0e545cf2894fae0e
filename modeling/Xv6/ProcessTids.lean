import Xv6.ProcessStock
import Mathlib.Data.List.Nodup

namespace Xv6.Process

open Xv6.Threads Function

def Taken (s : State) (i : ℕ) : Prop :=
  (s.thr i).state ≠ .uninit ∨ ∃ k sp ops, s.pc k = .create i sp ops ∧ .runnable ∈ ops

structure TidsOk (base : ℕ) (s : State) : Prop where
  next : 1 ≤ s.nexttid
  below : ∀ i ∈ slots base, (s.thr i).tid < s.nexttid
  inj : ∀ i ∈ slots base, ∀ j ∈ slots base, (s.thr i).tid = (s.thr j).tid → 0 < (s.thr i).tid → i = j
  positive : ∀ i ∈ slots base, Taken s i → 0 < (s.thr i).tid

section special

variable {base i k t startFunc stack : ℕ} {s : State}

theorem createSearch_some (hs : searchUninit s.thr base = some t) : createSearch base s k startFunc stack =
    { (s.setThr (update s.thr t { s.thr t with tproc := some (row base), tid := s.nexttid })).goto k
        (.create t 0 (kthreadCreate startFunc stack)) with
      nexttid := s.nexttid + 1 } := by
  simp only [createSearch, hs]

variable {page sp : ℕ} {ops : List Op} {threadId : ℤ}

theorem kallocStep_thr :
    (kallocStep s k t sp page ops).thr = update s.thr t { s.thr t with kstack := page } := by
  unfold kallocStep
  split_ifs <;> rfl

theorem kallocStep_rest : (kallocStep s k t sp page ops).nexttid = s.nexttid ∧
    (kallocStep s k t sp page ops).created = s.created ∧ (kallocStep s k t sp page ops).reaped = s.reaped := by
  unfold kallocStep
  split_ifs <;> exact ⟨rfl, rfl, rfl⟩

theorem kallocStep_tid : ((kallocStep s k t sp page ops).thr i).tid = (s.thr i).tid := by
  rw [kallocStep_thr]
  by_cases hi : i = t
  · subst hi
    simp
  · rw [update_of_ne hi]

theorem kallocStep_state :
    ((kallocStep s k t sp page ops).thr i).state = (s.thr i).state := by
  rw [kallocStep_thr]
  by_cases hi : i = t
  · subst hi
    simp
  · rw [update_of_ne hi]

theorem reap_thr : (joinStep base s k threadId (.reaps t)).thr =
    update s.thr t { s.thr t with kstack := 0, state := .uninit } := rfl

theorem reap_tid : ((joinStep base s k threadId (.reaps t)).thr i).tid = (s.thr i).tid := by
  rw [reap_thr]
  by_cases hi : i = t
  · subst hi
    simp
  · rw [update_of_ne hi]

theorem wait_cleaned (hi : i ∈ slots base) (ht : (s.thr i).state = .terminated) : ((wait base s).thr i).tid = 0 ∧
    ((wait base s).thr i).kstack = 0 ∧ ((wait base s).thr i).state = .uninit := by
  simp [wait, waitTable, hi, ht]

theorem wait_kept (ht : (s.thr i).state ≠ .terminated) : (wait base s).thr i = s.thr i := by
  simp [wait, waitTable, ht]

theorem wait_reaped {a : ℤ} : a ∈ (wait base s).reaped ↔
    (∃ i ∈ slots base, (s.thr i).state = .terminated ∧ (s.thr i).tid = a) ∨ a ∈ s.reaped := by
  simp [wait, and_assoc]

end special

section

variable {base i k t : ℕ} {s s' : State} {e : Event}

theorem Sound.stopped (hs : Sound base s) (hu : s.state ≠ .used) (k : ℕ) : s.pc k = .dead ∨ s.pc k = .forkret := by
  by_cases hk : k ∈ slots base
  · exact hs.idle k hk (hs.used hu k hk)
  · exact .inl (hs.outside k hk)

theorem Sound.not_creating {sp : ℕ} {ops : List Op} (hs : Sound base s) (hz : s.state = .zombie) :
    s.pc k ≠ .create t sp ops := by
  intro hpc
  have hstop := hs.stopped (by simp [hz]) k
  simp [hpc] at hstop

theorem taken_back (hi : i ∈ slots base) (h : step base s e = some s') (ht : Taken s' i) : Taken s i ∨
    ∃ k f st, e = .run k ∧ s.pc k = .createSearch f st ∧ searchUninit s.thr base = some i := by
  obtain hstate | ⟨k, sp, ops, hpc, hr⟩ := ht
  · left
    by_cases hu : (s.thr i).state = .uninit
    · obtain hu' | ⟨k, sp, ops, _, hk⟩ := (step_slot i h).uninit hi hu
      · exact absurd hu' hstate
      · exact .inr ⟨k, sp, _, hk, List.mem_cons_self⟩
    · exact .inl hu
  · obtain ⟨_, hp⟩ | ⟨_, sp', op, hp⟩ | ⟨he, f, st, hp, hsearch, _⟩ := create_back h hpc
    · exact .inl (.inr ⟨k, sp, ops, hp, hr⟩)
    · exact .inl (.inr ⟨k, sp', _, hp, List.mem_cons_of_mem op hr⟩)
    · exact .inr ⟨k, f, st, he, hp, hsearch⟩

theorem taken_kept (hi : i ∈ slots base) (h : step base s e = some s') (ht : Taken s' i)
    (hn : ∀ k f st, e = .run k → s.pc k = .createSearch f st → searchUninit s.thr base ≠ some i) : Taken s i := by
  obtain ht | ⟨k, f, st, he, hp, hsearch⟩ := taken_back hi h ht
  · exact ht
  · exact absurd hsearch (hn k f st he hp)

theorem TidsOk.frame (hi : TidsOk base s) (htid : ∀ i ∈ slots base, (s'.thr i).tid = (s.thr i).tid)
    (hnext : s.nexttid ≤ s'.nexttid) (htaken : ∀ i ∈ slots base, Taken s' i → Taken s i) : TidsOk base s' := by
  refine ⟨Int.le_trans hi.next hnext, fun i ho => ?_, fun i ho j hj => ?_, fun i ho ht => ?_⟩
  · rw [htid i ho]
    exact Int.lt_of_lt_of_le (hi.below i ho) hnext
  · rw [htid i ho, htid j hj]
    exact hi.inj i ho j hj
  · rw [htid i ho]
    exact hi.positive i ho (htaken i ho ht)

theorem TidsOk.claim (hi : TidsOk base s) (htid : ∀ i, (s'.thr i).tid = if i = t then s.nexttid else (s.thr i).tid)
    (hnext : s'.nexttid = s.nexttid + 1) (htaken : ∀ i ∈ slots base, i ≠ t → Taken s' i → Taken s i) :
    TidsOk base s' := by
  have hpos := hi.next
  refine ⟨by omega, fun i ho => ?_, fun i ho j hj hij hp => ?_, fun i ho ht => ?_⟩
  · have hbelow := hi.below i ho
    rw [htid, hnext]
    split_ifs <;> omega
  · have hbi := hi.below i ho
    have hbj := hi.below j hj
    rw [htid i, htid j] at hij
    rw [htid i] at hp
    split_ifs at hij hp with h1 h2 h2
    · rw [h1, h2]
    · omega
    · omega
    · exact hi.inj i ho j hj hij hp
  · rw [htid]
    split_ifs with hit
    · omega
    · exact hi.positive i ho (htaken i ho hit ht)

theorem TidsOk.wait (hi : TidsOk base s) (htaken : ∀ i ∈ slots base, Taken (wait base s) i →
    Taken s i ∧ (s.thr i).state ≠ .terminated) : TidsOk base (wait base s) := by
  have htid (i : ℕ) (ho : i ∈ slots base) :
      ((Process.wait base s).thr i).tid = (s.thr i).tid ∨ ((Process.wait base s).thr i).tid = 0 := by
    by_cases ht : (s.thr i).state = .terminated
    · exact .inr (wait_cleaned ho ht).1
    · exact .inl (by rw [wait_kept ht])
  refine ⟨hi.next, fun i ho => ?_, fun i ho j hj hij hp => ?_, fun i ho ht => ?_⟩
  · obtain h | h := htid i ho <;> rw [h]
    · exact hi.below i ho
    · exact hi.next
  · obtain h | h := htid i ho <;> obtain h' | h' := htid j hj <;> rw [h] at hij hp <;> rw [h'] at hij
    · exact hi.inj i ho j hj hij hp
    all_goals omega
  · obtain ⟨hti, hlive⟩ := htaken i ho ht
    rw [wait_kept hlive]
    exact hi.positive i ho hti

theorem claim_tid {startFunc stack : ℕ} (hsearch : searchUninit s.thr base = some t) :
    ((createSearch base s k startFunc stack).thr i).tid = if i = t then s.nexttid else (s.thr i).tid := by
  rw [createSearch_some hsearch]
  simp only [State.goto_thr, State.setThr_thr, update_apply]
  split_ifs <;> rfl

theorem taken_wait (hs : Sound base s) (hz : s.state = .zombie) (ho : i ∈ slots base)
    (ht : Taken (wait base s) i) : Taken s i ∧ (s.thr i).state ≠ .terminated := by
  obtain hstate | ⟨k, sp, ops, hk, _⟩ := ht
  · by_cases hterm : (s.thr i).state = .terminated
    · exact absurd (wait_cleaned ho hterm).2.2 hstate
    · rw [wait_kept hterm] at hstate
      exact ⟨.inl hstate, hterm⟩
  · exact absurd hk (hs.not_creating hz)

theorem tidsOk_step (hi : TidsOk base s) (hs : Sound base s) (h : step base s e = some s') : TidsOk base s' := by
  cases step_stock hs h with
  | quiet _ hslot hnext _ _ _ hclaim =>
    exact hi.frame (fun i ho => (hslot i ho).1) hnext
      (fun i ho ht => taken_kept ho h ht (fun k f st he hp => hclaim k f st i he hp))
  | claim k t f st hp hsearch hs' =>
    subst hs'
    refine hi.claim (fun i => claim_tid hsearch) (by rw [createSearch_some hsearch])
      (fun i ho hit ht => taken_kept ho h ht (fun _ _ _ _ _ hn => hit ?_))
    rw [hsearch] at hn
    exact (Option.some.inj hn).symm
  | kalloc k t sp page ops hp hfree hs' =>
    subst hs'
    exact hi.frame (fun i _ => kallocStep_tid) (Int.le_of_eq kallocStep_rest.1.symm)
      (fun i ho ht => taken_kept ho h ht (by simp))
  | created k t sp hp hs' =>
    subst hs'
    refine hi.frame (fun i _ => rfl) (Int.le_refl _) (fun i ho ht => taken_kept ho h ht (fun k' f st he hp' => ?_))
    cases he
    simp [hp] at hp'
  | reap k t id hp ht hs' =>
    subst hs'
    refine hi.frame (fun i _ => reap_tid) (Int.le_refl _)
      (fun i ho hti => taken_kept ho h hti (fun k' f st he hp' => ?_))
    cases he
    obtain ⟨hp, _⟩ | hp := hp <;> simp [hp] at hp'
  | wait hz hs' =>
    subst hs'
    exact hi.wait (fun i ho => taken_wait hs hz ho)

theorem start_tids (h : Start base s) : TidsOk base s where
  next := by
    have hpos := h.main.2.2
    have hnext := h.next base (base_mem base)
    omega
  below := h.next
  inj := h.distinct
  positive i hi ht := by
    obtain hstate | ⟨k, sp, ops, hk, _⟩ := ht
    · by_cases hb : i = base
      · rw [hb]
        exact h.main.2.2
      · exact absurd (h.rest i hi hb).1 hstate
    · exact (h.place_ne hk (by simp) (by simp)).elim

end

end Xv6.Process
