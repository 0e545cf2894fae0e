import Xv6.LogGroups
import Mathlib.Algebra.Order.BigOperators.Group.Finset
import Mathlib.Algebra.Group.Action.Defs

namespace Xv6.LogOps

open Xv6.Log Xv6.Runs Function

def Pc.logs : Pc → Option ℕ
  | .logWrite b | .logWriteTrans b | .logWriteLocked b => some b
  | _ => none

variable {Thread : Type}

def unused (m : ℕ) (op : Thread → Op) (t : Thread) : ℕ := m - (op t).blocks.card

def Within (m : ℕ) (s : State Thread) : Event Thread → Prop
  | .logWrite t b => (insert b (s.op t).blocks).card ≤ m
  | _ => True

instance (m : ℕ) (s : State Thread) (e : Event Thread) : Decidable (Within m s e) :=
  match e with
  | .logWrite t b => inferInstanceAs (Decidable ((insert b (s.op t).blocks).card ≤ m))
  | .beginOp _ | .endOp _ | .run _ => inferInstanceAs (Decidable True)

structure Account (m cap : ℕ) (s : State Thread) : Prop where
  logs : ∀ t b, (s.pc t).logs = some b → (insert b (s.op t).blocks).card ≤ m
  room : ∀ A : Finset Thread, (∀ t ∈ A, (s.pc t).phase = .inside) →
    s.blocks.length + ∑ t ∈ A, unused m s.op t ≤ cap

section

variable {s s' : State Thread} {m cap : ℕ} {A : Finset Thread} {op : Thread → Op}

theorem boot_account : Account m cap (boot : State Thread) where
  logs := fun t b h => by cases h
  room := fun A hA => by
    have hempty : A = ∅ := by
      apply Finset.eq_empty_of_forall_notMem
      intro t ht
      cases hA t ht
    simp [hempty, boot]

theorem sum_le : ∑ x ∈ A, unused m op x ≤ A.card * m := by
  rw [← smul_eq_mul]
  apply Finset.sum_le_card_nsmul
  intro x _
  exact Nat.sub_le _ _

theorem Account.keep (h : Account m cap s) (hop : s'.op = s.op) (hlen : s'.blocks.length ≤ s.blocks.length)
    (hin : ∀ t, (s'.pc t).phase = .inside → (s.pc t).phase = .inside)
    (hlogs : ∀ t b, (s'.pc t).logs = some b → (s.pc t).logs = some b ∨ (insert b (s.op t).blocks).card ≤ m) :
    Account m cap s' := by
  constructor
  · intro t b hb
    rw [hop]
    exact (hlogs t b hb).elim (h.logs t b) id
  · intro A hA
    have hroom := h.room A (fun t ht => hin t (hA t ht))
    rw [hop]
    omega

theorem Account.wakeup (h : Account m cap s) : Account m cap s.wakeup := by
  refine h.keep rfl le_rfl ?_ ?_
  · intro t ht
    cases hpc : s.pc t with
    | sleeps => simp [State.wakeup, hpc, Pc.wake, Pc.phase] at ht
    | _ => simpa [State.wakeup, hpc, Pc.wake] using ht
  · intro t b hb
    cases hpc : s.pc t with
    | sleeps => simp [State.wakeup, hpc, Pc.wake, Pc.logs] at hb
    | _ => exact .inl (by simpa [State.wakeup, hpc, Pc.wake] using hb)

end

section

variable [DecidableEq Thread] {s s' : State Thread} {t : Thread} {e : Event Thread}
    {m cap b size : ℕ} {A : Finset Thread}
  {op : Thread → Op} {o : Op}

theorem sum_update (ht : t ∉ A) : ∑ x ∈ A, unused m (update op t o) x = ∑ x ∈ A, unused m op x := by
  apply Finset.sum_congr rfl
  intro x hx
  have hne : x ≠ t := fun h => ht (h ▸ hx)
  rw [unused, unused, update_of_ne hne]

theorem sum_update_add (ht : t ∈ A) :
    ∑ x ∈ A, unused m (update op t o) x = m - o.blocks.card + ∑ x ∈ A.erase t, unused m op x := by
  rw [← Finset.add_sum_erase A _ ht, sum_update (Finset.notMem_erase t A), unused, update_self]

theorem Account.goto (h : Account m cap s) {p : Pc} (hin : p.phase = .inside → (s.pc t).phase = .inside)
    (hlogs : ∀ b, p.logs = some b → (s.pc t).logs = some b ∨ (insert b (s.op t).blocks).card ≤ m) :
    Account m cap (s.goto t p) := by
  refine h.keep rfl le_rfl ?_ ?_
  · intro t' ht'
    simp only [State.goto] at ht'
    by_cases htt : t' = t
    · subst htt
      rw [update_self] at ht'
      exact hin ht'
    · rwa [update_of_ne htt] at ht'
  · intro t' b hb
    simp only [State.goto] at hb
    by_cases htt : t' = t
    · subst htt
      rw [update_self] at hb
      exact hlogs b hb
    · rw [update_of_ne htt] at hb
      exact .inl hb

theorem Account.beginOp (h : Account m cap s) (hs : Sound s) (ht : s.pc t = .beginOp)
    (hreserve : ∀ n k, n + (k + 1) * MAXOPBLOCKS ≤ LOGSIZE → (k = 0 → n = 0) → n + (k + 1) * m ≤ cap) :
    Account m cap (beginOp s t) := by
  unfold LogOps.beginOp
  have hsleeps : Account m cap (s.goto t .sleeps) := h.goto (by simp [Pc.phase]) (by simp [Pc.logs])
  split_ifs with hcommitting hfull
  · exact hsleeps
  · exact hsleeps
  have hgoto : ∀ x, x ≠ t → (update s.pc t .op) x = s.pc x := fun x hx => update_of_ne hx _ _
  constructor
  · intro t' b hb
    simp only [State.goto] at hb ⊢
    by_cases htt : t' = t
    · subst htt
      simp [Pc.logs] at hb
    · rw [hgoto t' htt] at hb
      rw [update_of_ne htt]
      exact h.logs t' b hb
  · intro A hA
    simp only [State.goto] at hA ⊢
    have hold (x : Thread) (hx : x ∈ A.erase t) : (s.pc x).phase = .inside := by
      rw [← hgoto x (Finset.ne_of_mem_erase hx)]
      exact hA x (Finset.mem_of_mem_erase hx)
    by_cases hmem : t ∈ A
    · obtain ⟨B, hB, hout⟩ := hs.outstanding
      have hcard : (A.erase t).card ≤ B.card :=
        Finset.card_le_card (fun x hx => (hB x).mpr (hold x hx))
      have hsum : ∑ x ∈ A.erase t, unused m s.op x ≤ B.card * m := sum_le.trans (Nat.mul_le_mul_right m hcard)
      have hfits := hreserve s.blocks.length B.card (by
        rw [hout] at hfull
        simp only [MAXOPBLOCKS, LOGSIZE] at hfull ⊢
        omega)
        (fun hzero => by
          have hnil := (hs.idle (by simpa using hcommitting)).2 (by omega)
          simp [hnil])
      rw [sum_update_add hmem, Finset.card_empty]
      rw [Nat.add_mul] at hfits
      omega
    · rw [sum_update hmem]
      rw [Finset.erase_eq_of_notMem hmem] at hold
      exact h.room A hold

theorem Account.logWriteLocked (h : Account m cap s) (hs : Sound s)
    (ht : s.pc t = .logWriteLocked b) (hcap : cap ≤ LOGSIZE) :
    Account m cap (logWriteLocked s t b) ∧ (logWriteLocked s t b).stopped = s.stopped := by
  have hin : (s.pc t).phase = .inside := by
    rw [ht]
    rfl
  have hlogs := h.logs t b (by rw [ht]; rfl)
  have hroom (A : Finset Thread) (hA : ∀ x ∈ A, x ≠ t → (s.pc x).phase = .inside) :
      s.blocks.length + (unused m s.op t + ∑ x ∈ A.erase t, unused m s.op x) ≤ cap := by
    rw [← Finset.sum_insert (Finset.notMem_erase t A)]
    apply h.room
    intro x hx
    obtain rfl | hx := Finset.mem_insert.mp hx
    · exact hin
    · exact hA x (Finset.mem_of_mem_erase hx) (Finset.ne_of_mem_erase hx)
  -- A block that is new to the log is new to the operation, which then has one block less to log.
  have hless : (absorb s.blocks b).length + (m - (insert b (s.op t).blocks).card) ≤
      s.blocks.length + unused m s.op t := by
    unfold absorb unused
    split_ifs with hmem
    · have hle := Finset.card_le_card (Finset.subset_insert b (s.op t).blocks)
      omega
    · have hnew : b ∉ (s.op t).blocks := fun hb => hmem ((hs.began t hin).2 b hb)
      rw [Finset.card_insert_of_notMem hnew] at hlogs ⊢
      rw [List.length_append, List.length_singleton]
      omega
  have hfull : ¬(b ∉ s.blocks ∧ s.blocks.length ≥ LOGSIZE) := by
    rintro ⟨hmem, hfull⟩
    have hone := hroom ∅ (fun x hx => absurd hx (Finset.notMem_empty x))
    have habsorb : (absorb s.blocks b).length = s.blocks.length + 1 := by
      rw [absorb, if_neg hmem, List.length_append, List.length_singleton]
    omega
  unfold LogOps.logWriteLocked
  rw [if_neg hfull]
  refine ⟨⟨?_, ?_⟩, rfl⟩
  · intro t' x hx
    simp only [State.goto] at hx ⊢
    by_cases htt : t' = t
    · subst htt
      simp [Pc.logs] at hx
    · rw [update_of_ne htt] at hx ⊢
      exact h.logs t' x hx
  · intro A hA
    have hsum := hroom A (fun x hx hne => by
      have hx := hA x hx
      simp only [State.goto] at hx
      rwa [update_of_ne hne] at hx)
    by_cases hmem : t ∈ A
    · simp only [sum_update_add hmem]
      omega
    · simp only
      rw [sum_update hmem]
      rw [Finset.erase_eq_of_notMem hmem] at hsum
      omega

theorem Account.endOp (h : Account m cap s) (hs : Sound s) (ht : s.pc t = .endOp) : Account m cap (endOp s t) := by
  have hfalse := (hs.inside (t := t) (by rw [ht]; rfl)).2.1
  unfold LogOps.endOp
  rw [if_neg (by simp [hfalse])]
  have hshared : Account m cap { s with
      outstanding := s.outstanding - 1
      ended := s.ended ++ [⟨s.op t, s.commits.length⟩] } := h.keep rfl le_rfl (fun _ => id) (fun _ _ => .inl)
  simp only
  split_ifs
  · have hgoto := hshared.goto (t := t) (p := .commit .start) (by simp [Pc.phase]) (by simp [Pc.logs])
    exact hgoto.keep rfl le_rfl (fun _ => id) (fun _ _ => .inl)
  · exact hshared.wakeup.goto (by simp [Pc.phase]) (by simp [Pc.logs])

theorem Account.commit (h : Account m cap s) (pc : CommitPc) : Account m cap (commit s t pc) := by
  unfold LogOps.commit
  split
  · rename_i pc' blocks current hturn
    have hgoto : Account m cap (s.goto t (.commit pc')) := h.goto (by simp [Pc.phase]) (by simp [Pc.logs])
    refine hgoto.keep rfl ?_ (fun _ => id) (fun _ _ => .inl)
    obtain ⟨rfl, -⟩ | ⟨-, rfl⟩ | ⟨-, rfl, -⟩ := turn_lists hturn
    · exact le_rfl
    · exact le_rfl
    · exact Nat.zero_le _
  · have hshared : Account m cap { s with
        committing := false
        commits := s.commits ++ [s.current]
        current := .empty } := h.keep rfl le_rfl (fun _ => id) (fun _ _ => .inl)
    exact hshared.wakeup.goto (by simp [Pc.phase]) (by simp [Pc.logs])

theorem beginOp_stopped : (beginOp s t).stopped = s.stopped := by
  unfold beginOp
  split_ifs <;> rfl

theorem commit_stopped {pc : CommitPc} : (commit s t pc).stopped = s.stopped := by
  unfold commit
  split <;> rfl

theorem endOp_stopped (hs : Sound s) (ht : s.pc t = .endOp) : (endOp s t).stopped = s.stopped := by
  have hfalse := (hs.inside (t := t) (by rw [ht]; rfl)).2.1
  unfold endOp
  rw [if_neg (by simp [hfalse])]
  simp only
  split_ifs <;> rfl

theorem account_step (h : Account m cap s) (hs : Sound s) (hcap : cap ≤ LOGSIZE)
    (hreserve : ∀ n k, n + (k + 1) * MAXOPBLOCKS ≤ LOGSIZE → (k = 0 → n = 0) → n + (k + 1) * m ≤ cap)
    (hwithin : Within m s e) (hstep : step size s e = some s') :
    Account m cap s' ∧ (s'.stopped = none ∨ s'.stopped = some .tooBig ∧
      ∃ t b, s.pc t = .logWrite b ∧ (s.blocks.length ≥ LOGSIZE ∨ (s.blocks.length : ℤ) ≥ size - 1)) := by
  unfold step at hstep
  rw [Option.ite_none_left_eq_some] at hstep
  obtain ⟨hnone, hstep⟩ := hstep
  have hnone : s.stopped = none := by simpa using hnone
  cases e with
  | beginOp t =>
    simp only at hstep
    split at hstep
    · cases hstep
      exact ⟨h.goto (by simp [Pc.phase]) (by simp [Pc.logs]), .inl hnone⟩
    · cases hstep
  | logWrite t b =>
    simp only at hstep
    split at hstep
    · rename_i ht
      cases hstep
      refine ⟨h.goto (fun _ => by rw [ht]; rfl) (fun x hx => ?_), .inl hnone⟩
      cases hx
      exact .inr hwithin
    · cases hstep
  | endOp t =>
    simp only at hstep
    split at hstep
    · rename_i ht
      cases hstep
      exact ⟨h.goto (fun _ => by rw [ht]; rfl) (by simp [Pc.logs]), .inl hnone⟩
    · cases hstep
  | run t =>
    simp only [run] at hstep
    split at hstep
    · rename_i ht
      cases hstep
      exact ⟨h.beginOp hs ht hreserve, .inl (beginOp_stopped.trans hnone)⟩
    · rename_i b ht
      split_ifs at hstep with hfull
      · cases hstep
        exact ⟨h.keep rfl le_rfl (fun _ => id) (fun _ _ => .inl), .inr ⟨rfl, t, b, ht, hfull⟩⟩
      · cases hstep
        exact ⟨h.goto (fun _ => by rw [ht]; rfl) (fun x hx => .inl (by rw [ht]; exact hx)), .inl hnone⟩
    · rename_i b ht
      have hout := (hs.inside (t := t) (by rw [ht]; rfl)).1
      rw [if_neg (by omega)] at hstep
      cases hstep
      exact ⟨h.goto (fun _ => by rw [ht]; rfl) (fun x hx => .inl (by rw [ht]; exact hx)), .inl hnone⟩
    · rename_i b ht
      cases hstep
      obtain ⟨haccount, hstopped⟩ := h.logWriteLocked hs ht hcap
      exact ⟨haccount, .inl (hstopped.trans hnone)⟩
    · rename_i ht
      cases hstep
      exact ⟨h.endOp hs ht, .inl ((endOp_stopped hs ht).trans hnone)⟩
    · rename_i pc ht
      cases hstep
      exact ⟨h.commit pc, .inl (commit_stopped.trans hnone)⟩
    · cases hstep

end

section

variable [DecidableEq Thread]

theorem group_commit (size : ℕ) :
    (∀ s : State Thread, Reaches (step size) Always boot s →
      (∀ t pc, s.pc t = .commit pc → s.outstanding = 0 ∧ ∀ t', (s.pc t').phase ≠ .inside) ∧
      (∀ t, (s.pc t).phase = .inside → (s.op t).began = s.commits.length) ∧
      (∀ o ∈ s.ended, o.began = o.ended ∧
        (o.ended = s.commits.length ∧ (∀ b ∈ o.blocks, b ∈ s.blocks ∨ b ∈ s.current.head) ∨
          ∃ c, s.commits[o.ended]? = some c ∧ ∀ b ∈ o.blocks, b ∈ c.head)) ∧
      (∀ c ∈ s.commits, c.copied = c.head ∧ c.installed = c.head) ∧
      s.blocks.Nodup ∧ s.stopped ≠ some .committing) ∧
    ∀ s : State Thread, Reaches (step size) (Within MAXOPBLOCKS) boot s →
      ∀ A : Finset Thread, (∀ t ∈ A, (s.pc t).phase = .inside) →
        s.blocks.length + ∑ t ∈ A, (MAXOPBLOCKS - (s.op t).blocks.card) ≤ LOGSIZE := by
  constructor
  · intro s hr
    have h := hr.invariant sound_step boot_sound
    refine ⟨fun t pc ht => ?_, fun t ht => (h.began t ht).1, h.ended, h.commits, h.nodup, h.stopped.1⟩
    have htrue := (h.committing t pc ht).1
    exact ⟨h.busy htrue, fun t' => h.none_inside htrue⟩
  · intro s hr
    have hkept : Preserves (step size) (Within MAXOPBLOCKS)
        (fun s : State Thread => Sound s ∧ Account MAXOPBLOCKS LOGSIZE s) := by
      intro s e s' ⟨hs, h⟩ hwithin hstep
      exact ⟨sound_step s e s' hs trivial hstep, (account_step h hs le_rfl (fun n k hle _ => hle) hwithin hstep).1⟩
    exact (hr.invariant hkept ⟨boot_sound, boot_account⟩).2.room

end

def logs (t b : ℕ) : List (Event ℕ) := [.logWrite t b, .run t, .run t, .run t]

def twoOps : List (Event ℕ) :=
  [.beginOp 0, .run 0] ++ logs 0 5 ++ [.beginOp 1, .run 1] ++ logs 1 6 ++ logs 0 6 ++
  [.endOp 0, .run 0] ++ logs 1 7 ++
    [.endOp 1, .run 1] ++ List.replicate 13 (.run 1)

theorem group_commit_twoOps : ∃ s : State ℕ, Reaches (step LOGSIZE) (Within MAXOPBLOCKS) boot s ∧
    s.commits.map Commit.head = [[5, 6, 7]] ∧ s.ended.map (fun o => o.blocks) = [{5, 6}, {6, 7}] ∧
    (∀ o ∈ s.ended, o.began = o.ended) ∧ ∀ A : Finset ℕ, (∀ t ∈ A, (s.pc t).phase = .inside) →
      s.blocks.length + ∑ t ∈ A, (MAXOPBLOCKS - (s.op t).blocks.card) ≤ LOGSIZE := by
  have hr : Reaches (step LOGSIZE) (Within MAXOPBLOCKS) (boot : State ℕ) _ :=
    exec_get_reaches _ twoOps (by decide +kernel)
  obtain ⟨hgroups, hroom⟩ := @group_commit ℕ _ LOGSIZE
  obtain ⟨-, -, hended, -⟩ := hgroups _ (hr.mono fun _ _ _ => trivial)
  exact ⟨_, hr, by decide +kernel, by decide +kernel, fun o ho => (hended o ho).1, hroom _ hr⟩

def nlog : ℕ := LOGSIZE

section

variable [DecidableEq Thread]

theorem operations_fit (s : State Thread) (hr : Reaches (step nlog) (Within (MAXOPBLOCKS - 1)) boot s) :
    s.stopped ≠ some .tooBig := by
  -- The last operation admitted found 10 blocks free for each one outstanding, or an empty log.
  have hreserve (n k : ℕ) (hle : n + (k + 1) * MAXOPBLOCKS ≤ LOGSIZE) (hfirst : k = 0 → n = 0) :
      n + (k + 1) * (MAXOPBLOCKS - 1) ≤ LOGSIZE - 2 := by
    simp only [MAXOPBLOCKS, LOGSIZE] at hle ⊢
    omega
  have hkept : Preserves (step nlog) (Within (MAXOPBLOCKS - 1)) (fun s : State Thread =>
      Sound s ∧ Account (MAXOPBLOCKS - 1) (LOGSIZE - 2) s ∧ s.stopped ≠ some .tooBig) := by
    intro s e s' ⟨hs, h, _⟩ hwithin hstep
    obtain ⟨haccount, hstopped⟩ := account_step h hs (by decide) hreserve hwithin hstep
    refine ⟨sound_step s e s' hs trivial hstep, haccount, ?_⟩
    obtain hnone | ⟨-, t, b, ht, hfull⟩ := hstopped
    · simp [hnone]
    · have hroom := h.room {t} (fun x hx => by rw [Finset.mem_singleton.mp hx, ht]; rfl)
      simp only [nlog, LOGSIZE, MAXOPBLOCKS] at hfull hroom
      omega
  exact (hr.invariant hkept ⟨boot_sound, boot_account, by simp [boot]⟩).2.2

end

def opLogs (n t : ℕ) : List (Event ℕ) := (List.range n).flatMap fun i => logs t (100 * t + i)

def threeOps (n : ℕ) : List (Event ℕ) :=
  [.beginOp 0, .beginOp 1, .beginOp 2, .run 0, .run 1, .run 2] ++ opLogs n 0 ++ opLogs n 1 ++ opLogs 9 2

theorem operations_fit_threeOps : ∃ s : State ℕ, Reaches (step nlog) (Within (MAXOPBLOCKS - 1)) boot s ∧
    s.outstanding = 3 ∧ s.blocks.length = 27 ∧ s.stopped ≠ some .tooBig := by
  have hr : Reaches (step nlog) (Within (MAXOPBLOCKS - 1)) (boot : State ℕ) _ :=
    exec_get_reaches _ (threeOps 9) (by decide +kernel)
  exact ⟨_, hr, by decide +kernel, by decide +kernel, operations_fit _ hr⟩

theorem operations_fit_fails : ∃ s : State ℕ, Reaches (step nlog) (Within MAXOPBLOCKS) boot s ∧
    s.stopped = some .tooBig := by
  have hr : Reaches (step nlog) (Within MAXOPBLOCKS) (boot : State ℕ) _ :=
    exec_get_reaches _ (threeOps 10 ++ [.logWrite 2 300, .run 2]) (by decide +kernel)
  exact ⟨_, hr, by decide +kernel⟩

end Xv6.LogOps
