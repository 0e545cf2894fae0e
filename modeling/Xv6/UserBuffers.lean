import Xv6.SbrkRanges
import Mathlib.Data.Fintype.Basic

namespace Xv6.Memory

open Xv6.Runs

variable {Thread : Type} [DecidableEq Thread]

/-- `growproc` makes the process smaller than a range that a system call may access, or takes its last
page (and then reports a failure). -/
def Cuts (s : State Thread) (n : ℤ) : Prop :=
  n < 0 ∧ uint (s.sz + n) < s.sz ∧ (uint (s.sz + n) = 0 ∨ ∃ t, ∃ r ∈ (s.pc t).ranges,
    uint (s.sz + n) < r.start + r.size)

def Pc.growth : Pc → Option ℤ
  | .growproc n _ => some n
  | _ => none

def BufferTurn (s : State Thread) : Event Thread → Prop
  | .grow t _ => ∀ n ∈ (s.pc t).growth, ¬ Cuts s n
  | .exec t _ => ∀ u, u ≠ t → s.pc u = .dead
  | _ => True

instance [Fintype Thread] (s : State Thread) (n : ℤ) : Decidable (Cuts s n) := inferInstanceAs (Decidable (_ ∧ _))

instance [Fintype Thread] (s : State Thread) : ∀ e, Decidable (BufferTurn s e)
  | .grow t _ => inferInstanceAs (Decidable (∀ n ∈ (s.pc t).growth, ¬ Cuts s n))
  | .exec t _ => inferInstanceAs (Decidable (∀ u, u ≠ t → s.pc u = .dead))
  | .sbrk _ _ | .syscall _ | .argptr _ _ _ | .argstr _ _ | .found _ _ | .run _ | .fail _ | .finish _ | .create _ _
  | .exit _ => inferInstanceAs (Decidable True)

def Pc.committing : Pc → Bool
  | .execPgdir _ | .execSz _ => true
  | _ => false

structure Buffers (s : State Thread) : Prop where
  typed : Typed s
  alone : ∀ t, (s.pc t).committing → ∀ u, u ≠ t → s.pc u = .dead
  mapped : (∀ t segments, s.pc t ≠ .execSz segments) → Mapped s.sz s.pgdir
  image : ∀ t segments, s.pc t = .execSz segments →
    ∃ image, execImage allPages segments = some image ∧ s.pgdir = image.2
  ranges : ∀ t, ∀ r ∈ (s.pc t).ranges, r.start + r.size ≤ s.sz

section

variable {s s' : State Thread} {e : Event Thread} {t : Thread} {pc : Pc}

omit [DecidableEq Thread] in
theorem Buffers.still (hi : Buffers s) (hpc : (s.pc t).committing = false) (hd : s.pc t ≠ .dead) (u : Thread) :
    (s.pc u).committing = false := by
  by_contra hc
  rw [Bool.not_eq_false] at hc
  by_cases hu : t = u
  · rw [hu, hc] at hpc
    cases hpc
  · exact hd (hi.alone u hc t hu)

omit [DecidableEq Thread] in
theorem not_execSz (h : (s.pc t).committing = false) (segments : List ℕ) : s.pc t ≠ .execSz segments := by
  intro hpc
  rw [hpc] at h
  cases h

theorem goto_pc_other {u : Thread} (hu : u ≠ t) : (s.goto t pc).pc u = s.pc u := Function.update_of_ne hu _ _

theorem goto_pc_self : (s.goto t pc).pc t = pc := Function.update_self _ _ _

theorem goto_still (hold : ∀ u, (s.pc u).committing = false) (hnew : pc.committing = false) (u : Thread) :
    ((s.goto t pc).pc u).committing = false := by
  by_cases hu : u = t
  · rw [hu, goto_pc_self]
    exact hnew
  · rw [goto_pc_other hu]
    exact hold u

omit [DecidableEq Thread] in
theorem buffers_of_still (hty : Typed s) (hstill : ∀ u, (s.pc u).committing = false) (hm : Mapped s.sz s.pgdir)
    (hr : ∀ u, ∀ r ∈ (s.pc u).ranges, r.start + r.size ≤ s.sz) : Buffers s := by
  refine ⟨hty, fun u hu => ?_, fun _ => hm, fun u segments hu => ?_, hr⟩
  · rw [hstill u] at hu
    cases hu
  · exact absurd hu (not_execSz (hstill u) segments)

theorem goto_ranges {sz : ℕ} (hnew : ∀ r ∈ pc.ranges, r.start + r.size ≤ sz)
    (hold : ∀ u, ∀ r ∈ (s.pc u).ranges, r.start + r.size ≤ sz) (u : Thread) :
    ∀ r ∈ ((s.goto t pc).pc u).ranges, r.start + r.size ≤ sz := by
  by_cases hu : u = t
  · rw [hu, goto_pc_self]
    exact hnew
  · rw [goto_pc_other hu]
    exact hold u

omit [DecidableEq Thread] in
theorem Moves.ranges {old : Pc} (hi : Buffers s) (hpc : s.pc t = old) (hm : Moves s e t old pc) :
    ∀ r ∈ pc.ranges, r.start + r.size ≤ s.sz := by
  have hr := hi.ranges t
  rw [hpc] at hr
  cases hm with
  | accepts ranges i size h =>
    obtain ⟨hi', h0, hint⟩ := hi.typed.argptr t ranges i size hpc
    have hu : (uint (i + size) : ℤ) = i + size := by
      apply uint_eq
      · omega
      · have hlt := hint.2
        simp only [KERNBASE] at hi'
        omega
    refine List.forall_mem_cons.mpr ⟨?_, hr⟩
    simp only
    omega
  | limit ranges addr =>
    simp only [Pc.ranges]
    split_ifs with hlt
    · refine List.forall_mem_cons.mpr ⟨?_, hr⟩
      simp only
      omega
    · exact hr
  | found ranges addr ep len h =>
    have hlt : addr < ep := by omega
    simp only [Pc.ranges, hlt, ↓reduceIte] at hr
    obtain ⟨hscan, hrest⟩ := List.forall_mem_cons.mp hr
    refine List.forall_mem_cons.mpr ⟨?_, hrest⟩
    simp only at hscan ⊢
    omega
  | tests ranges => exact hr
  | string ranges => exact hr
  | _ => simp [Pc.ranges]

omit [DecidableEq Thread] in
theorem Moves.still {old : Pc} (hi : Buffers s) (hpc : s.pc t = old) (hm : Moves s e t old pc) (u : Thread) :
    (s.pc u).committing = false := by
  have hcall {v : Thread} {ranges : List Range} (h : s.pc v = .call ranges) : (s.pc u).committing = false :=
    hi.still (t := v) (by rw [h]; rfl) (by simp [h]) u
  cases hm with
  | leaves _ hx hd =>
    by_cases hdead : old = .dead
    · obtain ⟨v, ranges, hv⟩ := hd hdead
      exact hcall hv
    · refine hi.still (t := t) ?_ (by rwa [hpc]) u
      rw [hpc]
      cases old with
      | execPgdir segments => exact absurd rfl (hx segments).1
      | execSz segments => exact absurd rfl (hx segments).2
      | _ => rfl
  | _ => exact hi.still (t := t) (by rw [hpc]; rfl) (by simp [hpc]) u

theorem buffers_commits {segments : List ℕ} (hi : Buffers s) (hty : Typed (s.goto t (.execPgdir segments)))
    (hstill : ∀ u, (s.pc u).committing = false) (hothers : ∀ u, u ≠ t → s.pc u = .dead) :
    Buffers (s.goto t (.execPgdir segments)) := by
  refine ⟨hty, fun u hc v hv => ?_, fun _ => ?_, fun u segments' hu => ?_, ?_⟩
  · by_cases hut : u = t
    · rw [hut] at hv
      rw [goto_pc_other hv]
      exact hothers v hv
    · rw [goto_pc_other hut, hstill u] at hc
      cases hc
  · apply hi.mapped
    intro u
    exact not_execSz (hstill u)
  · by_cases hut : u = t
    · simp [hut] at hu
    · rw [goto_pc_other hut] at hu
      exact absurd hu (not_execSz (hstill u) segments')
  · apply goto_ranges _ hi.ranges
    simp [Pc.ranges]

theorem buffers_move (hi : Buffers s) (hok : BufferTurn s e) (hm : Moves s e t (s.pc t) pc) :
    Buffers (s.goto t pc) := by
  have hty := typed_move hi.typed hm
  have hstill := hm.still hi rfl
  have hr := hm.ranges hi rfl
  have hmapped : Mapped s.sz s.pgdir := hi.mapped (fun u => not_execSz (hstill u))
  cases hpc : pc with
  | execPgdir segments =>
    subst hpc
    apply buffers_commits hi hty hstill
    generalize s.pc t = old at hm
    cases hm with
    | commits ranges _ he =>
      subst he
      exact hok
  | execSz segments =>
    subst hpc
    generalize s.pc t = old at hm
    cases hm
  | _ =>
    rw [← hpc]
    exact buffers_of_still hty (goto_still hstill (by rw [hpc]; rfl)) hmapped (goto_ranges hr hi.ranges)

theorem buffers_grows {room : ℕ} {n : ℤ} {addr : ℕ} {g : Grown} (hi : Buffers s) (hpc : s.pc t = .growproc n addr)
    (hok : ¬ Cuts s n) (hg : growproc room s.sz s.pgdir n = some g) (hty : Typed (sbrkDone s t n addr g)) :
    Buffers (sbrkDone s t n addr g) := by
  have hstill := hi.still (t := t) (by rw [hpc]; rfl) (by simp [hpc])
  have hmapped : Mapped s.sz s.pgdir := hi.mapped (fun u => not_execSz (hstill u))
  suffices hnew : Mapped g.sz g.pgdir ∧ ∀ u, ∀ r ∈ (s.pc u).ranges, r.start + r.size ≤ g.sz from
    buffers_of_still hty (goto_still hstill rfl) hnew.1 (goto_ranges (by simp [Pc.ranges]) hnew.2)
  by_cases hn : n < 0
  · have hz : uint (s.sz + n) = 0 → s.sz = 0 := by
      intro h0
      by_contra hne
      exact hok ⟨hn, by omega, .inl h0⟩
    obtain ⟨hsize, hm⟩ := growproc_shrinks hn hmapped hz hg
    refine ⟨hm, fun u r hr => ?_⟩
    obtain hsame | ⟨hsz, hless⟩ := hsize
    · rw [hsame]
      exact hi.ranges u r hr
    · by_contra hcut
      exact hok ⟨hn, hless, .inr ⟨u, r, hr, by omega⟩⟩
  · refine ⟨growproc_mapped (by omega) hmapped hg, fun u r hr => ?_⟩
    have hle := hi.ranges u r hr
    by_cases h0 : n = 0
    · simp only [growproc, h0, lt_self_iff_false, ↓reduceIte, Option.some.injEq] at hg
      rw [← hg]
      exact hle
    · obtain ⟨_, hsz⟩ | ⟨_, hsz, _⟩ :=
        growproc_grows hi.typed.sz (by omega) (hi.typed.growproc t n addr hpc).2 hg <;> omega

theorem buffers_step : Preserves (@step Thread _) BufferTurn Buffers := by
  intro s e s' hi hok h
  have hty : Typed s' := typed_step s e s' hi.typed trivial h
  cases step_change h with
  | moves t pc hm hs =>
    rw [hs]
    exact buffers_move hi hok hm
  | grows t room n addr g he hpc hg hs =>
    subst he hs
    exact buffers_grows hi hpc (hok n (by rw [hpc]; rfl)) hg hty
  | installs t segments image hpc himage hs =>
    subst hs
    have hothers := hi.alone t (by rw [hpc]; rfl)
    refine ⟨hty, fun u hu v hv => ?_, fun hno => absurd goto_pc_self (hno t segments),
      fun u segments' hu => ?_, ?_⟩
    · by_cases hut : u = t
      · rw [hut] at hv
        exact (goto_pc_other hv).trans (hothers v hv)
      · rw [show _ = s.pc u from goto_pc_other hut, hothers u hut] at hu
        cases hu
    · by_cases hut : u = t
      · rw [hut, show _ = Pc.execSz segments from goto_pc_self] at hu
        cases hu
        exact ⟨image, himage, rfl⟩
      · rw [show _ = s.pc u from goto_pc_other hut, hothers u hut] at hu
        cases hu
    · exact goto_ranges (by simp [Pc.ranges]) hi.ranges
  | resizes t segments image hpc himage hs =>
    subst hs
    have hothers := hi.alone t (by rw [hpc]; rfl)
    obtain ⟨image', himage', hpgdir⟩ := hi.image t segments hpc
    obtain rfl : image = image' := Option.some.inj (himage.symm.trans himage')
    have hpcs (u : Thread) : (s.goto t (.call [])).pc u = .dead ∨ (s.goto t (.call [])).pc u = .call [] := by
      by_cases hut : u = t
      · rw [hut, goto_pc_self]
        exact .inr rfl
      · rw [goto_pc_other hut]
        exact .inl (hothers u hut)
    refine buffers_of_still hty (fun u => ?_) ?_ (fun u r hr => ?_)
    · change ((s.goto t (.call [])).pc u).committing = false
      obtain hu | hu := hpcs u <;> rw [hu] <;> rfl
    · change Mapped image.1 s.pgdir
      rw [hpgdir]
      exact (execImage_mapped himage).2
    · change r ∈ ((s.goto t (.call [])).pc u).ranges at hr
      obtain hu | hu := hpcs u <;> rw [hu] at hr <;> cases hr

end

theorem user_buffers_valid (s s' : State Thread) (hs : Settled s) (hidle : ∀ t, (s.pc t).ranges = [])
    (hm : Mapped s.sz s.pgdir) (hr : Reaches step BufferTurn s s') :
    ∀ t, ∀ r ∈ (s'.pc t).ranges, r.start + r.size ≤ s'.sz ∧
      ∀ p, p * PGSIZE < r.start + r.size → r.start < (p + 1) * PGSIZE → s'.pgdir p = true := by
  have hstill (t : Thread) : (s.pc t).committing = false := by
    obtain h | h | ⟨_, h⟩ := hs.pc t <;> rw [h] <;> rfl
  have hstart : Buffers s := buffers_of_still (typed_of_pc hs.sz hs.pc) hstill hm (by simp [hidle])
  have hi := hr.invariant buffers_step hstart
  intro t r hmem
  refine ⟨hi.ranges t r hmem, fun p hp _ => ?_⟩
  have hnone : (s'.pc t).committing = false := by
    cases hpc : s'.pc t <;> simp [hpc, Pc.ranges, Pc.committing] at hmem ⊢
  have hlive : s'.pc t ≠ .dead := by
    intro hd
    rw [hd] at hmem
    cases hmem
  have hmapped := hi.mapped (fun u => not_execSz (hi.still hnone hlive u))
  apply hmapped
  have hle := hi.ranges t r hmem
  omega

def readTurns : List (Event (Fin 2)) := [.syscall main, .argptr main 4096 100, .run main]

def sbrkCall (t : Fin 2) (n : ℤ) : List (Event (Fin 2)) := [.sbrk t n, .run t, .grow t 9]

def bufferTurns : List (Event (Fin 2)) := readTurns ++ sbrkCall other 5000 ++ sbrkCall other (-5000)

theorem user_buffers_valid_bufferTurns : ∃ s', Reaches step BufferTurn (twoPages 2) s' ∧
    (s'.pc main).ranges = [⟨4096, 100⟩] ∧ 4196 ≤ s'.sz ∧ s'.pgdir 1 = true := by
  have hr : Reaches step BufferTurn (twoPages 2) _ := exec_get_reaches _ bufferTurns (by decide +kernel)
  have hmem : ((exec step BufferTurn (twoPages 2) bufferTurns).get (by decide +kernel)).pc main =
      .call [⟨4096, 100⟩] := by decide +kernel
  have hmapped : Mapped (twoPages 2).sz (twoPages 2).pgdir := by
    intro p hp
    simp only [twoPages, PGSIZE, decide_eq_true_eq] at hp ⊢
    omega
  have hvalid := user_buffers_valid _ _ (twoPages_settled 2) (fun _ => rfl) hmapped hr main ⟨4096, 100⟩
    (by rw [hmem]; exact List.mem_singleton_self _)
  exact ⟨_, hr, by rw [hmem]; rfl, hvalid.1, hvalid.2 1 (by decide) (by decide)⟩

theorem user_buffers_fails :
    (∃ s', Reaches step Always (twoPages 2) s' ∧ ∃ r ∈ (s'.pc main).ranges, s'.sz < r.start + r.size) ∧
    (∃ s', Reaches step Always (twoPages 2) s' ∧
      ∃ r ∈ (s'.pc main).ranges, s'.sz < r.start + r.size ∧ s'.pgdir 3 = false) ∧
    ∃ s', Reaches step Always (twoPages 2) s' ∧
      s'.sz = 8192 ∧ ⟨4096, 100⟩ ∈ (s'.pc main).ranges ∧ s'.pgdir 1 = false :=
  ⟨⟨_, exec_get_reaches (twoPages 2) (readTurns ++ sbrkCall other (-4096)) (by decide +kernel), by decide +kernel⟩,
    ⟨_, exec_get_reaches (twoPages 2)
      (sbrkCall main 8192 ++ [.syscall main, .argptr main 12288 100, .run main, .syscall other,
        .exec other [], .run other, .run other]) (by decide +kernel), by decide +kernel⟩,
    ⟨_, exec_get_reaches (twoPages 2) (readTurns ++ sbrkCall other (-8192))
      (by decide +kernel), by decide +kernel⟩⟩

end Xv6.Memory
