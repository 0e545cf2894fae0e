import Xv6.UserCalls

namespace Xv6.Memory

open Xv6.Runs Function

variable {Thread : Type} [DecidableEq Thread]

def onlyGrows : Event Thread → Bool
  | .sbrk _ n => 0 < n
  | .exec _ _ => false
  | _ => true

def outdated (s : State Thread) : Event Thread → Bool
  | .grow t _ =>
    match s.pc t with
    | .growproc _ addr => addr ≠ s.sz
    | _ => false
  | _ => false

def SbrkTurn (s : State Thread) (e : Event Thread) : Prop := onlyGrows e ∧ outdated s e = false

instance (s : State Thread) (e : Event Thread) : Decidable (SbrkTurn s e) := inferInstanceAs (Decidable (_ ∧ _))

def Range.Apart (r r' : Range) : Prop := ∀ a, ¬ (r.contains a ∧ r'.contains a)

theorem Range.apart_iff (r r' : Range) :
    (r.size = 0 ∨ r'.size = 0 ∨ r.start + r.size ≤ r'.start ∨ r'.start + r'.size ≤ r.start) ↔ r.Apart r' := by
  simp only [Range.Apart, Range.contains]
  constructor
  · omega
  · intro h
    have hstart := h (max r.start r'.start)
    omega

instance (r r' : Range) : Decidable (r.Apart r') := decidable_of_iff _ (r.apart_iff r')

structure Handed (sz₀ : ℕ) (s : State Thread) : Prop where
  typed : Typed s
  start : sz₀ ≤ s.sz
  sbrk : ∀ t n, s.pc t = .sbrk n → 0 < n
  growproc : ∀ t n addr, s.pc t = .growproc n addr → 0 < n
  exec : ∀ t segments, s.pc t ≠ .execPgdir segments ∧ s.pc t ≠ .execSz segments
  apart : s.granted.Pairwise Range.Apart
  union : ∀ a, (∃ r ∈ s.granted, r.contains a) ↔ sz₀ ≤ a ∧ a < s.sz

section

variable {sz₀ : ℕ} {s s' : State Thread} {e : Event Thread} {t : Thread} {pc : Pc}

theorem handed_goto (hi : Handed sz₀ s) (hty : Typed (s.goto t pc))
    (hs : ∀ n, pc = .sbrk n → 0 < n) (hg : ∀ n addr, pc = .growproc n addr → 0 < n)
    (hx : ∀ segments, pc ≠ .execPgdir segments ∧ pc ≠ .execSz segments) : Handed sz₀ (s.goto t pc) := by
  refine ⟨hty, hi.start, fun u n hpc => ?_, fun u n addr hpc => ?_, fun u segments => ?_, hi.apart, hi.union⟩
  · rw [State.goto_pc] at hpc
    by_cases hu : u = t
    · rw [hu, update_self] at hpc
      exact hs n hpc
    · rw [update_of_ne hu] at hpc
      exact hi.sbrk u n hpc
  · rw [State.goto_pc] at hpc
    by_cases hu : u = t
    · rw [hu, update_self] at hpc
      exact hg n addr hpc
    · rw [update_of_ne hu] at hpc
      exact hi.growproc u n addr hpc
  · rw [State.goto_pc]
    by_cases hu : u = t
    · rw [hu, update_self]
      exact hx segments
    · rw [update_of_ne hu]
      exact hi.exec u segments

theorem handed_move (hi : Handed sz₀ s) (hok : onlyGrows e)
    (hm : Moves s e t (s.pc t) pc) : Handed sz₀ (s.goto t pc) := by
  have hty := typed_move hi.typed hm
  generalize hpc : s.pc t = old at hm
  cases hm with
  | asks n _ he =>
    subst he
    refine handed_goto hi hty ?_ (by simp) (by simp)
    rintro _ ⟨⟩
    simpa [onlyGrows] using hok
  | reads n =>
    refine handed_goto hi hty (by simp) ?_ (by simp)
    rintro _ _ ⟨⟩
    exact hi.sbrk t n hpc
  | commits ranges segments he =>
    subst he
    cases hok
  | _ => exact handed_goto hi hty (by simp) (by simp) (by simp)

theorem handed_grows {room : ℕ} {n : ℤ} {g : Grown} (hi : Handed sz₀ s)
    (hpc : s.pc t = .growproc n s.sz) (hg : growproc room s.sz s.pgdir n = some g)
    (hty : Typed (sbrkDone s t n s.sz g)) : Handed sz₀ (sbrkDone s t n s.sz g) := by
  have hn := hi.growproc t n _ hpc
  have hback : Handed sz₀ (s.goto t .user) :=
    handed_goto hi (typed_goto hi.typed (by simp) (by simp) (by simp)) (by simp) (by simp) (by simp)
  obtain ⟨hret, hsz⟩ | ⟨hret, hsz, _⟩ :=
    growproc_grows hi.typed.sz hn (hi.typed.growproc t n _ hpc).2 hg
  · have hgranted : (sbrkDone s t n s.sz g).granted = s.granted := by simp [sbrkDone, hret]
    refine ⟨hty, ?_, hback.sbrk, hback.growproc, hback.exec, ?_, ?_⟩
    · change sz₀ ≤ g.sz
      rw [hsz]
      exact hi.start
    · rw [hgranted]
      exact hi.apart
    · rw [hgranted]
      change ∀ a, _ ↔ sz₀ ≤ a ∧ a < g.sz
      rw [hsz]
      exact hi.union
  · have hgranted : (sbrkDone s t n s.sz g).granted = ⟨s.sz, n.toNat⟩ :: s.granted := by simp [sbrkDone, hret]
    have hstart := hi.start
    refine ⟨hty, ?_, hback.sbrk, hback.growproc, hback.exec, ?_, ?_⟩
    · change sz₀ ≤ g.sz
      omega
    · rw [hgranted]
      refine List.pairwise_cons.mpr ⟨fun r hr a ha => ?_, hi.apart⟩
      have hlow := ((hi.union a).mp ⟨r, hr, ha.2⟩).2
      have hhigh : s.sz ≤ a := ha.1.1
      omega
    · rw [hgranted]
      intro a
      change _ ↔ sz₀ ≤ a ∧ a < g.sz
      simp only [List.mem_cons, exists_eq_or_imp]
      rw [hi.union a]
      simp only [Range.contains]
      omega

theorem handed_step : Preserves (@step Thread _) SbrkTurn (Handed sz₀) := by
  intro s e s' hi hok h
  have hty : Typed s' := typed_step s e s' hi.typed trivial h
  cases step_change h with
  | moves t pc hm hs =>
    rw [hs]
    exact handed_move hi hok.1 hm
  | grows t room n addr g he hpc hg hs =>
    subst he hs
    obtain rfl : addr = s.sz := by simpa [outdated, hpc] using hok.2
    exact handed_grows hi hpc hg hty
  | installs t segments image hpc _ _ => exact absurd hpc (hi.exec t segments).1
  | resizes t segments image hpc _ _ => exact absurd hpc (hi.exec t segments).2

end

structure Settled (s : State Thread) : Prop where
  sz : s.sz ≤ KERNBASE
  pc : ∀ t, s.pc t = .user ∨ s.pc t = .dead ∨ ∃ ranges, s.pc t = .call ranges
  granted : s.granted = []

omit [DecidableEq Thread] in
theorem Settled.handed {s : State Thread} (h : Settled s) : Handed s.sz s where
  typed := typed_of_pc h.sz h.pc
  start := Nat.le_refl _
  sbrk t n hpc := by
    have ht := h.pc t
    simp [hpc] at ht
  growproc t n addr hpc := by
    have ht := h.pc t
    simp [hpc] at ht
  exec t segments := by
    constructor
    all_goals
      intro hpc
      have ht := h.pc t
      simp [hpc] at ht
  apart := by simp [h.granted]
  union a := by
    simp only [h.granted, List.not_mem_nil, false_and, exists_false, false_iff, not_and, Nat.not_lt]
    exact id

theorem sbrk_disjoint (s s' : State Thread) (hs : Settled s) (hr : Reaches step SbrkTurn s s') :
    s'.granted.Pairwise Range.Apart ∧ ∀ a, (∃ r ∈ s'.granted, r.contains a) ↔ s.sz ≤ a ∧ a < s'.sz := by
  have hi := hr.invariant handed_step hs.handed
  exact ⟨hi.apart, hi.union⟩

def twoPages (n : ℕ) : State (Fin n) := ⟨2 * PGSIZE, fun p => p < 2, fun _ => .user, []⟩

theorem twoPages_settled (n : ℕ) : Settled (twoPages n) :=
  ⟨show 2 * PGSIZE ≤ KERNBASE by decide, fun _ => .inl rfl, rfl⟩

def main : Fin 2 := ⟨0, Nat.two_pos⟩

def other : Fin 2 := ⟨1, Nat.one_lt_two⟩

def sbrkTurns : List (Event (Fin 2)) :=
  [.sbrk main 100, .sbrk other 5000, .run other, .grow other 9, .run main, .grow main 9]

theorem sbrk_disjoint_sbrkTurns : ∃ s', Reaches step SbrkTurn (twoPages 2) s' ∧
    s'.granted = [⟨13192, 100⟩, ⟨8192, 5000⟩] ∧ s'.granted.Pairwise Range.Apart :=
  have hr := exec_get_reaches (twoPages 2) sbrkTurns (by decide +kernel)
  ⟨_, hr, by decide +kernel, (sbrk_disjoint _ _ (twoPages_settled 2) hr).1⟩

def raceTurns : List (Event (Fin 2)) :=
  [.sbrk main 100, .sbrk other 5000, .run other, .run main, .grow other 9, .grow main 9]

theorem sbrk_disjoint_fails : ∃ s' : State (Fin 2), Reaches step (fun _ e => onlyGrows e) (twoPages 2) s' ∧
    s'.granted = [⟨8192, 100⟩, ⟨8192, 5000⟩] ∧ s'.sz = 8192 + 5100 ∧ ¬ s'.granted.Pairwise Range.Apart :=
  ⟨_, exec_get_reaches (twoPages 2) raceTurns (by decide +kernel), by decide +kernel, by decide +kernel,
    by decide +kernel⟩

end Xv6.Memory
