import Xv6.UserMemory
import Xv6.Runs

namespace Xv6.Memory

open Xv6.Runs Function

def isInt (n : ℤ) : Prop := -2 ^ 31 ≤ n ∧ n < 2 ^ 31

instance (n : ℤ) : Decidable (isInt n) := inferInstanceAs (Decidable (_ ∧ _))

structure Range where
  start : ℕ
  size : ℕ
  deriving DecidableEq, Repr

def Range.contains (r : Range) (a : ℕ) : Prop := r.start ≤ a ∧ a < r.start + r.size

/-- A thread in `sbrk`, between its read of `sz` and `growproc`; in another system call with the user
ranges that it may access; in `argptr` or `fetchstr` between two reads of `sz`; or between the stores of
`exec`. -/
inductive Pc where
  | dead
  | user
  | sbrk (n : ℤ)
  | growproc (n : ℤ) (addr : ℕ)
  | call (ranges : List Range)
  | argptr (ranges : List Range) (i : ℕ) (size : ℤ)
  | fetchstr (ranges : List Range) (addr : ℕ)
  | scan (ranges : List Range) (addr ep : ℕ)
  | execPgdir (segments : List ℕ)
  | execSz (segments : List ℕ)
  deriving DecidableEq, Repr

def Pc.ranges : Pc → List Range
  | .call ranges | .argptr ranges _ _ | .fetchstr ranges _ => ranges
  | .scan ranges addr ep => if addr < ep then ⟨addr, ep - addr⟩ :: ranges else ranges
  | _ => []

variable {Thread : Type} [DecidableEq Thread]

/-- One process. `granted` is not read by the code: it follows the calls of `sbrk` that succeed. -/
structure State (Thread : Type) where
  sz : ℕ
  pgdir : Pgdir
  pc : Thread → Pc
  granted : List Range

@[simps]
def State.goto (s : State Thread) (t : Thread) (pc : Pc) : State Thread :=
  { s with pc := Function.update s.pc t pc }

inductive Event (Thread : Type) where
  | sbrk (t : Thread) (n : ℤ)
  | grow (t : Thread) (room : ℕ)
  | syscall (t : Thread)
  | argptr (t : Thread) (i : ℕ) (size : ℤ)
  | argstr (t : Thread) (addr : ℕ)
  | found (t : Thread) (len : ℕ)
  | exec (t : Thread) (segments : List ℕ)
  | run (t : Thread)
  | fail (t : Thread)
  | finish (t : Thread)
  | create (t u : Thread)
  | exit (t : Thread)
  deriving DecidableEq, Repr

def allPages : ℕ := KERNBASE / PGSIZE

def sbrkDone (s : State Thread) (t : Thread) (n : ℤ) (addr : ℕ) (g : Grown) : State Thread :=
  { s.goto t .user with
    sz := g.sz
    pgdir := g.pgdir
    granted := if g.ret < 0 then s.granted else ⟨addr, n.toNat⟩ :: s.granted }

def run (s : State Thread) (t : Thread) : Option (State Thread) :=
  match s.pc t with
  | .sbrk n => some (s.goto t (.growproc n s.sz))
  | .argptr ranges i size =>
    some (s.goto t (if uint (i + size) > s.sz then .user else .call (⟨i, size.toNat⟩ :: ranges)))
  | .fetchstr ranges addr => some (s.goto t (.scan ranges addr s.sz))
  | .execPgdir segments =>
    (execImage allPages segments).map fun image => { s.goto t (.execSz segments) with pgdir := image.2 }
  | .execSz segments => (execImage allPages segments).map fun image => { s.goto t (.call []) with sz := image.1 }
  | _ => none

def step (s : State Thread) : Event Thread → Option (State Thread)
  | .sbrk t n => if s.pc t = .user ∧ isInt n then some (s.goto t (.sbrk n)) else none
  | .grow t room =>
    match s.pc t with
    | .growproc n addr => (growproc room s.sz s.pgdir n).map (sbrkDone s t n addr)
    | _ => none
  | .syscall t => if s.pc t = .user then some (s.goto t (.call [])) else none
  | .argptr t i size =>
    match s.pc t with
    | .call ranges =>
      if isInt size then some (s.goto t (if size < 0 ∨ i ≥ s.sz then .user else .argptr ranges i size)) else none
    | _ => none
  | .argstr t addr =>
    match s.pc t with
    | .call ranges => some (s.goto t (if addr ≥ s.sz then .user else .fetchstr ranges addr))
    | _ => none
  | .found t len =>
    match s.pc t with
    | .scan ranges addr ep => if addr + len < ep then some (s.goto t (.call (⟨addr, len + 1⟩ :: ranges))) else none
    | _ => none
  | .exec t segments =>
    match s.pc t with
    | .call _ => if (execImage allPages segments).isSome then some (s.goto t (.execPgdir segments)) else none
    | _ => none
  | .run t => run s t
  | .fail t =>
    match s.pc t with
    | .scan _ _ _ => some (s.goto t .user)
    | _ => none
  | .finish t =>
    match s.pc t with
    | .call _ => some (s.goto t .user)
    | _ => none
  | .create t u =>
    match s.pc t with
    | .call _ => if s.pc u = .dead then some (s.goto u .user) else none
    | _ => none
  | .exit t =>
    match s.pc t with
    | .call _ => some (s.goto t .dead)
    | _ => none

inductive Moves (s : State Thread) (e : Event Thread) (t : Thread) : Pc → Pc → Prop
  | asks (n : ℤ) (hn : isInt n) (he : e = .sbrk t n) : Moves s e t .user (.sbrk n)
  | reads (n : ℤ) : Moves s e t (.sbrk n) (.growproc n s.sz)
  | enters : Moves s e t .user (.call [])
  | tests (ranges : List Range) (i : ℕ) (size : ℤ) (hi : i < s.sz) (h0 : 0 ≤ size) (hn : isInt size) :
    Moves s e t (.call ranges) (.argptr ranges i size)
  | accepts (ranges : List Range) (i : ℕ) (size : ℤ) (h : uint (i + size) ≤ s.sz) :
    Moves s e t (.argptr ranges i size) (.call (⟨i, size.toNat⟩ :: ranges))
  | string (ranges : List Range) (addr : ℕ) : Moves s e t (.call ranges) (.fetchstr ranges addr)
  | limit (ranges : List Range) (addr : ℕ) : Moves s e t (.fetchstr ranges addr) (.scan ranges addr s.sz)
  | found (ranges : List Range) (addr ep len : ℕ) (h : addr + len < ep) :
    Moves s e t (.scan ranges addr ep) (.call (⟨addr, len + 1⟩ :: ranges))
  | commits (ranges : List Range) (segments : List ℕ) (he : e = .exec t segments) :
    Moves s e t (.call ranges) (.execPgdir segments)
  | leaves (pc : Pc) (hpc : ∀ segments, pc ≠ .execPgdir segments ∧ pc ≠ .execSz segments)
    (hd : pc = .dead → ∃ u ranges, s.pc u = .call ranges) : Moves s e t pc .user
  | exits (ranges : List Range) : Moves s e t (.call ranges) .dead

inductive Change (s s' : State Thread) (e : Event Thread) : Prop
  | moves (t : Thread) (pc : Pc) (hm : Moves s e t (s.pc t) pc) (h : s' = s.goto t pc) : Change s s' e
  | grows (t : Thread) (room : ℕ) (n : ℤ) (addr : ℕ) (g : Grown) (he : e = .grow t room)
    (hpc : s.pc t = .growproc n addr) (hg : growproc room s.sz s.pgdir n = some g)
    (h : s' = sbrkDone s t n addr g) : Change s s' e
  | installs (t : Thread) (segments : List ℕ) (image : ℕ × Pgdir) (hpc : s.pc t = .execPgdir segments)
    (hi : execImage allPages segments = some image)
    (h : s' = { s.goto t (.execSz segments) with pgdir := image.2 }) : Change s s' e
  | resizes (t : Thread) (segments : List ℕ) (image : ℕ × Pgdir) (hpc : s.pc t = .execSz segments)
    (hi : execImage allPages segments = some image) (h : s' = { s.goto t (.call []) with sz := image.1 }) :
    Change s s' e

section

variable {s s' : State Thread} {e : Event Thread} {t : Thread} {pc : Pc}

theorem run_change (h : run s t = some s') : Change s s' (.run t) := by
  unfold run at h
  split at h
  · rename_i n hpc
    cases h
    exact .moves t _ (hpc ▸ .reads n) rfl
  · rename_i ranges i size hpc
    cases h
    split_ifs with hbig
    · exact .moves t _ (.leaves _ (by simp [hpc]) (by simp [hpc])) rfl
    · exact .moves t _ (hpc ▸ .accepts ranges i size (Nat.le_of_not_lt hbig)) rfl
  · rename_i ranges addr hpc
    cases h
    exact .moves t _ (hpc ▸ .limit ranges addr) rfl
  · rename_i segments hpc
    obtain ⟨image, hi, hs⟩ := Option.map_eq_some_iff.mp h
    exact .installs t segments image hpc hi hs.symm
  · rename_i segments hpc
    obtain ⟨image, hi, hs⟩ := Option.map_eq_some_iff.mp h
    exact .resizes t segments image hpc hi hs.symm
  · cases h

theorem step_change (h : step s e = some s') : Change s s' e := by
  cases e with
  | sbrk t n =>
    simp only [step, Option.ite_none_right_eq_some, Option.some.injEq] at h
    obtain ⟨⟨hpc, hn⟩, rfl⟩ := h
    exact .moves t _ (hpc ▸ .asks n hn rfl) rfl
  | grow t room =>
    simp only [step] at h
    split at h
    · rename_i n addr hpc
      obtain ⟨g, hg, hs⟩ := Option.map_eq_some_iff.mp h
      exact .grows t room n addr g rfl hpc hg hs.symm
    · cases h
  | syscall t =>
    simp only [step, Option.ite_none_right_eq_some, Option.some.injEq] at h
    obtain ⟨hpc, rfl⟩ := h
    exact .moves t _ (hpc ▸ .enters) rfl
  | argptr t i size =>
    simp only [step] at h
    split at h
    · rename_i ranges hpc
      simp only [Option.ite_none_right_eq_some, Option.some.injEq] at h
      obtain ⟨hint, rfl⟩ := h
      split_ifs with hbad
      · exact .moves t _ (.leaves _ (by simp [hpc]) (by simp [hpc])) rfl
      · obtain ⟨h0, hi⟩ := not_or.mp hbad
        exact .moves t _ (hpc ▸ .tests ranges i size (by omega) (by omega) hint) rfl
    · cases h
  | argstr t addr =>
    simp only [step] at h
    split at h
    · rename_i ranges hpc
      cases h
      split_ifs
      · exact .moves t _ (.leaves _ (by simp [hpc]) (by simp [hpc])) rfl
      · exact .moves t _ (hpc ▸ .string ranges addr) rfl
    · cases h
  | found t len =>
    simp only [step] at h
    split at h
    · rename_i ranges addr ep hpc
      simp only [Option.ite_none_right_eq_some, Option.some.injEq] at h
      obtain ⟨hlen, rfl⟩ := h
      exact .moves t _ (hpc ▸ .found ranges addr ep len hlen) rfl
    · cases h
  | exec t segments =>
    simp only [step] at h
    split at h
    · rename_i ranges hpc
      simp only [Option.ite_none_right_eq_some, Option.some.injEq] at h
      obtain ⟨_, rfl⟩ := h
      exact .moves t _ (hpc ▸ .commits ranges segments rfl) rfl
    · cases h
  | run t => exact run_change h
  | fail t =>
    simp only [step] at h
    split at h
    · rename_i hpc
      cases h
      exact .moves t _ (.leaves _ (by simp [hpc]) (by simp [hpc])) rfl
    · cases h
  | finish t =>
    simp only [step] at h
    split at h
    · rename_i hpc
      cases h
      exact .moves t _ (.leaves _ (by simp [hpc]) (by simp [hpc])) rfl
    · cases h
  | create t u =>
    simp only [step] at h
    split at h
    · rename_i ranges hpc
      simp only [Option.ite_none_right_eq_some, Option.some.injEq] at h
      obtain ⟨hdead, rfl⟩ := h
      exact .moves u _ (.leaves _ (by simp [hdead]) (fun _ => ⟨t, ranges, hpc⟩)) rfl
    · cases h
  | exit t =>
    simp only [step] at h
    split at h
    · rename_i ranges hpc
      cases h
      exact .moves t _ (hpc ▸ .exits ranges) rfl
    · cases h

structure Typed (s : State Thread) : Prop where
  sz : s.sz ≤ KERNBASE
  sbrk : ∀ t n, s.pc t = .sbrk n → isInt n
  growproc : ∀ t n addr, s.pc t = .growproc n addr → isInt n
  argptr : ∀ t ranges i size, s.pc t = .argptr ranges i size → i < KERNBASE ∧ 0 ≤ size ∧ isInt size

omit [DecidableEq Thread] in
theorem typed_of_pc (hsz : s.sz ≤ KERNBASE) (h : ∀ t, s.pc t = .user ∨ s.pc t = .dead ∨
    ∃ ranges, s.pc t = .call ranges) :
    Typed s := by
  refine ⟨hsz, fun t n hpc => ?_, fun t n addr hpc => ?_, fun t ranges i size hpc => ?_⟩
  all_goals
    have ht := h t
    simp [hpc] at ht

theorem typed_goto (hi : Typed s) (hs : ∀ n, pc = .sbrk n → isInt n)
    (hg : ∀ n addr, pc = .growproc n addr → isInt n)
    (ha : ∀ ranges i size, pc = .argptr ranges i size → i < KERNBASE ∧ 0 ≤ size ∧ isInt size) :
    Typed (s.goto t pc) := by
  refine ⟨hi.sz, fun u n hpc => ?_, fun u n addr hpc => ?_, fun u ranges i size hpc => ?_⟩
  all_goals
    rw [State.goto_pc] at hpc
    by_cases hu : u = t
  · rw [hu, update_self] at hpc
    exact hs n hpc
  · rw [update_of_ne hu] at hpc
    exact hi.sbrk u n hpc
  · rw [hu, update_self] at hpc
    exact hg n addr hpc
  · rw [update_of_ne hu] at hpc
    exact hi.growproc u n addr hpc
  · rw [hu, update_self] at hpc
    exact ha ranges i size hpc
  · rw [update_of_ne hu] at hpc
    exact hi.argptr u ranges i size hpc

theorem typed_move (hi : Typed s) (hm : Moves s e t (s.pc t) pc) : Typed (s.goto t pc) := by
  generalize hpc : s.pc t = old at hm
  cases hm with
  | asks n hn _ => exact typed_goto hi (by rintro _ ⟨⟩; exact hn) (by simp) (by simp)
  | reads n => exact typed_goto hi (by simp) (by rintro _ _ ⟨⟩; exact hi.sbrk t n hpc) (by simp)
  | tests ranges i size hlt h0 hn =>
    refine typed_goto hi (by simp) (by simp) ?_
    rintro _ _ _ ⟨⟩
    exact ⟨Nat.lt_of_lt_of_le hlt hi.sz, h0, hn⟩
  | _ => exact typed_goto hi (by simp) (by simp) (by simp)

theorem typed_step : Preserves (@step Thread _) Always Typed := by
  intro s e s' hi _ h
  cases step_change h with
  | moves t pc hm hs =>
    rw [hs]
    exact typed_move hi hm
  | grows t room n addr g _ hpc hg hs =>
    rw [hs]
    have ht : Typed (s.goto t .user) := typed_goto hi (by simp) (by simp) (by simp)
    exact ⟨growproc_bound hi.sz hg, ht.sbrk, ht.growproc, ht.argptr⟩
  | installs t segments image hpc himage hs =>
    rw [hs]
    have ht : Typed (s.goto t (.execSz segments)) := typed_goto hi (by simp) (by simp) (by simp)
    exact ⟨hi.sz, ht.sbrk, ht.growproc, ht.argptr⟩
  | resizes t segments image hpc himage hs =>
    rw [hs]
    have ht : Typed (s.goto t (.call [])) := typed_goto hi (by simp) (by simp) (by simp)
    exact ⟨(execImage_mapped himage).1, ht.sbrk, ht.growproc, ht.argptr⟩

end

end Xv6.Memory
