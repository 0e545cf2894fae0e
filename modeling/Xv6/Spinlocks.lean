import Mathlib.Data.Nat.Notation
import Xv6.Runs

namespace Xv6.Spinlocks

open Function Runs

structure Spinlock (Cpu : Type) where
  locked : Bool
  cpu : Option Cpu

inductive Pc
  | out
  | xchg
  | record
  | inside
  | erase
  | unlock
  | panic
  deriving DecidableEq

/-- A processor, with FL_IF now (`interrupts`) and as it was when `ncli` was last 0 (`flag`). -/
structure Core where
  ncli : ℕ
  intena : Bool
  interrupts : Bool
  flag : Bool
  pc : Pc

structure State (Cpu : Type) where
  lock : Spinlock Cpu
  core : Cpu → Core

/-- `pushcli` and `popcli` are those of other locks, `setFlag` is `sti`, `cli` or an interrupt. -/
inductive Event
  | acquire
  | release
  | pushcli
  | popcli
  | setFlag (b : Bool)
  | run
  deriving DecidableEq

def Core.pushcli (x : Core) : Core :=
  { x with ncli := x.ncli + 1, intena := if x.ncli = 0 then x.interrupts else x.intena, interrupts := false }

def Core.popcli (x : Core) : Core :=
  if x.interrupts ∨ x.ncli = 0 then { x with pc := .panic }
  else { x with ncli := x.ncli - 1, interrupts := if x.ncli = 1 then x.intena else false }

variable {Cpu : Type} [DecidableEq Cpu]

def holding (lk : Spinlock Cpu) (c : Cpu) (x : Core) : Bool × Core :=
  (lk.locked && lk.cpu = some c, x.pushcli.popcli)

def act (lk : Spinlock Cpu) (c : Cpu) (x : Core) : Event → Spinlock Cpu × Core
  | .acquire =>
    let (r, x) := holding lk c x.pushcli
    (lk, { x with pc := if r then .panic else .xchg })
  | .release =>
    let (r, x) := holding lk c x
    (lk, { x with pc := if r then .erase else .panic })
  | .pushcli => (lk, x.pushcli)
  | .popcli => (lk, x.popcli)
  | .setFlag b => (lk, { x with interrupts := b, flag := b })
  | .run =>
    match x.pc with
    | .xchg => if lk.locked then (lk, x) else ({ lk with locked := true }, { x with pc := .record })
    | .record => ({ lk with cpu := some c }, { x with pc := .inside })
    | .erase => ({ lk with cpu := none }, { x with pc := .unlock })
    | .unlock => ({ lk with locked := false }, { x with pc := .out }.popcli)
    | _ => (lk, x)

def step (s : State Cpu) (e : Cpu × Event) : Option (State Cpu) :=
  let x := s.core e.1
  if e.2 = .run ∨ x.pc = .out ∨ x.pc = .inside then
    let (lk, x) := act s.lock e.1 x e.2
    some ⟨lk, update s.core e.1 x⟩
  else none

def Pc.depth : Pc → ℕ
  | .out | .panic => 0
  | _ => 1

def Pc.role : Pc → Option Bool
  | .record | .unlock => some false
  | .inside | .erase => some true
  | _ => none

/-- No processor acquires the lock twice, undoes what it has not done or changes FL_IF under a lock. -/
def Paired (s : State Cpu) : Cpu × Event → Prop
  | (c, .acquire) => (s.core c).pc = .out
  | (c, .release) => (s.core c).pc = .inside
  | (c, .popcli) => (s.core c).pc.depth < (s.core c).ncli
  | (c, .setFlag _) => (s.core c).ncli = 0
  | _ => True

instance (s : State Cpu) (e : Cpu × Event) : Decidable (Paired s e) := by
  unfold Paired
  split <;> infer_instance

def boot (flag : Cpu → Bool) : State Cpu := ⟨⟨false, none⟩, fun c => ⟨0, false, flag c, flag c, .out⟩⟩

structure Core.Tidy (x : Core) : Prop where
  off : x.ncli ≠ 0 → x.interrupts = false ∧ x.intena = x.flag
  restored : x.ncli = 0 → x.interrupts = x.flag
  depth : x.pc.depth ≤ x.ncli
  safe : x.pc ≠ .panic

structure Sound (s : State Cpu) : Prop where
  core : ∀ c, (s.core c).Tidy
  held : ∀ c, (s.core c).pc.role ≠ none →
    s.lock = ⟨true, if (s.core c).pc.role = some true then some c else none⟩ ∧
    ∀ d, d ≠ c → (s.core d).pc.role = none
  free : (∀ c, (s.core c).pc.role = none) → s.lock = ⟨false, none⟩

variable {s : State Cpu} {x : Core} {c : Cpu} {lk : Spinlock Cpu}

theorem Core.Tidy.goto {p : Pc} (h : x.Tidy) (hp : p.depth ≤ x.ncli) (hsafe : p ≠ .panic) :
    { x with intena := x.flag, pc := p }.Tidy :=
  ⟨fun hn => ⟨(h.off hn).1, rfl⟩, h.restored, hp, hsafe⟩

theorem Core.Tidy.pushcli (h : x.Tidy) : x.pushcli.Tidy := by
  obtain ⟨hoff, hrestored, hdepth, hsafe⟩ := h
  constructor <;> grind [Core.pushcli]

theorem Core.Tidy.popcli (h : x.Tidy) (hn : x.pc.depth < x.ncli) : x.popcli.Tidy ∧ x.popcli.pc = x.pc := by
  have hoff := h.off (Nat.ne_zero_of_lt hn)
  rw [Core.popcli, if_neg (by grind)]
  exact ⟨⟨by grind, by grind, Nat.le_sub_one_of_lt hn, h.safe⟩, rfl⟩

theorem Sound.holding_eq (h : Sound s) (hx : x.Tidy) :
    holding s.lock c x = (decide ((s.core c).pc.role = some true), { x with intena := x.flag }) := by
  obtain ⟨hoff, hrestored, -, -⟩ := hx
  refine Prod.ext ?_ (by grind [holding, Core.pushcli, Core.popcli])
  by_cases hnone : ∀ d, (s.core d).pc.role = none
  · simp [holding, h.free hnone, hnone]
  · obtain ⟨d, hd⟩ := not_forall.mp hnone
    grind [holding, h.held d hd]

theorem Sound.set (h : Sound s) (hx : x.Tidy) (hlk : lk = s.lock ∧ x.pc.role = (s.core c).pc.role ∨
      lk = ⟨x.pc.role.isSome, if x.pc.role = some true then some c else none⟩ ∧ ∀ d, d ≠ c →
      (s.core d).pc.role = none) :
    Sound ⟨lk, update s.core c x⟩ := by
  have hself : update s.core c x c = x := update_self ..
  have hother (d : Cpu) (hd : d ≠ c) : update s.core c x d = s.core d := update_of_ne hd ..
  refine ⟨(forall_update_iff s.core fun _ => Core.Tidy).mpr ⟨hx, fun d _ => h.core d⟩,
    fun d hd => ?_, fun hnone => ?_⟩
  · have hheld := h.held d
    grind [Option.isSome_iff_ne_none]
  · have hfree := h.free
    grind

theorem Sound.run (h : Sound s) (ha : act s.lock c (s.core c) .run = (lk, x)) : Sound ⟨lk, update s.core c x⟩ := by
  obtain ⟨hoff, hrestored, hdepth, hsafe⟩ := h.core c
  have hfree : s.lock.locked = false → ∀ d, (s.core d).pc.role = none := by
    intro hl d
    by_contra hne
    rw [(h.held d hne).1] at hl
    cases hl
  apply h.set
  · constructor <;> grind [act, Core.popcli, Pc.depth]
  · have hheld := h.held c
    have hlock := h.free
    cases hpc : (s.core c).pc <;> grind [act, Core.popcli, Pc.role, Pc.depth]

theorem sound_step : Preserves step Paired (@Sound Cpu) := by
  rintro s ⟨c, e⟩ s' h hp hs
  obtain ⟨-, heq⟩ := Option.ite_none_right_eq_some.mp hs
  cases heq
  have hx := h.core c
  cases e with
  | acquire =>
    have hpc : (s.core c).pc = .out := hp
    simp only [h.holding_eq hx.pushcli, hpc]
    exact h.set (hx.pushcli.goto (Nat.le_add_left ..) Pc.noConfusion) (.inl ⟨rfl, by rw [hpc]; rfl⟩)
  | release =>
    have hpc : (s.core c).pc = .inside := hp
    have hdepth := hx.depth
    rw [hpc] at hdepth
    simp only [h.holding_eq hx, hpc]
    exact h.set (hx.goto hdepth Pc.noConfusion) (.inl ⟨rfl, by rw [hpc]; rfl⟩)
  | pushcli => exact h.set hx.pushcli (.inl ⟨rfl, rfl⟩)
  | popcli =>
    obtain ⟨hpop, hpc⟩ := hx.popcli hp
    exact h.set hpop (.inl ⟨rfl, congrArg Pc.role hpc⟩)
  | setFlag b => exact h.set ⟨fun hn => absurd hp hn, fun _ => rfl, hx.depth, hx.safe⟩ (.inl ⟨rfl, rfl⟩)
  | run => exact h.run rfl

theorem spinlock_exclusive (flag : Cpu → Bool) (hr : Reaches step Paired (boot flag) s) :
    (∀ c d, (s.core c).pc = .inside → (s.core d).pc = .inside → c = d) ∧
    (∀ c, (s.core c).pc = .inside → s.lock = ⟨true, some c⟩ ∧ (s.core c).interrupts = false) ∧
    ∀ c, ((s.core c).ncli = 0 → (s.core c).interrupts = (s.core c).flag) ∧ (s.core c).pc ≠ .panic := by
  have h : Sound s := hr.invariant sound_step ⟨fun c => ⟨fun hn => (hn rfl).elim, fun _ => rfl,
    Nat.le_refl 0, Pc.noConfusion⟩, fun c hc => (hc rfl).elim, fun _ => rfl⟩
  have hlock {c : Cpu} (hc : (s.core c).pc = .inside) : s.lock = ⟨true, some c⟩ := by
    simpa [hc, Pc.role] using (h.held c (by rw [hc]; nofun)).1
  refine ⟨fun c d hc hd => ?_, fun c hc => ⟨hlock hc, ?_⟩, fun c => ⟨(h.core c).restored, (h.core c).safe⟩⟩
  · cases (hlock hc).symm.trans (hlock hd)
    rfl
  · have hdepth := (h.core c).depth
    rw [hc] at hdepth
    exact ((h.core c).off (Nat.ne_zero_of_lt hdepth)).1

theorem spinlock_exclusive_contended : ∃ s : State Bool, (s.core true).pc = .xchg ∧
    s.lock = ⟨true, some false⟩ ∧ (s.core false).interrupts = false :=
  have hr := exec_get_reaches (boot fun _ : Bool => true)
    [(false, Event.acquire), (true, .acquire), (false, .run), (false, .run), (true, .run)] (by decide)
  ⟨_, rfl, (spinlock_exclusive _ hr).2.1 false rfl⟩

end Xv6.Spinlocks
