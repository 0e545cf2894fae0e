import Xv6.Runs
import Mathlib.Algebra.Group.Int.Defs
import Mathlib.Tactic.SplitIfs

namespace Xv6.SleepLocks

open Xv6.Runs Function

structure Sleeplock where
  locked : Bool
  pid : ℤ
  deriving DecidableEq, Repr

def initsleeplock : Sleeplock := ⟨false, 0⟩

def holdingsleep (lk : Sleeplock) (pid : ℤ) : Bool := lk.locked && lk.pid == pid

inductive Pc
  | out
  | asleep
  | woken
  | inside
  deriving DecidableEq, Repr

structure State (Thread : Type) where
  lk : Sleeplock
  pc : Thread → Pc

/-- A wakeup of `wake t` need not come from `releasesleep`: `kill` wakes a thread as well. -/
inductive Event (Thread : Type)
  | acquiresleep (t : Thread)
  | resume (t : Thread)
  | wake (t : Thread)
  | releasesleep (t : Thread)
  deriving DecidableEq, Repr

section Code

variable {Thread : Type} [DecidableEq Thread]

def start : State Thread := ⟨initsleeplock, fun _ => .out⟩

def acquireTest (pid : Thread → ℤ) (s : State Thread) (t : Thread) : State Thread :=
  if s.lk.locked then { s with pc := Function.update s.pc t .asleep }
  else ⟨⟨true, pid t⟩, Function.update s.pc t .inside⟩

def Pc.wakeup : Pc → Pc
  | .asleep => .woken
  | pc => pc

def releasesleep (s : State Thread) (t : Thread) : State Thread :=
  ⟨⟨false, 0⟩, Function.update (fun u => (s.pc u).wakeup) t .out⟩

def step (pid : Thread → ℤ) (s : State Thread) : Event Thread → Option (State Thread)
  | .acquiresleep t => if s.pc t = .out then some (acquireTest pid s t) else none
  | .resume t => if s.pc t = .woken then some (acquireTest pid s t) else none
  | .wake t => if s.pc t = .asleep then some { s with pc := Function.update s.pc t .woken } else none
  | .releasesleep t => if s.pc t = .inside then some (releasesleep s t) else none

end Code

def iunlock (lk : Sleeplock) (pid ref : ℤ) : Bool := holdingsleep lk pid && decide (1 ≤ ref)

def brelse (lk : Sleeplock) (pid : ℤ) : Bool := holdingsleep lk pid

def bwrite (lk : Sleeplock) (pid : ℤ) : Bool := holdingsleep lk pid

def iderw (lk : Sleeplock) (pid : ℤ) : Bool := holdingsleep lk pid

section

variable {Thread : Type} {pid : Thread → ℤ} {s : State Thread} {t : Thread}

def Owned (pid : Thread → ℤ) (s : State Thread) : Prop :=
  (s.lk.locked = false ∧ ∀ u, s.pc u ≠ .inside) ∨
    ∃ t, s.lk = ⟨true, pid t⟩ ∧ ∀ u, s.pc u = .inside ↔ u = t

theorem owned_start : Owned pid (start : State Thread) := .inl ⟨rfl, fun _ h => by cases h⟩

theorem Owned.unique (hs : Owned pid s) {u v : Thread} (hu : s.pc u = .inside) (hv : s.pc v = .inside) :
    u = v := by
  rcases hs with ⟨_, hout⟩ | ⟨w, _, hin⟩
  · exact absurd hu (hout u)
  · rw [(hin u).mp hu, (hin v).mp hv]

theorem Owned.holdingsleep_iff (hs : Owned pid s) (t : Thread) :
    holdingsleep s.lk (pid t) = true ↔ ∃ u, s.pc u = .inside ∧ pid u = pid t := by
  rcases hs with ⟨hfree, hout⟩ | ⟨v, hlk, hin⟩
  · rw [holdingsleep, hfree]
    constructor
    · intro h
      cases h
    · rintro ⟨u, hu, _⟩
      exact absurd hu (hout u)
  · rw [holdingsleep, hlk, Bool.true_and, beq_iff_eq]
    constructor
    · intro h
      exact ⟨v, (hin v).mpr rfl, h⟩
    · rintro ⟨u, hu, h⟩
      rwa [← (hin u).mp hu]

def NoSibling (pid : Thread → ℤ) (s : State Thread) (t : Thread) : Prop :=
  ∀ u, s.pc u = .inside → pid u = pid t → u = t

theorem Owned.exact_iff (hs : Owned pid s) (t : Thread) :
    (holdingsleep s.lk (pid t) = true ↔ s.pc t = .inside) ↔ NoSibling pid s t := by
  rw [hs.holdingsleep_iff]
  constructor
  · intro h u hu hpid
    exact hs.unique hu (h.mp ⟨u, hu, hpid⟩)
  · intro h
    constructor
    · rintro ⟨u, hu, hpid⟩
      rwa [← h u hu hpid]
    · intro ht
      exact ⟨t, ht, rfl⟩

variable [DecidableEq Thread]

theorem update_inside {pc : Pc} (hpc : pc ≠ .inside) (ht : s.pc t ≠ .inside) (u : Thread) :
    update s.pc t pc u = .inside ↔ s.pc u = .inside := by
  obtain rfl | hne := eq_or_ne u t
  · rw [update_self]
    exact ⟨fun h => absurd h hpc, fun h => absurd h ht⟩
  · rw [update_of_ne hne]

theorem Owned.move {pc : Pc} (hs : Owned pid s) (hpc : pc ≠ .inside) (ht : s.pc t ≠ .inside) :
    Owned pid { s with pc := update s.pc t pc } := by
  rcases hs with ⟨hfree, hout⟩ | ⟨v, hlk, hin⟩
  · exact .inl ⟨hfree, fun u h => hout u ((update_inside hpc ht u).mp h)⟩
  · exact .inr ⟨v, hlk, fun u => (update_inside hpc ht u).trans (hin u)⟩

theorem acquireTest_owned (hs : Owned pid s) (ht : s.pc t ≠ .inside) : Owned pid (acquireTest pid s t) := by
  unfold acquireTest
  split_ifs with hlocked
  · exact hs.move (by simp) ht
  · have hout : ∀ u, s.pc u ≠ .inside := by
      rcases hs with ⟨_, hout⟩ | ⟨v, hlk, _⟩
      · exact hout
      · rw [hlk] at hlocked
        exact absurd rfl hlocked
    refine .inr ⟨t, rfl, fun u => ?_⟩
    obtain rfl | hne := eq_or_ne u t
    · simp only [update_self]
    · simp only [update_of_ne hne, hne, iff_false]
      exact hout u

theorem releasesleep_owned (hs : Owned pid s) (ht : s.pc t = .inside) : Owned pid (releasesleep s t) := by
  have honly : ∀ u, s.pc u = .inside → u = t := by
    rcases hs with ⟨_, hout⟩ | ⟨v, _, hin⟩
    · exact absurd ht (hout t)
    · intro u hu
      rw [(hin u).mp hu, (hin t).mp ht]
  refine .inl ⟨rfl, fun u hu => ?_⟩
  obtain rfl | hne := eq_or_ne u t
  · simp only [releasesleep, update_self] at hu
    cases hu
  · simp only [releasesleep, update_of_ne hne] at hu
    cases hpc : s.pc u with
    | inside => exact hne (honly u hpc)
    | out => simp only [hpc, Pc.wakeup] at hu; cases hu
    | asleep => simp only [hpc, Pc.wakeup] at hu; cases hu
    | woken => simp only [hpc, Pc.wakeup] at hu; cases hu

theorem owned_preserved : Preserves (step pid) Always (Owned pid : State Thread → Prop) := by
  intro s e s' hs _ hstep
  cases e with
  | acquiresleep t =>
    simp only [step, Option.ite_none_right_eq_some, Option.some.injEq] at hstep
    obtain ⟨ht, rfl⟩ := hstep
    exact acquireTest_owned hs (by simp [ht])
  | resume t =>
    simp only [step, Option.ite_none_right_eq_some, Option.some.injEq] at hstep
    obtain ⟨ht, rfl⟩ := hstep
    exact acquireTest_owned hs (by simp [ht])
  | wake t =>
    simp only [step, Option.ite_none_right_eq_some, Option.some.injEq] at hstep
    obtain ⟨ht, rfl⟩ := hstep
    exact hs.move (by simp) (by simp [ht])
  | releasesleep t =>
    simp only [step, Option.ite_none_right_eq_some, Option.some.injEq] at hstep
    obtain ⟨ht, rfl⟩ := hstep
    exact releasesleep_owned hs ht

theorem holdingsleep_exact_iff (h : Reaches (step pid) Always (start : State Thread) s) :
    (∀ u v, s.pc u = .inside → s.pc v = .inside → u = v) ∧
      ∀ t, ((holdingsleep s.lk (pid t) = true ↔ s.pc t = .inside) ↔ NoSibling pid s t) ∧
        (((∀ ref, iunlock s.lk (pid t) ref = true → s.pc t = .inside) ∧
          (brelse s.lk (pid t) = true → s.pc t = .inside) ∧ (bwrite s.lk (pid t) = true → s.pc t = .inside) ∧
          (iderw s.lk (pid t) = true → s.pc t = .inside)) ↔ NoSibling pid s t) := by
  have hs : Owned pid s := h.invariant owned_preserved owned_start
  refine ⟨fun u v => hs.unique, fun t => ⟨hs.exact_iff t, ?_⟩⟩
  have hself : s.pc t = .inside → holdingsleep s.lk (pid t) = true :=
    fun ht => (hs.holdingsleep_iff t).mpr ⟨t, ht, rfl⟩
  constructor
  · rintro ⟨_, hbrelse, _⟩
    exact (hs.exact_iff t).mp ⟨hbrelse, hself⟩
  · intro hno
    have hcheck := ((hs.exact_iff t).mpr hno).mp
    refine ⟨fun ref hu => hcheck ?_, hcheck, hcheck, hcheck⟩
    rw [iunlock, Bool.and_eq_true] at hu
    exact hu.1

end

def threadPid (t : Fin 3) : ℤ := if t = 2 then 8 else 7

def taken : State (Fin 3) := acquireTest threadPid start 0

theorem taken_reached : Reaches (step threadPid) Always start taken :=
  Reaches.tail .refl trivial (e := .acquiresleep 0) rfl

theorem holdingsleep_exact_iff_taken :
    (∀ u v, taken.pc u = .inside → taken.pc v = .inside → u = v) ∧
      ∀ t, ((holdingsleep taken.lk (threadPid t) = true ↔ taken.pc t = .inside) ↔ NoSibling threadPid taken t) ∧
        (((∀ ref, iunlock taken.lk (threadPid t) ref = true → taken.pc t = .inside) ∧
          (brelse taken.lk (threadPid t) = true → taken.pc t = .inside) ∧
          (bwrite taken.lk (threadPid t) = true → taken.pc t = .inside) ∧
          (iderw taken.lk (threadPid t) = true → taken.pc t = .inside)) ↔ NoSibling threadPid taken t) :=
  holdingsleep_exact_iff taken_reached

theorem holdingsleep_sibling : Reaches (step threadPid) Always start taken ∧
    taken.pc 0 = .inside ∧ taken.pc 1 = .out ∧
    holdingsleep taken.lk (threadPid 1) = true ∧ iunlock taken.lk (threadPid 1) 1 = true ∧
    brelse taken.lk (threadPid 1) = true ∧ holdingsleep taken.lk (threadPid 2) = false :=
  ⟨taken_reached, by decide, by decide, by decide, by decide, by decide, by decide⟩

end Xv6.SleepLocks
