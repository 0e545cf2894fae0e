import Xv6.Kernel

namespace Xv6.Kernel

open Xv6.Threads Function

inductive Owned where
  | row (q : ℕ)
  | slot (j : ℕ)
  deriving DecidableEq, Repr

def Pc.owns : Pc → Option Owned
  | .forkStack q | .forkCopy q | .forkUnused q | .forkParent q | .forkUsed q => some (.row q)
  | .createStack j | .createContext j | .createRequest j | .createRunnable j => some (.slot j)
  | _ => none

def Pc.alone : Pc → Bool
  | .exitScan true | .exitClose => true
  | _ => false

def Pc.stray : Pc → Bool
  | .kexitWake | .kexitMark | .panic => true
  | _ => false

/-- The processes with their threads as flows of control, without the CPUs that run them: `flow k` is the
place of the thread in slot `k`, if there is a thread. -/
structure Flows where
  state : ℕ → ProcState
  parent : ℕ → Option ℕ
  flow : ℕ → Option Pc

def Flows.valid (a : Flows) (k : ℕ) : Owned → Prop
  | .row q => a.state q = .embryo
  | .slot j => row j = row k ∧ a.flow j = none

structure Flows.Sound (a : Flows) : Prop where
  rows : ∀ q, a.state q ≠ .unused → q < NPROC
  init : a.state initproc = .used
  used : ∀ k pc, a.flow k = some pc → a.state (row k) = .used
  owned : ∀ k pc o, a.flow k = some pc → pc.owns = some o → a.valid k o
  owner : ∀ k k' pc pc' o, a.flow k = some pc → a.flow k' = some pc' → pc.owns = some o →
    pc'.owns = some o → k = k'
  child : ∀ k q, a.flow k = some (.forkUsed q) → a.parent q = some (row k)
  alone : ∀ k pc, a.flow k = some pc → pc.alone → ∀ j, j ≠ k → row j = row k → a.flow j = none
  notInit : ∀ k, a.flow k = some .exitClose → row k ≠ initproc
  strays : ∀ k pc, a.flow k = some pc → pc.stray = false
  parents : ∀ p, p ≠ initproc → a.state p = .used ∨ a.state p = .zombie →
    ∃ q, a.parent p = some q ∧ a.state q = .used

def Flows.move (a : Flows) (k : ℕ) (pc : Option Pc) : Flows := { a with flow := Function.update a.flow k pc }

section

variable {a : Flows} {k j q : ℕ} {pc pc₀ : Pc}

theorem move_flow {v : Option Pc} (h : (a.move k v).flow j = some pc) :
    j = k ∧ v = some pc ∨ j ≠ k ∧ a.flow j = some pc := by
  change update a.flow k v j = some pc at h
  by_cases hj : j = k
  · rw [hj, update_self] at h
    exact .inl ⟨hj, h⟩
  · rw [update_of_ne hj] at h
    exact .inr ⟨hj, h⟩

theorem move_none {v : Option Pc} (hj : a.flow j = none) (hv : j = k → v = none) : (a.move k v).flow j = none := by
  change update a.flow k v j = none
  by_cases h : j = k
  · rw [h, update_self]
    exact hv h
  · rwa [update_of_ne h]

theorem sound_move (hi : a.Sound) (hk : a.flow k = some pc₀) (hvalid : ∀ o, pc.owns = some o → a.valid k o)
    (howner : ∀ o, pc.owns = some o → ∀ k' pc', k' ≠ k → a.flow k' = some pc' → pc'.owns ≠ some o)
    (hchild : ∀ q, pc = .forkUsed q → a.parent q = some (row k))
    (halone : pc.alone → ∀ j, j ≠ k → row j = row k → a.flow j = none) (hinit : pc = .exitClose → row k ≠ initproc)
    (hstray : pc.stray = false) : (a.move k (some pc)).Sound := by
  have hnone (j : ℕ) (hj : a.flow j = none) : (a.move k (some pc)).flow j = none := by
    apply move_none hj
    rintro rfl
    rw [hk] at hj
    cases hj
  have hvalid' (i : ℕ) (o : Owned) (h : a.valid i o) : (a.move k (some pc)).valid i o := by
    cases o with
    | row q => exact h
    | slot j => exact ⟨h.1, hnone j h.2⟩
  refine ⟨hi.rows, hi.init, fun i pc' h => ?_, fun i pc' o h ho => ?_, fun i i' pc' pc'' o h h' ho ho' => ?_,
    fun i q h => ?_, fun i pc' h ha j hj hrow => ?_, fun i h => ?_, fun i pc' h => ?_, hi.parents⟩
  · obtain ⟨rfl, -⟩ | ⟨-, h⟩ := move_flow h
    · exact hi.used i pc₀ hk
    · exact hi.used i pc' h
  · apply hvalid'
    obtain ⟨rfl, ⟨⟩⟩ | ⟨-, h⟩ := move_flow h
    · exact hvalid o ho
    · exact hi.owned i pc' o h ho
  · obtain ⟨rfl, ⟨⟩⟩ | ⟨hne, hold⟩ := move_flow h
    · obtain ⟨rfl, -⟩ | ⟨hne', hold'⟩ := move_flow h'
      · rfl
      · exact absurd ho' (howner o ho i' pc'' hne' hold')
    · obtain ⟨rfl, ⟨⟩⟩ | ⟨-, hold'⟩ := move_flow h'
      · exact absurd ho (howner o ho' i pc' hne hold)
      · exact hi.owner i i' pc' pc'' o hold hold' ho ho'
  · obtain ⟨rfl, hpc⟩ | ⟨-, h⟩ := move_flow h
    · exact hchild q (Option.some.inj hpc)
    · exact hi.child i q h
  · apply hnone
    obtain ⟨rfl, ⟨⟩⟩ | ⟨-, h⟩ := move_flow h
    · exact halone ha j hj hrow
    · exact hi.alone i pc' h ha j hj hrow
  · obtain ⟨rfl, hpc⟩ | ⟨-, h⟩ := move_flow h
    · exact hinit (Option.some.inj hpc)
    · exact hi.notInit i h
  · obtain ⟨rfl, ⟨⟩⟩ | ⟨-, h⟩ := move_flow h
    · exact hstray
    · exact hi.strays i pc' h

theorem sound_on (hi : a.Sound) (hk : a.flow k = some pc₀) (howns : pc.owns = none ∨ pc.owns = pc₀.owns)
    (hchild : ∀ q, pc ≠ .forkUsed q) (halone : pc.alone = false ∨ pc₀.alone)
    (hinit : pc = .exitClose → row k ≠ initproc) (hstray : pc.stray = false) : (a.move k (some pc)).Sound := by
  refine sound_move hi hk (fun o ho => ?_) (fun o ho k' pc' hne h ho' => ?_) (fun q hq => absurd hq (hchild q))
    (fun ha => ?_) hinit hstray
  · obtain hnone | hsame := howns
    · rw [hnone] at ho
      cases ho
    · exact hi.owned k pc₀ o hk (hsame ▸ ho)
  · obtain hnone | hsame := howns
    · rw [hnone] at ho
      cases ho
    · exact hne (hi.owner k' k pc' pc₀ o h hk ho' (hsame ▸ ho))
  · obtain hfalse | halone := halone
    · rw [hfalse] at ha
      cases ha
    · exact hi.alone k pc₀ hk halone

theorem sound_free (hi : a.Sound) (hk : a.flow k = some pc₀) : (a.move k (some .free)).Sound :=
  sound_on hi hk (.inl rfl) (by simp) (.inl rfl) (by simp) rfl

theorem sound_end (hi : a.Sound) : (a.move k none).Sound := by
  have hold {i : ℕ} {pc : Pc} (h : (a.move k none).flow i = some pc) : a.flow i = some pc := by
    obtain ⟨-, ⟨⟩⟩ | ⟨-, h⟩ := move_flow h
    exact h
  have hnone (j : ℕ) (hj : a.flow j = none) : (a.move k none).flow j = none := move_none hj (fun _ => rfl)
  refine ⟨hi.rows, hi.init, fun i pc h => hi.used i pc (hold h), fun i pc o h ho => ?_,
    fun i i' pc pc' o h h' => hi.owner i i' pc pc' o (hold h) (hold h'), fun i q h => hi.child i q (hold h),
    fun i pc h ha j hj hrow => hnone j (hi.alone i pc (hold h) ha j hj hrow), fun i h => hi.notInit i (hold h),
    fun i pc h => hi.strays i pc (hold h), hi.parents⟩
  have hvalid := hi.owned i pc o (hold h) ho
  cases o with
  | row q => exact hvalid
  | slot j => exact ⟨hvalid.1, hnone j hvalid.2⟩

theorem sound_start (hi : a.Sound) (hj : a.flow j = none) (hused : a.state (row j) = .used)
    (hfree : ∀ k pc, a.flow k = some pc → pc.owns ≠ some (.slot j))
    (halone : ∀ k pc, a.flow k = some pc → row k = row j → pc.alone = false) : (a.move j (some .free)).Sound := by
  have hold {i : ℕ} {pc : Pc} (h : (a.move j (some .free)).flow i = some pc) :
      i = j ∧ pc = .free ∨ i ≠ j ∧ a.flow i = some pc := by
    obtain ⟨hij, ⟨⟩⟩ | h := move_flow h
    · exact .inl ⟨hij, rfl⟩
    · exact .inr h
  refine ⟨hi.rows, hi.init, fun i pc h => ?_, fun i pc o h ho => ?_,
    fun i i' pc pc' o h h' ho ho' => ?_, fun i q h => ?_,
    fun i pc h ha i' hne hrow => ?_, fun i h => ?_, fun i pc h => ?_, hi.parents⟩
  · obtain ⟨rfl, -⟩ | ⟨-, h⟩ := hold h
    · exact hused
    · exact hi.used i pc h
  · obtain ⟨-, rfl⟩ | ⟨-, hi'⟩ := hold h
    · cases ho
    · have hvalid := hi.owned i pc o hi' ho
      cases o with
      | row q => exact hvalid
      | slot j' =>
        refine ⟨hvalid.1, move_none hvalid.2 ?_⟩
        rintro rfl
        exact absurd ho (hfree i pc hi')
  · obtain ⟨-, rfl⟩ | ⟨-, h⟩ := hold h
    · cases ho
    · obtain ⟨-, rfl⟩ | ⟨-, h'⟩ := hold h'
      · cases ho'
      · exact hi.owner i i' pc pc' o h h' ho ho'
  · obtain ⟨-, hpc⟩ | ⟨-, h⟩ := hold h
    · cases hpc
    · exact hi.child i q h
  · obtain ⟨-, rfl⟩ | ⟨-, hi'⟩ := hold h
    · cases ha
    · refine move_none (hi.alone i pc hi' ha i' hne hrow) ?_
      rintro rfl
      rw [halone i pc hi' hrow.symm] at ha
      cases ha
  · obtain ⟨-, hpc⟩ | ⟨-, h⟩ := hold h
    · cases hpc
    · exact hi.notInit i h
  · obtain ⟨-, rfl⟩ | ⟨-, h⟩ := hold h
    · rfl
    · exact hi.strays i pc h

def Flows.setState (a : Flows) (q : ℕ) (state : ProcState) :
    Flows := { a with state := Function.update a.state q state }

def Flows.setParent (a : Flows) (q : ℕ) (parent : Option ℕ) : Flows :=
  { a with parent := Function.update a.parent q parent }

theorem sound_setState {state : ProcState} (hi : a.Sound) (hq : q < NPROC) (hold : a.state q ≠ .used)
    (hfree : ∀ k pc, a.flow k = some pc → pc.owns ≠ some (.row q))
    (hnew : state = .used ∨ state = .zombie → ∃ p, a.parent q = some p ∧ a.state p = .used) :
    (a.setState q state).Sound := by
  have hother (p : ℕ) (hp : p ≠ q) : (a.setState q state).state p = a.state p := update_of_ne hp _ _
  have hused (p : ℕ) (hp : a.state p = .used) : (a.setState q state).state p = .used := by
    rw [hother p]
    · exact hp
    · rintro rfl
      exact hold hp
  refine ⟨fun p hp => ?_, hused _ hi.init, fun k pc h => hused _ (hi.used k pc h),
    fun k pc o h ho => ?_, hi.owner, hi.child, hi.alone, hi.notInit, hi.strays, fun p hp hs => ?_⟩
  · by_cases hpq : p = q
    · rwa [hpq]
    · rw [hother p hpq] at hp
      exact hi.rows p hp
  · have hvalid := hi.owned k pc o h ho
    cases o with
    | slot j => exact hvalid
    | row q' =>
      change (a.setState q state).state q' = .embryo
      rw [hother q']
      · exact hvalid
      · rintro rfl
        exact hfree k pc h ho
  · by_cases hpq : p = q
    · subst hpq
      obtain ⟨p', hparent, hp'⟩ := hnew (by simpa [Flows.setState] using hs)
      exact ⟨p', hparent, hused p' hp'⟩
    · rw [hother p hpq] at hs
      obtain ⟨p', hparent, hp'⟩ := hi.parents p hp hs
      exact ⟨p', hparent, hused p' hp'⟩

theorem sound_setParent {parent : Option ℕ} (hi : a.Sound) (hused : a.state q ≠ .used)
    (hzombie : a.state q ≠ .zombie)
    (hfree : ∀ k, a.flow k ≠ some (.forkUsed q)) : (a.setParent q parent).Sound := by
  have hother (p : ℕ) (hp : p ≠ q) : (a.setParent q parent).parent p = a.parent p := update_of_ne hp _ _
  refine ⟨hi.rows, hi.init, hi.used, hi.owned, hi.owner, fun k q' h => ?_, hi.alone, hi.notInit, hi.strays,
    fun p hp hs => ?_⟩
  · rw [hother q']
    · exact hi.child k q' h
    · rintro rfl
      exact hfree k h
  · rw [hother p]
    · exact hi.parents p hp hs
    · rintro rfl
      exact hs.elim hused hzombie

def Flows.exit (a : Flows) (k : ℕ) : Flows where
  state := Function.update a.state (row k) .zombie
  parent q := if q < NPROC ∧ a.parent q = some (row k) then some initproc else a.parent q
  flow := Function.update a.flow k none

theorem sound_exit (hi : a.Sound) (hk : a.flow k = some .exitClose) : (a.exit k).Sound := by
  have hinit : initproc ≠ row k := (hi.notInit k hk).symm
  have hstate (p : ℕ) (hp : p ≠ row k) : (a.exit k).state p = a.state p := update_of_ne hp _ _
  have hend : (a.move k none).Sound := sound_end hi
  have hrow (i : ℕ) (pc : Pc) (h : (a.move k none).flow i = some pc) : row i ≠ row k := by
    obtain ⟨-, ⟨⟩⟩ | ⟨hne, h⟩ := move_flow h
    intro hr
    rw [hi.alone k _ hk rfl i hne hr] at h
    cases h
  have hparent (q p : ℕ) (h : a.parent q = some p) (hp : p ≠ row k) : (a.exit k).parent q = some p := by
    simp [Flows.exit, h, hp]
  refine ⟨fun q hq => ?_, ?_, fun i pc h => ?_, fun i pc o h ho => ?_, hend.owner, fun i q h => ?_, hend.alone,
    hend.notInit, hend.strays, fun p hp hs => ?_⟩
  · by_cases hqk : q = row k
    · rw [hqk]
      apply hi.rows
      rw [hi.used k _ hk]
      simp
    · rw [hstate q hqk] at hq
      exact hi.rows q hq
  · rw [hstate _ hinit]
    exact hi.init
  · rw [hstate _ (hrow i pc h)]
    exact hend.used i pc h
  · have hvalid := hend.owned i pc o h ho
    cases o with
    | slot j => exact hvalid
    | row q =>
      change (a.exit k).state q = .embryo
      rw [hstate q]
      · exact hvalid
      · rintro rfl
        have hused := hi.used k _ hk
        change a.state (row k) = .embryo at hvalid
        rw [hused] at hvalid
        cases hvalid
  · exact hparent q (row i) (hend.child i q h) (hrow i _ h)
  · have hold : a.state p = .used ∨ a.state p = .zombie := by
      by_cases hpk : p = row k
      · rw [hpk]
        exact .inl (hi.used k _ hk)
      · rwa [hstate p hpk] at hs
    obtain ⟨q, hq, hused⟩ := hi.parents p hp hold
    by_cases hqk : q = row k
    · refine ⟨initproc, ?_, ?_⟩
      · have hlt : p < NPROC := by
          apply hi.rows
          intro hno
          simp [hno] at hold
        simp [Flows.exit, hq, hqk, hlt]
      · rw [hstate _ hinit]
        exact hi.init
    · exact ⟨q, hparent p q hq hqk, by rwa [hstate q hqk]⟩

end

end Xv6.Kernel
