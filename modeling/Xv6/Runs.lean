import Mathlib.Logic.Relation
import Mathlib.Data.Option.Basic

namespace Xv6.Runs

variable {σ ε : Type}

def Guarded (step : σ → ε → Option σ) (ok : σ → ε → Prop) (s t : σ) : Prop :=
  ∃ e, ok s e ∧ step s e = some t

def Reaches (step : σ → ε → Option σ) (ok : σ → ε → Prop) : σ → σ → Prop :=
  Relation.ReflTransGen (Guarded step ok)

def Always : σ → ε → Prop := fun _ _ => True

def Preserves (step : σ → ε → Option σ) (ok : σ → ε → Prop) (I : σ → Prop) : Prop :=
  ∀ s e t, I s → ok s e → step s e = some t → I t

section

variable {step : σ → ε → Option σ} {ok ok' : σ → ε → Prop} {I : σ → Prop} {s t u : σ} {e : ε}

theorem Reaches.refl : Reaches step ok s s := Relation.ReflTransGen.refl

theorem Reaches.tail (h : Reaches step ok s t) (he : ok t e) (hs : step t e = some u) :
    Reaches step ok s u :=
  Relation.ReflTransGen.tail h ⟨e, he, hs⟩

theorem Reaches.trans (h : Reaches step ok s t) (h' : Reaches step ok t u) : Reaches step ok s u :=
  Relation.ReflTransGen.trans h h'

theorem Reaches.invariant (h : Reaches step ok s t) (hp : Preserves step ok I) (hi : I s) : I t := by
  induction h with
  | refl => exact hi
  | tail _ hstep ih =>
    obtain ⟨e, he, hs⟩ := hstep
    exact hp _ e _ ih he hs

theorem Reaches.mono (h : Reaches step ok s t) (hle : ∀ s e, ok s e → ok' s e) :
    Reaches step ok' s t := by
  induction h with
  | refl => exact .refl
  | tail _ hstep ih =>
    obtain ⟨e, he, hs⟩ := hstep
    exact ih.tail (hle _ e he) hs

end

def exec (step : σ → ε → Option σ) (ok : σ → ε → Prop) [∀ s e, Decidable (ok s e)] :
    σ → List ε → Option σ
  | s, [] => some s
  | s, e :: es => if ok s e then (step s e).bind (fun t => exec step ok t es) else none

variable {step : σ → ε → Option σ} {ok : σ → ε → Prop} {s : σ}

theorem exec_reaches [∀ s e, Decidable (ok s e)]
    {t : σ} {es : List ε} (h : exec step ok s es = some t) : Reaches step ok s t := by
  induction es generalizing s with
  | nil =>
    simp only [exec, Option.some.injEq] at h
    exact h ▸ Reaches.refl
  | cons e es ih =>
    simp only [exec] at h
    split at h
    · rename_i he
      obtain ⟨u, hu, ht⟩ := Option.bind_eq_some_iff.mp h
      exact Reaches.trans (Reaches.tail .refl he hu) (ih ht)
    · cases h

theorem exec_get_reaches [∀ s e, Decidable (ok s e)]
    (s : σ) (es : List ε) (h : (exec step ok s es).isSome) :
    Reaches step ok s ((exec step ok s es).get h) :=
  exec_reaches (Option.some_get h).symm

instance (s : σ) (e : ε) : Decidable (Always s e) := inferInstanceAs (Decidable True)

theorem exec_rel {τ : Type} {step' : τ → ε → Option τ} {R : σ → τ → Prop}
    (h : ∀ s t e, R s t → Option.Rel R (step s e) (step' t e)) (es : List ε) {t : τ} (hst : R s t) :
    Option.Rel R (exec step Always s es) (exec step' Always t es) := by
  induction es generalizing s t with
  | nil => exact .some hst
  | cons e es ih =>
    have hstep := h s t e hst
    have hs : Always s e := trivial
    have ht : Always t e := trivial
    rw [exec, exec, if_pos hs, if_pos ht]
    cases hone : step s e with
    | none =>
      rw [hone] at hstep
      cases hother : step' t e with
      | none => exact .none
      | some t' =>
        rw [hother] at hstep
        cases hstep
    | some s' =>
      rw [hone] at hstep
      cases hother : step' t e with
      | none =>
        rw [hother] at hstep
        cases hstep
      | some t' =>
        rw [hother] at hstep
        cases hstep with
        | some hnext => exact ih hnext

end Xv6.Runs
