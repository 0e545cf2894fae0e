import Mathlib.Data.Fintype.BigOperators

namespace Xv6.Counting

open Function

variable {α β : Type} [Fintype α]

def count (p : β → Bool) (f : α → β) : ℕ := (Finset.univ.filter (fun x => p (f x))).card

theorem count_congr {p : β → Bool} {f g : α → β} (h : ∀ x, p (f x) = p (g x)) : count p f = count p g := by
  simp only [count, h]

theorem count_eq_zero {p : β → Bool} {f : α → β} (h : ∀ x, p (f x) = false) : count p f = 0 := by
  simp [count, h]

theorem count_update [DecidableEq α] (p : β → Bool) (f : α → β) (a : α) (b : β) :
    count p (update f a b) + (if p (f a) then 1 else 0) = count p f + (if p b then 1 else 0) := by
  have hsum (g : α → β) : count p g = ∑ x, if p (g x) then 1 else 0 :=
    Finset.card_filter _ _
  have hupdate : (fun x => if p (update f a b x) then 1 else 0) =
      update (fun x => if p (f x) then 1 else 0) a (if p b then 1 else 0) := by
    funext x
    by_cases hx : x = a
    · subst hx; simp
    · simp [update_of_ne hx]
  rw [hsum, hsum, hupdate, Finset.sum_update_of_mem (Finset.mem_univ a),
    ← Finset.add_sum_erase _ (fun x => if p (f x) then 1 else 0) (Finset.mem_univ a),
    Finset.sdiff_singleton_eq_erase]
  omega

theorem sum_update {α : Type} [DecidableEq α] {A : Finset α} (f : β → ℕ) (g : α → β) {a : α} (b : β) (ha : a ∈ A) :
    ∑ x ∈ A, f (update g a b x) + f (g a) = ∑ x ∈ A, f (g x) + f b := by
  have hrest : ∑ x ∈ A.erase a, f (update g a b x) = ∑ x ∈ A.erase a, f (g x) := by
    apply Finset.sum_congr rfl
    intro x hx
    rw [update_of_ne (Finset.ne_of_mem_erase hx)]
  rw [← Finset.add_sum_erase A _ ha, ← Finset.add_sum_erase A (fun x => f (g x)) ha, hrest, update_self]
  omega

end Xv6.Counting
