import Mathlib.Data.List.Basic

namespace Xv6.Writes

open Function

variable {α β : Type} [DecidableEq α]

def write (f : α → β) (ws : List (α × β)) : α → β := ws.foldl (fun f w => Function.update f w.1 w.2) f

section

variable {f g : α → β} {ws ws' : List (α × β)} {a : α} {b : β}

@[simp] theorem write_nil : write f [] = f := rfl

@[simp] theorem write_cons {w : α × β} : write f (w :: ws) = write (update f w.1 w.2) ws := rfl

theorem write_append : write f (ws ++ ws') = write (write f ws) ws' := List.foldl_append

theorem write_notMem (h : a ∉ ws.map Prod.fst) : write f ws a = f a := by
  induction ws generalizing f with
  | nil => rfl
  | cons w ws ih =>
    rw [List.map_cons, List.mem_cons, not_or] at h
    rw [write_cons, ih h.2, update_of_ne h.1]

theorem write_agree (h : a ∉ ws.map Prod.fst → f a = g a) : write f ws a = write g ws a := by
  induction ws generalizing f g with
  | nil => exact h (by simp)
  | cons w ws ih =>
    rw [write_cons, write_cons]
    apply ih
    intro hws
    by_cases hw : a = w.1
    · rw [hw, update_self, update_self]
    · rw [update_of_ne hw, update_of_ne hw]
      apply h
      rw [List.map_cons, List.mem_cons, not_or]
      exact ⟨hw, hws⟩

theorem write_of_mem (hn : (ws.map Prod.fst).Nodup) (h : (a, b) ∈ ws) : write f ws a = b := by
  induction ws generalizing f with
  | nil => cases h
  | cons w ws ih =>
    rw [List.map_cons, List.nodup_cons] at hn
    rw [write_cons]
    obtain rfl | h := List.mem_cons.mp h
    · rw [write_notMem hn.1, update_self]
    · exact ih hn.2 h

end

end Xv6.Writes
