import Mathlib.Data.List.Basic

namespace Xv6.Rings

open Function

structure Ring (α : Type) where
  cells : ℕ → α
  nread : ℕ
  nwrite : ℕ

variable {α : Type}

def Ring.push (size word : ℕ) (r : Ring α) (x : α) : Ring α :=
  { r with cells := Function.update r.cells (r.nwrite % size) x, nwrite := (r.nwrite + 1) % word }

def Ring.pop (word : ℕ) (r : Ring α) : Ring α := { r with nread := (r.nread + 1) % word }

structure Holds (size word : ℕ) (r : Ring α) (pushed popped : List α) : Prop where
  nread : r.nread = popped.length % word
  nwrite : r.nwrite = pushed.length % word
  order : popped <+: pushed
  room : pushed.length ≤ popped.length + size
  cells : ∀ i, popped.length ≤ i → i < pushed.length → pushed[i]? = some (r.cells (i % size))

variable {size word : ℕ} {r : Ring α} {pushed popped : List α}

theorem add_mod_eq_mod {m d w : ℕ} (hd : d < w) (h : (m + d) % w = m % w) : d = 0 := by
  have hmod := Nat.sub_mod_eq_zero_of_mod_eq h
  rw [Nat.add_sub_cancel_left] at hmod
  rwa [Nat.mod_eq_of_lt hd] at hmod

theorem Holds.empty_iff (h : Holds size word r pushed popped) (hw : size < word) :
    r.nread = r.nwrite ↔ pushed.length = popped.length := by
  have hle := h.order.length_le
  have hroom := h.room
  rw [h.nread, h.nwrite]
  constructor
  · intro heq
    have hsplit : pushed.length = popped.length + (pushed.length - popped.length) := by omega
    rw [hsplit] at heq
    have := add_mod_eq_mod (by omega) heq.symm
    omega
  · intro heq
    rw [heq]

theorem Holds.full_iff (h : Holds size word r pushed popped) (hw : size < word) :
    r.nwrite = (r.nread + size) % word ↔ pushed.length = popped.length + size := by
  have hroom := h.room
  have hle := h.order.length_le
  rw [h.nread, h.nwrite, Nat.mod_add_mod]
  constructor
  · intro heq
    have hsplit : popped.length + size = pushed.length + (popped.length + size - pushed.length) := by omega
    rw [hsplit] at heq
    have := add_mod_eq_mod (by omega) heq.symm
    omega
  · intro heq
    rw [heq]

theorem Holds.count (h : Holds size word r pushed popped) (hw : size < word) :
    pushed.length - popped.length = (r.nwrite + word - r.nread) % word := by
  have hroom := h.room
  have hle := h.order.length_le
  obtain ⟨d, hd⟩ : ∃ d, pushed.length = popped.length + d := ⟨_, (Nat.add_sub_cancel' hle).symm⟩
  have hlt : popped.length % word < word := Nat.mod_lt _ (by omega)
  rw [h.nread, h.nwrite, hd, Nat.add_sub_cancel_left]
  have hmod : (popped.length + d) % word = (popped.length % word + d) % word := (Nat.mod_add_mod _ _ _).symm
  rw [hmod, Nat.add_sub_assoc (Nat.le_of_lt hlt), Nat.mod_add_mod]
  have hsum : popped.length % word + d + (word - popped.length % word) = d + word := by omega
  rw [hsum, Nat.add_mod_right, Nat.mod_eq_of_lt (by omega)]

theorem slot_eq (hdvd : size ∣ word) (n : ℕ) : n % word % size = n % size := Nat.mod_mod_of_dvd n hdvd

theorem slot_ne {i j : ℕ} (hij : i < j) (hj : j < i + size) : i % size ≠ j % size := by
  intro h
  obtain ⟨d, rfl⟩ : ∃ d, j = i + d := ⟨_, (Nat.add_sub_cancel' (Nat.le_of_lt hij)).symm⟩
  have := add_mod_eq_mod (by omega) h.symm
  omega

theorem Holds.push (h : Holds size word r pushed popped) (hdvd : size ∣ word)
    (hroom : pushed.length < popped.length + size) (x : α) :
    Holds size word (r.push size word x) (pushed ++ [x]) popped := by
  refine ⟨h.nread, ?_, h.order.trans (List.prefix_append _ _),
    by simpa [Nat.succ_le_iff] using hroom, fun i hi hlt => ?_⟩
  · simp [Ring.push, h.nwrite, Nat.mod_add_mod]
  · have hslot : r.nwrite % size = pushed.length % size := by rw [h.nwrite, slot_eq hdvd]
    simp only [List.length_append, List.length_singleton] at hlt
    by_cases hlast : i = pushed.length
    · simp [Ring.push, hlast, hslot]
    · have hold : i < pushed.length := by omega
      have hne : i % size ≠ pushed.length % size := slot_ne hold (by omega)
      rw [List.getElem?_append_left hold, h.cells i hi hold]
      simp [Ring.push, hslot, update_of_ne hne]

theorem Holds.pop (h : Holds size word r pushed popped) (hdvd : size ∣ word)
    (hsome : popped.length < pushed.length) :
    Holds size word (r.pop word) pushed (popped ++ [r.cells (r.nread % size)]) := by
  have hcell := h.cells popped.length (Nat.le_refl _) hsome
  rw [h.nread, slot_eq hdvd]
  refine ⟨?_, h.nwrite, ?_, ?_, fun i hi hlt => ?_⟩
  · simp [Ring.pop, h.nread, Nat.mod_add_mod]
  · obtain ⟨rest, hrest⟩ := h.order
    rw [← hrest] at hcell hsome ⊢
    cases rest with
    | nil => simp at hsome
    | cons y rest =>
      simp only [List.getElem?_append_right (Nat.le_refl _), Nat.sub_self, List.getElem?_cons_zero,
        Option.some.injEq] at hcell
      exact ⟨rest, by simp [hcell]⟩
  · have := h.room
    simp only [List.length_append, List.length_singleton]
    omega
  · simp only [List.length_append, List.length_singleton] at hi
    exact h.cells i (by omega) hlt

theorem holds_empty (cells : ℕ → α) : Holds size word ⟨cells, 0, 0⟩ [] [] :=
  ⟨(Nat.zero_mod _).symm, (Nat.zero_mod _).symm, List.nil_prefix, Nat.zero_le _,
    fun _ _ h => absurd h (Nat.not_lt_zero _)⟩

end Xv6.Rings
