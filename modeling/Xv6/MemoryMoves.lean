import Mathlib.Algebra.Group.Int.Defs
import Mathlib.Algebra.Group.Nat.Defs
import Mathlib.Logic.Function.Basic
import Mathlib.Tactic.SplitIfs

namespace Xv6.Moves

open Function

abbrev Memory := ℕ → UInt8

def copyUp : ℕ → Memory → ℕ → ℕ → Memory
  | 0, mem, _, _ => mem
  | n + 1, mem, d, s => copyUp n (Function.update mem d (mem s)) ((d + 1) % 2 ^ 32) ((s + 1) % 2 ^ 32)

def before (p : ℕ) : ℕ := if p = 0 then 2 ^ 32 - 1 else p - 1

def copyDown : ℕ → Memory → ℕ → ℕ → Memory
  | 0, mem, _, _ => mem
  | n + 1, mem, d, s => copyDown n (Function.update mem (before d) (mem (before s))) (before d) (before s)

def Kernel.memmove (mem : Memory) (dst src n : ℕ) : ℕ × Memory :=
  if src < dst ∧ dst < (src + n) % 2 ^ 32 then (dst, copyDown n mem ((dst + n) % 2 ^ 32) ((src + n) % 2 ^ 32))
  else (dst, copyUp n mem dst src)

def Ulib.memmove (mem : Memory) (vdst vsrc : ℕ) (n : ℤ) : ℕ × Memory := (vdst, copyUp n.toNat mem vdst vsrc)

def moved (mem : Memory) (dst src n : ℕ) : Memory := fun a =>
  if dst ≤ a ∧ a < dst + n then mem (src + (a - dst)) else mem a

section

variable {mem : Memory} {d s dst src n a : ℕ}

theorem moved_inside (h : dst ≤ a) (h' : a < dst + n) :
    moved mem dst src n a = mem (src + (a - dst)) := if_pos ⟨h, h'⟩

theorem moved_outside (h : a < dst ∨ dst + n ≤ a) : moved mem dst src n a = mem a := if_neg (by omega)

theorem copyUp_succ (hd : d + n < 2 ^ 32) (hs : s + n < 2 ^ 32) :
    copyUp (n + 1) mem d s = copyUp n (update mem d (mem s)) (d + 1) (s + 1) := by
  cases n with
  | zero => rfl
  | succ n =>
    rw [copyUp, Nat.mod_eq_of_lt (by omega), Nat.mod_eq_of_lt (by omega)]

theorem copyUp_outside (hd : d + n ≤ 2 ^ 32) (hs : s + n ≤ 2 ^ 32) (ha : a < d ∨ d + n ≤ a) :
    copyUp n mem d s a = mem a := by
  induction n generalizing mem d s with
  | zero => rfl
  | succ n ih =>
    rw [copyUp_succ (by omega) (by omega), ih (by omega) (by omega) (by omega)]
    apply update_of_ne
    omega

theorem copyUp_below (hd : d + n ≤ 2 ^ 32) (hs : s + n ≤ 2 ^ 32) (h : d ≤ s) (ha : d ≤ a) (ha' : a < d + n) :
    copyUp n mem d s a = mem (s + (a - d)) := by
  induction n generalizing mem d s with
  | zero => omega
  | succ n ih =>
    rw [copyUp_succ (by omega) (by omega)]
    by_cases had : a = d
    · rw [copyUp_outside (by omega) (by omega) (by omega), had, update_self, Nat.sub_self, Nat.add_zero]
    · rw [ih (by omega) (by omega) (by omega) (by omega) (by omega), update_of_ne (by omega)]
      congr 1
      omega

theorem mod_succ_eq (i : ℕ) {k : ℕ} (hk : 0 < k) :
    i % k + 1 = k ∧ (i + 1) % k = 0 ∨ i % k + 1 < k ∧ (i + 1) % k = i % k + 1 := by
  have hlt := Nat.mod_lt i hk
  by_cases hlast : i % k + 1 = k
  · left
    refine ⟨hlast, ?_⟩
    rw [← Nat.mod_add_mod, hlast, Nat.mod_self]
  · right
    have hless : i % k + 1 < k := by omega
    refine ⟨hless, ?_⟩
    rw [← Nat.mod_add_mod, Nat.mod_eq_of_lt hless]

theorem copyUp_above (hd : d + n ≤ 2 ^ 32) (hs : s + n ≤ 2 ^ 32) (h : s < d) (ha : d ≤ a) (ha' : a < d + n) :
    copyUp n mem d s a = mem (s + (a - d) % (d - s)) := by
  induction n generalizing mem d s with
  | zero => omega
  | succ n ih =>
    rw [copyUp_succ (by omega) (by omega)]
    by_cases had : a = d
    · rw [copyUp_outside (by omega) (by omega) (by omega), had, update_self, Nat.sub_self, Nat.zero_mod,
        Nat.add_zero]
    · rw [ih (by omega) (by omega) (by omega) (by omega) (by omega)]
      have hk : d + 1 - (s + 1) = d - s := by omega
      have hi : a - d = a - (d + 1) + 1 := by omega
      rw [hk, hi]
      obtain ⟨hlast, hzero⟩ | ⟨hless, hnext⟩ := mod_succ_eq (a - (d + 1)) (show 0 < d - s by omega)
      · have haddr : s + 1 + (a - (d + 1)) % (d - s) = d := by omega
        rw [haddr, update_self, hzero, Nat.add_zero]
      · rw [update_of_ne (by omega), hnext]
        congr 1
        omega

theorem before_add (h : d + n < 2 ^ 32) : before ((d + (n + 1)) % 2 ^ 32) = d + n := by
  unfold before
  split_ifs
  · omega
  · omega

theorem copyDown_succ (hd : d + n < 2 ^ 32) (hs : s + n < 2 ^ 32) :
    copyDown (n + 1) mem ((d + (n + 1)) % 2 ^ 32) ((s + (n + 1)) % 2 ^ 32) =
      copyDown n (update mem (d + n) (mem (s + n))) ((d + n) % 2 ^ 32) ((s + n) % 2 ^ 32) := by
  rw [copyDown, before_add hd, before_add hs, Nat.mod_eq_of_lt hd, Nat.mod_eq_of_lt hs]

theorem copyDown_moved (hd : d + n ≤ 2 ^ 32) (hs : s + n ≤ 2 ^ 32) (h : s ≤ d) :
    copyDown n mem ((d + n) % 2 ^ 32) ((s + n) % 2 ^ 32) = moved mem d s n := by
  induction n generalizing mem with
  | zero =>
    funext a
    rw [moved_outside (by omega)]
    rfl
  | succ n ih =>
    rw [copyDown_succ (by omega) (by omega), ih (by omega) (by omega)]
    funext a
    by_cases hlast : a = d + n
    · rw [moved_outside (by omega), moved_inside (by omega) (by omega), hlast, update_self,
        Nat.add_sub_cancel_left]
    · by_cases hin : d ≤ a ∧ a < d + n
      · rw [moved_inside hin.1 hin.2, moved_inside hin.1 (by omega), update_of_ne (by omega)]
      · rw [moved_outside (by omega), moved_outside (by omega), update_of_ne hlast]

theorem copyUp_moved (hd : d + n ≤ 2 ^ 32) (hs : s + n ≤ 2 ^ 32) (h : ¬(s < d ∧ d < s + n)) :
    copyUp n mem d s = moved mem d s n := by
  funext a
  by_cases hin : d ≤ a ∧ a < d + n
  · rw [moved_inside hin.1 hin.2]
    by_cases hsd : s < d
    · rw [copyUp_above hd hs hsd hin.1 hin.2, Nat.mod_eq_of_lt (by omega)]
    · exact copyUp_below hd hs (by omega) hin.1 hin.2
  · rw [moved_outside (by omega), copyUp_outside hd hs (by omega)]

theorem memmove_moved (mem : Memory) (hd : dst + n ≤ 2 ^ 32) (hs : src + n ≤ 2 ^ 32) :
    (Kernel.memmove mem dst src n).2 = moved mem dst src n := by
  unfold Kernel.memmove
  split_ifs with hover
  · exact copyDown_moved hd hs (by omega)
  · apply copyUp_moved hd hs
    -- `s + n` wraps only when the source ends at the top of memory, and then `d` cannot lie above `s`
    rintro ⟨hlt, hless⟩
    apply hover
    rw [Nat.mod_eq_of_lt (by omega)]
    exact ⟨hlt, hless⟩

theorem periodic_mod {k : ℕ} (hk : 0 < k) (h : ∀ i, i + k < n → mem (src + i + k) = mem (src + i)) {i : ℕ}
    (hi : i < n) : mem (src + i % k) = mem (src + i) := by
  induction i using Nat.strongRecOn with
  | _ i ih =>
    by_cases hik : i < k
    · rw [Nat.mod_eq_of_lt hik]
    · have hback := h (i - k) (by omega)
      have haddr : src + (i - k) + k = src + i := by omega
      rw [haddr] at hback
      rw [Nat.mod_eq_sub_mod (by omega), ih (i - k) (by omega) (by omega), hback]

theorem copyUp_moved_iff (hd : dst + n ≤ 2 ^ 32) (hs : src + n ≤ 2 ^ 32) :
    copyUp n mem dst src = moved mem dst src n ↔
      ¬(src < dst ∧ dst < src + n) ∨ ∀ i, i + (dst - src) < n → mem (src + i + (dst - src)) = mem (src + i) := by
  by_cases hover : src < dst ∧ dst < src + n
  · constructor
    · intro heq
      right
      intro i hi
      -- the byte at `i + (dst - src)` was read from a place that had been overwritten with byte `i`
      have hbyte (j : ℕ) (hj : j < n) : mem (src + j % (dst - src)) = mem (src + j) := by
        have hat := congrFun heq (dst + j)
        rwa [copyUp_above hd hs hover.1 (by omega) (by omega), moved_inside (by omega) (by omega),
          Nat.add_sub_cancel_left] at hat
      have hfar := hbyte (i + (dst - src)) hi
      rw [Nat.add_mod_right, hbyte i (by omega), ← Nat.add_assoc] at hfar
      exact hfar.symm
    · intro h
      have hperiod := h.resolve_left (not_not_intro hover)
      funext a
      by_cases hin : dst ≤ a ∧ a < dst + n
      · rw [copyUp_above hd hs hover.1 hin.1 hin.2, moved_inside hin.1 hin.2]
        exact periodic_mod (by omega) hperiod (by omega)
      · rw [moved_outside (by omega), copyUp_outside hd hs (by omega)]
  · exact ⟨fun _ => .inl hover, fun _ => copyUp_moved hd hs hover⟩

end

theorem memmoves_agree_iff (mem : Memory) (dst src n : ℕ) (hd : dst + n ≤ 2 ^ 32) (hs : src + n ≤ 2 ^ 32) :
    ((Kernel.memmove mem dst src n).2 = moved mem dst src n ∧
      (Ulib.memmove mem dst src n).2 = moved mem dst src n ∧
      (Kernel.memmove mem dst src n).2 = (Ulib.memmove mem dst src n).2) ↔
    ¬(src < dst ∧ dst < src + n) ∨ ∀ i, i + (dst - src) < n → mem (src + i + (dst - src)) = mem (src + i) := by
  have hkernel := memmove_moved mem hd hs
  rw [← copyUp_moved_iff hd hs]
  constructor
  · rintro ⟨_, huser, _⟩
    exact huser
  · intro huser
    exact ⟨hkernel, huser, hkernel.trans huser.symm⟩

def letters : Memory := fun a => if a = 0x1000 then 97 else if a = 0x1001 then 98 else 99

theorem memmoves_agree_downwards :
    (Kernel.memmove letters 0x1000 0x1001 2).2 = moved letters 0x1000 0x1001 2 ∧
      (Ulib.memmove letters 0x1000 0x1001 2).2 = moved letters 0x1000 0x1001 2 ∧
      (Kernel.memmove letters 0x1000 0x1001 2).2 = (Ulib.memmove letters 0x1000 0x1001 2).2 :=
  (memmoves_agree_iff letters 0x1000 0x1001 2 (by decide) (by decide)).mpr (.inl (by decide))

theorem memmoves_differ_upwards :
    ¬((Kernel.memmove letters 0x1001 0x1000 2).2 = moved letters 0x1001 0x1000 2 ∧
      (Ulib.memmove letters 0x1001 0x1000 2).2 = moved letters 0x1001 0x1000 2 ∧
      (Kernel.memmove letters 0x1001 0x1000 2).2 = (Ulib.memmove letters 0x1001 0x1000 2).2) := by
  rintro ⟨_, huser, _⟩
  have hbyte := congrFun huser 0x1002
  revert hbyte
  decide

end Xv6.Moves
