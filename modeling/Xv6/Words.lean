import Mathlib.Algebra.Group.Nat.Defs

namespace Xv6.Words

abbrev Bytes := ℕ → ℕ

def get32 (b : Bytes) (a : ℕ) : ℕ := b a + 2 ^ 8 * b (a + 1) + 2 ^ 16 * b (a + 2) + 2 ^ 24 * b (a + 3)

def set32 (b : Bytes) (a w : ℕ) : Bytes := fun x =>
  if a ≤ x ∧ x < a + 4 then w / 2 ^ (8 * (x - a)) % 2 ^ 8 else b x

theorem set32_other (b : Bytes) (w : ℕ) {a x : ℕ} (h : x < a ∨ a + 4 ≤ x) : set32 b a w x = b x :=
  if_neg (by omega)

theorem get32_set32 (b : Bytes) (a : ℕ) {w : ℕ} (hw : w < 2 ^ 32) : get32 (set32 b a w) a = w := by
  have hbyte (k : ℕ) (hk : k < 4) : set32 b a w (a + k) = w / 2 ^ (8 * k) % 2 ^ 8 := by
    rw [set32, if_pos (by omega), Nat.add_sub_cancel_left]
  have h0 := hbyte 0 (by decide)
  have h1 := hbyte 1 (by decide)
  have h2 := hbyte 2 (by decide)
  have h3 := hbyte 3 (by decide)
  simp only [Nat.add_zero, Nat.mul_zero, Nat.mul_one, Nat.reduceMul, Nat.reducePow] at h0 h1 h2 h3
  rw [get32, h0, h1, h2, h3]
  omega

theorem get32_congr {b b' : Bytes} {a : ℕ} (h : ∀ x, a ≤ x → x < a + 4 → b' x = b x) : get32 b' a = get32 b a := by
  rw [get32, get32, h a (by omega) (by omega), h (a + 1) (by omega) (by omega), h (a + 2) (by omega) (by omega),
    h (a + 3) (by omega) (by omega)]

theorem get32_set32_other (b : Bytes) (w : ℕ) {a a' : ℕ} (h : a' + 4 ≤ a ∨ a + 4 ≤ a') :
    get32 (set32 b a w) a' = get32 b a' :=
  get32_congr fun x hlo hhi => set32_other b w (by omega)

theorem get32_zero (a : ℕ) : get32 (fun _ => 0) a = 0 := rfl

def copyIn (b : Bytes) (a : ℕ) (bytes : List ℕ) : Bytes := fun x =>
  if a ≤ x ∧ x < a + bytes.length then bytes.getD (x - a) 0 else b x

end Xv6.Words
