import Mathlib.Computability.Language

namespace Xv6.Grep

/-- A `char*`: the bytes from there on. Past the end of the list every byte is `'\0'`. -/
abbrev Text := List UInt8

def caret : UInt8 := '^'.toUInt8
def dot : UInt8 := '.'.toUInt8
def star : UInt8 := '*'.toUInt8
def dollar : UInt8 := '$'.toUInt8

def byteAt (s : Text) (i : ℕ) : UInt8 := s.getD i 0

theorem length_tail_lt {s : Text} (h : byteAt s 0 ≠ 0) : (s.drop 1).length < s.length := by
  cases s with
  | nil => exact absurd rfl h
  | cons x s => exact Nat.lt_succ_self _

mutual

def matchhere (re text : Text) : Bool :=
  if byteAt re 0 = 0 then true
  else if byteAt re 1 = star then matchstar (byteAt re 0) (re.drop 2) text
  else if byteAt re 0 = dollar ∧ byteAt re 1 = 0 then byteAt text 0 = 0
  else if byteAt text 0 ≠ 0 ∧ (byteAt re 0 = dot ∨ byteAt re 0 = byteAt text 0) then
    matchhere (re.drop 1) (text.drop 1)
  else false
termination_by (re.length, text.length, 0)
decreasing_by
  · rename_i hre _
    have hlt := length_tail_lt hre
    apply Prod.Lex.left
    simp only [List.length_drop] at hlt ⊢
    omega
  · rename_i hre _ _ _
    exact Prod.Lex.left _ _ (length_tail_lt hre)

def matchstar (c : UInt8) (re text : Text) : Bool :=
  if matchhere re text then true
  else if byteAt text 0 ≠ 0 ∧ (byteAt text 0 = c ∨ c = dot) then matchstar c re (text.drop 1)
  else false
termination_by (re.length, text.length, 1)
decreasing_by
  · exact Prod.Lex.right _ (Prod.Lex.right _ Nat.one_pos)
  · rename_i _ htext
    exact Prod.Lex.right _ (Prod.Lex.left _ _ (length_tail_lt htext.1))

end

def matchFrom (re text : Text) : Bool :=
  if matchhere re text then true
  else if byteAt text 0 ≠ 0 then matchFrom re (text.drop 1)
  else false
termination_by text.length
decreasing_by
  rename_i _ htext
  exact length_tail_lt htext

def matchText (re text : Text) : Bool :=
  if byteAt re 0 = caret then matchhere (re.drop 1) text else matchFrom re text

inductive Item
  | one (c : UInt8)
  | many (c : UInt8)

structure Pattern where
  items : List Item
  toEnd : Bool

def Pattern.after (i : Item) (p : Pattern) : Pattern := { p with items := i :: p.items }

def pattern : Text → Pattern
  | [] => ⟨[], false⟩
  | [c] => if c = dollar then ⟨[], true⟩ else ⟨[.one c], false⟩
  | c :: d :: re => if d = star then (pattern re).after (.many c) else (pattern (d :: re)).after (.one c)

def single (c : UInt8) : Language UInt8 := {w | ∃ x, w = [x] ∧ (c = dot ∨ c = x)}

open scoped Computability in
def Item.language : Item → Language UInt8
  | .one c => single c
  | .many c => (single c)∗

def Pattern.language (p : Pattern) : Language UInt8 :=
  (p.items.map Item.language).prod * if p.toEnd then 1 else ⊤

def cstring (s : Text) : Text := s.takeWhile (· ≠ 0)

section

variable {s w re text : Text} {c x : UInt8} {L : Language UInt8}

theorem cstring_cons (hx : x ≠ 0) : cstring (x :: s) = x :: cstring s := by
  simp [cstring, hx]

theorem cstring_eq_nil (h : byteAt s 0 = 0) : cstring s = [] := by
  cases s with
  | nil => rfl
  | cons x s =>
    have hx : x = 0 := h
    simp [cstring, hx]

theorem cstring_eq_cons (h : byteAt s 0 ≠ 0) : cstring s = byteAt s 0 :: cstring (s.drop 1) := by
  cases s with
  | nil => exact absurd rfl h
  | cons x s => exact cstring_cons h

theorem byteAt_drop (s : Text) : byteAt (s.drop 1) 0 = byteAt s 1 := by
  simp [byteAt]

theorem mem_top_language (w : Text) : w ∈ (⊤ : Language UInt8) := trivial

theorem mem_single_mul : w ∈ single c * L ↔ ∃ x v, w = x :: v ∧ (c = dot ∨ c = x) ∧ v ∈ L := by
  rw [Language.mem_mul]
  constructor
  · rintro ⟨_, ⟨x, rfl, hx⟩, v, hv, rfl⟩
    exact ⟨x, v, rfl, hx, hv⟩
  · rintro ⟨x, v, rfl, hx, hv⟩
    exact ⟨[x], ⟨x, rfl, hx⟩, v, hv, rfl⟩

open scoped Computability in
theorem mem_many_mul :
    w ∈ (Item.many c).language * L ↔
      w ∈ L ∨ w ∈ single c * ((Item.many c).language * L) := by
  have hunfold : (Item.many c).language * L = L + single c * ((Item.many c).language * L) := by
    change (single c)∗ * L = L + single c * ((single c)∗ * L)
    rw [← mul_assoc, ← one_add_mul, Language.one_add_self_mul_kstar_eq_kstar]
  rw [hunfold, Language.mem_add, ← hunfold]

theorem after_language (i : Item) (p : Pattern) : (p.after i).language = i.language * p.language := by
  rw [Pattern.language, Pattern.after, List.map_cons, List.prod_cons]
  exact mul_assoc _ _ _

theorem pattern_many (c : UInt8) (re : Text) :
    (pattern (c :: star :: re)).language = (Item.many c).language * (pattern re).language := by
  rw [pattern, if_pos rfl, after_language]

theorem mem_pattern_nil (w : Text) : w ∈ (pattern []).language := by
  simp [pattern, Pattern.language, mem_top_language]

theorem pattern_dollar : (pattern [dollar]).language = 1 := by
  simp [pattern, Pattern.language]

theorem pattern_one (hstar : s.head? ≠ some star) (hend : c = dollar → s ≠ []) :
    (pattern (c :: s)).language = single c * (pattern s).language := by
  cases s with
  | nil =>
    have hc : c ≠ dollar := fun h => hend h rfl
    simp [pattern, hc, Pattern.language, Item.language]
  | cons d re =>
    have hd : d ≠ star := fun h => hstar (h ▸ rfl)
    rw [pattern, if_neg hd, after_language]
    rfl

theorem mem_single_cons_mul : x :: w ∈ single c * L ↔ (c = dot ∨ c = x) ∧ w ∈ L := by
  rw [mem_single_mul]
  constructor
  · rintro ⟨y, v, heq, hy, hv⟩
    cases heq
    exact ⟨hy, hv⟩
  · rintro ⟨hx, hw⟩
    exact ⟨x, w, rfl, hx, hw⟩

theorem nil_mem_single_mul : [] ∉ single c * L := by
  rw [mem_single_mul]
  rintro ⟨y, v, heq, _⟩
  cases heq

theorem matchstar_iff (h : ∀ text, matchhere re text = true ↔ cstring text ∈ L) (c : UInt8) (text : Text) :
    matchstar c re text = true ↔ cstring text ∈ (Item.many c).language * L := by
  induction text with
  | nil =>
    rw [matchstar, mem_many_mul, ← h]
    simp [byteAt, cstring, nil_mem_single_mul]
  | cons x text ih =>
    rw [matchstar, mem_many_mul, ← h]
    by_cases hx : x = 0
    · simp [byteAt, cstring, hx, nil_mem_single_mul]
    · rw [cstring_cons hx, mem_single_cons_mul, ← ih]
      simp [byteAt, hx]
      grind

theorem cstring_nil_iff (s : Text) : cstring s = [] ↔ byteAt s 0 = 0 := by
  constructor
  · intro h
    by_contra hne
    rw [cstring_eq_cons hne] at h
    cases h
  · exact cstring_eq_nil

theorem head?_cstring_iff (s : Text) (hc : c ≠ 0) : (cstring s).head? = some c ↔ byteAt s 0 = c := by
  by_cases h : byteAt s 0 = 0
  · rw [cstring_eq_nil h, h]
    simp [hc.symm]
  · rw [cstring_eq_cons h]
    simp

theorem matchhere_iff (re text : Text) : matchhere re text = true ↔
    cstring text ∈ (pattern (cstring re)).language := by
  induction hn : re.length using Nat.strongRecOn generalizing re text with
  | _ n ih =>
    rw [matchhere]
    by_cases hre : byteAt re 0 = 0
    · rw [if_pos hre, cstring_eq_nil hre]
      simp only [mem_pattern_nil]
    have hlt := length_tail_lt hre
    rw [if_neg hre, cstring_eq_cons hre]
    by_cases hstar : byteAt re 1 = star
    · have hne : byteAt (re.drop 1) 0 ≠ 0 := by
        rw [byteAt_drop, hstar]
        decide
      rw [if_pos hstar, cstring_eq_cons hne, byteAt_drop, hstar, pattern_many, List.drop_drop]
      have hshort : (re.drop (1 + 1)).length < n := by
        simp only [List.length_drop] at hlt ⊢
        omega
      exact matchstar_iff (fun text => ih _ hshort _ text rfl) _ _
    rw [if_neg hstar]
    by_cases hend : byteAt re 0 = dollar ∧ byteAt re 1 = 0
    · have hnil : cstring (re.drop 1) = [] := cstring_eq_nil ((byteAt_drop re).trans hend.2)
      rw [if_pos hend, hnil, hend.1, pattern_dollar, Language.mem_one, cstring_nil_iff, decide_eq_true_eq]
    have hnext : (cstring (re.drop 1)).head? ≠ some star := by
      rwa [ne_eq, head?_cstring_iff _ (by decide), byteAt_drop]
    have hlast : byteAt re 0 = dollar → cstring (re.drop 1) ≠ [] := by
      rw [ne_eq, cstring_nil_iff, byteAt_drop]
      exact fun hdollar hnul => hend ⟨hdollar, hnul⟩
    rw [if_neg hend, pattern_one hnext hlast]
    by_cases htext : byteAt text 0 = 0
    · rw [if_neg (fun h => h.1 htext), cstring_eq_nil htext]
      simp [nil_mem_single_mul]
    · rw [cstring_eq_cons htext, mem_single_cons_mul, ← ih _ (hn ▸ hlt) _ _ rfl]
      simp [htext]

theorem matchFrom_step (re text : Text) :
    matchFrom re text = true ↔ matchhere re text = true ∨ byteAt text 0 ≠ 0 ∧
    matchFrom re (text.drop 1) = true := by
  rw [matchFrom]
  split_ifs with hhere htext
  · simp [hhere]
  · simp [hhere, htext]
  · simp [hhere, htext]

theorem matchFrom_iff (re text : Text) :
    matchFrom re text = true ↔ ∃ i ≤ (cstring text).length,
    (cstring text).drop i ∈ (pattern (cstring re)).language := by
  induction text with
  | nil =>
    rw [matchFrom_step, matchhere_iff]
    simp [byteAt, cstring]
  | cons x text ih =>
    rw [matchFrom_step, matchhere_iff]
    by_cases hx : x = 0
    · simp [byteAt, cstring, hx]
    · rw [cstring_cons hx, List.drop_one, List.tail_cons, ih]
      constructor
      · rintro (hhere | ⟨_, i, hi, hmem⟩)
        · exact ⟨0, Nat.zero_le _, hhere⟩
        · exact ⟨i + 1, Nat.succ_le_succ hi, hmem⟩
      · rintro ⟨i, hi, hmem⟩
        cases i with
        | zero => exact .inl hmem
        | succ i => exact .inr ⟨hx, i, Nat.le_of_succ_le_succ hi, hmem⟩

end

def body (re : Text) : Text := if re.head? = some caret then re.tail else re

theorem match_iff (re text : Text) :
    matchText re text = true ↔ ∃ i ≤ (cstring text).length, ((cstring re).head? = some caret → i = 0) ∧
      (cstring text).drop i ∈ (pattern (body (cstring re))).language := by
  have hcaret := head?_cstring_iff (c := caret) re (by decide)
  rw [matchText]
  by_cases h : byteAt re 0 = caret
  · have hne : byteAt re 0 ≠ 0 := by
      rw [h]
      decide
    rw [if_pos h, body, if_pos (hcaret.mpr h), matchhere_iff, cstring_eq_cons hne, List.tail_cons]
    constructor
    · intro hmem
      exact ⟨0, Nat.zero_le _, fun _ => rfl, hmem⟩
    · rintro ⟨i, _, hi, hmem⟩
      rw [hi (congrArg some h), List.drop_zero] at hmem
      exact hmem
  · rw [if_neg h, body, if_neg (mt hcaret.mp h), matchFrom_iff]
    simp [hcaret, h]

end Xv6.Grep
