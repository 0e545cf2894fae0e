import Mathlib.Data.List.Nodup

namespace Xv6.LinkedLists

open Function

variable {α : Type}

def Path (next : α → α) : α → List α → α → Prop
  | a, [], z => next a = z
  | a, b :: l, z => next a = b ∧ Path next b l z

section

variable {next next' : α → α} {a b p z : α} {l l' : List α}

theorem path_append : Path next a (l ++ b :: l') z ↔ Path next a l b ∧ Path next b l' z := by
  induction l generalizing a with
  | nil => rfl
  | cons c l ih =>
    change next a = c ∧ Path next c (l ++ b :: l') z ↔ (next a = c ∧ Path next c l b) ∧ Path next b l' z
    rw [ih, and_assoc]

theorem Path.start (h : Path next a l z) (hb : next' b = next a) (hl : ∀ x ∈ l, next' x = next x) :
    Path next' b l z := by
  induction l generalizing a b with
  | nil => exact hb.trans h
  | cons c l ih =>
    refine ⟨hb.trans h.1, ih h.2 (hl c List.mem_cons_self) fun x hx => hl x (List.mem_cons_of_mem c hx)⟩

theorem Path.congr (h : Path next a l z) (ha : next' a = next a) (hl : ∀ x ∈ l, next' x = next x) :
    Path next' a l z :=
  h.start ha hl

theorem Path.next_mem (h : Path next a l z) (hp : p = a ∨ p ∈ l) : next p = z ∨ next p ∈ l := by
  induction l generalizing a with
  | nil =>
    obtain rfl | hp := hp
    · exact .inl h
    · cases hp
  | cons c l ih =>
    obtain rfl | hp := hp
    · exact .inr (h.1 ▸ List.mem_cons_self)
    · exact (ih h.2 (List.mem_cons.mp hp)).imp_right (List.mem_cons_of_mem c)

theorem Path.last (h : Path next a l z) (hz : z ∉ l) (hp : p = a ∨ p ∈ l) (hend : next p = z) :
    p = a ∧ l = [] ∨ ∃ l', l = l' ++ [p] := by
  induction l generalizing a with
  | nil =>
    obtain rfl | hp := hp
    · exact .inl ⟨rfl, rfl⟩
    · cases hp
  | cons c l ih =>
    rw [List.mem_cons, not_or] at hz
    obtain rfl | hp := hp
    · exact absurd (hend.symm.trans h.1) hz.1
    · rw [List.mem_cons] at hp
      obtain ⟨rfl, rfl⟩ | ⟨l', rfl⟩ := ih h.2 hz.2 hp
      · exact .inr ⟨[], rfl⟩
      · exact .inr ⟨c :: l', rfl⟩

end

section

variable [DecidableEq α] {next : α → α} {a b z : α} {l : List α}

theorem Path.snoc (h : Path next a l z) (ha : a ∉ l) (hnodup : l.Nodup) (hb : b ≠ a ∧ b ∉ l)
    (hend : next b = z) {p : α}
    (hp : p = a ∧ l = [] ∨ ∃ l', l = l' ++ [p]) : Path (update next p b) a (l ++ [b]) z := by
  have hlast : Path (update next p b) p [b] z := by
    refine ⟨update_self _ _ _, ?_⟩
    have hbp : b ≠ p := by
      rintro rfl
      obtain ⟨rfl, _⟩ | ⟨l', rfl⟩ := hp
      · exact hb.1 rfl
      · exact hb.2 (List.mem_append_right l' List.mem_cons_self)
    change update next p b b = z
    rw [update_of_ne hbp, hend]
  obtain ⟨rfl, rfl⟩ | ⟨l', rfl⟩ := hp
  · exact hlast
  · rw [List.append_assoc, List.singleton_append, path_append]
    rw [path_append] at h
    rw [List.mem_append, List.mem_singleton, not_or] at ha
    rw [List.nodup_append'] at hnodup
    refine ⟨h.1.congr (update_of_ne ha.2 _ _) fun x hx => update_of_ne ?_ _ _, hlast⟩
    rintro rfl
    exact hnodup.2.2 hx List.mem_cons_self

theorem Path.skip {l' : List α} (h : Path next a l b) (h' : Path next b l' z) (hnodup : (a :: l ++ l').Nodup) :
    Path (update next (l.getLast?.getD a) (next b)) a (l ++ l') z := by
  induction l generalizing a with
  | nil =>
    refine h'.start (update_self _ _ _) fun x hx => update_of_ne ?_ _ _
    rintro rfl
    exact (List.nodup_cons.mp hnodup).1 hx
  | cons c l ih =>
    rw [List.getLast?_cons, Option.getD_some]
    obtain ⟨ha, hnodup⟩ := List.nodup_cons.mp hnodup
    refine ⟨?_, ih h.2 hnodup⟩
    rw [update_of_ne, h.1]
    rintro rfl
    apply ha
    cases hlast : l.getLast? with
    | none => exact List.mem_cons_self
    | some d => exact List.mem_cons_of_mem c (List.mem_append_left l' (List.mem_of_getLast? hlast))

end

section Rings

structure Circular (next prev : α → α) (h : α) (l : List α) : Prop where
  forward : Path next h l h
  backward : Path prev h l.reverse h

variable [DecidableEq α] {next prev : α → α} {h b : α} {l l' : List α}

omit [DecidableEq α] in
theorem Path.next_eq {a z : α} (hp : Path next a l z) : next a = l.head?.getD z := by
  cases l with
  | nil => exact hp
  | cons c l => exact hp.1

theorem Circular.pushFront (hc : Circular next prev h l) (hnodup : (h :: l).Nodup) (hb : b ∉ h :: l) :
    Circular (update (update next b (next h)) h b)
      (update (update prev b h) (next h) b) h (b :: l) := by
  obtain ⟨hbh, hbl⟩ := not_or.mp (List.mem_cons.not.mp hb)
  obtain ⟨hh, hl⟩ := List.nodup_cons.mp hnodup
  constructor
  · refine ⟨update_self _ _ _, hc.forward.start ?_ fun x hx => ?_⟩
    · rw [update_of_ne hbh, update_self]
    · rw [update_of_ne (ne_of_mem_of_not_mem hx hh), update_of_ne (ne_of_mem_of_not_mem hx hbl)]
  · have hback := hc.backward
    rw [List.reverse_cons, path_append]
    cases l with
    | nil =>
      have hnext : next h = h := hc.forward
      refine ⟨?_, ?_⟩
      · change update (update prev b h) (next h) b h = b
        rw [hnext, update_self]
      · change update (update prev b h) (next h) b b = h
        rw [hnext, update_of_ne hbh, update_self]
    | cons c l =>
      obtain ⟨hbc, hbl⟩ := not_or.mp (List.mem_cons.not.mp hbl)
      obtain ⟨hhc, hh⟩ := not_or.mp (List.mem_cons.not.mp hh)
      have hcl := (List.nodup_cons.mp hl).1
      rw [hc.forward.1]
      rw [List.reverse_cons, path_append] at hback ⊢
      refine ⟨⟨hback.1.congr ?_ fun x hx => ?_, update_self _ _ _⟩, ?_⟩
      · rw [update_of_ne hhc, update_of_ne (Ne.symm hbh)]
      · rw [List.mem_reverse] at hx
        rw [update_of_ne (ne_of_mem_of_not_mem hx hcl), update_of_ne (ne_of_mem_of_not_mem hx hbl)]
      · change update (update prev b h) c b b = h
        rw [update_of_ne hbc, update_self]

theorem Circular.unlink (hc : Circular next prev h (l ++ b :: l')) (hnodup : (h :: (l ++ b :: l')).Nodup) :
    Circular (update next (prev b) (next b)) (update prev (next b) (prev b)) h (l ++ l') := by
  obtain ⟨hforward, hnext⟩ := path_append.mp hc.forward
  have hback := hc.backward
  rw [List.reverse_append, List.reverse_cons, List.append_assoc, List.singleton_append] at hback
  obtain ⟨hbackward, hprev⟩ := path_append.mp hback
  have hpb : prev b = l.getLast?.getD h := by rw [hprev.next_eq, List.head?_reverse]
  have hnb : next b = l'.reverse.getLast?.getD h := by rw [hnext.next_eq, List.getLast?_reverse]
  have hsub : (h :: l ++ l').Sublist (h :: (l ++ b :: l')) :=
    ((List.sublist_cons_self b l').append_left l).cons_cons h
  constructor
  · rw [hpb]
    exact hforward.skip hnext (hnodup.sublist hsub)
  · rw [hnb, List.reverse_append]
    refine hbackward.skip hprev ?_
    have hperm : (h :: l'.reverse ++ l.reverse).Perm (h :: l ++ l') := by
      rw [List.cons_append, ← List.reverse_append]
      exact (List.reverse_perm (l ++ l')).cons h
    exact hperm.nodup_iff.mpr (hnodup.sublist hsub)

end Rings

end Xv6.LinkedLists
