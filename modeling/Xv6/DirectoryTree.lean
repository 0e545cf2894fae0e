import Xv6.FileSystem
import Xv6.Counting
import Mathlib.Algebra.BigOperators.Ring.Finset
import Mathlib.Algebra.Order.BigOperators.Group.Finset
import Mathlib.Data.List.GetD

namespace Xv6.FileSystem

open Xv6.Counting Function

abbrev Table := ℕ → Dinode

def Dinode.linked (x : Dinode) : Prop := x.type = .dir ∧ 1 ≤ x.nlink

instance (x : Dinode) : Decidable x.linked := inferInstanceAs (Decidable (_ ∧ _))

def Dinode.naming (x : Dinode) (i : ℕ) : ℕ :=
  if x.linked then x.entries.countP fun de => de.inum = i ∧ de.name ≠ dot else 0

def links (t : Table) (i : ℕ) : ℕ := ∑ d ∈ Finset.range NINODES, (t d).naming i

def Dinode.parent (x : Dinode) : ℕ := (x.entries.getD 1 default).inum

def Dinode.rest (x : Dinode) : List Dirent := x.entries.drop 2

def Dinode.holds (x : Dinode) (i : ℕ) : ℕ := x.rest.countP fun de => de.inum = i

structure Dots (d : ℕ) (x : Dinode) : Prop where
  entries : x.entries = ⟨d, dot⟩ :: ⟨x.parent, dotdot⟩ :: x.rest
  parent : x.parent ≠ 0
  names : ∀ de ∈ x.rest, de.inum ≠ 0 → de.name ≠ dot ∧ de.name ≠ dotdot
  size : x.size = 16 * x.entries.length

structure Tree (t : Table) : Prop where
  outside : ∀ i, i = 0 ∨ NINODES ≤ i → (t i).type = .free
  cleared : ∀ i, (t i).type = .free → (t i).size = 0
  dots : ∀ d, (t d).type = .dir → Dots d (t d)
  nlink : ∀ i, (t i).type ≠ .free → (t i).nlink = links t i
  unnamed : ∀ i, i ≠ 0 → (t i).type = .free → links t i = 0
  empty : ∀ d, (t d).type = .dir → (t d).nlink = 0 → ∀ de ∈ (t d).rest, de.inum = 0
  up : ∀ d x, (t d).linked → (t x).type = .dir → (t d).holds x ≠ 0 → (t x).parent = d
  one : ∀ x, (t x).linked → x ≠ ROOTINO → (t (t x).parent).linked ∧ (t (t x).parent).holds x = 1
  root : (t ROOTINO).linked ∧ (t ROOTINO).parent = ROOTINO ∧ ∀ d, (t d).linked → (t d).holds ROOTINO = 0
  depth : ∃ depth : ℕ → ℕ, ∀ x, (t x).linked → x ≠ ROOTINO → depth (t x).parent < depth x

section

variable {t : Table} {x y : Dinode} {d i j k : ℕ} {de : Dirent} {l : List Dirent} {name : Name}

theorem update_eq {α : Type} (f : Dinode → α) (h : f x = f (t d)) (z : ℕ) : f (update t d x z) = f (t z) := by
  by_cases hz : z = d
  · subst hz
    rw [update_self, h]
  · rw [update_of_ne hz]

theorem links_update (hd : d < NINODES) :
    links (update t d x) j + (t d).naming j = links t j + x.naming j := by
  have hsum := sum_update (fun y => y.naming j) t x (Finset.mem_range.mpr hd)
  exact hsum

theorem links_update_two (hd : d < NINODES) (hi : i < NINODES) (hne : d ≠ i) :
    links (update (update t i y) d x) j + (t i).naming j + (t d).naming j =
      links t j + y.naming j + x.naming j := by
  have hfirst : links (update t i y) j + (t i).naming j = links t j + y.naming j := links_update hi
  have hsecond := links_update (t := update t i y) (x := x) (j := j) hd
  rw [update_of_ne hne] at hsecond
  omega

theorem naming_not_linked (h : ¬x.linked) : x.naming j = 0 := if_neg h

theorem naming_not_dir (h : x.type ≠ .dir) : x.naming j = 0 := naming_not_linked (fun hx => h hx.1)

theorem Dots.naming (h : Dots d x) (hx : x.linked) (hj : j ≠ 0) :
    x.naming j = (if x.parent = j then 1 else 0) + x.holds j := by
  have hdots : dotdot ≠ dot := by decide
  have hcount : x.rest.countP (fun de => de.inum = j ∧ de.name ≠ dot) = x.holds j := by
    apply List.countP_congr
    intro de hde
    simp only [decide_eq_true_eq]
    constructor
    · exact fun h => h.1
    · rintro rfl
      exact ⟨rfl, (h.names de hde hj).1⟩
  rw [Dinode.naming, if_pos hx, h.entries, List.countP_cons, List.countP_cons, hcount]
  simp [hdots]
  omega

theorem holds_pos : x.holds j ≠ 0 ↔ ∃ de ∈ x.rest, de.inum = j := by
  rw [Dinode.holds, Nat.ne_zero_iff_zero_lt, List.countP_pos_iff]
  simp

theorem naming_le_links (hd : d < NINODES) : (t d).naming j ≤ links t j :=
  Finset.single_le_sum (f := fun e => (t e).naming j) (fun _ _ => Nat.zero_le _) (Finset.mem_range.mpr hd)

theorem Tree.lt (h : Tree t) (hi : (t i).type ≠ .free) : i ≠ 0 ∧ i < NINODES := by
  constructor
  · rintro rfl
    exact hi (h.outside 0 (.inl rfl))
  · by_contra hle
    exact hi (h.outside i (.inr (by omega)))

theorem linked_type (h : x.linked) : x.type ≠ .free := by
  rw [h.1]
  decide

theorem Tree.named (h : Tree t) (hd : (t d).linked) (hde : de ∈ (t d).entries) (hname : de.name ≠ dot)
    (hinum : de.inum ≠ 0) : (t de.inum).type ≠ .free := by
  intro hfree
  have hzero := h.unnamed de.inum hinum hfree
  have hle : (t d).naming de.inum ≤ links t de.inum := naming_le_links (h.lt (linked_type hd)).2
  have hpos : 0 < (t d).naming de.inum := by
    rw [Dinode.naming, if_pos hd, List.countP_pos_iff]
    exact ⟨de, hde, by simpa using hname⟩
  omega

def insertDirent (de : Dirent) : List Dirent → List Dirent
  | [] => [de]
  | e :: l => if e.inum = 0 then de :: l else e :: insertDirent de l

theorem insertDirent_eq :
    insertDirent de l = if l.findIdx (fun e => e.inum = 0) < l.length then l.set (l.findIdx fun e => e.inum = 0) de
      else l ++ [de] := by
  induction l with
  | nil => rfl
  | cons e l ih =>
    by_cases he : e.inum = 0
    · simp [insertDirent, List.findIdx_cons, he]
    · rw [insertDirent, if_neg he, ih, List.findIdx_cons]
      simp only [he, decide_false, cond_false, List.length_cons, Nat.add_lt_add_iff_right]
      split_ifs
      · rfl
      · rfl

theorem insertDirent_count (p : Dirent → Bool) (hp : ∀ e, e.inum = 0 → p e = false) :
    (insertDirent de l).countP p = l.countP p + if p de then 1 else 0 := by
  induction l with
  | nil => simp [insertDirent, List.countP_cons]
  | cons e l ih =>
    by_cases he : e.inum = 0
    · rw [insertDirent, if_pos he, List.countP_cons, List.countP_cons, hp e he]
      simp
    · rw [insertDirent, if_neg he, List.countP_cons, List.countP_cons, ih]
      omega

theorem mem_insertDirent {e : Dirent} (he : e ∈ insertDirent de l) : e = de ∨ e ∈ l := by
  induction l with
  | nil => simpa [insertDirent] using he
  | cons a l ih =>
    rw [insertDirent] at he
    split_ifs at he with ha
    · rw [List.mem_cons] at he
      exact he.imp_right (List.mem_cons_of_mem a)
    · rw [List.mem_cons] at he
      obtain rfl | he := he
      · exact .inr List.mem_cons_self
      · exact (ih he).imp_right (List.mem_cons_of_mem a)

end

def Dinode.insert (x : Dinode) (de : Dirent) : Dinode :=
  { x with entries := insertDirent de x.entries, size := 16 * (insertDirent de x.entries).length }

def Dinode.clear (x : Dinode) (off : ℕ) : Dinode := { x with entries := x.entries.set off .zero }

def newDir (i d : ℕ) (major minor : ℤ) : Dinode := ⟨.dir, major, minor, 1, 32, [⟨i, dot⟩, ⟨d, dotdot⟩]⟩

def Dinode.addLinks (x : Dinode) (n : ℤ) : Dinode := { x with nlink := x.nlink + n }

section

variable {t : Table} {x y : Dinode} {d i j k : ℕ} {name : Name}

theorem Dots.addLinks (h : Dots d x) (n : ℤ) : Dots d (x.addLinks n) := ⟨h.entries, h.parent, h.names, h.size⟩

theorem Dots.insert_entries (h : Dots d x) (hd : d ≠ 0) (de : Dirent) :
    (x.insert de).entries = ⟨d, dot⟩ :: ⟨x.parent, dotdot⟩ :: insertDirent de x.rest := by
  change insertDirent de x.entries = _
  rw [h.entries, insertDirent, if_neg hd, insertDirent, if_neg h.parent]

theorem Dots.insert (h : Dots d x) (hd : d ≠ 0) (hname : name ≠ dot ∧ name ≠ dotdot) :
    Dots d (x.insert ⟨i, name⟩) ∧ (x.insert ⟨i, name⟩).parent = x.parent ∧
      ∀ j, j ≠ 0 → (x.insert ⟨i, name⟩).holds j = x.holds j + if i = j then 1 else 0 := by
  have hentries := h.insert_entries hd ⟨i, name⟩
  have hparent : (x.insert ⟨i, name⟩).parent = x.parent := by
    rw [Dinode.parent, hentries]
    rfl
  have hrest : (x.insert ⟨i, name⟩).rest = insertDirent ⟨i, name⟩ x.rest := by
    rw [Dinode.rest, hentries]
    rfl
  refine ⟨⟨?_, ?_, ?_, rfl⟩, hparent, ?_⟩
  · rw [hparent, hrest, hentries]
  · rw [hparent]
    exact h.parent
  · intro de hde hinum
    rw [hrest] at hde
    obtain rfl | hde := mem_insertDirent hde
    · exact hname
    · exact h.names de hde hinum
  · intro j hj
    rw [Dinode.holds, hrest, insertDirent_count]
    · simp [Dinode.holds]
    · intro e he
      simp [he, hj.symm]

theorem Dots.clear (h : Dots d x) (hk : 2 ≤ k) (hlt : k < x.entries.length)
    (hi : (x.entries.getD k default).inum = i) : Dots d (x.clear k) ∧ (x.clear k).parent = x.parent ∧
      (∀ j, j ≠ 0 → (x.clear k).holds j + (if i = j then 1 else 0) = x.holds j) := by
  obtain ⟨k, rfl⟩ := Nat.exists_eq_add_of_le' hk
  have hentries : (x.clear (k + 2)).entries = ⟨d, dot⟩ :: ⟨x.parent, dotdot⟩ :: x.rest.set k .zero := by
    change x.entries.set (k + 2) _ = _
    rw [h.entries, List.set_cons_succ, List.set_cons_succ]
  have hparent : (x.clear (k + 2)).parent = x.parent := by
    rw [Dinode.parent, hentries]
    rfl
  have hrest : (x.clear (k + 2)).rest = x.rest.set k .zero := by
    rw [Dinode.rest, hentries]
    rfl
  have hklt : k < x.rest.length := by
    rw [Dinode.rest, List.length_drop]
    omega
  have hget : x.rest[k].inum = i := by
    rw [← hi, List.getD_eq_getElem _ _ hlt]
    simp only [Dinode.rest, List.getElem_drop, Nat.add_comm]
  refine ⟨⟨?_, ?_, ?_, ?_⟩, hparent, ?_⟩
  · rw [hparent, hrest, hentries]
  · rw [hparent]
    exact h.parent
  · intro de hde hinum
    rw [hrest] at hde
    obtain hde | rfl := List.mem_or_eq_of_mem_set hde
    · exact h.names de hde hinum
    · exact absurd rfl hinum
  · change x.size = _
    rw [h.size]
    simp [Dinode.clear]
  · intro j hj
    have hzero : decide (Dirent.zero.inum = j) = false := decide_eq_false hj.symm
    rw [Dinode.holds, hrest, List.countP_set hklt]
    simp only [hget, hzero]
    by_cases hij : i = j
    · have hpos : x.holds j ≠ 0 := by
        rw [holds_pos]
        exact ⟨x.rest[k], List.getElem_mem _, hget.trans hij⟩
      simp only [Dinode.holds] at hpos ⊢
      simp [hij]
      omega
    · simp [hij, Dinode.holds]

end

structure Edit (t : Table) (d i : ℕ) (x y : Dinode) : Prop where
  dir : (t d).linked
  linked : x.linked
  apart : d ≠ i
  dots : Dots d x
  parent : x.parent = (t d).parent
  holds : ∀ j, j ≠ 0 → j ≠ i → x.holds j = (t d).holds j

section

variable {t : Table} {x y : Dinode} {d i j z : ℕ}

theorem edit_self : update (update t i y) d x d = x := update_self _ _ _

theorem Edit.other (h : Edit t d i x y) : update (update t i y) d x i = y := by
  rw [update_of_ne h.apart.symm, update_self]

theorem edit_else (hd : z ≠ d) (hi : z ≠ i) : update (update t i y) d x z = t z := by
  rw [update_of_ne hd, update_of_ne hi]

theorem Edit.type (h : Edit t d i x y) (hz : z ≠ i) :
    (update (update t i y) d x z).type = (t z).type := by
  by_cases hd : z = d
  · subst hd
    rw [edit_self, h.linked.1, h.dir.1]
  · rw [edit_else hd hz]

theorem Edit.linked_iff (h : Edit t d i x y) (hz : z ≠ i) :
    (update (update t i y) d x z).linked ↔ (t z).linked := by
  by_cases hd : z = d
  · subst hd
    rw [edit_self]
    exact ⟨fun _ => h.dir, fun _ => h.linked⟩
  · rw [edit_else hd hz]

theorem Edit.parent_eq (h : Edit t d i x y) (hz : z ≠ i) :
    (update (update t i y) d x z).parent = (t z).parent := by
  by_cases hd : z = d
  · subst hd
    rw [edit_self, h.parent]
  · rw [edit_else hd hz]

theorem Edit.holds_eq (h : Edit t d i x y) (hz : z ≠ i) (hj : j ≠ 0) (hji : j ≠ i) :
    (update (update t i y) d x z).holds j = (t z).holds j := by
  by_cases hd : z = d
  · subst hd
    rw [edit_self, h.holds j hj hji]
  · rw [edit_else hd hz]

end

structure Change (t : Table) (d i : ℕ) (x y : Dinode) : Prop extends Edit t d i x y where
  place : i ≠ 0 ∧ i < NINODES ∧ i ≠ ROOTINO
  leaf : (t i).linked → ∀ j, j ≠ 0 → (t i).holds j = 0
  live : y.type ≠ .free
  own : y.type = .dir → Dots i y
  fresh : y.linked → y.parent = d ∧ x.holds i = 1 ∧ ∀ j, j ≠ 0 → y.holds j = 0
  gone : y.type = .dir → ¬y.linked → x.holds i = 0 ∧ ∀ de ∈ y.rest, de.inum = 0
  only : y.type = .dir → ∀ z, z ≠ d → (t z).linked → (t z).holds i = 0

section

variable {t : Table} {x y : Dinode} {d i : ℕ} {j k n z : ℕ} {name : Name}

theorem Tree.parent_ne (h : Tree t) (hc : Change t d i x y) (hz : (t z).linked) (hroot : z ≠ ROOTINO) :
    (t z).parent ≠ i := by
  intro heq
  obtain ⟨hlinked, hone⟩ := h.one z hz hroot
  rw [heq] at hlinked hone
  have hzero := hc.leaf hlinked z (h.lt (linked_type hz)).1
  omega

theorem Tree.change (h : Tree t) (hc : Change t d i x y)
    (hd : x.nlink = links (update (update t i y) d x) d)
    (hi : y.nlink = links (update (update t i y) d x) i)
    (hj : ∀ j, j ≠ 0 → j ≠ d → j ≠ i → links (update (update t i y) d x) j = links t j) :
    Tree (update (update t i y) d x) := by
  have hd0 := h.lt (linked_type hc.dir)
  obtain ⟨hi0, hilt, hroot⟩ := hc.place
  constructor
  · intro z hz
    rw [edit_else (by omega) (by omega)]
    exact h.outside z hz
  · intro z hz
    by_cases hzi : z = i
    · subst hzi
      rw [hc.other] at hz
      exact absurd hz hc.live
    · rw [hc.type hzi] at hz
      rw [edit_else (by rintro rfl; exact linked_type hc.dir hz) hzi]
      exact h.cleared z hz
  · intro z hz
    by_cases hzi : z = i
    · subst hzi
      rw [hc.other] at hz ⊢
      exact hc.own hz
    · by_cases hzd : z = d
      · subst hzd
        rw [edit_self]
        exact hc.dots
      · rw [edit_else hzd hzi] at hz ⊢
        exact h.dots z hz
  · intro z hz
    by_cases hzi : z = i
    · subst hzi
      rw [hc.other]
      exact hi
    · by_cases hzd : z = d
      · subst hzd
        rw [edit_self]
        exact hd
      · rw [edit_else hzd hzi] at hz ⊢
        rw [hj z (h.lt hz).1 hzd hzi]
        exact h.nlink z hz
  · intro z hz hfree
    by_cases hzi : z = i
    · subst hzi
      rw [hc.other] at hfree
      exact absurd hfree hc.live
    · rw [hc.type hzi] at hfree
      rw [hj z hz (by rintro rfl; exact linked_type hc.dir hfree) hzi]
      exact h.unnamed z hz hfree
  · intro z hz hzero
    by_cases hzi : z = i
    · subst hzi
      rw [hc.other] at hz hzero ⊢
      exact (hc.gone hz (fun hl => by have hle := hl.2; omega)).2
    · by_cases hzd : z = d
      · subst hzd
        rw [edit_self] at hzero
        have hle := hc.linked.2
        omega
      · rw [edit_else hzd hzi] at hz hzero ⊢
        exact h.empty z hz hzero
  · intro z w hz hw hholds
    by_cases hzi : z = i
    · subst hzi
      rw [hc.other] at hz hholds
      by_cases hw0 : w = 0
      · rw [hw0, edit_else (by omega) (by omega), h.outside 0 (.inl rfl)] at hw
        cases hw
      · exact absurd ((hc.fresh hz).2.2 w hw0) hholds
    · by_cases hwi : w = i
      · subst hwi
        rw [hc.other] at hw ⊢
        rw [hc.linked_iff hzi] at hz
        by_cases hzd : z = d
        · subst hzd
          rw [edit_self] at hholds
          by_cases hy : y.linked
          · exact (hc.fresh hy).1
          · exact absurd (hc.gone hw hy).1 hholds
        · rw [edit_else hzd hzi] at hholds
          exact absurd (hc.only hw z hzd hz) hholds
      · rw [hc.type hwi] at hw
        have hw0 : w ≠ 0 := (h.lt (by rw [hw]; decide)).1
        rw [hc.linked_iff hzi] at hz
        rw [hc.holds_eq hzi hw0 hwi] at hholds
        rw [hc.parent_eq hwi]
        exact h.up z w hz hw hholds
  · intro z hz hzroot
    by_cases hzi : z = i
    · subst hzi
      rw [hc.other] at hz ⊢
      obtain ⟨hparent, hone, -⟩ := hc.fresh hz
      rw [hparent, edit_self]
      exact ⟨hc.linked, hone⟩
    · rw [hc.linked_iff hzi] at hz
      have hne := h.parent_ne hc hz hzroot
      rw [hc.parent_eq hzi, hc.linked_iff hne, hc.holds_eq hne (h.lt (linked_type hz)).1 hzi]
      exact h.one z hz hzroot
  · obtain ⟨hlinked, hparent, hnone⟩ := h.root
    refine ⟨(hc.linked_iff hroot.symm).mpr hlinked, (hc.parent_eq hroot.symm).trans hparent, fun z hz => ?_⟩
    by_cases hzi : z = i
    · subst hzi
      rw [hc.other] at hz ⊢
      exact (hc.fresh hz).2.2 _ (by decide)
    · rw [hc.holds_eq hzi (by decide) hroot.symm]
      exact hnone z ((hc.linked_iff hzi).mp hz)
  · obtain ⟨depth, hdepth⟩ := h.depth
    refine ⟨update depth i (depth d + 1), fun z hz hzroot => ?_⟩
    by_cases hzi : z = i
    · subst hzi
      rw [hc.other] at hz ⊢
      rw [(hc.fresh hz).1, update_self, update_of_ne hc.apart]
      omega
    · rw [hc.linked_iff hzi] at hz
      rw [hc.parent_eq hzi, update_of_ne (h.parent_ne hc hz hzroot), update_of_ne hzi]
      exact hdepth z hz hzroot

theorem naming_add (hdot : Dots d (t d)) (hx : Dots d x) (hdir : (t d).linked) (hlinked : x.linked)
    (hparent : x.parent = (t d).parent) (hj : j ≠ 0) (hn : x.holds j = (t d).holds j + n) :
    x.naming j = (t d).naming j + n := by
  rw [hx.naming hlinked hj, hdot.naming hdir hj, hparent, hn]
  omega

theorem Tree.link (h : Tree t) (hd : (t d).linked) (hi : i ≠ 0 ∧ i < NINODES) (hti : (t i).type ≠ .dir)
    (hy : y.type ≠ .dir ∧ y.type ≠ .free) (hn : y.nlink = links t i + 1)
    (hname : name ≠ dot ∧ name ≠ dotdot) :
    Tree (update (update t i y) d ((t d).insert ⟨i, name⟩)) := by
  have hlt := h.lt (linked_type hd)
  have hne : d ≠ i := by
    rintro rfl
    exact hti hd.1
  have hroot : i ≠ ROOTINO := by
    rintro rfl
    exact hti h.root.1.1
  obtain ⟨hdots, hparent, hholds⟩ := (h.dots d hd.1).insert (i := i) hlt.1 hname
  have hlinks (j : ℕ) (hj : j ≠ 0) : links (update (update t i y) d ((t d).insert ⟨i, name⟩)) j =
      links t j + if i = j then 1 else 0 := by
    have hsum := links_update_two (t := t) (y := y) (x := (t d).insert ⟨i, name⟩) (j := j) hlt.2 hi.2 hne
    rw [naming_not_dir hti, naming_not_dir hy.1,
      naming_add (h.dots d hd.1) hdots hd hd hparent hj (hholds j hj)] at hsum
    omega
  have hc : Change t d i ((t d).insert ⟨i, name⟩) y := {
    dir := hd
    linked := hd
    apart := hne
    dots := hdots
    parent := hparent
    holds := fun j hj hji => by
      rw [hholds j hj, if_neg hji.symm]
      rfl
    place := ⟨hi.1, hi.2, hroot⟩
    leaf := fun hl => absurd hl.1 hti
    live := hy.2
    own := fun hdir => absurd hdir hy.1
    fresh := fun hl => absurd hl.1 hy.1
    gone := fun hdir => absurd hdir hy.1
    only := fun hdir => absurd hdir hy.1 }
  apply h.change hc
  · rw [hlinks d hlt.1, if_neg hne.symm, Nat.add_zero]
    exact h.nlink d (linked_type hd)
  · rw [hlinks i hi.1, if_pos rfl, hn, Int.natCast_add]
    rfl
  · intro j hj _ hji
    rw [hlinks j hj, if_neg hji.symm, Nat.add_zero]

theorem Tree.mkdir (h : Tree t) (hd : (t d).linked) (hi : i ≠ 0 ∧ i < NINODES) (hfree : (t i).type = .free)
    (hname : name ≠ dot ∧ name ≠ dotdot) {major minor : ℤ} :
    Tree (update (update t i (newDir i d major minor)) d
      (((t d).addLinks 1).insert ⟨i, name⟩)) := by
  have hlt := h.lt (linked_type hd)
  have hne : d ≠ i := by
    rintro rfl
    exact linked_type hd hfree
  have hroot : i ≠ ROOTINO := by
    rintro rfl
    exact linked_type h.root.1 hfree
  have hzero := h.unnamed i hi.1 hfree
  have hnone (z : ℕ) (hz : (t z).linked) : (t z).holds i = 0 := by
    have hle : (t z).naming i ≤ links t i := naming_le_links (h.lt (linked_type hz)).2
    rw [(h.dots z hz.1).naming hz hi.1] at hle
    omega
  obtain ⟨hdots, hparent, hholds⟩ := ((h.dots d hd.1).addLinks 1).insert (i := i) hlt.1 hname
  have hlinked : (((t d).addLinks 1).insert ⟨i, name⟩).linked := by
    have hle := hd.2
    exact ⟨hd.1, by simp only [Dinode.insert, Dinode.addLinks]; omega⟩
  have hnew : (newDir i d major minor).linked := ⟨rfl, by simp [newDir]⟩
  have hown : Dots i (newDir i d major minor) :=
    ⟨rfl, hlt.1, fun _ hde => absurd hde List.not_mem_nil, rfl⟩
  have hlinks (j : ℕ) (hj : j ≠ 0) : links (update (update t i (newDir i d major minor)) d
      (((t d).addLinks 1).insert ⟨i, name⟩)) j =
      links t j + (if i = j then 1 else 0) + if d = j then 1 else 0 := by
    have hsum := links_update_two (t := t) (y := (newDir i d major minor))
      (x := ((t d).addLinks 1).insert ⟨i, name⟩) (j := j) hlt.2 hi.2 hne
    rw [naming_not_linked (fun hl => linked_type hl hfree), hown.naming hnew hj,
      naming_add (h.dots d hd.1) hdots hd hlinked hparent hj (hholds j hj)] at hsum
    have hrest : (newDir i d major minor).holds j = 0 := rfl
    have hup : (newDir i d major minor).parent = d := rfl
    rw [hrest, hup] at hsum
    omega
  have hc : Change t d i (((t d).addLinks 1).insert ⟨i, name⟩) (newDir i d major minor) := {
    dir := hd
    linked := hlinked
    apart := hne
    dots := hdots
    parent := hparent
    holds := fun j hj hji => by
      rw [hholds j hj, if_neg hji.symm]
      rfl
    place := ⟨hi.1, hi.2, hroot⟩
    leaf := fun hl => absurd hfree (linked_type hl)
    live := fun hf => by cases hf
    own := fun _ => hown
    fresh := fun _ => by
      refine ⟨rfl, ?_, fun j _ => rfl⟩
      rw [hholds i hi.1, if_pos rfl]
      exact congrArg (· + 1) (hnone d hd)
    gone := fun _ hl => absurd hnew hl
    only := fun _ z _ hz => hnone z hz }
  apply h.change hc
  · rw [hlinks d hlt.1, if_neg hne.symm, if_pos rfl]
    change (t d).nlink + 1 = _
    rw [h.nlink d (linked_type hd), Nat.add_zero, Int.natCast_add]
    rfl
  · rw [hlinks i hi.1, if_pos rfl, if_neg hne, hzero]
    rfl
  · intro j hj hjd hji
    rw [hlinks j hj, if_neg hji.symm, if_neg hjd.symm]
    simp only [Nat.add_zero]

theorem naming_sub (hdot : Dots d (t d)) (hx : Dots d x) (hdir : (t d).linked) (hlinked : x.linked)
    (hparent : x.parent = (t d).parent) (hj : j ≠ 0) (hn : x.holds j + n = (t d).holds j) :
    x.naming j + n = (t d).naming j := by
  rw [hx.naming hlinked hj, hdot.naming hdir hj, hparent]
  omega

theorem holds_of_getD (hk : 2 ≤ k) (hlt : k < x.entries.length) (hi : (x.entries.getD k default).inum = i) :
    x.holds i ≠ 0 := by
  rw [holds_pos]
  refine ⟨x.entries[k], ?_, ?_⟩
  · rw [Dinode.rest, List.mem_drop_iff_getElem]
    exact ⟨k - 2, by omega, by simp only [Nat.add_sub_cancel' hk]⟩
  · rw [← hi, List.getD_eq_getElem _ _ hlt]

theorem Tree.unlink (h : Tree t) (hd : (t d).linked) (hti : (t i).type ≠ .dir ∧ (t i).type ≠ .free) (hk : 2 ≤ k)
    (hlt : k < (t d).entries.length) (hi : ((t d).entries.getD k default).inum = i) :
    Tree (update (update t i ((t i).addLinks (-1))) d ((t d).clear k)) := by
  have hdlt := h.lt (linked_type hd)
  have hilt := h.lt hti.2
  have hne : d ≠ i := by
    rintro rfl
    exact hti.1 hd.1
  have hroot : i ≠ ROOTINO := by
    rintro rfl
    exact hti.1 h.root.1.1
  obtain ⟨hdots, hparent, hholds⟩ := (h.dots d hd.1).clear hk hlt hi
  have hlinks (j : ℕ) (hj : j ≠ 0) : links (update (update t i ((t i).addLinks (-1))) d
      ((t d).clear k)) j + (if i = j then 1 else 0) = links t j := by
    have hsum := links_update_two (t := t) (y := (t i).addLinks (-1)) (x := (t d).clear k)
      (j := j) hdlt.2 hilt.2 hne
    have hsub := naming_sub (h.dots d hd.1) hdots hd hd hparent hj (hholds j hj)
    rw [naming_not_dir hti.1, naming_not_dir (x := (t i).addLinks (-1)) hti.1] at hsum
    omega
  have hc : Change t d i ((t d).clear k) ((t i).addLinks (-1)) := {
    dir := hd
    linked := hd
    apart := hne
    dots := hdots
    parent := hparent
    holds := fun j hj hji => by
      rw [← hholds j hj, if_neg hji.symm, Nat.add_zero]
    place := ⟨hilt.1, hilt.2, hroot⟩
    leaf := fun hl => absurd hl.1 hti.1
    live := hti.2
    own := fun hdir => absurd hdir hti.1
    fresh := fun hl => absurd hl.1 hti.1
    gone := fun hdir => absurd hdir hti.1
    only := fun hdir => absurd hdir hti.1 }
  apply h.change hc
  · have hsum := hlinks d hdlt.1
    rw [if_neg hne.symm, Nat.add_zero] at hsum
    rw [hsum]
    exact h.nlink d (linked_type hd)
  · have hsum := hlinks i hilt.1
    rw [if_pos rfl] at hsum
    have hnlink := h.nlink i hti.2
    change (t i).nlink + -1 = _
    omega
  · intro j hj _ hji
    have hsum := hlinks j hj
    rw [if_neg hji.symm] at hsum
    omega

theorem links_two {w : ℕ} (hz : z < NINODES) (hw : w < NINODES) (hne : z ≠ w) :
    (t z).naming j + (t w).naming j ≤ links t j := by
  rw [links, ← Finset.add_sum_erase _ _ (Finset.mem_range.mpr hz)]
  apply Nat.add_le_add_left
  exact Finset.single_le_sum (f := fun e => (t e).naming j) (fun _ _ => Nat.zero_le _)
    (Finset.mem_erase.mpr ⟨hne.symm, Finset.mem_range.mpr hw⟩)

theorem Tree.leaf (h : Tree t) (hd : (t d).linked) (hi : (t i).linked) (hholds : (t d).holds i ≠ 0)
    (hempty : ∀ j, j ≠ 0 → (t i).holds j = 0) :
    i ≠ ROOTINO ∧ d ≠ i ∧ (t i).parent = d ∧ (t d).holds i = 1 ∧ (∀ z, z ≠ d → (t z).linked → (t z).holds i = 0) ∧
      (t i).nlink = 1 ∧ 2 ≤ (t d).nlink := by
  have hilt := h.lt (linked_type hi)
  have hdlt := h.lt (linked_type hd)
  have hparent := h.up d i hd hi.1 hholds
  have hroot : i ≠ ROOTINO := by
    rintro rfl
    exact hholds (h.root.2.2 d hd)
  have hne : d ≠ i := by
    rintro rfl
    obtain ⟨depth, hdepth⟩ := h.depth
    have hlt := hdepth d hd hroot
    rw [hparent] at hlt
    omega
  have hone := (h.one i hi hroot).2
  rw [hparent] at hone
  have honly (z : ℕ) (hzd : z ≠ d) (hz : (t z).linked) : (t z).holds i = 0 := by
    by_contra hne
    exact hzd ((h.up z i hz hi.1 hne).symm.trans hparent)
  have hup (z : ℕ) (hz : (t z).linked) : (t z).parent ≠ i := by
    intro heq
    by_cases hzroot : z = ROOTINO
    · rw [hzroot, h.root.2.1] at heq
      exact hroot heq.symm
    · have hz1 := (h.one z hz hzroot).2
      rw [heq, hempty z (h.lt (linked_type hz)).1] at hz1
      cases hz1
  have hlinks : links t i = 1 := by
    rw [links, Finset.sum_eq_single d]
    · rw [(h.dots d hd.1).naming hd hilt.1, if_neg (hup d hd), hone]
    · intro z _ hzd
      by_cases hz : (t z).linked
      · rw [(h.dots z hz.1).naming hz hilt.1, if_neg (hup z hz), honly z hzd hz, Nat.add_zero]
      · exact naming_not_linked hz
    · intro hmem
      exact absurd (Finset.mem_range.mpr hdlt.2) hmem
  refine ⟨hroot, hne, hparent, hone, honly, ?_, ?_⟩
  · rw [h.nlink i (linked_type hi), hlinks]
    rfl
  · have hchild : (t i).naming d = 1 := by
      rw [(h.dots i hi.1).naming hi hdlt.1, if_pos hparent, hempty d hdlt.1]
    have hother : ∃ z, z < NINODES ∧ z ≠ i ∧ 1 ≤ (t z).naming d := by
      by_cases hdroot : d = ROOTINO
      · refine ⟨d, hdlt.2, hne, ?_⟩
        have hself : (t d).parent = d := by rw [hdroot, h.root.2.1]
        rw [(h.dots d hd.1).naming hd hdlt.1, if_pos hself]
        omega
      · obtain ⟨hp, hp1⟩ := h.one d hd hdroot
        refine ⟨(t d).parent, (h.lt (linked_type hp)).2, hup d hd, ?_⟩
        rw [(h.dots _ hp.1).naming hp hdlt.1, hp1]
        omega
    obtain ⟨z, hz, hzi, hpos⟩ := hother
    have hsum := links_two (t := t) (j := d) hz hilt.2 hzi
    have hnlink := h.nlink d (linked_type hd)
    omega

theorem Tree.rmdir (h : Tree t) (hd : (t d).linked) (hi : (t i).linked) (hk : 2 ≤ k)
    (hlt : k < (t d).entries.length) (hget : ((t d).entries.getD k default).inum = i)
    (hempty : ∀ de ∈ (t i).rest, de.inum = 0) :
    Tree (update (update t i ((t i).addLinks (-1))) d (((t d).clear k).addLinks (-1))) := by
  have hdlt := h.lt (linked_type hd)
  have hilt := h.lt (linked_type hi)
  have hnone (j : ℕ) (hj : j ≠ 0) : (t i).holds j = 0 := by
    by_contra hne
    obtain ⟨de, hde, hinum⟩ := holds_pos.mp hne
    exact hj (hinum.symm.trans (hempty de hde))
  obtain ⟨hroot, hne, hparent, hone, honly, hnlink, htwo⟩ := h.leaf hd hi (holds_of_getD hk hlt hget) hnone
  obtain ⟨hdots, hup, hholds⟩ := (h.dots d hd.1).clear hk hlt hget
  have hlinked : (((t d).clear k).addLinks (-1)).linked :=
    ⟨hd.1, by simp only [Dinode.addLinks, Dinode.clear]; omega⟩
  have hgone : ¬((t i).addLinks (-1)).linked := by
    intro hl
    have hle := hl.2
    simp only [Dinode.addLinks] at hle
    omega
  have hlinks (j : ℕ) (hj : j ≠ 0) : links (update (update t i ((t i).addLinks (-1))) d
      (((t d).clear k).addLinks (-1))) j + (if i = j then 1 else 0) + (if d = j then 1 else 0) = links t j := by
    have hsum := links_update_two (t := t) (y := (t i).addLinks (-1)) (x := ((t d).clear k).addLinks (-1)) (j := j)
      hdlt.2 hilt.2 hne
    have hsub := naming_sub (h.dots d hd.1) (hdots.addLinks (-1)) hd hlinked hup hj (hholds j hj)
    rw [naming_not_linked hgone, (h.dots i hi.1).naming hi hj, hparent, hnone j hj] at hsum
    omega
  have hc : Change t d i (((t d).clear k).addLinks (-1)) ((t i).addLinks (-1)) := {
    dir := hd
    linked := hlinked
    apart := hne
    dots := hdots.addLinks (-1)
    parent := hup
    holds := fun j hj hji => by
      have hsame := hholds j hj
      rwa [if_neg hji.symm] at hsame
    place := ⟨hilt.1, hilt.2, hroot⟩
    leaf := fun _ => hnone
    live := fun hf => linked_type hi hf
    own := fun _ => (h.dots i hi.1).addLinks (-1)
    fresh := fun hl => absurd hl hgone
    gone := fun _ _ => by
      refine ⟨?_, hempty⟩
      have hlast := hholds i hilt.1
      rw [if_pos rfl, hone] at hlast
      exact Nat.succ_injective hlast
    only := fun _ => honly }
  apply h.change hc
  · have hsum := hlinks d hdlt.1
    rw [if_neg hne.symm, if_pos rfl] at hsum
    have hd1 := h.nlink d (linked_type hd)
    change (t d).nlink + -1 = _
    omega
  · have hsum := hlinks i hilt.1
    rw [if_pos rfl, if_neg hne] at hsum
    have hi1 := h.nlink i (linked_type hi)
    change (t i).nlink + -1 = _
    omega
  · intro j hj hjd hji
    have hsum := hlinks j hj
    rw [if_neg hji.symm, if_neg hjd.symm] at hsum
    omega

def Dinode.freed (x : Dinode) : Dinode := { x with type := .free, size := 0, entries := [] }

theorem links_freed (h : (t i).nlink = 0) (hi : i < NINODES) (j : ℕ) :
    links (update t i (t i).freed) j = links t j := by
  have hsum : links (update t i (t i).freed) j + _ = _ := links_update hi
  rw [naming_not_linked (x := t i) (fun hl => by have hle := hl.2; omega),
    naming_not_dir (x := (t i).freed) (fun hdir => by cases hdir)] at hsum
  omega

theorem Tree.free (h : Tree t) (hi : (t i).type ≠ .free) (hzero : (t i).nlink = 0) :
    Tree (update t i (t i).freed) := by
  have hlt := h.lt hi
  have hlinks := links_freed hzero hlt.2
  have hne {z : ℕ} (hz : (t z).linked) : z ≠ i := by
    rintro rfl
    have hle := hz.2
    omega
  have hlinked {z : ℕ} : (update t i (t i).freed z).linked ↔ (t z).linked := by
    by_cases hz : z = i
    · subst hz
      rw [update_self]
      exact ⟨fun hl => (by cases hl.1), fun hl => absurd rfl (hne hl)⟩
    · rw [update_of_ne hz]
  have hsame {z : ℕ} (hz : (t z).linked) : update t i (t i).freed z = t z := update_of_ne (hne hz) _ _
  have htype {z : ℕ} (hz : (update t i (t i).freed z).type ≠ .free) : z ≠ i := by
    rintro rfl
    rw [update_self] at hz
    exact hz rfl
  constructor
  · intro z hz
    rw [update_of_ne (by omega)]
    exact h.outside z hz
  · intro z hz
    by_cases hzi : z = i
    · subst hzi
      rw [update_self]
      rfl
    · rw [update_of_ne hzi] at hz ⊢
      exact h.cleared z hz
  · intro z hz
    have hzi := htype (z := z) (by rw [hz]; decide)
    rw [update_of_ne hzi] at hz ⊢
    exact h.dots z hz
  · intro z hz
    have hzi := htype hz
    rw [hlinks, update_of_ne hzi]
    rw [update_of_ne hzi] at hz
    exact h.nlink z hz
  · intro z hz hfree
    rw [hlinks]
    by_cases hzi : z = i
    · subst hzi
      have hnlink := h.nlink z hi
      omega
    · rw [update_of_ne hzi] at hfree
      exact h.unnamed z hz hfree
  · intro z hz hnlink
    have hzi := htype (z := z) (by rw [hz]; decide)
    rw [update_of_ne hzi] at hz hnlink ⊢
    exact h.empty z hz hnlink
  · intro z w hz hw hholds
    have hwi := htype (z := w) (by rw [hw]; decide)
    rw [hlinked] at hz
    rw [hsame hz] at hholds
    rw [update_of_ne hwi] at hw ⊢
    exact h.up z w hz hw hholds
  · intro z hz hroot
    rw [hlinked] at hz
    obtain ⟨hparent, hone⟩ := h.one z hz hroot
    rw [hsame hz, hlinked, hsame hparent]
    exact ⟨hparent, hone⟩
  · obtain ⟨hroot, hparent, hnone⟩ := h.root
    refine ⟨hlinked.mpr hroot, by rw [hsame hroot]; exact hparent, fun z hz => ?_⟩
    rw [hlinked] at hz
    rw [hsame hz]
    exact hnone z hz
  · obtain ⟨depth, hdepth⟩ := h.depth
    refine ⟨depth, fun z hz hroot => ?_⟩
    rw [hlinked] at hz
    rw [hsame hz]
    exact hdepth z hz hroot

end

inductive Reachable (t : Table) : ℕ → Prop
  | root : Reachable t ROOTINO
  | entry (d : ℕ) (de : Dirent) (hd : Reachable t d) (hdir : (t d).type = .dir) (hde : de ∈ (t d).entries)
      (hinum : de.inum ≠ 0) (hname : de.name ≠ dot ∧ de.name ≠ dotdot) : Reachable t de.inum

def space (t : Table) : ℕ := ∑ i ∈ Finset.range NINODES, blocks (t i).size

section

variable {t : Table} {x : Dinode} {d i : ℕ}

theorem Tree.reachable_entry (h : Tree t) (hd : (t d).type = .dir) (hr : Reachable t d) (hi : i ≠ 0)
    (hholds : (t d).holds i ≠ 0) : Reachable t i := by
  obtain ⟨de, hde, rfl⟩ := holds_pos.mp hholds
  exact Reachable.entry d de hr hd (List.mem_of_mem_drop hde) hi ((h.dots d hd).names de hde hi)

theorem Tree.reachable_dir (h : Tree t) (hd : (t d).linked) : Reachable t d := by
  obtain ⟨depth, hdepth⟩ := h.depth
  induction hn : depth d using Nat.strong_induction_on generalizing d with
  | _ n ih =>
    by_cases hroot : d = ROOTINO
    · rw [hroot]
      exact .root
    · obtain ⟨hparent, hone⟩ := h.one d hd hroot
      have hup := ih _ (hn ▸ hdepth d hd hroot) hparent rfl
      exact h.reachable_entry hparent.1 hup (h.lt (linked_type hd)).1 (by omega)

theorem Tree.reachable (h : Tree t) (hi : (t i).type ≠ .free) (hn : 1 ≤ (t i).nlink) : Reachable t i := by
  have hlinks : links t i ≠ 0 := by
    have hnlink := h.nlink i hi
    omega
  obtain ⟨d, hd, hnaming⟩ := Finset.exists_ne_zero_of_sum_ne_zero hlinks
  have hlinked : (t d).linked := by
    by_contra hne
    exact hnaming (naming_not_linked hne)
  have hi0 := (h.lt hi).1
  rw [(h.dots d hlinked.1).naming hlinked hi0] at hnaming
  by_cases hparent : (t d).parent = i
  · rw [← hparent]
    by_cases hroot : d = ROOTINO
    · rw [hroot, h.root.2.1]
      exact .root
    · exact h.reachable_dir (h.one d hlinked hroot).1
  · rw [if_neg hparent, Nat.zero_add] at hnaming
    exact h.reachable_entry hlinked.1 (h.reachable_dir hlinked) hi0 hnaming

theorem blocks_mono {m n : ℕ} (h : m ≤ n) : blocks m ≤ blocks n := by
  have hdiv : (m + BSIZE - 1) / BSIZE ≤ (n + BSIZE - 1) / BSIZE := Nat.div_le_div_right (by omega)
  simp only [blocks]
  split
  · rw [if_pos (by omega)]
    omega
  · split
    · omega
    · exact hdiv

theorem length_le_blocks (h : x.size = 16 * x.entries.length) : x.entries.length ≤ 32 * blocks x.size := by
  simp only [blocks, BSIZE, NDIRECT, h]
  split_ifs
  · omega
  · omega

theorem Tree.links_le (h : Tree t) (i : ℕ) : links t i ≤ 32 * space t := by
  rw [links, space, Finset.mul_sum]
  apply Finset.sum_le_sum
  intro d _
  rw [Dinode.naming]
  split_ifs with hd
  · exact List.countP_le_length.trans (length_le_blocks (h.dots d hd.1).size)
  · exact Nat.zero_le _

theorem space_update (hd : d < NINODES) :
    space (update t d x) + blocks (t d).size = space t + blocks x.size := by
  have hsum := sum_update (fun y => blocks y.size) t x (Finset.mem_range.mpr hd)
  exact hsum

end

end Xv6.FileSystem
