import Mathlib.Data.Fintype.Card
import Xv6.BufferCache

namespace Xv6.BufferCache

open Xv6.LinkedLists Function

variable {n : ℕ} {Thread Data : Type}

structure Ordered (l : Links n) (order : List (Fin n)) : Prop where
  circular : Circular l.next l.prev none (order.map some)
  nodup : order.Nodup
  complete : ∀ b, b ∈ order

variable {order : List (Fin n)} {b : Fin n} {l : Links n}

theorem nodup_sentinel (h : order.Nodup) : (none :: order.map some : List (Node n)).Nodup :=
  List.nodup_cons.mpr ⟨by simp, h.map (Option.some_injective _)⟩

theorem not_mem_sentinel (h : b ∉ order) :
    some b ∉ (none :: order.map some : List (Node n)) := by
  simpa using h

theorem circular_pushFront (h : Circular l.next l.prev none (order.map some))
    (hnodup : order.Nodup) (hb : b ∉ order) :
    Circular (l.pushFront b).next (l.pushFront b).prev none ((b :: order).map some) := by
  have hnext : update l.next (some b) (l.next none) none = l.next none :=
    update_of_ne (Option.some_ne_none b).symm _ _
  simp only [Links.pushFront, hnext]
  exact h.pushFront (nodup_sentinel hnodup) (not_mem_sentinel hb)

theorem circular_unlink {order' : List (Fin n)}
    (h : Circular l.next l.prev none ((order ++ b :: order').map some)) (hnodup : (order ++ b :: order').Nodup) :
    Circular (l.unlink b).next (l.unlink b).prev none ((order ++ order').map some) := by
  have hprev : update l.prev (l.next (some b)) (l.prev (some b)) (some b) = l.prev (some b) := by
    by_cases heq : some b = l.next (some b)
    · rw [← heq, update_self]
    · exact update_of_ne heq _ _
  simp only [Links.unlink, hprev]
  rw [List.map_append, List.map_cons] at h
  rw [List.map_append]
  apply h.unlink
  rw [← List.map_cons, ← List.map_append]
  exact nodup_sentinel hnodup

theorem circular_foldl {bs : List (Fin n)} (h : Circular l.next l.prev none (order.map some))
    (hnodup : (bs.reverse ++ order).Nodup) :
    Circular (bs.foldl Links.pushFront l).next (bs.foldl Links.pushFront l).prev none
    ((bs.reverse ++ order).map some) := by
  induction bs generalizing l order with
  | nil => exact h
  | cons b bs ih =>
    rw [List.reverse_cons, List.append_assoc, List.singleton_append] at hnodup ⊢
    obtain ⟨_, hright, _⟩ := List.nodup_append'.mp hnodup
    obtain ⟨hb, horder⟩ := List.nodup_cons.mp hright
    exact ih (circular_pushFront h horder hb) hnodup

theorem ordered_binit (n : ℕ) : Ordered (binit n) (List.finRange n).reverse where
  circular := by
    have h : Circular (fun _ : Node n => none) (fun _ => none) none (([] : List (Fin n)).map some) := ⟨rfl, rfl⟩
    have hnodup : ((List.finRange n).reverse ++ []).Nodup := by
      rw [List.append_nil]
      exact List.nodup_reverse.mpr (List.nodup_finRange n)
    have hfold := circular_foldl (l := ⟨fun _ => none, fun _ => none⟩) h hnodup
    rw [List.append_nil] at hfold
    exact hfold
  nodup := List.nodup_reverse.mpr (List.nodup_finRange n)
  complete b := List.mem_reverse.mpr (List.mem_finRange b)

theorem Ordered.moveFront (h : Ordered l order) (b : Fin n) :
    ∃ order', Ordered ((l.unlink b).pushFront b) order' := by
  obtain ⟨before, after, rfl⟩ := List.append_of_mem (h.complete b)
  obtain ⟨hnodup, hb⟩ : (before ++ after).Nodup ∧ b ∉ before ++ after := by
    have hcons : (b :: (before ++ after)).Nodup := (List.perm_middle.nodup_iff).mp h.nodup
    exact ⟨(List.nodup_cons.mp hcons).2, (List.nodup_cons.mp hcons).1⟩
  refine ⟨b :: (before ++ after), ?_, List.nodup_cons.mpr ⟨hb, hnodup⟩, fun c => ?_⟩
  · exact circular_pushFront (circular_unlink h.circular h.nodup) hnodup hb
  · exact List.perm_middle.mem_iff.mp (h.complete c)

theorem Ordered.length (h : Ordered l order) : order.length < n + 1 := by
  have hcard := List.Nodup.length_le_card h.nodup
  rw [Fintype.card_fin] at hcard
  omega

theorem scan_path {link : Node n → Node n} {p : Fin n → Bool} {l : List (Fin n)} {a : Node n} {k : ℕ}
    (h : Path link a (l.map some) none) (hk : l.length < k) : scan link p k (link a) = some (l.find? p) := by
  induction l generalizing a k with
  | nil =>
    cases k with
    | zero => cases hk
    | succ k => rw [show link a = none from h, scan, List.find?_nil]
  | cons b l ih =>
    cases k with
    | zero => cases hk
    | succ k =>
      rw [h.1, scan, List.find?_cons]
      cases hp : p b with
      | true => rfl
      | false => exact ih h.2 (Nat.lt_of_succ_lt_succ hk)

theorem scan_next (h : Ordered l order) (p : Fin n → Bool) :
    scan l.next p (n + 1) (l.next none) = some (order.find? p) :=
  scan_path h.circular.forward h.length

theorem scan_prev (h : Ordered l order) (p : Fin n → Bool) :
    scan l.prev p (n + 1) (l.prev none) = some (order.reverse.find? p) := by
  have hback := h.circular.backward
  rw [← List.map_reverse] at hback
  exact scan_path hback (by rw [List.length_reverse]; exact h.length)

def Assigned (s : State n Thread Data) (b : Fin n) (blockno : ℕ) : Prop :=
  (s.buf b).dev = 1 ∧ (s.buf b).blockno = blockno

variable [DecidableEq Thread]

inductive Got (s : State n Thread Data) (t : Thread) (blockno : ℕ) (r : Option Reg) : State n Thread Data → Prop
  | found (b : Fin n) (h : Assigned s b blockno) : Got s t blockno r { s with
      buf := Function.update s.buf b { s.buf b with refcnt := (s.buf b).refcnt + 1 }
      pc := Function.update s.pc t (.locking b r) }
  | recycled (b : Fin n) (h : ∀ c, ¬ Assigned s c blockno) (hrefcnt : (s.buf b).refcnt = 0)
      (hdirty : (s.buf b).dirty = false) : Got s t blockno r { s with
      buf := Function.update s.buf b { s.buf b with
        dev := 1, blockno := blockno, valid := false, dirty := false, refcnt := 1 }
      pc := Function.update s.pc t (.locking b r)
      unsaved := Function.update s.unsaved b false }

theorem bget_got {s s' : State n Thread Data} {order : List (Fin n)} {t : Thread} {blockno : ℕ} {r : Option Reg}
    (h : Ordered s.links order) (hs : bget s t blockno r = some s') : Got s t blockno r s' := by
  unfold bget at hs
  rw [scan_next h, scan_prev h, Option.bind_some] at hs
  cases hfind : order.find? fun b => decide ((s.buf b).dev = 1 ∧ (s.buf b).blockno = blockno) with
  | some b =>
    rw [hfind] at hs
    cases hs
    have hb := List.find?_some hfind
    obtain ⟨hdev, hblockno⟩ := of_decide_eq_true hb
    exact .found b ⟨hdev, hblockno⟩
  | none =>
    have hnone (c : Fin n) : ¬ Assigned s c blockno := by
      have hc := List.find?_eq_none.mp hfind c (h.complete c)
      exact fun hassigned => hc (decide_eq_true hassigned)
    rw [hfind] at hs
    simp only [Option.bind_some] at hs
    split at hs
    · rename_i b hb
      cases hs
      have hfree := List.find?_some hb
      obtain ⟨hrefcnt, hdirty⟩ := of_decide_eq_true hfree
      exact .recycled b hnone hrefcnt hdirty
    · cases hs

end Xv6.BufferCache
