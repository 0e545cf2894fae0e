import Xv6.UserBytes

namespace Xv6.Vm

open Xv6.Memory (PGSIZE KERNBASE)
open Xv6.Triples Xv6.Words Function

variable {L : Layout} {S : ℕ → Prop} {d : ℕ} {s : Machine}

def Allocator.frames {m : Machine} (h : Allocator L m) : Frames L :=
  ⟨m.freelist, False, Multiset.coe_nodup.mpr h.nodup, h.fits⟩

theorem Allocator.heap {m : Machine} (h : Allocator L m) : Heap h.frames 0 0 (fun _ _ => 0) m :=
  Heap.start rfl False.elim

structure Bare (S : ℕ → Prop) (d : ℕ) (s : Machine) : Prop where
  none : ∀ i, S i → tableOf s.mem d i = none
  apart : ∀ i < NPDENTRIES, tableOf s.mem d i ≠ some d
  free : ∀ page ∈ s.freelist, page ≠ d ∧ page < 2 ^ 20

theorem Bare.congr {s' : Machine} (h : Bare S d s) (hd : s'.mem d = s.mem d)
    (hfree : ∀ page ∈ s'.freelist, page ∈ s.freelist) : Bare S d s' := by
  refine ⟨fun i hi => ?_, fun i hi => ?_, fun page hp => h.free page (hfree page hp)⟩
  · rw [tableOf_congr hd]
    exact h.none i hi
  · rw [tableOf_congr hd]
    exact h.apart i hi

variable {fuel page v : ℕ} {Z : Stop → Prop}

theorem Bare.install {i : ℕ} (h : Bare S d s) (hi : ¬ S i) (hp : page ≠ d) (hlt : page < 2 ^ 20) :
    Bare S d { s with mem := installed s.mem d i page } := by
  refine ⟨fun j hj => ?_, fun j hj => ?_, h.free⟩
  · have hne : j ≠ i := fun heq => hi (heq ▸ hj)
    rw [tableOf_installed _ _ _ _ hlt, update_of_ne hne]
    exact h.none j hj
  · rw [tableOf_installed _ _ _ _ hlt]
    by_cases hji : j = i
    · rw [hji, update_self]
      exact fun heq => hp (Option.some.inj heq)
    · rw [update_of_ne hji]
      exact h.apart j hj

theorem walk_bare (hv : v < 2 ^ 20) (hS : ¬ S (v / 1024)) :
    Triple (Bare S d) (walkpgdir d (v * PGSIZE) true)
      (fun r s => Bare S d s ∧ ∀ t i, r = some (t, i) → t ≠ d) Z := by
  apply Triple.start
  intro s hs
  apply walkAlloc_rule hv fun hd => (hs.free d hd).1 rfl
  · intro t ht
    refine ⟨hs, fun t' i hr => ?_⟩
    cases hr
    exact fun htd => hs.apart _ (slot_lt hv) (htd ▸ ht)
  · intro _
    exact ⟨hs.congr rfl fun _ h => h, fun _ _ hr => by cases hr⟩
  · intro page rest _ hf hpd
    have htaken : Bare S d { s with freelist := rest, fails := s.fails.tail } :=
      hs.congr rfl fun q hq => hf ▸ List.mem_cons_of_mem page hq
    refine ⟨htaken.install hS hpd (hs.free page (hf ▸ List.mem_cons_self)).2, fun t i hr => ?_⟩
    cases hr
    exact hpd

theorem mapFrom_bare {perm m pa : ℕ} (hS : ∀ x, v ≤ x → x ≤ v + m → ¬ S (x / 1024)) (hm : v + m < 2 ^ 20) :
    Triple (Bare S d) (mapFrom d ((v + m) * PGSIZE) perm fuel (v * PGSIZE) pa)
      (fun _ => Bare S d) (fun _ => True) := by
  induction fuel generalizing v m pa with
  | zero => exact Triple.throw trivial
  | succ fuel ih =>
    refine Triple.bind (walk_bare (by omega) (hS v (by omega) (by omega))) fun r => ?_
    rcases r with _ | ⟨t, i⟩
    · exact Triple.pure fun x hx => hx.1
    · apply Triple.start
      rintro x ⟨hx, htab⟩
      have hstored (bytes : Bytes) : Bare S d { x with mem := update x.mem t bytes } :=
        hx.congr (update_of_ne (htab t i rfl).symm _ _) fun _ h => h
      apply Triple.step (load_run _ _ _)
      apply Triple.ite
      · intro _
        exact Triple.throw trivial
      · intro _
        apply Triple.step (store_run _ _ _ _)
        apply Triple.ite
        · intro _
          exact Triple.ret (hstored _)
        · intro hlast
          have hpos : 0 < m := by
            by_contra h0
            exact hlast (by rw [show m = 0 by omega, Nat.add_zero])
          have hend : v + m = v + 1 + (m - 1) := by omega
          rw [next_page (by omega), hend]
          exact (ih (fun x hlo hhi => hS x (by omega) (by omega)) (by omega)).here (hstored _)

theorem mapKernel_bare {lo : ℕ} {ks : List Kmap} (hks : Ascending lo ks)
    (hS : ∀ k ∈ ks, ∀ v m q, k.Spans v m q → ∀ x, v ≤ x → x < v + m → ¬ S (x / 1024)) :
    Triple (Bare S d) (mapKernel d ks) (fun _ => Bare S d) (fun _ => True) := by
  induction ks generalizing lo with
  | nil => exact Triple.pure fun s hs => hs
  | cons k ks ih =>
    obtain ⟨v, m, q, hk, hv, hrest⟩ := hks
    have hmap : Triple (Bare S d)
        (mappages d k.virt ((k.physEnd + 2 ^ 32 - k.physStart) % 2 ^ 32) k.physStart k.perm)
        (fun _ => Bare S d) (fun _ => True) := by
      have hsome := hk.some
      have htop := hk.top
      rw [mappages, hk.virt, hk.size, last_page hsome htop, pgrounddown_page,
        show v + m - 1 = v + (m - 1) by omega]
      exact mapFrom_bare (fun x hlo hhi => hS k List.mem_cons_self v m q hk x hlo (by omega)) (by omega)
    unfold mapKernel
    refine Triple.bind hmap fun ok => ?_
    cases ok with
    | false => exact Triple.pure fun s hs => hs
    | true => exact ih hrest fun k' hk' => hS k' (List.mem_cons_of_mem k hk')

def Vacant (i : ℕ) : Prop := i < KERNBASE / 2 ^ 22 ∨ ((KERNBASE + PHYSTOP) / 2 ^ 22 ≤ i ∧ i < DEVSPACE / 2 ^ 22)

theorem kmap_vacant (L : Layout) : ∀ k ∈ kmap L, ∀ v m q, k.Spans v m q → ∀ x, v ≤ x →
    x < v + m → ¬ Vacant (x / 1024) := by
  have haligned := L.aligned
  have htext := L.text
  have hfits := L.fits
  intro k hk v m q hspan x hlo hhi
  have hvirt := hspan.virt
  have hsize := hspan.size
  have htop := hspan.top
  simp only [kmap, List.mem_cons, List.not_mem_nil, or_false] at hk
  simp only [Vacant, KERNLINK, KERNBASE, EXTMEM, PHYSTOP, DEVSPACE, PGSIZE] at *
  obtain rfl | rfl | rfl | rfl := hk <;> simp only [V2P, KERNBASE] at hvirt hsize <;> omega

theorem setupkvm_bare : Triple (Allocator L) (setupkvm L) (fun r s => ∀ d, r = some d → Bare Vacant d s)
    (fun _ => True) := by
  apply Triple.bind (R := fun r s => ∀ d, r = some d → ∀ page ∈ s.freelist, page ≠ d ∧ page < 2 ^ 20)
  · refine kalloc_rule (fun s hs _ => fun d h => by cases h) fun s page rest hs hf d hd q hq => ?_
    cases hd
    have hnodup := hs.nodup
    rw [hf, List.nodup_cons] at hnodup
    refine ⟨fun heq => hnodup.1 (heq ▸ hq), ?_⟩
    exact Frames.lt (A := hs.frames) (p := q) (by
      show q ∈ (s.freelist : Multiset ℕ)
      rw [hf]
      exact List.mem_cons_of_mem page hq)
  · rintro (_ | d)
    · exact Triple.pure fun s _ d h => by cases h
    · apply Triple.bind (R := fun _ => Bare Vacant d)
      · refine fill_rule fun s hs => ?_
        have hnone (i : ℕ) : tableOf (update s.mem d fun _ => 0) d i = none := by
          rw [tableOf, update_self, get32_zero]
          rfl
        exact ⟨fun i _ => hnone i, fun i _ h => Option.some_ne_none d (h.symm.trans (hnone i)), hs d rfl⟩
      · intro _
        refine Triple.bind (mapKernel_bare (kmap_ascending L) (kmap_vacant L)) fun ok => ?_
        cases ok with
        | false =>
          exact Triple.bind (R := fun _ _ => True) Triple.anything fun _ => Triple.pure fun s _ d h => by cases h
        | true =>
          refine Triple.pure fun s hs d' h => ?_
          cases h
          exact hs

end Xv6.Vm
