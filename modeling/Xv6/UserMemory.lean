import Mathlib.Algebra.Group.Int.Defs
import Mathlib.Algebra.Group.Nat.Defs
import Mathlib.Data.List.Basic

namespace Xv6.Memory

open Function

def PGSIZE : ℕ := 4096
def KERNBASE : ℕ := 0x80000000

abbrev Pgdir := ℕ → Bool

def uint (x : ℤ) : ℕ := (x % 2 ^ 32).toNat

def pgroundup (sz : ℕ) : ℕ := (sz + PGSIZE - 1) / PGSIZE * PGSIZE

def pagesBetween (lo hi : ℕ) : List ℕ :=
  List.range' (pgroundup lo / PGSIZE) (pgroundup hi / PGSIZE - pgroundup lo / PGSIZE)

def deallocuvm (pgdir : Pgdir) (oldsz newsz : ℕ) : ℕ × Pgdir :=
  if newsz ≥ oldsz then (oldsz, pgdir)
  else (newsz, fun p => pgdir p && !(p ∈ pagesBetween newsz oldsz : Bool))

def allocPages : ℕ → List ℕ → Pgdir → Option (Bool × Pgdir)
  | _, [], pgdir => some (true, pgdir)
  | 0, _ :: _, pgdir => some (false, pgdir)
  | room + 1, p :: ps, pgdir => if pgdir p then none else allocPages room ps (Function.update pgdir p true)

def allocuvm (room : ℕ) (pgdir : Pgdir) (oldsz newsz : ℕ) : Option (ℕ × Pgdir) :=
  if newsz ≥ KERNBASE then some (0, pgdir)
  else if newsz < oldsz then some (oldsz, pgdir)
  else
    (allocPages room (pagesBetween oldsz newsz) pgdir).map fun (mapped, pgdir) =>
      if mapped then (newsz, pgdir) else (0, (deallocuvm pgdir newsz oldsz).2)

structure Grown where
  ret : ℤ
  sz : ℕ
  pgdir : Pgdir

def growprocDone (sz : ℕ) : ℕ × Pgdir → Grown
  | (0, pgdir) => ⟨-1, sz, pgdir⟩
  | (newsz + 1, pgdir) => ⟨0, newsz + 1, pgdir⟩

def growproc (room sz : ℕ) (pgdir : Pgdir) (n : ℤ) : Option Grown :=
  if 0 < n then (allocuvm room pgdir sz (uint (sz + n))).map (growprocDone sz)
  else if n < 0 then some (growprocDone sz (deallocuvm pgdir sz (uint (sz + n))))
  else some ⟨0, sz, pgdir⟩

def loadSegments (room : ℕ) : List ℕ → ℕ → Pgdir → Option (ℕ × Pgdir)
  | [], sz, pgdir => some (sz, pgdir)
  | limit :: rest, sz, pgdir =>
    match allocuvm room pgdir sz limit with
    | some (sz + 1, pgdir) => loadSegments room rest (sz + 1) pgdir
    | _ => none

def execImage (room : ℕ) (segments : List ℕ) : Option (ℕ × Pgdir) :=
  match loadSegments room segments 0 (fun _ => false) with
  | none => none
  | some (sz, pgdir) =>
    match allocuvm room pgdir (pgroundup sz) (pgroundup sz + 2 * PGSIZE) with
    | some (sz + 1, pgdir) => some (sz + 1, pgdir)
    | _ => none

def Mapped (sz : ℕ) (pgdir : Pgdir) : Prop := ∀ p, p * PGSIZE < sz → pgdir p = true

section

variable {room oldsz newsz sz lo hi p : ℕ} {pgdir pgdir' : Pgdir}

theorem pgroundup_div (sz : ℕ) : pgroundup sz / PGSIZE = (sz + PGSIZE - 1) / PGSIZE :=
  Nat.mul_div_cancel _ (by decide)

theorem mem_pagesBetween : p ∈ pagesBetween lo hi ↔ lo ≤ p * PGSIZE ∧ p * PGSIZE < hi := by
  rw [pagesBetween, pgroundup_div, pgroundup_div, List.mem_range'_1]
  simp only [PGSIZE]
  omega

variable {ps segments : List ℕ} {n : ℤ} {g : Grown}

theorem allocPages_keeps {mapped : Bool} (h : allocPages room ps pgdir = some (mapped, pgdir'))
    (hp : pgdir p = true) : pgdir' p = true := by
  induction ps generalizing room pgdir with
  | nil =>
    simp only [allocPages, Option.some.injEq, Prod.mk.injEq] at h
    rwa [← h.2]
  | cons q ps ih =>
    cases room with
    | zero =>
      cases h
      exact hp
    | succ room =>
      simp only [allocPages] at h
      split_ifs at h
      apply ih h
      by_cases hpq : p = q
      · rw [hpq, update_self]
      · rwa [update_of_ne hpq]

theorem allocPages_maps (h : allocPages room ps pgdir = some (true, pgdir')) (hp : p ∈ ps) :
    pgdir' p = true := by
  induction ps generalizing room pgdir with
  | nil => cases hp
  | cons q ps ih =>
    cases room with
    | zero => cases h
    | succ room =>
      simp only [allocPages] at h
      split_ifs at h
      obtain rfl | hp := List.mem_cons.mp hp
      · exact allocPages_keeps h (update_self _ _ _)
      · exact ih h hp

theorem deallocuvm_keeps (h : p * PGSIZE < newsz) (hp : pgdir p = true) :
    (deallocuvm pgdir oldsz newsz).2 p = true := by
  unfold deallocuvm
  split_ifs
  · exact hp
  · have hout : p ∉ pagesBetween newsz oldsz := by
      rw [mem_pagesBetween]
      omega
    simp [hp, hout]

theorem allocuvm_size (h : allocuvm room pgdir oldsz newsz = some (sz, pgdir')) :
    sz = 0 ∨ (sz = newsz ∧ oldsz ≤ newsz ∧ newsz < KERNBASE) ∨
    (sz = oldsz ∧ newsz < oldsz ∧ newsz < KERNBASE) := by
  unfold allocuvm at h
  split_ifs at h with hbig hless
  · cases h
    exact .inl rfl
  · cases h
    exact .inr (.inr ⟨rfl, hless, Nat.lt_of_not_le hbig⟩)
  · obtain ⟨⟨mapped, grown⟩, _, heq⟩ := Option.map_eq_some_iff.mp h
    cases mapped with
    | true =>
      cases heq
      exact .inr (.inl ⟨rfl, Nat.le_of_not_lt hless, Nat.lt_of_not_le hbig⟩)
    | false =>
      cases heq
      exact .inl rfl

theorem allocuvm_mapped (hm : Mapped oldsz pgdir) (h : allocuvm room pgdir oldsz newsz = some (sz, pgdir')) :
    Mapped oldsz pgdir' ∧ Mapped sz pgdir' := by
  unfold allocuvm at h
  split_ifs at h with hbig hless
  · cases h
    exact ⟨hm, fun p hp => absurd hp (Nat.not_lt_zero _)⟩
  · cases h
    exact ⟨hm, hm⟩
  · obtain ⟨⟨mapped, grown⟩, hpages, heq⟩ := Option.map_eq_some_iff.mp h
    have hold : Mapped oldsz grown := fun p hp => allocPages_keeps hpages (hm p hp)
    cases mapped with
    | true =>
      cases heq
      refine ⟨hold, fun p hp => ?_⟩
      by_cases hlow : p * PGSIZE < oldsz
      · exact hold p hlow
      · exact allocPages_maps hpages (mem_pagesBetween.mpr ⟨Nat.le_of_not_lt hlow, hp⟩)
    | false =>
      cases heq
      exact ⟨fun p hp => deallocuvm_keeps hp (hold p hp), fun p hp => absurd hp (Nat.not_lt_zero _)⟩

theorem uint_eq {x : ℤ} (h0 : 0 ≤ x) (hx : x < 2 ^ 32) : (uint x : ℤ) = x := by
  unfold uint
  omega

theorem growprocDone_pgdir (sz : ℕ) (r : ℕ × Pgdir) : (growprocDone sz r).pgdir = r.2 := by
  obtain ⟨_ | _, _⟩ := r <;> rfl

theorem growprocDone_sz (sz : ℕ) (r : ℕ × Pgdir) :
    (growprocDone sz r).sz = sz ∧ (growprocDone sz r).ret = -1 ∧ r.1 = 0 ∨
      (growprocDone sz r).sz = r.1 ∧ (growprocDone sz r).ret = 0 ∧ r.1 ≠ 0 := by
  obtain ⟨_ | _, _⟩ := r
  · exact .inl ⟨rfl, rfl, rfl⟩
  · exact .inr ⟨rfl, rfl, Nat.succ_ne_zero _⟩

theorem growproc_grows (hsz : sz ≤ KERNBASE) (hn : 0 < n) (hint : n < 2 ^ 31)
    (h : growproc room sz pgdir n = some g) :
    g.ret = -1 ∧ g.sz = sz ∨ g.ret = 0 ∧ (g.sz : ℤ) = sz + n ∧ g.sz < KERNBASE := by
  simp only [growproc, hn, ↓reduceIte] at h
  obtain ⟨⟨sz', pgdir'⟩, halloc, rfl⟩ := Option.map_eq_some_iff.mp h
  have hu : (uint (sz + n) : ℤ) = sz + n := by
    apply uint_eq
    · omega
    · simp only [KERNBASE] at hsz
      omega
  have hsize := allocuvm_size halloc
  obtain ⟨hs, hr, h0⟩ | ⟨hs, hr, h0⟩ := growprocDone_sz sz (sz', pgdir')
  · exact .inl ⟨hr, hs⟩
  · rw [hs]
    refine .inr ⟨hr, ?_⟩
    simp only at h0 ⊢
    omega

theorem growproc_mapped (hn : 0 ≤ n) (hm : Mapped sz pgdir)
    (h : growproc room sz pgdir n = some g) : Mapped g.sz g.pgdir := by
  by_cases hpos : 0 < n
  · simp only [growproc, hpos, ↓reduceIte] at h
    obtain ⟨⟨sz', pgdir'⟩, halloc, rfl⟩ := Option.map_eq_some_iff.mp h
    obtain ⟨hold, hnew⟩ := allocuvm_mapped hm halloc
    rw [growprocDone_pgdir]
    obtain ⟨hs, _⟩ | ⟨hs, _⟩ := growprocDone_sz sz (sz', pgdir')
    · rwa [hs]
    · rwa [hs]
  · have hneg : ¬ n < 0 := by omega
    simp only [growproc, hpos, hneg, ↓reduceIte, Option.some.injEq] at h
    rwa [← h]

theorem growproc_bound (hsz : sz ≤ KERNBASE) (h : growproc room sz pgdir n = some g) :
    g.sz ≤ KERNBASE := by
  unfold growproc at h
  split_ifs at h with hpos hneg
  · obtain ⟨⟨sz', pgdir'⟩, halloc, rfl⟩ := Option.map_eq_some_iff.mp h
    have hsize := allocuvm_size halloc
    obtain ⟨hs, _⟩ | ⟨hs, _⟩ := growprocDone_sz sz (sz', pgdir') <;> rw [hs]
    · exact hsz
    · simp only
      omega
  · cases h
    obtain ⟨hs, _⟩ | ⟨hs, _⟩ := growprocDone_sz sz (deallocuvm pgdir sz (uint (sz + n))) <;> rw [hs]
    · exact hsz
    · unfold deallocuvm
      split_ifs
      · exact hsz
      · simp only
        omega
  · cases h
    exact hsz

theorem growproc_shrinks (hn : n < 0) (hm : Mapped sz pgdir)
    (hz : uint (sz + n) = 0 → sz = 0) (h : growproc room sz pgdir n = some g) :
    (g.sz = sz ∨ g.sz = uint (sz + n) ∧ uint (sz + n) < sz) ∧ Mapped g.sz g.pgdir := by
  have hpos : ¬ 0 < n := by omega
  simp only [growproc, hpos, hn, ↓reduceIte, Option.some.injEq] at h
  subst h
  rw [growprocDone_pgdir]
  obtain ⟨hs, _, h0⟩ | ⟨hs, _, h0⟩ := growprocDone_sz sz (deallocuvm pgdir sz (uint (sz + n)))
  · rw [hs]
    refine ⟨.inl rfl, fun p hp => ?_⟩
    have hsz : sz = 0 := by
      unfold deallocuvm at h0
      split_ifs at h0
      · exact h0
      · exact hz h0
    omega
  · rw [hs]
    unfold deallocuvm
    split_ifs with hle
    · exact ⟨.inl rfl, hm⟩
    · refine ⟨.inr ⟨rfl, Nat.lt_of_not_le hle⟩, fun p hp => ?_⟩
      have hkept : (deallocuvm pgdir sz (uint (sz + n))).2 p = true :=
        deallocuvm_keeps hp (hm p (Nat.lt_trans hp (Nat.lt_of_not_le hle)))
      simpa only [deallocuvm, hle, ↓reduceIte] using hkept

theorem loadSegments_mapped (hb : sz ≤ KERNBASE) (hm : Mapped sz pgdir)
    (h : loadSegments room segments sz pgdir = some (newsz, pgdir')) : newsz ≤ KERNBASE ∧ Mapped newsz pgdir' := by
  induction segments generalizing sz pgdir with
  | nil =>
    cases h
    exact ⟨hb, hm⟩
  | cons limit rest ih =>
    simp only [loadSegments] at h
    split at h
    · rename_i sz₁ pgdir₁ halloc
      have hsize := allocuvm_size halloc
      exact ih (by omega) (allocuvm_mapped hm halloc).2 h
    · cases h

theorem execImage_mapped (h : execImage room segments = some (newsz, pgdir')) :
    newsz ≤ KERNBASE ∧ Mapped newsz pgdir' := by
  unfold execImage at h
  split at h
  · cases h
  · rename_i sz pgdir hload
    obtain ⟨hb, hm⟩ := loadSegments_mapped (Nat.zero_le _) (fun p hp => absurd hp (Nat.not_lt_zero _)) hload
    split at h
    · rename_i sz₁ pgdir₁ halloc
      cases h
      have hup : Mapped (pgroundup sz) pgdir := by
        intro p hp
        apply hm
        simp only [pgroundup, PGSIZE] at hp ⊢
        omega
      have hsize := allocuvm_size halloc
      refine ⟨?_, (allocuvm_mapped hup halloc).2⟩
      simp only [pgroundup, PGSIZE, KERNBASE] at hsize hb ⊢
      omega
    · cases h

end

end Xv6.Memory
