import Xv6.AddressSpaces

namespace Xv6.Vm

open Xv6.Memory (PGSIZE KERNBASE uint)
open Xv6.Triples Xv6.Words

def byteAt (mem : ℕ → Bytes) (d a : ℕ) : ℕ := mem (PTE_ADDR (entryOf mem d (a / PGSIZE)) / PGSIZE) (a % PGSIZE)

def Layout.Fits (L : Layout) (page : ℕ) : Prop := L.kernelEnd ≤ page * PGSIZE + KERNBASE ∧ page * PGSIZE < PHYSTOP

structure Allocator (L : Layout) (s : Machine) : Prop where
  nodup : s.freelist.Nodup
  fits : ∀ page ∈ s.freelist, L.Fits page

structure Isolated (L : Layout) (pgdir sz d : ℕ) (s s' : Machine) : Prop where
  flags : ∀ a < sz, present (entryOf s'.mem d (a / PGSIZE)) = true ∧
    PTE_FLAGS (entryOf s'.mem d (a / PGSIZE)) = PTE_FLAGS (entryOf s.mem pgdir (a / PGSIZE))
  bytes : ∀ a < sz, byteAt s'.mem d a = byteAt s.mem pgdir a
  apart : ∀ v < KERNBASE / PGSIZE, ∀ w < KERNBASE / PGSIZE, present (entryOf s'.mem d v) = true →
    present (entryOf s'.mem pgdir w) = true →
      PTE_ADDR (entryOf s'.mem d v) / PGSIZE ≠ PTE_ADDR (entryOf s'.mem pgdir w) / PGSIZE
  only : ∀ v < KERNBASE / PGSIZE, sz ≤ v * PGSIZE → present (entryOf s'.mem d v) = false
  kernel : ∀ v, KERNBASE / PGSIZE ≤ v → v < 2 ^ 20 → entryOf s'.mem d v = kernelEntries L v
  parent : ∀ page ∈ ownedBy s.mem pgdir, s'.mem page = s.mem page

variable {L : Layout} {s s' : Machine} {pgdir sz d : ℕ}

def copyFrames (hfree : Allocator L s) (hpages : ∀ p ∈ ownedBy s.mem pgdir, p ∉ s.freelist ∧ L.Fits p) :
    Frames L where
  pages := s.freelist + (ownedBy s.mem pgdir).dedup
  calm := False
  nodup := by
    refine Multiset.nodup_add.mpr ⟨Multiset.coe_nodup.mpr hfree.nodup, Multiset.nodup_dedup _, ?_⟩
    exact Multiset.disjoint_right.mpr fun hp => (hpages _ (Multiset.mem_dedup.mp hp)).1
  fits := by
    intro p hp
    obtain hp | hp := Multiset.mem_add.mp hp
    · exact hfree.fits p hp
    · exact (hpages p (Multiset.mem_dedup.mp hp)).2

theorem copyFrames_heap (hfree : Allocator L s) (hpages : ∀ p ∈ ownedBy s.mem pgdir, p ∉ s.freelist ∧ L.Fits p) :
    Heap (copyFrames hfree hpages) 0 (ownedBy s.mem pgdir).dedup s.mem s :=
  ⟨by rw [add_zero]; rfl, fun _ _ => rfl, False.elim⟩

variable {a : ℕ} {A : Frames L} {H R : Multiset ℕ} {M m₀ : ℕ → Bytes} {E : ℕ → ℕ}

theorem page_lt (ha : a < sz) : a / PGSIZE < pageCount sz := by
  rw [lt_pageCount]
  simp only [PGSIZE]
  omega

theorem lt_top {v : ℕ} (hv : v < KERNBASE / PGSIZE) : v < 2 ^ 20 := Nat.lt_trans (user_lt hv) (by decide)

theorem Laden.byte (h : Laden A H R m₀ d E M s)
    (hv : a / PGSIZE < KERNBASE / PGSIZE) (hp : present (E (a / PGSIZE)) = true) :
    byteAt s.mem d a = M (PTE_ADDR (E (a / PGSIZE)) / PGSIZE) (a % PGSIZE) := by
  rw [byteAt, h.entries _ (lt_top hv), h.contents _ (Multiset.mem_add.mpr (.inl (mem_userPages hv hp)))]

theorem Duplicates.isolated (hs : Laden A 0 R s.mem d E M s')
    (hR : ∀ p ∈ ownedBy s.mem pgdir, p ∈ R) (hsz : sz ≤ KERNBASE) (hE : Filled E (pageCount sz))
    (hmaps : Filled (entryOf s.mem pgdir) (pageCount sz))
    (h : Duplicates R s.mem (entryOf s.mem pgdir) (kernelEntries L) E M (pageCount sz)) :
    Isolated L pgdir sz d s s' := by
  have hcount := pageCount_le hsz
  have hkept : ∀ p ∈ ownedBy s.mem pgdir, s'.mem p = s.mem p := fun p hp => hs.frame p (hR p hp)
  have huser {v : ℕ} (hv : v < KERNBASE / PGSIZE) (hp : present (entryOf s.mem pgdir v) = true) :
      PTE_ADDR (entryOf s.mem pgdir v) / PGSIZE ∈ ownedBy s.mem pgdir :=
    Multiset.mem_add.mpr (.inr (mem_userPages hv hp))
  have hpresent {v : ℕ} (hv : v < pageCount sz) : present (entryOf s'.mem d v) = true := by
    rw [hs.entries v (lt_top (by omega)), hE v (by omega), decide_eq_true hv]
  refine ⟨fun a ha => ?_, fun a ha => ?_, fun v hv w hw hpv hpw => ?_, fun v hv hle => ?_,
    fun v hv htop => ?_, hkept⟩
  · have hv := page_lt ha
    refine ⟨hpresent hv, ?_⟩
    rw [hs.entries _ (lt_top (by omega))]
    exact h.flags _ hv
  · have hv := page_lt ha
    have hsource : PTE_ADDR (entryOf s.mem pgdir (a / PGSIZE)) / PGSIZE ∈ R := by
      apply hR _ (huser (by omega) _)
      rw [hmaps _ (by omega), decide_eq_true hv]
    rw [hs.byte (by omega) (by rw [hE _ (by omega), decide_eq_true hv]), h.bytes _ hv hsource, byteAt]
  · rw [hs.entries v (lt_top hv)] at hpv ⊢
    rw [entryOf_kept hkept (lt_top hw)] at hpw ⊢
    intro heq
    have hcopy := Multiset.one_le_count_iff_mem.mpr (mem_userPages hv hpv)
    have hsource := Multiset.one_le_count_iff_mem.mpr (hR _ (huser hw hpw))
    have hle := hs.toOwn.count (PTE_ADDR (E v) / PGSIZE)
    rw [← heq] at hsource
    omega
  · have hv' : ¬ v < pageCount sz := fun hlt => absurd (lt_pageCount.mp hlt) (by omega)
    rw [hs.entries v (lt_top hv), hE v hv, decide_eq_false hv']
  · rw [hs.entries v htop, h.rest v (by omega)]

theorem copyuvm_isolates (L : Layout) (s s' : Machine) (pgdir sz d : ℕ) (hfree : Allocator L s)
    (hpages : ∀ p ∈ ownedBy s.mem pgdir, p ∉ s.freelist ∧ L.Fits p) (hsz : sz ≤ KERNBASE)
    (hmaps : ∀ v < KERNBASE / PGSIZE, present (entryOf s.mem pgdir v) = decide (v * PGSIZE < sz))
    (hrun : (copyuvm L pgdir sz).run s = .ok (some d, s')) : Isolated L pgdir sz d s s' := by
  have hfilled : Filled (entryOf s.mem pgdir) (pageCount sz) := by
    intro v hv
    rw [hmaps v hv]
    simp only [lt_pageCount]
  have hin {p : ℕ} (hp : p ∈ ownedBy s.mem pgdir) : p ∈ (ownedBy s.mem pgdir).dedup := Multiset.mem_dedup.mpr hp
  have hsrc : Framed (ownedBy s.mem pgdir).dedup s.mem pgdir :=
    ⟨hin (mem_ownedBy_dir _ _), fun i hi t ht => hin (mem_ownedBy_table hi ht)⟩
  have hpresent : ∀ x < pageCount sz, present (entryOf s.mem pgdir x) = true := by
    intro x hx
    rw [hfilled x (Nat.lt_of_lt_of_le hx (pageCount_le hsz)), decide_eq_true hx]
  obtain ⟨E, M, hs, hE, hdup⟩ := (copyuvm_laden hsrc hsz hpresent).ok (copyFrames_heap hfree hpages) hrun
  exact hdup.isolated hs (fun p => hin) hsz hE hfilled

def sysSbrk (L : Layout) (p : Process) (n : ℤ) : Call (ℤ × Process) := do
  match ← growproc L p n with
  | none => return (-1, p)
  | some q => return (p.sz, q)

inductive Resized (p : Process) (n : ℤ) (E : ℕ → ℕ) (M : ℕ → Bytes) (E' : ℕ → ℕ) (M' : ℕ → Bytes) :
    Option Process → Prop
  | grown (newsz : ℕ) (hn : 0 ≤ n) (hsz : (newsz : ℤ) = p.sz + n) (hnew : newsz < KERNBASE)
      (hmaps : Maps E E' (pageCount p.sz) (pageCount newsz))
      (hgrown : Grown E E' M M' (pageCount p.sz) (pageCount newsz)) :
      Resized p n E M E' M' (some { p with sz := newsz })
  | refused (hn : 0 < n) (halike : Alike E E') (hkept : ∀ q ∈ userPages E, M' q = M q) : Resized p n E M E' M' none
  | shrunk (newsz : ℕ) (hn : n < 0) (hpos : 0 < newsz) (hsz : (newsz : ℤ) = p.sz + n)
      (hE : E' = clearRange E (pageCount newsz) (pageCount p.sz)) (hM : M' = M) :
      Resized p n E M E' M' (some { p with sz := newsz })
  | emptied (hpos : 0 < p.sz) (hn : p.sz + n = 0) (hE : E' = clearRange E 0 (pageCount p.sz)) :
      Resized p n E M E' M' none
  | ignored (r : Option Process) (hn : p.sz + n < 0) (hr : if p.sz = 0 then r = none else r = some p) (hE : E' = E)
      (hM : M' = M) : Resized p n E M E' M' r

theorem growproc_laden {p : Process} {n : ℤ}
    (hsz : p.sz < KERNBASE) (hlo : -2 ^ 31 ≤ n) (hhi : n < 2 ^ 31) (hE : Filled E (pageCount p.sz)) :
    Triple (Laden A H R m₀ p.pgdir E M) (growproc L p n)
      (fun r s => ∃ E' M', Laden A H R m₀ p.pgdir E' M' s ∧ Resized p n E M E' M' r) NoStop := by
  have hkern : p.sz < 2 ^ 31 := hsz
  unfold growproc
  apply Triple.ite
  · intro hpos
    have hnew : uint (p.sz + n) = p.sz + n.toNat := by
      unfold uint
      omega
    rw [hnew]
    have habsent : p.sz + n.toNat < KERNBASE → ∀ x, pageCount p.sz ≤ x → x < pageCount (p.sz + n.toNat) →
        present (E x) = false := fun h x hlo hhi =>
      hE.above hlo (Nat.lt_of_lt_of_le hhi (pageCount_le (Nat.le_of_lt h)))
    refine Triple.bind (allocuvm_laden (Nat.le_of_lt hsz) habsent) fun r => ?_
    apply Triple.start
    rintro s (⟨rfl, _, hnew, E', M', hs, hmaps, hgrown⟩ | ⟨_, hless, _⟩ | ⟨rfl, E', M', hs, halike, hkept, _⟩)
    · rw [if_neg (by omega)]
      exact Triple.ret ⟨E', M', hs, .grown _ (by omega) (by omega) hnew hmaps hgrown⟩
    · omega
    · rw [if_pos rfl]
      exact Triple.ret ⟨E', M', hs, .refused hpos halike hkept⟩
  · intro hpos
    apply Triple.ite
    · intro hneg
      refine Triple.bind (deallocuvm_laden (Nat.le_of_lt hsz)) fun r => ?_
      apply Triple.start
      rintro s ⟨rfl, hs⟩
      obtain hbelow | hzero | habove := Int.lt_trichotomy (p.sz + n) 0
      · -- the sum wraps to a size above the old one
        have hmin : min p.sz (uint (p.sz + n)) = p.sz := by
          unfold uint
          omega
        have hsame : clearRange E (pageCount (uint (p.sz + n))) (pageCount p.sz) = E := by
          apply clearRange_empty
          simp only [pageCount, PGSIZE]
          omega
        rw [hmin]
        rw [hsame] at hs
        apply Triple.ite
        · intro h0
          exact Triple.ret ⟨E, M, hs, .ignored _ hbelow (by rw [if_pos h0]) rfl rfl⟩
        · intro h0
          exact Triple.ret ⟨E, M, hs, .ignored _ hbelow (by rw [if_neg h0]) rfl rfl⟩
      · have hnew : uint (p.sz + n) = 0 := by
          rw [hzero]
          rfl
        rw [hnew, Nat.min_zero, if_pos rfl]
        rw [hnew] at hs
        exact Triple.ret ⟨_, M, hs, .emptied (by omega) hzero rfl⟩
      · have hmin : min p.sz (uint (p.sz + n)) = uint (p.sz + n) ∧ (uint (p.sz + n) : ℤ) = p.sz + n := by
          unfold uint
          omega
        rw [hmin.1, if_neg (by omega)]
        exact Triple.ret ⟨_, M, hs, .shrunk _ hneg (by omega) hmin.2 rfl rfl⟩
    · intro hneg
      refine Triple.pure fun s hs => ⟨E, M, hs, ?_⟩
      exact .grown p.sz (by omega) (by omega) hsz (maps_empty E (Nat.le_refl _))
        ⟨fun _ _ => rfl, fun x hlo hhi => by omega⟩

def mapping (mem : ℕ → Bytes) (d v : ℕ) : Option ℕ :=
  if present (entryOf mem d v) then some (entryOf mem d v) else none

structure Moved (p q : Process) (n value : ℤ) (s s' : Machine) : Prop where
  value : value = p.sz
  size : (q.sz : ℤ) = p.sz + n
  mapped : 0 ≤ n → ∀ a < q.sz, present (entryOf s'.mem q.pgdir (a / PGSIZE)) = true
  zero : ∀ v < KERNBASE / PGSIZE, mapping s.mem p.pgdir v = none → mapping s'.mem q.pgdir v ≠ none →
    s'.mem (PTE_ADDR (entryOf s'.mem q.pgdir v) / PGSIZE) = fun _ => 0
  bytes : ∀ a < min p.sz q.sz, byteAt s'.mem q.pgdir a = byteAt s.mem p.pgdir a

structure Unmoved (p q : Process) (s s' : Machine) : Prop where
  same : q = p
  mappings : ∀ v < KERNBASE / PGSIZE, mapping s'.mem p.pgdir v = mapping s.mem p.pgdir v
  bytes : ∀ a < KERNBASE, mapping s.mem p.pgdir (a / PGSIZE) ≠ none →
    byteAt s'.mem p.pgdir a = byteAt s.mem p.pgdir a

def SbrkExact (L : Layout) (p : Process) (n : ℤ) (s : Machine) : Prop :=
  ∃ value q s', (sysSbrk L p n).run s = .ok ((value, q), s') ∧ (value ≠ -1 → Moved p q n value s s') ∧
    (value = -1 → Unmoved p q s s')

variable {A : Frames L} {H R : Multiset ℕ} {m₀ M : ℕ → Bytes} {E : ℕ → ℕ}

theorem Own.mapping {v : ℕ} (h : Own A H R m₀ d E s) (hv : v < KERNBASE / PGSIZE) :
    mapping s.mem d v = if present (E v) then some (E v) else none := by
  rw [Vm.mapping, h.entries v (lt_top hv)]

section Sbrk

variable {p : Process} {n value : ℤ} {newsz : ℕ} {E' : ℕ → ℕ} {M' : ℕ → Bytes}

theorem Grown.moved (hs : Laden A H R m₀ p.pgdir E M s) (hs' : Laden A H R m₀ p.pgdir E' M' s')
    (hE : Filled E (pageCount p.sz)) (hn : 0 ≤ n) (hsz : (newsz : ℤ) = p.sz + n) (hnew : newsz < KERNBASE)
    (hmaps : Maps E E' (pageCount p.sz) (pageCount newsz))
    (h : Grown E E' M M' (pageCount p.sz) (pageCount newsz)) :
    Moved p { p with sz := newsz } n p.sz s s' := by
  have hcount := pageCount_le (Nat.le_of_lt hnew)
  have hle : pageCount p.sz ≤ pageCount newsz := by
    simp only [pageCount, PGSIZE]
    omega
  refine ⟨rfl, hsz, fun _ a ha => ?_, fun v hv hbefore hafter => ?_, fun a ha => ?_⟩
  · have hv : a / PGSIZE < pageCount newsz := page_lt ha
    rw [hs'.entries _ (lt_top (by omega)), hE.maps hmaps hle _ (by omega), decide_eq_true hv]
  · rw [hs.toOwn.mapping hv] at hbefore
    rw [hs'.toOwn.mapping hv] at hafter
    have habsent : ¬ present (E v) = true := fun hp => by simp [hp] at hbefore
    have hpresent : present (E' v) = true := by
      by_contra hp
      simp [hp] at hafter
    have hin : pageCount p.sz ≤ v ∧ v < pageCount newsz := by
      by_contra hout
      rw [hmaps.outside v hout] at hpresent
      exact habsent hpresent
    rw [hs'.entries v (lt_top hv), hs'.contents _ (Multiset.mem_add.mpr (.inl (mem_userPages hv hpresent)))]
    exact h.zero v hin.1 hin.2
  · have hv := page_lt (Nat.lt_of_lt_of_le ha (Nat.min_le_left _ _))
    have hsame : E' (a / PGSIZE) = E (a / PGSIZE) := hmaps.outside _ (by omega)
    have hpresent : present (E (a / PGSIZE)) = true := by rw [hE _ (by omega), decide_eq_true hv]
    rw [hs'.byte (by omega) (by rwa [hsame]), hs.byte (by omega) hpresent, hsame,
      h.kept _ (mem_userPages (by omega) hpresent)]

theorem Alike.unmoved (hs : Laden A H R m₀ p.pgdir E M s) (hs' : Laden A H R m₀ p.pgdir E' M' s') (h : Alike E E')
    (hkept : ∀ q ∈ userPages E, M' q = M q) : Unmoved p p s s' := by
  refine ⟨rfl, fun v hv => ?_, fun a ha hmapped => ?_⟩
  · rw [hs.toOwn.mapping hv, hs'.toOwn.mapping hv]
    obtain heq | ⟨hp', hp⟩ := h v
    · rw [heq]
    · simp [hp, hp']
  · have hv : a / PGSIZE < KERNBASE / PGSIZE := by
      simp only [KERNBASE, PGSIZE] at *
      omega
    rw [hs.toOwn.mapping hv] at hmapped
    have hpresent : present (E (a / PGSIZE)) = true := by
      by_contra hp
      simp [hp] at hmapped
    have hsame : E' (a / PGSIZE) = E (a / PGSIZE) := (h _).resolve_right fun hno => by simp [hno.2] at hpresent
    rw [hs'.byte hv (by rwa [hsame]), hs.byte hv hpresent, hsame, hkept _ (mem_userPages hv hpresent)]

theorem clearRange_moved (hs : Laden A H R m₀ p.pgdir E M s)
    (hs' : Laden A H R m₀ p.pgdir (clearRange E (pageCount newsz) (pageCount p.sz)) M s')
    (hE : Filled E (pageCount p.sz)) (hp : p.sz < KERNBASE) (hn : n < 0) (hsz : (newsz : ℤ) = p.sz + n) :
    Moved p { p with sz := newsz } n p.sz s s' := by
  have hcount := pageCount_le (Nat.le_of_lt hp)
  refine ⟨rfl, hsz, fun h => by omega, fun v hv hbefore hafter => ?_, fun a ha => ?_⟩
  · rw [hs.toOwn.mapping hv] at hbefore
    rw [hs'.toOwn.mapping hv] at hafter
    have habsent : ¬ present (E v) = true := fun hp => by simp [hp] at hbefore
    have hsame : clearRange E (pageCount newsz) (pageCount p.sz) v = E v := if_neg fun h => habsent h.2.2
    rw [hsame, if_neg habsent] at hafter
    exact absurd rfl hafter
  · have ha' : a < newsz := by
      simp only at ha
      omega
    have hv := page_lt (Nat.lt_of_lt_of_le ha (Nat.min_le_left _ _))
    have hkept := page_lt ha'
    have hsame : clearRange E (pageCount newsz) (pageCount p.sz) (a / PGSIZE) = E (a / PGSIZE) := if_neg (by omega)
    have hpresent : present (E (a / PGSIZE)) = true := by rw [hE _ (by omega), decide_eq_true hv]
    rw [hs'.byte (by omega) (by rwa [hsame]), hs.byte (by omega) hpresent, hsame]

structure Intact (L : Layout) (s : Machine) (pgdir : ℕ) : Prop where
  nodup : ((s.freelist : Multiset ℕ) + ownedBy s.mem pgdir).Nodup
  fits : ∀ page ∈ (s.freelist : Multiset ℕ) + ownedBy s.mem pgdir, L.Fits page

def Intact.frames (h : Intact L s pgdir) : Frames L := ⟨s.freelist + ownedBy s.mem pgdir, False, h.nodup, h.fits⟩

theorem Intact.laden (h : Intact L s pgdir) : Laden h.frames 0 0 s.mem pgdir (entryOf s.mem pgdir) s.mem s :=
  Own.laden ⟨fun _ _ => rfl, by rw [add_zero, add_zero]; rfl, fun _ _ => rfl, False.elim⟩

theorem sysSbrk_run {r : Option Process} (h : (growproc L p n).run s = .ok (r, s')) :
    (sysSbrk L p n).run s = .ok ((if r = none then -1 else (p.sz : ℤ), r.getD p), s') := by
  rw [sysSbrk, StateT.run_bind, h]
  cases r <;> rfl

/-- A shrinking `sbrk` is exact when the break stays above 0: a break at 0 is the error value of `deallocuvm`,
and one below 0 wraps to a larger size. -/
theorem sbrk_exact_iff (L : Layout) (p : Process) (n : ℤ) (s : Machine)
    (hs : Intact L s p.pgdir) (hsz : p.sz < KERNBASE)
    (hmaps : ∀ v < KERNBASE / PGSIZE, present (entryOf s.mem p.pgdir v) = decide (v * PGSIZE < p.sz))
    (hlo : -2 ^ 31 ≤ n) (hhi : n < 2 ^ 31) : SbrkExact L p n s ↔ 0 ≤ n ∨ -n < p.sz ∨ p.sz = 0 := by
  have hE : Filled (entryOf s.mem p.pgdir) (pageCount p.sz) := by
    intro v hv
    rw [hmaps v hv]
    simp only [lt_pageCount]
  obtain ⟨r, s', hrun, E', M', hs', hr⟩ := (growproc_laden hsz hlo hhi hE).returns hs.laden
  have hcall := sysSbrk_run hrun
  constructor
  · rintro ⟨value, q, s'', hcall', hmoved, hunmoved⟩
    by_contra hno
    rw [hcall] at hcall'
    cases hcall'
    cases hr with
    | grown newsz hn hsize => omega
    | refused hn => omega
    | shrunk newsz hn hpos hsize => omega
    | emptied hpos hn hE' =>
      have hfirst : 0 < pageCount p.sz := lt_pageCount.mpr (by omega)
      have hbefore : present (entryOf s.mem p.pgdir 0) = true := by rw [hE 0 (by decide), decide_eq_true hfirst]
      have hafter : E' 0 = 0 := by
        rw [hE']
        exact if_pos ⟨Nat.le_refl 0, hfirst, hbefore⟩
      have hsame := (hunmoved rfl).mappings 0 (by decide)
      rw [hs'.toOwn.mapping (by decide), hs.laden.toOwn.mapping (by decide), if_pos hbefore, hafter,
        if_neg (by decide)] at hsame
      exact absurd hsame.symm (Option.some_ne_none _)
    | ignored r hn hr =>
      rw [if_neg (by omega)] at hr
      subst hr
      have hsize := (hmoved (by simp)).size
      simp only [Option.getD_some] at hsize
      omega
  · intro hok
    refine ⟨_, _, s', hcall, fun hvalue => ?_, fun hvalue => ?_⟩
    · cases hr with
      | grown newsz hn hsize hnew hgrow hzero => exact hzero.moved hs.laden hs' hE hn hsize hnew hgrow
      | refused hn => exact absurd rfl hvalue
      | shrunk newsz hn hpos hsize hE' hM =>
        subst hE' hM
        exact clearRange_moved hs.laden hs' hE hsz hn hsize
      | emptied hpos hn => exact absurd rfl hvalue
      | ignored r hn hr =>
        rw [if_pos (by omega)] at hr
        rw [hr] at hvalue
        exact absurd rfl hvalue
    · cases hr with
      | grown newsz hn hsize =>
        simp at hvalue
      | refused hn halike hkept => exact halike.unmoved hs.laden hs' hkept
      | shrunk newsz hn hpos hsize =>
        simp at hvalue
      | emptied hpos hn => omega
      | ignored r hn hr hE' hM =>
        rw [if_pos (by omega)] at hr
        subst hE' hM hr
        exact Alike.unmoved hs.laden hs' (fun _ => .inl rfl) fun _ _ => rfl

end Sbrk

section Booted

open Spaces

variable {A : Frames L} {K : Multiset ℕ} {live : List Space} {x : Space}

theorem Sound.allocator (h : Sound A K live s) : Allocator L s := by
  have hnodup := A.nodup
  rw [← h.pages, Multiset.nodup_add, Multiset.nodup_add] at hnodup
  refine ⟨Multiset.coe_nodup.mp hnodup.1.1, fun p hp => A.fits p ?_⟩
  rw [← h.pages]
  exact Multiset.mem_add.mpr (.inl (Multiset.mem_add.mpr (.inl hp)))

theorem Sound.apart (h : Sound A K live s) (hx : x ∈ live) :
    ∀ p ∈ ownedBy s.mem x.pgdir, p ∉ s.freelist ∧ L.Fits p := by
  intro p hp
  have hin := mem_spacesOwned hx hp
  have hnodup := A.nodup
  rw [← h.pages, Multiset.nodup_add, Multiset.nodup_add] at hnodup
  refine ⟨Multiset.disjoint_right.mp hnodup.1.2.2 hin, A.fits p ?_⟩
  rw [← h.pages]
  exact Multiset.mem_add.mpr (.inl (Multiset.mem_add.mpr (.inr hin)))

variable {mem : ℕ → Bytes} {p : Process} {machine : Machine}

theorem Matches.maps (h : Matches mem x) :
    ∀ v < KERNBASE / PGSIZE, present (entryOf mem x.pgdir v) = decide (v * PGSIZE < x.sz) := by
  intro v hv
  rw [(matches_iff.mp h).2 v hv]
  simp only [lt_pageCount]

theorem card_ownedBy {n : ℕ} (h : Filled (entryOf mem d) n) (hn : n ≤ KERNBASE / PGSIZE) :
    (ownedBy mem d).card ≤ 1 + NPDENTRIES + n := by
  have htables := card_tablePages (tableOf mem d)
  rw [ownedBy, Multiset.card_add, Multiset.card_add, Multiset.card_singleton, card_userPages h hn]
  omega

theorem Settled.copy (hs : Settled A [p] machine) (hcalm : A.calm)
    (hroom : copyNeed (pageCount p.sz) (2 + NPDENTRIES + pageCount p.sz) < A.pages.card) :
    ∃ d machine', (copyuvm L p.pgdir p.sz).run machine = .ok (some d, machine') := by
  have hsound : Sound A ([p.kstack] : List ℕ) [p.space] machine := hs
  obtain ⟨hsz, hfill⟩ : p.sz < KERNBASE ∧ Filled (entryOf machine.mem p.pgdir) (pageCount p.sz) :=
    matches_iff.mp (hs.sizes p.space List.mem_cons_self)
  have hcount := pageCount_le (Nat.le_of_lt hsz)
  obtain ⟨hframed, _, hpresent⟩ := hsound.copyable (x := p.space) List.mem_cons_self
  obtain ⟨r, machine', hrun, hr⟩ := (copyuvm_laden hframed (Nat.le_of_lt hsz) hpresent).returns hsound.heap
  cases r with
  | some d => exact ⟨d, machine', hrun⟩
  | none =>
    have hscarce := hr.2 hcalm
    have hcard := card_ownedBy hfill hcount
    have hone : spacesOwned machine.mem [p.space] = ownedBy machine.mem p.pgdir := by
      simp [spacesOwned, Process.space]
    rw [copyNeed, hone, Multiset.card_add, Multiset.coe_card, List.length_singleton, Multiset.card_zero] at hscarce
    rw [copyNeed] at hroom
    omega

theorem copyuvm_isolates_bootMachine : ∃ p machine d machine',
    (userinit Conservation.smallKernel []).run bootMachine = .ok (p, machine) ∧ p.sz = PGSIZE ∧
    (copyuvm Conservation.smallKernel p.pgdir p.sz).run machine = .ok (some d, machine') ∧
    Isolated Conservation.smallKernel p.pgdir p.sz d machine machine' := by
  obtain ⟨p, machine, hrun, hsz, hs⟩ :=
    userinit_settled bootMachine_nodup bootMachine_fits rfl bootMachine_room
    (show ([] : List UInt8).length < PGSIZE by decide)
  have hone : pageCount p.sz = 1 := by
    rw [hsz]
    decide
  obtain ⟨d, machine', hcopy⟩ := Settled.copy hs trivial (by
    rw [framesOf, Multiset.coe_card, bootMachine, List.length_range', hone]
    decide)
  have hmatch : Matches machine.mem p.space := hs.sizes p.space List.mem_cons_self
  exact ⟨p, machine, d, machine', hrun, hsz, hcopy, copyuvm_isolates _ _ _ _ _ _ (Sound.allocator hs)
    (Sound.apart (x := p.space) hs List.mem_cons_self) (Nat.le_of_lt hmatch.1) hmatch.maps hcopy⟩

theorem Sound.intact {rest : List Space} (h : Sound A K (x :: rest) s) : Intact L s x.pgdir := by
  have hle : (s.freelist : Multiset ℕ) + ownedBy s.mem x.pgdir ≤ A.pages := by
    rw [← h.pages, spacesOwned_cons, ← add_assoc, add_assoc _ _ K]
    exact Multiset.le_add_right _ _
  exact ⟨Multiset.nodup_of_le hle A.nodup, fun q hq => A.fits q (Multiset.mem_of_le hle hq)⟩

theorem booted_intact (hs : Settled A [p] machine) :
    Intact L machine p.pgdir ∧ Matches machine.mem p.space :=
  ⟨Sound.intact (x := p.space) hs, hs.sizes p.space List.mem_cons_self⟩

theorem sbrk_exact_iff_bootMachine : ∃ p machine,
    (userinit Conservation.smallKernel []).run bootMachine = .ok (p, machine) ∧
    SbrkExact Conservation.smallKernel p (-100) machine := by
  obtain ⟨p, machine, hrun, hsz, hs⟩ :=
    userinit_settled bootMachine_nodup bootMachine_fits rfl bootMachine_room
    (show ([] : List UInt8).length < PGSIZE by decide)
  obtain ⟨hintact, hmatch⟩ := booted_intact hs
  refine ⟨p, machine, hrun, ?_⟩
  refine (sbrk_exact_iff _ p (-100) machine hintact hmatch.1 hmatch.maps (by decide)
    (by decide)).mpr (.inr (.inl ?_))
  rw [hsz]
  decide

theorem sbrk_loses_pages : ∃ p machine machine' machine'',
    (userinit Conservation.smallKernel []).run bootMachine = .ok (p, machine) ∧ p.sz = PGSIZE ∧
    (sysSbrk Conservation.smallKernel p (-4096)).run machine = .ok ((-1, p), machine') ∧
    mapping machine.mem p.pgdir 0 ≠ none ∧ mapping machine'.mem p.pgdir 0 = none ∧
    (sysSbrk Conservation.smallKernel p (-4097)).run machine = .ok ((4096, p), machine'') := by
  obtain ⟨p, machine, hrun, hsz, hs⟩ :=
    userinit_settled bootMachine_nodup bootMachine_fits rfl bootMachine_room
    (show ([] : List UInt8).length < PGSIZE by decide)
  obtain ⟨hintact, hmatch⟩ := booted_intact hs
  have hE : Filled (entryOf machine.mem p.pgdir) (pageCount p.sz) := (matches_iff.mp hmatch).2
  have hsize : p.sz = 4096 := hsz
  have hpresent : present (entryOf machine.mem p.pgdir 0) = true := by
    rw [hE 0 (by decide), hsize]
    decide
  obtain ⟨r, machine', hgrow, E', M', hs', hr⟩ :=
    (growproc_laden (n := -4096) hmatch.1 (by decide) (by decide) hE).returns hintact.laden
  obtain ⟨r', machine'', hgrow', E'', M'', hs'', hr'⟩ :=
    (growproc_laden (n := -4097) hmatch.1 (by decide) (by decide) hE).returns hintact.laden
  have hr1 : r = none ∧ E' 0 = 0 := by
    cases hr with
    | grown newsz hn hsize => omega
    | refused hn => omega
    | shrunk newsz hn hpos hsize => omega
    | emptied hpos hn hE' =>
      refine ⟨rfl, ?_⟩
      rw [hE']
      exact if_pos ⟨Nat.le_refl 0, lt_pageCount.mpr (by omega), hpresent⟩
    | ignored r hn => omega
  have hr2 : r' = some p := by
    cases hr' with
    | grown newsz hn hsize => omega
    | refused hn => omega
    | shrunk newsz hn hpos hsize => omega
    | emptied hpos hn hE' => omega
    | ignored r hn hr =>
      rw [if_neg (by omega)] at hr
      exact hr
  obtain ⟨rfl, hzero⟩ := hr1
  subst hr2
  have hcall := sysSbrk_run hgrow'
  rw [if_neg (Option.some_ne_none p), Option.getD_some, hsize] at hcall
  refine ⟨p, machine, machine', machine'', hrun, hsz, sysSbrk_run hgrow, ?_, ?_, hcall⟩
  · rw [mapping, if_pos hpresent]
    exact Option.some_ne_none _
  · rw [hs'.toOwn.mapping (by decide), hzero, if_neg (by decide)]

end Booted

end Xv6.Vm
