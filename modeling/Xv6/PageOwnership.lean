import Mathlib.Algebra.Order.BigOperators.Group.Finset
import Xv6.PageTables

namespace Xv6.Vm

open Xv6.Memory (PGSIZE KERNBASE)
open Xv6.Words Function

def tableOf (mem : ℕ → Bytes) (d i : ℕ) : Option ℕ :=
  if present (get32 (mem d) (4 * i)) then some (PTE_ADDR (get32 (mem d) (4 * i)) / PGSIZE) else none

def entryOf (mem : ℕ → Bytes) (d v : ℕ) : ℕ :=
  match tableOf mem d (v / 1024) with
  | none => 0
  | some t => get32 (mem t) (4 * (v % 1024))

def pageOf (entry : ℕ) : Multiset ℕ := if present entry then {PTE_ADDR entry / PGSIZE} else 0

@[irreducible]
def sumBelow (n : ℕ) (f : ℕ → Multiset ℕ) : Multiset ℕ := ∑ i ∈ Finset.range n, f i

section Sums

variable {n i j p : ℕ} {f g : ℕ → Multiset ℕ}

theorem mem_sumBelow (hi : i < n) (hp : p ∈ f i) : p ∈ sumBelow n f := by
  rw [sumBelow, Multiset.mem_sum]
  exact ⟨i, Finset.mem_range.mpr hi, hp⟩

theorem sumBelow_congr (h : ∀ i < n, f i = g i) : sumBelow n f = sumBelow n g := by
  rw [sumBelow, sumBelow]
  exact Finset.sum_congr rfl fun i hi => h i (Finset.mem_range.mp hi)

theorem sumBelow_zero (h : ∀ i < n, f i = 0) : sumBelow n f = 0 := by
  rw [sumBelow]
  exact Finset.sum_eq_zero fun i hi => h i (Finset.mem_range.mp hi)

theorem sumBelow_list (n : ℕ) (f : ℕ → Multiset ℕ) : sumBelow n f = ((List.range n).map f).sum := by
  rw [sumBelow, Finset.sum, Finset.range_val, Multiset.range, Multiset.map_coe, Multiset.sum_coe]

theorem card_sumBelow (h : ∀ i < n, (f i).card ≤ 1) : (sumBelow n f).card ≤ n := by
  rw [sumBelow, Multiset.card_sum]
  have hle := Finset.sum_le_card_nsmul (Finset.range n) (fun i => (f i).card) 1
    fun i hi => h i (Finset.mem_range.mp hi)
  simpa using hle

theorem sumBelow_change {x y : Multiset ℕ} (hi : i < n) (hx : g i + x = f i + y)
    (hother : ∀ j, j ≠ i → g j = f j) : sumBelow n g + x = sumBelow n f + y := by
  rw [sumBelow, sumBelow]
  have hmem : i ∈ Finset.range n := Finset.mem_range.mpr hi
  have hrest : ∑ j ∈ (Finset.range n).erase i, g j = ∑ j ∈ (Finset.range n).erase i, f j :=
    Finset.sum_congr rfl fun j hj => hother j (Finset.ne_of_mem_erase hj)
  rw [← Finset.sum_erase_add _ g hmem, ← Finset.sum_erase_add _ f hmem, hrest, add_assoc, hx, add_assoc]

theorem two_le_count_sumBelow (hi : i < n) (hj : j < n) (hne : i ≠ j) (hpi : p ∈ f i) (hpj : p ∈ f j) :
    2 ≤ Multiset.count p (sumBelow n f) := by
  have hj' : j ∈ (Finset.range n).erase i := Finset.mem_erase.mpr ⟨hne.symm, Finset.mem_range.mpr hj⟩
  have h1 : 1 ≤ Multiset.count p (f i) := Multiset.one_le_count_iff_mem.mpr hpi
  have h2 : 1 ≤ Multiset.count p (∑ x ∈ (Finset.range n).erase i, f x) :=
    Multiset.one_le_count_iff_mem.mpr (Multiset.mem_sum.mpr ⟨j, hj', hpj⟩)
  rw [sumBelow, ← Finset.add_sum_erase _ f (Finset.mem_range.mpr hi), Multiset.count_add]
  omega

end Sums

def tablePages (T : ℕ → Option ℕ) : Multiset ℕ := sumBelow NPDENTRIES fun i => (T i).elim 0 fun t => {t}

def userPages (E : ℕ → ℕ) : Multiset ℕ := sumBelow (KERNBASE / PGSIZE) fun v => pageOf (E v)

def ownedBy (mem : ℕ → Bytes) (d : ℕ) : Multiset ℕ :=
  {d} + tablePages (tableOf mem d) + userPages (entryOf mem d)

structure Frames (L : Layout) where
  pages : Multiset ℕ
  calm : Prop
  nodup : pages.Nodup
  fits : ∀ p ∈ pages, L.kernelEnd ≤ p * PGSIZE + KERNBASE ∧ p * PGSIZE < PHYSTOP

variable {L : Layout} {A : Frames L} {p perm x : ℕ}

theorem Frames.pos (hp : p ∈ A.pages) : 0 < p := by
  have hfit := (A.fits p hp).1
  have hbss := L.bss
  have htext := L.text
  simp only [KERNLINK, KERNBASE, EXTMEM, PGSIZE] at *
  omega

theorem Frames.lt (hp : p ∈ A.pages) : p < 2 ^ 20 := by
  have hfit := (A.fits p hp).2
  simp only [PHYSTOP, PGSIZE] at *
  omega

structure Heap (A : Frames L) (H R : Multiset ℕ) (m₀ : ℕ → Bytes) (s : Machine) : Prop where
  pages : (s.freelist : Multiset ℕ) + H + R = A.pages
  frame : ∀ p ∈ R, s.mem p = m₀ p
  calm : A.calm → s.fails = []

structure Own (A : Frames L) (H R : Multiset ℕ) (m₀ : ℕ → Bytes) (d : ℕ) (E : ℕ → ℕ) (s : Machine) : Prop where
  entries : ∀ v < 2 ^ 20, entryOf s.mem d v = E v
  pages : (s.freelist : Multiset ℕ) + ({d} + tablePages (tableOf s.mem d) + userPages E) + H + R = A.pages
  frame : ∀ p ∈ R, s.mem p = m₀ p
  calm : A.calm → s.fails = []

theorem present_eq (entry : ℕ) : present entry = decide (entry % 2 = 1) := by
  rw [present, PTE_P, Nat.and_one_is_mod]
  congr 1
  simp

theorem or_lt_page {y : ℕ} (hx : x < PGSIZE) (hy : y < PGSIZE) : x ||| y < PGSIZE :=
  Nat.or_lt_two_pow (n := 12) hx hy

theorem page_or (q : ℕ) (hx : x < PGSIZE) : q * PGSIZE ||| x = q * PGSIZE + x := by
  rw [Nat.mul_comm]
  exact (Nat.two_pow_add_eq_or_of_lt (i := 12) hx q).symm

theorem entry_eq (q : ℕ) (hperm : perm < PGSIZE) :
    q * PGSIZE ||| perm ||| PTE_P = q * PGSIZE + (perm ||| PTE_P) ∧ perm ||| PTE_P < PGSIZE := by
  have hlt : perm ||| PTE_P < PGSIZE := or_lt_page hperm (by decide)
  exact ⟨by rw [Nat.or_assoc, page_or q hlt], hlt⟩

theorem present_entry (q : ℕ) (hperm : perm < PGSIZE) : present (q * PGSIZE ||| perm ||| PTE_P) = true := by
  obtain ⟨heq, _⟩ := entry_eq q hperm
  have hodd : (perm ||| PTE_P) % 2 = 1 := by
    rw [PTE_P, Nat.or_mod_two_eq_one]
    exact .inr rfl
  rw [heq, present_eq, decide_eq_true_eq]
  simp only [PGSIZE]
  omega

theorem entry_page (q : ℕ) (hperm : perm < PGSIZE) :
    PTE_ADDR (q * PGSIZE ||| perm ||| PTE_P) / PGSIZE = q := by
  obtain ⟨heq, hlt⟩ := entry_eq q hperm
  rw [heq, PTE_ADDR]
  simp only [PGSIZE] at hlt ⊢
  omega

theorem entry_lt {q : ℕ} (hq : q < 2 ^ 20) (hperm : perm < PGSIZE) : q * PGSIZE ||| perm ||| PTE_P < 2 ^ 32 := by
  obtain ⟨heq, hlt⟩ := entry_eq q hperm
  rw [heq]
  simp only [PGSIZE] at hlt ⊢
  omega

theorem entry_flags (q : ℕ) (hperm : perm < PGSIZE) :
    PTE_FLAGS (q * PGSIZE ||| perm ||| PTE_P) = perm ||| PTE_P := by
  obtain ⟨heq, hlt⟩ := entry_eq q hperm
  rw [heq, PTE_FLAGS]
  simp only [PGSIZE] at hlt ⊢
  omega

theorem pde_eq (q : ℕ) : q * PGSIZE ||| PTE_P ||| PTE_W ||| PTE_U = q * PGSIZE |||
    (PTE_W ||| PTE_U) ||| PTE_P := by
  rw [Nat.or_assoc, Nat.or_assoc, Nat.or_assoc]
  rfl

section Views

variable {mem mem' : ℕ → Bytes} {d t i v : ℕ} {p w x : ℕ}

theorem tableOf_congr (h : mem' d = mem d) (i : ℕ) : tableOf mem' d i = tableOf mem d i := by
  rw [tableOf, tableOf, h]

theorem entryOf_none (h : tableOf mem d (v / 1024) = none) : entryOf mem d v = 0 := by rw [entryOf, h]

theorem entryOf_some (h : tableOf mem d (v / 1024) = some t) :
    entryOf mem d v = get32 (mem t) (4 * (v % 1024)) := by
  rw [entryOf, h]

theorem entryOf_congr (hd : mem' d = mem d) (ht : ∀ t, tableOf mem d (v / 1024) = some t → mem' t = mem t) :
    entryOf mem' d v = entryOf mem d v := by
  rw [entryOf, entryOf, tableOf_congr hd]
  cases h : tableOf mem d (v / 1024) with
  | none => rfl
  | some t => simp only [ht t h]

theorem entryOf_store (hw : w < 2 ^ 32) (hv : v < 2 ^ 20) (ht : tableOf mem d (v / 1024) = some t) (hd : t ≠ d)
    (hinj : ∀ j < NPDENTRIES, tableOf mem d j = some t → j = v / 1024) (hx : x < 2 ^ 20) :
    entryOf (update mem t (set32 (mem t) (4 * (v % 1024)) w)) d x =
      update (entryOf mem d) v w x := by
  have hdir : update mem t (set32 (mem t) (4 * (v % 1024)) w) d = mem d := update_of_ne hd.symm _ _
  have htab := tableOf_congr hdir (x / 1024)
  by_cases hxv : x = v
  · subst hxv
    rw [update_self, entryOf_some (htab.trans ht), update_self, get32_set32 _ _ hw]
  · rw [update_of_ne hxv]
    cases hxt : tableOf mem d (x / 1024) with
    | none => rw [entryOf_none (htab.trans hxt), entryOf_none hxt]
    | some u =>
      rw [entryOf_some (htab.trans hxt), entryOf_some hxt]
      by_cases hut : u = t
      · subst hut
        have hslot : x / 1024 = v / 1024 := hinj _ (by simp only [NPDENTRIES]; omega) hxt
        rw [update_self, get32_set32_other _ _ (by omega)]
      · rw [update_of_ne hut]

def installed (mem : ℕ → Bytes) (d i p : ℕ) : ℕ → Bytes :=
  Function.update (Function.update mem p fun _ => 0) d
    (set32 (mem d) (4 * i) (p * PGSIZE ||| PTE_P ||| PTE_W ||| PTE_U))

theorem tableOf_installed (mem : ℕ → Bytes) (d i j : ℕ) (hp : p < 2 ^ 20) :
    tableOf (installed mem d i p) d j = update (tableOf mem d) i (some p) j := by
  have hflags : PTE_W ||| PTE_U < PGSIZE := by decide
  have hw := entry_lt hp hflags
  rw [installed, pde_eq, tableOf, update_self]
  by_cases hji : j = i
  · subst hji
    rw [update_self, get32_set32 _ _ hw, if_pos (present_entry p hflags), entry_page p hflags]
  · rw [update_of_ne hji, get32_set32_other _ _ (by omega), tableOf]

theorem entryOf_installed (hp : p < 2 ^ 20) (hpd : p ≠ d) (hi : tableOf mem d i = none)
    (hfresh : ∀ j < NPDENTRIES, tableOf mem d j ≠ some p) (hd : ∀ j < NPDENTRIES, tableOf mem d j ≠ some d)
    (hx : x < 2 ^ 20) :
    entryOf (installed mem d i p) d x = entryOf mem d x := by
  have htab := tableOf_installed mem d i (x / 1024) hp
  have hslot : x / 1024 < NPDENTRIES := by
    simp only [NPDENTRIES]
    omega
  by_cases hxi : x / 1024 = i
  · rw [hxi, update_self] at htab
    rw [entryOf_some (by rw [hxi]; exact htab), entryOf_none (by rw [hxi]; exact hi), installed,
      update_of_ne hpd, update_self, get32_zero]
  · rw [update_of_ne hxi] at htab
    cases hxt : tableOf mem d (x / 1024) with
    | none => rw [entryOf_none (htab.trans hxt), entryOf_none hxt]
    | some u =>
      have hup : u ≠ p := fun h => hfresh _ hslot (h ▸ hxt)
      have hud : u ≠ d := fun h => hd _ hslot (h ▸ hxt)
      rw [entryOf_some (htab.trans hxt), entryOf_some hxt, installed, update_of_ne hud,
        update_of_ne hup]

theorem tablePages_install {T : ℕ → Option ℕ} (hi : i < NPDENTRIES) (hT : T i = none) :
    tablePages (update T i (some p)) = tablePages T + {p} := by
  have h : tablePages (update T i (some p)) + 0 = tablePages T + {p} :=
    sumBelow_change hi (by simp [hT]) (fun j hj => by rw [update_of_ne hj])
  rwa [add_zero] at h

def userPage (v w : ℕ) : Multiset ℕ := if v < KERNBASE / PGSIZE then pageOf w else 0

theorem userPages_update (E : ℕ → ℕ) (v w : ℕ) :
    userPages (update E v w) + userPage v (E v) = userPages E + userPage v w := by
  unfold userPage
  by_cases hv : v < KERNBASE / PGSIZE
  · rw [if_pos hv, if_pos hv]
    exact sumBelow_change hv (by rw [update_self, add_comm]) (fun j hj => by rw [update_of_ne hj])
  · rw [if_neg hv, if_neg hv, add_zero, add_zero]
    refine sumBelow_congr fun j hj => ?_
    have hjv : j ≠ v := fun h => hv (h ▸ hj)
    rw [update_of_ne hjv]

theorem userPages_swap (E : ℕ → ℕ) {H K : Multiset ℕ} (hH : userPage v (E v) + H = userPage v w + K) :
    userPages (update E v w) + K = userPages E + H := by
  have hup := userPages_update E v w
  apply add_right_cancel (b := userPage v (E v))
  rw [add_right_comm, hup, add_assoc, add_assoc, ← hH]
  rw [add_comm H]

theorem userPages_congr {E E' : ℕ → ℕ} (h : ∀ v < 2 ^ 20, E' v = E v) : userPages E' = userPages E := by
  refine sumBelow_congr fun v hv => ?_
  have hlt : v < 2 ^ 20 := by
    simp only [KERNBASE, PGSIZE] at hv
    omega
  rw [h v hlt]

end Views

section Owning

variable {H R : Multiset ℕ} {m₀ : ℕ → Bytes} {d : ℕ} {E : ℕ → ℕ} {s : Machine} {i p t v : ℕ}

theorem Own.count (h : Own A H R m₀ d E s) (p : ℕ) :
    s.freelist.count p + (Multiset.count p {d} + Multiset.count p (tablePages (tableOf s.mem d)) +
      Multiset.count p (userPages E)) + Multiset.count p H + Multiset.count p R ≤ 1 := by
  have hle := Multiset.nodup_iff_count_le_one.mp A.nodup p
  rw [← h.pages] at hle
  simpa only [Multiset.count_add, Multiset.coe_count] using hle

theorem mem_tablePages {T : ℕ → Option ℕ} (hi : i < NPDENTRIES) (ht : T i = some t) : t ∈ tablePages T :=
  mem_sumBelow hi (by simp [ht])

theorem mem_userPages (hv : v < KERNBASE / PGSIZE) (hp : present (E v) = true) :
    PTE_ADDR (E v) / PGSIZE ∈ userPages E :=
  mem_sumBelow hv (by simp [pageOf, hp])

theorem userPages_mem : p ∈ userPages E ↔
    ∃ v < KERNBASE / PGSIZE, present (E v) = true ∧ PTE_ADDR (E v) / PGSIZE = p := by
  rw [userPages, sumBelow, Multiset.mem_sum]
  constructor
  · rintro ⟨v, hv, hp⟩
    rw [pageOf] at hp
    split_ifs at hp with hpresent
    · exact ⟨v, Finset.mem_range.mp hv, hpresent, (Multiset.mem_singleton.mp hp).symm⟩
    · simp at hp
  · rintro ⟨v, hv, hpresent, rfl⟩
    exact ⟨v, Finset.mem_range.mpr hv, by simp [pageOf, hpresent]⟩

theorem count_self (p : ℕ) : Multiset.count p {p} = 1 := Multiset.count_singleton_self p

theorem Own.table_ne (h : Own A H R m₀ d E s) (hi : i < NPDENTRIES) (ht : tableOf s.mem d i = some t) :
    t ≠ d := by
  rintro rfl
  have hcount := h.count t
  have htab := Multiset.one_le_count_iff_mem.mpr (mem_tablePages hi ht)
  rw [count_self] at hcount
  omega

theorem Own.table_inj (h : Own A H R m₀ d E s) {j : ℕ} (hi : i < NPDENTRIES) (hj : j < NPDENTRIES)
    (hti : tableOf s.mem d i = some t) (htj : tableOf s.mem d j = some t) : i = j := by
  by_contra hne
  have htwo : 2 ≤ Multiset.count t (tablePages (tableOf s.mem d)) :=
    two_le_count_sumBelow hi hj hne (by simp [hti]) (by simp [htj])
  have hcount := h.count t
  omega

theorem Own.aside (h : Own A H R m₀ d E s)
    (hp : 1 ≤ s.freelist.count p + Multiset.count p (userPages E) + Multiset.count p H + Multiset.count p R) :
    p ≠ d ∧ ∀ i < NPDENTRIES, tableOf s.mem d i ≠ some p := by
  have hcount := h.count p
  constructor
  · rintro rfl
    rw [count_self] at hcount
    omega
  · intro i hi ht
    have htab := Multiset.one_le_count_iff_mem.mpr (mem_tablePages hi ht)
    omega

theorem Own.dir_used (h : Own A H R m₀ d E s) : d ∉ s.freelist := by
  intro hd
  have hfree := List.count_pos_iff.mpr hd
  exact (h.aside (by omega)).1 rfl

theorem Own.mem_frames (h : Own A H R m₀ d E s) (hp : p ∈ H) : p ∈ A.pages := by
  rw [← h.pages]
  simp only [Multiset.mem_add]
  exact .inl (.inr hp)

theorem Own.user_mem_frames (h : Own A H R m₀ d E s) (hv : v < KERNBASE / PGSIZE) (hp : present (E v) = true) :
    PTE_ADDR (E v) / PGSIZE ∈ A.pages := by
  have huser := mem_userPages hv hp
  rw [← h.pages]
  simp only [Multiset.mem_add]
  exact .inl (.inl (.inr (.inr huser)))

theorem Own.congr {E' : ℕ → ℕ} (h : Own A H R m₀ d E s) (hE : ∀ v < 2 ^ 20, E' v = E v) : Own A H R m₀ d E' s :=
  ⟨fun v hv => (h.entries v hv).trans (hE v hv).symm, by rw [userPages_congr hE]; exact h.pages, h.frame, h.calm⟩

theorem Own.absent (h : Own A H R m₀ d E s) (hv : v < 2 ^ 20) (ht : tableOf s.mem d (v / 1024) = none) :
    E v = 0 := by
  rw [← h.entries v hv, entryOf_none ht]

theorem Own.take {rest : List ℕ} (h : Own A H R m₀ d E s) (hs : s.freelist = p :: rest) :
    Own A (p ::ₘ H) R m₀ d E { s with freelist := rest, fails := s.fails.tail } := by
  refine ⟨h.entries, ?_, h.frame, fun hc => by simp [h.calm hc]⟩
  have hpages := h.pages
  rw [hs, ← Multiset.cons_coe, Multiset.cons_add, Multiset.cons_add, Multiset.cons_add] at hpages
  rw [← hpages, Multiset.add_cons, Multiset.cons_add]

theorem Own.touch (h : Own A H R m₀ d E s)
    (hp : 1 ≤ Multiset.count p (userPages E) + Multiset.count p H) (bytes : Bytes) :
    Own A H R m₀ d E { s with mem := update s.mem p bytes } := by
  obtain ⟨hpd, htab⟩ := h.aside (p := p) (by omega)
  have hdir : update s.mem p bytes d = s.mem d := update_of_ne (Ne.symm hpd) _ _
  refine ⟨fun v hv => ?_, ?_, fun q hq => ?_, h.calm⟩
  · rw [← h.entries v hv]
    refine entryOf_congr hdir fun t ht => update_of_ne ?_ _ _
    rintro rfl
    exact htab _ (by simp only [NPDENTRIES]; omega) ht
  · simp only [funext (tableOf_congr hdir)]
    exact h.pages
  · rw [← h.frame q hq]
    refine update_of_ne ?_ _ _
    rintro rfl
    have hR := Multiset.one_le_count_iff_mem.mpr hq
    have hcount := h.count q
    omega

theorem Own.write (h : Own A H R m₀ d E s) (hp : p ∈ H) (bytes : Bytes) :
    Own A H R m₀ d E { s with mem := update s.mem p bytes } := by
  have hH := Multiset.one_le_count_iff_mem.mpr hp
  exact h.touch (by omega) bytes

theorem Own.give (h : Own A (p ::ₘ H) R m₀ d E s) (bytes : Bytes) :
    Own A H R m₀ d E { s with mem := update s.mem p bytes, freelist := p :: s.freelist } := by
  have hw := h.write (Multiset.mem_cons_self p H) bytes
  refine ⟨hw.entries, ?_, hw.frame, hw.calm⟩
  rw [← hw.pages, ← Multiset.cons_coe, Multiset.cons_add, Multiset.cons_add, Multiset.cons_add, Multiset.add_cons,
    Multiset.cons_add]

theorem Own.install (h : Own A (p ::ₘ H) R m₀ d E s) (hi : i < NPDENTRIES)
    (ht : tableOf s.mem d i = none) : Own A H R m₀ d E { s with mem := installed s.mem d i p } := by
  have hp : p < 2 ^ 20 := Frames.lt (h.mem_frames (Multiset.mem_cons_self p H))
  have hin : 1 ≤ Multiset.count p (p ::ₘ H) := Multiset.one_le_count_iff_mem.mpr (Multiset.mem_cons_self p H)
  obtain ⟨hpd, htab⟩ := h.aside (p := p) (by omega)
  have hT := fun j => tableOf_installed s.mem d i j hp
  refine ⟨fun v hv => ?_, ?_, fun q hq => ?_, h.calm⟩
  · rw [← h.entries v hv]
    exact entryOf_installed hp hpd ht htab (fun j hj hd => h.table_ne hj hd rfl) hv
  · simp only [funext hT, tablePages_install hi ht]
    rw [← h.pages, ← Multiset.singleton_add]
    simp only [add_assoc, add_comm, add_left_comm]
  · rw [← h.frame q hq]
    have hR := Multiset.one_le_count_iff_mem.mpr hq
    have hcount := h.count q
    have hqd : q ≠ d := by
      rintro rfl
      rw [count_self] at hcount
      omega
    have hqp : q ≠ p := by
      rintro rfl
      omega
    simp only [installed, update_of_ne hqd, update_of_ne hqp]

theorem Own.store {K : Multiset ℕ} {w : ℕ} (h : Own A H R m₀ d E s) (hv : v < 2 ^ 20) (hw : w < 2 ^ 32)
    (ht : tableOf s.mem d (v / 1024) = some t) (hH : userPage v (E v) + H = userPage v w + K) :
    Own A K R m₀ d (update E v w)
      { s with mem := update s.mem t (set32 (s.mem t) (4 * (v % 1024)) w) } := by
  have hslot : v / 1024 < NPDENTRIES := by
    simp only [NPDENTRIES]
    omega
  have htd := h.table_ne hslot ht
  have hdir : update s.mem t (set32 (s.mem t) (4 * (v % 1024)) w) d = s.mem d :=
    update_of_ne (Ne.symm htd) _ _
  refine ⟨fun x hx => ?_, ?_, fun q hq => ?_, h.calm⟩
  · rw [entryOf_store hw hv ht htd (fun j hj hjt => h.table_inj hj hslot hjt ht) hx]
    by_cases hxv : x = v
    · rw [hxv, update_self, update_self]
    · rw [update_of_ne hxv, update_of_ne hxv, h.entries x hx]
  · simp only [funext (tableOf_congr hdir)]
    rw [← h.pages]
    rw [add_assoc _ _ K, add_assoc _ _ K, userPages_swap E hH]
    simp only [add_assoc]
  · rw [← h.frame q hq]
    refine update_of_ne ?_ _ _
    rintro rfl
    have hR := Multiset.one_le_count_iff_mem.mpr hq
    have htab := Multiset.one_le_count_iff_mem.mpr (mem_tablePages hslot ht)
    have hcount := h.count q
    omega

structure Laden (A : Frames L) (H R : Multiset ℕ) (m₀ : ℕ → Bytes) (d : ℕ) (E : ℕ → ℕ)
    (M : ℕ → Bytes) (s : Machine) : Prop extends Own A H R m₀ d E s where
  contents : ∀ p ∈ userPages E + H, s.mem p = M p

variable {M : ℕ → Bytes} {K : Multiset ℕ} {E' : ℕ → ℕ} {p : ℕ} {bytes : Bytes}

theorem Own.laden (h : Own A H R m₀ d E s) : Laden A H R m₀ d E s.mem s := ⟨h, fun _ _ => rfl⟩

theorem Laden.keeps {s' : Machine} (h : Laden A H R m₀ d E M s)
    (h' : Own A K R m₀ d E' s') (hin : userPages E' + K ≤ userPages E + H)
    (hsame : ∀ p ∈ userPages E' + K, s'.mem p = s.mem p) : Laden A K R m₀ d E' M s' :=
  ⟨h', fun p hp => (hsame p hp).trans (h.contents p (Multiset.mem_of_le hin hp))⟩

theorem Laden.congr (h : Laden A H R m₀ d E M s) (hE : ∀ v < 2 ^ 20, E' v = E v) :
    Laden A H R m₀ d E' M s :=
  h.keeps (h.toOwn.congr hE) (by rw [userPages_congr hE]) fun _ _ => rfl

theorem Laden.tail (h : Laden A H R m₀ d E M s) : Laden A H R m₀ d E M { s with fails := s.fails.tail } :=
  ⟨⟨h.entries, h.pages, h.frame, fun hc => by simp [h.calm hc]⟩, h.contents⟩

theorem mem_used (hp : p ∈ userPages E + H) : 1 ≤ Multiset.count p (userPages E) + Multiset.count p H := by
  rw [← Multiset.count_add]
  exact Multiset.one_le_count_iff_mem.mpr hp

theorem Own.fresh (h : Own A (p ::ₘ H) R m₀ d E s) : p ∉ userPages E + H := by
  intro hp
  have hused := mem_used hp
  have hcount := h.count p
  rw [Multiset.count_cons_self] at hcount
  omega

theorem Laden.forget (h : Laden A H R m₀ d E (update M p bytes) s)
    (hp : p ∉ userPages E + H) : Laden A H R m₀ d E M s :=
  ⟨h.toOwn, fun q hq => (h.contents q hq).trans (update_of_ne (ne_of_mem_of_not_mem hq hp) _ _)⟩

theorem Laden.take {rest : List ℕ} (h : Laden A H R m₀ d E M s) (hs : s.freelist = p :: rest) :
    Laden A (p ::ₘ H) R m₀ d E (update M p (s.mem p)) { s with freelist := rest, fails := s.fails.tail } := by
  refine ⟨h.toOwn.take hs, fun q hq => ?_⟩
  by_cases hqp : q = p
  · rw [hqp, update_self]
  · rw [update_of_ne hqp]
    rw [Multiset.add_cons, Multiset.mem_cons] at hq
    exact h.contents q (hq.resolve_left hqp)

theorem Laden.touch (h : Laden A H R m₀ d E M s) (hp : p ∈ userPages E + H) (bytes : Bytes) :
    Laden A H R m₀ d E (update M p bytes) { s with mem := update s.mem p bytes } := by
  refine ⟨h.toOwn.touch (mem_used hp) bytes, fun q hq => ?_⟩
  by_cases hqp : q = p
  · simp only [hqp, update_self]
  · simp only [update_of_ne hqp]
    exact h.contents q hq

theorem Laden.refill (h : Laden A (p ::ₘ H) R m₀ d E (update M p bytes) s) (bytes' : Bytes) :
    Laden A (p ::ₘ H) R m₀ d E (update M p bytes') { s with mem := update s.mem p bytes' } := by
  have htouched := h.touch (Multiset.mem_add.mpr (.inr (Multiset.mem_cons_self p H))) bytes'
  rwa [update_idem] at htouched

theorem Laden.give (h : Laden A (p ::ₘ H) R m₀ d E M s) (bytes : Bytes) :
    Laden A H R m₀ d E M { s with mem := update s.mem p bytes, freelist := p :: s.freelist } := by
  refine h.keeps (h.toOwn.give bytes) (by rw [Multiset.add_cons]; exact Multiset.le_cons_self _ _) fun q hq => ?_
  exact update_of_ne (ne_of_mem_of_not_mem hq h.toOwn.fresh) _ _

theorem Laden.install {i : ℕ} (h : Laden A (p ::ₘ H) R m₀ d E M s) (hi : i < NPDENTRIES)
    (ht : tableOf s.mem d i = none) : Laden A H R m₀ d E M { s with mem := installed s.mem d i p } := by
  refine h.keeps (h.toOwn.install hi ht) (by rw [Multiset.add_cons]; exact Multiset.le_cons_self _ _)
    fun q hq => ?_
  have hused := mem_used hq
  have hcount := h.toOwn.count q
  have hqd : q ≠ d := by
    rintro rfl
    rw [count_self] at hcount
    have hle := Multiset.count_le_count_cons q p H
    omega
  have hqp : q ≠ p := ne_of_mem_of_not_mem hq h.toOwn.fresh
  simp only [installed, update_of_ne hqd, update_of_ne hqp]

theorem Laden.store {v t w : ℕ} (h : Laden A H R m₀ d E M s) (hv : v < 2 ^ 20) (hw : w < 2 ^ 32)
    (ht : tableOf s.mem d (v / 1024) = some t) (hH : userPage v (E v) + H = userPage v w + K) :
    Laden A K R m₀ d (update E v w) M
      { s with mem := update s.mem t (set32 (s.mem t) (4 * (v % 1024)) w) } := by
  have hsum := userPages_swap E hH
  refine h.keeps (h.toOwn.store hv hw ht hH) (by rw [hsum]) fun q hq => ?_
  refine update_of_ne ?_ _ _
  rintro rfl
  rw [hsum] at hq
  have hused := mem_used hq
  have hslot : v / 1024 < NPDENTRIES := by
    simp only [NPDENTRIES]
    omega
  exact (h.toOwn.aside (p := q) (by omega)).2 _ hslot ht

def Scarce (A : Frames L) (n : ℕ) : Prop := A.calm → A.pages.card ≤ n

theorem card_tablePages (T : ℕ → Option ℕ) : (tablePages T).card ≤ NPDENTRIES :=
  card_sumBelow fun i _ => by cases T i <;> simp

theorem Own.scarce (h : Own A H R m₀ d E s) (hs : s.freelist = [] ∨ s.fails ≠ []) :
    Scarce A (1 + NPDENTRIES + (userPages E).card + H.card + R.card) := by
  intro hc
  have hnil : s.freelist = [] := hs.resolve_right (not_not.mpr (h.calm hc))
  have htables := card_tablePages (tableOf s.mem d)
  rw [← h.pages, hnil]
  simp only [Multiset.coe_nil, zero_add, Multiset.card_add, Multiset.card_singleton]
  omega

end Owning

end Xv6.Vm
