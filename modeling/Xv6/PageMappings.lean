import Xv6.CopyOut

namespace Xv6.Vm

open Xv6.Memory (PGSIZE KERNBASE)
open Xv6.Triples Xv6.Words Function

def translation (mem : ℕ → Bytes) (d va : ℕ) : Option (ℕ × ℕ) :=
  let pte := entryOf mem d (va / PGSIZE)
  if present pte then some (PTE_ADDR pte, PTE_FLAGS pte) else none

structure Directory (d : ℕ) (s : Machine) : Prop where
  free : s.freelist.Nodup
  small : ∀ p ∈ s.freelist, p < 2 ^ 20
  used : d ∉ s.freelist
  table : ∀ i < NPDENTRIES, ∀ t, tableOf s.mem d i = some t → t ≠ d ∧ t ∉ s.freelist
  apart : ∀ i < NPDENTRIES, ∀ j < NPDENTRIES, ∀ t, tableOf s.mem d i = some t → tableOf s.mem d j = some t → i = j

structure Entries (d : ℕ) (E : ℕ → ℕ) (s : Machine) : Prop extends Directory d s where
  entries : ∀ v < 2 ^ 20, entryOf s.mem d v = E v

def pteOf (pa perm i : ℕ) : ℕ := (pa + i * PGSIZE) % 2 ^ 32 ||| perm ||| PTE_P

def mapped (E : ℕ → ℕ) (v k pa perm : ℕ) : ℕ → ℕ := fun x =>
  if v ≤ x ∧ x < v + k then pteOf pa perm (x - v) else E x

section

variable {d v n k pa perm fuel : ℕ} {E : ℕ → ℕ} {s : Machine}

theorem mapped_inside {x : ℕ} (h : v ≤ x) (h' : x < v + k) : mapped E v k pa perm x = pteOf pa perm (x - v) :=
  if_pos ⟨h, h'⟩

theorem mapped_outside {x : ℕ} (h : x < v ∨ v + k ≤ x) : mapped E v k pa perm x = E x := if_neg (by omega)

theorem Directory.tail (h : Directory d s) : Directory d { s with fails := s.fails.tail } :=
  ⟨h.free, h.small, h.used, h.table, h.apart⟩

theorem Entries.tail (h : Entries d E s) : Entries d E { s with fails := s.fails.tail } :=
  ⟨h.toDirectory.tail, h.entries⟩

theorem Entries.install {page i : ℕ} {rest : List ℕ} (h : Entries d E s) (hs : s.freelist = page :: rest)
    (hnone : tableOf s.mem d i = none) :
    Entries d E { s with freelist := rest, fails := s.fails.tail, mem := installed s.mem d i page } := by
  have hfree := h.free
  have hused := h.used
  have hsmall := h.small page (hs ▸ List.mem_cons_self)
  rw [hs] at hfree hused
  have hpd : page ≠ d := fun heq => hused (heq ▸ List.mem_cons_self)
  have hfresh : ∀ j < NPDENTRIES, tableOf s.mem d j ≠ some page := by
    intro j hj ht
    exact (h.table j hj page ht).2 (hs ▸ List.mem_cons_self)
  have htab := fun j => tableOf_installed s.mem d i j hsmall
  constructor
  · constructor
    · exact (List.nodup_cons.mp hfree).2
    · exact fun p hp => h.small p (hs ▸ List.mem_cons_of_mem page hp)
    · exact fun hmem => hused (List.mem_cons_of_mem page hmem)
    · intro j hj t ht
      simp only [htab] at ht
      by_cases hji : j = i
      · rw [hji, update_self] at ht
        cases ht
        exact ⟨hpd, (List.nodup_cons.mp hfree).1⟩
      · rw [update_of_ne hji] at ht
        obtain ⟨htd, htf⟩ := h.table j hj t ht
        exact ⟨htd, fun hmem => htf (hs ▸ List.mem_cons_of_mem page hmem)⟩
    · intro j hj j' hj' t ht ht'
      simp only [htab] at ht ht'
      by_cases hji : j = i <;> by_cases hji' : j' = i
      · rw [hji, hji']
      · rw [hji, update_self] at ht
        rw [update_of_ne hji', ← ht] at ht'
        exact absurd ht' (hfresh j' hj')
      · rw [hji', update_self] at ht'
        rw [update_of_ne hji, ← ht'] at ht
        exact absurd ht (hfresh j hj)
      · rw [update_of_ne hji] at ht
        rw [update_of_ne hji'] at ht'
        exact h.apart j hj j' hj' t ht ht'
  · intro v hv
    rw [← h.entries v hv]
    exact entryOf_installed hsmall hpd hnone hfresh (fun j hj hd => (h.table j hj d hd).1 rfl) hv

theorem Entries.store {t w : ℕ} (h : Entries d E s) (hv : v < 2 ^ 20) (hw : w < 2 ^ 32)
    (ht : tableOf s.mem d (v / 1024) = some t) :
    Entries d (update E v w) { s with mem := update s.mem t (set32 (s.mem t) (4 * (v % 1024)) w) } := by
  have hslot : v / 1024 < NPDENTRIES := by
    simp only [NPDENTRIES]
    omega
  have htd := (h.table _ hslot t ht).1
  have hdir : update s.mem t (set32 (s.mem t) (4 * (v % 1024)) w) d = s.mem d :=
    update_of_ne (Ne.symm htd) _ _
  have htab := tableOf_congr hdir
  constructor
  · constructor
    · exact h.free
    · exact h.small
    · exact h.used
    · intro i hi t' ht'
      rw [htab] at ht'
      exact h.table i hi t' ht'
    · intro i hi j hj t' hti htj
      rw [htab] at hti htj
      exact h.apart i hi j hj t' hti htj
  · intro x hx
    rw [entryOf_store hw hv ht htd (fun j hj hjt => h.apart j hj _ hslot t hjt ht) hx]
    by_cases hxv : x = v
    · rw [hxv, update_self, update_self]
    · rw [update_of_ne hxv, update_of_ne hxv, h.entries x hx]

theorem walk_entries (hv : v < 2 ^ 20) :
    Triple (Entries d E) (walkpgdir d (v * PGSIZE) true)
      (fun r s => Entries d E s ∧ ∀ t i, r = some (t, i) → tableOf s.mem d (v / 1024) = some t ∧
        i = v % 1024) NoStop := by
  apply Triple.start
  intro s hs
  apply walkAlloc_rule hv hs.used
  · intro t ht
    refine ⟨hs, fun t' i hr => ?_⟩
    cases hr
    exact ⟨ht, rfl⟩
  · intro _
    exact ⟨hs.tail, fun _ _ hr => (by cases hr)⟩
  · intro page rest hnone hf _
    refine ⟨hs.install hf hnone, fun t i hr => ?_⟩
    cases hr
    rw [tableOf_installed _ _ _ _ (hs.small page (hf ▸ List.mem_cons_self)), update_self]
    exact ⟨rfl, rfl⟩

theorem pteOf_lt (hperm : perm < 2 ^ 32) (pa i : ℕ) : pteOf pa perm i < 2 ^ 32 := by
  apply Nat.or_lt_two_pow
  · exact Nat.or_lt_two_pow (Nat.mod_lt _ (by decide)) hperm
  · decide

theorem pteOf_zero (hpa : pa < 2 ^ 32) : pteOf pa perm 0 = pa ||| perm ||| PTE_P := by
  rw [pteOf, Nat.zero_mul, Nat.add_zero, Nat.mod_eq_of_lt hpa]

theorem pteOf_succ (pa perm i : ℕ) : pteOf ((pa + PGSIZE) % 2 ^ 32) perm i = pteOf pa perm (i + 1) := by
  rw [pteOf, pteOf, Nat.mod_add_mod, Nat.add_one_mul, Nat.add_assoc, Nat.add_comm PGSIZE]

theorem mapped_zero : mapped E v 0 pa perm = E := by
  funext x
  exact mapped_outside (by omega)

theorem mapped_succ : mapped (update E v (pteOf pa perm 0)) (v + 1) k ((pa + PGSIZE) % 2 ^ 32) perm =
    mapped E v (k + 1) pa perm := by
  funext x
  by_cases hin : v + 1 ≤ x ∧ x < v + 1 + k
  · rw [mapped_inside hin.1 hin.2, mapped_inside (by omega) (by omega), pteOf_succ]
    congr 1
    omega
  · rw [mapped_outside (by omega)]
    by_cases hxv : x = v
    · rw [hxv, update_self, mapped_inside (by omega) (by omega), Nat.sub_self]
    · rw [update_of_ne hxv, mapped_outside (by omega)]

theorem mapPage_entries {last : ℕ} {Q : Bool → Machine → Prop} (hv : v < 2 ^ 20) (habsent : present (E v) = false)
    (hpa : pa < 2 ^ 32) (hperm : perm < 2 ^ 32) (hfail : ∀ s, Entries d E s → Q false s)
    (hnext : Triple (Entries d (update E v (pteOf pa perm 0)))
      (if v * PGSIZE = last then return true
        else mapFrom d last perm fuel ((v * PGSIZE + PGSIZE) % 2 ^ 32) ((pa + PGSIZE) % 2 ^ 32)) Q NoStop) :
    Triple (Entries d E) (mapFrom d last perm (fuel + 1) (v * PGSIZE) pa) Q NoStop := by
  apply Triple.bind (walk_entries hv)
  rintro (_ | ⟨t, i⟩)
  · exact Triple.pure fun s hs => hfail s hs.1
  · apply Triple.start
    rintro s ⟨hs, htab⟩
    obtain ⟨ht, rfl⟩ := htab t i rfl
    apply Triple.step (load_run _ _ _)
    rw [← entryOf_some ht, hs.entries v hv, habsent, if_neg Bool.false_ne_true]
    apply Triple.step (store_run _ _ _ _)
    rw [← pteOf_zero hpa]
    exact hnext.here (hs.store hv (pteOf_lt hperm pa 0) ht)

theorem mapFrom_entries (hn : v + n < 2 ^ 20) (hfuel : n < fuel) (hpa : pa < 2 ^ 32) (hperm : perm < 2 ^ 32)
    (habsent : ∀ x, v ≤ x → x ≤ v + n → present (E x) = false) :
    Triple (Entries d E) (mapFrom d ((v + n) * PGSIZE) perm fuel (v * PGSIZE) pa)
      (fun r s => ∃ k ≤ n + 1, (r = true ↔ k = n + 1) ∧ Entries d (mapped E v k pa perm) s) NoStop := by
  induction fuel generalizing v n pa E with
  | zero => omega
  | succ fuel ih =>
    apply mapPage_entries (by omega) (habsent v (by omega) (by omega)) hpa hperm
    · intro s hs
      refine ⟨0, by omega, by simp, ?_⟩
      rwa [mapped_zero]
    · obtain rfl | hpos := Nat.eq_zero_or_pos n
      · rw [Nat.add_zero, if_pos rfl]
        apply Triple.pure
        intro s hs
        refine ⟨1, by omega, by simp, ?_⟩
        rwa [← mapped_succ, mapped_zero]
      · have hmore : v * PGSIZE ≠ (v + n) * PGSIZE := by
          simp only [PGSIZE]
          omega
        have hlast : v + n = v + 1 + (n - 1) := by omega
        have hrest : ∀ x, v + 1 ≤ x → x ≤ v + 1 + (n - 1) → present (update E v (pteOf pa perm 0) x) = false := by
          intro x hx hx'
          rw [update_of_ne (by omega)]
          exact habsent x (by omega) (by omega)
        rw [if_neg hmore, next_page (by omega), hlast]
        apply Triple.post (ih (by omega) (by omega) (Nat.mod_lt _ (by decide)) hrest)
        rintro r s ⟨k, hk, hr, hs⟩
        refine ⟨k + 1, by omega, hr.trans (by omega), ?_⟩
        rwa [← mapped_succ]

end

variable {L : Layout} {d pa perm va : ℕ} {s : Machine} {mem : ℕ → Bytes}

theorem Own.directory {A : Frames L} {H R : Multiset ℕ} {m₀ : ℕ → Bytes} {E : ℕ → ℕ}
    (h : Own A H R m₀ d E s) : Directory d s := by
  have haside {p : ℕ} (hp : p ∈ s.freelist) : p ≠ d ∧ ∀ i < NPDENTRIES, tableOf s.mem d i ≠ some p := by
    have hcount := List.count_pos_iff.mpr hp
    exact h.aside (by omega)
  constructor
  · rw [List.nodup_iff_count_le_one]
    intro p
    have hcount := h.count p
    omega
  · intro p hp
    apply Frames.lt (A := A)
    rw [← h.pages]
    simp only [Multiset.mem_add, Multiset.mem_coe]
    exact .inl (.inl (.inl hp))
  · exact fun hd => (haside hd).1 rfl
  · exact fun i hi t ht => ⟨h.table_ne hi ht, fun hfree => (haside hfree).2 i hi ht⟩
  · exact fun i hi j hj t hti htj => h.table_inj hi hj hti htj

theorem built_directory (h : Built L d s) : Directory d s := by
  obtain ⟨A, _, E, hs, _⟩ := h.guarded
  exact hs.directory

theorem built_directory_boot : ∃ d s x y, Built Conservation.smallKernel d s ∧
    (allocuvm Conservation.smallKernel d 0 (2 * PGSIZE)).run s = .ok (2 * PGSIZE, x) ∧
    (clearpteu d 0).run x = .ok ((), y) ∧ Built Conservation.smallKernel d y ∧ Directory d y := by
  obtain ⟨d, s, hsetup, hs⟩ := bootMachine_own
  have hbuilt : Built Conservation.smallKernel d s := .setupkvm bootMachine_allocator hsetup
  obtain ⟨E, x, halloc, hx, _, hE⟩ := allocuvm_first trivial (show 2 * PGSIZE < KERNBASE by decide) (by
    rw [Spaces.framesOf, Multiset.coe_card, Spaces.bootMachine, List.length_range', Multiset.card_zero]
    decide) hs
  obtain ⟨huser, hpresent⟩ := hE.present (v := 0) (by decide)
  obtain ⟨_, y, hclear, _⟩ := (clearpteu_own huser hpresent).returns hx
  rw [Nat.zero_mul] at hclear
  have hcalm : s.fails = [] := hs.calm trivial
  have hgrown : Built Conservation.smallKernel d x :=
    .allocuvm 0 (2 * PGSIZE) [] hbuilt (by rwa [Conservation.failing_nil hcalm])
  have hbuilt' : Built Conservation.smallKernel d y := .clearpteu 0 hgrown hclear
  exact ⟨d, s, x, y, hbuilt, halloc, hclear, hbuilt', built_directory hbuilt'⟩

theorem present_pteOf (pa perm i : ℕ) : present (pteOf pa perm i) = true := by
  rw [present_eq, pteOf, PTE_P, decide_eq_true_eq, Nat.or_mod_two_eq_one]
  exact .inr rfl

theorem translation_none :
    translation mem d va = none ↔ present (entryOf mem d (va / PGSIZE)) = false := by
  rw [translation]
  split_ifs with hp
  · simp [hp]
  · simp [hp]

theorem translation_congr {mem' : ℕ → Bytes}
    (h : entryOf mem' d (va / PGSIZE) = entryOf mem d (va / PGSIZE)) :
    translation mem' d va = translation mem d va := by
  rw [translation, translation, h]

theorem translation_pteOf {i : ℕ} (h : entryOf mem d (va / PGSIZE) = pteOf pa perm i) :
    translation mem d va = some (PTE_ADDR (pteOf pa perm i), PTE_FLAGS (pteOf pa perm i)) := by
  rw [translation, h]
  exact if_pos (present_pteOf pa perm i)

theorem pteOf_aligned (i : ℕ) (hpa : pa % PGSIZE = 0) (hperm : perm < PGSIZE) :
    PTE_ADDR (pteOf pa perm i) = (pa + i * PGSIZE) % 2 ^ 32 ∧ PTE_FLAGS (pteOf pa perm i) = perm ||| PTE_P := by
  have hpage : (pa + i * PGSIZE) % 2 ^ 32 = (pa + i * PGSIZE) % 2 ^ 32 / PGSIZE * PGSIZE := by
    simp only [PGSIZE] at hpa ⊢
    omega
  rw [pteOf, hpage]
  refine ⟨?_, entry_flags _ hperm⟩
  have haddr := entry_page ((pa + i * PGSIZE) % 2 ^ 32 / PGSIZE) hperm
  rw [PTE_ADDR, Nat.mul_div_cancel _ (by decide)] at haddr
  rw [PTE_ADDR, haddr]

def rangePages (va size : ℕ) : ℕ := (va + size - 1) / PGSIZE - va / PGSIZE + 1

theorem mappages_exact (d : ℕ) (s : Machine) (hs : Directory d s) (va size pa perm : ℕ) (hsize : 0 < size)
    (hfit : va + size ≤ 2 ^ 32) (hpa : pa < 2 ^ 32) (hperm : perm < 2 ^ 32)
    (habsent : ∀ i < rangePages va size, translation s.mem d ((va / PGSIZE + i) * PGSIZE) = none) :
    ∃ r s', (mappages d va size pa perm).run s = .ok (r, s') ∧ Directory d s' ∧
      ∃ k ≤ rangePages va size, (r = true ↔ k = rangePages va size) ∧
        (∀ i < k, ∀ a, a / PGSIZE = va / PGSIZE + i →
          translation s'.mem d a = some (PTE_ADDR (pteOf pa perm i), PTE_FLAGS (pteOf pa perm i)) ∧
          (pa % PGSIZE = 0 → perm < PGSIZE →
            translation s'.mem d a = some ((pa + i * PGSIZE) % 2 ^ 32, perm ||| PTE_P))) ∧
        ∀ a < 2 ^ 32, a / PGSIZE < va / PGSIZE ∨ va / PGSIZE + k ≤ a / PGSIZE →
          translation s'.mem d a = translation s.mem d a := by
  have hlast : PGROUNDDOWN ((va + size + 2 ^ 32 - 1) % 2 ^ 32) =
      (va / PGSIZE + (rangePages va size - 1)) * PGSIZE := by
    simp only [PGROUNDDOWN, rangePages, PGSIZE]
    omega
  have hpages : va / PGSIZE + (rangePages va size - 1) < 2 ^ 20 := by
    simp only [rangePages, PGSIZE]
    omega
  have hpos : 0 < rangePages va size := Nat.succ_pos _
  have hfree : ∀ x, va / PGSIZE ≤ x → x ≤ va / PGSIZE + (rangePages va size - 1) →
      present (entryOf s.mem d x) = false := by
    intro x hx hx'
    have hnone := habsent (x - va / PGSIZE) (by omega)
    rwa [Nat.add_sub_cancel' hx, translation_none, Nat.mul_div_cancel _ (by decide)] at hnone
  have hfuel : rangePages va size - 1 < 2 ^ 20 := Nat.lt_of_le_of_lt (Nat.le_add_left _ _) hpages
  obtain ⟨r, s', hrun, k, hk, hr, hshows⟩ :=
    (mapFrom_entries hpages hfuel hpa hperm hfree).returns ⟨hs, fun _ _ => rfl⟩
  rw [Nat.sub_add_cancel hpos] at hk hr
  refine ⟨r, s', ?_, hshows.toDirectory, k, hk, hr, fun i hi a ha => ?_, fun a ha hout => ?_⟩
  · rw [mappages, hlast]
    exact hrun
  · have hentry : entryOf s'.mem d (a / PGSIZE) = pteOf pa perm i := by
      rw [hshows.entries _ (by omega), mapped_inside (by omega) (by omega), ha, Nat.add_sub_cancel_left]
    have htrans := translation_pteOf hentry
    refine ⟨htrans, fun haligned hlow => ?_⟩
    obtain ⟨haddr, hflags⟩ := pteOf_aligned i haligned hlow
    rw [htrans, haddr, hflags]
  · apply translation_congr
    have hpage : a / PGSIZE < 2 ^ 20 := by
      simp only [PGSIZE]
      omega
    rw [hshows.entries _ hpage, mapped_outside hout]

def emptyTables : Machine := ⟨[7], fun _ _ => 0, []⟩

theorem emptyTables_table (i : ℕ) : tableOf emptyTables.mem 5 i = none := by
  rw [tableOf, emptyTables, get32_zero]
  decide

theorem emptyTables_absent (va : ℕ) : translation emptyTables.mem 5 va = none := by
  rw [translation_none, entryOf_none (emptyTables_table _)]
  decide

theorem emptyTables_directory : Directory 5 emptyTables := by
  constructor
  · decide
  · decide
  · decide
  · intro i _ t ht
    rw [emptyTables_table] at ht
    cases ht
  · intro i _ j _ t ht _
    rw [emptyTables_table] at ht
    cases ht

theorem mappages_last_page : ∃ s',
    (mappages 5 0xFFFFF000 0x1000 0xFFFFF000 PTE_W).run emptyTables = .ok (true, s') ∧
    translation s'.mem 5 0xFFFFF123 = some (0xFFFFF000, PTE_W ||| PTE_P) ∧ translation s'.mem 5 0 = none := by
  obtain ⟨r, s', hrun, _, k, hk, hr, hin, hout⟩ :=
    mappages_exact 5 emptyTables emptyTables_directory 0xFFFFF000 0x1000
    0xFFFFF000 PTE_W (by decide) (by decide) (by decide) (by decide) (fun _ _ => emptyTables_absent _)
  have hsuccess : ((mappages 5 0xFFFFF000 0x1000 0xFFFFF000 PTE_W).run emptyTables).toOption.map
      Prod.fst = some true := by
    decide +kernel
  rw [hrun] at hsuccess
  obtain rfl := Option.some.inj hsuccess
  refine ⟨s', hrun, ?_, (hout 0 (by decide) (.inl (by decide))).trans (emptyTables_absent 0)⟩
  exact (hin 0 (by rw [hr.mp rfl]; decide) 0xFFFFF123 (by decide)).2 (by decide) (by decide)

end Xv6.Vm
