import Mathlib.Algebra.BigOperators.Group.Finset.Piecewise
import Mathlib.Order.Interval.Finset.Nat
import Xv6.PageOwnership
import Xv6.Triples

namespace Xv6.Vm

open Xv6.Memory (PGSIZE KERNBASE)
open Xv6.Triples Xv6.Words Function

abbrev NoStop : Stop → Prop := fun _ => False

section Rules

variable {P : Machine → Prop} {Z : Stop → Prop} {Q : Unit → Machine → Prop} {i page : ℕ}

theorem kalloc_rule {Q : Option ℕ → Machine → Prop}
    (hnone : ∀ s, P s → s.freelist = [] ∨ s.fails ≠ [] → Q none { s with fails := s.fails.tail })
    (hsome : ∀ s page rest, P s → s.freelist = page :: rest →
      Q (some page) { s with freelist := rest, fails := s.fails.tail }) : Triple P kalloc Q Z := by
  apply Triple.get
  intro s hs
  cases hf : s.freelist with
  | nil => exact Triple.setThen (Triple.ret (hf ▸ hnone s hs (.inl hf)))
  | cons page rest =>
    apply Triple.ite
    · intro hfail
      have hne : s.fails ≠ [] := by
        intro h
        simp [h] at hfail
      exact Triple.setThen (Triple.ret (hf ▸ hnone s hs (.inr hne)))
    · intro _
      exact Triple.setThen (Triple.ret (hsome s page rest hs hf))

theorem fill_rule {bytes : Bytes}
    (h : ∀ s, P s → Q () { s with mem := update s.mem page bytes }) : Triple P (fill page bytes) Q Z :=
  Triple.get fun s hs => Triple.set fun _ _ => h s hs

theorem load_rule {Q : ℕ → Machine → Prop} (h : ∀ s, P s → Q (get32 (s.mem page) (4 * i)) s) :
    Triple P (load page i) Q Z :=
  Triple.get fun s hs => Triple.ret (h s hs)

theorem store_rule {w : ℕ}
    (h : ∀ s, P s → Q () { s with mem := update s.mem page (set32 (s.mem page) (4 * i) w) }) :
    Triple P (store page i w) Q Z :=
  Triple.get fun s hs => Triple.set fun _ _ => h s hs

theorem kfree_rule {L : Layout}
    (hfit : ∀ s, P s → L.kernelEnd ≤ page * PGSIZE + KERNBASE ∧ page * PGSIZE < PHYSTOP)
    (h : ∀ s bytes, P s → Q () { s with mem := update s.mem page bytes, freelist := page :: s.freelist }) :
    Triple P (kfree L page) Q Z := by
  apply Triple.known hfit
  intro hp
  apply Triple.ite
  · intro hbad
    omega
  · intro _
    exact Triple.get fun s hs => Triple.set fun _ _ => h s _ hs

variable {s : Machine} {d v va t : ℕ}

theorem load_run (s : Machine) (page i : ℕ) : (load page i).run s = .ok (get32 (s.mem page) (4 * i), s) := rfl

theorem fill_run (s : Machine) (page : ℕ) (bytes : Bytes) :
    (fill page bytes).run s = .ok ((), { s with mem := update s.mem page bytes }) := rfl

theorem store_run (s : Machine) (page i w : ℕ) : (store page i w).run s =
    .ok ((), { s with mem := update s.mem page (set32 (s.mem page) (4 * i) w) }) := rfl

theorem kfree_run {L : Layout} {page : ℕ} (hfit : L.kernelEnd ≤ page * PGSIZE + KERNBASE ∧
    page * PGSIZE < PHYSTOP) : ∃ bytes, (kfree L page).run s =
      .ok ((), { s with mem := update s.mem page bytes, freelist := page :: s.freelist }) := by
  rw [kfree, if_neg (by omega)]
  exact ⟨_, rfl⟩

theorem walk_found {alloc : Bool} (ht : tableOf s.mem d (PDX va) = some t) :
    (walkpgdir d va alloc).run s = .ok (some (t, PTX va), s) := by
  rw [tableOf, Option.ite_none_right_eq_some] at ht
  obtain ⟨hp, ht⟩ := ht
  rw [walkpgdir, run_bind_after (load_run _ _ _), if_pos hp, Option.some.inj ht]
  rfl

theorem walk_missing (ht : tableOf s.mem d (PDX va) = none) : (walkpgdir d va false).run s = .ok (none, s) := by
  rw [tableOf, ite_eq_right_iff] at ht
  rw [walkpgdir, run_bind_after (load_run _ _ _), if_neg fun hp => Option.some_ne_none _ (ht hp), if_pos rfl]
  rfl

theorem pdx_page (hv : v < 2 ^ 20) : PDX (v * PGSIZE) = v / 1024 := by
  simp only [PDX, PGSIZE]
  omega

theorem ptx_page (v : ℕ) : PTX (v * PGSIZE) = v % 1024 := by
  simp only [PTX, PGSIZE]
  omega

theorem slot_lt (hv : v < 2 ^ 20) : v / 1024 < NPDENTRIES := by
  simp only [NPDENTRIES]
  omega

theorem next_page (hv : v + 1 < 2 ^ 20) : (v * PGSIZE + PGSIZE) % 2 ^ 32 = (v + 1) * PGSIZE := by
  simp only [PGSIZE]
  omega

theorem walk_page {alloc : Bool} (hv : v < 2 ^ 20) (ht : tableOf s.mem d (v / 1024) = some t) :
    (walkpgdir d (v * PGSIZE) alloc).run s = .ok (some (t, v % 1024), s) := by
  rw [← pdx_page hv] at ht
  rw [walk_found ht, ptx_page]

theorem walk_hole (hv : v < 2 ^ 20) (ht : tableOf s.mem d (v / 1024) = none) :
    (walkpgdir d (v * PGSIZE) false).run s = .ok (none, s) :=
  walk_missing (by rwa [pdx_page hv])

theorem walkAlloc_rule {Q : Option (ℕ × ℕ) → Machine → Prop} (hv : v < 2 ^ 20) (hd : d ∉ s.freelist)
    (hfound : ∀ t, tableOf s.mem d (v / 1024) = some t → Q (some (t, v % 1024)) s)
    (hfail : s.freelist = [] ∨ s.fails ≠ [] → Q none { s with fails := s.fails.tail })
    (hnew : ∀ page rest, tableOf s.mem d (v / 1024) = none → s.freelist = page :: rest → page ≠ d →
      Q (some (page, v % 1024))
        { s with freelist := rest, fails := s.fails.tail, mem := installed s.mem d (v / 1024) page }) :
    Triple (fun x => x = s) (walkpgdir d (v * PGSIZE) true) Q Z := by
  cases htab : tableOf s.mem d (v / 1024) with
  | some t =>
    rintro _ rfl
    rw [walk_page hv htab]
    exact hfound t htab
  | none =>
    have hp : ¬ present (get32 (s.mem d) (4 * (v / 1024))) := by
      intro hp
      rw [tableOf, if_pos hp] at htab
      cases htab
    unfold walkpgdir
    rw [pdx_page hv, ptx_page]
    apply Triple.step (load_run _ _ _)
    rw [if_neg hp, if_neg (by decide)]
    apply Triple.bind (R := fun r x => r.elim (Q none x) fun page => ∃ rest, s.freelist = page :: rest ∧
      x = { s with freelist := rest, fails := s.fails.tail })
    · apply kalloc_rule
      · rintro x rfl hf
        exact hfail hf
      · rintro x page rest rfl hf
        exact ⟨rest, hf, rfl⟩
    · rintro (_ | page)
      · exact Triple.pure fun x hx => hx
      · apply Triple.start
        rintro x ⟨rest, hf, rfl⟩
        have hpd : page ≠ d := fun heq => hd (heq ▸ hf ▸ List.mem_cons_self)
        have hdone := hnew page rest htab hf hpd
        apply Triple.step (fill_run _ _ _)
        apply Triple.step (store_run _ _ _ _)
        simp only [installed, update_of_ne hpd.symm] at hdone ⊢
        exact Triple.ret hdone

end Rules

variable {L : Layout} {A : Frames L} {H R : Multiset ℕ} {m₀ M : ℕ → Bytes} {d : ℕ} {E : ℕ → ℕ}

def need (E : ℕ → ℕ) (H R : Multiset ℕ) : ℕ := 1 + NPDENTRIES + (userPages E).card + H.card + R.card

variable {s : Machine} {fuel hi last lo n newsz oldsz pa page perm q src sz t v w x : ℕ}
  {K : Multiset ℕ} {Q : Bool → Machine → Prop} {E' E₀ F : ℕ → ℕ} {M₀ : ℕ → Bytes} {ks : List Kmap}
  {P : ℕ → Prop}

theorem Own.tail (h : Own A H R m₀ d E s) : Own A H R m₀ d E { s with fails := s.fails.tail } :=
  ⟨h.entries, h.pages, h.frame, fun hc => by simp [h.calm hc]⟩

theorem kalloc_own : Triple (Own A H R m₀ d E) kalloc
    (fun r s => r.elim (Own A H R m₀ d E s) fun page => Own A (page ::ₘ H) R m₀ d E s) NoStop :=
  kalloc_rule (fun _ h _ => h.tail) fun _ _ _ h hs => h.take hs

theorem kfree_own : Triple (Own A (page ::ₘ H) R m₀ d E) (kfree L page) (fun _ => Own A H R m₀ d E) NoStop :=
  kfree_rule (fun _ h => A.fits _ (h.mem_frames (Multiset.mem_cons_self _ _))) fun _ _ h => h.give _

theorem Own.anyContents {α : Type} {m : Call α} {Q : α → Machine → Prop}
    (h : ∀ M, Triple (Laden A H R m₀ d E M) m Q NoStop) : Triple (Own A H R m₀ d E) m Q NoStop :=
  Triple.start fun s hs => (h s.mem).here hs.laden

theorem kalloc_laden : Triple (Laden A H R m₀ d E M) kalloc (fun r s =>
    r.elim (Laden A H R m₀ d E M s ∧ Scarce A (need E H R)) fun page =>
      ∃ bytes, Laden A (page ::ₘ H) R m₀ d E (update M page bytes) s) NoStop :=
  kalloc_rule (fun _ h hf => ⟨h.tail, h.toOwn.scarce hf⟩) fun s page _ h hs => ⟨s.mem page, h.take hs⟩

theorem kfree_laden : Triple (Laden A (page ::ₘ H) R m₀ d E M) (kfree L page)
    (fun _ => Laden A H R m₀ d E M) NoStop :=
  kfree_rule (fun _ h => A.fits _ (h.toOwn.mem_frames (Multiset.mem_cons_self _ _))) fun _ _ h => h.give _

theorem walkAlloc_laden (hv : v < 2 ^ 20) : Triple (Laden A H R m₀ d E M) (walkpgdir d (v * PGSIZE) true)
    (fun r s => Laden A H R m₀ d E M s ∧ (r = none → Scarce A (need E H R)) ∧
      ∀ t i, r = some (t, i) → tableOf s.mem d (v / 1024) = some t ∧ i = v % 1024) NoStop := by
  apply Triple.start
  intro s hs
  apply walkAlloc_rule hv hs.toOwn.dir_used
  · intro t ht
    refine ⟨hs, fun hn => (by cases hn), fun t' i hr => ?_⟩
    cases hr
    exact ⟨ht, rfl⟩
  · intro hf
    exact ⟨hs.tail, fun _ => hs.toOwn.scarce hf, fun _ _ hr => (by cases hr)⟩
  · intro page rest hnone hf _
    have htaken := hs.take hf
    have hp20 : page < 2 ^ 20 := Frames.lt (htaken.toOwn.mem_frames (Multiset.mem_cons_self _ _))
    have hinstalled := (htaken.install (slot_lt hv) hnone).forget htaken.toOwn.fresh
    refine ⟨hinstalled, fun hn => (by cases hn), fun t i hr => ?_⟩
    cases hr
    rw [tableOf_installed _ _ _ _ hp20, update_self]
    exact ⟨rfl, rfl⟩

theorem mapFrom_laden (hv : v < 2 ^ 20)
    (habsent : present (E v) = false) (hw : pa ||| perm ||| PTE_P < 2 ^ 32)
    (hH : H = userPage v (pa ||| perm ||| PTE_P) + K)
    (hfail : ∀ s, Laden A H R m₀ d E M s → Scarce A (need E H R) → Q false s)
    (hnext : Triple (Laden A K R m₀ d (update E v (pa ||| perm ||| PTE_P)) M)
      (if v * PGSIZE = last then return true
        else mapFrom d last perm fuel ((v * PGSIZE + PGSIZE) % 2 ^ 32) ((pa + PGSIZE) % 2 ^ 32)) Q NoStop) :
    Triple (Laden A H R m₀ d E M) (mapFrom d last perm (fuel + 1) (v * PGSIZE) pa) Q NoStop := by
  have hnothing : userPage v (E v) = 0 := by simp [userPage, pageOf, habsent]
  apply Triple.bind (walkAlloc_laden hv)
  rintro (_ | ⟨t, i⟩)
  · exact Triple.pure fun s hs => hfail s hs.1 (hs.2.1 rfl)
  · apply Triple.start
    rintro s ⟨hs, _, htab⟩
    obtain ⟨ht, rfl⟩ := htab t i rfl
    apply Triple.step (load_run _ _ _)
    rw [← entryOf_some ht, hs.entries v hv, habsent, if_neg Bool.false_ne_true]
    apply Triple.step (store_run _ _ _ _)
    exact hnext.here (hs.store hv hw ht (by rw [hnothing, zero_add, hH]))

theorem mapFrom_round (hv : v < 2 ^ 20)
    (habsent : present (E v) = false) (hw : pa ||| perm ||| PTE_P < 2 ^ 32)
    (hH : H = userPage v (pa ||| perm ||| PTE_P) + K) (hfail : ∀ s, Own A H R m₀ d E s →
      Scarce A (need E H R) → Q false s)
    (hnext : Triple (Own A K R m₀ d (update E v (pa ||| perm ||| PTE_P)))
      (if v * PGSIZE = last then return true
        else mapFrom d last perm fuel ((v * PGSIZE + PGSIZE) % 2 ^ 32) ((pa + PGSIZE) % 2 ^ 32)) Q NoStop) :
    Triple (Own A H R m₀ d E) (mapFrom d last perm (fuel + 1) (v * PGSIZE) pa) Q NoStop :=
  Own.anyContents fun _ => mapFrom_laden hv habsent hw hH (fun s hs => hfail s hs.toOwn)
  (hnext.pre fun _ hs => hs.toOwn)

theorem last_page (hn : 0 < n) (hv : v + n ≤ 2 ^ 20) :
    PGROUNDDOWN ((v * PGSIZE + n * PGSIZE + 2 ^ 32 - 1) % 2 ^ 32) = (v + n - 1) * PGSIZE := by
  simp only [PGROUNDDOWN, PGSIZE]
  omega

theorem pgrounddown_page (v : ℕ) : PGROUNDDOWN (v * PGSIZE) = v * PGSIZE := by
  simp only [PGROUNDDOWN, PGSIZE]
  omega

theorem user_lt (hv : v < KERNBASE / PGSIZE) : v < 2 ^ 19 := by
  simp only [KERNBASE, PGSIZE] at hv
  omega

theorem mappages_laden (hv : v < KERNBASE / PGSIZE) (habsent : present (E v) = false)
    (hperm : perm < PGSIZE) : Triple
    (Laden A (q ::ₘ H) R m₀ d E M) (mappages d (v * PGSIZE) PGSIZE (q * PGSIZE) perm)
    (fun ok s => if ok then Laden A H R m₀ d (update E v (q * PGSIZE ||| perm ||| PTE_P)) M s
      else Laden A (q ::ₘ H) R m₀ d E M s ∧ Scarce A (need E (q ::ₘ H) R)) NoStop := by
  have hv19 := user_lt hv
  have hlast := last_page (v := v) (n := 1) Nat.one_pos (by omega)
  rw [Nat.one_mul, Nat.add_sub_cancel] at hlast
  unfold mappages
  rw [hlast, pgrounddown_page]
  apply Triple.known (fun s hs => Frames.lt (hs.toOwn.mem_frames (Multiset.mem_cons_self q H)))
  intro hq
  refine mapFrom_laden (K := H) (by omega) habsent (entry_lt hq hperm) ?_ (fun s hs hf => ⟨hs, hf⟩) ?_
  · rw [userPage, if_pos hv, pageOf, if_pos (present_entry q hperm), entry_page q hperm, Multiset.singleton_add]
  · rw [if_pos rfl]
    exact Triple.pure fun s hs => hs

theorem mappages_user (hv : v < KERNBASE / PGSIZE) (habsent : present (E v) = false)
    (hperm : perm < PGSIZE) : Triple (Own A (q ::ₘ H) R m₀ d E) (mappages d (v * PGSIZE) PGSIZE (q * PGSIZE) perm)
    (fun ok s => if ok then Own A H R m₀ d (update E v (q * PGSIZE ||| perm ||| PTE_P)) s
      else Own A (q ::ₘ H) R m₀ d E s ∧ Scarce A (need E (q ::ₘ H) R)) NoStop := by
  refine Own.anyContents fun _ => (mappages_laden hv habsent hperm).post ?_
  rintro (_ | _) s hs
  · exact ⟨hs.1.toOwn, hs.2⟩
  · exact hs.toOwn

def mapRange (E : ℕ → ℕ) (v n q perm : ℕ) : ℕ → ℕ := fun x =>
  if v ≤ x ∧ x < v + n then (q + (x - v)) * PGSIZE ||| perm ||| PTE_P else E x

theorem mapRange_update (E : ℕ → ℕ) (v n q perm : ℕ) :
    mapRange (update E v (q * PGSIZE ||| perm ||| PTE_P)) (v + 1) n (q + 1) perm =
      mapRange E v (n + 1) q perm := by
  funext x
  unfold mapRange
  by_cases hx : x = v
  · subst hx
    rw [if_neg (by omega), if_pos (by omega), update_self, Nat.sub_self, Nat.add_zero]
  · by_cases hin : v + 1 ≤ x ∧ x < v + 1 + n
    · have hoff : q + 1 + (x - (v + 1)) = q + (x - v) := by omega
      rw [if_pos hin, if_pos (by omega), hoff]
    · rw [if_neg hin, if_neg (by omega), update_of_ne hx]

theorem userPages_kernel (hv : KERNBASE / PGSIZE ≤ v) : userPages (update E v w) = userPages E := by
  have h := userPages_update E v w
  rwa [userPage, userPage, if_neg (by omega), if_neg (by omega), add_zero, add_zero] at h

theorem mapFrom_kernel (hv : KERNBASE / PGSIZE ≤ v) (hn : v + n < 2 ^ 20) (hq : q + n < 2 ^ 20)
    (hfuel : n < fuel) (hperm : perm < PGSIZE) (habsent : ∀ x, v ≤ x → x ≤ v + n → present (E x) = false) :
    Triple (Own A H R m₀ d E) (mapFrom d ((v + n) * PGSIZE) perm fuel (v * PGSIZE) (q * PGSIZE))
      (fun ok s => if ok then Own A H R m₀ d (mapRange E v (n + 1) q perm) s
        else Scarce A (need E H R) ∧ ∃ E', Own A H R m₀ d E' s ∧ ∀ x < KERNBASE / PGSIZE, E' x = E x) NoStop := by
  induction fuel generalizing E v q n with
  | zero => omega
  | succ fuel ih =>
    refine mapFrom_round (K := H) (by omega) (habsent v (Nat.le_refl v) (Nat.le_add_right v _))
      (entry_lt (by omega) hperm) ?_ (fun s hs hf => ⟨hf, E, hs, fun _ _ => rfl⟩) ?_
    · rw [userPage, if_neg (by omega), zero_add]
    · obtain rfl | hpos := Nat.eq_zero_or_pos n
      · rw [if_pos (by rw [Nat.add_zero])]
        refine Triple.pure fun s hs => ?_
        rw [if_pos rfl, ← mapRange_update]
        exact hs.congr fun x _ => if_neg (by omega)
      · have hne : ¬ v * PGSIZE = (v + n) * PGSIZE := by
          simp only [PGSIZE]
          omega
        have hend : v + n = v + 1 + (n - 1) := by omega
        have hcount : n - 1 + 1 = n := by omega
        rw [if_neg hne, next_page (by omega), next_page (by omega), hend]
        refine Triple.post (ih (by omega) (by omega) (by omega) (by omega) ?_) ?_
        · intro x hx hxn
          rw [update_of_ne (by omega)]
          exact habsent x (by omega) (by omega)
        · rintro (_ | _) s hs
          · obtain ⟨hf, E', hs, hE⟩ := hs
            rw [need, userPages_kernel hv] at hf
            refine ⟨hf, E', hs, fun x hx => ?_⟩
            rw [hE x hx, update_of_ne (by omega)]
          · rw [if_pos rfl, hcount, mapRange_update] at hs
            exact hs

theorem mappages_kernel (hv : KERNBASE / PGSIZE ≤ v) (hn0 : 0 < n) (hn : v + n ≤ 2 ^ 20)
    (hq : q + n ≤ 2 ^ 20) (hperm : perm < PGSIZE) (habsent : ∀ x, v ≤ x → x < v + n → present (E x) = false) :
    Triple (Own A H R m₀ d E) (mappages d (v * PGSIZE) (n * PGSIZE) (q * PGSIZE) perm)
      (fun ok s => if ok then Own A H R m₀ d (mapRange E v n q perm) s
        else Scarce A (need E H R) ∧ ∃ E', Own A H R m₀ d E' s ∧ ∀ x < KERNBASE / PGSIZE, E' x = E x) NoStop := by
  obtain ⟨n, rfl⟩ : ∃ k, n = k + 1 := ⟨n - 1, by omega⟩
  unfold mappages
  rw [last_page hn0 hn, pgrounddown_page]
  exact mapFrom_kernel hv (by omega) (by omega) (by omega) hperm fun x hx hxn => habsent x hx (by omega)

def pageCount (sz : ℕ) : ℕ := (sz + PGSIZE - 1) / PGSIZE

theorem pgroundup_eq (h : sz ≤ KERNBASE) : PGROUNDUP sz = pageCount sz * PGSIZE := by
  simp only [KERNBASE] at h
  simp only [PGROUNDUP, pageCount, PGSIZE]
  omega

theorem lt_pageCount : v < pageCount sz ↔ v * PGSIZE < sz := by
  simp only [pageCount, PGSIZE]
  omega

theorem pageCount_le (h : sz ≤ KERNBASE) : pageCount sz ≤ KERNBASE / PGSIZE := by
  simp only [pageCount, KERNBASE, PGSIZE] at *
  omega

def clearRange (E : ℕ → ℕ) (lo hi : ℕ) : ℕ → ℕ := fun x =>
  if lo ≤ x ∧ x < hi ∧ present (E x) = true then 0 else E x

theorem clearRange_update (E : ℕ → ℕ) (hv : v < hi) (hp : present (E v) = true) :
    clearRange (update E v 0) (v + 1) hi = clearRange E v hi := by
  funext x
  unfold clearRange
  by_cases hx : x = v
  · subst hx
    rw [if_neg (by omega), if_pos ⟨Nat.le_refl x, hv, hp⟩, update_self]
  · rw [update_of_ne hx]
    by_cases hin : v + 1 ≤ x ∧ x < hi ∧ present (E x) = true
    · rw [if_pos hin, if_pos ⟨by omega, hin.2⟩]
    · rw [if_neg hin, if_neg (fun h => hin ⟨by omega, h.2⟩)]

theorem clearRange_skip {mid : ℕ} (h : lo ≤ x → x < mid → present (E x) = false)
    (hle : lo ≤ mid) : clearRange E lo hi x = clearRange E mid hi x := by
  unfold clearRange
  by_cases hx : lo ≤ x ∧ x < mid
  · rw [if_neg (fun hc => by simp [h hx.1 hx.2] at hc), if_neg (by omega)]
  · by_cases hin : lo ≤ x ∧ x < hi ∧ present (E x) = true
    · rw [if_pos hin, if_pos ⟨by omega, hin.2⟩]
    · rw [if_neg hin, if_neg (fun hc => hin ⟨by omega, hc.2⟩)]

theorem clearRange_empty (E : ℕ → ℕ) (h : hi ≤ lo) : clearRange E lo hi = E := by
  funext x
  exact if_neg (by omega)

theorem unmap_laden (hs : Laden A H R m₀ d E M s) (hv : v < KERNBASE / PGSIZE)
    (hp : present (E v) = true) (ht : tableOf s.mem d (v / 1024) = some t) :
    Triple (fun x => x = s) (do kfree L (PTE_ADDR (E v) / PGSIZE); store t (v % 1024) 0)
      (fun _ => Laden A H R m₀ d (update E v 0) M) NoStop := by
  have hv20 : v < 2 ^ 20 := Nat.lt_trans (user_lt hv) (by decide)
  have hpage : userPage v (E v) = {PTE_ADDR (E v) / PGSIZE} := by rw [userPage, if_pos hv, pageOf, if_pos hp]
  have hne : PTE_ADDR (E v) / PGSIZE ≠ t := by
    intro h
    have huser := Multiset.one_le_count_iff_mem.mpr (mem_userPages hv hp)
    exact (hs.toOwn.aside (by omega)).2 _ (slot_lt hv20) (h ▸ ht)
  have hstored := hs.store (K := (PTE_ADDR (E v) / PGSIZE) ::ₘ H) hv20 (by decide) ht (w := 0) (by
    rw [hpage, Multiset.singleton_add, userPage, if_pos hv, pageOf, if_neg (by decide), zero_add])
  obtain ⟨bytes, hfreed⟩ := kfree_run (s := s) (A.fits _ (hs.toOwn.user_mem_frames hv hp))
  apply Triple.step hfreed
  apply store_rule
  rintro x rfl
  have hgiven := hstored.give bytes
  simp only [update_of_ne (Ne.symm hne)]
  rw [update_comm hne]
  exact hgiven

theorem deallocFrom_laden (hold : oldsz ≤ KERNBASE) (hv : v ≤ KERNBASE / PGSIZE)
    (hfuel : KERNBASE / PGSIZE - v < fuel) :
    Triple (Laden A H R m₀ d E M) (deallocFrom L d oldsz fuel (v * PGSIZE))
      (fun _ => Laden A H R m₀ d (clearRange E v (pageCount oldsz)) M) NoStop := by
  have hcount := pageCount_le hold
  induction fuel generalizing v E with
  | zero => omega
  | succ fuel ih =>
    unfold deallocFrom
    apply Triple.ite
    · intro hlt
      have hlo : v < pageCount oldsz := lt_pageCount.mpr hlt
      have hv19 := user_lt (Nat.lt_of_lt_of_le hlo hcount)
      have hv20 : v < 2 ^ 20 := by omega
      apply Triple.start
      intro s hs
      cases ht : tableOf s.mem d (v / 1024) with
      | none =>
        have hjump : ((PGADDR (PDX (v * PGSIZE) + 1) 0 0 + 2 ^ 32 - PGSIZE) % 2 ^ 32 + PGSIZE) % 2 ^ 32 =
            (v / 1024 + 1) * 1024 * PGSIZE := by
          rw [pdx_page hv20]
          simp only [PGADDR, PGSIZE]
          omega
        apply Triple.step (walk_hole hv20 ht)
        simp only [hjump]
        refine ((ih (v := (v / 1024 + 1) * 1024) ?_ ?_).here hs).post fun _ x hx => ?_
        · simp only [KERNBASE, PGSIZE] at *
          omega
        · simp only [KERNBASE, PGSIZE] at *
          omega
        · refine hx.congr fun y hy => clearRange_skip (fun hlo hhi => ?_) (by omega)
          have hslot : y / 1024 = v / 1024 := by omega
          rw [hs.toOwn.absent hy (hslot ▸ ht)]
          rfl
      | some t =>
        apply Triple.step (walk_page hv20 ht)
        apply Triple.step (load_run _ _ _)
        rw [← entryOf_some ht, hs.entries v hv20, next_page (by omega)]
        apply Triple.ite
        · intro hp
          have hpage := Frames.pos (hs.toOwn.user_mem_frames (Nat.lt_of_lt_of_le hlo hcount) hp)
          have hne : ¬ PTE_ADDR (E v) = 0 := by
            intro hzero
            rw [hzero] at hpage
            exact absurd hpage (by decide)
          rw [if_neg hne]
          have hunmap := unmap_laden hs (Nat.lt_of_lt_of_le hlo hcount) hp ht
          have hrest := ih (E := update E v 0) (v := v + 1) (by omega) (by omega)
          rw [clearRange_update E hlo hp] at hrest
          have hboth := Triple.bind hunmap fun _ => hrest
          rwa [bind_assoc] at hboth
        · intro hp
          refine ((ih (v := v + 1) (by omega) (by omega)).here hs).post fun _ x hx =>
            hx.congr fun y _ => clearRange_skip (fun hlo hhi => ?_) (by omega)
          have hyv : y = v := by omega
          rw [hyv]
          simpa using hp
    · intro hge
      have hhi : pageCount oldsz ≤ v := by
        by_contra hlt
        exact hge (lt_pageCount.mp (by omega))
      rw [clearRange_empty E hhi]
      exact Triple.pure fun s hs => hs

theorem deallocuvm_laden (hold : oldsz ≤ KERNBASE) :
    Triple (Laden A H R m₀ d E M) (deallocuvm L d oldsz newsz) (fun r s => r = min oldsz newsz ∧
      Laden A H R m₀ d (clearRange E (pageCount newsz) (pageCount oldsz)) M s) NoStop := by
  unfold deallocuvm
  apply Triple.ite
  · intro hge
    have hle : pageCount oldsz ≤ pageCount newsz := by
      simp only [pageCount, PGSIZE]
      omega
    rw [clearRange_empty E hle]
    exact Triple.pure fun s hs => ⟨by omega, hs⟩
  · intro hlt
    have hnew : newsz ≤ KERNBASE := by omega
    rw [pgroundup_eq hnew]
    refine Triple.bind (deallocFrom_laden hold (pageCount_le hnew) ?_) fun _ =>
      Triple.pure fun s hs => ⟨by omega, hs⟩
    simp only [KERNBASE, PGSIZE]
    omega

theorem deallocuvm_own (hold : oldsz ≤ KERNBASE) :
    Triple (Own A H R m₀ d E) (deallocuvm L d oldsz newsz) (fun r s => r = min oldsz newsz ∧
      Own A H R m₀ d (clearRange E (pageCount newsz) (pageCount oldsz)) s) NoStop :=
  Own.anyContents fun _ => (deallocuvm_laden hold).post fun _ _ hs => ⟨hs.1, hs.2.toOwn⟩

structure Maps (E E' : ℕ → ℕ) (lo hi : ℕ) : Prop where
  outside : ∀ x, ¬(lo ≤ x ∧ x < hi) → E' x = E x
  inside : ∀ x, lo ≤ x → x < hi → present (E' x) = true ∧ PTE_FLAGS (E' x) = PTE_W ||| PTE_U ||| PTE_P

def Alike (E E' : ℕ → ℕ) : Prop := ∀ x, E' x = E x ∨ (present (E' x) = false ∧ present (E x) = false)

theorem maps_empty (E : ℕ → ℕ) (h : hi ≤ lo) : Maps E E lo hi :=
  ⟨fun _ _ => rfl, fun x hlo hhi => by omega⟩

theorem Maps.extend (h : Maps E E' lo v) (hlo : lo ≤ v) :
    Maps E (update E' v (q * PGSIZE ||| (PTE_W ||| PTE_U) ||| PTE_P)) lo (v + 1) := by
  have hperm : PTE_W ||| PTE_U < PGSIZE := by decide
  refine ⟨fun x hx => ?_, fun x hlox hx => ?_⟩
  · rw [update_of_ne (by omega)]
    exact h.outside x (by omega)
  · by_cases hxv : x = v
    · rw [hxv, update_self]
      exact ⟨present_entry q hperm, entry_flags q hperm⟩
    · rw [update_of_ne hxv]
      exact h.inside x hlox (by omega)

theorem Maps.undo (h : Maps E E' lo v) (hv : v ≤ hi)
    (habsent : ∀ x, lo ≤ x → x < hi → present (E x) = false) : Alike E (clearRange E' lo hi) := by
  intro x
  unfold clearRange
  by_cases hin : lo ≤ x ∧ x < hi
  · refine .inr ⟨?_, habsent x hin.1 hin.2⟩
    split_ifs with hc
    · rfl
    · simpa [hin.1, hin.2] using hc
  · rw [if_neg (fun hc => hin ⟨hc.1, hc.2.1⟩), h.outside x (by omega)]
    exact .inl rfl

structure Grown (F E : ℕ → ℕ) (M₀ M : ℕ → Bytes) (lo hi : ℕ) : Prop where
  kept : ∀ p ∈ userPages F, M p = M₀ p
  zero : ∀ x, lo ≤ x → x < hi → M (PTE_ADDR (E x) / PGSIZE) = fun _ => 0

theorem Maps.pages (h : Maps F E lo v) (hv : v ≤ hi)
    (habsent : ∀ x, lo ≤ x → x < hi → present (F x) = false) {p : ℕ} (hp : p ∈ userPages F) : p ∈ userPages E := by
  obtain ⟨x, hx, hpresent, rfl⟩ := userPages_mem.mp hp
  have hout : ¬(lo ≤ x ∧ x < v) := by
    intro hin
    rw [habsent x hin.1 (by omega)] at hpresent
    cases hpresent
  rw [← h.outside x hout] at hpresent ⊢
  exact mem_userPages hx hpresent

theorem Grown.extend (h : Grown F E M₀ M lo v)
    (hmaps : Maps F E lo v) (hv : v < KERNBASE / PGSIZE) (hF : ∀ p ∈ userPages F, p ∈ userPages E)
    (hs : Own A (q ::ₘ H) R m₀ d E s) : Grown F (update E v (q * PGSIZE ||| (PTE_W ||| PTE_U) ||| PTE_P)) M₀
      (update M q fun _ => 0) lo (v + 1) := by
  have hne {p : ℕ} (hp : p ∈ userPages E) : p ≠ q :=
    ne_of_mem_of_not_mem (Multiset.mem_add.mpr (.inl hp)) hs.fresh
  refine ⟨fun p hp => ?_, fun x hlo hx => ?_⟩
  · rw [update_of_ne (hne (hF p hp))]
    exact h.kept p hp
  · by_cases hxv : x = v
    · rw [hxv, update_self, entry_page q (by decide), update_self]
    · have hpresent := (hmaps.inside x hlo (by omega)).1
      rw [update_of_ne hxv, update_of_ne (hne (mem_userPages (by omega) hpresent))]
      exact h.zero x hlo (by omega)

theorem Maps.card (h : Maps F E lo hi) : (userPages E).card ≤ (userPages F).card + (hi - lo) := by
  have hpage (v : ℕ) : (pageOf (E v)).card ≤ (pageOf (F v)).card + if lo ≤ v ∧ v < hi then 1 else 0 := by
    split_ifs with hin
    · unfold pageOf
      split_ifs <;> simp
    · rw [h.outside v hin, Nat.add_zero]
  simp only [userPages, sumBelow, Multiset.card_sum]
  refine Nat.le_trans (Finset.sum_le_sum fun v _ => hpage v) ?_
  rw [Finset.sum_add_distrib, ← Finset.card_filter, ← Nat.card_Ico]
  refine Nat.add_le_add_left (Finset.card_le_card fun v hv => ?_) _
  exact Finset.mem_Ico.mpr (Finset.mem_filter.mp hv).2

theorem allocFrom_laden (hnew : newsz < KERNBASE)
    (hlo : pageCount oldsz ≤ v) (hhi : v ≤ pageCount newsz) (hfuel : KERNBASE / PGSIZE - v < fuel)
    (hmaps : Maps F E (pageCount oldsz) v) (hgrown : Grown F E M₀ M (pageCount oldsz) v)
    (habsent : ∀ x, pageCount oldsz ≤ x → x < pageCount newsz → present (F x) = false) :
    Triple (Laden A H R m₀ d E M) (allocFrom L d oldsz newsz fuel (v * PGSIZE))
      (fun r s => (r = newsz ∧ ∃ E' M', Laden A H R m₀ d E' M' s ∧ Maps F E' (pageCount oldsz) (pageCount newsz) ∧
          Grown F E' M₀ M' (pageCount oldsz) (pageCount newsz)) ∨
        (r = 0 ∧ ∃ E' M', Laden A H R m₀ d E' M' s ∧ Alike F E' ∧ (∀ p ∈ userPages F, M' p = M₀ p) ∧
          Scarce A (need F H R + (pageCount newsz - pageCount oldsz)))) NoStop := by
  have hcount := pageCount_le (Nat.le_of_lt hnew)
  induction fuel generalizing v E M with
  | zero => omega
  | succ fuel ih =>
    unfold allocFrom
    apply Triple.ite
    · intro hlt
      have hvhi : v < pageCount newsz := lt_pageCount.mpr hlt
      have hvtop := Nat.lt_of_lt_of_le hvhi hcount
      have hv19 := user_lt hvtop
      have hnext : present (E v) = false := by
        rw [hmaps.outside v (by omega)]
        exact habsent v hlo hvhi
      have hundo := hmaps.undo hhi habsent
      have hcard := hmaps.card
      apply Triple.bind kalloc_laden
      rintro (_ | mem)
      · apply Triple.known (fun s hs => hs.2)
        intro hscarce
        refine Triple.bind ((deallocuvm_laden (Nat.le_of_lt hnew)).pre fun s hs => hs.1) fun _ =>
          Triple.pure fun s hs => ?_
        refine .inr ⟨rfl, _, _, hs.2, hundo, hgrown.kept, fun hc => Nat.le_trans (hscarce hc) ?_⟩
        simp only [need]
        omega
      · simp only [Option.elim_some]
        apply Triple.start
        rintro s ⟨bytes, hs⟩
        have hgrown' := hgrown.extend hmaps hvtop (fun p => hmaps.pages hhi habsent) hs.toOwn
        apply Triple.step (fill_run _ _ _)
        apply Triple.bind ((mappages_laden hvtop hnext (by decide)).here (hs.refill _))
        rintro (_ | _)
        · simp only [Bool.false_eq_true, ↓reduceIte]
          apply Triple.known (fun s hs => hs.2)
          intro hscarce
          refine Triple.bind ((deallocuvm_laden (Nat.le_of_lt hnew)).pre fun s hs => hs.1) fun _ => ?_
          refine Triple.bind ((kfree_laden (H := H)).pre fun s hs => hs.2) fun _ => Triple.pure fun s hs => ?_
          refine .inr ⟨rfl, _, _, hs, hundo, hgrown'.kept, fun hc => Nat.le_trans (hscarce hc) ?_⟩
          simp only [need, Multiset.card_cons]
          omega
        · simp only [↓reduceIte]
          rw [next_page (by omega)]
          exact ih (by omega) (by omega) (by omega) (hmaps.extend hlo) hgrown'
    · intro hge
      have hvhi : v = pageCount newsz := by
        have : ¬ v < pageCount newsz := fun h => hge (lt_pageCount.mp h)
        omega
      subst hvhi
      exact Triple.pure fun s hs => .inl ⟨rfl, E, M, hs, hmaps, hgrown⟩

theorem allocuvm_laden (hold : oldsz ≤ KERNBASE)
    (habsent : newsz < KERNBASE → ∀ x, pageCount oldsz ≤ x → x < pageCount newsz → present (E x) = false) :
    Triple (Laden A H R m₀ d E M) (allocuvm L d oldsz newsz)
      (fun r s => (r = newsz ∧ oldsz ≤ newsz ∧ newsz < KERNBASE ∧ ∃ E' M', Laden A H R m₀ d E' M' s ∧
          Maps E E' (pageCount oldsz) (pageCount newsz) ∧ Grown E E' M M' (pageCount oldsz) (pageCount newsz)) ∨
        (r = oldsz ∧ newsz < oldsz ∧ newsz < KERNBASE ∧ Laden A H R m₀ d E M s) ∨
        (r = 0 ∧ ∃ E' M', Laden A H R m₀ d E' M' s ∧ Alike E E' ∧ (∀ p ∈ userPages E, M' p = M p) ∧
          (newsz < KERNBASE → Scarce A (need E H R + (pageCount newsz - pageCount oldsz))))) NoStop := by
  unfold allocuvm
  apply Triple.ite
  · intro hbig
    exact Triple.pure fun s hs => .inr (.inr ⟨rfl, E, M, hs, fun x => .inl rfl,
      fun _ _ => rfl, fun hnew => by omega⟩)
  · intro hbig
    apply Triple.ite
    · intro hless
      exact Triple.pure fun s hs => .inr (.inl ⟨rfl, hless, by omega, hs⟩)
    · intro hge
      have hle : pageCount oldsz ≤ pageCount newsz := by
        simp only [pageCount, PGSIZE]
        omega
      rw [pgroundup_eq hold]
      refine Triple.post (allocFrom_laden (F := E) (by omega) (Nat.le_refl _) hle ?_
        (maps_empty E (Nat.le_refl _)) ⟨fun _ _ => rfl, fun x hlo hhi => by omega⟩ (habsent (by omega))) ?_
      · simp only [KERNBASE, PGSIZE]
        omega
      · rintro r s (⟨hr, hs⟩ | hs)
        · exact .inl ⟨hr, by omega, by omega, hs⟩
        · obtain ⟨hr, E', M', hs, halike, hkept, hscarce⟩ := hs
          exact .inr (.inr ⟨hr, E', M', hs, halike, hkept, fun _ => hscarce⟩)

theorem allocuvm_own (hold : oldsz ≤ KERNBASE)
    (habsent : newsz < KERNBASE → ∀ x, pageCount oldsz ≤ x → x < pageCount newsz → present (E x) = false) :
    Triple (Own A H R m₀ d E) (allocuvm L d oldsz newsz)
      (fun r s => (r = newsz ∧ oldsz ≤ newsz ∧ newsz < KERNBASE ∧
          ∃ E', Own A H R m₀ d E' s ∧ Maps E E' (pageCount oldsz) (pageCount newsz)) ∨
        (r = oldsz ∧ newsz < oldsz ∧ newsz < KERNBASE ∧ Own A H R m₀ d E s) ∨
        (r = 0 ∧ ∃ E', Own A H R m₀ d E' s ∧ Alike E E' ∧
          (newsz < KERNBASE → Scarce A (need E H R + (pageCount newsz - pageCount oldsz))))) NoStop := by
  refine Own.anyContents fun _ => (allocuvm_laden hold habsent).post ?_
  rintro r s (⟨hr, hle, hnew, E', M', hs, hmaps, _⟩ | ⟨hr, hlt, hnew, hs⟩ | ⟨hr, E', M', hs, halike, _, hscarce⟩)
  · exact .inl ⟨hr, hle, hnew, E', hs.toOwn, hmaps⟩
  · exact .inr (.inl ⟨hr, hlt, hnew, hs.toOwn⟩)
  · exact .inr (.inr ⟨hr, E', hs.toOwn, halike, hscarce⟩)

structure Freeing (A : Frames L) (H R : Multiset ℕ) (m₀ : ℕ → Bytes) (d : ℕ) (T : ℕ → Option ℕ) (is : List ℕ)
    (s : Machine) : Prop where
  tables : tableOf s.mem d = T
  pages : (s.freelist : Multiset ℕ) + ({d} + (is.map fun i => (T i).elim 0 fun t => ({t} : Multiset ℕ)).sum) +
    H + R = A.pages
  frame : ∀ p ∈ R, s.mem p = m₀ p
  calm : A.calm → s.fails = []

theorem freeTables_freeing {T : ℕ → Option ℕ} (is : List ℕ) : Triple (Freeing A H R m₀ d T is) (freeTables L d is)
    (fun _ => Freeing A H R m₀ d T []) NoStop := by
  induction is with
  | nil => exact Triple.pure fun s hs => hs
  | cons i is ih =>
    apply Triple.bind (R := fun pde s => Freeing A H R m₀ d T (i :: is) s ∧
      T i = if present pde then some (PTE_ADDR pde / PGSIZE) else none)
    · refine load_rule fun s hs => ⟨hs, ?_⟩
      rw [← hs.tables, tableOf]
    · intro pde
      apply Triple.known (fun s hs => hs.2)
      intro hT
      apply Triple.ite
      · intro hp
        rw [if_pos hp] at hT
        refine Triple.bind (kfree_rule (fun s hs => ?_) fun s bytes hs => ?_) fun _ => ih
        · apply A.fits
          rw [← hs.1.pages]
          simp [hT]
        · have hpages := hs.1.pages
          have hnodup := A.nodup
          simp only [List.map_cons, List.sum_cons, hT, Option.elim_some] at hpages
          rw [← hpages] at hnodup
          have hcount := fun p => Multiset.nodup_iff_count_le_one.mp hnodup p
          simp only [Multiset.count_add] at hcount
          have hne : PTE_ADDR pde / PGSIZE ≠ d := by
            intro h
            have := hcount d
            rw [h, count_self] at this
            omega
          refine ⟨?_, ?_, fun p hpR => ?_, hs.1.calm⟩
          · rw [← hs.1.tables]
            exact funext (tableOf_congr (update_of_ne hne.symm _ _))
          · rw [← hpages, ← Multiset.cons_coe, ← Multiset.singleton_add]
            simp only [add_assoc, add_comm, add_left_comm]
          · rw [← hs.1.frame p hpR]
            refine update_of_ne ?_ _ _
            rintro rfl
            have := hcount (PTE_ADDR pde / PGSIZE)
            have hR := Multiset.one_le_count_iff_mem.mpr hpR
            rw [count_self] at this
            omega
      · intro hp
        rw [if_neg hp] at hT
        refine ih.pre fun s hs => ⟨hs.1.tables, ?_, hs.1.frame, hs.1.calm⟩
        have hpages := hs.1.pages
        simpa [hT] using hpages

theorem userPages_zero (h : ∀ v < KERNBASE / PGSIZE, present (E v) = false) : userPages E = 0 :=
  sumBelow_zero fun v hv => by rw [pageOf, if_neg (by rw [h v hv]; decide)]

theorem pageCount_kernbase : pageCount KERNBASE = KERNBASE / PGSIZE := by decide

theorem freevm_own : Triple (Own A H R m₀ d E) (freevm L d) (fun _ => Heap A H R m₀) NoStop := by
  unfold freevm
  -- the list of indices stays a variable: nothing here may unfold a loop of 1024 rounds
  generalize his : List.range NPDENTRIES = is
  apply Triple.bind (deallocuvm_own (Nat.le_refl _))
  intro _
  apply Triple.start
  rintro s ⟨_, hs⟩
  have hzero : userPages (clearRange E (pageCount 0) (pageCount KERNBASE)) = 0 := by
    refine userPages_zero fun v hv => ?_
    rw [pageCount_kernbase]
    unfold clearRange
    split_ifs with hc
    · rfl
    · have h0 : pageCount 0 ≤ v := Nat.zero_le v
      simpa [h0, hv] using hc
  have hpages := hs.pages
  rw [hzero, add_zero, tablePages, sumBelow_list, his] at hpages
  have hstart : Freeing A H R m₀ d (tableOf s.mem d) is s := ⟨rfl, hpages, hs.frame, hs.calm⟩
  refine Triple.bind ((freeTables_freeing is).here hstart) fun _ =>
    kfree_rule (fun x hx => ?_) fun x bytes hx => ⟨?_, fun p hp => ?_, hx.calm⟩
  · apply A.fits
    rw [← hx.pages]
    simp
  · have hend := hx.pages
    rw [List.map_nil, List.sum_nil, add_zero] at hend
    rw [← hend, ← Multiset.cons_coe, ← Multiset.singleton_add, add_comm ({d} : Multiset ℕ)]
  · rw [← hx.frame p hp]
    refine update_of_ne ?_ _ _
    rintro rfl
    have hnodup := A.nodup
    rw [← hx.pages] at hnodup
    have hcount := Multiset.nodup_iff_count_le_one.mp hnodup p
    have hR := Multiset.one_le_count_iff_mem.mpr hp
    simp only [Multiset.count_add, count_self] at hcount
    omega

theorem Heap.start {m : Machine} (hpages : (m.freelist : Multiset ℕ) = A.pages) (hcalm : A.calm → m.fails = []) :
    Heap A 0 0 (fun _ _ => 0) m :=
  ⟨by rw [add_zero, add_zero, hpages], fun _ hp => absurd hp (Multiset.notMem_zero _), hcalm⟩

theorem kalloc_heap : Triple (Heap A H R m₀) kalloc (fun r s =>
    r.elim (Heap A H R m₀ s ∧ Scarce A (H.card + R.card)) fun page => Heap A (page ::ₘ H) R m₀ s) NoStop := by
  refine kalloc_rule (fun s h hf => ⟨⟨h.pages, h.frame, fun hc => by simp [h.calm hc]⟩, fun hc => ?_⟩)
    fun s page rest h hs => ⟨?_, h.frame, fun hc => by simp [h.calm hc]⟩
  · rw [← h.pages, hf.resolve_right (not_not.mpr (h.calm hc))]
    simp
  · have hpages := h.pages
    rw [hs, ← Multiset.cons_coe, Multiset.cons_add, Multiset.cons_add] at hpages
    rw [← hpages, Multiset.add_cons, Multiset.cons_add]

theorem kfree_heap : Triple (Heap A (page ::ₘ H) R m₀) (kfree L page) (fun _ => Heap A H R m₀) NoStop := by
  refine kfree_rule (fun s h => A.fits page ?_) fun s bytes h => ⟨?_, fun p hp => ?_, h.calm⟩
  · rw [← h.pages]
    simp
  · rw [← h.pages, ← Multiset.cons_coe, Multiset.add_cons, Multiset.cons_add, Multiset.cons_add]
  · rw [← h.frame p hp]
    refine update_of_ne ?_ _ _
    rintro rfl
    have hnodup := A.nodup
    rw [← h.pages] at hnodup
    have hcount := Multiset.nodup_iff_count_le_one.mp hnodup p
    have hR := Multiset.one_le_count_iff_mem.mpr hp
    rw [Multiset.count_add, Multiset.count_add, Multiset.count_cons_self] at hcount
    omega

theorem Heap.directory (h : Heap A (d ::ₘ H) R m₀ s) :
    Own A H R m₀ d (fun _ => 0) { s with mem := update s.mem d fun _ => 0 } := by
  have hnone (i : ℕ) : tableOf (update s.mem d fun _ => 0) d i = none := by
    rw [tableOf, update_self, get32_zero]
    rfl
  have htables : tablePages (tableOf (update s.mem d fun _ => 0) d) = 0 :=
    sumBelow_zero fun i _ => by rw [hnone, Option.elim_none]
  refine ⟨fun v _ => entryOf_none (hnone _), ?_, fun p hp => ?_, h.calm⟩
  · rw [htables, userPages_zero (fun _ _ => rfl), ← h.pages, add_zero, add_zero, ← Multiset.singleton_add]
    simp only [add_assoc]
  · rw [← h.frame p hp]
    refine update_of_ne ?_ _ _
    rintro rfl
    have hnodup := A.nodup
    rw [← h.pages] at hnodup
    have hcount := Multiset.nodup_iff_count_le_one.mp hnodup p
    have hR := Multiset.one_le_count_iff_mem.mpr hp
    rw [Multiset.count_add, Multiset.count_add, Multiset.count_cons_self] at hcount
    omega

structure Kmap.Spans (k : Kmap) (v n q : ℕ) : Prop where
  virt : k.virt = v * PGSIZE
  size : (k.physEnd + 2 ^ 32 - k.physStart) % 2 ^ 32 = n * PGSIZE
  phys : k.physStart = q * PGSIZE
  perm : k.perm < PGSIZE
  some : 0 < n
  top : v + n ≤ 2 ^ 20
  physTop : q + n ≤ 2 ^ 20

def Ascending : ℕ → List Kmap → Prop
  | _, [] => True
  | lo, k :: ks => ∃ v n q, k.Spans v n q ∧ lo ≤ v ∧ Ascending (v + n) ks

theorem kmap_ascending (L : Layout) : Ascending (KERNBASE / PGSIZE) (kmap L) := by
  have haligned := L.aligned
  have htext := L.text
  have hfits := L.fits
  simp only [PGSIZE, KERNLINK, KERNBASE, EXTMEM, PHYSTOP] at haligned htext hfits
  refine ⟨KERNBASE / PGSIZE, EXTMEM / PGSIZE, 0, ⟨?_, ?_, ?_, ?_, ?_, ?_, ?_⟩, ?_,
    KERNLINK / PGSIZE, L.data / PGSIZE - KERNLINK / PGSIZE, EXTMEM / PGSIZE, ⟨?_, ?_, ?_, ?_, ?_, ?_, ?_⟩, ?_,
    L.data / PGSIZE, (KERNBASE + PHYSTOP) / PGSIZE - L.data / PGSIZE, V2P L.data / PGSIZE,
      ⟨?_, ?_, ?_, ?_, ?_, ?_, ?_⟩, ?_,
    DEVSPACE / PGSIZE, 2 ^ 20 - DEVSPACE / PGSIZE, DEVSPACE / PGSIZE, ⟨?_, ?_, ?_, ?_, ?_, ?_, ?_⟩, ?_, trivial⟩
  all_goals
    simp only [PGSIZE, KERNLINK, KERNBASE, EXTMEM, PHYSTOP, DEVSPACE, PTE_W, V2P] <;> omega

def Kmap.map (E : ℕ → ℕ) (k : Kmap) : ℕ → ℕ :=
  mapRange E (k.virt / PGSIZE) ((k.physEnd + 2 ^ 32 - k.physStart) % 2 ^ 32 / PGSIZE) (k.physStart / PGSIZE) k.perm

theorem Kmap.Spans.map_eq {k : Kmap} (hk : k.Spans v n q) (E : ℕ → ℕ) :
    k.map E = mapRange E v n q k.perm := by
  rw [Kmap.map, hk.virt, hk.size, hk.phys, Nat.mul_div_cancel _ (by decide), Nat.mul_div_cancel _ (by decide),
    Nat.mul_div_cancel _ (by decide)]

theorem mapKernel_own (hlo : KERNBASE / PGSIZE ≤ lo) (hks : Ascending lo ks)
    (habsent : ∀ x, lo ≤ x → present (E x) = false) : Triple (Own A H R m₀ d E) (mapKernel d ks)
      (fun ok s => if ok then Own A H R m₀ d (ks.foldl Kmap.map E) s
        else Scarce A (need E H R) ∧ ∃ E', Own A H R m₀ d E' s) NoStop := by
  induction ks generalizing lo E with
  | nil => exact Triple.pure fun s hs => hs
  | cons k ks ih =>
    obtain ⟨v, n, q, hk, hv, hrest⟩ := hks
    unfold mapKernel
    rw [List.foldl_cons, hk.map_eq, hk.virt, hk.size, hk.phys]
    apply Triple.bind (mappages_kernel (by omega) hk.some hk.top hk.physTop hk.perm
      fun x hx _ => habsent x (by omega))
    rintro (_ | _)
    · refine Triple.pure fun s hs => ?_
      obtain ⟨hf, E', hs, _⟩ := hs
      exact ⟨hf, E', hs⟩
    · simp only [↓reduceIte]
      have hsame : ∀ x, ¬(v ≤ x ∧ x < v + n) → mapRange E v n q k.perm x = E x := fun x hx => if_neg hx
      have husers : userPages (mapRange E v n q k.perm) = userPages E :=
        sumBelow_congr fun x hx => by rw [hsame x (by omega)]
      have hloop := ih (E := mapRange E v n q k.perm) (by omega) hrest fun x hx => by
        rw [hsame x (by omega)]
        exact habsent x (by omega)
      rw [need, husers, ← need] at hloop
      exact hloop

def kernelEntries (L : Layout) : ℕ → ℕ := (kmap L).foldl Kmap.map fun _ => 0

theorem mapRange_or (hE : P (E x))
    (hw : v ≤ x → x < v + n → P ((q + (x - v)) * PGSIZE ||| perm ||| PTE_P)) : P (mapRange E v n q perm x) := by
  unfold mapRange
  split_ifs with h
  · exact hw h.1 h.2
  · exact hE

theorem ascending_foldl (hks : Ascending lo ks) (hE : P (E x))
    (hk : ∀ k ∈ ks, lo ≤ x → ∀ q, P (q * PGSIZE ||| k.perm ||| PTE_P)) : P (ks.foldl Kmap.map E x) := by
  induction ks generalizing lo E with
  | nil => exact hE
  | cons k ks ih =>
    obtain ⟨v, n, q, hspan, hv, hrest⟩ := hks
    rw [List.foldl_cons, hspan.map_eq]
    refine ih hrest ?_ fun k' hk' hlo => hk k' (List.mem_cons_of_mem k hk') (by omega)
    exact mapRange_or hE fun hx _ => hk k List.mem_cons_self (by omega) _

theorem kernelEntries_user (hx : x < KERNBASE / PGSIZE) : kernelEntries L x = 0 :=
  ascending_foldl (P := fun w => w = 0) (kmap_ascending L) rfl fun _ _ hlo => by omega

theorem and_user (w : ℕ) : w &&& PTE_U = 0 ↔ w / 4 % 2 = 0 := by
  have hdiv : (w &&& PTE_U) / 4 = w / 4 % 2 := by
    have h := Nat.and_div_two_pow (a := w) (b := PTE_U) (n := 2)
    rwa [show PTE_U / 2 ^ 2 = 1 from rfl, Nat.and_one_is_mod] at h
  have hmod : (w &&& PTE_U) % 4 = 0 := by
    have h := Nat.and_mod_two_pow (a := w) (b := PTE_U) (n := 2)
    rwa [show PTE_U % 2 ^ 2 = 0 from rfl, Nat.and_zero] at h
  omega

theorem kernelEntries_supervisor (L : Layout) (x : ℕ) : kernelEntries L x &&& PTE_U = 0 := by
  refine ascending_foldl (P := fun w => w &&& PTE_U = 0) (kmap_ascending L) rfl fun k hk _ q => ?_
  have hperm : k.perm = PTE_W ∨ k.perm = 0 := by
    simp only [kmap, List.mem_cons, List.not_mem_nil, or_false] at hk
    obtain rfl | rfl | rfl | rfl := hk <;> simp
  rw [and_user]
  obtain hp | hp := hperm <;> rw [hp, (entry_eq q (by decide)).1] <;> simp only [PTE_W,
    PTE_P, PGSIZE, Nat.reduceOr] <;>
    omega

theorem setupkvm_heap : Triple (Heap A H R m₀) (setupkvm L) (fun r s =>
    r.elim (Heap A H R m₀ s ∧ Scarce A (1 + NPDENTRIES + H.card + R.card)) fun d =>
      Own A H R m₀ d (kernelEntries L) s) NoStop := by
  apply Triple.bind kalloc_heap
  rintro (_ | d)
  · exact Triple.pure fun s hs => ⟨hs.1, fun hc => Nat.le_trans (hs.2 hc) (by omega)⟩
  · apply Triple.bind (R := fun _ => Own A H R m₀ d fun _ => 0)
    · exact fill_rule fun s hs => hs.directory
    · intro _
      apply Triple.bind (mapKernel_own (Nat.le_refl _) (kmap_ascending L) fun _ _ => rfl)
      rintro (_ | _)
      · apply Triple.known (fun s hs => hs.1)
        intro hf
        rw [need, userPages_zero (fun _ _ => rfl), Multiset.card_zero, Nat.add_zero] at hf
        refine Triple.bind (Triple.start fun s hs => ?_) fun _ => Triple.pure fun s hs => ⟨hs, hf⟩
        obtain ⟨_, E, hs⟩ := hs
        exact freevm_own.here hs
      · exact Triple.pure fun s hs => hs

structure Framed (R : Multiset ℕ) (m₀ : ℕ → Bytes) (src : ℕ) : Prop where
  dir : src ∈ R
  tables : ∀ i < NPDENTRIES, ∀ t, tableOf m₀ src i = some t → t ∈ R

theorem Framed.entry (h : Framed R m₀ src) (hframe : ∀ p ∈ R, s.mem p = m₀ p)
    (hv : v < 2 ^ 20) (ht : tableOf s.mem src (v / 1024) = some t) :
    get32 (s.mem t) (4 * (v % 1024)) = entryOf m₀ src v := by
  have ht' : tableOf m₀ src (v / 1024) = some t := (tableOf_congr (hframe src h.dir) _).symm.trans ht
  rw [entryOf_some ht', hframe t (h.tables _ (slot_lt hv) t ht')]

def Filled (E : ℕ → ℕ) (n : ℕ) : Prop := ∀ x < KERNBASE / PGSIZE, present (E x) = decide (x < n)

theorem Filled.extend (h : Filled E v) (hperm : perm < PGSIZE) :
    Filled (update E v (q * PGSIZE ||| perm ||| PTE_P)) (v + 1) := by
  intro x hx
  by_cases hxv : x = v
  · rw [hxv, update_self, present_entry q hperm]
    simp
  · rw [update_of_ne hxv, h x hx]
    congr 1
    simp only [eq_iff_iff]
    omega

structure Duplicates (R : Multiset ℕ) (m₀ : ℕ → Bytes) (F E₀ E : ℕ → ℕ) (M : ℕ → Bytes) (n : ℕ) : Prop where
  flags : ∀ x < n, PTE_FLAGS (E x) = PTE_FLAGS (F x)
  bytes : ∀ x < n, PTE_ADDR (F x) / PGSIZE ∈ R → M (PTE_ADDR (E x) / PGSIZE) = m₀ (PTE_ADDR (F x) / PGSIZE)
  rest : ∀ x, n ≤ x → E x = E₀ x

theorem flags_present (h : present w = true) : PTE_FLAGS w ||| PTE_P = PTE_FLAGS w := by
  rw [present_eq, decide_eq_true_eq] at h
  have hodd : PTE_FLAGS w % 2 = 1 := by
    simp only [PTE_FLAGS, PGSIZE]
    omega
  generalize PTE_FLAGS w = x at hodd
  apply Nat.eq_of_testBit_eq
  intro i
  rw [Nat.testBit_or]
  cases i with
  | zero => simp [Nat.testBit_zero, hodd, PTE_P]
  | succ i => simp [Nat.testBit_succ, PTE_P]

theorem Duplicates.extend {bytes : Bytes} (h : Duplicates R m₀ F E₀ E M v)
    (hfilled : Filled E v) (hv : v < KERNBASE / PGSIZE) (hF : present (F v) = true)
    (hbytes : PTE_ADDR (F v) / PGSIZE ∈ R → bytes = m₀ (PTE_ADDR (F v) / PGSIZE))
    (hs : Own A (q ::ₘ H) R m₀ d E s) :
    Duplicates R m₀ F E₀ (update E v (q * PGSIZE ||| PTE_FLAGS (F v) ||| PTE_P)) (update M q bytes)
      (v + 1) := by
  have hperm : PTE_FLAGS (F v) < PGSIZE := Nat.mod_lt _ (by decide)
  refine ⟨fun x hx => ?_, fun x hx hR => ?_, fun x hx => ?_⟩
  · by_cases hxv : x = v
    · rw [hxv, update_self, entry_flags q hperm, flags_present hF]
    · rw [update_of_ne hxv]
      exact h.flags x (by omega)
  · by_cases hxv : x = v
    · subst hxv
      rw [update_self, entry_page q hperm, update_self]
      exact hbytes hR
    · have hpresent : present (E x) = true := by rw [hfilled x (by omega), decide_eq_true (by omega)]
      have hne : PTE_ADDR (E x) / PGSIZE ≠ q :=
        ne_of_mem_of_not_mem (Multiset.mem_add.mpr (.inl (mem_userPages (by omega) hpresent))) hs.fresh
      rw [update_of_ne hxv, update_of_ne hne]
      exact h.bytes x (by omega) hR
  · rw [update_of_ne (by omega)]
    exact h.rest x (by omega)

def copyNeed (n k : ℕ) : ℕ := 2 + NPDENTRIES + n + k

theorem card_userPages (h : Filled E n) (hn : n ≤ KERNBASE / PGSIZE) : (userPages E).card = n := by
  have hpage (v : ℕ) (hv : v < KERNBASE / PGSIZE) : (pageOf (E v)).card = if v < n then 1 else 0 := by
    rw [pageOf, h v hv]
    by_cases hvn : v < n <;> simp [hvn]
  rw [userPages, sumBelow, Multiset.card_sum, Finset.sum_congr rfl fun v hv => hpage v (Finset.mem_range.mp hv),
    ← Finset.card_filter]
  have hfilter : (Finset.range (KERNBASE / PGSIZE)).filter (fun v => v < n) = Finset.range n := by
    ext v
    simp only [Finset.mem_filter, Finset.mem_range]
    omega
  rw [hfilter, Finset.card_range]

theorem copyFrom_laden (hsrc : Framed R m₀ src) (hsz : sz ≤ KERNBASE)
    (hpresent : ∀ x < pageCount sz, present (entryOf m₀ src x) = true) (hv : v ≤ pageCount sz)
    (hfuel : KERNBASE / PGSIZE - v < fuel) (hfilled : Filled E v)
    (hdup : Duplicates R m₀ (entryOf m₀ src) E₀ E M v) :
    Triple (Laden A H R m₀ d E M) (copyFrom L src d sz fuel (v * PGSIZE))
      (fun ok s => ∃ E' M', Laden A H R m₀ d E' M' s ∧ if ok then Filled E' (pageCount sz) ∧
        Duplicates R m₀ (entryOf m₀ src) E₀ E' M' (pageCount sz)
        else Scarce A (copyNeed (pageCount sz) (H.card + R.card))) NoStop := by
  have hcount := pageCount_le hsz
  induction fuel generalizing v E M with
  | zero => omega
  | succ fuel ih =>
    unfold copyFrom
    apply Triple.ite
    · intro hlt
      have hvhi : v < pageCount sz := lt_pageCount.mpr hlt
      have hvtop := Nat.lt_of_lt_of_le hvhi hcount
      have hv19 := user_lt hvtop
      have hcard := card_userPages hfilled (Nat.le_of_lt hvtop)
      apply Triple.start
      intro s hs
      cases ht : tableOf s.mem src (v / 1024) with
      | none =>
        have hp := hpresent v hvhi
        rw [entryOf_none ((tableOf_congr (hs.frame src hsrc.dir) _).symm.trans ht)] at hp
        exact absurd hp (by decide)
      | some t =>
        apply Triple.step (walk_page (by omega) ht)
        apply Triple.step (load_run _ _ _)
        rw [hsrc.entry hs.frame (by omega) ht, if_neg (by rw [hpresent v hvhi]; decide)]
        apply Triple.bind (kalloc_laden.here hs)
        rintro (_ | mem)
        · refine Triple.pure fun x hx => ⟨E, M, hx.1, fun hc => Nat.le_trans (hx.2 hc) ?_⟩
          rw [need, copyNeed, hcard]
          omega
        · simp only [Option.elim_some]
          apply Triple.get
          rintro x ⟨bytes, hx⟩
          generalize hcopy : x.mem (PTE_ADDR (entryOf m₀ src v) / PGSIZE) = copy
          have hbytes : PTE_ADDR (entryOf m₀ src v) / PGSIZE ∈ R →
              copy = m₀ (PTE_ADDR (entryOf m₀ src v) / PGSIZE) := fun hR => hcopy ▸ hx.frame _ hR
          have hdup' := hdup.extend hfilled hvtop (hpresent v hvhi) hbytes hx.toOwn
          have hperm : PTE_FLAGS (entryOf m₀ src v) < PGSIZE := Nat.mod_lt _ (by decide)
          have hnext : present (E v) = false := by simpa using hfilled v hvtop
          apply Triple.step (fill_run _ _ _)
          apply Triple.bind ((mappages_laden hvtop hnext hperm).here (hx.refill copy))
          rintro (_ | _)
          · simp only [Bool.false_eq_true, ↓reduceIte]
            apply Triple.known (fun y hy => hy.2)
            intro hscarce
            refine Triple.bind (kfree_laden.pre fun y hy => hy.1) fun _ =>
              Triple.pure fun y hy => ⟨E, _, hy, fun hc => Nat.le_trans (hscarce hc) ?_⟩
            rw [need, copyNeed, hcard, Multiset.card_cons]
            omega
          · simp only [↓reduceIte]
            rw [next_page (by omega)]
            exact ih (by omega) (by omega) (hfilled.extend hperm) hdup'
    · intro hge
      have hvhi : v = pageCount sz := by
        have : ¬ v < pageCount sz := fun h => hge (lt_pageCount.mp h)
        omega
      subst hvhi
      exact Triple.pure fun s hs => ⟨E, M, hs, hfilled, hdup⟩

theorem copyuvm_laden (hsrc : Framed R m₀ src) (hsz : sz ≤ KERNBASE)
    (hpresent : ∀ x < pageCount sz, present (entryOf m₀ src x) = true) :
    Triple (Heap A H R m₀) (copyuvm L src sz) (fun r s => r.elim (Heap A H R m₀ s ∧
      Scarce A (copyNeed (pageCount sz) (H.card + R.card))) fun d =>
      ∃ E M, Laden A H R m₀ d E M s ∧ Filled E (pageCount sz) ∧
        Duplicates R m₀ (entryOf m₀ src) (kernelEntries L) E M (pageCount sz)) NoStop := by
  apply Triple.bind setupkvm_heap
  rintro (_ | d)
  · refine Triple.pure fun s hs => ⟨hs.1, fun hc => Nat.le_trans (hs.2 hc) ?_⟩
    rw [copyNeed]
    omega
  · apply Triple.start
    intro s hs
    have hfilled : Filled (kernelEntries L) 0 := by
      intro x hx
      rw [kernelEntries_user hx]
      rfl
    have hfuel : KERNBASE / PGSIZE - 0 < 2 ^ 20 + 1 := by decide
    have hnone : Duplicates R m₀ (entryOf m₀ src) (kernelEntries L) (kernelEntries L) s.mem 0 :=
      ⟨fun x hx => by omega, fun x hx => by omega, fun _ _ => rfl⟩
    have hloop := (copyFrom_laden hsrc hsz hpresent (Nat.zero_le _) hfuel hfilled hnone).here hs.laden
    rw [Nat.zero_mul] at hloop
    apply Triple.bind hloop
    rintro (_ | _)
    · apply Triple.start
      rintro x ⟨E', _, hx, hscarce⟩
      exact Triple.bind (freevm_own.here hx.toOwn) fun _ => Triple.pure fun y hy => ⟨hy, hscarce⟩
    · refine Triple.pure fun x hx => ?_
      obtain ⟨E', M', hx, hE⟩ := hx
      exact ⟨E', M', hx, hE⟩

theorem copyuvm_heap (hsrc : Framed R m₀ src) (hsz : sz ≤ KERNBASE)
    (hpresent : ∀ x < pageCount sz, present (entryOf m₀ src x) = true) :
    Triple (Heap A H R m₀) (copyuvm L src sz) (fun r s => r.elim (Heap A H R m₀ s) fun d =>
      ∃ E, Own A H R m₀ d E s ∧ Filled E (pageCount sz)) NoStop := by
  refine (copyuvm_laden hsrc hsz hpresent).post ?_
  rintro (_ | d) s hs
  · exact hs.1
  · obtain ⟨E, _, hs, hE, _⟩ := hs
    exact ⟨E, hs.toOwn, hE⟩

end Xv6.Vm
