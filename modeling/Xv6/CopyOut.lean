import Xv6.FreshDirectories

namespace Xv6.Vm

open Xv6.Memory (PGSIZE KERNBASE uint)
open Xv6.Triples Xv6.Words Function

def Accessible (entry : ℕ) : Prop := entry &&& PTE_P ≠ 0 ∧ entry &&& PTE_U ≠ 0

instance (entry : ℕ) : Decidable (Accessible entry) := inferInstanceAs (Decidable (_ ∧ _))

def UserPage (mem : ℕ → Bytes) (d v : ℕ) : Prop := v < 2 ^ 20 ∧ Accessible (entryOf mem d v)

structure Wrote (E : ℕ → ℕ) (va : ℕ) (buf : List UInt8) (mem mem' : ℕ → Bytes) : Prop where
  bytes : ∀ i (hi : i < buf.length), mem' (PTE_ADDR (E ((va + i) / PGSIZE)) / PGSIZE)
    ((va + i) % PGSIZE) = buf[i].toNat
  frame : ∀ page o, (∀ i < buf.length, PTE_ADDR (E ((va + i) / PGSIZE)) / PGSIZE = page → (va + i) % PGSIZE ≠ o) →
    mem' page o = mem page o

/-- The call returns the same whatever a null pointer would read; it returns 0 just when every page of the
range is a user page, and has then written the range and nothing else. -/
def CopiesOut (d va : ℕ) (buf : List UInt8) (s : Machine) : Prop :=
  ∃ ok s', (∀ null, (copyoutOn null d va buf).run s = .ok (ok, s')) ∧
    (ok = true ↔ ∀ a, va ≤ a → a < va + buf.length → UserPage s.mem d (a / PGSIZE)) ∧
    (ok = true → Wrote (entryOf s.mem d) va buf s.mem s'.mem ∧ s'.freelist = s.freelist)

/-- A directory that `setupkvm` returned, after calls of `allocuvm` and `clearpteu` on it. -/
inductive Built (L : Layout) (d : ℕ) : Machine → Prop
  | setupkvm {m s : Machine} (hm : Allocator L m) (hrun : (setupkvm L).run m = .ok (some d, s)) : Built L d s
  | allocuvm {s s' : Machine} {r : ℕ} (oldsz newsz : ℕ) (fails : List Bool) (hs : Built L d s)
      (hrun : (allocuvm L d oldsz newsz).run (Conservation.failing s fails) = .ok (r, s')) : Built L d s'
  | clearpteu {s s' : Machine} (uva : ℕ) (hs : Built L d s) (hrun : (clearpteu d uva).run s = .ok ((), s')) :
      Built L d s'

variable {L : Layout} {A : Frames L} {H R : Multiset ℕ} {m₀ : ℕ → Bytes} {d : ℕ} {E : ℕ → ℕ}

def Supervisor (E : ℕ → ℕ) : Prop := ∀ v, KERNBASE / PGSIZE ≤ v → E v &&& PTE_U = 0

def Guarded (A : Frames L) (d : ℕ) (s : Machine) : Prop := ∃ E, Own A 0 0 (fun _ _ => 0) d E s ∧ Supervisor E

variable {fuel n newsz oldsz page q v va w : ℕ} {s : Machine} {null : Call ℕ} {buf : List UInt8}
  {Q : Bool → Machine → Prop} {X : Stop → Prop}

theorem Supervisor.user (h : Supervisor E) (hv : v < KERNBASE / PGSIZE) : Supervisor (update E v w) := by
  intro x hx
  rw [update_of_ne (by omega)]
  exact h x hx

theorem Supervisor.clear {lo hi : ℕ} (h : Supervisor E) : Supervisor (clearRange E lo hi) := by
  intro x hx
  unfold clearRange
  split_ifs
  · rfl
  · exact h x hx

theorem mappages_present {perm : ℕ} (hv : v < KERNBASE / PGSIZE) (hp : present (E v) = true) :
    Triple (Own A H R m₀ d E) (mappages d (v * PGSIZE) PGSIZE (q * PGSIZE) perm)
      (fun ok s => ok = false ∧ Own A H R m₀ d E s) (fun stop => stop = .remap) := by
  have hv20 := lt_top hv
  have hwalk : Triple (Own A H R m₀ d E) (walkpgdir d (v * PGSIZE) true) (fun r s =>
      Own A H R m₀ d E s ∧ ∀ t i, r = some (t, i) → tableOf s.mem d (v / 1024) = some t ∧ i = v % 1024) NoStop :=
    Own.anyContents fun M => (walkAlloc_laden hv20).post fun r s hs => ⟨hs.1.toOwn, hs.2.2⟩
  unfold mappages mapFrom
  rw [pgrounddown_page]
  refine Triple.bind (hwalk.except fun _ h => h.elim) ?_
  rintro (_ | ⟨t, i⟩)
  · exact Triple.pure fun s hs => ⟨rfl, hs.1⟩
  · apply Triple.start
    rintro s ⟨hs, htab⟩
    obtain ⟨ht, rfl⟩ := htab t i rfl
    apply Triple.step (load_run _ _ _)
    rw [← entryOf_some ht, hs.entries v hv20, if_pos hp]
    exact Triple.throw rfl

theorem mappages_guarded (hv : v < KERNBASE / PGSIZE) (hE : Supervisor E) :
    Triple (Own A (q ::ₘ H) R m₀ d E) (mappages d (v * PGSIZE) PGSIZE (q * PGSIZE) (PTE_W ||| PTE_U))
      (fun ok s => ∃ E', Supervisor E' ∧ if ok then Own A H R m₀ d E' s else Own A (q ::ₘ H) R m₀ d E' s)
      (fun stop => stop = .remap) := by
  cases hp : present (E v) with
  | true => exact (mappages_present hv hp).post fun ok s hs => ⟨E, hE, by rw [hs.1]; exact hs.2⟩
  | false =>
    refine Triple.except ((mappages_user hv hp (by decide)).post ?_) fun _ h => h.elim
    rintro (_ | _) s hs
    · exact ⟨E, hE, hs.1⟩
    · exact ⟨_, hE.user hv, hs⟩

theorem deallocuvm_guarded (hold : oldsz ≤ KERNBASE) (hE : Supervisor E) :
    Triple (Own A H R m₀ d E) (deallocuvm L d oldsz newsz) (fun _ s => ∃ E', Own A H R m₀ d E' s ∧ Supervisor E')
      (fun stop => stop = .remap) :=
  Triple.except ((deallocuvm_own hold).post fun _ _ hs => ⟨_, hs.2, hE.clear⟩) fun _ h => h.elim

theorem allocFrom_guarded (hnew : newsz < KERNBASE) (hfuel : KERNBASE / PGSIZE - v < fuel)
    (hv : v ≤ KERNBASE / PGSIZE) : Triple (Guarded A d) (allocFrom L d oldsz newsz fuel (v * PGSIZE))
      (fun _ => Guarded A d) (fun stop => stop = .remap) := by
  have hcount := pageCount_le (Nat.le_of_lt hnew)
  induction fuel generalizing v with
  | zero => omega
  | succ fuel ih =>
    unfold allocFrom
    apply Triple.ite
    · intro hlt
      have hvtop : v < KERNBASE / PGSIZE := Nat.lt_of_lt_of_le (lt_pageCount.mpr hlt) hcount
      have hv19 := user_lt hvtop
      apply Triple.start
      rintro s ⟨E, hs, hE⟩
      refine Triple.bind (Triple.except (kalloc_own.here hs) fun _ h => h.elim) fun r => ?_
      cases r with
      | none =>
        exact Triple.bind (deallocuvm_guarded (Nat.le_of_lt hnew) hE) fun _ => Triple.pure fun x hx => hx
      | some mem =>
        apply Triple.start
        intro x hx
        apply Triple.step (fill_run _ _ _)
        refine Triple.bind ((mappages_guarded hvtop hE).here (Own.write hx (Multiset.mem_cons_self mem 0) _))
          fun ok => ?_
        apply Triple.start
        rintro y ⟨E', hE', hy⟩
        cases ok with
        | false =>
          simp only [Bool.false_eq_true, ↓reduceIte] at hy ⊢
          refine Triple.bind ((deallocuvm_guarded (Nat.le_of_lt hnew) hE').here hy) fun _ => ?_
          apply Triple.start
          rintro z ⟨E'', hz, hE''⟩
          refine Triple.bind (Triple.except (kfree_own.here hz) fun _ h => h.elim) fun _ => ?_
          exact Triple.pure fun w hw => ⟨E'', hw, hE''⟩
        | true =>
          simp only [↓reduceIte] at hy ⊢
          rw [next_page (by omega)]
          exact (ih (by omega) (by omega)).here ⟨E', hy, hE'⟩
    · intro _
      exact Triple.pure fun s hs => hs

theorem allocuvm_guarded (oldsz newsz : ℕ) : Triple (Guarded A d) (allocuvm L d oldsz newsz) (fun _ => Guarded A d)
    (fun stop => stop = .remap) := by
  unfold allocuvm
  apply Triple.ite
  · intro _
    exact Triple.pure fun s hs => hs
  · intro hbig
    apply Triple.ite
    · intro _
      exact Triple.pure fun s hs => hs
    · intro hge
      have hold : oldsz ≤ KERNBASE := by omega
      rw [pgroundup_eq hold]
      refine allocFrom_guarded (by omega) ?_ (pageCount_le hold)
      simp only [KERNBASE, PGSIZE]
      omega

theorem index_page (uva : ℕ) : PDX uva = uva / PGSIZE % 2 ^ 20 / 1024 ∧
    PTX uva = uva / PGSIZE % 2 ^ 20 % 1024 := by
  simp only [PDX, PTX, PGSIZE]
  omega

theorem userPage_clear (hw : v < KERNBASE / PGSIZE → present w = true → w < 2 ^ 32) :
    userPage v (w &&& (2 ^ 32 - 1 - PTE_U)) = userPage v w := by
  have hmod : (w &&& (2 ^ 32 - 1 - PTE_U)) % 2 = w % 2 := by
    have h := Nat.and_mod_two_pow (a := w) (b := 2 ^ 32 - 1 - PTE_U) (n := 1)
    rw [show (2 ^ 32 - 1 - PTE_U) % 2 ^ 1 = 1 from rfl, Nat.and_one_is_mod] at h
    omega
  have hpresent : present (w &&& (2 ^ 32 - 1 - PTE_U)) = present w := by rw [present_eq, present_eq, hmod]
  unfold userPage pageOf
  rw [hpresent]
  split_ifs with hv hp
  · have haddr : PTE_ADDR (w - w / 4 % 2 * 4) = PTE_ADDR w := by
      simp only [PTE_ADDR, PGSIZE]
      omega
    rw [clear_user (hw hv hp), haddr]
  · rfl
  · rfl

theorem clearpteu_guarded (uva : ℕ) : Triple (Guarded A d) (clearpteu d uva) (fun _ => Guarded A d)
    (fun stop => stop = .clearpteu) := by
  obtain ⟨hpdx, hptx⟩ := index_page uva
  have hv : uva / PGSIZE % 2 ^ 20 < 2 ^ 20 := Nat.mod_lt _ (by decide)
  generalize uva / PGSIZE % 2 ^ 20 = v at hpdx hptx hv
  apply Triple.start
  rintro s ⟨E, hs, hE⟩
  cases ht : tableOf s.mem d (PDX uva) with
  | none =>
    apply Triple.step (walk_missing ht)
    exact Triple.throw rfl
  | some t =>
    apply Triple.step (walk_found ht)
    apply Triple.step (load_run _ _ _)
    rw [hpdx] at ht
    rw [hptx, ← entryOf_some ht, hs.entries v hv]
    have hsmall : v < KERNBASE / PGSIZE → present (E v) = true → E v < 2 ^ 32 := by
      intro huser hp
      have hpage := Frames.lt (hs.user_mem_frames huser hp)
      simp only [PTE_ADDR, PGSIZE] at hpage
      omega
    apply store_rule
    rintro x rfl
    refine ⟨_, hs.store hv (Nat.lt_of_le_of_lt Nat.and_le_right (by decide)) ht
      (by rw [userPage_clear hsmall]), fun x hx => ?_⟩
    by_cases hxv : x = v
    · rw [hxv, update_self, Nat.and_assoc, show (2 ^ 32 - 1 - PTE_U) &&& PTE_U = 0 by decide, Nat.and_zero]
    · rw [update_of_ne hxv]
      exact hE x hx

theorem Guarded.failing (h : Guarded A d s) (hA : ¬ A.calm) (fails : List Bool) :
    Guarded A d (Conservation.failing s fails) := by
  obtain ⟨E, hs, hE⟩ := h
  exact ⟨E, ⟨hs.entries, hs.pages, hs.frame, fun hc => absurd hc hA⟩, hE⟩

theorem Built.guarded (h : Built L d s) : ∃ A : Frames L, ¬ A.calm ∧ Guarded A d s := by
  induction h with
  | setupkvm hm hrun =>
    have hs := setupkvm_heap.ok hm.heap hrun
    exact ⟨hm.frames, id, kernelEntries L, hs, fun v _ => kernelEntries_supervisor L v⟩
  | allocuvm oldsz newsz fails hs hrun ih =>
    obtain ⟨A, hA, hguard⟩ := ih
    exact ⟨A, hA, (allocuvm_guarded oldsz newsz).ok (hguard.failing hA fails) hrun⟩
  | clearpteu uva hs hrun ih =>
    obtain ⟨A, hA, hguard⟩ := ih
    exact ⟨A, hA, (clearpteu_guarded uva).ok hguard hrun⟩

theorem Accessible.present (h : Accessible w) : present w = true := decide_eq_true h.1

theorem Accessible.user (h : Accessible (E v)) (hE : Supervisor E) : v < KERNBASE / PGSIZE := by
  by_contra hv
  exact h.2 (hE v (by omega))

theorem Own.frame_ne (h : Own A H R m₀ d E s) (hv : v < KERNBASE / PGSIZE)
    (hw : w < KERNBASE / PGSIZE) (hpv : Vm.present (E v) = true) (hpw : Vm.present (E w) = true) (hne : v ≠ w) :
    PTE_ADDR (E v) / PGSIZE ≠ PTE_ADDR (E w) / PGSIZE := by
  intro heq
  have htwo : 2 ≤ Multiset.count (PTE_ADDR (E v) / PGSIZE) (userPages E) :=
    two_le_count_sumBelow hv hw hne (by simp [pageOf, hpv]) (by simp [pageOf, hpw, heq])
  have hcount := h.count (PTE_ADDR (E v) / PGSIZE)
  omega

theorem uva2kaOn_entry {t : ℕ} (hv : v < 2 ^ 20)
    (ht : tableOf s.mem d (v / 1024) = some t) : (uva2kaOn null d (v * PGSIZE)).run s =
      .ok (if Accessible (entryOf s.mem d v) then some (PTE_ADDR (entryOf s.mem d v) / PGSIZE) else none, s) := by
  rw [uva2kaOn, run_bind_after (walk_page hv ht), run_bind_after (load_run _ _ _), ← entryOf_some ht]
  dsimp only
  by_cases hacc : Accessible (entryOf s.mem d v)
  · rw [if_pos hacc, if_neg hacc.1, if_neg hacc.2]
    rfl
  · rw [if_neg hacc]
    split_ifs with hp hu
    · rfl
    · rfl
    · exact absurd ⟨hp, hu⟩ hacc

theorem uva2kaOn_user (hv : v < 2 ^ 20) (hu : Accessible (entryOf s.mem d v)) :
    (uva2kaOn null d (v * PGSIZE)).run s = .ok (some (PTE_ADDR (entryOf s.mem d v) / PGSIZE), s) := by
  cases ht : tableOf s.mem d (v / 1024) with
  | none =>
    rw [entryOf_none ht] at hu
    exact absurd hu (by decide)
  | some t => rw [uva2kaOn_entry hv ht, if_pos hu]

theorem uva2kaOn_null (hv : v < 2 ^ 20) (ht : tableOf s.mem d (v / 1024) = none) :
    (uva2kaOn (throw .fault) d (v * PGSIZE)).run s = .error .fault := by
  rw [uva2kaOn, run_bind_after (walk_hole hv ht)]
  rfl

theorem Wrote.append {mem mem' mem'' : ℕ → Bytes} (h : Wrote E va (buf.take n) mem mem')
    (h' : Wrote E (va + n) (buf.drop n) mem' mem'') (hn : n ≤ buf.length)
    (hapart : ∀ i < n, ∀ j, n ≤ j → j < buf.length →
      PTE_ADDR (E ((va + i) / PGSIZE)) / PGSIZE ≠ PTE_ADDR (E ((va + j) / PGSIZE)) / PGSIZE) :
    Wrote E va buf mem mem'' := by
  have htake : (buf.take n).length = n := List.length_take_of_le hn
  have hdrop : (buf.drop n).length = buf.length - n := List.length_drop
  refine ⟨fun i hi => ?_, fun page o hout => ?_⟩
  · by_cases hin : i < n
    · rw [h'.frame _ _ fun j hj heq => ?_, h.bytes i (by omega), List.getElem_take]
      have hne := hapart i hin (n + j) (by omega) (by omega)
      rw [← Nat.add_assoc] at hne
      exact absurd heq.symm hne
    · obtain ⟨j, rfl⟩ := Nat.exists_eq_add_of_le (Nat.le_of_not_lt hin)
      have hbyte := h'.bytes j (by omega)
      rw [Nat.add_assoc, List.getElem_drop] at hbyte
      exact hbyte
  · rw [h'.frame page o fun j hj heq => ?_, h.frame page o fun i hi => hout i (by omega)]
    rw [Nat.add_assoc] at heq ⊢
    exact hout (n + j) (by omega) heq

theorem wrote_page (mem : ℕ → Bytes) (hfit : va % PGSIZE + buf.length ≤ PGSIZE) :
    Wrote E va buf mem (update mem (PTE_ADDR (E (va / PGSIZE)) / PGSIZE)
      (copyIn (mem (PTE_ADDR (E (va / PGSIZE)) / PGSIZE)) (va % PGSIZE) (buf.map UInt8.toNat))) := by
  have hpage (i : ℕ) (hi : i < buf.length) : (va + i) / PGSIZE = va / PGSIZE ∧
      (va + i) % PGSIZE = va % PGSIZE + i := by
    simp only [PGSIZE] at *
    omega
  refine ⟨fun i hi => ?_, fun page o hout => ?_⟩
  · obtain ⟨hdiv, hmod⟩ := hpage i hi
    rw [hdiv, hmod, update_self, copyIn, if_pos (by rw [List.length_map]; omega), Nat.add_sub_cancel_left]
    simp [hi]
  · by_cases hp : page = PTE_ADDR (E (va / PGSIZE)) / PGSIZE
    · rw [hp, update_self, copyIn, if_neg fun hin => ?_]
      rw [List.length_map] at hin
      obtain ⟨hdiv, hmod⟩ := hpage (o - va % PGSIZE) (by omega)
      refine hout (o - va % PGSIZE) (by omega) (by rw [hdiv, hp]) ?_
      rw [hmod]
      omega
    · rw [update_of_ne hp]

theorem writeAt_exact {off : ℕ} {bytes : List UInt8} (hfit : page * PGSIZE < PHYSTOP) :
    (writeAt page off bytes).run s =
      .ok ((), { s with mem := update s.mem page (copyIn (s.mem page) off (bytes.map UInt8.toNat)) }) := by
  rw [writeAt, if_neg (by omega)]
  rfl

theorem copyoutOnFrom_round
    (hbuf : 0 < buf.length) (hfit : page * PGSIZE < PHYSTOP)
    (huva : (uva2kaOn null d (va / PGSIZE * PGSIZE)).run s = .ok (some page, s))
    (hn : n = min (PGSIZE - va % PGSIZE) buf.length)
    (hnext : Triple (fun x => x = { s with
      mem := update s.mem page (copyIn (s.mem page) (va % PGSIZE) ((buf.take n).map UInt8.toNat)) })
        (copyoutOnFrom null d fuel ((va / PGSIZE + 1) * PGSIZE % 2 ^ 32) (buf.drop n)) Q X) :
    Triple (fun x => x = s) (copyoutOnFrom null d (fuel + 1) va buf) Q X := by
  have hdown : PGROUNDDOWN va = va / PGSIZE * PGSIZE := rfl
  have hoff : va - va / PGSIZE * PGSIZE = va % PGSIZE := by
    simp only [PGSIZE]
    omega
  unfold copyoutOnFrom
  rw [if_pos hbuf]
  simp only [hdown, hoff, ← hn, ← Nat.succ_mul]
  apply Triple.step huva
  exact Triple.step (writeAt_exact hfit) hnext

theorem copyout_round
    (hs : Own A H R m₀ d E s) (hE : Supervisor E) (hbuf : 0 < buf.length)
    (hu : Accessible (E (va / PGSIZE)))
    (hnext : ∀ x n, n = min (PGSIZE - va % PGSIZE) buf.length → Own A H R m₀ d E x → x.freelist = s.freelist →
      (∀ i, tableOf x.mem d i = tableOf s.mem d i) → Wrote E va (buf.take n) s.mem x.mem →
      Triple (fun y => y = x) (copyoutOnFrom null d fuel ((va / PGSIZE + 1) * PGSIZE) (buf.drop n)) Q X) :
    Triple (fun x => x = s) (copyoutOnFrom null d (fuel + 1) va buf) Q X := by
  have huser := hu.user hE
  have hlow := user_lt huser
  have hpage := hs.user_mem_frames huser hu.present
  have hsmall : (va / PGSIZE + 1) * PGSIZE % 2 ^ 32 = (va / PGSIZE + 1) * PGSIZE := by
    simp only [PGSIZE] at *
    omega
  generalize hn : min (PGSIZE - va % PGSIZE) buf.length = n
  have hlen : (buf.take n).length = n := List.length_take_of_le (by omega)
  have huva : (uva2kaOn null d (va / PGSIZE * PGSIZE)).run s =
      .ok (some (PTE_ADDR (E (va / PGSIZE)) / PGSIZE), s) := by
    have hentry := hs.entries _ (lt_top huser)
    rw [← hentry] at hu ⊢
    exact uva2kaOn_user (lt_top huser) hu
  refine copyoutOnFrom_round hbuf (A.fits _ hpage).2 huva hn.symm ?_
  rw [hsmall]
  refine hnext _ n hn.symm (hs.touchUser huser hu.present _) rfl (fun i => ?_) (wrote_page _ ?_)
  · have huserPage := Multiset.one_le_count_iff_mem.mpr (mem_userPages huser hu.present)
    exact tableOf_congr (update_of_ne (hs.aside (by omega)).1.symm _ _) i
  · rw [hlen]
    have hmod : va % PGSIZE < PGSIZE := Nat.mod_lt _ (by decide)
    omega

theorem copyoutOnFrom_all (hs : Own A H R m₀ d E s)
    (hE : Supervisor E) (hall : ∀ a, va ≤ a → a < va + buf.length → Accessible (E (a / PGSIZE)))
    (hfuel : buf.length < fuel) : Triple (fun x => x = s) (copyoutOnFrom null d fuel va buf)
      (fun ok x => ok = true ∧ Wrote E va buf s.mem x.mem ∧ x.freelist = s.freelist) NoStop := by
  induction fuel generalizing va buf s with
  | zero => omega
  | succ fuel ih =>
    by_cases hbuf : 0 < buf.length
    · have hu := hall va (Nat.le_refl va) (by omega)
      refine copyout_round hs hE hbuf hu fun x n hn hx hfree _ hwrote => ?_
      have hn0 : 0 < n ∧ n ≤ buf.length := by
        have hmod : va % PGSIZE < PGSIZE := Nat.mod_lt _ (by decide)
        omega
      have hdrop : (buf.drop n).length = buf.length - n := List.length_drop
      by_cases hend : n = buf.length
      · have hnil : buf.drop n = [] := List.drop_eq_nil_of_le (by omega)
        have htake : buf.take n = buf := List.take_of_length_le (by omega)
        obtain ⟨fuel, rfl⟩ : ∃ f, fuel = f + 1 := ⟨fuel - 1, by omega⟩
        rw [hnil]
        rw [htake] at hwrote
        exact Triple.ret ⟨rfl, hwrote, hfree⟩
      · have hva : (va / PGSIZE + 1) * PGSIZE = va + n := by
          simp only [PGSIZE] at *
          omega
        rw [hva]
        have hrest : ∀ a, va + n ≤ a → a < va + n + (buf.drop n).length → Accessible (E (a / PGSIZE)) :=
          fun a hlo hhi => hall a (by omega) (by omega)
        refine (ih hx hrest (by omega)).post fun ok y hy => ⟨hy.1, ?_, hy.2.2.trans hfree⟩
        refine hwrote.append hy.2.1 hn0.2 fun i hi j hj hjlen => ?_
        have hui := hall (va + i) (by omega) (by omega)
        have huj := hall (va + j) (by omega) (by omega)
        refine hs.frame_ne (hui.user hE) (huj.user hE) hui.present huj.present ?_
        simp only [PGSIZE] at *
        omega
    · have hnil : buf = [] := List.eq_nil_of_length_eq_zero (by omega)
      subst hnil
      exact Triple.ret ⟨rfl, ⟨fun i hi => absurd hi (Nat.not_lt_zero i), fun _ _ _ => rfl⟩, rfl⟩

theorem copyoutOnFrom_until {T : ℕ → Option ℕ}
    (hs : Own A H R m₀ d E s) (hE : Supervisor E)
    (hT : ∀ i, tableOf s.mem d i = T i) (hle : va / PGSIZE ≤ v)
    (hv : v * PGSIZE < va + buf.length) (hbuf : 0 < buf.length)
    (hbefore : ∀ w, va / PGSIZE ≤ w → w < v → Accessible (E w)) (hfuel : buf.length < fuel)
    (hend : ∀ x fuel va buf, Own A H R m₀ d E x → (∀ i, tableOf x.mem d i = T i) →
      va / PGSIZE = v → 0 < buf.length → Triple (fun y => y = x) (copyoutOnFrom null d (fuel + 1) va buf) Q X) :
    Triple (fun x => x = s) (copyoutOnFrom null d fuel va buf) Q X := by
  induction fuel generalizing va buf s with
  | zero => omega
  | succ fuel ih =>
    obtain hlt | heq := Nat.lt_or_eq_of_le hle
    · refine copyout_round hs hE hbuf (hbefore _ (Nat.le_refl _) hlt) fun x n hn hx _ htables _ => ?_
      have hdrop : (buf.drop n).length = buf.length - n := List.length_drop
      have hpages : n = PGSIZE - va % PGSIZE ∧ 0 < n ∧ n < buf.length := by
        simp only [PGSIZE] at *
        omega
      have hnext : (va / PGSIZE + 1) * PGSIZE = va + n ∧
          (va / PGSIZE + 1) * PGSIZE / PGSIZE = va / PGSIZE + 1 := by
        simp only [PGSIZE] at *
        omega
      refine ih hx (fun i => (htables i).trans (hT i)) ?_ ?_ ?_ (fun w hw => hbefore w ?_) ?_
      · rw [hnext.2]
        omega
      · rw [hnext.1, hdrop]
        omega
      · omega
      · rw [hnext.2] at hw
        omega
      · omega
    · exact hend s fuel va buf hs hT heq hbuf

structure FirstBad (mem : ℕ → Bytes) (d va n v : ℕ) : Prop where
  touched : ∃ a, va ≤ a ∧ a < va + n ∧ a / PGSIZE = v
  bad : ¬ UserPage mem d v
  before : ∀ a, va ≤ a → a < va + n → a / PGSIZE < v → UserPage mem d (a / PGSIZE)

theorem firstBad_or (mem : ℕ → Bytes) (d va n : ℕ) :
    (∀ a, va ≤ a → a < va + n → UserPage mem d (a / PGSIZE)) ∨ ∃ v, FirstBad mem d va n v := by
  classical
  by_cases hall : ∀ a, va ≤ a → a < va + n → UserPage mem d (a / PGSIZE)
  · exact .inl hall
  · right
    push Not at hall
    have hex : ∃ v, ∃ a, va ≤ a ∧ a < va + n ∧ a / PGSIZE = v ∧ ¬ UserPage mem d v := by
      obtain ⟨a, hlo, hhi, hbad⟩ := hall
      exact ⟨_, a, hlo, hhi, rfl, hbad⟩
    obtain ⟨a, hlo, hhi, heq, hbad⟩ := Nat.find_spec hex
    refine ⟨Nat.find hex, ⟨a, hlo, hhi, heq⟩, hbad, fun b hblo hbhi hlt => ?_⟩
    by_contra hb
    exact Nat.find_min hex hlt ⟨b, hblo, hbhi, rfl, hb⟩

section Range

variable {va n v : ℕ} {s : Machine}

theorem FirstBad.lt (h : FirstBad s.mem d va n v) (hs : Own A H R m₀ d E s)
    (hE : Supervisor E) (hva : va < 2 ^ 32) : v < 2 ^ 20 := by
  obtain ⟨a, hlo, hhi, rfl⟩ := h.touched
  by_contra hbig
  -- the page before the top of the address space is in the range and not a user page
  have hmiddle := h.before (max va (2 ^ 32 - 1)) (by omega) (by simp only [PGSIZE] at *; omega) (by
    simp only [PGSIZE] at *
    omega)
  have hpage : max va (2 ^ 32 - 1) / PGSIZE = 2 ^ 20 - 1 := by
    simp only [PGSIZE]
    omega
  rw [hpage] at hmiddle
  rw [UserPage, hs.entries _ (by decide)] at hmiddle
  have huser := hmiddle.2.user hE
  simp only [KERNBASE, PGSIZE] at huser
  omega

theorem FirstBad.before_page (h : FirstBad s.mem d va n v) (hs : Own A H R m₀ d E s)
    {w : ℕ} (hlo : va / PGSIZE ≤ w) (hw : w < v) : Accessible (E w) := by
  obtain ⟨a, ha, hhi, rfl⟩ := h.touched
  have hpage : max va (w * PGSIZE) / PGSIZE = w := by
    simp only [PGSIZE] at *
    omega
  have huser := h.before (max va (w * PGSIZE)) (Nat.le_max_left _ _) (by
    simp only [PGSIZE] at *
    omega) (by rw [hpage]; exact hw)
  rw [hpage] at huser
  rw [← hs.entries w huser.1]
  exact huser.2

end Range

variable {va v : ℕ} {buf : List UInt8} {s : Machine} {null : Call ℕ}

theorem copyoutOn_until {Q : Bool → Machine → Prop} {X : Stop → Prop} (hs : Own A H R m₀ d E s)
    (hE : Supervisor E) (h : FirstBad s.mem d va buf.length v)
    (hend : ∀ x fuel va buf, Own A H R m₀ d E x → (∀ i, tableOf x.mem d i = tableOf s.mem d i) → va / PGSIZE = v →
      0 < buf.length → Triple (fun y => y = x) (copyoutOnFrom null d (fuel + 1) va buf) Q X) :
    Triple (fun x => x = s) (copyoutOn null d va buf) Q X := by
  obtain ⟨a, hlo, hhi, heq⟩ := h.touched
  refine copyoutOnFrom_until hs hE (fun _ => rfl) ?_ ?_ (by omega)
    (fun w => h.before_page hs) (Nat.lt_succ_self _) hend
  · rw [← heq]
    exact Nat.div_le_div_right hlo
  · rw [← heq]
    simp only [PGSIZE]
    omega

theorem copyoutOn_refuses {t : ℕ} (hs : Own A H R m₀ d E s) (hE : Supervisor E) (hva : va < 2 ^ 32)
    (h : FirstBad s.mem d va buf.length v) (ht : tableOf s.mem d (v / 1024) = some t) :
    Triple (fun x => x = s) (copyoutOn null d va buf) (fun ok x => ok = false ∧ Own A H R m₀ d E x) NoStop := by
  have hv := h.lt hs hE hva
  have hbad : ¬ Accessible (E v) := by
    rw [← hs.entries v hv]
    exact fun hu => h.bad ⟨hv, hu⟩
  refine copyoutOn_until hs hE h fun x fuel va buf hx hT hpage hbuf => ?_
  subst hpage
  unfold copyoutOnFrom
  rw [if_pos hbuf]
  apply Triple.step (uva2kaOn_entry hv ((hT _).trans ht))
  rw [hx.entries _ hv, if_neg hbad]
  exact Triple.ret ⟨rfl, hx⟩

theorem copyoutOn_faults (hs : Own A H R m₀ d E s) (hE : Supervisor E) (hva : va < 2 ^ 32)
    (h : FirstBad s.mem d va buf.length v) (ht : tableOf s.mem d (v / 1024) = none) :
    Triple (fun x => x = s) (copyoutOn (throw .fault) d va buf) (fun _ _ => False)
    (fun stop => stop = .fault) := by
  have hv := h.lt hs hE hva
  refine copyoutOn_until hs hE h fun x fuel va buf hx hT hpage hbuf => ?_
  subst hpage
  unfold copyoutOnFrom
  rw [if_pos hbuf]
  exact Triple.stop (uva2kaOn_null hv ((hT _).trans ht)) rfl

theorem Wrote.congr {E' : ℕ → ℕ} {mem mem' : ℕ → Bytes} (h : Wrote E va buf mem mem')
    (hE : ∀ i < buf.length, E' ((va + i) / PGSIZE) = E ((va + i) / PGSIZE)) : Wrote E' va buf mem mem' := by
  refine ⟨fun i hi => ?_, fun page o hout => h.frame page o fun i hi heq => hout i hi ?_⟩
  · rw [hE i hi]
    exact h.bytes i hi
  · rw [hE i hi]
    exact heq

theorem uva2kaOn_agree {uva : ℕ} {r : Option ℕ × Machine}
    (h : (uva2kaOn (throw .fault) d uva).run s = .ok r) : (uva2kaOn null d uva).run s = .ok r := by
  obtain ⟨w, x, hw, h⟩ := run_bind_ok.mp h
  cases w with
  | none => cases h
  | some w => exact run_bind_ok.mpr ⟨_, x, hw, h⟩

theorem copyoutOnFrom_agree {fuel : ℕ} {r : Bool × Machine}
    (h : (copyoutOnFrom (throw .fault) d fuel va buf).run s = .ok r) :
    (copyoutOnFrom null d fuel va buf).run s = .ok r := by
  induction fuel generalizing va buf s with
  | zero => cases h
  | succ fuel ih =>
    unfold copyoutOnFrom at h ⊢
    split_ifs at h ⊢ with hbuf
    · obtain ⟨k, x, hk, h⟩ := run_bind_ok.mp h
      refine run_bind_ok.mpr ⟨k, x, uva2kaOn_agree hk, ?_⟩
      cases k with
      | none => exact h
      | some page =>
        obtain ⟨_, y, hwrite, h⟩ := run_bind_ok.mp h
        exact run_bind_ok.mpr ⟨_, y, hwrite, ih h⟩
    · exact h

theorem copiesOut_of {ok : Bool} {s' : Machine} (hrun : (copyoutOn (throw .fault) d va buf).run s = .ok (ok, s'))
    (hok : ok = true ↔ ∀ a, va ≤ a → a < va + buf.length → UserPage s.mem d (a / PGSIZE))
    (hwrote : ok = true → Wrote (entryOf s.mem d) va buf s.mem s'.mem ∧ s'.freelist = s.freelist) :
    CopiesOut d va buf s :=
  ⟨ok, s', fun _ => copyoutOnFrom_agree hrun, hok, hwrote⟩

theorem copyout_writes_iff (L : Layout) (d : ℕ) (s : Machine) (hs : Built L d s) (va : ℕ) (buf : List UInt8)
    (hva : va < 2 ^ 32) : CopiesOut d va buf s ↔
      ∀ v, FirstBad s.mem d va buf.length v → tableOf s.mem d (v / 1024) ≠ none := by
  obtain ⟨A, _, E, hown, hE⟩ := hs.guarded
  constructor
  · rintro ⟨ok, s', hrun, _⟩ v hbad ht
    obtain ⟨stop, hstop, _⟩ := (copyoutOn_faults hown hE hva hbad ht).fails rfl
    rw [hrun] at hstop
    cases hstop
  · intro htables
    obtain hall | ⟨v, hbad⟩ := firstBad_or s.mem d va buf.length
    · have huser : ∀ a, va ≤ a → a < va + buf.length → Accessible (E (a / PGSIZE)) := by
        intro a hlo hhi
        have hu := hall a hlo hhi
        rw [← hown.entries _ hu.1]
        exact hu.2
      have hcopy : Triple (fun x => x = s) (copyoutOn (throw .fault) d va buf) _ NoStop :=
        copyoutOnFrom_all hown hE huser (Nat.lt_succ_self _)
      obtain ⟨ok, s', hrun, rfl, hwrote, hfree⟩ := hcopy.returns rfl
      refine copiesOut_of hrun ⟨fun _ => hall, fun _ => rfl⟩ fun _ => ⟨hwrote.congr fun i hi => ?_, hfree⟩
      exact hown.entries _ (hall (va + i) (by omega) (by omega)).1
    · obtain ⟨t, ht⟩ := Option.ne_none_iff_exists'.mp (htables v hbad)
      have hcopy : Triple (fun x => x = s) (copyoutOn (throw .fault) d va buf) _ NoStop :=
        copyoutOn_refuses hown hE hva hbad ht
      obtain ⟨ok, s', hrun, rfl, _⟩ := hcopy.returns rfl
      refine copiesOut_of hrun ⟨fun h => absurd h Bool.false_ne_true, fun hall => ?_⟩ fun h =>
        absurd h Bool.false_ne_true
      obtain ⟨a, hlo, hhi, rfl⟩ := hbad.touched
      exact absurd (hall a hlo hhi) hbad.bad

section Examples

open Spaces

theorem bootMachine_allocator : Allocator Conservation.smallKernel bootMachine :=
  ⟨bootMachine_nodup, bootMachine_fits⟩

theorem bootMachine_own : ∃ d s, (setupkvm Conservation.smallKernel).run bootMachine = .ok (some d, s) ∧
    Own (framesOf Conservation.smallKernel bootMachine bootMachine_nodup bootMachine_fits True) 0 0
      (fun _ _ => 0) d (kernelEntries Conservation.smallKernel) s := by
  have hheap : Heap (framesOf Conservation.smallKernel bootMachine bootMachine_nodup bootMachine_fits True) 0 0
      (fun _ _ => 0) bootMachine := Heap.start rfl fun _ => rfl
  obtain ⟨r, s, hrun, hr⟩ := setupkvm_heap.returns hheap
  cases r with
  | none =>
    have hscarce := hr.2 trivial
    rw [framesOf, Multiset.coe_card, bootMachine, List.length_range'] at hscarce
    exact absurd hscarce (by decide)
  | some d => exact ⟨d, s, hrun, hr⟩

theorem bootMachine_directory : ∃ d s, (setupkvm Conservation.smallKernel).run bootMachine = .ok (some d, s) ∧
    Built Conservation.smallKernel d s ∧ (∀ v, KERNBASE / PGSIZE ≤ v → v < 2 ^ 20 →
      entryOf s.mem d v = kernelEntries Conservation.smallKernel v) ∧ ∀ i < KERNBASE / 2 ^ 22,
      tableOf s.mem d i = none := by
  obtain ⟨d, s, hrun, hown⟩ := bootMachine_own
  have hbare := setupkvm_bare.ok bootMachine_allocator hrun d rfl
  exact ⟨d, s, hrun, .setupkvm bootMachine_allocator hrun, fun v _ hv => hown.entries v hv,
    fun i hi => hbare.none i (.inl hi)⟩

theorem copyout_writes_iff_device : ∃ d s, Built Conservation.smallKernel d s ∧ CopiesOut d DEVSPACE [7] s := by
  obtain ⟨d, s, _, hbuilt, hkernel, _⟩ := bootMachine_directory
  refine ⟨d, s, hbuilt, (copyout_writes_iff _ d s hbuilt DEVSPACE [7] (by decide)).mpr fun v hbad ht => ?_⟩
  obtain ⟨a, hlo, hhi, rfl⟩ := hbad.touched
  rw [List.length_singleton] at hhi
  obtain rfl : a = DEVSPACE := by omega
  have hentry := hkernel (DEVSPACE / PGSIZE) (by decide) (by decide)
  rw [entryOf_none ht] at hentry
  exact kernelEntries_device (Nat.le_refl _) (by decide) hentry.symm

theorem copyout_follows_null : ∃ d s, Built Conservation.smallKernel d s ∧ ¬ UserPage s.mem d 0 ∧
    (copyout d 0 [7]).run s = .error .fault ∧ ¬ CopiesOut d 0 [7] s := by
  obtain ⟨d, s, _, hbuilt, _, hnone⟩ := bootMachine_directory
  have hbad : ¬ UserPage s.mem d 0 := by
    rintro ⟨_, hu⟩
    rw [entryOf_none (v := 0) (hnone 0 (by decide))] at hu
    exact hu.1 rfl
  obtain ⟨A, _, E, hown, hE⟩ := hbuilt.guarded
  have hfirst : FirstBad s.mem d 0 [(7 : UInt8)].length 0 :=
    ⟨⟨0, Nat.le_refl 0, by decide, rfl⟩, hbad, fun a _ _ ha => absurd ha (Nat.not_lt_zero _)⟩
  obtain ⟨stop, hstop, rfl⟩ := (copyoutOn_faults hown hE (by decide) hfirst (hnone 0 (by decide))).fails rfl
  refine ⟨d, s, hbuilt, hbad, hstop, ?_⟩
  rintro ⟨ok, s', hrun, _⟩
  have hok := hrun (throw .fault)
  rw [hstop] at hok
  cases hok

end Examples

end Xv6.Vm
