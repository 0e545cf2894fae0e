import Xv6.PageConservation
import Xv6.ProcessMemory

namespace Xv6.Vm

open Xv6.Memory (PGSIZE KERNBASE uint)
open Xv6.Triples Xv6.Words Function

variable {L : Layout} {A : Frames L} {H R : Multiset ℕ} {m₀ : ℕ → Bytes} {d : ℕ} {E : ℕ → ℕ}

variable {P : Machine → Prop} {a fuel k n off sp sz v va w : ℕ} {buf bytes : List UInt8}
    {σ : Type} {read : Reader σ}
  {state : σ} {reads : Reads} {argv : List (List UInt8)}

theorem writeAt_rule {Q : Unit → Machine → Prop} {page : ℕ}
    (hfit : ∀ s, P s → page * PGSIZE < PHYSTOP)
    (h : ∀ s content, P s → Q () { s with mem := update s.mem page content }) :
    Triple P (writeAt page off bytes) Q NoStop := by
  apply Triple.start
  intro s hs
  apply Triple.ite
  · intro hout
    have hin := hfit s hs
    omega
  · intro _
    exact Triple.get fun x hx => Triple.set fun _ _ => hx ▸ h s _ hs

theorem entry_rule {α : Type} {Q : α → Machine → Prop} {f : Option (ℕ × ℕ) → Call α}
    {g : ℕ → ℕ → Call α} (hP : ∀ s, P s → Own A H R m₀ d E s) (hv : v < 2 ^ 20) (hE : E v ≠ 0)
    (hf : ∀ t, f (some (t, v % 1024)) = load t (v % 1024) >>= g t)
    (h : ∀ s t, P s → tableOf s.mem d (v / 1024) = some t → Triple (fun x => x = s) (g t (E v)) Q NoStop) :
    Triple P (walkpgdir d (v * PGSIZE) false >>= f) Q NoStop := by
  apply Triple.start
  intro s hs
  cases ht : tableOf s.mem d (v / 1024) with
  | none => exact absurd ((hP s hs).absent hv ht) hE
  | some t =>
    apply Triple.step (walk_page hv ht)
    rw [hf t]
    apply Triple.step (load_run _ _ _)
    rw [← entryOf_some ht, (hP s hs).entries v hv]
    exact h s t hs ht

theorem present_ne_zero (h : present w = true) : w ≠ 0 := by
  rintro rfl
  exact absurd h (by decide)

theorem Own.touchUser {s : Machine} (h : Own A H R m₀ d E s) (hv : v < KERNBASE / PGSIZE)
    (hp : present (E v) = true) (bytes : Bytes) :
    Own A H R m₀ d E { s with mem := update s.mem (PTE_ADDR (E v) / PGSIZE) bytes } := by
  have huser := Multiset.one_le_count_iff_mem.mpr (mem_userPages hv hp)
  exact h.touch (by omega) bytes

theorem writeAt_own (hv : v < KERNBASE / PGSIZE) (hp : present (E v) = true) :
    Triple (Own A H R m₀ d E) (writeAt (PTE_ADDR (E v) / PGSIZE) off bytes) (fun _ => Own A H R m₀ d E) NoStop :=
  writeAt_rule (fun _ hs => (A.fits _ (hs.user_mem_frames hv hp)).2) fun _ content hs => hs.touchUser hv hp content

theorem loadFrom_own (hk : k ≤ pageCount sz)
    (hfuel : pageCount sz - k < fuel)
    (hpresent : ∀ x, v ≤ x → x < v + pageCount sz → x < KERNBASE / PGSIZE ∧ present (E x) = true) :
    Triple (Own A H R m₀ d E) (loadFrom read d (v * PGSIZE) off sz fuel (k * PGSIZE) state)
    (fun _ => Own A H R m₀ d E)
      NoStop := by
  induction fuel generalizing k state with
  | zero => omega
  | succ fuel ih =>
    unfold loadFrom
    apply Triple.ite
    · intro hlt
      have hks : k < pageCount sz := lt_pageCount.mpr hlt
      obtain ⟨huser, hp⟩ := hpresent (v + k) (by omega) (by omega)
      have hlow := user_lt huser
      have haddr : (v * PGSIZE + k * PGSIZE) % 2 ^ 32 = (v + k) * PGSIZE := by
        simp only [PGSIZE]
        omega
      rw [haddr]
      refine entry_rule (fun _ h => h) (by omega) (present_ne_zero hp) (fun t => rfl) fun s t hs _ => ?_
      refine Triple.bind ((writeAt_own huser hp).here hs) fun _ => ?_
      apply Triple.ite
      · intro _
        exact Triple.pure fun x hx => hx
      · intro _
        rw [next_page (by omega)]
        exact ih (by omega) (by omega)
    · intro _
      exact Triple.pure fun s hs => hs

theorem page_below {x : ℕ} (hv : v ≤ x) (hx : x < v + pageCount sz) : x * PGSIZE < v * PGSIZE + sz := by
  obtain ⟨k, rfl⟩ := Nat.exists_eq_add_of_le hv
  have hlt : k * PGSIZE < sz := lt_pageCount.mp (by omega)
  rw [Nat.add_mul]
  omega

theorem loaduvm_own {addr : ℕ} (haddr : addr % PGSIZE = 0) (hsz : addr + sz < KERNBASE)
    (hpresent : ∀ x, x * PGSIZE < addr + sz → present (E x) = true) :
    Triple (Own A H R m₀ d E) (loaduvm read d addr off sz state) (fun _ => Own A H R m₀ d E) NoStop := by
  obtain ⟨v, rfl⟩ : ∃ v, addr = v * PGSIZE := ⟨addr / PGSIZE, by simp only [PGSIZE] at *; omega⟩
  unfold loaduvm
  apply Triple.ite
  · intro hne
    exact absurd haddr hne
  · intro _
    have hfuel : pageCount sz - 0 < 2 ^ 20 + 1 := by
      simp only [pageCount, KERNBASE, PGSIZE] at *
      omega
    have huser (x : ℕ) (hx : x * PGSIZE < v * PGSIZE + sz) : x < KERNBASE / PGSIZE := by
      simp only [KERNBASE, PGSIZE] at hx hsz ⊢
      omega
    have hloop : Triple (Own A H R m₀ d E) (loadFrom read d (v * PGSIZE) off sz (2 ^ 20 + 1) (0 * PGSIZE) state)
        (fun _ => Own A H R m₀ d E) NoStop :=
      loadFrom_own (Nat.zero_le _) hfuel fun x hv hx => ⟨huser x (page_below hv hx), hpresent x (page_below hv hx)⟩
    rwa [Nat.zero_mul] at hloop

theorem clear_user (hw : w < 2 ^ 32) : w &&& (2 ^ 32 - 1 - PTE_U) = w - w / 4 % 2 * 4 := by
  have hdiv : (w &&& (2 ^ 32 - 1 - PTE_U)) / 2 ^ 3 = w / 2 ^ 3 := by
    rw [Nat.and_div_two_pow, show (2 ^ 32 - 1 - PTE_U) / 2 ^ 3 = 2 ^ 29 - 1 from rfl,
      Nat.and_two_pow_sub_one_eq_mod]
    omega
  have hmod : (w &&& (2 ^ 32 - 1 - PTE_U)) % 2 ^ 3 = w % 2 ^ 3 &&& 3 := Nat.and_mod_two_pow
  have hsmall : ∀ x < 8, x &&& 3 = x % 4 := by decide
  rw [hsmall _ (by omega)] at hmod
  omega

theorem clearpteu_own (hv : v < KERNBASE / PGSIZE) (hp : present (E v) = true) :
    Triple (Own A H R m₀ d E) (clearpteu d (v * PGSIZE))
      (fun _ => Own A H R m₀ d (update E v (E v - E v / 4 % 2 * 4))) NoStop := by
  have hlow := user_lt hv
  refine entry_rule (fun _ h => h) (by omega) (present_ne_zero hp) (fun t => rfl)
    fun s t hs ht => store_rule fun x hx => ?_
  have hpage := Frames.lt (hs.user_mem_frames hv hp)
  have hw : E v < 2 ^ 32 := by
    simp only [PTE_ADDR, PGSIZE] at hpage
    omega
  rw [hx, clear_user hw]
  refine hs.store (by omega) (by omega) ht ?_
  have hpresent : present (E v - E v / 4 % 2 * 4) = true := by
    rw [present_eq, decide_eq_true_eq] at hp ⊢
    omega
  have hsame : PTE_ADDR (E v - E v / 4 % 2 * 4) = PTE_ADDR (E v) := by
    simp only [PTE_ADDR, PGSIZE]
    omega
  simp only [userPage, pageOf, hp, hpresent, hsame]

theorem uva2ka_own (hv : v < 2 ^ 20) (hE : E v ≠ 0) :
    Triple (Own A H R m₀ d E) (uva2ka d (v * PGSIZE)) (fun r s => Own A H R m₀ d E s ∧
      (E v &&& PTE_U = 0 → r = none) ∧
      ∀ page, r = some page → present (E v) = true ∧ page = PTE_ADDR (E v) / PGSIZE) NoStop := by
  unfold uva2ka uva2kaOn
  refine entry_rule (fun _ h => h) hv hE (fun t => rfl) fun s t hs _ => ?_
  apply Triple.ite
  · intro _
    exact Triple.pure fun x hx => hx ▸ ⟨hs, fun _ => rfl, nofun⟩
  · intro hp
    apply Triple.ite
    · intro _
      exact Triple.pure fun x hx => hx ▸ ⟨hs, fun _ => rfl, nofun⟩
    · intro huser
      refine Triple.pure fun x hx => hx ▸ ⟨hs, fun h => absurd h huser, fun page hpage => ?_⟩
      cases hpage
      exact ⟨decide_eq_true hp, rfl⟩

structure Image (L : Layout) (E : ℕ → ℕ) (n : ℕ) : Prop where
  user : Filled E n
  kernel : ∀ v, KERNBASE / PGSIZE ≤ v → E v = kernelEntries L v
  top : n ≤ KERNBASE / PGSIZE

theorem Image.present (h : Image L E n) (hv : v < n) : v < KERNBASE / PGSIZE ∧ present (E v) = true := by
  have htop : v < KERNBASE / PGSIZE := Nat.lt_of_lt_of_le hv h.top
  exact ⟨htop, by rw [h.user v htop, decide_eq_true hv]⟩

theorem copyoutFrom_own (hE : Image L E n) (hva : va + buf.length ≤ n * PGSIZE)
    (hfuel : buf.length < fuel) : Triple (Own A H R m₀ d E) (copyoutOnFrom (throw .fault) d fuel va buf)
      (fun _ => Own A H R m₀ d E) NoStop := by
  induction fuel generalizing va buf with
  | zero => omega
  | succ fuel ih =>
    unfold copyoutOnFrom
    apply Triple.ite
    · intro hlen
      have hpage : va / PGSIZE < n := by
        simp only [PGSIZE] at *
        omega
      obtain ⟨huser, hp⟩ := hE.present hpage
      have hlow := user_lt huser
      refine Triple.bind (uva2ka_own (v := va / PGSIZE) (by omega) (present_ne_zero hp)) fun r => ?_
      cases r with
      | none => exact Triple.pure fun s hs => hs.1
      | some page =>
        apply Triple.start
        rintro s ⟨hs, _, hpageOf⟩
        obtain ⟨_, rfl⟩ := hpageOf page rfl
        refine Triple.bind ((writeAt_own huser hp).here hs) fun _ => ?_
        have hnext : (PGROUNDDOWN va + PGSIZE) % 2 ^ 32 = (va / PGSIZE + 1) * PGSIZE := by
          simp only [PGROUNDDOWN, PGSIZE] at *
          omega
        rw [hnext]
        apply ih
        · rw [List.length_drop]
          simp only [PGROUNDDOWN, PGSIZE] at *
          omega
        · rw [List.length_drop]
          simp only [PGROUNDDOWN, PGSIZE] at *
          omega
    · intro _
      exact Triple.pure fun s hs => hs

theorem copyout_user (hE : Image L E n) (hva : va + buf.length ≤ n * PGSIZE) :
    Triple (Own A H R m₀ d E) (copyout d va buf) (fun _ => Own A H R m₀ d E) NoStop :=
  copyoutFrom_own hE hva (Nat.lt_succ_self _)

theorem kernelEntries_device (hv : DEVSPACE / PGSIZE ≤ v) (hv20 : v < 2 ^ 20) : kernelEntries L v ≠ 0 := by
  apply present_ne_zero
  have hlast : kernelEntries L v =
      (DEVSPACE / PGSIZE + (v - DEVSPACE / PGSIZE)) * PGSIZE ||| PTE_W ||| PTE_P := if_pos ⟨hv, by
    simp only [DEVSPACE, PGSIZE] at *
    omega⟩
  rw [hlast]
  exact present_entry _ (by decide)

theorem copyout_device (hE : Image L E n) (hdev : DEVSPACE ≤ va) (hva : va < 2 ^ 32)
    (hbuf : 0 < buf.length) : Triple (Own A H R m₀ d E) (copyout d va buf)
      (fun ok s => ok = false ∧ Own A H R m₀ d E s) NoStop := by
  have hpage : KERNBASE / PGSIZE ≤ va / PGSIZE := by
    simp only [DEVSPACE, KERNBASE, PGSIZE] at *
    omega
  have hv20 : va / PGSIZE < 2 ^ 20 := by
    simp only [PGSIZE]
    omega
  have hentry := hE.kernel _ hpage
  have hmapped : E (va / PGSIZE) ≠ 0 := by
    rw [hentry]
    exact kernelEntries_device (Nat.div_le_div_right hdev) hv20
  unfold copyout copyoutOn copyoutOnFrom
  rw [if_pos hbuf]
  refine Triple.bind (uva2ka_own hv20 hmapped) fun r => ?_
  apply Triple.start
  rintro s ⟨hs, hnone, _⟩
  rw [hentry] at hnone
  cases hnone (kernelEntries_supervisor L _)
  exact Triple.pure fun x hx => hx ▸ ⟨rfl, hs⟩

theorem uint_sub {b : ℕ} (ha : a < 2 ^ 32) (hb : b ≤ 2 ^ 32) :
    b ≤ a ∧ uint (a - b) = a - b ∨ a < b ∧ uint (a - b) = 2 ^ 32 + a - b := by
  unfold uint
  omega

theorem copyout_stack (hE : Image L E n) (hsp : sp ≤ n * PGSIZE)
    (hbuf : 0 < buf.length) (hlen : buf.length ≤ 2 ^ 32 - DEVSPACE) (ha : a = 1 ∨ a = 4)
    (hva : va = uint (sp - buf.length) / a * a) :
    Triple (Own A H R m₀ d E) (copyout d va buf) (fun ok s => Own A H R m₀ d E s ∧
      (ok = true → va ≤ sp)) NoStop := by
  have htop := hE.top
  simp only [KERNBASE, PGSIZE, DEVSPACE] at htop hsp hlen
  obtain ⟨hle, hu⟩ | ⟨hlt, hu⟩ := uint_sub (a := sp) (b := buf.length) (by omega) (by omega)
  · have hfit : va + buf.length ≤ sp := by
      rw [hva, hu]
      obtain rfl | rfl := ha <;> omega
    refine (copyout_user hE (Nat.le_trans hfit hsp)).post fun _ s hs => ⟨hs, fun _ => by omega⟩
  · have hdev : DEVSPACE ≤ va ∧ va < 2 ^ 32 := by
      rw [hva, hu, DEVSPACE]
      obtain rfl | rfl := ha <;> omega
    refine (copyout_device hE hdev.1 hdev.2 hbuf).post fun _ s hs => ⟨hs.2, fun hok => ?_⟩
    rw [hs.1] at hok
    cases hok

theorem pushArgs_own {ptrs : List ℕ} (hE : Image L E n)
    (hsp : sp ≤ n * PGSIZE) (hptrs : ptrs.length ≤ MAXARG)
    (hargv : ∀ arg ∈ argv, arg.length < 2 ^ 32 - DEVSPACE) :
    Triple (Own A H R m₀ d E) (pushArgs d sp ptrs argv) (fun r s => Own A H R m₀ d E s ∧
      ∀ sp' ptrs', r = some (sp', ptrs') → sp' ≤ n * PGSIZE ∧ ptrs'.length ≤ MAXARG) NoStop := by
  induction argv generalizing sp ptrs with
  | nil =>
    refine Triple.pure fun s hs => ⟨hs, fun sp' ptrs' h => ?_⟩
    cases h
    exact ⟨hsp, hptrs⟩
  | cons arg argv ih =>
    unfold pushArgs
    apply Triple.ite
    · intro _
      exact Triple.pure fun s hs => ⟨hs, nofun⟩
    · intro hroom
      have hlen := hargv arg List.mem_cons_self
      have hbuf : (arg ++ [0]).length = arg.length + 1 := by simp
      have hcopy : Triple (Own A H R m₀ d E) (copyout d (uint (sp - (arg.length + 1)) / 4 * 4) (arg ++ [0]))
          (fun ok s => Own A H R m₀ d E s ∧ (ok = true → uint (sp - (arg.length + 1)) / 4 * 4 ≤ sp)) NoStop := by
        refine copyout_stack hE hsp (by omega) (by omega) (.inr rfl) ?_
        rw [hbuf]
        rfl
      apply Triple.bind hcopy
      rintro (_ | _)
      · exact Triple.pure fun s hs => ⟨hs.1, nofun⟩
      · simp only [↓reduceIte]
        apply Triple.known (fun s hs => hs.2 trivial)
        intro hbelow
        refine (ih (by omega) ?_ fun x hx => hargv x (List.mem_cons_of_mem arg hx)).pre fun s hs => hs.1
        rw [List.length_append, List.length_singleton]
        omega

theorem Image.maps {E' : ℕ → ℕ} {hi : ℕ} (h : Image L E n) (hmaps : Maps E E' n hi) (hle : n ≤ hi)
    (htop : hi ≤ KERNBASE / PGSIZE) : Image L E' hi := by
  refine ⟨h.user.maps hmaps hle, fun v hv => ?_, htop⟩
  rw [hmaps.outside v (by omega)]
  exact h.kernel v hv

theorem Image.clear (h : Image L E n) (hv : v < n) :
    Image L (update E v (E v - E v / 4 % 2 * 4)) n := by
  obtain ⟨htop, hp⟩ := h.present hv
  refine ⟨fun x hx => ?_, fun x hx => ?_, h.top⟩
  · by_cases hxv : x = v
    · rw [hxv, update_self, decide_eq_true hv]
      rw [present_eq, decide_eq_true_eq] at hp ⊢
      omega
    · rw [update_of_ne hxv]
      exact h.user x hx
  · rw [update_of_ne (by omega)]
    exact h.kernel x hx

theorem image_start : Image L (kernelEntries L) 0 := by
  refine ⟨fun v hv => ?_, fun _ _ => rfl, Nat.zero_le _⟩
  rw [kernelEntries_user hv]
  rfl

theorem word_lt (bytes : List UInt8) (a : ℕ) : word bytes a < 2 ^ 32 := by
  have hbyte (i : ℕ) : (bytes.getD i 0).toNat < 2 ^ 8 := UInt8.toNat_lt _
  have h0 := hbyte a
  have h1 := hbyte (a + 1)
  have h2 := hbyte (a + 2)
  have h3 := hbyte (a + 3)
  simp only [word, get32]
  omega

theorem allocuvm_image {oldsz newsz : ℕ} (hold : oldsz ≤ KERNBASE) (hE : Image L E (pageCount oldsz)) :
    Triple (Own A H R m₀ d E) (allocuvm L d oldsz newsz) (fun r s => ∃ E', Own A H R m₀ d E' s ∧
      (r ≠ 0 → r = max oldsz newsz ∧ newsz < KERNBASE ∧ Image L E' (pageCount r))) NoStop := by
  refine (allocuvm_own hold fun hnew x hlo hhi => ?_).post ?_
  · exact hE.user.above hlo (Nat.lt_of_lt_of_le hhi (pageCount_le (Nat.le_of_lt hnew)))
  · rintro r s (⟨rfl, hle, hnew, E', hs, hmaps⟩ | ⟨rfl, hlt, hnew, hs⟩ | ⟨rfl, E', hs, _⟩)
    · refine ⟨E', hs, fun _ => ⟨by omega, hnew, hE.maps hmaps ?_ (pageCount_le (Nat.le_of_lt hnew))⟩⟩
      simp only [pageCount, PGSIZE]
      omega
    · exact ⟨E, hs, fun _ => ⟨by omega, hnew, hE⟩⟩
    · exact ⟨E', hs, fun h => absurd rfl h⟩

theorem allocuvm_first {newsz : ℕ} (hcalm : A.calm) (hnew : newsz < KERNBASE)
    (hroom : 1 + NPDENTRIES + pageCount newsz + H.card + R.card < A.pages.card)
    (hs : Own A H R m₀ d (kernelEntries L) s) : ∃ E x, (allocuvm L d 0 newsz).run s = .ok (newsz, x) ∧
      Own A H R m₀ d E x ∧ Maps (kernelEntries L) E 0 (pageCount newsz) ∧ Image L E (pageCount newsz) := by
  have hstart := image_start (L := L)
  have htop := pageCount_le (Nat.le_of_lt hnew)
  obtain ⟨r, x, hrun, hr⟩ := (allocuvm_own (Nat.zero_le KERNBASE) fun _ v hlo hhi =>
    hstart.user.above hlo (Nat.lt_of_lt_of_le hhi htop)).returns hs
  obtain ⟨rfl, _, _, E, hx, hmaps⟩ | ⟨_, hless, _⟩ | ⟨_, _, _, _, hscarce⟩ := hr
  · exact ⟨E, x, hrun, hx, hmaps, hstart.maps hmaps (Nat.zero_le _) htop⟩
  · omega
  · have hfew := hscarce hnew hcalm
    rw [need, card_userPages hstart.user (Nat.zero_le _)] at hfew
    omega

theorem loadSegments_own (hsz : sz < KERNBASE) (hE : Image L E (pageCount sz)) :
    Triple (Own A H R m₀ d E) (loadSegments read L d k off sz state) (fun r s => ∃ E', Own A H R m₀ d E' s ∧
      ∀ sz', r = some sz' → sz' < KERNBASE ∧ Image L E' (pageCount sz')) NoStop := by
  induction k generalizing off sz state E with
  | zero =>
    refine Triple.pure fun s hs => ⟨E, hs, fun sz' h => ?_⟩
    cases h
    exact ⟨hsz, hE⟩
  | succ k ih =>
    have hbad : Triple (Own A H R m₀ d E) (pure none : Call (Option ℕ)) (fun r s => ∃ E', Own A H R m₀ d E' s ∧
        ∀ sz', r = some sz' → sz' < KERNBASE ∧ Image L E' (pageCount sz')) NoStop :=
      Triple.pure fun s hs => ⟨E, hs, nofun⟩
    unfold loadSegments
    dsimp only
    generalize read state off 32 = bytes
    have hvaddr : (proghdr bytes.1).vaddr < 2 ^ 32 := word_lt _ _
    have hmemsz : (proghdr bytes.1).memsz < 2 ^ 32 := word_lt _ _
    generalize proghdr bytes.1 = ph at hvaddr hmemsz ⊢
    refine Triple.ite (fun _ => hbad) fun _ => Triple.ite (fun _ => ih hsz hE) fun _ =>
      Triple.ite (fun _ => hbad) fun hfile => Triple.ite (fun _ => hbad) fun hwrap => ?_
    have hsum : (ph.vaddr + ph.memsz) % 2 ^ 32 = ph.vaddr + ph.memsz := by omega
    rw [hsum]
    apply Triple.bind (allocuvm_image (Nat.le_of_lt hsz) hE)
    intro r
    apply Triple.start
    rintro s ⟨E', hs, hr⟩
    have hbad' : Triple (fun x => x = s) (pure none : Call (Option ℕ)) (fun r s => ∃ E', Own A H R m₀ d E' s ∧
        ∀ sz', r = some sz' → sz' < KERNBASE ∧ Image L E' (pageCount sz')) NoStop :=
      Triple.ret ⟨E', hs, nofun⟩
    refine Triple.ite (fun _ => hbad') fun hr0 => Triple.ite (fun _ => hbad') fun haligned => ?_
    obtain ⟨hmax, hnew, hE'⟩ := hr hr0
    have hload : Triple (Own A H R m₀ d E') (loaduvm read d ph.vaddr ph.off ph.filesz bytes.2)
        (fun _ => Own A H R m₀ d E') NoStop := by
      refine loaduvm_own (not_not.mp haligned) (by omega) fun x hx => (hE'.present ?_).2
      exact lt_pageCount.mpr (by omega)
    refine Triple.bind (hload.here hs) fun r' => ?_
    cases r' with
    | none => exact Triple.pure fun x hx => ⟨E', hx, nofun⟩
    | some state' => exact ih (by omega) hE'

theorem length_words (ws : List ℕ) : (ws.flatMap bytesOf).length = ws.length * 4 := by
  induction ws with
  | nil => rfl
  | cons w ws ih =>
    rw [List.flatMap_cons, List.length_append, ih, List.length_cons, Nat.succ_mul, Nat.add_comm]
    rfl

theorem length_ustack (sp : ℕ) (ptrs : List ℕ) : ((ustack sp ptrs).flatMap bytesOf).length =
    (3 + ptrs.length + 1) * 4 := by
  rw [length_words]
  simp only [ustack, List.length_append, List.length_cons, List.length_nil]

theorem pageCount_page (n : ℕ) : pageCount (n * PGSIZE) = n := by
  simp only [pageCount, PGSIZE]
  omega

theorem stack_room {r : ℕ} (hn : n ≤ KERNBASE / PGSIZE)
    (hr : r = max (n * PGSIZE) ((n * PGSIZE + 2 * PGSIZE) % 2 ^ 32))
    (hnew : (n * PGSIZE + 2 * PGSIZE) % 2 ^ 32 < KERNBASE) : r = (n + 2) * PGSIZE ∧ r < KERNBASE := by
  simp only [KERNBASE, PGSIZE] at *
  omega

theorem loadImage_rule {phnum phoff : ℕ} {Q : Option (ℕ × ℕ) → Machine → Prop} {Z : Stop → Prop}
    (hfail : ∀ E x, Own A H R m₀ d E x → Q none x)
    (hpush : ∀ n E, Image L E (n + 2) → (n + 2) * PGSIZE < KERNBASE →
      (∀ v, n ≤ v → v < n + 2 → PTE_FLAGS (E v) = PTE_W ||| PTE_U ||| PTE_P) →
      Triple (Own A H R m₀ d (update E n (E n - E n / 4 % 2 * 4))) (pushStack d ((n + 2) * PGSIZE) argv) Q Z) :
    Triple (Own A H R m₀ d (kernelEntries L)) (loadImage L d phnum phoff reads argv) Q Z := by
  apply Triple.bind (Triple.except (loadSegments_own (by decide) image_start) fun _ h => h.elim)
  intro r
  apply Triple.start
  rintro s ⟨E₁, hs, hr⟩
  cases r with
  | none => exact Triple.ret (hfail _ _ hs)
  | some sz =>
    obtain ⟨hsz, hE₁⟩ := hr sz rfl
    simp only [pgroundup_eq (Nat.le_of_lt hsz)]
    clear hr hsz
    generalize pageCount sz = n at hE₁ ⊢
    have hle : n * PGSIZE ≤ KERNBASE := Nat.mul_le_of_le_div _ _ _ hE₁.top
    have hcount := pageCount_page n
    generalize hsum : (n * PGSIZE + 2 * PGSIZE) % 2 ^ 32 = newsz
    have habsent : newsz < KERNBASE → ∀ x, pageCount (n * PGSIZE) ≤ x → x < pageCount newsz →
        present (E₁ x) = false := by
      intro hnew x hlo hhi
      rw [hcount] at hlo
      exact hE₁.user.above hlo (Nat.lt_of_lt_of_le hhi (pageCount_le (Nat.le_of_lt hnew)))
    refine Triple.bind (Triple.except ((allocuvm_own hle habsent).here hs) fun _ h => h.elim) fun r => ?_
    apply Triple.start
    rintro y (⟨rfl, _, hnew, E₂, hy, hmaps⟩ | ⟨_, hless, _⟩ | ⟨rfl, E₂, hy, _⟩)
    · obtain ⟨rfl, hrlt⟩ := stack_room hE₁.top (r := r) (by rw [hsum]; omega) (by rwa [hsum])
      have hguard : (n + 2) * PGSIZE - 2 * PGSIZE = n * PGSIZE := by rw [Nat.add_mul, Nat.add_sub_cancel]
      rw [hcount, pageCount_page] at hmaps
      have hE₂ : Image L E₂ (n + 2) := by
        refine hE₁.maps hmaps (by omega) ?_
        rw [← pageCount_page (n + 2)]
        exact pageCount_le (Nat.le_of_lt hrlt)
      obtain ⟨huser, hp⟩ := hE₂.present (v := n) (by omega)
      rw [if_neg (by rw [PGSIZE]; omega), hguard]
      refine Triple.bind (Triple.except ((clearpteu_own huser hp).here hy) fun _ h => h.elim) fun _ => ?_
      exact hpush n E₂ hE₂ hrlt fun v hlo hhi => (hmaps.inside v hlo hhi).2
    · rw [← hsum] at hless
      simp only [KERNBASE, PGSIZE] at hle hless
      omega
    · rw [if_pos rfl]
      exact Triple.ret (hfail _ _ hy)

theorem pushStack_own (hE : Image L E n) (hargv : ∀ arg ∈ argv, arg.length < 2 ^ 32 - DEVSPACE) :
    Triple (Own A H R m₀ d E) (pushStack d (n * PGSIZE) argv)
      (fun r s => Own A H R m₀ d E s ∧ ∀ sz esp, r = some (sz, esp) → sz = n * PGSIZE) NoStop := by
  refine Triple.bind (pushArgs_own hE (Nat.le_refl _) (Nat.zero_le _) hargv) fun r => ?_
  rcases r with _ | ⟨sp, ptrs⟩
  · exact Triple.pure fun x hx => ⟨hx.1, fun _ _ h => absurd h.symm (Option.some_ne_none _)⟩
  · apply Triple.start
    rintro x ⟨hx, hstack⟩
    obtain ⟨hsp, hptrs⟩ := hstack sp ptrs rfl
    have hbytes := length_ustack sp ptrs
    have hcopy : Triple (Own A H R m₀ d E)
        (copyout d (uint (sp - (3 + ptrs.length + 1) * 4)) ((ustack sp ptrs).flatMap bytesOf)) _ NoStop :=
      copyout_stack hE hsp (by omega) (by simp only [MAXARG, DEVSPACE] at *; omega) (.inl rfl) (by
        rw [hbytes, Nat.div_one, Nat.mul_one]
        rfl)
    apply Triple.bind (hcopy.here hx)
    rintro (_ | _)
    · exact Triple.pure fun z hz => ⟨hz.1, fun _ _ h => absurd h.symm (Option.some_ne_none _)⟩
    · refine Triple.pure fun z hz => ⟨hz.1, fun sz' esp h => ?_⟩
      cases h
      rfl

theorem loadImage_own {phnum phoff : ℕ} (hargv : ∀ arg ∈ argv, arg.length < 2 ^ 32 - DEVSPACE) :
    Triple (Own A H R m₀ d (kernelEntries L)) (loadImage L d phnum phoff reads argv)
      (fun r s => ∃ E', Own A H R m₀ d E' s ∧
        ∀ sz esp, r = some (sz, esp) → sz < KERNBASE ∧ Filled E' (pageCount sz)) NoStop := by
  refine loadImage_rule (fun E x hx => ⟨E, hx, fun _ _ h => absurd h.symm (Option.some_ne_none _)⟩) ?_
  intro n E hE hlt _
  have hE' := hE.clear (v := n) (by omega)
  refine (pushStack_own hE' hargv).post fun r s hs => ⟨_, hs.1, fun sz esp h => ?_⟩
  obtain rfl := hs.2 sz esp h
  rw [pageCount_page]
  exact ⟨hlt, hE'.user⟩

end Xv6.Vm
