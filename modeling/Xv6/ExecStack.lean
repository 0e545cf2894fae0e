import Xv6.ExecLoad

namespace Xv6.Vm

open Xv6.Memory (PGSIZE KERNBASE uint)
open Xv6.Triples Xv6.Words Function

def Holds (C : ℕ → ℕ) (a : ℕ) (buf : List UInt8) : Prop := ∀ j (hj : j < buf.length), C (a + j) = buf[j].toNat

section Holding

variable {C C' : ℕ → ℕ} {a va : ℕ} {buf buf' : List UInt8}

theorem Holds.congr (h : Holds C a buf) (hsame : ∀ x, a ≤ x → x < a + buf.length → C' x = C x) :
    Holds C' a buf := by
  intro j hj
  rw [hsame (a + j) (by omega) (by omega)]
  exact h j hj

theorem holds_put (C : ℕ → ℕ) (va : ℕ) (buf : List UInt8) : Holds (put C va buf) va buf := by
  intro j hj
  rw [put, if_pos (by omega), Nat.add_sub_cancel_left, List.getD_eq_getElem _ _ hj]

theorem Holds.put_below (h : Holds C a buf) (hbelow : va + buf'.length ≤ a) : Holds (put C va buf') a buf :=
  h.congr fun x hx _ => if_neg (by omega)

theorem Holds.left (h : Holds C a (buf ++ buf')) : Holds C a buf := by
  intro j hj
  have hbyte := h j (by rw [List.length_append]; omega)
  rwa [List.getElem_append_left hj] at hbyte

theorem Holds.right (h : Holds C a (buf ++ buf')) : Holds C (a + buf.length) buf' := by
  intro j hj
  have hbyte := h (buf.length + j) (by rw [List.length_append]; omega)
  rw [List.getElem_append_right (by omega), ← Nat.add_assoc] at hbyte
  simpa only [Nat.add_sub_cancel_left] using hbyte

theorem Holds.word {w : ℕ} (h : Holds C a (bytesOf w)) (hw : w < 2 ^ 32) : get32 C a = w := by
  have h0 : C a = _ := h 0 (by simp [bytesOf])
  have h1 : C (a + 1) = _ := h 1 (by simp [bytesOf])
  have h2 : C (a + 2) = _ := h 2 (by simp [bytesOf])
  have h3 : C (a + 3) = _ := h 3 (by simp [bytesOf])
  simp only [bytesOf, List.getElem_cons_zero, List.getElem_cons_succ, UInt8.toNat_ofNat'] at h0 h1 h2 h3
  rw [get32, h0, h1, h2, h3]
  omega

theorem Holds.words {ws : List ℕ} (h : Holds C a (ws.flatMap bytesOf)) (hws : ∀ w ∈ ws, w < 2 ^ 32) {i : ℕ}
    (hi : i < ws.length) : get32 C (a + 4 * i) = ws.getD i 0 := by
  induction ws generalizing a i with
  | nil => exact absurd hi (Nat.not_lt_zero i)
  | cons w ws ih =>
    rw [List.flatMap_cons] at h
    cases i with
    | zero => exact h.left.word (hws w List.mem_cons_self)
    | succ i =>
      have hrest := ih h.right (fun x hx => hws x (List.mem_cons_of_mem w hx)) (Nat.lt_of_succ_lt_succ hi)
      have hfour : (bytesOf w).length = 4 := rfl
      rw [List.getD_cons_succ, ← hrest, hfour, Nat.mul_succ, Nat.add_comm (4 * i), ← Nat.add_assoc]

end Holding

def argvAt (C : ℕ → ℕ) (esp : ℕ) : ℕ := get32 C (esp + 8)

def argPtr (C : ℕ → ℕ) (esp i : ℕ) : ℕ := get32 C (argvAt C esp + 4 * i)

def regions (C : ℕ → ℕ) (esp : ℕ) (argv : List (List UInt8)) : List (ℕ × ℕ) :=
  (esp, 12) :: (argvAt C esp, 4 * (argv.length + 1)) :: argv.mapIdx fun i arg => (argPtr C esp i, arg.length + 1)

structure ArgStack (C : ℕ → ℕ) (base top esp : ℕ) (argv : List (List UInt8)) : Prop where
  pc : get32 C esp = 0xffffffff
  argc : get32 C (esp + 4) = argv.length
  last : argPtr C esp argv.length = 0
  strings : ∀ i (hi : i < argv.length), Holds C (argPtr C esp i) (argv[i] ++ [0])
  apart : (regions C esp argv).Pairwise fun r r' => r.1 + r.2 ≤ r'.1 ∨ r'.1 + r'.2 ≤ r.1
  inside : ∀ r ∈ regions C esp argv, r.1 % 4 = 0 ∧ base ≤ r.1 ∧ r.1 + r.2 ≤ top

structure Pushed (C : ℕ → ℕ) (sp top : ℕ) (l : List (ℕ × List UInt8)) : Prop where
  holds : ∀ x ∈ l, Holds C x.1 (x.2 ++ [0])
  inside : ∀ x ∈ l, x.1 % 4 = 0 ∧ sp ≤ x.1 ∧ x.1 + (x.2.length + 1) ≤ top
  order : l.Pairwise fun x y => y.1 + (y.2.length + 1) ≤ x.1

section Pushing

variable {C C' : ℕ → ℕ} {sp sp' top : ℕ} {l : List (ℕ × List UInt8)} {arg : List UInt8}

theorem pushed_nil (C : ℕ → ℕ) (sp top : ℕ) : Pushed C sp top [] :=
  ⟨fun _ h => absurd h List.not_mem_nil, fun _ h => absurd h List.not_mem_nil, List.Pairwise.nil⟩

theorem Pushed.congr (h : Pushed C sp top l) (hsame : ∀ a, sp ≤ a → a < top → C' a = C a) :
    Pushed C' sp top l := by
  refine ⟨fun x hx => (h.holds x hx).congr fun a ha hlt => ?_, h.inside, h.order⟩
  obtain ⟨_, hlow, hhigh⟩ := h.inside x hx
  rw [List.length_append, List.length_singleton] at hlt
  exact hsame a (by omega) (by omega)

theorem Pushed.push (h : Pushed C sp top l) (haligned : sp' % 4 = 0) (hroom : sp' + (arg.length + 1) ≤ sp)
    (htop : sp ≤ top) : Pushed (put C sp' (arg ++ [0])) sp' top (l ++ [(sp', arg)]) := by
  have hlen : (arg ++ [0]).length = arg.length + 1 := List.length_append
  refine ⟨fun x hx => ?_, fun x hx => ?_, ?_⟩
  · obtain hx | hx := List.mem_append.mp hx
    · exact (h.holds x hx).put_below (by have := (h.inside x hx).2.1; omega)
    · rw [List.mem_singleton.mp hx]
      exact holds_put _ _ _
  · obtain hx | hx := List.mem_append.mp hx
    · obtain ⟨hmod, hlow, hhigh⟩ := h.inside x hx
      exact ⟨hmod, by omega, hhigh⟩
    · rw [List.mem_singleton.mp hx]
      exact ⟨haligned, Nat.le_refl _, Nat.le_trans hroom htop⟩
  · refine List.pairwise_append.mpr ⟨h.order, List.pairwise_singleton _ _, fun x hx y hy => ?_⟩
    rw [List.mem_singleton.mp hy]
    exact Nat.le_trans hroom (h.inside x hx).2.1

section Words

variable {base esp : ℕ}

theorem ustack_eq (hsmall : sp < 2 ^ 32) (hesp : esp + (3 + l.length + 1) * 4 = sp) :
    ustack sp (l.map Prod.fst) = 0xffffffff :: l.length :: (esp + 12) :: (l.map Prod.fst ++ [0]) := by
  have hav : uint (sp - ((l.map Prod.fst).length + 1) * 4) = esp + 12 := by
    rw [List.length_map]
    unfold uint
    omega
  rw [ustack, hav, List.length_map]
  rfl

theorem Pushed.ustack_lt (h : Pushed C sp top l) (htop : sp ≤ top) (hsmall : top < 2 ^ 32)
    (hesp : esp + (3 + l.length + 1) * 4 = sp) : ∀ w ∈ ustack sp (l.map Prod.fst), w < 2 ^ 32 := by
  intro w hw
  rw [ustack_eq (by omega) hesp] at hw
  simp only [List.mem_append, List.mem_cons, List.not_mem_nil, or_false, List.mem_map] at hw
  obtain rfl | rfl | rfl | ⟨x, hx, rfl⟩ | rfl := hw
  · decide
  · omega
  · omega
  · have hin := h.inside x hx
    omega
  · decide

structure Pointers (C : ℕ → ℕ) (esp : ℕ) (l : List (ℕ × List UInt8)) : Prop where
  pc : get32 C esp = 0xffffffff
  argc : get32 C (esp + 4) = l.length
  argv : argvAt C esp = esp + 12
  strings : ∀ i (hi : i < l.length), argPtr C esp i = (l[i]).1
  last : argPtr C esp l.length = 0

theorem Pushed.pointers (h : Pushed C sp top l) (htop : sp ≤ top) (hsmall : top < 2 ^ 32)
    (hesp : esp + (3 + l.length + 1) * 4 = sp)
    (hwords : Holds C esp ((ustack sp (l.map Prod.fst)).flatMap bytesOf)) :
    Pointers C esp l := by
  have hstack := ustack_eq (Nat.lt_of_le_of_lt htop hsmall) hesp
  have hlen : (ustack sp (l.map Prod.fst)).length = l.length + 4 := by
    rw [hstack, List.length_cons, List.length_cons, List.length_cons, List.length_append, List.length_map,
      List.length_singleton]
  have hword {i : ℕ} (hi : i < l.length + 4) :
      get32 C (esp + 4 * i) = (0xffffffff :: l.length :: (esp + 12) :: (l.map Prod.fst ++ [0])).getD i 0 := by
    rw [hwords.words (h.ustack_lt htop hsmall hesp) (by rwa [hlen]), hstack]
  have hargv : argvAt C esp = esp + 12 := hword (i := 2) (by omega)
  have hentry {i : ℕ} (hi : i < l.length + 1) : argPtr C esp i = (l.map Prod.fst ++ [0]).getD i 0 := by
    rw [argPtr, hargv, show esp + 12 + 4 * i = esp + 4 * (i + 3) by omega, hword (by omega)]
    rfl
  refine ⟨hword (i := 0) (by omega), hword (i := 1) (by omega), hargv, fun i hi => ?_, ?_⟩
  · have hi' : i < (l.map Prod.fst).length := by rwa [List.length_map]
    rw [hentry (by omega), List.getD_append _ _ _ _ hi', List.getD_eq_getElem _ _ hi', List.getElem_map]
  · rw [hentry (by omega), List.getD_append_right _ _ _ _ (by rw [List.length_map]), List.length_map, Nat.sub_self]
    rfl

theorem Pointers.regions (h : Pointers C esp l) : regions C esp (l.map Prod.snd) =
    (esp, 12) :: (esp + 12, 4 * (l.length + 1)) :: l.map fun x => (x.1, x.2.length + 1) := by
  rw [Vm.regions, h.argv, List.length_map]
  congr 2
  refine List.ext_getElem (by simp) fun i hi hi' => ?_
  rw [List.length_map] at hi'
  rw [List.getElem_mapIdx, List.getElem_map, List.getElem_map, h.strings i hi']

theorem Pushed.argStack (h : Pushed C sp top l) (htop : sp ≤ top) (hsmall : top < 2 ^ 32)
    (haligned : sp % 4 = 0) (hesp : esp + (3 + l.length + 1) * 4 = sp) (hbase : base ≤ esp)
    (hwords : Holds C esp ((ustack sp (l.map Prod.fst)).flatMap bytesOf)) :
    ArgStack C base top esp (l.map Prod.snd) := by
  have hptrs := h.pointers htop hsmall hesp hwords
  refine ⟨hptrs.pc, ?_, ?_, fun i hi => ?_, ?_, ?_⟩
  · rw [List.length_map]
    exact hptrs.argc
  · rw [List.length_map]
    exact hptrs.last
  · rw [List.length_map] at hi
    rw [hptrs.strings i hi, List.getElem_map]
    exact h.holds _ (List.getElem_mem hi)
  · -- the words, the array and the strings follow one another
    have hstring : ∀ r ∈ l.map fun x => (x.1, x.2.length + 1), sp ≤ r.1 := by
      intro r hr
      obtain ⟨x, hx, rfl⟩ := List.mem_map.mp hr
      exact (h.inside x hx).2.1
    rw [hptrs.regions, List.pairwise_cons, List.pairwise_cons, List.pairwise_map]
    refine ⟨fun r hr => .inl ?_, fun r hr => .inl ?_, h.order.imp .inr⟩
    · obtain rfl | hr := List.mem_cons.mp hr
      · exact Nat.le_refl _
      · have hsp := hstring r hr
        omega
    · have hsp := hstring r hr
      omega
  · rw [hptrs.regions]
    intro r hr
    obtain rfl | hr := List.mem_cons.mp hr
    · omega
    · obtain rfl | hr := List.mem_cons.mp hr
      · omega
      · obtain ⟨x, hx, rfl⟩ := List.mem_map.mp hr
        obtain ⟨hmod, hlow, hhigh⟩ := h.inside x hx
        exact ⟨hmod, by omega, hhigh⟩

end Words

end Pushing

structure StackPages (L : Layout) (E : ℕ → ℕ) (n : ℕ) : Prop where
  image : Image L E (n + 2)
  stack : Accessible (E (n + 1))
  guard : ¬ Accessible (E n)

variable {L : Layout} {A : Frames L} {H R : Multiset ℕ} {m₀ : ℕ → Bytes} {d n : ℕ} {E C : ℕ → ℕ} {s : Machine}

theorem Image.supervisor (h : Image L E n) : Supervisor E := by
  intro v hv
  rw [h.kernel v hv]
  exact kernelEntries_supervisor L v

variable {sp va : ℕ} {buf : List UInt8} {l : List (ℕ × List UInt8)} {argv : List (List UInt8)}

def TooLong (n : ℕ) (stop : Stop) : Prop := stop = .fault ∧ 2 ^ 32 - DEVSPACE < n

theorem copyout_guard (hs : Own A H R m₀ d E s) (hE : StackPages L E n)
    (hva : va + buf.length ≤ (n + 2) * PGSIZE) (hbuf : 0 < buf.length) (hlow : va < (n + 1) * PGSIZE)
    (hhigh : (n + 1) * PGSIZE < va + buf.length + 4) :
    Triple (fun x => x = s) (copyout d va buf) (fun ok x => ok = false ∧ Own A H R m₀ d E x) NoStop := by
  have htop := hE.image.top
  have hsmall : va < 2 ^ 32 := by
    simp only [KERNBASE, PGSIZE] at *
    omega
  obtain hall | ⟨v, hbad⟩ := firstBad_or s.mem d va buf.length
  · -- the range begins in the guard page, or passes its first byte
    have hguard : max va (n * PGSIZE) / PGSIZE = n := by
      simp only [PGSIZE] at *
      omega
    have huser := hall (max va (n * PGSIZE)) (Nat.le_max_left _ _) (by
      simp only [PGSIZE] at *
      omega)
    rw [hguard, UserPage, hs.entries n (by simp only [KERNBASE, PGSIZE] at htop; omega)] at huser
    exact absurd huser.2 hE.guard
  · have hv : v < n + 2 := by
      obtain ⟨a, _, hlt, rfl⟩ := hbad.touched
      simp only [PGSIZE] at *
      omega
    obtain ⟨huser, hp⟩ := hE.image.present hv
    cases ht : tableOf s.mem d (v / 1024) with
    | none => exact absurd (hs.absent (lt_top huser) ht) (present_ne_zero hp)
    | some table => exact copyoutOn_refuses hs hE.image.supervisor hsmall hbad ht

theorem copyout_wraps (hs : Own A H R m₀ d E s) (hE : Image L E n) (hva : va < 2 ^ 32)
    (hend : 2 ^ 32 ≤ va + buf.length) (hlow : DEVSPACE ≤ va ∨ 2 ^ 32 - DEVSPACE < buf.length) :
    Triple (fun x => x = s) (copyout d va buf) (fun ok x => ok = false ∧ Own A H R m₀ d E x)
    (TooLong buf.length) := by
  obtain hdev | hlong := hlow
  · exact Triple.except ((copyout_device hE hdev hva (by omega)).here hs) fun _ h => h.elim
  · obtain hall | ⟨v, hbad⟩ := firstBad_or s.mem d va buf.length
    · have hlast := hall (2 ^ 32 - 1) (by omega) (by omega)
      rw [UserPage, hs.entries _ hlast.1] at hlast
      exact absurd (hE.supervisor _ (by decide)) hlast.2.2
    · cases ht : tableOf s.mem d (v / 1024) with
      | none =>
        refine Triple.except ((copyoutOn_faults hs hE.supervisor hva hbad ht).post fun _ _ h => h.elim) ?_
        rintro _ rfl
        exact ⟨rfl, hlong⟩
      | some table => exact Triple.except (copyoutOn_refuses hs hE.supervisor hva hbad ht) fun _ h => h.elim

theorem copyout_inPage (hs : Own A H R m₀ d E s) (hE : StackPages L E n)
    (hlo : (n + 1) * PGSIZE ≤ va) (hhi : va + buf.length ≤ (n + 2) * PGSIZE) :
    Triple (fun x => x = s) (copyout d va buf)
      (fun ok x => Own A H R m₀ d E x ∧ ok = true ∧ Wrote E va buf s.mem x.mem) NoStop := by
  have hown : Triple (fun x => x = s) (copyout d va buf) (fun _ => Own A H R m₀ d E) NoStop :=
    (copyout_user hE.image hhi).here hs
  have hall : ∀ b, va ≤ b → b < va + buf.length → Accessible (E (b / PGSIZE)) := by
    intro b hb hb'
    have hpage : b / PGSIZE = n + 1 := by
      simp only [PGSIZE] at *
      omega
    rw [hpage]
    exact hE.stack
  have hwrote : Triple (fun x => x = s) (copyout d va buf)
      (fun ok x => ok = true ∧ Wrote E va buf s.mem x.mem ∧ x.freelist = s.freelist) NoStop := by
    exact copyoutOnFrom_all hs hE.image.supervisor hall (Nat.lt_succ_self _)
  refine Triple.except (((hown.and hwrote).pre fun x hx => ⟨hx, hx⟩).post fun ok x hx => ?_) fun _ h => h.1
  exact ⟨hx.1, hx.2.1, hx.2.2.1⟩

theorem copyout_stackPage {a : ℕ} (hs : Own A H R m₀ d E s) (hE : StackPages L E n)
    (hC : Shows E s.mem (n + 2) C) (hlow : (n + 1) * PGSIZE ≤ sp)
    (hsp : sp ≤ (n + 2) * PGSIZE) (hbuf : 0 < buf.length)
    (ha : a = 1 ∨ a = 4) (hva : va = uint (sp - buf.length) / a * a) :
    Triple (fun x => x = s) (copyout d va buf) (fun ok x => Own A H R m₀ d E x ∧ (ok = true →
      buf.length ≤ sp ∧ va = (sp - buf.length) / a * a ∧ (n + 1) * PGSIZE ≤ va ∧
      Shows E x.mem (n + 2) (put C va buf)))
      (TooLong buf.length) := by
  have htop := hE.image.top
  simp only [KERNBASE, PGSIZE] at htop
  have hsmall : sp < 2 ^ 32 ∧ 4 ≤ sp := by
    simp only [PGSIZE] at hsp hlow
    omega
  have hfalse {x : Machine} {ok : Bool} (hx : ok = false ∧ Own A H R m₀ d E x) : Own A H R m₀ d E x ∧ (ok = true →
      buf.length ≤ sp ∧ va = (sp - buf.length) / a * a ∧ (n + 1) * PGSIZE ≤ va ∧
        Shows E x.mem (n + 2) (put C va buf)) := by
    obtain ⟨rfl, hx⟩ := hx
    exact ⟨hx, fun h => absurd h Bool.false_ne_true⟩
  by_cases hle : buf.length ≤ sp
  · have hu : uint (sp - buf.length) = sp - buf.length := by
      unfold uint
      omega
    rw [hu] at hva
    have hfit : va + buf.length ≤ sp ∧ sp < va + buf.length + 4 := by
      rw [hva]
      obtain rfl | rfl := ha <;> omega
    by_cases hpage : (n + 1) * PGSIZE ≤ va
    · refine Triple.except ((copyout_inPage hs hE hpage (by omega)).post fun ok x hx =>
        ⟨hx.1, fun _ => ?_⟩) fun _ h => h.elim
      exact ⟨hle, hva, hpage, hx.2.2.shows hs hE.image (by omega) hC⟩
    · have hguard := copyout_guard hs hE (show va + buf.length ≤ (n + 2) * PGSIZE by omega) hbuf
        (by omega) (by omega)
      exact Triple.except (hguard.post fun ok x hx => hfalse hx) fun _ h => h.elim
  · have hrange : va < 2 ^ 32 ∧ 2 ^ 32 ≤ va + buf.length ∧ (DEVSPACE ≤ va ∨ 2 ^ 32 - DEVSPACE < buf.length) := by
      rw [hva, DEVSPACE]
      unfold uint
      obtain rfl | rfl := ha <;> omega
    exact (copyout_wraps hs hE.image hrange.1 hrange.2.1 hrange.2.2).post fun ok x hx => hfalse hx

def LongArg (argv : List (List UInt8)) (stop : Stop) : Prop :=
  stop = .fault ∧ ∃ arg ∈ argv, 2 ^ 32 - DEVSPACE ≤ arg.length

theorem pushArgs_shows (hs : Own A H R m₀ d E s)
    (hE : StackPages L E n) (hC : Shows E s.mem (n + 2) C) (hlow : (n + 1) * PGSIZE ≤ sp)
    (hsp : sp ≤ (n + 2) * PGSIZE)
    (haligned : sp % 4 = 0) (hmax : l.length ≤ MAXARG) (hl : Pushed C sp ((n + 2) * PGSIZE) l) :
    Triple (fun x => x = s) (pushArgs d sp (l.map Prod.fst) argv) (fun r x => Own A H R m₀ d E x ∧
      ∀ sp' ptrs, r = some (sp', ptrs) → ∃ C' l', Shows E x.mem (n + 2) C' ∧ Pushed C' sp' ((n + 2) * PGSIZE) l' ∧
        ptrs = l'.map Prod.fst ∧ l'.map Prod.snd = l.map Prod.snd ++ argv ∧ (n + 1) * PGSIZE ≤ sp' ∧
        sp' ≤ (n + 2) * PGSIZE ∧ sp' % 4 = 0 ∧ l'.length ≤ MAXARG) (LongArg argv) := by
  induction argv generalizing sp l C s with
  | nil =>
    refine Triple.ret ⟨hs, fun sp' ptrs h => ?_⟩
    cases h
    exact ⟨C, l, hC, hl, rfl, by rw [List.append_nil], hlow, hsp, haligned, hmax⟩
  | cons arg argv ih =>
    unfold pushArgs
    apply Triple.ite
    · intro _
      exact Triple.ret ⟨hs, fun _ _ h => absurd h.symm (Option.some_ne_none _)⟩
    · intro hroom
      rw [List.length_map] at hroom
      have hbuf : (arg ++ [0]).length = arg.length + 1 := List.length_append
      have hcopy : Triple (fun x => x = s) (copyout d (uint (sp - (arg.length + 1)) / 4 * 4) (arg ++ [0])) _
          (TooLong (arg ++ [0]).length) :=
        copyout_stackPage hs hE hC hlow hsp (by omega) (.inr rfl) (by rw [hbuf]; rfl)
      apply Triple.bind (hcopy.except fun stop hstop => ⟨hstop.1, arg, List.mem_cons_self,
        by have := hstop.2; omega⟩)
      intro ok
      apply Triple.start
      rintro x ⟨hx, hok⟩
      cases ok with
      | false => exact Triple.ret ⟨hx, fun _ _ h => absurd h.symm (Option.some_ne_none _)⟩
      | true =>
        obtain ⟨hle, hva, hpage, hshows⟩ := hok rfl
        rw [hbuf] at hle hva
        generalize uint (sp - (arg.length + 1)) / 4 * 4 = va at hva hpage hshows ⊢
        have hptrs : l.map Prod.fst ++ [va] = (l ++ [(va, arg)]).map Prod.fst := by rw [List.map_append]; rfl
        have hpushed : Pushed (put C va (arg ++ [0])) va ((n + 2) * PGSIZE) (l ++ [(va, arg)]) :=
          hl.push (by omega) (by omega) hsp
        simp only [↓reduceIte, hptrs]
        refine Triple.except ((ih hx hshows hpage (by omega) (by omega) ?_ hpushed).post ?_) ?_
        · rw [List.length_append, List.length_singleton]
          omega
        · rintro r y ⟨hy, hr⟩
          refine ⟨hy, fun sp' ptrs h => ?_⟩
          obtain ⟨C', l', hC', hl', hptr, hargs, hrest⟩ := hr sp' ptrs h
          refine ⟨C', l', hC', hl', hptr, ?_, hrest⟩
          rw [hargs, List.map_append, List.append_assoc]
          rfl
        · rintro stop ⟨hstop, y, hy, hlen⟩
          exact ⟨hstop, y, List.mem_cons_of_mem arg hy, hlen⟩

theorem accessible_flags {w : ℕ} (h : PTE_FLAGS w = PTE_W ||| PTE_U ||| PTE_P) : Accessible w := by
  have hmod : w % 4096 = 7 := h
  have hp : present w = true := by
    rw [present_eq, decide_eq_true_eq]
    omega
  refine ⟨of_decide_eq_true hp, ?_⟩
  rw [ne_eq, and_user]
  omega

theorem Image.stackPages (h : Image L E (n + 2))
    (hflags : ∀ v, n ≤ v → v < n + 2 → PTE_FLAGS (E v) = PTE_W ||| PTE_U ||| PTE_P) :
    StackPages L (update E n (E n - E n / 4 % 2 * 4)) n := by
  refine ⟨h.clear (by omega), ?_, ?_⟩
  · rw [update_of_ne (by omega)]
    exact accessible_flags (hflags (n + 1) (by omega) (by omega))
  · rw [update_self]
    rintro ⟨_, huser⟩
    rw [ne_eq, and_user] at huser
    omega

structure StackReady (L : Layout) (E : ℕ → ℕ) (mem : ℕ → Bytes) (sz esp : ℕ) (argv : List (List UInt8)) (n : ℕ) :
    Prop where
  size : sz = (n + 2) * PGSIZE
  pages : StackPages L E n
  stack : ∃ C, Shows E mem (n + 2) C ∧ ArgStack C ((n + 1) * PGSIZE) ((n + 2) * PGSIZE) esp argv

theorem copyout_ustack (hs : Own A H R m₀ d E s) (hE : StackPages L E n)
    (hC : Shows E s.mem (n + 2) C) (hl : Pushed C sp ((n + 2) * PGSIZE) l) (hlow : (n + 1) * PGSIZE ≤ sp)
    (hsp : sp ≤ (n + 2) * PGSIZE) (haligned : sp % 4 = 0) (hmax : l.length ≤ MAXARG) :
    Triple (fun x => x = s)
      (copyout d (uint (sp - (3 + (l.map Prod.fst).length + 1) * 4))
        ((ustack sp (l.map Prod.fst)).flatMap bytesOf))
      (fun ok x => Own A H R m₀ d E x ∧ (ok = true → ∃ C, Shows E x.mem (n + 2) C ∧
        ArgStack C ((n + 1) * PGSIZE) ((n + 2) * PGSIZE) (uint (sp - (3 + (l.map Prod.fst).length + 1) * 4))
          (l.map Prod.snd)))
      NoStop := by
  have hbytes := length_ustack sp (l.map Prod.fst)
  have htop := hE.image.top
  rw [List.length_map] at hbytes ⊢
  refine Triple.except ((copyout_stackPage hs hE hC hlow hsp (by omega) (.inl rfl) ?_).post fun ok x hx =>
    ⟨hx.1, fun hok => ?_⟩) fun stop hstop => ?_
  · rw [hbytes, Nat.div_one, Nat.mul_one]
    rfl
  · obtain ⟨hle, hva, hpage, hshows⟩ := hx.2 hok
    rw [hbytes, Nat.div_one, Nat.mul_one] at hva
    rw [hbytes] at hle
    have hsmall : (n + 2) * PGSIZE < 2 ^ 32 := by
      simp only [KERNBASE, PGSIZE] at *
      omega
    generalize uint (sp - (3 + l.length + 1) * 4) = esp at hva hpage hshows ⊢
    refine ⟨_, hshows, ?_⟩
    have hkept : Pushed (put C esp ((ustack sp (l.map Prod.fst)).flatMap bytesOf)) sp ((n + 2) * PGSIZE) l :=
      hl.congr fun a ha _ => if_neg (by omega)
    exact hkept.argStack hsp hsmall haligned (by omega) hpage (holds_put _ _ _)
  · have hlong := hstop.2
    rw [hbytes] at hlong
    simp only [MAXARG, DEVSPACE] at *
    omega

theorem pushStack_ready (hE : StackPages L E n) :
    Triple (Own A H R m₀ d E) (pushStack d ((n + 2) * PGSIZE) argv)
      (fun r x => Own A H R m₀ d E x ∧ ∀ sz esp, r = some (sz, esp) → StackReady L E x.mem sz esp argv n)
      (LongArg argv) := by
  apply Triple.start
  intro x hx
  have hlow : (n + 1) * PGSIZE ≤ (n + 2) * PGSIZE ∧ (n + 2) * PGSIZE % 4 = 0 := by
    simp only [PGSIZE]
    omega
  have hnone : Pushed (fun a => x.mem (PTE_ADDR (E (a / PGSIZE)) / PGSIZE) (a % PGSIZE))
      ((n + 2) * PGSIZE) ((n + 2) * PGSIZE) [] := pushed_nil _ _ _
  apply Triple.bind (pushArgs_shows hx hE (fun a _ => rfl) hlow.1 (Nat.le_refl _) hlow.2 (Nat.zero_le _) hnone)
  intro r
  apply Triple.start
  rintro z ⟨hz, hr⟩
  cases r with
  | none => exact Triple.ret ⟨hz, fun _ _ h => absurd h.symm (Option.some_ne_none _)⟩
  | some r =>
    obtain ⟨sp, ptrs⟩ := r
    obtain ⟨C, l, hC, hl, rfl, hargs, hlow, hsp, haligned, hmax⟩ := hr sp ptrs rfl
    refine Triple.bind (Triple.except (copyout_ustack hz hE hC hl hlow hsp haligned hmax)
      fun _ h => h.elim) fun ok => ?_
    apply Triple.start
    rintro w ⟨hw, hok⟩
    cases ok with
    | false => exact Triple.ret ⟨hw, fun _ _ h => absurd h.symm (Option.some_ne_none _)⟩
    | true =>
      refine Triple.ret ⟨hw, fun sz esp h => ?_⟩
      cases h
      obtain ⟨C', hC', hstack⟩ := hok rfl
      rw [hargs] at hstack
      exact ⟨rfl, hE, C', hC', hstack⟩

theorem loadImage_ready {phnum phoff : ℕ} {reads : Reads} :
    Triple (Own A H R m₀ d (kernelEntries L)) (loadImage L d phnum phoff reads argv)
    (fun r x => ∃ E, Own A H R m₀ d E x ∧
      ∀ sz esp, r = some (sz, esp) → ∃ n, StackReady L E x.mem sz esp argv n) (LongArg argv) := by
  refine loadImage_rule (fun E x hx => ⟨E, hx, fun _ _ h => absurd h.symm (Option.some_ne_none _)⟩) ?_
  intro n E hE _ hflags
  refine (pushStack_ready (hE.stackPages hflags)).post fun r x hx => ?_
  exact ⟨_, hx.1, fun sz esp h => ⟨n, hx.2 sz esp h⟩⟩

end Xv6.Vm
