import Mathlib.Data.List.GetD
import Xv6.CopyOut

namespace Xv6.Vm

open Xv6.Memory (PGSIZE KERNBASE uint)
open Xv6.Triples Xv6.Words

structure File where
  bytes : List UInt8
  small : bytes.length < 2 ^ 32

def File.readi (f : File) (off n : ℕ) : Option (List UInt8) :=
  if f.bytes.length < off ∨ (off + n) % 2 ^ 32 < off then none
  else some ((f.bytes.drop off).take n)

def File.reader (f : File) : Reader Unit := fun _ off n => ((f.readi off n).getD [], ())

structure Handle where
  ref : ℕ
  locked : Bool
  outstanding : ℕ
  deriving DecidableEq, Repr

def Handle.enter (ip : Handle) : Handle := ⟨ip.ref + 1, true, ip.outstanding + 1⟩

def Handle.leave (ip : Handle) : Handle := ⟨ip.ref - 1, false, ip.outstanding - 1⟩

/-- `exec` from the check of the header to the end of the loop over the program headers: the new directory and
its size, or `none` once it has gone to `bad`. -/
def loadProgram (L : Layout) (f : File) (ip : Handle) : Call (Option (ℕ × ℕ) × Handle) := do
  let elf := (f.readi 0 52).getD []
  if elf.length ≠ 52 then return (none, ip.leave)
  else if word elf 0 ≠ ELF_MAGIC then return (none, ip.leave)
  else
    match ← setupkvm L with
    | none => return (none, ip.leave)
    | some pgdir =>
      match ← loadSegments f.reader L pgdir (half elf 44) (word elf 28) 0 () with
      | none =>
        freevm L pgdir
        return (none, ip.leave)
      | some sz => return (some (pgdir, sz), ip.leave)

/-! The model of the whole `exec` takes what `readi` delivers as a list. A file determines that list. -/

def File.chunks (f : File) (offset sz : ℕ) : ℕ → ℕ → Reads
  | 0, _ => []
  | fuel + 1, i =>
    if i < sz then
      (f.readi ((offset + i) % 2 ^ 32) (if sz - i < PGSIZE then sz - i else PGSIZE)).getD [] ::
        f.chunks offset sz fuel ((i + PGSIZE) % 2 ^ 32)
    else []

def File.reads (f : File) : ℕ → ℕ → Reads
  | 0, _ => []
  | k + 1, off =>
    let ph := proghdr ((f.readi off 32).getD [])
    (f.readi off 32).getD [] ::
      ((if ph.type ≠ ELF_PROG_LOAD then [] else f.chunks ph.off ph.filesz (2 ^ 20 + 1) 0) ++
        f.reads k ((off + 32) % 2 ^ 32))

theorem File.readi_length (f : File) (off n : ℕ) : ((f.readi off n).getD []).length ≤ n := by
  unfold File.readi
  split_ifs
  · exact Nat.zero_le n
  · exact List.length_take_le _ _

theorem inTurn_cons (f : File) (off phoff n : ℕ) (reads : Reads) :
    inTurn ((f.readi off n).getD [] :: reads) phoff n = ((f.reader () off n).1, reads) := by
  rw [inTurn, readi, List.headD_cons, List.take_of_length_le (f.readi_length off n), List.tail_cons]
  rfl

theorem loadFrom_file (pgdir addr : ℕ) (f : File) (offset off sz fuel i : ℕ) (rest : Reads) :
    loadFrom inTurn pgdir addr off sz fuel i (f.chunks offset sz fuel i ++ rest) =
      loadFrom f.reader pgdir addr offset sz fuel i () >>= fun r => pure (r.map fun _ => rest) := by
  induction fuel generalizing i with
  | zero => rfl
  | succ fuel ih =>
    unfold loadFrom File.chunks
    by_cases hi : i < sz
    · simp only [if_pos hi, List.cons_append, inTurn_cons, bind_assoc]
      generalize (if sz - i < PGSIZE then sz - i else PGSIZE) = n
      refine bind_congr fun r => ?_
      cases r with
      | none => rfl
      | some r =>
        simp only [bind_assoc]
        refine bind_congr fun pte => bind_congr fun _ => ?_
        by_cases hn : (f.reader () ((offset + i) % 2 ^ 32) n).1.length ≠ n
        · rw [if_pos hn, if_pos hn]
          rfl
        · rw [if_neg hn, if_neg hn]
          exact ih _
    · simp only [if_neg hi, List.nil_append]
      rfl

theorem loadSegments_file (L : Layout) (pgdir : ℕ) (f : File) (k phoff off sz : ℕ) :
    loadSegments inTurn L pgdir k phoff sz (f.reads k off) = loadSegments f.reader L pgdir k off sz () := by
  induction k generalizing phoff off sz with
  | zero => rfl
  | succ k ih =>
    unfold loadSegments File.reads
    have hread : (f.readi off 32).getD [] = (f.reader () off 32).1 := rfl
    simp only [inTurn_cons]
    rw [hread]
    generalize (f.reader () off 32).1 = bytes
    generalize proghdr bytes = ph
    split_ifs with hlen htype hfile hwrap haligned
    · rfl
    · exact ih _ _ _
    · rfl
    · rfl
    · rfl
    · refine bind_congr fun sz' => ?_
      split_ifs with h0
      · rfl
      · unfold loaduvm
        rw [if_neg haligned, if_neg haligned, loadFrom_file, bind_assoc]
        refine bind_congr fun r => ?_
        cases r with
        | none => rfl
        | some r => exact ih _ _ _

def put (C : ℕ → ℕ) (va : ℕ) (buf : List UInt8) : ℕ → ℕ := fun a =>
  if va ≤ a ∧ a < va + buf.length then (buf.getD (a - va) 0).toNat else C a

def Shows (E : ℕ → ℕ) (mem : ℕ → Bytes) (n : ℕ) (C : ℕ → ℕ) : Prop :=
  ∀ a < n * PGSIZE, mem (PTE_ADDR (E (a / PGSIZE)) / PGSIZE) (a % PGSIZE) = C a

theorem put_append (C : ℕ → ℕ) (va : ℕ) (buf buf' : List UInt8) :
    put (put C va buf) (va + buf.length) buf' = put C va (buf ++ buf') := by
  funext a
  unfold put
  rw [List.length_append]
  by_cases hlow : a < va + buf.length
  · rw [if_neg (by omega)]
    by_cases ha : va ≤ a
    · rw [if_pos ⟨ha, hlow⟩, if_pos ⟨ha, by omega⟩, List.getD_append _ _ _ _ (by omega)]
    · rw [if_neg (by omega), if_neg (by omega)]
  · rw [if_neg (c := va ≤ a ∧ a < va + buf.length) (by omega)]
    by_cases ha : a < va + buf.length + buf'.length
    · rw [if_pos ⟨by omega, ha⟩, if_pos ⟨by omega, by omega⟩, List.getD_append_right _ _ _ _ (by omega),
        Nat.sub_add_eq]
    · rw [if_neg (by omega), if_neg (by omega)]

theorem put_nil (C : ℕ → ℕ) (va : ℕ) : put C va [] = C := by
  funext a
  exact if_neg fun h => absurd h.2 (Nat.not_lt.mpr h.1)

variable {L : Layout} {A : Frames L} {H R : Multiset ℕ} {m₀ : ℕ → Bytes} {d n va : ℕ} {E C : ℕ → ℕ} {s : Machine}

theorem Wrote.shows {buf : List UInt8} {mem' : ℕ → Bytes} (h : Wrote E va buf s.mem mem') (hs : Own A H R m₀ d E s)
    (hE : Image L E n) (hva : va + buf.length ≤ n * PGSIZE) (hC : Shows E s.mem n C) :
    Shows E mem' n (put C va buf) := by
  intro a ha
  unfold put
  by_cases hin : va ≤ a ∧ a < va + buf.length
  · have hbyte := h.bytes (a - va) (by omega)
    rw [Nat.add_sub_cancel' hin.1] at hbyte
    rw [if_pos hin, hbyte, List.getD_eq_getElem _ _ (by omega)]
  · rw [if_neg hin, ← hC a ha]
    refine h.frame _ _ fun i hi heq hmod => ?_
    have hpage (b : ℕ) (hb : b < n * PGSIZE) : b / PGSIZE < n := Nat.div_lt_of_lt_mul (by rwa [Nat.mul_comm])
    obtain ⟨hv, hpv⟩ := hE.present (hpage a ha)
    obtain ⟨hw, hpw⟩ := hE.present (hpage (va + i) (by omega))
    have hsame : (va + i) / PGSIZE = a / PGSIZE := by
      by_contra hne
      exact hs.frame_ne hw hv hpw hpv hne heq
    have hai : va + i = a := by
      rw [← Nat.div_add_mod (va + i) PGSIZE, hsame, hmod, Nat.div_add_mod]
    omega

theorem allocuvm_shows {oldsz newsz : ℕ} (hs : Own A H R m₀ d E s) (hold : oldsz ≤ KERNBASE)
    (hE : Image L E (pageCount oldsz)) (hC : Shows E s.mem (pageCount oldsz) C)
    (hzero : ∀ a, oldsz ≤ a → C a = 0) :
    Triple (fun x => x = s) (allocuvm L d oldsz newsz) (fun r x => ∃ E', Own A H R m₀ d E' x ∧
      (r ≠ 0 → r = max oldsz newsz ∧ newsz < KERNBASE ∧ Image L E' (pageCount r) ∧ Shows E' x.mem (pageCount r) C))
      NoStop := by
  refine ((allocuvm_laden hold fun hnew x hlo hhi => ?_).here hs.laden).post ?_
  · exact hE.user.above hlo (Nat.lt_of_lt_of_le hhi (pageCount_le (Nat.le_of_lt hnew)))
  · rintro r x (⟨rfl, hle, hnew, E', M', hx, hmaps, hgrown⟩ | ⟨rfl, hlt, hnew, hx⟩ | ⟨rfl, E', M', hx, _⟩)
    · have hcount : pageCount oldsz ≤ pageCount r := by
        simp only [pageCount, PGSIZE]
        omega
      have hE' := hE.maps hmaps hcount (pageCount_le (Nat.le_of_lt hnew))
      refine ⟨E', hx.toOwn, fun _ => ⟨by omega, hnew, hE', fun a ha => ?_⟩⟩
      have hpage : a / PGSIZE < pageCount r := Nat.div_lt_of_lt_mul (by rwa [Nat.mul_comm])
      obtain ⟨hv, hpv⟩ := hE'.present hpage
      rw [hx.contents _ (Multiset.mem_add.mpr (.inl (mem_userPages hv hpv)))]
      by_cases hnewPage : pageCount oldsz ≤ a / PGSIZE
      · rw [hgrown.zero _ hnewPage hpage, hzero a]
        by_contra hlt
        exact absurd (page_lt (Nat.lt_of_not_le hlt)) (by omega)
      · have hsame : E' (a / PGSIZE) = E (a / PGSIZE) := hmaps.outside _ (by omega)
        rw [hsame] at hpv ⊢
        rw [hgrown.kept _ (mem_userPages hv hpv)]
        exact hC a (Nat.lt_mul_of_div_lt (Nat.lt_of_not_le hnewPage) (by decide))
    · refine ⟨E, hx.toOwn, fun _ => ⟨by omega, hnew, hE, fun a ha => ?_⟩⟩
      have hpage : a / PGSIZE < pageCount r := Nat.div_lt_of_lt_mul (by rwa [Nat.mul_comm])
      obtain ⟨hv, hpv⟩ := hE.present hpage
      rw [hx.contents _ (Multiset.mem_add.mpr (.inl (mem_userPages hv hpv))), hC a ha]
    · exact ⟨E', hx.toOwn, fun h => absurd rfl h⟩

def File.span (f : File) (off len : ℕ) : List UInt8 := (f.bytes.drop off).take len

variable {f : File} {k len off sz : ℕ}

theorem File.length_span (h : len = 0 ∨ off + len ≤ f.bytes.length) :
    (f.span off len).length = len := by
  rw [File.span, List.length_take, List.length_drop]
  omega

theorem File.span_append (f : File) (off len len' : ℕ) :
    f.span off (len + len') = f.span off len ++ f.span (off + len) len' := by
  rw [File.span, List.take_add, List.drop_drop]
  rfl

theorem File.reader_full (hpos : 0 < len) (h : (f.reader () off len).1.length = len) :
    off + len ≤ f.bytes.length ∧ (f.reader () off len).1 = f.span off len := by
  unfold File.reader File.readi at h ⊢
  dsimp only at h ⊢
  split_ifs at h ⊢
  · rw [Option.getD_none, List.length_nil] at h
    omega
  · rw [Option.getD_some, List.length_take, List.length_drop] at h
    exact ⟨by omega, rfl⟩

theorem File.reader_inside (h : off + len ≤ f.bytes.length) : (f.reader () off len).1.length = len := by
  have hsmall := f.small
  rw [File.reader, File.readi, if_neg (by omega), Option.getD_some, List.length_take, List.length_drop]
  omega

theorem chunk_length (h : k * PGSIZE < sz)
    (hlen : (if sz - k * PGSIZE < PGSIZE then sz - k * PGSIZE else PGSIZE) = len) :
    0 < len ∧ len ≤ PGSIZE ∧ k * PGSIZE + len = min ((k + 1) * PGSIZE) sz := by
  have hpos : 0 < PGSIZE := by decide
  rw [Nat.add_mul, Nat.one_mul]
  split_ifs at hlen
  · omega
  · omega

theorem chunk_shows {v : ℕ} (hs : Own A H R m₀ d E s) (hE : Image L E n) (hlen : len ≤ PGSIZE)
    (hroom : (v + k) * PGSIZE + len ≤ n * PGSIZE) (hin : k * PGSIZE = 0 ∨ off + k * PGSIZE ≤ f.bytes.length)
    (hinside : off + k * PGSIZE + len ≤ f.bytes.length)
    (hC : Shows E s.mem n (put C (v * PGSIZE) (f.span off (k * PGSIZE)))) :
    Shows E (Function.update s.mem (PTE_ADDR (E (v + k)) / PGSIZE)
      (copyIn (s.mem (PTE_ADDR (E (v + k)) / PGSIZE)) 0 ((f.span (off + k * PGSIZE) len).map UInt8.toNat))) n
      (put C (v * PGSIZE) (f.span off (k * PGSIZE + len))) := by
  have hspan := File.length_span (f := f) (.inr hinside)
  have hva : (v + k) * PGSIZE / PGSIZE = v + k ∧ (v + k) * PGSIZE % PGSIZE = 0 := by
    simp only [PGSIZE]
    omega
  have hwrote : Wrote E ((v + k) * PGSIZE) (f.span (off + k * PGSIZE) len) s.mem _ :=
    wrote_page s.mem (by rw [hspan, hva.2]; omega)
  rw [hva.1, hva.2] at hwrote
  have hshown := hwrote.shows hs hE (by rwa [hspan]) hC
  have hstart : (v + k) * PGSIZE = v * PGSIZE + (f.span off (k * PGSIZE)).length := by
    rw [File.length_span hin, Nat.add_mul]
  rwa [hstart, put_append, ← File.span_append] at hshown

theorem loadFrom_shows {v fuel : ℕ} (hs : Own A H R m₀ d E s) (hE : Image L E n)
    (hsz : v * PGSIZE + sz ≤ n * PGSIZE) (hoff : off < 2 ^ 32) (hk : k ≤ pageCount sz)
    (hfuel : pageCount sz - k < fuel) (hin : min (k * PGSIZE) sz = 0 ∨ off + min (k * PGSIZE) sz ≤ f.bytes.length)
    (hC : Shows E s.mem n (put C (v * PGSIZE) (f.span off (min (k * PGSIZE) sz)))) :
    Triple (fun x => x = s) (loadFrom f.reader d (v * PGSIZE) off sz fuel (k * PGSIZE) ())
    (fun r x => Own A H R m₀ d E x ∧
      (off + sz ≤ f.bytes.length → r = some ()) ∧
      (r = some () → Shows E x.mem n (put C (v * PGSIZE) (f.span off sz)) ∧ (sz = 0 ∨ off + sz ≤ f.bytes.length)))
      NoStop := by
  have htop := hE.top
  induction fuel generalizing k s with
  | zero => omega
  | succ fuel ih =>
    unfold loadFrom
    apply Triple.ite
    · intro hlt
      have hks : k < pageCount sz := lt_pageCount.mpr hlt
      have hmin : min (k * PGSIZE) sz = k * PGSIZE := by omega
      rw [hmin] at hin hC
      have hvk : v + k < n := by
        simp only [PGSIZE] at *
        omega
      obtain ⟨huser, hp⟩ := hE.present hvk
      have hlow := user_lt huser
      have haddr : (v * PGSIZE + k * PGSIZE) % 2 ^ 32 = (v + k) * PGSIZE := by
        simp only [PGSIZE]
        omega
      have hnext : (k * PGSIZE + PGSIZE) % 2 ^ 32 = (k + 1) * PGSIZE := by
        simp only [PGSIZE]
        omega
      have hwrap : (off + k * PGSIZE) % 2 ^ 32 = off + k * PGSIZE := by
        have hsmall := f.small
        omega
      rw [haddr]
      refine entry_rule (fun x hx => by rwa [hx]) (by omega) (present_ne_zero hp) (fun t => rfl) ?_
      rintro x t rfl _
      simp only [hwrap]
      generalize hlen : (if sz - k * PGSIZE < PGSIZE then sz - k * PGSIZE else PGSIZE) = len
      have hpage := hs.user_mem_frames huser hp
      apply Triple.step (writeAt_exact (A.fits _ hpage).2)
      apply Triple.start
      rintro y rfl
      have hy := hs.touchUser huser hp
        (copyIn (x.mem (PTE_ADDR (E (v + k)) / PGSIZE)) 0 ((f.reader () (off + k * PGSIZE) len).1.map UInt8.toNat))
      have hlenpos := chunk_length hlt hlen
      apply Triple.ite
      · intro hshort
        exact Triple.ret ⟨hy, fun hfile => absurd (File.reader_inside (by omega)) hshort,
          fun h => by cases h⟩
      · intro hfull
        obtain ⟨hinside, hspan⟩ := File.reader_full hlenpos.1 (not_not.mp hfull)
        rw [hspan] at hy ⊢
        have hshown := chunk_shows hs hE hlenpos.2.1 (by rw [Nat.add_mul]; omega) hin hinside hC
        rw [hlenpos.2.2] at hshown
        rw [hnext]
        refine ih hy (by omega) (by omega) (.inr ?_) hshown
        rw [← hlenpos.2.2]
        omega
    · intro hge
      have hmin : min (k * PGSIZE) sz = sz := by omega
      rw [hmin] at hin hC
      exact Triple.ret ⟨hs, fun _ => rfl, fun _ => ⟨hC, hin⟩⟩

theorem loaduvm_shows {addr : ℕ} (hs : Own A H R m₀ d E s) (hE : Image L E n)
    (haddr : addr % PGSIZE = 0) (hsz : addr + sz ≤ n * PGSIZE) (hoff : off < 2 ^ 32) (hC : Shows E s.mem n C) :
    Triple (fun x => x = s) (loaduvm f.reader d addr off sz ()) (fun r x => Own A H R m₀ d E x ∧
      (off + sz ≤ f.bytes.length → r = some ()) ∧
      (r = some () → Shows E x.mem n (put C addr (f.span off sz)) ∧
        (sz = 0 ∨ off + sz ≤ f.bytes.length))) NoStop := by
  obtain ⟨v, rfl⟩ : ∃ v, addr = v * PGSIZE := ⟨addr / PGSIZE, by simp only [PGSIZE] at *; omega⟩
  have htop := hE.top
  unfold loaduvm
  apply Triple.ite
  · intro hne
    exact absurd haddr hne
  · intro _
    have hfuel : pageCount sz - 0 < 2 ^ 20 + 1 := by
      simp only [pageCount, KERNBASE, PGSIZE] at *
      omega
    have hnil : f.span off (min (0 * PGSIZE) sz) = [] := by
      rw [Nat.zero_mul, Nat.zero_min]
      rfl
    have hloop := loadFrom_shows (f := f) (C := C) (k := 0) hs hE hsz hoff (Nat.zero_le _) hfuel
      (.inl (by rw [Nat.zero_mul, Nat.zero_min])) (by rwa [hnil, put_nil])
    rwa [Nat.zero_mul] at hloop

def File.segments (f : File) : ℕ → ℕ → List Proghdr
  | 0, _ => []
  | k + 1, off =>
    let ph := proghdr ((f.readi off 32).getD [])
    if ph.type ≠ ELF_PROG_LOAD then f.segments k ((off + 32) % 2 ^ 32)
    else ph :: f.segments k ((off + 32) % 2 ^ 32)

def File.overlay (f : File) (C : ℕ → ℕ) (ph : Proghdr) : ℕ → ℕ := put C ph.vaddr (f.span ph.off ph.filesz)

def File.Holds (f : File) (ph : Proghdr) : Prop := ph.filesz = 0 ∨ ph.off + ph.filesz ≤ f.bytes.length

theorem loadSegments_shows (hs : Own A H R m₀ d E s) (hsz : sz < KERNBASE)
    (hE : Image L E (pageCount sz)) (hC : Shows E s.mem (pageCount sz) C) (hzero : ∀ a, sz ≤ a → C a = 0) :
    Triple (fun x => x = s) (loadSegments f.reader L d k off sz ()) (fun r x => ∃ E', Own A H R m₀ d E' x ∧
      ∀ sz', r = some sz' → sz' < KERNBASE ∧ Image L E' (pageCount sz') ∧
        Shows E' x.mem (pageCount sz') ((f.segments k off).foldl f.overlay C) ∧
        ∀ ph ∈ f.segments k off, f.Holds ph)
      NoStop := by
  induction k generalizing off sz s E C with
  | zero =>
    refine Triple.ret ⟨E, hs, fun sz' h => ?_⟩
    cases h
    exact ⟨hsz, hE, hC, fun _ h => absurd h List.not_mem_nil⟩
  | succ k ih =>
    have hbad {E' : ℕ → ℕ} {y : Machine} (hy : Own A H R m₀ d E' y) :
        Triple (fun x => x = y) (pure none : Call (Option ℕ)) (fun r x => ∃ E', Own A H R m₀ d E' x ∧
          ∀ sz', r = some sz' → sz' < KERNBASE ∧ Image L E' (pageCount sz') ∧
            Shows E' x.mem (pageCount sz') ((f.segments (k + 1) off).foldl f.overlay C) ∧
              ∀ ph ∈ f.segments (k + 1) off, f.Holds ph) NoStop :=
      Triple.ret ⟨E', hy, fun _ h => absurd h.symm (Option.some_ne_none _)⟩
    have hread : (f.readi off 32).getD [] = (f.reader () off 32).1 := rfl
    unfold loadSegments File.segments
    unfold File.segments at hbad
    dsimp only at hbad ⊢
    rw [hread] at hbad ⊢
    generalize (f.reader () off 32).1 = bytes at hbad ⊢
    have hvaddr : (proghdr bytes).vaddr < 2 ^ 32 := word_lt _ _
    have hmemsz : (proghdr bytes).memsz < 2 ^ 32 := word_lt _ _
    have hoff : (proghdr bytes).off < 2 ^ 32 := word_lt _ _
    generalize proghdr bytes = ph at hvaddr hmemsz hoff hbad ⊢
    apply Triple.ite
    · intro _
      exact hbad hs
    · intro _
      by_cases htype : ph.type ≠ ELF_PROG_LOAD
      · simp only [if_pos htype]
        exact ih hs hsz hE hC hzero
      · simp only [if_neg htype, List.foldl_cons, List.forall_mem_cons] at hbad ⊢
        refine Triple.ite (fun _ => hbad hs) fun hfile => Triple.ite (fun _ => hbad hs) fun hwrap => ?_
        have hsum : (ph.vaddr + ph.memsz) % 2 ^ 32 = ph.vaddr + ph.memsz := by omega
        rw [hsum]
        apply Triple.bind (allocuvm_shows hs (Nat.le_of_lt hsz) hE hC hzero)
        intro r
        apply Triple.start
        rintro y ⟨E₁, hy, hr⟩
        refine Triple.ite (fun _ => hbad hy) fun hr0 => Triple.ite (fun _ => hbad hy) fun haligned => ?_
        obtain ⟨hmax, hnew, hE₁, hC₁⟩ := hr hr0
        have hroom : ph.vaddr + ph.filesz ≤ pageCount r * PGSIZE := by
          simp only [pageCount, PGSIZE]
          omega
        refine Triple.bind (loaduvm_shows hy hE₁ (not_not.mp haligned) hroom hoff hC₁) fun r' => ?_
        apply Triple.start
        rintro z ⟨hz, -, hok⟩
        cases r' with
        | none => exact hbad hz
        | some _ =>
          obtain ⟨hC₂, hholds⟩ := hok rfl
          have hzero₂ : ∀ a, r ≤ a → put C ph.vaddr (f.span ph.off ph.filesz) a = 0 := by
            intro a ha
            rw [put, File.length_span hholds, if_neg (by omega)]
            exact hzero a (by omega)
          refine (ih hz (by omega) hE₁ hC₂ hzero₂).post ?_
          rintro r' x ⟨E', hx, hr'⟩
          refine ⟨E', hx, fun sz' h => ?_⟩
          obtain ⟨hsz', hE', hC', hall⟩ := hr' sz' h
          exact ⟨hsz', hE', hC', hholds, hall⟩

def File.program (f : File) : List Proghdr :=
  let elf := (f.readi 0 52).getD []
  f.segments (half elf 44) (word elf 28)

structure Loaded (f : File) (d sz : ℕ) (s : Machine) : Prop where
  size : sz < KERNBASE
  mapped : ∀ v < KERNBASE / PGSIZE, present (entryOf s.mem d v) = decide (v * PGSIZE < PGROUNDUP sz)
  bytes : ∀ a < PGROUNDUP sz, byteAt s.mem d a = f.program.foldl f.overlay (fun _ => 0) a
  holds : ∀ ph ∈ f.program, f.Holds ph

theorem Shows.loaded (hs : Own A H R m₀ d E s) (hsz : sz < KERNBASE) (hE : Image L E (pageCount sz))
    (hC : Shows E s.mem (pageCount sz) (f.program.foldl f.overlay fun _ => 0))
    (hholds : ∀ ph ∈ f.program, f.Holds ph) :
    Loaded f d sz s := by
  have hup := pgroundup_eq (Nat.le_of_lt hsz)
  refine ⟨hsz, fun v hv => ?_, fun a ha => ?_, hholds⟩
  · rw [hs.entries v (lt_top hv), hE.user v hv, hup]
    simp only [PGSIZE, Nat.mul_lt_mul_right, Nat.zero_lt_succ]
  · rw [hup] at ha
    have hpage : a / PGSIZE < pageCount sz := Nat.div_lt_of_lt_mul (by rwa [Nat.mul_comm])
    rw [byteAt, hs.entries _ (lt_top (hE.present hpage).1)]
    exact hC a ha

theorem loadProgram_safe (L : Layout) (f : File) (ip : Handle) (s : Machine) (hs : Allocator L s)
    (hip : ip.locked = false) :
    ∃ r s', (loadProgram L f ip.enter).run s = .ok ((r, ip), s') ∧
      match r with
      | none => s'.freelist.Perm s.freelist
      | some (d, sz) => Loaded f d sz s' := by
  have hleave : ip.enter.leave = ip := by
    cases ip
    cases hip
    rfl
  have hfree {x : Machine} (hx : Heap hs.frames 0 0 (fun _ _ => 0) x) : x.freelist.Perm s.freelist := by
    have hpages := hx.pages
    rw [add_zero, add_zero] at hpages
    exact Multiset.coe_eq_coe.mp hpages
  have hrun : Triple (fun x => x = s) (loadProgram L f ip.enter) (fun r x => r.2 = ip ∧
      match r.1 with
      | none => x.freelist.Perm s.freelist
      | some (d, sz) => Loaded f d sz x) NoStop := by
    have hbad : Triple (fun x => x = s) (pure (none, ip.enter.leave) : Call (Option (ℕ × ℕ) × Handle))
        (fun r x => r.2 = ip ∧
          match r.1 with
          | none => x.freelist.Perm s.freelist
          | some (d, sz) => Loaded f d sz x) NoStop := Triple.ret ⟨hleave, .refl _⟩
    unfold loadProgram
    refine Triple.ite (fun _ => hbad) fun _ => Triple.ite (fun _ => hbad) fun _ => ?_
    refine Triple.bind (setupkvm_heap.here hs.heap) ?_
    rintro (_ | d)
    · exact Triple.pure fun x hx => ⟨hleave, hfree hx.1⟩
    · apply Triple.start
      intro y hy
      refine Triple.bind (loadSegments_shows (C := fun _ => 0) hy (by decide) image_start ?_ fun _ _ => rfl) ?_
      · intro a ha
        simp only [pageCount, PGSIZE] at ha
        omega
      · intro r
        apply Triple.start
        rintro z ⟨E', hz, hr⟩
        cases r with
        | none =>
          refine Triple.bind (freevm_own.here hz) fun _ => ?_
          exact Triple.pure fun x hx => ⟨hleave, hfree hx⟩
        | some sz =>
          obtain ⟨hsz, hE', hC, hholds⟩ := hr sz rfl
          exact Triple.ret ⟨hleave, hC.loaded hz hsz hE' hholds⟩
  obtain ⟨⟨r, ip'⟩, s', hok, rfl, hresult⟩ := hrun.returns rfl
  exact ⟨r, s', hok, hresult⟩

def tinyProgram : File where
  bytes := bytesOf ELF_MAGIC ++ List.replicate 24 0 ++ bytesOf 52 ++ List.replicate 12 0 ++
    [1, 0] ++ List.replicate 6 0 ++ bytesOf ELF_PROG_LOAD ++ bytesOf 84 ++ bytesOf 0 ++ bytesOf 0 ++ bytesOf 2 ++
    bytesOf 8 ++ List.replicate 8 0 ++ [0x90, 0xc3]
  small := by decide

theorem tinyProgram_loads {L : Layout} {A : Frames L} {m₀ : ℕ → Bytes} {d : ℕ} {s : Machine} (hcalm : A.calm)
    (hroom : 2 + NPDENTRIES < A.pages.card) (hs : Own A 0 0 m₀ d (kernelEntries L) s) :
    ∃ x, (loadSegments tinyProgram.reader L d 1 52 0 ()).run s = .ok (some 8, x) := by
  have hone : pageCount 8 = 1 := rfl
  obtain ⟨E, y, halloc, hy, _, hE⟩ := allocuvm_first hcalm (show 8 < KERNBASE by decide) (by
    rw [hone, Multiset.card_zero]
    omega) hs
  obtain ⟨r, x, hload, _, hfile, _⟩ := (loaduvm_shows (f := tinyProgram)
    (C := fun a => y.mem (PTE_ADDR (E (a / PGSIZE)) / PGSIZE) (a % PGSIZE)) hy hE
    (show 0 % PGSIZE = 0 by decide) (show 0 + 2 ≤ 1 * PGSIZE by decide) (show 84 < 2 ^ 32 by decide)
    fun _ _ => rfl).returns rfl
  obtain rfl := hfile (by decide)
  exact ⟨x, (run_bind_after halloc).trans ((run_bind_after hload).trans rfl)⟩

theorem loadProgram_safe_tinyProgram :
    (List.range 4).map (tinyProgram.program.foldl tinyProgram.overlay fun _ => 0) = [0x90, 0xc3, 0, 0] ∧
    ∃ d s', (loadProgram Conservation.smallKernel tinyProgram (Handle.enter ⟨1, false, 0⟩)).run
        Spaces.bootMachine = .ok ((some (d, 8), ⟨1, false, 0⟩), s') ∧ Loaded tinyProgram d 8 s' := by
  obtain ⟨d, y, hsetup, hy⟩ := bootMachine_own
  obtain ⟨x, hload⟩ := tinyProgram_loads trivial (by
    rw [Spaces.framesOf, Multiset.coe_card, Spaces.bootMachine, List.length_range']
    decide) hy
  have hrun : (loadProgram Conservation.smallKernel tinyProgram (Handle.enter ⟨1, false, 0⟩)).run
      Spaces.bootMachine = .ok ((some (d, 8), ⟨1, false, 0⟩), x) :=
    (run_bind_after hsetup).trans ((run_bind_after hload).trans rfl)
  obtain ⟨r, s', hrun', hresult⟩ :=
    loadProgram_safe _ tinyProgram ⟨1, false, 0⟩ Spaces.bootMachine bootMachine_allocator rfl
  rw [hrun] at hrun'
  cases hrun'
  exact ⟨by decide, d, x, hrun, hresult⟩

end Xv6.Vm
