import Xv6.ExecStack

namespace Xv6.Vm

open Xv6.Memory (PGSIZE KERNBASE uint)
open Xv6.Triples Xv6.Words

variable {L : Layout} {A : Frames L} {H R : Multiset ℕ} {m₀ : ℕ → Bytes} {d c n : ℕ}
    {E C C' : ℕ → ℕ} {s x : Machine}

structure Decodes (mem : ℕ → Bytes) (p : Process) (esp : ℕ) (argv : List (List UInt8)) : Prop where
  size : 2 * PGSIZE ≤ p.sz ∧ p.sz % PGSIZE = 0
  stack : UserPage mem p.pgdir (p.sz / PGSIZE - 1)
  guard : ¬ UserPage mem p.pgdir (p.sz / PGSIZE - 2)
  args : ArgStack (byteAt mem p.pgdir) (p.sz - PGSIZE) p.sz esp argv

variable {esp sz : ℕ} {argv : List (List UInt8)} {p : Process}

theorem ArgStack.congr {base top : ℕ} (h : ArgStack C base top esp argv)
    (hsame : ∀ a, base ≤ a → a < top → C' a = C a) : ArgStack C' base top esp argv := by
  have hwords := (h.inside (esp, 12) List.mem_cons_self).2
  have harray := (h.inside (argvAt C esp, 4 * (argv.length + 1)) (List.mem_cons_of_mem _ List.mem_cons_self)).2
  simp only at hwords harray
  have hargv : argvAt C' esp = argvAt C esp := get32_congr fun b hlo hhi => hsame b (by omega) (by omega)
  have hptr : ∀ i ≤ argv.length, argPtr C' esp i = argPtr C esp i := by
    intro i hi
    rw [argPtr, argPtr, hargv]
    exact get32_congr fun b hlo hhi => hsame b (by omega) (by omega)
  have hregions : regions C' esp argv = regions C esp argv := by
    unfold regions
    rw [hargv]
    congr 2
    refine List.ext_getElem (by rw [List.length_mapIdx, List.length_mapIdx]) fun i hi _ => ?_
    rw [List.length_mapIdx] at hi
    rw [List.getElem_mapIdx, List.getElem_mapIdx, hptr i (Nat.le_of_lt hi)]
  constructor
  · rw [← h.pc]
    exact get32_congr fun b hlo hhi => hsame b (by omega) (by omega)
  · rw [← h.argc]
    exact get32_congr fun b hlo hhi => hsame b (by omega) (by omega)
  · rw [← h.last]
    exact hptr _ (Nat.le_refl _)
  · intro i hi
    rw [hptr i (Nat.le_of_lt hi)]
    have hmem : (argPtr C esp i, argv[i].length + 1) ∈ regions C esp argv := by
      refine List.mem_cons_of_mem _ (List.mem_cons_of_mem _ (List.mem_mapIdx.mpr ⟨i, hi, rfl⟩))
    have hin := (h.inside _ hmem).2
    simp only at hin
    refine (h.strings i hi).congr fun b hlo hhi => ?_
    rw [List.length_append, List.length_singleton] at hhi
    exact hsame b (by omega) (by omega)
  · rw [hregions]
    exact h.apart
  · rw [hregions]
    exact h.inside

theorem Own.other (h : Own A 0 (ownedBy m₀ c) m₀ d E s) (hfree : x.freelist = s.freelist)
    (hfails : x.fails = s.fails)
    (hdir : x.mem c = m₀ c) (htab : ∀ i < NPDENTRIES, ∀ t, tableOf m₀ c i = some t → x.mem t = m₀ t) :
    Own A 0 ({d} + tablePages (tableOf s.mem d) + userPages E) x.mem c (entryOf m₀ c) x := by
  refine ⟨fun v hv => ?_, ?_, fun _ _ => rfl, fun hc => ?_⟩
  · refine entryOf_congr hdir fun t ht => htab _ ?_ t ht
    simp only [NPDENTRIES]
    omega
  · rw [← h.pages, hfree, ownedBy, funext (tableOf_congr hdir)]
    simp only [add_zero, add_assoc, add_left_comm, add_comm (userPages E)]
  · rw [hfails]
    exact h.calm hc

theorem freevm_decodes (hs : Own A 0 (ownedBy m₀ c) m₀ d E s)
    (hready : StackReady L E s.mem sz esp argv n) : Triple (fun x => x = s) (freevm L c)
      (fun _ x => Decodes x.mem { p with pgdir := d, sz := sz } esp argv) NoStop := by
  have hold : ∀ q ∈ ownedBy m₀ c, s.mem q = m₀ q := hs.frame
  have hother := hs.other rfl rfl (hold c (mem_ownedBy_dir m₀ c)) fun i hi t ht => hold t (mem_ownedBy_table hi ht)
  refine (freevm_own.here hother).post fun _ x hx => ?_
  have hdir : x.mem d = s.mem d := hx.frame d (by simp)
  have hentries : ∀ v < 2 ^ 20, entryOf x.mem d v = E v := by
    intro v hv
    rw [← hs.entries v hv]
    refine entryOf_congr hdir fun t ht => hx.frame t ?_
    have hmem : t ∈ tablePages (tableOf s.mem d) := mem_tablePages (by simp only [NPDENTRIES]; omega) ht
    simp [hmem]
  obtain ⟨rfl, hpages, C, hC, hstack⟩ := hready
  have htop := hpages.image.top
  have hlt : n + 2 < 2 ^ 20 := by
    simp only [KERNBASE, PGSIZE] at htop
    omega
  have hdiv : (n + 2) * PGSIZE / PGSIZE = n + 2 := Nat.mul_div_cancel _ (by decide)
  constructor
  · simp only [PGSIZE]
    omega
  · show UserPage x.mem d ((n + 2) * PGSIZE / PGSIZE - 1)
    rw [hdiv]
    refine ⟨by omega, ?_⟩
    rw [hentries _ (by omega)]
    exact hpages.stack
  · show ¬ UserPage x.mem d ((n + 2) * PGSIZE / PGSIZE - 2)
    rw [hdiv]
    rintro ⟨_, hguard⟩
    rw [hentries _ (by omega)] at hguard
    exact hpages.guard hguard
  · have hbase : (n + 2) * PGSIZE - PGSIZE = (n + 1) * PGSIZE := by
      simp only [PGSIZE]
      omega
    show ArgStack (byteAt x.mem d) ((n + 2) * PGSIZE - PGSIZE) _ esp argv
    rw [hbase]
    refine hstack.congr fun a hlo hhi => ?_
    have hv : a / PGSIZE < n + 2 := Nat.div_lt_of_lt_mul (by rwa [Nat.mul_comm])
    obtain ⟨huser, hpresent⟩ := hpages.image.present hv
    rw [byteAt, hentries _ (by omega), ← hC a hhi, hx.frame _ ?_]
    have hmem := mem_userPages huser hpresent
    simp [hmem]

theorem exec_stack_decodes (L : Layout) (p : Process) (reads : Reads) (argv : List (List UInt8)) (s s' : Machine)
    (r : Entered) (hs : Intact L s p.pgdir) (hrun : (execEntry L p reads argv).run s = .ok (some r, s')) :
    Decodes s'.mem r.process r.esp argv := by
  have hheap : Heap hs.frames 0 (ownedBy s.mem p.pgdir) s.mem s :=
    ⟨by rw [add_zero]; rfl, fun _ _ => rfl, False.elim⟩
  have hexec : Triple (Heap hs.frames 0 (ownedBy s.mem p.pgdir) s.mem) (execEntry L p reads argv)
      (fun r x => ∀ r', r = some r' → Decodes x.mem r'.process r'.esp argv) (fun _ => True) := by
    have hbad {P : Machine → Prop} : Triple P (pure none : Call (Option Entered))
        (fun r x => ∀ r', r = some r' → Decodes x.mem r'.process r'.esp argv) (fun _ => True) :=
      Triple.pure fun _ _ _ h => absurd h.symm (Option.some_ne_none _)
    unfold execEntry
    refine Triple.ite (fun _ => hbad) fun _ => Triple.ite (fun _ => hbad) fun _ => ?_
    refine Triple.bind (Triple.except setupkvm_heap fun _ h => h.elim) ?_
    rintro (_ | d)
    · exact hbad
    · refine Triple.bind (Triple.except loadImage_ready fun _ _ => trivial) ?_
      rintro (_ | ⟨sz, esp⟩)
      · exact Triple.bind Triple.anything fun _ => hbad
      · apply Triple.start
        rintro x ⟨E, hx, hready⟩
        obtain ⟨n, hready⟩ := hready sz esp rfl
        refine Triple.bind (Triple.except (freevm_decodes (p := p) hx hready) fun _ h => h.elim) fun _ => ?_
        refine Triple.pure fun y hy r' h => ?_
        cases h
        exact hy
  exact hexec.ok hheap hrun r rfl

def emptyProgram : Reads := [[0x7F, 0x45, 0x4C, 0x46] ++ List.replicate 48 0]

def Intact.calmFrames (h : Intact L s c) :
    Frames L := ⟨s.freelist + ownedBy s.mem c, s.fails = [], h.nodup, h.fits⟩

theorem Intact.heap (h : Intact L s c) : Heap h.calmFrames 0 (ownedBy s.mem c) s.mem s :=
  ⟨by rw [add_zero]; rfl, fun _ _ => rfl, id⟩

theorem Intact.card (h : Intact L s c) : h.calmFrames.pages.card = s.freelist.length + (ownedBy s.mem c).card := by
  rw [Intact.calmFrames, Multiset.card_add, Multiset.coe_card]

theorem loadImage_starts (hcalm : A.calm) (hroom : 3 + NPDENTRIES + R.card < A.pages.card)
    (hs : Own A 0 R m₀ d (kernelEntries L) s) : ∃ x E, Own A 0 R m₀ d E x ∧ StackPages L E 0 ∧
      ∀ phoff reads argv, (loadImage L d 0 phoff reads argv).run s = (pushStack d (2 * PGSIZE) argv).run x := by
  have htwo : pageCount (2 * PGSIZE) = 2 := rfl
  obtain ⟨E, y, hrun, hy, hmaps, hE⟩ := allocuvm_first hcalm (show 2 * PGSIZE < KERNBASE by decide) (by
    rw [htwo, Multiset.card_zero]
    omega) hs
  rw [htwo] at hmaps hE
  obtain ⟨huser, hpresent⟩ := hE.present (v := 0) (by decide)
  obtain ⟨_, x, hclear, hx⟩ := (clearpteu_own huser hpresent).returns hy
  have hpages := Image.stackPages (n := 0) hE fun v hlo hhi => (hmaps.inside v hlo hhi).2
  refine ⟨x, _, hx, hpages, fun phoff reads argv => ?_⟩
  have hstart : loadImage L d 0 phoff reads argv = allocuvm L d 0 (2 * PGSIZE) >>= fun sz =>
      if sz = 0 then pure none else clearpteu d (sz - 2 * PGSIZE) >>= fun _ => pushStack d sz argv := rfl
  rw [Nat.zero_mul] at hclear
  rw [hstart, run_bind_after hrun, if_neg (by decide), Nat.sub_self, run_bind_after hclear]

def stringBytes : List (List UInt8) → ℕ
  | [] => 0
  | arg :: argv => arg.length + 4 + stringBytes argv

theorem pushArgs_fits {sp room : ℕ} {ptrs : List ℕ} (hs : Own A H R m₀ d E s)
    (hE : StackPages L E n) (hsp : sp ≤ (n + 2) * PGSIZE) (hmax : ptrs.length + argv.length ≤ MAXARG)
    (hfit : (n + 1) * PGSIZE + room + stringBytes argv ≤ sp) :
    Triple (fun x => x = s) (pushArgs d sp ptrs argv) (fun r x => Own A H R m₀ d E x ∧ ∃ sp' ptrs',
      r = some (sp', ptrs') ∧ ptrs'.length = ptrs.length + argv.length ∧ (n + 1) * PGSIZE + room ≤ sp' ∧
      sp' ≤ (n + 2) * PGSIZE) NoStop := by
  induction argv generalizing sp ptrs s with
  | nil =>
    rw [stringBytes, Nat.add_zero] at hfit
    exact Triple.ret ⟨hs, sp, ptrs, rfl, rfl, hfit, hsp⟩
  | cons arg argv ih =>
    rw [stringBytes] at hfit
    rw [List.length_cons] at hmax
    have htop := hE.image.top
    have hva : uint (sp - (arg.length + 1)) / 4 * 4 = (sp - (arg.length + 1)) / 4 * 4 := by
      simp only [uint, KERNBASE, PGSIZE] at *
      omega
    have hbuf : (arg ++ [0]).length = arg.length + 1 := List.length_append
    unfold pushArgs
    rw [if_neg (by omega), hva]
    refine Triple.bind (copyout_inPage hs hE (by omega) (by omega)) fun ok => ?_
    apply Triple.start
    rintro x ⟨hx, rfl, _⟩
    simp only [↓reduceIte]
    refine (ih hx (by omega) ?_ (by omega)).post fun r y hy => ?_
    · rw [List.length_append, List.length_singleton]
      omega
    · obtain ⟨hy, sp', ptrs', hr, hlen, hrest⟩ := hy
      refine ⟨hy, sp', ptrs', hr, ?_, hrest⟩
      rw [hlen, List.length_append, List.length_singleton, List.length_cons]
      omega

theorem pushStack_fits (hs : Own A H R m₀ d E s) (hE : StackPages L E n)
    (hmax : argv.length ≤ MAXARG)
    (hfit : (3 + argv.length + 1) * 4 + stringBytes argv ≤ PGSIZE) :
    Triple (fun x => x = s) (pushStack d ((n + 2) * PGSIZE) argv)
      (fun r x => Own A H R m₀ d E x ∧ ∃ esp, r = some ((n + 2) * PGSIZE, esp)) NoStop := by
  have htop := hE.image.top
  have hpage : (n + 2) * PGSIZE = (n + 1) * PGSIZE + PGSIZE := Nat.succ_mul _ _
  have hroom : (n + 1) * PGSIZE + (3 + argv.length + 1) * 4 + stringBytes argv ≤
      (n + 2) * PGSIZE := by omega
  refine Triple.bind (pushArgs_fits hs hE (Nat.le_refl _) (by rwa [List.length_nil, Nat.zero_add]) hroom)
    fun r => ?_
  apply Triple.start
  rintro x ⟨hx, sp, ptrs, rfl, hlen, hlo, hhi⟩
  rw [List.length_nil, Nat.zero_add] at hlen
  have hesp : uint (sp - (3 + ptrs.length + 1) * 4) = sp - (3 + argv.length + 1) * 4 := by
    rw [hlen]
    simp only [uint, KERNBASE, PGSIZE] at *
    omega
  have hbytes := length_ustack sp ptrs
  rw [hlen] at hbytes
  simp only [hesp]
  refine Triple.bind (copyout_inPage hx hE (by omega) (by omega)) fun ok => ?_
  apply Triple.start
  rintro y ⟨hy, rfl, _⟩
  exact Triple.ret ⟨hy, _, rfl⟩

theorem execEntry_run {y s' : Machine}
    (hsetup : (setupkvm L).run s = .ok (some d, x))
    (hload : (loadImage L d 0 0 [] argv).run x = .ok (some (sz, esp), y))
    (hfree : (freevm L p.pgdir).run y = .ok ((), s')) :
    (execEntry L p emptyProgram argv).run s = .ok (some ⟨{ p with pgdir := d, sz := sz }, 0, esp⟩, s') := by
  unfold execEntry
  rw [if_neg (by decide), if_neg (by decide)]
  refine (run_bind_after hsetup).trans ?_
  refine (run_bind_after hload).trans ?_
  exact (run_bind_after hfree).trans rfl

theorem exec_fits (hs : Intact L s p.pgdir) (hcalm : s.fails = [])
    (hroom : 3 + NPDENTRIES < s.freelist.length) (hmax : argv.length ≤ MAXARG)
    (hfit : (3 + argv.length + 1) * 4 + stringBytes argv ≤ PGSIZE) :
    ∃ r s', (execEntry L p emptyProgram argv).run s = .ok (some r, s') := by
  have hcard : 3 + NPDENTRIES + (ownedBy s.mem p.pgdir).card < hs.calmFrames.pages.card := by
    rw [hs.card]
    omega
  obtain ⟨r, x, hsetup, hr⟩ := setupkvm_heap.returns hs.heap
  cases r with
  | none =>
    have hfew := hr.2 hcalm
    rw [Multiset.card_zero] at hfew
    omega
  | some d =>
    obtain ⟨y, E, hy, hE, hload⟩ := loadImage_starts hcalm hcard hr
    obtain ⟨r, z, hpush, hz, esp, rfl⟩ := (pushStack_fits hy hE hmax hfit).returns rfl
    have hold : ∀ q ∈ ownedBy s.mem p.pgdir, z.mem q = s.mem q := hz.frame
    obtain ⟨_, s', hfree, _⟩ := freevm_own.returns
      (hz.other rfl rfl (hold _ (mem_ownedBy_dir _ _)) fun i hi t ht =>
      hold t (mem_ownedBy_table hi ht))
    exact ⟨_, s', execEntry_run hsetup ((hload 0 [] argv).trans hpush) hfree⟩

theorem booted_room {calm : Prop} {machine : Machine} (hs : Spaces.Settled (Spaces.framesOf
    Conservation.smallKernel Spaces.bootMachine Spaces.bootMachine_nodup Spaces.bootMachine_fits calm) [p] machine)
    (hsz : p.sz = PGSIZE) : 3 + NPDENTRIES < machine.freelist.length := by
  have hmatch : Matches machine.mem p.space := hs.sizes p.space List.mem_cons_self
  have hone : pageCount p.sz = 1 := by
    rw [hsz]
    decide
  have hpages := congrArg Multiset.card hs.pages
  have howned := card_ownedBy (matches_iff.mp hmatch).2 (pageCount_le (Nat.le_of_lt hmatch.1))
  have hspaces : spacesOwned machine.mem [p.space] = ownedBy machine.mem p.space.pgdir := by simp [spacesOwned]
  rw [List.map_singleton, hspaces, Multiset.card_add, Multiset.card_add, Multiset.coe_card, Multiset.coe_card,
    Spaces.framesOf, Multiset.coe_card, Spaces.bootMachine, List.length_range', List.map_singleton,
    List.length_singleton] at hpages
  have hsize : pageCount p.space.sz = 1 := hone
  simp only [NPDENTRIES] at *
  omega

def echoHi : List (List UInt8) := [[101, 99, 104, 111], [104, 105]]

theorem exec_stack_decodes_bootMachine :
    ∃ p machine r s', (userinit Conservation.smallKernel []).run Spaces.bootMachine = .ok (p, machine) ∧
    (execEntry Conservation.smallKernel p emptyProgram echoHi).run machine = .ok (some r, s') ∧
    Decodes s'.mem r.process r.esp echoHi := by
  obtain ⟨p, machine, hrun, hsz, hs⟩ :=
    Spaces.userinit_settled Spaces.bootMachine_nodup Spaces.bootMachine_fits rfl
    Spaces.bootMachine_room (show ([] : List UInt8).length < PGSIZE by decide)
  obtain ⟨hintact, hmatch⟩ := booted_intact hs
  have hfit : (3 + echoHi.length + 1) * 4 + stringBytes echoHi ≤ PGSIZE := by decide
  obtain ⟨r, s', hexec⟩ := exec_fits hintact (hs.calm trivial) (booted_room hs hsz) (by decide) hfit
  exact ⟨p, machine, r, s', hrun, hexec, exec_stack_decodes _ p _ _ machine s' r hintact hexec⟩

end Xv6.Vm
