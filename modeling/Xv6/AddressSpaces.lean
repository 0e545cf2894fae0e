import Xv6.ExecCalls

namespace Xv6.Vm

open Xv6.Memory (PGSIZE KERNBASE uint)
open Xv6.Runs Xv6.Triples Xv6.Words Function

variable {L : Layout} {A : Frames L} {K : Multiset ℕ} {live rest : List Space}

def Process.space (p : Process) : Space := ⟨p.pgdir, p.sz⟩

theorem kalloc_sound : Triple (Sound A K live) kalloc (fun r s =>
    r.elim (Sound A K live s ∧ Scarce A (spacesOwned s.mem live + K).card) fun page => Sound A (page ::ₘ K) live s)
    NoStop := by
  apply Triple.start
  intro s hs
  refine (kalloc_heap.here hs.heap).post ?_
  rintro (_ | page) y hy
  · obtain ⟨hy, hscarce⟩ := hy
    refine ⟨hy.sound hs, fun hc => ?_⟩
    have hkept : ∀ p ∈ spacesOwned s.mem live, y.mem p = s.mem p := fun p hp =>
      hy.frame p (Multiset.mem_add.mpr (.inl hp))
    have hcard := hscarce hc
    rw [spacesOwned_kept hkept]
    simpa using hcard
  · have hboth := Heap.beside hs hy
    rwa [Multiset.cons_add, zero_add] at hboth

theorem kfree_sound {page : ℕ} : Triple (Sound A (page ::ₘ K) live) (kfree L page)
    (fun _ => Sound A K live) NoStop := by
  refine kfree_rule (fun s hs => A.fits page ?_) fun s bytes hs => ?_
  · rw [← hs.pages]
    simp
  · have hnodup := A.nodup
    rw [← hs.pages] at hnodup
    have hcount := Multiset.nodup_iff_count_le_one.mp hnodup page
    simp only [Multiset.count_add, Multiset.count_cons_self] at hcount
    have hkept : ∀ p ∈ spacesOwned s.mem live, update s.mem page bytes p = s.mem p := by
      intro p hp
      refine update_of_ne ?_ _ _
      rintro rfl
      have hin := Multiset.one_le_count_iff_mem.mpr hp
      omega
    refine ⟨?_, fun x hx => (hs.sizes x hx).kept fun p hp => hkept p (mem_spacesOwned hx hp), hs.calm⟩
    rw [spacesOwned_kept hkept, ← hs.pages, ← Multiset.cons_coe]
    simp only [Multiset.cons_add, Multiset.add_cons]

def Kept (A : Frames L) (K : Multiset ℕ) (p : Process) (rest : List Space) (q : Process) (s : Machine) : Prop :=
  q.kstack = p.kstack ∧ Sound A K (q.space :: rest) s

variable {p : Process}

theorem growproc_sound {n : ℤ} (hn : n < 0 → uint (p.sz + n) ≠ 0) :
    Triple (Sound A K (p.space :: rest)) (growproc L p n) (fun r => Kept A K p rest (r.getD p)) NoStop := by
  unfold growproc
  apply Triple.ite
  · intro _
    refine Triple.bind (allocuvm_sound (x := p.space) (uint (p.sz + n))) fun r => ?_
    apply Triple.ite
    · rintro rfl
      exact Triple.pure fun s hs => ⟨rfl, hs⟩
    · intro hr
      rw [if_neg hr]
      exact Triple.pure fun s hs => ⟨rfl, hs⟩
  · intro _
    apply Triple.ite
    · intro hneg
      refine Triple.bind (deallocuvm_sound (x := p.space) (uint (p.sz + n))) fun r => ?_
      apply Triple.ite
      · rintro rfl
        refine Triple.pure fun s hs => ⟨rfl, ?_⟩
        have hzero : p.sz = 0 := by
          have hmin : 0 = min p.sz (uint (p.sz + n)) := hs.1
          have hnew := hn hneg
          omega
        have hspace : (⟨p.space.pgdir, 0⟩ : Space) = p.space := by rw [← hzero]; rfl
        rw [Option.getD_none, ← hspace]
        exact hs.2
      · intro _
        exact Triple.pure fun s hs => ⟨rfl, hs.2⟩
    · intro _
      exact Triple.pure fun s hs => ⟨rfl, hs⟩

theorem execEntry_sound {reads : Reads} {argv : List (List UInt8)}
    (hargv : ∀ arg ∈ argv, arg.length < 2 ^ 32 - DEVSPACE) :
    Triple (Sound A K (p.space :: rest)) (execEntry L p reads argv)
      (fun r => Kept A K p rest ((r.map Entered.process).getD p)) NoStop := by
  unfold execEntry
  apply Triple.start
  intro s hs
  have hbad : Triple (fun x => x = s) (pure none : Call (Option Entered))
      (fun r => Kept A K p rest ((r.map Entered.process).getD p)) NoStop := Triple.ret ⟨rfl, hs⟩
  refine Triple.ite (fun _ => hbad) fun _ => Triple.ite (fun _ => hbad) fun _ => ?_
  apply Triple.bind (setupkvm_heap.here hs.heap)
  rintro (_ | d)
  · exact Triple.pure fun x hx => ⟨rfl, hx.1.sound hs⟩
  · refine Triple.bind (loadImage_own hargv) fun r => ?_
    apply Triple.start
    rintro x ⟨E, hx, hr⟩
    cases r with
    | none => exact Triple.bind (freevm_own.here hx) fun _ => Triple.pure fun y hy => ⟨rfl, hy.sound hs⟩
    | some r =>
      obtain ⟨sz, esp⟩ := r
      obtain ⟨hsz, hE⟩ := hr sz esp rfl
      have hboth : Sound A K (p.space :: ⟨d, sz⟩ :: rest) x :=
        (hx.sound hs.sizes hsz hE).perm (List.Perm.swap _ _ _)
      exact Triple.bind ((freevm_sound (x := p.space)).here hboth) fun _ => Triple.pure fun y hy => ⟨rfl, hy⟩

theorem exec_sound {reads : Reads} {argv : List (List UInt8)}
    (hargv : ∀ arg ∈ argv, arg.length < 2 ^ 32 - DEVSPACE) :
    Triple (Sound A K (p.space :: rest)) (exec L p reads argv) (fun r => Kept A K p rest (r.getD p)) NoStop :=
  Triple.bind (execEntry_sound hargv) fun _ => Triple.pure fun _ hs => hs

def Forked.Sound (A : Frames L) (K : Multiset ℕ) (live : List Space) (s : Machine) : Forked → Prop
  | .noStack | .noCopy => Vm.Sound A K live s
  | .child np => Vm.Sound A (np.kstack ::ₘ K) (np.space :: live) s

theorem fork_sound (hp : p.space ∈ live) :
    Triple (Sound A K live) (fork L p) (fun r s => r.Sound A K live s) NoStop := by
  apply Triple.bind kalloc_sound
  rintro (_ | kstack)
  · exact Triple.pure fun s hs => hs.1
  · refine Triple.bind (copyuvm_sound (x := p.space) hp) fun r => ?_
    cases r with
    | none => exact Triple.bind kfree_sound fun _ => Triple.pure fun s hs => hs
    | some d => exact Triple.pure fun s hs => hs

theorem userStore_sound {va : ℕ} {b : UInt8} :
    Triple (Sound A K (p.space :: rest)) (userStore p va b) (fun _ => Sound A K (p.space :: rest)) NoStop := by
  unfold userStore
  apply Triple.ite
  · intro _
    exact Triple.pure fun s hs => hs
  · intro hva
    apply Triple.start
    intro s hs
    have hv : va / PGSIZE < KERNBASE / PGSIZE := by
      simp only [KERNBASE, PGSIZE] at *
      omega
    have hpdx : PDX va = va / PGSIZE / 1024 := by
      simp only [PDX, PGSIZE, KERNBASE] at *
      omega
    have hptx : PTX va = va / PGSIZE % 1024 := rfl
    cases ht : tableOf s.mem p.pgdir (PDX va) with
    | none =>
      apply Triple.step (walk_missing ht)
      exact Triple.ret hs
    | some t =>
      apply Triple.step (walk_found ht)
      apply Triple.step (load_run _ _ _)
      rw [hpdx] at ht
      rw [hptx, ← entryOf_some ht]
      apply Triple.ite
      · intro hp
        obtain ⟨hsz, hfill⟩ := matches_iff.mp (hs.sizes p.space List.mem_cons_self)
        have hrest : ∀ y ∈ rest, Matches s.mem y := fun y hy => hs.sizes y (List.mem_cons_of_mem _ hy)
        have hwrite : Triple (fun x => x = s)
            (writeAt (PTE_ADDR (entryOf s.mem p.pgdir (va / PGSIZE)) / PGSIZE) (va % PGSIZE) [b]) _ NoStop :=
          (writeAt_own hv hp.1).here hs.own
        exact hwrite.post fun _ y hy => hy.sound hrest hsz hfill
      · intro _
        exact Triple.ret hs

theorem inituvm_own {d : ℕ} {E : ℕ → ℕ} {R : Multiset ℕ} {m₀ : ℕ → Bytes} {init : List UInt8}
    (hinit : init.length < PGSIZE) (hE : Filled E 0) (hcalm : A.calm)
    (hroom : 3 + NPDENTRIES + R.card ≤ A.pages.card) :
    Triple (Own A 0 R m₀ d E) (inituvm d init) (fun _ s => ∃ E', Own A 0 R m₀ d E' s ∧ Filled E' 1) NoStop := by
  have hperm : PTE_W ||| PTE_U < PGSIZE := by decide
  have huser : 0 < KERNBASE / PGSIZE := by decide
  have hempty : userPages E = 0 := userPages_zero fun v hv => hE.above (Nat.zero_le v) hv
  unfold inituvm
  apply Triple.ite
  · intro hbig
    omega
  · intro _
    apply Triple.bind (R := fun r s => ∃ page, r = some page ∧ Own A {page} R m₀ d E s)
    · refine kalloc_rule (fun s hs hf => ?_) fun s page rest hs hf => ⟨page, rfl, hs.take hf⟩
      have hscarce := hs.scarce hf hcalm
      rw [hempty, Multiset.card_zero] at hscarce
      omega
    · intro r
      apply Triple.start
      rintro s ⟨page, rfl, hs⟩
      have hmap : Triple (Own A (page ::ₘ 0) R m₀ d E) (mappages d (0 * PGSIZE) PGSIZE
        (page * PGSIZE) (PTE_W ||| PTE_U))
          _ NoStop := mappages_user huser (hE.above (Nat.le_refl 0) huser) hperm
      rw [Nat.zero_mul] at hmap
      apply Triple.step (fill_run _ _ _)
      apply Triple.bind (hmap.here (hs.write (Multiset.mem_singleton_self page) _))
      rintro (_ | _)
      · apply Triple.known (p := False) (fun x hx => ?_) False.elim
        have hscarce := hx.2 hcalm
        rw [need, hempty, Multiset.card_zero, Multiset.card_cons, Multiset.card_zero] at hscarce
        omega
      · have hpage := entry_page page hperm
        have hpresent := present_entry page hperm
        have hfilled := hE.extend (q := page) hperm
        generalize hw : page * PGSIZE ||| (PTE_W ||| PTE_U) ||| PTE_P = w at hpage hpresent hfilled ⊢
        have hwrite : Triple (Own A 0 R m₀ d (update E 0 w)) (writeAt (PTE_ADDR (update E 0 w 0) / PGSIZE) 0 init)
            (fun _ => Own A 0 R m₀ d (update E 0 w)) NoStop :=
          writeAt_own huser (by rwa [update_self])
        rw [update_self, hpage] at hwrite
        exact hwrite.post fun _ y hy => ⟨_, hy, hfilled⟩

theorem userinit_sound {initcode : List UInt8} (hinit : initcode.length < PGSIZE) (hcalm : A.calm)
    (hroom : 4 + NPDENTRIES ≤ A.pages.card) :
    Triple (Sound A 0 []) (userinit L initcode) (fun p s => p.sz = PGSIZE ∧
      Sound A {p.kstack} [p.space] s) NoStop := by
  apply Triple.bind kalloc_sound
  rintro (_ | kstack)
  · apply Triple.known (p := False) (fun s hs => ?_) False.elim
    have hscarce := hs.2 hcalm
    simp only [spacesOwned, List.map_nil, List.sum_nil, add_zero, Multiset.card_zero] at hscarce
    omega
  · apply Triple.bind setupkvm_sound
    rintro (_ | d)
    · apply Triple.known (p := False) (fun s hs => ?_) False.elim
      have hscarce := hs.2 hcalm
      simp only [spacesOwned, List.map_nil, List.sum_nil, zero_add, Multiset.card_cons,
        Multiset.card_zero] at hscarce
      omega
    · apply Triple.start
      intro s hs
      have hfill : Filled (entryOf s.mem d) (pageCount 0) :=
        (matches_iff.mp (hs.sizes ⟨d, 0⟩ List.mem_cons_self)).2
      rw [show pageCount 0 = 0 by decide] at hfill
      have hcard : 3 + NPDENTRIES + (spacesOwned s.mem [] + kstack ::ₘ 0).card ≤ A.pages.card := by
        simp only [spacesOwned, List.map_nil, List.sum_nil, zero_add, Multiset.card_cons, Multiset.card_zero]
        omega
      refine Triple.bind ((inituvm_own hinit hfill hcalm hcard).here hs.own) fun _ =>
        Triple.pure fun x hx => ⟨rfl, ?_⟩
      obtain ⟨E, hx, hE⟩ := hx
      have hsz : PGSIZE < KERNBASE := by decide
      have hone : pageCount PGSIZE = 1 := by decide
      exact hx.sound (fun y hy => by cases hy) hsz (by rw [hone]; exact hE)

namespace Spaces

/-- The processes that have an address space, and the number of slots left in `EMBRYO` by a `fork` that found no
page for the kernel stack. -/
structure State where
  machine : Machine
  procs : List Process
  embryos : ℕ

inductive Event where
  | fork (i : ℕ) (fails : List Bool)
  | exec (i : ℕ) (reads : Reads) (argv : List (List UInt8)) (fails : List Bool)
  | sbrk (i : ℕ) (n : ℤ) (fails : List Bool)
  | store (i va : ℕ) (b : UInt8)

def Event.proc : Event → ℕ
  | .fork i _ | .exec i _ _ _ | .sbrk i _ _ | .store i _ _ => i

def Event.fails : Event → List Bool
  | .fork _ fails | .exec _ _ _ fails | .sbrk _ _ fails => fails
  | .store _ _ _ => []

def call (L : Layout) (s : State) (p : Process) : Event → Call (List Process × ℕ)
  | .fork _ _ => do
    if NPROC ≤ s.procs.length + s.embryos then return (s.procs, s.embryos)
    else
      match ← fork L p with
      | .noStack => return (s.procs, s.embryos + 1)
      | .noCopy => return (s.procs, s.embryos)
      | .child np => return (s.procs ++ [np], s.embryos)
  | .exec i reads argv _ => do
    let r ← exec L p reads argv
    return (s.procs.set i (r.getD p), s.embryos)
  | .sbrk i n _ => do
    let r ← growproc L p n
    return (s.procs.set i (r.getD p), s.embryos)
  | .store _ va b => do
    userStore p va b
    return (s.procs, s.embryos)

def outcome (L : Layout) (s : State) (e : Event) : Option (Except Stop State) :=
  s.procs[e.proc]?.map fun p =>
    ((call L s p e).run (Conservation.failing s.machine e.fails)).map fun r => ⟨r.2, r.1.1, r.1.2⟩

def step (L : Layout) (s : State) (e : Event) : Option State := (outcome L s e).bind Except.toOption

def Proper (s : State) : Event → Prop
  | .sbrk i n _ => ∀ p, s.procs[i]? = some p → n < 0 → uint (p.sz + n) ≠ 0
  | .exec _ _ argv _ => ∀ arg ∈ argv, arg.length < 2 ^ 32 - DEVSPACE
  | _ => True

def Settled (A : Frames L) (procs : List Process) (machine : Machine) : Prop :=
  Sound A (procs.map Process.kstack : List ℕ) (procs.map Process.space) machine

variable {s s' : State} {e : Event} {p : Process} {procs : List Process} {machine : Machine}

theorem Settled.perm {procs' : List Process} (h : Settled A procs machine) (hp : procs.Perm procs') :
    Settled A procs' machine := by
  have hstacks : ((procs.map Process.kstack : List ℕ) : Multiset ℕ) = (procs'.map Process.kstack : List ℕ) :=
    Multiset.coe_eq_coe.mpr (hp.map _)
  unfold Settled
  rw [← hstacks]
  exact Sound.perm h (hp.map _)

theorem Kept.settled {q : Process} {i : ℕ} (hi : i < procs.length)
    (h : Kept A ((p :: procs.eraseIdx i).map Process.kstack : List ℕ) p
      ((procs.eraseIdx i).map Process.space) q machine) :
    Settled A (procs.set i q) machine := by
  have hq : Settled A (q :: procs.eraseIdx i) machine := by
    obtain ⟨hstack, hs⟩ := h
    unfold Settled
    rw [List.map_cons, List.map_cons, hstack]
    exact hs
  exact hq.perm (List.set_perm_cons_eraseIdx hi q).symm

theorem call_settled (hp : s.procs[e.proc]? = some p) (he : Proper s e) :
    Triple (Settled A s.procs) (call L s p e) (fun r => Settled A r.1) NoStop := by
  have hi : e.proc < s.procs.length := (List.getElem?_eq_some_iff.mp hp).1
  have hpick (x : Machine) (hx : Settled A s.procs x) : Settled A (p :: s.procs.eraseIdx e.proc) x :=
    hx.perm (Conservation.pick_perm hp)
  cases e with
  | fork i fails =>
    apply Triple.ite
    · intro _
      exact Triple.pure fun x hx => hx
    · intro _
      have hmem : p.space ∈ s.procs.map Process.space := List.mem_map_of_mem (List.mem_of_getElem? hp)
      refine Triple.bind (fork_sound hmem) fun r => ?_
      cases r with
      | noStack => exact Triple.pure fun x hx => hx
      | noCopy => exact Triple.pure fun x hx => hx
      | child np =>
        refine Triple.pure fun x hx => ?_
        have hchild : Settled A (np :: s.procs) x := hx
        exact hchild.perm (List.perm_append_singleton np s.procs).symm
  | exec i reads argv fails =>
    exact Triple.bind ((exec_sound he).pre hpick) fun r => Triple.pure fun x hx => Kept.settled hi hx
  | sbrk i n fails =>
    exact Triple.bind ((growproc_sound (he p hp)).pre hpick) fun r => Triple.pure fun x hx => Kept.settled hi hx
  | store i va b =>
    refine Triple.bind (userStore_sound.pre hpick) fun r => Triple.pure fun x hx => ?_
    exact Settled.perm hx (Conservation.pick_perm hp).symm

theorem outcome_settled (hs : ∀ fails, Settled A s.procs (Conservation.failing s.machine fails)) (he : Proper s e)
    {r : Except Stop State} (h : outcome L s e = some r) : ∃ s', r = .ok s' ∧ Settled A s'.procs s'.machine := by
  obtain ⟨p, hp, hr⟩ := Option.map_eq_some_iff.mp h
  obtain ⟨a, machine, hrun, hQ⟩ := (call_settled hp he).returns (hs e.fails)
  rw [hrun] at hr
  exact ⟨_, hr.symm, hQ⟩

def framesOf (L : Layout) (m : Machine) (hnodup : m.freelist.Nodup)
    (hfits : ∀ q ∈ m.freelist, L.kernelEnd ≤ q * PGSIZE + KERNBASE ∧ q * PGSIZE < PHYSTOP) (calm : Prop) :
    Frames L :=
  ⟨m.freelist, calm, Multiset.coe_nodup.mpr hnodup, hfits⟩

variable {m : Machine} {R : Multiset ℕ} {m₀ : ℕ → Bytes} {E : ℕ → ℕ} {d src sz : ℕ}

theorem Settled.failing {hnodup : m.freelist.Nodup}
    {hfits : ∀ q ∈ m.freelist, L.kernelEnd ≤ q * PGSIZE + KERNBASE ∧ q * PGSIZE < PHYSTOP} {calm : Prop}
    (h : Settled (framesOf L m hnodup hfits calm) procs machine) (fails : List Bool) :
    Settled (framesOf L m hnodup hfits False) procs (Conservation.failing machine fails) :=
  ⟨h.pages, h.sizes, False.elim⟩

theorem settled_preserved {hnodup : m.freelist.Nodup}
    {hfits : ∀ q ∈ m.freelist, L.kernelEnd ≤ q * PGSIZE + KERNBASE ∧ q * PGSIZE < PHYSTOP} :
    Preserves (step L) Proper fun s => Settled (framesOf L m hnodup hfits False) s.procs s.machine := by
  intro s e s' hs he hstep
  obtain ⟨r, hr, hok⟩ := Option.bind_eq_some_iff.mp hstep
  obtain ⟨t, rfl, ht⟩ := outcome_settled (fun fails => hs.failing fails) he hr
  cases hok
  exact ht

theorem userinit_settled {initcode : List UInt8} (hnodup : m.freelist.Nodup)
    (hfits : ∀ q ∈ m.freelist, L.kernelEnd ≤ q * PGSIZE + KERNBASE ∧ q * PGSIZE < PHYSTOP) (hcalm : m.fails = [])
    (hroom : 2 * NPDENTRIES ≤ m.freelist.length) (hcode : initcode.length < PGSIZE) :
    ∃ p machine, (userinit L initcode).run m = .ok (p, machine) ∧ p.sz = PGSIZE ∧
      Settled (framesOf L m hnodup hfits True) [p] machine := by
  have hstart : Sound (framesOf L m hnodup hfits True) 0 [] m :=
    ⟨by simp [spacesOwned, framesOf], (fun _ h => by cases h), fun _ => hcalm⟩
  have hcard : 4 + NPDENTRIES ≤ (framesOf L m hnodup hfits True).pages.card := by
    simp only [framesOf, Multiset.coe_card, NPDENTRIES] at hroom ⊢
    omega
  obtain ⟨p, machine, hrun, hsz, hs⟩ := (userinit_sound hcode trivial hcard).returns hstart
  exact ⟨p, machine, hrun, hsz, hs⟩

theorem spaces_match (L : Layout) (m : Machine) (initcode : List UInt8) (hnodup : m.freelist.Nodup)
    (hfits : ∀ q ∈ m.freelist, L.kernelEnd ≤ q * PGSIZE + KERNBASE ∧ q * PGSIZE < PHYSTOP) (hcalm : m.fails = [])
    (hroom : 2 * NPDENTRIES ≤ m.freelist.length) (hcode : initcode.length < PGSIZE) :
    ∃ p machine, (userinit L initcode).run m = .ok (p, machine) ∧
      ∀ s, Reaches (step L) Proper ⟨machine, [p], 0⟩ s →
        (∀ q ∈ s.procs, Matches s.machine.mem q.space) ∧
        ∀ e, Proper s e → ∀ stop, outcome L s e ≠ some (.error stop) := by
  obtain ⟨p, machine, hrun, _, hs⟩ := userinit_settled hnodup hfits hcalm hroom hcode
  refine ⟨p, machine, hrun, fun s hr => ?_⟩
  have hsettled := hr.invariant settled_preserved (hs.failing machine.fails)
  refine ⟨fun q hq => hsettled.sizes _ (List.mem_map_of_mem hq), fun e he stop hstop => ?_⟩
  obtain ⟨_, herr, _⟩ := outcome_settled (fun fails => hsettled.failing fails) he hstop
  cases herr

def bootMachine : Machine := ⟨List.range' 1024 4096, fun _ _ => 0, []⟩

theorem bootMachine_nodup : bootMachine.freelist.Nodup := List.nodup_range'

theorem bootMachine_fits : ∀ q ∈ bootMachine.freelist,
    Conservation.smallKernel.kernelEnd ≤ q * PGSIZE + KERNBASE ∧ q * PGSIZE < PHYSTOP := by
  intro q hq
  have hrange := List.mem_range'_1.mp hq
  simp only [Conservation.smallKernel, PGSIZE, KERNBASE, PHYSTOP]
  omega

theorem bootMachine_room : 2 * NPDENTRIES ≤ bootMachine.freelist.length := by
  rw [bootMachine, List.length_range']
  decide

theorem spaces_match_bootMachine :
    ∃ p machine, (userinit Conservation.smallKernel []).run bootMachine = .ok (p, machine) ∧
    ∀ s, Reaches (step Conservation.smallKernel) Proper ⟨machine, [p], 0⟩ s →
      (∀ q ∈ s.procs, Matches s.machine.mem q.space) ∧
      ∀ e, Proper s e → ∀ stop, outcome Conservation.smallKernel s e ≠ some (.error stop) :=
  spaces_match _ _ _ bootMachine_nodup bootMachine_fits rfl bootMachine_room (by decide)

theorem growproc_whole (hpos : 0 < p.sz) (hsz : p.sz < KERNBASE) :
    Triple (Own A 0 R m₀ p.pgdir E) (growproc L p (-p.sz)) (fun r s => r = none ∧
      Own A 0 R m₀ p.pgdir (clearRange E 0 (pageCount p.sz)) s) NoStop := by
  have hnew : uint (p.sz + -p.sz) = 0 := by
    rw [Int.add_right_neg]
    rfl
  unfold growproc
  rw [if_neg (by omega), if_pos (by omega), hnew]
  refine Triple.bind (deallocuvm_own (Nat.le_of_lt hsz)) fun r => ?_
  apply Triple.known (fun s hs => hs.1)
  rintro rfl
  rw [Nat.min_zero, if_pos rfl]
  exact Triple.pure fun s hs => ⟨rfl, hs.2⟩

def NoPage (stop : Stop) : Prop := stop = .copyuvmExist ∨ stop = .copyuvmPresent

theorem copyFrom_stops {fuel : ℕ} (hsrc : Framed R m₀ src) (hpos : 0 < sz)
    (habsent : present (entryOf m₀ src 0) = false) :
    Triple (fun s => ∀ q ∈ R, s.mem q = m₀ q) (copyFrom L src d sz (fuel + 1) 0) (fun _ _ => False) NoPage := by
  unfold copyFrom
  rw [if_pos hpos]
  apply Triple.start
  intro s hs
  cases ht : tableOf s.mem src (PDX 0) with
  | none =>
    apply Triple.step (walk_missing ht)
    exact Triple.throw (.inl rfl)
  | some t =>
    have hentry : get32 (s.mem t) (4 * PTX 0) = entryOf m₀ src 0 := hsrc.entry (v := 0) hs (by decide) ht
    apply Triple.step (walk_found ht)
    apply Triple.step (load_run _ _ _)
    rw [hentry, if_pos habsent]
    exact Triple.throw (.inr rfl)

theorem copyuvm_stops {H : Multiset ℕ} (hsrc : Framed R m₀ src) (hpos : 0 < sz)
    (habsent : present (entryOf m₀ src 0) = false) (hcalm : A.calm)
    (hroom : 2 + NPDENTRIES + H.card + R.card ≤ A.pages.card) :
    Triple (Heap A H R m₀) (copyuvm L src sz) (fun _ _ => False) NoPage := by
  apply Triple.bind (setupkvm_heap.except fun _ h => h.elim)
  rintro (_ | d)
  · apply Triple.known (p := False) (fun s hs => ?_) False.elim
    have hscarce := hs.2 hcalm
    omega
  · exact Triple.bind ((copyFrom_stops hsrc hpos habsent).pre fun s hs => hs.frame) fun _ => Triple.never

theorem fork_stops (hsrc : Framed R m₀ p.pgdir) (hpos : 0 < p.sz)
    (habsent : present (entryOf m₀ p.pgdir 0) = false) (hcalm : A.calm)
    (hroom : 3 + NPDENTRIES + R.card ≤ A.pages.card) :
    Triple (Heap A 0 R m₀) (fork L p) (fun _ _ => False) NoPage := by
  apply Triple.bind (kalloc_heap.except fun _ h => h.elim)
  rintro (_ | kstack)
  · apply Triple.known (p := False) (fun s hs => ?_) False.elim
    have hscarce := hs.2 hcalm
    rw [Multiset.card_zero] at hscarce
    omega
  · refine Triple.bind (copyuvm_stops hsrc hpos habsent hcalm ?_) fun _ => Triple.never
    rw [Multiset.card_cons, Multiset.card_zero]
    omega

theorem Own.heap (h : Own A 0 R m₀ d E machine) :
    Heap A 0 (ownedBy machine.mem d + R) machine.mem machine := by
  refine ⟨?_, fun _ _ => rfl, h.calm⟩
  rw [← h.pages, ownedBy, userPages_congr h.entries]
  simp only [add_zero, add_assoc]

theorem sbrk_whole (hs : Settled A [p] machine) (hcalm : A.calm) (hpos : 0 < p.sz)
    (hroom : 5 + 2 * NPDENTRIES ≤ A.pages.card) :
    ∃ machine', step L ⟨machine, [p], 0⟩ (.sbrk 0 (-p.sz) []) = some ⟨machine', [p], 0⟩ ∧
      ¬ Matches machine'.mem p.space ∧
      ∃ stop, outcome L ⟨machine', [p], 0⟩ (.fork 0 []) = some (.error stop) ∧ NoPage stop := by
  obtain ⟨hsz, hfill⟩ : p.sz < KERNBASE ∧ Filled (entryOf machine.mem p.pgdir) (pageCount p.sz) :=
    matches_iff.mp (hs.sizes p.space List.mem_cons_self)
  obtain ⟨r, machine', hrun, rfl, hown⟩ := (growproc_whole hpos hsz).returns (Sound.own hs)
  have hempty : Filled (clearRange (entryOf machine.mem p.pgdir) 0 (pageCount p.sz)) (min 0 (pageCount p.sz)) :=
    hfill.clear
  rw [Nat.zero_min] at hempty
  have hzero : present (entryOf machine'.mem p.pgdir 0) = false := by
    rw [hown.entries 0 (by decide)]
    exact hempty 0 (by decide)
  refine ⟨machine', ?_, fun hmatch => ?_, ?_⟩
  · have hout : outcome L ⟨machine, [p], 0⟩ (.sbrk 0 (-p.sz) []) = some (.ok ⟨machine', [p], 0⟩) := by
      rw [outcome]
      simp only [Event.proc, Event.fails, List.getElem?_cons_zero, Option.map_some, call, StateT.run_bind,
        Conservation.failing_nil (hs.calm hcalm), hrun]
      rfl
    rw [step, hout]
    rfl
  · have hfirst : present (entryOf machine'.mem p.pgdir 0) = decide (0 < pageCount p.sz) :=
      (matches_iff.mp hmatch).2 0 (by decide)
    have hcount : 0 < pageCount p.sz := lt_pageCount.mpr (by rwa [Nat.zero_mul])
    rw [decide_eq_true hcount] at hfirst
    rw [hfirst] at hzero
    cases hzero
  · have hheap := Own.heap hown
    have hsrc : Framed (ownedBy machine'.mem p.pgdir + (spacesOwned machine.mem [] + [p.kstack]))
        machine'.mem p.pgdir := by
      refine ⟨?_, fun i hi t ht => ?_⟩
      · exact Multiset.mem_add.mpr (.inl (mem_ownedBy_dir _ _))
      · exact Multiset.mem_add.mpr (.inl (mem_ownedBy_table hi ht))
    have hstop := (fork_stops hsrc hpos hzero hcalm ?_).fails hheap
    · obtain ⟨stop, hstop, hpage⟩ := hstop
      refine ⟨stop, ?_, hpage⟩
      rw [outcome]
      simp only [Event.proc, Event.fails, List.getElem?_cons_zero, Option.map_some, call,
        Conservation.failing_nil (hown.calm hcalm)]
      have hslot : ¬ NPROC ≤ [p].length + 0 := by
        rw [List.length_singleton]
        decide
      rw [if_neg hslot, StateT.run_bind, hstop]
      rfl
    · have htables := card_tablePages (tableOf machine'.mem p.pgdir)
      have husers : userPages (entryOf machine'.mem p.pgdir) = 0 := by
        rw [userPages_congr hown.entries]
        exact userPages_zero fun v hv => hempty.above (Nat.zero_le v) hv
      rw [ownedBy, husers]
      simp only [spacesOwned, List.map_nil, List.sum_nil, zero_add, add_zero,
        Multiset.card_add, Multiset.card_singleton, Multiset.coe_card, List.length_singleton]
      omega

theorem sbrk_grows {n : ℕ} (hs : Settled A [p] machine) (hcalm : A.calm) (hpos : 0 < n)
    (hnew : p.sz + n < KERNBASE) (hroom : 2 + NPDENTRIES + pageCount (p.sz + n) < A.pages.card) :
    ∃ machine', step L ⟨machine, [p], 0⟩ (.sbrk 0 n []) = some ⟨machine', [{ p with sz := p.sz + n }], 0⟩ := by
  have hmatch : Matches machine.mem p.space := hs.sizes p.space List.mem_cons_self
  have hgrow : pageCount p.sz ≤ pageCount (p.sz + n) := by
    simp only [pageCount, PGSIZE]
    omega
  obtain ⟨r, machine', hrun, hr⟩ := (allocuvm_own (Nat.le_of_lt hmatch.1) fun _ v hlo
    (hhi : v < pageCount (p.sz + n)) => hmatch.absent hnew v hlo hhi).returns (Sound.own hs)
  change (allocuvm L p.pgdir p.sz (p.sz + n)).run machine = _ at hrun
  obtain ⟨rfl, _⟩ | ⟨_, hless, _⟩ | ⟨_, _, _, _, hscarce⟩ := hr
  · have hsum : uint (p.sz + (n : ℤ)) = p.sz + n := by
      simp only [uint, KERNBASE] at *
      omega
    have hcall : (growproc L p n).run machine = .ok (some { p with sz := p.sz + n }, machine') := by
      rw [growproc, if_pos (by omega), hsum, run_bind_after hrun, if_neg (by omega)]
      rfl
    refine ⟨machine', ?_⟩
    rw [step, outcome]
    simp only [Event.proc, Event.fails, List.getElem?_cons_zero, Option.map_some, call, StateT.run_bind,
      Conservation.failing_nil (hs.calm hcalm), hcall]
    rfl
  · exact absurd hless (Nat.not_lt.mpr (Nat.le_add_right p.sz n))
  · have hfew := hscarce hnew hcalm
    rw [need, card_userPages (matches_iff.mp hmatch).2 (pageCount_le (Nat.le_of_lt hmatch.1))] at hfew
    simp only [spacesOwned, List.map_nil, List.sum_nil, zero_add, Multiset.card_zero,
      List.map_cons, Multiset.coe_card, List.length_singleton, Process.space] at hfew
    omega

theorem sbrk_whole_breaks : ∃ p machine s,
    (userinit Conservation.smallKernel []).run bootMachine = .ok (p, machine) ∧
    Reaches (step Conservation.smallKernel) Always ⟨machine, [p], 0⟩ s ∧
    (∃ q ∈ s.procs, ¬ Matches s.machine.mem q.space) ∧
    ∃ stop, outcome Conservation.smallKernel s (.fork 0 []) = some (.error stop) ∧ NoPage stop := by
  obtain ⟨p, machine, hrun, hsz, hs⟩ :=
    userinit_settled bootMachine_nodup bootMachine_fits rfl bootMachine_room
    (show ([] : List UInt8).length < PGSIZE by decide)
  have hpos : 0 < p.sz := by
    rw [hsz]
    decide
  obtain ⟨machine', hstep, hmatch, hfork⟩ := sbrk_whole hs trivial hpos (by
    rw [framesOf, Multiset.coe_card, bootMachine, List.length_range']
    decide)
  exact ⟨p, machine, _, hrun, Reaches.tail .refl trivial hstep, ⟨p, List.mem_cons_self, hmatch⟩, hfork⟩

end Spaces

end Xv6.Vm
