import Xv6.ForkSystem

namespace Xv6.Vm.Ptable

open Xv6.Memory (PGSIZE KERNBASE)
open Xv6.Threads (Kthread ProcState slots base NTHREAD searchUnused)
open Xv6.Triples Xv6.Runs

structure Unchanged (p : ℕ) (t : Tables) (s : Machine) (t' : Tables) (s' : Machine) : Prop where
  unused : ∀ q < NPROC, (t'.proc q).state = .unused ↔ (t.proc q).state = .unused
  threads : ∀ i < NPROC * NTHREAD, (t'.thr i).state = (t.thr i).state
  pages : s'.freelist.Perm s.freelist
  files : t'.files = t.files
  inodes : t'.inodes = t.inodes
  parent : t'.proc p = t.proc p
  parentThreads : ∀ i ∈ slots (base p), t'.thr i = t.thr i
  memory : ∀ page ∈ ownedBy s.mem (t.proc p).pgdir, s'.mem page = s.mem page

def OutOfPages (s : Machine) : Prop := s.freelist = [] ∨ s.fails.headD false = true

def StackFree (t : Tables) (s : Machine) : Prop := (∀ q < NPROC, (t.proc q).state ≠ .unused) ∨ ¬ OutOfPages s

theorem kalloc_none_iff {s : Machine} :
    Triple (fun x => x = s) kalloc (fun r _ => r = none ↔ OutOfPages s) NoStop := by
  unfold kalloc OutOfPages
  refine Triple.get fun x hx => ?_
  subst hx
  cases x.freelist with
  | nil =>
    exact Triple.bind (R := fun _ _ => True) (Triple.set fun _ _ => trivial) fun _ =>
      Triple.pure fun _ _ => by simp
  | cons page rest =>
    cases hf : x.fails.headD false with
    | true =>
      exact Triple.bind (R := fun _ _ => True) (Triple.set fun _ _ => trivial) fun _ =>
        Triple.pure fun _ _ => by simp
    | false =>
      exact Triple.bind (R := fun _ _ => True) (Triple.set fun _ _ => trivial) fun _ =>
        Triple.pure fun _ _ => by simp

variable {L : Layout} {A : Frames L} {t t' : Tables} {s s' : Machine} {p q : ℕ}

def inUse (t : Tables) (s : Machine) : Multiset ℕ := spacesOwned s.mem (spaces t.proc) + kstacks t.thr

inductive Failure (A : Frames L) (t : Tables) (s : Machine) : Tables → Machine → Prop
  | noSlot (h : searchUnused (fun q => (t.proc q).state) = none) : Failure A t s t s
  | noStack (q : ℕ) (s' : Machine) (hq : q < NPROC) (hunused : (t.proc q).state = .unused) (hout : OutOfPages s) :
      Failure A t s ((t.allocproc q).setThr (base q) { (t.allocproc q).thr (base q) with kstack := 0 }) s'
  | noCopy (q page : ℕ) (s' : Machine) (hq : q < NPROC) (hunused : (t.proc q).state =
      .unused) (hout : ¬ OutOfPages s) (hs' : Heap A 0 (inUse t s) s.mem s') :
      Failure A t s (((t.allocproc q).setStack (base q) page).giveUp q) s'

theorem fork_fails (hp : t.uses p) (hs : Consistent A t s) : Triple (fun x => x = s) (fork L t p) (fun r x =>
    r.1 = none → Failure A t s r.2 x ∧ (searchUnused (fun q => (t.proc q).state) ≠ none →
      Scarce A (copyNeed (pageCount (t.proc p).sz) (1 + (inUse t s).card)))) NoStop := by
  unfold fork
  cases hsearch : searchUnused fun q => (t.proc q).state with
  | none => exact Triple.ret fun _ => ⟨.noSlot hsearch, fun h => absurd rfl h⟩
  | some q =>
    obtain ⟨hq, hunused⟩ := searchUnused_found hsearch
    have hmem : (⟨(t.proc p).pgdir, (t.proc p).sz⟩ : Space) ∈ spaces t.proc :=
      List.mem_filterMap.mpr ⟨p, List.mem_range.mpr hp.1, hp.space⟩
    obtain ⟨hframed, hsz, hpresent⟩ := hs.memory.copyable hmem
    have hkalloc := ((kalloc_heap (R := inUse t s)).here hs.memory.heap).and (kalloc_none_iff (s := s))
    refine Triple.bind (Triple.except (hkalloc.pre fun x hx => ⟨hx, hx⟩) fun _ h => h.1) ?_
    rintro (_ | page)
    · apply Triple.start
      rintro x ⟨⟨_, hscarce⟩, hnone⟩
      refine Triple.ret fun _ => ⟨.noStack q x hq hunused (hnone.mp rfl), fun _ hc => ?_⟩
      exact Nat.le_trans (hscarce hc) (by simp only [copyNeed, Multiset.card_zero]; omega)
    · apply Triple.start
      rintro x ⟨hx, hnone⟩
      have hout : ¬ OutOfPages s := fun h => Option.some_ne_none _ (hnone.mpr h)
      dsimp only
      rw [Tables.setStack_proc, Tables.allocproc_ne _ (hp.ne hunused)]
      refine Triple.bind ((copyuvm_laden hframed hsz hpresent).here hx) ?_
      rintro (_ | pgdir)
      · apply Triple.start
        rintro y ⟨hy, hscarce⟩
        refine Triple.bind (kfree_heap.here hy) fun _ => Triple.pure fun z hz _ => ?_
        exact ⟨.noCopy q page z hq hunused hout hz, fun _ hc => hscarce hc⟩
      · exact Triple.pure fun y _ h => absurd h (Option.some_ne_none _)

theorem Unchanged.refl (p : ℕ) (t : Tables) (s : Machine) : Unchanged p t s t s :=
  ⟨fun _ _ => Iff.rfl, fun _ _ => rfl, .refl _, rfl, rfl, rfl, fun _ _ => rfl, fun _ _ => rfl⟩

theorem Failure.unchanged_noCopy {page : ℕ} (hs : Consistent A t s) (hp : t.uses p) (hq : q < NPROC)
    (hunused : (t.proc q).state = .unused) (hs' : Heap A 0 (inUse t s) s.mem s') :
    Unchanged p t s (((t.allocproc q).setStack (base q) page).giveUp q) s' := by
  have hpq := hp.ne hunused
  have hproc {i : ℕ} (hi : i ≠ q) : (((t.allocproc q).setStack (base q) page).giveUp q).proc i = t.proc i := by
    rw [Tables.giveUp, Tables.setThr_proc, Tables.setRow_ne _ hi, Tables.setStack_proc, Tables.allocproc_ne _ hi]
  have hthr {i : ℕ} (hi : i ∉ slots (base q)) :
      (((t.allocproc q).setStack (base q) page).giveUp q).thr i = t.thr i := by
    rw [Tables.giveUp, Tables.setThr_ne _ (ne_main hi), Tables.setRow_thr, Tables.setStack_ne _ (ne_main hi),
      allocproc_other hi]
  have huninit {i : ℕ} (hi : i ∈ slots (base q)) :
      ((((t.allocproc q).setStack (base q) page).giveUp q).thr i).state = .uninit := by
    by_cases him : i = base q
    · rw [him, Tables.giveUp, Tables.setThr_self]
    · rw [Tables.giveUp, Tables.setThr_ne _ him, Tables.setRow_thr, Tables.setStack_ne _ him, allocproc_uninit hi]
  refine ⟨fun i _ => ?_, fun i _ => ?_, ?_, rfl, rfl, hproc hpq,
    fun i hi => hthr fun hi' => ?_, fun page hpage => ?_⟩
  · by_cases hiq : i = q
    · rw [hiq, Tables.giveUp, Tables.setThr_proc, Tables.setRow_self, hunused]
    · rw [hproc hiq]
  · by_cases hi : i ∈ slots (base q)
    · rw [huninit hi, hs.idle q hq (.inl hunused) i hi]
    · rw [hthr hi]
  · have hpages := hs'.pages.trans hs.memory.heap.pages.symm
    rw [add_zero, add_zero] at hpages
    exact Multiset.coe_eq_coe.mp (add_right_cancel hpages)
  · exact hpq ((Threads.mem_slots.mp hi).symm.trans (Threads.mem_slots.mp hi'))
  · have hmem : (⟨(t.proc p).pgdir, (t.proc p).sz⟩ : Space) ∈ spaces t.proc :=
      List.mem_filterMap.mpr ⟨p, List.mem_range.mpr hp.1, hp.space⟩
    exact hs'.frame page (Multiset.mem_add.mpr (.inl (mem_spacesOwned hmem hpage)))

theorem Failure.unchanged_iff (h : Failure A t s t' s') (hs : Consistent A t s) (hp : t.uses p) :
    Unchanged p t s t' s' ↔ StackFree t s := by
  cases h with
  | noSlot h =>
    refine ⟨fun _ => .inl fun q hq hunused => ?_, fun _ => .refl p t s⟩
    exact List.find?_eq_none.mp h q (List.mem_range.mpr hq) (decide_eq_true hunused)
  | noStack q s' hq hunused hout =>
    constructor
    · intro h
      have hlost := (h.unused q hq).mpr hunused
      rw [Tables.setThr_proc, Tables.allocproc_self] at hlost
      cases hlost
    · rintro (hnone | hfree)
      · exact absurd hunused (hnone q hq)
      · exact absurd hout hfree
  | noCopy q page s' hq hunused hout hs' =>
    exact ⟨fun _ => .inr hout, fun _ => Failure.unchanged_noCopy hs hp hq hunused hs'⟩

def forkNeed (sz : ℕ) : ℕ := 3 + NPDENTRIES + pageCount sz

theorem fork_succeeds {r : Option ℤ} (hp : t.uses p) (hs : Consistent A t s) (hcalm : s.fails = [])
    (hslot : ∃ q < NPROC, (t.proc q).state = .unused) (hroom : forkNeed (t.proc p).sz < s.freelist.length)
    (hrun : (fork L t p).run s = .ok ((r, t'), s')) : r ≠ none := by
  rintro rfl
  have hcalmed : Consistent { A with calm := True } t s :=
    ⟨⟨hs.memory.pages, hs.memory.sizes, fun _ => hcalm⟩, hs.idle⟩
  obtain ⟨_, hscarce⟩ := (fork_fails hp hcalmed).ok rfl hrun rfl
  have hpages := congrArg Multiset.card hs.memory.heap.pages
  have hle := hscarce (fun hnone => by
    obtain ⟨q, hq, hunused⟩ := hslot
    exact List.find?_eq_none.mp hnone q (List.mem_range.mpr hq) (decide_eq_true hunused)) trivial
  rw [Multiset.card_add, Multiset.card_add, Multiset.coe_card, Multiset.card_zero] at hpages
  simp only [copyNeed, forkNeed, inUse] at hle hroom
  rw [← hpages] at hle
  omega

def bootTables (p : Process) : Tables where
  proc := fun q =>
    if q = 0 then ⟨Threads.bootRows 0, p.pgdir, p.sz, fun _ => none, some 0,
      safestrcpy (List.replicate 16 0) "initcode".toUTF8.toList 16⟩
    else ⟨Threads.emptyRow, 0, 0, fun _ => none, none, List.replicate 16 0⟩
  thr := fun i =>
    let sp := p.kstack * PGSIZE + KSTACKSIZE
    if i = 0 then ⟨p.kstack, 0, .runnable, 1, some 0, Threads.tfAddr sp, Threads.contextAddr sp, .null, 0⟩
    else Threads.emptySlot
  nextpid := 2
  nexttid := 2
  files := fun _ => 0
  inodes := fun i => if i = 0 then 1 else 0

theorem bootTables_consistent {p : Process} (hs : Spaces.Settled A [p] s) : Consistent A (bootTables p) s := by
  have hstacks : kstacks (bootTables p).thr = {p.kstack} := by
    let unused : Threads.Table := fun _ => Threads.emptySlot
    have hzero : kstacks unused = 0 := sumBelow_zero fun _ _ => rfl
    have hstarted : kstacks (bootTables p).thr = p.kstack ::ₘ kstacks unused := by
      refine kstacks_started (show 0 < NPROC * NTHREAD by decide) rfl rfl fun j hj => ?_
      simp only [bootTables, unused, if_neg hj]
    rw [hstarted, hzero]
    rfl
  have hspaces : (spaces (bootTables p).proc).Perm [p.space] := by
    have hperm := spaces_perm (bootTables p).proc (show 0 < NPROC by decide)
    have hnone : otherSpaces (bootTables p).proc 0 = [] := by
      refine List.filterMap_eq_nil_iff.mpr fun i hi => ?_
      have hi0 : i ≠ 0 := by
        rintro rfl
        exact List.nodup_range.not_mem_erase hi
      simp [bootTables, hi0, Row.space?, Threads.emptyRow]
    rw [hnone, List.append_nil] at hperm
    exact hperm
  refine ⟨?_, fun q hq hstate i hi => ?_⟩
  · rw [hstacks]
    exact Sound.perm hs hspaces.symm
  · have hq0 : q ≠ 0 := by
      rintro rfl
      obtain h | h := hstate
      · cases h
      · cases h
    have hi0 : i ≠ 0 := by
      rintro rfl
      exact hq0 (Threads.mem_slots.mp hi).symm
    simp only [bootTables, if_neg hi0, Threads.emptySlot]

theorem fork_failure_unchanged_iff (L : Layout) (m : Machine) (initcode : List UInt8) (hnodup : m.freelist.Nodup)
    (hfits : ∀ q ∈ m.freelist, L.kernelEnd ≤ q * PGSIZE + KERNBASE ∧ q * PGSIZE < PHYSTOP) (hcalm : m.fails = [])
    (hroom : 2 * NPDENTRIES ≤ m.freelist.length) (hcode : initcode.length < PGSIZE) :
    ∃ init machine, (userinit L initcode).run m = .ok (init, machine) ∧
      ∀ s, Reaches (step L) Proper ⟨bootTables init, machine⟩ s → ∀ p fails, s.tables.uses p →
        ∃ r t' s', (fork L s.tables p).run (Conservation.failing s.machine fails) = .ok ((r, t'), s') ∧
          (r = none → (Unchanged p s.tables (Conservation.failing s.machine fails) t' s' ↔
            StackFree s.tables (Conservation.failing s.machine fails))) ∧
          (fails = [] → (∃ q < NPROC, (s.tables.proc q).state = .unused) →
            forkNeed (s.tables.proc p).sz < s.machine.freelist.length → r ≠ none) := by
  obtain ⟨init, machine, hrun, _, hs⟩ := Spaces.userinit_settled hnodup hfits hcalm hroom hcode
  refine ⟨init, machine, hrun, fun s hr p fails hp => ?_⟩
  have hboot := bootTables_consistent (hs.failing machine.fails)
  have hconsistent := hr.invariant (consistent_preserved id) hboot
  have hbefore : Consistent (Spaces.framesOf L m hnodup hfits False) s.tables
      (Conservation.failing s.machine fails) :=
    ⟨⟨hconsistent.memory.pages, hconsistent.memory.sizes, False.elim⟩, hconsistent.idle⟩
  obtain ⟨⟨r, t'⟩, s', hfork, hfails⟩ := (fork_fails hp hbefore).returns rfl
  refine ⟨r, t', s', hfork, fun hnone => (hfails hnone).1.unchanged_iff hbefore hp, ?_⟩
  rintro rfl hslot hfree
  exact fork_succeeds hp hbefore rfl hslot hfree hfork

theorem fork_failure_unchanged_iff_bootMachine :
    ∃ init machine, (userinit Conservation.smallKernel []).run Spaces.bootMachine = .ok (init, machine) ∧
      ∀ s, Reaches (step Conservation.smallKernel) Proper ⟨bootTables init, machine⟩ s →
      ∀ p fails, s.tables.uses p →
        ∃ r t' s', (fork Conservation.smallKernel s.tables p).run (Conservation.failing s.machine fails) =
        .ok ((r, t'), s') ∧
          (r = none → (Unchanged p s.tables (Conservation.failing s.machine fails) t' s' ↔
            StackFree s.tables (Conservation.failing s.machine fails))) ∧
          (fails = [] → (∃ q < NPROC, (s.tables.proc q).state = .unused) →
            forkNeed (s.tables.proc p).sz < s.machine.freelist.length → r ≠ none) :=
  fork_failure_unchanged_iff _ _ [] Spaces.bootMachine_nodup Spaces.bootMachine_fits rfl
  Spaces.bootMachine_room (by decide)

theorem fork_loses_slot : ∃ init machine t' s',
    (userinit Conservation.smallKernel []).run Spaces.bootMachine = .ok (init, machine) ∧
    (fork Conservation.smallKernel (bootTables init) 0).run (Conservation.failing machine [true]) =
    .ok ((none, t'), s') ∧ ((bootTables init).proc 1).state = .unused ∧ (t'.proc 1).state = .embryo ∧
    ¬ Unchanged 0 (bootTables init) (Conservation.failing machine [true]) t' s' := by
  obtain ⟨init, machine, hrun, _⟩ := Spaces.userinit_settled Spaces.bootMachine_nodup Spaces.bootMachine_fits rfl
    Spaces.bootMachine_room (show ([] : List UInt8).length < PGSIZE by decide)
  obtain ⟨r, x, hkalloc, hnone⟩ := (kalloc_none_iff (s := Conservation.failing machine [true])).returns rfl
  obtain rfl : r = none := hnone.mpr (.inr rfl)
  have hsearch : searchUnused (fun q => ((bootTables init).proc q).state) = some 1 := rfl
  have hfork : (fork Conservation.smallKernel (bootTables init) 0).run (Conservation.failing machine [true]) =
      .ok ((none, ((bootTables init).allocproc 1).setThr (base 1)
        { ((bootTables init).allocproc 1).thr (base 1) with kstack := 0 }), x) := by
    unfold fork
    rw [hsearch]
    exact run_bind_ok.mpr ⟨none, x, hkalloc, rfl⟩
  refine ⟨init, machine, _, x, hrun, hfork, rfl, rfl, fun h => ?_⟩
  have hlost := (h.unused 1 (by decide)).mpr rfl
  cases hlost

end Xv6.Vm.Ptable
