import Xv6.CreationCalls
import Xv6.ExecProcess

/-! The process table, the thread table and the memory, with the calls that change them. Each call is one step. -/

namespace Xv6.Vm.Ptable

open Xv6.Memory (PGSIZE KERNBASE uint)
open Xv6.Threads (Proc Kthread Table ThreadState ProcState Trapframe slots base row
    NTHREAD searchUninit searchUnused
  allocprocTable passToInit emptyRow tfAddr contextAddr)
open Xv6.Triples Xv6.Runs Function

structure Row extends Proc where
  pgdir : ℕ
  sz : ℕ
  ofile : ℕ → Option ℕ
  cwd : Option ℕ
  name : List UInt8

structure Tables where
  proc : ℕ → Row
  thr : Table
  nextpid : ℤ
  nexttid : ℤ
  files : ℕ → ℕ
  inodes : ℕ → ℕ

namespace Tables

variable (t : Tables)

def setRow (q : ℕ) (row : Row) : Tables := { t with proc := Function.update t.proc q row }

def setThr (i : ℕ) (thread : Kthread) : Tables := { t with thr := Function.update t.thr i thread }

def image (p k : ℕ) : Process := ⟨(t.proc p).pgdir, (t.proc p).sz, (t.thr k).kstack⟩

def allocproc (q : ℕ) : Tables :=
  { t.setRow q { t.proc q with toProc := (t.proc q).embryo t.nextpid } with
    thr := allocprocTable t.thr q t.nexttid
    nextpid := t.nextpid + 1
    nexttid := t.nexttid + 1 }

def setStack (i page : ℕ) : Tables :=
  let sp := page * PGSIZE + KSTACKSIZE
  t.setThr i { t.thr i with kstack := page, tf := tfAddr sp, context := contextAddr sp }

def giveUp (q : ℕ) : Tables :=
  (t.setRow q { t.proc q with state := .unused, pgdir := 0 }).setThr (base q)
    { t.thr (base q) with kstack := 0, state := .uninit }

def copyProc (p q pgdir : ℕ) : Tables :=
  let parent := t.proc p
  let child := t.proc q
  { (t.setRow q { child with
      state := .used
      pgdir := pgdir
      sz := parent.sz
      parent := some p
      ofile := fun fd => if fd < NOFILE then (parent.ofile fd).or (child.ofile fd) else child.ofile fd
      cwd := parent.cwd
      name := safestrcpy child.name (parent.name.takeWhile (· ≠ 0)) 16 }).setThr (base q)
      { t.thr (base q) with state := .runnable } with
    files := fun f => t.files f + (List.range NOFILE).countP fun fd => parent.ofile fd = some f
    inodes := fun i => t.inodes i + if parent.cwd = some i then 1 else 0 }

variable {i q page pgdir p : ℕ} {row : Row} {thread : Kthread}

@[simp] theorem setRow_self : (t.setRow q row).proc q = row := by simp only [setRow, update_self]
@[simp] theorem setRow_thr : (t.setRow q row).thr = t.thr := rfl
@[simp] theorem setThr_self : (t.setThr i thread).thr i = thread := by
  simp only [setThr, update_self]
@[simp] theorem setThr_proc : (t.setThr i thread).proc = t.proc := rfl
@[simp] theorem setStack_proc : (t.setStack i page).proc = t.proc := rfl

theorem setRow_ne (h : i ≠ q) : (t.setRow q row).proc i = t.proc i := by
  simp only [setRow, update_of_ne h]

theorem setThr_ne {j : ℕ} (h : j ≠ i) : (t.setThr i thread).thr j = t.thr j := by
  simp only [setThr, update_of_ne h]

theorem setStack_ne {j : ℕ} (h : j ≠ i) : (t.setStack i page).thr j = t.thr j := setThr_ne t h

@[simp] theorem allocproc_self :
    (t.allocproc q).proc q = { t.proc q with toProc := (t.proc q).embryo t.nextpid } :=
  update_self q _ t.proc

theorem allocproc_ne (h : i ≠ q) : (t.allocproc q).proc i = t.proc i := update_of_ne h _ t.proc

end Tables

def fork (L : Layout) (t : Tables) (p : ℕ) : Call (Option ℤ × Tables) := do
  match searchUnused fun q => (t.proc q).state with
  | none => return (none, t)
  | some q =>
    let t := t.allocproc q
    match ← kalloc with
    | none => return (none, t.setThr (base q) { t.thr (base q) with kstack := 0 })
    | some page =>
      let t := t.setStack (base q) page
      match ← copyuvm L (t.proc p).pgdir (t.proc p).sz with
      | none =>
        kfree L page
        return (none, t.giveUp q)
      | some pgdir => return (some (t.proc q).pid, t.copyProc p q pgdir)

def exec (L : Layout) (t : Tables) (p k : ℕ) (frame : Trapframe) (path : List UInt8) (reads : Reads)
    (argv : List (List UInt8)) : Call Tables := do
  let (_, q) ← execCall L (base p) k ⟨t.image p k, (t.proc p).name, t.thr, frame⟩ path reads argv
  return {
    t.setRow p { t.proc p with pgdir := q.image.pgdir, sz := q.image.sz, name := q.name } with
    thr := q.thr }

def sbrk (L : Layout) (t : Tables) (p k : ℕ) (n : ℤ) : Call Tables := do
  let r ← growproc L (t.image p k) n
  return t.setRow p { t.proc p with sz := (r.getD (t.image p k)).sz }

def store (t : Tables) (p k va : ℕ) (b : UInt8) : Call Tables := do
  userStore (t.image p k) va b
  return t

def kthreadCreate (t : Tables) (p : ℕ) : Call Tables := do
  match searchUninit t.thr (base p) with
  | none => return t
  | some j =>
    let t := { t.setThr j { t.thr j with tproc := some p, tid := t.nexttid } with nexttid := t.nexttid + 1 }
    match ← kalloc with
    | none => return t.setThr j { t.thr j with kstack := 0 }
    | some page =>
      let t := t.setStack j page
      return t.setThr j { t.thr j with state := .runnable, exitRequest := 0 }

def reap (L : Layout) : List ℕ → Table → Call Table
  | [], thr => return thr
  | i :: is, thr =>
    if (thr i).state = .terminated then do
      kfree L (thr i).kstack
      reap L is (Function.update thr i
        { thr i with kstack := 0, tid := 0, tproc := none, exitRequest := 0, state := .uninit })
    else reap L is thr

def join (L : Layout) (t : Tables) (i : ℕ) : Call Tables := do
  let thr ← reap L [i] t.thr
  return { t with thr := thr }

def wait (L : Layout) (t : Tables) (q : ℕ) : Call Tables := do
  let thr ← reap L (slots (base q)) t.thr
  let t := { t with thr := thr }
  if (slots (base q)).all fun i => (t.thr i).state = .uninit then
    freevm L (t.proc q).pgdir
    return t.setRow q { t.proc q with toProc := emptyRow, name := safestrcpy (t.proc q).name [] 1 }
  else return t

def exit (t : Tables) (p k : ℕ) : Tables :=
  let row := t.proc p
  let t : Tables := { t with
    proc := fun q => { t.proc q with toProc := passToInit (fun i => (t.proc i).toProc) p q }
    files := fun f => t.files f - (List.range NOFILE).countP fun fd => row.ofile fd = some f
    inodes := fun i => t.inodes i - if row.cwd = some i then 1 else 0 }
  (t.setRow p { t.proc p with state := .zombie, ofile := fun _ => none, cwd := none }).setThr k
    { t.thr k with state := .terminated }

structure State where
  tables : Tables
  machine : Machine

/-- `schedule` is anything that moves a thread from one state to another: the scheduler, `sleep`, `wakeup` and
`kthread_exit`. `fileOps` is any call on files and directories. -/
inductive Event where
  | fork (p : ℕ) (fails : List Bool)
  | exec (p k : ℕ) (frame : Trapframe) (path : List UInt8) (reads : Reads)
      (argv : List (List UInt8)) (fails : List Bool)
  | sbrk (p k : ℕ) (n : ℤ) (fails : List Bool)
  | store (p k va : ℕ) (b : UInt8)
  | kthreadCreate (p : ℕ) (fails : List Bool)
  | schedule (i : ℕ) (state : ThreadState)
  | join (i : ℕ)
  | exit (p k : ℕ)
  | wait (q : ℕ)
  | fileOps (p : ℕ) (files inodes : ℕ → ℕ) (ofile : ℕ → Option ℕ) (cwd : Option ℕ)

def Tables.uses (t : Tables) (p : ℕ) : Prop := p < NPROC ∧ (t.proc p).state = .used

instance (t : Tables) (p : ℕ) : Decidable (t.uses p) := inferInstanceAs (Decidable (_ ∧ _))

def call (L : Layout) (t : Tables) : Event → Option (Call Tables)
  | .fork p _ => if t.uses p then some (do return (← fork L t p).2) else none
  | .exec p k frame path reads argv _ => if t.uses p then some (exec L t p k frame path reads argv) else none
  | .sbrk p k n _ => if t.uses p then some (sbrk L t p k n) else none
  | .store p k va b => if t.uses p then some (store t p k va b) else none
  | .kthreadCreate p _ => if t.uses p then some (kthreadCreate t p) else none
  | .schedule i state =>
    if (t.thr i).state ≠ .uninit ∧
      state ≠ .uninit then some (pure (t.setThr i { t.thr i with state := state })) else none
  | .join i => if i < NPROC * NTHREAD then some (join L t i) else none
  | .exit p k =>
    if t.uses p ∧ k ∈ slots (base p) ∧ (t.thr k).state ≠ .uninit then some (pure (exit t p k)) else none
  | .wait q => if q < NPROC ∧ (t.proc q).state = .zombie then some (wait L t q) else none
  | .fileOps p files inodes ofile cwd =>
    some (pure { t.setRow p { t.proc p with ofile := ofile, cwd := cwd } with files := files, inodes := inodes })

def Event.fails : Event → List Bool
  | .fork _ fails | .exec _ _ _ _ _ _ fails | .sbrk _ _ _ fails | .kthreadCreate _ fails => fails
  | _ => []

def step (L : Layout) (s : State) (e : Event) : Option State := do
  let m ← call L s.tables e
  let (t, machine) ← (m.run (Conservation.failing s.machine e.fails)).toOption
  return ⟨t, machine⟩

def Proper (s : State) : Event → Prop
  | .sbrk p _ n _ => n < 0 → uint ((s.tables.proc p).sz + n) ≠ 0
  | .exec _ _ _ _ _ argv _ => ∀ arg ∈ argv, arg.length < 2 ^ 32 - DEVSPACE
  | _ => True

def Row.space? (row : Row) : Option Space :=
  if row.state = .used ∨ row.state = .zombie then some ⟨row.pgdir, row.sz⟩ else none

def spaces (proc : ℕ → Row) : List Space := (List.range NPROC).filterMap fun q => (proc q).space?

def otherSpaces (proc : ℕ → Row) (q : ℕ) :
    List Space := ((List.range NPROC).erase q).filterMap fun i => (proc i).space?

def stackOf (thread : Kthread) : Multiset ℕ := if thread.state = .uninit then 0 else {thread.kstack}

def kstacks (thr : Table) : Multiset ℕ := sumBelow (NPROC * NTHREAD) fun i => stackOf (thr i)

def Idle (t : Tables) : Prop :=
  ∀ q < NPROC, (t.proc q).state = .unused ∨ (t.proc q).state = .embryo →
  ∀ i ∈ slots (base q), (t.thr i).state = .uninit

variable {L : Layout} {A : Frames L} {t : Tables} {p q : ℕ}

structure Consistent (A : Frames L) (t : Tables) (s : Machine) : Prop where
  memory : Sound A (kstacks t.thr) (spaces t.proc) s
  idle : Idle t

variable {proc proc' : ℕ → Row} {K : Multiset ℕ} {x : Space} {s s' : Machine} {thr thr' : Table}
  {i k page : ℕ} {t' : Tables} {path : List UInt8} {reads : Reads} {argv : List (List UInt8)}
  {n : ℤ}

theorem spaces_congr (h : ∀ i, (proc' i).space? = (proc i).space?) : spaces proc' = spaces proc :=
  List.filterMap_congr fun i _ => h i

theorem otherSpaces_congr (h : ∀ i, i ≠ q → (proc' i).space? = (proc i).space?) :
    otherSpaces proc' q = otherSpaces proc q := by
  refine List.filterMap_congr fun i hi => h i ?_
  rintro rfl
  exact List.nodup_range.not_mem_erase hi

theorem spaces_perm (proc : ℕ → Row) (hq : q < NPROC) :
    (spaces proc).Perm ((proc q).space?.toList ++ otherSpaces proc q) := by
  have hperm := (List.perm_cons_erase (List.mem_range.mpr hq)).filterMap fun i => (proc i).space?
  rw [List.filterMap_cons] at hperm
  cases h : (proc q).space? with
  | none =>
    rw [h] at hperm
    exact hperm
  | some x =>
    rw [h] at hperm
    exact hperm

theorem spaces_set (hq : q < NPROC)
    (hx : (proc' q).space? = some x) (hsame : ∀ i, i ≠ q → (proc' i).space? = (proc i).space?)
    (hs : Sound A K (x :: otherSpaces proc q) s) : Sound A K (spaces proc') s := by
  refine hs.perm (List.Perm.symm ?_)
  have hperm := spaces_perm proc' hq
  rwa [hx, otherSpaces_congr hsame] at hperm

theorem spaces_pick (hq : q < NPROC)
    (hx : (proc q).space? = some x) (hs : Sound A K (spaces proc) s) : Sound A K (x :: otherSpaces proc q) s := by
  have hperm := spaces_perm proc hq
  rw [hx] at hperm
  exact hs.perm hperm

theorem kstacks_congr (h : ∀ i, stackOf (thr' i) = stackOf (thr i)) : kstacks thr' = kstacks thr :=
  sumBelow_congr fun i _ => h i

theorem slot_lt (hq : q < NPROC) (hi : i ∈ slots (base q)) : i < NPROC * NTHREAD := by
  have hrow : i / NTHREAD = q := Threads.mem_slots.mp hi
  exact Nat.lt_mul_of_div_lt (by omega) (by decide)

theorem main_mem (q : ℕ) : base q ∈ slots (base q) := Threads.mem_slots.mpr (Nat.mul_div_cancel_left q (by decide))

theorem Consistent.quiet (h : Consistent A t s) (hq : q < NPROC)
    (hold : (t.proc q).state = .unused ∨ (t.proc q).state = .embryo)
    (hnew : (t'.proc q).state = .unused ∨ (t'.proc q).state = .embryo)
    (hproc : ∀ i, i ≠ q → t'.proc i = t.proc i) (hthr : ∀ i ∉ slots (base q), t'.thr i = t.thr i)
    (huninit : ∀ i ∈ slots (base q), (t'.thr i).state = .uninit)
    (hs : Sound A (kstacks t.thr) (spaces t.proc) s') : Consistent A t' s' := by
  have hnone {row : Row} (hrow : row.state = .unused ∨ row.state = .embryo) : row.space? = none := by
    unfold Row.space?
    obtain hrow | hrow := hrow
    · rw [hrow]
      rfl
    · rw [hrow]
      rfl
  have hstacks : kstacks t'.thr = kstacks t.thr := kstacks_congr fun i => by
    by_cases hi : i ∈ slots (base q)
    · rw [stackOf, stackOf, if_pos (huninit i hi), if_pos (h.idle q hq hold i hi)]
    · rw [hthr i hi]
  have hspaces : spaces t'.proc = spaces t.proc := spaces_congr fun i => by
    by_cases hiq : i = q
    · rw [hiq, hnone hold, hnone hnew]
    · rw [hproc i hiq]
  refine ⟨by rwa [hstacks, hspaces], fun i hi hstate k hk => ?_⟩
  by_cases hiq : i = q
  · rw [hiq] at hk
    exact huninit k hk
  · rw [hproc i hiq] at hstate
    rw [hthr k fun hk' => hiq ((Threads.mem_slots.mp hk).symm.trans (Threads.mem_slots.mp hk'))]
    exact h.idle i hi hstate k hk

theorem Tables.uses.space (h : t.uses p) : (t.proc p).space? = some ⟨(t.proc p).pgdir, (t.proc p).sz⟩ :=
  if_pos (.inl h.2)

theorem Tables.uses.ne (h : t.uses p) (hq : (t.proc q).state = .unused) : p ≠ q := by
  rintro rfl
  rw [h.2] at hq
  cases hq

theorem searchUnused_found (h : searchUnused (fun q => (t.proc q).state) = some q) :
    q < NPROC ∧ (t.proc q).state = .unused :=
  Threads.searchUnused_spec h

theorem allocproc_uninit (hi : i ∈ slots (base q)) : ((t.allocproc q).thr i).state = .uninit :=
  Threads.allocprocTable_row (Threads.mem_slots.mp hi)

theorem allocproc_other (hi : i ∉ slots (base q)) : (t.allocproc q).thr i = t.thr i :=
  Threads.allocprocTable_other fun h => hi (Threads.mem_slots.mpr h)

theorem ne_main (hi : i ∉ slots (base q)) : i ≠ base q := (ne_of_mem_of_not_mem (main_mem q) hi).symm

theorem kstacks_started (hi : i < NPROC * NTHREAD) (hold : (thr i).state = .uninit)
    (hnew : stackOf (thr' i) = {page}) (hother : ∀ j, j ≠ i → stackOf (thr' j) = stackOf (thr j)) :
    kstacks thr' = page ::ₘ kstacks thr := by
  have hchange : stackOf (thr' i) + 0 = stackOf (thr i) + {page} := by
    rw [hnew, stackOf, if_pos hold, add_zero, zero_add]
  have hsum := sumBelow_change (f := fun i => stackOf (thr i)) (g := fun i => stackOf (thr' i)) hi hchange hother
  rw [add_zero, add_comm, Multiset.singleton_add] at hsum
  exact hsum

theorem Consistent.noStack (h : Consistent A t s) (hq : q < NPROC) (hunused : (t.proc q).state = .unused)
    (hs : Sound A (kstacks t.thr) (spaces t.proc) s') :
    Consistent A ((t.allocproc q).setThr (base q) { (t.allocproc q).thr (base q) with kstack := 0 }) s' := by
  refine h.quiet hq (.inl hunused) (.inr (by simp [Proc.embryo])) (fun i hi => ?_)
    (fun i hi => ?_) (fun i hi => ?_) hs
  · rw [Tables.setThr_proc, Tables.allocproc_ne _ hi]
  · rw [Tables.setThr_ne _ (ne_main hi), allocproc_other hi]
  · by_cases him : i = base q
    · rw [him, Tables.setThr_self]
      exact allocproc_uninit (main_mem q)
    · rw [Tables.setThr_ne _ him, allocproc_uninit hi]

theorem Consistent.noCopy (h : Consistent A t s) (hq : q < NPROC)
    (hunused : (t.proc q).state = .unused) (hs : Sound A (kstacks t.thr) (spaces t.proc) s') :
    Consistent A (((t.allocproc q).setStack (base q) page).giveUp q) s' := by
  refine h.quiet hq (.inl hunused) (.inl (by simp [Tables.giveUp])) (fun i hi => ?_)
    (fun i hi => ?_) (fun i hi => ?_) hs
  · rw [Tables.giveUp, Tables.setThr_proc, Tables.setRow_ne _ hi, Tables.setStack_proc, Tables.allocproc_ne _ hi]
  · rw [Tables.giveUp, Tables.setThr_ne _ (ne_main hi), Tables.setRow_thr, Tables.setStack_ne _ (ne_main hi),
      allocproc_other hi]
  · by_cases him : i = base q
    · rw [him, Tables.giveUp, Tables.setThr_self]
    · rw [Tables.giveUp, Tables.setThr_ne _ him, Tables.setRow_thr, Tables.setStack_ne _ him, allocproc_uninit hi]

theorem Consistent.child {pgdir : ℕ} (h : Consistent A t s) (hq : q < NPROC)
    (hunused : (t.proc q).state = .unused) (hpq : p ≠ q)
    (hs : Sound A (page ::ₘ kstacks t.thr) (⟨pgdir, (t.proc p).sz⟩ :: spaces t.proc) s') :
    Consistent A (((t.allocproc q).setStack (base q) page).copyProc p q pgdir) s' := by
  have hthr {i : ℕ} (hi : i ≠ base q) :
      (((t.allocproc q).setStack (base q) page).copyProc p q pgdir).thr i = (t.allocproc q).thr i := by
    rw [Tables.copyProc, Tables.setThr_ne _ hi, Tables.setRow_thr, Tables.setStack_ne _ hi]
  have hproc {i : ℕ} (hi : i ≠ q) :
      (((t.allocproc q).setStack (base q) page).copyProc p q pgdir).proc i = t.proc i := by
    rw [Tables.copyProc, Tables.setThr_proc, Tables.setRow_ne _ hi, Tables.setStack_proc, Tables.allocproc_ne _ hi]
  have hstacks : kstacks (((t.allocproc q).setStack (base q) page).copyProc p q pgdir).thr =
      page ::ₘ kstacks t.thr := by
    refine kstacks_started (slot_lt hq (main_mem q)) (h.idle q hq (.inl hunused) _ (main_mem q)) ?_ fun j hj => ?_
    · rw [Tables.copyProc, Tables.setThr_self, stackOf, if_neg (by simp), Tables.setStack, Tables.setThr_self]
    · rw [hthr hj]
      by_cases hjq : j ∈ slots (base q)
      · rw [stackOf, stackOf, if_pos (allocproc_uninit hjq), if_pos (h.idle q hq (.inl hunused) j hjq)]
      · rw [allocproc_other hjq]
  have hnone : (t.proc q).space? = none := by simp [Row.space?, hunused]
  have hperm := spaces_perm t.proc hq
  rw [hnone, Option.toList_none, List.nil_append] at hperm
  refine ⟨?_, fun i hi hstate k hk => ?_⟩
  · rw [hstacks]
    refine spaces_set hq ?_ (fun i hi => by rw [hproc hi]) (hs.perm (hperm.cons _))
    rw [Tables.copyProc, Tables.setThr_proc, Tables.setRow_self, Row.space?,
      if_pos (.inl rfl), Tables.setStack_proc, Tables.allocproc_ne _ hpq]
  · by_cases hiq : i = q
    · rw [hiq, Tables.copyProc, Tables.setThr_proc, Tables.setRow_self] at hstate
      simp at hstate
    · rw [hproc hiq] at hstate
      have hkq : k ∉ slots (base q) :=
        fun hk' => hiq ((Threads.mem_slots.mp hk).symm.trans (Threads.mem_slots.mp hk'))
      rw [hthr (ne_main hkq), allocproc_other hkq]
      exact h.idle i hi hstate k hk

theorem fork_consistent (hp : t.uses p) : Triple (Consistent A t) (fork L t p)
    (fun r => Consistent A r.2) NoStop := by
  unfold fork
  cases hsearch : searchUnused fun q => (t.proc q).state with
  | none => exact Triple.pure fun s hs => hs
  | some q =>
    obtain ⟨hq, hunused⟩ := searchUnused_found hsearch
    have hpq := hp.ne hunused
    have hmem : (⟨(t.proc p).pgdir, (t.proc p).sz⟩ : Space) ∈ spaces t.proc :=
      List.mem_filterMap.mpr ⟨p, List.mem_range.mpr hp.1, hp.space⟩
    apply Triple.start
    intro s hs
    refine Triple.bind (kalloc_sound.here hs.memory) ?_
    rintro (_ | page)
    · exact Triple.pure fun x hx => hs.noStack hq hunused hx.1
    · dsimp only
      rw [Tables.setStack_proc, Tables.allocproc_ne _ hpq]
      refine Triple.bind (copyuvm_sound hmem) ?_
      rintro (_ | pgdir)
      · exact Triple.bind kfree_sound fun _ => Triple.pure fun x hx => hs.noCopy hq hunused hx
      · exact Triple.pure fun x hx => hs.child hq hunused hpq hx

def Row.idle (row : Row) : Prop := row.state = .unused ∨ row.state = .embryo

theorem Idle.keep (h : Idle t) (hrows : ∀ q, (t'.proc q).idle → (t.proc q).idle)
    (hthr : ∀ q, (t'.proc q).idle → ∀ i ∈ slots (base q), (t.thr i).state = .uninit → (t'.thr i).state = .uninit) :
    Idle t' :=
  fun q hq hstate i hi => hthr q hstate i hi (h q hq (hrows q hstate) i hi)

theorem Tables.uses.not_idle (h : t.uses p) : ¬ (t.proc p).idle := by
  rintro (hstate | hstate)
  · rw [h.2] at hstate
    cases hstate
  · rw [h.2] at hstate
    cases hstate

theorem Consistent.resize (h : Consistent A t s) (hp : t.uses p)
    (hproc : ∀ i, i ≠ p → t'.proc i = t.proc i) (hused : (t'.proc p).state = .used)
    (hthr : ∀ i, (t'.thr i).state = (t.thr i).state ∧ (t'.thr i).kstack = (t.thr i).kstack)
    (hs : Sound A (kstacks t.thr) (⟨(t'.proc p).pgdir, (t'.proc p).sz⟩ :: otherSpaces t.proc p) s') :
    Consistent A t' s' := by
  have hstacks : kstacks t'.thr = kstacks t.thr := kstacks_congr fun i => by
    rw [stackOf, stackOf, (hthr i).1, (hthr i).2]
  refine ⟨?_, h.idle.keep (fun q hq => ?_) fun q _ i _ hi => by rwa [(hthr i).1]⟩
  · rw [hstacks]
    exact spaces_set hp.1 (if_pos (.inl hused)) (fun i hi => by rw [hproc i hi]) hs
  · by_cases hqp : q = p
    · have hnot : ¬ (t'.proc p).idle := Tables.uses.not_idle ⟨hp.1, hused⟩
      rw [hqp] at hq
      exact absurd hq hnot
    · rwa [hproc q hqp] at hq

theorem execCall_sound {rest : List Space} {base me : ℕ} {q : Task}
    (hargv : ∀ arg ∈ argv, arg.length < 2 ^ 32 - DEVSPACE) :
    Triple (Sound A K (q.image.space :: rest)) (execCall L base me q path reads argv) (fun r s =>
      Sound A K (r.2.image.space :: rest) s ∧
      ∀ i, (r.2.thr i).state = (q.thr i).state ∧ (r.2.thr i).kstack = (q.thr i).kstack) NoStop := by
  have hentry : Triple (Sound A K (q.image.space :: rest)) (Vm.exec L q.image reads argv) _ NoStop :=
    exec_sound hargv
  have hasked (i : ℕ) : (Threads.requestExit q.thr base me i).state = (q.thr i).state ∧
      (Threads.requestExit q.thr base me i).kstack = (q.thr i).kstack := by
    unfold Threads.requestExit
    split_ifs
    · exact ⟨rfl, rfl⟩
    · exact ⟨rfl, rfl⟩
  unfold execCall
  apply Triple.ite
  · intro _
    exact Triple.pure fun s hs => ⟨hs, fun i => ⟨rfl, rfl⟩⟩
  · intro _
    refine Triple.bind hentry.unmap ?_
    rintro (_ | r)
    · exact Triple.pure fun s hs => ⟨hs.2, hasked⟩
    · exact Triple.pure fun s hs => ⟨hs.2, hasked⟩

theorem exec_consistent {frame : Trapframe}
    (hp : t.uses p) (hargv : ∀ arg ∈ argv, arg.length < 2 ^ 32 - DEVSPACE) :
    Triple (Consistent A t) (exec L t p k frame path reads argv) (fun t' => Consistent A t') NoStop := by
  unfold exec
  apply Triple.start
  intro s hs
  have hpick : Sound A (kstacks t.thr) ((t.image p k).space :: otherSpaces t.proc p) s :=
    spaces_pick hp.1 hp.space hs.memory
  refine Triple.bind ((execCall_sound (q := ⟨t.image p k, (t.proc p).name, t.thr, frame⟩) hargv).here hpick) ?_
  rintro ⟨_, q⟩
  refine Triple.pure fun x hx => hs.resize hp (fun i hi => Tables.setRow_ne t hi) ?_ hx.2 ?_
  · simp only [Tables.setRow_self, hp.2]
  · simp only [Tables.setRow_self]
    exact hx.1

theorem growproc_pgdir {r : Process} : Triple (fun _ => True) (growproc L r n)
    (fun r' _ => (r'.getD r).pgdir = r.pgdir) (fun _ => True) := by
  unfold growproc
  have hstep (sz : ℕ) : Triple (fun _ => True)
      (if sz = 0 then pure none else pure (some { r with sz := sz }) : Call (Option Process))
      (fun r' _ => (r'.getD r).pgdir = r.pgdir) (fun _ => True) :=
    Triple.ite (fun _ => Triple.pure fun _ _ => rfl) fun _ => Triple.pure fun _ _ => rfl
  apply Triple.ite
  · intro _
    exact Triple.bind Triple.anything hstep
  · intro _
    apply Triple.ite
    · intro _
      exact Triple.bind Triple.anything hstep
    · intro _
      exact Triple.pure fun _ _ => rfl

theorem sbrk_consistent (hp : t.uses p) (hn : n < 0 → uint ((t.proc p).sz + n) ≠ 0) :
    Triple (Consistent A t) (sbrk L t p k n) (fun t' => Consistent A t') NoStop := by
  unfold sbrk
  apply Triple.start
  intro s hs
  have hpick : Sound A (kstacks t.thr) ((t.image p k).space :: otherSpaces t.proc p) s :=
    spaces_pick hp.1 hp.space hs.memory
  have hgrow : Triple (Sound A (kstacks t.thr) ((t.image p k).space :: otherSpaces t.proc p))
    (growproc L (t.image p k) n)
      _ NoStop := growproc_sound hn
  refine Triple.bind (Triple.except ((hgrow.and growproc_pgdir).here ⟨hpick, trivial⟩) fun _ h => h.1) fun r => ?_
  refine Triple.pure fun x hx => hs.resize hp (fun i hi => Tables.setRow_ne t hi) ?_ (fun i => ⟨rfl, rfl⟩) ?_
  · simp only [Tables.setRow_self, hp.2]
  · simp only [Tables.setRow_self]
    obtain ⟨⟨_, hx⟩, hpgdir⟩ := hx
    have hspace : (r.getD (t.image p k)).space = ⟨(t.proc p).pgdir, (r.getD (t.image p k)).sz⟩ := by
      rw [Process.space, hpgdir]
      rfl
    rwa [hspace] at hx

theorem store_consistent {va : ℕ} {b : UInt8} (hp : t.uses p) :
    Triple (Consistent A t) (store t p k va b) (fun t' => Consistent A t') NoStop := by
  unfold store
  apply Triple.start
  intro s hs
  have hpick : Sound A (kstacks t.thr) ((t.image p k).space :: otherSpaces t.proc p) s :=
    spaces_pick hp.1 hp.space hs.memory
  refine Triple.bind (userStore_sound.here hpick) fun _ => Triple.pure fun x hx => ?_
  exact hs.resize hp (fun i _ => rfl) hp.2 (fun i => ⟨rfl, rfl⟩) hx

theorem Consistent.threads (h : Consistent A t s) (hproc : t'.proc = t.proc)
    (hthr : ∀ q, (t.proc q).idle → ∀ i ∈ slots (base q), (t.thr i).state = .uninit → (t'.thr i).state = .uninit)
    (hs : Sound A (kstacks t'.thr) (spaces t.proc) s') : Consistent A t' s' := by
  refine ⟨by rwa [hproc], h.idle.keep (fun q hq => by rwa [hproc] at hq) fun q hq => ?_⟩
  rw [hproc] at hq
  exact hthr q hq

theorem row_ne {j : ℕ} (hp : t.uses p) (hj : j ∈ slots (base p)) (hq : (t.proc q).idle) (hi : i ∈ slots (base q)) :
    i ≠ j := by
  rintro rfl
  have hqp : q = p := (Threads.mem_slots.mp hi).symm.trans (Threads.mem_slots.mp hj)
  rw [hqp] at hq
  exact hp.not_idle hq

theorem kthreadCreate_consistent (hp : t.uses p) :
    Triple (Consistent A t) (kthreadCreate t p) (fun t' => Consistent A t') NoStop := by
  unfold kthreadCreate
  cases hsearch : searchUninit t.thr (base p) with
  | none => exact Triple.pure fun s hs => hs
  | some j =>
    have hj : j ∈ slots (base p) := List.mem_of_find?_eq_some hsearch
    have huninit : (t.thr j).state = .uninit := by simpa using List.find?_some hsearch
    apply Triple.start
    intro s hs
    refine Triple.bind (kalloc_sound.here hs.memory) ?_
    rintro (_ | page)
    · refine Triple.pure fun x hx => hs.threads rfl (fun q hq i hi h => ?_) ?_
      · have hij := row_ne hp hj hq hi
        simpa only [Tables.setThr, update_of_ne hij] using h
      · refine (congrArg (fun K => Sound A K (spaces t.proc) x) (kstacks_congr fun i => ?_)).mpr hx.1
        by_cases hij : i = j
        · simp [hij, Tables.setThr, stackOf, huninit]
        · simp only [Tables.setThr, update_of_ne hij]
    · refine Triple.pure fun x hx => hs.threads rfl (fun q hq i hi h => ?_) ?_
      · have hij := row_ne hp hj hq hi
        simpa only [Tables.setThr, Tables.setStack, update_of_ne hij] using h
      · refine (congrArg (fun K => Sound A K (spaces t.proc) x)
          (kstacks_started (slot_lt hp.1 hj) huninit ?_ fun i hij => ?_)).mpr hx
        · simp [Tables.setThr, Tables.setStack, stackOf]
        · simp only [Tables.setThr, Tables.setStack, update_of_ne hij]

theorem kstacks_reaped (thread : Kthread) (hi : i < NPROC * NTHREAD)
    (hold : (thr i).state ≠ .uninit) (hnew : thread.state = .uninit) :
    kstacks thr = (thr i).kstack ::ₘ kstacks (update thr i thread) := by
  refine kstacks_started hi (by rwa [update_self]) ?_ fun j hj => ?_
  · rw [stackOf, if_neg hold]
  · rw [update_of_ne hj]

theorem reap_sound {live : List Space} {is : List ℕ} (his : ∀ i ∈ is, i < NPROC * NTHREAD) :
    Triple (Sound A (kstacks thr) live) (reap L is thr) (fun thr' s => Sound A (kstacks thr') live s ∧
      ∀ i, (thr i).state = .uninit → (thr' i).state = .uninit) NoStop := by
  induction is generalizing thr with
  | nil => exact Triple.pure fun s hs => ⟨hs, fun _ h => h⟩
  | cons i is ih =>
    have hrest : ∀ j ∈ is, j < NPROC * NTHREAD := fun j hj => his j (List.mem_cons_of_mem i hj)
    unfold reap
    apply Triple.ite
    · intro hterminated
      rw [kstacks_reaped { thr i with kstack := 0, tid := 0, tproc := none, exitRequest := 0, state := .uninit }
        (his i List.mem_cons_self) (by simp [hterminated]) rfl]
      refine Triple.bind kfree_sound fun _ => (ih hrest).post fun thr' s hs => ⟨hs.1, fun j hj => hs.2 j ?_⟩
      by_cases hji : j = i
      · rw [hji, update_self]
      · rwa [update_of_ne hji]
    · intro _
      exact ih hrest

theorem join_consistent (hi : i < NPROC * NTHREAD) :
    Triple (Consistent A t) (join L t i) (fun t' => Consistent A t') NoStop := by
  unfold join
  apply Triple.start
  intro s hs
  refine Triple.bind ((reap_sound fun j hj => ?_).here hs.memory) fun thr => Triple.pure fun x hx => ?_
  · rwa [List.mem_singleton.mp hj]
  · exact hs.threads rfl (fun _ _ j _ => hx.2 j) hx.1

theorem Consistent.vacate {row : Row} (h : Consistent A t s) (hq : q < NPROC) (hrow : row.state = .unused)
    (hall : ∀ i ∈ slots (base q), (t.thr i).state = .uninit)
    (hs : Sound A (kstacks t.thr) (otherSpaces t.proc q) s') : Consistent A (t.setRow q row) s' := by
  have hsame : otherSpaces (t.setRow q row).proc q = otherSpaces t.proc q :=
    otherSpaces_congr fun i hi => by rw [Tables.setRow_ne _ hi]
  have hperm := spaces_perm (t.setRow q row).proc hq
  rw [Tables.setRow_self, Row.space?, if_neg (by simp [hrow]), Option.toList_none, List.nil_append, hsame] at hperm
  refine ⟨hs.perm hperm.symm, fun i hi hstate k hk => ?_⟩
  by_cases hiq : i = q
  · rw [hiq] at hk
    exact hall k hk
  · rw [Tables.setRow_ne _ hiq] at hstate
    exact h.idle i hi hstate k hk

theorem wait_consistent (hq : q < NPROC) (hzombie : (t.proc q).state = .zombie) :
    Triple (Consistent A t) (wait L t q) (fun t' => Consistent A t') NoStop := by
  have hspace : (t.proc q).space? = some ⟨(t.proc q).pgdir, (t.proc q).sz⟩ := if_pos (.inr hzombie)
  unfold wait
  apply Triple.start
  intro s hs
  refine Triple.bind ((reap_sound fun i => slot_lt hq).here hs.memory) fun thr => ?_
  apply Triple.start
  rintro x ⟨hx, hkept⟩
  have hreaped : Consistent A { t with thr := thr } x := hs.threads rfl (fun _ _ i _ => hkept i) hx
  apply Triple.ite
  · intro hall
    have hpick := spaces_pick hq hspace hx
    refine Triple.bind ((freevm_sound (x := ⟨(t.proc q).pgdir, (t.proc q).sz⟩)).here hpick) fun _ =>
      Triple.pure fun y hy => hreaped.vacate hq rfl (fun i hi => ?_) hy
    exact of_decide_eq_true (List.all_eq_true.mp hall i hi)
  · intro _
    exact Triple.ret hreaped

theorem exit_consistent (h : Consistent A t s) (hp : t.uses p) (hk : k ∈ slots (base p))
    (hthread : (t.thr k).state ≠ .uninit) : Consistent A (exit t p k) s := by
  have hstate (i : ℕ) (hi : i ≠ p) : ((exit t p k).proc i).state = (t.proc i).state ∧
      ((exit t p k).proc i).space? = (t.proc i).space? := by
    rw [exit, Tables.setThr_proc, Tables.setRow_ne _ hi]
    simp only [Row.space?, Threads.passToInit_state, and_self]
  have hself : ((exit t p k).proc p).state = .zombie ∧ ((exit t p k).proc p).space? = (t.proc p).space? := by
    rw [exit, Tables.setThr_proc, Tables.setRow_self]
    refine ⟨rfl, ?_⟩
    rw [hp.space, Row.space?, if_pos (.inr rfl)]
  have hspaces : spaces (exit t p k).proc = spaces t.proc := spaces_congr fun i => by
    by_cases hi : i = p
    · rw [hi, hself.2]
    · exact (hstate i hi).2
  have hstacks : kstacks (exit t p k).thr = kstacks t.thr := kstacks_congr fun i => by
    by_cases hi : i = k
    · rw [hi, exit, Tables.setThr_self, stackOf, stackOf, if_neg (by simp), if_neg hthread]
    · rw [exit, Tables.setThr_ne _ hi]
      rfl
  have hidle (q : ℕ) (hq : ((exit t p k).proc q).idle) : (t.proc q).idle := by
    by_cases hqp : q = p
    · rw [hqp, Row.idle, hself.1] at hq
      simp at hq
    · rwa [Row.idle, (hstate q hqp).1] at hq
  refine ⟨by rw [hspaces, hstacks]; exact h.memory, h.idle.keep hidle fun q hq i hi huninit => ?_⟩
  rw [exit, Tables.setThr_ne _ (row_ne hp hk (hidle q hq) hi)]
  exact huninit

theorem call_consistent {s : State} {e : Event} {m : Call Tables} (he : Proper s e)
    (hm : call L s.tables e = some m) : Triple (Consistent A s.tables) m (fun t' => Consistent A t') NoStop := by
  cases e with
  | fork p fails =>
    obtain ⟨hp, hm⟩ := Option.ite_none_right_eq_some.mp hm
    cases hm
    exact Triple.bind (fork_consistent hp) fun r => Triple.pure fun x hx => hx
  | exec p k frame path reads argv fails =>
    obtain ⟨hp, hm⟩ := Option.ite_none_right_eq_some.mp hm
    cases hm
    exact exec_consistent hp he
  | sbrk p k n fails =>
    obtain ⟨hp, hm⟩ := Option.ite_none_right_eq_some.mp hm
    cases hm
    exact sbrk_consistent hp he
  | store p k va b =>
    obtain ⟨hp, hm⟩ := Option.ite_none_right_eq_some.mp hm
    cases hm
    exact store_consistent hp
  | kthreadCreate p fails =>
    obtain ⟨hp, hm⟩ := Option.ite_none_right_eq_some.mp hm
    cases hm
    exact kthreadCreate_consistent hp
  | schedule i state =>
    obtain ⟨⟨hold, hnew⟩, hm⟩ := Option.ite_none_right_eq_some.mp hm
    cases hm
    refine Triple.pure fun x hx => hx.threads rfl (fun q _ j _ hj => ?_) ?_
    · rwa [Tables.setThr_ne _ (by rintro rfl; exact hold hj)]
    · have hsame : kstacks (s.tables.setThr i { s.tables.thr i with state := state }).thr = kstacks s.tables.thr :=
        kstacks_congr fun j => by
          by_cases hji : j = i
          · rw [hji, Tables.setThr_self, stackOf, stackOf, if_neg hold, if_neg hnew]
          · rw [Tables.setThr_ne _ hji]
      rw [hsame]
      exact hx.memory
  | join i =>
    obtain ⟨hi, hm⟩ := Option.ite_none_right_eq_some.mp hm
    cases hm
    exact join_consistent hi
  | exit p k =>
    obtain ⟨⟨hp, hk, hthread⟩, hm⟩ := Option.ite_none_right_eq_some.mp hm
    cases hm
    exact Triple.pure fun x hx => exit_consistent hx hp hk hthread
  | wait q =>
    obtain ⟨⟨hq, hzombie⟩, hm⟩ := Option.ite_none_right_eq_some.mp hm
    cases hm
    exact wait_consistent hq hzombie
  | fileOps p files inodes ofile cwd =>
    cases hm
    refine Triple.pure fun x hx => ?_
    have hrow (i : ℕ) : ((s.tables.setRow p { s.tables.proc p with ofile := ofile, cwd := cwd }).proc i).state =
        (s.tables.proc i).state ∧
        ((s.tables.setRow p { s.tables.proc p with ofile := ofile, cwd := cwd }).proc i).space? =
          (s.tables.proc i).space? := by
      by_cases hi : i = p
      · rw [hi, Tables.setRow_self]
        exact ⟨rfl, rfl⟩
      · rw [Tables.setRow_ne _ hi]
        exact ⟨rfl, rfl⟩
    refine ⟨?_, hx.idle.keep (fun q hq => by rwa [Row.idle, (hrow q).1] at hq) fun _ _ _ _ h => h⟩
    rw [spaces_congr fun i => (hrow i).2]
    exact hx.memory

theorem consistent_preserved (hA : ¬ A.calm) :
    Preserves (step L) Proper fun s => Consistent A s.tables s.machine := by
  intro s e s' hs he hstep
  obtain ⟨m, hm, hrun⟩ := Option.bind_eq_some_iff.mp hstep
  obtain ⟨⟨t, machine⟩, hok, hret⟩ := Option.bind_eq_some_iff.mp hrun
  cases hret
  have hfails : Consistent A s.tables (Conservation.failing s.machine e.fails) :=
    ⟨⟨hs.memory.pages, hs.memory.sizes, fun hc => absurd hc hA⟩, hs.idle⟩
  cases hr : m.run (Conservation.failing s.machine e.fails) with
  | error stop =>
    rw [hr] at hok
    cases hok
  | ok r =>
    rw [hr] at hok
    cases hok
    exact (call_consistent he hm).ok hfails hr

end Xv6.Vm.Ptable
