import Xv6.AddressSpaces

namespace Xv6.UserArguments

open Xv6.Runs Xv6.Triples

abbrev Memory := BitVec 32 → BitVec 8

abbrev Fetch := StateT (List (BitVec 32)) (Except (List (BitVec 32)))

def minusOne {α : Type} : Fetch α := do
  let reads ← get
  throw reads

def loadByte (mem : Memory) (a : BitVec 32) : Fetch (BitVec 8) := do
  let reads ← get
  set (a :: reads)
  pure (mem a)

def loadInt (mem : Memory) (a : BitVec 32) : Fetch (BitVec 32) := do
  let b0 ← loadByte mem a
  let b1 ← loadByte mem (a + 1)
  let b2 ← loadByte mem (a + 2)
  let b3 ← loadByte mem (a + 3)
  pure (b3 ++ b2 ++ b1 ++ b0)

def fetchint (sz : BitVec 32) (mem : Memory) (addr : BitVec 32) : Fetch (BitVec 32) :=
  if sz ≤ addr ∨ sz < addr + 4 then minusOne else loadInt mem addr

structure Str where
  addr : BitVec 32
  len : ℕ

def scan (mem : Memory) : ℕ → BitVec 32 → Fetch ℕ
  | 0, _ => minusOne
  | rounds + 1, s => do
    let c ← loadByte mem s
    if c = 0 then pure 0
    else do
      let len ← scan mem rounds (s + 1)
      pure (len + 1)

def fetchstr (sz : BitVec 32) (mem : Memory) (addr : BitVec 32) : Fetch Str :=
  if sz ≤ addr then minusOne
  else do
    let len ← scan mem (sz.toNat - addr.toNat) addr
    pure ⟨addr, len⟩

def argint (sz : BitVec 32) (mem : Memory) (esp n : BitVec 32) : Fetch (BitVec 32) :=
  fetchint sz mem (esp + 4 + 4 * n)

def argptr (sz : BitVec 32) (mem : Memory) (esp n size : BitVec 32) : Fetch (BitVec 32) := do
  let i ← argint sz mem esp n
  if size.toInt < 0 ∨ sz ≤ i ∨ sz < i + size then minusOne else pure i

def argstr (sz : BitVec 32) (mem : Memory) (esp n : BitVec 32) : Fetch Str := do
  let addr ← argint sz mem esp n
  fetchstr sz mem addr

def argvFrom (sz : BitVec 32) (mem : Memory) (uargv : BitVec 32) : ℕ → BitVec 32 → Fetch (List Str)
  | 0, _ => minusOne
  | rounds + 1, i => do
    let uarg ← fetchint sz mem (uargv + 4 * i)
    if uarg = 0 then pure []
    else do
      let arg ← fetchstr sz mem uarg
      let rest ← argvFrom sz mem uargv rounds (i + 1)
      pure (arg :: rest)

def sysExec (sz : BitVec 32) (mem : Memory) (esp : BitVec 32) : Fetch (Str × List Str) := do
  let path ← argstr sz mem esp 0
  let uargv ← argint sz mem esp 1
  let argv ← argvFrom sz mem uargv MAXARG 0
  pure (path, argv)

def Str.Inside (s : Str) (sz : ℕ) : Prop := s.addr.toNat + s.len < sz

def Confined (sz : ℕ) (reads : List (BitVec 32)) : Prop := ∀ a ∈ reads, a.toNat < sz

abbrev Confines {α : Type} (sz : ℕ) (m : Fetch α) (Q : α → Prop) : Prop :=
  Triple (Confined sz) m (fun a reads => Q a ∧ Confined sz reads) (Confined sz)

section

variable {α β : Type} {sz : BitVec 32} {mem : Memory} {n : ℕ} {Q : α → Prop} {a : BitVec 32}

theorem confines_minusOne : Confines n (minusOne : Fetch α) Q :=
  Triple.get fun _ hreads => Triple.throw hreads

theorem confines_pure {a : α} (h : Q a) : Confines n (pure a : Fetch α) Q :=
  Triple.pure fun _ hreads => ⟨h, hreads⟩

theorem confines_bind {m : Fetch β} {f : β → Fetch α} {R : β → Prop} (h : Confines n m R)
    (h' : ∀ b, R b → Confines n (f b) Q) : Confines n (m >>= f) Q := by
  apply Triple.bind h
  intro b
  exact Triple.given (h' b)

theorem confines_loadByte (ha : a.toNat < n) : Confines n (loadByte mem a) fun _ => True := by
  apply Triple.get
  intro reads hreads
  apply Triple.setThen
  apply Triple.ret
  refine ⟨trivial, ?_⟩
  intro x hx
  rcases List.mem_cons.mp hx with rfl | hx
  · exact ha
  · exact hreads x hx

theorem confines_loadInt (ha : a.toNat + 4 ≤ n) (hn : n < 2 ^ 32) :
    Confines n (loadInt mem a) fun _ => True := by
  have hbyte (k : BitVec 32) (hk : k.toNat < 4) : Confines n (loadByte mem (a + k)) fun _ => True := by
    apply confines_loadByte
    rw [BitVec.toNat_add]
    omega
  apply confines_bind (confines_loadByte (by omega))
  intro _ _
  apply confines_bind (hbyte 1 (by decide))
  intro _ _
  apply confines_bind (hbyte 2 (by decide))
  intro _ _
  apply confines_bind (hbyte 3 (by decide))
  intro _ _
  exact confines_pure trivial

theorem confines_fetchint (hsz : sz.toNat < 2 ^ 31) (addr : BitVec 32) :
    Confines sz.toNat (fetchint sz mem addr) fun _ => True := by
  apply Triple.ite
  · intro _
    exact confines_minusOne
  · intro h
    have hlow : addr.toNat < sz.toNat := BitVec.lt_def.mp (BitVec.not_le.mp fun hle => h (.inl hle))
    have hhigh : (addr + 4).toNat ≤ sz.toNat := BitVec.le_def.mp (BitVec.not_lt.mp fun hlt => h (.inr hlt))
    rw [BitVec.toNat_add, Nat.mod_eq_of_lt (by simp; omega)] at hhigh
    exact confines_loadInt hhigh (by omega)

theorem confines_scan {rounds : ℕ} {s : BitVec 32} (hs : s.toNat + rounds ≤ n) :
    Confines n (scan mem rounds s) fun len => len < rounds := by
  induction rounds generalizing s with
  | zero => exact confines_minusOne
  | succ rounds ih =>
    apply confines_bind (confines_loadByte (by omega))
    intro c _
    apply Triple.ite
    · intro _
      exact confines_pure (Nat.succ_pos rounds)
    · intro _
      have hnext : (s + 1).toNat + rounds ≤ n := by
        rw [BitVec.toNat_add]
        simp
        omega
      apply confines_bind (ih hnext)
      intro len hlen
      exact confines_pure (Nat.succ_lt_succ hlen)

theorem confines_fetchstr (addr : BitVec 32) :
    Confines sz.toNat (fetchstr sz mem addr) fun s => s.Inside sz.toNat := by
  apply Triple.ite
  · intro _
    exact confines_minusOne
  · intro h
    have haddr : addr.toNat < sz.toNat := BitVec.lt_def.mp (BitVec.not_le.mp h)
    apply confines_bind (confines_scan (by omega))
    intro len hlen
    have hend : addr.toNat + len < sz.toNat := by omega
    exact confines_pure hend

theorem confines_argint (hsz : sz.toNat < 2 ^ 31) (esp k : BitVec 32) :
    Confines sz.toNat (argint sz mem esp k) fun _ => True :=
  confines_fetchint hsz _

theorem confines_argptr (hsz : sz.toNat < 2 ^ 31) (esp k size : BitVec 32) :
    Confines sz.toNat (argptr sz mem esp k size) fun p => 0 ≤ size.toInt ∧ p.toNat + size.toInt ≤ sz.toNat := by
  apply confines_bind (confines_argint hsz esp k)
  intro i _
  apply Triple.ite
  · intro _
    exact confines_minusOne
  · intro h
    have hsize : 0 ≤ size.toInt := Int.not_lt.mp fun hlt => h (.inl hlt)
    have hlow : i.toNat < sz.toNat := BitVec.lt_def.mp (BitVec.not_le.mp fun hle => h (.inr (.inl hle)))
    have hhigh : (i + size).toNat ≤ sz.toNat := BitVec.le_def.mp (BitVec.not_lt.mp fun hlt => h (.inr (.inr hlt)))
    have hint := BitVec.toInt_eq_toNat_cond size
    have hbound := size.isLt
    rw [BitVec.toNat_add] at hhigh
    apply confines_pure
    refine ⟨hsize, ?_⟩
    split_ifs at hint
    · rw [Nat.mod_eq_of_lt (by omega)] at hhigh
      omega
    · omega

theorem confines_argstr (hsz : sz.toNat < 2 ^ 31) (esp k : BitVec 32) :
    Confines sz.toNat (argstr sz mem esp k) fun s => s.Inside sz.toNat := by
  apply confines_bind (confines_argint hsz esp k)
  intro addr _
  exact confines_fetchstr addr

theorem confines_argvFrom (hsz : sz.toNat < 2 ^ 31) (uargv : BitVec 32) (rounds : ℕ) (i : BitVec 32) :
    Confines sz.toNat (argvFrom sz mem uargv rounds i) fun argv => ∀ s ∈ argv, s.Inside sz.toNat := by
  induction rounds generalizing i with
  | zero => exact confines_minusOne
  | succ rounds ih =>
    apply confines_bind (confines_fetchint hsz _)
    intro uarg _
    apply Triple.ite
    · intro _
      exact confines_pure fun _ hs => absurd hs List.not_mem_nil
    · intro _
      apply confines_bind (confines_fetchstr uarg)
      intro arg harg
      apply confines_bind (ih (i + 1))
      intro rest hrest
      exact confines_pure (List.forall_mem_cons.mpr ⟨harg, hrest⟩)

theorem confines_sysExec (hsz : sz.toNat < 2 ^ 31) (esp : BitVec 32) :
    Confines sz.toNat (sysExec sz mem esp) fun r => r.1.Inside sz.toNat ∧ ∀ s ∈ r.2, s.Inside sz.toNat := by
  apply confines_bind (confines_argstr hsz esp 0)
  intro path hpath
  apply confines_bind (confines_argint hsz esp 1)
  intro uargv _
  apply confines_bind (confines_argvFrom hsz uargv MAXARG 0)
  intro argv hargv
  exact confines_pure ⟨hpath, hargv⟩

end

section

open Xv6.Vm
open Xv6.Memory (PGSIZE KERNBASE uint)

variable {L : Layout} {p : Process}

abbrev Returns {α : Type} (m : Call α) (Q : α → Prop) :
    Prop := Triple (fun _ => True) m (fun a _ => Q a) fun _ => True

theorem returns_bind {α β : Type} {m : Call β} {f : β → Call α} {Q : α → Prop} (h : ∀ b, Returns (f b) Q) :
    Returns (m >>= f) Q :=
  Triple.bind Triple.anything h

variable {d oldsz sz : ℕ}

theorem allocFrom_size {newsz : ℕ} (fuel a : ℕ) :
    Returns (allocFrom L d oldsz newsz fuel a) fun sz => sz = 0 ∨ sz = newsz := by
  induction fuel generalizing a with
  | zero => exact Triple.throw trivial
  | succ fuel ih =>
    apply Triple.ite
    · intro _
      apply returns_bind
      rintro (_ | mem)
      · apply returns_bind
        intro _
        exact Triple.pure fun _ _ => .inl rfl
      · apply returns_bind
        intro _
        apply returns_bind
        intro mapped
        apply Triple.ite
        · intro _
          exact ih _
        · intro _
          apply returns_bind
          intro _
          apply returns_bind
          intro _
          exact Triple.pure fun _ _ => .inl rfl
    · intro _
      exact Triple.pure fun _ _ => .inr rfl

theorem allocuvm_small (hold : oldsz < KERNBASE) (newsz : ℕ) :
    Returns (allocuvm L d oldsz newsz) fun sz => sz < KERNBASE := by
  apply Triple.ite
  · intro _
    exact Triple.pure fun _ _ => by decide
  intro hnew
  apply Triple.ite
  · intro _
    exact Triple.pure fun _ _ => hold
  · intro _
    apply (allocFrom_size _ _).post
    rintro sz _ (rfl | rfl)
    · decide
    · exact Nat.lt_of_not_le hnew

theorem allocuvm_grows_small (newsz : ℕ) :
    Returns (allocuvm L d oldsz newsz) fun sz => oldsz ≤ newsz → sz < KERNBASE := by
  apply Triple.ite
  · intro _
    exact Triple.pure fun _ _ _ => by decide
  intro hnew
  apply Triple.ite
  · intro hless
    exact Triple.pure fun _ _ hle => absurd hle (Nat.not_le_of_lt hless)
  · intro _
    apply (allocFrom_size _ _).post
    rintro sz _ (rfl | rfl) _
    · decide
    · exact Nat.lt_of_not_le hnew

theorem deallocuvm_small (hold : oldsz < KERNBASE) (newsz : ℕ) :
    Returns (deallocuvm L d oldsz newsz) fun sz => sz < KERNBASE := by
  apply Triple.ite
  · intro _
    exact Triple.pure fun _ _ => hold
  · intro hnew
    apply returns_bind
    intro _
    exact Triple.pure fun _ _ => (Nat.lt_of_not_le hnew).trans hold

theorem growproc_small (hp : p.sz < KERNBASE) (n : ℤ) :
    Returns (growproc L p n) fun r => (r.getD p).sz < KERNBASE := by
  have hset {sz : ℕ} (hsz : sz < KERNBASE) :
      Returns (if sz = 0 then pure none else pure (some { p with sz := sz }) : Call (Option Process))
        fun r => (r.getD p).sz < KERNBASE := by
    apply Triple.ite
    · intro _
      exact Triple.pure fun _ _ => hp
    · intro _
      exact Triple.pure fun _ _ => hsz
  apply Triple.ite
  · intro _
    apply Triple.bind (allocuvm_small hp _)
    intro sz
    exact Triple.known (fun _ h => h) fun hsz => (hset hsz).pre fun _ _ => trivial
  intro _
  apply Triple.ite
  · intro _
    apply Triple.bind (deallocuvm_small hp _)
    intro sz
    exact Triple.known (fun _ h => h) fun hsz => (hset hsz).pre fun _ _ => trivial
  · intro _
    exact Triple.pure fun _ _ => hp

theorem loadSegments_small {σ : Type} {read : Reader σ} (k off : ℕ) (hsz : sz < KERNBASE) (state : σ) :
    Returns (loadSegments read L d k off sz state) fun r => ∀ sz', r = some sz' → sz' < KERNBASE := by
  have hbad : Returns (pure none : Call (Option ℕ)) fun r => ∀ sz', r = some sz' → sz' < KERNBASE :=
    Triple.pure fun _ _ _ h => by cases h
  induction k generalizing off sz state with
  | zero =>
    apply Triple.pure
    rintro _ _ _ ⟨⟩
    exact hsz
  | succ k ih =>
    apply Triple.ite
    · intro _
      exact hbad
    intro _
    apply Triple.ite
    · intro _
      exact ih _ hsz _
    intro _
    apply Triple.ite
    · intro _
      exact hbad
    intro _
    apply Triple.ite
    · intro _
      exact hbad
    intro _
    apply Triple.bind (allocuvm_small hsz _)
    intro sz
    apply Triple.known (fun _ h => h)
    intro hsz
    apply Triple.ite
    · intro _
      exact hbad.pre fun _ _ => trivial
    intro _
    apply Triple.ite
    · intro _
      exact hbad.pre fun _ _ => trivial
    intro _
    apply Triple.bind Triple.anything
    rintro (_ | state)
    · exact hbad
    · exact ih _ hsz state

theorem pushStack_size {argv : List (List UInt8)} (hsz : sz < KERNBASE) :
    Returns (pushStack d sz argv) fun r => ∀ sz' esp, r = some (sz', esp) → sz' < KERNBASE := by
  apply returns_bind
  rintro (_ | ⟨sp, ptrs⟩)
  · exact Triple.pure fun _ _ _ _ h => by cases h
  apply returns_bind
  intro copied
  apply Triple.ite
  · intro _
    apply Triple.pure
    rintro _ _ _ _ ⟨⟩
    exact hsz
  · intro _
    exact Triple.pure fun _ _ _ _ h => by cases h

theorem loadImage_small {phnum phoff : ℕ} {reads : Reads} {argv : List (List UInt8)} :
    Returns (loadImage L d phnum phoff reads argv) fun r => ∀ sz esp, r = some (sz, esp) → sz < KERNBASE := by
  have hbad : Returns (pure none : Call (Option (ℕ × ℕ))) fun r => ∀ sz esp, r = some (sz, esp) → sz < KERNBASE :=
    Triple.pure fun _ _ _ _ h => by cases h
  apply Triple.bind (loadSegments_small phnum phoff (by decide) reads)
  intro r
  apply Triple.start
  intro _ hsegments
  rcases r with _ | sz
  · exact hbad.pre fun _ _ => trivial
  have hsz : sz < KERNBASE := hsegments sz rfl
  dsimp only
  have hgrows : PGROUNDUP sz ≤ (PGROUNDUP sz + 2 * PGSIZE) % 2 ^ 32 := by
    simp only [PGROUNDUP, PGSIZE, KERNBASE] at hsz ⊢
    omega
  generalize (PGROUNDUP sz + 2 * PGSIZE) % 2 ^ 32 = newsz at hgrows ⊢
  apply Triple.bind ((allocuvm_grows_small _).pre fun _ _ => trivial)
  intro sz
  apply Triple.start
  intro _ hstack
  apply Triple.ite
  · intro _
    exact hbad.pre fun _ _ => trivial
  intro _
  apply Triple.bind Triple.anything
  intro _
  exact pushStack_size (hstack hgrows)

theorem exec_small (hp : p.sz < KERNBASE) (reads : Reads) (argv : List (List UInt8)) :
    Returns (exec L p reads argv) fun r => (r.getD p).sz < KERNBASE := by
  have hbad : Returns (pure none : Call (Option Entered)) fun r =>
      ((r.map Entered.process).getD p).sz < KERNBASE :=
    Triple.pure fun _ _ => hp
  have hentry : Returns (execEntry L p reads argv) fun r => ((r.map Entered.process).getD p).sz < KERNBASE := by
    apply Triple.ite
    · intro _
      exact hbad
    intro _
    apply Triple.ite
    · intro _
      exact hbad
    intro _
    apply returns_bind
    rintro (_ | d)
    · exact hbad
    apply Triple.bind loadImage_small
    rintro (_ | ⟨sz, esp⟩)
    · apply Triple.bind Triple.anything
      intro _
      exact hbad
    · apply Triple.known (p := sz < KERNBASE) (fun _ h => h sz esp rfl)
      intro hsz
      apply Triple.bind Triple.anything
      intro _
      exact Triple.pure fun _ _ => hsz
  exact Triple.bind hentry fun _ => Triple.pure fun _ hs => hs

theorem fork_small (hp : p.sz < KERNBASE) :
    Returns (fork L p) fun r => ∀ np, r = .child np → np.sz < KERNBASE := by
  apply returns_bind
  rintro (_ | kstack)
  · exact Triple.pure fun _ _ _ h => by cases h
  apply returns_bind
  rintro (_ | d)
  · apply returns_bind
    intro _
    exact Triple.pure fun _ _ _ h => by cases h
  · apply Triple.pure
    rintro _ _ _ ⟨⟩
    exact hp

theorem userinit_size {initcode : List UInt8} : Returns (userinit L initcode) fun p => p.sz = PGSIZE := by
  apply returns_bind
  rintro (_ | kstack)
  · exact Triple.throw trivial
  apply returns_bind
  rintro (_ | d)
  · exact Triple.throw trivial
  apply returns_bind
  intro _
  exact Triple.pure fun _ _ => rfl

def AllSmall (procs : List Process) : Prop := ∀ q ∈ procs, q.sz < KERNBASE

theorem AllSmall.set {procs : List Process} (h : AllSmall procs) {q : Process} (hq : q.sz < KERNBASE) (i : ℕ) :
    AllSmall (procs.set i q) := by
  intro x hx
  rcases List.mem_or_eq_of_mem_set hx with hx | rfl
  · exact h x hx
  · exact hq

theorem call_small {s : Spaces.State} (hs : AllSmall s.procs) (hp : p.sz < KERNBASE) (e : Spaces.Event) :
    Returns (Spaces.call L s p e) fun r => AllSmall r.1 := by
  cases e with
  | fork i fails =>
    apply Triple.ite
    · intro _
      exact Triple.pure fun _ _ => hs
    intro _
    apply Triple.bind (fork_small hp)
    intro r
    cases r with
    | noStack => exact Triple.pure fun _ _ => hs
    | noCopy => exact Triple.pure fun _ _ => hs
    | child np =>
      apply Triple.pure
      intro _ hnp x hx
      rcases List.mem_append.mp hx with hx | hx
      · exact hs x hx
      · rw [List.mem_singleton.mp hx]
        exact hnp np rfl
  | exec i reads argv fails =>
    apply Triple.bind (exec_small hp reads argv)
    intro r
    exact Triple.pure fun _ hr => hs.set hr i
  | sbrk i n fails =>
    apply Triple.bind (growproc_small hp n)
    intro r
    exact Triple.pure fun _ hr => hs.set hr i
  | store i va b =>
    apply returns_bind
    intro _
    exact Triple.pure fun _ _ => hs

theorem allSmall_preserved : Preserves (Spaces.step L) Always fun s => AllSmall s.procs := by
  intro s e s' hs _ hstep
  obtain ⟨r, hr, hok⟩ := Option.bind_eq_some_iff.mp hstep
  obtain ⟨p, hp, rfl⟩ := Option.map_eq_some_iff.mp hr
  have hsmall := call_small (L := L) hs (hs p (List.mem_of_getElem? hp)) e
  cases hrun : (Spaces.call L s p e).run (Conservation.failing s.machine e.fails) with
  | error stop =>
    rw [hrun] at hok
    cases hok
  | ok x =>
    rw [hrun] at hok
    cases hok
    exact hsmall.ok trivial hrun

def ArgumentsConfined (sz : ℕ) : Prop :=
  ∀ (mem : Memory) (esp : BitVec 32),
    (∀ k, Confines sz (argint (.ofNat 32 sz) mem esp k) fun _ => True) ∧
    (∀ k size, Confines sz (argptr (.ofNat 32 sz) mem esp k size) fun p => 0 ≤ size.toInt ∧
      p.toNat + size.toInt ≤ sz) ∧ (∀ k, Confines sz (argstr (.ofNat 32 sz) mem esp k) fun s => s.Inside sz) ∧
    Confines sz (sysExec (.ofNat 32 sz) mem esp) fun r => r.1.Inside sz ∧ ∀ s ∈ r.2, s.Inside sz

theorem argumentsConfined_of_small (hsmall : sz < KERNBASE) : ArgumentsConfined sz := by
  intro mem esp
  obtain ⟨w, hw⟩ : ∃ w, w = BitVec.ofNat 32 sz := ⟨_, rfl⟩
  have hnat : w.toNat = sz := by
    rw [hw, BitVec.toNat_ofNat]
    simp only [KERNBASE] at hsmall
    omega
  have hbound : w.toNat < 2 ^ 31 := hnat ▸ hsmall
  rw [← hw, ← hnat]
  exact ⟨confines_argint hbound esp, confines_argptr hbound esp, confines_argstr hbound esp,
    confines_sysExec hbound esp⟩

theorem arguments_confined {m machine : Machine} {initcode : List UInt8} {s : Spaces.State}
    (hboot : (userinit L initcode).run m = .ok (p, machine))
    (hreach : Reaches (Spaces.step L) Always ⟨machine, [p], 0⟩ s) :
    ∀ q ∈ s.procs, q.sz < KERNBASE ∧ ArgumentsConfined q.sz := by
  intro q hq
  have hfirst : AllSmall [p] := by
    intro x hx
    rw [List.mem_singleton.mp hx, userinit_size.ok trivial hboot]
    decide
  have hsmall : q.sz < KERNBASE := hreach.invariant allSmall_preserved hfirst q hq
  exact ⟨hsmall, argumentsConfined_of_small hsmall⟩

theorem arguments_confined_bootMachine : ∃ p machine q machine',
    (userinit Conservation.smallKernel []).run Spaces.bootMachine = .ok (p, machine) ∧
    Reaches (Spaces.step Conservation.smallKernel) Always ⟨machine, [p], 0⟩ ⟨machine', [q], 0⟩ ∧
    q.sz = 3 * PGSIZE ∧ ArgumentsConfined q.sz := by
  have hcode : ([] : List UInt8).length < PGSIZE := by decide
  obtain ⟨p, machine, hrun, hsz, hs⟩ :=
    Spaces.userinit_settled Spaces.bootMachine_nodup Spaces.bootMachine_fits rfl
    Spaces.bootMachine_room hcode
  obtain ⟨machine', hstep⟩ := Spaces.sbrk_grows (n := 2 * PGSIZE) hs trivial (by decide) (by rw [hsz]; decide) (by
    rw [hsz, Spaces.framesOf, Multiset.coe_card, Spaces.bootMachine, List.length_range']
    decide)
  have hreach : Reaches (Spaces.step Conservation.smallKernel) Always _ _ := .tail .refl trivial hstep
  exact ⟨p, machine, _, machine', hrun, hreach,
    by rw [hsz]; rfl, (arguments_confined hrun hreach _ List.mem_cons_self).2⟩

end

end Xv6.UserArguments
