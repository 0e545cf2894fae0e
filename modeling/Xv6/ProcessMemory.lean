import Xv6.PageTables
import Xv6.Params

namespace Xv6.Vm

open Xv6.Memory (PGSIZE KERNBASE uint)
open Xv6.Words

def ELF_MAGIC : ℕ := 0x464C457F
def ELF_PROG_LOAD : ℕ := 1

structure Process where
  pgdir : ℕ
  sz : ℕ
  kstack : ℕ
  deriving DecidableEq, Repr

def growproc (L : Layout) (p : Process) (n : ℤ) : Call (Option Process) := do
  if 0 < n then
    let sz ← allocuvm L p.pgdir p.sz (uint (p.sz + n))
    if sz = 0 then return none
    else return some { p with sz := sz }
  else if n < 0 then
    let sz ← deallocuvm L p.pgdir p.sz (uint (p.sz + n))
    if sz = 0 then return none
    else return some { p with sz := sz }
  else return some p

def writeAt (page off : ℕ) (bytes : List UInt8) : Call Unit := do
  if PHYSTOP ≤ page * PGSIZE then throw .fault
  else
    let s ← get
    set { s with mem := Function.update s.mem page (copyIn (s.mem page) off (bytes.map UInt8.toNat)) }

abbrev Reader (σ : Type) := σ → ℕ → ℕ → List UInt8 × σ

/-- What the coming calls of `readi` deliver, whatever file or device they read. -/
abbrev Reads := List (List UInt8)

def readi (reads : Reads) (n : ℕ) : List UInt8 := (reads.headD []).take n

def inTurn : Reader Reads := fun reads _ n => (readi reads n, reads.tail)

def word (bytes : List UInt8) (a : ℕ) : ℕ := get32 (fun i => (bytes.getD i 0).toNat) a

def half (bytes : List UInt8) (a : ℕ) : ℕ := (bytes.getD a 0).toNat + 2 ^ 8 * (bytes.getD (a + 1) 0).toNat

def bytesOf (w : ℕ) : List UInt8 :=
  [UInt8.ofNat w, UInt8.ofNat (w / 2 ^ 8), UInt8.ofNat (w / 2 ^ 16), UInt8.ofNat (w / 2 ^ 24)]

section Reading

variable {σ : Type} (read : Reader σ)

def loadFrom (pgdir addr offset sz : ℕ) : ℕ → ℕ → σ → Call (Option σ)
  | 0, _, _ => throw .hang
  | fuel + 1, i, state =>
    if i < sz then do
      match ← walkpgdir pgdir ((addr + i) % 2 ^ 32) false with
      | none => throw .loaduvmExist
      | some (pgtab, j) =>
        let pte ← load pgtab j
        let n := if sz - i < PGSIZE then sz - i else PGSIZE
        let data := read state ((offset + i) % 2 ^ 32) n
        writeAt (PTE_ADDR pte / PGSIZE) 0 data.1
        if data.1.length ≠ n then return none
        else loadFrom pgdir addr offset sz fuel ((i + PGSIZE) % 2 ^ 32) data.2
    else return some state

def loaduvm (pgdir addr offset sz : ℕ) (state : σ) : Call (Option σ) := do
  if addr % PGSIZE ≠ 0 then throw .loaduvmAligned
  else loadFrom read pgdir addr offset sz (2 ^ 20 + 1) 0 state

structure Proghdr where
  type : ℕ
  off : ℕ
  vaddr : ℕ
  filesz : ℕ
  memsz : ℕ

def proghdr (bytes : List UInt8) :
    Proghdr := ⟨word bytes 0, word bytes 4, word bytes 8, word bytes 16, word bytes 20⟩

def loadSegments (L : Layout) (pgdir : ℕ) : ℕ → ℕ → ℕ → σ → Call (Option ℕ)
  | 0, _, sz, _ => return some sz
  | k + 1, off, sz, state => do
    let bytes := read state off 32
    let ph := proghdr bytes.1
    if bytes.1.length ≠ 32 then return none
    else if ph.type ≠ ELF_PROG_LOAD then loadSegments L pgdir k ((off + 32) % 2 ^ 32) sz bytes.2
    else if ph.memsz < ph.filesz then return none
    else if (ph.vaddr + ph.memsz) % 2 ^ 32 < ph.vaddr then return none
    else
      let sz ← allocuvm L pgdir sz ((ph.vaddr + ph.memsz) % 2 ^ 32)
      if sz = 0 then return none
      else if ph.vaddr % PGSIZE ≠ 0 then return none
      else
        match ← loaduvm read pgdir ph.vaddr ph.off ph.filesz bytes.2 with
        | none => return none
        | some state => loadSegments L pgdir k ((off + 32) % 2 ^ 32) sz state

end Reading

def clearpteu (pgdir uva : ℕ) : Call Unit := do
  match ← walkpgdir pgdir uva false with
  | none => throw .clearpteu
  | some (pgtab, i) =>
    let pte ← load pgtab i
    store pgtab i (pte &&& (2 ^ 32 - 1 - PTE_U))

/-- `null` is what becomes of the read of `*pte` when `walkpgdir` returns 0. -/
def uva2kaOn (null : Call ℕ) (pgdir uva : ℕ) : Call (Option ℕ) := do
  let pte ← match ← walkpgdir pgdir uva false with
    | none => null
    | some (pgtab, i) => load pgtab i
  if pte &&& PTE_P = 0 then return none
  else if pte &&& PTE_U = 0 then return none
  else return some (PTE_ADDR pte / PGSIZE)

def copyoutOnFrom (null : Call ℕ) (pgdir : ℕ) : ℕ → ℕ → List UInt8 → Call Bool
  | 0, _, _ => throw .hang
  | fuel + 1, va, buf =>
    if 0 < buf.length then do
      let va0 := PGROUNDDOWN va
      match ← uva2kaOn null pgdir va0 with
      | none => return false
      | some page =>
        let n := min (PGSIZE - (va - va0)) buf.length
        writeAt page (va - va0) (buf.take n)
        copyoutOnFrom null pgdir fuel ((va0 + PGSIZE) % 2 ^ 32) (buf.drop n)
    else return true

def copyoutOn (null : Call ℕ) (pgdir va : ℕ) (buf : List UInt8) : Call Bool :=
  copyoutOnFrom null pgdir (buf.length + 1) va buf

def uva2ka (pgdir uva : ℕ) : Call (Option ℕ) := uva2kaOn (throw .fault) pgdir uva

def copyout (pgdir va : ℕ) (buf : List UInt8) : Call Bool := copyoutOn (throw .fault) pgdir va buf

def pushArgs (pgdir : ℕ) : ℕ → List ℕ → List (List UInt8) → Call (Option (ℕ × List ℕ))
  | sp, ptrs, [] => return some (sp, ptrs)
  | sp, ptrs, arg :: argv => do
    if MAXARG ≤ ptrs.length then return none
    else
      let sp := uint (sp - (arg.length + 1)) / 4 * 4
      if ← copyout pgdir sp (arg ++ [0]) then pushArgs pgdir sp (ptrs ++ [sp]) argv
      else return none

def ustack (sp : ℕ) (ptrs : List ℕ) : List ℕ :=
  [0xffffffff, ptrs.length, uint (sp - (ptrs.length + 1) * 4)] ++ ptrs ++ [0]

def pushStack (pgdir sz : ℕ) (argv : List (List UInt8)) : Call (Option (ℕ × ℕ)) := do
  match ← pushArgs pgdir sz [] argv with
  | none => return none
  | some (sp, ptrs) =>
    let esp := uint (sp - (3 + ptrs.length + 1) * 4)
    if ← copyout pgdir esp ((ustack sp ptrs).flatMap bytesOf) then return some (sz, esp)
    else return none

def loadImage (L : Layout) (pgdir phnum phoff : ℕ) (reads : Reads) (argv : List (List UInt8)) :
    Call (Option (ℕ × ℕ)) := do
  match ← loadSegments inTurn L pgdir phnum phoff 0 reads with
  | none => return none
  | some sz =>
    let sz := PGROUNDUP sz
    let sz ← allocuvm L pgdir sz ((sz + 2 * PGSIZE) % 2 ^ 32)
    if sz = 0 then return none
    else
      clearpteu pgdir (sz - 2 * PGSIZE)
      pushStack pgdir sz argv

structure Entered where
  process : Process
  eip : ℕ
  esp : ℕ

/-- `none` is the result `-1`. A path that does not exist delivers no header. -/
def execEntry (L : Layout) (p : Process) (reads : Reads) (argv : List (List UInt8)) : Call (Option Entered) := do
  let elf := readi reads 52
  if elf.length ≠ 52 then return none
  else if word elf 0 ≠ ELF_MAGIC then return none
  else
    match ← setupkvm L with
    | none => return none
    | some pgdir =>
      match ← loadImage L pgdir (half elf 44) (word elf 28) reads.tail argv with
      | none =>
        freevm L pgdir
        return none
      | some (sz, esp) =>
        freevm L p.pgdir
        return some ⟨{ p with pgdir := pgdir, sz := sz }, word elf 24, esp⟩

def exec (L : Layout) (p : Process) (reads : Reads) (argv : List (List UInt8)) : Call (Option Process) :=
  execEntry L p reads argv >>= fun r => pure (r.map Entered.process)

/-- Without a kernel stack the new slot stays `EMBRYO`; without a copy it is given back. -/
inductive Forked where
  | noStack
  | noCopy
  | child (np : Process)

def fork (L : Layout) (p : Process) : Call Forked := do
  match ← kalloc with
  | none => return .noStack
  | some kstack =>
    match ← copyuvm L p.pgdir p.sz with
    | none =>
      kfree L kstack
      return .noCopy
    | some pgdir => return .child ⟨pgdir, p.sz, kstack⟩

/-- A store instruction of the process: it faults unless the page is a writable user page. -/
def userStore (p : Process) (va : ℕ) (b : UInt8) : Call Unit := do
  if KERNBASE ≤ va then return ()
  else
    match ← walkpgdir p.pgdir va false with
    | none => return ()
    | some (pgtab, i) =>
      let pte ← load pgtab i
      if present pte ∧ pte &&& PTE_W ≠ 0 ∧ pte &&& PTE_U ≠ 0 then writeAt (PTE_ADDR pte / PGSIZE) (va % PGSIZE) [b]
      else return ()

def inituvm (pgdir : ℕ) (init : List UInt8) : Call Unit := do
  if PGSIZE ≤ init.length then throw .inituvm
  else
    match ← kalloc with
    | none => throw .fault
    | some mem =>
      fill mem (fun _ => 0)
      let _ ← mappages pgdir 0 PGSIZE (mem * PGSIZE) (PTE_W ||| PTE_U)
      writeAt mem 0 init

def userinit (L : Layout) (initcode : List UInt8) : Call Process := do
  match ← kalloc with
  | none => throw .fault
  | some kstack =>
    match ← setupkvm L with
    | none => throw .userinit
    | some pgdir =>
      inituvm pgdir initcode
      return ⟨pgdir, PGSIZE, kstack⟩

end Xv6.Vm
