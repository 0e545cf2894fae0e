import Xv6.UserMemory
import Xv6.Words

namespace Xv6.Vm

open Xv6.Memory (PGSIZE KERNBASE)
open Xv6.Words

def EXTMEM : ℕ := 0x100000
def PHYSTOP : ℕ := 0xE000000
def DEVSPACE : ℕ := 0xFE000000
def KERNLINK : ℕ := KERNBASE + EXTMEM
def NPDENTRIES : ℕ := 1024
def PTE_P : ℕ := 0x001
def PTE_W : ℕ := 0x002
def PTE_U : ℕ := 0x004

def PDX (va : ℕ) : ℕ := va / 2 ^ 22 % 1024
def PTX (va : ℕ) : ℕ := va / 2 ^ 12 % 1024
def PGADDR (d t o : ℕ) : ℕ := (d * 2 ^ 22 + t * 2 ^ 12 + o) % 2 ^ 32
def PGROUNDUP (sz : ℕ) : ℕ := (sz + PGSIZE - 1) % 2 ^ 32 / PGSIZE * PGSIZE
def PGROUNDDOWN (a : ℕ) : ℕ := a / PGSIZE * PGSIZE
def PTE_ADDR (pte : ℕ) : ℕ := pte / PGSIZE * PGSIZE
def PTE_FLAGS (pte : ℕ) : ℕ := pte % PGSIZE

def present (entry : ℕ) : Bool := entry &&& PTE_P ≠ 0

/-- Where the linker puts the kernel: `data` starts on a page boundary after the text, `kernelEnd` is the
symbol `end`. -/
structure Layout where
  data : ℕ
  kernelEnd : ℕ
  aligned : data % PGSIZE = 0
  text : KERNLINK < data
  bss : data ≤ kernelEnd
  fits : data < KERNBASE + PHYSTOP

/-- Physical memory by page number. `fails` says of the coming calls of `kalloc` which ones fail whether or
not a page is left. -/
structure Machine where
  freelist : List ℕ
  mem : ℕ → Bytes
  fails : List Bool

inductive Stop where
  | remap
  | kfree
  | copyuvmExist
  | copyuvmPresent
  | loaduvmAligned
  | loaduvmExist
  | clearpteu
  | inituvm
  | userinit
  | fault
  | hang
  deriving DecidableEq, Repr

abbrev Call := StateT Machine (Except Stop)

def kalloc : Call (Option ℕ) := do
  let s ← get
  match s.freelist with
  | [] =>
    set { s with fails := s.fails.tail }
    return none
  | page :: rest =>
    if s.fails.headD false then
      set { s with fails := s.fails.tail }
      return none
    else
      set { s with freelist := rest, fails := s.fails.tail }
      return some page

def fill (page : ℕ) (bytes : Bytes) : Call Unit := do
  let s ← get
  set { s with mem := Function.update s.mem page bytes }

def load (page i : ℕ) : Call ℕ := do
  let s ← get
  return get32 (s.mem page) (4 * i)

def store (page i w : ℕ) : Call Unit := do
  let s ← get
  set { s with mem := Function.update s.mem page (set32 (s.mem page) (4 * i) w) }

def nextRun : List ℕ → ℕ
  | [] => 0
  | page :: _ => page * PGSIZE + KERNBASE

def kfree (L : Layout) (page : ℕ) : Call Unit := do
  if page * PGSIZE + KERNBASE < L.kernelEnd ∨ PHYSTOP ≤ page * PGSIZE then throw .kfree
  else
    let s ← get
    set { s with
      mem := Function.update s.mem page (set32 (fun _ => 1) 0 (nextRun s.freelist))
      freelist := page :: s.freelist }

def walkpgdir (pgdir va : ℕ) (alloc : Bool) : Call (Option (ℕ × ℕ)) := do
  let pde ← load pgdir (PDX va)
  if present pde then return some (PTE_ADDR pde / PGSIZE, PTX va)
  else if alloc = false then return none
  else
    match ← kalloc with
    | none => return none
    | some pgtab =>
      fill pgtab (fun _ => 0)
      store pgdir (PDX va) (pgtab * PGSIZE ||| PTE_P ||| PTE_W ||| PTE_U)
      return some (pgtab, PTX va)

def mapFrom (pgdir last perm : ℕ) : ℕ → ℕ → ℕ → Call Bool
  | 0, _, _ => throw .hang
  | fuel + 1, a, pa => do
    match ← walkpgdir pgdir a true with
    | none => return false
    | some (pgtab, i) =>
      let pte ← load pgtab i
      if present pte then throw .remap
      else
        store pgtab i (pa ||| perm ||| PTE_P)
        if a = last then return true
        else mapFrom pgdir last perm fuel ((a + PGSIZE) % 2 ^ 32) ((pa + PGSIZE) % 2 ^ 32)

def mappages (pgdir va size pa perm : ℕ) : Call Bool :=
  mapFrom pgdir (PGROUNDDOWN ((va + size + 2 ^ 32 - 1) % 2 ^ 32)) perm (2 ^ 20) (PGROUNDDOWN va) pa

def deallocFrom (L : Layout) (pgdir oldsz : ℕ) : ℕ → ℕ → Call Unit
  | 0, _ => throw .hang
  | fuel + 1, a =>
    if a < oldsz then do
      match ← walkpgdir pgdir a false with
      | none =>
        let a := (PGADDR (PDX a + 1) 0 0 + 2 ^ 32 - PGSIZE) % 2 ^ 32
        deallocFrom L pgdir oldsz fuel ((a + PGSIZE) % 2 ^ 32)
      | some (pgtab, i) =>
        let pte ← load pgtab i
        if present pte then
          if PTE_ADDR pte = 0 then throw .kfree
          else
            kfree L (PTE_ADDR pte / PGSIZE)
            store pgtab i 0
            deallocFrom L pgdir oldsz fuel ((a + PGSIZE) % 2 ^ 32)
        else deallocFrom L pgdir oldsz fuel ((a + PGSIZE) % 2 ^ 32)
    else return ()

def deallocuvm (L : Layout) (pgdir oldsz newsz : ℕ) : Call ℕ := do
  if newsz ≥ oldsz then return oldsz
  else
    deallocFrom L pgdir oldsz (2 ^ 20 + 1) (PGROUNDUP newsz)
    return newsz

def allocFrom (L : Layout) (pgdir oldsz newsz : ℕ) : ℕ → ℕ → Call ℕ
  | 0, _ => throw .hang
  | fuel + 1, a =>
    if a < newsz then do
      match ← kalloc with
      | none =>
        let _ ← deallocuvm L pgdir newsz oldsz
        return 0
      | some mem =>
        fill mem (fun _ => 0)
        if ← mappages pgdir a PGSIZE (mem * PGSIZE) (PTE_W ||| PTE_U) then
          allocFrom L pgdir oldsz newsz fuel ((a + PGSIZE) % 2 ^ 32)
        else
          let _ ← deallocuvm L pgdir newsz oldsz
          kfree L mem
          return 0
    else return newsz

def allocuvm (L : Layout) (pgdir oldsz newsz : ℕ) : Call ℕ := do
  if newsz ≥ KERNBASE then return 0
  else if newsz < oldsz then return oldsz
  else allocFrom L pgdir oldsz newsz (2 ^ 20 + 1) (PGROUNDUP oldsz)

def freeTables (L : Layout) (pgdir : ℕ) : List ℕ → Call Unit
  | [] => return ()
  | i :: is => do
    let pde ← load pgdir i
    if present pde then
      kfree L (PTE_ADDR pde / PGSIZE)
      freeTables L pgdir is
    else freeTables L pgdir is

def freevm (L : Layout) (pgdir : ℕ) : Call Unit := do
  let _ ← deallocuvm L pgdir KERNBASE 0
  freeTables L pgdir (List.range NPDENTRIES)
  kfree L pgdir

structure Kmap where
  virt : ℕ
  physStart : ℕ
  physEnd : ℕ
  perm : ℕ

def V2P (a : ℕ) : ℕ := a - KERNBASE

def kmap (L : Layout) : List Kmap :=
  [⟨KERNBASE, 0, EXTMEM, PTE_W⟩,
   ⟨KERNLINK, V2P KERNLINK, V2P L.data, 0⟩,
   ⟨L.data, V2P L.data, PHYSTOP, PTE_W⟩,
   ⟨DEVSPACE, DEVSPACE, 0, PTE_W⟩]

def mapKernel (pgdir : ℕ) : List Kmap → Call Bool
  | [] => return true
  | k :: ks => do
    if ← mappages pgdir k.virt ((k.physEnd + 2 ^ 32 - k.physStart) % 2 ^ 32) k.physStart k.perm then
      mapKernel pgdir ks
    else return false

def setupkvm (L : Layout) : Call (Option ℕ) := do
  match ← kalloc with
  | none => return none
  | some pgdir =>
    fill pgdir (fun _ => 0)
    if ← mapKernel pgdir (kmap L) then return some pgdir
    else
      freevm L pgdir
      return none

def copyFrom (L : Layout) (pgdir d sz : ℕ) : ℕ → ℕ → Call Bool
  | 0, _ => throw .hang
  | fuel + 1, i =>
    if i < sz then do
      match ← walkpgdir pgdir i false with
      | none => throw .copyuvmExist
      | some (pgtab, j) =>
        let pte ← load pgtab j
        if present pte = false then throw .copyuvmPresent
        else
          match ← kalloc with
          | none => return false
          | some mem =>
            let s ← get
            fill mem (s.mem (PTE_ADDR pte / PGSIZE))
            if ← mappages d i PGSIZE (mem * PGSIZE) (PTE_FLAGS pte) then
              copyFrom L pgdir d sz fuel ((i + PGSIZE) % 2 ^ 32)
            else
              kfree L mem
              return false
    else return true

def copyuvm (L : Layout) (pgdir sz : ℕ) : Call (Option ℕ) := do
  match ← setupkvm L with
  | none => return none
  | some d =>
    if ← copyFrom L pgdir d sz (2 ^ 20 + 1) 0 then return some d
    else
      freevm L d
      return none

end Xv6.Vm
