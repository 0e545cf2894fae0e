import Xv6.Params
import Xv6.Runs
import Mathlib.Algebra.Group.Int.Defs
import Mathlib.Algebra.Group.Nat.Defs
import Mathlib.Data.List.FinRange

namespace Xv6.FileSystem

open Xv6.Runs

def NINODES : ℕ := 200

def ROOTINO : ℕ := 1

def DIRSIZ : ℕ := 14

def BSIZE : ℕ := 512

def NDIRECT : ℕ := 12

def NINDIRECT : ℕ := BSIZE / 4

def MAXFILE : ℕ := NDIRECT + NINDIRECT

abbrev Name := List Char

def dot : Name := ['.']

def dotdot : Name := ['.', '.']

inductive FileType
  | free
  | dir
  | file
  | dev
  deriving DecidableEq

structure Dirent where
  inum : ℕ
  name : Name
  deriving DecidableEq, Inhabited

def Dirent.zero : Dirent := ⟨0, []⟩

/-- A disk inode. The inode cache is written through, so that the copy there is the same while it is valid. -/
structure Dinode where
  type : FileType
  major : ℤ
  minor : ℤ
  nlink : ℤ
  size : ℕ
  entries : List Dirent

def short (x : ℤ) : ℤ := (x + 2 ^ 15) % 2 ^ 16 - 2 ^ 15

def blocks (size : ℕ) : ℕ :=
  let n := (size + BSIZE - 1) / BSIZE
  if n > NDIRECT then n + 1 else n

structure Icache where
  ref : ℕ → ℕ
  valid : ℕ → Bool
  locked : ℕ → Bool
  used : ℕ

structure File where
  ref : ℕ
  ip : Option ℕ

structure Proc where
  cwd : ℕ
  ofile : ℕ → Option (Fin NFILE)

structure State where
  inode : ℕ → Dinode
  freeBlocks : ℕ
  icache : Icache
  file : Fin NFILE → File
  proc : Fin NPROC → Option Proc

inductive Stop
  | igetNoInodes
  | iallocNoInodes
  | ballocOutOfBlocks
  | ilock
  | ilockNoType
  | iunlock
  | dirlookupNotDir
  | dirlink
  | unlinkNlink
  | unlinkWritei
  | createDots
  | createDirlink
  | filedup
  | fileclose
  | initExiting
  -- A process waits for a lock that it holds.
  | deadlock
  deriving DecidableEq

abbrev M := StateT State (Except Stop)

def State.setInode (s : State) (inum : ℕ) (ip : Dinode) :
    State := { s with inode := Function.update s.inode inum ip }

def State.setIcache (s : State) (c : Icache) : State := { s with icache := c }

def Icache.incr (c : Icache) (inum : ℕ) : Icache := { c with ref := Function.update c.ref inum (c.ref inum + 1) }

def Icache.recycle (c : Icache) (inum : ℕ) : Icache where
  ref := Function.update c.ref inum 1
  valid := Function.update c.valid inum false
  locked := c.locked
  used := c.used + 1

def Icache.decr (c : Icache) (inum : ℕ) : Icache :=
  { c with
    ref := Function.update c.ref inum (c.ref inum - 1)
    used := if c.ref inum = 1 then c.used - 1 else c.used }

def Icache.setValid (c : Icache) (inum : ℕ) (v : Bool) :
    Icache := { c with valid := Function.update c.valid inum v }

def Icache.setLocked (c : Icache) (inum : ℕ) (v : Bool) :
    Icache := { c with locked := Function.update c.locked inum v }

def iget (inum : ℕ) : M Unit := do
  let s ← get
  if s.icache.ref inum > 0 then set (s.setIcache (s.icache.incr inum))
  else if s.icache.used ≥ NINODE then throw .igetNoInodes
  else set (s.setIcache (s.icache.recycle inum))

def idup (inum : ℕ) : M Unit := do
  let s ← get
  set (s.setIcache (s.icache.incr inum))

def ilock (inum : ℕ) : M Unit := do
  let s ← get
  if s.icache.ref inum < 1 then throw .ilock
  else if s.icache.locked inum then throw .deadlock
  else if s.icache.valid inum then set (s.setIcache (s.icache.setLocked inum true))
  else if (s.inode inum).type = .free then throw .ilockNoType
  else set (s.setIcache ((s.icache.setLocked inum true).setValid inum true))

def iunlock (inum : ℕ) : M Unit := do
  let s ← get
  if !s.icache.locked inum ∨ s.icache.ref inum < 1 then throw .iunlock
  else set (s.setIcache (s.icache.setLocked inum false))

def State.ifree (s : State) (inum : ℕ) : State :=
  { s.setInode inum { s.inode inum with type := .free, size := 0, entries := [] } with
    freeBlocks := s.freeBlocks + blocks (s.inode inum).size
    icache := s.icache.setValid inum false }

def iput (inum : ℕ) : M Unit := do
  let s ← get
  if s.icache.locked inum then throw .deadlock
  else if s.icache.valid inum ∧ (s.inode inum).nlink = 0 ∧ s.icache.ref inum = 1 then
    set ((s.ifree inum).setIcache ((s.ifree inum).icache.decr inum))
  else set (s.setIcache (s.icache.decr inum))

def iunlockput (inum : ℕ) : M Unit := do
  iunlock inum
  iput inum

def ialloc (type : FileType) : M ℕ := do
  let s ← get
  match (List.range' 1 (NINODES - 1)).find? fun inum => (s.inode inum).type = .free with
  | none => throw .iallocNoInodes
  | some inum => do
    set (s.setInode inum ⟨type, 0, 0, 0, 0, []⟩)
    iget inum
    pure inum

def balloc (n : ℕ) : M Unit := do
  let s ← get
  if s.freeBlocks < n then throw .ballocOutOfBlocks
  else set { s with freeBlocks := s.freeBlocks - n }

def Dinode.lookup (dp : Dinode) (name : Name) : Option (ℕ × ℕ) :=
  (dp.entries.findIdx? fun de => de.inum ≠ 0 ∧ de.name = name).map fun off =>
  ((dp.entries.getD off default).inum, off)

def dirlookup (dp : ℕ) (name : Name) : M (Option (ℕ × ℕ)) := do
  let s ← get
  if (s.inode dp).type ≠ .dir then throw .dirlookupNotDir
  else match (s.inode dp).lookup name with
    | none => pure none
    | some (inum, off) => do
      iget inum
      pure (some (inum, off))

def writeDirent (dp off : ℕ) (de : Dirent) : M Bool := do
  let s ← get
  if (off + 1) * 16 > MAXFILE * BSIZE then pure false
  else if off < (s.inode dp).entries.length then do
    set (s.setInode dp { s.inode dp with entries := (s.inode dp).entries.set off de })
    pure true
  else do
    balloc (blocks ((off + 1) * 16) - blocks (s.inode dp).size)
    let s ← get
    set (s.setInode dp { s.inode dp with size := (off + 1) * 16, entries := (s.inode dp).entries ++ [de] })
    pure true

def dirlink (dp : ℕ) (name : Name) (inum : ℕ) : M Bool := do
  match ← dirlookup dp name with
  | some (ip, _) => do
    iput ip
    pure false
  | none => do
    let s ← get
    if ← writeDirent dp ((s.inode dp).entries.findIdx fun de => de.inum = 0)
      ⟨inum, name.take DIRSIZ⟩ then pure true
    else throw .dirlink

def skipelem (path : List Char) : Option (Name × List Char) :=
  match path.dropWhile (· = '/') with
  | [] => none
  | path => some ((path.takeWhile (· ≠ '/')).take DIRSIZ, (path.dropWhile (· ≠ '/')).dropWhile (· = '/'))

def elems : ℕ → List Char → List Name
  | 0, _ => []
  | fuel + 1, path =>
    match skipelem path with
    | none => []
    | some (name, path) => name :: elems fuel path

def namex (nameiparent : Bool) : ℕ → List Name → M (Option (ℕ × Name))
  | ip, [] =>
    if nameiparent then do
      iput ip
      pure none
    else pure (some (ip, []))
  | ip, name :: path => do
    ilock ip
    let s ← get
    if (s.inode ip).type ≠ .dir then do
      iunlockput ip
      pure none
    else if nameiparent ∧ path = [] then do
      iunlock ip
      pure (some (ip, name))
    else match ← dirlookup ip name with
      | none => do
        iunlockput ip
        pure none
      | some (next, _) => do
        iunlockput ip
        namex nameiparent next path

def namexFrom (nameiparent : Bool) (cwd : ℕ) (path : List Char) : M (Option (ℕ × Name)) := do
  if path.head? = some '/' then do
    iget ROOTINO
    namex nameiparent ROOTINO (elems path.length path)
  else do
    idup cwd
    namex nameiparent cwd (elems path.length path)

def namei (cwd : ℕ) (path : List Char) : M (Option ℕ) := do
  match ← namexFrom false cwd path with
  | none => pure none
  | some (ip, _) => pure (some ip)

def nameiparent (cwd : ℕ) (path : List Char) : M (Option (ℕ × Name)) := namexFrom true cwd path

def iupdate (inum : ℕ) (f : Dinode → Dinode) : M Unit := do
  let s ← get
  set (s.setInode inum (f (s.inode inum)))

def sysLink (cwd : ℕ) (old new : List Char) : M ℤ := do
  match ← namei cwd old with
  | none => pure (-1)
  | some ip => do
    ilock ip
    let s ← get
    if (s.inode ip).type = .dir then do
      iunlockput ip
      pure (-1)
    else do
      iupdate ip fun x => { x with nlink := short (x.nlink + 1) }
      iunlock ip
      let linked ← (do
        match ← nameiparent cwd new with
        | none => pure false
        | some (dp, name) => do
          ilock dp
          let linked ← dirlink dp name ip
          iunlockput dp
          pure linked)
      if linked then do
        iput ip
        pure 0
      else do
        ilock ip
        iupdate ip fun x => { x with nlink := short (x.nlink - 1) }
        iunlockput ip
        pure (-1)

def isdirempty (dp : Dinode) : Bool := (dp.entries.drop 2).all fun de => de.inum = 0

def sysUnlink (cwd : ℕ) (path : List Char) : M ℤ := do
  match ← nameiparent cwd path with
  | none => pure (-1)
  | some (dp, name) => do
    ilock dp
    if name = dot ∨ name = dotdot then do
      iunlockput dp
      pure (-1)
    else match ← dirlookup dp name with
      | none => do
        iunlockput dp
        pure (-1)
      | some (ip, off) => do
        ilock ip
        let s ← get
        if (s.inode ip).nlink < 1 then throw .unlinkNlink
        else if (s.inode ip).type = .dir ∧ !isdirempty (s.inode ip) then do
          iunlockput ip
          iunlockput dp
          pure (-1)
        else do
          if ← writeDirent dp off .zero then do
            if (s.inode ip).type = .dir then iupdate dp fun x => { x with nlink := short (x.nlink - 1) }
            iunlockput dp
            iupdate ip fun x => { x with nlink := short (x.nlink - 1) }
            iunlockput ip
            pure 0
          else throw .unlinkWritei

def create (cwd : ℕ) (path : List Char) (type : FileType) (major minor : ℤ) : M (Option ℕ) := do
  match ← nameiparent cwd path with
  | none => pure none
  | some (dp, name) => do
    ilock dp
    match ← dirlookup dp name with
    | some (ip, _) => do
      iunlockput dp
      ilock ip
      let s ← get
      if type = .file ∧ (s.inode ip).type = .file then pure (some ip)
      else do
        iunlockput ip
        pure none
    | none => do
      let ip ← ialloc type
      ilock ip
      iupdate ip fun x => { x with major := short major, minor := short minor, nlink := 1 }
      if type = .dir then do
        iupdate dp fun x => { x with nlink := short (x.nlink + 1) }
        if !(← dirlink ip dot ip) then throw .createDots
        else if !(← dirlink ip dotdot dp) then throw .createDots
        else pure ()
      if !(← dirlink dp name ip) then throw .createDirlink
      else do
        iunlockput dp
        pure (some ip)

def fileclose (f : Fin NFILE) : M Unit := do
  let s ← get
  if (s.file f).ref < 1 then throw .fileclose
  else if (s.file f).ref > 1 then
    set { s with file := Function.update s.file f { s.file f with ref := (s.file f).ref - 1 } }
  else do
    set { s with file := Function.update s.file f ⟨0, none⟩ }
    match (s.file f).ip with
    | some ip => iput ip
    | none => pure ()

def filedup (f : Fin NFILE) : M Unit := do
  let s ← get
  if (s.file f).ref < 1 then throw .filedup
  else set { s with file := Function.update s.file f { s.file f with ref := (s.file f).ref + 1 } }

def State.setProc (s : State) (p : Fin NPROC) (x : Option Proc) :
    State := { s with proc := Function.update s.proc p x }

def O_CREATE (omode : ℕ) : Bool := omode.testBit 9

def openFile (p : Fin NPROC) (x : Proc) (ip : ℕ) : M ℤ := do
  let s ← get
  match (List.finRange NFILE).find? fun f => (s.file f).ref = 0 with
  | none => do
    iunlockput ip
    pure (-1)
  | some f => do
    set { s with file := Function.update s.file f ⟨1, none⟩ }
    match (List.range NOFILE).find? fun fd => x.ofile fd = none with
    | none => do
      fileclose f
      iunlockput ip
      pure (-1)
    | some fd => do
      iunlock ip
      let s ← get
      set ({ s with file := Function.update s.file f ⟨1, some ip⟩ }.setProc p
        (some { x with ofile := Function.update x.ofile fd (some f) }))
      pure fd

def sysOpen (p : Fin NPROC) (x : Proc) (path : List Char) (omode : ℕ) : M ℤ := do
  if O_CREATE omode then
    match ← create x.cwd path .file 0 0 with
    | none => pure (-1)
    | some ip => openFile p x ip
  else
    match ← namei x.cwd path with
    | none => pure (-1)
    | some ip => do
      ilock ip
      let s ← get
      if (s.inode ip).type = .dir ∧ omode ≠ 0 then do
        iunlockput ip
        pure (-1)
      else openFile p x ip

def sysCreate (x : Proc) (path : List Char) (type : FileType) (major minor : ℤ) : M ℤ := do
  match ← create x.cwd path type major minor with
  | none => pure (-1)
  | some ip => do
    iunlockput ip
    pure 0

def sysMkdir (x : Proc) (path : List Char) : M ℤ := sysCreate x path .dir 0 0

def sysMknod (x : Proc) (path : List Char) (major minor : ℤ) : M ℤ := sysCreate x path .dev major minor

def sysChdir (p : Fin NPROC) (x : Proc) (path : List Char) : M ℤ := do
  match ← namei x.cwd path with
  | none => pure (-1)
  | some ip => do
    ilock ip
    let s ← get
    if (s.inode ip).type ≠ .dir then do
      iunlockput ip
      pure (-1)
    else do
      iunlock ip
      iput x.cwd
      let s ← get
      set (s.setProc p (some { x with cwd := ip }))
      pure 0

def sysClose (p : Fin NPROC) (x : Proc) (fd : ℕ) : M ℤ := do
  if fd ≥ NOFILE then pure (-1)
  else match x.ofile fd with
    | none => pure (-1)
    | some f => do
      let s ← get
      set (s.setProc p (some { x with ofile := Function.update x.ofile fd none }))
      fileclose f
      pure 0

def fork (x : Proc) (child : Fin NPROC) : M ℤ := do
  let s ← get
  if (s.proc child).isSome then pure (-1)
  else do
    (List.range NOFILE).forM fun fd => match x.ofile fd with
      | some f => filedup f
      | none => pure ()
    idup x.cwd
    let s ← get
    set (s.setProc child (some x))
    pure 0

def initproc : Fin NPROC := ⟨0, by decide⟩

def exit (p : Fin NPROC) (x : Proc) : M ℤ := do
  if p = initproc then throw .initExiting
  else do
    (List.range NOFILE).forM fun fd => match x.ofile fd with
      | some f => fileclose f
      | none => pure ()
    iput x.cwd
    let s ← get
    set (s.setProc p none)
    pure 0

inductive Call
  | sysOpen (path : List Char) (omode : ℕ)
  | sysMkdir (path : List Char)
  | sysMknod (path : List Char) (major minor : ℤ)
  | sysLink (old new : List Char)
  | sysUnlink (path : List Char)
  | sysChdir (path : List Char)
  | sysClose (fd : ℕ)
  | fork (child : Fin NPROC)
  | exit

def call (p : Fin NPROC) (x : Proc) : Call → M ℤ
  | .sysOpen path omode => sysOpen p x path omode
  | .sysMkdir path => sysMkdir x path
  | .sysMknod path major minor => sysMknod x path major minor
  | .sysLink old new => sysLink x.cwd old new
  | .sysUnlink path => sysUnlink x.cwd path
  | .sysChdir path => sysChdir p x path
  | .sysClose fd => sysClose p x fd
  | .fork child => fork x child
  | .exit => exit p x

structure System where
  state : State
  stopped : Option Stop

def step (s : System) (e : Fin NPROC × Call) : Option System :=
  match s.stopped, s.state.proc e.1 with
  | none, some x =>
    match (call e.1 x e.2).run s.state with
    | .ok (_, state) => some ⟨state, none⟩
    | .error stop => some ⟨s.state, some stop⟩
  | _, _ => none

end Xv6.FileSystem
