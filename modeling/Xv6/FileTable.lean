import Xv6.Params
import Xv6.Pipes
import Xv6.Runs
import Xv6.Counting

namespace Xv6.Files

open Xv6.Runs Xv6.Counting Function

inductive FileType where
  | FD_NONE
  | FD_PIPE
  | FD_INODE
  deriving DecidableEq, Repr

structure File where
  type : FileType
  ref : ℕ
  readable : Bool
  writable : Bool
  pipe : ℕ
  ip : ℕ
  off : ℕ
  deriving DecidableEq, Repr

def filealloc (file : ℕ → File) : Option ℕ := (List.range NFILE).find? fun f => (file f).ref = 0

inductive Call where
  | read (n : ℕ)
  | write (bytes : List ℕ)
  | fstat
  | dup
  | close
  deriving DecidableEq, Repr

/-- Where a thread is in `sys_read`, `sys_write`, `sys_fstat`, `sys_dup` or `sys_close`, from the file
that `argfd` found. `eax` is what the last call returned. -/
inductive Pc where
  | user (eax : ℤ)
  | fileread (f n : ℕ)
  | piperead (f p n : ℕ)
  | readSleep (f p n : ℕ)
  | readInode (f n : ℕ)
  | filewrite (f : ℕ) (bytes : List ℕ)
  | pipewrite (f p n : ℕ) (rest : List ℕ)
  | writeSleep (f p n : ℕ) (rest : List ℕ)
  | writeInode (f i n : ℕ)
  | filestat (f : ℕ)
  | statInode (f : ℕ)
  | fdalloc (f fd : ℕ)
  | fdstore (f : ℕ) (fd : Fin NOFILE)
  | filedup (f : ℕ) (fd : Fin NOFILE)
  | clear (f : ℕ) (fd : Fin NOFILE)
  | fileclose (f : ℕ)
  | pipeclose (p : ℕ) (writable : Bool)
  | iput (ip : ℕ)
  deriving DecidableEq, Repr

def Call.start (f : ℕ) (fd : Fin NOFILE) : Call → Pc
  | .read n => .fileread f n
  | .write bytes => .filewrite f bytes
  | .fstat => .filestat f
  | .dup => .fdalloc f 0
  | .close => .clear f fd

variable {Thread : Type} [DecidableEq Thread]

/-- One process and the table of open files. `shared` counts the references to a file that the other
processes hold; `pipes` has no value where no pipe is allocated. -/
structure State (Thread : Type) where
  file : ℕ → File
  pipes : ℕ → Option Pipe
  ofile : Fin NOFILE → Option ℕ
  killed : Bool
  pc : Thread → Pc
  shared : ℕ → ℕ

@[simps]
def State.goto (s : State Thread) (t : Thread) (pc : Pc) : State Thread :=
  { s with pc := Function.update s.pc t pc }

theorem goto_pcs (s : State Thread) (t : Thread) (pc : Pc) : (s.goto t pc).pc = update s.pc t pc := rfl

/-- The events of this process, then those of the others: `filealloc`, what `sys_open` and `pipealloc`
store in the files they took, `filedup`, `fileclose`, and the use of a pipe. -/
inductive Event (Thread : Type) where
  | syscall (t : Thread) (call : Call) (fd : ℤ)
  | badArgs (t : Thread)
  | run (t : Thread)
  | io (t : Thread) (r : ℤ)
  | wakeup (t : Thread)
  | kill
  | filealloc
  | openInode (f ip : ℕ) (readable writable : Bool)
  | pipealloc (f₀ f₁ p : ℕ)
  | filedup (f : ℕ)
  | fileclose (t : Thread) (f : ℕ)
  | piperead (p n : ℕ)
  | pipewrite (p : ℕ) (bytes : List ℕ)
  deriving DecidableEq, Repr

def argfd (ofile : Fin NOFILE → Option ℕ) (fd : ℤ) : Option (ℕ × Fin NOFILE) :=
  if h : 0 ≤ fd ∧ fd < NOFILE then
    let fd : Fin NOFILE := ⟨fd.toNat, by omega⟩
    (ofile fd).map (·, fd)
  else none

def fileclose (s : State Thread) (t : Thread) (f : ℕ) : Option (State Thread) :=
  let ff := s.file f
  if ff.ref < 1 then none
  else if ff.ref - 1 > 0 then
    some { s.goto t (.user 0) with file := Function.update s.file f { ff with ref := ff.ref - 1 } }
  else
    let s := { s with file := Function.update s.file f { ff with ref := 0, type := .FD_NONE } }
    some <| s.goto t <| match ff.type with
      | .FD_PIPE => .pipeclose ff.pipe ff.writable
      | .FD_INODE => .iput ff.ip
      | .FD_NONE => .user 0

def readDone (f p n : ℕ) : ReadResult → Pc
  | .returns v _ => .user v
  | .sleeps => .readSleep f p n

def writeDone (f p n : ℕ) : WriteResult → Pc
  | .returns v => .user v
  | .sleeps rest => .writeSleep f p n rest

def run (s : State Thread) (t : Thread) : Option (State Thread) :=
  match s.pc t with
  | .fileread f n =>
    if (s.file f).readable = false then some (s.goto t (.user (-1)))
    else
      match (s.file f).type with
      | .FD_PIPE => some (s.goto t (.piperead f (s.file f).pipe n))
      | .FD_INODE => some (s.goto t (.readInode f n))
      | .FD_NONE => none
  | .piperead f p n =>
    (s.pipes p).map fun pipe =>
      let r := piperead s.killed n pipe
      { s.goto t (readDone f p n r.2) with pipes := Function.update s.pipes p (some r.1) }
  | .filewrite f bytes =>
    if (s.file f).writable = false then some (s.goto t (.user (-1)))
    else
      match (s.file f).type with
      | .FD_PIPE => some (s.goto t (.pipewrite f (s.file f).pipe bytes.length bytes))
      | .FD_INODE => some (s.goto t (if bytes = [] then .user 0 else .writeInode f 0 bytes.length))
      | .FD_NONE => none
  | .pipewrite f p n rest =>
    (s.pipes p).map fun pipe =>
      let r := pipewrite s.killed n rest pipe
      { s.goto t (writeDone f p n r.2) with pipes := Function.update s.pipes p (some r.1) }
  | .filestat f => some (s.goto t (if (s.file f).type = .FD_INODE then .statInode f else .user (-1)))
  | .fdalloc f fd =>
    if h : fd < NOFILE then some (s.goto t (if s.ofile ⟨fd, h⟩ = none then .fdstore f ⟨fd, h⟩
      else .fdalloc f (fd + 1)))
    else some (s.goto t (.user (-1)))
  | .fdstore f fd => some { s.goto t (.filedup f fd) with ofile := Function.update s.ofile fd (some f) }
  | .filedup f fd =>
    if (s.file f).ref < 1 then none
    else
      let ff := s.file f
      some { s.goto t (.user fd.val) with file := Function.update s.file f { ff with ref := ff.ref + 1 } }
  | .clear f fd => some { s.goto t (.fileclose f) with ofile := Function.update s.ofile fd none }
  | .fileclose f => fileclose s t f
  | .pipeclose p writable =>
    (s.pipes p).map fun pipe =>
      { s.goto t (.user 0) with pipes := Function.update s.pipes p (pipeclose pipe writable) }
  | .iput _ => some (s.goto t (.user 0))
  | _ => none

def advance (s : State Thread) (f : ℕ) (r : ℤ) : State Thread :=
  { s with file := Function.update s.file f { s.file f with off := ((s.file f).off + r.toNat) % 2 ^ 32 } }

def chunk (i n : ℕ) : ℕ := min (n - i) ((MAXOPBLOCKS - 1 - 1 - 2) / 2 * 512)

def io (s : State Thread) (t : Thread) (r : ℤ) : Option (State Thread) :=
  match s.pc t with
  | .readInode f _ => some ((advance s f r).goto t (.user r))
  | .writeInode f i n =>
    let n₁ := chunk i n
    if r < 0 then some (s.goto t (.user (-1)))
    else if r ≠ n₁ then none
    else some ((advance s f r).goto t (if i + n₁ < n then .writeInode f (i + n₁) n else .user n))
  | .statInode _ => some (s.goto t (.user 0))
  | _ => none

def pipeFile (p : ℕ) (writable : Bool) (ff : File) : File :=
  { ff with type := .FD_PIPE, readable := !writable, writable := writable, pipe := p }

def newPipe : Pipe := ⟨fun _ => 0, 0, 0, true, true⟩

def fresh (s : State Thread) (f : ℕ) : Prop := (s.file f).type = .FD_NONE ∧ 0 < s.shared f

instance (s : State Thread) (f : ℕ) : Decidable (fresh s f) := inferInstanceAs (Decidable (_ ∧ _))

def step (s : State Thread) : Event Thread → Option (State Thread)
  | .syscall t call fd =>
    match s.pc t with
    | .user _ =>
      match argfd s.ofile fd with
      | some (f, fd) => some (s.goto t (call.start f fd))
      | none => some (s.goto t (.user (-1)))
    | _ => none
  | .badArgs t =>
    match s.pc t with
    | .fileread _ _ | .filewrite _ _ | .filestat _ => some (s.goto t (.user (-1)))
    | _ => none
  | .run t => run s t
  | .io t r => io s t r
  | .wakeup t =>
    match s.pc t with
    | .readSleep f p n => some (s.goto t (.piperead f p n))
    | .writeSleep f p n rest => some (s.goto t (.pipewrite f p n rest))
    | _ => none
  | .kill => some { s with killed := true }
  | .filealloc =>
    (filealloc s.file).map fun f =>
      { s with
        file := Function.update s.file f { s.file f with ref := 1 }
        shared := Function.update s.shared f 1 }
  | .openInode f ip readable writable =>
    if fresh s f then
      let ff := { s.file f with type := .FD_INODE, ip := ip, off := 0, readable := readable, writable := writable }
      some { s with file := Function.update s.file f ff }
    else none
  | .pipealloc f₀ f₁ p =>
    if fresh s f₀ ∧ fresh s f₁ ∧ f₀ ≠ f₁ ∧ (s.pipes p).isNone then
      some { s with
        pipes := Function.update s.pipes p (some newPipe)
        file := Function.update (Function.update s.file f₀ (pipeFile p false (s.file f₀))) f₁
          (pipeFile p true (s.file f₁)) }
    else none
  | .filedup f =>
    if 0 < s.shared f then
      some { s with
        file := Function.update s.file f { s.file f with ref := (s.file f).ref + 1 }
        shared := Function.update s.shared f (s.shared f + 1) }
    else none
  | .fileclose t f =>
    match s.pc t with
    | .user _ =>
      if 0 < s.shared f then fileclose { s with shared := Function.update s.shared f (s.shared f - 1) } t f
        else none
    | _ => none
  | .piperead p n =>
    (s.pipes p).map fun pipe => { s with pipes := Function.update s.pipes p (some (piperead false n pipe).1) }
  | .pipewrite p bytes =>
    (s.pipes p).map fun pipe =>
      { s with pipes := Function.update s.pipes p (some (pipewrite false bytes.length bytes pipe).1) }

end Xv6.Files
