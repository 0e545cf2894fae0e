import Mathlib.Data.List.FinRange
import Xv6.IdeDisk
import Xv6.Params

namespace Xv6.BufferCache

open Xv6.Runs

variable {n : ℕ} {Thread Data : Type}

section Links

/-- A `struct buf` of the list: `none` is `bcache.head`. -/
abbrev Node (n : ℕ) := Option (Fin n)

structure Links (n : ℕ) where
  next : Node n → Node n
  prev : Node n → Node n

def Links.pushFront (l : Links n) (b : Fin n) : Links n :=
  let next := Function.update l.next (some b) (l.next none)
  let prev := Function.update l.prev (some b) none
  let prev := Function.update prev (next none) (some b)
  ⟨Function.update next none (some b), prev⟩

def Links.unlink (l : Links n) (b : Fin n) : Links n :=
  let prev := Function.update l.prev (l.next (some b)) (l.prev (some b))
  ⟨Function.update l.next (prev (some b)) (l.next (some b)), prev⟩

def binit (n : ℕ) : Links n :=
  (List.finRange n).foldl Links.pushFront ⟨fun _ => none, fun _ => none⟩

def scan (link : Node n → Node n) (p : Fin n → Bool) : ℕ → Node n → Option (Option (Fin n))
  | 0, _ => none
  | _ + 1, none => some none
  | k + 1, some b => if p b then some (some b) else scan link p k (link (some b))

end Links

structure Buffer (Thread Data : Type) extends Ide.Buffer Data where
  refcnt : ℕ
  lock : Option Thread

inductive Reg where
  | lbuf
  | dbuf
deriving DecidableEq

inductive Pc (n : ℕ) where
  | idle
  | locking (b : Fin n) (r : Option Reg)
  | reading (b : Fin n) (r : Option Reg)
  | writing (b : Fin n)
  | releasing (b : Fin n)
deriving DecidableEq

inductive Call where
  | commit
  | writeLog (tail : ℕ)
  | writeHead
  | installTrans (tail : ℕ)
  | clear
  | bread (r : Reg) (blockno : ℕ)
  | memmove (dst src : Reg)
  | header (r : Reg)
  | bwrite (r : Reg)
  | brelse (r : Reg)
deriving DecidableEq

structure State (n : ℕ) (Thread Data : Type) where
  buf : Fin n → Buffer Thread Data
  links : Links n
  disk : Ide.Sectors Data
  pc : Thread → Pc n
  start : ℕ
  size : ℕ
  encode : List ℕ → Data
  lh : List ℕ
  outstanding : ℤ
  -- the thread in `commit`, when `log.committing`
  commit : Option (Thread × List Call)
  regs : Reg → Option (Fin n)
  -- the history: the contents of each logged block as last modified, the buffers with a change that neither
  -- `logWrite` nor `bwrite` has seen, and the blocks released with one
  logged : ℕ → Option Data
  unsaved : Fin n → Bool
  slipped : ℕ → Bool

inductive Event (n : ℕ) (Thread Data : Type) where
  | bread (t : Thread) (blockno : ℕ)
  | bwrite (t : Thread) (b : Fin n)
  | brelse (t : Thread) (b : Fin n)
  | logWrite (t : Thread) (b : Fin n)
  | edit (t : Thread) (b : Fin n) (data : Data)
  | beginOp (t : Thread)
  | endOp (t : Thread)
  | run (t : Thread)

variable [DecidableEq Thread]

def bget (s : State n Thread Data) (t : Thread) (blockno : ℕ) (r : Option Reg) : Option (State n Thread Data) :=
  (scan s.links.next (fun b => (s.buf b).dev = 1 ∧ (s.buf b).blockno = blockno) (n + 1)
    (s.links.next none)).bind fun
    | some b => some { s with
        buf := Function.update s.buf b { s.buf b with refcnt := (s.buf b).refcnt + 1 }
        pc := Function.update s.pc t (.locking b r) }
    | none =>
      (scan s.links.prev (fun b => (s.buf b).refcnt = 0 ∧ (s.buf b).dirty = false) (n + 1)
        (s.links.prev none)).bind fun
        | some b => some { s with
            buf := Function.update s.buf b { s.buf b with
              dev := 1, blockno := blockno, valid := false, dirty := false, refcnt := 1 }
            pc := Function.update s.pc t (.locking b r)
            unsaved := Function.update s.unsaved b false }
        | none => none

def bwrite (s : State n Thread Data) (t : Thread) (b : Fin n) : Option (State n Thread Data) :=
  if (s.buf b).lock = some t then
    some { s with
      buf := Function.update s.buf b { s.buf b with dirty := true }
      pc := Function.update s.pc t (.writing b)
      unsaved := Function.update s.unsaved b false }
  else none

def brelse (s : State n Thread Data) (t : Thread) (b : Fin n) : Option (State n Thread Data) :=
  if (s.buf b).lock = some t then
    some { s with
      buf := Function.update s.buf b { s.buf b with lock := none }
      pc := Function.update s.pc t (.releasing b)
      slipped := if s.unsaved b then Function.update s.slipped (s.buf b).blockno true else s.slipped }
  else none

def logWrite (s : State n Thread Data) (b : Fin n) : Option (State n Thread Data) :=
  if LOGSIZE ≤ s.lh.length ∨ s.size - 1 ≤ s.lh.length then none
  else if s.outstanding < 1 then none
  else
    some { s with
      lh := if (s.buf b).blockno ∈ s.lh then s.lh else s.lh ++ [(s.buf b).blockno]
      buf := Function.update s.buf b { s.buf b with dirty := true }
      logged := Function.update s.logged (s.buf b).blockno (some (s.buf b).data)
      unsaved := Function.update s.unsaved b false
      slipped := Function.update s.slipped (s.buf b).blockno false }

def edit (s : State n Thread Data) (b : Fin n) (data : Data) : State n Thread Data :=
  { s with
    buf := Function.update s.buf b { s.buf b with data := data }
    logged := Function.update s.logged (s.buf b).blockno ((s.logged (s.buf b).blockno).map fun _ => data)
    unsaved := Function.update s.unsaved b (s.unsaved b || !(s.buf b).dirty) }

def State.assign (s : State n Thread Data) (r : Option Reg) (b : Fin n) : State n Thread Data :=
  match r with
  | none => s
  | some r => { s with regs := Function.update s.regs r (some b) }

def iderw (s : State n Thread Data) (t : Thread) (b : Fin n) : Option (State n Thread Data) :=
  (Ide.memideIderw s.disk (s.buf b).toBuffer).map fun (disk, v) =>
    { s with
      disk := disk
      buf := Function.update s.buf b { s.buf b with toBuffer := v }
      pc := Function.update s.pc t .idle }

def State.push (s : State n Thread Data) (t : Thread) (calls : List Call) : State n Thread Data :=
  { s with commit := some (t, calls) }

def runCommit (s : State n Thread Data) (t : Thread) : List Call → Option (State n Thread Data)
  | [] => some { s with commit := none }
  | .commit :: rest =>
    if 0 < s.lh.length then some (s.push t (.writeLog 0 :: .writeHead :: .installTrans 0 ::
      .clear :: .writeHead :: rest))
    else some (s.push t rest)
  | .writeLog tail :: rest =>
    match s.lh[tail]? with
    | some blockno =>
      some (s.push t (.bread .lbuf (s.start + tail + 1) :: .bread .dbuf blockno :: .memmove .lbuf .dbuf ::
        .bwrite .lbuf :: .brelse .dbuf :: .brelse .lbuf :: .writeLog (tail + 1) :: rest))
    | none => some (s.push t rest)
  | .writeHead :: rest =>
    some (s.push t (.bread .lbuf s.start :: .header .lbuf :: .bwrite .lbuf :: .brelse .lbuf :: rest))
  | .installTrans tail :: rest =>
    match s.lh[tail]? with
    | some blockno =>
      some (s.push t (.bread .lbuf (s.start + tail + 1) :: .bread .dbuf blockno :: .memmove .dbuf .lbuf ::
        .bwrite .dbuf :: .brelse .lbuf :: .brelse .dbuf :: .installTrans (tail + 1) :: rest))
    | none => some (s.push t rest)
  | .clear :: rest => some { s.push t rest with lh := [], logged := fun _ => none }
  | .bread r blockno :: rest => bget (s.push t rest) t blockno (some r)
  | .memmove dst src :: rest =>
    (s.regs dst).bind fun d => (s.regs src).map fun f => edit (s.push t rest) d (s.buf f).data
  | .header r :: rest => (s.regs r).map fun b => edit (s.push t rest) b (s.encode s.lh)
  | .bwrite r :: rest => (s.regs r).bind fun b => bwrite (s.push t rest) t b
  | .brelse r :: rest => (s.regs r).bind fun b => brelse (s.push t rest) t b

def run (s : State n Thread Data) (t : Thread) : Pc n → Option (State n Thread Data)
  | .idle =>
    match s.commit with
    | some (u, calls) => if u = t then runCommit s t calls else none
    | none => none
  | .locking b r =>
    if (s.buf b).lock = none then
      let s₁ := { s with buf := Function.update s.buf b { s.buf b with lock := some t } }
      if (s.buf b).valid then some ({ s₁ with pc := Function.update s.pc t .idle }.assign r b)
      else some { s₁ with pc := Function.update s.pc t (.reading b r) }
    else none
  | .reading b r => (iderw s t b).map fun s => s.assign r b
  | .writing b => iderw s t b
  | .releasing b =>
    some { s with
      buf := Function.update s.buf b { s.buf b with refcnt := (s.buf b).refcnt - 1 }
      links := if (s.buf b).refcnt - 1 = 0 then (s.links.unlink b).pushFront b else s.links
      pc := Function.update s.pc t .idle }

def State.free (s : State n Thread Data) (t : Thread) : Bool :=
  s.pc t = .idle ∧ s.commit.map Prod.fst ≠ some t

def step (s : State n Thread Data) : Event n Thread Data → Option (State n Thread Data)
  | .bread t blockno => if s.free t then bget s t blockno none else none
  | .bwrite t b => if s.free t then bwrite s t b else none
  | .brelse t b => if s.free t then brelse s t b else none
  | .logWrite t b => if s.free t ∧ (s.buf b).lock = some t then logWrite s b else none
  | .edit t b data => if s.free t ∧ (s.buf b).lock = some t then some (edit s b data) else none
  | .beginOp t =>
    if s.free t ∧ s.commit = none ∧ s.lh.length + (s.outstanding + 1) * MAXOPBLOCKS ≤ LOGSIZE then
      some { s with outstanding := s.outstanding + 1 }
    else none
  | .endOp t =>
    if s.free t ∧ s.commit = none then
      some { s with
        outstanding := s.outstanding - 1
        commit := if s.outstanding - 1 = 0 then some (t, [.commit]) else none }
    else none
  | .run t => run s t (s.pc t)

def boot (n : ℕ) (start size : ℕ) (encode : List ℕ → Data) (disk : Ide.Sectors Data) : State n Thread Data where
  buf := fun _ => ⟨⟨false, false, 0, 0, disk 0⟩, 0, none⟩
  links := binit n
  disk := disk
  pc := fun _ => .idle
  start := start
  size := size
  encode := encode
  lh := []
  outstanding := 0
  commit := none
  regs := fun _ => none
  logged := fun _ => none
  unsaved := fun _ => false
  slipped := fun _ => false

end Xv6.BufferCache
