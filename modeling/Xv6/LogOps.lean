import Xv6.LogDisk
import Mathlib.Data.Finset.Card

namespace Xv6.LogOps

open Xv6.Log Xv6.Runs

inductive CommitPc
  | start
  | writeLog (tail : ℕ)
  | writeHead
  | installTrans (tail : ℕ)
  | clear
  | clearHead
  | done

inductive Pc
  | user
  | beginOp
  | sleeps
  | op
  | logWrite (b : ℕ)
  | logWriteTrans (b : ℕ)
  | logWriteLocked (b : ℕ)
  | endOp
  | commit (pc : CommitPc)

inductive Stop
  | tooBig
  | outside
  | committing
  -- `logWrite` stores past the end of `lh.block`
  | overflow
  deriving DecidableEq

structure Commit where
  copied : List ℕ
  head : List ℕ
  installed : List ℕ

def Commit.empty : Commit := ⟨[], [], []⟩

structure Op where
  began : ℕ
  blocks : Finset ℕ

structure Ended extends Op where
  ended : ℕ

structure State (Thread : Type) where
  pc : Thread → Pc
  outstanding : ℤ
  committing : Bool
  blocks : List ℕ
  stopped : Option Stop
  -- The rest is not in the source: it says what was logged and committed.
  op : Thread → Op
  ended : List Ended
  current : Commit
  commits : List Commit

inductive Event (Thread : Type)
  | beginOp (t : Thread)
  | logWrite (t : Thread) (b : ℕ)
  | endOp (t : Thread)
  | run (t : Thread)

variable {Thread : Type} [DecidableEq Thread]

def State.goto (s : State Thread) (t : Thread) (pc : Pc) : State Thread :=
  { s with pc := Function.update s.pc t pc }

def State.stop (s : State Thread) (x : Stop) : State Thread := { s with stopped := some x }

def Pc.wake : Pc → Pc
  | .sleeps => .beginOp
  | pc => pc

def State.wakeup (s : State Thread) : State Thread := { s with pc := fun t => (s.pc t).wake }

def beginOp (s : State Thread) (t : Thread) : State Thread :=
  if s.committing then s.goto t .sleeps
  else if s.blocks.length + (s.outstanding + 1) * MAXOPBLOCKS > LOGSIZE then s.goto t .sleeps
  else { s.goto t .op with
    outstanding := s.outstanding + 1
    op := Function.update s.op t ⟨s.commits.length, ∅⟩ }

def logWriteLocked (s : State Thread) (t : Thread) (b : ℕ) : State Thread :=
  if b ∉ s.blocks ∧ s.blocks.length ≥ LOGSIZE then s.stop .overflow
  else { s.goto t .op with
    blocks := absorb s.blocks b
    op := Function.update s.op t { s.op t with blocks := insert b (s.op t).blocks } }

def endOp (s : State Thread) (t : Thread) : State Thread :=
  if s.committing then State.stop { s with outstanding := s.outstanding - 1 } .committing
  else
    let s' : State Thread := { s with
      outstanding := s.outstanding - 1
      ended := s.ended ++ [⟨s.op t, s.commits.length⟩] }
    if s.outstanding - 1 = 0 then { s'.goto t (.commit .start) with committing := true }
    else s'.wakeup.goto t .user

def commitTurn (blocks : List ℕ) (c : Commit) : CommitPc → Option (CommitPc × List ℕ × Commit)
  | .start => if blocks.length > 0 then some (.writeLog 0, blocks, c) else some (.done, blocks, c)
  | .writeLog tail =>
    match blocks[tail]? with
    | some b => some (.writeLog (tail + 1), blocks, { c with copied := c.copied ++ [b] })
    | none => some (.writeHead, blocks, c)
  | .writeHead => some (.installTrans 0, blocks, { c with head := blocks })
  | .installTrans tail =>
    match blocks[tail]? with
    | some b => some (.installTrans (tail + 1), blocks, { c with installed := c.installed ++ [b] })
    | none => some (.clear, blocks, c)
  | .clear => some (.clearHead, [], c)
  | .clearHead => some (.done, blocks, c)
  | .done => none

def commit (s : State Thread) (t : Thread) (pc : CommitPc) : State Thread :=
  match commitTurn s.blocks s.current pc with
  | some (pc', blocks, current) => { s.goto t (.commit pc') with blocks := blocks, current := current }
  -- The second region of `endOp`.
  | none =>
    let s' : State Thread := { s with
      committing := false
      commits := s.commits ++ [s.current]
      current := .empty }
    s'.wakeup.goto t .user

def run (size : ℕ) (s : State Thread) (t : Thread) : Option (State Thread) :=
  match s.pc t with
  | .beginOp => some (beginOp s t)
  | .logWrite b =>
    if s.blocks.length ≥ LOGSIZE ∨ (s.blocks.length : ℤ) ≥ size - 1 then some (s.stop .tooBig)
    else some (s.goto t (.logWriteTrans b))
  | .logWriteTrans b => if s.outstanding < 1 then some (s.stop .outside) else some (s.goto t (.logWriteLocked b))
  | .logWriteLocked b => some (logWriteLocked s t b)
  | .endOp => some (endOp s t)
  | .commit pc => some (commit s t pc)
  | _ => none

def step (size : ℕ) (s : State Thread) (e : Event Thread) : Option (State Thread) :=
  if s.stopped.isSome then none
  else match e with
    | .beginOp t => match s.pc t with
      | .user => some (s.goto t .beginOp)
      | _ => none
    | .logWrite t b => match s.pc t with
      | .op => some (s.goto t (.logWrite b))
      | _ => none
    | .endOp t => match s.pc t with
      | .op => some (s.goto t .endOp)
      | _ => none
    | .run t => run size s t

def boot : State Thread where
  pc := fun _ => .user
  outstanding := 0
  committing := false
  blocks := []
  stopped := none
  op := fun _ => ⟨0, ∅⟩
  ended := []
  current := .empty
  commits := []

end Xv6.LogOps
