import Mathlib.Algebra.Group.Int.Defs
import Mathlib.Algebra.Group.Nat.Defs
import Mathlib.Logic.Function.Basic
import Mathlib.Tactic.SplitIfs

namespace Xv6.Files

def PIPESIZE : ℕ := 512

structure Pipe where
  data : ℕ → ℕ
  nread : ℕ
  nwrite : ℕ
  readopen : Bool
  writeopen : Bool

def Pipe.full (p : Pipe) : Bool := p.nwrite = (p.nread + PIPESIZE) % 2 ^ 32

def Pipe.put (p : Pipe) (byte : ℕ) : Pipe :=
  { p with data := Function.update p.data (p.nwrite % PIPESIZE) byte, nwrite := (p.nwrite + 1) % 2 ^ 32 }

inductive WriteResult where
  | returns (value : ℤ)
  | sleeps (rest : List ℕ)
  deriving DecidableEq, Repr

def pipewrite (killed : Bool) (n : ℕ) : List ℕ → Pipe → Pipe × WriteResult
  | [], p => (p, .returns n)
  | byte :: rest, p =>
    if p.full then (p, if p.readopen = false ∨ killed then .returns (-1) else .sleeps (byte :: rest))
    else pipewrite killed n rest (p.put byte)

def pipereadCopy : ℕ → Pipe → Pipe × List ℕ
  | 0, p => (p, [])
  | n + 1, p =>
    if p.nread = p.nwrite then (p, [])
    else
      let (p', bytes) := pipereadCopy n { p with nread := (p.nread + 1) % 2 ^ 32 }
      (p', p.data (p.nread % PIPESIZE) :: bytes)

inductive ReadResult where
  | returns (value : ℤ) (bytes : List ℕ)
  | sleeps
  deriving DecidableEq, Repr

def piperead (killed : Bool) (n : ℕ) (p : Pipe) : Pipe × ReadResult :=
  if p.nread = p.nwrite ∧ p.writeopen then (p, if killed then .returns (-1) [] else .sleeps)
  else
    let (p', bytes) := pipereadCopy n p
    (p', .returns bytes.length bytes)

def pipeclose (p : Pipe) (writable : Bool) : Option Pipe :=
  let p := if writable then { p with writeopen := false } else { p with readopen := false }
  if p.readopen = false ∧ p.writeopen = false then none else some p

def Pipe.openEnd (p : Pipe) (writable : Bool) : Bool := if writable then p.writeopen else p.readopen

theorem pipewrite_openEnd (killed : Bool) (n : ℕ) (bytes : List ℕ) (p : Pipe) (w : Bool) :
    (pipewrite killed n bytes p).1.openEnd w = p.openEnd w := by
  induction bytes generalizing p with
  | nil => rfl
  | cons byte rest ih =>
    unfold pipewrite
    split
    · rfl
    · exact ih (p.put byte)

theorem pipereadCopy_openEnd (n : ℕ) (p : Pipe) (w : Bool) : (pipereadCopy n p).1.openEnd w = p.openEnd w := by
  induction n generalizing p with
  | zero => rfl
  | succ n ih =>
    unfold pipereadCopy
    split_ifs
    · rfl
    · exact ih _

theorem piperead_openEnd (killed : Bool) (n : ℕ) (p : Pipe) (w : Bool) :
    (piperead killed n p).1.openEnd w = p.openEnd w := by
  unfold piperead
  split
  · rfl
  · exact pipereadCopy_openEnd n p w

theorem pipeclose_other {p : Pipe} {w w' : Bool} (hne : w' ≠ w) (h : p.openEnd w' = true) :
    ∃ p', pipeclose p w = some p' ∧ p'.openEnd w' = true := by
  cases w <;> cases w' <;> simp_all [pipeclose, Pipe.openEnd]

end Xv6.Files
