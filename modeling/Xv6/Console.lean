import Xv6.Rings
import Xv6.Runs
import Mathlib.Algebra.Group.Int.Defs
import Mathlib.Algebra.Group.Nat.Defs

namespace Xv6.Console

open Xv6.Runs Xv6.Rings

abbrev Byte := BitVec 8

def INPUT_BUF : ℕ := 128

def C (x : Char) : Byte := BitVec.ofNat 8 (x.toNat - '@'.toNat)

def newline : Byte := 10

def carriageReturn : Byte := 13

def delete : Byte := 0x7f

structure Input where
  buf : ℕ → Byte
  r : BitVec 32
  w : BitVec 32
  e : BitVec 32

def slot (i : BitVec 32) : ℕ := i.toNat % INPUT_BUF

def killLine : ℕ → Input → Input
  | 0, s => s
  | rounds + 1, s =>
    if s.e ≠ s.w ∧ s.buf (slot (s.e - 1)) ≠ newline then killLine rounds { s with e := s.e - 1 } else s

def Input.append (s : Input) (c : Byte) : Input :=
  { s with buf := Function.update s.buf (slot s.e) c, e := s.e + 1 }

def key (s : Input) (c : Byte) : Input × Bool :=
  if c = C 'P' then (s, false)
  else if c = C 'U' then (killLine (s.e - s.w).toNat s, false)
  else if c = C 'H' ∨ c = delete then (if s.e ≠ s.w then { s with e := s.e - 1 } else s, false)
  else if c ≠ 0 ∧ (s.e - s.r).toNat < INPUT_BUF then
    let c := if c = carriageReturn then newline else c
    let s := s.append c
    if c = newline ∨ c = C 'D' ∨ s.e = s.r + 128 then ({ s with w := s.e }, true) else (s, false)
  else (s, false)

inductive Outcome
  | returns (n : ℕ)
  | sleeps (n : ℕ)
  deriving DecidableEq, Repr

structure Stretch (σ : Type) where
  device : σ
  bytes : List Byte
  eof : Bool
  outcome : Outcome

def readLoop (target : ℕ) : ℕ → Input → Stretch Input
  | 0, s => ⟨s, [], false, .returns 0⟩
  | n + 1, s =>
    if s.r = s.w then ⟨s, [], false, .sleeps (n + 1)⟩
    else
      let c := s.buf (slot s.r)
      let s := { s with r := s.r + 1 }
      if c = C 'D' then
        if n + 1 < target then ⟨{ s with r := s.r - 1 }, [], false, .returns (n + 1)⟩
        else ⟨s, [], true, .returns (n + 1)⟩
      else if c = newline then ⟨s, [c], false, .returns n⟩
      else
        let rest := readLoop target n s
        { rest with bytes := c :: rest.bytes }

structure Device (σ : Type) where
  key : σ → Byte → σ × Bool
  read : ℕ → ℕ → σ → Stretch σ

def ring : Device Input := ⟨key, readLoop⟩

inductive Stage
  | idle
  | reading (target n : ℕ) (got : List Byte)
  | asleep (target n : ℕ) (got : List Byte)
  deriving DecidableEq, Repr

def Stage.wakeup : Stage → Stage
  | .asleep target n got => .reading target n got
  | stage => stage

structure Call (Thread : Type) where
  reader : Thread
  target : ℕ
  value : ℤ
  bytes : List Byte

/-- `calls` and `consumed` are not read by the code: the calls that returned, and the bytes that left the
buffer. -/
structure State (σ Thread : Type) where
  device : σ
  stage : Thread → Stage
  calls : List (Call Thread)
  consumed : List Byte

/-- `run` is the stretch of a reader that has `cons.lock`; `wake` is a wakeup that does not come from
`consoleintr`. -/
inductive Event (Thread : Type)
  | intr (chars : List Byte)
  | read (t : Thread) (n : ℤ)
  | run (t : Thread) (killed : Bool)
  | wake (t : Thread)

section Code

variable {σ Thread : Type} [DecidableEq Thread]

def consoleintr (D : Device σ) : σ → List Byte → σ × Bool
  | s, [] => (s, false)
  | s, c :: chars =>
    let first := D.key s c
    let rest := consoleintr D first.1 chars
    (rest.1, first.2 || rest.2)

def start (device : σ) : State σ Thread := ⟨device, fun _ => .idle, [], []⟩

def consoleread (s : State σ Thread) (t : Thread) (target : ℕ) (got : List Byte) (x : Stretch σ) (killed : Bool) :
    State σ Thread :=
  let done (value : ℤ) : State σ Thread :=
    { device := x.device
      stage := Function.update s.stage t .idle
      calls := s.calls ++ [⟨t, target, value, got ++ x.bytes⟩]
      consumed := s.consumed ++ x.bytes ++ if x.eof then [C 'D'] else [] }
  match x.outcome with
  | .returns n => done (target - n)
  | .sleeps n =>
    if killed then done (-1)
    else
      { s with
        device := x.device
        stage := Function.update s.stage t (.asleep target n (got ++ x.bytes))
        consumed := s.consumed ++ x.bytes }

def step (D : Device σ) (s : State σ Thread) : Event Thread → Option (State σ Thread)
  | .intr chars =>
    let r := consoleintr D s.device chars
    some { s with device := r.1, stage := fun u => if r.2 then (s.stage u).wakeup else s.stage u }
  | .read t n =>
    if s.stage t = .idle then some { s with stage := Function.update s.stage t (.reading n.toNat n.toNat []) }
      else none
  | .run t killed =>
    match s.stage t with
    | .reading target n got => some (consoleread s t target got (D.read target n s.device) killed)
    | _ => none
  | .wake t => some { s with stage := Function.update s.stage t (s.stage t).wakeup }

end Code

structure Editor where
  committed : List Byte
  line : List Byte
  log : List Byte
  deriving DecidableEq

def Editor.commit (s : Editor) : Editor := ⟨s.committed ++ s.line, [], s.log ++ s.line⟩

def Editor.key (s : Editor) (c : Byte) : Editor × Bool :=
  if c = C 'P' then (s, false)
  else if c = C 'U' then ({ s with line := [] }, false)
  else if c = C 'H' ∨ c = delete then ({ s with line := s.line.dropLast }, false)
  else if c ≠ 0 ∧ s.committed.length + s.line.length < INPUT_BUF then
    let c := if c = carriageReturn then newline else c
    let s := { s with line := s.line ++ [c] }
    if c = newline ∨ c = C 'D' ∨ s.committed.length + s.line.length = INPUT_BUF then
      (s.commit, true) else (s, false)
  else (s, false)

def firstLine (l : List Byte) : List Byte :=
  l.takeWhile (· != newline) ++ (l.dropWhile (· != newline)).take 1

def Editor.read (target n : ℕ) (s : Editor) : Stretch Editor :=
  let bytes := firstLine ((s.committed.takeWhile (· != C 'D')).take n)
  let rest := s.committed.drop bytes.length
  let left := n - bytes.length
  if left = 0 ∨ bytes.getLast? = some newline then ⟨{ s with committed := rest }, bytes, false, .returns left⟩
  else
    match rest with
    | [] => ⟨{ s with committed := [] }, bytes, false, .sleeps left⟩
    | _ :: after =>
      if left < target then ⟨{ s with committed := rest }, bytes, false, .returns left⟩
      else ⟨{ s with committed := after }, bytes, true, .returns left⟩

def editor : Device Editor := ⟨Editor.key, Editor.read⟩

end Xv6.Console
