import Xv6.Params
import Mathlib.Data.Int.Notation
import Mathlib.Data.List.Basic

namespace Xv6.Threads

def NTHREAD : ℕ := 16

inductive ProcState where
  | unused
  | embryo
  | used
  | zombie
  deriving DecidableEq, Repr

inductive ThreadState where
  | uninit
  | sleeping
  | runnable
  | running
  | blocked
  | terminated
  deriving DecidableEq, Repr

inductive Chan where
  | null
  | thread (slot : ℕ)
  | other (addr : ℕ)
  deriving DecidableEq, Repr

structure Kthread where
  kstack : ℕ
  ustack : ℕ
  state : ThreadState
  tid : ℤ
  tproc : Option ℕ
  tf : ℕ
  context : ℕ
  chan : Chan
  exitRequest : ℤ
  deriving DecidableEq, Repr

/-- The rows of `ptable.ttable` one after the other, then the memory that follows them; the threads of
the process with index `p` are the `NTHREAD` slots from `base = NTHREAD * p` on. -/
abbrev Table := ℕ → Kthread

def slots (base : ℕ) : List ℕ := List.range' base NTHREAD

def ThreadState.live : ThreadState → Bool
  | .terminated | .uninit => false
  | _ => true

def lastRunning (thr : Table) (base me : ℕ) : Bool :=
  (slots base).all (fun k => k = me || !(thr k).state.live)

def requestExit (thr : Table) (base me : ℕ) : Table := fun k =>
  if k ∈ slots base ∧ k ≠ me ∧ (thr k).state.live then { thr k with exitRequest := 1 } else thr k

def wakeupThreads (thr : Table) (chan : Chan) : Table := fun k =>
  if (thr k).state = .sleeping ∧ (thr k).chan = chan then { thr k with state := .runnable } else thr k

def searchUninit (thr : Table) (base : ℕ) : Option ℕ :=
  (slots base).find? (fun k => (thr k).state = .uninit)

def searchTid (thr : Table) (base : ℕ) (threadId : ℤ) : ℕ :=
  ((slots base).find? (fun k => (thr k).tid = threadId)).getD (base + NTHREAD)

def setState (thr : Table) (k : ℕ) (state : ThreadState) : Table :=
  Function.update thr k { thr k with state := state }

def waitTable (thr : Table) (base : ℕ) : Table := fun k =>
  if k ∈ slots base ∧ (thr k).state = .terminated then
    { thr k with kstack := 0, tid := 0, tproc := none, exitRequest := 0, state := .uninit }
  else thr k

inductive JoinResult where
  | fails
  | sleeps (t : ℕ)
  | reaps (t : ℕ)
  deriving DecidableEq, Repr

def joinLoop (thr : Table) (t : ℕ) : JoinResult :=
  if (thr t).state ≠ .terminated then .sleeps t else .reaps t

def kthreadJoin (thr : Table) (base me : ℕ) (threadId : ℤ) : JoinResult :=
  if (thr me).tid = threadId then .fails
  else
    let t := searchTid thr base threadId
    if (thr t).tid ≠ threadId then .fails
    else if (thr t).state = .uninit then .fails
    else joinLoop thr t

def JoinResult.table (thr : Table) (me : ℕ) : JoinResult → Table
  | .fails => thr
  | .sleeps t => Function.update thr me { thr me with chan := .thread t, state := .sleeping }
  | .reaps t => Function.update thr t { thr t with kstack := 0, state := .uninit }

section

variable {thr : Table} {base me t t' : ℕ} {threadId : ℤ}

theorem joinLoop_sleeps (h : joinLoop thr t = .sleeps t') :
    t' = t ∧ (thr t).state ≠ .terminated := by
  unfold joinLoop at h
  split_ifs at h with hs
  cases h
  exact ⟨rfl, hs⟩

theorem joinLoop_reaps (h : joinLoop thr t = .reaps t') :
    t' = t ∧ (thr t).state = .terminated := by
  unfold joinLoop at h
  split_ifs at h with hs
  cases h
  exact ⟨rfl, not_not.mp hs⟩

theorem kthreadJoin_reaps (h : kthreadJoin thr base me threadId = .reaps t) :
    (thr t).state = .terminated ∧ (thr t).tid = threadId := by
  simp only [kthreadJoin] at h
  split_ifs at h with hself htid
  obtain ⟨rfl, ht⟩ := joinLoop_reaps h
  exact ⟨ht, not_not.mp htid⟩

theorem kthreadJoin_sleeps (h : kthreadJoin thr base me threadId = .sleeps t) :
    (thr t).state ≠ .terminated ∧ (thr t).state ≠ .uninit ∧ (thr t).tid = threadId := by
  simp only [kthreadJoin] at h
  split_ifs at h with hself htid huninit
  obtain ⟨rfl, ht⟩ := joinLoop_sleeps h
  exact ⟨ht, huninit, not_not.mp htid⟩

end

end Xv6.Threads
