import Xv6.Creators
import Xv6.ExecStack

namespace Xv6.Vm

open Xv6.Threads (Kthread Table Trapframe slots requestExit)
open Xv6.Triples

structure Task where
  image : Process
  name : List UInt8
  thr : Table
  tf : Trapframe

def lastElement (path : List UInt8) :
    List UInt8 := path.foldl (fun last c => if c = 47 then [] else last ++ [c]) []

/-- The copying loop ends with a 0 of `bytes` or after `n - 1` bytes; the 0 stored behind it comes on top. -/
def safestrcpy (array bytes : List UInt8) (n : ℕ) : List UInt8 :=
  let copied := (bytes ++ [0]).take (n - 1) ++ [0]
  copied ++ array.drop copied.length

/-- `exits` is the call of `kthread_exit`, which does not return; `failed` is `-1` and `done` is 0. -/
inductive ExecResult where
  | exits
  | failed
  | done
  deriving DecidableEq, Repr

def execCall (L : Layout) (base me : ℕ) (q : Task) (path : List UInt8) (reads : Reads) (argv : List (List UInt8)) :
    Call (ExecResult × Task) := do
  if (q.thr me).exitRequest = 1 then return (.exits, q)
  else
    let q := { q with thr := requestExit q.thr base me }
    match ← execEntry L q.image reads argv with
    | none => return (.failed, q)
    | some r =>
      return (.done, { q with
        image := r.process
        name := safestrcpy q.name (lastElement path) 16
        tf := { q.tf with eip := r.eip, esp := r.esp } })

structure Unseen (base me : ℕ) (q q' : Task) : Prop where
  pgdir : q'.image.pgdir = q.image.pgdir
  sz : q'.image.sz = q.image.sz
  name : q'.name = q.name
  tf : q'.tf = q.tf
  siblings : ∀ k ∈ slots base, k ≠ me → (q'.thr k).state = (q.thr k).state ∧
    (q'.thr k).exitRequest = (q.thr k).exitRequest

def Asked (base me : ℕ) (thr : Table) : Prop :=
  ∀ k ∈ slots base, k ≠ me → (thr k).state.live = true → (thr k).exitRequest = 1

variable {L : Layout} {A : Frames L} {R : Multiset ℕ} {m₀ : ℕ → Words.Bytes}

variable {reads : Reads} {argv : List (List UInt8)} {base me : ℕ}

theorem execEntry_keeps {p : Process} :
    Triple (Heap A 0 R m₀) (execEntry L p reads argv) (fun r y => r = none → Heap A 0 R m₀ y) (fun _ => True) := by
  have hbad : Triple (Heap A 0 R m₀) (pure none : Call (Option Entered)) (fun r y => r = none → Heap A 0 R m₀ y)
      (fun _ => True) := Triple.pure fun s hs _ => hs
  unfold execEntry
  refine Triple.ite (fun _ => hbad) fun _ => Triple.ite (fun _ => hbad) fun _ => ?_
  refine Triple.bind (Triple.except setupkvm_heap fun _ h => h.elim) ?_
  rintro (_ | d)
  · exact Triple.pure fun s hs _ => hs.1
  · refine Triple.bind (Triple.except loadImage_ready fun _ _ => trivial) ?_
    rintro (_ | r)
    · apply Triple.start
      rintro y ⟨E, hy, _⟩
      refine Triple.bind (Triple.except (freevm_own.here hy) fun _ h => h.elim) fun _ => ?_
      exact Triple.pure fun z hz _ => hz
    · refine Triple.bind Triple.anything fun _ => Triple.pure fun z _ h => ?_
      cases h

theorem requestExit_same_iff {thr : Table} :
    (∀ k ∈ slots base, k ≠ me → (requestExit thr base me k).state = (thr k).state ∧
      (requestExit thr base me k).exitRequest = (thr k).exitRequest) ↔ Asked base me thr := by
  constructor
  · intro h k hk hme hlive
    have hsame := (h k hk hme).2
    rw [requestExit, if_pos ⟨hk, hme, hlive⟩] at hsame
    exact hsame.symm
  · intro h k hk hme
    unfold requestExit
    split_ifs with hlive
    · exact ⟨rfl, (h k hk hme hlive.2.2).symm⟩
    · exact ⟨rfl, rfl⟩

theorem execCall_failed {q q' : Task} {path : List UInt8}
    {s s' : Machine} (hrun : (execCall L base me q path reads argv).run s = .ok ((.failed, q'), s')) :
    q' = { q with thr := requestExit q.thr base me } ∧
    (execEntry L q.image reads argv).run s = .ok (none, s') := by
  unfold execCall at hrun
  split_ifs at hrun
  · cases hrun
  · obtain ⟨r, x, hentry, hret⟩ := run_bind_ok.mp hrun
    cases r with
    | none =>
      cases hret
      exact ⟨rfl, hentry⟩
    | some r => cases hret

theorem exec_failure_unseen_iff (L : Layout) (base me : ℕ) (q q' : Task) (path : List UInt8) (reads : Reads)
    (argv : List (List UInt8)) (s s' : Machine)
    (hrun : (execCall L base me q path reads argv).run s = .ok ((.failed, q'), s')) :
    (Unseen base me q q' ↔ Asked base me q.thr) ∧
    (Allocator L s → (∀ page ∈ ownedBy s.mem q.image.pgdir, page ∉ s.freelist ∧ L.Fits page) →
      ∀ page ∈ ownedBy s.mem q.image.pgdir, s'.mem page = s.mem page) := by
  obtain ⟨rfl, hentry⟩ := execCall_failed hrun
  constructor
  · rw [← requestExit_same_iff]
    constructor
    · intro h
      exact h.siblings
    · intro h
      exact ⟨rfl, rfl, rfl, rfl, h⟩
  · intro hfree hpages page hpage
    have hheap := execEntry_keeps.ok (copyFrames_heap hfree hpages) hentry rfl
    exact hheap.frame page (Multiset.mem_dedup.mpr hpage)

def twoThreads (request : ℤ) : Task where
  image := ⟨1025, 4096, 1024⟩
  name := List.replicate 16 0
  thr := fun k =>
    if k = 0 then { Threads.emptySlot with state := .running }
    else if k = 1 then { Threads.emptySlot with state := .running, exitRequest := request }
    else Threads.emptySlot
  tf := Trapframe.filled 0 0

def cutProgram : Reads :=
  [bytesOf ELF_MAGIC ++ List.replicate 24 0 ++ bytesOf 52 ++ List.replicate 12 0 ++ [1, 0] ++ List.replicate 6 0]

theorem exec_failure_unseen_iff_asked :
    ∃ q' s', (execCall Conservation.smallKernel 0 0 (twoThreads 1) [] cutProgram []).run
      Spaces.bootMachine = .ok ((.failed, q'), s') ∧ Unseen 0 0 (twoThreads 1) q' ∧
    (∃ d s, (setupkvm Conservation.smallKernel).run Spaces.bootMachine = .ok (some d, s) ∧
      (freevm Conservation.smallKernel d).run s = .ok ((), s')) := by
  obtain ⟨d, s, hsetup, hs⟩ := bootMachine_own
  obtain ⟨_, s', hfree, _⟩ := freevm_own.returns hs
  have hload : (loadImage Conservation.smallKernel d 1 52 [] []).run s = .ok (none, s) := rfl
  have hentry : (execEntry Conservation.smallKernel (twoThreads 1).image cutProgram []).run Spaces.bootMachine =
      .ok (none, s') := (run_bind_after hsetup).trans ((run_bind_after hload).trans
        ((run_bind_after hfree).trans rfl))
  have hrun : (execCall Conservation.smallKernel 0 0 (twoThreads 1) [] cutProgram []).run Spaces.bootMachine =
      .ok ((.failed, { twoThreads 1 with thr := requestExit (twoThreads 1).thr 0 0 }), s') :=
    (run_bind_after hentry).trans rfl
  have hasked : ∀ k ∈ slots 0, k ≠ 0 → ((twoThreads 1).thr k).state.live = true →
      ((twoThreads 1).thr k).exitRequest = 1 := by decide
  exact ⟨_, s', hrun, (exec_failure_unseen_iff Conservation.smallKernel 0 0 (twoThreads 1) _ [] cutProgram [] _ s'
    hrun).1.mpr hasked, d, s, hsetup, hfree⟩

theorem exec_failure_asks : ∃ q', (execCall Conservation.smallKernel 0 0 (twoThreads 0) [] [] []).run
    Spaces.bootMachine = .ok ((.failed, q'), Spaces.bootMachine) ∧ ((twoThreads 0).thr 1).exitRequest = 0 ∧
      (q'.thr 1).exitRequest = 1 ∧ ¬ Unseen 0 0 (twoThreads 0) q' := by
  refine ⟨_, rfl, rfl, rfl, fun h => ?_⟩
  exact absurd (h.siblings 1 (by decide) (by decide)).2 (by decide)

end Xv6.Vm
