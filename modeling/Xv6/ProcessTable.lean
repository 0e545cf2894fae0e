import Xv6.ThreadTable

namespace Xv6.Threads

structure Proc where
  state : ProcState
  pid : ℤ
  parent : Option ℕ
  killed : Bool
  deriving DecidableEq, Repr

def Proc.embryo (p : Proc) (pid : ℤ) : Proc := { p with state := .embryo, pid := pid }

def emptyRow : Proc := ⟨.unused, 0, none, false⟩

def emptySlot : Kthread := ⟨0, 0, .uninit, 0, none, 0, 0, .null, 0⟩

def initproc : ℕ := 0

def row (k : ℕ) : ℕ := k / NTHREAD

def base (p : ℕ) : ℕ := NTHREAD * p

def bootRows (p : ℕ) : Proc := if p = initproc then ⟨.used, 1, none, false⟩ else emptyRow

def bootSlots : Table := fun k =>
  if k = base initproc then { emptySlot with state := .runnable, tid := 1, tproc := some initproc } else emptySlot

def searchUnused (procs : ℕ → ProcState) : Option ℕ :=
  (List.range NPROC).find? (fun p => procs p = .unused)

def allocprocTable (thr : Table) (p : ℕ) (tid : ℤ) : Table := fun k =>
  if k = base p then { thr k with state := .uninit, tproc := some p, tid := tid, exitRequest := 0 }
  else if k ∈ slots (base p) then { thr k with state := .uninit }
  else thr k

def hasNonTerminated (thr : Table) (me q : ℕ) : Bool := (slots (base q)).any fun t => t ≠ me && (thr t).state.live

section

variable (proc : ℕ → Proc)

def killRow (pid : ℤ) : Option ℕ := (List.range NPROC).find? fun p => (proc p).pid = pid

def killTable (pid : ℤ) : ℕ → Proc :=
  match killRow proc pid with
  | some p => Function.update proc p { proc p with killed := true }
  | none => proc

def hasZombie (p : ℕ) : Bool :=
  (List.range NPROC).any fun q => (proc q).parent = some p ∧ (proc q).state = .zombie

def passToInit (p q : ℕ) : Proc :=
  if q < NPROC ∧ (proc q).parent = some p then { proc q with parent := some initproc } else proc q

def zombieChild (p : ℕ) : Option ℕ :=
  (List.range NPROC).find? fun q => (proc q).parent = some p ∧ (proc q).state = .zombie

def havekids (p : ℕ) : Bool := (List.range NPROC).any fun q => (proc q).parent = some p

def freeRow (thr : Table) (me q : ℕ) : ℕ → Proc :=
  if hasNonTerminated thr me q then proc else Function.update proc q emptyRow

def wakeup1 (thr : Table) (chan : Chan) : Table := fun k =>
  if k < NPROC * NTHREAD ∧ (proc (row k)).state ≠ .unused ∧ (thr k).state = .sleeping ∧ (thr k).chan = chan then
    { thr k with state := .runnable }
  else thr k

end

section

variable {procs : ℕ → ProcState} {proc : ℕ → Proc} {thr : Table} {tid : ℤ} {state : ThreadState} {i j k p q : ℕ}

theorem mem_slots : k ∈ slots (base p) ↔ row k = p := by
  simp only [slots, base, row, NTHREAD, List.mem_range'_1]
  omega

theorem row_base (q : ℕ) : row (base q) = q := by
  simp [row, base, NTHREAD]

theorem base_ne (h : p ≠ q) : base p ≠ base q := fun heq => h (by rw [← row_base p, heq, row_base])

theorem setState_other (h : j ≠ k) : setState thr k state j = thr j := Function.update_of_ne h _ _

theorem setState_self : (setState thr k state k).state = state := by
  simp [setState]

theorem searchUnused_spec (h : searchUnused procs = some p) : p < NPROC ∧ procs p = .unused :=
  ⟨List.mem_range.mp (List.mem_of_find?_eq_some h), by simpa using List.find?_some h⟩

theorem allocprocTable_other (h : row i ≠ p) : allocprocTable thr p tid i = thr i := by
  have hmain : i ≠ base p := by
    rintro rfl
    exact h (row_base p)
  simp [allocprocTable, hmain, mem_slots, h]

theorem allocprocTable_row (h : row i = p) : (allocprocTable thr p tid i).state = .uninit := by
  simp only [allocprocTable, mem_slots]
  split_ifs <;> rfl

theorem allocprocTable_kstack : (allocprocTable thr p tid i).kstack = (thr i).kstack := by
  unfold allocprocTable
  split_ifs <;> rfl

theorem killTable_other {pid : ℤ} (h : killRow proc pid ≠ some q) : killTable proc pid q = proc q := by
  unfold killTable
  cases hp : killRow proc pid with
  | none => rfl
  | some p => exact Function.update_of_ne (fun heq => h (by rw [hp, heq])) _ _

theorem killTable_proc (pid : ℤ) (q : ℕ) : (killTable proc pid q).state = (proc q).state ∧
    (killTable proc pid q).pid = (proc q).pid ∧ (killTable proc pid q).parent = (proc q).parent := by
  by_cases h : killRow proc pid = some q
  · simp [killTable, h]
  · rw [killTable_other h]
    exact ⟨rfl, rfl, rfl⟩

theorem zombieChild_spec (h : zombieChild proc p = some q) :
    q < NPROC ∧ (proc q).parent = some p ∧ (proc q).state = .zombie := by
  refine ⟨List.mem_range.mp (List.mem_of_find?_eq_some h), ?_⟩
  simpa using List.find?_some h

theorem passToInit_other (h : (proc q).parent ≠ some p) : passToInit proc p q = proc q := if_neg fun hq => h hq.2

theorem passToInit_state : (passToInit proc p q).state = (proc q).state := by
  unfold passToInit
  split_ifs <;> rfl

theorem passToInit_pid : (passToInit proc p q).pid = (proc q).pid := by
  unfold passToInit
  split_ifs <;> rfl

theorem passToInit_parent : (passToInit proc p q).parent =
    if q < NPROC ∧ (proc q).parent = some p then some initproc else (proc q).parent := by
  unfold passToInit
  split_ifs <;> rfl

end

end Xv6.Threads
