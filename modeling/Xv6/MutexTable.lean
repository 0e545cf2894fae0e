import Mathlib.Data.Int.Notation
import Mathlib.Data.Nat.Notation
import Mathlib.Logic.Function.Basic
import Mathlib.Tactic.Simps.Basic

namespace Xv6.Mutex

def MAX_MUTEXES : ℕ := 64

structure KthreadMutex where
  id : ℤ
  locked : ℤ
  tid : ℤ
  used : ℤ
  waitingThreads : ℤ
  deriving DecidableEq, Repr

/-- Slots from `MAX_MUTEXES` on are the memory that follows the table. -/
abbrev Slots := ℕ → KthreadMutex

def cleared : KthreadMutex := ⟨0, 0, 0, 0, 0⟩

def allocated (i : ℕ) : KthreadMutex := ⟨i, 0, 0, 1, 0⟩

def searchId (mutexes : Slots) (mutexId : ℤ) : ℕ :=
  ((List.range MAX_MUTEXES).find? (fun i => (mutexes i).id = mutexId)).getD MAX_MUTEXES

def searchFree (mutexes : Slots) : Option ℕ :=
  (List.range MAX_MUTEXES).find? (fun i => (mutexes i).used = 0)

def kthreadMutexAlloc (mutexes : Slots) : Slots × ℤ :=
  match searchFree mutexes with
  | some i => (Function.update mutexes i (allocated i), i)
  | none => (mutexes, -1)

def lockArrive (mutex : KthreadMutex) (me : ℤ) : KthreadMutex :=
  if mutex.tid ≠ me then { mutex with waitingThreads := mutex.waitingThreads + 1 } else mutex

def lockLeave (mutex : KthreadMutex) (me : ℤ) : KthreadMutex :=
  if mutex.tid ≠ me then { mutex with waitingThreads := mutex.waitingThreads - 1 } else mutex

def lockTake (mutex : KthreadMutex) (me : ℤ) : KthreadMutex :=
  if mutex.tid ≠ me ∨ (mutex.tid = me ∧ mutex.waitingThreads = 0) then
    { mutex with locked := 1, tid := me }
  else mutex

def lockCatch (mutex : KthreadMutex) (me : ℤ) : KthreadMutex :=
  if mutex.locked = 0 then lockTake (lockLeave mutex me) me else mutex

/-- `counted` is not read by the code: it records that the call has incremented `waitingThreads`. -/
inductive Pc where
  | idle
  | returned (value : ℤ)
  | lockFound (mutexId : ℤ) (m : ℕ)
  | lockNamed (m : ℕ)
  | lockChecked (m : ℕ)
  | lockSleeping (m : ℕ) (counted : Bool)
  | lockWoken (m : ℕ) (counted : Bool)
  | unlockFound (mutexId : ℤ) (m : ℕ)
  | unlockNamed (m : ℕ)
  | unlockChecked (m : ℕ)
  | unlockWakeup (m : ℕ)
  | deallocTested (m : ℕ)
  deriving DecidableEq, Repr

def Pc.free : Pc → Bool
  | .idle | .returned _ => true
  | _ => false

def Pc.wakeup (m : ℕ) : Pc → Pc
  | .lockSleeping m' counted => if m' = m then .lockWoken m' counted else .lockSleeping m' counted
  | pc => pc

variable {Thread : Type} [DecidableEq Thread]

/-- `holds` is not read by the code: it follows the lock and unlock calls that return 0. -/
structure State (Thread : Type) where
  mutexes : Slots
  tableLock : Option Thread
  pc : Thread → Pc
  holds : Thread → ℕ → Bool

@[simps]
def State.goto (s : State Thread) (t : Thread) (pc : Pc) : State Thread :=
  { s with pc := Function.update s.pc t pc }

@[simps]
def State.setMutex (s : State Thread) (m : ℕ) (mutex : KthreadMutex) : State Thread :=
  { s with mutexes := Function.update s.mutexes m mutex }

@[simps]
def State.setHolds (s : State Thread) (t : Thread) (m : ℕ) (b : Bool) : State Thread :=
  { s with holds := Function.update s.holds t (Function.update (s.holds t) m b) }

@[simps]
def State.setTableLock (s : State Thread) (owner : Option Thread) : State Thread :=
  { s with tableLock := owner }

@[simps]
def State.wakeup (s : State Thread) (m : ℕ) : State Thread :=
  { s with pc := fun t => (s.pc t).wakeup m }

inductive Call where
  | alloc
  | dealloc (mutexId : ℤ)
  | lock (mutexId : ℤ)
  | unlock (mutexId : ℤ)
  deriving DecidableEq, Repr

inductive Event (Thread : Type) where
  | call (t : Thread) (c : Call)
  | run (t : Thread)
  | wake (t : Thread)
  deriving DecidableEq, Repr

def deallocTest (s : State Thread) (t : Thread) (mutexId : ℤ) : State Thread :=
  let m := searchId s.mutexes mutexId
  if m = MAX_MUTEXES then s.goto t (.returned (-1))
  else if (s.mutexes m).locked = 1 then s.goto t (.returned (-1))
  else if (s.mutexes m).used = 0 then s.goto t (.returned (-1))
  else (s.goto t (.deallocTested m)).setTableLock (some t)

def enter (s : State Thread) (t : Thread) : Call → State Thread
  | .alloc =>
    let result := kthreadMutexAlloc s.mutexes
    { s with mutexes := result.1, pc := Function.update s.pc t (.returned result.2) }
  | .dealloc mutexId => deallocTest s t mutexId
  | .lock mutexId => s.goto t (.lockFound mutexId (searchId s.mutexes mutexId))
  | .unlock mutexId => s.goto t (.unlockFound mutexId (searchId s.mutexes mutexId))

def lockLoop (s : State Thread) (t : Thread) (me : ℤ) (m : ℕ) (mutex : KthreadMutex) (counted : Bool) :
    State Thread :=
  if mutex.locked ≠ 0 then (s.setMutex m mutex).goto t (.lockSleeping m counted)
  else ((s.setMutex m (lockCatch mutex me)).goto t (.returned 0)).setHolds t m true

def unlockRegion (s : State Thread) (t : Thread) (m : ℕ) : State Thread :=
  if (s.mutexes m).locked = 0 then s.goto t (.returned (-1))
  else ((s.setMutex m { s.mutexes m with locked := 0 }).goto t (.unlockWakeup m)).setHolds t m false

def resume (tid : Thread → ℤ) (s : State Thread) (t : Thread) : Option (State Thread) :=
  match s.pc t with
  | .lockFound mutexId m =>
    some (s.goto t (if (s.mutexes m).id ≠ mutexId then .returned (-1) else .lockNamed m))
  | .lockNamed m => some (s.goto t (if (s.mutexes m).used = 0 then .returned (-1) else .lockChecked m))
  | .lockChecked m =>
    some (lockLoop s t (tid t) m (lockArrive (s.mutexes m) (tid t)) (decide ((s.mutexes m).tid ≠ tid t)))
  | .lockWoken m counted => some (lockLoop s t (tid t) m (s.mutexes m) counted)
  | .unlockFound mutexId m =>
    some (s.goto t (if (s.mutexes m).id ≠ mutexId then .returned (-1) else .unlockNamed m))
  | .unlockNamed m =>
    some (s.goto t (if tid t ≠ (s.mutexes m).tid then .returned (-1) else .unlockChecked m))
  | .unlockChecked m => some (unlockRegion s t m)
  | .unlockWakeup m => some ((s.wakeup m).goto t (.returned 0))
  | .deallocTested m => some (((s.setMutex m cleared).goto t (.returned 0)).setTableLock none)
  | _ => none

def step (tid : Thread → ℤ) (s : State Thread) : Event Thread → Option (State Thread)
  | .call t c => if s.tableLock = none ∧ (s.pc t).free then some (enter s t c) else none
  | .run t => resume tid s t
  | .wake t =>
    match s.pc t with
    | .lockSleeping m counted => some (s.goto t (.lockWoken m counted))
    | _ => none

end Xv6.Mutex
