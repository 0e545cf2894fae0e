import Xv6.Runs
import Xv6.MutexSteps

namespace Xv6.Mutex

open Xv6.Runs Function

def NamedBelow (n : ℕ) (mutexes : Slots) : Prop :=
  ∀ i < n, ((mutexes i).used ≠ 0 → (mutexes i).id = i) ∧ ((mutexes i).used = 0 → (mutexes i).id = 0)

def Named (mutexes : Slots) : Prop := NamedBelow MAX_MUTEXES mutexes

theorem named_cleared : Named (fun _ => cleared) :=
  fun _ _ => ⟨fun h => absurd rfl h, fun _ => rfl⟩

theorem allocated_used (i : ℕ) : (allocated i).used ≠ 0 := Int.one_ne_zero

variable {mutexes : Slots} {k n : ℕ}

theorem NamedBelow.search (hn : NamedBelow n mutexes) (hmax : n ≤ MAX_MUTEXES) (hk : k < n)
    (hu : (mutexes k).used ≠ 0) : searchId mutexes k = k := by
  have hid : (mutexes k).id = k := (hn k hk).1 hu
  have hbefore (i : ℕ) (hi : i < k) : (mutexes i).id ≠ k := by
    by_cases hui : (mutexes i).used = 0
    · rw [(hn i (Nat.lt_trans hi hk)).2 hui]
      omega
    · rw [(hn i (Nat.lt_trans hi hk)).1 hui]
      omega
  have hfind : (List.range MAX_MUTEXES).find? (fun i => (mutexes i).id = (k : ℤ)) = some k := by
    rw [List.find?_range_eq_some]
    refine ⟨by simpa using hid, List.mem_range.mpr (by omega), fun i hi => by simpa using hbefore i hi⟩
  simp [searchId, hfind]

theorem searchId_used (hn : Named mutexes) (hk : k < MAX_MUTEXES) (hu : (mutexes k).used ≠ 0) :
    searchId mutexes k = k := NamedBelow.search hn (Nat.le_refl _) hk hu

theorem NamedBelow.missing (hn : NamedBelow n mutexes) (hpos : 0 < k) (hu : (mutexes k).used = 0)
    (habove : ∀ i, n ≤ i → i < MAX_MUTEXES → (mutexes i).id ≠ k) : searchId mutexes k = MAX_MUTEXES := by
  have hnone : (List.range MAX_MUTEXES).find? (fun i => (mutexes i).id = (k : ℤ)) = none := by
    rw [List.find?_eq_none]
    intro i hi
    rw [decide_eq_true_eq]
    obtain hlt | hge := Nat.lt_or_ge i n
    · -- a used slot `i` with this id would be slot `k`, which is not used
      by_cases hui : (mutexes i).used = 0
      · rw [(hn i hlt).2 hui]
        omega
      · rw [(hn i hlt).1 hui]
        intro heq
        rw [Int.ofNat_inj.mp heq] at hui
        exact hui hu
    · exact habove i hge (List.mem_range.mp hi)
  rw [searchId, hnone, Option.getD_none]

theorem searchFree_none : searchFree mutexes = none ↔ ∀ k < MAX_MUTEXES, (mutexes k).used ≠ 0 := by
  simp [searchFree]

theorem kthreadMutexAlloc_keeps (mutexes : Slots) (hu : (mutexes k).used ≠ 0) :
    (kthreadMutexAlloc mutexes).1 k = mutexes k := by
  unfold kthreadMutexAlloc
  split
  · rename_i i hi
    have hik : k ≠ i := fun h => hu (h ▸ (searchFree_spec hi).2)
    simp [update_of_ne hik]
  · rfl

theorem kthreadMutexAlloc_spec (mutexes : Slots) (h : (kthreadMutexAlloc mutexes).2 ≠ -1) :
    ∃ i < MAX_MUTEXES, (mutexes i).used = 0 ∧ (kthreadMutexAlloc mutexes).2 = i ∧
      (kthreadMutexAlloc mutexes).1 = update mutexes i (allocated i) := by
  unfold kthreadMutexAlloc at h ⊢
  split at h
  · rename_i i hi
    exact ⟨i, (searchFree_spec hi).1, (searchFree_spec hi).2, by simp⟩
  · exact absurd rfl h

theorem named_alloc (hn : Named mutexes) : Named (kthreadMutexAlloc mutexes).1 := by
  by_cases h : (kthreadMutexAlloc mutexes).2 = -1
  · have hsame : (kthreadMutexAlloc mutexes).1 = mutexes := by
      unfold kthreadMutexAlloc at h ⊢
      split at h
      · simp only at h
        omega
      · simp_all
    rwa [hsame]
  · obtain ⟨i, _, _, _, hm⟩ := kthreadMutexAlloc_spec mutexes h
    intro j hj
    rw [hm]
    by_cases hij : j = i
    · subst hij
      simp [allocated]
    · simpa [update_of_ne hij] using hn j hj

variable {Thread : Type} [DecidableEq Thread]

theorem named_step (tid : Thread → ℤ) (n : ℕ) : Preserves (step tid) Always (fun s => NamedBelow n s.mutexes) := by
  intro s e s' hn _ hs i hi
  have hold := hn i hi
  cases step_slot i hs with
  | untouched e hm hh => rwa [hm]
  | alloc t hu hm hh => simp [hm, allocated]
  | arrive t hpc hl hm hh => rwa [hm, (lockArrive_names _ _).1, (lockArrive_names _ _).2]
  | lock t hpc hl hm hh => rwa [hm, (lockCatch_names _ _ _).1, (lockCatch_names _ _ _).2]
  | unlock t hpc hl hm hh => rwa [hm]
  | dealloc t hpc hm hh => simp [hm, cleared]

/-! `proc.c` defines `mutexTable` without the field `waitingThreads`, `mutex.c` counts with it: to `mutex.c`
the table is longer than the object, and its last slots lie in what follows it, `ptable`. -/

def SPINLOCK_SIZE : ℕ := 52

def TABLE_SIZE : ℕ := SPINLOCK_SIZE + MAX_MUTEXES * (SPINLOCK_SIZE + 4 * 4)

def MUTEX_SIZE : ℕ := SPINLOCK_SIZE + 5 * 4

def wordsAt (i : ℕ) : ℕ := SPINLOCK_SIZE + i * MUTEX_SIZE + SPINLOCK_SIZE

def ownSlots : ℕ := (TABLE_SIZE - SPINLOCK_SIZE) / MUTEX_SIZE

def storeWord (mutexes : Slots) (offset : ℕ) (value : ℤ) : Slots := fun i =>
  if offset = wordsAt i then { mutexes i with id := value }
  else if offset = wordsAt i + 4 then { mutexes i with locked := value }
  else if offset = wordsAt i + 8 then { mutexes i with tid := value }
  else if offset = wordsAt i + 12 then { mutexes i with used := value }
  else if offset = wordsAt i + 16 then { mutexes i with waitingThreads := value }
  else mutexes i

/-- A step of the mutex calls, or a store of the rest of the kernel to a word outside the table. -/
inductive Access (Thread : Type) where
  | mutex (e : Event Thread)
  | store (offset : ℕ) (value : ℤ)
  deriving DecidableEq, Repr

def access (tid : Thread → ℤ) (s : State Thread) : Access Thread → Option (State Thread)
  | .mutex e => step tid s e
  | .store offset value =>
    if TABLE_SIZE ≤ offset then some { s with mutexes := storeWord s.mutexes offset value } else none

theorem storeWord_inside {offset i : ℕ} (hi : i < ownSlots) (h : TABLE_SIZE ≤ offset) (value : ℤ) :
    storeWord mutexes offset value i = mutexes i := by
  have hi' : i < 60 := hi
  have h' : 4404 ≤ offset := h
  have hwords : wordsAt i = 104 + i * 72 := by simp only [wordsAt, SPINLOCK_SIZE, MUTEX_SIZE]; omega
  unfold storeWord
  rw [if_neg (by omega), if_neg (by omega), if_neg (by omega), if_neg (by omega), if_neg (by omega)]

structure NamesSlots (tid : Thread → ℤ) (s : State Thread) : Prop where
  named : NamedBelow ownSlots s.mutexes
  finds : ∀ k < ownSlots, (s.mutexes k).used ≠ 0 → searchId s.mutexes k = k
  misses : ∀ k < ownSlots, 0 < k → (s.mutexes k).used = 0 →
    (∀ i, ownSlots ≤ i → i < MAX_MUTEXES → (s.mutexes i).id ≠ k) → searchId s.mutexes k = MAX_MUTEXES
  alloc : ∀ t s', step tid s (.call t .alloc) = some s' → ∃ value, s'.pc t = .returned value ∧
    (value = -1 ↔ ∀ k < MAX_MUTEXES, (s.mutexes k).used ≠ 0) ∧
    ∀ k < ownSlots, (s.mutexes k).used ≠ 0 → (s.mutexes k).id ≠ value

theorem NamedBelow.alloc_returns (hn : NamedBelow n mutexes) :
    ((kthreadMutexAlloc mutexes).2 = -1 ↔ ∀ k < MAX_MUTEXES, (mutexes k).used ≠ 0) ∧
    ∀ k < n, (mutexes k).used ≠ 0 → (mutexes k).id ≠ (kthreadMutexAlloc mutexes).2 := by
  unfold kthreadMutexAlloc
  cases hfree : searchFree mutexes with
  | none =>
    refine ⟨⟨fun _ => searchFree_none.mp hfree, fun _ => rfl⟩, fun k hk hu => ?_⟩
    rw [(hn k hk).1 hu]
    change (k : ℤ) ≠ -1
    omega
  | some i =>
    obtain ⟨hi, hui⟩ := searchFree_spec hfree
    constructor
    · constructor
      · intro hneg
        simp only at hneg
        omega
      · intro hall
        exact absurd hui (hall i hi)
    · intro k hk hu heq
      rw [(hn k hk).1 hu] at heq
      rw [Int.ofNat_inj.mp heq] at hu
      exact hu hui

theorem access_named (tid : Thread → ℤ) :
    Preserves (access tid) Always (fun s => NamedBelow ownSlots s.mutexes) := by
  intro s e s' hn _ hs
  cases e with
  | mutex e => exact named_step tid ownSlots s e s' hn trivial hs
  | store offset value =>
    obtain ⟨hout, heq⟩ := Option.ite_none_right_eq_some.mp hs
    cases heq
    intro i hi
    dsimp only
    rw [storeWord_inside hi hout]
    exact hn i hi

theorem mutex_ids_name_slots (tid : Thread → ℤ) (s₀ s : State Thread)
    (hzero : ∀ i < ownSlots, s₀.mutexes i = cleared)
    (hr : Reaches (access tid) Always s₀ s) : NamesSlots tid s := by
  have hstart : NamedBelow ownSlots s₀.mutexes := by
    intro i hi
    rw [hzero i hi]
    exact ⟨fun h => absurd rfl h, fun _ => rfl⟩
  have hn := hr.invariant (access_named tid) hstart
  refine ⟨hn, fun k => hn.search (by decide), fun k _ hpos hu habove =>
    hn.missing hpos hu habove, fun t s' hs => ?_⟩
  obtain ⟨_, hs⟩ := Option.ite_none_right_eq_some.mp hs
  cases hs
  exact ⟨(kthreadMutexAlloc s.mutexes).2, update_self _ _ _, hn.alloc_returns⟩

def freesFirst : List (Access Unit) :=
  [.mutex (.call () .alloc), .mutex (.call () .alloc), .store 4436 (-2146426112), .mutex (.call () (.dealloc 0)),
    .mutex (.run ())]

def zeroTable : State Unit := ⟨fun _ => cleared, none, fun _ => .idle, fun _ _ => false⟩

theorem mutex_ids_name_slots_freesFirst :
    ∃ s, Reaches (access fun _ => 1) Always zeroTable s ∧ (s.mutexes 1).used = 1 ∧
    (s.mutexes 0).used = 0 ∧ (s.mutexes 60).used ≠ 0 ∧ NamesSlots (fun _ => 1) s :=
  have hr := exec_get_reaches zeroTable freesFirst (by decide +kernel)
  ⟨_, hr, by decide +kernel, by decide +kernel, by decide +kernel, mutex_ids_name_slots _ _ _ (fun _ _ => rfl) hr⟩

/-- What `acquire` and `release` leave in `ptable.lock`, 4416 bytes behind the start of the table: `cpu`, then
`pcs`. -/
def ptableLock : List (Access Unit) :=
  [.store 4424 (-2146348736), .store 4428 (-2146421973), .store 4432 (-2146414321), .store 4436 (-2146409702),
    .store 4440 (-2146408830), .store 4428 0, .store 4424 0]

theorem slot_sixty_lost : ∃ s, Reaches (access fun _ => 1) Always zeroTable s ∧ (s.mutexes 60).used ≠ 0 ∧
    (s.mutexes 60).id = 0 ∧ searchId s.mutexes 60 = MAX_MUTEXES ∧ s.pc () = .returned 61 :=
  have hr := exec_get_reaches zeroTable (ptableLock ++ List.replicate 61
    (.mutex (.call () .alloc))) (by decide +kernel)
  ⟨_, hr, by decide +kernel, by decide +kernel, by decide +kernel, by decide +kernel⟩

end Xv6.Mutex
