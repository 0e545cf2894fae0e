import Mathlib.Data.List.Find
import Xv6.TreeCalls

namespace Xv6.Mutex

open Function

variable {mutexes mutexes' : Slots} {me mutexId : ℤ}

/-- Two memories that hold the same table. They may differ from slot `MAX_MUTEXES` on. -/
def SameTable (mutexes mutexes' : Slots) : Prop := ∀ k < MAX_MUTEXES, mutexes' k = mutexes k

def DependsOnTable {α : Type} (call : Slots → Slots × α) (mutexes : Slots) : Prop :=
  ∀ mutexes', SameTable mutexes mutexes' → (call mutexes').2 = (call mutexes).2 ∧
    SameTable (call mutexes).1 (call mutexes').1 ∧ ∀ k ≥ MAX_MUTEXES, (call mutexes').1 k = mutexes' k

def lockUntilSleep (mutexes : Slots) (me mutexId : ℤ) : Slots × Option ℤ :=
  match kthreadMutexLock mutexes me mutexId with
  | some (mutexes, value) => (mutexes, some value)
  | none =>
    let m := searchId mutexes mutexId
    (Function.update mutexes m (lockArrive (mutexes m) me), none)

def Allocates (mutexes : Slots) (mutexId : ℤ) : Prop :=
  ∃ k < MAX_MUTEXES, (mutexes k).used ≠ 0 ∧ (mutexes k).id = mutexId

structure LooksUp (mutexes : Slots) (me mutexId : ℤ) : Prop where
  lock : DependsOnTable (fun m => lockUntilSleep m me mutexId) mutexes
  unlock : DependsOnTable (fun m => kthreadMutexUnlock m me mutexId) mutexes
  dealloc : DependsOnTable (fun m => kthreadMutexDealloc m mutexId) mutexes
  refuses : ¬ Allocates mutexes mutexId → lockUntilSleep mutexes me mutexId = (mutexes, some (-1)) ∧
    kthreadMutexUnlock mutexes me mutexId = (mutexes, -1) ∧ kthreadMutexDealloc mutexes mutexId = (mutexes, -1)

def Listed (mutexes : Slots) (mutexId : ℤ) : Prop := ∃ k < MAX_MUTEXES, (mutexes k).id = mutexId

def CallerLocked (mutexes : Slots) (me mutexId : ℤ) : Prop :=
  (mutexes (searchId mutexes mutexId)).locked ≠ 0 ∧ (mutexes (searchId mutexes mutexId)).tid = me

theorem searchId_table (h : SameTable mutexes mutexes') (mutexId : ℤ) :
    searchId mutexes' mutexId = searchId mutexes mutexId := by
  unfold searchId
  rw [List.find?_congr fun i hi => by rw [h i (List.mem_range.mp hi)]]

theorem searchId_listed (h : Listed mutexes mutexId) :
    searchId mutexes mutexId < MAX_MUTEXES ∧ (mutexes (searchId mutexes mutexId)).id = mutexId := by
  obtain ⟨k, hk, hid⟩ := h
  unfold searchId
  cases hfind : (List.range MAX_MUTEXES).find? (fun i => (mutexes i).id = mutexId) with
  | none => simpa [hid] using List.find?_eq_none.mp hfind k (List.mem_range.mpr hk)
  | some i =>
    have hi := List.find?_some hfind
    exact ⟨List.mem_range.mp (List.mem_of_find?_eq_some hfind), by simpa using hi⟩

theorem searchId_unlisted (h : ¬ Listed mutexes mutexId) : searchId mutexes mutexId = MAX_MUTEXES := by
  have hnone : (List.range MAX_MUTEXES).find? (fun i => (mutexes i).id = mutexId) = none := by
    rw [List.find?_eq_none]
    intro i hi
    simpa using fun hid => h ⟨i, List.mem_range.mp hi, hid⟩
  rw [searchId, hnone, Option.getD_none]

def onSlot {α : Type} (f : KthreadMutex → Option KthreadMutex × α) (m : ℕ) (mutexes : Slots) : Slots × α :=
  (((f (mutexes m)).1.map (Function.update mutexes m)).getD mutexes, (f (mutexes m)).2)

theorem onSlot_table {α : Type} (f : KthreadMutex → Option KthreadMutex × α) {m : ℕ} (hm : m < MAX_MUTEXES)
    (h : SameTable mutexes mutexes') :
    (onSlot f m mutexes').2 = (onSlot f m mutexes).2 ∧
    SameTable (onSlot f m mutexes).1 (onSlot f m mutexes').1 ∧
    ∀ k ≥ MAX_MUTEXES, (onSlot f m mutexes').1 k = mutexes' k := by
  unfold onSlot
  rw [h m hm]
  refine ⟨rfl, fun k hk => ?_, fun k hk => ?_⟩
  · cases (f (mutexes m)).1 with
    | none => exact h k hk
    | some mutex =>
      by_cases hkm : k = m
      · simp [hkm]
      · simpa [update_of_ne hkm] using h k hk
  · cases (f (mutexes m)).1 with
    | none => rfl
    | some mutex =>
      have hkm : k ≠ m := by omega
      simp [update_of_ne hkm]

def lockSlot (me mutexId : ℤ) (mutex : KthreadMutex) : Option KthreadMutex × Option ℤ :=
  if mutex.id ≠ mutexId then (none, some (-1))
  else if mutex.used = 0 then (none, some (-1))
  else if (lockArrive mutex me).locked ≠ 0 then (some (lockArrive mutex me), none)
  else (some (lockCatch (lockArrive mutex me) me), some 0)

def unlockSlot (me mutexId : ℤ) (mutex : KthreadMutex) : Option KthreadMutex × ℤ :=
  if mutex.id ≠ mutexId then (none, -1)
  else if me ≠ mutex.tid then (none, -1)
  else if mutex.locked = 0 then (none, -1)
  else (some { mutex with locked := 0 }, 0)

def deallocSlot (mutex : KthreadMutex) : Option KthreadMutex × ℤ :=
  if mutex.locked = 1 then (none, -1)
  else if mutex.used = 0 then (none, -1)
  else (some cleared, 0)

theorem lockUntilSleep_slot (mutexes : Slots) (me mutexId : ℤ) :
    lockUntilSleep mutexes me mutexId = onSlot (lockSlot me mutexId) (searchId mutexes mutexId) mutexes := by
  unfold lockUntilSleep kthreadMutexLock onSlot lockSlot
  simp only
  split_ifs <;> rfl

theorem unlock_slot (mutexes : Slots) (me mutexId : ℤ) :
    kthreadMutexUnlock mutexes me mutexId = onSlot (unlockSlot me mutexId) (searchId mutexes mutexId) mutexes := by
  unfold kthreadMutexUnlock onSlot unlockSlot
  simp only
  split_ifs <;> rfl

theorem dealloc_slot (h : Listed mutexes mutexId) :
    kthreadMutexDealloc mutexes mutexId = onSlot deallocSlot (searchId mutexes mutexId) mutexes := by
  have hm := (searchId_listed h).1
  unfold kthreadMutexDealloc onSlot deallocSlot
  simp only
  rw [if_neg (by omega)]
  split_ifs <;> rfl

theorem Listed.table (h : Listed mutexes mutexId) (hsame : SameTable mutexes mutexes') :
    Listed mutexes' mutexId := by
  obtain ⟨k, hk, hid⟩ := h
  exact ⟨k, hk, by rw [hsame k hk, hid]⟩

theorem dependsOnTable_slot {α : Type} {call : Slots → Slots × α} {f : KthreadMutex → Option KthreadMutex × α}
    (hl : Listed mutexes mutexId)
    (hcall : ∀ m, Listed m mutexId → call m = onSlot f (searchId m mutexId) m) : DependsOnTable call mutexes := by
  intro mutexes' hsame
  rw [hcall _ hl, hcall _ (hl.table hsame), searchId_table hsame]
  exact onSlot_table f (searchId_listed hl).1 hsame

theorem lock_past (h : ¬ Listed mutexes mutexId) :
    ¬ DependsOnTable (fun m => lockUntilSleep m me mutexId) mutexes := by
  intro hdepends
  have hsame (mutex : KthreadMutex) : SameTable mutexes (update mutexes MAX_MUTEXES mutex) :=
    fun k hk => update_of_ne (by omega) _ _
  have hvalue (mutex : KthreadMutex) :
      (lockUntilSleep (update mutexes MAX_MUTEXES mutex) me mutexId).2 = (lockSlot me mutexId mutex).2 := by
    rw [lockUntilSleep_slot, searchId_table (hsame mutex), searchId_unlisted h]
    simp only [onSlot, update_self]
  have htakes := (hdepends _ (hsame ⟨mutexId, 0, me, 1, 0⟩)).1
  have hrefuses := (hdepends _ (hsame ⟨mutexId + 1, 0, 0, 0, 0⟩)).1
  have hboth := htakes.trans hrefuses.symm
  simp only [hvalue] at hboth
  simp [lockSlot, lockArrive] at hboth

theorem refuses_iff (hl : Listed mutexes mutexId) (ha : ¬ Allocates mutexes mutexId) :
    (lockUntilSleep mutexes me mutexId = (mutexes, some (-1)) ∧
      kthreadMutexUnlock mutexes me mutexId = (mutexes, -1) ∧
      kthreadMutexDealloc mutexes mutexId = (mutexes, -1)) ↔ ¬ CallerLocked mutexes me mutexId := by
  obtain ⟨hm, hid⟩ := searchId_listed hl
  have hu : (mutexes (searchId mutexes mutexId)).used = 0 := by
    by_contra hu
    exact ha ⟨_, hm, hu, hid⟩
  rw [lockUntilSleep_slot, unlock_slot, dealloc_slot hl]
  unfold CallerLocked onSlot lockSlot unlockSlot deallocSlot
  simp only [hid, hu, ne_eq, not_true_eq_false, if_false, if_true, ite_self, Option.map_none,
    Option.getD_none, and_true, true_and]
  constructor
  · rintro h ⟨hlocked, htid⟩
    rw [if_neg (not_not.mpr htid.symm), if_neg hlocked] at h
    have hvalue : (0 : ℤ) = -1 := congrArg Prod.snd h
    omega
  · intro h
    split_ifs with htid hlocked
    · rfl
    · exact absurd ⟨hlocked, htid.symm⟩ h
    · rfl

theorem lookups_depend_on_table (mutexes : Slots) (me mutexId : ℤ) :
    LooksUp mutexes me mutexId ↔
      Listed mutexes mutexId ∧ (¬ Allocates mutexes mutexId → ¬ CallerLocked mutexes me mutexId) := by
  constructor
  · intro h
    have hl : Listed mutexes mutexId := by
      by_contra hl
      exact lock_past hl h.lock
    exact ⟨hl, fun ha => (refuses_iff hl ha).mp (h.refuses ha)⟩
  · rintro ⟨hl, hfree⟩
    exact ⟨dependsOnTable_slot hl fun m _ => lockUntilSleep_slot m me mutexId,
      dependsOnTable_slot hl fun m _ => unlock_slot m me mutexId,
      dependsOnTable_slot hl fun _ h => dealloc_slot h,
      fun ha => (refuses_iff hl ha).mpr (hfree ha)⟩

def strayMutex : Slots := Function.update (fun _ => cleared) MAX_MUTEXES ⟨7, 0, 0, 1, 0⟩

theorem lock_takes_stray : ¬ Allocates strayMutex 7 ∧ SameTable (fun _ => cleared) strayMutex ∧
    lockUntilSleep (fun _ => cleared) 3 7 = (fun _ => cleared, some (-1)) ∧
    (lockUntilSleep strayMutex 3 7).2 = some 0 ∧
    (lockUntilSleep strayMutex 3 7).1 MAX_MUTEXES = ⟨7, 1, 3, 1, 0⟩ := by
  have hempty : SameTable (fun _ => cleared) strayMutex := fun k hk => update_of_ne (by omega) _ _
  refine ⟨?_, hempty, rfl, by decide +kernel, by decide +kernel⟩
  rintro ⟨k, hk, hu, _⟩
  rw [hempty k hk] at hu
  exact hu rfl

end Xv6.Mutex
