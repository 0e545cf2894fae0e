import Xv6.CreationPublish

namespace Xv6.Threads

open Xv6.Runs

/-- A call of `kthread_join` by a thread of the process at `base` fails at once unless it asks for one of
the process's own threads, and none of its steps, now or after it has slept, changes another slot. -/
def JoinInside (thr : Table) (base me : ℕ) (threadId : ℤ) : Prop :=
  ((∀ k ∈ slots base, (thr k).tid ≠ threadId) → kthreadJoin thr base me threadId = .fails) ∧
    ∀ k, k ∉ slots base → (kthreadJoin thr base me threadId).table thr me k = thr k ∧
      ∀ t, kthreadJoin thr base me threadId = .sleeps t →
      ∀ later : Table, (joinLoop later t).table later me k = later k

section

variable {thr : Table} {base me t : ℕ} {threadId : ℤ}

theorem searchTid_own (h : ∃ k ∈ slots base, (thr k).tid = threadId) :
    searchTid thr base threadId ∈ slots base := by
  obtain ⟨k, hk, hid⟩ := h
  have hsome : ((slots base).find? (fun k => (thr k).tid = threadId)).isSome :=
    List.find?_isSome.mpr ⟨k, hk, by simpa using hid⟩
  obtain ⟨i, hi⟩ := Option.isSome_iff_exists.mp hsome
  rw [searchTid, hi, Option.getD_some]
  exact List.mem_of_find?_eq_some hi

theorem searchTid_past (h : ∀ k ∈ slots base, (thr k).tid ≠ threadId) :
    searchTid thr base threadId = base + NTHREAD := by
  have hnone : (slots base).find? (fun k => (thr k).tid = threadId) = none :=
    List.find?_eq_none.mpr (fun k hk => by simpa using h k hk)
  rw [searchTid, hnone, Option.getD_none]

theorem JoinResult.table_other {r : JoinResult} {k : ℕ} (hme : k ≠ me) (ht : ∀ t, r = .reaps t → k ≠ t) :
    r.table thr me k = thr k := by
  cases r with
  | fails => rfl
  | sleeps t => exact Function.update_of_ne hme _ _
  | reaps t => exact Function.update_of_ne (ht t rfl) _ _

theorem joinLoop_slot {t' : ℕ} (h : joinLoop thr t = .sleeps t' ∨ joinLoop thr t = .reaps t') : t' = t := by
  obtain h | h := h
  · exact (joinLoop_sleeps h).1
  · exact (joinLoop_reaps h).1

theorem kthreadJoin_slot (h : kthreadJoin thr base me threadId = .sleeps t ∨
    kthreadJoin thr base me threadId = .reaps t) :
    t = searchTid thr base threadId ∧ (thr t).tid = threadId ∧ (thr t).state ≠ .uninit := by
  simp only [kthreadJoin] at h
  split_ifs at h with hself htid hstate
  · simp at h
  · simp at h
  · simp at h
  · obtain rfl := joinLoop_slot h
    exact ⟨rfl, not_not.mp htid, hstate⟩

theorem kthreadJoin_found (hself : (thr me).tid ≠ threadId)
    (htid : (thr (searchTid thr base threadId)).tid = threadId)
    (hstate : (thr (searchTid thr base threadId)).state ≠ .uninit) :
    kthreadJoin thr base me threadId ≠ .fails := by
  simp only [kthreadJoin, hself, htid, hstate, joinLoop, ne_eq, not_true_eq_false, ↓reduceIte]
  split_ifs <;> simp

end

theorem kthreadJoin_inside (thr : Table) (base me : ℕ) (threadId : ℤ) (hme : me ∈ slots base) :
    JoinInside thr base me threadId ↔ (∃ k ∈ slots base, (thr k).tid = threadId) ∨
      (thr (base + NTHREAD)).tid ≠ threadId ∨ (thr (base + NTHREAD)).state = .uninit := by
  constructor
  · rintro ⟨hfails, -⟩
    by_contra hno
    push Not at hno
    obtain ⟨hown, htid, hstate⟩ := hno
    refine kthreadJoin_found (hown me hme) ?_ ?_ (hfails hown) <;> rwa [searchTid_past hown]
  · intro hcond
    by_cases hown : ∃ k ∈ slots base, (thr k).tid = threadId
    · refine ⟨fun hno => ?_, fun k hk => ?_⟩
      · obtain ⟨k, hk, hid⟩ := hown
        exact absurd hid (hno k hk)
      · have hne (i : ℕ) (hi : i ∈ slots base) : k ≠ i := fun h => hk (h ▸ hi)
        have hfound (t : ℕ) (ht : kthreadJoin thr base me threadId = .sleeps t ∨
            kthreadJoin thr base me threadId = .reaps t) : k ≠ t :=
          hne t ((kthreadJoin_slot ht).1 ▸ searchTid_own hown)
        refine ⟨JoinResult.table_other (hne me hme) (fun t ht => hfound t (.inr ht)), fun t ht later => ?_⟩
        refine JoinResult.table_other (hne me hme) (fun t' ht' => ?_)
        rw [joinLoop_slot (.inr ht')]
        exact hfound t (.inl ht)
    · push Not at hown
      have hfails : kthreadJoin thr base me threadId = .fails := by
        have hpast := searchTid_past hown
        obtain ⟨k, hk, hid⟩ | htid | hstate := hcond
        · exact absurd hid (hown k hk)
        · simp [kthreadJoin, hpast, htid]
        · simp [kthreadJoin, hpast, hstate]
      refine ⟨fun _ => hfails, fun k _ => ?_⟩
      rw [hfails]
      exact ⟨rfl, by simp⟩

theorem kthreadJoin_inside_created : ∃ s', Reaches step Always powerOn s' ∧
    (kthreadJoin s'.thr 0 0 2 = .sleeps 1 ∧ JoinInside s'.thr 0 0 2) ∧
    kthreadJoin s'.thr 0 0 3 = .fails ∧ JoinInside s'.thr 0 0 3 := by
  refine ⟨_, exec_get_reaches powerOn createTurns (by decide +kernel),
    ⟨by decide +kernel, ?_⟩, by decide +kernel, ?_⟩
  · exact (kthreadJoin_inside _ 0 0 2 (by decide)).mpr (.inl ⟨1, by decide, by decide +kernel⟩)
  · exact (kthreadJoin_inside _ 0 0 3 (by decide)).mpr (.inr (.inr (by decide +kernel)))

def forkTurns : List Event :=
  bootTurns ++ [.scheduler 0, .trapret 0, .fork 0 initFrame, .kalloc (.thread 0) 8192] ++
    List.replicate 7 (.run (.thread 0)) ++ [.copyuvm (.thread 0) true] ++ List.replicate 6 (.run (.thread 0))

theorem kthreadJoin_inside_fails : ∃ s', Reaches step Always powerOn s' ∧ s'.onCpu 0 ∧
    (∀ k ∈ slots 0, (s'.thr k).tid ≠ 2) ∧ kthreadJoin s'.thr 0 0 2 = .sleeps 16 :=
  ⟨_, exec_get_reaches powerOn forkTurns (by decide +kernel),
    by decide +kernel, by decide +kernel, by decide +kernel⟩

end Xv6.Threads
