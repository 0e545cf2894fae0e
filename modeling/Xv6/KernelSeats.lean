import Xv6.KernelFlows

namespace Xv6.Kernel

open Xv6.Threads
open Function (update update_of_ne update_self)

def Context.pc : Context → Pc
  | .forkret | .joining _ => .free
  | .yielded pc | .slept pc => pc
  | .waiting => .wait
  | .dead => .panic

def CpuState.seat : CpuState → Option (ℕ × Pc)
  | .resumes k context => some (k, context.pc)
  | .runs k pc => some (k, pc)
  | _ => none

inductive Kind where
  | off
  | waits
  | on
  deriving DecidableEq, Repr

def kind : ThreadState → Kind
  | .uninit | .terminated => .off
  | .runnable | .sleeping => .waits
  | .running | .blocked => .on

theorem live_iff (state : ThreadState) : state.live = true ↔ kind state ≠ .off := by
  cases state <;> simp [ThreadState.live, kind]

variable {Cpu : Type}

structure Seats (s : State Cpu) (flow : ℕ → Option Pc) : Prop where
  cpu : ∀ c k pc, (s.cpu c).seat = some (k, pc) → kind (s.thr k).state = .on ∧ flow k = some pc
  one : ∀ c c' k pc pc', (s.cpu c).seat = some (k, pc) → (s.cpu c').seat = some (k, pc') → c = c'
  on : ∀ k, kind (s.thr k).state = .on → ∃ c pc, (s.cpu c).seat = some (k, pc)
  waits : ∀ k, kind (s.thr k).state = .waits → flow k = some (s.context k).pc
  off : ∀ k, kind (s.thr k).state = .off → flow k = none

variable [DecidableEq Cpu] {s s' : State Cpu} {flow : ℕ → Option Pc} {c : Cpu} {k j : ℕ}
    {pc pc₀ : Pc} {x : CpuState}

omit [DecidableEq Cpu] in
theorem Seats.off_of_none (hi : Seats s flow) (h : flow k = none) : kind (s.thr k).state = .off := by
  cases hk : kind (s.thr k).state with
  | off => rfl
  | waits =>
    rw [hi.waits k hk] at h
    cases h
  | on =>
    obtain ⟨c, pc, hc⟩ := hi.on k hk
    rw [(hi.cpu c k pc hc).2] at h
    cases h

omit [DecidableEq Cpu] in
theorem seats_kind (hi : Seats s flow) (hcpu : s'.cpu = s.cpu) (hcontext : s'.context = s.context)
    (hkind : ∀ k, kind (s'.thr k).state = kind (s.thr k).state) : Seats s' flow := by
  refine ⟨fun c k pc hc => ?_, fun c c' k pc pc' hc hc' => ?_, fun k hk => ?_, fun k hk => ?_, fun k hk => ?_⟩
  · rw [hcpu] at hc
    rw [hkind]
    exact hi.cpu c k pc hc
  · rw [hcpu] at hc hc'
    exact hi.one c c' k pc pc' hc hc'
  · rw [hkind] at hk
    rw [hcpu]
    exact hi.on k hk
  · rw [hkind] at hk
    rw [hcontext]
    exact hi.waits k hk
  · rw [hkind] at hk
    exact hi.off k hk

omit [DecidableEq Cpu] in
theorem seats_context {ctx : Context} (hi : Seats s flow) (hj : flow j = none) (hcpu : s'.cpu = s.cpu)
    (hthr : s'.thr = s.thr) (hcontext : s'.context = update s.context j ctx) : Seats s' flow := by
  refine ⟨by rw [hcpu, hthr]; exact hi.cpu, by rw [hcpu]; exact hi.one,
    by rw [hcpu, hthr]; exact hi.on, fun k hk => ?_, by rw [hthr]; exact hi.off⟩
  rw [hthr] at hk
  have hne : k ≠ j := by
    rintro rfl
    rw [hi.off_of_none hj] at hk
    cases hk
  rw [hcontext, update_of_ne hne]
  exact hi.waits k hk

theorem seat_update (hcpu : s'.cpu = update s.cpu c x) {c' : Cpu} {k' : ℕ} {pc' : Pc}
    (h : (s'.cpu c').seat = some (k', pc')) :
    c' = c ∧ x.seat = some (k', pc') ∨ c' ≠ c ∧ (s.cpu c').seat = some (k', pc') := by
  rw [hcpu] at h
  by_cases hc : c' = c
  · rw [hc, update_self] at h
    exact .inl ⟨hc, h⟩
  · rw [update_of_ne hc] at h
    exact .inr ⟨hc, h⟩

theorem seats_goto (hi : Seats s flow) (hc : (s.cpu c).seat = some (k, pc₀)) (hx : x.seat = some (k, pc))
    (hcpu : s'.cpu = update s.cpu c x) (hthr : s'.thr = s.thr) (hcontext : s'.context = s.context) :
    Seats s' (update flow k (some pc)) := by
  have hon := (hi.cpu c k pc₀ hc).1
  have hne {i : ℕ} (h : kind (s.thr i).state ≠ .on) : i ≠ k := by
    rintro rfl
    exact h hon
  refine ⟨fun c' i pc' h => ?_, fun c' c'' i pc' pc'' h h' => ?_, fun i h => ?_, fun i h => ?_, fun i h => ?_⟩
  · rw [hthr]
    obtain ⟨-, hx'⟩ | ⟨hcc, h⟩ := seat_update hcpu h
    · rw [hx] at hx'
      cases hx'
      exact ⟨hon, update_self _ _ _⟩
    · have hik : i ≠ k := by
        rintro rfl
        exact hcc (hi.one c' c i pc' pc₀ h hc)
      rw [update_of_ne hik]
      exact hi.cpu c' i pc' h
  · obtain ⟨rfl, hx'⟩ | ⟨-, h⟩ := seat_update hcpu h
    · rw [hx] at hx'
      cases hx'
      obtain ⟨rfl, -⟩ | ⟨-, h'⟩ := seat_update hcpu h'
      · rfl
      · exact hi.one c' c'' k pc₀ pc'' hc h'
    · obtain ⟨rfl, hx'⟩ | ⟨-, h'⟩ := seat_update hcpu h'
      · rw [hx] at hx'
        cases hx'
        exact hi.one c' c'' k pc' pc₀ h hc
      · exact hi.one c' c'' i pc' pc'' h h'
  · rw [hthr] at h
    obtain ⟨c', pc', h'⟩ := hi.on i h
    by_cases hcc : c' = c
    · subst hcc
      rw [hc] at h'
      cases h'
      exact ⟨c', pc, by rw [hcpu, update_self, hx]⟩
    · exact ⟨c', pc', by rwa [hcpu, update_of_ne hcc]⟩
  · rw [hthr] at h
    rw [hcontext, update_of_ne (hne (by simp [h]))]
    exact hi.waits i h
  · rw [hthr] at h
    rw [update_of_ne (hne (by simp [h]))]
    exact hi.off i h

theorem seats_leave {ctx : Context} {v : Option Pc} (hi : Seats s flow) (hc : (s.cpu c).seat = some (k, pc₀))
    (hx : x.seat = none) (hcpu : s'.cpu = update s.cpu c x)
    (hcontext : s'.context = update s.context k ctx)
    (hkind : ∀ i, i ≠ k → kind (s'.thr i).state = kind (s.thr i).state)
    (hv : kind (s'.thr k).state = .waits ∧ v = some ctx.pc ∨ kind (s'.thr k).state = .off ∧ v = none) :
    Seats s' (update flow k v) := by
  have hoff : kind (s'.thr k).state ≠ .on := by
    obtain ⟨h, -⟩ | ⟨h, -⟩ := hv <;> simp [h]
  have hold {c' : Cpu} {i : ℕ} {pc' : Pc} (h : (s'.cpu c').seat = some (i, pc')) :
      i ≠ k ∧ (s.cpu c').seat = some (i, pc') := by
    obtain ⟨-, hx'⟩ | ⟨hcc, h⟩ := seat_update hcpu h
    · rw [hx] at hx'
      cases hx'
    · refine ⟨?_, h⟩
      rintro rfl
      exact hcc (hi.one c' c i pc' pc₀ h hc)
  refine ⟨fun c' i pc' h => ?_, fun c' c'' i pc' pc'' h h' => hi.one c' c'' i pc' pc'' (hold h).2
    (hold h').2, fun i h => ?_, fun i h => ?_, fun i h => ?_⟩
  · obtain ⟨hne, h⟩ := hold h
    rw [hkind i hne, update_of_ne hne]
    exact hi.cpu c' i pc' h
  · have hne : i ≠ k := by
      rintro rfl
      exact hoff h
    rw [hkind i hne] at h
    obtain ⟨c', pc', h'⟩ := hi.on i h
    have hcc : c' ≠ c := by
      rintro rfl
      rw [hc] at h'
      cases h'
      exact hne rfl
    exact ⟨c', pc', by rwa [hcpu, update_of_ne hcc]⟩
  · by_cases hik : i = k
    · subst hik
      obtain ⟨-, rfl⟩ | ⟨hk, -⟩ := hv
      · rw [hcontext, update_self, update_self]
      · rw [hk] at h
        cases h
    · rw [hkind i hik] at h
      rw [hcontext, update_of_ne hik, update_of_ne hik]
      exact hi.waits i h
  · by_cases hik : i = k
    · subst hik
      obtain ⟨hk, -⟩ | ⟨-, rfl⟩ := hv
      · rw [hk] at h
        cases h
      · exact update_self _ _ _
    · rw [hkind i hik] at h
      rw [update_of_ne hik]
      exact hi.off i h

omit [DecidableEq Cpu] in
theorem seats_start (hi : Seats s flow) (hj : flow j = none) (hcontext : s.context j = .forkret)
    (hcpu : s'.cpu = s.cpu) (hctx : s'.context = s.context) (hnew : kind (s'.thr j).state = .waits)
    (hkind : ∀ i, i ≠ j → kind (s'.thr i).state = kind (s.thr i).state) :
    Seats s' (update flow j (some .free)) := by
  refine ⟨fun c i pc h => ?_, by rw [hcpu]; exact hi.one, fun i h => ?_, fun i h => ?_, fun i h => ?_⟩
  · rw [hcpu] at h
    have hne : i ≠ j := by
      rintro rfl
      rw [(hi.cpu c i pc h).2] at hj
      cases hj
    rw [hkind i hne, update_of_ne hne]
    exact hi.cpu c i pc h
  · have hne : i ≠ j := by
      rintro rfl
      rw [hnew] at h
      cases h
    rw [hkind i hne] at h
    rw [hcpu]
    exact hi.on i h
  · by_cases hij : i = j
    · subst hij
      rw [hctx, hcontext, update_self]
      rfl
    · rw [hkind i hij] at h
      rw [hctx, update_of_ne hij]
      exact hi.waits i h
  · have hne : i ≠ j := by
      rintro rfl
      rw [hnew] at h
      cases h
    rw [hkind i hne] at h
    rw [update_of_ne hne]
    exact hi.off i h

theorem seats_scan (hi : Seats s flow) (hc : (s.cpu c).seat = none) (hx : x.seat = none)
    (hcpu : s'.cpu = update s.cpu c x) (hthr : s'.thr = s.thr) (hcontext : s'.context = s.context) :
    Seats s' flow := by
  have hseat (c' : Cpu) : (s'.cpu c').seat = (s.cpu c').seat := by
    rw [hcpu]
    by_cases hcc : c' = c
    · rw [hcc, update_self, hx, hc]
    · rw [update_of_ne hcc]
  refine ⟨fun c' i pc h => ?_, fun c' c'' i pc pc' h h' => ?_, fun i h => ?_, ?_, ?_⟩
  · rw [hseat] at h
    rw [hthr]
    exact hi.cpu c' i pc h
  · rw [hseat] at h h'
    exact hi.one c' c'' i pc pc' h h'
  · rw [hthr] at h
    obtain ⟨c', pc, h'⟩ := hi.on i h
    exact ⟨c', pc, by rwa [hseat]⟩
  · rw [hthr, hcontext]
    exact hi.waits
  · rw [hthr]
    exact hi.off

theorem seats_pick (hi : Seats s flow) (hc : (s.cpu c).seat = none) (hk : kind (s.thr k).state = .waits)
    (hcpu : s'.cpu = update s.cpu c (.resumes k (s.context k))) (hcontext : s'.context = s.context)
    (hon : kind (s'.thr k).state = .on) (hkind : ∀ i, i ≠ k → kind (s'.thr i).state = kind (s.thr i).state) :
    Seats s' flow := by
  have hnot (c' : Cpu) (pc' : Pc) (h : (s.cpu c').seat = some (k, pc')) : False := by
    rw [(hi.cpu c' k pc' h).1] at hk
    cases hk
  refine ⟨fun c' i pc h => ?_, fun c' c'' i pc pc' h h' => ?_, fun i h => ?_, fun i h => ?_, fun i h => ?_⟩
  · obtain ⟨-, hx⟩ | ⟨-, h⟩ := seat_update hcpu h
    · cases hx
      exact ⟨hon, hi.waits k hk⟩
    · have hne : i ≠ k := by
        rintro rfl
        exact hnot c' pc h
      rw [hkind i hne]
      exact hi.cpu c' i pc h
  · obtain ⟨rfl, hx⟩ | ⟨-, h⟩ := seat_update hcpu h
    · cases hx
      obtain ⟨rfl, -⟩ | ⟨-, h'⟩ := seat_update hcpu h'
      · rfl
      · exact absurd h' (hnot c'' pc')
    · obtain ⟨rfl, hx⟩ | ⟨-, h'⟩ := seat_update hcpu h'
      · cases hx
        exact absurd h (hnot c' pc)
      · exact hi.one c' c'' i pc pc' h h'
  · by_cases hik : i = k
    · subst hik
      exact ⟨c, _, by rw [hcpu, update_self]; rfl⟩
    · rw [hkind i hik] at h
      obtain ⟨c', pc, h'⟩ := hi.on i h
      have hcc : c' ≠ c := by
        rintro rfl
        rw [hc] at h'
        cases h'
      exact ⟨c', pc, by rwa [hcpu, update_of_ne hcc]⟩
  · have hne : i ≠ k := by
      rintro rfl
      rw [hon] at h
      cases h
    rw [hkind i hne] at h
    rw [hcontext]
    exact hi.waits i h
  · have hne : i ≠ k := by
      rintro rfl
      rw [hon] at h
      cases h
    rw [hkind i hne] at h
    exact hi.off i h

end Xv6.Kernel
