import Xv6.KernelWait

namespace Xv6.Kernel

open Xv6.Threads Xv6.Runs

variable {Cpu : Type} [DecidableEq Cpu]

theorem scheduler_resumes {s s' : State Cpu} {c : Cpu} {k : ℕ} {ctx : Context} (h : scheduler s c = some s')
    (hk : s'.cpu c = .resumes k ctx) : (s.thr k).state = .runnable ∧ s'.proc = s.proc := by
  have hscan {x : CpuState} (hx : Function.update s.cpu c x c = .resumes k ctx) : x = .resumes k ctx := by
    rwa [Function.update_self] at hx
  unfold scheduler at h
  simp only at h
  split at h
  · simp only [Option.ite_none_right_eq_some, Option.some.injEq] at h
    obtain ⟨-, rfl⟩ := h
    cases hscan hk
  · split_ifs at h
    all_goals cases h
    all_goals cases hscan hk
  · split_ifs at h with _ hrun
    · cases h
      cases hscan hk
    · cases h
      cases hscan hk
    · cases h
      cases hscan hk
      exact ⟨not_not.mp hrun, rfl⟩
  · cases h

theorem live_threads_used (s : State Cpu) (hr : Reaches step KernelTurn boot s) :
    (∀ k, (s.thr k).state.live → (s.proc (row k)).state = .used) ∧
    (∀ q k, (s.proc q).state = .zombie → hasNonTerminated s.thr k q = false) ∧ (∀ w ∈ s.waited, w.pid ≠ 0) ∧
    ∀ c s' k ctx, step s (.scheduler c) = some s' → s'.cpu c = .resumes k ctx →
    (s'.proc (row k)).state = .used := by
  obtain ⟨⟨a, hrep⟩, hp, -⟩ := hr.invariant kernelSound_step boot_sound
  have hlive (k : ℕ) (hk : (s.thr k).state.live) : (s.proc (row k)).state = .used := by
    rw [live_iff] at hk
    have hne : a.flow k ≠ none := fun hnone => hk (hrep.seats.off_of_none hnone)
    obtain ⟨pc, hpc⟩ := Option.ne_none_iff_exists'.mp hne
    rw [hrep.state]
    exact hrep.sound.used k pc hpc
  refine ⟨hlive, fun q k hq => hrep.ended hq, fun w hw => ?_, fun c s' k ctx h hk => ?_⟩
  · have hpos := (hp.waited w hw).1
    omega
  · obtain ⟨hrunnable, hproc⟩ := scheduler_resumes h hk
    rw [hproc]
    apply hlive
    rw [hrunnable]
    rfl

def cpuA : Fin 2 := ⟨0, Nat.two_pos⟩

def cpuB : Fin 2 := ⟨1, Nat.one_lt_two⟩

def forks (c : Fin 2) : List (Event (Fin 2)) :=
  [.call c .fork, .run c, .alloc c true, .alloc c true, .run c, .run c]

def creates (c : Fin 2) : List (Event (Fin 2)) :=
  [.call c .kthreadCreate, .run c, .alloc c true, .run c, .run c, .run c]

def scans (c : Fin 2) (n : ℕ) : List (Event (Fin 2)) := List.replicate n (.scheduler c)

def waitTurns : List (Event (Fin 2)) :=
  scans cpuA 3 ++ [.run cpuA] ++ forks cpuA ++ [.call cpuA .wait, .run cpuA] ++ scans cpuA 18 ++
    [.run cpuA, .call cpuA .exit, .run cpuA, .run cpuA] ++ scans cpuA 82 ++ [.run cpuA]

theorem live_threads_used_waitTurns : ∃ s : State (Fin 2), Reaches step KernelTurn boot s ∧
    s.waited = [⟨0, 2, some 0, .zombie⟩] ∧ (∀ w ∈ s.waited, w.pid ≠ 0) ∧ (s.proc (row 0)).state = .used :=
  have hr : Reaches step KernelTurn boot _ := exec_get_reaches boot waitTurns (by decide +kernel)
  have huse := live_threads_used _ hr
  ⟨_, hr, by decide +kernel, huse.2.2.1, huse.1 0 (by decide +kernel)⟩

def lateTurns : List (Event (Fin 2)) :=
  scans cpuA 3 ++ [.run cpuA] ++ creates cpuA ++ scans cpuB 4 ++ [.run cpuB] ++
    [.call cpuA .fork, .run cpuA, .alloc cpuA true, .alloc cpuA false, .run cpuA] ++
    forks cpuB ++ [.preempt cpuB] ++ scans cpuB 17 ++ [.run cpuB] ++ creates cpuB

def exitTurns : List (Event (Fin 2)) :=
  lateTurns ++ [.run cpuA, .preempt cpuA, .scheduler cpuA, .run cpuA, .sleep cpuA NPROC] ++ scans cpuA 18 ++
    [.run cpuA, .call cpuA .exit, .run cpuA, .run cpuA] ++ scans cpuA 81

def lostTurns : List (Event (Fin 2)) :=
  exitTurns ++ [.run cpuA, .sleep cpuB NPROC] ++ scans cpuB 79 ++ [.call cpuA .wait, .run cpuA]

theorem live_threads_used_fails : ∃ s : State (Fin 2), Reaches step Always boot s ∧
    (s.proc 1).state = .zombie ∧ (s.thr (base 1)).state = .sleeping ∧ s.waited = [⟨0, 0, some 0, .zombie⟩] :=
  ⟨_, exec_get_reaches boot lostTurns (by decide +kernel), by decide +kernel, by decide +kernel, by decide +kernel⟩

theorem exit_wait_protocol (s : State Cpu) (hr : Reaches step KernelTurn boot s) :
    (∀ p, p ≠ initproc → (s.proc p).state = .used ∨ (s.proc p).state = .zombie →
      ∃ q, (s.proc p).parent = some q ∧ (s.proc q).state = .used) ∧
    ((s.waited.map (·.pid)).Nodup ∧ ∀ w ∈ s.waited, w.parent = some w.proc ∧ w.state = .zombie) ∧
    ∀ k p, (s.thr k).state = .sleeping → s.context k = .waiting → (s.proc p).parent = some (row k) →
      (s.proc p).state ≠ .zombie := by
  obtain ⟨⟨a, hrep⟩, hp, hi⟩ := hr.invariant kernelSound_step boot_sound
  refine ⟨fun p hne hs => ?_, ⟨hp.once, fun w hw => (hp.waited w hw).2.2⟩,
    fun k p hk hctx => (hi.sleep k hk hctx).2 p⟩
  rw [hrep.state] at hs
  obtain ⟨q, hparent, hused⟩ := hrep.sound.parents p hne hs
  exact ⟨q, by rw [hrep.parent, hparent], by rw [hrep.state, hused]⟩

def orphanTurns : List (Event (Fin 2)) :=
  scans cpuA 3 ++ [.run cpuA] ++ forks cpuA ++ [.call cpuA .wait, .run cpuA] ++ scans cpuA 18 ++
  [.run cpuA] ++ forks cpuA ++
    [.call cpuA .exit, .run cpuA, .run cpuA]

theorem exit_wait_protocol_orphanTurns : ∃ s : State (Fin 2), Reaches step KernelTurn boot s ∧
    (s.proc 1).state = .zombie ∧ (s.proc 2).state = .used ∧ (s.proc 2).parent = some initproc ∧
    (∃ q, (s.proc 2).parent = some q ∧ (s.proc q).state = .used) ∧ (s.waited.map (·.pid)).Nodup :=
  have hr : Reaches step KernelTurn boot _ := exec_get_reaches boot orphanTurns (by decide +kernel)
  have huse := exit_wait_protocol _ hr
  ⟨_, hr, by decide +kernel, by decide +kernel, by decide +kernel, huse.1 2 (by decide) (.inl (by decide +kernel)),
    huse.2.1.1⟩

def zombieParentTurns : List (Event (Fin 2)) := exitTurns ++ [.run cpuA] ++ forks cpuB

theorem exit_wait_protocol_fails : ∃ s : State (Fin 2), Reaches step Always boot s ∧
    (s.proc 2).state = .used ∧ (s.proc 2).parent = some 1 ∧ (s.proc 1).state = .zombie :=
  ⟨_, exec_get_reaches boot zombieParentTurns (by decide +kernel),
    by decide +kernel, by decide +kernel, by decide +kernel⟩

theorem one_cpu_one_pid (s : State Cpu) (hr : Reaches step KernelTurn boot s) :
    (∀ k, kind (s.thr k).state = .on ↔ ∃ c pc, (s.cpu c).seat = some (k, pc)) ∧
    (∀ c c' k pc pc', (s.cpu c).seat = some (k, pc) → (s.cpu c').seat = some (k, pc') → c = c') ∧
    ∀ q, (s.proc q).state ≠ .unused → (∀ w ∈ s.waited, w.pid ≠ (s.proc q).pid) ∧
      ∀ q', (s.proc q').state ≠ .unused → (s.proc q).pid = (s.proc q').pid → q = q' := by
  obtain ⟨⟨a, hrep⟩, hp, -⟩ := hr.invariant kernelSound_step boot_sound
  have hseats := hrep.seats
  exact ⟨fun k => ⟨hseats.on k, fun ⟨c, pc, hc⟩ => (hseats.cpu c k pc hc).1⟩, hseats.one,
    fun q hq => ⟨hp.gone q hq, fun q' => hp.distinct q q' hq⟩⟩

theorem one_cpu_one_pid_waitTurns : ∃ s : State (Fin 2), s.waited ≠ [] ∧ (∀ w ∈ s.waited, w.pid ≠ (s.proc 0).pid) ∧
    ∃ c pc, (s.cpu c).seat = some (0, pc) :=
  have hr : Reaches step KernelTurn boot _ := exec_get_reaches boot waitTurns (by decide +kernel)
  have hone := one_cpu_one_pid _ hr
  ⟨_, by decide +kernel, (hone.2.2 0 (by decide +kernel)).1, (hone.1 0).mp (by decide +kernel)⟩

end Xv6.Kernel
