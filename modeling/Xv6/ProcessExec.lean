import Xv6.ProcessImages

namespace Xv6.Process

open Xv6.Threads Xv6.Runs

structure ExecInv (base : ℕ) (s : State) : Prop where
  sound : Sound base s
  exec : ExecOk base s

variable {base k : ℕ} {s s' : State}

theorem execInv_step (base : ℕ) : Preserves (step base) (ExecTurn base) (ExecInv base) :=
  fun _ _ _ hi hturn h => ⟨sound_step hi.sound h hturn.1, execOk_step hi.exec hi.sound h hturn.2⟩

theorem ExecInv.running (hi : ExecInv base s) (hk : k ∈ slots base) (hr : (s.thr k).state = .running) :
    s.cr3 k ∉ s.freed := by
  obtain hcr3 | hpc := hi.exec.running k hk hr
  · rw [hcr3]
    refine hi.exec.kept (fun hu => ?_)
    have hdead := hi.sound.used (by simp [hu]) k hk
    rw [hr] at hdead
    cases hdead
  · have hplace := hi.exec.place k
    rw [hpc] at hplace
    exact hplace.2.1

theorem ExecInv.frees {old : ℕ} (hi : ExecInv base s) (hp : s.pc k = .execFree old)
    (h : step base s (.run k) = some s') : s'.freed.count old = 1 := by
  have hplace := hi.exec.place k
  rw [hp] at hplace
  simp only [step, run, hp, Option.ite_none_right_eq_some, Option.some.injEq] at h
  rw [← h.2]
  simp only [List.count_cons_self, List.count_eq_zero.mpr hplace.2.1]

theorem exec_alone (s s' : State) (hstart : Start base s) (h : Reaches (step base) (ExecTurn base) s s') :
    (∀ k, (∃ pgdir old, s'.pc k = .execOld pgdir old) ∨ (∃ old, s'.pc k = .execFree old) → Alone base s' k) ∧
    (∀ k ∈ slots base, (s'.thr k).state = .running → s'.cr3 k ∉ s'.freed) ∧
    (s'.state = .used → s'.pgdir ∉ s'.freed) ∧ s'.freed.Nodup ∧
    ∀ k old s'', s'.pc k = .execFree old → step base s' (.run k) = some s'' → s''.freed.count old = 1 := by
  have hi : ExecInv base s' := h.invariant (execInv_step base) ⟨start_sound hstart, start_exec hstart⟩
  refine ⟨?_, fun k hk hr => hi.running hk hr, fun hu => hi.exec.kept (by simp [hu]), hi.exec.once,
    fun k old s'' hp hstep => hi.frees hp hstep⟩
  rintro k (⟨_, _, hp⟩ | ⟨_, hp⟩) <;> exact hi.exec.alone k (by rw [hp]; rfl)

def soleExec : List Event :=
  startThread 16 ++ enterCall 16 .exec ++ [.run 16, .run 16, .setupkvm 16, .run 16, .run 16, .run 16]

theorem exec_alone_soleExec : ∃ s', Reaches (step 16) (ExecTurn 16) forked s' ∧ s'.pc 16 = .execFree 1 ∧
    Alone 16 s' 16 ∧ s'.cr3 16 ∉ s'.freed := by
  obtain ⟨s', hr, hpc, hrun⟩ : ∃ s', Reaches (step 16) (ExecTurn 16) forked s' ∧ s'.pc 16 = .execFree 1 ∧
      (s'.thr 16).state = .running := ⟨_, exec_get_reaches forked soleExec (by decide +kernel), by decide +kernel⟩
  obtain ⟨halone, hcr3, _⟩ := exec_alone forked s' forked_start hr
  exact ⟨s', hr, hpc, halone 16 (.inr ⟨1, hpc⟩), hcr3 16 (by decide) hrun⟩

def siblingRuns : List Event :=
  secondThread ++ enterCall 16 .exec ++ [.run 16, .run 16, .setupkvm 16] ++ List.replicate 4 (.run 16)

def twoExecs : List Event :=
  secondThread ++ enterCall 16 .exec ++ enterCall 17 .exec ++
    [.run 16, .run 17, .run 16, .run 17, .setupkvm 16, .setupkvm 17, .run 16, .run 17] ++
    List.replicate 3 (.run 16) ++ List.replicate 3 (.run 17)

theorem exec_alone_fails : (∃ s', Reaches (step 16) Always forked s' ∧ s'.eax 16 = 0 ∧ s'.freed = [1] ∧
      (s'.thr 17).state = .running ∧ s'.pc 17 = .user ∧ s'.cr3 17 = 1) ∧
    ∃ s', Reaches (step 16) Always forked s' ∧ s'.freed = [1, 1] :=
  ⟨⟨_, exec_get_reaches forked siblingRuns (by decide +kernel), by decide +kernel⟩,
    ⟨_, exec_get_reaches forked twoExecs (by decide +kernel), by decide +kernel⟩⟩

end Xv6.Process
