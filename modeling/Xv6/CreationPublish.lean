import Xv6.CreationCalls

namespace Xv6.Threads

open Xv6.Runs Function

variable {s s' : Machine}

theorem sane_scheduler {k : ℕ} (hi : Sane s) (h : (s.thr k).state = .runnable) : Sane (scheduler s k) := by
  have hpub : Published s k := .inl h
  obtain ⟨hm, ho⟩ := (hi.slots k).live hpub
  have hthr : (scheduler s k).thr k = { s.thr k with state := .running } := by simp [scheduler, setState]
  have hq : Quiet s (scheduler s k) k :=
    ⟨rfl, rfl, rfl, fun c j hj => .inl hj, fun i hne => by simp [scheduler, setState, update_of_ne hne],
      .running, (s.thr k).context, hthr, fun c j hj hw heq => absurd (heq ▸ hpub) ((hi.jobs c j hj).idle hw)⟩
  refine hq.sane hi ⟨fun _ => ?_, fun _ => ?_, fun g hg _ => ?_⟩
  · exact ⟨hq.main hm, by rw [hthr]; exact ho⟩
  · exact ⟨hq.main hm, (s.thr k).kstack, ho, by simp [scheduler]⟩
  · obtain ⟨ho', hcomplete⟩ := (hi.slots k).first g hg hpub
    have hview : view (scheduler s k) k 0 g.page = view s k 0 g.page := by
      simp only [view, hthr]
      rfl
    exact ⟨ho', by rwa [hview]⟩

theorem sane_yield {k : ℕ} (hi : Sane s) (h : (s.thr k).state = .running) (context : ℕ) :
    Sane (yield s k context) := by
  have hpub : Published s k := .inr h
  obtain ⟨hm, ho⟩ := (hi.slots k).live hpub
  have hthr : (yield s k context).thr k = { s.thr k with state := .runnable, context := context } := by
    simp [yield]
  have hq : Quiet s (yield s k context) k :=
    ⟨rfl, rfl, rfl, fun c j hj => .inl hj, fun i hne => by simp [yield, update_of_ne hne],
      .runnable, context, hthr, fun c j hj hw heq => absurd (heq ▸ hpub) ((hi.jobs c j hj).idle hw)⟩
  refine hq.sane hi ⟨fun _ => ?_, fun hon => ?_, fun g hg _ => ?_⟩
  · exact ⟨hq.main hm, by rw [hthr]; exact ho⟩
  · simp [yield] at hon
  · simp [yield] at hg

theorem sane_trapret {k : ℕ} (hi : Sane s) : Sane { s with first := update s.first k none } := by
  have hq : Quiet s { s with first := update s.first k none } k := by
    refine ⟨rfl, rfl, rfl, fun c j hj => .inl hj, fun i hne => by simp [update_of_ne hne],
      (s.thr k).state, (s.thr k).context, rfl, fun c j hj hw heq => ?_⟩
    obtain ⟨h₁, h₂⟩ := not_or.mp ((hi.jobs c j hj).idle hw)
    rw [heq] at h₁ h₂
    exact ⟨h₁, h₂, rfl⟩
  refine hq.sane hi ⟨fun hp => ?_, fun hon => ?_, fun g hg _ => ?_⟩
  · obtain ⟨hm, ho⟩ := (hi.slots k).live hp
    exact ⟨hq.main hm, ho⟩
  · obtain ⟨hm, hpage⟩ := (hi.slots k).cpu hon
    exact ⟨hq.main hm, hpage⟩
  · simp at hg

def CreatePublishes (s : Machine) : Event → Prop
  | .run c => ∃ j ∈ s.job c, j.isThread = true ∧ j.ops.head? = some .runnable
  | _ => False

instance (s : Machine) : ∀ e, Decidable (CreatePublishes s e)
  | .run c => inferInstanceAs (Decidable (∃ j ∈ s.job c, _))
  | .userinit | .trap _ _ | .fork _ _ | .kthreadCreate _ _ _ _ | .kalloc _ _ | .copyuvm _
      _ | .scheduler _ | .trapret _
  | .yield _ _ => inferInstanceAs (Decidable False)

theorem sane_run {c : Creator} (hi : Sane s) (hok : ¬ CreatePublishes s (.run c)) (hs : runJob s c = some s') :
    Sane s' := by
  unfold runJob at hs
  split at hs
  · cases hs
  rename_i j hjob
  split at hs
  case h_1 | h_2 | h_3 => cases hs
  rename_i op ops hk hcopy hops
  simp only [Option.ite_none_left_eq_some, Option.some.injEq] at hs
  obtain ⟨_, rfl⟩ := hs
  cases hw : j.working with
  | false =>
    obtain hnil | hrel | hun := (hi.jobs c j hjob).rest hw
    · simp [hnil] at hops
    · rw [hrel] at hops
      cases hops
      exact sane_rest hi hjob hrel (.inl rfl)
    · rw [hun] at hops
      cases hops
      exact sane_rest hi hjob hun (.inr rfl)
  | true =>
    cases hp : j.isThread with
    | false => exact sane_process hi hjob hops hw hp ⟨hk, hcopy⟩
    | true =>
      refine sane_thread hi hjob hops hw hp ⟨hk, fun hr => hok ⟨j, hjob, hp, ?_⟩⟩
      rw [hops, hr]
      rfl

theorem sourceOk_trap {k : ℕ} (hi : Sane s) (h : s.inUser k) (frame : Trapframe) :
    SourceOk (trap s k frame) (.thread k) frame := by
  obtain ⟨hcpu, hm, _, _⟩ := Machine.inUser_spec hi h
  obtain ⟨_, page, ho, hesp⟩ := (hi.slots k).cpu hcpu
  exact ⟨k, page, rfl, hm, by simp [frameOf, trap], ho, by simp [trap, hesp]⟩

theorem sane_step : Preserves step (fun s e => ¬ CreatePublishes s e) Sane := by
  intro s e s' hi hok hs
  cases e with
  | userinit =>
    simp only [step, Option.ite_none_right_eq_some, Option.some.injEq] at hs
    obtain ⟨_, rfl⟩ := hs
    refine sane_allocproc hi (.inr rfl) (fun g v hg hproc htid hreq => ?_)
    exact ⟨initFrame, userinit_completes _ g v hg hproc htid hreq, fun h => absurd h (by decide)⟩
  | trap k frame =>
    simp only [step, Option.ite_none_right_eq_some, Option.some.injEq] at hs
    obtain ⟨hu, rfl⟩ := hs
    exact sane_trap hi hu frame
  | fork k frame =>
    simp only [step, Option.ite_none_right_eq_some, Option.some.injEq] at hs
    obtain ⟨⟨_, hu⟩, rfl⟩ := hs
    refine sane_allocproc (sane_trap hi hu frame) (.inl rfl) (fun g v hg _ htid hreq => ?_)
    exact ⟨frame, fork_completes frame g v hg htid hreq, fun _ => sourceOk_trap hi hu frame⟩
  | kthreadCreate k frame startFunc stack =>
    simp only [step, Option.ite_none_right_eq_some, Option.some.injEq] at hs
    obtain ⟨⟨_, hu⟩, rfl⟩ := hs
    exact sane_create (sane_trap hi hu frame) hu frame startFunc stack
  | run c => exact sane_run hi hok hs
  | kalloc c page =>
    simp only [step] at hs
    split at hs
    · cases hs
    rename_i j hjob
    split at hs
    · rename_i ops hops
      simp only [Option.ite_none_right_eq_some, Option.some.injEq] at hs
      obtain ⟨hfree, rfl⟩ := hs
      exact sane_kalloc hi hjob hops hfree
    · cases hs
  | copyuvm c copied =>
    simp only [step] at hs
    split at hs
    · cases hs
    rename_i j hjob
    split at hs
    · rename_i ops hops
      cases hs
      exact sane_copyuvm hi hjob hops copied
    · cases hs
  | scheduler k =>
    simp only [step, Option.ite_none_right_eq_some, Option.some.injEq] at hs
    obtain ⟨⟨_, _, hrun⟩, rfl⟩ := hs
    exact sane_scheduler hi hrun
  | trapret k =>
    simp only [step, Option.ite_none_right_eq_some, Option.some.injEq] at hs
    obtain ⟨_, rfl⟩ := hs
    exact sane_trapret hi
  | yield k context =>
    simp only [step, Option.ite_none_right_eq_some, Option.some.injEq] at hs
    obtain ⟨⟨_, _, hrun⟩, rfl⟩ := hs
    exact sane_yield hi hrun context

structure Booting (s : Machine) : Prop where
  uninit : ∀ k, (s.thr k).state = .uninit
  noJob : ∀ c, s.job c = none
  offCpu : ∀ k, s.onCpu k = false
  unpublished : ∀ k, s.first k = none

theorem Booting.sane (h : Booting s) : Sane s where
  jobs c j hj := by simp [h.noJob] at hj
  slots k := by
    have hidle : ¬ Published s k := by simp [Published, h.uninit]
    exact ⟨fun hp => absurd hp hidle, fun hon => by simp [h.offCpu] at hon, fun _ _ hp => absurd hp hidle⟩
  distinct c c' j j' hj := by simp [h.noJob] at hj

theorem published_complete (s s' : Machine) (hb : Booting s)
    (hr : Reaches step (fun s e => ¬ CreatePublishes s e) s s') (k : ℕ) (g : Goal) (hfirst : s'.first k = some g)
    (hp : Published s' k) : Complete g (view s' k 0 g.page) :=
  (((hr.invariant sane_step hb.sane).slots k).first g hfirst hp).2

def powerOn : Machine where
  procs := fun _ => .unused
  thr := fun _ => emptySlot
  mem := ⟨fun _ => .filled 0 0, fun _ => .word 0, fun _ => .filled 0⟩
  pages := fun _ => none
  nexttid := 1
  lock := none
  job := fun _ => none
  esp0 := fun _ => 0
  onCpu := fun _ => false
  first := fun _ => none

theorem powerOn_booting : Booting powerOn := ⟨fun _ => rfl, fun _ => rfl, fun _ => rfl, fun _ => rfl⟩

def bootTurns : List Event := [.userinit, .kalloc .boot 4096] ++ List.replicate 18 (.run .boot)

theorem published_complete_boot : ∃ s' g, Reaches step (fun s e => ¬ CreatePublishes s e) powerOn s' ∧
    s'.first 0 = some g ∧ g.frame = initFrame ∧ Complete g (view s' 0 0 g.page) :=
  have hr := exec_get_reaches powerOn bootTurns (by decide +kernel)
  ⟨_, ⟨0, 1, 4096, initFrame⟩, hr, by decide +kernel, rfl,
    published_complete powerOn _ powerOn_booting hr 0 _ (by decide +kernel) (.inl (by decide +kernel))⟩

def createTurns : List Event :=
  bootTurns ++ [.scheduler 0, .trapret 0, .kthreadCreate 0 initFrame 64 8192, .kalloc (.thread 0) 8192] ++
    List.replicate 8 (.run (.thread 0)) ++ [.scheduler 1]

theorem published_complete_fails : ∃ s' g, Reaches step Always powerOn s' ∧ s'.first 1 = some g ∧ Published s' 1 ∧
    g.frame = { initFrame with eip := 64, esp := 8192 } ∧ (view s' 1 0 g.page).frame = .filled 0 0 :=
  have hr := exec_get_reaches powerOn createTurns (by decide +kernel)
  ⟨_, ⟨0, 2, 8192, { initFrame with eip := 64, esp := 8192 }⟩, hr,
    by decide +kernel, .inr (by decide +kernel), rfl, by decide +kernel⟩

end Xv6.Threads
