import Xv6.KernelTurns

namespace Xv6.Kernel

open Xv6.Threads Xv6.Runs Function

variable {Cpu : Type} [DecidableEq Cpu]

structure Calm (s s' : State Cpu) : Prop where
  nextpid : s'.nextpid = s.nextpid
  waited : s'.waited = s.waited
  pid : ∀ q, (s'.proc q).pid = (s.proc q).pid
  unused : ∀ q, (s.proc q).state = .unused → (s'.proc q).state = .unused
  zombie : ∀ q, (s'.proc q).state = .zombie → (s.proc q).state = .zombie
  parent : ∀ q, (s'.proc q).parent = (s.proc q).parent ∨
    (s'.proc q).state = .embryo ∧ q ≠ initproc ∧ (s'.proc q).parent ≠ some q
  sleep : ∀ i, (s'.thr i).state = .sleeping → s'.context i = .waiting →
    (s.thr i).state = .sleeping ∧ s.context i = .waiting ∧ (s'.thr i).chan = (s.thr i).chan

inductive Outcome (s s' : State Cpu) : Prop
  | calm (h : Calm s s')
  | allocs (c : Cpu) (k q : ℕ) (hq : (s.proc q).state = .unused) (hnot : q ≠ initproc)
    (hproc : s'.proc = Function.update s.proc q { s.proc q with state := .embryo, pid := s.nextpid })
    (hnext : s'.nextpid = s.nextpid + 1) (hwaited : s'.waited = s.waited)
    (hsleep : ∀ i, (s'.thr i).state = .sleeping → s'.context i = .waiting →
      (s.thr i).state = .sleeping ∧ s.context i = .waiting ∧ (s'.thr i).chan = (s.thr i).chan)
  | exits (c : Cpu) (k : ℕ) (hc : s.cpu c = .runs k .exitClose) (h : s' = exitFinal s c k)
  | finds (c : Cpu) (k q : ℕ) (r : State Cpu) (hr : Calm s r) (hproc : r.proc = s.proc)
    (hthr : ∀ i, (r.thr i).state = (s.thr i).state) (hq : zombieChild r.proc (row k) = some q)
    (h : s' = waitFound r c k q)
  | sleeps (c : Cpu) (k : ℕ) (r : State Cpu) (hr : Calm s r) (hproc : r.proc = s.proc)
    (hq : zombieChild r.proc (row k) = none)
    (h : s' = (r.setThr (Function.update r.thr k
      { r.thr k with chan := procChan (row k), state := .sleeping })).sched c k
      .waiting)

section

variable {s s' : State Cpu} {a : Flows} {c : Cpu} {k j q : ℕ} {pc : Pc}

omit [DecidableEq Cpu] in
theorem calm_threads (hproc : s'.proc = s.proc) (hnext : s'.nextpid = s.nextpid) (hwaited : s'.waited = s.waited)
    (hsleep : ∀ i, (s'.thr i).state = .sleeping → s'.context i = .waiting →
      (s.thr i).state = .sleeping ∧ s.context i = .waiting ∧ (s'.thr i).chan = (s.thr i).chan) : Calm s s' :=
  ⟨hnext, hwaited, by simp [hproc], by simp [hproc], by simp [hproc], by simp [hproc], hsleep⟩

omit [DecidableEq Cpu] in
theorem calm_cpu (hproc : s'.proc = s.proc) (hnext : s'.nextpid = s.nextpid) (hwaited : s'.waited = s.waited)
    (hthr : s'.thr = s.thr) (hcontext : s'.context = s.context) : Calm s s' := by
  apply calm_threads hproc hnext hwaited
  intro i hi hctx
  rw [hthr] at hi ⊢
  rw [hcontext] at hctx
  exact ⟨hi, hctx, rfl⟩

variable {thr : Table} {i : ℕ} {ctx : Context} {r : State Cpu}

theorem sleeping_update {t : Kthread} (ht : t.state ≠ .sleeping)
    (hi : (update thr k t i).state = .sleeping) : update thr k t i = thr i := by
  by_cases hik : i = k
  · rw [hik, update_self] at hi
    exact absurd hi ht
  · exact update_of_ne hik _ _

theorem sleeping_wakeup1 {proc : ℕ → Proc} {chan : Chan}
    (hi : (wakeup1 proc thr chan i).state = .sleeping) : wakeup1 proc thr chan i = thr i := by
  unfold wakeup1 at hi ⊢
  split_ifs at hi ⊢
  rfl

omit [DecidableEq Cpu] in
theorem calm_table (hproc : s'.proc = s.proc) (hnext : s'.nextpid = s.nextpid) (hwaited : s'.waited = s.waited)
    (hthr : ∀ i, (s'.thr i).state = .sleeping → (s.thr i).state = .sleeping ∧ (s'.thr i).chan = (s.thr i).chan)
    (hcontext : ∀ i, s'.context i = .waiting → s.context i = .waiting) : Calm s s' := by
  apply calm_threads hproc hnext hwaited
  intro i hi hctx
  exact ⟨(hthr i hi).1, hcontext i hctx, (hthr i hi).2⟩

theorem context_update {context : ℕ → Context} (hctx : ctx ≠ .waiting)
    (hi : update context k ctx i = .waiting) : context i = .waiting := by
  by_cases hik : i = k
  · rw [hik, update_self] at hi
    exact absurd hi hctx
  · rwa [update_of_ne hik] at hi

omit [DecidableEq Cpu] in
theorem Calm.trans (h : Calm s r) (h' : Calm r s') (hproc : r.proc = s.proc) : Calm s s' := by
  refine ⟨h'.nextpid.trans h.nextpid, h'.waited.trans h.waited, fun q => (h'.pid q).trans (h.pid q),
    fun q hq => h'.unused q (h.unused q hq), fun q hq => h.zombie q (h'.zombie q hq),
    fun q => ?_, fun i hi hctx => ?_⟩
  · have hq := h'.parent q
    rwa [hproc] at hq
  · obtain ⟨hi', hctx', hchan⟩ := h'.sleep i hi hctx
    obtain ⟨hi'', hctx'', hchan'⟩ := h.sleep i hi' hctx'
    exact ⟨hi'', hctx'', hchan.trans hchan'⟩

omit [DecidableEq Cpu] in
theorem clearChan_calm (h : (s.thr k).state ≠ .sleeping) : Calm s (clearChan s k) := by
  refine calm_table rfl rfl rfl (fun i hi => ?_) (fun _ => id)
  have hsame := sleeping_update (t := { s.thr k with chan := .null }) h hi
  change (update s.thr k _ i).state = .sleeping at hi
  change _ ∧ (update s.thr k _ i).chan = _
  rw [hsame] at hi ⊢
  exact ⟨hi, rfl⟩

theorem sched_calm (hctx : ctx ≠ .waiting)
    (hthr : ∀ i, i ≠ k → (thr i).state = .sleeping → thr i = s.thr i) : Calm s ((s.setThr thr).sched c k ctx) := by
  refine calm_threads rfl rfl rfl fun i hi hwaiting => ?_
  change update s.context k ctx i = .waiting at hwaiting
  change (thr i).state = .sleeping at hi
  have hne : i ≠ k := by
    rintro rfl
    rw [update_self] at hwaiting
    exact hctx hwaiting
  change _ ∧ _ ∧ (thr i).chan = _
  have hsame := hthr i hne hi
  rw [hsame] at hi ⊢
  exact ⟨hi, context_update hctx hwaiting, rfl⟩

theorem goto_calm (hthr : ∀ i, (thr i).state = .sleeping → thr i = s.thr i) :
    Calm s ((s.setThr thr).goto c k pc) := by
  refine calm_threads rfl rfl rfl fun i hi hctx => ?_
  change (thr i).state = .sleeping at hi
  change _ ∧ _ ∧ (thr i).chan = _
  have hsame := hthr i hi
  rw [hsame] at hi ⊢
  exact ⟨hi, hctx, rfl⟩

theorem joinStep_calm {r : JoinResult} : Calm s (joinStep s c k r) := by
  cases r with
  | fails => exact calm_cpu rfl rfl rfl rfl rfl
  | sleeps t => exact sched_calm (by simp) (fun i hi _ => update_of_ne hi _ _)
  | reaps t =>
    have hgoto : Calm s ((s.setThr (JoinResult.table s.thr k (.reaps t))).goto c k .free) :=
      goto_calm (fun i hi => sleeping_update (by simp) hi)
    exact hgoto.trans (calm_cpu rfl rfl rfl rfl rfl) rfl

theorem waitLoop_outcome (hr : Calm s r) (hproc : r.proc = s.proc)
    (hthr : ∀ i, (r.thr i).state = (s.thr i).state) : Outcome s (waitLoop r c k) := by
  unfold waitLoop
  split
  · rename_i q hq
    exact .finds c k q r hr hproc hthr hq rfl
  · rename_i hq
    split_ifs
    · exact .calm (hr.trans (calm_cpu rfl rfl rfl rfl rfl) hproc)
    · exact .sleeps c k r hr hproc hq rfl

theorem allocproc_outcome (hr : Represents s a) : Outcome s (allocproc s c k) := by
  unfold allocproc
  split
  · exact .calm (calm_cpu rfl rfl rfl rfl rfl)
  · rename_i q hq
    have hunused := (searchUnused_spec hq).2
    refine .allocs c k q hunused ?_ rfl rfl rfl (fun i hi hctx => ?_)
    · rintro rfl
      rw [hr.state, hr.sound.init] at hunused
      cases hunused
    · change (allocprocTable s.thr q s.nexttid i).state = .sleeping at hi
      have hsame : allocprocTable s.thr q s.nexttid i = s.thr i := by
        refine allocprocTable_other fun hrow => ?_
        rw [allocprocTable_row hrow] at hi
        cases hi
      change _ ∧ _ ∧ (allocprocTable s.thr q s.nexttid i).chan = _
      rw [hsame] at hi ⊢
      exact ⟨hi, hctx, rfl⟩

omit [DecidableEq Cpu] in
theorem calm_row {p : Proc} (hpid : p.pid = (s.proc q).pid)
    (hunused : (s.proc q).state = .unused → p.state = .unused) (hzombie : p.state ≠ .zombie)
    (hparent : p.parent = (s.proc q).parent ∨ p.state = .embryo ∧ q ≠ initproc ∧ p.parent ≠ some q)
    (hproc : s'.proc = update s.proc q p) (hnext : s'.nextpid = s.nextpid) (hwaited : s'.waited = s.waited)
    (hthr : ∀ i, (s'.thr i).state = .sleeping → s'.thr i = s.thr i) (hcontext : s'.context = s.context) :
    Calm s s' := by
  have hrow (i : ℕ) : i = q ∧ s'.proc i = p ∨ s'.proc i = s.proc i := by
    rw [hproc]
    by_cases hi : i = q
    · exact .inl ⟨hi, by rw [hi, update_self]⟩
    · exact .inr (update_of_ne hi _ _)
  refine ⟨hnext, hwaited, fun i => ?_, fun i hi => ?_, fun i hi => ?_, fun i => ?_, fun i hi hctx => ?_⟩
  · obtain ⟨rfl, h⟩ | h := hrow i
    · rw [h, hpid]
    · rw [h]
  · obtain ⟨rfl, h⟩ | h := hrow i
    · rw [h]
      exact hunused hi
    · rwa [h]
  · obtain ⟨rfl, h⟩ | h := hrow i
    · rw [h] at hi
      exact absurd hi hzombie
    · rwa [h] at hi
  · obtain ⟨rfl, h⟩ | h := hrow i
    · rw [h]
      exact hparent
    · rw [h]
      exact .inl rfl
  · rw [hcontext] at hctx
    have hsame := hthr i hi
    rw [hsame] at hi ⊢
    exact ⟨hi, hctx, rfl⟩

omit [DecidableEq Cpu] in
theorem setState_calm {state : ThreadState} (hstate : state ≠ .sleeping)
    (hthr : ∀ i, (thr i).state = .sleeping → thr i = s.thr i) (i : ℕ)
    (hi : (setState thr k state i).state = .sleeping) : setState thr k state i = s.thr i := by
  have hsame : setState thr k state i = thr i := sleeping_update hstate hi
  rw [hsame] at hi ⊢
  exact hthr i hi

theorem requestExit_calm {b : ℕ} : Calm s ((s.setThr (requestExit s.thr b k)).goto c k pc) := by
  refine calm_threads rfl rfl rfl fun i hi hctx => ?_
  change (requestExit s.thr b k i).state = .sleeping at hi
  change _ ∧ _ ∧ (requestExit s.thr b k i).chan = _
  unfold requestExit at hi ⊢
  split_ifs at hi ⊢
  · exact ⟨hi, hctx, rfl⟩
  · exact ⟨hi, hctx, rfl⟩

theorem run_outcome (hr : Represents s a) (hc : s.cpu c = .runs k pc) (h : run s c k pc = some s') :
    Outcome s s' := by
  have hk : a.flow k = some pc := hr.flow (by rw [hc]; rfl)
  have hregion {r : State Cpu} (h : region s r = some s') : s' = r := by
    simp only [region, Option.ite_none_right_eq_some, Option.some.injEq] at h
    exact h.2.symm
  have hembryo {q : ℕ} (ho : pc.owns = some (.row q)) : (s.proc q).state = .embryo := by
    rw [hr.state]
    exact hr.sound.owned k pc _ hk ho
  have hnotInit {q : ℕ} (hq : (s.proc q).state = .embryo) : q ≠ initproc := by
    rintro rfl
    rw [hr.state, hr.sound.init] at hq
    cases hq
  cases pc with
  | allocproc => exact hregion h ▸ allocproc_outcome hr
  | forkUnused q =>
    cases h
    exact .calm (calm_row (q := q) (p := { s.proc q with state := .unused }) rfl (fun _ => rfl)
      (by simp) (.inl rfl) rfl rfl
      rfl (fun _ _ => rfl) rfl)
  | forkUninit q =>
    cases h
    exact .calm (goto_calm (setState_calm (by simp) (fun _ _ => rfl)))
  | forkParent q =>
    cases h
    have hq := hembryo (q := q) rfl
    refine .calm (calm_row (q := q) (p := { s.proc q with parent := some (row k) }) rfl id ?_
      (.inr ⟨hq, hnotInit hq, ?_⟩)
      rfl rfl rfl (fun _ _ => rfl) rfl)
    · simp [hq]
    · rw [ne_eq, Option.some.injEq]
      rintro rfl
      have hused := hr.sound.used k _ hk
      rw [← hr.state, hq] at hused
      cases hused
  | forkUsed q =>
    rw [hregion h]
    have hq := hembryo (q := q) rfl
    exact .calm (calm_row (q := q) (p := { s.proc q with state := .used }) rfl (by simp [hq])
      (by simp) (.inl rfl) rfl rfl rfl (setState_calm (by simp) (fun _ _ => rfl)) rfl)
  | createSearch =>
    rw [hregion h]
    unfold createSearch
    split
    · exact .calm (calm_cpu rfl rfl rfl rfl rfl)
    · rename_i j hj
      have huninit : (s.thr j).state = .uninit := by simpa using List.find?_some hj
      refine .calm (calm_table rfl rfl rfl (fun i hi => ?_) (fun _ => id))
      have hsame : update s.thr j { s.thr j with tproc := some (row k), tid := s.nexttid } i = s.thr i :=
        sleeping_update (by simp [huninit]) hi
      change (update s.thr j _ i).state = .sleeping at hi
      change _ ∧ (update s.thr j _ i).chan = _
      rw [hsame] at hi ⊢
      exact ⟨hi, rfl⟩
  | createContext j =>
    cases h
    exact .calm (calm_table rfl rfl rfl (fun _ hi => ⟨hi, rfl⟩) (fun i hi => context_update (by simp) hi))
  | createRequest j =>
    cases h
    refine .calm (calm_table rfl rfl rfl (fun i hi => ?_) (fun _ => id))
    change (update s.thr j _ i).state = .sleeping at hi
    change _ ∧ (update s.thr j _ i).chan = _
    by_cases hij : i = j
    · subst hij
      rw [update_self] at hi ⊢
      exact ⟨hi, rfl⟩
    · rw [update_of_ne hij] at hi ⊢
      exact ⟨hi, rfl⟩
  | createRunnable j =>
    cases h
    exact .calm (goto_calm (setState_calm (by simp) (fun _ _ => rfl)))
  | kexitScan =>
    rw [hregion h]
    unfold kexitScan
    split_ifs
    · exact .calm (calm_cpu rfl rfl rfl rfl rfl)
    · exact .calm (sched_calm (by simp) (fun i _ hi => setState_calm (by simp) (fun _ => sleeping_wakeup1) i hi))
  | exitScan kexit =>
    simp only [run, Option.ite_none_left_eq_some] at h
    rw [hregion h.2]
    unfold exitScan
    split_ifs
    · exact .calm (calm_cpu rfl rfl rfl rfl rfl)
    all_goals exact .calm requestExit_calm
  | exitClose => exact .exits c k hc (hregion h)
  | kexitWake => cases hr.sound.strays k _ hk
  | kexitMark => cases hr.sound.strays k _ hk
  | join threadId => exact hregion h ▸ .calm joinStep_calm
  | wait => exact hregion h ▸ waitLoop_outcome (calm_cpu rfl rfl rfl rfl rfl) rfl (fun _ => rfl)
  | _ => cases h

theorem resume_outcome (hr : Represents s a) (hc : s.cpu c = .resumes k ctx)
    (h : resume s c k ctx = some s') : Outcome s s' := by
  have hseat : (s.cpu c).seat = some (k, ctx.pc) := by rw [hc]; rfl
  have hclear : Calm s (clearChan s k) := by
    apply clearChan_calm
    intro hsleeping
    have hon := (hr.seats.cpu c k _ hseat).1
    rw [hsleeping] at hon
    cases hon
  cases ctx with
  | forkret =>
    cases h
    exact .calm (calm_cpu rfl rfl rfl rfl rfl)
  | yielded pc =>
    cases h
    exact .calm (calm_cpu rfl rfl rfl rfl rfl)
  | slept pc =>
    cases h
    exact .calm (hclear.trans (calm_cpu rfl rfl rfl rfl rfl) rfl)
  | waiting =>
    cases h
    refine waitLoop_outcome hclear rfl fun i => ?_
    change (update s.thr k { s.thr k with chan := .null } i).state = _
    by_cases hik : i = k
    · rw [hik, update_self]
    · rw [update_of_ne hik]
  | joining t =>
    cases h
    exact .calm (hclear.trans joinStep_calm rfl)
  | dead => cases h

theorem scheduler_outcome (h : scheduler s c = some s') : Outcome s s' := by
  unfold scheduler at h
  simp only at h
  split at h
  · simp only [Option.ite_none_right_eq_some, Option.some.injEq] at h
    obtain ⟨-, rfl⟩ := h
    exact .calm (calm_cpu rfl rfl rfl rfl rfl)
  · split_ifs at h
    all_goals cases h
    all_goals exact .calm (calm_cpu rfl rfl rfl rfl rfl)
  · split_ifs at h
    · cases h
      exact .calm (calm_cpu rfl rfl rfl rfl rfl)
    · cases h
      exact .calm (calm_cpu rfl rfl rfl rfl rfl)
    · rename_i k _ _ _
      cases h
      refine .calm (calm_threads rfl rfl rfl fun i hi hctx => ?_)
      have hsame : setState s.thr k .running i = s.thr i := sleeping_update (by simp) hi
      change (setState s.thr k .running i).state = .sleeping at hi
      change _ ∧ _ ∧ (setState s.thr k .running i).chan = _
      rw [hsame] at hi ⊢
      exact ⟨hi, hctx, rfl⟩
  · cases h

theorem alloc_outcome {ok : Bool} (h : alloc s c k ok pc = some s') : Outcome s s' := by
  unfold alloc at h
  split at h
  · cases h
    split_ifs
    · exact .calm (calm_table rfl rfl rfl (fun _ hi => ⟨hi, rfl⟩) (fun i hi => context_update (by simp) hi))
    · exact .calm (calm_cpu rfl rfl rfl rfl rfl)
  · cases h
    exact .calm (calm_cpu rfl rfl rfl rfl rfl)
  · cases h
    exact .calm (calm_cpu rfl rfl rfl rfl rfl)
  · cases h

theorem step_outcome {e : Event Cpu} (hr : Represents s a) (h : step s e = some s') : Outcome s s' := by
  have hregion {r : State Cpu} (h : region s r = some s') : s' = r := by
    simp only [region, Option.ite_none_right_eq_some, Option.some.injEq] at h
    exact h.2.symm
  cases e with
  | scheduler c => exact scheduler_outcome h
  | call c call =>
    simp only [step] at h
    split at h
    · cases h
      exact .calm (calm_cpu rfl rfl rfl rfl rfl)
    · cases h
  | run c =>
    simp only [step] at h
    split at h
    · rename_i k pc hc
      exact run_outcome hr hc h
    · rename_i k ctx hc
      exact resume_outcome hr hc h
    · cases h
  | alloc c ok =>
    simp only [step] at h
    split at h
    · exact alloc_outcome h
    · cases h
  | sleep c addr =>
    simp only [step] at h
    split at h
    · simp only [Option.ite_none_right_eq_some] at h
      rw [hregion h.2]
      exact .calm (sched_calm (by simp) (fun i hi _ => update_of_ne hi _ _))
    · cases h
  | preempt c =>
    simp only [step] at h
    split at h
    · simp only [Option.ite_none_right_eq_some] at h
      rw [hregion h.2]
      exact .calm (sched_calm (by simp) (fun i hi _ => setState_other hi))
    · cases h
  | wakeup addr =>
    simp only [step, Option.ite_none_right_eq_some] at h
    rw [hregion h.2]
    refine .calm (calm_table rfl rfl rfl (fun i hi => ?_) (fun _ => id))
    change (wakeup1 s.proc s.thr _ i).state = .sleeping at hi
    change _ ∧ (wakeup1 s.proc s.thr _ i).chan = _
    have hsame := sleeping_wakeup1 hi
    rw [hsame] at hi ⊢
    exact ⟨hi, rfl⟩
  | kill pid =>
    rw [hregion h]
    refine .calm ⟨rfl, rfl, fun q => (killTable_proc pid q).2.1, fun q hq => ?_, fun q hq => ?_,
      fun q => .inl (killTable_proc pid q).2.2, fun _ hi hctx => ⟨hi, hctx, rfl⟩⟩
    · exact (killTable_proc pid q).1.trans hq
    · exact (killTable_proc pid q).1.symm.trans hq

end

end Xv6.Kernel
