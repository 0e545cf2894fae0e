import Xv6.CreationJobs

namespace Xv6.Threads

open Function

variable {s : Machine} {c : Creator} {j : Job} {op : Op} {ops : List Op} {i k p page : ℕ}

theorem JobOk.working_of_ops (h : JobOk s c j) (hne : j.ops ≠ [] ∧ j.ops ≠ [.release] ∧ j.ops ≠ [.uninit]) :
    j.working := by
  by_contra hw
  obtain h' | h' | h' := h.rest (by simpa using hw)
  · exact hne.1 h'
  · exact hne.2.1 h'
  · exact hne.2.2 h'

theorem JobOk.idle (h : JobOk s c j) (hw : j.working) : ¬ Published s j.slot := by
  cases hp : j.isThread with
  | false => exact not_or.mpr (h.process hw hp).idle
  | true =>
    obtain ⟨n, hj⟩ := h.thread hw hp
    exact not_or.mpr hj.idle

theorem sane_rest (hi : Sane s) (hjob : s.job c = some j) (hops : j.ops = [op])
    (hop : op = .release ∨ op = .uninit) : Sane (perform s c j op []) := by
  have hthr : (perform s c j op []).thr j.slot =
      { s.thr j.slot with state := if op = .uninit then .uninit else (s.thr j.slot).state } := by
    obtain rfl | rfl := hop <;> simp [perform, Op.thread]
  have hq : Quiet s (perform s c j op []) j.slot := by
    refine ⟨?_, ?_, ?_, fun c' j' hj' => ?_, fun i hne => ?_,
      ⟨_, (s.thr j.slot).context, hthr, fun c' j' hj' hw heq => ?_⟩⟩
    · obtain rfl | rfl := hop <;> rfl
    · obtain rfl | rfl := hop <;> rfl
    · obtain rfl | rfl := hop <;> rfl
    · by_cases hc : c' = c
      · subst hc
        rw [perform_job, Option.some.injEq] at hj'
        exact .inr (by rw [← hj']; rfl)
      · exact .inl (by simpa [perform, update_of_ne hc] using hj')
    · obtain rfl | rfl := hop <;> simp [perform, update_of_ne hne]
    · obtain ⟨h₁, h₂⟩ := not_or.mp ((hi.jobs c' j' hj').idle hw)
      rw [heq] at h₁ h₂
      split_ifs
      · simp
      · exact ⟨h₁, h₂, rfl⟩
  refine hq.sane hi ?_
  obtain ⟨hlive, hcpu, hfirst⟩ := hi.slots j.slot
  obtain rfl | rfl := hop
  · have hsame : (perform s c j .release []).thr j.slot = s.thr j.slot := by simpa using hthr
    refine ⟨fun hp => ?_, fun hon => ?_, fun g hg hp => ?_⟩
    · rw [Published, hsame] at hp
      rw [hsame]
      exact ⟨hq.main (hlive hp).1, (hlive hp).2⟩
    · obtain ⟨hm, page, ho, heq⟩ := hcpu hon
      exact ⟨hq.main hm, page, ho, heq⟩
    · rw [Published, hsame] at hp
      obtain ⟨ho, hcomplete⟩ := hfirst g hg hp
      have hview : view (perform s c j .release []) j.slot 0 g.page = view s j.slot 0 g.page := by
        simp only [view, hsame]
        rfl
      exact ⟨ho, by rwa [hview]⟩
  · have hidle : ¬ Published (perform s c j .uninit []) j.slot := by simp [Published, hthr]
    refine ⟨fun h => absurd h hidle, fun hon => ?_, fun _ _ h => absurd h hidle⟩
    obtain ⟨hm, page, ho, heq⟩ := hcpu hon
    exact ⟨hq.main hm, page, ho, heq⟩

theorem kalloc_within (hi : Sane s) (hjob : s.job c = some j) (hw : j.working)
    (hfree : page = 0 ∨ s.pages page = none) : Within s (kallocJob s c j page ops) c (· = j.slot) where
  thr i hne := by simp [kallocJob, update_of_ne hne]
  page page' i hne ho := by
    refine ⟨⟨ho.1, ?_⟩, rfl⟩
    by_cases hz : page = 0
    · simpa [kallocJob, hz] using ho.2
    · have hpp : page' ≠ page := by
        rintro rfl
        simpa using (hfree.resolve_left hz).symm.trans ho.2
      simpa [kallocJob, hz, update_of_ne hpp] using ho.2
  job c' hc := by simp [kallocJob, update_of_ne hc]
  settled p h := by
    refine ⟨h.1, fun c' j' hj' hw' hp' => ?_⟩
    by_cases hc : c' = c
    · subst hc
      simp only [kallocJob, update_self, Option.some.injEq] at hj'
      subst hj'
      exact h.2 c' j hjob hw hp'
    · simp only [kallocJob, update_of_ne hc] at hj'
      exact h.2 c' j' hj' hw' hp'
  procs c' j' _ _ _ _ := rfl
  apart c' j' hc hj' hw' := hi.apart hc hjob hj' hw hw'
  creator k j' hc hj' hw' hp' hm := hi.creator_apart hc hjob hw hm
  esp0 i _ := rfl
  onCpu i _ := rfl
  first i _ := rfl

theorem kalloc_process (hi : Sane s) (hjob : s.job c = some j) (hops : j.ops = .kalloc :: ops) (hw : j.working)
    (hp : j.isThread = false) (hpage : page ≠ 0) (hfree : s.pages page = none) :
    ProcessJob (kallocJob s c j page ops) c { j with goal := { j.goal with page := page }, ops := ops } := by
  have hj := (hi.jobs c j hjob).process hw hp
  have htail : ops ∈ programs := by simpa [hops] using programs_tail _ hj.ops
  have hmem {o : Op} (h : o ∈ ops) : o ∈ j.ops := hops ▸ List.mem_cons_of_mem _ h
  obtain ⟨src, hc, hsrc⟩ := hj.completes
  refine ⟨hj.slot, hj.proc, ?_, htail, fun hu hr => hj.used ?_ (hmem hr), fun _ _ => ⟨hpage, ?_⟩, src, ?_,
    fun hcopy => ?_⟩
  · simpa [kallocJob] using hj.idle
  · simpa [hops] using hu
  · simp [kallocJob, hpage]
  · rw [hops] at hc
    simpa [view, kallocJob] using hc page _ _ _ hpage
  · exact (hsrc (hmem hcopy)).within (kalloc_within hi hjob hw (.inr hfree))
      (fun k _ hm h => hj.not_main hjob hw hp hm h.symm)

theorem kalloc_thread (hi : Sane s) (hjob : s.job c = some j) (hops : j.ops = .kalloc :: ops) (hw : j.working)
    (hp : j.isThread = true) (hpage : page ≠ 0) (hfree : s.pages page = none) :
    ThreadJob (kallocJob s c j page ops) c { j with goal := { j.goal with page := page }, ops := ops } 1 := by
  obtain ⟨n, hj⟩ := (hi.jobs c j hjob).thread hw hp
  obtain ⟨startFunc, stack, hdrop⟩ := hj.ops
  have hn : n = 0 := by
    have hstage := hj.stage
    rw [hops] at hdrop
    interval_cases n
    case «0» => rfl
    all_goals exact absurd (List.cons.inj hdrop).1 (by simp)
  subst hn
  rw [hops] at hdrop
  refine ⟨hj.creator, (kalloc_within hi hjob hw (.inr hfree)).settled _ hj.settled, ?_, by decide,
    ⟨startFunc, stack, (List.cons.inj hdrop).2⟩, fun _ => ⟨?_, ?_⟩, fun h => absurd h (by decide),
    fun h => absurd h (by decide)⟩
  · simpa [kallocJob] using hj.idle
  · simpa [kallocJob] using hpage
  · simp [kallocJob, hpage]

theorem sane_kalloc (hi : Sane s) (hjob : s.job c = some j) (hops : j.ops = .kalloc :: ops)
    (hfree : page = 0 ∨ s.pages page = none) : Sane (kallocJob s c j page ops) := by
  have hok := hi.jobs c j hjob
  have hw : j.working := hok.working_of_ops (by simp [hops])
  have hwithin : Within s (kallocJob s c j page ops) c (· = j.slot) := kalloc_within hi hjob hw hfree
  refine sane_within hwithin hi (fun j' hj' => ?_) (fun k hk => ?_) (fun c' j₁ j₂ hc h₁ h₂ w₁ w₂ p₁ p₂ heq => ?_)
  · simp only [kallocJob, update_self, Option.some.injEq] at hj'
    subst hj'
    by_cases hz : page = 0
    · exact JobOk.nil (by simp [hz])
    · simp only [hz, ↓reduceIte]
      refine ⟨fun _ hp => kalloc_process hi hjob hops hw hp hz (hfree.resolve_left hz),
        fun _ hp => ⟨1, kalloc_thread hi hjob hops hw hp hz (hfree.resolve_left hz)⟩, fun hw' => ?_⟩
      simp_all [Job.working]
  · subst hk
    have hidle : ¬ Published (kallocJob s c j page ops) j.slot := by
      simpa [Published, kallocJob] using hok.idle hw
    refine ⟨fun h => absurd h hidle, fun hon => ?_, fun _ _ h => absurd h hidle⟩
    obtain ⟨hm, page', ho, heq⟩ := (hi.slots j.slot).cpu hon
    refine ⟨hm.within hwithin, page', ⟨ho.1, ?_⟩, heq⟩
    by_cases hz : page = 0
    · simpa [kallocJob, hz] using ho.2
    · by_cases hpp : page' = page
      · simp [kallocJob, hz, hpp]
      · simpa [kallocJob, hz, update_of_ne hpp] using ho.2
  · simp only [kallocJob, update_self, Option.some.injEq] at h₁
    subst h₁
    exact hc (hi.distinct c' c j₂ j h₂ hjob w₂ hw p₂ p₁ heq.symm)

theorem programs_copyuvm : ∀ l ∈ programs, l.head? = some .copyuvm → .kalloc ∉ l ∧ .runnable ∈ l := by decide

theorem copyuvm_process (hi : Sane s) (hjob : s.job c = some j) (hops : j.ops = .copyuvm :: ops) :
    j.working ∧ j.isThread = false := by
  have hok := hi.jobs c j hjob
  have hw : j.working := hok.working_of_ops (by simp [hops])
  refine ⟨hw, ?_⟩
  by_contra hp
  obtain ⟨n, hj⟩ := hok.thread hw (by simpa using hp)
  obtain ⟨startFunc, stack, hdrop⟩ := hj.ops
  have hmem : .copyuvm ∈ kthreadCreate startFunc stack := by
    apply List.mem_of_mem_drop (i := n)
    rw [← hdrop, hops]
    exact List.mem_cons_self
  simp [kthreadCreate, kernelStack] at hmem

theorem copyuvm_within (hjob : s.job c = some j) (hw : j.working) (copied : Bool) :
    Within s (copyuvmJob s c j copied ops) c (fun _ => False) where
  thr i _ := rfl
  page page i _ ho := ⟨ho, rfl⟩
  job c' hc := by simp [copyuvmJob, update_of_ne hc]
  settled p h := by
    refine ⟨h.1, fun c' j' hj' hw' hp' => ?_⟩
    by_cases hc : c' = c
    · subst hc
      simp only [copyuvmJob, update_self, Option.some.injEq] at hj'
      subst hj'
      exact h.2 c' j hjob hw hp'
    · simp only [copyuvmJob, update_of_ne hc] at hj'
      exact h.2 c' j' hj' hw' hp'
  procs c' j' _ _ _ _ := rfl
  apart c' j' _ _ _ := id
  creator k j' _ _ _ _ _ := id
  esp0 i _ := rfl
  onCpu i _ := rfl
  first i _ := rfl

theorem sane_copyuvm (hi : Sane s) (hjob : s.job c = some j) (hops : j.ops = .copyuvm :: ops) (copied : Bool) :
    Sane (copyuvmJob s c j copied ops) := by
  obtain ⟨hw, hp⟩ := copyuvm_process hi hjob hops
  have hj := (hi.jobs c j hjob).process hw hp
  have hwithin : Within s (copyuvmJob s c j copied ops) c (fun _ => False) := copyuvm_within hjob hw copied
  obtain ⟨hka, hr⟩ := programs_copyuvm _ hj.ops (by rw [hops]; rfl)
  obtain ⟨src, hc, hsrc⟩ := hj.completes
  rw [hops] at hc
  have hmem {o : Op} (h : o ∈ ops) : o ∈ j.ops := hops ▸ List.mem_cons_of_mem _ h
  refine sane_within hwithin hi (fun j' hj' => ?_) (fun k hk => hk.elim)
    (fun c' j₁ j₂ hcc h₁ h₂ w₁ w₂ p₁ p₂ heq => ?_)
  · simp only [copyuvmJob, update_self, Option.some.injEq] at hj'
    subst hj'
    refine ⟨fun _ _ => ?_, fun _ hth => absurd hth (by simp [hp]), fun hw' => ?_⟩
    · cases copied with
      | true =>
        refine ⟨hj.slot, hj.proc, hj.idle, by simpa [hops] using programs_tail _ hj.ops, fun hu _ => hj.used ?_ hr,
          fun _ _ => hj.page hka (.inl hr), src, hc.2,
          fun hcopy => (hsrc (hmem hcopy)).within hwithin (fun _ _ _ => id)⟩
        simpa [hops] using hu
      | false =>
        refine ⟨hj.slot, hj.proc, hj.idle, (by decide : forkFails ∈ programs), fun _ h => ?_,
          fun _ _ => hj.page hka (.inl hr), src, hc.1, fun h => ?_⟩
        · simp [forkFails] at h
        · simp [forkFails] at h
    · cases copied with
      | true =>
        rw [hops, List.mem_cons] at hr
        simp_all [Job.working]
      | false => simp [Job.working, forkFails] at hw'
  · simp only [copyuvmJob, update_self, Option.some.injEq] at h₁
    subst h₁
    exact hcc (hi.distinct c' c j₂ j h₂ hjob w₂ hw p₂ hp heq.symm)

theorem Machine.inUser_spec (hi : Sane s) (h : s.inUser k) :
    s.onCpu k ∧ Main s k ∧ s.first k = none ∧ ∀ j, s.job (.thread k) = some j → j.ops = [] := by
  simp only [Machine.inUser, Bool.and_eq_true, Option.isNone_iff_eq_none] at h
  obtain ⟨⟨hcpu, hfirst⟩, hfree⟩ := h
  refine ⟨hcpu, ((hi.slots k).cpu hcpu).1, hfirst, fun j hj => ?_⟩
  simpa [Machine.free, hj] using hfree

theorem user_apart (hi : Sane s) (h : s.inUser k) (hjob : s.job c = some j) (hw : j.working) : j.slot ≠ k := by
  obtain ⟨_, hm, _, hfree⟩ := Machine.inUser_spec hi h
  rintro rfl
  by_cases hc : .thread j.slot = c
  · rw [hc] at hfree
    simp [Job.working, hfree j hjob] at hw
  · exact hi.creator_apart hc hjob hw hm rfl

theorem sane_trap (hi : Sane s) (h : s.inUser k) (frame : Trapframe) : Sane (trap s k frame) := by
  obtain ⟨hcpu, hm, hfirst, hfree⟩ := Machine.inUser_spec hi h
  obtain ⟨_, page, hown, hesp⟩ := (hi.slots k).cpu hcpu
  have hwithin : Within s (trap s k frame) (.thread k) (· = k) :=
    { thr := fun i hne => by simp [trap, update_of_ne hne]
      page := fun page' i hne ho => by
        refine ⟨ho, ?_⟩
        have hpp : page' ≠ page := by
          rintro rfl
          exact hne (Option.some.inj (ho.2.symm.trans hown.2))
        simp only [top, trap, hesp, update_of_ne (tfAddr_ne hpp)]
      job := fun _ _ => rfl
      settled := fun _ hs => hs
      procs := fun _ _ _ _ _ _ => rfl
      apart := fun c' j' _ hj' hw' => user_apart hi h hj' hw'
      creator := fun k' j' hc _ _ _ _ hk => hc (by rw [hk])
      esp0 := fun _ _ => rfl
      onCpu := fun _ _ => rfl
      first := fun _ _ => rfl }
  refine sane_within hwithin hi (fun j hj => JobOk.nil (hfree j hj)) (fun i hk => ?_)
    (fun c' j₁ j₂ _ h₁ _ w₁ _ _ _ _ => ?_)
  · subst hk
    obtain ⟨hlive, honcpu, _⟩ := hi.slots i
    refine ⟨fun hp => ?_, honcpu, fun g hg => ?_⟩
    · have hp' : Published s i := by simpa [Published, trap] using hp
      exact ⟨(hlive hp').1, by simpa [Owned, trap] using (hlive hp').2⟩
    · simp [trap, hfirst] at hg
  · simp [Job.working, hfree j₁ h₁] at w₁

theorem JobOk.row_ne (hok : JobOk s c j) (hw : j.working) (hp : s.procs p = .unused) : row j.slot ≠ p := by
  rintro rfl
  cases hth : j.isThread with
  | false =>
    have hj := hok.process hw hth
    rw [hj.slot, row_base] at hp
    exact hj.proc hp
  | true =>
    obtain ⟨n, hj⟩ := hok.thread hw hth
    simp [hj.settled.1] at hp

theorem Main.row_ne (hm : Main s k) (hp : s.procs p = .unused) : row k ≠ p := by
  rintro rfl
  simp [hm.2.1] at hp

theorem allocproc_within (hi : Sane s) (hp : s.procs p = .unused) (frame : Trapframe) (ops : List Op) :
    Within s (allocprocFound s c frame ops p) c (row · = p) where
  thr i hne := allocprocTable_other hne
  page page i _ ho := ⟨ho, rfl⟩
  job c' hc := by simp [allocprocFound, update_of_ne hc]
  settled q h := by
    have hq : q ≠ p := by
      rintro rfl
      simp [h.1] at hp
    refine ⟨by simpa [allocprocFound, update_of_ne hq] using h.1, fun c' j' hj' hw' hp' => ?_⟩
    by_cases hc : c' = c
    · subst hc
      simp only [allocprocFound, update_self, Option.some.injEq] at hj'
      subst hj'
      exact hq.symm
    · simp only [allocprocFound, update_of_ne hc] at hj'
      exact h.2 c' j' hj' hw' hp'
  procs c' j' hc hj' hw' hp' := by
    have hne : j'.goal.proc ≠ p := by
      rintro rfl
      exact ((hi.jobs c' j' hj').process hw' hp').proc hp
    simp [allocprocFound, update_of_ne hne]
  apart c' j' _ hj' hw' := (hi.jobs c' j' hj').row_ne hw' hp
  creator k j' _ _ _ _ hm := hm.row_ne hp
  esp0 i _ := rfl
  onCpu i _ := rfl
  first i _ := rfl

theorem sane_allocproc (hi : Sane s) {frame : Trapframe} (hops : ops = fork ∨ ops = userinit)
    (hcomp : ∀ g v, g.frame = frame → v.t.tproc = some g.proc → v.t.tid = g.tid → v.t.exitRequest = 0 →
      ∃ src, Completes src g v ops ∧ (.frame .copy ∈ ops → SourceOk s c src)) :
    Sane (allocproc s c frame ops) := by
  unfold allocproc
  split
  · exact hi
  rename_i p hsearch
  have hp := (searchUnused_spec hsearch).2
  have hwithin : Within s (allocprocFound s c frame ops p) c (row · = p) := allocproc_within hi hp frame ops
  refine sane_within hwithin hi (fun j hj => ?_) (fun k hk => ?_) (fun c' j₁ j₂ _ h₁ h₂ _ w₂ _ p₂ heq => ?_)
  · simp only [allocprocFound, update_self, Option.some.injEq] at hj
    subst hj
    have hmem : ops ∈ programs := by obtain rfl | rfl := hops <;> decide
    have hkalloc : .kalloc ∈ ops ∧ .used ∈ ops ∧ .runnable ∈ ops := by obtain rfl | rfl := hops <;> decide
    refine ⟨fun _ _ => ?_, fun _ hthread => (by cases hthread), fun hw => ?_⟩
    · obtain ⟨src, hc, hsrc⟩ := hcomp ⟨p, s.nexttid, 0, frame⟩
        (view (allocprocFound s c frame ops p) (base p) 0 0) rfl
        (by simp [view, allocprocFound, allocprocTable]) (by simp [view, allocprocFound, allocprocTable])
        (by simp [view, allocprocFound, allocprocTable])
      refine ⟨rfl, by simp [allocprocFound], ?_, hmem, fun h => absurd hkalloc.2.1 h, fun h => absurd hkalloc.1 h,
        src, hc, fun hcopy => (hsrc hcopy).within hwithin (fun k _ hm => hm.row_ne hp)⟩
      simp [allocprocFound, allocprocTable_row (row_base p)]
    · simp [Job.working, hkalloc.2.2] at hw
  · have hidle : ¬ Published (allocprocFound s c frame ops p) k := by
      simp [Published, allocprocFound, allocprocTable_row hk]
    refine ⟨fun h => absurd h hidle, fun hon => ?_, fun _ _ h => absurd h hidle⟩
    exact absurd hk (((hi.slots k).cpu hon).1.row_ne hp)
  · simp only [allocprocFound, update_self, Option.some.injEq] at h₁
    subst h₁
    exact ((hi.jobs c' j₂ h₂).process w₂ p₂).proc (heq ▸ hp)

theorem createFound_within {t : ℕ} (hi : Sane s) (h : s.inUser k) (frame : Trapframe) (startFunc stack : ℕ)
    (hrow : row t = row k) :
    Within s (createFound s k frame startFunc stack t) (.thread k) (· = t) := by
  obtain ⟨_, hm, _, hfree⟩ := Machine.inUser_spec hi h
  have hbusy {c : Creator} {j : Job} (hj : s.job c = some j) (hw : j.working) : c ≠ .thread k := by
    rintro rfl
    simp [Job.working, hfree j hj] at hw
  exact {
    thr := fun i hne => by simp [createFound, update_of_ne hne]
    page := fun page i _ ho => ⟨ho, rfl⟩
    job := fun c' hc => by simp [createFound, update_of_ne hc]
    settled := fun p hs => by
      refine ⟨hs.1, fun c' j' hj' hw' hp' => ?_⟩
      by_cases hc : c' = .thread k
      · simp only [createFound, hc, update_self, Option.some.injEq] at hj'
        subst hj'
        cases hp'
      · simp only [createFound, update_of_ne hc] at hj'
        exact hs.2 c' j' hj' hw' hp'
    procs := fun _ _ _ _ _ _ => rfl
    apart := fun c' j' hc hj' hw' heq => by
      cases hp : j'.isThread with
      | false =>
        have hj := (hi.jobs c' j' hj').process hw' hp
        refine hm.2.2 c' j' hj' hw' hp ?_
        rw [← hrow, ← heq, hj.slot, row_base]
      | true =>
        obtain ⟨n, hj⟩ := (hi.jobs c' j' hj').thread hw' hp
        refine hbusy hj' hw' (hj.creator.trans ?_)
        rw [heq, hrow, hm.1]
    creator := fun k' j' hc hj' hw' _ hm' heq => by
      refine hc (congrArg Creator.thread ?_)
      rw [← hm'.1, heq, hrow, hm.1]
    esp0 := fun _ _ => rfl
    onCpu := fun _ _ => rfl
    first := fun _ _ => rfl }

theorem sane_create (hi : Sane s) (h : s.inUser k) (frame : Trapframe) (startFunc stack : ℕ) :
    Sane (createSearch s k frame startFunc stack) := by
  unfold createSearch
  split
  · exact hi
  rename_i t hsearch
  obtain ⟨_, hm, _⟩ := Machine.inUser_spec hi h
  have hrow : row t = row k := mem_slots.mp (List.mem_of_find?_eq_some hsearch)
  have hstate : (s.thr t).state = .uninit := by simpa using List.find?_some hsearch
  have hwithin := createFound_within hi h frame startFunc stack hrow
  refine sane_within hwithin hi (fun j hj => ?_) (fun i hi' => ?_) (fun c' j₁ j₂ _ h₁ _ _ _ p₁ _ _ => ?_)
  · simp only [createFound, update_self, Option.some.injEq] at hj
    subst hj
    refine ⟨fun _ hprocess => (by cases hprocess), fun _ _ => ⟨0, ?_⟩, fun hw => ?_⟩
    · refine ⟨?_, hwithin.settled _ (hrow ▸ hm.2), ?_, by decide, ⟨startFunc, stack, rfl⟩, by omega, by omega,
        by omega⟩
      · simp only [hrow, hm.1]
      · simp [createFound, hstate]
    · simp [Job.working, kthreadCreate, kernelStack] at hw
  · subst hi'
    have hidle : ¬ Published (createFound s k frame startFunc stack i) i := by
      simp [Published, createFound, hstate]
    refine ⟨fun hp => absurd hp hidle, fun hon => ?_, fun _ _ hp => absurd hp hidle⟩
    obtain ⟨hm', page, ho, heq⟩ := (hi.slots i).cpu hon
    exact ⟨hm'.within hwithin, page, ho, heq⟩
  · simp only [createFound, update_self, Option.some.injEq] at h₁
    subst h₁
    cases p₁

end Xv6.Threads
