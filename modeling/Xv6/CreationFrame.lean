import Xv6.CreationInvariant

namespace Xv6.Threads

open Function

def Op.onPage (sp : ℕ) (t : Kthread) (page : ℕ) : Op → Prop
  | .trapret => sp = page + KSTACKSIZE
  | .clearContext | .contextEip => t.context = contextAddr (page + KSTACKSIZE)
  | .frame _ => t.tf = tfAddr (page + KSTACKSIZE)
  | .kfree => t.kstack = page
  | _ => True

def Op.writes : Op → Bool
  | .trapret | .clearContext | .contextEip | .frame _ | .kfree => true
  | _ => false

section

variable {page page' : ℕ}

theorem tfAddr_ne (h : page' ≠ page) : tfAddr (page' + KSTACKSIZE) ≠ tfAddr (page + KSTACKSIZE) := by
  simp only [tfAddr, KSTACKSIZE]
  omega

theorem wordAddr_ne (h : page' ≠ page) : wordAddr (page' + KSTACKSIZE) ≠ wordAddr (page + KSTACKSIZE) := by
  simp only [wordAddr, tfAddr, KSTACKSIZE]
  omega

theorem contextAddr_ne (h : page' ≠ page) :
    contextAddr (page' + KSTACKSIZE) ≠ contextAddr (page + KSTACKSIZE) := by
  simp only [contextAddr, wordAddr, tfAddr, KSTACKSIZE]
  omega

theorem top_kfree (m : StackMemory) (h : page' ≠ page) : top (m.kfree page) page' = top m page' := by
  simp only [top, StackMemory.kfree, update_of_ne (tfAddr_ne h), update_of_ne (wordAddr_ne h),
    update_of_ne (contextAddr_ne h)]

theorem top_store (m : StackMemory) {sp : ℕ} {t : Kthread} {src : Trapframe} {op : Op} (hp : op.onPage sp t page)
    (h : page' ≠ page) : top (m.store sp t src op) page' = top m page' := by
  cases op <;> simp only [Op.onPage] at hp
  case trapret => simp only [top, StackMemory.store, hp, update_of_ne (wordAddr_ne h)]
  case clearContext => simp only [top, StackMemory.store, hp, update_of_ne (contextAddr_ne h)]
  case contextEip => simp only [top, StackMemory.store, hp, update_of_ne (contextAddr_ne h)]
  case frame st => simp only [top, StackMemory.store, hp, update_of_ne (tfAddr_ne h)]
  all_goals rfl

theorem store_quiet (m : StackMemory) (sp : ℕ) (t : Kthread) (src : Trapframe) {op : Op} (h : op.writes = false) :
    m.store sp t src op = m := by
  cases op <;> first | rfl | simp [Op.writes] at h

end

variable {s : Machine} {c : Creator} {j : Job} {op : Op} {ops : List Op}

theorem perform_page (hpage : op.writes → ∃ page, Owned s page j.slot ∧ op.onPage j.sp (s.thr j.slot) page)
    {page' i : ℕ} (hi : i ≠ j.slot) (ho : Owned s page' i) :
    Owned (perform s c j op ops) page' i ∧ top (perform s c j op ops).mem page' = top s.mem page' := by
  by_cases hwr : op.writes
  · obtain ⟨page, hown, hon⟩ := hpage hwr
    have hne : page' ≠ page := by
      rintro rfl
      exact hi (Option.some.inj (ho.2.symm.trans hown.2))
    by_cases hk : op = .kfree
    · subst hk
      have hstack : (s.thr j.slot).kstack = page := hon
      refine ⟨⟨ho.1, ?_⟩, ?_⟩
      · simpa [perform, hstack, update_of_ne hne] using ho.2
      · simpa [perform, hstack] using top_kfree s.mem hne
    · refine ⟨⟨ho.1, by simpa [perform, hk] using ho.2⟩, ?_⟩
      simpa [perform, hk] using top_store s.mem hon hne
  · have hk : op ≠ .kfree := by
      rintro rfl
      exact hwr rfl
    refine ⟨⟨ho.1, by simpa [perform, hk] using ho.2⟩, ?_⟩
    simp only [Bool.not_eq_true] at hwr
    simp [perform, hk, store_quiet _ _ _ _ hwr]

theorem working_cons {j' : Job} (hops : j.ops = op :: ops) (hops' : j'.ops = ops) (h : j'.working) :
    j.working := by
  simp only [Job.working, hops', Bool.or_eq_true, List.contains_iff_mem] at h
  simp only [Job.working, hops, Bool.or_eq_true, List.contains_iff_mem, List.mem_cons]
  exact h.imp .inr .inr

theorem perform_settled (hjob : s.job c = some j) (hops : j.ops = op :: ops) (hw : j.working)
    (hun : op = .unused → j.isThread = false) {p : ℕ} (h : Settled s p) : Settled (perform s c j op ops) p := by
  refine ⟨?_, fun c' j' hj' hw' hp' => ?_⟩
  · cases op <;> simp only [perform, Op.procs]
    case used => by_cases hp : p = j.goal.proc <;> simp [hp, h.1, update_of_ne]
    case unused =>
      rw [update_of_ne (h.2 c j hjob hw (hun rfl)).symm]
      exact h.1
    all_goals exact h.1
  · by_cases hc : c' = c
    · subst hc
      simp only [perform, update_self, Option.some.injEq] at hj'
      subst hj'
      exact h.2 c' j hjob (working_cons hops rfl hw') hp'
    · simp only [perform, update_of_ne hc] at hj'
      exact h.2 c' j' hj' hw' hp'

theorem perform_within (hi : Sane s) (hjob : s.job c = some j) (hops : j.ops = op :: ops) (hw : j.working)
    (hthread : j.isThread = true → op ≠ .used ∧ op ≠ .unused)
    (hpage : op.writes → ∃ page, Owned s page j.slot ∧ op.onPage j.sp (s.thr j.slot) page) :
    Within s (perform s c j op ops) c (· = j.slot) where
  thr i hne := by simp [perform, update_of_ne hne]
  page page' i hne ho := perform_page hpage hne ho
  job c' hc := by simp [perform, update_of_ne hc]
  settled p h := perform_settled hjob hops hw (fun hun => by
    cases hp : j.isThread with
    | false => rfl
    | true => exact absurd hun (hthread hp).2) h
  procs c' j' hc hj' hw' hp' := by
    have hproc (hp : j.isThread = false) : j'.goal.proc ≠ j.goal.proc :=
      fun heq => hc (hi.distinct c' c j' j hj' hjob hw' hw hp' hp heq)
    cases hp : j.isThread with
    | false => cases op <;> simp [perform, Op.procs, update_of_ne (hproc hp)]
    | true =>
      obtain ⟨hu, hun⟩ := hthread hp
      cases op <;> simp_all [perform, Op.procs]
  apart c' j' hc hj' hw' := hi.apart hc hjob hj' hw hw'
  creator k j' hc hj' hw' hp' hm := hi.creator_apart hc hjob hw hm
  esp0 i _ := rfl
  onCpu i _ := rfl
  first i hne := by
    by_cases hr : op = .runnable <;> simp [perform, hr, update_of_ne hne]

theorem store_apply {src src' : Trapframe} {st : FrameStore} (h : st = .copy → src' = src) (frame : Trapframe) :
    st.apply src' frame = st.apply src frame := by
  cases st with
  | copy => exact h rfl
  | _ => rfl

@[simps]
def Job.next (s : Machine) (j : Job) (op : Op) (ops : List Op) : Job :=
  { j with ops := ops, sp := if op = .loadSp then (s.thr j.slot).kstack + KSTACKSIZE else j.sp }

theorem perform_job : (perform s c j op ops).job c = some (j.next s op ops) := by
  simp [perform, Job.next]

theorem completes_perform {src : Trapframe}
    (hrun : op ≠ .kalloc ∧ op ≠ .copyuvm ∧ op ≠ .runnable ∧ op ≠ .kfree)
    (hsrc : op = .frame .copy → source s c = src)
    (hc : Completes src j.goal (view s j.slot j.sp j.goal.page) (op :: ops)) :
    Completes src j.goal (view (perform s c j op ops) j.slot (j.next s op ops).sp j.goal.page) ops := by
  cases op <;> simp only [Completes, ne_eq, not_true_eq_false, false_and, and_false] at hc hrun
  case trapret =>
    obtain ⟨hsp, hc⟩ := hc
    have hsp' : j.sp = j.goal.page + KSTACKSIZE := hsp
    simpa [view, perform, Job.next, Op.thread, StackMemory.store, top, hsp'] using hc
  case clearContext =>
    obtain ⟨hctx, hc⟩ := hc
    have hctx' : (s.thr j.slot).context = contextAddr (j.goal.page + KSTACKSIZE) := hctx
    simpa [view, perform, Job.next, Op.thread, StackMemory.store, top, hctx'] using hc
  case contextEip =>
    obtain ⟨hctx, hc⟩ := hc
    have hctx' : (s.thr j.slot).context = contextAddr (j.goal.page + KSTACKSIZE) := hctx
    simpa [view, perform, Job.next, Op.thread, StackMemory.store, top, hctx'] using hc
  case frame st =>
    obtain ⟨htf, hc⟩ := hc
    have htf' : (s.thr j.slot).tf = tfAddr (j.goal.page + KSTACKSIZE) := htf
    have happly (frame : Trapframe) : st.apply (source s c) frame = st.apply src frame :=
      store_apply (fun h => hsrc (congrArg Op.frame h)) frame
    simpa [view, perform, Job.next, Op.thread, StackMemory.store, top, happly, htf'] using hc
  all_goals simpa [view, perform, Job.next, Op.thread, StackMemory.store, top] using hc

theorem programs_writes : ∀ l ∈ programs, l.head?.any Op.writes → .kalloc ∉ l ∧ (.runnable ∈ l ∨ .kfree ∈ l) := by
  decide

theorem programs_unused : ∀ l ∈ programs, l.head? = some .unused → .runnable ∉ l ∧ .unused ∉ l.tail := by decide

theorem programs_kfree : ∀ l ∈ programs, l.head? = some .kfree → .runnable ∉ l ∧ .kfree ∉ l.tail := by decide

theorem programs_uninit : ∀ l ∈ programs, l.head? = some .uninit → .runnable ∉ l ∧ .unused ∉ l := by decide

theorem programs_runnable : ∀ l ∈ programs, l.head? = some .runnable →
    l.tail = [.release] ∧ .kalloc ∉ l ∧ .used ∉ l := by decide

theorem ProcessJob.onPage (hj : ProcessJob s c j) (hops : j.ops = op :: ops) (hw : op.writes) :
    ∃ page, Owned s page j.slot ∧ op.onPage j.sp (s.thr j.slot) page := by
  obtain ⟨hka, hlive⟩ := programs_writes _ hj.ops (by simp [hops, hw])
  refine ⟨j.goal.page, hj.page hka hlive, ?_⟩
  obtain ⟨src, hc, _⟩ := hj.completes
  rw [hops] at hc
  cases op <;> simp only [Completes, Op.writes, Bool.false_eq_true] at hc hw ⊢
  case kfree => exact hc
  all_goals exact hc.1

theorem mem_of_next {o : Op} (hops : j.ops = op :: ops) (h : o ∈ (j.next s op ops).ops) : o ∈ j.ops := by
  rw [hops]
  exact List.mem_cons_of_mem _ h

theorem Op.thread_state {proc sp : ℕ} {t : Kthread} (hr : op ≠ .runnable) (hu : op ≠ .uninit) :
    (op.thread proc sp t).state = t.state := by
  cases op <;> first | rfl | exact absurd rfl hr | exact absurd rfl hu

theorem perform_state (hr : op ≠ .runnable) (hu : op ≠ .uninit) :
    ((perform s c j op ops).thr j.slot).state = (s.thr j.slot).state := by
  simp only [perform, update_self]
  exact Op.thread_state hr hu

theorem ProcessJob.next (hj : ProcessJob s c j) (hwithin : Within s (perform s c j op ops) c (· = j.slot))
    (hjob : s.job c = some j) (hops : j.ops = op :: ops) (hw : j.working) (hp : j.isThread = false)
    (hop : op ≠ .kalloc ∧ op ≠ .copyuvm ∧ op ≠ .runnable) (hw' : (j.next s op ops).working) :
    ProcessJob (perform s c j op ops) c (j.next s op ops) := by
  have hhead : j.ops.head? = some op := by rw [hops]; rfl
  have htail : j.ops.tail = ops := by rw [hops]; rfl
  have hworks : .runnable ∈ ops ∨ .unused ∈ ops := by simpa [Job.working, Job.next] using hw'
  have hun : op ≠ .unused := by
    rintro rfl
    obtain ⟨hr, hu⟩ := programs_unused _ hj.ops hhead
    rw [htail] at hu
    exact hworks.elim (fun h => hr (hops ▸ List.mem_cons_of_mem _ h)) hu
  have huninit : op ≠ .uninit := by
    rintro rfl
    obtain ⟨hr, hu⟩ := programs_uninit _ hj.ops hhead
    exact hworks.elim (fun h => hr (hops ▸ List.mem_cons_of_mem _ h))
      (fun h => hu (hops ▸ List.mem_cons_of_mem _ h))
  have hprocs : (perform s c j op ops).procs j.goal.proc = if op = .used then .used else s.procs j.goal.proc := by
    cases op <;> simp_all [perform, Op.procs]
  obtain ⟨src, hc, hsrc⟩ := hj.completes
  refine ⟨hj.slot, ?_, ?_, htail ▸ programs_tail _ hj.ops, fun hu hr => ?_, fun hka hlive => ?_, src, ?_,
    fun hcopy => ?_⟩
  · simp only [Job.next, hprocs]
    split_ifs
    · simp
    · exact hj.proc
  · simp only [Job.next]
    rw [perform_state hop.2.2 huninit]
    exact hj.idle
  · simp only [Job.next, hprocs]
    split_ifs with hused
    · rfl
    · refine hj.used ?_ (mem_of_next hops hr)
      rw [hops, List.mem_cons]
      exact not_or.mpr ⟨fun h => hused h.symm, hu⟩
  · have hka' : .kalloc ∉ j.ops := by
      rw [hops, List.mem_cons]
      exact not_or.mpr ⟨fun h => hop.1 h.symm, hka⟩
    have hkf : op ≠ .kfree := by
      rintro rfl
      obtain ⟨hr, hk⟩ := programs_kfree _ hj.ops hhead
      rw [htail] at hk
      exact hlive.elim (fun h => hr (mem_of_next hops h)) hk
    obtain ⟨hne, hown⟩ := hj.page hka' (hlive.imp (mem_of_next hops) (mem_of_next hops))
    refine ⟨hne, ?_⟩
    rw [Job.next_goal, Job.next_slot]
    simpa [perform, hkf] using hown
  · rw [Job.next_goal, Job.next_slot, Job.next_ops]
    by_cases hkf : op = .kfree
    · subst hkf
      obtain ⟨hr, hk⟩ := programs_kfree _ hj.ops hhead
      rw [htail] at hk
      exact completes_failed (programs_failed _ (htail ▸ programs_tail _ hj.ops)
        (fun h => hr (hops ▸ List.mem_cons_of_mem _ h)) hk)
    · rw [hops] at hc
      exact completes_perform ⟨hop.1, hop.2.1, hop.2.2, hkf⟩ (fun h => (hsrc (by simp [hops, h])).source_eq) hc
  · refine (hsrc (mem_of_next hops hcopy)).within hwithin (fun k _ hm => ?_)
    exact fun h => hj.not_main hjob hw hp hm h.symm

end Xv6.Threads
