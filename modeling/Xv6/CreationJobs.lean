import Xv6.CreationFrame
import Mathlib.Tactic.IntervalCases

namespace Xv6.Threads

open Xv6.Runs

variable {s : Machine} {c : Creator} {j : Job} {op : Op} {ops : List Op}

theorem Complete.sp_irrelevant {g : Goal} {v : View} (h : Complete g v) (sp : ℕ) :
    Complete g { v with sp := sp } :=
  ⟨h.tproc, h.tid, h.kstack, h.exitRequest, h.tf, h.frame, h.word, h.context, h.ctx⟩

theorem ProcessJob.slotOk (hi : Sane s) (hj : ProcessJob s c j) (hjob : s.job c = some j)
    (hops : j.ops = op :: ops)
    (hw : j.working) (hp : j.isThread = false) : SlotOk (perform s c j op ops) j.slot := by
  have hcpu : s.onCpu j.slot = false := by
    by_contra hon
    exact hj.not_main hjob hw hp ((hi.slots j.slot).cpu (by simpa using hon)).1 rfl
  by_cases hr : op = .runnable
  · subst hr
    obtain ⟨htail, hka, hused⟩ := programs_runnable _ hj.ops (by rw [hops]; rfl)
    have hmem : .runnable ∈ j.ops := by simp [hops]
    obtain ⟨hne, hown⟩ := hj.page hka (.inl hmem)
    have hcomplete : Complete j.goal (view s j.slot j.sp j.goal.page) := by
      obtain ⟨src, hc, _⟩ := hj.completes
      rwa [hops] at hc
    have hown' : Owned (perform s c j .runnable ops) j.goal.page j.slot := ⟨hne, by simpa [perform] using hown⟩
    have hsettled : Settled (perform s c j .runnable ops) j.goal.proc := by
      refine ⟨hj.used hused hmem, fun c' j' hj' hw' hp' heq => ?_⟩
      by_cases hc : c' = c
      · subst hc
        rw [perform_job, Option.some.injEq] at hj'
        subst hj'
        have hrest : ops = [.release] := by rw [← htail, hops]; rfl
        simp [Job.working, hrest] at hw'
      · simp only [perform, Function.update_of_ne hc] at hj'
        exact hc (hi.distinct c' c j' j hj' hjob hw' hw hp' hp heq)
    have hstack : ((perform s c j .runnable ops).thr j.slot).kstack = j.goal.page := by
      simpa [perform, Op.thread, view] using hcomplete.kstack
    refine ⟨fun _ => ⟨⟨by rw [hj.slot, row_base], by rw [hj.slot, row_base]; exact hsettled⟩, by rwa [hstack]⟩,
      fun hon => absurd hon (by simp [perform, hcpu]), fun g hg _ => ?_⟩
    simp only [perform, ↓reduceIte, Function.update_self, Option.some.injEq] at hg
    subst hg
    refine ⟨hown', ?_⟩
    have hview : view (perform s c j .runnable ops) j.slot 0 j.goal.page =
        { view s j.slot j.sp j.goal.page with sp := 0 } := by
      simp [view, perform, Op.thread, StackMemory.store]
    rw [hview]
    exact hcomplete.sp_irrelevant 0
  · have hidle : ¬ Published (perform s c j op ops) j.slot := by
      by_cases hu : op = .uninit
      · subst hu
        simp [Published, perform, Op.thread]
      · rw [Published, perform_state hr hu]
        exact not_or.mpr hj.idle
    exact ⟨fun h => absurd h hidle, fun hon => absurd hon (by simp [perform, hcpu]), fun _ _ h => absurd h hidle⟩

theorem sane_process (hi : Sane s) (hjob : s.job c = some j) (hops : j.ops = op :: ops) (hw : j.working)
    (hp : j.isThread = false) (hop : op ≠ .kalloc ∧ op ≠ .copyuvm) : Sane (perform s c j op ops) := by
  have hj := (hi.jobs c j hjob).process hw hp
  have hwithin : Within s (perform s c j op ops) c (· = j.slot) :=
    perform_within hi hjob hops hw (by simp [hp]) (hj.onPage hops)
  refine sane_within hwithin hi (fun j' hj' => ?_) (fun k hk => hk ▸ hj.slotOk hi hjob hops hw hp)
    (fun c' j₁ j₂ hc h₁ h₂ w₁ w₂ p₁ p₂ heq => ?_)
  · rw [perform_job, Option.some.injEq] at hj'
    subst hj'
    refine ⟨fun hw' _ => ?_, fun _ hth => absurd hth (by simp [hp]), fun hw' => ?_⟩
    · have hr : op ≠ .runnable := by
        rintro rfl
        obtain ⟨htail, _⟩ := programs_runnable _ hj.ops (by rw [hops]; rfl)
        rw [hops] at htail
        simp [Job.working, show ops = [.release] from htail] at hw'
      exact hj.next hwithin hjob hops hw hp ⟨hop.1, hop.2, hr⟩ hw'
    · have hmem : ops ∈ programs := by simpa [hops] using programs_tail _ hj.ops
      simp only [Job.working, Job.next_ops, Bool.or_eq_false_iff, List.contains_eq_mem,
        decide_eq_false_iff_not] at hw'
      exact programs_rest _ hmem hw'.1 hw'.2
  · rw [perform_job, Option.some.injEq] at h₁
    subst h₁
    exact hc (hi.distinct c' c j₂ j h₂ hjob w₂ hw p₂ hp heq.symm)

theorem create_working {startFunc stack n : ℕ} (hn : n < 9) (j : Job)
    (h : j.ops = (kthreadCreate startFunc stack).drop n) : j.working := by
  have hr : .runnable ∈ (kthreadCreate startFunc stack).drop n := by
    interval_cases n <;> simp [kthreadCreate, kernelStack]
  simp [Job.working, h, hr]

theorem ThreadJob.head {n : ℕ} (hj : ThreadJob s c j n) (hops : j.ops = op :: ops)
    (hop : op ≠ .kalloc ∧ op ≠ .runnable) :
    (n = 1 ∧ op = .loadSp ∨ n = 2 ∧ op = .tf ∨ n = 3 ∧ op = .trapret ∨ n = 4 ∧ op = .context ∨
      n = 5 ∧ op = .clearContext ∨ n = 6 ∧ op = .contextEip ∨ n = 7 ∧ op = .exitRequest) ∧
    ∃ startFunc stack, ops = (kthreadCreate startFunc stack).drop (n + 1) := by
  obtain ⟨startFunc, stack, hdrop⟩ := hj.ops
  have hn := hj.stage
  rw [hops] at hdrop
  interval_cases n
  case «0» => exact absurd (List.cons.inj hdrop).1 hop.1
  case «8» => exact absurd (List.cons.inj hdrop).1 hop.2
  all_goals exact ⟨by simp [(List.cons.inj hdrop).1], startFunc, stack, (List.cons.inj hdrop).2⟩

theorem ThreadJob.onPage {n : ℕ} (hj : ThreadJob s c j n) (hops : j.ops = op :: ops)
    (hop : op ≠ .kalloc ∧ op ≠ .runnable) (hw : op.writes) :
    ∃ page, Owned s page j.slot ∧ op.onPage j.sp (s.thr j.slot) page := by
  obtain ⟨hhead, _⟩ := hj.head hops hop
  obtain ⟨-, rfl⟩ | ⟨-, rfl⟩ | ⟨rfl, rfl⟩ | ⟨-, rfl⟩ | ⟨rfl, rfl⟩ | ⟨rfl, rfl⟩ | ⟨-, rfl⟩ := hhead
  · cases hw
  · cases hw
  · exact hj.sp (by decide)
  · cases hw
  · exact hj.context (by decide)
  · exact hj.context (by decide)
  · cases hw

theorem ThreadJob.next {n : ℕ} (hj : ThreadJob s c j n) (hwithin : Within s (perform s c j op ops) c (· = j.slot))
    (hops : j.ops = op :: ops) (hop : op ≠ .kalloc ∧ op ≠ .runnable) :
    ThreadJob (perform s c j op ops) c (j.next s op ops) (n + 1) := by
  obtain ⟨hhead, htail⟩ := hj.head hops hop
  have hstage : 1 ≤ n ∧ n < 8 := by omega
  have hfields : ((perform s c j op ops).thr j.slot).kstack = (s.thr j.slot).kstack ∧
      ((perform s c j op ops).thr j.slot).state = (s.thr j.slot).state := by
    obtain ⟨-, rfl⟩ | ⟨-, rfl⟩ | ⟨-, rfl⟩ | ⟨-, rfl⟩ | ⟨-, rfl⟩ | ⟨-, rfl⟩ | ⟨-, rfl⟩ := hhead <;>
      simp [perform, Op.thread]
  have hpages : (perform s c j op ops).pages = s.pages := by
    obtain ⟨-, rfl⟩ | ⟨-, rfl⟩ | ⟨-, rfl⟩ | ⟨-, rfl⟩ | ⟨-, rfl⟩ | ⟨-, rfl⟩ | ⟨-, rfl⟩ := hhead <;> rfl
  have howned {page : ℕ} (h : Owned s page j.slot) : Owned (perform s c j op ops) page j.slot :=
    ⟨h.1, hpages ▸ h.2⟩
  refine ⟨hj.creator, hwithin.settled _ hj.settled,
    by rw [Job.next_slot, hfields.2]; exact hj.idle, by omega, htail, fun _ => ?_, fun _ => ?_, fun h5 => ?_⟩
  · rw [Job.next_slot, hfields.1]
    exact howned (hj.kstack hstage.1)
  · by_cases h1 : n = 1
    · have hsp : op = .loadSp := by simpa [h1] using hhead
      exact ⟨_, howned (hj.kstack hstage.1), by simp [hsp]⟩
    · have hsp : op ≠ .loadSp := by
        rintro rfl
        exact h1 (by simpa using hhead)
      obtain ⟨page, ho, heq⟩ := hj.sp (by omega)
      exact ⟨page, howned ho, by simpa [hsp] using heq⟩
  · rw [Job.next_slot]
    by_cases h4 : n = 4
    · have hctx : op = .context := by simpa [h4] using hhead
      obtain ⟨page, ho, heq⟩ := hj.sp (by omega)
      exact ⟨page, howned ho, by simp [perform, hctx, Op.thread, heq]⟩
    · have hctx : ((perform s c j op ops).thr j.slot).context = (s.thr j.slot).context := by
        obtain ⟨-, rfl⟩ | ⟨-, rfl⟩ | ⟨-, rfl⟩ | ⟨h, rfl⟩ | ⟨-, rfl⟩ | ⟨-, rfl⟩ | ⟨-, rfl⟩ := hhead
        case inr.inr.inr.inl => exact absurd h h4
        all_goals simp [perform, Op.thread]
      obtain ⟨page, ho, heq⟩ := hj.context (by omega)
      exact ⟨page, howned ho, hctx.trans heq⟩

theorem sane_thread (hi : Sane s) (hjob : s.job c = some j) (hops : j.ops = op :: ops) (hw : j.working)
    (hp : j.isThread = true) (hop : op ≠ .kalloc ∧ op ≠ .runnable) : Sane (perform s c j op ops) := by
  obtain ⟨n, hj⟩ := (hi.jobs c j hjob).thread hw hp
  obtain ⟨hhead, _⟩ := hj.head hops hop
  have hwithin : Within s (perform s c j op ops) c (· = j.slot) :=
    perform_within hi hjob hops hw (fun _ => by constructor <;> rintro rfl <;> simp at hhead) (hj.onPage hops hop)
  have hnext := hj.next hwithin hops hop
  refine sane_within hwithin hi (fun j' hj' => ?_) (fun k hk => ?_) (fun c' j₁ j₂ hc h₁ h₂ w₁ w₂ p₁ p₂ heq => ?_)
  · rw [perform_job, Option.some.injEq] at hj'
    subst hj'
    refine ⟨fun _ hth => absurd hth (by simp [hp]), fun _ _ => ⟨n + 1, hnext⟩, fun hw' => ?_⟩
    obtain ⟨_, _, hdrop⟩ := hnext.ops
    simp [create_working hnext.stage _ hdrop] at hw'
  · subst hk
    have hidle : ¬ Published (perform s c j op ops) j.slot := not_or.mpr hnext.idle
    refine ⟨fun h => absurd h hidle, fun hon => ?_, fun _ _ h => absurd h hidle⟩
    obtain ⟨hm, page, ho, hesp⟩ := (hi.slots j.slot).cpu hon
    have hpages : (perform s c j op ops).pages = s.pages := by
      obtain ⟨-, rfl⟩ | ⟨-, rfl⟩ | ⟨-, rfl⟩ | ⟨-, rfl⟩ | ⟨-, rfl⟩ | ⟨-, rfl⟩ | ⟨-, rfl⟩ := hhead <;> rfl
    exact ⟨hm.within hwithin, page, ⟨ho.1, hpages ▸ ho.2⟩, hesp⟩
  · rw [perform_job, Option.some.injEq] at h₁
    subst h₁
    simp [hp] at p₁

structure Quiet (s s' : Machine) (k : ℕ) : Prop where
  procs : s'.procs = s.procs
  mem : s'.mem = s.mem
  pages : s'.pages = s.pages
  job : ∀ c j, s'.job c = some j → s.job c = some j ∨ j.ops = []
  thr : ∀ i, i ≠ k → s'.thr i = s.thr i ∧ s'.esp0 i = s.esp0 i ∧ s'.onCpu i = s.onCpu i ∧ s'.first i = s.first i
  slot : ∃ state context, s'.thr k = { s.thr k with state := state, context := context } ∧
    ∀ c j, s.job c = some j → j.working → j.slot = k →
      state ≠ .runnable ∧ state ≠ .running ∧ context = (s.thr k).context

section Quiet

variable {s' : Machine} {k : ℕ}

theorem Quiet.job_kept (h : Quiet s s' k) (hj : s'.job c = some j) (hw : j.working) : s.job c = some j := by
  obtain hold | hnil := h.job c j hj
  · exact hold
  · simp [Job.working, hnil] at hw

theorem Quiet.settled (h : Quiet s s' k) {p : ℕ} (hp : Settled s p) : Settled s' p :=
  ⟨h.procs ▸ hp.1, fun c j hj hw hth => hp.2 c j (h.job_kept hj hw) hw hth⟩

theorem Quiet.main (h : Quiet s s' k) {i : ℕ} (hm : Main s i) : Main s' i := ⟨hm.1, h.settled hm.2⟩

theorem Quiet.owned (h : Quiet s s' k) {page i : ℕ} (ho : Owned s page i) :
    Owned s' page i := ⟨ho.1, h.pages ▸ ho.2⟩

theorem Quiet.kstack (h : Quiet s s' k) (i : ℕ) :
    (s'.thr i).kstack = (s.thr i).kstack ∧ (s'.thr i).tf = (s.thr i).tf := by
  obtain ⟨state, context, hthr, _⟩ := h.slot
  by_cases hi : i = k
  · rw [hi, hthr]
    exact ⟨rfl, rfl⟩
  · rw [(h.thr i hi).1]
    exact ⟨rfl, rfl⟩

theorem Quiet.context (h : Quiet s s' k) (hj : s.job c = some j) (hw : j.working) :
    (s'.thr j.slot).context = (s.thr j.slot).context := by
  obtain ⟨state, context, hthr, hquiet⟩ := h.slot
  by_cases hi : j.slot = k
  · rw [hi, hthr]
    exact (hquiet c j hj hw hi).2.2
  · rw [(h.thr _ hi).1]

theorem Quiet.view (h : Quiet s s' k) (hj : s.job c = some j) (hw : j.working) (sp page : ℕ) :
    view s' j.slot sp page = view s j.slot sp page := by
  obtain ⟨state, context, hthr, hquiet⟩ := h.slot
  by_cases hi : j.slot = k
  · obtain ⟨_, _, hctx⟩ := hquiet c j hj hw hi
    simp only [Threads.view, h.mem, hi, hthr, hctx]
  · simp only [Threads.view, h.mem, (h.thr _ hi).1]

theorem Quiet.idle (h : Quiet s s' k) (hj : s.job c = some j) (hw : j.working)
    (hidle : (s.thr j.slot).state ≠ .runnable ∧ (s.thr j.slot).state ≠ .running) :
    (s'.thr j.slot).state ≠ .runnable ∧ (s'.thr j.slot).state ≠ .running := by
  obtain ⟨state, context, hthr, hquiet⟩ := h.slot
  by_cases hi : j.slot = k
  · obtain ⟨h₁, h₂, _⟩ := hquiet c j hj hw hi
    rw [hi, hthr]
    exact ⟨h₁, h₂⟩
  · rw [(h.thr _ hi).1]
    exact hidle

theorem Quiet.processJob (h : Quiet s s' k) (hj : s.job c = some j) (hw : j.working) (hp : ProcessJob s c j) :
    ProcessJob s' c j := by
  obtain ⟨src, hc, hsrc⟩ := hp.completes
  refine ⟨hp.slot, h.procs ▸ hp.proc, h.idle hj hw hp.idle, hp.ops, h.procs ▸ hp.used,
    fun hka hl => h.owned (hp.page hka hl), src, by rwa [h.view hj hw], fun hcopy => ?_⟩
  obtain ⟨i, page, rfl, hm, hframe, ho, htf⟩ := hsrc hcopy
  refine ⟨i, page, rfl, h.main hm, ?_, h.owned ho, (h.kstack i).2.trans htf⟩
  rw [frameOf, h.mem, (h.kstack i).2]
  exact hframe

theorem Quiet.threadJob {n : ℕ} (h : Quiet s s' k) (hj : s.job c = some j) (hw : j.working)
    (ht : ThreadJob s c j n) :
    ThreadJob s' c j n := by
  refine ⟨ht.creator, h.settled ht.settled, h.idle hj hw ht.idle, ht.stage, ht.ops, fun hn => ?_, fun hn => ?_,
    fun hn => ?_⟩
  · rw [(h.kstack _).1]
    exact h.owned (ht.kstack hn)
  · obtain ⟨page, ho, heq⟩ := ht.sp hn
    exact ⟨page, h.owned ho, heq⟩
  · obtain ⟨page, ho, heq⟩ := ht.context hn
    exact ⟨page, h.owned ho, (h.context hj hw).trans heq⟩

theorem JobOk.nil (h : j.ops = []) : JobOk s c j :=
  ⟨fun hw => by simp [Job.working, h] at hw, fun hw => by simp [Job.working, h] at hw, fun _ => .inl h⟩

theorem Quiet.slotOk (h : Quiet s s' k) {i : ℕ} (hne : i ≠ k) (hi : SlotOk s i) : SlotOk s' i := by
  obtain ⟨ht, hesp, hcpu, hfirst⟩ := h.thr i hne
  obtain ⟨hlive, honcpu, hcomplete⟩ := hi
  refine ⟨fun hp => ?_, fun hon => ?_, fun g hg hp => ?_⟩
  · rw [Published, ht] at hp
    exact ⟨h.main (hlive hp).1, by rw [ht]; exact h.owned (hlive hp).2⟩
  · rw [hcpu] at hon
    obtain ⟨hm, page, ho, heq⟩ := honcpu hon
    exact ⟨h.main hm, page, h.owned ho, hesp.trans heq⟩
  · rw [hfirst] at hg
    rw [Published, ht] at hp
    obtain ⟨ho, hcomp⟩ := hcomplete g hg hp
    have heq : Threads.view s' i 0 g.page = Threads.view s i 0 g.page := by simp only [Threads.view, h.mem, ht]
    exact ⟨h.owned ho, by rwa [heq]⟩

theorem Quiet.sane (h : Quiet s s' k) (hi : Sane s) (hk : SlotOk s' k) : Sane s' := by
  refine ⟨fun c j hj => ?_, fun i => ?_, fun c c' j j' hj hj' hw hw' => ?_⟩
  · obtain hold | hnil := h.job c j hj
    · obtain ⟨hprocess, hthread, hrest⟩ := hi.jobs c j hold
      refine ⟨fun hw hp => h.processJob hold hw (hprocess hw hp), fun hw hp => ?_, hrest⟩
      obtain ⟨n, ht⟩ := hthread hw hp
      exact ⟨n, h.threadJob hold hw ht⟩
    · exact .nil hnil
  · by_cases hik : i = k
    · exact hik ▸ hk
    · exact h.slotOk hik (hi.slots i)
  · exact hi.distinct c c' j j' (h.job_kept hj hw) (h.job_kept hj' hw') hw hw'

end Quiet

end Xv6.Threads
