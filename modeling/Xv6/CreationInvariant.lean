import Xv6.Runs
import Xv6.Creation

namespace Xv6.Threads

structure View where
  t : Kthread
  sp : ℕ
  frame : Trapframe
  word : Code
  ctx : Context

structure Complete (g : Goal) (v : View) : Prop where
  tproc : v.t.tproc = some g.proc
  tid : v.t.tid = g.tid
  kstack : v.t.kstack = g.page
  exitRequest : v.t.exitRequest = 0
  tf : v.t.tf = tfAddr (g.page + KSTACKSIZE)
  frame : v.frame = g.frame
  word : v.word = .trapret
  context : v.t.context = contextAddr (g.page + KSTACKSIZE)
  ctx : v.ctx = { Context.filled 0 with eip := .forkret }

def Completes (src : Trapframe) : Goal → View → List Op → Prop
  | _, _, [] => True
  | g, v, .kalloc :: ops => ∀ page frame word ctx, page ≠ 0 →
      Completes src { g with page := page } ⟨{ v.t with kstack := page }, v.sp, frame, word, ctx⟩ ops
  | g, v, .loadSp :: ops => Completes src g { v with sp := v.t.kstack + KSTACKSIZE } ops
  | g, v, .trapret :: ops => v.sp = g.page + KSTACKSIZE ∧ Completes src g { v with word := .trapret } ops
  | g, v, .clearContext :: ops =>
    v.t.context = contextAddr (g.page + KSTACKSIZE) ∧ Completes src g { v with ctx := .filled 0 } ops
  | g, v, .contextEip :: ops =>
    v.t.context = contextAddr (g.page + KSTACKSIZE) ∧
      Completes src g { v with ctx := { v.ctx with eip := .forkret } } ops
  | g, v, .frame st :: ops =>
    v.t.tf = tfAddr (g.page + KSTACKSIZE) ∧ Completes src g { v with frame := st.apply src v.frame } ops
  | g, v, .copyuvm :: ops => v.t.kstack = g.page ∧ Completes src g v ops
  | g, v, .kfree :: _ => v.t.kstack = g.page
  | g, v, .runnable :: _ => Complete g v
  | g, v, op :: ops => Completes src g { v with t := op.thread g.proc v.sp v.t } ops

theorem fork_completes (src : Trapframe) (g : Goal) (v : View) (hg : g.frame = { src with eax := 0 })
    (htid : v.t.tid = g.tid) (hreq : v.t.exitRequest = 0) : Completes src g v fork :=
  fun _ _ _ _ _ => ⟨rfl, rfl, rfl, rfl, rfl, rfl, ⟨rfl, htid, rfl, hreq, rfl, hg.symm, rfl, rfl, rfl⟩⟩

theorem userinit_completes (src : Trapframe) (g : Goal) (v : View) (hg : g.frame = initFrame)
    (hproc : v.t.tproc = some g.proc) (htid : v.t.tid = g.tid) (hreq : v.t.exitRequest = 0) :
    Completes src g v userinit :=
  fun _ _ _ _ _ => ⟨rfl, rfl, rfl, rfl, rfl, rfl, rfl, rfl, rfl, rfl, rfl,
    ⟨hproc, htid, rfl, hreq, rfl, hg.symm, rfl, rfl, rfl⟩⟩

def Job.working (j : Job) : Bool := j.ops.contains .runnable || j.ops.contains .unused

def Settled (s : Machine) (p : ℕ) : Prop :=
  s.procs p = .used ∧ ∀ c j, s.job c = some j → j.working → j.isThread = false → j.goal.proc ≠ p

def Main (s : Machine) (k : ℕ) : Prop := base (row k) = k ∧ Settled s (row k)

def Owned (s : Machine) (page k : ℕ) : Prop := page ≠ 0 ∧ s.pages page = some k

def top (m : StackMemory) (page : ℕ) : Trapframe × Code × Context :=
  let sp := page + KSTACKSIZE
  (m.frames (tfAddr sp), m.words (wordAddr sp), m.contexts (contextAddr sp))

def view (s : Machine) (k sp page : ℕ) : View :=
  ⟨{ s.thr k with state := .uninit }, sp, (top s.mem page).1, (top s.mem page).2.1, (top s.mem page).2.2⟩

def programs : List (List Op) := fork.tails ++ userinit.tails ++ forkFails.tails

def SourceOk (s : Machine) (c : Creator) (src : Trapframe) : Prop :=
  ∃ k page, c = .thread k ∧ Main s k ∧ frameOf s k = src ∧ Owned s page k ∧
  (s.thr k).tf = tfAddr (page + KSTACKSIZE)

structure ProcessJob (s : Machine) (c : Creator) (j : Job) : Prop where
  slot : j.slot = base j.goal.proc
  proc : s.procs j.goal.proc ≠ .unused
  idle : (s.thr j.slot).state ≠ .runnable ∧ (s.thr j.slot).state ≠ .running
  ops : j.ops ∈ programs
  used : .used ∉ j.ops → .runnable ∈ j.ops → s.procs j.goal.proc = .used
  page : .kalloc ∉ j.ops → .runnable ∈ j.ops ∨ .kfree ∈ j.ops → Owned s j.goal.page j.slot
  completes : ∃ src, Completes src j.goal (view s j.slot j.sp j.goal.page) j.ops ∧
    (.frame .copy ∈ j.ops → SourceOk s c src)

structure ThreadJob (s : Machine) (c : Creator) (j : Job) (n : ℕ) : Prop where
  creator : c = .thread (base (row j.slot))
  settled : Settled s (row j.slot)
  idle : (s.thr j.slot).state ≠ .runnable ∧ (s.thr j.slot).state ≠ .running
  stage : n < 9
  ops : ∃ startFunc stack, j.ops = (kthreadCreate startFunc stack).drop n
  kstack : 1 ≤ n → Owned s (s.thr j.slot).kstack j.slot
  sp : 2 ≤ n → ∃ page, Owned s page j.slot ∧ j.sp = page + KSTACKSIZE
  context : 5 ≤ n → ∃ page, Owned s page j.slot ∧ (s.thr j.slot).context = contextAddr (page + KSTACKSIZE)

structure JobOk (s : Machine) (c : Creator) (j : Job) : Prop where
  process : j.working → j.isThread = false → ProcessJob s c j
  thread : j.working → j.isThread = true → ∃ n, ThreadJob s c j n
  rest : j.working = false → j.ops = [] ∨ j.ops = [.release] ∨ j.ops = [.uninit]

def Published (s : Machine) (k : ℕ) : Prop := (s.thr k).state = .runnable ∨ (s.thr k).state = .running

structure SlotOk (s : Machine) (k : ℕ) : Prop where
  live : Published s k → Main s k ∧ Owned s (s.thr k).kstack k
  cpu : s.onCpu k → Main s k ∧ ∃ page, Owned s page k ∧ s.esp0 k = page + KSTACKSIZE
  first : ∀ g, s.first k = some g → Published s k → Owned s g.page k ∧ Complete g (view s k 0 g.page)

structure Sane (s : Machine) : Prop where
  jobs : ∀ c j, s.job c = some j → JobOk s c j
  slots : ∀ k, SlotOk s k
  distinct : ∀ c c' j j', s.job c = some j → s.job c' = some j' → j.working → j'.working →
    j.isThread = false → j'.isThread = false → j.goal.proc = j'.goal.proc → c = c'

structure Within (s s' : Machine) (c : Creator) (T : ℕ → Prop) : Prop where
  thr : ∀ i, ¬ T i → s'.thr i = s.thr i
  page : ∀ page i, ¬ T i → Owned s page i → Owned s' page i ∧ top s'.mem page = top s.mem page
  job : ∀ c', c' ≠ c → s'.job c' = s.job c'
  settled : ∀ p, Settled s p → Settled s' p
  procs : ∀ c' j, c' ≠ c → s.job c' = some j → j.working → j.isThread = false →
    s'.procs j.goal.proc = s.procs j.goal.proc
  apart : ∀ c' j, c' ≠ c → s.job c' = some j → j.working → ¬ T j.slot
  creator : ∀ k j, .thread k ≠ c → s.job (.thread k) = some j → j.working → j.isThread = false → Main s k → ¬ T k
  esp0 : ∀ i, ¬ T i → s'.esp0 i = s.esp0 i
  onCpu : ∀ i, ¬ T i → s'.onCpu i = s.onCpu i
  first : ∀ i, ¬ T i → s'.first i = s.first i

theorem Main.within {s s' : Machine} {c : Creator} {T : ℕ → Prop} (h : Within s s' c T) {k : ℕ} (hm : Main s k) :
    Main s' k :=
  ⟨hm.1, h.settled _ hm.2⟩

theorem programs_kalloc : ∀ ops ∈ programs, .kalloc ∈ ops → ops = .kalloc :: ops.tail := by decide

theorem programs_tail : ∀ ops ∈ programs, ops.tail ∈ programs := by decide

theorem programs_failed : ∀ ops ∈ programs, .runnable ∉ ops → .kfree ∉ ops →
    ops ∈ forkFails.tail.tails ++ [[.release]] := by
  decide

theorem programs_rest : ∀ ops ∈ programs, .runnable ∉ ops → .unused ∉ ops →
    ops = [] ∨ ops = [.release] ∨ ops = [.uninit] := by decide

section

variable {s s' : Machine} {c c' : Creator} {T : ℕ → Prop} {j : Job}

variable {k : ℕ} {src : Trapframe} {g : Goal} {v : View} {ops : List Op}

theorem view_within (h : Within s s' c T) {page : ℕ} (hk : ¬ T k) (ho : Owned s page k) (sp : ℕ) :
    view s' k sp page = view s k sp page := by
  simp only [view, h.thr k hk, (h.page page k hk ho).2]

theorem completes_kalloc {v' : View} (ht : v'.t = v.t)
    (hsp : v'.sp = v.sp) (h : Completes src g v (.kalloc :: ops)) : Completes src g v' (.kalloc :: ops) := by
  intro page frame word ctx hp
  rw [ht, hsp]
  exact h page frame word ctx hp

theorem completes_failed
    (h : ops ∈ forkFails.tail.tails ++ [[.release]]) : Completes src g v ops := by
  simp only [forkFails, List.tail_cons, List.tails, List.cons_append, List.nil_append, List.mem_cons,
    List.not_mem_nil, or_false] at h
  rcases h with rfl | rfl | rfl | rfl | rfl <;> trivial

theorem completes_within (h : Within s s' c T) (hj : ProcessJob s c' j) (hk : ¬ T j.slot)
    (hc : Completes src j.goal (view s j.slot j.sp j.goal.page) j.ops) :
    Completes src j.goal (view s' j.slot j.sp j.goal.page) j.ops := by
  by_cases hka : .kalloc ∈ j.ops
  · rw [programs_kalloc _ hj.ops hka] at hc ⊢
    refine completes_kalloc (v := view s j.slot j.sp j.goal.page) ?_ rfl hc
    simp only [view, h.thr _ hk]
  · by_cases hlive : .runnable ∈ j.ops ∨ .kfree ∈ j.ops
    · rwa [view_within h hk (hj.page hka hlive)]
    · push Not at hlive
      exact completes_failed (programs_failed _ hj.ops hlive.1 hlive.2)

theorem SourceOk.source_eq (h : SourceOk s c src) : source s c = src := by
  obtain ⟨k, page, rfl, _, hframe, _⟩ := h
  exact hframe

theorem SourceOk.within (h : Within s s' c T) (hs : SourceOk s c' src)
    (hT : ∀ k, c' = .thread k → Main s k → ¬ T k) : SourceOk s' c' src := by
  obtain ⟨k, page, rfl, hm, hframe, ho, htf⟩ := hs
  have hk := hT k rfl hm
  refine ⟨k, page, rfl, hm.within h, ?_, (h.page page k hk ho).1, by rw [h.thr k hk, htf]⟩
  have htop := congrArg Prod.fst (h.page page k hk ho).2
  simp only [top] at htop
  rw [frameOf, h.thr k hk, htf, htop, ← htf]
  exact hframe

theorem ProcessJob.within (h : Within s s' c T) (hc : c' ≠ c) (hjob : s.job c' = some j) (hw : j.working)
    (hp : j.isThread = false) (hj : ProcessJob s c' j) : ProcessJob s' c' j := by
  have hk := h.apart c' j hc hjob hw
  obtain ⟨src, hcomp, hsrc⟩ := hj.completes
  have hprocs := h.procs c' j hc hjob hw hp
  refine ⟨hj.slot, hprocs ▸ hj.proc, by rw [h.thr _ hk]; exact hj.idle, hj.ops, hprocs ▸ hj.used,
    fun hka hlive => (h.page _ _ hk (hj.page hka hlive)).1, src, completes_within h hj hk hcomp, fun hcopy => ?_⟩
  refine (hsrc hcopy).within h (fun k hk hm => ?_)
  subst hk
  exact h.creator k j hc hjob hw hp hm

theorem ThreadJob.within (h : Within s s' c T) (hc : c' ≠ c) (hjob : s.job c' = some j) (hw : j.working)
    {n : ℕ} (hj : ThreadJob s c' j n) : ThreadJob s' c' j n := by
  have hk := h.apart c' j hc hjob hw
  refine ⟨hj.creator, h.settled _ hj.settled, by rw [h.thr _ hk]; exact hj.idle, hj.stage, hj.ops, fun hka => ?_,
    fun hsp => ?_, fun hctx => ?_⟩
  · rw [h.thr _ hk]
    exact (h.page _ _ hk (hj.kstack hka)).1
  · obtain ⟨page, ho, heq⟩ := hj.sp hsp
    exact ⟨page, (h.page _ _ hk ho).1, heq⟩
  · obtain ⟨page, ho, heq⟩ := hj.context hctx
    exact ⟨page, (h.page _ _ hk ho).1, by rw [h.thr _ hk, heq]⟩

theorem SlotOk.within (h : Within s s' c T) (hk : ¬ T k) (hs : SlotOk s k) : SlotOk s' k := by
  have ht := h.thr k hk
  refine ⟨fun hp => ?_, fun hcpu => ?_, fun g hg hp => ?_⟩
  · rw [Published, ht] at hp
    obtain ⟨hm, ho⟩ := hs.live hp
    exact ⟨hm.within h, by rw [ht]; exact (h.page _ k hk ho).1⟩
  · rw [h.onCpu k hk] at hcpu
    obtain ⟨hm, page, ho, heq⟩ := hs.cpu hcpu
    exact ⟨hm.within h, page, (h.page _ k hk ho).1, by rw [h.esp0 k hk, heq]⟩
  · rw [h.first k hk] at hg
    rw [Published, ht] at hp
    obtain ⟨ho, hcomp⟩ := hs.first g hg hp
    exact ⟨(h.page _ k hk ho).1, by rw [view_within h hk ho]; exact hcomp⟩

theorem sane_within (h : Within s s' c T) (hi : Sane s) (hnew : ∀ j, s'.job c = some j → JobOk s' c j)
    (hslots : ∀ k, T k → SlotOk s' k)
    (hdist : ∀ c' j j', c' ≠ c → s'.job c = some j → s.job c' = some j' → j.working → j'.working →
      j.isThread = false → j'.isThread = false → j.goal.proc ≠ j'.goal.proc) : Sane s' := by
  refine ⟨fun c' j hj => ?_, fun k => ?_, fun c₁ c₂ j₁ j₂ h₁ h₂ w₁ w₂ p₁ p₂ heq => ?_⟩
  · by_cases hc : c' = c
    · subst hc
      exact hnew j hj
    · rw [h.job c' hc] at hj
      have hok := hi.jobs c' j hj
      refine ⟨fun hw hp => (hok.process hw hp).within h hc hj hw hp, fun hw hp => ?_, hok.rest⟩
      obtain ⟨n, hthread⟩ := hok.thread hw hp
      exact ⟨n, hthread.within h hc hj hw⟩
  · by_cases hk : T k
    · exact hslots k hk
    · exact (hi.slots k).within h hk
  · by_cases hc₁ : c₁ = c <;> by_cases hc₂ : c₂ = c
    · rw [hc₁, hc₂]
    · rw [hc₁] at h₁
      rw [h.job _ hc₂] at h₂
      exact absurd heq (hdist c₂ j₁ j₂ hc₂ h₁ h₂ w₁ w₂ p₁ p₂)
    · rw [hc₂] at h₂
      rw [h.job _ hc₁] at h₁
      exact absurd heq.symm (hdist c₁ j₂ j₁ hc₁ h₂ h₁ w₂ w₁ p₂ p₁)
    · rw [h.job _ hc₁] at h₁
      rw [h.job _ hc₂] at h₂
      exact hi.distinct c₁ c₂ j₁ j₂ h₁ h₂ w₁ w₂ p₁ p₂ heq

end

section

variable {s s' : Machine} {c c' : Creator} {j j' : Job}

theorem ProcessJob.not_main (hj : ProcessJob s c j) (hjob : s.job c = some j) (hw : j.working)
    (hp : j.isThread = false) {k : ℕ} (hm : Main s k) : j.slot ≠ k := by
  rintro rfl
  have hproc : row j.slot = j.goal.proc := by rw [hj.slot, row_base]
  exact hm.2.2 c j hjob hw hp hproc.symm

theorem Sane.apart (hi : Sane s) (hc : c' ≠ c) (hjob : s.job c = some j) (hjob' : s.job c' = some j')
    (hw : j.working) (hw' : j'.working) : j'.slot ≠ j.slot := by
  intro heq
  cases hp : j.isThread <;> cases hp' : j'.isThread
  · have hj := (hi.jobs c j hjob).process hw hp
    have hj' := (hi.jobs c' j' hjob').process hw' hp'
    have hproc : base j'.goal.proc = base j.goal.proc := by rw [← hj.slot, ← hj'.slot, heq]
    exact hc (hi.distinct c' c j' j hjob' hjob hw' hw hp' hp (Nat.eq_of_mul_eq_mul_left (by decide) hproc))
  · have hj := (hi.jobs c j hjob).process hw hp
    obtain ⟨_, hj'⟩ := (hi.jobs c' j' hjob').thread hw' hp'
    refine hj'.settled.2 c j hjob hw hp ?_
    rw [heq, hj.slot, row_base]
  · obtain ⟨_, hj⟩ := (hi.jobs c j hjob).thread hw hp
    have hj' := (hi.jobs c' j' hjob').process hw' hp'
    refine hj.settled.2 c' j' hjob' hw' hp' ?_
    rw [← heq, hj'.slot, row_base]
  · obtain ⟨_, hj⟩ := (hi.jobs c j hjob).thread hw hp
    obtain ⟨_, hj'⟩ := (hi.jobs c' j' hjob').thread hw' hp'
    exact hc (hj'.creator.trans (by rw [heq, ← hj.creator]))

theorem Sane.creator_apart (hi : Sane s) {k : ℕ} (hc : .thread k ≠ c) (hjob : s.job c = some j)
    (hw : j.working) (hm : Main s k) : k ≠ j.slot := by
  rintro rfl
  cases hp : j.isThread with
  | false => exact ((hi.jobs c j hjob).process hw hp).not_main hjob hw hp hm rfl
  | true =>
    obtain ⟨_, hj⟩ := (hi.jobs c j hjob).thread hw hp
    have hcreator := hj.creator
    rw [hm.1] at hcreator
    exact hc hcreator.symm

end

end Xv6.Threads
