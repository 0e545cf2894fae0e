import Xv6.KernelSound

/-! The rows of `ptable` over the calls `fork`, `exit`, `wait` and `kill` of processes with one thread each:
which fields a new process finds in its row. A region under `ptable.lock` is one step. -/

namespace Xv6.Slots

open Xv6.Runs Xv6.Threads Function

inductive Pc where
  | free
  | forkAlloc
  | forkStack (q : ℕ)
  | forkCopy (q : ℕ)
  | forkKstack (q : ℕ)
  | forkUnused (q : ℕ)
  | forkUninit (q : ℕ)
  | forkParent (q : ℕ)
  | forkFiles (q i : ℕ)
  | forkCwd (q : ℕ)
  | forkUsed (q : ℕ)
  | exitScan
  | exitFiles (i : ℕ)
  | exitCwd
  | exitFinal
  | wait
  deriving DecidableEq, Repr

/-- `pc p` is none when the row `p` has no thread that runs. -/
structure State where
  proc : ℕ → Proc
  thr : Table
  pc : ℕ → Option Pc
  ofile : ℕ → ℕ → Option ℕ
  cwd : ℕ → Option ℕ
  nextpid : ℤ
  nexttid : ℤ

inductive Call where
  | fork
  | exit
  | wait
  deriving DecidableEq, Repr

def Call.pc : Call → Pc
  | .fork => .forkAlloc
  | .exit => .exitScan
  | .wait => .wait

/-- `alloc` is the end of `kalloc` or of `copyuvm`, with 0 for a failure; `file` and `chdir` stand for the
calls that change the open files and the current directory, `turn` for the states that the scheduler, `sleep`
and `wakeup` store. -/
inductive Event where
  | call (p : ℕ) (call : Call)
  | run (p : ℕ)
  | alloc (p page : ℕ)
  | kill (p : ℕ) (pid : ℤ)
  | file (p fd : ℕ) (file : Option ℕ)
  | chdir (p dir : ℕ)
  | turn (p : ℕ) (state : ThreadState)
  deriving DecidableEq, Repr

section Code

variable (s : State) (p : ℕ)

def State.goto (pc : Pc) : State := { s with pc := Function.update s.pc p (some pc) }

def State.setProc (q : ℕ) (row : Proc) : State := { s with proc := Function.update s.proc q row }

def State.setThr (thr : Table) : State := { s with thr := thr }

def State.setFile (q fd : ℕ) (file : Option ℕ) : State :=
  { s with ofile := Function.update s.ofile q (Function.update (s.ofile q) fd file) }

def State.setCwd (q : ℕ) (dir : Option ℕ) : State := { s with cwd := Function.update s.cwd q dir }

def setKstack (thr : Table) (k page : ℕ) : Table := Function.update thr k { thr k with kstack := page }

def allocproc : State :=
  match searchUnused fun q => (s.proc q).state with
  | none => s.goto p .free
  | some q =>
    { ((s.setProc q ((s.proc q).embryo s.nextpid)).setThr
        (allocprocTable s.thr q s.nexttid)).goto p (.forkStack q) with
      nextpid := s.nextpid + 1
      nexttid := s.nexttid + 1 }

def forkFiles (q i : ℕ) : State :=
  if i < NOFILE then
    (match s.ofile p i with
      | some file => s.setFile q i (some file)
      | none => s).goto p (.forkFiles q (i + 1))
  else s.goto p (.forkCwd q)

def exitScan : State :=
  if lastRunning s.thr (base p) (base p) then s.goto p (.exitFiles 0)
  else (s.setThr (requestExit s.thr (base p) (base p))).goto p .free

def exitFiles (i : ℕ) : State :=
  if i < NOFILE then (s.setFile p i none).goto p (.exitFiles (i + 1)) else s.goto p .exitCwd

def exitFinal : State :=
  { s with
    proc := Function.update (passToInit s.proc p) p { passToInit s.proc p p with state := .zombie }
    thr := setState s.thr (base p) .terminated
    pc := Function.update s.pc p none }

def waitFound (q : ℕ) : State :=
  { (s.setThr (waitTable s.thr (base q))).goto p .free with proc := freeRow s.proc s.thr (base p) q }

def wait : State :=
  match zombieChild s.proc p with
  | some q => waitFound s p q
  | none =>
    if havekids s.proc p = false ∨ (s.proc p).killed ∨ (s.thr (base p)).exitRequest ≠ 0 then s.goto p .free
    else s

def kill (pid : ℤ) : State := { s with proc := killTable s.proc pid }

def run : Pc → Option State
  | .forkAlloc => some (allocproc s p)
  | .forkKstack q => some ((s.setThr (setKstack s.thr (base q) 0)).goto p (.forkUnused q))
  | .forkUnused q => some ((s.setProc q { s.proc q with state := .unused }).goto p (.forkUninit q))
  | .forkUninit q => some ((s.setThr (setState s.thr (base q) .uninit)).goto p .free)
  | .forkParent q => some ((s.setProc q { s.proc q with parent := some p }).goto p (.forkFiles q 0))
  | .forkFiles q i => some (forkFiles s p q i)
  | .forkCwd q => some ((s.setCwd q (s.cwd p)).goto p (.forkUsed q))
  | .forkUsed q =>
    some ((((s.setProc q { s.proc q with state := .used }).setThr
      (setState s.thr (base q) .runnable)).goto q .free).goto p .free)
  | .exitScan => if p = initproc then none else some (exitScan s p)
  | .exitFiles i => some (exitFiles s p i)
  | .exitCwd => some ((s.setCwd p none).goto p .exitFinal)
  | .exitFinal => some (exitFinal s p)
  | .wait => some (wait s p)
  | .free | .forkStack _ | .forkCopy _ => none

def alloc (page : ℕ) : Pc → Option State
  | .forkStack q =>
    some (if page = 0 then s.goto p .free else (s.setThr (setKstack s.thr (base q) page)).goto p (.forkCopy q))
  | .forkCopy q => some (s.goto p (if page = 0 then .forkKstack q else .forkParent q))
  | _ => none

end Code

def step (s : State) : Event → Option State
  | .call p call => if s.pc p = some .free then some (s.goto p call.pc) else none
  | .run p => (s.pc p).bind (run s p)
  | .alloc p page => (s.pc p).bind (alloc s p page)
  | .kill p pid => if s.pc p = some .free then some (kill s pid) else none
  | .file p fd file => if s.pc p = some .free ∧ fd < NOFILE then some (s.setFile p fd file) else none
  | .chdir p dir => if s.pc p = some .free then some (s.setCwd p (some dir)) else none
  | .turn p state => if (s.pc p).isSome ∧ state.live then some (s.setThr (setState s.thr (base p) state)) else none

def boot (dir : ℕ) : State where
  proc := bootRows
  thr := bootSlots
  pc p := if p = initproc then some .free else none
  ofile _ _ := none
  cwd p := if p = initproc then some dir else none
  nextpid := 2
  nexttid := 2

def KillsProcess (s : State) : Event → Prop
  | .kill _ pid => ∀ q ∈ killRow s.proc pid, (s.proc q).state ≠ .unused ∧ (s.proc q).state ≠ .embryo
  | _ => True

instance (s : State) : ∀ e, Decidable (KillsProcess s e)
  | .kill _ pid =>
    inferInstanceAs (Decidable (∀ q ∈ killRow s.proc pid, (s.proc q).state ≠ .unused ∧ (s.proc q).state ≠ .embryo))
  | .call _ _ | .run _ | .alloc _ _ | .file _ _ _ | .chdir _ _ | .turn _ _ => inferInstanceAs (Decidable True)

def Pc.owns : Pc → Option ℕ
  | .forkStack q | .forkCopy q | .forkKstack q | .forkUnused q | .forkParent q | .forkFiles q _ | .forkCwd q
  | .forkUsed q => some q
  | _ => none

def NoFiles (s : State) (q : ℕ) : Prop := (∀ fd, s.ofile q fd = none) ∧ s.cwd q = none

def Blank (s : State) (q : ℕ) : Prop := (s.proc q).killed = false ∧ (s.proc q).parent = none ∧ NoFiles s q

def Fresh (s : State) (q : ℕ) : Prop := (s.thr (base q)).state = .uninit ∧ (s.thr (base q)).exitRequest = 0

def Begun (s : State) (p q : ℕ) : Prop :=
  (s.proc q).killed = false ∧ (s.proc q).parent = some p ∧ Fresh s q

def Progress (s : State) (p : ℕ) : Pc → Prop
  | .forkStack q | .forkCopy q | .forkKstack q | .forkUnused q | .forkParent q => Blank s q ∧ Fresh s q
  | .forkFiles q i => Begun s p q ∧ (∀ fd, s.ofile q fd = if fd < i then s.ofile p fd else none) ∧ s.cwd q = none
  | .forkCwd q => Begun s p q ∧ s.ofile q = s.ofile p ∧ s.cwd q = none
  | .forkUsed q => Begun s p q ∧ s.ofile q = s.ofile p ∧ s.cwd q = s.cwd p
  | .exitFiles i => ∀ fd < i, s.ofile p fd = none
  | .exitCwd => ∀ fd, s.ofile p fd = none
  | .exitFinal => NoFiles s p
  | _ => True

structure Sound (s : State) : Prop where
  alive : ∀ p pc, s.pc p = some pc → (s.proc p).state = .used
  owner : ∀ p pc q, s.pc p = some pc → pc.owns = some q → (s.proc q).state = .embryo
  apart : ∀ p p' pc pc' q, s.pc p = some pc → s.pc p' = some pc' → pc.owns = some q → pc'.owns = some q → p = p'
  unused : ∀ q, (s.proc q).state = .unused → Blank s q
  zombie : ∀ q, (s.proc q).state = .zombie → NoFiles s q
  bound : ∀ q fd, NOFILE ≤ fd → s.ofile q fd = none
  spare : ∀ k, k ≠ base (row k) → (s.thr k).state = .uninit ∧ (s.thr k).kstack = 0
  progress : ∀ p pc, s.pc p = some pc → Progress s p pc

section Frames

variable {s s' : State} {p q : ℕ} {pc next : Pc}

structure Keeps (s s' : State) (r : ℕ) : Prop where
  killed : (s'.proc r).killed = (s.proc r).killed
  parent : (s'.proc r).parent = (s.proc r).parent
  ofile : s'.ofile r = s.ofile r
  cwd : s'.cwd r = s.cwd r
  fresh : Fresh s r → Fresh s' r

theorem Fresh.of_eq (h : Fresh s q) (hthr : s'.thr (base q) = s.thr (base q)) : Fresh s' q := by
  unfold Fresh
  rw [hthr]
  exact h

theorem Keeps.noFiles (h : Keeps s s' q) (hq : NoFiles s q) : NoFiles s' q := by
  unfold NoFiles
  rw [h.ofile, h.cwd]
  exact hq

theorem Keeps.blank (h : Keeps s s' q) (hq : Blank s q) : Blank s' q := by
  unfold Blank
  rw [h.killed, h.parent]
  exact ⟨hq.1, hq.2.1, h.noFiles hq.2.2⟩

theorem Keeps.begun (h : Keeps s s' q) (hq : Begun s p q) : Begun s' p q := by
  unfold Begun
  rw [h.killed, h.parent]
  exact ⟨hq.1, hq.2.1, h.fresh hq.2.2⟩

theorem Progress.keep (h : Progress s p pc) (hofile : s'.ofile p = s.ofile p) (hcwd : s'.cwd p = s.cwd p)
    (hq : ∀ q, pc.owns = some q → Keeps s s' q) : Progress s' p pc := by
  cases pc with
  | forkStack q => exact ⟨(hq q rfl).blank h.1, (hq q rfl).fresh h.2⟩
  | forkCopy q => exact ⟨(hq q rfl).blank h.1, (hq q rfl).fresh h.2⟩
  | forkKstack q => exact ⟨(hq q rfl).blank h.1, (hq q rfl).fresh h.2⟩
  | forkUnused q => exact ⟨(hq q rfl).blank h.1, (hq q rfl).fresh h.2⟩
  | forkParent q => exact ⟨(hq q rfl).blank h.1, (hq q rfl).fresh h.2⟩
  | forkFiles q i =>
    refine ⟨(hq q rfl).begun h.1, ?_, ?_⟩
    · rw [(hq q rfl).ofile, hofile]
      exact h.2.1
    · rw [(hq q rfl).cwd]
      exact h.2.2
  | forkCwd q =>
    refine ⟨(hq q rfl).begun h.1, ?_, ?_⟩
    · rw [(hq q rfl).ofile, hofile]
      exact h.2.1
    · rw [(hq q rfl).cwd]
      exact h.2.2
  | forkUsed q =>
    refine ⟨(hq q rfl).begun h.1, ?_, ?_⟩
    · rw [(hq q rfl).ofile, hofile]
      exact h.2.1
    · rw [(hq q rfl).cwd, hcwd]
      exact h.2.2
  | exitFiles i =>
    unfold Progress
    rw [hofile]
    exact h
  | exitCwd =>
    unfold Progress
    rw [hofile]
    exact h
  | exitFinal =>
    unfold Progress NoFiles
    rw [hofile, hcwd]
    exact h
  | _ => trivial

def Private (s : State) (p q : ℕ) : Prop := ∀ r pc, s.pc r = some pc → r ≠ p → r ≠ q ∧ pc.owns ≠ some q

theorem Sound.private_own (h : Sound s) (hp : s.pc p = some pc) : Private s p p := by
  refine fun r pc' hr hrp => ⟨hrp, fun ho => ?_⟩
  have he := h.owner r pc' p hr ho
  rw [h.alive p pc hp] at he
  cases he

theorem Sound.private_owned (h : Sound s) (hp : s.pc p = some pc) (hq : pc.owns = some q) : Private s p q := by
  refine fun r pc' hr hrp => ⟨?_, fun ho => hrp (h.apart r p pc' pc q hr hp ho hq)⟩
  rintro rfl
  have he := h.owner p pc r hp hq
  rw [h.alive r pc' hr] at he
  cases he

theorem Sound.private_idle (h : Sound s) (hused : (s.proc q).state ≠ .used)
    (hembryo : (s.proc q).state ≠ .embryo) :
    Private s p q := by
  refine fun r pc' hr _ => ⟨?_, fun ho => hembryo (h.owner r pc' q hr ho)⟩
  rintro rfl
  exact hused (h.alive r pc' hr)

structure Touches (s s' : State) (p q : ℕ) (next : Pc) : Prop where
  pc : ∀ r, r ≠ p → r ≠ q → s'.pc r = s.pc r
  goes : s'.pc p = some next
  starts : q ≠ p → ∀ pc, s'.pc q = some pc → pc = .free ∧ (s'.proc q).state = .used
  rows : ∀ r ≠ q, s'.proc r = s.proc r ∧ s'.ofile r = s.ofile r ∧ s'.cwd r = s.cwd r ∧
    s'.thr (base r) = s.thr (base r)
  spare : ∀ k, k ≠ base (row k) → (s'.thr k).state = .uninit ∧ (s'.thr k).kstack = 0

theorem Sound.touch (h : Sound s) (ht : Touches s s' p q next) (hq : Private s p q)
    (hused : (s'.proc p).state = .used) (howns : ∀ x, next.owns = some x → x = q ∧ (s'.proc q).state = .embryo)
    (hunused : (s'.proc q).state = .unused → Blank s' q) (hzombie : (s'.proc q).state = .zombie → NoFiles s' q)
    (hbound : ∀ fd, NOFILE ≤ fd → s'.ofile q fd = none) (hprogress : Progress s' p next) : Sound s' := by
  have hkeeps {r : ℕ} (hr : r ≠ q) : Keeps s s' r := by
    obtain ⟨hproc, hofile, hcwd, hthr⟩ := ht.rows r hr
    exact ⟨by rw [hproc], by rw [hproc], hofile, hcwd, fun hf => hf.of_eq hthr⟩
  -- a thread is the one that made the step, the one of a new process, or another one, which the step leaves alone
  have hpcs {r : ℕ} {pc : Pc} (hr : s'.pc r = some pc) :
      r = p ∧ pc = next ∨ r ≠ p ∧ r = q ∧ pc = .free ∧ (s'.proc q).state = .used ∨ r ≠ p ∧
      r ≠ q ∧ s.pc r = some pc := by
    by_cases hrp : r = p
    · rw [hrp, ht.goes] at hr
      exact .inl ⟨hrp, (Option.some.inj hr).symm⟩
    · by_cases hrq : r = q
      · exact .inr (.inl ⟨hrp, hrq, ht.starts (fun hqp => hrp (hrq.trans hqp)) pc (hrq ▸ hr)⟩)
      · rw [ht.pc r hrp hrq] at hr
        exact .inr (.inr ⟨hrp, hrq, hr⟩)
  have hold {r x : ℕ} {pc : Pc} (hr : s'.pc r = some pc) (ho : pc.owns = some x) :
      r = p ∧ x = q ∧ (s'.proc q).state = .embryo ∨ r ≠ p ∧ x ≠ q ∧ s.pc r = some pc := by
    obtain ⟨rfl, rfl⟩ | ⟨_, _, rfl, _⟩ | ⟨hrp, hrq, hr⟩ := hpcs hr
    · exact .inl ⟨rfl, howns x ho⟩
    · cases ho
    · exact .inr ⟨hrp, fun hx => (hq r pc hr hrp).2 (hx ▸ ho), hr⟩
  refine ⟨fun r pc hr => ?_, fun r pc x hr ho => ?_, fun r r' pc₁ pc₂ x h₁ h₂ o₁ o₂ => ?_,
    fun r hr => ?_, fun r hr => ?_, fun r fd hfd => ?_, ht.spare, fun r pc hr => ?_⟩
  · obtain ⟨rfl, _⟩ | ⟨_, rfl, _, hs⟩ | ⟨_, hrq, hr⟩ := hpcs hr
    · exact hused
    · exact hs
    · rw [(ht.rows r hrq).1]
      exact h.alive r pc hr
  · obtain ⟨_, rfl, he⟩ | ⟨_, hx, hr⟩ := hold hr ho
    · exact he
    · rw [(ht.rows x hx).1]
      exact h.owner r pc x hr ho
  · obtain ⟨rfl, rfl, _⟩ | ⟨_, hx, h₁⟩ := hold h₁ o₁
    · obtain ⟨rfl, _, _⟩ | ⟨_, hx, _⟩ := hold h₂ o₂
      · rfl
      · exact absurd rfl hx
    · obtain ⟨_, rfl, _⟩ | ⟨_, _, h₂⟩ := hold h₂ o₂
      · exact absurd rfl hx
      · exact h.apart r r' pc₁ pc₂ x h₁ h₂ o₁ o₂
  · by_cases hrq : r = q
    · rw [hrq] at hr ⊢
      exact hunused hr
    · rw [(ht.rows r hrq).1] at hr
      exact (hkeeps hrq).blank (h.unused r hr)
  · by_cases hrq : r = q
    · rw [hrq] at hr ⊢
      exact hzombie hr
    · rw [(ht.rows r hrq).1] at hr
      exact (hkeeps hrq).noFiles (h.zombie r hr)
  · by_cases hrq : r = q
    · rw [hrq]
      exact hbound fd hfd
    · rw [(ht.rows r hrq).2.1]
      exact h.bound r fd hfd
  · obtain ⟨rfl, rfl⟩ | ⟨_, _, rfl, _⟩ | ⟨hrp, hrq, hr⟩ := hpcs hr
    · exact hprogress
    · trivial
    · refine (h.progress r pc hr).keep (hkeeps hrq).ofile (hkeeps hrq).cwd fun x ho => hkeeps ?_
      rintro rfl
      exact (hq r pc hr hrp).2 ho

theorem Sound.keep (h : Sound s) (hpc : ∀ r pc, s'.pc r = some pc → s.pc r = some pc ∨
    pc = .free ∧ ∃ pc', s.pc r = some pc') (hstate : ∀ r, (s'.proc r).state = (s.proc r).state ∨
      (s.proc r).state = .used ∧ (s'.proc r).state = .zombie ∧ s'.pc r = none ∧ NoFiles s r)
    (hofile : s'.ofile = s.ofile) (hcwd : s'.cwd = s.cwd)
    (hunused : ∀ r, (s.proc r).state = .unused → Keeps s s' r)
    (howned : ∀ r pc q, s.pc r = some pc → pc.owns = some q → Keeps s s' q)
    (hspare : ∀ k, k ≠ base (row k) → (s'.thr k).state = .uninit ∧ (s'.thr k).kstack = 0) : Sound s' := by
  have hold {r x : ℕ} {pc : Pc} (hr : s'.pc r = some pc) (ho : pc.owns = some x) : s.pc r = some pc := by
    obtain hr | ⟨rfl, _⟩ := hpc r pc hr
    · exact hr
    · cases ho
  have hfiles {r : ℕ} (hr : NoFiles s r) : NoFiles s' r := by
    unfold NoFiles
    rw [hofile, hcwd]
    exact hr
  refine ⟨fun r pc hr => ?_, fun r pc x hr ho => ?_,
    fun r r' pc pc' x hr hr' ho ho' => h.apart r r' pc pc' x (hold hr ho) (hold hr' ho') ho ho',
    fun r hr => ?_, fun r hr => ?_, by rw [hofile]; exact h.bound, hspare, fun r pc hr => ?_⟩
  · obtain heq | ⟨_, _, hnone, _⟩ := hstate r
    · rw [heq]
      obtain hr | ⟨_, pc', hr⟩ := hpc r pc hr
      · exact h.alive r pc hr
      · exact h.alive r pc' hr
    · rw [hnone] at hr
      cases hr
  · have hembryo := h.owner r pc x (hold hr ho) ho
    obtain heq | ⟨hused, _⟩ := hstate x
    · rw [heq, hembryo]
    · rw [hused] at hembryo
      cases hembryo
  · obtain heq | ⟨_, hzombie, _⟩ := hstate r
    · rw [heq] at hr
      exact (hunused r hr).blank (h.unused r hr)
    · rw [hzombie] at hr
      cases hr
  · obtain heq | ⟨_, _, _, hno⟩ := hstate r
    · rw [heq] at hr
      exact hfiles (h.zombie r hr)
    · exact hfiles hno
  · obtain hr | ⟨rfl, _⟩ := hpc r pc hr
    · exact (h.progress r pc hr).keep (congrFun hofile r) (congrFun hcwd r) fun x ho => howned r pc x hr ho
    · trivial

end Frames

section Steps

variable {s s' : State} {p q : ℕ} {pc next : Pc}

variable {i k page r : ℕ} {thr : Table} {tid : ℤ} {state : ThreadState}

theorem spare_ne (hk : k ≠ base (row k)) : k ≠ base q := by
  rintro rfl
  exact hk (by rw [row_base])

theorem Sound.owned_ne (h : Sound s) (hp : s.pc p = some pc) (hq : pc.owns = some q) : p ≠ q := by
  rintro rfl
  have hembryo := h.owner p pc p hp hq
  rw [h.alive p pc hp] at hembryo
  cases hembryo

theorem Sound.idle (h : Sound s) (hq : (s.proc q).state ≠ .used) : s.pc q = none := by
  cases hpc : s.pc q with
  | none => rfl
  | some pc => exact absurd (h.alive q pc hpc) hq

theorem Sound.touches (h : Sound s) (hpc : s'.pc = update s.pc p (some next))
    (hq : q = p ∨ (s.proc q).state ≠ .used)
    (hrows : ∀ r ≠ q, s'.proc r = s.proc r ∧ s'.ofile r = s.ofile r ∧ s'.cwd r = s.cwd r ∧
      s'.thr (base r) = s.thr (base r))
    (hspare : ∀ k, k ≠ base (row k) → (s'.thr k).state = .uninit ∧ (s'.thr k).kstack = 0) :
    Touches s s' p q next := by
  refine ⟨fun r hr _ => by rw [hpc, update_of_ne hr], by rw [hpc, update_self], fun hne pc hs => ?_, hrows,
    hspare⟩
  rw [hpc, update_of_ne hne, h.idle (hq.resolve_left hne)] at hs
  cases hs

theorem Sound.own (h : Sound s) (hp : s.pc p = some pc) (hpc : s'.pc = update s.pc p (some next))
    (hproc : s'.proc = s.proc) (howns : next.owns = none)
    (hrows : ∀ r ≠ p, s'.ofile r = s.ofile r ∧ s'.cwd r = s.cwd r ∧ s'.thr (base r) = s.thr (base r))
    (hspare : ∀ k, k ≠ base (row k) → (s'.thr k).state = (s.thr k).state ∧ (s'.thr k).kstack = (s.thr k).kstack)
    (hbound : ∀ fd, NOFILE ≤ fd → s'.ofile p fd = none) (hprogress : Progress s' p next) : Sound s' := by
  have hused := h.alive p pc hp
  have ht : Touches s s' p p next := by
    refine h.touches hpc (.inl rfl) (fun r hr => ⟨by rw [hproc], hrows r hr⟩) fun k hk => ?_
    rw [(hspare k hk).1, (hspare k hk).2]
    exact h.spare k hk
  refine h.touch ht (h.private_own hp) (by rw [hproc, hused]) (fun x ho => ?_) (fun hs => ?_)
    (fun hs => ?_) hbound hprogress
  · rw [howns] at ho
    cases ho
  · rw [hproc, hused] at hs
    cases hs
  · rw [hproc, hused] at hs
    cases hs

theorem Sound.goto (h : Sound s) (hp : s.pc p = some pc) (howns : next.owns = none)
    (hprogress : Progress (s.goto p next) p next) : Sound (s.goto p next) :=
  h.own hp rfl rfl howns (fun _ _ => ⟨rfl, rfl, rfl⟩) (fun _ _ => ⟨rfl, rfl⟩) (h.bound p) hprogress

theorem Sound.used_other {row : Proc} (h : Sound s) (hp : s.pc p = some pc) (hne : p ≠ q) :
    (update s.proc q row p).state = .used := by
  rw [update_of_ne hne]
  exact h.alive p pc hp

theorem Sound.fill (h : Sound s) (hp : s.pc p = some pc) (hq : pc.owns = some q)
    (hpc : s'.pc = update s.pc p (some next)) (howns : next.owns = some q)
    (hrows : ∀ r ≠ q, s'.proc r = s.proc r ∧ s'.ofile r = s.ofile r ∧ s'.cwd r = s.cwd r ∧
      s'.thr (base r) = s.thr (base r))
    (hstate : (s'.proc q).state = (s.proc q).state) (hspare : ∀ k, k ≠ base (row k) → s'.thr k = s.thr k)
    (hbound : ∀ fd, NOFILE ≤ fd → s'.ofile q fd = none) (hprogress : Progress s' p next) : Sound s' := by
  have hembryo := h.owner p pc q hp hq
  have ht : Touches s s' p q next := by
    refine h.touches hpc (.inr (by rw [hembryo]; nofun)) hrows fun k hk => ?_
    rw [hspare k hk]
    exact h.spare k hk
  refine h.touch ht (h.private_owned hp hq) ?_ (fun x ho => ?_) (fun hs => ?_) (fun hs => ?_) hbound hprogress
  · rw [(hrows p (h.owned_ne hp hq)).1]
    exact h.alive p pc hp
  · rw [howns] at ho
    exact ⟨(Option.some.inj ho).symm, hstate.trans hembryo⟩
  · rw [hstate, hembryo] at hs
    cases hs
  · rw [hstate, hembryo] at hs
    cases hs

theorem allocprocTable_spare (h : (thr k).state = .uninit ∧ (thr k).kstack = 0) :
    (allocprocTable thr q tid k).state = .uninit ∧ (allocprocTable thr q tid k).kstack = 0 := by
  refine ⟨?_, allocprocTable_kstack.trans h.2⟩
  by_cases hq : row k = q
  · exact allocprocTable_row hq
  · rw [allocprocTable_other hq]
    exact h.1

theorem Sound.allocproc (h : Sound s) (hp : s.pc p = some .forkAlloc) : Sound (allocproc s p) := by
  unfold Slots.allocproc
  split
  · exact h.goto hp rfl trivial
  · rename_i q hfind
    have hq := (searchUnused_spec hfind).2
    have hblank := h.unused q hq
    have hne : p ≠ q := by
      rintro rfl
      rw [h.alive p _ hp] at hq
      cases hq
    have hself : update s.proc q ((s.proc q).embryo s.nextpid) q = (s.proc q).embryo s.nextpid := update_self _ _ _
    refine h.touch (q := q) (h.touches rfl (.inr (by rw [hq]; nofun)) (fun r hr => ?_) fun k hk => ?_)
      (h.private_idle (by rw [hq]; nofun) (by rw [hq]; nofun)) ?_ (fun x ho => ?_) (fun hs => ?_)
      (fun hs => ?_) (h.bound q) ?_
    · exact ⟨update_of_ne hr _ _, rfl, rfl, allocprocTable_other (by rwa [row_base])⟩
    · exact allocprocTable_spare (h.spare k hk)
    · exact h.used_other hp hne
    · exact ⟨(Option.some.inj ho).symm, congrArg Proc.state hself⟩
    · cases (congrArg Proc.state hself).symm.trans hs
    · cases (congrArg Proc.state hself).symm.trans hs
    · refine ⟨⟨?_, ?_, hblank.2.2⟩, ?_⟩
      · exact (congrArg Proc.killed hself).trans hblank.1
      · exact (congrArg Proc.parent hself).trans hblank.2.1
      · exact ⟨allocprocTable_row (row_base q), by simp [Slots.State.setThr, State.goto, allocprocTable]⟩

theorem setState_base (hr : r ≠ q) :
    setState thr (base q) state (base r) = thr (base r) := setState_other (base_ne hr)

theorem Sound.setState_spare (h : Sound s) (hk : k ≠ base (row k)) :
    (setState s.thr (base q) state k).state = .uninit ∧ (setState s.thr (base q) state k).kstack = 0 := by
  rw [setState_other (spare_ne hk)]
  exact h.spare k hk

theorem setState_exitRequest {j : ℕ} :
    (setState thr k state j).exitRequest = (thr j).exitRequest := by
  by_cases hj : j = k
  · rw [hj, setState, update_self]
  · rw [setState_other hj]

theorem fresh_kstack (h : Fresh s q) (hthr : s'.thr = setKstack s.thr (base q) page) : Fresh s' q := by
  unfold Fresh
  rw [hthr, setKstack, update_self]
  exact h

theorem Sound.alloc (h : Sound s) (hp : s.pc p = some pc) (hs : alloc s p page pc = some s') : Sound s' := by
  have hprogress := h.progress p pc hp
  cases pc with
  | forkStack q =>
    cases hs
    split_ifs
    · exact h.goto hp rfl trivial
    · refine h.fill hp rfl rfl rfl (fun r hr => ⟨rfl, rfl, rfl, update_of_ne (base_ne hr) _ _⟩) rfl
        (fun k hk => update_of_ne (spare_ne hk) _ _) (h.bound q) ⟨hprogress.1, fresh_kstack hprogress.2 rfl⟩
  | forkCopy q =>
    cases hs
    split_ifs
    · exact h.fill hp rfl rfl rfl (fun _ _ => ⟨rfl, rfl, rfl, rfl⟩) rfl (fun _ _ => rfl) (h.bound q) hprogress
    · exact h.fill hp rfl rfl rfl (fun _ _ => ⟨rfl, rfl, rfl, rfl⟩) rfl (fun _ _ => rfl) (h.bound q) hprogress
  | _ => cases hs

theorem Sound.forkUnused (h : Sound s) (hp : s.pc p = some (.forkUnused q)) :
    Sound ((s.setProc q { s.proc q with state := .unused }).goto p (.forkUninit q)) := by
  obtain ⟨hblank, _⟩ := h.progress p _ hp
  have hembryo := h.owner p _ q hp rfl
  have hself : update s.proc q { s.proc q with state := .unused } q = { s.proc q with state := .unused } :=
    update_self _ _ _
  refine h.touch (q := q) (h.touches rfl (.inr (by rw [hembryo]; nofun)) (fun r hr => ?_) h.spare)
    (h.private_owned hp rfl) ?_ nofun (fun _ => ⟨?_, ?_, hblank.2.2⟩) (fun hs => ?_) (h.bound q) trivial
  · exact ⟨update_of_ne hr _ _, rfl, rfl, rfl⟩
  · exact h.used_other hp (h.owned_ne hp rfl)
  · exact (congrArg Proc.killed hself).trans hblank.1
  · exact (congrArg Proc.parent hself).trans hblank.2.1
  · cases (congrArg Proc.state hself).symm.trans hs

theorem goto_cases (hp : s.pc p = some pc) (hr : (s.goto p .free).pc r = some next) :
    s.pc r = some next ∨ next = .free ∧ ∃ pc', s.pc r = some pc' := by
  change update s.pc p (some .free) r = some next at hr
  by_cases hrp : r = p
  · rw [hrp, update_self] at hr
    exact .inr ⟨(Option.some.inj hr).symm, pc, hrp ▸ hp⟩
  · rw [update_of_ne hrp] at hr
    exact .inl hr

theorem Sound.forkUninit (h : Sound s) (hp : s.pc p = some (.forkUninit q)) :
    Sound ((s.setThr (setState s.thr (base q) .uninit)).goto p .free) := by
  have hkeeps (r : ℕ) : Keeps s ((s.setThr (setState s.thr (base q) .uninit)).goto p .free) r := by
    refine ⟨rfl, rfl, rfl, rfl, fun hf => ?_⟩
    change (setState s.thr (base q) .uninit (base r)).state = .uninit ∧
      (setState s.thr (base q) .uninit (base r)).exitRequest = 0
    rw [setState_exitRequest]
    by_cases hr : r = q
    · rw [hr, setState_self]
      exact ⟨rfl, hr ▸ hf.2⟩
    · rw [setState_base hr]
      exact hf
  exact h.keep (fun r pc hr => goto_cases hp hr) (fun _ => .inl rfl) rfl rfl (fun r _ => hkeeps r)
    (fun _ _ r _ _ => hkeeps r)
    fun k hk => h.setState_spare hk

theorem Sound.forkParent (h : Sound s) (hp : s.pc p = some (.forkParent q)) :
    Sound ((s.setProc q { s.proc q with parent := some p }).goto p (.forkFiles q 0)) := by
  obtain ⟨⟨hkilled, _, hno, hcwd⟩, hfresh⟩ := h.progress p _ hp
  have hself : update s.proc q { s.proc q with parent := some p } q = { s.proc q with parent := some p } :=
    update_self _ _ _
  refine h.fill hp rfl rfl rfl (fun r hr => ⟨update_of_ne hr _ _, rfl, rfl, rfl⟩) ?_ (fun _ _ => rfl) (h.bound q)
    ⟨⟨?_, ?_, hfresh⟩, fun fd => hno fd, hcwd⟩
  · change (update s.proc q _ q).state = (s.proc q).state
    rw [hself]
  · exact (congrArg Proc.killed hself).trans hkilled
  · exact congrArg Proc.parent hself

theorem Sound.forkFiles (h : Sound s) (hp : s.pc p = some (.forkFiles q i)) : Sound (forkFiles s p q i) := by
  obtain ⟨hbegun, hfiles, hcwd⟩ := h.progress p _ hp
  have hne := h.owned_ne hp rfl
  unfold Slots.forkFiles
  split_ifs with hi
  · cases hfile : s.ofile p i with
    | none =>
      refine h.fill hp rfl rfl rfl (fun _ _ => ⟨rfl, rfl, rfl, rfl⟩) rfl (fun _ _ => rfl) (h.bound q)
        ⟨hbegun, fun fd => ?_, hcwd⟩
      change s.ofile q fd = if fd < i + 1 then s.ofile p fd else none
      rw [hfiles fd]
      by_cases hfd : fd = i
      · rw [hfd, if_neg (by omega), if_pos (by omega), hfile]
      · simp only [show fd < i + 1 ↔ fd < i by omega]
    | some file =>
      have hself : (s.setFile q i (some file)).ofile q = update (s.ofile q) i (some file) := update_self _ _ _
      have hother {r : ℕ} (hr : r ≠ q) : (s.setFile q i (some file)).ofile r = s.ofile r := update_of_ne hr _ _
      refine h.fill hp rfl rfl rfl (fun r hr => ⟨rfl, hother hr, rfl, rfl⟩) rfl (fun _ _ => rfl) (fun fd hfd => ?_)
        ⟨hbegun, fun fd => ?_, hcwd⟩
      · change (s.setFile q i (some file)).ofile q fd = none
        rw [hself, update_of_ne (by omega)]
        exact h.bound q fd hfd
      · change (s.setFile q i (some file)).ofile q fd = if fd < i + 1 then
          (s.setFile q i (some file)).ofile p fd else none
        rw [hself, hother hne]
        by_cases hfd : fd = i
        · rw [hfd, update_self, if_pos (by omega), hfile]
        · rw [update_of_ne hfd, hfiles fd]
          simp only [show fd < i + 1 ↔ fd < i by omega]
  · refine h.fill hp rfl rfl rfl (fun _ _ => ⟨rfl, rfl, rfl, rfl⟩) rfl (fun _ _ => rfl) (h.bound q)
      ⟨hbegun, funext fun fd => ?_, hcwd⟩
    change s.ofile q fd = s.ofile p fd
    by_cases hfd : fd < i
    · rw [hfiles fd, if_pos hfd]
    · rw [h.bound q fd (by omega), h.bound p fd (by omega)]

theorem Sound.forkCwd (h : Sound s) (hp : s.pc p = some (.forkCwd q)) :
    Sound ((s.setCwd q (s.cwd p)).goto p (.forkUsed q)) := by
  obtain ⟨hbegun, hfiles, _⟩ := h.progress p _ hp
  have hne := h.owned_ne hp rfl
  refine h.fill hp rfl rfl rfl (fun r hr => ⟨rfl, rfl, update_of_ne hr _ _, rfl⟩) rfl (fun _ _ => rfl) (h.bound q)
    ⟨hbegun, hfiles, ?_⟩
  change update s.cwd q (s.cwd p) q = update s.cwd q (s.cwd p) p
  rw [update_self, update_of_ne hne]

theorem Sound.forkUsed (h : Sound s) (hp : s.pc p = some (.forkUsed q)) :
    Sound ((((s.setProc q { s.proc q with state := .used }).setThr
      (setState s.thr (base q) .runnable)).goto q .free).goto p .free) := by
  have hne := h.owned_ne hp rfl
  have hself : (update s.proc q { s.proc q with state := .used } q).state = .used := by
    rw [update_self]
  refine h.touch (q := q) ⟨fun r hrp hrq => ?_, update_self _ _ _, fun _ pc hs => ⟨?_, hself⟩, fun r hr => ?_,
    fun k hk => ?_⟩ (h.private_owned hp rfl) ?_ nofun (fun hs => ?_) (fun hs => ?_) (h.bound q) trivial
  · change update (update s.pc q (some .free)) p (some .free) r = s.pc r
    rw [update_of_ne hrp, update_of_ne hrq]
  · change update (update s.pc q (some .free)) p (some .free) q = some pc at hs
    rw [update_of_ne hne.symm, update_self] at hs
    exact (Option.some.inj hs).symm
  · exact ⟨update_of_ne hr _ _, rfl, rfl, setState_base hr⟩
  · exact h.setState_spare hk
  · exact h.used_other hp hne
  · cases hself.symm.trans hs
  · cases hself.symm.trans hs

theorem Sound.exitScan (h : Sound s) (hp : s.pc p = some .exitScan) : Sound (exitScan s p) := by
  unfold Slots.exitScan
  split_ifs
  · apply h.goto hp rfl
    intro fd hfd
    exact absurd hfd (Nat.not_lt_zero fd)
  · refine h.own hp rfl rfl rfl (fun r hr => ⟨rfl, rfl, if_neg fun hin => ?_⟩) (fun k _ => ?_) (h.bound p) trivial
    · exact hr ((row_base r).symm.trans (mem_slots.mp hin.1))
    · change (requestExit s.thr (base p) (base p) k).state = (s.thr k).state ∧
        (requestExit s.thr (base p) (base p) k).kstack = (s.thr k).kstack
      unfold requestExit
      split_ifs
      · exact ⟨rfl, rfl⟩
      · exact ⟨rfl, rfl⟩

theorem setFile_self {fd : ℕ} {file : Option ℕ} : (s.setFile p fd file).ofile p = update (s.ofile p) fd file :=
  update_self _ _ _

theorem Sound.exitFiles (h : Sound s) (hp : s.pc p = some (.exitFiles i)) : Sound (exitFiles s p i) := by
  have hfiles : ∀ fd < i, s.ofile p fd = none := h.progress p _ hp
  unfold Slots.exitFiles
  split_ifs with hi
  · have hclosed (fd : ℕ) (hfd : fd = i ∨ s.ofile p fd = none) : (s.setFile p i none).ofile p fd = none := by
      rw [setFile_self]
      by_cases heq : fd = i
      · rw [heq, update_self]
      · rw [update_of_ne heq]
        exact hfd.resolve_left heq
    refine h.own hp rfl rfl rfl (fun r hr => ⟨update_of_ne hr _ _, rfl, rfl⟩) (fun _ _ => ⟨rfl, rfl⟩)
      (fun fd hfd => hclosed fd (.inr (h.bound p fd hfd))) fun fd hfd => hclosed fd ?_
    by_cases heq : fd = i
    · exact .inl heq
    · exact .inr (hfiles fd (by omega))
  · apply h.goto hp rfl
    intro fd
    by_cases hfd : fd < i
    · exact hfiles fd hfd
    · exact h.bound p fd (by omega)

theorem Sound.exitCwd (h : Sound s) (hp : s.pc p = some .exitCwd) :
    Sound ((s.setCwd p none).goto p .exitFinal) := by
  have hfiles : ∀ fd, s.ofile p fd = none := h.progress p _ hp
  exact h.own hp rfl rfl rfl (fun r hr => ⟨rfl, update_of_ne hr _ _, rfl⟩) (fun _ _ => ⟨rfl, rfl⟩) (h.bound p)
    ⟨hfiles, update_self _ _ _⟩

theorem Sound.parent_owned (h : Sound s) (hp : s.pc p = some pc) (hq : pc.owns = some q) :
    (s.proc q).parent = none ∨ (s.proc q).parent = some p := by
  have hprogress := h.progress p pc hp
  cases pc <;> cases hq
  all_goals first
    | exact .inl hprogress.1.2.1
    | exact .inr hprogress.1.2.1

theorem Sound.exitFinal (h : Sound s) (hp : s.pc p = some .exitFinal) : Sound (exitFinal s p) := by
  have hused := h.alive p _ hp
  have hproc {r : ℕ} (hr : r ≠ p) : (Slots.exitFinal s p).proc r = passToInit s.proc p r := update_of_ne hr _ _
  have hkeeps {r : ℕ} (hr : r ≠ p) (hparent : (s.proc r).parent ≠ some p) : Keeps s (Slots.exitFinal s p) r := by
    refine ⟨?_, ?_, rfl, rfl, fun hf => hf.of_eq (setState_base hr)⟩
    · rw [hproc hr, passToInit_other hparent]
    · rw [hproc hr, passToInit_other hparent]
  refine h.keep (fun r pc hr => ?_) (fun r => ?_) rfl rfl (fun r hr => hkeeps ?_ ?_)
    (fun r pc q hr ho => hkeeps ?_ ?_)
    fun k hk => ?_
  · change update s.pc p none r = some pc at hr
    by_cases hrp : r = p
    · rw [hrp, update_self] at hr
      cases hr
    · rw [update_of_ne hrp] at hr
      exact .inl hr
  · by_cases hrp : r = p
    · rw [hrp]
      refine .inr ⟨hused, ?_, update_self _ _ _, h.progress p _ hp⟩
      change (update (passToInit s.proc p) p _ p).state = .zombie
      rw [update_self]
    · rw [hproc hrp, passToInit_state]
      exact .inl rfl
  · rintro rfl
    rw [hused] at hr
    cases hr
  · rw [(h.unused r hr).2.1]
    nofun
  · rintro rfl
    exact absurd (h.owner r pc q hr ho) (by rw [hused]; nofun)
  · obtain hnone | hsome := h.parent_owned hr ho
    · rw [hnone]
      nofun
    · rw [hsome]
      rintro ⟨⟩
      rw [hp] at hr
      cases hr
      cases ho
  · exact h.setState_spare hk

theorem waitTable_other (hr : r ≠ q) : waitTable thr (base q) (base r) = thr (base r) :=
  if_neg fun h => hr ((row_base r).symm.trans (mem_slots.mp h.1))

theorem waitTable_spare (h : (thr k).state = .uninit ∧ (thr k).kstack = 0) :
    (waitTable thr (base q) k).state = .uninit ∧ (waitTable thr (base q) k).kstack = 0 := by
  unfold waitTable
  split_ifs
  · exact ⟨rfl, rfl⟩
  · exact h

theorem Sound.waitFound (h : Sound s) (hp : s.pc p = some .wait) (hq : (s.proc q).state = .zombie) :
    Sound (waitFound s p q) := by
  have hno := h.zombie q hq
  have hne : p ≠ q := by
    rintro rfl
    rw [h.alive p _ hp] at hq
    cases hq
  have hprivate : Private s p q := h.private_idle (by rw [hq]; nofun) (by rw [hq]; nofun)
  have hidle : q = p ∨ (s.proc q).state ≠ .used := .inr (by rw [hq]; nofun)
  unfold Slots.waitFound freeRow
  split_ifs
  · refine h.touch (q := q) (h.touches rfl hidle (fun r hr => ⟨rfl, rfl, rfl, waitTable_other hr⟩)
      fun k hk => waitTable_spare (h.spare k hk)) hprivate (h.alive p _ hp) nofun (fun hs => ?_)
      (fun _ => hno) (h.bound q) trivial
    cases hq.symm.trans hs
  · have hself : update s.proc q emptyRow q = emptyRow := update_self _ _ _
    refine h.touch (q := q) (h.touches rfl hidle (fun r hr => ⟨update_of_ne hr _ _, rfl, rfl, waitTable_other hr⟩)
      fun k hk => waitTable_spare (h.spare k hk)) hprivate ?_ nofun (fun hs => ⟨?_, ?_, hno⟩)
      (fun _ => hno) (h.bound q) trivial
    · exact h.used_other hp hne
    · exact congrArg Proc.killed hself
    · exact congrArg Proc.parent hself

theorem Sound.wait (h : Sound s) (hp : s.pc p = some .wait) : Sound (wait s p) := by
  unfold Slots.wait
  split
  · rename_i q hfind
    exact h.waitFound hp (zombieChild_spec hfind).2.2
  · split_ifs
    · exact h.goto hp rfl trivial
    · exact h

theorem Sound.run (h : Sound s) (hp : s.pc p = some pc) (hs : run s p pc = some s') : Sound s' := by
  cases pc with
  | forkAlloc =>
    cases hs
    exact h.allocproc hp
  | forkKstack q =>
    cases hs
    obtain ⟨hblank, hfresh⟩ := h.progress p _ hp
    exact h.fill hp rfl rfl rfl (fun r hr => ⟨rfl, rfl, rfl, update_of_ne (base_ne hr) _ _⟩) rfl
      (fun k hk => update_of_ne (spare_ne hk) _ _) (h.bound q) ⟨hblank, fresh_kstack hfresh rfl⟩
  | forkUnused q =>
    cases hs
    exact h.forkUnused hp
  | forkUninit q =>
    cases hs
    exact h.forkUninit hp
  | forkParent q =>
    cases hs
    exact h.forkParent hp
  | forkFiles q i =>
    cases hs
    exact h.forkFiles hp
  | forkCwd q =>
    cases hs
    exact h.forkCwd hp
  | forkUsed q =>
    cases hs
    exact h.forkUsed hp
  | exitScan =>
    obtain ⟨_, hs⟩ := Option.ite_none_left_eq_some.mp hs
    cases hs
    exact h.exitScan hp
  | exitFiles i =>
    cases hs
    exact h.exitFiles hp
  | exitCwd =>
    cases hs
    exact h.exitCwd hp
  | exitFinal =>
    cases hs
    exact h.exitFinal hp
  | wait =>
    cases hs
    exact h.wait hp
  | free => cases hs
  | forkStack q => cases hs
  | forkCopy q => cases hs

theorem Sound.kill {pid : ℤ} (h : Sound s)
    (hok : ∀ q ∈ killRow s.proc pid, (s.proc q).state ≠ .unused ∧ (s.proc q).state ≠ .embryo) :
    Sound (kill s pid) := by
  have hkeeps {r : ℕ} (hr : killRow s.proc pid ≠ some r) : Keeps s (Slots.kill s pid) r := by
    have hproc : killTable s.proc pid r = s.proc r := killTable_other hr
    exact ⟨congrArg Proc.killed hproc, congrArg Proc.parent hproc, rfl, rfl, id⟩
  exact h.keep (fun _ _ hr => .inl hr) (fun r => .inl (killTable_proc pid r).1) rfl rfl
    (fun r hr => hkeeps fun hk => (hok r hk).1 hr)
    (fun r pc x hr ho => hkeeps fun hk => (hok x hk).2 (h.owner r pc x hr ho)) h.spare

theorem Sound.turn (h : Sound s) (hp : s.pc p = some pc) :
    Sound (s.setThr (setState s.thr (base p) state)) := by
  have hkeeps {r : ℕ} (hr : (s.proc r).state ≠ .used) : Keeps s (s.setThr (setState s.thr (base p) state)) r := by
    have hrp : r ≠ p := by
      rintro rfl
      exact hr (h.alive r pc hp)
    exact ⟨rfl, rfl, rfl, rfl, fun hf => hf.of_eq (setState_base hrp)⟩
  refine h.keep (fun _ _ hr => .inl hr) (fun _ => .inl rfl) rfl rfl (fun r hr => hkeeps (by rw [hr]; nofun))
    (fun r pc q hr ho => hkeeps (by rw [h.owner r pc q hr ho]; nofun)) fun k hk => h.setState_spare hk

theorem pc_stays (hp : s.pc p = some pc) : s.pc = update s.pc p (some pc) :=
  (update_eq_self_iff.mpr hp.symm).symm

theorem sound_step : Preserves step KillsProcess Sound := by
  intro s e s' h hok hs
  cases e with
  | call p call =>
    obtain ⟨hp, hs⟩ := Option.ite_none_right_eq_some.mp hs
    cases hs
    cases call
    all_goals exact h.goto hp rfl trivial
  | run p =>
    obtain ⟨pc, hp, hs⟩ := Option.bind_eq_some_iff.mp hs
    exact h.run hp hs
  | alloc p page =>
    obtain ⟨pc, hp, hs⟩ := Option.bind_eq_some_iff.mp hs
    exact h.alloc hp hs
  | kill p pid =>
    obtain ⟨_, hs⟩ := Option.ite_none_right_eq_some.mp hs
    cases hs
    exact h.kill hok
  | file p fd file =>
    obtain ⟨⟨hp, hfd⟩, hs⟩ := Option.ite_none_right_eq_some.mp hs
    cases hs
    refine h.own hp (pc_stays hp) rfl rfl
      (fun r hr => ⟨update_of_ne hr _ _, rfl, rfl⟩) (fun _ _ => ⟨rfl, rfl⟩) (fun i hi => ?_) trivial
    rw [setFile_self, update_of_ne (by omega)]
    exact h.bound p i hi
  | chdir p dir =>
    obtain ⟨hp, hs⟩ := Option.ite_none_right_eq_some.mp hs
    cases hs
    exact h.own hp (pc_stays hp) rfl rfl
      (fun r hr => ⟨rfl, update_of_ne hr _ _, rfl⟩) (fun _ _ => ⟨rfl, rfl⟩) (h.bound p) trivial
  | turn p state =>
    obtain ⟨⟨hp, _⟩, hs⟩ := Option.ite_none_right_eq_some.mp hs
    cases hs
    obtain ⟨pc, hp⟩ := Option.isSome_iff_exists.mp hp
    exact h.turn hp

theorem boot_sound (dir : ℕ) : Sound (boot dir) := by
  have hpc {r : ℕ} {pc : Pc} (hr : (boot dir).pc r = some pc) : r = initproc ∧ pc = .free := by
    obtain ⟨hr, hpc⟩ := Option.ite_none_right_eq_some.mp hr
    exact ⟨hr, (Option.some.inj hpc).symm⟩
  have hproc {r : ℕ} (hr : r ≠ initproc) : (boot dir).proc r = ⟨.unused, 0, none, false⟩ := if_neg hr
  refine ⟨fun r pc hr => ?_, fun r pc x hr ho => ?_, fun r r' pc pc' x hr _ ho _ => ?_,
    fun r hr => ?_, fun r hr => ?_, fun _ _ _ => rfl, fun k hk => ?_, fun r pc hr => ?_⟩
  · rw [(hpc hr).1]
    rfl
  · rw [(hpc hr).2] at ho
    cases ho
  · rw [(hpc hr).2] at ho
    cases ho
  · have hne : r ≠ initproc := by
      rintro rfl
      cases hr
    refine ⟨?_, ?_, fun _ => rfl, if_neg hne⟩
    · rw [hproc hne]
    · rw [hproc hne]
  · by_cases heq : r = initproc
    · rw [heq] at hr
      cases hr
    · rw [hproc heq] at hr
      cases hr
  · have hthr : (boot dir).thr k = emptySlot := if_neg (spare_ne hk)
    rw [hthr]
    exact ⟨rfl, rfl⟩
  · rw [(hpc hr).2]
    trivial

end Steps

def CleanThreads (s : State) (q : ℕ) : Prop :=
  (∀ k, row k = q → k ≠ base q → (s.thr k).state = .uninit ∧ (s.thr k).kstack = 0) ∧
  (s.thr (base q)).exitRequest = 0

structure CleanStart (s : State) : Prop where
  unused : ∀ q, (s.proc q).state = .unused → Blank s q
  created : ∀ p q, s.pc p = some (.forkStack q) ∨ s.pc p = some (.forkCopy q) → Blank s q ∧ CleanThreads s q
  child : ∀ p q s', s.pc p = some (.forkUsed q) → step s (.run p) = some s' →
    (s'.proc q).state = .used ∧ (s'.proc q).killed = false ∧ (s'.proc q).parent = some p ∧ s'.ofile q = s.ofile p ∧
      s'.cwd q = s.cwd p ∧ CleanThreads s' q

theorem Sound.cleanThreads {s : State} {q : ℕ} (h : Sound s) (hq : (s.thr (base q)).exitRequest = 0) :
    CleanThreads s q := by
  refine ⟨fun k hk hne => h.spare k ?_, hq⟩
  rw [hk]
  exact hne

theorem Sound.cleanStart {s : State} (h : Sound s) : CleanStart s := by
  refine ⟨h.unused, fun p q hp => ?_, fun p q s' hp hs => ?_⟩
  · obtain hp | hp := hp
    · obtain ⟨hblank, hfresh⟩ := h.progress p _ hp
      exact ⟨hblank, h.cleanThreads hfresh.2⟩
    · obtain ⟨hblank, hfresh⟩ := h.progress p _ hp
      exact ⟨hblank, h.cleanThreads hfresh.2⟩
  · obtain ⟨⟨hkilled, hparent, hfresh⟩, hfiles, hcwd⟩ := h.progress p _ hp
    have hsound := sound_step s (.run p) s' h trivial hs
    change (s.pc p).bind (Slots.run s p) = some s' at hs
    rw [hp] at hs
    cases hs
    have hself : update s.proc q { s.proc q with state := .used } q = { s.proc q with state := .used } :=
      update_self _ _ _
    refine ⟨congrArg Proc.state hself, (congrArg Proc.killed hself).trans hkilled,
      (congrArg Proc.parent hself).trans hparent, hfiles, hcwd, hsound.cleanThreads ?_⟩
    change (setState s.thr (base q) .runnable (base q)).exitRequest = 0
    rw [setState_exitRequest]
    exact hfresh.2

theorem starts_clean (dir : ℕ) (s : State) (h : Reaches step KillsProcess (boot dir) s) : CleanStart s :=
  (h.invariant sound_step (boot_sound dir)).cleanStart

def forks : List Event :=
  [.call initproc .fork, .run initproc, .alloc initproc 1, .alloc initproc 1] ++ List.replicate 19 (.run initproc)

def exits (p : ℕ) : List Event := .call p .exit :: List.replicate 20 (.run p)

def reuse : List Event :=
  .file initproc 0 (some 7) :: forks ++ [.run initproc, .kill initproc 2] ++ exits 1 ++
  [.call initproc .wait, .run initproc] ++
    forks

def reused : State := (exec step KillsProcess (boot 1) reuse).get (by decide +kernel)

theorem starts_clean_reused : CleanStart reused ∧ reused.pc initproc = some (.forkUsed 1) ∧
    (reused.proc 1).pid = 3 :=
  ⟨starts_clean 1 reused (exec_get_reaches (boot 1) reuse (by decide +kernel)),
    by decide +kernel, by decide +kernel⟩

def killThenFork : List Event := .kill initproc 0 :: forks

def killsUnused : State := (exec step Always (boot 1) killThenFork).get (by decide +kernel)

theorem killed_at_birth : Reaches step Always (boot 1) killsUnused ∧ ¬CleanStart killsUnused := by
  refine ⟨exec_get_reaches (boot 1) killThenFork (by decide +kernel), fun h => ?_⟩
  have hpc : killsUnused.pc initproc = some (.forkUsed 1) := by decide +kernel
  have hborn : ∀ s ∈ step killsUnused (.run initproc), (s.proc 1).killed = true := by decide +kernel
  obtain ⟨s, hs⟩ := Option.isSome_iff_exists.mp (show (step killsUnused (.run initproc)).isSome by decide +kernel)
  cases (hborn s hs).symm.trans (h.child initproc 1 s hpc hs).2.1

end Xv6.Slots
