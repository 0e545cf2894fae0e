import Xv6.SleepWakeup

namespace Xv6.SleepWakeup

open Function

section Places

variable {Cpu Proc Thread σ : Type} {s : State Cpu Proc Thread σ} {c c' : Cpu} {t u : Thread}

def Pc.holdsLk : Pc Proc Thread → Bool
  | .test | .sleepEnter | .sleepRelease | .critical | .wakeEnter true | .wakeThreads true _
      _ | .wakeLeave true => true
  | _ => false

def Pc.holdsLock : Pc Proc Thread → Bool
  | .sleepRelease | .sleepChan | .sleepState | .sleepSched | .wakeThreads _ _ _ | .wakeLeave _ => true
  | _ => false

def Kthread.holdsLock (k : Kthread Proc Thread) : Bool :=
  match k.switch with
  | some (.marking _) | some .switching => true
  | some _ => false
  | none => k.pc.holdsLock

def Kthread.parting (k : Kthread Proc Thread) : Bool :=
  match k.switch, k.pc with
  | some .switching, _ | none, .sleepSched => true
  | _, _ => false

theorem Pc.interruptible_free {pc : Pc Proc Thread} (h : pc.interruptible) : pc.holdsLk = false := by
  unfold interruptible at h
  split at h
  · rfl
  · rfl
  · rfl
  · rfl
  · cases h

def On (s : State Cpu Proc Thread σ) (c : Cpu) (t : Thread) :
    Prop := ∃ threads procs, s.cpu c = .runs t threads procs

structure Placed (s : State Cpu Proc Thread σ) : Prop where
  once : ∀ c c' t, On s c t → On s c' t → c = c'
  lk : ∀ t, (s.thread t).pc.holdsLk → ∃ c, On s c t ∧ s.lk = some c
  lock : ∀ t, (s.thread t).holdsLock → ∃ c, On s c t ∧ s.lock = some c
  scans : ∀ c threads procs, s.cpu c = .scans threads procs → s.lock = some c
  runs : ∀ c t, On s c t → (s.thread t).state = .running ∨ (s.thread t).parting
  opens : ∀ t, (s.thread t).switch ≠ none → (s.thread t).pc.interruptible

theorem On.unique (h : On s c t) (h' : On s c u) : t = u := by
  obtain ⟨_, _, h⟩ := h
  obtain ⟨_, _, h'⟩ := h'
  rw [h] at h'
  cases h'
  rfl

theorem Kthread.holdsLock_of_parting {k : Kthread Proc Thread} (h : k.parting) : k.holdsLock := by
  unfold parting at h
  unfold holdsLock
  split at h
  · simp_all
  · simp_all [Pc.holdsLock]
  · cases h

theorem Placed.lk_eq (h : Placed s) (hon : On s c t) (hk : (s.thread t).pc.holdsLk) : s.lk = some c := by
  obtain ⟨c', hon', hlk⟩ := h.lk t hk
  rw [hlk, h.once c' c t hon' hon]

theorem Placed.lock_eq (h : Placed s) (hon : On s c t) (hk : (s.thread t).holdsLock) : s.lock = some c := by
  obtain ⟨c', hon', hlock⟩ := h.lock t hk
  rw [hlock, h.once c' c t hon' hon]

theorem Placed.lk_unique (h : Placed s) (ht : (s.thread t).pc.holdsLk) (hu : (s.thread u).pc.holdsLk) : t = u := by
  obtain ⟨c, hon, hlk⟩ := h.lk t ht
  obtain ⟨c', hon', hlk'⟩ := h.lk u hu
  rw [hlk] at hlk'
  cases hlk'
  exact hon.unique hon'

theorem Placed.lock_unique (h : Placed s) (ht : (s.thread t).holdsLock) (hu : (s.thread u).holdsLock) : t = u := by
  obtain ⟨c, hon, hlock⟩ := h.lock t ht
  obtain ⟨c', hon', hlock'⟩ := h.lock u hu
  rw [hlock] at hlock'
  cases hlock'
  exact hon.unique hon'

def Turn (c : Cpu) (old new : Option Cpu) : Prop := new = old ∨ old = none ∧
    new = some c ∨ old = some c ∧ new = none

theorem Turn.keep {old new : Option Cpu} (h : Turn c old new) (hne : c' ≠ c) (hc : old = some c') :
    new = some c' := by
  obtain rfl | ⟨rfl, _⟩ | ⟨rfl, _⟩ := h
  · exact hc
  · cases hc
  · exact absurd (Option.some.inj hc).symm hne

variable [DecidableEq Thread]

theorem Placed.move (h : Placed s) (hon : On s c t) {k : Kthread Proc Thread} {lk lock : Option Cpu}
    (hlk : Turn c s.lk lk) (hlock : Turn c s.lock lock) (hlk' : k.pc.holdsLk → lk = some c)
    (hlock' : k.holdsLock → lock = some c) (hstate : k.state = .running ∨ k.parting)
    (hopen : k.switch ≠ none → k.pc.interruptible) : Placed (s.move t k lk lock) := by
  have hother {u : Thread} (hu : u ≠ t) {c' : Cpu} (hon' : On s c' u) : c' ≠ c := fun heq =>
    hu ((heq ▸ hon').unique hon)
  refine ⟨h.once, fun u hu => ?_, fun u hu => ?_, fun c' threads procs hc => ?_,
    fun c' u hon' => ?_, fun u hu => ?_⟩
  · by_cases hut : u = t
    · subst hut
      rw [State.move_thread, update_self] at hu
      exact ⟨c, hon, hlk' hu⟩
    · rw [State.move_thread, update_of_ne hut] at hu
      obtain ⟨c', hon', hc'⟩ := h.lk u hu
      exact ⟨c', hon', hlk.keep (hother hut hon') hc'⟩
  · by_cases hut : u = t
    · subst hut
      rw [State.move_thread, update_self] at hu
      exact ⟨c, hon, hlock' hu⟩
    · rw [State.move_thread, update_of_ne hut] at hu
      obtain ⟨c', hon', hc'⟩ := h.lock u hu
      exact ⟨c', hon', hlock.keep (hother hut hon') hc'⟩
  · refine hlock.keep (fun heq => ?_) (h.scans c' threads procs hc)
    obtain ⟨_, _, hon⟩ := hon
    rw [heq, State.move_cpu, hon] at hc
    cases hc
  · by_cases hut : u = t
    · rw [hut, State.move_thread, update_self]
      exact hstate
    · rw [State.move_thread, update_of_ne hut]
      exact h.runs c' u hon'
  · by_cases hut : u = t
    · rw [hut, State.move_thread, update_self] at hu ⊢
      exact hopen hu
    · rw [State.move_thread, update_of_ne hut] at hu ⊢
      exact h.opens u hu

theorem Placed.wake (h : Placed s) (hu : (s.thread u).state = .sleeping) : Placed (s.setState u .runnable) := by
  have hkeep (v : Thread) : ((s.setState u .runnable).thread v).pc = (s.thread v).pc ∧
      ((s.setState u .runnable).thread v).switch = (s.thread v).switch := by
    rw [State.setState_thread]
    by_cases hv : v = u
    · rw [hv, update_self]
      exact ⟨rfl, rfl⟩
    · rw [update_of_ne hv]
      exact ⟨rfl, rfl⟩
  have hhold (v : Thread) : ((s.setState u .runnable).thread v).holdsLock = (s.thread v).holdsLock := by
    rw [Kthread.holdsLock, (hkeep v).1, (hkeep v).2, Kthread.holdsLock]
  have hpart (v : Thread) : ((s.setState u .runnable).thread v).parting = (s.thread v).parting := by
    rw [Kthread.parting, (hkeep v).1, (hkeep v).2, Kthread.parting]
  refine ⟨h.once, fun v hv => h.lk v ((hkeep v).1 ▸ hv), fun v hv => h.lock v (hhold v ▸ hv),
    h.scans, fun c v hon => ?_, fun v hv => (hkeep v).1 ▸ h.opens v ((hkeep v).2 ▸ hv)⟩
  rw [hpart]
  obtain hrun | hp := h.runs c v hon
  · have hne : v ≠ u := by
      rintro rfl
      rw [hu] at hrun
      cases hrun
    rw [State.setState_thread, update_of_ne hne]
    exact .inl hrun
  · exact .inr hp

variable [DecidableEq Cpu]

variable {pos : CpuState Proc Thread}

omit [DecidableEq Thread] in
theorem On.goto (h : On (s.goto c pos) c' u) :
    c' = c ∧ (∃ threads procs, pos = .runs u threads procs) ∨ c' ≠ c ∧ On s c' u := by
  obtain ⟨threads, procs, h⟩ := h
  by_cases hc : c' = c
  · rw [hc, State.goto_cpu, update_self] at h
    exact .inl ⟨hc, threads, procs, h⟩
  · rw [State.goto_cpu, update_of_ne hc] at h
    exact .inr ⟨hc, threads, procs, h⟩

omit [DecidableEq Thread] in
theorem On.stays (h : On s c' u) (hc : c' ≠ c) : On (s.goto c pos) c' u := by
  obtain ⟨threads, procs, h⟩ := h
  exact ⟨threads, procs, by rw [State.goto_cpu, update_of_ne hc, h]⟩

omit [DecidableEq Thread] in
theorem Placed.scan (h : Placed s) (hc : ∀ t, ¬ On s c t) {lock : Option Cpu}
    (hpos : pos = .idle ∨ (∃ threads procs, pos = .scans threads procs) ∧ lock = some c)
    (hlock : Turn c s.lock lock) : Placed { s.goto c pos with lock := lock } := by
  have hon {c' : Cpu} {u : Thread} (hon : On { s.goto c pos with lock := lock } c' u) : On s c' u := by
    obtain ⟨rfl, threads, procs, hp⟩ | ⟨_, hon⟩ := On.goto (s := s) hon
    · obtain rfl | ⟨⟨_, _, rfl⟩, _⟩ := hpos
      · cases hp
      · cases hp
    · exact hon
  have hne {c' : Cpu} {u : Thread} (hon : On s c' u) : c' ≠ c := fun heq => hc u (heq ▸ hon)
  refine ⟨fun c₁ c₂ u h₁ h₂ => h.once c₁ c₂ u (hon h₁) (hon h₂), fun u hu => ?_, fun u hu => ?_,
    fun c' threads procs hs => ?_, fun c' u h₁ => h.runs c' u (hon h₁), h.opens⟩
  · obtain ⟨c', hc', hlk⟩ := h.lk u hu
    exact ⟨c', hc'.stays (hne hc'), hlk⟩
  · obtain ⟨c', hc', hown⟩ := h.lock u hu
    exact ⟨c', hc'.stays (hne hc'), hlock.keep (hne hc') hown⟩
  · by_cases heq : c' = c
    · rw [heq] at hs ⊢
      change update s.cpu c pos c = _ at hs
      rw [update_self] at hs
      obtain rfl | ⟨_, hl⟩ := hpos
      · cases hs
      · exact hl
    · change update s.cpu c pos c' = _ at hs
      rw [update_of_ne heq] at hs
      exact hlock.keep heq (h.scans c' threads procs hs)

theorem Placed.part (h : Placed s) (hon : On s c t) (hlock : s.lock = some c) {k : Kthread Proc Thread}
    (hlk' : k.pc.holdsLk = false) (hlock' : k.holdsLock = false) (hopen : k.switch ≠ none → k.pc.interruptible)
    (threads : List Thread) (procs : List Proc) :
    Placed ((s.move t k s.lk s.lock).goto c (.scans threads procs)) := by
  have hback {c' : Cpu} {u : Thread} (hu : On ((s.move t k s.lk s.lock).goto c (.scans threads procs)) c' u) :
      c' ≠ c ∧ On s c' u := by
    obtain ⟨_, _, _, hp⟩ | hu := hu.goto
    · cases hp
    · exact hu
  have hthread {u : Thread} (hu : u ≠ t) : (s.move t k s.lk s.lock).thread u = s.thread u := update_of_ne hu _ _
  have hself : (s.move t k s.lk s.lock).thread t = k := update_self _ _ _
  have hother {u : Thread} (hu : u ≠ t) {c' : Cpu} (hon' : On s c' u) : c' ≠ c := fun heq =>
    hu ((heq ▸ hon').unique hon)
  refine ⟨fun c₁ c₂ u h₁ h₂ => h.once c₁ c₂ u (hback h₁).2 (hback h₂).2, fun u hu => ?_, fun u hu => ?_,
    fun c' threads' procs' hs => ?_, fun c' u hu => ?_, fun u hu => ?_⟩
  · rw [State.goto_thread] at hu
    by_cases hut : u = t
    · rw [hut, hself, hlk'] at hu
      cases hu
    · rw [hthread hut] at hu
      obtain ⟨c', hc', hown⟩ := h.lk u hu
      exact ⟨c', hc'.stays (hother hut hc'), hown⟩
  · rw [State.goto_thread] at hu
    by_cases hut : u = t
    · rw [hut, hself, hlock'] at hu
      cases hu
    · rw [hthread hut] at hu
      obtain ⟨c', hc', hown⟩ := h.lock u hu
      exact ⟨c', hc'.stays (hother hut hc'), hown⟩
  · by_cases heq : c' = c
    · rw [heq]
      exact hlock
    · rw [State.goto_cpu, update_of_ne heq] at hs
      exact h.scans c' threads' procs' hs
  · obtain ⟨hne, hon'⟩ := hback hu
    have hut : u ≠ t := by
      rintro rfl
      exact hne (h.once c' c u hon' hon)
    rw [State.goto_thread, hthread hut]
    exact h.runs c' u hon'
  · rw [State.goto_thread] at hu ⊢
    by_cases hut : u = t
    · rw [hut, hself] at hu ⊢
      exact hopen hu
    · rw [hthread hut] at hu ⊢
      exact h.opens u hu

theorem Placed.pick (h : Placed s) {threads : List Thread} {procs : List Proc}
    (hc : s.cpu c = .scans (t :: threads) procs) (ht : (s.thread t).state = .runnable) :
    Placed ((s.setState t .running).goto c (.runs t threads procs)) := by
  have hlock := h.scans c _ _ hc
  have hidle (u : Thread) : ¬ On s c u := by
    rintro ⟨_, _, hon⟩
    rw [hc] at hon
    cases hon
  have hout {c' : Cpu} (hon : On s c' t) : False := by
    obtain hrun | hp := h.runs c' t hon
    · rw [ht] at hrun
      cases hrun
    · have hown := h.lock_eq hon (Kthread.holdsLock_of_parting hp)
      rw [hlock] at hown
      cases hown
      exact hidle t hon
  have hkeep {u : Thread} (hu : u ≠ t) : (s.setState t .running).thread u = s.thread u := update_of_ne hu _ _
  have hself : (s.setState t .running).thread t = { s.thread t with state := .running } := update_self _ _ _
  have hne {c' : Cpu} {u : Thread} (hon : On s c' u) : c' ≠ c := fun heq => hidle u (heq ▸ hon)
  refine ⟨fun c₁ c₂ u h₁ h₂ => ?_, fun u hu => ?_, fun u hu => ?_,
    fun c' threads' procs' hs => ?_, fun c' u hu => ?_, fun u hu => ?_⟩
  · obtain ⟨rfl, _, _, hp₁⟩ | ⟨_, hon₁⟩ := h₁.goto
    · cases hp₁
      obtain ⟨rfl, _, _, _⟩ | ⟨_, hon₂⟩ := h₂.goto
      · rfl
      · exact (hout hon₂).elim
    · obtain ⟨rfl, _, _, hp₂⟩ | ⟨_, hon₂⟩ := h₂.goto
      · cases hp₂
        exact (hout hon₁).elim
      · exact h.once c₁ c₂ u hon₁ hon₂
  · have hu' : (s.thread u).pc.holdsLk := by
      by_cases hut : u = t
      · rw [hut, State.goto_thread, hself] at hu
        rw [hut]
        exact hu
      · rwa [State.goto_thread, hkeep hut] at hu
    obtain ⟨c', hon, hown⟩ := h.lk u hu'
    exact ⟨c', hon.stays (hne hon), hown⟩
  · have hu' : (s.thread u).holdsLock := by
      by_cases hut : u = t
      · rw [hut, State.goto_thread, hself] at hu
        rw [hut]
        exact hu
      · rwa [State.goto_thread, hkeep hut] at hu
    obtain ⟨c', hon, hown⟩ := h.lock u hu'
    exact ⟨c', hon.stays (hne hon), hown⟩
  · by_cases heq : c' = c
    · rw [heq]
      exact hlock
    · rw [State.goto_cpu, update_of_ne heq] at hs
      exact h.scans c' threads' procs' hs
  · obtain ⟨rfl, _, _, hp⟩ | ⟨_, hon⟩ := hu.goto
    · cases hp
      rw [State.goto_thread, hself]
      exact .inl rfl
    · have hut : u ≠ t := by
        rintro rfl
        exact hout hon
      rw [State.goto_thread, hkeep hut]
      exact h.runs c' u hon
  · by_cases hut : u = t
    · rw [hut, State.goto_thread, hself] at hu ⊢
      exact h.opens t hu
    · rw [State.goto_thread, hkeep hut] at hu ⊢
      exact h.opens u hu

end Places

end Xv6.SleepWakeup
