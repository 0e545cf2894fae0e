import Xv6.Runs
import Xv6.SleepPlaces

namespace Xv6.SleepWakeup

open Xv6.Runs
open Function (update update_of_ne update_self)

section Wakeups

variable {Cpu Proc Thread σ : Type} {sys : Setup Proc Thread σ}
    {s : State Cpu Proc Thread σ} {c : Cpu} {t u : Thread}
  {k : Kthread Proc Thread} {lk lock : Option Cpu}

def Pc.waking : Pc Proc Thread → Bool
  | .critical | .wakeEnter _ | .wakeThreads _ _ _ | .wakeLeave _ => true
  | _ => false

def Kthread.Sleeps (sys : Setup Proc Thread σ) (k : Kthread Proc Thread) : Prop :=
  (k.pc = .sleepChan ∨ k.pc = .sleepState) ∨ k.state = .sleeping ∧ k.chan = sys.chan

def Kthread.Pending (sys : Setup Proc Thread σ) (k : Kthread Proc Thread) (u : Thread) : Prop :=
  k.owes ∧ match k.pc with
    | .wakeThreads _ threads procs => u ∈ threads ∨ sys.table.proc u ∈ procs
    | .wakeLeave _ => False
    | _ => True

structure Sound (sys : Setup Proc Thread σ) (s : State Cpu Proc Thread σ) : Prop where
  placed : Placed s
  housed : ∀ t, (s.thread t).state.live → s.proc (sys.table.proc t) ≠ .unused
  tested : ∀ t, (s.thread t).pc = .sleepEnter ∨ (s.thread t).pc = .sleepRelease → sys.cond s.data = false
  owing : ∀ t, (s.thread t).owes → (s.thread t).pc.waking
  covered : ∀ t, (s.thread t).Sleeps sys → sys.cond s.data → ∃ w, (s.thread w).Pending sys t

variable [DecidableEq Thread]

structure Step (sys : Setup Proc Thread σ) (s : State Cpu Proc Thread σ) (k₀ k : Kthread Proc Thread) : Prop where
  live : k.state.live → k₀.state.live
  tested : k.pc = .sleepEnter ∨ k.pc = .sleepRelease → sys.cond s.data = false
  owing : k.owes → k.pc.waking
  sleeps : k.Sleeps sys → k₀.Sleeps sys ∨ sys.cond s.data = false
  pending : ∀ u, k₀.Pending sys u → k.Pending sys u ∨ ¬ (s.thread u).Sleeps sys

theorem Sound.put {s' : State Cpu Proc Thread σ} (h : Sound sys s) (hk : Step sys s (s.thread t) k)
    (hthread : s'.thread = update s.thread t k) (hproc : s'.proc = s.proc) (hdata : s'.data = s.data)
    (hp : Placed s') : Sound sys s' := by
  have hcases {P : Kthread Proc Thread → Thread → Prop} (hself : P k t) (hother : ∀ u ≠ t,
    P (s.thread u) u) (u : Thread) :
      P (s'.thread u) u := by
    rw [hthread]
    by_cases hu : u = t
    · rw [hu, update_self]
      exact hself
    · rw [update_of_ne hu]
      exact hother u hu
  refine ⟨hp, ?_, ?_, ?_, fun u hsleeps hcond => ?_⟩
  · rw [hproc]
    exact hcases (P := fun k u => k.state.live → s.proc (sys.table.proc u) ≠ .unused)
      (fun hl => h.housed t (hk.live hl)) fun u _ => h.housed u
  · rw [hdata]
    exact hcases (P := fun k _ => k.pc = .sleepEnter ∨ k.pc = .sleepRelease → sys.cond s.data = false)
      hk.tested fun u _ => h.tested u
  · exact hcases (P := fun k _ => k.owes → k.pc.waking) hk.owing fun u _ => h.owing u
  · rw [hdata] at hcond
    have hbefore : (s.thread u).Sleeps sys := by
      rw [hthread] at hsleeps
      by_cases hu : u = t
      · rw [hu, update_self] at hsleeps
        obtain hs | hc := hk.sleeps hsleeps
        · exact hu ▸ hs
        · rw [hc] at hcond
          cases hcond
      · rwa [update_of_ne hu] at hsleeps
    obtain ⟨w, hw⟩ := h.covered u hbefore hcond
    refine ⟨w, ?_⟩
    rw [hthread]
    by_cases hwt : w = t
    · rw [hwt, update_self]
      rw [hwt] at hw
      exact (hk.pending u hw).resolve_right (not_not.mpr hbefore)
    · rw [update_of_ne hwt]
      exact hw

theorem Sound.wake (h : Sound sys s) (hu : (s.thread u).state = .sleeping) :
    Sound sys (s.setState u .runnable) := by
  have hk : Step sys s (s.thread u) { s.thread u with state := .runnable } := by
    refine ⟨fun _ => by rw [hu]; rfl, h.tested u, h.owing u, fun hs => ?_, fun _ hw => .inl hw⟩
    obtain hs | ⟨hs, _⟩ := hs
    · exact .inl (.inl hs)
    · cases hs
  exact h.put hk rfl rfl rfl (h.placed.wake hu)

theorem Sound.move (h : Sound sys s) (hon : On s c t) (hk : Step sys s (s.thread t) k)
    (hlk : Turn c s.lk lk) (hlock : Turn c s.lock lock) (hlk' : k.pc.holdsLk → lk = some c)
    (hlock' : k.holdsLock → lock = some c) (hstate : k.state = .running ∨ k.parting)
    (hopen : k.switch ≠ none → k.pc.interruptible) : Sound sys (s.move t k lk lock) :=
  h.put hk rfl rfl rfl (h.placed.move hon hlk hlock hlk' hlock' hstate hopen)

structure Runs (s : State Cpu Proc Thread σ) (c : Cpu) (t : Thread) : Prop where
  on : On s c t
  switch : (s.thread t).switch = none
  running : (s.thread t).state = .running

omit [DecidableEq Thread] in
theorem Sound.runs (h : Sound sys s) (hon : On s c t) (hswitch : (s.thread t).switch = none)
    (hpc : (s.thread t).pc ≠ .sleepSched) : Runs s c t := by
  refine ⟨hon, hswitch, (h.placed.runs c t hon).resolve_right fun hp => ?_⟩
  unfold Kthread.parting at hp
  rw [hswitch] at hp
  split at hp
  · rename_i heq
    cases heq
  · rename_i heq
    exact hpc heq
  · cases hp

theorem Sound.goto (h : Sound sys s) (hr : Runs s c t) {pc : Pc Proc Thread} (hlk : Turn c s.lk lk)
    (hlock : Turn c s.lock lock) (hlk' : pc.holdsLk → lk = some c) (hlock' : pc.holdsLock → lock = some c)
    (htested : pc = .sleepEnter ∨ pc = .sleepRelease → sys.cond s.data = false)
    (howing : (s.thread t).owes → pc.waking)
    (hsleeps : pc = .sleepChan ∨ pc = .sleepState → (s.thread t).Sleeps sys ∨ sys.cond s.data = false)
    (hpending : ∀ u, (s.thread t).Pending sys u →
      ({ s.thread t with pc := pc } : Kthread Proc Thread).Pending sys u ∨ ¬ (s.thread u).Sleeps sys) :
    Sound sys (s.move t { s.thread t with pc := pc } lk lock) := by
  refine h.move hr.on ⟨fun hl => hl, htested, howing, fun hs => ?_, hpending⟩ hlk hlock hlk' (fun hk => hlock' ?_)
    (.inl hr.running) fun hs => absurd hr.switch hs
  · obtain hs | ⟨hs, _⟩ := hs
    · exact hsleeps hs
    · rw [hr.running] at hs
      cases hs
  · simpa only [Kthread.holdsLock, hr.switch] using hk

theorem Sound.walk (h : Sound sys s) (hr : Runs s c t) {pc : Pc Proc Thread} (hlk : Turn c s.lk lk)
    (hlock : Turn c s.lock lock) (hlk' : pc.holdsLk → lk = some c) (hlock' : pc.holdsLock → lock = some c)
    (htested : pc = .sleepEnter ∨ pc = .sleepRelease → sys.cond s.data = false)
    (howing : (s.thread t).owes → pc = .critical ∨ ∃ inner, pc = .wakeEnter inner)
    (hsleeps : pc = .sleepChan ∨ pc = .sleepState → (s.thread t).Sleeps sys ∨ sys.cond s.data = false) :
    Sound sys (s.move t { s.thread t with pc := pc } lk lock) := by
  refine h.goto hr hlk hlock hlk' hlock' htested (fun ho => ?_) hsleeps fun u hu => .inl ⟨hu.1, ?_⟩
  · obtain rfl | ⟨inner, rfl⟩ := howing ho
    · rfl
    · rfl
  · obtain rfl | ⟨inner, rfl⟩ := howing hu.1
    · trivial
    · trivial

variable [DecidableEq Cpu]

theorem Sound.sched {s' : State Cpu Proc Thread σ} {threads : List Thread} {procs : List Proc}
    (hs : sched s c t k threads procs = some s') (h : Sound sys s) (hon : On s c t)
    (hk : Step sys s (s.thread t) k)
    (hlk' : k.pc.holdsLk = false) (hlock' : k.holdsLock = false) (hopen : k.switch ≠ none → k.pc.interruptible) :
    Sound sys s' := by
  obtain ⟨⟨hlock, _⟩, heq⟩ := Option.ite_none_right_eq_some.mp hs
  cases heq
  exact h.put hk rfl rfl rfl (h.placed.part hon hlock hlk' hlock' hopen threads procs)

omit [DecidableEq Thread] [DecidableEq Cpu] in
theorem Sound.unswitched (h : Sound sys s) (switch : Option Switch) :
    Step sys s (s.thread t) { s.thread t with switch := switch } :=
  ⟨fun hl => hl, h.tested t, h.owing t, .inl, fun _ hw => .inl hw⟩

variable {s' : State Cpu Proc Thread σ} {threads : List Thread} {procs : List Proc}

theorem Sound.switchStep (h : Sound sys s) (hon : On s c t) {switch : Switch}
    (hswitch : (s.thread t).switch = some switch) (hs : switchStep s c t threads procs switch = some s') :
    Sound sys s' := by
  have hopen : (s.thread t).pc.interruptible :=
    h.placed.opens t (by rw [hswitch]; exact Option.some_ne_none switch)
  have hlk := Pc.interruptible_free hopen
  have hfree {P : Prop} (hl : (s.thread t).pc.holdsLk) : P := by
    rw [hlk] at hl
    cases hl
  have hruns := h.placed.runs c t hon
  cases switch with
  | entering exits =>
    obtain ⟨hnone, heq⟩ := Option.ite_none_right_eq_some.mp hs
    cases heq
    have hrun : (s.thread t).state = .running := hruns.resolve_right (by simp [Kthread.parting, hswitch])
    exact h.move hon (h.unswitched _) (.inl rfl) (.inr (.inl ⟨hnone, rfl⟩)) hfree (fun _ => rfl)
      (.inl hrun) fun _ => hopen
  | marking exits =>
    cases hs
    have hrun : (s.thread t).state = .running := hruns.resolve_right (by simp [Kthread.parting, hswitch])
    have hlock := h.placed.lock_eq hon (by simp [Kthread.holdsLock, hswitch])
    refine h.move hon ⟨fun _ => by rw [hrun]; rfl, h.tested t, h.owing t, fun hsl => ?_, fun _ hw => .inl hw⟩
      (.inl rfl)
      (.inl rfl) hfree (fun _ => hlock) (.inr rfl) fun _ => hopen
    obtain hsl | ⟨hsl, _⟩ := hsl
    · exact .inl (.inl hsl)
    · cases exits <;> cases hsl
  | switching =>
    have hs' : SleepWakeup.sched s c t { s.thread t with switch := some .returning } threads procs = some s' := hs
    exact Sound.sched hs' h hon (h.unswitched _) hlk rfl fun _ => hopen
  | returning =>
    obtain ⟨hown, heq⟩ := Option.ite_none_right_eq_some.mp hs
    cases heq
    have hrun : (s.thread t).state = .running := hruns.resolve_right (by simp [Kthread.parting, hswitch])
    refine h.move hon (h.unswitched _) (.inl rfl) (.inr (.inr ⟨hown, rfl⟩)) hfree (fun hl => ?_)
      (.inl hrun) fun hn => absurd rfl hn
    revert hl hopen
    simp only [Kthread.holdsLock]
    cases (s.thread t).pc with
    | _ => simp [Pc.holdsLock, Pc.interruptible]

omit [DecidableEq Thread] [DecidableEq Cpu] in
theorem Sound.not_falling (h : Sound sys s) (ht : (s.thread t).holdsLock) (hpc : (s.thread t).pc.waking) :
    ¬ ((s.thread u).pc = .sleepChan ∨ (s.thread u).pc = .sleepState) := by
  intro hu
  have hswitch : (s.thread u).switch = none := by
    by_contra hs
    have hopen := h.placed.opens u hs
    obtain hu | hu := hu
    · rw [hu] at hopen
      cases hopen
    · rw [hu] at hopen
      cases hopen
  have hlock : (s.thread u).holdsLock := by
    rw [Kthread.holdsLock, hswitch]
    obtain hu | hu := hu
    · rw [hu]
      rfl
    · rw [hu]
      rfl
  rw [← h.placed.lock_unique hlock ht] at hpc
  obtain hu | hu := hu
  · rw [hu] at hpc
    cases hpc
  · rw [hu] at hpc
    cases hpc

variable {chan : ℕ} {pc : Pc Proc Thread}

omit [DecidableEq Cpu] in
theorem wakeOne_thread (ht : (s.thread t).state ≠ .sleeping) : (wakeOne chan s u).thread t = s.thread t := by
  unfold wakeOne
  split_ifs with hu
  · refine update_of_ne ?_ _ _
    rintro rfl
    exact ht hu.1
  · rfl

omit [DecidableEq Cpu] in
theorem Sound.wakeOne (h : Sound sys s) (u : Thread) :
    Sound sys (wakeOne sys.chan s u) ∧
      ¬ (((wakeOne sys.chan s u).thread u).state = .sleeping ∧
        ((wakeOne sys.chan s u).thread u).chan = sys.chan) := by
  unfold SleepWakeup.wakeOne
  split_ifs with hu
  · refine ⟨h.wake hu.1, fun hs => ?_⟩
    rw [State.setState_thread, update_self] at hs
    cases hs.1
  · exact ⟨h, hu⟩

omit [DecidableEq Cpu] in
theorem wakeOne_move (ht : (s.thread t).state ≠ .sleeping) (pc : Pc Proc Thread) :
    (wakeOne chan s u).move t { s.thread t with pc := pc } s.lk s.lock =
      (wakeOne chan s u).move t { (wakeOne chan s u).thread t with pc := pc } (wakeOne chan s u).lk
        (wakeOne chan s u).lock := by
  rw [wakeOne_thread ht]
  unfold wakeOne
  split_ifs <;> rfl

omit [DecidableEq Cpu] in
theorem Runs.wakeOne (h : Runs s c t) : Runs (wakeOne chan s u) c t := by
  have ht : (s.thread t).state ≠ .sleeping := by rw [h.running]; nofun
  have hcpu : (SleepWakeup.wakeOne chan s u).cpu = s.cpu := by
    unfold SleepWakeup.wakeOne
    split_ifs <;> rfl
  refine ⟨?_, ?_, ?_⟩
  · unfold On
    rw [hcpu]
    exact h.on
  · rw [wakeOne_thread ht]
    exact h.switch
  · rw [wakeOne_thread ht]
    exact h.running

omit [DecidableEq Thread] in
theorem Pc.not_either {P : Prop} {a b : Pc Proc Thread} (h : pc ≠ a ∧ pc ≠ b) (hab : pc = a ∨ pc = b) : P := by
  obtain hab | hab := hab
  · exact absurd hab h.1
  · exact absurd hab h.2

theorem Sound.pcStep (h : Sound sys s) (hon : On s c t) (hswitch : (s.thread t).switch = none)
    (hpc : (s.thread t).pc = pc) (hs : pcStep sys s c t threads procs pc = some s') : Sound sys s' := by
  have hno {P : Prop} (hfalse : false = true) : P := by cases hfalse
  have howes (hpc : (s.thread t).pc.waking = false) {P : Prop} (ho : (s.thread t).owes) : P := by
    have hw := h.owing t ho
    rw [hpc] at hw
    cases hw
  have hheld (hpc : (s.thread t).pc.holdsLock = true) : s.lock = some c :=
    h.placed.lock_eq hon (by rw [Kthread.holdsLock, hswitch]; exact hpc)
  have hruns := h.runs hon hswitch
  rw [hpc] at howes hheld hruns
  have hlk : pc.holdsLk → s.lk = some c := fun hl => h.placed.lk_eq hon (hpc ▸ hl)
  cases pc with
  | forkret =>
    obtain ⟨hown, heq⟩ := Option.ite_none_right_eq_some.mp hs
    cases heq
    exact h.walk (hruns (by simp)) (.inl rfl) (.inr (.inr ⟨hown, rfl⟩)) hno hno
      (Pc.not_either (by simp)) (howes rfl) (Pc.not_either (by simp))
  | idle => cases hs
  | enter waits =>
    obtain ⟨hnone, heq⟩ := Option.ite_none_right_eq_some.mp hs
    cases heq
    cases waits with
    | true =>
      rw [if_pos rfl]
      exact h.walk (hruns (by simp)) (.inr (.inl ⟨hnone, rfl⟩)) (.inl rfl)
        (fun _ => rfl) hno (Pc.not_either (by simp))
        (howes rfl) (Pc.not_either (by simp))
    | false =>
      rw [if_neg Bool.false_ne_true]
      exact h.walk (hruns (by simp)) (.inr (.inl ⟨hnone, rfl⟩)) (.inl rfl)
        (fun _ => rfl) hno (Pc.not_either (by simp))
        (howes rfl) (Pc.not_either (by simp))
  | test =>
    cases hs
    have hlk := hlk rfl
    split
    · exact h.walk (hruns (by simp)) (.inl rfl) (.inl rfl) (fun _ => hlk) hno (Pc.not_either (by simp)) (howes rfl)
        (Pc.not_either (by simp))
    · rename_i hcond
      exact h.walk (hruns (by simp)) (.inl rfl) (.inl rfl) (fun _ => hlk) hno
        (fun _ => Bool.eq_false_iff.mpr hcond) (howes rfl) (Pc.not_either (by simp))
  | sleepEnter =>
    obtain ⟨hnone, heq⟩ := Option.ite_none_right_eq_some.mp hs
    cases heq
    exact h.walk (hruns (by simp)) (.inl rfl) (.inr (.inl ⟨hnone, rfl⟩)) (fun _ => hlk rfl) (fun _ => rfl)
      (fun _ => h.tested t (.inl hpc)) (howes rfl) (Pc.not_either (by simp))
  | sleepRelease =>
    obtain ⟨hown, heq⟩ := Option.ite_none_right_eq_some.mp hs
    cases heq
    exact h.walk (hruns (by simp)) (.inr (.inr ⟨hown, rfl⟩)) (.inl rfl) hno (fun _ => hheld rfl) (Pc.not_either
      (by simp)) (howes rfl)
      fun _ => .inr (h.tested t (.inr hpc))
  | sleepChan =>
    cases hs
    exact h.move hon ⟨fun hl => hl, (Pc.not_either (by simp)), howes rfl, fun _ => .inl (.inl (.inl hpc)), fun _ hw
      => howes rfl hw.1⟩ (.inl rfl)
      (.inl rfl) hno (fun _ => hheld rfl) (.inl (hruns (by simp)).running) fun hsw => absurd hswitch hsw
  | sleepState =>
    cases hs
    refine h.move hon ⟨fun _ => ?_, (Pc.not_either (by simp)), howes rfl, fun _ => .inl (.inl (.inr hpc)), fun _ hw
      => howes rfl hw.1⟩ (.inl rfl)
      (.inl rfl) hno (fun _ => hheld rfl) (.inr ?_) fun hsw => absurd hswitch hsw
    · rw [(hruns (by simp)).running]
      rfl
    · simp [Kthread.parting, hswitch]
  | sleepSched =>
    have hs' : SleepWakeup.sched s c t { s.thread t with pc := .sleepTidy } threads procs = some s' := hs
    refine Sound.sched hs' h hon ⟨fun hl => hl, (Pc.not_either (by simp)), howes rfl,
      fun hsl => .inl ?_, fun _ hw =>
      howes rfl hw.1⟩ rfl ?_
      fun hsw => absurd hswitch hsw
    · obtain hsl | hsl := hsl
      · cases hsl <;> contradiction
      · exact .inr hsl
    · simp [Kthread.holdsLock, hswitch, Pc.holdsLock]
  | sleepTidy =>
    cases hs
    refine h.move hon ⟨fun hl => hl, (Pc.not_either (by simp)), howes rfl, fun hsl => ?_,
      fun _ hw => howes rfl hw.1⟩ (.inl rfl)
      (.inl rfl) hno (fun hl => ?_) (.inl (hruns (by simp)).running) fun hsw => absurd hswitch hsw
    · obtain hsl | ⟨hsl, _⟩ := hsl
      · cases hsl <;> contradiction
      · cases (hruns (by simp)).running.symm.trans hsl
    · simp [Kthread.holdsLock, hswitch, Pc.holdsLock] at hl
  | sleepLeave =>
    obtain ⟨hown, heq⟩ := Option.ite_none_right_eq_some.mp hs
    cases heq
    exact h.walk (hruns (by simp)) (.inl rfl) (.inr (.inr ⟨hown, rfl⟩)) hno hno
      (Pc.not_either (by simp)) (howes rfl) (Pc.not_either (by simp))
  | sleepReturn =>
    obtain ⟨hnone, heq⟩ := Option.ite_none_right_eq_some.mp hs
    cases heq
    exact h.walk (hruns (by simp)) (.inr (.inl ⟨hnone, rfl⟩)) (.inl rfl)
      (fun _ => rfl) hno (Pc.not_either (by simp))
      (howes rfl)
      (Pc.not_either (by simp))
  | critical => cases hs
  | wakeEnter inner =>
    obtain ⟨hnone, heq⟩ := Option.ite_none_right_eq_some.mp hs
    cases heq
    refine h.goto (hruns (by simp)) (.inl rfl) (.inr (.inl ⟨hnone, rfl⟩)) (fun hl => hlk ?_) (fun _ => rfl)
      (Pc.not_either (by simp)) (fun _ => rfl)
      (Pc.not_either (by simp)) fun u hu => .inl ⟨hu.1, .inr (sys.table.complete u).1⟩
    cases inner with
    | true => rfl
    | false => cases hl
  | wakeThreads inner threads procs =>
    have hheld' : (s.thread t).holdsLock := by rw [Kthread.holdsLock, hswitch, hpc]; rfl
    have hinner {threads' : List Thread} {procs' : List Proc}
        (hl : (Pc.wakeThreads inner threads' procs' : Pc Proc Thread).holdsLk) : s.lk = some c := by
      cases inner with
      | true => exact hlk rfl
      | false => cases hl
    cases threads with
    | cons u threads =>
      cases hs
      have hr := hruns (by simp)
      have hkeep : (s.thread t).state ≠ .sleeping := by rw [hr.running]; simp
      obtain ⟨hw, hwoken⟩ := h.wakeOne u
      have hlock : ((SleepWakeup.wakeOne sys.chan s u).thread t).holdsLock := by rwa [wakeOne_thread hkeep]
      have hpc' : ((SleepWakeup.wakeOne sys.chan s u).thread t).pc = .wakeThreads inner (u :: threads) procs := by
        rwa [wakeOne_thread hkeep]
      rw [wakeOne_move hkeep]
      refine hw.goto hr.wakeOne (.inl rfl) (.inl rfl) (fun hl => ?_)
        (fun _ => hw.placed.lock_eq hr.wakeOne.on hlock) (Pc.not_either (by simp))
        (fun _ => rfl) (Pc.not_either (by simp)) fun v hv => ?_
      · refine hw.placed.lk_eq hr.wakeOne.on ?_
        rw [hpc']
        cases inner with
        | true => rfl
        | false => cases hl
      · obtain ⟨howe, hv⟩ := hv
        rw [hpc'] at hv
        obtain hv | hv := hv
        · obtain rfl | hv := List.mem_cons.mp hv
          · -- the thread just visited sleeps no more
            refine .inr fun hsl => ?_
            obtain hsl | hsl := hsl
            · exact hw.not_falling hlock (by rw [hpc']; rfl) hsl
            · exact hwoken hsl
          · exact .inl ⟨howe, .inl hv⟩
        · exact .inl ⟨howe, .inr hv⟩
    | nil =>
      cases procs with
      | cons p procs =>
        cases hs
        refine h.goto (hruns (by simp)) (.inl rfl) (.inl rfl) hinner (fun _ => hheld rfl) (Pc.not_either (by simp))
          (fun _ => rfl) (Pc.not_either (by simp)) fun u hu => ?_
        obtain ⟨howe, hu⟩ := hu
        rw [hpc] at hu
        obtain hu | hu := hu
        · cases hu
        · obtain rfl | hu := List.mem_cons.mp hu
          · by_cases hunused : s.proc (sys.table.proc u) = .unused
            · refine .inr fun hsl => ?_
              obtain hsl | ⟨hsl, _⟩ := hsl
              · exact h.not_falling hheld' (by rw [hpc]; rfl) hsl
              · exact h.housed u (by rw [hsl]; rfl) hunused
            · refine .inl ⟨howe, .inl ?_⟩
              rw [if_neg hunused]
              exact (sys.table.complete u).2
          · exact .inl ⟨howe, .inr hu⟩
      | nil =>
        cases hs
        refine h.goto (hruns (by simp)) (.inl rfl) (.inl rfl) (fun hl => ?_) (fun _ => hheld rfl) (Pc.not_either
          (by simp))
          (fun _ => rfl) (Pc.not_either (by simp)) fun u hu => ?_
        · cases inner with
          | true => exact hlk rfl
          | false => cases hl
        · obtain ⟨_, hu⟩ := hu
          rw [hpc] at hu
          simp at hu
  | wakeLeave inner =>
    obtain ⟨hown, heq⟩ := Option.ite_none_right_eq_some.mp hs
    cases heq
    have hr := hruns (by simp)
    refine h.move hon ⟨fun hl => hl, ?_, hno, fun hsl => ?_, fun u hu => ?_⟩ (.inl rfl) (.inr (.inr ⟨hown, rfl⟩))
      (fun hl => ?_) (fun hl => ?_) (.inl hr.running) fun hsw => absurd hswitch hsw
    · cases inner <;> simp
    · obtain hsl | ⟨hsl, _⟩ := hsl
      · cases inner <;> simp at hsl
      · cases hr.running.symm.trans hsl
    · obtain ⟨_, hu⟩ := hu
      rw [hpc] at hu
      exact hu.elim
    · cases inner with
      | true => exact hlk rfl
      | false => cases hl
    · rw [Kthread.holdsLock, hswitch] at hl
      cases inner <;> cases hl

omit [DecidableEq Thread] [DecidableEq Cpu] in
theorem Sound.same (h : Sound sys s) (hthread : s'.thread = s.thread) (hproc : s'.proc = s.proc)
    (hdata : s'.data = s.data) (hp : Placed s') : Sound sys s' := by
  refine ⟨hp, ?_, ?_, ?_, ?_⟩
  · rw [hthread, hproc]
    exact h.housed
  · rw [hthread, hdata]
    exact h.tested
  · rw [hthread]
    exact h.owing
  · rw [hthread, hdata]
    exact h.covered

theorem Sound.scheduler (h : Sound sys s) (hs : scheduler sys.table s c = some s') : Sound sys s' := by
  have hidle (hc : ∀ u a b, s.cpu c ≠ .runs u a b) (u : Thread) : ¬ On s c u := fun ⟨a, b, hon⟩ => hc u a b hon
  unfold SleepWakeup.scheduler at hs
  split at hs
  · rename_i hc
    obtain ⟨hnone, heq⟩ := Option.ite_none_right_eq_some.mp hs
    cases heq
    exact h.same rfl rfl rfl (h.placed.scan (hidle (by simp [hc])) (.inr ⟨⟨_, _, rfl⟩, rfl⟩)
      (.inr (.inl ⟨hnone, rfl⟩)))
  · rename_i hc
    cases hs
    exact h.same rfl rfl rfl (h.placed.scan (hidle (by simp [hc])) (.inl rfl)
      (.inr (.inr ⟨h.placed.scans c _ _ hc, rfl⟩)))
  · rename_i hc
    cases hs
    exact h.same rfl rfl rfl (h.placed.scan (hidle (by simp [hc])) (.inr ⟨⟨_, _, rfl⟩,
      h.placed.scans c _ _ hc⟩) (.inl rfl))
  · rename_i u threads procs hc
    split_ifs at hs with hu
    · cases hs
      have hk : Step sys s (s.thread u) { s.thread u with state := .running } := by
        refine ⟨fun _ => by rw [hu]; rfl, h.tested u, h.owing u, fun hsl => ?_, fun _ hw => .inl hw⟩
        obtain hsl | ⟨hsl, _⟩ := hsl
        · exact .inl (.inl hsl)
        · cases hsl
      exact h.put hk rfl rfl rfl (h.placed.pick hc hu)
    · cases hs
      exact h.same rfl rfl rfl (h.placed.scan (hidle (by simp [hc])) (.inr ⟨⟨_, _, rfl⟩,
        h.placed.scans c _ _ hc⟩) (.inl rfl))
  · cases hs

omit [DecidableEq Cpu] in
theorem Sound.change (h : Sound sys s) (hr : Runs s c t) (hpc : (s.thread t).pc = .critical) (data : σ) :
    Sound sys { s.move t
        { s.thread t with owes := (s.thread t).owes || (!sys.cond s.data && sys.cond data) } s.lk s.lock with
      data := data } := by
  have hlk := h.placed.lk_eq hr.on (by rw [hpc]; rfl)
  have hmove := h.placed.move hr.on
    (k := { s.thread t with owes := (s.thread t).owes || (!sys.cond s.data && sys.cond data) })
    (.inl rfl) (.inl rfl) (fun _ => hlk) (fun hl => h.placed.lock_eq hr.on hl) (.inl hr.running)
    fun hs => absurd hr.switch hs
  have hthread (u : Thread) : ∃ owes, (u ≠ t → owes = (s.thread u).owes) ∧
      update s.thread t { s.thread t with owes := (s.thread t).owes || (!sys.cond s.data && sys.cond data) } u =
        { s.thread u with owes := owes } := by
    by_cases hu : u = t
    · rw [hu, update_self]
      exact ⟨_, fun hne => absurd rfl hne, rfl⟩
    · rw [update_of_ne hu]
      exact ⟨_, fun _ => rfl, rfl⟩
  refine ⟨⟨hmove.once, hmove.lk, hmove.lock, hmove.scans, hmove.runs, hmove.opens⟩, fun u hu => ?_, fun u hu => ?_,
    fun u hu => ?_, fun u hu hcond => ?_⟩
  · obtain ⟨owes, _, heq⟩ := hthread u
    simp only [State.move_thread, heq] at hu
    exact h.housed u hu
  · obtain ⟨owes, _, heq⟩ := hthread u
    simp only [State.move_thread, heq] at hu
    -- such a thread would hold `lk`
    have hsame : u = t := by
      refine h.placed.lk_unique ?_ (by rw [hpc]; rfl)
      obtain hu | hu := hu
      · rw [hu]
        rfl
      · rw [hu]
        rfl
    rw [hsame, hpc] at hu
    cases hu <;> contradiction
  · by_cases hut : u = t
    · simp only [State.move_thread, hut, update_self, hpc]
      rfl
    · simp only [State.move_thread, update_of_ne hut] at hu ⊢
      exact h.owing u hu
  · obtain ⟨owes, _, heq⟩ := hthread u
    simp only [State.move_thread, heq] at hu
    by_cases hold : sys.cond s.data = true
    · obtain ⟨w, hw⟩ := h.covered u hu hold
      refine ⟨w, ?_⟩
      by_cases hwt : w = t
      · simp only [State.move_thread, hwt, update_self]
        rw [hwt] at hw
        exact ⟨by rw [hw.1]; rfl, hw.2⟩
      · simp only [State.move_thread, update_of_ne hwt]
        exact hw
    · refine ⟨t, ?_⟩
      simp only [State.move_thread, update_self]
      refine ⟨by rw [Bool.eq_false_iff.mpr hold]; simpa using .inr hcond, ?_⟩
      rw [hpc]
      trivial

variable [DecidableEq Proc]

theorem Sound.choose {choice : Choice σ} (h : Sound sys s) (hon : On s c t) (hswitch : (s.thread t).switch = none)
    (hs : choose sys s c t choice = some s') : Sound sys s' := by
  have howes (hpc : (s.thread t).pc = .idle) {P : Prop} (ho : (s.thread t).owes) : P := by
    have hw := h.owing t ho
    rw [hpc] at hw
    cases hw
  have hidle (hpc : (s.thread t).pc = .idle) : Runs s c t := h.runs hon hswitch (by rw [hpc]; nofun)
  have hcrit (hpc : (s.thread t).pc = .critical) : Runs s c t ∧ s.lk = some c :=
    ⟨h.runs hon hswitch (by rw [hpc]; nofun), h.placed.lk_eq hon (by rw [hpc]; rfl)⟩
  cases choice with
  | wait =>
    obtain ⟨hpc, heq⟩ := Option.ite_none_right_eq_some.mp hs
    cases heq
    exact h.walk (hidle hpc) (.inl rfl) (.inl rfl) nofun nofun nofun (howes hpc) nofun
  | enter =>
    obtain ⟨hpc, heq⟩ := Option.ite_none_right_eq_some.mp hs
    cases heq
    exact h.walk (hidle hpc) (.inl rfl) (.inl rfl) nofun nofun nofun (howes hpc) nofun
  | exit =>
    obtain ⟨hpc, heq⟩ := Option.ite_none_right_eq_some.mp hs
    cases heq
    refine h.move hon (h.unswitched _) (.inl rfl) (.inl rfl) (fun hl => ?_) nofun
      (.inl (hidle hpc).running) fun _ => ?_
    · exact h.placed.lk_eq hon hl
    · simp only [hpc]
      rfl
  | wakeup =>
    simp only [SleepWakeup.choose] at hs
    split at hs
    · rename_i hpc
      cases hs
      exact h.walk (hidle hpc) (.inl rfl) (.inl rfl) nofun nofun nofun (fun _ => .inr ⟨_, rfl⟩) nofun
    · rename_i hpc
      cases hs
      exact h.walk (hcrit hpc).1 (.inl rfl) (.inl rfl) (fun _ => (hcrit hpc).2) nofun nofun
        (fun _ => .inr ⟨_, rfl⟩) nofun
    · cases hs
  | change data =>
    obtain ⟨hpc, heq⟩ := Option.ite_none_right_eq_some.mp hs
    cases heq
    exact h.change (hcrit hpc).1 hpc data
  | leave =>
    obtain ⟨⟨hpc, hown⟩, heq⟩ := Option.ite_none_right_eq_some.mp hs
    cases heq
    cases ho : (s.thread t).owes with
    | true =>
      rw [if_pos rfl]
      exact h.walk (hcrit hpc).1 (.inr (.inr ⟨hown, rfl⟩)) (.inl rfl) nofun nofun nofun
        (fun _ => .inr ⟨_, rfl⟩) nofun
    | false =>
      rw [if_neg nofun]
      exact h.walk (hcrit hpc).1 (.inr (.inr ⟨hown, rfl⟩)) (.inl rfl) nofun nofun nofun (fun h =>
        by rw [ho] at h; cases h) nofun

theorem sound_step (sys : Setup Proc Thread σ) :
    Preserves (@step Cpu Proc Thread σ _ _ _ sys) Always (Sound sys) := by
  intro s e s' h _ hs
  cases e with
  | run c =>
    simp only [step] at hs
    split at hs
    · rename_i t threads procs hc
      have hon : On s c t := ⟨threads, procs, hc⟩
      split at hs
      · rename_i hswitch
        exact h.switchStep hon hswitch hs
      · rename_i hswitch
        exact h.pcStep hon hswitch rfl hs
    · exact h.scheduler hs
  | choose c choice =>
    simp only [step] at hs
    split at hs
    · rename_i t threads procs hc
      obtain ⟨hswitch, hs⟩ := Option.ite_none_right_eq_some.mp hs
      exact h.choose ⟨threads, procs, hc⟩ hswitch hs
    · cases hs
  | preempt c =>
    simp only [step] at hs
    split at hs
    · rename_i t threads procs hc
      have hon : On s c t := ⟨threads, procs, hc⟩
      obtain ⟨⟨hswitch, hopen⟩, heq⟩ := Option.ite_none_right_eq_some.mp hs
      cases heq
      have hr := h.runs hon hswitch (by rintro hpc; rw [hpc] at hopen; cases hopen)
      exact h.move hon (h.unswitched _) (.inl rfl) (.inl rfl)
        (fun hl => h.placed.lk_eq hon hl) nofun (.inl hr.running)
        fun _ => hopen
    · cases hs
  | trap c u =>
    simp only [step] at hs
    split at hs
    · obtain ⟨_, heq⟩ := Option.ite_none_right_eq_some.mp hs
      cases heq
      split_ifs with hu
      · exact h.wake hu
      · exact h
    · cases hs
  | proc p state =>
    simp only [step] at hs
    obtain ⟨hguard, heq⟩ := Option.ite_none_left_eq_some.mp hs
    cases heq
    refine ⟨⟨h.placed.once, h.placed.lk, h.placed.lock, h.placed.scans, h.placed.runs,
      h.placed.opens⟩, fun t ht => ?_, h.tested, h.owing, h.covered⟩
    by_cases hp : sys.table.proc t = p
    · simp only [hp, update_self]
      rintro rfl
      exact hguard ⟨rfl, List.any_eq_true.mpr ⟨t, hp ▸ (sys.table.complete t).2, ht⟩⟩
    · simp only [update_of_ne hp]
      exact h.housed t ht

structure Started (sys : Setup Proc Thread σ) (s : State Cpu Proc Thread σ) : Prop where
  cpu : ∀ c, s.cpu c = .idle
  thread : ∀ t, (s.thread t).pc = .forkret ∧ (s.thread t).switch = none ∧ (s.thread t).owes = false ∧
    (s.thread t).state ≠ .sleeping
  housed : ∀ t, (s.thread t).state.live → s.proc (sys.table.proc t) ≠ .unused

omit [DecidableEq Thread] [DecidableEq Cpu] [DecidableEq Proc] in
theorem started_sound (h : Started sys s) : Sound sys s := by
  have hon {c : Cpu} {t : Thread} : ¬ On s c t := fun ⟨_, _, hon⟩ => by
    rw [h.cpu c] at hon
    cases hon
  have hthread := h.thread
  refine ⟨⟨fun c c' t h₁ _ => (hon h₁).elim, fun t ht => ?_, fun t ht => ?_, fun c threads procs hc => ?_,
    fun c t h₁ => (hon h₁).elim, fun t ht => absurd (hthread t).2.1 ht⟩, h.housed, fun t ht => ?_, fun t ht => ?_,
    fun t ht => ?_⟩
  · rw [(hthread t).1] at ht
    cases ht
  · rw [Kthread.holdsLock, (hthread t).2.1, (hthread t).1] at ht
    cases ht
  · rw [h.cpu c] at hc
    cases hc
  · rw [(hthread t).1] at ht
    cases ht <;> contradiction
  · rw [(hthread t).2.2.1] at ht
    cases ht
  · rw [Kthread.Sleeps, (hthread t).1] at ht
    obtain ht | ht := ht
    · cases ht <;> contradiction
    · exact absurd ht.1 (hthread t).2.2.2

theorem no_lost_wakeup (sys : Setup Proc Thread σ) (s₀ s : State Cpu Proc Thread σ) (hstart : Started sys s₀)
    (hr : Reaches (step sys) Always s₀ s) (t : Thread) (hsleeping : (s.thread t).state = .sleeping)
    (hchan : (s.thread t).chan = sys.chan) (hcond : sys.cond s.data) :
    ∃ w, (s.thread w).owes ∧ (s.thread w).pc.waking ∧ (s.thread w).Pending sys t := by
  have h := hr.invariant (sound_step sys) (started_sound hstart)
  obtain ⟨w, hw⟩ := h.covered t (.inr ⟨hsleeping, hchan⟩) hcond
  exact ⟨w, hw.1, h.owing w hw.1, hw⟩

end Wakeups

def pair : Setup Unit Bool Bool where
  table := ⟨[()], fun _ => [false, true], fun _ => (), fun t => ⟨List.mem_cons_self, by cases t <;> decide⟩⟩
  chan := 1
  cond := id

def pairStart : State Unit Unit Bool Bool :=
  ⟨fun _ => .idle, none, none, fun _ => .used, fun _ => ⟨.runnable, 0, .forkret, none, false⟩, false⟩

def go (n : ℕ) : List (Event Unit Unit Bool Bool) := List.replicate n (.run ())

def pairEvents : List (Event Unit Unit Bool Bool) :=
  go 4 ++ [.choose () .wait] ++ go 9 ++ [.choose () .enter] ++ go 1 ++ [.choose () (.change true)]

def pairState : State Unit Unit Bool Bool := (exec (step pair) Always pairStart pairEvents).get (by decide +kernel)

theorem no_lost_wakeup_pair : (pairState.thread false).state = .sleeping ∧ pair.cond pairState.data ∧
    ∃ w, (pairState.thread w).owes ∧ (pairState.thread w).pc.waking ∧ (pairState.thread w).Pending pair false :=
  ⟨by decide +kernel, by decide +kernel, no_lost_wakeup pair pairStart pairState
    ⟨fun _ => rfl, fun _ => ⟨rfl, rfl, rfl, nofun⟩, fun _ _ => nofun⟩
    (exec_get_reaches _ _ (by decide +kernel)) false (by decide +kernel) (by decide +kernel) (by decide +kernel)⟩

end Xv6.SleepWakeup
