import Xv6.KernelRows

namespace Xv6.Kernel

open Xv6.Threads Xv6.Runs Function

variable {Cpu : Type} [DecidableEq Cpu]

structure Pids (s : State Cpu) : Prop where
  next : 0 < s.nextpid
  pid : ∀ q, (s.proc q).state ≠ .unused → 0 < (s.proc q).pid ∧ (s.proc q).pid < s.nextpid
  distinct : ∀ q q', (s.proc q).state ≠ .unused → (s.proc q').state ≠ .unused →
    (s.proc q).pid = (s.proc q').pid → q = q'
  waited : ∀ w ∈ s.waited, 0 < w.pid ∧ w.pid < s.nextpid ∧ w.parent = some w.proc ∧ w.state = .zombie
  gone : ∀ q, (s.proc q).state ≠ .unused → ∀ w ∈ s.waited, w.pid ≠ (s.proc q).pid
  once : (s.waited.map (·.pid)).Nodup

structure Sleepers (s : State Cpu) : Prop where
  self : ∀ q, (s.proc q).parent ≠ some q
  init : (s.proc initproc).parent = none
  sleep : ∀ i, (s.thr i).state = .sleeping → s.context i = .waiting →
    (s.thr i).chan = procChan (row i) ∧ ∀ q, (s.proc q).parent = some (row i) → (s.proc q).state ≠ .zombie

section

variable {s s' : State Cpu} {a : Flows} {c : Cpu} {k q : ℕ}

omit [DecidableEq Cpu] in
theorem pids_same (hi : Pids s) (hnext : s'.nextpid = s.nextpid) (hwaited : s'.waited = s.waited)
    (hpid : ∀ q, (s'.proc q).pid = (s.proc q).pid)
    (hunused : ∀ q, (s.proc q).state = .unused → (s'.proc q).state = .unused) : Pids s' := by
  have hold {q : ℕ} (h : (s'.proc q).state ≠ .unused) : (s.proc q).state ≠ .unused := fun hq => h (hunused q hq)
  refine ⟨by rw [hnext]; exact hi.next, fun q hq => ?_, fun q q' hq hq' h => ?_,
    by rw [hnext, hwaited]; exact hi.waited,
    fun q hq => ?_, by rw [hwaited]; exact hi.once⟩
  · rw [hpid, hnext]
    exact hi.pid q (hold hq)
  · rw [hpid, hpid] at h
    exact hi.distinct q q' (hold hq) (hold hq') h
  · rw [hpid, hwaited]
    exact hi.gone q (hold hq)

omit [DecidableEq Cpu] in
theorem pids_allocs (hi : Pids s)
    (hproc : s'.proc = update s.proc q { s.proc q with state := .embryo, pid := s.nextpid })
    (hnext : s'.nextpid = s.nextpid + 1) (hwaited : s'.waited = s.waited) : Pids s' := by
  have hpos := hi.next
  have hnew : (s'.proc q).pid = s.nextpid := by rw [hproc, update_self]
  have hold (i : ℕ) (h : i ≠ q) : s'.proc i = s.proc i := by rw [hproc, update_of_ne h]
  have hbelow (i : ℕ) (h : i ≠ q) (hs : (s'.proc i).state ≠ .unused) : (s'.proc i).pid < s.nextpid := by
    rw [hold i h] at hs ⊢
    exact (hi.pid i hs).2
  refine ⟨by omega, fun i hs => ?_, fun i i' hs hs' h => ?_, fun w hw => ?_, fun i hs w hw => ?_,
    by rw [hwaited]; exact hi.once⟩
  · by_cases hiq : i = q
    · rw [hiq, hnew]
      omega
    · have hlt := hbelow i hiq hs
      rw [hold i hiq] at hs hlt ⊢
      have hge := (hi.pid i hs).1
      omega
  · by_cases hiq : i = q
    · by_cases hiq' : i' = q
      · rw [hiq, hiq']
      · have hlt := hbelow i' hiq' hs'
        rw [hiq, hnew] at h
        omega
    · by_cases hiq' : i' = q
      · have hlt := hbelow i hiq hs
        rw [hiq', hnew] at h
        omega
      · rw [hold i hiq] at hs h
        rw [hold i' hiq'] at hs' h
        exact hi.distinct i i' hs hs' h
  · rw [hwaited] at hw
    obtain ⟨hpos, hlt, hrest⟩ := hi.waited w hw
    exact ⟨hpos, by omega, hrest⟩
  · rw [hwaited] at hw
    by_cases hiq : i = q
    · have hlt := (hi.waited w hw).2.1
      rw [hiq, hnew]
      omega
    · rw [hold i hiq] at hs ⊢
      exact hi.gone i hs w hw

omit [DecidableEq Cpu] in
theorem Represents.ended (hr : Represents s a) (hq : (s.proc q).state = .zombie) :
    hasNonTerminated s.thr k q = false := by
  simp only [hasNonTerminated, List.any_eq_false, Bool.and_eq_true, decide_eq_true_eq, not_and]
  intro t ht _ hlive
  rw [live_iff] at hlive
  apply hlive
  apply hr.seats.off_of_none
  by_contra hne
  obtain ⟨pc, h⟩ := Option.ne_none_iff_exists'.mp hne
  have hused := hr.sound.used t pc h
  rw [mem_slots.mp ht, ← hr.state, hq] at hused
  cases hused

theorem waitFound_ended (h : hasNonTerminated s.thr k q = false) :
    (waitFound s c k q).proc = update s.proc q emptyRow ∧
      (waitFound s c k q).waited = ⟨row k, (s.proc q).pid, (s.proc q).parent, (s.proc q).state⟩ :: s.waited := by
  unfold waitFound freeRow
  rw [h]
  exact ⟨rfl, rfl⟩

omit [DecidableEq Cpu] in
theorem pids_finds (hi : Pids s) (hq : (s.proc q).state = .zombie) (hparent : (s.proc q).parent = some k)
    (hproc : s'.proc = update s.proc q
      { s.proc q with state := .unused, pid := 0, parent := none, killed := false })
    (hnext : s'.nextpid = s.nextpid)
    (hwaited : s'.waited = ⟨k, (s.proc q).pid, (s.proc q).parent, (s.proc q).state⟩ :: s.waited) : Pids s' := by
  have hused : (s.proc q).state ≠ .unused := by simp [hq]
  have hold {i : ℕ} (hs : (s'.proc i).state ≠ .unused) : i ≠ q ∧ s'.proc i = s.proc i := by
    rw [hproc] at hs ⊢
    by_cases hiq : i = q
    · rw [hiq, update_self] at hs
      exact absurd rfl hs
    · exact ⟨hiq, update_of_ne hiq _ _⟩
  refine ⟨by rw [hnext]; exact hi.next, fun i hs => ?_, fun i i' hs hs' h => ?_, fun w hw => ?_,
    fun i hs w hw => ?_, ?_⟩
  · obtain ⟨-, heq⟩ := hold hs
    rw [heq] at hs ⊢
    rw [hnext]
    exact hi.pid i hs
  · obtain ⟨-, heq⟩ := hold hs
    obtain ⟨-, heq'⟩ := hold hs'
    rw [heq] at hs h
    rw [heq'] at hs' h
    exact hi.distinct i i' hs hs' h
  · rw [hwaited] at hw
    rw [hnext]
    obtain rfl | hw := List.mem_cons.mp hw
    · obtain ⟨hpos, hlt⟩ := hi.pid q hused
      exact ⟨hpos, hlt, hparent, hq⟩
    · exact hi.waited w hw
  · obtain ⟨hne, heq⟩ := hold hs
    rw [heq] at hs ⊢
    rw [hwaited] at hw
    obtain rfl | hw := List.mem_cons.mp hw
    · intro h
      exact hne (hi.distinct i q hs hused h.symm)
    · exact hi.gone i hs w hw
  · rw [hwaited, List.map_cons, List.nodup_cons]
    refine ⟨fun hmem => ?_, hi.once⟩
    obtain ⟨w, hw, heq⟩ := List.mem_map.mp hmem
    exact hi.gone q hused w hw heq

theorem exitFinal_row (hk : (s.proc (row k)).state = .used) (q : ℕ) :
    ((exitFinal s c k).proc q).pid = (s.proc q).pid ∧
      ((s.proc q).state = .unused → ((exitFinal s c k).proc q).state = .unused) := by
  change (update (passToInit s.proc (row k)) (row k) _ q).pid = _ ∧
    (_ → (update (passToInit s.proc (row k)) (row k) _ q).state = _)
  by_cases hq : q = row k
  · subst hq
    rw [update_self]
    refine ⟨passToInit_pid, fun h => ?_⟩
    rw [hk] at h
    cases h
  · rw [update_of_ne hq]
    exact ⟨passToInit_pid, fun h => passToInit_state.trans h⟩

omit [DecidableEq Cpu] in
theorem sleepers_calm (hi : Sleepers s) (h : Calm s s') : Sleepers s' := by
  refine ⟨fun q hq => ?_, ?_, fun i hs hctx => ?_⟩
  · obtain hsame | ⟨-, -, hne⟩ := h.parent q
    · rw [hsame] at hq
      exact hi.self q hq
    · exact hne hq
  · obtain hsame | ⟨-, hne, -⟩ := h.parent initproc
    · rw [hsame]
      exact hi.init
    · exact absurd rfl hne
  · obtain ⟨hold, hctx', hchan⟩ := h.sleep i hs hctx
    obtain ⟨hchan', hnone⟩ := hi.sleep i hold hctx'
    refine ⟨hchan.trans hchan', fun q hq hz => ?_⟩
    obtain hsame | ⟨hembryo, -, -⟩ := h.parent q
    · rw [hsame] at hq
      exact hnone q hq (h.zombie q hz)
    · rw [hz] at hembryo
      cases hembryo

omit [DecidableEq Cpu] in
theorem sleepers_allocs (hi : Sleepers s)
    (hproc : s'.proc = update s.proc q { s.proc q with state := .embryo, pid := s.nextpid })
    (hsleep : ∀ i, (s'.thr i).state = .sleeping → s'.context i = .waiting →
      (s.thr i).state = .sleeping ∧ s.context i = .waiting ∧ (s'.thr i).chan = (s.thr i).chan) : Sleepers s' := by
  have hparent (i : ℕ) : (s'.proc i).parent = (s.proc i).parent := by
    rw [hproc]
    by_cases hiq : i = q
    · rw [hiq, update_self]
    · rw [update_of_ne hiq]
  refine ⟨fun i hself => ?_, by rw [hparent]; exact hi.init, fun i hs hctx => ?_⟩
  · rw [hparent] at hself
    exact hi.self i hself
  · obtain ⟨hold, hctx', hchan⟩ := hsleep i hs hctx
    obtain ⟨hchan', hnone⟩ := hi.sleep i hold hctx'
    refine ⟨hchan.trans hchan', fun j hj hz => ?_⟩
    rw [hparent] at hj
    rw [hproc] at hz
    by_cases hjq : j = q
    · rw [hjq, update_self] at hz
      cases hz
    · rw [update_of_ne hjq] at hz
      exact hnone j hj hz

theorem not_woken {proc : ℕ → Proc} {thr : Table} {chan : Chan} {i : ℕ} (hlt : row i < NPROC)
    (hrow : (proc (row i)).state ≠ .unused) (h : (wakeup1 proc thr chan i).state = .sleeping) :
    (thr i).chan ≠ chan := by
  intro hchan
  have hsame := sleeping_wakeup1 h
  have hi : i < NPROC * NTHREAD := by
    simp only [row, NTHREAD, NPROC] at hlt ⊢
    omega
  rw [hsame] at h
  rw [wakeup1, if_pos ⟨hi, hrow, h, hchan⟩] at hsame
  have hstate := congrArg Kthread.state hsame
  rw [h] at hstate
  cases hstate

omit [DecidableEq Cpu] in
theorem Represents.sleeper (hr : Represents s a) {i : ℕ} (h : (s.thr i).state = .sleeping) :
    row i < NPROC ∧ (s.proc (row i)).state ≠ .unused := by
  have hflow := hr.seats.waits i (by rw [h]; rfl)
  have hused := hr.sound.used i _ hflow
  exact ⟨hr.sound.rows _ (by simp [hused]), by simp [hr.state, hused]⟩

theorem sleepers_exits (hi : Sleepers s) (hr : Represents s a) (hc : s.cpu c = .runs k .exitClose) :
    Sleepers (exitFinal s c k) := by
  have hk : a.flow k = some .exitClose := hr.flow (by rw [hc]; rfl)
  have hpass (i : ℕ) : ((exitFinal s c k).proc i).parent =
      if i < NPROC ∧ (s.proc i).parent = some (row k) then some initproc else (s.proc i).parent := by
    change (update (passToInit s.proc (row k)) (row k) _ i).parent = _
    have hsame : (update (passToInit s.proc (row k)) (row k)
        { passToInit s.proc (row k) (row k) with state := .zombie } i).parent =
        (passToInit s.proc (row k) i).parent := by
      by_cases hik : i = row k
      · rw [hik, update_self]
      · rw [update_of_ne hik]
    rw [hsame, passToInit_parent]
  have hzombie (i : ℕ) (h : ((exitFinal s c k).proc i).state = .zombie) :
      i = row k ∨ (s.proc i).state = .zombie := by
    by_cases hik : i = row k
    · exact .inl hik
    · right
      change (update (passToInit s.proc (row k)) (row k) _ i).state = _ at h
      rwa [update_of_ne hik, passToInit_state] at h
  refine ⟨fun q hq => ?_, ?_, fun i hs hctx => ?_⟩
  · rw [hpass] at hq
    split_ifs at hq with hp
    · cases hq
      rw [hi.init] at hp
      cases hp.2
    · exact hi.self q hq
  · rw [hpass, hi.init]
    simp
  · have hik : i ≠ k := by
      rintro rfl
      change (setState _ i .terminated i).state = .sleeping at hs
      rw [setState_self] at hs
      cases hs
    have hctx' : s.context i = .waiting := by
      change update s.context k .dead i = .waiting at hctx
      rwa [update_of_ne hik] at hctx
    -- back through the three wakeups
    have hs₀ := hs
    change (setState _ k .terminated i).state = .sleeping at hs
    rw [setState_other hik] at hs
    have hsame₃ := sleeping_wakeup1 hs
    rw [hsame₃] at hs
    have hsame : (exitFinal s c k).thr i = s.thr i := by
      change setState _ k .terminated i = _
      rw [setState_other hik, hsame₃]
      split_ifs at hs ⊢
      · have hsame₂ := sleeping_wakeup1 hs
        rw [hsame₂] at hs ⊢
        exact sleeping_wakeup1 hs
      · exact sleeping_wakeup1 hs
    have hold : (s.thr i).state = .sleeping := by rwa [hsame] at hs₀
    obtain ⟨hchan, hnone⟩ := hi.sleep i hold hctx'
    obtain ⟨hlt, hrow⟩ := hr.sleeper hold
    have hparent : (s.thr i).chan ≠ parentChan s (row k) := by
      split_ifs at hs
      · have hsame₂ := sleeping_wakeup1 hs
        rw [hsame₂] at hs
        exact not_woken hlt hrow hs
      · exact not_woken hlt hrow hs
    have hinit (hz : hasZombie s.proc (row k) = true) : (s.thr i).chan ≠ procChan initproc := by
      rw [if_pos hz] at hs
      have hwoken := not_woken hlt hrow hs
      have hsame₂ := sleeping_wakeup1 hs
      rw [hsame₂] at hs
      rwa [sleeping_wakeup1 hs] at hwoken
    rw [hsame]
    refine ⟨hchan, fun q hq hz => ?_⟩
    rw [hpass] at hq
    obtain rfl | hz := hzombie q hz
    · rw [if_neg (fun h => hi.self _ h.2)] at hq
      apply hparent
      rw [hchan, parentChan, hq]
    · have hlt' : q < NPROC := hr.sound.rows q (by rw [← hr.state, hz]; simp)
      split_ifs at hq with hp
      · have hany : hasZombie s.proc (row k) = true := by
          simp only [hasZombie, List.any_eq_true, List.mem_range, decide_eq_true_eq]
          exact ⟨q, hlt', hp.2, hz⟩
        apply hinit hany
        rw [hchan, Option.some.inj hq]
      · exact hnone q hq hz

omit [DecidableEq Cpu] in
theorem sleepers_gone (hi : Sleepers s)
    (hproc : s'.proc = update s.proc q
      { s.proc q with state := .unused, pid := 0, parent := none, killed := false })
    (hsleep : ∀ i, (s'.thr i).state = .sleeping → s'.context i = .waiting →
      (s.thr i).state = .sleeping ∧ s.context i = .waiting ∧ (s'.thr i).chan = (s.thr i).chan) : Sleepers s' := by
  have hrow (i : ℕ) : (s'.proc i).parent = none ∨ s'.proc i = s.proc i := by
    rw [hproc]
    by_cases hiq : i = q
    · exact .inl (by rw [hiq, update_self])
    · exact .inr (update_of_ne hiq _ _)
  refine ⟨fun i hself => ?_, ?_, fun i hs hctx => ?_⟩
  · obtain hnone | hsame := hrow i
    · rw [hnone] at hself
      cases hself
    · rw [hsame] at hself
      exact hi.self i hself
  · obtain hnone | hsame := hrow initproc
    · exact hnone
    · rw [hsame]
      exact hi.init
  · obtain ⟨hold, hctx', hchan⟩ := hsleep i hs hctx
    obtain ⟨hchan', hno⟩ := hi.sleep i hold hctx'
    refine ⟨hchan.trans hchan', fun j hj hz => ?_⟩
    obtain hnone | hsame := hrow j
    · rw [hnone] at hj
      cases hj
    · rw [hsame] at hj hz
      exact hno j hj hz

theorem waitTable_sleeping {thr : Table} {b i : ℕ} (h : (waitTable thr b i).state = .sleeping) :
    waitTable thr b i = thr i := by
  unfold waitTable at h ⊢
  split_ifs at h ⊢
  rfl

theorem sleepers_sleeps {r : State Cpu} (hi : Sleepers r) (hrows : ∀ q, (r.proc q).state = .zombie → q < NPROC)
    (hq : zombieChild r.proc (row k) = none)
    (h : s' = (r.setThr (update r.thr k { r.thr k with chan := procChan (row k), state := .sleeping })).sched c k
      .waiting) : Sleepers s' := by
  subst h
  refine ⟨hi.self, hi.init, fun i hs hctx => ?_⟩
  change (update r.thr k { r.thr k with chan := procChan (row k), state := .sleeping } i).state = .sleeping at hs
  change update r.context k .waiting i = .waiting at hctx
  change (update r.thr k { r.thr k with chan := procChan (row k), state := .sleeping } i).chan = _ ∧
    ∀ q, (r.proc q).parent = some (row i) → (r.proc q).state ≠ .zombie
  by_cases hik : i = k
  · subst hik
    rw [update_self]
    refine ⟨rfl, fun q hparent hz => ?_⟩
    have hnot := List.find?_eq_none.mp hq q (List.mem_range.mpr (hrows q hz))
    simp [hparent, hz] at hnot
  · rw [update_of_ne hik] at hs hctx ⊢
    exact hi.sleep i hs hctx

end

structure KernelSound (s : State Cpu) : Prop where
  flows : ∃ a, Represents s a
  pids : Pids s
  sleepers : Sleepers s

theorem kernelSound_step : Preserves (@step Cpu _) KernelTurn KernelSound := by
  intro s e s' ⟨⟨a, hr⟩, hp, hi⟩ hok h
  suffices hboth : Pids s' ∧ Sleepers s' from ⟨kernel_step s e s' ⟨a, hr⟩ hok h, hboth.1, hboth.2⟩
  cases step_outcome hr h with
  | calm h => exact ⟨pids_same hp h.nextpid h.waited h.pid h.unused, sleepers_calm hi h⟩
  | allocs c k q _ _ hproc hnext hwaited hsleep =>
    exact ⟨pids_allocs hp hproc hnext hwaited, sleepers_allocs hi hproc hsleep⟩
  | exits c k hc hs =>
    subst hs
    have hused : (s.proc (row k)).state = .used := by
      rw [hr.state]
      exact hr.sound.used k .exitClose (hr.flow (by rw [hc]; rfl))
    exact ⟨pids_same hp rfl rfl (fun q => (exitFinal_row hused q).1) (fun q => (exitFinal_row hused q).2),
      sleepers_exits hi hr hc⟩
  | finds c k q r hcalm hproc hthr hq hs =>
    subst hs
    obtain ⟨hlt, hparent, hz⟩ := zombieChild_spec hq
    have hended : hasNonTerminated r.thr k q = false := by
      rw [hproc] at hz
      have hs := hr.ended (k := k) hz
      simpa only [hasNonTerminated, hthr] using hs
    obtain ⟨hproc', hwaited'⟩ := waitFound_ended (c := c) hended
    have hrp : Pids r := pids_same hp hcalm.nextpid hcalm.waited hcalm.pid hcalm.unused
    have hri : Sleepers r := sleepers_calm hi hcalm
    have hnext : (waitFound r c k q).nextpid = r.nextpid := rfl
    have htable : (waitFound r c k q).thr = waitTable r.thr (base q) ∧ (waitFound r c k q).context = r.context :=
      ⟨rfl, rfl⟩
    refine ⟨pids_finds hrp hz hparent hproc' hnext hwaited', sleepers_gone hri hproc' fun i hs hctx => ?_⟩
    rw [htable.1] at hs ⊢
    rw [htable.2] at hctx
    have hsame := waitTable_sleeping hs
    rw [hsame] at hs ⊢
    exact ⟨hs, hctx, rfl⟩
  | sleeps c k r hcalm hproc hq hs =>
    have hrp : Pids r := pids_same hp hcalm.nextpid hcalm.waited hcalm.pid hcalm.unused
    have hrows (q : ℕ) (hz : (r.proc q).state = .zombie) : q < NPROC := by
      rw [hproc, hr.state] at hz
      exact hr.sound.rows q (by simp [hz])
    refine ⟨?_, sleepers_sleeps (sleepers_calm hi hcalm) hrows hq hs⟩
    subst hs
    exact ⟨hrp.next, hrp.pid, hrp.distinct, hrp.waited, hrp.gone, hrp.once⟩

def boot : State Cpu where
  proc := bootRows
  thr := bootSlots
  context k := if k = base initproc then .forkret else .dead
  cpu _ := .idle
  lock := none
  nextpid := 2
  nexttid := 2
  waited := []

def bootFlows : Flows where
  state p := if p = initproc then .used else .unused
  parent _ := none
  flow k := if k = base initproc then some .free else none

theorem bootFlows_sound : bootFlows.Sound := by
  have hflow {k : ℕ} {pc : Pc} (h : bootFlows.flow k = some pc) : k = base initproc ∧ pc = .free := by
    simp only [bootFlows, Option.ite_none_right_eq_some, Option.some.injEq] at h
    exact ⟨h.1, h.2.symm⟩
  have hstate {p : ℕ} (h : bootFlows.state p ≠ .unused) : p = initproc := by
    by_contra hne
    exact h (if_neg hne)
  refine ⟨fun q hq => ?_, rfl, fun k pc h => ?_, fun k pc o h ho => ?_,
    fun k k' pc pc' o h h' _ _ => ?_, fun k q h => ?_,
    fun k pc h ha => ?_, fun k h => ?_, fun k pc h => ?_, fun p hp hs => ?_⟩
  · rw [hstate hq]
    decide
  · rw [(hflow h).1, row_base]
    rfl
  · rw [(hflow h).2] at ho
    cases ho
  · rw [(hflow h).1, (hflow h').1]
  · cases (hflow h).2
  · rw [(hflow h).2] at ha
    cases ha
  · cases (hflow h).2
  · rw [(hflow h).2]
    rfl
  · refine absurd (hstate fun hno => ?_) hp
    rw [hno] at hs
    simp at hs

omit [DecidableEq Cpu] in
theorem boot_sound : KernelSound (boot : State Cpu) := by
  have hproc (q : ℕ) : q = initproc ∨ (boot : State Cpu).proc q = emptyRow := by
    by_cases hq : q = initproc
    · exact .inl hq
    · exact .inr (if_neg hq)
  have hslot (k : ℕ) : k = base initproc ∨ (boot : State Cpu).thr k = emptySlot := by
    by_cases hk : k = base initproc
    · exact .inl hk
    · exact .inr (if_neg hk)
  have hparent (q : ℕ) : ((boot : State Cpu).proc q).parent = none := by
    obtain rfl | h := hproc q
    · rfl
    · rw [h, emptyRow]
  have hinit {q : ℕ} (h : ((boot : State Cpu).proc q).state ≠ .unused) : q = initproc := by
    obtain rfl | hq := hproc q
    · rfl
    · rw [hq] at h
      exact absurd rfl h
  refine ⟨⟨bootFlows, ⟨?_, ?_, ?_, ?_, ?_⟩, fun q => ?_, fun q => hparent q,
    fun k pc j h hj => ?_, bootFlows_sound⟩, ⟨show (0 : ℤ) < 2 by decide, fun q hq => ?_, fun q q' hq hq' _ => ?_,
      by simp [boot], by simp [boot], by simp [boot]⟩, ⟨by simp [hparent], hparent _, fun i hs => ?_⟩⟩
  · intro c k pc h
    cases h
  · intro c c' k pc pc' h
    cases h
  · intro k h
    obtain rfl | hk := hslot k
    · cases h
    · rw [hk] at h
      cases h
  · intro k h
    obtain rfl | hk := hslot k
    · rfl
    · rw [hk] at h
      cases h
  · intro k h
    by_cases hk : k = base initproc
    · subst hk
      cases h
    · exact if_neg hk
  · by_cases hq : q = initproc
    · subst hq
      rfl
    · simp [boot, bootRows, emptyRow, bootFlows, hq]
  · simp only [bootFlows, Option.ite_none_right_eq_some, Option.some.injEq] at h
    rw [← h.2] at hj
    cases hj
  · rw [hinit hq]
    exact show (0 : ℤ) < 1 ∧ (1 : ℤ) < 2 by decide
  · rw [hinit hq, hinit hq']
  · obtain rfl | hi := hslot i
    · cases hs
    · rw [hi] at hs
      cases hs

end Xv6.Kernel
