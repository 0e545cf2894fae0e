import Xv6.KernelSound

namespace Xv6.Kernel

open Xv6.Threads Xv6.Runs
open Function (update update_of_ne update_self)

variable {Cpu : Type} [DecidableEq Cpu] {s s' : State Cpu} {a : Flows} {c : Cpu} {k j q : ℕ} {pc pc₀ : Pc}

omit [DecidableEq Cpu] in
theorem Represents.flow (hr : Represents s a) (hc : (s.cpu c).seat = some (k, pc₀)) : a.flow k = some pc₀ :=
  (hr.seats.cpu c k pc₀ hc).2

theorem rep_free {x : CpuState} (hr : Represents s a) (hc : (s.cpu c).seat = some (k, pc₀))
    (hx : x.seat = some (k, .free))
    (hcpu : s'.cpu = update s.cpu c x) (hthr : s'.thr = s.thr) (hcontext : s'.context = s.context)
    (hproc : s'.proc = s.proc) : Represents s' (a.move k (some .free)) :=
  rep_goto hr hc (sound_free hr.sound (hr.flow hc)) (fun _ h => by cases h) hx hcpu hthr hcontext hproc

variable {thr : Table} {ctx : Context} {β : Type} {proc : ℕ → Proc} {p : Proc} {i : ℕ}

theorem sched_rep (hr : Represents s a) (hc : (s.cpu c).seat = some (k, pc₀))
    (hctx : ctx.pc = .free ∨ ctx.pc = pc₀) (hkind : ∀ i, i ≠ k → kind (thr i).state = kind (s.thr i).state)
    (hwaits : kind (thr k).state = .waits) : ∃ a', Represents ((s.setThr thr).sched c k ctx) a' := by
  have hk := hr.flow hc
  refine ⟨a.move k (some ctx.pc), rep_leave hr hc ?_ ?_ rfl rfl rfl hkind (.inl ⟨hwaits, rfl⟩) rfl⟩
  · obtain hfree | hsame := hctx
    · rw [hfree]
      exact sound_free hr.sound hk
    · have heq : a.move k (some ctx.pc) = a := by
        rw [hsame, ← hk]
        simp [Flows.move]
      rw [heq]
      exact hr.sound
  · rintro pc ⟨⟩
    obtain hfree | hsame := hctx
    · rw [hfree]
      exact .inl rfl
    · exact .inr hsame

theorem dead_rep (hr : Represents s a) (hc : (s.cpu c).seat = some (k, pc₀))
    (hkind : ∀ i, i ≠ k → kind (thr i).state = kind (s.thr i).state) (hoff : kind (thr k).state = .off) :
    Represents ((s.setThr thr).sched c k .dead) (a.move k none) :=
  rep_leave hr hc (sound_end hr.sound) (fun _ h => by cases h) rfl rfl rfl hkind (.inr ⟨hoff, rfl⟩) rfl

theorem call_rep {call : Call} (hr : Represents s a) (hc : s.cpu c = .runs k .free) :
    ∃ a', Represents (s.goto c k call.pc) a' := by
  have hseat : (s.cpu c).seat = some (k, .free) := by rw [hc]; rfl
  refine ⟨_, rep_goto (x := .runs k call.pc) hr hseat ?_ ?_ rfl rfl rfl rfl rfl⟩
  · refine sound_on hr.sound (hr.flow hseat) ?_ ?_ ?_ ?_ ?_
    all_goals cases call <;> simp [Call.pc, Pc.owns, Pc.alone, Pc.stray]
  · intro j hj
    cases call <;> cases hj

theorem update_field {f : Proc → β} {g : ℕ → β} {v : β} (h : ∀ i, f (proc i) = g i)
    (hp : f p = v) (i : ℕ) : f (update proc q p i) = update g q v i := by
  by_cases hi : i = q
  · rw [hi, update_self, update_self, hp]
  · rw [update_of_ne hi, update_of_ne hi, h]

theorem update_same {f : Proc → β} {g : ℕ → β} (h : ∀ i, f (proc i) = g i)
    (hp : f p = f (proc q)) (i : ℕ) : f (update proc q p i) = g i := by
  by_cases hi : i = q
  · rw [hi, update_self, hp, h]
  · rw [update_of_ne hi, h]

theorem allocproc_rep (hr : Represents s a) (hc : s.cpu c = .runs k .allocproc) :
    ∃ a', Represents (allocproc s c k) a' := by
  have hseat : (s.cpu c).seat = some (k, .allocproc) := by rw [hc]; rfl
  have hk := hr.flow hseat
  unfold allocproc
  split
  · exact ⟨_, rep_free hr hseat rfl rfl rfl rfl rfl⟩
  · rename_i q hq
    obtain ⟨hlt, hrow⟩ := searchUnused_spec hq
    have hunused : a.state q = .unused := by rw [← hr.state, hrow]
    have hused : a.state q ≠ .used := by simp [hunused]
    have hfree (i : ℕ) (pc : Pc) (h : a.flow i = some pc) : pc.owns ≠ some (.row q) := by
      intro ho
      have hvalid : a.state q = .embryo := hr.sound.owned i pc _ h ho
      rw [hunused] at hvalid
      cases hvalid
    -- no thread is in the row, so that the stores of `UNINIT` end none
    have hempty (i : ℕ) (hi : i ∈ slots (base q)) : kind (s.thr i).state = .off := by
      apply hr.seats.off_of_none
      by_contra hne
      obtain ⟨pc, h⟩ := Option.ne_none_iff_exists'.mp hne
      have hrow := hr.sound.used i pc h
      rw [mem_slots.mp hi] at hrow
      exact hused hrow
    have hrows : Represents ((s.setProc q ((s.proc q).embryo s.nextpid)).setThr
        (allocprocTable s.thr q s.nexttid)) (a.setState q .embryo) := by
      refine rep_rows hr (sound_setState hr.sound hlt hused hfree (by simp)) rfl rfl rfl (fun i => ?_)
        (update_field hr.state rfl) (update_same hr.parent rfl)
      · change kind (allocprocTable s.thr q s.nexttid i).state = _
        by_cases hi : row i = q
        · rw [allocprocTable_row hi, hempty i (mem_slots.mpr hi)]
          rfl
        · rw [allocprocTable_other hi]
    refine ⟨_, rep_goto (x := .runs k (.forkStack q)) (c := c) hrows hseat ?_
      (fun j hj => by cases hj) rfl rfl rfl rfl rfl⟩
    refine sound_move hrows.sound hk ?_ ?_ (by simp) (by simp [Pc.alone]) (by simp) rfl
    · rintro o ⟨⟩
      exact update_self _ _ _
    · rintro o ⟨⟩ i pc _ h
      exact hfree i pc h

theorem alloc_rep {ok : Bool} (hr : Represents s a) (hc : s.cpu c = .runs k pc) (h : alloc s c k ok pc = some s') :
    ∃ a', Represents s' a' := by
  have hseat : (s.cpu c).seat = some (k, pc) := by rw [hc]; rfl
  have hk := hr.flow hseat
  unfold alloc at h
  split at h
  · rename_i q
    cases h
    split_ifs
    · have hembryo : a.state q = .embryo := hr.sound.owned k _ _ hk rfl
      have hempty : a.flow (base q) = none := by
        by_contra hne
        obtain ⟨pc, h⟩ := Option.ne_none_iff_exists'.mp hne
        have hrow := hr.sound.used _ pc h
        rw [row_base, hembryo] at hrow
        cases hrow
      have hctx : Represents { s with context := update s.context (base q) .forkret } a :=
        rep_context hr hempty rfl rfl rfl rfl
      refine ⟨_, rep_goto (x := .runs k (.forkCopy q)) (c := c) hctx hseat ?_ ?_ rfl rfl rfl rfl rfl⟩
      · exact sound_on hr.sound hk (.inr rfl) (by simp) (.inl rfl) (by simp) rfl
      · rintro j ⟨⟩
        exact update_self _ _ _
    · exact ⟨_, rep_free hr hseat rfl rfl rfl rfl rfl⟩
  · rename_i q
    cases h
    split_ifs
    · refine ⟨_, rep_goto (x := .runs k (.forkParent q)) hr hseat ?_ ?_ rfl rfl rfl rfl rfl⟩
      · exact sound_on hr.sound hk (.inr rfl) (by simp) (.inl rfl) (by simp) rfl
      · intro j hj
        exact hr.ready k _ j hk hj
    · refine ⟨_, rep_goto (x := .runs k (.forkUnused q)) hr hseat ?_ (fun j hj => by cases hj) rfl rfl rfl rfl rfl⟩
      exact sound_on hr.sound hk (.inr rfl) (by simp) (.inl rfl) (by simp) rfl
  · rename_i j
    cases h
    split_ifs
    · refine ⟨_, rep_goto (x := .runs k (.createContext j)) hr hseat ?_
        (fun j hj => by cases hj) rfl rfl rfl rfl rfl⟩
      exact sound_on hr.sound hk (.inr rfl) (by simp) (.inl rfl) (by simp) rfl
    · exact ⟨_, rep_free hr hseat rfl rfl rfl rfl rfl⟩
  · cases h

theorem Flows.Sound.others (hi : a.Sound) {o : Owned} (hk : a.flow k = some pc) (ho : pc.owns = some o) {pc' : Pc}
    (hne : i ≠ k) (h : a.flow i = some pc') : pc'.owns ≠ some o :=
  fun ho' => hne (hi.owner i k pc' pc o h hk ho' ho)

theorem forkUnused_rep (hr : Represents s a) (hc : s.cpu c = .runs k (.forkUnused q)) :
    ∃ a', Represents ((s.setProc q { s.proc q with state := .unused }).goto c k (.forkUninit q)) a' := by
  have hseat : (s.cpu c).seat = some (k, .forkUnused q) := by rw [hc]; rfl
  have hk := hr.flow hseat
  have hembryo : a.state q = .embryo := hr.sound.owned k _ _ hk rfl
  have hmoved : Represents (s.goto c k (.forkUninit q)) (a.move k (some (.forkUninit q))) :=
    rep_goto hr hseat (sound_on hr.sound hk (.inl rfl) (by simp) (.inl rfl) (by simp) rfl)
    (fun j hj => by cases hj) rfl rfl
      rfl rfl rfl
  refine ⟨(a.move k (some (.forkUninit q))).setState q .unused, rep_rows hmoved ?_ rfl rfl rfl (fun _ => rfl)
    (update_field hmoved.state rfl) (update_same hmoved.parent rfl)⟩
  have hlt : q < NPROC := hr.sound.rows q (by simp [hembryo])
  refine sound_setState hmoved.sound hlt (by rw [show (a.move k _).state q = _ from hembryo]; simp)
    (fun i pc h => ?_) (by simp)
  obtain ⟨-, ⟨⟩⟩ | ⟨hne, h⟩ := move_flow h
  · simp [Pc.owns]
  · exact hr.sound.others hk rfl hne h

theorem forkUninit_rep (hr : Represents s a) (hc : s.cpu c = .runs k (.forkUninit q))
    (hok : (s.thr (base q)).state.live = false) :
    ∃ a', Represents ((s.setThr (setState s.thr (base q) .uninit)).goto c k .free) a' := by
  have hseat : (s.cpu c).seat = some (k, .forkUninit q) := by rw [hc]; rfl
  have hkind : kind (s.thr (base q)).state = .off := by
    rw [← Bool.not_eq_true, live_iff, not_not] at hok
    exact hok
  have hset : Represents (s.setThr (setState s.thr (base q) .uninit)) a :=
    rep_kind hr rfl rfl rfl (update_kind (by rw [hkind]; rfl))
  exact ⟨_, rep_free hset hseat rfl rfl rfl rfl rfl⟩

theorem forkParent_rep (hr : Represents s a) (hc : s.cpu c = .runs k (.forkParent q)) :
    ∃ a', Represents ((s.setProc q { s.proc q with parent := some (row k) }).goto c k (.forkUsed q)) a' := by
  have hseat : (s.cpu c).seat = some (k, .forkParent q) := by rw [hc]; rfl
  have hk := hr.flow hseat
  have hembryo : a.state q = .embryo := hr.sound.owned k _ _ hk rfl
  have hrows : Represents (s.setProc q { s.proc q with parent := some (row k) })
      (a.setParent q (some (row k))) := by
    refine rep_rows hr (sound_setParent hr.sound ?_ ?_ (fun i h => ?_)) rfl rfl rfl (fun _ => rfl)
      (update_same hr.state rfl) (update_field hr.parent rfl)
    · simp [hembryo]
    · simp [hembryo]
    · obtain rfl : i = k := hr.sound.owner i k _ _ (.row q) h hk rfl rfl
      rw [hk] at h
      cases h
  refine ⟨_, rep_goto (x := .runs k (.forkUsed q)) (c := c) hrows hseat ?_ ?_ rfl rfl rfl rfl rfl⟩
  · refine sound_move hrows.sound hk ?_ ?_ ?_ (by simp [Pc.alone]) (by simp) rfl
    · rintro o ⟨⟩
      exact hembryo
    · rintro o ⟨⟩ i pc hne h
      exact hr.sound.others hk rfl hne h
    · rintro q' ⟨⟩
      exact update_self _ _ _
  · intro j hj
    exact hr.ready k _ j hk hj

theorem forkUsed_rep (hr : Represents s a) (hc : s.cpu c = .runs k (.forkUsed q)) :
    ∃ a', Represents (((s.setProc q { s.proc q with state := .used }).setThr
      (setState s.thr (base q) .runnable)).goto c k .free) a' := by
  have hseat : (s.cpu c).seat = some (k, .forkUsed q) := by rw [hc]; rfl
  have hk := hr.flow hseat
  have hembryo : a.state q = .embryo := hr.sound.owned k _ _ hk rfl
  have hempty (i : ℕ) (pc : Pc) (h : a.flow i = some pc) : row i ≠ q := by
    intro hrow
    have hused := hr.sound.used i pc h
    rw [hrow, hembryo] at hused
    cases hused
  have hnone : a.flow (base q) = none := by
    by_contra hne
    obtain ⟨pc, h⟩ := Option.ne_none_iff_exists'.mp hne
    exact hempty _ pc h (row_base q)
  have hmoved : Represents (s.goto c k .free) (a.move k (some .free)) := rep_free hr hseat rfl rfl rfl rfl rfl
  have hrows : Represents ((s.goto c k .free).setProc q { s.proc q with state := .used })
      ((a.move k (some .free)).setState q .used) := by
    refine rep_rows hmoved ?_ rfl rfl rfl (fun _ => rfl) (update_field hmoved.state rfl)
      (update_same hmoved.parent rfl)
    refine sound_setState hmoved.sound (hr.sound.rows q (by simp [hembryo])) ?_ (fun i pc h => ?_) (fun _ => ?_)
    · change a.state q ≠ .used
      simp [hembryo]
    · obtain ⟨-, ⟨⟩⟩ | ⟨hne, h⟩ := move_flow h
      · simp [Pc.owns]
      · exact hr.sound.others hk rfl hne h
    · exact ⟨row k, hr.sound.child k q hk, hr.sound.used k _ hk⟩
  have hold {i : ℕ} {pc : Pc} (h : (a.move k (some .free)).flow i = some pc) : row i ≠ q := by
    obtain ⟨rfl, -⟩ | ⟨-, h⟩ := move_flow h
    · exact hempty i _ hk
    · exact hempty i pc h
  refine ⟨_, rep_start (j := base q) hrows ?_ (hr.ready k _ _ hk rfl) ?_ rfl rfl ?_ (fun i hi => ?_) rfl⟩
  · exact move_none hnone (fun h => absurd (h ▸ row_base q) (hempty k _ hk))
  · refine sound_start hrows.sound ?_ ?_ (fun i pc h ho => ?_) (fun i pc h hrow => ?_)
    · exact move_none hnone (fun h => absurd (h ▸ row_base q) (hempty k _ hk))
    · rw [row_base]
      exact update_self _ _ _
    · have hvalid := (hmoved.sound.owned i pc _ h ho).1
      rw [row_base] at hvalid
      exact hold h hvalid.symm
    · rw [row_base] at hrow
      exact absurd hrow (hold h)
  · change kind (setState s.thr (base q) .runnable (base q)).state = .waits
    rw [setState_self]
    rfl
  · change kind (setState s.thr (base q) .runnable i).state = kind (s.thr i).state
    rw [setState_other hi]

omit [DecidableEq Cpu] in
theorem Represents.working (hr : Represents s a) (h : a.flow i = some pc) (ho : pc.owns = some (.slot j)) :
    Working s j := by
  have hrow : row j = row i := (hr.sound.owned i pc _ h ho).1
  cases hk : kind (s.thr i).state with
  | off =>
    rw [hr.seats.off i hk] at h
    cases h
  | waits =>
    rw [hr.seats.waits i hk] at h
    cases h
    exact .inr ⟨i, mem_slots.mpr hrow.symm, hk, ho⟩
  | on =>
    obtain ⟨c, pc', hc⟩ := hr.seats.on i hk
    rw [(hr.seats.cpu c i pc' hc).2] at h
    cases h
    refine .inl ⟨c, pc, ?_, ho⟩
    generalize s.cpu c = x at hc
    cases x <;> cases hc <;> rfl

theorem createSearch_rep (hr : Represents s a) (hc : s.cpu c = .runs k .createSearch)
    (hok : ∀ j ∈ searchUninit s.thr (base (row k)), ¬ Working s j) : ∃ a', Represents (createSearch s c k) a' := by
  have hseat : (s.cpu c).seat = some (k, .createSearch) := by rw [hc]; rfl
  have hk := hr.flow hseat
  unfold createSearch
  split
  · exact ⟨_, rep_free hr hseat rfl rfl rfl rfl rfl⟩
  · rename_i j hj
    have hrow : row j = row k := mem_slots.mp (List.mem_of_find?_eq_some hj)
    have huninit : (s.thr j).state = .uninit := by simpa using List.find?_some hj
    have hset : Represents
        (s.setThr (update s.thr j { s.thr j with tproc := some (row k), tid := s.nexttid })) a :=
      rep_kind hr rfl rfl rfl (update_kind rfl)
    refine ⟨_, rep_goto (x := .runs k (.createStack j)) (c := c) hset hseat ?_
      (fun j hj => by cases hj) rfl rfl rfl rfl rfl⟩
    refine sound_move hr.sound hk ?_ ?_ (by simp) (by simp [Pc.alone]) (by simp) rfl
    · rintro o ⟨⟩
      exact ⟨hrow, hr.seats.off j (by rw [huninit]; rfl)⟩
    · rintro o ⟨⟩ i pc _ h ho
      exact hok j hj (hr.working h ho)

theorem createContext_rep (hr : Represents s a) (hc : s.cpu c = .runs k (.createContext j)) :
    ∃ a', Represents { s.goto c k (.createRequest j) with context := update s.context j .forkret } a' := by
  have hseat : (s.cpu c).seat = some (k, .createContext j) := by rw [hc]; rfl
  have hk := hr.flow hseat
  have hctx : Represents { s with context := update s.context j .forkret } a :=
    rep_context hr (hr.sound.owned k _ _ hk rfl).2 rfl rfl rfl rfl
  refine ⟨_, rep_goto (x := .runs k (.createRequest j)) (c := c) hctx hseat ?_ ?_ rfl rfl rfl rfl rfl⟩
  · exact sound_on hr.sound hk (.inr rfl) (by simp) (.inl rfl) (by simp) rfl
  · rintro j ⟨⟩
    exact update_self _ _ _

theorem createRequest_rep (hr : Represents s a) (hc : s.cpu c = .runs k (.createRequest j)) :
    ∃ a', Represents ((s.setThr (update s.thr j { s.thr j with exitRequest := 0 })).goto c k (.createRunnable j))
      a' := by
  have hseat : (s.cpu c).seat = some (k, .createRequest j) := by rw [hc]; rfl
  have hk := hr.flow hseat
  have hset : Represents (s.setThr (update s.thr j { s.thr j with exitRequest := 0 })) a :=
    rep_kind hr rfl rfl rfl (update_kind rfl)
  refine ⟨_, rep_goto (x := .runs k (.createRunnable j)) (c := c) hset hseat ?_ ?_ rfl rfl rfl rfl rfl⟩
  · exact sound_on hr.sound hk (.inr rfl) (by simp) (.inl rfl) (by simp) rfl
  · intro i hi
    exact hr.ready k _ i hk hi

theorem createRunnable_rep (hr : Represents s a) (hc : s.cpu c = .runs k (.createRunnable j)) :
    ∃ a', Represents ((s.setThr (setState s.thr j .runnable)).goto c k .free) a' := by
  have hseat : (s.cpu c).seat = some (k, .createRunnable j) := by rw [hc]; rfl
  have hk := hr.flow hseat
  obtain ⟨hrow, hnone⟩ := hr.sound.owned k _ _ hk rfl
  have hjk : j ≠ k := by
    rintro rfl
    rw [hk] at hnone
    cases hnone
  have hmoved : Represents (s.goto c k .free) (a.move k (some .free)) := rep_free hr hseat rfl rfl rfl rfl rfl
  have hempty : (a.move k (some .free)).flow j = none := move_none hnone (fun h => absurd h hjk)
  refine ⟨_, rep_start (j := j) hmoved hempty (hr.ready k _ _ hk rfl) ?_ rfl rfl ?_ (fun i hi => ?_) rfl⟩
  · refine sound_start hmoved.sound hempty ?_ (fun i pc h => ?_) (fun i pc h hi => ?_)
    · rw [hrow]
      exact hr.sound.used k _ hk
    · obtain ⟨-, ⟨⟩⟩ | ⟨hne, h⟩ := move_flow h
      · simp [Pc.owns]
      · exact hr.sound.others hk rfl hne h
    · obtain ⟨-, ⟨⟩⟩ | ⟨hne, h⟩ := move_flow h
      · rfl
      · -- the thread at work here is another one of the process
        by_contra halone
        rw [Bool.not_eq_false] at halone
        rw [hr.sound.alone i pc h halone k (Ne.symm hne) (hrow.symm.trans hi.symm)] at hk
        cases hk
  · change kind (setState s.thr j .runnable j).state = .waits
    rw [setState_self]
    rfl
  · change kind (setState s.thr j .runnable i).state = kind (s.thr i).state
    rw [setState_other hi]

omit [DecidableEq Cpu] in
theorem Represents.alone (hr : Represents s a) (h : lastRunning s.thr (base (row k)) k = true) (j : ℕ) (hj : j ≠ k)
    (hrow : row j = row k) : a.flow j = none :=
  hr.seats.off j (lastRunning_iff.mp h j hrow hj)

omit [DecidableEq Cpu] in
theorem setState_kind {state : ThreadState} (hkind : ∀ i, kind (thr i).state = kind (s.thr i).state) (i : ℕ)
    (hi : i ≠ k) : kind (setState thr k state i).state = kind (s.thr i).state := by
  rw [setState_other hi]
  exact hkind i

theorem kexitScan_rep (hr : Represents s a) (hc : s.cpu c = .runs k .kexitScan) :
    ∃ a', Represents (kexitScan s c k) a' := by
  have hseat : (s.cpu c).seat = some (k, .kexitScan) := by rw [hc]; rfl
  have hk := hr.flow hseat
  unfold kexitScan
  split_ifs with hlast
  · refine ⟨_, rep_goto (x := .runs k (.exitScan true)) (c := c) hr hseat ?_
      (fun j hj => by cases hj) rfl rfl rfl rfl rfl⟩
    exact sound_move hr.sound hk (fun o ho => by cases ho) (fun o ho => by cases ho)
      (by simp) (fun _ => hr.alone hlast) (by simp) rfl
  · exact ⟨_, dead_rep hr hseat (setState_kind (fun _ => wakeup1_kind)) (by rw [setState_self]; rfl)⟩

theorem exitScan_rep {kexit : Bool} (hr : Represents s a) (hc : s.cpu c = .runs k (.exitScan kexit))
    (hinit : row k ≠ initproc) : ∃ a', Represents (exitScan s c k kexit) a' := by
  have hseat : (s.cpu c).seat = some (k, .exitScan kexit) := by rw [hc]; rfl
  have hk := hr.flow hseat
  unfold exitScan
  split_ifs with hlast hkexit
  · refine ⟨_, rep_goto (x := .runs k .exitClose) (c := c) hr hseat ?_
      (fun j hj => by cases hj) rfl rfl rfl rfl rfl⟩
    exact sound_move hr.sound hk (fun o ho => by cases ho) (fun o ho => by cases ho)
      (by simp) (fun _ => hr.alone hlast) (fun _ => hinit) rfl
  · -- `kthread_exit` has already seen that there is no other thread
    subst hkexit
    refine absurd (lastRunning_iff.mpr fun j hrow hj => ?_) hlast
    exact hr.seats.off_of_none (hr.sound.alone k _ hk rfl j hj hrow)
  · have hset : Represents (s.setThr (requestExit s.thr (base (row k)) k)) a :=
      rep_kind hr rfl rfl rfl (fun _ => requestExit_kind)
    exact ⟨_, rep_free hset hseat rfl rfl rfl rfl rfl⟩

theorem exitFinal_rep (hr : Represents s a) (hc : s.cpu c = .runs k .exitClose) :
    ∃ a', Represents (exitFinal s c k) a' := by
  have hseat : (s.cpu c).seat = some (k, .exitClose) := by rw [hc]; rfl
  have hk := hr.flow hseat
  have hend : Represents ({ s with proc := s.proc, thr := (exitFinal s c k).thr }.sched c k .dead)
      (a.move k none) := by
    refine dead_rep hr hseat (setState_kind fun i => ?_)
      (by simp only [exitFinal, State.sched, setState_self, kind])
    rw [wakeup1_kind]
    split_ifs
    · rw [wakeup1_kind, wakeup1_kind]
    · rw [wakeup1_kind]
  refine ⟨a.exit k, rep_rows hend (sound_exit hr.sound hk) rfl rfl rfl (fun _ => rfl) (fun q => ?_) (fun q => ?_)⟩
  · exact update_field (fun i => passToInit_state.trans (hr.state i)) rfl q
  · change (update (passToInit s.proc (row k)) (row k) _ q).parent = if _ then _ else _
    have hpass (i : ℕ) : (passToInit s.proc (row k) i).parent =
        if i < NPROC ∧ a.parent i = some (row k) then some initproc else a.parent i := by
      rw [passToInit_parent, hr.parent]
    apply update_same (f := Proc.parent) hpass
    rfl

theorem joinStep_rep {r : JoinResult} (hr : Represents s a) (hseat : (s.cpu c).seat = some (k, pc₀))
    (hreaps : ∀ t, r = .reaps t → (s.thr t).state = .terminated) : ∃ a', Represents (joinStep s c k r) a' := by
  cases r with
  | fails => exact ⟨_, rep_free hr hseat rfl rfl rfl rfl rfl⟩
  | sleeps t =>
    refine sched_rep hr hseat (.inl rfl) (fun i hi => ?_) ?_
    · simp [JoinResult.table, update_of_ne hi]
    · simp [JoinResult.table, kind]
  | reaps t =>
    have hset : Represents (s.setThr (JoinResult.table s.thr k (.reaps t))) a :=
      rep_kind hr rfl rfl rfl (update_kind (by rw [hreaps t rfl]; rfl))
    exact ⟨_, rep_free hset hseat rfl rfl rfl rfl rfl⟩

theorem waitFound_rep (hr : Represents s a) (hseat : (s.cpu c).seat = some (k, pc₀))
    (hq : (s.proc q).state = .zombie) (hlt : q < NPROC) : ∃ a', Represents (waitFound s c k q) a' := by
  have hset : Represents (s.setThr (waitTable s.thr (base q))) a :=
    rep_kind hr rfl rfl rfl (fun _ => waitTable_kind)
  have hfree : Represents (((s.setThr (waitTable s.thr (base q))).goto c k .free).release)
      (a.move k (some .free)) :=
    rep_free hset hseat rfl rfl rfl rfl rfl
  rw [hr.state] at hq
  unfold waitFound freeRow
  simp only
  split_ifs
  · exact ⟨_, rep_kind hfree rfl rfl rfl (fun _ => rfl)⟩
  · refine ⟨((a.move k (some .free)).setState q .unused).setParent q none,
      rep_rows hfree ?_ rfl rfl rfl (fun _ => rfl) (update_field hfree.state rfl) (update_field hfree.parent rfl)⟩
    have hgone : ((a.move k (some .free)).setState q .unused).Sound := by
      refine sound_setState hfree.sound hlt ?_ (fun i pc h ho => ?_) (by simp)
      · change a.state q ≠ .used
        simp [hq]
      · have hvalid : a.state q = .embryo := hfree.sound.owned i pc _ h ho
        rw [hq] at hvalid
        cases hvalid
    refine sound_setParent hgone ?_ ?_ (fun i h => ?_)
    · simp [Flows.setState]
    · simp [Flows.setState]
    · have hvalid : a.state q = .embryo := hfree.sound.owned i _ _ h rfl
      rw [hq] at hvalid
      cases hvalid

theorem waitLoop_rep (hr : Represents s a) (hseat : (s.cpu c).seat = some (k, .wait)) :
    ∃ a', Represents (waitLoop s c k) a' := by
  unfold waitLoop
  split
  · rename_i q hq
    obtain ⟨hlt, _, hzombie⟩ := zombieChild_spec hq
    exact waitFound_rep hr hseat hzombie hlt
  · split_ifs
    · exact ⟨_, rep_free hr hseat rfl rfl rfl rfl rfl⟩
    · refine sched_rep hr hseat (.inr rfl) (fun i hi => ?_) ?_
      · rw [update_of_ne hi]
      · rw [update_self]
        rfl

omit [DecidableEq Cpu] in
theorem clearChan_rep (hr : Represents s a) : Represents (clearChan s k) a :=
  rep_kind hr rfl rfl rfl (update_kind rfl)

theorem continues_rep (hr : Represents s a) (hseat : (s.cpu c).seat = some (k, pc)) :
    Represents (s.goto c k pc).release a := by
  have hk := hr.flow hseat
  have heq : a.move k (some pc) = a := by
    rw [← hk]
    simp [Flows.move]
  rw [← heq]
  exact rep_goto (x := .runs k pc) hr hseat (by rw [heq]; exact hr.sound)
    (fun j hj => hr.ready k pc j hk hj) rfl rfl rfl rfl
    rfl

theorem resume_rep (hr : Represents s a) (hc : s.cpu c = .resumes k ctx) (h : resume s c k ctx = some s') :
    ∃ a', Represents s' a' := by
  have hseat : (s.cpu c).seat = some (k, ctx.pc) := by rw [hc]; rfl
  cases ctx with
  | forkret =>
    cases h
    exact ⟨a, continues_rep hr hseat⟩
  | yielded pc =>
    cases h
    exact ⟨a, continues_rep hr hseat⟩
  | slept pc =>
    cases h
    exact ⟨a, continues_rep (clearChan_rep hr) hseat⟩
  | waiting =>
    cases h
    exact waitLoop_rep (clearChan_rep hr) hseat
  | joining t =>
    cases h
    refine joinStep_rep (clearChan_rep hr) hseat fun t' ht' => ?_
    obtain ⟨rfl, hterm⟩ := joinLoop_reaps ht'
    exact hterm
  | dead => cases h

theorem scheduler_rep (hr : Represents s a) (h : scheduler s c = some s') : ∃ a', Represents s' a' := by
  have hscan {x : CpuState} {lock : Option Cpu} (hc : (s.cpu c).seat = none) (hx : x.seat = none) :
      Represents { s with cpu := update s.cpu c x, lock := lock } a :=
    ⟨seats_scan hr.seats hc hx rfl rfl rfl, hr.state, hr.parent, hr.ready, hr.sound⟩
  unfold scheduler at h
  simp only at h
  split at h
  · rename_i hc
    simp only [Option.ite_none_right_eq_some, Option.some.injEq] at h
    obtain ⟨-, rfl⟩ := h
    exact ⟨a, hscan (by rw [hc]; rfl) rfl⟩
  · rename_i p hc
    split_ifs at h
    all_goals cases h
    all_goals exact ⟨a, hscan (by rw [hc]; rfl) rfl⟩
  · rename_i p k hc
    have hnone : (s.cpu c).seat = none := by rw [hc]; rfl
    split_ifs at h with hend hrun
    · cases h
      exact ⟨a, hscan hnone rfl⟩
    · cases h
      exact ⟨a, hscan hnone rfl⟩
    · cases h
      have hrunnable : (s.thr k).state = .runnable := not_not.mp hrun
      refine ⟨a, seats_pick hr.seats hnone (by rw [hrunnable]; rfl) rfl rfl ?_ (fun i hi => ?_),
        hr.state, hr.parent, hr.ready, hr.sound⟩
      · change kind (setState s.thr k .running k).state = .on
        rw [setState_self]
        rfl
      · change kind (setState s.thr k .running i).state = _
        rw [setState_other hi]
  · cases h

theorem run_rep (hr : Represents s a) (hc : s.cpu c = .runs k pc) (hok : KernelTurn s (.run c))
    (h : run s c k pc = some s') : ∃ a', Represents s' a' := by
  have hseat : (s.cpu c).seat = some (k, pc) := by rw [hc]; rfl
  have hk := hr.flow hseat
  have hregion {r : State Cpu} (h : region s r = some s') : s' = r := by
    simp only [region, Option.ite_none_right_eq_some, Option.some.injEq] at h
    exact h.2.symm
  cases pc with
  | allocproc => exact hregion h ▸ allocproc_rep hr hc
  | forkUnused q =>
    cases h
    exact forkUnused_rep hr hc
  | forkUninit q =>
    cases h
    exact forkUninit_rep hr hc (hok.1 q (by rw [hc]; rfl))
  | forkParent q =>
    cases h
    exact forkParent_rep hr hc
  | forkUsed q => exact hregion h ▸ forkUsed_rep hr hc
  | createSearch => exact hregion h ▸ createSearch_rep hr hc (hok.2 k (by rw [hc]; rfl))
  | createContext j =>
    cases h
    exact createContext_rep hr hc
  | createRequest j =>
    cases h
    exact createRequest_rep hr hc
  | createRunnable j =>
    cases h
    exact createRunnable_rep hr hc
  | kexitScan => exact hregion h ▸ kexitScan_rep hr hc
  | exitScan kexit =>
    simp only [run, Option.ite_none_left_eq_some] at h
    exact hregion h.2 ▸ exitScan_rep hr hc h.1
  | exitClose => exact hregion h ▸ exitFinal_rep hr hc
  | kexitWake => cases hr.sound.strays k _ hk
  | kexitMark => cases hr.sound.strays k _ hk
  | join threadId => exact hregion h ▸ joinStep_rep hr hseat (fun t ht => (kthreadJoin_reaps ht).1)
  | wait => exact hregion h ▸ waitLoop_rep hr hseat
  | _ => cases h

theorem kernel_step : Preserves (@step Cpu _) KernelTurn (fun s => ∃ a, Represents s a) := by
  rintro s e s' ⟨a, hr⟩ hok h
  have hregion {r : State Cpu} (h : region s r = some s') : s' = r := by
    simp only [region, Option.ite_none_right_eq_some, Option.some.injEq] at h
    exact h.2.symm
  cases e with
  | scheduler c => exact scheduler_rep hr h
  | call c call =>
    simp only [step] at h
    split at h
    · rename_i k hc
      cases h
      exact call_rep hr hc
    · cases h
  | run c =>
    simp only [step] at h
    split at h
    · rename_i k pc hc
      exact run_rep hr hc hok h
    · rename_i k ctx hc
      exact resume_rep hr hc h
    · cases h
  | alloc c ok =>
    simp only [step] at h
    split at h
    · rename_i k pc hc
      exact alloc_rep hr hc h
    · cases h
  | sleep c addr =>
    simp only [step] at h
    split at h
    · rename_i k pc hc
      simp only [Option.ite_none_right_eq_some] at h
      rw [hregion h.2]
      have hseat : (s.cpu c).seat = some (k, pc) := by rw [hc]; rfl
      refine sched_rep hr hseat (.inr rfl) (fun i hi => ?_) ?_
      · rw [update_of_ne hi]
      · rw [update_self]
        rfl
    · cases h
  | preempt c =>
    simp only [step] at h
    split at h
    · rename_i k pc hc
      simp only [Option.ite_none_right_eq_some] at h
      rw [hregion h.2]
      have hseat : (s.cpu c).seat = some (k, pc) := by rw [hc]; rfl
      exact sched_rep hr hseat (.inr rfl) (fun i hi => by rw [setState_other hi])
        (by rw [setState_self]; rfl)
    · cases h
  | wakeup addr =>
    simp only [step, Option.ite_none_right_eq_some] at h
    rw [hregion h.2]
    exact ⟨a, rep_kind hr rfl rfl rfl (fun _ => wakeup1_kind)⟩
  | kill pid =>
    rw [hregion h]
    exact ⟨a, rep_rows hr hr.sound rfl rfl rfl (fun _ => rfl) (fun i =>
      (killTable_proc pid i).1.trans (hr.state i)) (fun i => (killTable_proc pid i).2.2.trans (hr.parent i))⟩

end Xv6.Kernel
