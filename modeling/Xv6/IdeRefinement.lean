import Mathlib.Data.Nat.Bitwise
import Xv6.IdeDisk

namespace Xv6.Ide

open Xv6.LinkedLists Function
open Xv6.Runs

variable {Thread Buf Data : Type}

section Transfers

def Buffer.drive (b : Buffer Data) : Bool :=
  b.dev % 2 = 1

theorem command_drive (b : Buffer Data) (h : b.blockno < fssize) : (command b).drive = b.drive := by
  have hsector : (b.blockno * sectorPerBlock) >>> 24 = 0 := by
    rw [Nat.shiftRight_eq_div_pow]
    simp only [fssize, sectorPerBlock] at h ⊢
    omega
  simp only [Command.drive, command, Buffer.drive, hsector, Nat.and_one_is_mod]
  obtain hdev | hdev := Nat.mod_two_eq_zero_or_one b.dev
  · rw [hdev]
    decide
  · rw [hdev]
    decide

theorem command_sector (b : Buffer Data) (h : b.blockno < fssize) : (command b).sector = b.blockno := by
  have hsector : (b.blockno * sectorPerBlock) >>> 24 = 0 := by
    rw [Nat.shiftRight_eq_div_pow]
    simp only [fssize, sectorPerBlock] at h ⊢
    omega
  have hhigh : (0xe0 ||| ((b.dev &&& 1) <<< 4) ||| ((b.blockno * sectorPerBlock) >>> 24 &&& 0x0f)) &&&
      0x0f = 0 := by
    rw [hsector, Nat.and_one_is_mod]
    obtain hdev | hdev := Nat.mod_two_eq_zero_or_one b.dev
    · rw [hdev]
      decide
    · rw [hdev]
      decide
  have hbyte (n : ℕ) : n &&& 0xff = n % 2 ^ 8 := Nat.and_two_pow_sub_one_eq_mod n 8
  simp only [Command.sector, command, hhigh]
  simp only [hbyte, Nat.shiftRight_eq_div_pow]
  simp only [fssize, sectorPerBlock] at h ⊢
  omega

def settle (v : Buffer Data) (latch : Data) : Buffer Data :=
  { v with data := if v.dirty then v.data else latch, valid := true, dirty := false }

structure Atomic (v v' : Buffer Data) (d₀ d₁ : Disks Data) : Prop where
  transfer : memideSync (d₀ v.drive) v = (d₁ v.drive, v')
  other : d₁ (!v.drive) = d₀ (!v.drive)
  memide : v.dev = 1 → memideIderw (d₀ true) v = some (d₁ true, v')

variable {v : Buffer Data}

theorem memideIderw_eq (hneeds : v.settled = false) (hblock : v.blockno < fssize) (hdev : v.dev = 1)
    (memdisk : Sectors Data) : memideIderw memdisk v = some (memideSync memdisk v) := by
  rw [memideIderw, hneeds, if_neg Bool.false_ne_true, if_neg (not_not.mpr hdev), if_neg (Nat.not_le.mpr hblock)]

theorem command_transfer (hblock : v.blockno < fssize) (d : Disks Data) (latch : Data) :
    memideSync (d v.drive) v = ((command v).perform d v.drive, settle v ((command v).latch d latch)) ∧
      (command v).perform d (!v.drive) = d (!v.drive) := by
  have hdrive := command_drive v hblock
  have hsector := command_sector v hblock
  cases hdirty : v.dirty with
  | true =>
    have htransfer : (command v).transfer = .write v.data := by simp only [command, hdirty, if_true]
    constructor
    · simp only [memideSync, Command.perform, settle, htransfer, hdrive, hsector, hdirty, if_true, update_self]
    · simp only [Command.perform, htransfer, hdrive]
      exact update_of_ne (Bool.not_ne_self _) _ _
  | false =>
    have htransfer : (command v).transfer = .read := by simp only [command, hdirty, Bool.false_eq_true, if_false]
    constructor
    · simp only [memideSync, Command.perform, Command.latch, settle, htransfer, hdrive, hsector, hdirty,
        Bool.false_eq_true, if_false]
    · simp only [Command.perform, htransfer]

theorem command_atomic (hneeds : v.settled = false) (hblock : v.blockno < fssize) (d : Disks Data)
    (latch : Data) : Atomic v (settle v ((command v).latch d latch)) d ((command v).perform d) := by
  obtain ⟨htransfer, hother⟩ := command_transfer hblock d latch
  refine ⟨htransfer, hother, fun hdev => ?_⟩
  have hdrive : v.drive = true := by simp [Buffer.drive, hdev]
  rw [memideIderw_eq hneeds hblock hdev, ← hdrive, htransfer]

end Transfers

section Invariant

def Finished (s : State Thread Buf Data) (b : Buf) : Prop :=
  (s.buf b).settled = true ∧ ∃ d₀ d₁, s.done b = some (d₀, d₁) ∧ Atomic (s.arg b) (s.buf b) d₀ d₁

def Ready (s : State Thread Buf Data) (b : Buf) : Prop :=
  s.buf b = s.arg b ∧ (s.buf b).settled = false

def Waits (s : State Thread Buf Data) (queue : List Buf) (b : Buf) : Prop :=
  b ∈ queue ∧ Ready s b ∨ b ∉ queue ∧ Finished s b

def Pc.request : Pc Buf → Option Buf
  | .idle => none
  | .enter b | .walk b _ | .test b | .sleeping b | .woken b | .returned b => some b

def Pc.waiting : Pc Buf → Option Buf
  | .test b | .sleeping b | .woken b => some b
  | _ => none

def Pc.locked : Pc Buf → Bool
  | .walk _ _ | .test _ => true
  | _ => false

def Stage (s : State Thread Buf Data) (queue : List Buf) : Pc Buf → Prop
  | .idle => True
  | .enter b => b ∉ queue ∧ Ready s b
  | .walk b pp => (b ∉ queue ∧ Ready s b) ∧ s.link (some b) = none ∧ (pp = none ∨ pp ∈ queue.map some)
  | .test b | .sleeping b | .woken b => Waits s queue b
  | .returned b => b ∉ queue ∧ Finished s b

structure Caller (s : State Thread Buf Data) (queue : List Buf) (t : Thread) (p : Pc Buf) : Prop where
  holds : ∀ b, p.request = some b → s.lock b = some t
  idelock : p.locked = true → s.idelock = some t
  stage : Stage s queue p

structure Callers (s : State Thread Buf Data) (queue : List Buf) : Prop where
  each : ∀ t, Caller s queue t (s.pc t)
  present : ∀ b ∈ queue, ∃ t, (s.pc t).waiting = some b

def Serves (s : State Thread Buf Data) : List Buf → Prop
  | [] => s.active = none ∧ s.pending = 0
  | b :: _ => (s.buf b).blockno < fssize ∧
      (s.active = some (command (s.buf b), b) ∧ s.pending = 0 ∨
        s.active = none ∧ s.pending = 1 ∧ ∃ d latch, s.done b = some (d, (command (s.buf b)).perform d) ∧
          s.latch = (command (s.buf b)).latch d latch)

structure Pipeline (s : State Thread Buf Data) (handled queue : List Buf) : Prop where
  linked : Path s.link none (queue.map some) none
  nodup : queue.Nodup
  queued : s.queued = handled ++ queue
  started : s.started = handled ++ queue.take 1
  serves : Serves s queue

structure Sound (s : State Thread Buf Data) (handled queue : List Buf) : Prop where
  pipeline : Pipeline s handled queue
  callers : Callers s queue

end Invariant

section Frames

variable {s s' : State Thread Buf Data} {handled queue queue' : List Buf} {t u : Thread} {b c : Buf} {p : Pc Buf}

theorem Pc.request_of_waiting (h : p.waiting = some b) : p.request = some b := by
  cases p with
  | idle | enter | walk | returned => cases h
  | test | sleeping | woken => exact h

theorem Pc.still {q : Pc Buf} (h : p.waiting = q.waiting) (hc : c ∈ queue) :
    p.waiting = some c ∨ c ∈ queue ∧ q.waiting ≠ some c := by
  by_cases hq : q.waiting = some c
  · exact .inl (h.trans hq)
  · exact .inr ⟨hc, hq⟩

structure Kept (s s' : State Thread Buf Data) (queue queue' : List Buf) (b : Buf) : Prop where
  mem : b ∈ queue' ↔ b ∈ queue
  buf : s'.buf b = s.buf b
  arg : s'.arg b = s.arg b
  done : b ∉ queue → s'.done b = s.done b

theorem Kept.ready (h : Kept s s' queue queue' b) (hr : Ready s b) : Ready s' b := by
  rw [Ready, h.buf, h.arg]
  exact hr

theorem Kept.finished (h : Kept s s' queue queue' b) (hb : b ∉ queue) (hf : Finished s b) : Finished s' b := by
  rw [Finished, h.buf, h.arg, h.done hb]
  exact hf

theorem Kept.waits (h : Kept s s' queue queue' b) (hw : Waits s queue b) : Waits s' queue' b := by
  obtain ⟨hb, hr⟩ | ⟨hb, hf⟩ := hw
  · exact .inl ⟨h.mem.mpr hb, h.ready hr⟩
  · exact .inr ⟨fun hb' => hb (h.mem.mp hb'), h.finished hb hf⟩

theorem Stage.keep (h : Stage s queue p) (hk : ∀ b, p.request = some b → Kept s s' queue queue' b)
    (hl : p.locked = true → s'.link = s.link ∧ queue ⊆ queue') : Stage s' queue' p := by
  cases p with
  | idle => trivial
  | enter b =>
    have hk := hk b rfl
    exact ⟨fun hb => h.1 (hk.mem.mp hb), hk.ready h.2⟩
  | walk b pp =>
    have hk := hk b rfl
    obtain ⟨hlink, hsub⟩ := hl rfl
    refine ⟨⟨fun hb => h.1.1 (hk.mem.mp hb), hk.ready h.1.2⟩, by rw [hlink]; exact h.2.1, ?_⟩
    exact h.2.2.imp_right fun hp => List.map_subset some hsub hp
  | test b | sleeping b | woken b => exact (hk b rfl).waits h
  | returned b =>
    have hk := hk b rfl
    exact ⟨fun hb => h.1 (hk.mem.mp hb), hk.finished h.1 h.2⟩

theorem Caller.keep (h : Caller s queue t p) (hlock : ∀ b, p.request = some b → s'.lock b = s.lock b)
    (hk : ∀ b, p.request = some b → Kept s s' queue queue' b)
    (hl : p.locked = true → s'.idelock = s.idelock ∧ s'.link = s.link ∧ queue ⊆ queue') :
    Caller s' queue' t p where
  holds b hb := by
    rw [hlock b hb]
    exact h.holds b hb
  idelock hp := by
    rw [(hl hp).1]
    exact h.idelock hp
  stage := h.stage.keep hk fun hp => (hl hp).2

theorem Caller.stay (h : Caller s queue t p) (hlock : ∀ b, p.request = some b → s'.lock b = s.lock b)
    (hbuf : s'.buf = s.buf) (harg : s'.arg = s.arg) (hdone : s'.done = s.done)
    (hl : p.locked = true → s'.idelock = s.idelock ∧ s'.link = s.link) : Caller s' queue t p :=
  h.keep hlock (fun b _ => ⟨Iff.rfl, congrFun hbuf b, congrFun harg b, fun _ => congrFun hdone b⟩)
    fun hp => ⟨(hl hp).1, (hl hp).2, List.Subset.refl queue⟩

theorem Callers.same (h : Callers s queue) (ht : (s.pc t).request = some b) (hu : (s.pc u).request = some b) :
    t = u :=
  Option.some.inj (((h.each t).holds b ht).symm.trans ((h.each u).holds b hu))

theorem Callers.outside (h : Callers s queue) (ht : s.idelock = none ∨ s.idelock = some t) (hne : u ≠ t) :
    (s.pc u).locked = false := by
  by_contra hlocked
  have hu := (h.each u).idelock (Bool.not_eq_false _ ▸ hlocked)
  obtain ht | ht := ht
  · cases ht.symm.trans hu
  · exact hne (Option.some.inj (hu.symm.trans ht))

theorem Callers.unlocked (h : Callers s queue) (hfree : s.idelock = none) (u : Thread) :
    (s.pc u).locked = false := by
  by_contra hlocked
  cases hfree.symm.trans ((h.each u).idelock (Bool.not_eq_false _ ▸ hlocked))

theorem Callers.queued (h : Callers s queue) (hb : b ∈ queue) :
    ∃ t, (s.pc t).waiting = some b ∧ s.lock b = some t := by
  obtain ⟨t, ht⟩ := h.present b hb
  exact ⟨t, ht, (h.each t).holds b (Pc.request_of_waiting ht)⟩

theorem Callers.unrequested (h : Callers s queue) (hidle : s.pc t = .idle)
    (hlock : s.lock b = some t) (u : Thread) : (s.pc u).request ≠ some b := by
  intro hu
  have hut : t = u := Option.some.inj (hlock.symm.trans ((h.each u).holds b hu))
  rw [← hut, hidle] at hu
  cases hu

theorem Callers.not_queued (h : Callers s queue) (hidle : s.pc t = .idle) (hlock : s.lock b = some t) :
    b ∉ queue := by
  intro hb
  obtain ⟨u, hu, _⟩ := h.queued hb
  exact h.unrequested hidle hlock u (Pc.request_of_waiting hu)

theorem Callers.ready (h : Callers s queue) (hb : b ∈ queue) : Ready s b := by
  obtain ⟨t, ht⟩ := h.present b hb
  have hstage := (h.each t).stage
  cases hp : s.pc t with
  | idle | enter | walk | returned =>
    rw [hp] at ht
    cases ht
  | test c | sleeping c | woken c =>
    rw [hp] at ht hstage
    cases ht
    obtain ⟨_, hr⟩ | ⟨hno, _⟩ := hstage
    · exact hr
    · exact absurd hb hno

theorem Serves.keep (h : Serves s queue) (hactive : s'.active = s.active) (hpending : s'.pending = s.pending)
    (hlatch : s'.latch = s.latch) (hbuf : ∀ b ∈ queue, s'.buf b = s.buf b)
    (hdone : ∀ b ∈ queue, s'.done b = s.done b) :
    Serves s' queue := by
  cases queue with
  | nil => exact ⟨hactive.trans h.1, hpending.trans h.2⟩
  | cons b queue =>
    rw [Serves, hbuf b List.mem_cons_self, hdone b List.mem_cons_self, hactive, hpending, hlatch]
    exact h

theorem Pipeline.keep (h : Pipeline s handled queue)
    (hlink : ∀ c, c = none ∨ c ∈ queue.map some → s'.link c = s.link c)
    (hqueued : s'.queued = s.queued) (hstarted : s'.started = s.started) (hserves : Serves s' queue) :
    Pipeline s' handled queue where
  linked := h.linked.congr (hlink none (.inl rfl)) fun c hc => hlink c (.inr hc)
  nodup := h.nodup
  queued := hqueued.trans h.queued
  started := hstarted.trans h.started
  serves := hserves

theorem idestart_some (h : idestart s b = some s') : (s.buf b).blockno < fssize ∧ s.active = none ∧
    s' = { s with active := some (command (s.buf b), b), started := s.started ++ [b] } := by
  unfold idestart at h
  split at h
  · cases h
  split at h
  · cases h
  rename_i hblock hactive
  exact ⟨Nat.lt_of_not_le hblock, Option.not_isSome_iff_eq_none.mp hactive, (Option.some.inj h).symm⟩

theorem none_not_mem (queue : List Buf) : (none : Cell Buf) ∉ queue.map some := by
  simp

theorem Pipeline.idequeue (h : Pipeline s handled queue) : s.idequeue = queue.head? := by
  have hlinked := h.linked
  cases queue with
  | nil => exact hlinked
  | cons b queue => exact hlinked.1

end Frames

section

variable [DecidableEq Buf] {s s' : State Thread Buf Data} {handled queue : List Buf} {t : Thread} {b : Buf}

theorem editable_request (h : Callers s queue) (hedit : editable s b = true) : (s.pc t).request ≠ some b := by
  intro ht
  have hlock := (h.each t).holds b ht
  rw [editable, hlock] at hedit
  rw [of_decide_eq_true hedit] at ht
  cases ht

theorem Sound.acquiresleep (h : Sound s handled queue) (hfree : s.lock b = none) :
    Sound { s with lock := update s.lock b (some t) } handled queue where
  pipeline := h.pipeline.keep (fun _ _ => rfl) rfl rfl h.pipeline.serves
  callers := by
    refine ⟨fun u => (h.callers.each u).stay (fun c hc => update_of_ne ?_ _ _) rfl rfl rfl
      fun _ => ⟨rfl, rfl⟩, h.callers.present⟩
    rintro rfl
    cases hfree.symm.trans ((h.callers.each u).holds c hc)

theorem Sound.releasesleep (h : Sound s handled queue) (hidle : s.pc t = .idle) (hlock : s.lock b = some t) :
    Sound { s with lock := update s.lock b none } handled queue where
  pipeline := h.pipeline.keep (fun _ _ => rfl) rfl rfl h.pipeline.serves
  callers := by
    refine ⟨fun u => (h.callers.each u).stay (fun c hc => update_of_ne ?_ _ _) rfl rfl rfl
      fun _ => ⟨rfl, rfl⟩, h.callers.present⟩
    rintro rfl
    have hu : t = u := Option.some.inj (hlock.symm.trans ((h.callers.each u).holds c hc))
    rw [← hu, hidle] at hc
    cases hc

theorem Sound.edit (h : Sound s handled queue) (hedit : editable s b = true) (v : Buffer Data) :
    Sound { s with buf := update s.buf b v } handled queue where
  pipeline := by
    refine h.pipeline.keep (fun _ _ => rfl) rfl rfl (h.pipeline.serves.keep rfl rfl rfl
      (fun c hc => ?_) fun _ _ => rfl)
    obtain ⟨u, hu, _⟩ := h.callers.queued hc
    refine update_of_ne ?_ _ _
    rintro rfl
    exact editable_request h.callers hedit (Pc.request_of_waiting hu)
  callers := by
    refine ⟨fun u => (h.callers.each u).keep (fun _ _ => rfl) (fun c hc => ?_)
      fun _ => ⟨rfl, rfl, List.Subset.refl queue⟩, h.callers.present⟩
    refine ⟨Iff.rfl, update_of_ne ?_ _ _, rfl, fun _ => rfl⟩
    rintro rfl
    exact editable_request h.callers hedit hc

theorem Sound.complete (h : Sound s handled queue) (hs : complete s = some s') :
    Sound s' handled queue ∧ ∃ b, s.idequeue = some b ∧ s'.done b = some (s.disk, s'.disk) := by
  unfold Ide.complete at hs
  split at hs
  · cases hs
  rename_i c b hactive
  have hserves := h.pipeline.serves
  cases hq : queue with
  | nil =>
    rw [hq] at hserves
    cases hactive.symm.trans hserves.1
  | cons a rest =>
    rw [hq] at hserves
    obtain ⟨hblock, ⟨hcommand, hpending⟩ | ⟨hnone, _⟩⟩ := hserves
    · cases hactive.symm.trans hcommand
      cases hs
      rw [← hq]
      refine ⟨⟨h.pipeline.keep (fun _ _ => rfl) rfl rfl ?_, ?_⟩, b, ?_, update_self _ _ _⟩
      · rw [hq]
        refine ⟨hblock, .inr ⟨rfl, congrArg (· + 1) hpending, s.disk, s.latch, update_self _ _ _, rfl⟩⟩
      · refine ⟨fun u => (h.callers.each u).keep (fun _ _ => rfl) (fun c _ => ?_)
          fun _ => ⟨rfl, rfl, List.Subset.refl queue⟩, h.callers.present⟩
        refine ⟨Iff.rfl, rfl, rfl, fun hc => update_of_ne ?_ _ _⟩
        rintro rfl
        exact hc (hq ▸ List.mem_cons_self)
      · rw [h.pipeline.idequeue, hq]
        rfl
    · cases hactive.symm.trans hnone

theorem Caller.wakeup (h : Caller s queue t (s.pc t)) : Caller s queue t (wakeup s.pc b t) := by
  unfold Ide.wakeup
  split
  · rename_i hsleeping
    rw [hsleeping] at h
    exact ⟨h.holds, h.idelock, h.stage⟩
  · exact h

theorem wakeup_waiting (pc : Thread → Pc Buf) (b : Buf) (t : Thread) :
    (wakeup pc b t).waiting = (pc t).waiting := by
  unfold wakeup
  split
  · rename_i hsleeping
    rw [hsleeping]
    rfl
  · rfl

omit [DecidableEq Buf] in
theorem receive_settle (hactive : s.active = none) (b : Buf) :
    ∃ v, receive s b = some v ∧ { v with valid := true, dirty := false } = settle (s.buf b) s.latch := by
  unfold receive settle
  cases hdirty : (s.buf b).dirty with
  | true => exact ⟨_, rfl, rfl⟩
  | false => exact ⟨_, by rw [hactive]; rfl, rfl⟩

theorem Callers.serve {rest : List Buf} (h : Callers s (b :: rest)) (hfree : s.idelock = none) (hb : b ∉ rest)
    (hpc : s'.pc = wakeup s.pc b) (hlock : s'.lock = s.lock) (harg : s'.arg = s.arg)
    (hdone : s'.done = s.done) {v : Buffer Data} (hbuf : s'.buf = update s.buf b v) (hfinished : Finished s' b) :
    Callers s' rest := by
  have hstage (u : Thread) : Stage s' rest (s.pc u) := by
    have hcaller := h.each u
    by_cases hu : (s.pc u).waiting = some b
    · cases hp : s.pc u with
      | idle | enter | walk | returned =>
        rw [hp] at hu
        cases hu
      | test c | sleeping c | woken c =>
        rw [hp] at hu
        cases hu
        exact .inr ⟨hb, hfinished⟩
    · refine hcaller.stage.keep (fun c hc => ?_) fun hl => ?_
      · have hcb : c ≠ b := by
          rintro rfl
          have hstage := hcaller.stage
          cases hp : s.pc u with
          | idle =>
            rw [hp] at hc
            cases hc
          | enter c | walk c | returned c =>
            rw [hp] at hc hstage
            cases hc
            first | exact hstage.1 List.mem_cons_self | exact hstage.1.1 List.mem_cons_self
          | test c | sleeping c | woken c =>
            rw [hp] at hc hu
            exact hu hc
        refine ⟨by simp [hcb], ?_, congrFun harg c, fun _ => congrFun hdone c⟩
        rw [hbuf, update_of_ne hcb]
      · rw [h.unlocked hfree u] at hl
        cases hl
  constructor
  · intro u
    have hu : Caller { s' with pc := s.pc } rest u (s.pc u) := by
      refine ⟨fun c hc => ?_, fun hl => ?_, ?_⟩
      · exact (congrFun hlock c).trans ((h.each u).holds c hc)
      · rw [h.unlocked hfree u] at hl
        cases hl
      · exact hstage u
    have hw := hu.wakeup (b := b)
    rw [hpc]
    exact ⟨hw.holds, hw.idelock, hw.stage⟩
  · intro c hc
    obtain ⟨u, hu⟩ := h.present c (List.mem_cons_of_mem b hc)
    exact ⟨u, by rw [hpc, wakeup_waiting]; exact hu⟩

theorem Sound.ideintr (h : Sound s handled queue) (hfree : s.idelock = none) (hpending : 0 < s.pending)
    (hs : ideintr s = some s') : ∃ handled' queue', Sound
    { s' with pending := s'.pending - 1 } handled' queue' := by
  have hserves := h.pipeline.serves
  cases queue with
  | nil =>
    rw [hserves.2] at hpending
    cases hpending
  | cons b rest =>
    obtain ⟨hblock, ⟨_, hzero⟩ | ⟨hactive, hone, d, latch, hdone, hlatch⟩⟩ := hserves
    · rw [hzero] at hpending
      cases hpending
    have hready := h.callers.ready List.mem_cons_self
    obtain ⟨hb, hnodup⟩ := List.nodup_cons.mp h.pipeline.nodup
    have hlinked : Path (update s.link none (s.link (some b))) none (rest.map some) none := by
      refine h.pipeline.linked.2.start (update_self _ _ _) fun c hc => update_of_ne ?_ _ _
      rintro rfl
      exact none_not_mem rest hc
    have hhead : update s.link none (s.link (some b)) none = rest.head? := by
      cases rest with
      | nil => exact hlinked
      | cons c rest => exact hlinked.1
    obtain ⟨v, hv, hsettle⟩ := receive_settle hactive b
    have hbuf : update s.buf b (settle (s.buf b) s.latch) b = settle (s.buf b) s.latch := update_self _ _ _
    have hfinished {s' : State Thread Buf Data} (hbuf : s'.buf = update s.buf b (settle (s.buf b) s.latch))
        (harg : s'.arg = s.arg) (hdone' : s'.done = s.done) : Finished s' b := by
      rw [Finished, hbuf, harg, hdone', hdone, update_self, ← hready.1, hlatch]
      exact ⟨rfl, d, _, rfl, command_atomic hready.2 hblock d latch⟩
    unfold Ide.ideintr at hs
    rw [h.pipeline.idequeue, List.head?_cons] at hs
    simp only [hv, Option.bind_some, hsettle, State.idequeue, hhead] at hs
    refine ⟨handled ++ [b], rest, ?_⟩
    cases rest with
    | nil =>
      cases hs
      refine ⟨⟨hlinked, hnodup, ?_, ?_, hactive, ?_⟩, h.callers.serve hfree hb rfl rfl rfl rfl rfl
        (hfinished rfl rfl rfl)⟩
      · exact h.pipeline.queued.trans (by simp)
      · exact h.pipeline.started.trans (by simp)
      · exact congrArg (· - 1) hone
    | cons c rest =>
      obtain ⟨hnext, _, rfl⟩ := idestart_some hs
      refine ⟨⟨hlinked, hnodup, ?_, ?_, hnext, .inl ⟨rfl, ?_⟩⟩, h.callers.serve hfree hb rfl rfl rfl rfl rfl
        (hfinished rfl rfl rfl)⟩
      · exact h.pipeline.queued.trans (by simp)
      · exact (congrArg (· ++ [c]) h.pipeline.started).trans (by simp)
      · exact congrArg (· - 1) hone

end

section

variable [DecidableEq Thread] {s s' : State Thread Buf Data}
    {handled queue queue' : List Buf} {t : Thread} {b : Buf}
  {p : Pc Buf}

theorem Callers.move (h : Callers s queue) (hpc : s'.pc = update s.pc t p) (hself : Caller s' queue' t p)
    (hothers : ∀ u, u ≠ t → Caller s' queue' u (s.pc u))
    (hpresent : ∀ b ∈ queue', p.waiting = some b ∨ b ∈ queue ∧ (s.pc t).waiting ≠ some b) : Callers s' queue' where
  each u := by
    by_cases hu : u = t
    · rw [hu, hpc, update_self]
      exact hself
    · rw [hpc, update_of_ne hu]
      exact hothers u hu
  present b hb := by
    obtain hp | ⟨hmem, hne⟩ := hpresent b hb
    · exact ⟨t, by rw [hpc, update_self]; exact hp⟩
    · obtain ⟨u, hu⟩ := h.present b hmem
      have hut : u ≠ t := by
        rintro rfl
        exact hne hu
      exact ⟨u, by rw [hpc, update_of_ne hut]; exact hu⟩

theorem Sound.walk {pp : Cell Buf} {c : Buf} (h : Sound s handled queue) (hpc : s.pc t = .walk b pp)
    (hnext : s.link pp = some c) : Sound { s with pc := update s.pc t (.walk b (some c)) } handled queue := by
  have hcaller := h.callers.each t
  rw [hpc] at hcaller
  obtain ⟨hready, hlink, hpp⟩ := hcaller.stage
  have hc : some c ∈ queue.map some := by
    obtain hend | hmem := h.pipeline.linked.next_mem hpp
    · cases hnext.symm.trans hend
    · exact hnext ▸ hmem
  refine ⟨h.pipeline.keep (fun _ _ => rfl) rfl rfl h.pipeline.serves, ?_⟩
  refine h.callers.move rfl ⟨hcaller.holds, hcaller.idelock, hready, hlink, .inr hc⟩ (fun u hu => ?_)
    fun c hc => .inr ⟨hc, ?_⟩
  · exact (h.callers.each u).stay (fun _ _ => rfl) rfl rfl rfl fun _ => ⟨rfl, rfl⟩
  · rw [hpc]
    exact Option.some_ne_none c ∘ Eq.symm

theorem Sound.test (h : Sound s handled queue) (hpc : s.pc t = .test b) :
    Sound { s with
      idelock := none
      pc := update s.pc t (if (s.buf b).settled then .returned b else .sleeping b) } handled queue := by
  have hcaller := h.callers.each t
  rw [hpc] at hcaller
  have hlock := hcaller.idelock rfl
  have hothers (u : Thread) (hu : u ≠ t) (p : Pc Buf) :
      Caller { s with idelock := none, pc := update s.pc t p } queue u (s.pc u) := by
    refine (h.callers.each u).stay (fun _ _ => rfl) rfl rfl rfl fun hl => ?_
    rw [h.callers.outside (.inr hlock) hu] at hl
    cases hl
  refine ⟨h.pipeline.keep (fun _ _ => rfl) rfl rfl h.pipeline.serves, ?_⟩
  cases hsettled : (s.buf b).settled with
  | true =>
    -- a queued buffer is not settled, so the request has been served
    have hdone : b ∉ queue ∧ Finished s b := by
      obtain ⟨_, hr⟩ | hdone := hcaller.stage
      · cases hsettled.symm.trans hr.2
      · exact hdone
    refine h.callers.move rfl ⟨hcaller.holds, fun hl => ?_, hdone⟩
      (fun u hu => hothers u hu _) fun c hc => .inr ⟨hc, ?_⟩
    · cases hl
    · rw [hpc]
      rintro ⟨⟩
      exact hdone.1 hc
  | false =>
    refine h.callers.move rfl ⟨hcaller.holds, fun hl => ?_, hcaller.stage⟩ (fun u hu => hothers u hu _) fun c hc =>
      Pc.still (by rw [hpc]; rfl) hc
    cases hl

theorem Sound.woken (h : Sound s handled queue) (hpc : s.pc t = .woken b) (hfree : s.idelock = none) :
    Sound { s with idelock := some t, pc := update s.pc t (.test b) } handled queue := by
  have hcaller := h.callers.each t
  rw [hpc] at hcaller
  refine ⟨h.pipeline.keep (fun _ _ => rfl) rfl rfl h.pipeline.serves, ?_⟩
  refine h.callers.move rfl ⟨hcaller.holds, fun _ => rfl, hcaller.stage⟩ (fun u hu => ?_) fun c hc =>
    Pc.still (by rw [hpc]; rfl) hc
  refine (h.callers.each u).stay (fun _ _ => rfl) rfl rfl rfl fun hl => ?_
  rw [h.callers.unlocked hfree u] at hl
  cases hl

theorem Sound.wake (h : Sound s handled queue) (hpc : s.pc t = .sleeping b) :
    Sound { s with pc := update s.pc t (.woken b) } handled queue := by
  have hcaller := h.callers.each t
  rw [hpc] at hcaller
  refine ⟨h.pipeline.keep (fun _ _ => rfl) rfl rfl h.pipeline.serves, ?_⟩
  refine h.callers.move rfl ⟨hcaller.holds, hcaller.idelock, hcaller.stage⟩ (fun u hu => ?_) fun c hc =>
    Pc.still (by rw [hpc]; rfl) hc
  exact (h.callers.each u).stay (fun _ _ => rfl) rfl rfl rfl fun _ => ⟨rfl, rfl⟩

theorem Sound.leave (h : Sound s handled queue) (hpc : s.pc t = .returned b) :
    Sound { s with pc := update s.pc t .idle } handled queue := by
  refine ⟨h.pipeline.keep (fun _ _ => rfl) rfl rfl h.pipeline.serves, ?_⟩
  refine h.callers.move rfl ⟨fun c hc => ?_, fun hl => ?_, trivial⟩ (fun u hu => ?_) fun c hc => .inr ⟨hc, ?_⟩
  · cases hc
  · cases hl
  · exact (h.callers.each u).stay (fun _ _ => rfl) rfl rfl rfl fun _ => ⟨rfl, rfl⟩
  · rw [hpc]
    exact Option.some_ne_none c ∘ Eq.symm

end

section Steps

variable [DecidableEq Thread] [DecidableEq Buf] {s s' : State Thread Buf Data}
    {handled queue queue' : List Buf} {t : Thread}
  {b : Buf} {p : Pc Buf}

theorem Sound.iderw (h : Sound s handled queue) (hidle : s.pc t = .idle) (hs : iderw s t b = some s') :
    Sound s' handled queue := by
  unfold Ide.iderw at hs
  split at hs
  · cases hs
  split at hs
  · cases hs
  split at hs
  · cases hs
  rename_i hlock hneeds _
  rw [not_not] at hlock
  have hb := h.callers.not_queued hidle hlock
  cases hs
  constructor
  · refine h.pipeline.keep (fun _ _ => rfl) rfl rfl (h.pipeline.serves.keep rfl rfl rfl
      (fun _ _ => rfl) fun c hc => ?_)
    refine update_of_ne ?_ _ _
    rintro rfl
    exact hb hc
  · refine h.callers.move rfl ⟨fun c hc => ?_, fun hl => ?_, hb, ?_, ?_⟩ (fun u _ => ?_) fun c hc => .inr ⟨hc, ?_⟩
    · cases hc
      exact hlock
    · cases hl
    · change s.buf b = update s.arg b (s.buf b) b
      rw [update_self]
    · exact Bool.not_eq_true _ ▸ hneeds
    · refine (h.callers.each u).keep (fun _ _ => rfl) (fun c hc => ?_) fun _ => ⟨rfl, rfl, List.Subset.refl queue⟩
      have hcb : c ≠ b := by
        rintro rfl
        exact h.callers.unrequested hidle hlock u hc
      exact ⟨Iff.rfl, rfl, update_of_ne hcb _ _, fun _ => update_of_ne hcb _ _⟩
    · rw [hidle]
      exact Option.some_ne_none c ∘ Eq.symm

theorem Sound.enter (h : Sound s handled queue) (hpc : s.pc t = .enter b) (hfree : s.idelock = none) :
    Sound { s with
      idelock := some t
      link := update s.link (some b) none
      pc := update s.pc t (.walk b none) } handled queue := by
  have hcaller := h.callers.each t
  rw [hpc] at hcaller
  have hb := hcaller.stage.1
  constructor
  · refine h.pipeline.keep (fun c hc => update_of_ne ?_ _ _) rfl rfl
      (h.pipeline.serves.keep rfl rfl rfl (fun _ _ => rfl) fun _ _ => rfl)
    rintro rfl
    obtain hc | hc := hc
    · cases hc
    · exact hb ((List.mem_map_of_injective (Option.some_injective Buf)).mp hc)
  · refine h.callers.move rfl ⟨hcaller.holds, fun _ => rfl, ⟨hb, hcaller.stage.2⟩, update_self _ _ _, .inl rfl⟩
      (fun u hu => ?_) fun c hc => .inr ⟨hc, ?_⟩
    · refine (h.callers.each u).stay (fun _ _ => rfl) rfl rfl rfl fun hl => ?_
      rw [h.callers.unlocked hfree u] at hl
      cases hl
    · rw [hpc]
      exact Option.some_ne_none c ∘ Eq.symm

theorem Sound.enqueue {pp : Cell Buf} (h : Sound s handled queue)
    (hpc : s.pc t = .walk b pp) (hend : s.link pp = none)
    (hs : enqueue s t b pp = some s') : Sound s' handled (queue ++ [b]) := by
  have hcaller := h.callers.each t
  rw [hpc] at hcaller
  obtain ⟨⟨hb, hready⟩, hlink, hpp⟩ := hcaller.stage
  have hlock := hcaller.idelock rfl
  have hlinked : Path (update s.link pp (some b)) none ((queue ++ [b]).map some) none := by
    rw [List.map_append]
    refine h.pipeline.linked.snoc (none_not_mem queue) (h.pipeline.nodup.map (Option.some_injective Buf))
      ⟨?_, ?_⟩ hlink (h.pipeline.linked.last (none_not_mem queue) hpp hend)
    · exact Option.some_ne_none b
    · exact fun hm => hb ((List.mem_map_of_injective (Option.some_injective Buf)).mp hm)
  have hnodup : (queue ++ [b]).Nodup :=
    List.nodup_append'.mpr ⟨h.pipeline.nodup, List.nodup_singleton b, by simpa using hb⟩
  have hcallers (hbuf : s'.buf = s.buf) (harg : s'.arg = s.arg) (hdone : s'.done = s.done)
    (hlock' : s'.lock = s.lock)
      (hidelock : s'.idelock = s.idelock) (hpc' : s'.pc = update s.pc t (.test b)) :
      Callers s' (queue ++ [b]) := by
    refine h.callers.move hpc' ⟨fun c hc => ?_, fun _ => hidelock.trans hlock, .inl ⟨by simp, ?_⟩⟩ (fun u hu => ?_)
      fun c hc => ?_
    · rw [hlock']
      exact hcaller.holds c hc
    · rw [Ready, hbuf, harg]
      exact hready
    · refine (h.callers.each u).keep (fun c _ => congrFun hlock' c) (fun c hc => ?_) fun hl => ?_
      · have hcb : c ≠ b := by
          rintro rfl
          exact hu (h.callers.same hc (by rw [hpc]; rfl))
        exact ⟨by simp [hcb], congrFun hbuf c, congrFun harg c, fun _ => congrFun hdone c⟩
      · rw [h.callers.outside (.inr hlock) hu] at hl
        cases hl
    · obtain hc | hc := List.mem_append.mp hc
      · refine .inr ⟨hc, ?_⟩
        rw [hpc]
        exact Option.some_ne_none c ∘ Eq.symm
      · exact .inl (congrArg some (List.mem_singleton.mp hc).symm)
  unfold Ide.enqueue at hs
  have hhead : update s.link pp (some b) none = (queue ++ [b]).head? := by
    cases queue with
    | nil => exact hlinked.1
    | cons c queue => exact hlinked.1
  cases hq : queue with
  | nil =>
    rw [hq] at hhead hlinked hnodup hcallers
    simp only [State.idequeue, hhead, List.nil_append, List.head?_cons, if_true] at hs
    obtain ⟨hblock, hactive, rfl⟩ := idestart_some hs
    have hserves := h.pipeline.serves
    rw [hq] at hserves
    refine ⟨⟨hlinked, hnodup, ?_, ?_, hblock, .inl ⟨rfl, hserves.2⟩⟩, hcallers rfl rfl rfl rfl rfl rfl⟩
    · change s.queued ++ [b] = handled ++ ([] ++ [b])
      rw [h.pipeline.queued, hq, List.append_nil, List.nil_append]
    · change s.started ++ [b] = handled ++ [b]
      rw [h.pipeline.started, hq, List.take_nil, List.append_nil]
  | cons c rest =>
    have hcb : c ≠ b := by
      rintro rfl
      exact hb (hq ▸ List.mem_cons_self)
    rw [hq] at hhead hlinked hnodup hcallers
    simp only [State.idequeue, hhead, List.cons_append, List.head?_cons, Option.some.injEq, hcb, if_false] at hs
    subst hs
    have hserves := h.pipeline.serves
    rw [hq] at hserves
    refine ⟨⟨hlinked, hnodup, ?_, ?_, hserves⟩, hcallers rfl rfl rfl rfl rfl rfl⟩
    · change s.queued ++ [b] = handled ++ (c :: rest ++ [b])
      rw [h.pipeline.queued, hq, List.append_assoc]
    · change s.started = handled ++ [c]
      rw [h.pipeline.started, hq]
      rfl

theorem Sound.run (h : Sound s handled queue) (hs : runIderw s t (s.pc t) = some s') :
    ∃ handled' queue', Sound s' handled' queue' := by
  cases hpc : s.pc t with
  | idle | sleeping =>
    rw [hpc] at hs
    cases hs
  | enter b =>
    rw [hpc, runIderw] at hs
    split at hs
    · rename_i hfree
      cases hs
      exact ⟨handled, queue, h.enter hpc hfree⟩
    · cases hs
  | walk b pp =>
    rw [hpc, runIderw] at hs
    split at hs
    · rename_i c hnext
      cases hs
      exact ⟨handled, queue, h.walk hpc hnext⟩
    · rename_i hend
      exact ⟨handled, queue ++ [b], h.enqueue hpc hend hs⟩
  | test b =>
    rw [hpc] at hs
    cases hs
    exact ⟨handled, queue, h.test hpc⟩
  | woken b =>
    rw [hpc, runIderw] at hs
    split at hs
    · rename_i hfree
      cases hs
      exact ⟨handled, queue, h.woken hpc hfree⟩
    · cases hs
  | returned b =>
    rw [hpc] at hs
    cases hs
    exact ⟨handled, queue, h.leave hpc⟩

theorem Sound.step {e : Event Thread Buf Data} (h : Sound s handled queue) (hs : step s e = some s') :
    ∃ handled' queue', Sound s' handled' queue' := by
  cases e with
  | acquiresleep t b =>
    obtain ⟨⟨_, hfree⟩, ⟨⟩⟩ := Option.ite_none_right_eq_some.mp hs
    exact ⟨handled, queue, h.acquiresleep hfree⟩
  | releasesleep t b =>
    obtain ⟨⟨hidle, hlock⟩, ⟨⟩⟩ := Option.ite_none_right_eq_some.mp hs
    exact ⟨handled, queue, h.releasesleep hidle hlock⟩
  | edit b v =>
    obtain ⟨hedit, ⟨⟩⟩ := Option.ite_none_right_eq_some.mp hs
    exact ⟨handled, queue, h.edit hedit v⟩
  | iderw t b =>
    obtain ⟨hidle, hs⟩ := Option.ite_none_right_eq_some.mp hs
    exact ⟨handled, queue, h.iderw hidle hs⟩
  | run t => exact h.run hs
  | wake t =>
    simp only [Ide.step] at hs
    split at hs
    · rename_i b hpc
      cases hs
      exact ⟨handled, queue, h.wake hpc⟩
    · cases hs
  | complete => exact ⟨handled, queue, (h.complete hs).1⟩
  | ideintr =>
    obtain ⟨⟨hfree, hpending⟩, hs⟩ := Option.ite_none_right_eq_some.mp hs
    obtain ⟨s₁, hs₁, rfl⟩ := Option.map_eq_some_iff.mp hs
    exact h.ideintr hfree hpending hs₁

end Steps

section Refinement

variable [DecidableEq Thread] [DecidableEq Buf]

structure Refines (s : State Thread Buf Data) (handled queue : List Buf) : Prop where
  linked : Path s.link none (queue.map some) none
  nodup : queue.Nodup
  queued : s.queued = handled ++ queue
  started : s.started = handled ++ queue.take 1
  idle : s.idequeue = none → s.active = none ∧ s.pending = 0
  head : ∀ b, s.idequeue = some b → s.buf b = s.arg b ∧
    (s.active = some (command (s.arg b), b) ∧ s.pending = 0 ∨ s.active = none ∧
      s.pending = 1 ∧ (s.done b).isSome = true)
  returns : ∀ t b, s.pc t = .returned b → b ∉ queue ∧ (s.buf b).valid = true ∧ (s.buf b).dirty = false ∧
    ∃ d₀ d₁, s.done b = some (d₀, d₁) ∧ Atomic (s.arg b) (s.buf b) d₀ d₁
  completes : ∀ s', step s .complete = some s' → ∃ b, s.idequeue = some b ∧ s'.done b = some (s.disk, s'.disk)
  disk : ∀ e s', step s e = some s' → e = .complete ∨ s'.disk = s.disk

variable {s s' : State Thread Buf Data} {handled queue : List Buf}

omit [DecidableEq Thread] [DecidableEq Buf] in
theorem idestart_disk {b : Buf} (h : idestart s b = some s') : s'.disk = s.disk := by
  obtain ⟨_, _, rfl⟩ := idestart_some h
  rfl

omit [DecidableEq Thread] in
theorem ideintr_disk (h : ideintr s = some s') : s'.disk = s.disk := by
  unfold ideintr at h
  split at h
  · cases h
    rfl
  · obtain ⟨v, _, h⟩ := Option.bind_eq_some_iff.mp h
    simp only at h
    split at h
    · cases h
      rfl
    · exact (idestart_disk h).trans rfl

theorem runIderw_disk {t : Thread} {p : Pc Buf} (h : runIderw s t p = some s') : s'.disk = s.disk := by
  unfold runIderw at h
  split at h
  case h_1 | h_5 => cases h
  case h_2 | h_6 =>
    obtain ⟨_, ⟨⟩⟩ := Option.ite_none_right_eq_some.mp h
    rfl
  case h_3 =>
    split at h
    · cases h
      rfl
    · simp only [enqueue] at h
      split at h
      · exact (idestart_disk h).trans rfl
      · cases h
        rfl
  case h_4 | h_7 =>
    cases h
    rfl

theorem step_disk {e : Event Thread Buf Data} (h : step s e = some s') : e = .complete ∨ s'.disk = s.disk := by
  cases e with
  | acquiresleep t b | releasesleep t b | edit b v =>
    obtain ⟨_, ⟨⟩⟩ := Option.ite_none_right_eq_some.mp h
    exact .inr rfl
  | iderw t b =>
    obtain ⟨_, h⟩ := Option.ite_none_right_eq_some.mp h
    unfold iderw at h
    split at h
    · cases h
    split at h
    · cases h
    split at h
    · cases h
    cases h
    exact .inr rfl
  | run t => exact .inr (runIderw_disk h)
  | wake t =>
    simp only [step] at h
    split at h
    · cases h
      exact .inr rfl
    · cases h
  | complete => exact .inl rfl
  | ideintr =>
    obtain ⟨_, h⟩ := Option.ite_none_right_eq_some.mp h
    obtain ⟨s₁, hs₁, rfl⟩ := Option.map_eq_some_iff.mp h
    exact .inr (show s₁.disk = s.disk from ideintr_disk hs₁)

theorem Sound.refines (h : Sound s handled queue) : Refines s handled queue where
  linked := h.pipeline.linked
  nodup := h.pipeline.nodup
  queued := h.pipeline.queued
  started := h.pipeline.started
  idle hq := by
    rw [h.pipeline.idequeue, List.head?_eq_none_iff] at hq
    have hserves := h.pipeline.serves
    rw [hq] at hserves
    exact hserves
  head b hq := by
    rw [h.pipeline.idequeue] at hq
    obtain ⟨rest, rfl⟩ := List.head?_eq_some_iff.mp hq
    have hready := h.callers.ready List.mem_cons_self
    obtain ⟨_, hactive | ⟨hnone, hone, d, latch, hdone, _⟩⟩ := h.pipeline.serves
    · exact ⟨hready.1, .inl (hready.1 ▸ hactive)⟩
    · exact ⟨hready.1, .inr ⟨hnone, hone, by rw [hdone]; rfl⟩⟩
  returns t b hpc := by
    have hstage := (h.callers.each t).stage
    rw [hpc] at hstage
    obtain ⟨hb, hsettled, hatomic⟩ := hstage
    obtain ⟨hvalid, hdirty⟩ := Bool.and_eq_true_iff.mp hsettled
    exact ⟨hb, hvalid, Bool.not_eq_true' _ ▸ hdirty, hatomic⟩
  completes s' hs := (h.complete hs).2
  disk e s' hs := step_disk hs

omit [DecidableEq Thread] [DecidableEq Buf] in
theorem sound_start (havedisk1 : Bool) (disk : Disks Data) (buf : Buf → Buffer Data) :
    Sound (start havedisk1 disk buf : State Thread Buf Data) [] [] where
  pipeline := ⟨rfl, List.nodup_nil, rfl, rfl, rfl, rfl⟩
  callers := by
    refine ⟨fun t => ⟨fun b hb => ?_, fun hl => ?_, trivial⟩, fun b hb => ?_⟩
    · cases hb
    · cases hl
    · cases hb

theorem sound_reaches {havedisk1 : Bool} {disk : Disks Data} {buf : Buf → Buffer Data}
    (h : Reaches step Always (start havedisk1 disk buf) s) : ∃ handled queue, Sound s handled queue := by
  have hpreserves : Preserves step Always fun s : State Thread Buf Data => ∃ handled queue,
      Sound s handled queue := by
    intro s e s' hi _ hs
    obtain ⟨handled, queue, hsound⟩ := hi
    exact hsound.step hs
  exact h.invariant hpreserves ⟨[], [], sound_start havedisk1 disk buf⟩

theorem ide_refines_memide {havedisk1 : Bool} {disk : Disks Data} {buf : Buf → Buffer Data}
    (h : Reaches step Always (start havedisk1 disk buf) s) : ∃ handled queue, Refines s handled queue := by
  obtain ⟨handled, queue, hsound⟩ := sound_reaches h
  exact ⟨handled, queue, hsound.refines⟩

end Refinement

def writeThenRead : List (Event Bool Bool ℕ) :=
  [.acquiresleep true true, .acquiresleep false false, .iderw true true, .iderw false false, .run true, .run true,
    .run true, .complete, .run false, .run false, .run false, .run false, .ideintr,
    .run true, .run true, .complete, .ideintr, .run false, .run false]

def twoBuffers : Bool → Buffer ℕ
  | true => ⟨false, true, 1, 3, 7⟩
  | false => ⟨false, false, 1, 3, 0⟩

def bothReturned : State Bool Bool ℕ :=
  (exec step Always (start true (fun _ _ => 0) twoBuffers) writeThenRead).get (by decide +kernel)

theorem ide_refines_memide_bothReturned :
    (bothReturned.pc true = .returned true ∧ bothReturned.pc false = .returned false ∧
      (bothReturned.buf false).data = 7) ∧ ∃ handled queue, Refines bothReturned handled queue :=
  ⟨by decide +kernel, ide_refines_memide (exec_get_reaches _ writeThenRead (by decide +kernel))⟩

end Xv6.Ide
