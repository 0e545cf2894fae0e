import Xv6.BufferLists
import Xv6.Counting

namespace Xv6.BufferCache

open Xv6.Counting Function
open Xv6.LinkedLists
open Xv6.Runs

variable {n : ℕ} {Thread Data : Type}

section Invariant

def Pc.wants (b : Fin n) : Pc n → Bool
  | .locking c _ | .releasing c => c = b
  | _ => false

def weight (b : Fin n) (p : Pc n) (v : Buffer Thread Data) : ℕ :=
  (if p.wants b then 1 else 0) + if v.lock.isSome then 1 else 0

structure Coherent (s : State n Thread Data) (blockno : ℕ) (v : Data) : Prop where
  cached : ∀ b, Assigned s b blockno → (s.buf b).valid = true → (s.buf b).data = v
  stored : ∀ b, Assigned s b blockno → (s.buf b).dirty = false → s.unsaved b = false → s.disk blockno = v
  absent : (∀ b, ¬ Assigned s b blockno) → s.disk blockno = v

variable [Fintype Thread]

structure Sound (s : State n Thread Data) : Prop where
  ordered : ∃ order, Ordered s.links order
  unique : ∀ b c blockno, Assigned s b blockno → Assigned s c blockno → b = c
  refs : ∀ b, (s.buf b).refcnt = count (Pc.wants b) s.pc + if (s.buf b).lock.isSome then 1 else 0
  used : ∀ b, 0 < (s.buf b).refcnt → (s.buf b).dev = 1
  reading : ∀ t b r, s.pc t = .reading b r → (s.buf b).lock = some t ∧ (s.buf b).valid = false
  writing : ∀ t b, s.pc t = .writing b → (s.buf b).lock = some t ∧ (s.buf b).dirty = true
  held : ∀ t b, (s.buf b).lock = some t → (∀ r, s.pc t ≠ .reading b r) → (s.buf b).valid = true
  dirty : ∀ b, (s.buf b).dirty = true → (s.buf b).valid = true
  unsaved : ∀ b, s.unsaved b = true → (s.buf b).dev = 1 ∧ (s.buf b).valid = true ∧ (s.buf b).dirty = false ∧
    ((s.buf b).lock = none → s.slipped (s.buf b).blockno = true)
  coherent : ∀ blockno v, s.logged blockno = some v → s.slipped blockno = false → Coherent s blockno v
  logged : ∀ blockno, blockno ∈ s.lh ↔ (s.logged blockno).isSome = true

end Invariant

section Frames

structure Local (s s' : State n Thread Data) (b : Fin n) (t : Thread) : Prop where
  buf : ∀ c, c ≠ b → s'.buf c = s.buf c
  pc : ∀ u, u ≠ t → s'.pc u = s.pc u
  dev : (s'.buf b).dev = (s.buf b).dev
  blockno : (s'.buf b).blockno = (s.buf b).blockno
  disk : ∀ blockno, blockno ≠ (s.buf b).blockno → s'.disk blockno = s.disk blockno
  unsaved : ∀ c, c ≠ b → s'.unsaved c = s.unsaved c
  logged : ∀ blockno, blockno ≠ (s.buf b).blockno → s'.logged blockno = s.logged blockno
  slipped : ∀ blockno, blockno ≠ (s.buf b).blockno → s'.slipped blockno = s.slipped blockno
  owner : ((s.buf b).lock = none ∨ (s.buf b).lock = some t) ∧ ((s'.buf b).lock = none ∨ (s'.buf b).lock = some t) ∨
    (s'.buf b).lock = (s.buf b).lock ∧ (s'.buf b).valid = (s.buf b).valid ∧ (s'.buf b).dirty = (s.buf b).dirty
  was : ∀ c r, s.pc t = .reading c r → c = b

structure After (s' : State n Thread Data) (b : Fin n) (t : Thread) : Prop where
  reading : ∀ c r, s'.pc t = .reading c r → c = b ∧ (s'.buf b).lock = some t ∧ (s'.buf b).valid = false
  writing : ∀ c, s'.pc t = .writing c → c = b ∧ (s'.buf b).lock = some t ∧ (s'.buf b).dirty = true
  held : (s'.buf b).lock = some t → (∀ r, s'.pc t ≠ .reading b r) → (s'.buf b).valid = true
  dirty : (s'.buf b).dirty = true → (s'.buf b).valid = true
  unsaved : s'.unsaved b = true → (s'.buf b).valid = true ∧ (s'.buf b).dirty = false ∧
    ((s'.buf b).lock = none → s'.slipped (s'.buf b).blockno = true)
  coherent : ∀ v, s'.logged (s'.buf b).blockno = some v → s'.slipped (s'.buf b).blockno = false →
    ((s'.buf b).valid = true → (s'.buf b).data = v) ∧
      ((s'.buf b).dirty = false → s'.unsaved b = false → s'.disk (s'.buf b).blockno = v)

variable {s s' : State n Thread Data} {b : Fin n} {t : Thread}

theorem Local.assigned (hl : Local s s' b t) (c : Fin n) (blockno : ℕ) : Assigned s' c blockno ↔
    Assigned s c blockno := by
  unfold Assigned
  by_cases hc : c = b
  · rw [hc, hl.dev, hl.blockno]
  · rw [hl.buf c hc]

theorem Local.other_owner (hl : Local s s' b t) {u : Thread} (hu : u ≠ t) (hlock : (s.buf b).lock = some u) :
    (s'.buf b).lock = some u ∧ (s'.buf b).valid = (s.buf b).valid ∧ (s'.buf b).dirty = (s.buf b).dirty := by
  obtain ⟨hnone | hown, _⟩ | ⟨hlock', hflags⟩ := hl.owner
  · cases hnone.symm.trans hlock
  · exact absurd (Option.some.inj (hlock.symm.trans hown)) hu
  · exact ⟨hlock'.trans hlock, hflags⟩

theorem Local.other_owned (hl : Local s s' b t) {u : Thread} (hu : u ≠ t) (hlock : (s'.buf b).lock = some u) :
    (s.buf b).lock = some u ∧ (s'.buf b).valid = (s.buf b).valid ∧ (s'.buf b).dirty = (s.buf b).dirty := by
  obtain ⟨_, hnone | hown⟩ | ⟨hlock', hflags⟩ := hl.owner
  · cases hnone.symm.trans hlock
  · exact absurd (Option.some.inj (hlock.symm.trans hown)) hu
  · exact ⟨hlock'.symm.trans hlock, hflags⟩

variable [Fintype Thread] [DecidableEq Thread]

theorem count_local (hpc : ∀ u, u ≠ t → s'.pc u = s.pc u) (c : Fin n) :
    count (Pc.wants c) s'.pc + (if (s.pc t).wants c then 1 else 0) =
      count (Pc.wants c) s.pc + if (s'.pc t).wants c then 1 else 0 := by
  have hupdate : s'.pc = update s.pc t (s'.pc t) := by
    funext u
    by_cases hu : u = t
    · rw [hu, update_self]
    · rw [update_of_ne hu, hpc u hu]
  have hcount := count_update (Pc.wants c) s.pc t (s'.pc t)
  rw [← hupdate] at hcount
  exact hcount

omit [DecidableEq Thread] in
theorem Sound.coherent_local (h : Sound s) (hl : Local s s' b t) (hdev : (s.buf b).dev = 1) (ha : After s' b t)
    (blockno : ℕ) (v : Data) (hlogged : s'.logged blockno = some v) (hslipped : s'.slipped blockno = false) :
    Coherent s' blockno v := by
  have hunique (c : Fin n) (hc : Assigned s' c (s.buf b).blockno) : c = b :=
    h.unique c b _ ((hl.assigned c _).mp hc) ⟨hdev, rfl⟩
  by_cases hblockno : blockno = (s.buf b).blockno
  · subst hblockno
    obtain ⟨hvalid, hclean⟩ := ha.coherent v (hl.blockno ▸ hlogged) (hl.blockno ▸ hslipped)
    rw [hl.blockno] at hclean
    refine ⟨fun c hc => ?_, fun c hc => ?_, fun hno => absurd ⟨hl.dev.trans hdev, hl.blockno⟩ (hno b)⟩
    · rw [hunique c hc]
      exact hvalid
    · rw [hunique c hc]
      exact hclean
  · rw [hl.logged blockno hblockno] at hlogged
    rw [hl.slipped blockno hblockno] at hslipped
    have hold := h.coherent blockno v hlogged hslipped
    have hne (c : Fin n) (hc : Assigned s' c blockno) : c ≠ b := by
      rintro rfl
      exact hblockno (((hl.assigned c blockno).mp hc).2.symm)
    refine ⟨fun c hc => ?_, fun c hc => ?_, fun hno => ?_⟩
    · rw [hl.buf c (hne c hc)]
      exact hold.cached c ((hl.assigned c blockno).mp hc)
    · rw [hl.buf c (hne c hc), hl.unsaved c (hne c hc), hl.disk blockno hblockno]
      exact hold.stored c ((hl.assigned c blockno).mp hc)
    · rw [hl.disk blockno hblockno]
      exact hold.absent fun c hc => hno c ((hl.assigned c blockno).mpr hc)

theorem Sound.local (h : Sound s) (hl : Local s s' b t) (hdev : (s.buf b).dev = 1) (ha : After s' b t)
    (hordered : ∃ order, Ordered s'.links order)
    (hrefs : ∀ c, (s'.buf c).refcnt + weight c (s.pc t) (s.buf c) = (s.buf c).refcnt +
      weight c (s'.pc t) (s'.buf c))
    (hlogged : ∀ blockno, blockno ∈ s'.lh ↔ (s'.logged blockno).isSome = true) : Sound s' where
  ordered := hordered
  unique c d blockno hc hd := h.unique c d blockno ((hl.assigned c blockno).mp hc) ((hl.assigned d blockno).mp hd)
  refs c := by
    have hcount := count_local hl.pc c
    have hc := hrefs c
    have hold := h.refs c
    simp only [weight] at hc
    omega
  used c hc := by
    by_cases hcb : c = b
    · rw [hcb, hl.dev, hdev]
    · rw [hl.buf c hcb] at hc ⊢
      exact h.used c hc
  reading u c r hu := by
    by_cases hut : u = t
    · subst hut
      obtain ⟨rfl, hfacts⟩ := ha.reading c r hu
      exact hfacts
    · rw [hl.pc u hut] at hu
      obtain ⟨hlock, hvalid⟩ := h.reading u c r hu
      by_cases hcb : c = b
      · subst hcb
        obtain ⟨hlock', hvalid', _⟩ := hl.other_owner hut hlock
        exact ⟨hlock', hvalid'.trans hvalid⟩
      · rw [hl.buf c hcb]
        exact ⟨hlock, hvalid⟩
  writing u c hu := by
    by_cases hut : u = t
    · subst hut
      obtain ⟨rfl, hfacts⟩ := ha.writing c hu
      exact hfacts
    · rw [hl.pc u hut] at hu
      obtain ⟨hlock, hdirty⟩ := h.writing u c hu
      by_cases hcb : c = b
      · subst hcb
        obtain ⟨hlock', _, hdirty'⟩ := hl.other_owner hut hlock
        exact ⟨hlock', hdirty'.trans hdirty⟩
      · rw [hl.buf c hcb]
        exact ⟨hlock, hdirty⟩
  held u c hlock hu := by
    by_cases hut : u = t
    · subst hut
      by_cases hcb : c = b
      · subst hcb
        exact ha.held hlock hu
      · rw [hl.buf c hcb] at hlock ⊢
        exact h.held u c hlock fun r hr => hcb (hl.was c r hr)
    · by_cases hcb : c = b
      · subst hcb
        obtain ⟨hlock', hvalid', _⟩ := hl.other_owned hut hlock
        rw [hvalid']
        exact h.held u c hlock' fun r => hl.pc u hut ▸ hu r
      · rw [hl.buf c hcb] at hlock ⊢
        exact h.held u c hlock fun r => hl.pc u hut ▸ hu r
  dirty c hc := by
    by_cases hcb : c = b
    · subst hcb
      exact ha.dirty hc
    · rw [hl.buf c hcb] at hc ⊢
      exact h.dirty c hc
  unsaved c hc := by
    by_cases hcb : c = b
    · subst hcb
      exact ⟨hl.dev.trans hdev, ha.unsaved hc⟩
    · rw [hl.unsaved c hcb] at hc
      obtain ⟨hcdev, hvalid, hdirty, hslipped⟩ := h.unsaved c hc
      rw [hl.buf c hcb]
      refine ⟨hcdev, hvalid, hdirty, fun hlock => ?_⟩
      rw [hl.slipped]
      · exact hslipped hlock
      · intro heq
        exact hcb (h.unique c b _ ⟨hcdev, rfl⟩ ⟨hdev, heq.symm⟩)
  coherent := h.coherent_local hl hdev ha
  logged := hlogged

end Frames

section Steps

variable [Fintype Thread] {s s' : State n Thread Data} {b : Fin n} {t : Thread}

theorem Sound.congr (h : Sound s) (hbuf : s'.buf = s.buf) (hlinks : s'.links = s.links) (hdisk : s'.disk = s.disk)
    (hpc : s'.pc = s.pc) (hlh : s'.lh = s.lh) (hlogged : s'.logged = s.logged) (hunsaved : s'.unsaved = s.unsaved)
    (hslipped : s'.slipped = s.slipped) : Sound s' := by
  obtain ⟨buf, links, disk, pc, start, size, encode, lh, outstanding, commit, regs, logged, unsaved, slipped⟩ := s'
  simp only at hbuf hlinks hdisk hpc hlh hlogged hunsaved hslipped
  subst hbuf hlinks hdisk hpc hlh hlogged hunsaved hslipped
  exact ⟨h.ordered, h.unique, h.refs, h.used, h.reading, h.writing, h.held, h.dirty, h.unsaved,
    fun blockno v hv hs => ⟨(h.coherent blockno v hv hs).cached, (h.coherent blockno v hv hs).stored,
      (h.coherent blockno v hv hs).absent⟩, h.logged⟩

theorem Sound.refcnt_of_lock (h : Sound s) (hlock : (s.buf b).lock = some t) : 0 < (s.buf b).refcnt := by
  rw [h.refs, hlock]
  exact Nat.succ_pos _

theorem Sound.refcnt_of_wants (h : Sound s) (hw : (s.pc t).wants b = true) : 0 < (s.buf b).refcnt := by
  rw [h.refs]
  exact Nat.lt_add_right _ (Finset.card_pos.mpr ⟨t, by simpa using hw⟩)

theorem Sound.dev_of_lock (h : Sound s) (hlock : (s.buf b).lock = some t) : (s.buf b).dev = 1 :=
  h.used b (h.refcnt_of_lock hlock)

theorem Sound.dev_of_wants (h : Sound s) (hw : (s.pc t).wants b = true) : (s.buf b).dev = 1 :=
  h.used b (h.refcnt_of_wants hw)

theorem Sound.coherent_at (h : Sound s) (hdev : (s.buf b).dev = 1) (v : Data)
    (hlogged : s.logged (s.buf b).blockno = some v) (hslipped : s.slipped (s.buf b).blockno = false) :
    ((s.buf b).valid = true → (s.buf b).data = v) ∧
      ((s.buf b).dirty = false → s.unsaved b = false → s.disk (s.buf b).blockno = v) := by
  have hc := h.coherent _ v hlogged hslipped
  exact ⟨hc.cached b ⟨hdev, rfl⟩, hc.stored b ⟨hdev, rfl⟩⟩

theorem Sound.valid_of_idle (h : Sound s) (hidle : s.pc t = .idle) (hlock : (s.buf b).lock = some t) :
    (s.buf b).valid = true := by
  refine h.held t b hlock fun r hr => ?_
  cases hidle.symm.trans hr

variable [DecidableEq Thread] {p : Pc n} {r : Option Reg} {blockno : ℕ}

theorem Sound.stores {v : Buffer Thread Data} (h : Sound s) (hdev : (s.buf b).dev = 1)
    (hbuf : s'.buf = update s.buf b v) (hpc : s'.pc = update s.pc t p)
    (hblock : v.dev = (s.buf b).dev ∧ v.blockno = (s.buf b).blockno)
    (hdisk : ∀ blockno, blockno ≠ (s.buf b).blockno → s'.disk blockno = s.disk blockno)
    (hunsaved : ∀ c, c ≠ b → s'.unsaved c = s.unsaved c)
    (hlogged : ∀ blockno, blockno ≠ (s.buf b).blockno → s'.logged blockno = s.logged blockno)
    (hslipped : ∀ blockno, blockno ≠ (s.buf b).blockno → s'.slipped blockno = s.slipped blockno)
    (howner : ((s.buf b).lock = none ∨ (s.buf b).lock = some t) ∧ (v.lock = none ∨ v.lock = some t) ∨
      v.lock = (s.buf b).lock ∧ v.valid = (s.buf b).valid ∧ v.dirty = (s.buf b).dirty)
    (hwas : ∀ c r, s.pc t = .reading c r → c = b) (hordered : ∃ order, Ordered s'.links order)
    (hother : ∀ c, c ≠ b → p.wants c = (s.pc t).wants c)
    (hrefs : v.refcnt + weight b (s.pc t) (s.buf b) = (s.buf b).refcnt + weight b p v)
    (hlh : ∀ blockno, blockno ∈ s'.lh ↔ (s'.logged blockno).isSome = true)
    (hreading : ∀ c r, p = .reading c r → c = b ∧ v.lock = some t ∧ v.valid = false)
    (hwriting : ∀ c, p = .writing c → c = b ∧ v.lock = some t ∧ v.dirty = true)
    (hheld : v.lock = some t → (∀ r, p ≠ .reading b r) → v.valid = true) (hdirty : v.dirty = true → v.valid = true)
    (hchanged : s'.unsaved b = true → v.valid = true ∧ v.dirty = false ∧
      (v.lock = none → s'.slipped v.blockno = true))
    (hcoherent : ∀ x, s'.logged v.blockno = some x → s'.slipped v.blockno = false → (v.valid = true → v.data = x) ∧
      (v.dirty = false → s'.unsaved b = false → s'.disk v.blockno = x)) : Sound s' := by
  have hb : s'.buf b = v := by rw [hbuf, update_self]
  have ht : s'.pc t = p := by rw [hpc, update_self]
  have hc {c : Fin n} (hne : c ≠ b) : s'.buf c = s.buf c := by rw [hbuf, update_of_ne hne]
  refine h.local (b := b) (t := t) ⟨fun c => hc, fun u hu => ?_, ?_, ?_, hdisk, hunsaved,
    hlogged, hslipped, ?_, hwas⟩ hdev ⟨?_, ?_, ?_, ?_, ?_, ?_⟩ hordered (fun c => ?_) hlh
  · rw [hpc, update_of_ne hu]
  · rw [hb, hblock.1]
  · rw [hb, hblock.2]
  · rwa [hb]
  · rwa [hb, ht]
  · rwa [hb, ht]
  · rwa [hb, ht]
  · rwa [hb]
  · rwa [hb]
  · rwa [hb]
  · rw [ht]
    by_cases hcb : c = b
    · rw [hcb, hb]
      exact hrefs
    · rw [hc hcb, weight, weight, hother c hcb]

omit [Fintype Thread] [DecidableEq Thread] in
theorem not_reading (hpc : s.pc t = p) (hp : ∀ c r, p ≠ .reading c r) (c : Fin n) (r : Option Reg)
    (hr : s.pc t = .reading c r) : c = b :=
  absurd (hpc.symm.trans hr) (hp c r)

theorem wants_self (b : Fin n) (r : Option Reg) : (Pc.locking b r).wants b = true ∧
    (Pc.releasing b).wants b = true := by
  simp [Pc.wants]

theorem wants_other {c : Fin n} (hc : c ≠ b) (r : Option Reg) :
    (Pc.locking b r).wants c = false ∧ (Pc.releasing b).wants c = false := by
  simp [Pc.wants, hc.symm]

theorem Sound.found (h : Sound s) (hidle : s.pc t = .idle) (hdev : (s.buf b).dev = 1) (r : Option Reg) :
    Sound { s with
      buf := update s.buf b { s.buf b with refcnt := (s.buf b).refcnt + 1 }
      pc := update s.pc t (.locking b r) } := by
  refine h.stores hdev rfl rfl ⟨rfl, rfl⟩ (fun _ _ => rfl) (fun _ _ => rfl) (fun _ _ => rfl) (fun _ _ => rfl)
    (.inr ⟨rfl, rfl, rfl⟩) (not_reading hidle nofun) h.ordered (fun c hc => ?_) ?_ h.logged nofun nofun
    (fun hlock _ => h.valid_of_idle hidle hlock) (h.dirty b) (fun hu => (h.unsaved b hu).2) (h.coherent_at hdev)
  · rw [hidle, (wants_other hc r).1]
    rfl
  · rw [hidle, weight, weight, (wants_self b r).1]
    simp only [Pc.wants, if_true, if_false, Bool.false_eq_true]
    omega

theorem Sound.acquire (h : Sound s) (hpc : s.pc t = .locking b r) (hfree : (s.buf b).lock = none)
    (hp : (s.buf b).valid = true ∧ p = .idle ∨ (s.buf b).valid = false ∧ p = .reading b r) :
    Sound { s with
      buf := update s.buf b { s.buf b with lock := some t }
      pc := update s.pc t p } := by
  have hdev : (s.buf b).dev = 1 := h.dev_of_wants (by rw [hpc]; exact (wants_self b r).1)
  have hwants (c : Fin n) : p.wants c = false := by
    obtain ⟨_, rfl⟩ | ⟨_, rfl⟩ := hp
    · rfl
    · rfl
  refine h.stores hdev rfl rfl ⟨rfl, rfl⟩ (fun _ _ => rfl) (fun _ _ => rfl) (fun _ _ => rfl) (fun _ _ => rfl)
    (.inl ⟨.inl hfree, .inr rfl⟩) (not_reading hpc nofun) h.ordered
      (fun c hc => ?_) ?_ h.logged (fun c r' hr => ?_)
    (fun c hw => ?_) (fun _ hreading => ?_) (h.dirty b) (fun hu => ?_) (h.coherent_at hdev)
  · rw [hpc, hwants c, (wants_other hc r).1]
  · rw [hpc, weight, weight, hwants b, (wants_self b r).1, hfree]
    rfl
  · obtain ⟨_, rfl⟩ | ⟨hvalid, rfl⟩ := hp
    · cases hr
    · cases hr
      exact ⟨rfl, rfl, hvalid⟩
  · obtain ⟨_, rfl⟩ | ⟨_, rfl⟩ := hp
    · cases hw
    · cases hw
  · obtain ⟨hvalid, _⟩ | ⟨_, rfl⟩ := hp
    · exact hvalid
    · exact absurd rfl (hreading r)
  · obtain ⟨_, hvalid, hdirty, _⟩ := h.unsaved b hu
    exact ⟨hvalid, hdirty, nofun⟩

theorem Sound.bwrite (h : Sound s) (hidle : s.pc t = .idle) (hlock : (s.buf b).lock = some t) :
    Sound { s with
      buf := update s.buf b { s.buf b with dirty := true }
      pc := update s.pc t (.writing b)
      unsaved := update s.unsaved b false } := by
  have hdev := h.dev_of_lock hlock
  have hvalid := h.valid_of_idle hidle hlock
  refine h.stores hdev rfl rfl ⟨rfl, rfl⟩ (fun _ _ => rfl) (fun c hc => update_of_ne hc _ _) (fun _ _ => rfl)
    (fun _ _ => rfl) (.inl ⟨.inr hlock, .inr hlock⟩) (not_reading hidle nofun) h.ordered
    (fun c hc => ?_) ?_ h.logged nofun
    (fun c hw => ?_) (fun _ _ => hvalid) (fun _ => hvalid) (fun hu => ?_) fun v hlogged hslipped => ?_
  · rw [hidle]
    rfl
  · rw [hidle]
    rfl
  · cases hw
    exact ⟨rfl, hlock, rfl⟩
  · simp at hu
  · exact ⟨(h.coherent_at hdev v hlogged hslipped).1, nofun⟩

theorem Sound.brelse (h : Sound s) (hidle : s.pc t = .idle) (hlock : (s.buf b).lock = some t) :
    Sound { s with
      buf := update s.buf b { s.buf b with lock := none }
      pc := update s.pc t (.releasing b)
      slipped := if s.unsaved b then update s.slipped (s.buf b).blockno true else s.slipped } := by
  have hdev := h.dev_of_lock hlock
  refine h.stores hdev rfl rfl ⟨rfl, rfl⟩ (fun _ _ => rfl) (fun _ _ => rfl)
    (fun _ _ => rfl) (fun blockno hne => ?_)
    (.inl ⟨.inr hlock, .inl rfl⟩) (not_reading hidle nofun) h.ordered
      (fun c hc => ?_) ?_ h.logged nofun nofun nofun
    (h.dirty b) (fun hu => ?_) fun v hlogged hslipped => ?_
  · change (if s.unsaved b then update s.slipped (s.buf b).blockno true else s.slipped) blockno = _
    split
    · exact update_of_ne hne _ _
    · rfl
  · rw [hidle, (wants_other hc none).2]
    rfl
  · rw [hidle, weight, weight, (wants_self b none).2, hlock]
    rfl
  · obtain ⟨_, hvalid, hdirty, _⟩ := h.unsaved b hu
    refine ⟨hvalid, hdirty, fun _ => ?_⟩
    change s.unsaved b = true at hu
    simp only [hu, if_true, update_self]
  · simp only at hlogged hslipped
    cases hu : s.unsaved b with
    | true =>
      rw [hu, if_pos rfl, update_self] at hslipped
      cases hslipped
    | false =>
      rw [hu, if_neg Bool.false_ne_true] at hslipped
      have hc := h.coherent_at hdev v hlogged hslipped
      exact ⟨hc.1, fun hdirty _ => hc.2 hdirty hu⟩

theorem Sound.release (h : Sound s) (hpc : s.pc t = .releasing b) :
    Sound { s with
      buf := update s.buf b { s.buf b with refcnt := (s.buf b).refcnt - 1 }
      links := if (s.buf b).refcnt - 1 = 0 then (s.links.unlink b).pushFront b else s.links
      pc := update s.pc t .idle } := by
  have hwants : (s.pc t).wants b = true := by
    rw [hpc]
    exact (wants_self b none).2
  have hdev := h.dev_of_wants hwants
  obtain ⟨order, horder⟩ := h.ordered
  have hordered : ∃ order, Ordered (if (s.buf b).refcnt - 1 = 0 then
      (s.links.unlink b).pushFront b else s.links) order := by
    split
    · exact horder.moveFront b
    · exact ⟨order, horder⟩
  refine h.stores hdev rfl rfl ⟨rfl, rfl⟩ (fun _ _ => rfl) (fun _ _ => rfl) (fun _ _ => rfl) (fun _ _ => rfl)
    (.inr ⟨rfl, rfl, rfl⟩) (not_reading hpc nofun) hordered
      (fun c hc => ?_) ?_ h.logged nofun nofun (fun hlock _ => ?_)
    (h.dirty b) (fun hu => (h.unsaved b hu).2) (h.coherent_at hdev)
  · rw [hpc, (wants_other hc none).2]
    rfl
  · have hpos := h.refcnt_of_wants hwants
    rw [hpc, weight, weight, (wants_self b none).2]
    simp only [Pc.wants, if_true, if_false, Bool.false_eq_true]
    omega
  · refine h.held t b hlock fun r hr => ?_
    cases hpc.symm.trans hr

theorem Sound.edit (h : Sound s) (hidle : s.pc t = .idle) (hlock : (s.buf b).lock = some t) (data : Data) :
    Sound (edit s b data) := by
  have hdev := h.dev_of_lock hlock
  have hvalid := h.valid_of_idle hidle hlock
  have hpc : s.pc = update s.pc t .idle := by rw [← hidle, update_eq_self]
  refine h.stores hdev rfl hpc ⟨rfl, rfl⟩ (fun _ _ => rfl) (fun c hc => update_of_ne hc _ _)
    (fun blockno hne => update_of_ne hne _ _) (fun _ _ => rfl) (.inl
      ⟨.inr hlock, .inr hlock⟩) (not_reading hidle nofun)
    h.ordered (fun c hc => by rw [hidle]) (by rw [hidle]; rfl) (fun blockno => ?_) nofun nofun (fun _ _ => hvalid)
    (fun _ => hvalid) (fun hu => ⟨hvalid, ?_, fun hnone => ?_⟩) fun v hlogged _ =>
    ⟨fun _ => ?_, fun hdirty hu => ?_⟩
  · change blockno ∈ s.lh ↔ (update s.logged (s.buf b).blockno
      ((s.logged (s.buf b).blockno).map fun _ => data) blockno).isSome = true
    rw [h.logged]
    by_cases hb : blockno = (s.buf b).blockno
    · rw [hb, update_self, Option.isSome_map]
    · rw [update_of_ne hb]
  · simp only [BufferCache.edit, update_self] at hu ⊢
    cases hold : s.unsaved b with
    | true => exact (h.unsaved b hold).2.2.1
    | false => simpa [hold] using hu
  · cases hlock.symm.trans hnone
  · simp only [BufferCache.edit, update_self] at hlogged ⊢
    obtain ⟨_, _, hdata⟩ := Option.map_eq_some_iff.mp hlogged
    exact hdata
  · simp only [BufferCache.edit, update_self] at hdirty hu
    rw [hdirty] at hu
    simp at hu

theorem Sound.logWrite (h : Sound s) (hidle : s.pc t = .idle) (hlock : (s.buf b).lock = some t)
    (hs : logWrite s b = some s') : Sound s' := by
  unfold BufferCache.logWrite at hs
  split at hs
  · cases hs
  split at hs
  · cases hs
  cases hs
  have hdev := h.dev_of_lock hlock
  have hvalid := h.valid_of_idle hidle hlock
  have hpc : s.pc = update s.pc t .idle := by rw [← hidle, update_eq_self]
  refine h.stores hdev rfl hpc ⟨rfl, rfl⟩ (fun _ _ => rfl) (fun c hc => update_of_ne hc _ _)
    (fun blockno hne => update_of_ne hne _ _) (fun blockno hne => update_of_ne hne _ _)
    (.inl ⟨.inr hlock, .inr hlock⟩)
    (not_reading hidle nofun) h.ordered (fun c hc => by rw [hidle]) (by rw [hidle]; rfl)
    (fun blockno => ?_) nofun nofun
    (fun _ _ => hvalid) (fun _ => hvalid) (fun hu => ?_) fun v hlogged _ => ⟨fun _ => ?_, nofun⟩
  · by_cases hb : blockno = (s.buf b).blockno
    · simp only [hb, update_self, Option.isSome_some, iff_true]
      split
      · assumption
      · exact List.mem_append_right _ List.mem_cons_self
    · simp only [update_of_ne hb]
      rw [← h.logged]
      split
      · rfl
      · rw [List.mem_append, List.mem_singleton, or_iff_left hb]
  · simp at hu
  · simpa using hlogged

omit [Fintype Thread] in
theorem iderw_read (hdirty : (s.buf b).dirty = false) (hs : iderw s t b = some s') :
    s' = { s with
      buf := update s.buf b { s.buf b with valid := true, data := s.disk (s.buf b).blockno }
      pc := update s.pc t .idle } := by
  obtain ⟨⟨disk, v⟩, hv, rfl⟩ := Option.map_eq_some_iff.mp hs
  have hsync := Ide.memideSync_of_iderw hv
  rw [Ide.memideSync, if_neg (Bool.eq_false_iff.mp hdirty)] at hsync
  cases hsync
  rfl

omit [Fintype Thread] in
theorem iderw_write (hdirty : (s.buf b).dirty = true) (hs : iderw s t b = some s') :
    s' = { s with
      disk := update s.disk (s.buf b).blockno (s.buf b).data
      buf := update s.buf b { s.buf b with dirty := false, valid := true }
      pc := update s.pc t .idle } := by
  obtain ⟨⟨disk, v⟩, hv, rfl⟩ := Option.map_eq_some_iff.mp hs
  have hsync := Ide.memideSync_of_iderw hv
  rw [Ide.memideSync, if_pos hdirty] at hsync
  cases hsync
  rfl

theorem Sound.read (h : Sound s) (hpc : s.pc t = .reading b r) (hs : iderw s t b = some s') : Sound s' := by
  obtain ⟨hlock, hvalid⟩ := h.reading t b r hpc
  have hdev := h.dev_of_lock hlock
  have hdirty : (s.buf b).dirty = false := by
    rw [← Bool.not_eq_true]
    intro hdirty
    cases hvalid.symm.trans (h.dirty b hdirty)
  have hunsaved : s.unsaved b = false := by
    rw [← Bool.not_eq_true]
    intro hu
    cases hvalid.symm.trans (h.unsaved b hu).2.1
  rw [iderw_read hdirty hs]
  refine h.stores hdev rfl rfl ⟨rfl, rfl⟩ (fun _ _ => rfl) (fun _ _ => rfl) (fun _ _ => rfl) (fun _ _ => rfl)
    (.inl ⟨.inr hlock, .inr hlock⟩) (fun c r' hr => ?_) h.ordered (fun c hc => by rw [hpc]; rfl) (by rw [hpc]; rfl)
    h.logged nofun nofun (fun _ _ => rfl) (fun _ => rfl) (fun hu => ?_) fun v hlogged hslipped => ?_
  · cases hpc.symm.trans hr
    rfl
  · cases hunsaved.symm.trans hu
  · have hdisk := (h.coherent_at hdev v hlogged hslipped).2 hdirty hunsaved
    exact ⟨fun _ => hdisk, fun _ _ => hdisk⟩

theorem Sound.write (h : Sound s) (hpc : s.pc t = .writing b) (hs : iderw s t b = some s') : Sound s' := by
  obtain ⟨hlock, hdirty⟩ := h.writing t b hpc
  have hdev := h.dev_of_lock hlock
  have hvalid := h.dirty b hdirty
  rw [iderw_write hdirty hs]
  refine h.stores hdev rfl rfl ⟨rfl, rfl⟩ (fun blockno hne => update_of_ne hne _ _)
    (fun _ _ => rfl) (fun _ _ => rfl)
    (fun _ _ => rfl) (.inl ⟨.inr hlock, .inr hlock⟩) (not_reading hpc nofun) h.ordered
    (fun c hc => by rw [hpc]; rfl)
    (by rw [hpc]; rfl) h.logged nofun nofun (fun _ _ => rfl) (fun _ => rfl) (fun hu => ?_)
    fun v hlogged hslipped => ?_
  · cases hdirty.symm.trans (h.unsaved b hu).2.2.1
  · have hdata := (h.coherent_at hdev v hlogged hslipped).1 hvalid
    exact ⟨fun _ => hdata, fun _ _ => (update_self _ _ _).trans hdata⟩

theorem Sound.recycled (h : Sound s) (hidle : s.pc t = .idle) (hno : ∀ c, ¬ Assigned s c blockno)
    (hrefcnt : (s.buf b).refcnt = 0) (hdirty : (s.buf b).dirty = false) (r : Option Reg) :
    Sound { s with
      buf := update s.buf b { s.buf b with
        dev := 1, blockno := blockno, valid := false, dirty := false, refcnt := 1 }
      pc := update s.pc t (.locking b r)
      unsaved := update s.unsaved b false } := by
  have hrefs := h.refs b
  rw [hrefcnt] at hrefs
  have hlock : (s.buf b).lock = none := by
    rw [← Option.not_isSome_iff_eq_none]
    intro hlock
    rw [if_pos hlock] at hrefs
    omega
  have hassigned (c : Fin n) (hc : c ≠ b) (blockno' : ℕ) : Assigned { s with
      buf := update s.buf b { s.buf b with
        dev := 1, blockno := blockno, valid := false, dirty := false, refcnt := 1 }
      pc := update s.pc t (.locking b r)
      unsaved := update s.unsaved b false } c blockno' ↔ Assigned s c blockno' := by
    unfold Assigned
    simp only [update_of_ne hc]
  refine ⟨h.ordered, fun c d blockno' hc hd => ?_, fun c => ?_, fun c hc => ?_,
    fun u c r' hu => ?_, fun u c hu => ?_,
    fun u c hl hu => ?_, fun c hc => ?_, fun c hc => ?_, fun blockno' v hlogged hslipped => ?_, h.logged⟩
  · by_cases hcb : c = b
    · by_cases hdb : d = b
      · exact hcb.trans hdb.symm
      · have hold := (hassigned d hdb blockno').mp hd
        rw [hcb, Assigned] at hc
        simp only [update_self] at hc
        exact absurd (hc.2 ▸ hold) (hno d)
    · by_cases hdb : d = b
      · have hold := (hassigned c hcb blockno').mp hc
        rw [hdb, Assigned] at hd
        simp only [update_self] at hd
        exact absurd (hd.2 ▸ hold) (hno c)
      · exact h.unique c d blockno' ((hassigned c hcb blockno').mp hc) ((hassigned d hdb blockno').mp hd)
  · have hcount := count_update (Pc.wants c) s.pc t (.locking b r)
    have hold := h.refs c
    rw [hidle] at hcount
    by_cases hcb : c = b
    · subst hcb
      rw [(wants_self c r).1] at hcount
      simp only [update_self, hlock, Option.isSome_none, Bool.false_eq_true, if_false] at hold hrefs ⊢
      simp only [Pc.wants, Bool.false_eq_true, if_false, if_true] at hcount
      omega
    · rw [(wants_other hcb r).1] at hcount
      simp only [update_of_ne hcb]
      simp only [Pc.wants, Bool.false_eq_true, if_false] at hcount hold ⊢
      omega
  · by_cases hcb : c = b
    · simp only [hcb, update_self]
    · simp only [update_of_ne hcb] at hc ⊢
      exact h.used c hc
  · have hut : u ≠ t := by
      rintro rfl
      simp at hu
    simp only [update_of_ne hut] at hu
    obtain ⟨hl, hv⟩ := h.reading u c r' hu
    have hcb : c ≠ b := by
      rintro rfl
      cases hlock.symm.trans hl
    simp only [update_of_ne hcb]
    exact ⟨hl, hv⟩
  · have hut : u ≠ t := by
      rintro rfl
      simp at hu
    simp only [update_of_ne hut] at hu
    obtain ⟨hl, hd⟩ := h.writing u c hu
    have hcb : c ≠ b := by
      rintro rfl
      cases hlock.symm.trans hl
    simp only [update_of_ne hcb]
    exact ⟨hl, hd⟩
  · by_cases hcb : c = b
    · simp only [hcb, update_self] at hl
      cases hlock.symm.trans hl
    · simp only [update_of_ne hcb] at hl ⊢
      refine h.held u c hl fun r' hr => ?_
      have hut : u ≠ t := by
        rintro rfl
        cases hidle.symm.trans hr
      apply hu r'
      simp only [update_of_ne hut]
      exact hr
  · by_cases hcb : c = b
    · simp only [hcb, update_self] at hc
      cases hc
    · simp only [update_of_ne hcb] at hc ⊢
      exact h.dirty c hc
  · by_cases hcb : c = b
    · simp only [hcb, update_self] at hc
      cases hc
    · simp only [update_of_ne hcb] at hc ⊢
      exact h.unsaved c hc
  · have hold := h.coherent blockno' v hlogged hslipped
    -- the block that leaves the cache was clean, and the one that enters it was not cached
    have hdisk (hb : Assigned s b blockno' ∨ blockno' = blockno) : s.disk blockno' = v := by
      obtain hb | rfl := hb
      · refine hold.stored b hb hdirty ?_
        rw [← Bool.not_eq_true]
        intro hu
        have hs := (h.unsaved b hu).2.2.2 hlock
        rw [hb.2] at hs
        cases hslipped.symm.trans hs
      · exact hold.absent hno
    refine ⟨fun c hc hv => ?_, fun c hc => ?_, fun hnone => ?_⟩
    · by_cases hcb : c = b
      · simp only [hcb, update_self] at hv
        cases hv
      · simp only [update_of_ne hcb] at hv ⊢
        exact hold.cached c ((hassigned c hcb blockno').mp hc) hv
    · by_cases hcb : c = b
      · rw [hcb, Assigned] at hc
        simp only [update_self] at hc
        exact fun _ _ => hdisk (.inr hc.2.symm)
      · simp only [update_of_ne hcb]
        exact hold.stored c ((hassigned c hcb blockno').mp hc)
    · by_cases hb : Assigned s b blockno'
      · exact hdisk (.inl hb)
      · refine hold.absent fun c hc => ?_
        have hcb : c ≠ b := by
          rintro rfl
          exact hb hc
        exact hnone c ((hassigned c hcb blockno').mpr hc)

theorem Sound.bget (h : Sound s) (hidle : s.pc t = .idle)
    (hs : bget s t blockno r = some s') : Sound s' := by
  obtain ⟨order, horder⟩ := h.ordered
  cases bget_got horder hs with
  | found b hb => exact h.found hidle hb.1 r
  | recycled b hno hrefcnt hdirty => exact h.recycled hidle hno hrefcnt hdirty r

end Steps

end Xv6.BufferCache
