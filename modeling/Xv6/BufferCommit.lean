import Xv6.BufferPinning

namespace Xv6.BufferCache

open Xv6.LinkedLists Function
open Xv6.Runs

variable {n : ℕ} {Thread Data : Type}

section Acts

variable [DecidableEq Thread]

inductive Act (s : State n Thread Data) (t : Thread) : State n Thread Data → Prop
  | bget {blockno : ℕ} {r : Option Reg} {s' : State n Thread Data} (hidle : s.pc t = .idle)
      (hs : bget s t blockno r = some s') :
      Act s t s'
  | bwrite {b : Fin n} {s' : State n Thread Data} (hidle : s.pc t = .idle) (hs : bwrite s t b = some s') :
      Act s t s'
  | brelse {b : Fin n} {s' : State n Thread Data} (hidle : s.pc t = .idle) (hs : brelse s t b = some s') :
      Act s t s'
  | logWrite {b : Fin n} {s' : State n Thread Data} (hidle : s.pc t = .idle) (hlock : (s.buf b).lock = some t)
      (hs : logWrite s b = some s') : Act s t s'
  | edit {b : Fin n} (hidle : s.pc t = .idle) (hlock : (s.buf b).lock = some t) (data : Data) :
      Act s t (edit s b data)
  | acquire {b : Fin n} {r : Option Reg} {p : Pc n} (hpc : s.pc t = .locking b r) (hfree : (s.buf b).lock = none)
      (hp : (s.buf b).valid = true ∧ p = .idle ∨ (s.buf b).valid = false ∧ p = .reading b r) : Act s t { s with
        buf := Function.update s.buf b { s.buf b with lock := some t }
        pc := Function.update s.pc t p }
  | read {b : Fin n} {r : Option Reg} {s' : State n Thread Data} (hpc : s.pc t = .reading b r)
      (hs : iderw s t b = some s') : Act s t s'
  | write {b : Fin n} {s' : State n Thread Data} (hpc : s.pc t = .writing b) (hs : iderw s t b = some s') :
      Act s t s'
  | release {b : Fin n} (hpc : s.pc t = .releasing b) : Act s t { s with
      buf := Function.update s.buf b { s.buf b with refcnt := (s.buf b).refcnt - 1 }
      links := if (s.buf b).refcnt - 1 = 0 then (s.links.unlink b).pushFront b else s.links
      pc := Function.update s.pc t .idle }

variable {s s' : State n Thread Data} {t u : Thread} {b : Fin n}

theorem bwrite_some (h : bwrite s t b = some s') : (s.buf b).lock = some t ∧ s' = { s with
    buf := update s.buf b { s.buf b with dirty := true }
    pc := update s.pc t (.writing b)
    unsaved := update s.unsaved b false } := by
  obtain ⟨hlock, hs⟩ := Option.ite_none_right_eq_some.mp h
  exact ⟨hlock, (Option.some.inj hs).symm⟩

theorem brelse_some (h : brelse s t b = some s') : (s.buf b).lock = some t ∧ s' = { s with
    buf := update s.buf b { s.buf b with lock := none }
    pc := update s.pc t (.releasing b)
    slipped := if s.unsaved b then update s.slipped (s.buf b).blockno true else s.slipped } := by
  obtain ⟨hlock, hs⟩ := Option.ite_none_right_eq_some.mp h
  exact ⟨hlock, (Option.some.inj hs).symm⟩

omit [DecidableEq Thread] in
theorem logWrite_some (h : logWrite s b = some s') : 1 ≤ s.outstanding ∧ s' = { s with
    lh := if (s.buf b).blockno ∈ s.lh then s.lh else s.lh ++ [(s.buf b).blockno]
    buf := update s.buf b { s.buf b with dirty := true }
    logged := update s.logged (s.buf b).blockno (some (s.buf b).data)
    unsaved := update s.unsaved b false
    slipped := update s.slipped (s.buf b).blockno false } := by
  unfold logWrite at h
  split at h
  · cases h
  split at h
  · cases h
  rename_i hout
  exact ⟨Int.not_lt.mp hout, (Option.some.inj h).symm⟩

theorem iderw_some (h : iderw s t b = some s') : ∃ disk v, v.dev = (s.buf b).dev ∧ v.blockno = (s.buf b).blockno ∧
    s' = { s with
      disk := disk
      buf := update s.buf b { s.buf b with toBuffer := v }
      pc := update s.pc t .idle } := by
  obtain ⟨⟨disk, v⟩, hv, rfl⟩ := Option.map_eq_some_iff.mp h
  have hsync := Ide.memideSync_of_iderw hv
  have hkept : v.dev = (s.buf b).dev ∧ v.blockno = (s.buf b).blockno := by
    unfold Ide.memideSync at hsync
    split at hsync
    · cases hsync
      exact ⟨rfl, rfl⟩
    · cases hsync
      exact ⟨rfl, rfl⟩
  exact ⟨disk, v, hkept.1, hkept.2, rfl⟩

theorem Act.sound [Fintype Thread] (h : Sound s) (ha : Act s t s') : Sound s' := by
  cases ha with
  | bget hidle hs => exact h.bget hidle hs
  | bwrite hidle hs =>
    obtain ⟨hlock, rfl⟩ := bwrite_some hs
    exact h.bwrite hidle hlock
  | brelse hidle hs =>
    obtain ⟨hlock, rfl⟩ := brelse_some hs
    exact h.brelse hidle hlock
  | logWrite hidle hlock hs => exact h.logWrite hidle hlock hs
  | edit hidle hlock data => exact h.edit hidle hlock data
  | acquire hpc hfree hp => exact h.acquire hpc hfree hp
  | read hpc hs => exact h.read hpc hs
  | write hpc hs => exact h.write hpc hs
  | release hpc => exact h.release hpc

structure Keeps (s s' : State n Thread Data) (t : Thread) : Prop where
  pc : ∀ u, u ≠ t → s'.pc u = s.pc u
  pinned : ∀ b, 0 < (s.buf b).refcnt ∨ (s.buf b).dirty = true →
    (s'.buf b).dev = (s.buf b).dev ∧ (s'.buf b).blockno = (s.buf b).blockno
  locks : ∀ b u, (s.buf b).lock = some u → (s'.buf b).lock = some u ∨ u = t ∧
    s.pc t = .idle ∧ s'.pc t = .releasing b
  lh : s'.lh = s.lh ∨ 1 ≤ s.outstanding
  regs : s'.regs = s.regs
  commit : s'.commit = s.commit
  outstanding : s'.outstanding = s.outstanding

def Pins (s s' : State n Thread Data) : Prop :=
  ∀ b, 0 < (s.buf b).refcnt ∨ (s.buf b).dirty = true →
    (s'.buf b).dev = (s.buf b).dev ∧ (s'.buf b).blockno = (s.buf b).blockno

omit [DecidableEq Thread] in
theorem Pins.of_eq (h : s'.buf = s.buf) : Pins s s' := fun b _ => by rw [h]; exact ⟨rfl, rfl⟩

theorem Keeps.of_update {v : Buffer Thread Data} {p : Pc n} (hbuf : s'.buf = update s.buf b v)
    (hpc : s'.pc = update s.pc t p) (hdev : v.dev = (s.buf b).dev) (hblockno : v.blockno = (s.buf b).blockno)
    (hlock : ∀ u, (s.buf b).lock = some u → v.lock = some u ∨ u = t ∧ s.pc t = .idle ∧ p = .releasing b)
    (hlh : s'.lh = s.lh ∨ 1 ≤ s.outstanding) (hregs : s'.regs = s.regs) (hcommit : s'.commit = s.commit)
    (hout : s'.outstanding = s.outstanding) : Keeps s s' t where
  pc u hu := by rw [hpc, update_of_ne hu]
  pinned c _ := by
    rw [hbuf]
    by_cases hc : c = b
    · rw [hc, update_self]
      exact ⟨hdev, hblockno⟩
    · rw [update_of_ne hc]
      exact ⟨rfl, rfl⟩
  locks c u hu := by
    rw [hbuf, hpc, update_self]
    by_cases hc : c = b
    · rw [hc, update_self]
      exact hlock u (hc ▸ hu)
    · rw [update_of_ne hc]
      exact .inl hu
  lh := hlh
  regs := hregs
  commit := hcommit
  outstanding := hout

theorem Act.keeps {order : List (Fin n)} (horder : Ordered s.links order) (ha : Act s t s') : Keeps s s' t := by
  cases ha with
  | bget hidle hs =>
    cases bget_got horder hs with
    | found b hb => exact Keeps.of_update rfl rfl rfl rfl (fun u hu => .inl hu) (.inl rfl) rfl rfl rfl
    | recycled b hno hrefcnt hdirty =>
      refine ⟨fun u hu => update_of_ne hu _ _, fun c hc => ?_, fun c u hu => ?_, .inl rfl, rfl, rfl, rfl⟩
      · have hcb : c ≠ b := by
          rintro rfl
          rw [hrefcnt, hdirty] at hc
          simp at hc
        simp only [update_of_ne hcb, and_self]
      · refine .inl ?_
        by_cases hcb : c = b
        · simp only [hcb, update_self]
          exact hcb ▸ hu
        · simp only [update_of_ne hcb]
          exact hu
  | bwrite hidle hs =>
    obtain ⟨_, rfl⟩ := bwrite_some hs
    exact Keeps.of_update rfl rfl rfl rfl (fun u hu => .inl hu) (.inl rfl) rfl rfl rfl
  | brelse hidle hs =>
    obtain ⟨hlock, rfl⟩ := brelse_some hs
    exact Keeps.of_update rfl rfl rfl rfl (fun u hu => .inr ⟨Option.some.inj (hu.symm.trans hlock), hidle, rfl⟩)
      (.inl rfl)
      rfl rfl rfl
  | logWrite hidle _ hs =>
    obtain ⟨hout, rfl⟩ := logWrite_some hs
    exact Keeps.of_update rfl (update_eq_self t s.pc).symm rfl rfl (fun u hu => .inl hu) (.inr hout) rfl rfl rfl
  | edit hidle _ data =>
    exact Keeps.of_update rfl (update_eq_self t s.pc).symm rfl rfl (fun u hu => .inl hu) (.inl rfl) rfl rfl rfl
  | acquire hpc hfree _ =>
    refine Keeps.of_update rfl rfl rfl rfl (fun u hu => ?_) (.inl rfl) rfl rfl rfl
    cases hfree.symm.trans hu
  | read _ hs | write _ hs =>
    obtain ⟨disk, v, hdev, hblockno, rfl⟩ := iderw_some hs
    exact Keeps.of_update rfl rfl hdev hblockno (fun u hu => .inl hu) (.inl rfl) rfl rfl rfl
  | release _ => exact Keeps.of_update rfl rfl rfl rfl (fun u hu => .inl hu) (.inl rfl) rfl rfl rfl

theorem Sound.keeps [Fintype Thread] (h : Sound s) (ha : Act s t s') : Keeps s s' t := by
  obtain ⟨order, horder⟩ := h.ordered
  exact ha.keeps horder

end Acts

section Commit

def Fits : List ℕ → (Reg → Option ℕ) → List Call → Prop
  | _, _, [] => True
  | lh, _, .commit :: rest => Fits lh (fun _ => none) rest ∧ Fits [] (fun _ => none) rest
  | lh, _, .writeLog _ :: rest | lh, _, .writeHead :: rest | lh, _, .installTrans _ :: rest =>
    Fits lh (fun _ => none) rest
  | _, _, .clear :: rest => Fits [] (fun _ => none) rest
  | lh, held, .bread r blockno :: rest =>
    (r = .dbuf → blockno ∈ lh) ∧ Fits lh (Function.update held r (some blockno)) rest
  | lh, held, .memmove dst src :: rest => (held dst).isSome = true ∧ (held src).isSome = true ∧ Fits lh held rest
  | lh, held, .header r :: rest => (held r).isSome = true ∧ Fits lh held rest
  | lh, held, .bwrite _ :: rest => Fits lh held rest
  | lh, _, .brelse _ :: rest => Fits lh (fun _ => none) rest

def Pc.receives (r : Reg) : Pc n → Option (Fin n)
  | .locking b r' | .reading b r' => if r' = some r then some b else none
  | _ => none

def Holds (s : State n Thread Data) (t : Thread) (r : Reg) (blockno : ℕ) : Prop :=
  ∃ b, Assigned s b blockno ∧ ((s.pc t).receives r = some b ∨
    (s.pc t).receives r = none ∧ s.regs r = some b ∧ (s.buf b).lock = some t)

def Ready (s : State n Thread Data) (t : Thread) (calls : List Call) : Prop :=
  ∃ held, Fits s.lh held calls ∧ ∀ r blockno, held r = some blockno → Holds s t r blockno ∧
  (r = .dbuf → blockno ∈ s.lh)

structure Committing (s : State n Thread Data) : Prop where
  receiver : ∀ u b r, (s.pc u).receives r = some b → ∃ calls, s.commit = some (u, calls)
  quiet : s.commit.isSome = true → s.outstanding = 0
  ready : ∀ t calls, s.commit = some (t, calls) → Ready s t calls

variable {s s' : State n Thread Data} {t u : Thread} {b : Fin n} {calls rest : List Call} {r : Reg} {blockno : ℕ}

theorem Ready.of_fits (h : Fits s.lh (fun _ => none) calls) : Ready s t calls :=
  ⟨fun _ => none, h, fun _ _ hr => by cases hr⟩

theorem Keeps.assigned (hk : Keeps s s' u) (hb : Assigned s b blockno) (hpos : 0 < (s.buf b).refcnt) :
    Assigned s' b blockno := by
  obtain ⟨hdev, hblockno⟩ := hk.pinned b (.inl hpos)
  exact ⟨hdev.trans hb.1, hblockno.trans hb.2⟩

theorem receives_cases (h : (s.pc t).receives r = some b) : s.pc t = .locking b (some r) ∨
    s.pc t = .reading b (some r) := by
  cases hpc : s.pc t with
  | idle | writing | releasing =>
    rw [hpc] at h
    cases h
  | locking c r' =>
    rw [hpc, Pc.receives] at h
    obtain ⟨rfl, ⟨⟩⟩ := Option.ite_none_right_eq_some.mp h
    exact .inl rfl
  | reading c r' =>
    rw [hpc, Pc.receives] at h
    obtain ⟨rfl, ⟨⟩⟩ := Option.ite_none_right_eq_some.mp h
    exact .inr rfl

variable [Fintype Thread]

theorem Sound.refcnt_of_receives (h : Sound s) (hr : (s.pc t).receives r = some b) : 0 < (s.buf b).refcnt := by
  obtain hpc | hpc := receives_cases hr
  · exact h.refcnt_of_wants (by rw [hpc]; exact (wants_self b (some r)).1)
  · exact h.refcnt_of_lock (h.reading t b _ hpc).1

theorem Holds.other (hh : Holds s t r blockno) (h : Sound s) (hk : Keeps s s' u) (hne : t ≠ u) :
    Holds s' t r blockno := by
  obtain ⟨b, hb, hr | ⟨hr, hreg, hlock⟩⟩ := hh
  · refine ⟨b, hk.assigned hb (h.refcnt_of_receives hr), .inl ?_⟩
    rw [hk.pc t hne]
    exact hr
  · refine ⟨b, hk.assigned hb (h.refcnt_of_lock hlock), .inr ⟨?_, ?_, ?_⟩⟩
    · rw [hk.pc t hne]
      exact hr
    · rw [hk.regs]
      exact hreg
    · obtain hlock' | ⟨rfl, _⟩ := hk.locks b t hlock
      · exact hlock'
      · exact absurd rfl hne

theorem Holds.own (hh : Holds s t r blockno) (h : Sound s) (hk : Keeps s s' t) (hr : (s.pc t).receives r = none)
    (hr' : (s'.pc t).receives r = none) (hrelease : ∀ b, ¬ (s.pc t = .idle ∧ s'.pc t = .releasing b)) :
    Holds s' t r blockno := by
  obtain ⟨b, hb, hrb | ⟨_, hreg, hlock⟩⟩ := hh
  · cases hr.symm.trans hrb
  · refine ⟨b, hk.assigned hb (h.refcnt_of_lock hlock), .inr ⟨hr', ?_, ?_⟩⟩
    · rw [hk.regs]
      exact hreg
    · obtain hlock' | ⟨_, hno⟩ := hk.locks b t hlock
      · exact hlock'
      · exact absurd hno (hrelease b)

theorem Holds.assign {r' : Option Reg} (hh : Holds s t r blockno) (h : Sound s) (hk : Keeps s s' t)
    (hpc : s.pc t = .locking b r' ∨ s.pc t = .reading b r') (hidle : s'.pc t = .idle)
    (hlock : (s'.buf b).lock = some t) : Holds (s'.assign r' b) t r blockno := by
  have hreceives : (s.pc t).receives r = if r' = some r then some b else none := by
    obtain hpc | hpc := hpc
    · rw [hpc, Pc.receives]
    · rw [hpc, Pc.receives]
  by_cases hr : r' = some r
  · subst hr
    rw [if_pos rfl] at hreceives
    obtain ⟨c, hc, hrc | ⟨hrc, _⟩⟩ := hh
    · cases hreceives.symm.trans hrc
      refine ⟨b, hk.assigned hc (h.refcnt_of_receives hreceives), .inr ⟨?_, update_self _ _ _, hlock⟩⟩
      change (s'.pc t).receives r = none
      rw [hidle]
      rfl
    · cases hreceives.symm.trans hrc
  · rw [if_neg hr] at hreceives
    have hkept : Holds s' t r blockno := by
      refine hh.own h hk hreceives (by rw [hidle]; rfl) fun c hc => ?_
      cases hidle.symm.trans hc.2
    obtain ⟨c, hc, hrc | ⟨hrc, hreg, hlock'⟩⟩ := hkept
    · rw [hidle] at hrc
      cases hrc
    · cases r' with
      | none => exact ⟨c, hc, .inr ⟨hrc, hreg, hlock'⟩⟩
      | some r'' =>
        refine ⟨c, hc, .inr ⟨hrc, ?_, hlock'⟩⟩
        change update s'.regs r'' (some b) r = some c
        rw [update_of_ne, hreg]
        rintro rfl
        exact hr rfl

omit [Fintype Thread] in
theorem Keeps.lh_of_commit (hc : Committing s) (hk : Keeps s s' u) (hcommit : s.commit.isSome = true) :
    s'.lh = s.lh := by
  obtain hlh | hout := hk.lh
  · exact hlh
  · rw [hc.quiet hcommit] at hout
    cases hout

theorem Committing.other (hc : Committing s) (h : Sound s) (hk : Keeps s s' u)
    (hfree : ∀ calls, s.commit ≠ some (u, calls)) (hpc : ∀ r, (s'.pc u).receives r = none) : Committing s' where
  receiver v b r hv := by
    have hvu : v ≠ u := by
      rintro rfl
      cases (hpc r).symm.trans hv
    rw [hk.pc v hvu] at hv
    rw [hk.commit]
    exact hc.receiver v b r hv
  quiet hsome := by
    rw [hk.commit] at hsome
    rw [hk.outstanding]
    exact hc.quiet hsome
  ready t calls hcommit := by
    rw [hk.commit] at hcommit
    have hne : t ≠ u := by
      rintro rfl
      exact hfree calls hcommit
    have hlh := hk.lh_of_commit hc (by rw [hcommit]; rfl)
    obtain ⟨held, hfits, hheld⟩ := hc.ready t calls hcommit
    refine ⟨held, by rw [hlh]; exact hfits, fun r blockno hr => ?_⟩
    obtain ⟨hholds, hmem⟩ := hheld r blockno hr
    exact ⟨hholds.other h hk hne, by rw [hlh]; exact hmem⟩

omit [Fintype Thread] in
theorem Committing.self (hc : Committing s) (hcommit : s.commit = some (t, calls))
    (hk : ∀ u, u ≠ t → s'.pc u = s.pc u)
    (hcommit' : s'.commit = some (t, rest)) (hout : s'.outstanding = s.outstanding) (hready : Ready s' t rest) :
    Committing s' where
  receiver v b r hv := by
    by_cases hvt : v = t
    · exact ⟨rest, hvt ▸ hcommit'⟩
    · rw [hk v hvt] at hv
      obtain ⟨calls', hcalls⟩ := hc.receiver v b r hv
      cases hcommit.symm.trans hcalls
      exact absurd rfl hvt
  quiet _ := hout.trans (hc.quiet (by rw [hcommit]; rfl))
  ready u calls' hu := by
    cases hcommit'.symm.trans hu
    exact hready

end Commit

section Runs

variable [Fintype Thread] [DecidableEq Thread] {s s' : State n Thread Data} {t : Thread}
    {b : Fin n} {calls rest : List Call}

structure Safe (s : State n Thread Data) : Prop where
  sound : Sound s
  committing : Committing s

omit [DecidableEq Thread] in
theorem Sound.push (h : Sound s) (t : Thread) (calls : List Call) : Sound (s.push t calls) :=
  h.congr rfl rfl rfl rfl rfl rfl rfl rfl

omit [DecidableEq Thread] in
theorem Sound.assign (h : Sound s) (r : Option Reg) (b : Fin n) : Sound (s.assign r b) := by
  cases r with
  | none => exact h
  | some r => exact h.congr rfl rfl rfl rfl rfl rfl rfl rfl

omit [DecidableEq Thread] in
theorem Sound.clear (h : Sound s) : Sound { s with lh := [], logged := fun _ => none } := by
  refine ⟨h.ordered, h.unique, h.refs, h.used, h.reading, h.writing, h.held, h.dirty,
    h.unsaved, fun _ _ hv => ?_, ?_⟩
  · cases hv
  · simp

theorem Safe.act (h : Safe s) (hcommit : s.commit = some (t, calls)) (hidle : s.pc t = .idle)
    (ha : Act (s.push t rest) t s') {held : Reg → Option ℕ} (hfits : Fits s.lh held rest)
    (hheld : ∀ r blockno, held r = some blockno → Holds s t r blockno ∧ (r = .dbuf → blockno ∈ s.lh))
    (hnone : ∀ r, (s'.pc t).receives r = none) (hrelease : ∀ b, s'.pc t ≠ .releasing b) : Safe s' ∧ Pins s s' := by
  have hsound := h.sound.push t rest
  have hk := hsound.keeps ha
  have hsome : s.commit.isSome = true := by
    rw [hcommit]
    rfl
  have hlh : s'.lh = s.lh := by
    obtain hlh | hout := hk.lh
    · exact hlh
    · rw [show (s.push t rest).outstanding = 0 from h.committing.quiet hsome] at hout
      cases hout
  refine ⟨⟨ha.sound hsound, h.committing.self hcommit hk.pc hk.commit hk.outstanding
    ⟨held, by rw [hlh]; exact hfits, fun r blockno hr => ?_⟩⟩, hk.pinned⟩
  obtain ⟨hholds, hmem⟩ := hheld r blockno hr
  refine ⟨?_, by rw [hlh]; exact hmem⟩
  have hpush : Holds (s.push t rest) t r blockno := hholds
  refine hpush.own hsound hk ?_ (hnone r) fun c hc => hrelease c hc.2
  change (s.pc t).receives r = none
  rw [hidle]
  rfl

variable {r : Reg} {blockno : ℕ}

theorem Safe.commitBread (h : Safe s) (hcommit : s.commit = some (t, .bread r blockno :: rest))
    (hidle : s.pc t = .idle) (hs : bget (s.push t rest) t blockno (some r) = some s') : Safe s' ∧ Pins s s' := by
  have hsound := h.sound.push t rest
  obtain ⟨order, horder⟩ := hsound.ordered
  have ha : Act (s.push t rest) t s' := .bget hidle hs
  have hk := ha.keeps horder
  obtain ⟨held, ⟨hdbuf, hfits⟩, hheld⟩ := h.committing.ready t _ hcommit
  obtain ⟨b, hpc, hb, hlh⟩ : ∃ b, s'.pc t = .locking b (some r) ∧ Assigned s' b blockno ∧ s'.lh = s.lh := by
    cases bget_got horder hs with
    | found b hb => exact ⟨b, update_self _ _ _, by simpa [Assigned] using hb, rfl⟩
    | recycled b => exact ⟨b, update_self _ _ _, by simp [Assigned], rfl⟩
  refine ⟨⟨ha.sound hsound, h.committing.self hcommit hk.pc hk.commit hk.outstanding
    ⟨update held r (some blockno), by rw [hlh]; exact hfits, fun r' blockno' hr => ?_⟩⟩, hk.pinned⟩
  rw [hlh]
  by_cases hrr : r' = r
  · subst hrr
    rw [update_self] at hr
    cases hr
    refine ⟨⟨b, hb, .inl ?_⟩, hdbuf⟩
    rw [hpc, Pc.receives, if_pos rfl]
  · rw [update_of_ne hrr] at hr
    obtain ⟨hholds, hmem⟩ := hheld r' blockno' hr
    have hpush : Holds (s.push t rest) t r' blockno' := hholds
    refine ⟨hpush.own hsound hk ?_ ?_ fun c hc => ?_, hmem⟩
    · change (s.pc t).receives r' = none
      rw [hidle]
      rfl
    · rw [hpc, Pc.receives, if_neg]
      rintro ⟨⟩
      exact hrr rfl
    · cases hpc.symm.trans hc.2

omit [Fintype Thread] [DecidableEq Thread] in
theorem Holds.idle (hh : Holds s t r blockno) (hidle : s.pc t = .idle) :
    ∃ b, Assigned s b blockno ∧ s.regs r = some b ∧ (s.buf b).lock = some t := by
  obtain ⟨b, hb, hr | ⟨_, hreg, hlock⟩⟩ := hh
  · rw [hidle] at hr
    cases hr
  · exact ⟨b, hb, hreg, hlock⟩

theorem Safe.commitEdit {c : Call} (h : Safe s) (hcommit : s.commit = some (t, c :: rest)) (hidle : s.pc t = .idle)
    (hfits : ∀ held, Fits s.lh held (c :: rest) → (held r).isSome = true ∧
      Fits s.lh held rest) (hb : s.regs r = some b)
    (data : Data) : Safe (edit (s.push t rest) b data) ∧ Pins s (edit (s.push t rest) b data) := by
  obtain ⟨held, hcalls, hheld⟩ := h.committing.ready t _ hcommit
  obtain ⟨hr, hrest⟩ := hfits held hcalls
  obtain ⟨blockno, hblockno⟩ := Option.isSome_iff_exists.mp hr
  obtain ⟨b', _, hreg, hlock⟩ := (hheld r blockno hblockno).1.idle hidle
  cases hb.symm.trans hreg
  have hpc : (edit (s.push t rest) b data).pc t = .idle := hidle
  have ha : Act (s.push t rest) t (edit (s.push t rest) b data) :=
    Act.edit (s := s.push t rest) hidle hlock data
  refine h.act hcommit hidle ha hrest hheld (fun r' => ?_) fun c hc => ?_
  · rw [hpc]
    rfl
  · cases hpc.symm.trans hc

omit [DecidableEq Thread] in
theorem Safe.pushed (h : Safe s) (hcommit : s.commit = some (t, calls)) (hfits : Fits s.lh (fun _ => none) rest) :
    Safe (s.push t rest) ∧ Pins s (s.push t rest) :=
  ⟨⟨h.sound.push t rest, h.committing.self hcommit (fun _ _ => rfl) rfl rfl (Ready.of_fits hfits)⟩, .of_eq rfl⟩

theorem Safe.runCommit (h : Safe s) (hcommit : s.commit = some (t, calls)) (hidle : s.pc t = .idle)
    (hs : runCommit s t calls = some s') : Safe s' ∧ Pins s s' := by
  obtain ⟨held, hfits, hheld⟩ := h.committing.ready t _ hcommit
  cases calls with
  | nil =>
    cases hs
    refine ⟨⟨h.sound.congr rfl rfl rfl rfl rfl rfl rfl rfl, fun u b r hu => ?_,
      fun hsome => ?_, fun u calls hu => ?_⟩, .of_eq rfl⟩
    · obtain ⟨calls, hcalls⟩ := h.committing.receiver u b r hu
      cases hcommit.symm.trans hcalls
      change (s.pc t).receives r = some b at hu
      rw [hidle] at hu
      cases hu
    · cases hsome
    · cases hu
  | cons c rest =>
    cases c with
    | commit =>
      simp only [BufferCache.runCommit] at hs
      split at hs
      · cases hs
        exact h.pushed hcommit hfits.2
      · cases hs
        exact h.pushed hcommit hfits.1
    | writeLog tail =>
      simp only [BufferCache.runCommit] at hs
      split at hs
      · rename_i blockno hblockno
        cases hs
        exact h.pushed hcommit ⟨fun hr => (by cases hr), fun _ => List.mem_of_getElem? hblockno, rfl, rfl, hfits⟩
      · cases hs
        exact h.pushed hcommit hfits
    | writeHead =>
      cases hs
      exact h.pushed hcommit ⟨fun hr => (by cases hr), rfl, hfits⟩
    | installTrans tail =>
      simp only [BufferCache.runCommit] at hs
      split at hs
      · rename_i blockno hblockno
        cases hs
        exact h.pushed hcommit ⟨fun hr => (by cases hr), fun _ => List.mem_of_getElem? hblockno, rfl, rfl, hfits⟩
      · cases hs
        exact h.pushed hcommit hfits
    | clear =>
      cases hs
      exact ⟨⟨(h.sound.push t rest).clear,
        h.committing.self hcommit (fun _ _ => rfl) rfl rfl (Ready.of_fits hfits)⟩, .of_eq rfl⟩
    | bread r blockno => exact h.commitBread hcommit hidle hs
    | memmove dst src =>
      obtain ⟨d, hd, hs⟩ := Option.bind_eq_some_iff.mp hs
      obtain ⟨f, _, rfl⟩ := Option.map_eq_some_iff.mp hs
      exact h.commitEdit hcommit hidle (fun _ hf => ⟨hf.1, hf.2.2⟩) hd _
    | header r =>
      obtain ⟨d, hd, rfl⟩ := Option.map_eq_some_iff.mp hs
      exact h.commitEdit hcommit hidle (fun _ hf => hf) hd _
    | bwrite r =>
      obtain ⟨d, _, hs⟩ := Option.bind_eq_some_iff.mp hs
      obtain ⟨_, hs'⟩ := bwrite_some hs
      have hpc : s'.pc t = .writing d := by
        rw [hs']
        exact update_self _ _ _
      refine h.act hcommit hidle (.bwrite hidle hs) hfits hheld (fun r => ?_) fun b hb => ?_
      · rw [hpc]
        rfl
      · cases hpc.symm.trans hb
    | brelse r =>
      obtain ⟨d, _, hs⟩ := Option.bind_eq_some_iff.mp hs
      have hsound := h.sound.push t rest
      have ha : Act (s.push t rest) t s' := .brelse hidle hs
      have hk := hsound.keeps ha
      obtain ⟨_, rfl⟩ := brelse_some hs
      exact ⟨⟨ha.sound hsound, h.committing.self hcommit hk.pc hk.commit hk.outstanding (Ready.of_fits hfits)⟩,
        hk.pinned⟩

theorem Safe.other (h : Safe s) (ha : Act s t s') (hfree : ∀ calls, s.commit ≠ some (t, calls))
    (hpc : ∀ r, (s'.pc t).receives r = none) : Safe s' ∧ Pins s s' :=
  have hk := h.sound.keeps ha
  ⟨⟨ha.sound h.sound, h.committing.other h.sound hk hfree hpc⟩, hk.pinned⟩

omit [Fintype Thread] [DecidableEq Thread] in
theorem assign_aside (s : State n Thread Data) (r : Option Reg) (b : Fin n) : (s.assign r b).pc = s.pc ∧
    (s.assign r b).commit = s.commit ∧ (s.assign r b).outstanding = s.outstanding ∧ (s.assign r b).lh = s.lh ∧
    (s.assign r b).buf = s.buf := by
  cases r with
  | none => exact ⟨rfl, rfl, rfl, rfl, rfl⟩
  | some r => exact ⟨rfl, rfl, rfl, rfl, rfl⟩

theorem Safe.assign {r : Option Reg} (h : Safe s) (ha : Act s t s')
    (hpc : s.pc t = .locking b r ∨ s.pc t = .reading b r)
    (hidle : s'.pc t = .idle) (hlock : (s'.buf b).lock = some t) : Safe (s'.assign r b) ∧
    Pins s (s'.assign r b) := by
  have hk := h.sound.keeps ha
  by_cases hself : ∃ calls, s.commit = some (t, calls)
  · obtain ⟨calls, hcommit⟩ := hself
    obtain ⟨hpc', hcommit', hout', hlh', hbuf'⟩ := assign_aside s' r b
    have hlh := hlh'.trans (hk.lh_of_commit h.committing (by rw [hcommit]; rfl))
    obtain ⟨held, hfits, hheld⟩ := h.committing.ready t calls hcommit
    refine ⟨⟨(ha.sound h.sound).assign r b, h.committing.self hcommit (fun v hv => by rw [hpc', hk.pc v hv])
      (hcommit'.trans (hk.commit.trans hcommit)) (hout'.trans hk.outstanding)
        ⟨held, by rw [hlh]; exact hfits, ?_⟩⟩,
      fun c hc => by rw [hbuf']; exact hk.pinned c hc⟩
    intro r' blockno hr
    obtain ⟨hholds, hmem⟩ := hheld r' blockno hr
    exact ⟨hholds.assign h.sound hk hpc hidle hlock, by rw [hlh]; exact hmem⟩
  · -- only `commit` has variables to assign
    cases r with
    | none =>
      refine h.other ha (fun calls hcalls => hself ⟨calls, hcalls⟩) fun r => ?_
      change (s'.pc t).receives r = none
      rw [hidle]
      rfl
    | some r =>
      refine absurd (h.committing.receiver t b r ?_) hself
      obtain hpc | hpc := hpc
      · rw [hpc, Pc.receives, if_pos rfl]
      · rw [hpc, Pc.receives, if_pos rfl]

theorem Safe.inside (h : Safe s) (ha : Act s t s') (hbusy : s.pc t ≠ .idle)
    (hreceives : ∀ r, (s'.pc t).receives r = (s.pc t).receives r) : Safe s' ∧ Pins s s' := by
  have hk := h.sound.keeps ha
  refine ⟨⟨ha.sound h.sound, fun u b r hu => ?_, fun hsome => ?_, fun u calls hcommit => ?_⟩, hk.pinned⟩
  · rw [hk.commit]
    by_cases hut : u = t
    · subst hut
      exact h.committing.receiver u b r ((hreceives r).symm.trans hu)
    · rw [hk.pc u hut] at hu
      exact h.committing.receiver u b r hu
  · rw [hk.commit] at hsome
    exact hk.outstanding.trans (h.committing.quiet hsome)
  · rw [hk.commit] at hcommit
    have hlh := hk.lh_of_commit h.committing (by rw [hcommit]; rfl)
    obtain ⟨held, hfits, hheld⟩ := h.committing.ready u calls hcommit
    refine ⟨held, by rw [hlh]; exact hfits, fun r blockno hr => ?_⟩
    obtain ⟨hholds, hmem⟩ := hheld r blockno hr
    refine ⟨?_, by rw [hlh]; exact hmem⟩
    by_cases hut : u = t
    · subst hut
      obtain ⟨b, hb, hrb | ⟨hrb, hreg, hlock⟩⟩ := hholds
      · exact ⟨b, hk.assigned hb (h.sound.refcnt_of_receives hrb), .inl ((hreceives r).trans hrb)⟩
      · refine ⟨b, hk.assigned hb (h.sound.refcnt_of_lock hlock),
          .inr ⟨(hreceives r).trans hrb, hk.regs ▸ hreg, ?_⟩⟩
        obtain hlock' | ⟨_, hidle, _⟩ := hk.locks b u hlock
        · exact hlock'
        · exact absurd hidle hbusy
    · exact hholds.other h.sound hk hut

theorem Safe.run (h : Safe s) (hs : run s t (s.pc t) = some s') : Safe s' ∧ Pins s s' := by
  cases hpc : s.pc t with
  | idle =>
    rw [hpc, BufferCache.run] at hs
    split at hs
    · rename_i u calls hcommit
      obtain ⟨rfl, hs⟩ := Option.ite_none_right_eq_some.mp hs
      exact h.runCommit hcommit hpc hs
    · cases hs
  | locking b r =>
    rw [hpc] at hs
    obtain ⟨hfree, hs⟩ := Option.ite_none_right_eq_some.mp hs
    simp only at hs
    split at hs
    · rename_i hvalid
      cases hs
      exact h.assign (.acquire hpc hfree (.inl ⟨hvalid, rfl⟩)) (.inl hpc) (update_self _ _ _)
        (by simp only [update_self])
    · rename_i hvalid
      cases hs
      refine h.inside (.acquire hpc hfree (.inr ⟨Bool.eq_false_iff.mpr hvalid, rfl⟩))
        (by rw [hpc]; simp) fun r' => ?_
      simp only [update_self]
      rw [hpc]
      rfl
  | reading b r =>
    rw [hpc] at hs
    obtain ⟨s₁, hs₁, rfl⟩ := Option.map_eq_some_iff.mp hs
    have hlock := (h.sound.reading t b r hpc).1
    have ha : Act s t s₁ := .read hpc hs₁
    obtain ⟨disk, v, _, _, rfl⟩ := iderw_some hs₁
    refine h.assign ha (.inr hpc) (update_self _ _ _) ?_
    simp only [update_self]
    exact hlock
  | writing b =>
    rw [hpc] at hs
    have ha : Act s t s' := .write hpc hs
    obtain ⟨disk, v, _, _, rfl⟩ := iderw_some hs
    refine h.inside ha (by rw [hpc]; simp) fun r => ?_
    simp only [update_self]
    rw [hpc]
    rfl
  | releasing b =>
    rw [hpc] at hs
    cases hs
    refine h.inside (.release hpc) (by rw [hpc]; simp) fun r => ?_
    simp only [update_self]
    rw [hpc]
    rfl

omit [Fintype Thread] in
theorem free_iff : s.free t = true ↔ s.pc t = .idle ∧ ∀ calls, s.commit ≠ some (t, calls) := by
  simp [State.free]

theorem Safe.step {e : Event n Thread Data} (h : Safe s) (hs : step s e = some s') : Safe s' ∧ Pins s s' := by
  cases e with
  | bread t blockno =>
    obtain ⟨hfree, hs⟩ := Option.ite_none_right_eq_some.mp hs
    obtain ⟨hidle, hno⟩ := free_iff.mp hfree
    obtain ⟨order, horder⟩ := h.sound.ordered
    refine h.other (.bget hidle hs) hno fun r => ?_
    cases bget_got horder hs with
    | found b | recycled b =>
      simp only [update_self]
      rfl
  | bwrite t b =>
    obtain ⟨hfree, hs⟩ := Option.ite_none_right_eq_some.mp hs
    obtain ⟨hidle, hno⟩ := free_iff.mp hfree
    refine h.other (.bwrite hidle hs) hno fun r => ?_
    obtain ⟨_, rfl⟩ := bwrite_some hs
    simp only [update_self]
    rfl
  | brelse t b =>
    obtain ⟨hfree, hs⟩ := Option.ite_none_right_eq_some.mp hs
    obtain ⟨hidle, hno⟩ := free_iff.mp hfree
    refine h.other (.brelse hidle hs) hno fun r => ?_
    obtain ⟨_, rfl⟩ := brelse_some hs
    simp only [update_self]
    rfl
  | logWrite t b =>
    obtain ⟨⟨hfree, hlock⟩, hs⟩ := Option.ite_none_right_eq_some.mp hs
    obtain ⟨hidle, hno⟩ := free_iff.mp hfree
    refine h.other (.logWrite hidle hlock hs) hno fun r => ?_
    obtain ⟨_, rfl⟩ := logWrite_some hs
    rw [hidle]
    rfl
  | edit t b data =>
    obtain ⟨⟨hfree, hlock⟩, ⟨⟩⟩ := Option.ite_none_right_eq_some.mp hs
    obtain ⟨hidle, hno⟩ := free_iff.mp hfree
    refine h.other (.edit hidle hlock data) hno fun r => ?_
    change (s.pc t).receives r = none
    rw [hidle]
    rfl
  | beginOp t =>
    obtain ⟨⟨_, hcommit, _⟩, ⟨⟩⟩ := Option.ite_none_right_eq_some.mp hs
    refine ⟨⟨h.sound.congr rfl rfl rfl rfl rfl rfl rfl rfl, h.committing.receiver,
      fun hsome => ?_, fun u calls hu => ?_⟩, .of_eq rfl⟩
    · change s.commit.isSome = true at hsome
      rw [hcommit] at hsome
      cases hsome
    · cases hcommit.symm.trans hu
  | endOp t =>
    obtain ⟨⟨_, hcommit⟩, ⟨⟩⟩ := Option.ite_none_right_eq_some.mp hs
    refine ⟨⟨h.sound.congr rfl rfl rfl rfl rfl rfl rfl rfl, fun u b r hu => ?_,
      fun hsome => ?_, fun u calls hu => ?_⟩, .of_eq rfl⟩
    · obtain ⟨calls, hcalls⟩ := h.committing.receiver u b r hu
      cases hcommit.symm.trans hcalls
    · simp only at hsome ⊢
      split at hsome
      · assumption
      · cases hsome
    · simp only at hu
      split at hu
      · cases hu
        exact Ready.of_fits ⟨trivial, trivial⟩
      · cases hu
  | run t => exact h.run hs

omit [DecidableEq Thread] in
theorem safe_boot (n start size : ℕ) (encode : List ℕ → Data) (disk : Ide.Sectors Data) :
    Safe (boot n start size encode disk : State n Thread Data) := by
  refine ⟨⟨⟨_, ordered_binit n⟩, fun b c blockno hb => ?_, fun b => ?_, fun b hb => ?_,
    fun t b r ht => ?_, fun t b ht => ?_,
    fun t b ht => ?_, fun b hb => ?_, fun b hb => ?_, fun blockno v hv => ?_,
    fun blockno => ?_⟩, fun u b r hu => ?_, fun hsome => ?_, fun t calls hc => ?_⟩
  · cases hb.1
  · rw [Xv6.Counting.count_eq_zero fun _ => rfl]
    rfl
  · cases hb
  · cases ht
  · cases ht
  · cases ht
  · cases hb
  · cases hb
  · cases hv
  · simp [boot]
  · cases hu
  · cases hsome
  · cases hc

structure Represents (s : State n Thread Data) : Prop where
  ring : ∃ order : List (Fin n), Path s.links.next none (order.map some) none ∧
    Path s.links.prev none (order.reverse.map some) none ∧ order.Nodup ∧ ∀ b, b ∈ order
  unique : ∀ b c, (s.buf b).dev = 1 → (s.buf c).dev = 1 → (s.buf b).blockno = (s.buf c).blockno → b = c
  pinned : ∀ e s', step s e = some s' → ∀ b, 0 < (s.buf b).refcnt ∨ (s.buf b).dirty = true →
    (s'.buf b).dev = (s.buf b).dev ∧ (s'.buf b).blockno = (s.buf b).blockno
  read : ∀ t b v, (s.buf b).lock = some t → (∀ r, s.pc t ≠ .reading b r) → s.logged (s.buf b).blockno = some v →
    s.slipped (s.buf b).blockno = false → (s.buf b).data = v
  writeLog : ∀ t rest, s.commit = some (t, .memmove .lbuf .dbuf :: rest) → s.pc t = .idle →
    ∃ b v, s.regs .dbuf = some b ∧ (s.buf b).dev = 1 ∧ (s.buf b).blockno ∈ s.lh ∧
    s.logged (s.buf b).blockno = some v ∧
      (s.slipped (s.buf b).blockno = false → (s.buf b).data = v)

omit [DecidableEq Thread] in
theorem Safe.read {v : Data} (h : Safe s) (hlock : (s.buf b).lock = some t) (hpc : ∀ r, s.pc t ≠ .reading b r)
    (hlogged : s.logged (s.buf b).blockno = some v) (hslipped : s.slipped (s.buf b).blockno = false) :
    (s.buf b).data = v :=
  (h.sound.coherent_at (h.sound.dev_of_lock hlock) v hlogged hslipped).1 (h.sound.held t b hlock hpc)

theorem Safe.represents (h : Safe s) : Represents s where
  ring := by
    obtain ⟨order, horder⟩ := h.sound.ordered
    refine ⟨order, horder.circular.forward, ?_, horder.nodup, horder.complete⟩
    rw [List.map_reverse]
    exact horder.circular.backward
  unique b c hb hc heq := h.sound.unique b c _ ⟨hb, rfl⟩ ⟨hc, heq.symm⟩
  pinned e s' hs := (h.step hs).2
  read t b v hlock hpc hlogged hslipped := h.read hlock hpc hlogged hslipped
  writeLog t rest hcommit hidle := by
    obtain ⟨held, ⟨_, hdbuf, _⟩, hheld⟩ := h.committing.ready t _ hcommit
    obtain ⟨blockno, hblockno⟩ := Option.isSome_iff_exists.mp hdbuf
    obtain ⟨hholds, hmem⟩ := hheld .dbuf blockno hblockno
    obtain ⟨b, ⟨hdev, rfl⟩, hreg, hlock⟩ := hholds.idle hidle
    obtain ⟨v, hv⟩ := Option.isSome_iff_exists.mp ((h.sound.logged _).mp (hmem rfl))
    refine ⟨b, v, hreg, hdev, hmem rfl, hv, fun hslipped => h.read hlock (fun r hr => ?_) hv hslipped⟩
    cases hidle.symm.trans hr

theorem cache_represents {start size : ℕ} {encode : List ℕ → Data} {disk : Ide.Sectors Data}
    (h : Reaches step Always (boot n start size encode disk) s) : Represents s := by
  have hpreserves : Preserves step Always (Safe : State n Thread Data → Prop) := by
    intro s e s' hi _ hs
    exact (hi.step hs).1
  exact (h.invariant hpreserves (safe_boot n start size encode disk)).represents

end Runs

section Examples

def firstBuffer : Fin NBUF := ⟨0, by decide⟩

def secondBuffer : Fin NBUF := ⟨1, by decide⟩

def breads (t : Bool) (blockno : ℕ) : List (Event NBUF Bool ℕ) :=
  [.bread t blockno, .run t, .run t]

def booted : State NBUF Bool ℕ :=
  boot NBUF 2 30 (fun _ => 0) (fun _ => 0)

def logsOnce : List (Event NBUF Bool ℕ) :=
  .beginOp true :: breads true 5 ++ [.edit true firstBuffer 1, .logWrite true firstBuffer,
    .brelse true firstBuffer, .run true,
    .endOp true, .run true, .run true, .run true, .run true, .run true, .run true, .run true]

def loggedOnce : State NBUF Bool ℕ :=
  (exec step Always booted logsOnce).get (by decide +kernel)

theorem cache_represents_loggedOnce :
    (loggedOnce.commit.map fun c => c.2.head?) = some (some (.memmove .lbuf .dbuf)) ∧ Represents loggedOnce :=
  ⟨by decide +kernel, cache_represents (exec_get_reaches booted logsOnce (by decide +kernel))⟩

def losesChange : List (Event NBUF Bool ℕ) :=
  .beginOp true :: breads true 5 ++ [.edit true firstBuffer 1, .logWrite true firstBuffer,
    .bwrite true firstBuffer, .run true,
    .edit true firstBuffer 2, .brelse true firstBuffer, .run true] ++ (List.range 29).flatMap
    (fun i => breads false (100 + i)) ++
    breads false 200 ++ [.brelse false firstBuffer, .run false, .brelse false secondBuffer,
      .run false, .endOp true, .run true,
    .run true, .run true, .run true, .run true, .run true, .run true, .run true]

def lostChange : State NBUF Bool ℕ :=
  (exec step Always booted losesChange).get (by decide +kernel)

theorem write_log_reads_old : Reaches step Always booted lostChange ∧
    (lostChange.commit.map fun c => c.2.head?) = some (some (.memmove .lbuf .dbuf)) ∧ lostChange.pc true = .idle ∧
    lostChange.lh = [5] ∧ lostChange.logged 5 = some 2 ∧
    (lostChange.regs .dbuf).map (fun b => ((lostChange.buf b).blockno, (lostChange.buf b).data)) = some (5, 1) :=
  ⟨exec_get_reaches booted losesChange (by decide +kernel), by decide +kernel⟩

end Examples

end Xv6.BufferCache
