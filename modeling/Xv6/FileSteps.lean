import Xv6.FileTable

namespace Xv6.Files

open Xv6.Runs Xv6.Counting Function

def Pc.uses : Pc → Option ℕ
  | .fileread f _ | .piperead f _ _ | .readSleep f _ _ | .readInode f _ | .filewrite f _ | .pipewrite f _ _ _
  | .writeSleep f _ _ _ | .writeInode f _ _ | .filestat f | .statInode f | .fdalloc f
      _ | .fdstore f _ | .filedup f _ =>
    some f
  | _ => none

def Pc.pipe : Pc → Option ℕ
  | .piperead _ p _ | .readSleep _ p _ | .pipewrite _ p _ _ | .writeSleep _ p _ _ => some p
  | _ => none

def Pc.dups : Pc → Option ℕ
  | .filedup f _ => some f
  | _ => none

def Pc.closes : Pc → Option ℕ
  | .fileclose f => some f
  | _ => none

def Pc.ends : Pc → Option (ℕ × Bool)
  | .pipeclose p writable => some (p, writable)
  | _ => none

def Pc.even (pc : Pc) : Prop := pc.dups = none ∧ pc.closes = none ∧ pc.ends = none

variable {Thread : Type} [DecidableEq Thread]

def State.openEnd (s : State Thread) (p : ℕ) (writable : Bool) : Option Bool :=
  (s.pipes p).map (·.openEnd writable)

structure Quiet (s : State Thread) (t : Thread) (pc : Pc) : Prop where
  old : (s.pc t).even
  new : pc.even
  uses : ∀ f, pc.uses = some f → (s.pc t).uses = some f ∨ ∃ fd, s.ofile fd = some f
  pipe : ∀ f p, pc.uses = some f → pc.pipe = some p → (s.pc t).uses = some f ∧
    ((s.pc t).pipe = some p ∨ (s.file f).type = .FD_PIPE ∧ (s.file f).pipe = p)

def File.fixed (ff : File) : File := { ff with off := 0 }

theorem File.of_fixed {ff ff' : File} (h : ff'.fixed = ff.fixed) :
    ff'.ref = ff.ref ∧ ff'.type = ff.type ∧ ff'.writable = ff.writable ∧ ff'.pipe = ff.pipe := by
  simp only [File.fixed, File.mk.injEq] at h
  exact ⟨h.2.1, h.1, h.2.2.2.1, h.2.2.2.2.1⟩

inductive Closing (s : State Thread) (t : Thread) (f : ℕ) : State Thread → Prop
  | own (hpc : s.pc t = .fileclose f) : Closing s t f s
  | other (eax : ℤ) (hpc : s.pc t = .user eax) (hs : 0 < s.shared f) :
    Closing s t f { s with shared := Function.update s.shared f (s.shared f - 1) }

inductive Change (s s' : State Thread) (e : Event Thread) : Prop
  | quiet (t : Thread) (pc : Pc) (hq : Quiet s t pc) (hpc : s'.pc = Function.update s.pc t pc)
    (hofile : s'.ofile = s.ofile) (hshared : s'.shared = s.shared)
    (hfile : ∀ f, (s'.file f).fixed = (s.file f).fixed)
    (hends : ∀ p w, s'.openEnd p w = s.openEnd p w) : Change s s' e
  | same (hpc : s'.pc = s.pc) (hofile : s'.ofile = s.ofile) (hshared : s'.shared = s.shared)
      (hfile : s'.file = s.file)
    (hends : ∀ p w, s'.openEnd p w = s.openEnd p w) : Change s s' e
  | stores (t : Thread) (f : ℕ) (fd : Fin NOFILE) (hpc : s.pc t = .fdstore f fd)
    (h : s' = { s.goto t (.filedup f fd) with ofile := Function.update s.ofile fd (some f) }) : Change s s' e
  | dups (t : Thread) (f : ℕ) (fd : Fin NOFILE) (hpc : s.pc t = .filedup f fd)
    (h : s' = { s.goto t (.user fd.val) with
      file := Function.update s.file f { s.file f with ref := (s.file f).ref + 1 } }) : Change s s' e
  | clears (t : Thread) (f : ℕ) (fd : Fin NOFILE) (he : e = .run t) (hpc : s.pc t = .clear f fd)
    (h : s' = { s.goto t (.fileclose f) with ofile := Function.update s.ofile fd none }) : Change s s' e
  | closes (t : Thread) (f : ℕ) (r : State Thread) (hr : Closing s t f r) (h : fileclose r t f = some s') :
    Change s s' e
  | ends (t : Thread) (p : ℕ) (w : Bool) (pipe : Pipe) (hpc : s.pc t = .pipeclose p w) (hp : s.pipes p = some pipe)
    (h : s' = { s.goto t (.user 0) with pipes := Function.update s.pipes p (pipeclose pipe w) }) : Change s s' e
  | allocs (f : ℕ) (hf : (s.file f).ref = 0)
    (h : s' = { s with
      file := Function.update s.file f { s.file f with ref := 1 }
      shared := Function.update s.shared f 1 }) : Change s s' e
  | opens (f : ℕ) (ff : File) (hf : fresh s f) (href : ff.ref = (s.file f).ref) (hff : ff.type = .FD_INODE)
    (h : s' = { s with file := Function.update s.file f ff }) : Change s s' e
  | pipes (f₀ f₁ p : ℕ) (h₀ : fresh s f₀) (h₁ : fresh s f₁) (hne : f₀ ≠ f₁) (hp : s.pipes p = none)
    (h : s' = { s with
      pipes := Function.update s.pipes p (some newPipe)
      file := Function.update (Function.update s.file f₀ (pipeFile p false (s.file f₀))) f₁
        (pipeFile p true (s.file f₁)) }) : Change s s' e
  | shares (f : ℕ) (hf : 0 < s.shared f)
    (h : s' = { s with
      file := Function.update s.file f { s.file f with ref := (s.file f).ref + 1 }
      shared := Function.update s.shared f (s.shared f + 1) }) : Change s s' e

section

variable {s s' : State Thread} {e : Event Thread} {t : Thread} {pc : Pc}

variable {eax r : ℤ} {f n p : ℕ} {pipe pipe' : Pipe}

omit [DecidableEq Thread] in
theorem quiet_user (h : (s.pc t).even) : Quiet s t (.user eax) :=
  ⟨h, ⟨rfl, rfl, rfl⟩, by simp [Pc.uses], by simp [Pc.uses]⟩

omit [DecidableEq Thread] in
theorem quiet_on (h : (s.pc t).even) (hnew : pc.even) (huses : (s.pc t).uses = some f) (hpc : pc.uses = some f)
    (hpipe : ∀ p, pc.pipe = some p → (s.pc t).pipe = some p ∨ (s.file f).type = .FD_PIPE ∧ (s.file f).pipe = p) :
    Quiet s t pc := by
  refine ⟨h, hnew, fun g hg => ?_, fun g p hg hp => ?_⟩
  · obtain rfl : f = g := Option.some.inj (hpc.symm.trans hg)
    exact .inl huses
  · obtain rfl : f = g := Option.some.inj (hpc.symm.trans hg)
    exact ⟨huses, hpipe p hp⟩

theorem Quiet.change (hq : Quiet s t pc) : Change s (s.goto t pc) e :=
  .quiet t pc hq rfl rfl rfl (fun _ => rfl) (fun _ _ => rfl)

theorem Quiet.advance (hq : Quiet s t pc) : Change s ((advance s f r).goto t pc) e := by
  refine .quiet t pc hq rfl rfl rfl (fun g => ?_) (fun _ _ => rfl)
  change File.fixed (update s.file f _ g) = _
  by_cases hg : g = f
  · rw [hg, update_self]
    rfl
  · rw [update_of_ne hg]

omit [DecidableEq Thread] in
theorem openEnd_update {q : ℕ} {w : Bool} (hp : s.pipes p = some pipe)
    (hends : ∀ w, pipe'.openEnd w = pipe.openEnd w) :
    (update s.pipes p (some pipe') q).map (·.openEnd w) = s.openEnd q w := by
  unfold State.openEnd
  by_cases hq : q = p
  · rw [hq, update_self, hp, Option.map_some, Option.map_some, hends]
  · rw [update_of_ne hq]

theorem Quiet.pipes (hq : Quiet s t pc) (hp : s.pipes p = some pipe)
    (hends : ∀ w, pipe'.openEnd w = pipe.openEnd w) :
    Change s { s.goto t pc with pipes := update s.pipes p (some pipe') } e :=
  .quiet t pc hq rfl rfl rfl (fun _ => rfl) (fun _ _ => openEnd_update hp hends)

omit [DecidableEq Thread] in
theorem readDone_quiet (hpc : s.pc t = .piperead f p n) (r : ReadResult) : Quiet s t (readDone f p n r) := by
  cases r with
  | returns v bytes => exact quiet_user (by simp [hpc, Pc.even, Pc.dups, Pc.closes, Pc.ends])
  | sleeps =>
    apply quiet_on (f := f)
    · simp [hpc, Pc.even, Pc.dups, Pc.closes, Pc.ends]
    · exact ⟨rfl, rfl, rfl⟩
    · rw [hpc]
      rfl
    · rfl
    · rw [hpc]
      exact fun _ => .inl

omit [DecidableEq Thread] in
theorem writeDone_quiet {rest : List ℕ} (hpc : s.pc t = .pipewrite f p n rest) (r : WriteResult) :
    Quiet s t (writeDone f p n r) := by
  cases r with
  | returns v => exact quiet_user (by simp [hpc, Pc.even, Pc.dups, Pc.closes, Pc.ends])
  | sleeps rest =>
    apply quiet_on (f := f)
    · simp [hpc, Pc.even, Pc.dups, Pc.closes, Pc.ends]
    · exact ⟨rfl, rfl, rfl⟩
    · rw [hpc]
      rfl
    · rfl
    · rw [hpc]
      exact fun _ => .inl

theorem run_change (h : run s t = some s') : Change s s' (.run t) := by
  unfold run at h
  split at h
  case h_1 f n hpc =>
    have heven : (s.pc t).even := by rw [hpc]; exact ⟨rfl, rfl, rfl⟩
    split_ifs at h
    · cases h
      exact (quiet_user heven).change
    · split at h
      case h_1 hty =>
        cases h
        have hq : Quiet s t (.piperead f (s.file f).pipe n) :=
          quiet_on heven ⟨rfl, rfl, rfl⟩ (by rw [hpc]; rfl) rfl (fun p hp => .inr ⟨hty, Option.some.inj hp⟩)
        exact hq.change
      case h_2 =>
        cases h
        exact (quiet_on heven ⟨rfl, rfl, rfl⟩ (by rw [hpc]; rfl) rfl (by simp [Pc.pipe])).change
      case h_3 => cases h
  case h_2 f p n hpc =>
    obtain ⟨pipe, hp, rfl⟩ := Option.map_eq_some_iff.mp h
    exact (readDone_quiet hpc _).pipes hp (piperead_openEnd _ _ _)
  case h_3 f bytes hpc =>
    have heven : (s.pc t).even := by rw [hpc]; exact ⟨rfl, rfl, rfl⟩
    split at h
    · cases h
      exact (quiet_user heven).change
    · split at h
      case h_1 hty =>
        cases h
        have hq : Quiet s t (.pipewrite f (s.file f).pipe bytes.length bytes) :=
          quiet_on heven ⟨rfl, rfl, rfl⟩ (by rw [hpc]; rfl) rfl (fun p hp => .inr ⟨hty, Option.some.inj hp⟩)
        exact hq.change
      case h_2 =>
        cases h
        split_ifs
        · exact (quiet_user heven).change
        · exact (quiet_on heven ⟨rfl, rfl, rfl⟩ (by rw [hpc]; rfl) rfl (by simp [Pc.pipe])).change
      case h_3 => cases h
  case h_4 f p n rest hpc =>
    obtain ⟨pipe, hp, rfl⟩ := Option.map_eq_some_iff.mp h
    exact (writeDone_quiet hpc _).pipes hp (pipewrite_openEnd _ _ _ _)
  case h_5 f hpc =>
    have heven : (s.pc t).even := by rw [hpc]; exact ⟨rfl, rfl, rfl⟩
    cases h
    split_ifs
    · exact (quiet_on heven ⟨rfl, rfl, rfl⟩ (by rw [hpc]; rfl) rfl (by simp [Pc.pipe])).change
    · exact (quiet_user heven).change
  case h_6 f fd hpc =>
    have heven : (s.pc t).even := by rw [hpc]; exact ⟨rfl, rfl, rfl⟩
    split_ifs at h
    all_goals cases h
    · exact (quiet_on heven ⟨rfl, rfl, rfl⟩ (by rw [hpc]; rfl) rfl (by simp [Pc.pipe])).change
    · exact (quiet_on heven ⟨rfl, rfl, rfl⟩ (by rw [hpc]; rfl) rfl (by simp [Pc.pipe])).change
    · exact (quiet_user heven).change
  case h_7 f fd hpc =>
    cases h
    exact .stores t f fd hpc rfl
  case h_8 f fd hpc =>
    simp only [Option.ite_none_left_eq_some, Option.some.injEq] at h
    exact .dups t f fd hpc h.2.symm
  case h_9 f fd hpc =>
    cases h
    exact .clears t f fd rfl hpc rfl
  case h_10 f hpc => exact .closes t f s (.own hpc) h
  case h_11 p w hpc =>
    obtain ⟨pipe, hp, rfl⟩ := Option.map_eq_some_iff.mp h
    exact .ends t p w pipe hpc hp rfl
  case h_12 ip hpc =>
    cases h
    exact (quiet_user (by rw [hpc]; exact ⟨rfl, rfl, rfl⟩)).change
  case h_13 => cases h

theorem io_change (h : io s t r = some s') : Change s s' e := by
  unfold io at h
  split at h
  case h_1 f n hpc =>
    cases h
    exact (quiet_user (by rw [hpc]; exact ⟨rfl, rfl, rfl⟩)).advance
  case h_2 f i n hpc =>
    have heven : (s.pc t).even := by rw [hpc]; exact ⟨rfl, rfl, rfl⟩
    split at h
    · cases h
      exact (quiet_user heven).change
    · simp only [Option.ite_none_left_eq_some, Option.some.injEq] at h
      obtain ⟨-, rfl⟩ := h
      split_ifs
      · exact (quiet_on heven ⟨rfl, rfl, rfl⟩ (by rw [hpc]; rfl) rfl (by simp [Pc.pipe])).advance
      · exact (quiet_user heven).advance
  case h_3 f hpc =>
    cases h
    exact (quiet_user (by rw [hpc]; exact ⟨rfl, rfl, rfl⟩)).change
  case h_4 => cases h

theorem argfd_ofile {ofile : Fin NOFILE → Option ℕ} {fd : ℤ} {fd' : Fin NOFILE}
    (h : argfd ofile fd = some (f, fd')) : ofile fd' = some f := by
  unfold argfd at h
  split_ifs at h
  obtain ⟨g, hg, heq⟩ := Option.map_eq_some_iff.mp h
  cases heq
  exact hg

omit [DecidableEq Thread] in
theorem start_quiet {call : Call} {fd : Fin NOFILE} (hpc : s.pc t = .user eax)
    (hf : s.ofile fd = some f) : Quiet s t (call.start f fd) := by
  refine ⟨by rw [hpc]; exact ⟨rfl, rfl, rfl⟩, by cases call <;> exact ⟨rfl, rfl, rfl⟩,
    fun g hg => .inr ⟨fd, ?_⟩, ?_⟩
  · rw [hf]
    cases call with
    | close => cases hg
    | _ => exact hg
  · intro g p _ hp
    cases call <;> cases hp

theorem step_change (h : step s e = some s') : Change s s' e := by
  cases e with
  | syscall t call fd =>
    simp only [step] at h
    split at h
    case h_1 eax hpc =>
      split at h
      case h_1 f fd' hf =>
        cases h
        exact (start_quiet hpc (argfd_ofile hf)).change
      case h_2 =>
        cases h
        exact (quiet_user (by rw [hpc]; exact ⟨rfl, rfl, rfl⟩)).change
    case h_2 => cases h
  | badArgs t =>
    simp only [step] at h
    split at h
    case h_4 => cases h
    all_goals
      rename_i hpc
      cases h
      exact (quiet_user (by rw [hpc]; exact ⟨rfl, rfl, rfl⟩)).change
  | run t => exact run_change h
  | io t r => exact io_change h
  | wakeup t =>
    simp only [step] at h
    split at h
    case h_3 => cases h
    all_goals
      rename_i hpc
      cases h
      apply Quiet.change
      apply quiet_on
      · rw [hpc]
        exact ⟨rfl, rfl, rfl⟩
      · exact ⟨rfl, rfl, rfl⟩
      · rw [hpc]
        rfl
      · rfl
      · rw [hpc]
        exact fun _ => .inl
  | kill =>
    cases h
    exact .same rfl rfl rfl rfl (fun _ _ => rfl)
  | filealloc =>
    obtain ⟨f, hf, rfl⟩ := Option.map_eq_some_iff.mp h
    exact .allocs f (by simpa using List.find?_some hf) rfl
  | openInode f ip readable writable =>
    simp only [step, Option.ite_none_right_eq_some, Option.some.injEq] at h
    obtain ⟨hf, rfl⟩ := h
    exact .opens f { s.file f with type := .FD_INODE, ip, off := 0, readable, writable } hf rfl rfl rfl
  | pipealloc f₀ f₁ p =>
    simp only [step, Option.ite_none_right_eq_some, Option.some.injEq, Option.isNone_iff_eq_none] at h
    obtain ⟨⟨h₀, h₁, hne, hp⟩, rfl⟩ := h
    exact .pipes f₀ f₁ p h₀ h₁ hne hp rfl
  | filedup f =>
    simp only [step, Option.ite_none_right_eq_some, Option.some.injEq] at h
    exact .shares f h.1 h.2.symm
  | fileclose t f =>
    simp only [step] at h
    split at h
    case h_1 eax hpc =>
      simp only [Option.ite_none_right_eq_some] at h
      exact .closes t f _ (.other eax hpc h.1) h.2
    case h_2 => cases h
  | piperead p n =>
    obtain ⟨pipe, hp, rfl⟩ := Option.map_eq_some_iff.mp h
    exact .same rfl rfl rfl rfl (fun _ _ => openEnd_update hp (piperead_openEnd _ _ _))
  | pipewrite p bytes =>
    obtain ⟨pipe, hp, rfl⟩ := Option.map_eq_some_iff.mp h
    exact .same rfl rfl rfl rfl (fun _ _ => openEnd_update hp (pipewrite_openEnd _ _ _ _))

theorem fileclose_spec (h : fileclose s t f = some s') : 1 ≤ (s.file f).ref ∧ ∃ ff pc,
    s' = { s.goto t pc with file := update s.file f ff } ∧ ff.ref = (s.file f).ref - 1 ∧
    pc.uses = none ∧ pc.dups = none ∧ pc.closes = none ∧
    (ff = { s.file f with ref := (s.file f).ref - 1 } ∧ 2 ≤ (s.file f).ref ∧ pc.ends = none ∨
      ff.type = .FD_NONE ∧ (s.file f).ref = 1 ∧ ∀ x, pc.ends = some x →
        (s.file f).type = .FD_PIPE ∧ x = ((s.file f).pipe, (s.file f).writable)) := by
  unfold fileclose at h
  simp only at h
  split_ifs at h with hzero hmore
  · cases h
    exact ⟨by omega, _, _, rfl, rfl, rfl, rfl, rfl, .inl ⟨rfl, by omega, rfl⟩⟩
  · cases h
    refine ⟨by omega, _, _, rfl, (by simp only; omega), ?_⟩
    cases hty : (s.file f).type with
    | FD_PIPE =>
      refine ⟨rfl, rfl, rfl, .inr ⟨rfl, by omega, ?_⟩⟩
      rintro x ⟨⟩
      exact ⟨rfl, rfl⟩
    | FD_INODE => exact ⟨rfl, rfl, rfl, .inr ⟨rfl, by omega, by simp [Pc.ends]⟩⟩
    | FD_NONE => exact ⟨rfl, rfl, rfl, .inr ⟨rfl, by omega, by simp [Pc.ends]⟩⟩

end

end Xv6.Files
