import Xv6.FilesInUse

namespace Xv6.Files

open Xv6.Runs Xv6.Counting Function

def File.pipeEnd (ff : File) : Option (ℕ × Bool) :=
  if ff.type = .FD_PIPE then some (ff.pipe, ff.writable) else none

variable {Thread : Type}

def State.holds (s : State Thread) : ℕ ⊕ Thread → Option (ℕ × Bool)
  | .inl f => (s.file f).pipeEnd
  | .inr t => (s.pc t).ends

structure Ends (s : State Thread) : Prop where
  free : ∀ f, (s.file f).ref = 0 → (s.file f).type = .FD_NONE
  opened : ∀ h x, s.holds h = some x → s.openEnd x.1 x.2 = some true
  one : ∀ h h' x, s.holds h = some x → s.holds h' = some x → h = h'
  inPipe : ∀ t f p, (s.pc t).uses = some f → (s.pc t).pipe = some p →
    (s.file f).type = .FD_PIPE ∧ (s.file f).pipe = p

section

variable {s s' : State Thread} {t : Thread} {pc : Pc} {f : ℕ}

theorem File.pipeEnd_fixed {ff ff' : File} (h : ff'.fixed = ff.fixed) : ff'.pipeEnd = ff.pipeEnd := by
  obtain ⟨-, htype, hwritable, hpipe⟩ := File.of_fixed h
  simp only [File.pipeEnd, htype, hwritable, hpipe]

theorem File.pipeEnd_of_type {ff : File} {x : ℕ × Bool} (h : ff.pipeEnd = some x) : ff.type = .FD_PIPE := by
  unfold File.pipeEnd at h
  split_ifs at h with hty
  exact hty

theorem ends_passed (hi : Ends s) (m : Equiv.Perm (ℕ ⊕ Thread))
    (hm : ∀ h x, s'.holds h = some x → s.holds (m h) = some x) (hends : ∀ p w, s'.openEnd p w = s.openEnd p w)
    (hfree : ∀ f, (s'.file f).ref = 0 → (s'.file f).type = .FD_NONE)
    (hpipe : ∀ t f p, (s'.pc t).uses = some f → (s'.pc t).pipe = some p →
      (s'.file f).type = .FD_PIPE ∧ (s'.file f).pipe = p) : Ends s' := by
  refine ⟨hfree, fun h x hx => ?_, fun h h' x hx hx' => ?_, hpipe⟩
  · rw [hends]
    exact hi.opened _ x (hm h x hx)
  · exact m.injective (hi.one _ _ x (hm h x hx) (hm h' x hx'))

variable [DecidableEq Thread] {ff : File} {r : State Thread} {u : Thread} {p : ℕ} {w : Bool}

theorem inPipe_update (hi : Ends s) (hpc : s'.pc = update s.pc t pc) (hnew : pc.uses = none)
    (hfile : ∀ u g, u ≠ t → (s.pc u).uses = some g → (s'.file g).type = (s.file g).type ∧
      (s'.file g).pipe = (s.file g).pipe)
    (u : Thread) (g p : ℕ) (hu : (s'.pc u).uses = some g) (hp : (s'.pc u).pipe = some p) :
    (s'.file g).type = .FD_PIPE ∧ (s'.file g).pipe = p := by
  obtain ⟨_, hf⟩ | ⟨hne, hold⟩ := uses_update hpc hu
  · rw [hnew] at hf
    cases hf
  · rw [hpc, update_of_ne hne] at hp
    rw [(hfile u g hne hold).1, (hfile u g hne hold).2]
    exact hi.inPipe u g p hold hp

theorem ends_quiet (hi : Ends s) (hq : Quiet s t pc) (hpc : s'.pc = update s.pc t pc)
    (hfile : ∀ f, (s'.file f).fixed = (s.file f).fixed) (hends : ∀ p w, s'.openEnd p w = s.openEnd p w) :
    Ends s' := by
  refine ends_passed hi (Equiv.refl _) ?_ hends (fun f hf => ?_) (fun u f p hu hp => ?_)
  · rintro (f | u) x hx
    · rwa [State.holds, File.pipeEnd_fixed (hfile f)] at hx
    · change (s'.pc u).ends = some x at hx
      change (s.pc u).ends = some x
      rw [hpc] at hx
      by_cases hu : u = t
      · rw [hu, update_self, hq.new.2.2] at hx
        cases hx
      · rwa [update_of_ne hu] at hx
  · obtain ⟨href, htype, -, -⟩ := File.of_fixed (hfile f)
    rw [htype]
    rw [href] at hf
    exact hi.free f hf
  · obtain ⟨-, htype, -, hpipe⟩ := File.of_fixed (hfile f)
    rw [htype, hpipe]
    rw [hpc] at hp
    obtain ⟨rfl, hnew⟩ | ⟨hne, hold⟩ := uses_update hpc hu
    · rw [update_self] at hp
      obtain ⟨hold, hsame | hty⟩ := hq.pipe f p hnew hp
      · exact hi.inPipe u f p hold hsame
      · exact hty
    · rw [update_of_ne hne] at hp
      exact hi.inPipe u f p hold hp

theorem holds_closes (hfile : s'.file = update s.file f ff) (hpc : s'.pc = update s.pc t pc)
    (hend : ff.pipeEnd = (s.file f).pipeEnd ∧ pc.ends = none ∨
      ff.type = .FD_NONE ∧ ∀ x, pc.ends = some x → (s.file f).type = .FD_PIPE ∧
      x = ((s.file f).pipe, (s.file f).writable)) :
    ∃ m : Equiv.Perm (ℕ ⊕ Thread), ∀ h x, s'.holds h = some x → s.holds (m h) = some x := by
  have hfile' (g : ℕ) (hg : g ≠ f) : s'.holds (.inl g) = s.holds (.inl g) := by
    simp only [State.holds, hfile, update_of_ne hg]
  have hpc' (u : Thread) (hu : u ≠ t) : s'.holds (.inr u) = s.holds (.inr u) := by
    simp only [State.holds, hpc, update_of_ne hu]
  have hself : s'.holds (.inl f) = ff.pipeEnd ∧ s'.holds (.inr t) = pc.ends := by
    simp only [State.holds, hfile, hpc, update_self, and_self]
  obtain ⟨hsame, hnone⟩ | ⟨hnone, hlast⟩ := hend
  · refine ⟨Equiv.refl _, ?_⟩
    rintro (g | u) x hx
    · by_cases hg : g = f
      · subst hg
        rw [hself.1, hsame] at hx
        exact hx
      · rwa [hfile' g hg] at hx
    · by_cases hu : u = t
      · subst hu
        rw [hself.2, hnone] at hx
        cases hx
      · rwa [hpc' u hu] at hx
  · refine ⟨Equiv.swap (.inl f) (.inr t), ?_⟩
    rintro (g | u) x hx
    · by_cases hg : g = f
      · subst hg
        rw [hself.1] at hx
        rw [File.pipeEnd_of_type hx] at hnone
        cases hnone
      · rw [Equiv.swap_apply_of_ne_of_ne (by simpa using hg) (by simp), ← hfile' g hg]
        exact hx
    · by_cases hu : u = t
      · subst hu
        rw [hself.2] at hx
        obtain ⟨hty, rfl⟩ := hlast x hx
        rw [Equiv.swap_apply_right, State.holds, File.pipeEnd, if_pos hty]
      · rw [Equiv.swap_apply_of_ne_of_ne (by simp) (by simpa using hu), ← hpc' u hu]
        exact hx

theorem Closing.used [Fintype Thread] (hr : Closing s t f r) (hk : Kept s)
    (hu : (s.pc u).uses = some f) : 2 ≤ (s.file f).ref := by
  have hkept := hk.kept u f hu
  cases hr with
  | own hpc =>
    have hc := closers_update (goto_pcs s t (.user 0)) f
    simp only [hpc, Pc.closes, ↓reduceIte, reduceCtorEq, Nat.add_zero] at hc
    omega
  | other eax hpc hs => omega

theorem ends_closes [Fintype Thread] (hi : Ends s) (hk : Kept s) (hr : Closing s t f r)
    (h : fileclose r t f = some s') : Ends s' := by
  obtain ⟨hpos, ff, pc, rfl, hff, huses, -, -, hend⟩ := fileclose_spec h
  have hrs : r.file = s.file ∧ r.pipes = s.pipes ∧ r.pc = s.pc := by cases hr <;> exact ⟨rfl, rfl, rfl⟩
  rw [hrs.1] at hff hend
  have hfile : update r.file f ff = update s.file f ff := by rw [hrs.1]
  have hpc : update r.pc t pc = update s.pc t pc := by rw [hrs.2.2]
  obtain ⟨m, hm⟩ := @holds_closes _ s { r.goto t pc with file := update r.file f ff } t pc f _ ff hfile hpc <| by
    obtain ⟨rfl, -, hnone⟩ | ⟨hnone, -, hlast⟩ := hend
    · exact .inl ⟨rfl, hnone⟩
    · exact .inr ⟨hnone, hlast⟩
  refine ends_passed hi m hm (fun p w => ?_) (fun g hg => ?_) ?_
  · change (r.pipes p).map _ = _
    rw [hrs.2.1]
    rfl
  · simp only [hfile] at hg ⊢
    by_cases hgf : g = f
    · subst hgf
      rw [update_self] at hg ⊢
      obtain ⟨rfl, htwo, _⟩ | ⟨hnone, _⟩ := hend
      · simp only at hg
        omega
      · exact hnone
    · rw [update_of_ne hgf] at hg ⊢
      exact hi.free g hg
  · refine inPipe_update hi hpc huses fun u g _ hu => ?_
    simp only [hfile]
    by_cases hgf : g = f
    · subst hgf
      have htwo := hr.used hk hu
      obtain ⟨rfl, _⟩ | ⟨_, hone, _⟩ := hend
      · rw [update_self]
        exact ⟨rfl, rfl⟩
      · omega
    · rw [update_of_ne hgf]
      exact ⟨rfl, rfl⟩

theorem ends_pipeclose {pipe : Pipe} (hi : Ends s) (hpc : s.pc t = .pipeclose p w)
    (hp : s.pipes p = some pipe)
    (h : s' = { s.goto t (.user 0) with pipes := update s.pipes p (pipeclose pipe w) }) : Ends s' := by
  have hmine : s.holds (.inr t) = some (p, w) := by rw [State.holds, hpc]; rfl
  have hold (k : ℕ ⊕ Thread) (x : ℕ × Bool) (hx : s'.holds k = some x) : s.holds k = some x ∧ k ≠ .inr t := by
    subst h
    obtain g | u := k
    · exact ⟨hx, by simp⟩
    · change (update s.pc t (.user 0) u).ends = some x at hx
      by_cases hu : u = t
      · rw [hu, update_self] at hx
        cases hx
      · rw [update_of_ne hu] at hx
        exact ⟨hx, by simpa using hu⟩
  refine ⟨?_, fun k x hx => ?_, fun k k' x hx hx' => hi.one k k' x (hold k x hx).1 (hold k' x hx').1, ?_⟩
  · subst h
    exact hi.free
  · obtain ⟨hx', hk⟩ := hold k x hx
    have hopen := hi.opened k x hx'
    subst h
    simp only [State.openEnd] at hopen ⊢
    by_cases hxp : x.1 = p
    · have hw : x.2 ≠ w := by
        intro hw
        exact hk (hi.one _ _ _ hx' (by rw [hmine, ← hxp, ← hw]))
      rw [hxp, hp, Option.map_some, Option.some.injEq] at hopen
      obtain ⟨pipe', hclose, hopen'⟩ := pipeclose_other hw hopen
      rw [hxp, update_self, hclose, Option.map_some, hopen']
    · rw [update_of_ne hxp]
      exact hopen
  · subst h
    exact inPipe_update hi rfl rfl (fun _ _ _ _ => ⟨rfl, rfl⟩)

omit [DecidableEq Thread] in
theorem Ends.unheld {k : ℕ ⊕ Thread} (hi : Ends s) (hp : s.pipes p = none) :
    s.holds k ≠ some (p, w) := by
  intro hk
  have hopen := hi.opened k (p, w) hk
  simp only [State.openEnd, hp, Option.map_none, reduceCtorEq] at hopen

omit [DecidableEq Thread] in
theorem ends_plain (hi : Ends s) (hpc : ∀ u x, (s'.pc u).ends = some x → (s.pc u).ends = some x)
    (hin : ∀ u f p, (s'.pc u).uses = some f → (s'.pc u).pipe = some p →
      (s.pc u).uses = some f ∧ (s.pc u).pipe = some p)
    (hfile : ∀ f, (s'.file f).type = (s.file f).type ∧ (s'.file f).pipe = (s.file f).pipe ∧
      (s'.file f).writable = (s.file f).writable ∧ ((s'.file f).ref = 0 → (s.file f).ref = 0))
    (hends : ∀ p w, s'.openEnd p w = s.openEnd p w) : Ends s' := by
  refine ends_passed hi (Equiv.refl _) ?_ hends (fun f hf => ?_) (fun u f p hu hp => ?_)
  · rintro (f | u) x hx
    · obtain ⟨htype, hpipe, hwritable, -⟩ := hfile f
      simp only [State.holds, File.pipeEnd, htype, hpipe, hwritable] at hx
      exact hx
    · exact hpc u x hx
  · obtain ⟨htype, -, -, href⟩ := hfile f
    rw [htype]
    exact hi.free f (href hf)
  · obtain ⟨htype, hpipe, -, -⟩ := hfile f
    obtain ⟨hold, hold'⟩ := hin u f p hu hp
    rw [htype, hpipe]
    exact hi.inPipe u f p hold hold'

theorem ends_goto (hi : Ends s) (hend : pc.ends = none) (hpipe : pc.pipe = none)
    (hpc : s'.pc = update s.pc t pc)
    (hfile : ∀ f, (s'.file f).type = (s.file f).type ∧ (s'.file f).pipe = (s.file f).pipe ∧
      (s'.file f).writable = (s.file f).writable ∧ ((s'.file f).ref = 0 → (s.file f).ref = 0))
    (hpipes : s'.pipes = s.pipes) : Ends s' := by
  refine ends_plain hi (fun u x hx => ?_) (fun u f p hu hp => ?_) hfile (by simp [State.openEnd, hpipes])
  · rw [hpc] at hx
    by_cases hut : u = t
    · rw [hut, update_self, hend] at hx
      cases hx
    · rwa [update_of_ne hut] at hx
  · rw [hpc] at hu hp
    by_cases hut : u = t
    · rw [hut, update_self, hpipe] at hp
      cases hp
    · rw [update_of_ne hut] at hu hp
      exact ⟨hu, hp⟩

omit [DecidableEq Thread] in
theorem Ends.fresh_unpiped (hi : Ends s) (hf : fresh s f) (hu : (s.pc u).uses = some f) :
    (s.pc u).pipe ≠ some p := by
  intro hp
  have hty := (hi.inPipe u f p hu hp).1
  rw [hf.1] at hty
  cases hty

omit [DecidableEq Thread] in
theorem ends_opens (hi : Ends s) (hf : fresh s f) (href : ff.ref = (s.file f).ref)
    (hlive : 1 ≤ (s.file f).ref) (hff : ff.type = .FD_INODE) :
    Ends { s with file := update s.file f ff } := by
  refine ends_passed hi (Equiv.refl _) ?_ (fun _ _ => rfl) (fun g hg => ?_) (fun u g p hu hp => ?_)
  · rintro (g | u) x hx
    · by_cases hg : g = f
      · subst hg
        simp only [State.holds, update_self] at hx
        rw [File.pipeEnd_of_type hx] at hff
        cases hff
      · simp only [State.holds, update_of_ne hg] at hx
        exact hx
    · exact hx
  · simp only at hg ⊢
    by_cases hgf : g = f
    · subst hgf
      rw [update_self, href] at hg
      omega
    · rw [update_of_ne hgf] at hg ⊢
      exact hi.free g hg
  · have hgf : g ≠ f := by
      rintro rfl
      exact hi.fresh_unpiped hf hu hp
    simp only [update_of_ne hgf]
    exact hi.inPipe u g p hu hp

omit [DecidableEq Thread] in
theorem ends_pipealloc {f₀ f₁ : ℕ} (hi : Ends s) (h₀ : fresh s f₀) (h₁ : fresh s f₁) (hne : f₀ ≠ f₁)
    (hlive₀ : 1 ≤ (s.file f₀).ref) (hlive₁ : 1 ≤ (s.file f₁).ref) (hp : s.pipes p = none)
    (h : s' = { s with
      pipes := update s.pipes p (some newPipe)
      file := update (update s.file f₀ (pipeFile p false (s.file f₀))) f₁
        (pipeFile p true (s.file f₁)) }) : Ends s' := by
  have hfile₁ : s'.file f₁ = pipeFile p true (s.file f₁) := by simp [h]
  have hfile₀ : s'.file f₀ = pipeFile p false (s.file f₀) := by simp [h, update_of_ne hne]
  have hothers (g : ℕ) (hg₀ : g ≠ f₀) (hg₁ : g ≠ f₁) : s'.file g = s.file g := by
    simp [h, update_of_ne hg₀, update_of_ne hg₁]
  have hpc : s'.pc = s.pc := by rw [h]
  have hnew (w : Bool) : s'.openEnd p w = some true := by
    cases w <;> simp [h, State.openEnd, newPipe, Pipe.openEnd]
  have hold (q : ℕ) (w : Bool) (hq : q ≠ p) : s'.openEnd q w = s.openEnd q w := by
    simp [h, State.openEnd, update_of_ne hq]
  -- every holder but the two files held its end before
  have hheld (k : ℕ ⊕ Thread) : k = .inl f₀ ∧ s'.holds k = some (p, false) ∨ k = .inl f₁ ∧
    s'.holds k = some (p, true) ∨
      s'.holds k = s.holds k := by
    obtain g | u := k
    · by_cases hg₀ : g = f₀
      · left
        subst hg₀
        simp [State.holds, hfile₀, pipeFile, File.pipeEnd]
      · by_cases hg₁ : g = f₁
        · right; left
          subst hg₁
          simp [State.holds, hfile₁, pipeFile, File.pipeEnd]
        · right; right
          simp [State.holds, hothers g hg₀ hg₁]
    · right; right
      simp [State.holds, hpc]
  have hends (k : ℕ ⊕ Thread) (x : ℕ × Bool) (hx : s'.holds k = some x) :
      x.1 = p ∧ k = .inl (if x.2 then f₁ else f₀) ∨ x.1 ≠ p ∧ s.holds k = some x := by
    obtain ⟨hf, hk⟩ | ⟨hf, hk⟩ | hk := hheld k
    · rw [hk] at hx
      cases hx
      exact .inl ⟨rfl, hf⟩
    · rw [hk] at hx
      cases hx
      exact .inl ⟨rfl, hf⟩
    · rw [hk] at hx
      refine .inr ⟨?_, hx⟩
      rintro rfl
      exact hi.unheld hp hx
  refine ⟨fun g hg => ?_, fun k x hx => ?_, fun k k' x hx hx' => ?_, fun u g q hu hq => ?_⟩
  · by_cases hg₀ : g = f₀
    · subst hg₀
      rw [hfile₀] at hg
      simp only [pipeFile] at hg
      omega
    · by_cases hg₁ : g = f₁
      · subst hg₁
        rw [hfile₁] at hg
        simp only [pipeFile] at hg
        omega
      · rw [hothers g hg₀ hg₁] at hg ⊢
        exact hi.free g hg
  · obtain ⟨rfl, -⟩ | ⟨hq, hx⟩ := hends k x hx
    · exact hnew x.2
    · rw [hold x.1 x.2 hq]
      exact hi.opened k x hx
  · obtain ⟨hq, hk⟩ | ⟨hq, hk⟩ := hends k x hx
    · obtain ⟨-, hk'⟩ | ⟨hq', -⟩ := hends k' x hx'
      · rw [hk, hk']
      · exact absurd hq hq'
    · obtain ⟨hq', -⟩ | ⟨-, hk'⟩ := hends k' x hx'
      · exact absurd hq' hq
      · exact hi.one k k' x hk hk'
  · rw [hpc] at hu hq
    have hg₀ : g ≠ f₀ := by
      rintro rfl
      exact hi.fresh_unpiped h₀ hu hq
    have hg₁ : g ≠ f₁ := by
      rintro rfl
      exact hi.fresh_unpiped h₁ hu hq
    rw [hothers g hg₀ hg₁]
    exact hi.inPipe u g q hu hq

end

variable [Fintype Thread] [DecidableEq Thread]

structure Sound (s : State Thread) : Prop where
  kept : Kept s
  ends : Ends s

variable {s : State Thread} {f : ℕ}

omit [DecidableEq Thread] in
theorem Kept.live (hk : Kept s) (hf : 0 < s.shared f) : 1 ≤ (s.file f).ref := by
  by_contra hzero
  have haccount := hk.account f
  have hdups := hk.dups_eq_zero (f := f) (by omega)
  omega

theorem sound_step : Preserves (@step Thread _) CloseTurn Sound := by
  intro s e s' ⟨hk, hi⟩ hok h
  refine ⟨kept_step s e s' hk hok h, ?_⟩
  cases step_change h with
  | quiet t pc hq hpc _ _ hfile hends => exact ends_quiet hi hq hpc hfile hends
  | same hpc _ _ hfile hends =>
    refine ends_plain hi (by simp [hpc]) (fun u f p hu hp => ?_) (by simp [hfile]) hends
    rw [hpc] at hu hp
    exact ⟨hu, hp⟩
  | stores t f fd hpc hs =>
    subst hs
    exact ends_goto hi rfl rfl (goto_pcs s t (.filedup f fd)) (fun _ => ⟨rfl, rfl, rfl, id⟩) rfl
  | dups t f fd hpc hs =>
    subst hs
    refine ends_goto hi rfl rfl (goto_pcs s t (.user fd.val)) (fun g => ?_) rfl
    by_cases hg : g = f
    · subst hg
      simp
    · simp [update_of_ne hg]
  | clears t f fd _ hpc hs =>
    subst hs
    exact ends_goto hi rfl rfl (goto_pcs s t (.fileclose f)) (fun _ => ⟨rfl, rfl, rfl, id⟩) rfl
  | closes t f r hr hs => exact ends_closes hi hk hr hs
  | ends t p w pipe hpc hp hs => exact ends_pipeclose hi hpc hp hs
  | allocs f hf hs =>
    subst hs
    refine ends_plain hi (fun _ _ => id) (fun _ _ _ hu hp => ⟨hu, hp⟩) (fun g => ?_) (fun _ _ => rfl)
    by_cases hg : g = f
    · subst hg
      simp
    · simp [update_of_ne hg]
  | opens f ff hf href hff hs =>
    subst hs
    exact ends_opens hi hf href (hk.live hf.2) hff
  | pipes f₀ f₁ p h₀ h₁ hne hp hs => exact ends_pipealloc hi h₀ h₁ hne (hk.live h₀.2) (hk.live h₁.2) hp hs
  | shares f hf hs =>
    subst hs
    refine ends_plain hi (fun _ _ => id) (fun _ _ _ hu hp => ⟨hu, hp⟩) (fun g => ?_) (fun _ _ => rfl)
    by_cases hg : g = f
    · subst hg
      simp
    · simp [update_of_ne hg]

structure Start (s : State Thread) : Prop where
  pc : ∀ t, ∃ eax, s.pc t = .user eax
  ref : ∀ f, s.descriptors f + s.shared f ≤ (s.file f).ref
  free : ∀ f, (s.file f).ref = 0 → (s.file f).type = .FD_NONE
  opened : ∀ f x, (s.file f).pipeEnd = some x → s.openEnd x.1 x.2 = some true
  one : ∀ f g x, (s.file f).pipeEnd = some x → (s.file g).pipeEnd = some x → f = g

omit [DecidableEq Thread] in
theorem Start.sound (h : Start s) : Sound s := by
  have hno (t : Thread) : (s.pc t).uses = none ∧ (s.pc t).even := by
    obtain ⟨eax, ht⟩ := h.pc t
    rw [ht]
    exact ⟨rfl, rfl, rfl, rfl⟩
  have hclosers (f : ℕ) : s.closers f = 0 := count_eq_zero fun t => by simp [(hno t).2.2.1]
  refine ⟨⟨fun f => ?_, fun t f hu => ?_⟩, h.free, ?_, ?_, fun t f p hu _ => ?_⟩
  · have href := h.ref f
    rw [hclosers]
    omega
  · rw [(hno t).1] at hu
    cases hu
  · rintro (f | t) x hx
    · exact h.opened f x hx
    · rw [State.holds, (hno t).2.2.2] at hx
      cases hx
  · rintro (f | t) (g | u) x hx hx'
    · rw [h.one f g x hx hx']
    · rw [State.holds, (hno u).2.2.2] at hx'
      cases hx'
    · rw [State.holds, (hno t).2.2.2] at hx
      cases hx
    · rw [State.holds, (hno t).2.2.2] at hx
      cases hx
  · rw [(hno t).1] at hu
    cases hu

theorem filealloc_ref {file : ℕ → File} (h : filealloc file = some f) : (file f).ref = 0 := by
  simpa using List.find?_some h

theorem pipeEnd_eq_some {ff : File} (h : ff.type = .FD_PIPE) : ff.pipeEnd = some (ff.pipe, ff.writable) := if_pos h

omit [Fintype Thread] [DecidableEq Thread] in
theorem Ends.allocated (hi : Ends s) (hf : (s.file f).type = .FD_PIPE) :
    (s.pipes (s.file f).pipe).isSome := by
  have hopen := hi.opened (.inl f) _ (pipeEnd_eq_some hf)
  by_contra hnone
  simp only [Option.not_isSome_iff_eq_none] at hnone
  simp [State.openEnd, hnone] at hopen

theorem files_in_use (s s' : State Thread) (hs : Start s) (hr : Reaches step CloseTurn s s') :
    (∀ t f, (s'.pc t).uses = some f → 1 ≤ (s'.file f).ref ∧ filealloc s'.file ≠ some f ∧
      ((s'.file f).type = .FD_PIPE → (s'.pipes (s'.file f).pipe).isSome) ∧
      ∀ p, (s'.pc t).pipe = some p → (s'.pipes p).isSome) ∧
    ∀ t f fd, s'.pc t = .filedup f fd → (step s' (.run t)).isSome := by
  obtain ⟨hk, hi⟩ := hr.invariant sound_step hs.sound
  have hlive (t : Thread) (f : ℕ) (hu : (s'.pc t).uses = some f) : 1 ≤ (s'.file f).ref := by
    have hkept := hk.kept t f hu
    omega
  constructor
  · intro t f hu
    refine ⟨hlive t f hu, fun halloc => ?_, hi.allocated, fun p hp => ?_⟩
    · have href := filealloc_ref halloc
      have hone := hlive t f hu
      omega
    · obtain ⟨hty, rfl⟩ := hi.inPipe t f p hu hp
      exact hi.allocated hty
  · intro t f fd hpc
    have hone := hlive t f (by rw [hpc]; rfl)
    have hnot : ¬ (s'.file f).ref < 1 := by omega
    simp only [step, run, hpc, hnot, ↓reduceIte, Option.isSome_some]

def onePipe (f : ℕ) : File :=
  match f with
  | 0 => ⟨.FD_PIPE, 1, true, false, 0, 0, 0⟩
  | 1 => ⟨.FD_PIPE, 1, false, true, 0, 0, 0⟩
  | _ => ⟨.FD_NONE, 0, false, false, 0, 0, 0⟩

def pipeStart : State (Fin 2) where
  file := onePipe
  pipes p := if p = 0 then some newPipe else none
  ofile fd := if fd.val < 2 then some fd.val else none
  killed := false
  pc _ := .user 0
  shared _ := 0

theorem pipeStart_start : Start pipeStart := by
  refine ⟨fun t => ⟨0, rfl⟩, fun f => ?_, fun f hf => ?_, fun f x hx => ?_, fun f g x hx hx' => ?_⟩
  · match f with
    | 0 => decide
    | 1 => decide
    | f + 2 =>
      have hnone : pipeStart.descriptors (f + 2) = 0 := by
        apply count_eq_zero
        intro fd
        apply decide_eq_false
        simp only [pipeStart]
        split_ifs with hfd
        · rw [Option.some.injEq]
          omega
        · simp
      rw [hnone]
      exact Nat.zero_le _
  · match f with
    | 0 => cases hf
    | 1 => cases hf
    | f + 2 => rfl
  · match f with
    | 0 => cases hx; rfl
    | 1 => cases hx; rfl
    | f + 2 => cases hx
  · match f, g with
    | 0, 0 => rfl
    | 1, 1 => rfl
    | 0, 1 => cases hx; cases hx'
    | 1, 0 => cases hx; cases hx'
    | f + 2, _ => cases hx
    | 0, g + 2 => cases hx'
    | 1, g + 2 => cases hx'

def reader : Fin 2 := ⟨0, by decide⟩

def sibling : Fin 2 := ⟨1, by decide⟩

def dupTurns : List (Event (Fin 2)) :=
  [.syscall reader (.read 10) 0, .run reader, .run reader, .syscall sibling .dup 0, .run sibling, .run sibling,
    .run sibling, .run sibling, .run sibling, .syscall sibling .close 2, .run sibling, .run sibling]

theorem files_in_use_dupTurns : ∃ s', Reaches step CloseTurn pipeStart s' ∧ s'.pc reader = .readSleep 0 0 10 ∧
    s'.pc sibling = .user 0 ∧ 1 ≤ (s'.file 0).ref ∧ (s'.pipes 0).isSome :=
  have hr := exec_get_reaches pipeStart dupTurns (by decide +kernel)
  have huse := (files_in_use _ _ pipeStart_start hr).1 reader 0 (by decide +kernel)
  ⟨_, hr, by decide +kernel, by decide +kernel, huse.1, huse.2.2.2 0 (by decide +kernel)⟩

def closeTurns : List (Event (Fin 2)) :=
  [.syscall reader (.read 10) 0, .run reader, .run reader, .syscall sibling .close 0, .run sibling, .run sibling,
    .run sibling, .syscall sibling .close 1, .run sibling, .run sibling, .run sibling]

def dupRaceTurns : List (Event (Fin 2)) :=
  [.syscall reader .dup 0, .run reader, .run reader, .run reader, .run reader,
    .syscall sibling .close 2, .run sibling, .run sibling]

theorem files_in_use_fails :
    (∃ s', Reaches step Always pipeStart s' ∧ s'.pc reader = .readSleep 0 0 10 ∧ (s'.file 0).ref = 0 ∧
      filealloc s'.file = some 0 ∧ (s'.pipes 0).isNone) ∧
    ∃ s', Reaches step Always pipeStart s' ∧ (s'.pc reader).dups = some 0 ∧ (s'.file 0).ref = 0 ∧
      (step s' (.run reader)).isNone :=
  ⟨⟨_, exec_get_reaches pipeStart closeTurns (by decide +kernel), by decide +kernel, by decide +kernel,
      by decide +kernel, by decide +kernel⟩,
    ⟨_, exec_get_reaches pipeStart dupRaceTurns (by decide +kernel), by decide +kernel, by decide +kernel,
      by decide +kernel⟩⟩

end Xv6.Files
