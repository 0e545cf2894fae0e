import Xv6.FileSteps

namespace Xv6.Files

open Xv6.Runs Xv6.Counting Function

section

variable {Thread : Type} [Fintype Thread]

def State.descriptors (s : State Thread) (f : ℕ) : ℕ := count (fun g => g = some f) s.ofile

def State.dups (s : State Thread) (f : ℕ) : ℕ := count (fun pc => pc.dups = some f) s.pc

def State.closers (s : State Thread) (f : ℕ) : ℕ := count (fun pc => pc.closes = some f) s.pc

structure Kept (s : State Thread) : Prop where
  account : ∀ f, s.descriptors f + s.closers f + s.shared f ≤ (s.file f).ref + s.dups f
  kept : ∀ t f, (s.pc t).uses = some f → s.closers f + s.shared f + 1 ≤ (s.file f).ref

variable {f : ℕ} {s : State Thread}

theorem uses_of_dups {pc : Pc} (h : pc.dups = some f) : pc.uses = some f := by
  cases pc with
  | filedup g fd => exact h
  | _ => cases h

theorem exists_of_dups (h : 0 < s.dups f) : ∃ t, (s.pc t).uses = some f := by
  by_contra hno
  rw [State.dups, count_eq_zero] at h
  · exact absurd h (Nat.lt_irrefl 0)
  · intro t
    apply decide_eq_false
    intro ht
    exact hno ⟨t, uses_of_dups ht⟩

theorem Kept.of_descriptor {fd : Fin NOFILE} (hi : Kept s) (hfd : s.ofile fd = some f) :
    s.closers f + s.shared f + 1 ≤ (s.file f).ref := by
  have hcount := count_update (fun g => decide (g = some f)) s.ofile fd none
  simp only [hfd, decide_true, ↓reduceIte, reduceCtorEq, decide_false, Bool.false_eq_true, Nat.add_zero] at hcount
  have hdesc : 1 ≤ s.descriptors f := by
    unfold State.descriptors
    omega
  by_cases hdups : 0 < s.dups f
  · obtain ⟨t, ht⟩ := exists_of_dups hdups
    exact hi.kept t f ht
  · have haccount := hi.account f
    omega

theorem Kept.unused (hi : Kept s) (hf : (s.file f).ref = 0) (t : Thread) :
    (s.pc t).uses ≠ some f := by
  intro h
  have hkept := hi.kept t f h
  omega

theorem Kept.dups_eq_zero (hi : Kept s) (hf : (s.file f).ref = 0) : s.dups f = 0 := by
  by_contra hdups
  obtain ⟨t, ht⟩ := exists_of_dups (Nat.pos_of_ne_zero hdups)
  exact hi.unused hf t ht

end

variable {Thread : Type} [Fintype Thread] [DecidableEq Thread]

def Pc.clears : Pc → Option (ℕ × Fin NOFILE)
  | .clear f fd => some (f, fd)
  | _ => none

def ClosesUnused (s : State Thread) (f : ℕ) (fd : Fin NOFILE) : Prop :=
  s.ofile fd = some f ∧ ((∃ u, (s.pc u).uses = some f) → s.dups f + 2 ≤ s.descriptors f)

def CloseTurn (s : State Thread) : Event Thread → Prop
  | .run t => ∀ x ∈ (s.pc t).clears, ClosesUnused s x.1 x.2
  | _ => True

instance (s : State Thread) (f : ℕ) (fd : Fin NOFILE) : Decidable (ClosesUnused s f fd) :=
  inferInstanceAs (Decidable (_ ∧ _))

instance (s : State Thread) : ∀ e, Decidable (CloseTurn s e)
  | .run t => inferInstanceAs (Decidable (∀ x ∈ (s.pc t).clears, ClosesUnused s x.1 x.2))
  | .syscall _ _ _ | .badArgs _ | .io _ _ | .wakeup _ | .kill | .filealloc | .openInode _ _ _ _ | .pipealloc _ _ _
  | .filedup _ | .fileclose _ _ | .piperead _ _ | .pipewrite _ _ => inferInstanceAs (Decidable True)

section

variable {s s' : State Thread} {t : Thread} {pc : Pc} {f : ℕ}

theorem dups_update (hpc : s'.pc = update s.pc t pc) (f : ℕ) :
    s'.dups f + (if (s.pc t).dups = some f then 1 else 0) = s.dups f + (if pc.dups = some f then 1 else 0) := by
  simpa only [State.dups, hpc, decide_eq_true_eq] using count_update
    (fun pc => decide (pc.dups = some f)) s.pc t pc

theorem closers_update (hpc : s'.pc = update s.pc t pc) (f : ℕ) :
    s'.closers f + (if (s.pc t).closes = some f then 1 else 0) =
      s.closers f + (if pc.closes = some f then 1 else 0) := by
  simpa only [State.closers, hpc, decide_eq_true_eq] using
    count_update (fun pc => decide (pc.closes = some f)) s.pc t pc

variable {fd : Fin NOFILE}

omit [Fintype Thread] [DecidableEq Thread] in
theorem descriptors_update {g : Option ℕ} (h : s'.ofile = update s.ofile fd g) (f : ℕ) :
    s'.descriptors f + (if s.ofile fd = some f then 1 else 0) = s.descriptors f +
    (if g = some f then 1 else 0) := by
  simpa only [State.descriptors, h, decide_eq_true_eq] using
    count_update (fun g => decide (g = some f)) s.ofile fd g

omit [Fintype Thread] in
theorem uses_update (hpc : s'.pc = update s.pc t pc) {u : Thread} (hu : (s'.pc u).uses = some f) :
    u = t ∧ pc.uses = some f ∨ u ≠ t ∧ (s.pc u).uses = some f := by
  rw [hpc] at hu
  by_cases hut : u = t
  · rw [hut, update_self] at hu
    exact .inl ⟨hut, hu⟩
  · rw [update_of_ne hut] at hu
    exact .inr ⟨hut, hu⟩

theorem kept_moves (hi : Kept s) (hdups : (s.pc t).dups = none ∧ pc.dups = none)
    (hcloses : (s.pc t).closes = none ∧ pc.closes = none)
    (huses : ∀ f, pc.uses = some f → (s.pc t).uses = some f ∨ ∃ fd, s.ofile fd = some f)
    (hpc : s'.pc = update s.pc t pc) (hofile : s'.ofile = s.ofile) (hshared : s'.shared = s.shared)
    (hfile : ∀ f, (s'.file f).fixed = (s.file f).fixed) : Kept s' := by
  have hdups (f : ℕ) : s'.dups f = s.dups f := by simpa [hdups] using dups_update hpc f
  have hclosers (f : ℕ) : s'.closers f = s.closers f := by simpa [hcloses] using closers_update hpc f
  have href (f : ℕ) : (s'.file f).ref = (s.file f).ref := (File.of_fixed (hfile f)).1
  refine ⟨fun f => ?_, fun u f hu => ?_⟩
  · rw [hdups, hclosers, hshared, href, State.descriptors, hofile]
    exact hi.account f
  · rw [hclosers, hshared, href]
    obtain ⟨rfl, hnew⟩ | ⟨_, hold⟩ := uses_update hpc hu
    · obtain hold | ⟨fd, hfd⟩ := huses f hnew
      · exact hi.kept u f hold
      · exact hi.of_descriptor hfd
    · exact hi.kept u f hold

theorem kept_stores (hi : Kept s) (hpc : s.pc t = .fdstore f fd)
    (h : s' = { s.goto t (.filedup f fd) with ofile := update s.ofile fd (some f) }) : Kept s' := by
  have hnew : s'.pc = update s.pc t (.filedup f fd) := by rw [h]; rfl
  have hofile : s'.ofile = update s.ofile fd (some f) := by rw [h]
  have hfile : s'.file = s.file ∧ s'.shared = s.shared := by rw [h]; exact ⟨rfl, rfl⟩
  have hclosers (g : ℕ) : s'.closers g = s.closers g := by simpa [hpc, Pc.closes] using closers_update hnew g
  refine ⟨fun g => ?_, fun u g hu => ?_⟩
  · have hdups := dups_update hnew g
    have hdesc := descriptors_update hofile g
    have haccount := hi.account g
    rw [hclosers, hfile.1, hfile.2]
    simp only [hpc, Pc.dups, reduceCtorEq, ↓reduceIte, Option.some.injEq] at hdups hdesc
    omega
  · rw [hclosers, hfile.1, hfile.2]
    obtain ⟨rfl, hf⟩ | ⟨_, hold⟩ := uses_update hnew hu
    · apply hi.kept u
      rw [hpc]
      exact hf
    · exact hi.kept u g hold

theorem kept_dups (hi : Kept s) (hpc : s.pc t = .filedup f fd)
    (h : s' = { s.goto t (.user fd.val) with
      file := update s.file f { s.file f with ref := (s.file f).ref + 1 } }) : Kept s' := by
  have hnew : s'.pc = update s.pc t (.user fd.val) := by rw [h]; rfl
  have hsame : s'.ofile = s.ofile ∧ s'.shared = s.shared := by rw [h]; exact ⟨rfl, rfl⟩
  have hclosers (g : ℕ) : s'.closers g = s.closers g := by simpa [hpc, Pc.closes] using closers_update hnew g
  have href (g : ℕ) : (s'.file g).ref = (s.file g).ref + if f = g then 1 else 0 := by
    rw [h]
    by_cases hg : f = g
    · simp [hg]
    · simp [hg, update_of_ne (Ne.symm hg)]
  refine ⟨fun g => ?_, fun u g hu => ?_⟩
  · have hdups := dups_update hnew g
    have haccount := hi.account g
    rw [hclosers, State.descriptors, hsame.1, hsame.2, href, ← State.descriptors]
    simp only [hpc, Pc.dups, reduceCtorEq, ↓reduceIte, Option.some.injEq] at hdups
    omega
  · rw [hclosers, hsame.2, href]
    obtain ⟨_, hf⟩ | ⟨_, hold⟩ := uses_update hnew hu
    · cases hf
    · have hkept := hi.kept u g hold
      omega

theorem kept_clears (hi : Kept s) (hpc : s.pc t = .clear f fd) (hok : ClosesUnused s f fd)
    (h : s' = { s.goto t (.fileclose f) with ofile := update s.ofile fd none }) : Kept s' := by
  have hnew : s'.pc = update s.pc t (.fileclose f) := by rw [h]; rfl
  have hofile : s'.ofile = update s.ofile fd none := by rw [h]
  have hfile : s'.file = s.file ∧ s'.shared = s.shared := by rw [h]; exact ⟨rfl, rfl⟩
  have hdups (g : ℕ) : s'.dups g = s.dups g := by simpa [hpc, Pc.dups] using dups_update hnew g
  have hclosers (g : ℕ) : s'.closers g = s.closers g + if f = g then 1 else 0 := by
    simpa [hpc, Pc.closes] using closers_update hnew g
  refine ⟨fun g => ?_, fun u g hu => ?_⟩
  · have hdesc := descriptors_update hofile g
    have haccount := hi.account g
    rw [hdups, hclosers, hfile.1, hfile.2]
    simp only [hok.1, Option.some.injEq, reduceCtorEq, ↓reduceIte] at hdesc
    omega
  · rw [hclosers, hfile.1, hfile.2]
    obtain ⟨_, hf⟩ | ⟨_, hold⟩ := uses_update hnew hu
    · cases hf
    · by_cases hg : f = g
      · -- the other descriptor
        subst hg
        have hmore := hok.2 ⟨u, hold⟩
        have haccount := hi.account f
        rw [if_pos rfl]
        omega
      · rw [if_neg hg]
        exact hi.kept u g hold

theorem kept_loses {ff : File} {shared : ℕ → ℕ} (hi : Kept s) (hff : ff.ref = (s.file f).ref - 1)
    (hpos : 1 ≤ (s.file f).ref) (huses : pc.uses = none) (hnew : pc.dups = none) (hold : (s.pc t).dups = none)
    (hless : (s.goto t pc).closers f + shared f + 1 ≤ s.closers f + s.shared f)
    (hother : ∀ g, g ≠ f → (s.goto t pc).closers g + shared g = s.closers g + s.shared g)
    (h : s' = { s.goto t pc with file := update s.file f ff, shared := shared }) : Kept s' := by
  have hdups (g : ℕ) : (s.goto t pc).dups g = s.dups g := by
    have hupdate : (s.goto t pc).dups g + _ = s.dups g + _ := dups_update rfl g
    simpa [hold, hnew] using hupdate
  have hsome {u : Thread} {g : ℕ} (hu : ((s.goto t pc).pc u).uses = some g) : (s.pc u).uses = some g := by
    obtain ⟨_, hf⟩ | ⟨_, hold⟩ := uses_update (goto_pcs s t pc) hu
    · rw [huses] at hf
      cases hf
    · exact hold
  subst h
  refine ⟨fun g => ?_, fun u g hu => ?_⟩
  · change s.descriptors g + (s.goto t pc).closers g + shared g ≤ (update s.file f ff g).ref + (s.goto t pc).dups g
    have haccount := hi.account g
    rw [hdups]
    by_cases hg : g = f
    · subst hg
      rw [update_self]
      omega
    · have hsame := hother g hg
      rw [update_of_ne hg]
      omega
  · change (s.goto t pc).closers g + shared g + 1 ≤ (update s.file f ff g).ref
    have hkept := hi.kept u g (hsome hu)
    by_cases hg : g = f
    · subst hg
      rw [update_self]
      omega
    · have hsame := hother g hg
      rw [update_of_ne hg]
      omega

theorem kept_closes {r : State Thread} (hi : Kept s) (hr : Closing s t f r) (h : fileclose r t f = some s') :
    Kept s' := by
  obtain ⟨hpos, ff, pc, hs', hff, huses, hdups, hcloses, _⟩ := fileclose_spec h
  have hclosers (g : ℕ) := closers_update (goto_pcs s t pc) g
  simp only [hcloses, reduceCtorEq, ↓reduceIte, Nat.add_zero] at hclosers
  cases hr with
  | own hpc =>
    simp only [hpc, Pc.closes, Option.some.injEq] at hclosers
    refine kept_loses hi hff hpos huses hdups (by rw [hpc]; rfl) ?_ (fun g hg => ?_) hs'
    · have hc := hclosers f
      rw [if_pos rfl] at hc
      rw [State.goto_shared]
      omega
    · have hc := hclosers g
      rw [if_neg (Ne.symm hg)] at hc
      rw [State.goto_shared]
      omega
  | other eax hpc hshared =>
    simp only [hpc, Pc.closes, reduceCtorEq, ↓reduceIte, Nat.add_zero] at hclosers
    refine kept_loses hi hff hpos huses hdups (by rw [hpc]; rfl) ?_ (fun g hg => ?_) hs'
    · simp only [hclosers, State.goto_shared, update_self]
      omega
    · simp only [hclosers, State.goto_shared, update_of_ne hg]

omit [DecidableEq Thread] in
theorem kept_others (hi : Kept s) (hpc : s'.pc = s.pc) (hofile : s'.ofile = s.ofile)
    (hless : ∀ f, (s.file f).ref + s'.shared f ≤ (s'.file f).ref + s.shared f ∨
      (s.file f).ref = 0 ∧ s'.shared f ≤ (s'.file f).ref) : Kept s' := by
  have hdups (f : ℕ) : s'.dups f = s.dups f := by rw [State.dups, hpc, State.dups]
  have hclosers (f : ℕ) : s'.closers f = s.closers f := by rw [State.closers, hpc, State.closers]
  have hdesc (f : ℕ) : s'.descriptors f = s.descriptors f := by rw [State.descriptors, hofile, State.descriptors]
  refine ⟨fun f => ?_, fun u f hu => ?_⟩
  · have haccount := hi.account f
    rw [hdups, hclosers, hdesc]
    obtain hle | ⟨hzero, hle⟩ := hless f
    · omega
    · have hnone := hi.dups_eq_zero hzero
      omega
  · rw [hpc] at hu
    have hkept := hi.kept u f hu
    rw [hclosers]
    obtain hle | ⟨hzero, _⟩ := hless f
    · omega
    · omega

theorem kept_step : Preserves (@step Thread _) CloseTurn Kept := by
  intro s e s' hi hok h
  cases step_change h with
  | quiet t pc hq hpc hofile hshared hfile _ =>
    exact kept_moves hi ⟨hq.old.1, hq.new.1⟩ ⟨hq.old.2.1, hq.new.2.1⟩ hq.uses hpc hofile hshared hfile
  | same hpc hofile hshared hfile _ =>
    apply kept_others hi hpc hofile
    intro f
    rw [hshared, hfile]
    exact .inl (Nat.le_refl _)
  | stores t f fd hpc hs => exact kept_stores hi hpc hs
  | dups t f fd hpc hs => exact kept_dups hi hpc hs
  | clears t f fd he hpc hs =>
    subst he
    exact kept_clears hi hpc (hok (f, fd) (by rw [hpc]; rfl)) hs
  | closes t f r hr hs => exact kept_closes hi hr hs
  | ends t p w pipe hpc hp hs =>
    subst hs
    exact kept_moves hi (by rw [hpc]; exact ⟨rfl, rfl⟩) (by rw [hpc]; exact ⟨rfl, rfl⟩) (by simp [Pc.uses])
      (goto_pcs s t (.user 0)) rfl rfl (fun _ => rfl)
  | allocs f hf hs =>
    subst hs
    refine kept_others hi rfl rfl fun g => ?_
    by_cases hg : g = f
    · subst hg
      right
      simp [hf]
    · left
      simp [update_of_ne hg]
  | opens f ff _ href _ hs =>
    subst hs
    refine kept_others hi rfl rfl fun g => .inl ?_
    by_cases hg : g = f
    · subst hg
      simp [href]
    · simp [update_of_ne hg]
  | pipes f₀ f₁ p _ _ hne _ hs =>
    subst hs
    refine kept_others hi rfl rfl fun g => .inl ?_
    by_cases hg₁ : g = f₁
    · subst hg₁
      simp [pipeFile]
    · by_cases hg₀ : g = f₀
      · subst hg₀
        simp [update_of_ne hg₁, pipeFile]
      · simp [update_of_ne hg₁, update_of_ne hg₀]
  | shares f _ hs =>
    subst hs
    refine kept_others hi rfl rfl fun g => .inl ?_
    by_cases hg : g = f
    · subst hg
      simp only [update_self]
      omega
    · simp [update_of_ne hg]

end

end Xv6.Files
