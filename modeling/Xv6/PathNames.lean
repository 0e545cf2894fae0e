import Xv6.CacheRoom
import Xv6.LinkCounts

namespace Xv6.FileSystem

open Xv6.Triples

def components (path : List Char) : List Name :=
  ((path.splitOn '/').filter fun run => run ≠ []).map fun run => run.take DIRSIZ

theorem components_append_slash (run path : List Char) :
    components (run ++ '/' :: path) = components run ++ components path := by
  rw [components, List.splitOn_append_cons_self, List.filter_append, List.map_append]
  rfl

theorem components_slash (path : List Char) : components ('/' :: path) = components path :=
  components_append_slash [] path

theorem components_dropWhile (path : List Char) : components (path.dropWhile (· = '/')) = components path := by
  induction path with
  | nil => rfl
  | cons c path ih =>
    rw [List.dropWhile_cons]
    split_ifs with hc
    · rw [ih, of_decide_eq_true hc, components_slash]
    · rfl

theorem components_run {run : List Char} (hslash : '/' ∉ run) (hne : run ≠ []) :
    components run = [run.take DIRSIZ] := by
  rw [components, List.splitOn_eq_singleton hslash]
  simp [hne]

theorem skipelem_components (path : List Char) :
    match skipelem path with
    | none => components path = []
    | some (name, rest) => components path = name :: components rest ∧ rest.length < path.length := by
  have hskip := components_dropWhile path
  have hle := (List.dropWhile_suffix (l := path) fun c => decide (c = '/')).length_le
  unfold skipelem
  cases hstart : path.dropWhile (· = '/') with
  | nil =>
    rw [hstart] at hskip
    exact hskip.symm
  | cons c tail =>
    have hc : c ≠ '/' := by
      have hhead := List.head_dropWhile_not (l := path) (fun c => decide (c = '/'))
        (by rw [hstart]; exact List.cons_ne_nil _ _)
      simpa [hstart] using hhead
    rw [hstart] at hskip hle
    rw [← hskip]
    dsimp only
    have hsplit := List.takeWhile_append_dropWhile (p := fun c => decide (c ≠ '/')) (l := c :: tail)
    have hrun : '/' ∉ (c :: tail).takeWhile (· ≠ '/') := fun hmem => by
      simpa using List.all_eq_true.mp List.all_takeWhile _ hmem
    have hne : (c :: tail).takeWhile (· ≠ '/') ≠ [] := by simp [hc]
    generalize (c :: tail).takeWhile (· ≠ '/') = run at *
    cases hrest : (c :: tail).dropWhile (· ≠ '/') with
    | nil =>
      rw [hrest, List.append_nil] at hsplit
      rw [← hsplit] at hle ⊢
      exact ⟨components_run hrun hne, (List.length_pos_of_ne_nil hne).trans_le hle⟩
    | cons a rest =>
      have ha : a = '/' := by
        have hhead := List.head_dropWhile_not (l := c :: tail) (fun c => decide (c ≠ '/'))
          (by rw [hrest]; exact List.cons_ne_nil _ _)
        simp only [hrest, List.head_cons] at hhead
        simpa using hhead
      subst ha
      have hshort := (List.dropWhile_suffix (l := '/' :: rest) fun c => decide (c = '/')).length_le
      rw [hrest] at hsplit
      rw [components_dropWhile, ← hsplit, components_append_slash, components_slash, components_run hrun hne]
      refine ⟨rfl, ?_⟩
      rw [← hsplit, List.length_append] at hle
      have hpos := List.length_pos_of_ne_nil hne
      omega

theorem elems_components {fuel : ℕ} (path : List Char) (hfuel : path.length ≤ fuel) :
    elems fuel path = components path := by
  induction fuel generalizing path with
  | zero =>
    rw [List.eq_nil_of_length_eq_zero (Nat.le_zero.mp hfuel)]
    rfl
  | succ fuel ih =>
    have hskip := skipelem_components path
    rw [elems]
    cases hpath : skipelem path with
    | none =>
      rw [hpath] at hskip
      exact hskip.symm
    | some r =>
      rw [hpath] at hskip
      rw [hskip.1, ← ih r.2 (by omega)]

def resolveOne (t : Table) (ip : ℕ) (name : Name) : Option ℕ :=
  if (t ip).type = .dir then ((t ip).lookup name).map Prod.fst else none

def resolve (t : Table) (ip : ℕ) (names : List Name) : Option ℕ := names.foldlM (resolveOne t) ip

theorem walk_false (t : Table) (ip : ℕ) (names : List Name) :
    walk t false ip names = (resolve t ip names).map fun i => (i, []) := by
  induction names generalizing ip with
  | nil => rfl
  | cons name names ih =>
    rw [walk, resolve, List.foldlM_cons, resolveOne]
    by_cases hdir : (t ip).type = .dir
    · rw [if_neg (not_not.mpr hdir), if_neg (fun h => Bool.false_ne_true h.1), if_pos hdir]
      cases (t ip).lookup name with
      | none => rfl
      | some r => exact ih r.1
    · rw [if_pos hdir, if_neg hdir]
      rfl

theorem walk_true (t : Table) (ip : ℕ) (names : List Name) (name : Name) :
    walk t true ip (names ++ [name]) =
      (resolve t ip names).bind fun dp => if (t dp).type = .dir then some (dp, name) else none := by
  induction names generalizing ip with
  | nil =>
    rw [List.nil_append, walk]
    by_cases hdir : (t ip).type = .dir
    · rw [if_neg (not_not.mpr hdir), if_pos ⟨rfl, rfl⟩]
      exact (if_pos hdir).symm
    · rw [if_pos hdir]
      exact (if_neg hdir).symm
  | cons first names ih =>
    rw [List.cons_append, walk, resolve, List.foldlM_cons, resolveOne]
    by_cases hdir : (t ip).type = .dir
    · rw [if_neg (not_not.mpr hdir), if_neg (by simp), if_pos hdir]
      cases (t ip).lookup first with
      | none => rfl
      | some r => exact ih r.1
    · rw [if_pos hdir, if_neg hdir]
      rfl

def startOf (cwd : ℕ) (path : List Char) : ℕ := if path.head? = some '/' then ROOTINO else cwd

def resolveParent (t : Table) (ip : ℕ) (names : List Name) : Option (ℕ × Name) :=
  names.getLast?.bind fun name =>
    (resolve t ip names.dropLast).bind fun dp => if (t dp).type = .dir then some (dp, name) else none

theorem walkFrom_false (t : Table) (cwd : ℕ) (path : List Char) :
    walkFrom t false cwd path = (resolve t (startOf cwd path) (components path)).map fun i => (i, []) := by
  rw [walkFrom, elems_components path le_rfl, walk_false]
  rfl

theorem walkFrom_true (t : Table) (cwd : ℕ) (path : List Char) :
    walkFrom t true cwd path = resolveParent t (startOf cwd path) (components path) := by
  rw [walkFrom, elems_components path le_rfl]
  obtain hnil | ⟨names, name, hlast⟩ := (components path).eq_nil_or_concat
  · rw [hnil]
    rfl
  · rw [hlast, List.concat_eq_append, walk_true, resolveParent,
      List.getLast?_append_of_ne_nil _ (List.cons_ne_nil _ _), List.dropLast_concat]
    rfl

theorem resolve_last {t : Table} {ip dp : ℕ} {names : List Name} {name : Name}
    (h : resolveParent t ip names = some (dp, name)) : resolve t ip names = resolveOne t dp name := by
  obtain ⟨last, hlast, hrest⟩ := Option.bind_eq_some_iff.mp h
  obtain ⟨d, hd, hdir⟩ := Option.bind_eq_some_iff.mp hrest
  obtain ⟨-, hsome⟩ := Option.ite_none_right_eq_some.mp hdir
  cases hsome
  rw [List.getLast?_eq_some_iff] at hlast
  obtain ⟨front, rfl⟩ := hlast
  rw [List.dropLast_concat] at hd
  rw [resolve, List.foldlM_append]
  change (resolve t ip front >>= fun d => [name].foldlM (resolveOne t) d) = _
  rw [hd]
  exact bind_pure (resolveOne t dp name)

structure Idle (s : State) : Prop where
  sane : Sane s.inode
  root : (s.inode ROOTINO).type ≠ .free
  holds : Holds s [] [] s
  unlocked : ∀ i, s.icache.locked i = false

theorem Idle.roomy {s : State} (h : Idle s) : Roomy s [] [] [] s := ⟨h.holds, h.unlocked, rfl⟩

section

variable {s : State} {cwd : ℕ}

theorem walkFrom_room (hs : Idle s) (hcwd : s.users cwd ≠ 0) (htype : (s.inode cwd).type ≠ .free)
    (hroom : s.icache.used + 1 < NINODE) (parent : Bool) (path : List Char) :
    Triple (fun x => x = s) (namexFrom parent cwd path)
      (fun r s' => walkFrom s.inode parent cwd path = r ∧ s' = s.setIcache s'.icache) fun _ => False := by
  have hwalk : Triple (Roomy s [] [] []) (namexFrom parent cwd path)
    (fun r s' => walkFrom s.inode parent cwd path = r ∧
      Roomy s ((r.map Prod.fst).toList ++ []) [] [] s') fun _ => False :=
    namexFrom_room hs.sane hs.root hcwd htype hroom
  exact (hwalk.here hs.roomy).post fun r s' h => ⟨h.1, h.2.holds.same⟩

theorem namei_room (hs : Idle s) (hcwd : s.users cwd ≠ 0) (htype : (s.inode cwd).type ≠ .free)
    (hroom : s.icache.used + 1 < NINODE) (path : List Char) :
    ∃ s', (namei cwd path).run s = .ok (resolve s.inode (startOf cwd path) (components path), s') ∧
      s' = s.setIcache s'.icache := by
  obtain ⟨r, s', hrun, hr, hsame⟩ := (walkFrom_room hs hcwd htype hroom false path).returns rfl
  refine ⟨s', ?_, hsame⟩
  rw [namei, run_bind_after hrun, ← hr, walkFrom_false]
  cases resolve s.inode (startOf cwd path) (components path) <;> rfl

theorem nameiparent_room (hs : Idle s) (hcwd : s.users cwd ≠ 0) (htype : (s.inode cwd).type ≠ .free)
    (hroom : s.icache.used + 1 < NINODE) (path : List Char) :
    ∃ s', (nameiparent cwd path).run s = .ok (resolveParent s.inode (startOf cwd path) (components path), s') ∧
      s' = s.setIcache s'.icache := by
  obtain ⟨r, s', hrun, rfl, hsame⟩ := (walkFrom_room hs hcwd htype hroom true path).returns rfl
  rw [walkFrom_true] at hrun
  exact ⟨s', hrun, hsame⟩

theorem path_resolution (hs : Idle s) (hcwd : s.users cwd ≠ 0) (htype : (s.inode cwd).type ≠ .free)
    (hroom : s.icache.used + 1 < NINODE) (path : List Char) :
    (∀ fuel, path.length ≤ fuel → elems fuel path = components path) ∧
    (∃ s', (namei cwd path).run s = .ok (resolve s.inode (startOf cwd path) (components path), s') ∧
      s' = s.setIcache s'.icache) ∧
    (∃ s', (nameiparent cwd path).run s = .ok (resolveParent s.inode (startOf cwd path) (components path), s') ∧
      s' = s.setIcache s'.icache) ∧
    (∀ dp name, resolveParent s.inode (startOf cwd path) (components path) = some (dp, name) →
      resolve s.inode (startOf cwd path) (components path) = resolveOne s.inode dp name) ∧
    ∀ path', components path' = components path → (path'.head? = some '/' ↔ path.head? = some '/') →
      ((namei cwd path').run s).map Prod.fst = ((namei cwd path).run s).map Prod.fst := by
  refine ⟨fun fuel hfuel => elems_components path hfuel, namei_room hs hcwd htype hroom path,
    nameiparent_room hs hcwd htype hroom path, fun dp name h => resolve_last h, ?_⟩
  intro path' hsame hslash
  obtain ⟨s₁, hrun, -⟩ := namei_room hs hcwd htype hroom path
  obtain ⟨s₂, hrun', -⟩ := namei_room hs hcwd htype hroom path'
  have hstart : startOf cwd path' = startOf cwd path := by
    rw [startOf, startOf]
    simp only [hslash]
  rw [hrun, hrun', hsame, hstart]
  rfl

end

theorem idle_boot {files : List (List Char × ℕ)} (h : Fits files) : Idle (boot files).state := by
  obtain ⟨hbase, hholds⟩ := (show Good True [] [] (boot files).state from boot_good h).base
  exact ⟨hbase.sane trivial, linked_type hbase.tree.root.1, hholds, fun _ => rfl⟩

def deep : List Char := ['/', '/', 'i', 'n', 'i', 't', '/', 'x', '/']

def upward : List Char := ['/', '.', '.', '/', '/', '.', '/', 'i', 'n', 'i', 't', '/']

theorem path_resolution_boot : components upward = [['.', '.'], ['.'], ['i', 'n', 'i', 't']] ∧
    (∃ s', (namei ROOTINO upward).run (boot initImage).state = .ok (some 2, s')) ∧
    (∃ s', (nameiparent ROOTINO upward).run (boot initImage).state = .ok (some (ROOTINO,
      ['i', 'n', 'i', 't']), s')) ∧ ∃ s', (namei ROOTINO deep).run (boot initImage).state = .ok (none, s') := by
  have hcwd : (boot initImage).state.users ROOTINO ≠ 0 := by
    rw [boot_users]
    decide
  have hidle := idle_boot initImage_fits
  obtain ⟨-, ⟨s₁, hnamei, -⟩, ⟨s₂, hparent, -⟩, -⟩ := path_resolution hidle hcwd hidle.root (by decide) upward
  obtain ⟨-, ⟨s₃, hdeep, -⟩, -⟩ := path_resolution hidle hcwd hidle.root (by decide) deep
  have hinit : resolve (boot initImage).state.inode (startOf ROOTINO upward) (components upward) = some 2 := by
    decide +kernel
  have hroot : resolveParent (boot initImage).state.inode (startOf ROOTINO upward) (components upward) =
      some (ROOTINO, ['i', 'n', 'i', 't']) := by decide +kernel
  have hnone : resolve (boot initImage).state.inode (startOf ROOTINO deep) (components deep) = none := by
    decide +kernel
  rw [hinit] at hnamei
  rw [hroot] at hparent
  rw [hnone] at hdeep
  exact ⟨by decide, ⟨s₁, hnamei⟩, ⟨s₂, hparent⟩, s₃, hdeep⟩

theorem nameiparent_fails : Idle (boot initImage).state ∧
    resolve (boot initImage).state.inode ROOTINO (components deep).dropLast = some 2 ∧
    ((nameiparent ROOTINO deep).run (boot initImage).state).map Prod.fst = .ok none := by
  exact ⟨idle_boot initImage_fits, by decide +kernel, by decide +kernel⟩

end Xv6.FileSystem
