import Xv6.ImageTree
import Xv6.LinkCalls

namespace Xv6.FileSystem

open Xv6.Counting Xv6.Runs Xv6.Triples Function

def Call.newPath : Call → Option (List Char)
  | .sysOpen path omode => if O_CREATE omode then some path else none
  | .sysMkdir path => some path
  | .sysMknod path _ _ => some path
  | .sysLink _ new => some new
  | _ => none

def Call.oldPath : Call → Option (List Char)
  | .sysUnlink path => some path
  | _ => none

def ParentLinked (s : System) (e : Fin NPROC × Call) : Prop :=
  ∀ x ∈ s.state.proc e.1, ∀ path ∈ e.2.newPath, ∀ r ∈ walkFrom s.state.inode true x.cwd path,
    1 ≤ (s.state.inode r.1).nlink

def ParentKept (s : System) (e : Fin NPROC × Call) : Prop :=
  ∀ x ∈ s.state.proc e.1, ∀ path ∈ e.2.oldPath, ∀ r ∈ walkFrom s.state.inode true x.cwd path,
    ∀ q ∈ (s.state.inode r.1).lookup r.2, (s.state.inode q.1).type = .dir → ∀ j < NINODES,
      (s.state.inode j).type = .dir → (s.state.inode j).nlink = 0 → (s.state.inode j).parent ≠ q.1

def Orderly (s : System) (e : Fin NPROC × Call) : Prop := ParentLinked s e ∧ ParentKept s e

instance (s : System) (e : Fin NPROC × Call) : Decidable (ParentLinked s e) := by
  unfold ParentLinked
  infer_instance

instance (s : System) (e : Fin NPROC × Call) : Decidable (ParentKept s e) := by
  unfold ParentKept
  infer_instance

instance (s : System) (e : Fin NPROC × Call) : Decidable (Orderly s e) := inferInstanceAs (Decidable (_ ∧ _))

section

variable {strict : Prop} {b : State} {p : Fin NPROC} {x : Proc} {c : Call} {s s' : System} {e : Fin NPROC × Call}
  {files : List (List Char × ℕ)}

theorem call_spec (hb : Good strict [] [] b) (hp : b.proc p = some x)
    (hnew : ∀ path ∈ c.newPath, ∀ r ∈ walkFrom b.inode true x.cwd path, 1 ≤ (b.inode r.1).nlink)
    (hold : strict → ∀ path ∈ c.oldPath, ∀ r ∈ walkFrom b.inode true x.cwd path, ∀ q ∈ (b.inode r.1).lookup r.2,
      (b.inode q.1).type = .dir → ∀ j < NINODES, (b.inode j).type = .dir → (b.inode j).nlink = 0 →
        (b.inode j).parent ≠ q.1) :
    Triple (fun s => s = b) (call p x c) (fun _ => Good strict [] []) (Safe strict) := by
  cases c with
  | sysOpen path omode => exact sysOpen_spec hb hp (fun hcreate => hnew path (if_pos hcreate))
  | sysMkdir path => exact sysCreate_spec hb hp (by decide) (hnew path rfl)
  | sysMknod path major minor => exact sysCreate_spec hb hp (by decide) (hnew path rfl)
  | sysLink old new => exact sysLink_spec hb hp (hnew new rfl)
  | sysUnlink path =>
    apply sysUnlink_spec hb hp
    intro hs r hr q hq hdir j hj
    exact hold hs path rfl r hr q hq hdir j (hb.tree.lt (by rw [hj]; decide)).2 hj
  | sysChdir path => exact sysChdir_spec hb hp
  | sysClose fd => exact sysClose_spec hb hp
  | fork child => exact fork_spec hb hp
  | exit => exact exit_spec hb hp

theorem good_step (h : Good strict [] [] s.state) (hnew : ParentLinked s e) (hold : strict → ParentKept s e)
    (hstep : step s e = some s') : Good strict [] [] s'.state ∧ (strict → s'.stopped ≠ some .ilockNoType) := by
  unfold step at hstep
  split at hstep
  · rename_i x _ hp
    have hcall := call_spec h hp (hnew x hp) (fun hs => hold hs x hp) s.state rfl
    cases hrun : (call e.1 x e.2).run s.state with
    | ok r =>
      rw [hrun] at hstep hcall
      cases hstep
      exact ⟨hcall, fun _ hstop => by cases hstop⟩
    | error stop =>
      rw [hrun] at hstep hcall
      cases hstep
      exact ⟨h, fun hs hstop => hcall hs (Option.some.inj hstop)⟩
  · cases hstep

theorem boot_users (i : ℕ) : (boot files).state.users i = if ROOTINO = i then 1 else 0 := by
  have hsum := users_setProc (P := fun _ => none) (F := fun _ => ⟨0, none⟩) (p := initproc)
    (some ⟨ROOTINO, fun _ => none⟩) i
  have hzero : users (fun _ => none) (fun _ => ⟨0, none⟩) i = 0 := by
    simp [users, count]
  simp only [Option.any_none, Option.any_some, decide_eq_true_eq, Bool.false_eq_true, if_false, hzero] at hsum
  change users (update (fun _ => none) initproc (some ⟨ROOTINO, fun _ => none⟩)) (fun _ => ⟨0, none⟩) i = _
  omega

theorem boot_good (h : Fits files) : Good strict [] [] (boot files).state := by
  obtain ⟨htree, hone, hspace⟩ := mkfs_tree h
  have hnlink {i : ℕ} (hlive : ((mkfs files).inode i).type ≠ .free) : ((mkfs files).inode i).nlink ≠ 0 := by
    rw [hone i hlive]
    decide
  refine ⟨rfl, rfl, htree, hspace, fun i => ?_, fun i hvalid => (Bool.false_ne_true hvalid).elim,
    fun i hi => (List.not_mem_nil hi).elim,
    fun i hlive hzero => absurd hzero (hnlink hlive), fun i hi => ?_, fun _ d hd hzero => ?_⟩
  · rw [boot_users]
    change update (fun _ => 0) ROOTINO 1 i = _
    by_cases hi : i = ROOTINO
    · subst hi
      rw [update_self]
      rfl
    · rw [update_of_ne hi, if_neg (Ne.symm hi)]
      rfl
  · rw [boot_users] at hi
    have hroot : ROOTINO = i := by
      by_contra hne
      exact hi (if_neg hne)
    subst hroot
    exact linked_type htree.root.1
  · refine absurd hzero (hnlink ?_)
    change ((mkfs files).inode d).type = _ at hd
    rw [hd]
    decide

theorem no_dangling_entry (hfiles : Fits files) (hr : Reaches step Orderly (boot files) s) :
    Sane s.state.inode ∧ s.stopped ≠ some .ilockNoType := by
  have hkept : Preserves step Orderly (fun s => Good True [] [] s.state ∧ s.stopped ≠ some .ilockNoType) := by
    rintro s e s' ⟨h, -⟩ ⟨hnew, hold⟩ hstep
    obtain ⟨hgood, hstop⟩ := good_step h hnew (fun _ => hold) hstep
    exact ⟨hgood, hstop trivial⟩
  obtain ⟨hgood, hstop⟩ := hr.invariant hkept ⟨boot_good hfiles, fun h => by cases h⟩
  exact ⟨hgood.base.1.sane trivial, hstop⟩

end

def initImage : List (List Char × ℕ) := [(['_', 'i', 'n', 'i', 't'], 1000)]

theorem initImage_fits : Fits initImage := by decide +kernel

def byInit (l : List Call) : List (Fin NPROC × Call) := l.map fun c => (initproc, c)

def dirA : List Char := ['/', 'a']

def dirB : List Char := ['/', 'a', '/', 'b']

def removeCurrent : List Call :=
  [.sysMkdir dirA, .sysMkdir dirB, .sysChdir dirB, .sysUnlink dirB, .sysChdir dotdot]

theorem no_dangling_entry_removeCurrent : ∃ s, Reaches step Orderly (boot initImage) s ∧
    (s.state.inode 3).type = .dir ∧ (s.state.inode 4).type = .free ∧
    Sane s.state.inode ∧ s.stopped ≠ some .ilockNoType := by
  have hr : Reaches step Orderly (boot initImage) _ :=
    exec_get_reaches _ (byInit removeCurrent) (by decide +kernel)
  exact ⟨_, hr, by decide +kernel, by decide +kernel, no_dangling_entry initImage_fits hr⟩

def removeParent : List Call :=
  [.sysMkdir dirA, .sysMkdir dirB, .sysChdir dirB, .sysUnlink dirB, .sysUnlink dirA, .sysChdir dotdot]

theorem no_dangling_entry_fails : ∃ s, Reaches step Always (boot initImage) s ∧ ¬Sane s.state.inode ∧
    s.stopped = some .ilockNoType := by
  have hr : Reaches step Always (boot initImage) _ :=
    exec_get_reaches _ (byInit removeParent) (by decide +kernel)
  refine ⟨_, hr, fun h => ?_, by decide +kernel⟩
  have hfree := h 4 (by decide +kernel) ⟨3, dotdot⟩ (by decide +kernel) (by decide)
  exact absurd hfree (by decide +kernel)

section

variable {files : List (List Char × ℕ)} {s : System}

theorem link_counts (hfiles : Fits files) (hr : Reaches step ParentLinked (boot files) s) :
    (∀ i, (s.state.inode i).type ≠ .free → (s.state.inode i).nlink = links s.state.inode i ∧
      (-2 ^ 15 ≤ (s.state.inode i).nlink ∧ (s.state.inode i).nlink < 2 ^ 15) ∧
      (1 ≤ (s.state.inode i).nlink → Reachable s.state.inode i)) ∧
    ∀ i, links s.state.inode i = 0 → s.state.users i = 0 → (s.state.inode i).type = .free := by
  have hkept : Preserves step ParentLinked (fun s => Good False [] [] s.state) := by
    intro s e s' h hnew hstep
    exact (good_step h hnew False.elim hstep).1
  have hgood := hr.invariant hkept (boot_good hfiles)
  refine ⟨fun i hi => ⟨hgood.tree.nlink i hi, ?_, hgood.tree.reachable hi⟩, fun i hlinks husers => ?_⟩
  · obtain ⟨hpos, hlt⟩ := hgood.base.1.nlink_range hi
    constructor
    · omega
    · omega
  · by_contra hi
    have hzero : (s.state.inode i).nlink = 0 := by
      rw [hgood.tree.nlink i hi, hlinks]
      rfl
    exact (hgood.base.2.unlinked i hi hzero).1 husers

theorem directories_form_tree (hfiles : Fits files) (hr : Reaches step ParentLinked (boot files) s) {x : ℕ}
    (hx : (s.state.inode x).linked) :
    (x ≠ ROOTINO → (s.state.inode (s.state.inode x).parent).linked ∧
      (s.state.inode (s.state.inode x).parent).holds x = 1 ∧
      ∀ d, (s.state.inode d).linked → (s.state.inode d).holds x ≠ 0 → (s.state.inode x).parent = d) ∧
    ∃ n, (fun d => (s.state.inode d).parent)^[n] x = ROOTINO := by
  have htree : Tree s.state.inode :=
    (hr.invariant (fun _ _ _ h hnew hstep => (good_step h hnew False.elim hstep).1) (boot_good hfiles)).tree
  refine ⟨fun hne => ⟨(htree.one x hx hne).1, (htree.one x hx hne).2, fun d hd => htree.up d x hd hx.1⟩, ?_⟩
  obtain ⟨depth, hdepth⟩ := htree.depth
  induction hn : depth x using Nat.strong_induction_on generalizing x with
  | _ n ih =>
    by_cases hroot : x = ROOTINO
    · exact ⟨0, hroot⟩
    · obtain ⟨m, hm⟩ := ih _ (hn ▸ hdepth x hx hroot) (htree.one x hx hroot).1 rfl
      exact ⟨m + 1, hm⟩

end

theorem directories_form_tree_dirB : ∃ s, Reaches step ParentLinked (boot initImage) s ∧
    (s.state.inode 4).linked ∧ (s.state.inode 4).parent = 3 ∧ (s.state.inode 3).linked ∧
    (s.state.inode 3).holds 4 = 1 ∧ ∃ n, (fun d => (s.state.inode d).parent)^[n] 4 = ROOTINO := by
  obtain ⟨s, hr, hlinked, hthree⟩ : ∃ s, Reaches step ParentLinked (boot initImage) s ∧ (s.state.inode 4).linked ∧
      (s.state.inode 4).parent = 3 :=
    ⟨_, exec_get_reaches _ (byInit [.sysMkdir dirA, .sysMkdir dirB]) (by decide +kernel), by decide +kernel,
      by decide +kernel⟩
  obtain ⟨hone, hup⟩ := directories_form_tree initImage_fits hr hlinked
  obtain ⟨hparent, hholds, _⟩ := hone (by decide)
  rw [hthree] at hparent hholds
  exact ⟨s, hr, hlinked, hthree, hparent, hholds, hup⟩

def fileX : List Char := ['/', 'x']

def fileY : List Char := ['/', 'a', '/', 'y']

def twoNames : List Call := [.sysMkdir dirA, .sysOpen fileX 0x200, .sysLink fileX fileY]

theorem link_counts_twoNames : ∃ s, Reaches step ParentLinked (boot initImage) s ∧ (s.state.inode 4).nlink = 2 ∧
    links s.state.inode 4 = 2 ∧ Reachable s.state.inode 4 := by
  have hr : Reaches step ParentLinked (boot initImage) _ :=
    exec_get_reaches _ (byInit twoNames) (by decide +kernel)
  have hlive := (link_counts initImage_fits hr).1 4 (by decide +kernel)
  exact ⟨_, hr, by decide +kernel, by decide +kernel, hlive.2.2 (by decide +kernel)⟩

def orphan : List Call := [.sysMkdir dirA, .sysChdir dirA, .sysUnlink dirA, .sysOpen ['x'] 0x200]

theorem link_counts_fails : ∃ s, Reaches step Always (boot initImage) s ∧ s.stopped = none ∧
    (s.state.inode 4).type = .file ∧ (s.state.inode 4).nlink = 1 ∧ links s.state.inode 4 = 0 := by
  have hr : Reaches step Always (boot initImage) _ :=
    exec_get_reaches _ (byInit orphan) (by decide +kernel)
  exact ⟨_, hr, by decide +kernel, by decide +kernel, by decide +kernel, by decide +kernel⟩

end Xv6.FileSystem
