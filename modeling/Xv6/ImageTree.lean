import Xv6.DirectoryTree
import Xv6.DiskImage

namespace Xv6.FileSystem

open Function

section

variable {t : Table} {x : Dinode} {d i j : ℕ} {de : Dirent} {l : List Dirent}

theorem Tree.pad (h : Tree t) (hd : (t d).linked) (hx : x.linked) (hdots : Dots d x)
    (hnlink : x.nlink = (t d).nlink)
    (hparent : x.parent = (t d).parent) (hholds : ∀ j, j ≠ 0 → x.holds j = (t d).holds j) :
    Tree (update t d x) := by
  have hlt := h.lt (linked_type hd)
  have htype := update_eq Dinode.type (hx.1.trans hd.1.symm)
  have hn := update_eq Dinode.nlink hnlink
  have hup := update_eq Dinode.parent hparent
  have hlinked (z : ℕ) : (update t d x z).linked ↔ (t z).linked := by
    rw [Dinode.linked, Dinode.linked, htype, hn]
  have hh (z j : ℕ) (hj : j ≠ 0) : (update t d x z).holds j = (t z).holds j :=
    update_eq (fun y => y.holds j) (hholds j hj) z
  have hlinks (j : ℕ) (hj : j ≠ 0) : links (update t d x) j = links t j := by
    have hsum : links (update t d x) j + _ = _ := links_update hlt.2
    rw [hdots.naming hx hj, (h.dots d hd.1).naming hd hj, hparent, hholds j hj] at hsum
    omega
  refine ⟨fun i hi => ?_, fun i hi => ?_, fun z hz => ?_, fun i hi => ?_,
    fun i hi hfree => ?_, fun z hz hzero => ?_, fun z w hz hw hpos => ?_, fun z hz hroot => ?_, ?_, ?_⟩
  · rw [htype]
    exact h.outside i hi
  · rw [htype] at hi
    have hid : i ≠ d := by
      rintro rfl
      exact linked_type hd hi
    rw [update_of_ne hid]
    exact h.cleared i hi
  · by_cases hzd : z = d
    · subst hzd
      rw [update_self]
      exact hdots
    · rw [htype] at hz
      rw [update_of_ne hzd]
      exact h.dots z hz
  · rw [htype] at hi
    rw [hn, hlinks i (h.lt hi).1]
    exact h.nlink i hi
  · rw [htype] at hfree
    rw [hlinks i hi]
    exact h.unnamed i hi hfree
  · rw [htype] at hz
    rw [hn] at hzero
    have hzd : z ≠ d := by
      rintro rfl
      have hle := hd.2
      omega
    rw [update_of_ne hzd]
    exact h.empty z hz hzero
  · rw [hlinked] at hz
    rw [htype] at hw
    rw [hh z w (h.lt (by rw [hw]; decide)).1] at hpos
    rw [hup]
    exact h.up z w hz hw hpos
  · rw [hlinked] at hz
    rw [hup, hlinked, hh _ _ (h.lt (linked_type hz)).1]
    exact h.one z hz hroot
  · obtain ⟨hroot, hself, hnone⟩ := h.root
    refine ⟨(hlinked _).mpr hroot, (hup _).trans hself, fun z hz => ?_⟩
    rw [hh z ROOTINO (by decide)]
    exact hnone z ((hlinked z).mp hz)
  · obtain ⟨depth, hdepth⟩ := h.depth
    refine ⟨depth, fun z hz hroot => ?_⟩
    rw [hup]
    exact hdepth z ((hlinked z).mp hz) hroot

theorem insertDirent_full (h : ∀ e ∈ l, e.inum ≠ 0) : insertDirent de l = l ++ [de] := by
  induction l with
  | nil => rfl
  | cons e l ih =>
    rw [insertDirent, if_neg (h e List.mem_cons_self), ih (fun a ha => h a (List.mem_cons_of_mem e ha))]
    rfl

end

namespace Mkfs

structure Sound (m : Image) : Prop where
  tree : Tree m.inode
  free : ∀ i, m.freeinode ≤ i → (m.inode i).type = .free
  full : ∀ de ∈ (m.inode ROOTINO).entries, de.inum ≠ 0
  length : (m.inode ROOTINO).entries.length = m.freeinode
  one : ∀ i, (m.inode i).type ≠ .free → (m.inode i).nlink = 1
  space : space m.inode + nmeta = m.freeblock

variable {m : Image} {file : List Char × ℕ} {files : List (List Char × ℕ)}

def rootDir : Dinode := ⟨.dir, 0, 0, 1, 32, [⟨ROOTINO, dot⟩, ⟨ROOTINO, dotdot⟩]⟩

theorem root_inode : root.inode = update blank.inode ROOTINO rootDir := by
  funext i
  by_cases hi : i = ROOTINO
  · subst hi
    rfl
  · simp only [root, iappend, ialloc, update_of_ne hi]
    exact update_of_ne hi _ _

theorem root_sound : Sound root := by
  have hself : root.inode ROOTINO = rootDir := by rw [root_inode, update_self]
  have hother {i : ℕ} (hi : i ≠ ROOTINO) : root.inode i = ⟨.free, 0, 0, 0, 0, []⟩ := by
    rw [root_inode, update_of_ne hi]
    rfl
  have hlive {i : ℕ} (hi : (root.inode i).type ≠ .free) : i = ROOTINO := by
    by_contra hne
    rw [hother hne] at hi
    exact hi rfl
  have hdots : Dots ROOTINO rootDir := ⟨rfl, by decide, fun de hde => (List.not_mem_nil hde).elim, rfl⟩
  have hlinked : rootDir.linked := by decide
  have hholds (i : ℕ) : rootDir.holds i = 0 := rfl
  have hlinks (i : ℕ) (hi : i ≠ 0) : links root.inode i = if ROOTINO = i then 1 else 0 := by
    have hsum : links (update blank.inode ROOTINO rootDir) i + _ = _ := links_update (by decide)
    have hblank (d : ℕ) : (blank.inode d).naming i = 0 := naming_not_dir (fun h => by cases h)
    have hzero : links blank.inode i = 0 := Finset.sum_eq_zero fun d _ => hblank d
    have hnaming : rootDir.naming i = (if ROOTINO = i then 1 else 0) + 0 := hdots.naming hlinked hi
    rw [root_inode]
    rw [hblank, hzero, hnaming] at hsum
    omega
  have htree : Tree root.inode := by
    refine ⟨fun i hi => ?_, fun i hi => ?_, fun d hd => ?_, fun i hi => ?_,
      fun i hi hfree => ?_, fun d hd hzero => ?_,
      fun d x hd hx hpos => ?_, fun x hx hne => ?_, ⟨?_, ?_, fun d hd => ?_⟩, ⟨fun _ => 0, fun x hx hne => ?_⟩⟩
    · rw [hother]
      rintro rfl
      exact absurd hi (by decide)
    · rw [hother]
      rintro rfl
      rw [hself] at hi
      cases hi
    · obtain rfl := hlive (by rw [hd]; decide)
      rw [hself]
      exact hdots
    · obtain rfl := hlive hi
      rw [hlinks _ (by decide), hself]
      rfl
    · rw [hlinks i hi, if_neg]
      rintro rfl
      rw [hself] at hfree
      cases hfree
    · obtain rfl := hlive (by rw [hd]; decide)
      rw [hself] at hzero
      cases hzero
    · obtain rfl := hlive (linked_type hd)
      rw [hself] at hpos
      exact absurd (hholds x) hpos
    · exact absurd (hlive (linked_type hx)) hne
    · rw [hself]
      exact hlinked
    · rw [hself]
      rfl
    · obtain rfl := hlive (linked_type hd)
      rw [hself]
      rfl
    · exact absurd (hlive (linked_type hx)) hne
  refine ⟨htree, fun i hi => ?_, ?_, ?_, fun i hi => ?_, ?_⟩
  · rw [hother]
    rintro rfl
    exact absurd hi (by decide)
  · rw [hself]
    decide
  · rw [hself]
    rfl
  · obtain rfl := hlive hi
    rw [hself]
    rfl
  · have hsum : FileSystem.space (update blank.inode ROOTINO rootDir) + _ = _ := space_update (by decide)
    have hzero : FileSystem.space blank.inode = 0 := Finset.sum_eq_zero fun d _ => show blocks 0 = 0 by decide
    have hone : blocks rootDir.size = 1 := by decide
    have hnone : blocks (blank.inode ROOTINO).size = 0 := by decide
    have hblock : root.freeblock = nmeta + 1 := by decide
    rw [root_inode, hblock]
    omega

theorem addFile_inode (hne : ROOTINO ≠ m.freeinode) : (addFile m file).inode =
    update (update m.inode m.freeinode ⟨.file, 0, 0, 1, file.2, []⟩) ROOTINO
      { m.inode ROOTINO with
        size := (m.inode ROOTINO).size + 16
        entries := (m.inode ROOTINO).entries ++ [⟨m.freeinode, fileName file.1⟩] } := by
  simp only [addFile, iappend, ialloc, update_self, update_of_ne hne, update_of_ne hne.symm,
    Nat.zero_add, List.append_nil]
  rw [update_comm hne, update_idem]

theorem addFile_sound (h : Sound m) (hlt : m.freeinode < NINODES)
    (hname : fileName file.1 ≠ dot ∧ fileName file.1 ≠ dotdot) : Sound (addFile m file) := by
  have hroot := h.tree.root.1
  have hrlt := h.tree.lt (linked_type hroot)
  have hfree := h.free m.freeinode le_rfl
  have hne : ROOTINO ≠ m.freeinode := by
    intro heq
    rw [← heq] at hfree
    exact linked_type hroot hfree
  have hpos : m.freeinode ≠ 0 := by
    have hlength := h.length
    rw [(h.tree.dots ROOTINO hroot.1).entries, List.length_cons] at hlength
    omega
  have hinsert : { m.inode ROOTINO with
        size := (m.inode ROOTINO).size + 16
        entries := (m.inode ROOTINO).entries ++ [⟨m.freeinode, fileName file.1⟩] } =
      (m.inode ROOTINO).insert ⟨m.freeinode, fileName file.1⟩ := by
    rw [Dinode.insert, insertDirent_full h.full, List.length_append, List.length_singleton,
      (h.tree.dots ROOTINO hroot.1).size, Nat.mul_add]
  have hinode := @addFile_inode m file hne
  rw [hinsert] at hinode
  have hentries : ((m.inode ROOTINO).insert ⟨m.freeinode, fileName file.1⟩).entries =
      (m.inode ROOTINO).entries ++ [⟨m.freeinode, fileName file.1⟩] := insertDirent_full h.full
  refine ⟨?_, fun i hi => ?_, fun de hde => ?_, ?_, fun i hi => ?_, ?_⟩
  · rw [hinode]
    apply h.tree.link hroot ⟨hpos, hlt⟩ _ _ _ hname
    · rw [hfree]
      decide
    · constructor
      · intro hdir
        cases hdir
      · intro hzero
        cases hzero
    · rw [h.tree.unnamed m.freeinode hpos hfree]
      rfl
  · have hle : m.freeinode + 1 ≤ i := hi
    have hold := h.free i (by omega)
    have hir : i ≠ ROOTINO := by
      rintro rfl
      exact linked_type hroot hold
    rw [hinode, edit_else hir (by omega)]
    exact hold
  · rw [hinode, edit_self, hentries, List.mem_append, List.mem_singleton] at hde
    obtain hde | rfl := hde
    · exact h.full de hde
    · exact hpos
  · rw [hinode, edit_self, hentries, List.length_append, h.length]
    rfl
  · rw [hinode] at hi ⊢
    by_cases hir : i = ROOTINO
    · subst hir
      rw [edit_self]
      exact h.one ROOTINO (linked_type hroot)
    · by_cases hif : i = m.freeinode
      · subst hif
        rw [update_of_ne hir, update_self]
      · rw [edit_else hir hif] at hi ⊢
        exact h.one i hi
  · have hblock : (addFile m file).freeblock = m.freeblock + (blocks ((m.inode ROOTINO).size + 16) -
        blocks (m.inode ROOTINO).size) + (blocks file.2 - blocks 0) := by
      simp only [addFile, iappend, ialloc, update_self, update_of_ne hne,
        update_of_ne hne.symm, Nat.zero_add]
    have hfirst := space_update (t := m.inode) (x := ⟨.file, 0, 0, 1, file.2, []⟩) hlt
    have hsecond := space_update (t := update m.inode m.freeinode ⟨.file, 0, 0, 1, file.2, []⟩)
      (x := (m.inode ROOTINO).insert ⟨m.freeinode, fileName file.1⟩) hrlt.2
    rw [h.tree.cleared m.freeinode hfree] at hfirst
    rw [update_of_ne hne, ← hinsert] at hsecond
    have hmono : blocks (m.inode ROOTINO).size ≤ blocks ((m.inode ROOTINO).size + 16) := blocks_mono (by omega)
    have hzero : blocks 0 = 0 := by decide
    have hspace := h.space
    rw [hblock, hinode, ← hinsert]
    simp only at hfirst hsecond ⊢
    omega

theorem files_sound (h : Sound m) (hlt : m.freeinode + files.length ≤ NINODES)
    (hnames : ∀ file ∈ files, fileName file.1 ≠ dot ∧ fileName file.1 ≠ dotdot) :
    Sound (files.foldl addFile m) ∧ (files.foldl addFile m).freeinode = m.freeinode + files.length := by
  induction files generalizing m with
  | nil => exact ⟨h, rfl⟩
  | cons file files ih =>
    rw [List.length_cons] at hlt ⊢
    have hsound := addFile_sound h (by omega) (hnames file List.mem_cons_self)
    have hnext : (addFile m file).freeinode = m.freeinode + 1 := rfl
    obtain ⟨hall, hfree⟩ := ih hsound (by omega) (fun f hf => hnames f (List.mem_cons_of_mem file hf))
    rw [List.foldl_cons]
    exact ⟨hall, by omega⟩

def padded (x : Dinode) : Dinode :=
  { x with
    size := (x.size / BSIZE + 1) * BSIZE
    entries := x.entries ++ List.replicate (((x.size / BSIZE + 1) * BSIZE - x.size) / 16) .zero }

theorem padded_dots {x : Dinode} {d : ℕ} (h : Dots d x) :
    Dots d (padded x) ∧ (padded x).parent = x.parent ∧ ∀ j, j ≠ 0 → (padded x).holds j = x.holds j := by
  obtain ⟨n, hn⟩ : ∃ n, n = ((x.size / BSIZE + 1) * BSIZE - x.size) / 16 := ⟨_, rfl⟩
  have hentries : (padded x).entries = ⟨d, dot⟩ :: ⟨x.parent, dotdot⟩ :: (x.rest ++ List.replicate n .zero) := by
    rw [hn]
    change x.entries ++ _ = _
    rw [h.entries]
    rfl
  have hparent : (padded x).parent = x.parent := by
    rw [Dinode.parent, hentries]
    rfl
  have hrest : (padded x).rest = x.rest ++ List.replicate n .zero := by
    rw [Dinode.rest, hentries]
    rfl
  refine ⟨⟨?_, ?_, fun de hde hinum => ?_, ?_⟩, hparent, fun j hj => ?_⟩
  · rw [hparent, hrest]
    exact hentries
  · rw [hparent]
    exact h.parent
  · rw [hrest, List.mem_append, List.mem_replicate] at hde
    obtain hde | ⟨-, rfl⟩ := hde
    · exact h.names de hde hinum
    · exact absurd rfl hinum
  · have hsize := h.size
    change (x.size / BSIZE + 1) * BSIZE = 16 * (x.entries ++ List.replicate _ _).length
    rw [List.length_append, List.length_replicate]
    simp only [BSIZE]
    omega
  · rw [Dinode.holds, hrest, List.countP_append, List.countP_replicate, if_neg]
    · rfl
    · intro hzero
      exact hj (of_decide_eq_true hzero).symm

theorem fixRoot_inode : (fixRoot m).inode = update m.inode ROOTINO (padded (m.inode ROOTINO)) := rfl

theorem fixRoot_tree (h : Sound m) : Tree (fixRoot m).inode := by
  have hroot := h.tree.root.1
  obtain ⟨hdots, hparent, hholds⟩ := padded_dots (h.tree.dots ROOTINO hroot.1)
  exact h.tree.pad hroot ⟨hroot.1, hroot.2⟩ hdots rfl hparent hholds

theorem fixRoot_one (h : Sound m) {i : ℕ} (hi : ((fixRoot m).inode i).type ≠ .free) :
    ((fixRoot m).inode i).nlink = 1 := by
  have htype : (padded (m.inode ROOTINO)).type = (m.inode ROOTINO).type := rfl
  have hnlink : (padded (m.inode ROOTINO)).nlink = (m.inode ROOTINO).nlink := rfl
  rw [fixRoot_inode, update_eq Dinode.type htype] at hi
  rw [fixRoot_inode, update_eq Dinode.nlink hnlink]
  exact h.one i hi

theorem blocks_direct {size : ℕ} (h : size ≤ NDIRECT * BSIZE) : blocks size = (size + BSIZE - 1) / BSIZE := by
  simp only [NDIRECT, BSIZE] at h
  rw [blocks, if_neg]
  simp only [NDIRECT, BSIZE]
  omega

theorem fixRoot_space (h : Sound m) (hlt : m.freeinode ≤ NINODES) :
    FileSystem.space (fixRoot m).inode ≤ FileSystem.space m.inode + 1 := by
  have hroot := h.tree.root.1
  have hsum := space_update (t := m.inode) (x := padded (m.inode ROOTINO)) (h.tree.lt (linked_type hroot)).2
  have hsize := (h.tree.dots ROOTINO hroot.1).size
  have hlength := h.length
  have hblocks : blocks (padded (m.inode ROOTINO)).size ≤ blocks (m.inode ROOTINO).size + 1 := by
    simp only [NINODES] at hlt
    rw [blocks_direct, blocks_direct]
    all_goals simp only [padded, BSIZE, NDIRECT]
    all_goals omega
  rw [fixRoot_inode]
  omega

end Mkfs

structure Fits (files : List (List Char × ℕ)) : Prop where
  names : ∀ file ∈ files, Mkfs.fileName file.1 ≠ dot ∧ Mkfs.fileName file.1 ≠ dotdot
  inodes : files.length + 2 ≤ NINODES
  blocks : (mkfs files).freeblock ≤ FSSIZE

instance (files : List (List Char × ℕ)) : Decidable (Fits files) :=
  decidable_of_iff ((∀ file ∈ files, Mkfs.fileName file.1 ≠ dot ∧ Mkfs.fileName file.1 ≠ dotdot) ∧
    files.length + 2 ≤ NINODES ∧ (mkfs files).freeblock ≤ FSSIZE)
    ⟨fun h => ⟨h.1, h.2.1, h.2.2⟩, fun h => ⟨h.names, h.inodes, h.blocks⟩⟩

section

variable {files : List (List Char × ℕ)}

theorem mkfs_tree (h : Fits files) : Tree (mkfs files).inode ∧
    (∀ i, ((mkfs files).inode i).type ≠ .free → ((mkfs files).inode i).nlink = 1) ∧
    space (mkfs files).inode + (FSSIZE - (mkfs files).freeblock) ≤ FSSIZE - nmeta + 1 := by
  have hlt : Mkfs.root.freeinode + files.length ≤ NINODES := by
    have hinodes := h.inodes
    change 2 + files.length ≤ NINODES
    omega
  obtain ⟨hsound, hfree⟩ := Mkfs.files_sound Mkfs.root_sound hlt h.names
  refine ⟨Mkfs.fixRoot_tree hsound, fun i hi => Mkfs.fixRoot_one hsound hi, ?_⟩
  have hspace := Mkfs.fixRoot_space hsound (by omega)
  have htotal := hsound.space
  have hblocks : (files.foldl Mkfs.addFile Mkfs.root).freeblock ≤ FSSIZE := h.blocks
  change FileSystem.space (Mkfs.fixRoot (files.foldl Mkfs.addFile Mkfs.root)).inode +
    (FSSIZE - (files.foldl Mkfs.addFile Mkfs.root).freeblock) ≤ _
  omega

end

end Xv6.FileSystem
