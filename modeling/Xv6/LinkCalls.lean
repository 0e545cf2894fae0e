import Xv6.FileCalls

namespace Xv6.FileSystem

open Xv6.Triples Function

section

variable {strict : Prop} {b b' b₁ b₂ b₃ s : State} {held known : List ℕ} {i d n off : ℕ} {x : Proc}
    {p : Fin NPROC} {y z : Dinode}
  {name : Name} {path : List Char} {major minor : ℤ} {type : FileType} {new : List Char}

theorem short_self {x : ℤ} (h : -2 ^ 15 ≤ x) (hlt : x < 2 ^ 15) : short x = x := by
  unfold short
  omega

theorem Base.nlink_range (hb : Base strict b) (hi : (b.inode i).type ≠ .free) :
    0 ≤ (b.inode i).nlink ∧ (b.inode i).nlink + 1 < 2 ^ 15 := by
  have hnlink := hb.tree.nlink i hi
  have hlinks := hb.tree.links_le i
  have hspace := hb.space
  have hblocks : nblocks = 941 := by decide
  omega

theorem Base.addLink (hb : Base strict b) (hi : (b.inode i).type ≠ .free) :
    short ((b.inode i).nlink + 1) = (b.inode i).nlink + 1 := by
  obtain ⟨hpos, hlt⟩ := hb.nlink_range hi
  exact short_self (by omega) hlt

theorem Base.subLink (hb : Base strict b) (hi : (b.inode i).type ≠ .free) :
    short ((b.inode i).nlink - 1) = (b.inode i).nlink - 1 := by
  obtain ⟨hpos, hlt⟩ := hb.nlink_range hi
  exact short_self (by omega) (by omega)

theorem Base.edit (hb : Base strict b) (htable : b'.inode = update (update b.inode i y) d z)
    (husers : b'.users = b.users) (htree : Tree (update (update b.inode i y) d z))
    (hspace : FileSystem.space b'.inode + b'.freeBlocks = FileSystem.space b.inode + b.freeBlocks) (hz : z.linked)
    (hy : y.type ≠ .free) (hgone : y.type = .dir → y.nlink = 0 → y.parent = d)
    (hkeep : strict → (b.inode i).linked → ∀ j, (b.inode j).type = .dir → (b.inode j).nlink = 0 →
      (b.inode j).parent ≠ i) : Base strict b' := by
  refine ⟨?_, ?_, fun j hj => ?_, fun hs j hdir hnlink => ?_⟩
  · rw [htable]
    exact htree
  · rw [hspace]
    exact hb.space
  · rw [husers] at hj
    rw [htable]
    by_cases hjd : j = d
    · subst hjd
      rw [edit_self]
      exact linked_type hz
    · by_cases hji : j = i
      · subst hji
        rw [update_of_ne hjd, update_self]
        exact hy
      · rw [edit_else hjd hji]
        exact hb.used j hj
  · rw [htable] at hdir hnlink ⊢
    by_cases hjd : j = d
    · subst hjd
      rw [edit_self] at hnlink
      have hle := hz.2
      omega
    by_cases hji : j = i
    · subst hji
      rw [update_of_ne hjd, update_self] at hdir hnlink ⊢
      rw [hgone hdir hnlink, edit_self]
      exact hz
    · rw [edit_else hjd hji] at hdir hnlink ⊢
      have hparent := hb.strict hs j hdir hnlink
      by_cases hpd : (b.inode j).parent = d
      · rw [hpd, edit_self]
        exact hz
      · have hpi : (b.inode j).parent ≠ i := by
          intro heq
          rw [heq] at hparent
          exact hkeep hs hparent j hdir hnlink heq
        rw [edit_else hpd hpi]
        exact hparent

theorem space_setInode (hi : i < NINODES) (hy : y.size = (b.inode i).size) :
    space (b.setInode i y).inode = space b.inode := by
  have hsum : space (update b.inode i y) + _ = _ := space_update hi
  rw [hy] at hsum
  exact Nat.add_right_cancel hsum

theorem space_linked {de : Dirent} (hd : d < NINODES)
    (hn : n + blocks ((b.inode d).insert de).size = b.freeBlocks + blocks (b.inode d).size) :
    space (b.linked d de n).inode + (b.linked d de n).freeBlocks = space b.inode + b.freeBlocks := by
  have hsum : space (update b.inode d ((b.inode d).insert de)) + _ = _ := space_update hd
  change space (update b.inode d ((b.inode d).insert de)) + n = _
  omega

theorem Base.link (hb : Base strict b) (hd : (b.inode d).linked) (hi : i ≠ 0 ∧ i < NINODES)
    (hti : (b.inode i).type ≠ .dir) (hy : y.type ≠ .dir ∧ y.type ≠ .free) (hlinks : y.nlink = links b.inode i + 1)
    (hsize : y.size = (b.inode i).size) (hname : name ≠ dot ∧ name ≠ dotdot)
    (hn : n + blocks (((b.setInode i y).inode d).insert ⟨i, name⟩).size =
      (b.setInode i y).freeBlocks + blocks ((b.setInode i y).inode d).size) :
    Base strict ((b.setInode i y).linked d ⟨i, name⟩ n) := by
  have hne : d ≠ i := by
    rintro rfl
    exact hti hd.1
  have hself : (b.setInode i y).inode d = b.inode d := update_of_ne hne _ _
  have htable : ((b.setInode i y).linked d ⟨i, name⟩ n).inode =
      update (update b.inode i y) d ((b.inode d).insert ⟨i, name⟩) := by
    rw [← hself]
    rfl
  have hspace := space_linked (hb.tree.lt (linked_type hd)).2 hn
  rw [space_setInode hi.2 hsize] at hspace
  exact hb.edit htable rfl (hb.tree.link hd hi hti hy hlinks hname) hspace ⟨hd.1, hd.2⟩ hy.2
    (fun hdir => absurd hdir hy.1) (fun _ hl => absurd hl.1 hti)

theorem insert_dots (hi : i ≠ 0) :
    ((⟨.dir, major, minor, 1, 0, []⟩ : Dinode).insert ⟨i, dot⟩).insert ⟨d, dotdot⟩ = newDir i d major minor := by
  simp only [Dinode.insert, insertDirent, if_neg hi]
  rfl

theorem Base.mkdir {n₁ n₂ n₃ : ℕ} (hb : Base strict b) (hd : (b.inode d).linked)
    (hi : i ≠ 0 ∧ i < NINODES) (hfree : (b.inode i).type = .free) (hname : name ≠ dot ∧ name ≠ dotdot)
    (hy : y = ⟨.dir, major, minor, 1, 0, []⟩) (hz : z = (b.inode d).addLinks 1)
    (hb₁ : b₁ = (b.setInode i y).setInode d z)
    (h₁ : n₁ + blocks ((b₁.inode i).insert ⟨i, dot⟩).size = b₁.freeBlocks + blocks (b₁.inode i).size)
    (hb₂ : b₂ = b₁.linked i ⟨i, dot⟩ n₁)
    (h₂ : n₂ + blocks ((b₂.inode i).insert ⟨d, dotdot⟩).size = b₂.freeBlocks + blocks (b₂.inode i).size)
    (hb₃ : b₃ = b₂.linked i ⟨d, dotdot⟩ n₂)
    (h₃ : n₃ + blocks ((b₃.inode d).insert ⟨i, name⟩).size = b₃.freeBlocks + blocks (b₃.inode d).size) :
    Base strict (b₃.linked d ⟨i, name⟩ n₃) := by
  have hne : i ≠ d := by
    rintro rfl
    exact linked_type hd hfree
  have hdlt := hb.tree.lt (linked_type hd)
  have hnew : (b₂.inode i).insert ⟨d, dotdot⟩ = newDir i d major minor := by
    rw [hb₂, hb₁, hy]
    simp only [State.linked, State.setInode, update_self, update_of_ne hne]
    exact insert_dots hi.1
  have hdir : b₃.inode d = (b.inode d).addLinks 1 := by
    rw [hb₃, hb₂, hb₁]
    simp only [State.linked, State.setInode, update_self, update_of_ne hne.symm]
    exact hz
  have htable : (b₃.linked d ⟨i, name⟩ n₃).inode = update (update b.inode i (newDir i d major minor)) d
      (((b.inode d).addLinks 1).insert ⟨i, name⟩) := by
    change update b₃.inode d ((b₃.inode d).insert ⟨i, name⟩) = _
    have h₃ : b₃.inode = update b₂.inode i ((b₂.inode i).insert ⟨d, dotdot⟩) := by
      rw [hb₃]
      rfl
    have h₂ : b₂.inode = update b₁.inode i ((b₁.inode i).insert ⟨i, dot⟩) := by
      rw [hb₂]
      rfl
    have h₁ : b₁.inode = update (update b.inode i y) d z := by
      rw [hb₁]
      rfl
    rw [hdir, h₃, hnew, h₂, h₁, update_idem, update_comm hne, update_idem,
      update_comm hne.symm, update_idem]
  have hspace : FileSystem.space (b₃.linked d ⟨i, name⟩ n₃).inode + (b₃.linked d ⟨i, name⟩ n₃).freeBlocks =
      FileSystem.space b.inode + b.freeBlocks := by
    have hsize : y.size = (b.inode i).size := by
      rw [hy, hb.tree.cleared i hfree]
    have hlinks : z.size = ((b.setInode i y).inode d).size := by
      simp only [hz, State.setInode, update_of_ne hne.symm]
      rfl
    have hsum₂ := space_linked hi.2 h₁
    have hsum₃ := space_linked hi.2 h₂
    rw [← hb₂] at hsum₂
    rw [← hb₃] at hsum₃
    have hsum₁ : FileSystem.space b₁.inode = FileSystem.space b.inode := by
      rw [hb₁, space_setInode hdlt.2 hlinks, space_setInode hi.2 hsize]
    have hblocks : b₁.freeBlocks = b.freeBlocks := by
      rw [hb₁]
      rfl
    rw [space_linked hdlt.2 h₃, hsum₃, hsum₂, hsum₁, hblocks]
  have hle := hd.2
  exact hb.edit htable (by rw [hb₃, hb₂, hb₁]; rfl) (hb.tree.mkdir hd hi hfree hname) hspace
    ⟨hd.1, by simp only [Dinode.insert, Dinode.addLinks]; omega⟩ (fun hdir => by cases hdir)
    (fun _ hzero => absurd hzero one_ne_zero) (fun _ hl => absurd hfree (linked_type hl))

theorem take_eq {l : Name} (hl : l.length < DIRSIZ) (h : name.take DIRSIZ = l) : name = l := by
  have hlength := congrArg List.length h
  rw [List.length_take] at hlength
  rw [← h, List.take_of_length_le (by omega)]

theorem Dots.lookup_none (h : Dots d y) (hd : d ≠ 0) (hnone : y.lookup name = none) :
    name.take DIRSIZ ≠ dot ∧ name.take DIRSIZ ≠ dotdot := by
  rw [Dinode.lookup, Option.map_eq_none_iff, List.findIdx?_eq_none_iff, h.entries] at hnone
  constructor
  · intro hname
    have hdot := hnone ⟨d, dot⟩ List.mem_cons_self
    simp [hd, take_eq (by decide) hname] at hdot
  · intro hname
    have hdotdot := hnone ⟨y.parent, dotdot⟩ (List.mem_cons_of_mem _ List.mem_cons_self)
    simp [h.parent, take_eq (by decide) hname] at hdotdot

theorem create_entry (hsize : (b.inode d).size = 16 * (b.inode d).entries.length) (hlinked : (b.inode d).linked)
    (hend : ∀ n, n + blocks ((b.inode d).insert ⟨i, name.take DIRSIZ⟩).size =
      b.freeBlocks + blocks (b.inode d).size → Base strict (b.linked d ⟨i, name.take DIRSIZ⟩ n)) :
    Triple (Holds b [] [i, d]) (do
      if !(← dirlink d name i) then throw .createDirlink
      else do
        iunlockput d
        pure (some i)) (fun r s => s.proc = b.proc ∧ Good strict [] r.toList s) (Safe strict) := by
  have hnlink := hlinked.2
  apply dirlink_cases hsize (linked_type hlinked) (by omega)
  · exact Triple.throw (fun _ => by decide)
  intro n hn
  apply Triple.bind (iunlockput_spec.pre (fun _ h => h.swap))
  intro _
  exact Triple.pure (fun s h => h.good (hend n hn))

theorem create_dots {rest : Unit → M (Option ℕ)} {Q : Option ℕ → State → Prop} (hb : Base strict b)
    (hd : (b.inode d).linked) (hi : i ≠ 0 ∧ i < NINODES) (hfree : (b.inode i).type = .free)
    (hname : name ≠ dot ∧ name ≠ dotdot) (hy : y = ⟨.dir, major, minor, 1, 0, []⟩)
    (hrest : ∀ b₃, b₃.proc = b.proc → b₃.inode d = (b.inode d).addLinks 1 →
      (∀ n, n + blocks ((b₃.inode d).insert ⟨i, name⟩).size = b₃.freeBlocks + blocks (b₃.inode d).size →
        Base strict (b₃.linked d ⟨i, name⟩ n)) →
      Triple (Holds b₃ [] [i, d]) (rest ()) Q (Safe strict)) :
    Triple (Holds (b.setInode i y) [] [i, d]) (do
      iupdate d fun x => { x with nlink := short (x.nlink + 1) }
      if !(← dirlink i dot i) then do
        let r ← throw .createDots
        rest r
      else if !(← dirlink i dotdot d) then do
        let r ← throw .createDots
        rest r
      else rest ()) Q (Safe strict) := by
  have hne : i ≠ d := by
    rintro rfl
    exact linked_type hd hfree
  have hdir : (b.setInode i y).inode d = b.inode d := update_of_ne hne.symm _ _
  have hlinked : ((b.inode d).addLinks 1).linked := by
    have hpos := hd.2
    refine ⟨hd.1, ?_⟩
    simp only [Dinode.addLinks]
    omega
  have hnlink := hlinked.2
  apply Triple.bind (iupdate_spec (y := (b.inode d).addLinks 1) _ (linked_type hlinked) (.inl (by omega)))
  swap
  · rw [hdir, hb.addLink (linked_type hd)]
    rfl
  intro _
  obtain ⟨b₁, hb₁⟩ : ∃ b₁, b₁ = (b.setInode i y).setInode d ((b.inode d).addLinks 1) := ⟨_, rfl⟩
  have hnew : b₁.inode i = y := by
    rw [hb₁]
    simp only [State.setInode, update_self, update_of_ne hne]
  rw [← hb₁]
  have hthrow {b : State} : Triple (Holds b [] [i, d]) (do
      let r ← throw .createDots
      rest r) Q (Safe strict) :=
    Triple.bind (R := fun _ _ => False) (Triple.throw (fun _ => by decide)) (fun _ _ h => h.elim)
  apply dirlink_cases _ _ _ hthrow
  · intro n₁ hn₁
    obtain ⟨b₂, hb₂⟩ : ∃ b₂, b₂ = b₁.linked i ⟨i, dot⟩ n₁ := ⟨_, rfl⟩
    have hone : b₂.inode i = y.insert ⟨i, dot⟩ := by
      rw [hb₂, ← hnew]
      exact update_self _ _ _
    change Triple (Holds (b₁.linked i ⟨i, dot⟩ n₁) _ _) _ _ _
    rw [← hb₂]
    apply dirlink_cases _ _ _ hthrow
    · intro n₂ hn₂
      refine hrest (b₂.linked i ⟨d, dotdot⟩ n₂) ?_ ?_ fun n hn => ?_
      · rw [hb₂, hb₁]
        rfl
      · rw [hb₂, hb₁]
        simp only [State.linked, State.setInode, update_self, update_of_ne hne.symm]
      · exact hb.mkdir hd hi hfree hname hy rfl hb₁ hn₁ hb₂ hn₂ rfl hn
    · rw [hone]
      rfl
    · rw [hone, hy]
      exact fun hfalse => by cases hfalse
    · rw [hone, hy]
      exact one_ne_zero
  · rw [hnew, hy]
    rfl
  · rw [hnew, hy]
    exact fun hfalse => by cases hfalse
  · rw [hnew, hy]
    exact one_ne_zero

theorem create_spec (hb : Good strict [] [] b) (hp : b.proc p = some x)
    (htype : type ≠ .free) (hparent : ∀ r ∈ walkFrom b.inode true x.cwd path, 1 ≤ (b.inode r.1).nlink) :
    Triple (fun s => s = b) (create x.cwd path type major minor) (fun r s =>
      s.proc = b.proc ∧ Good strict [] r.toList s) (Safe strict) := by
  have hbase := hb.base.1
  apply Triple.bind ((path_spec hb hp).pre hb.holds)
  intro r
  apply Triple.known (fun _ h => h.1)
  rintro ⟨hwalk, hlive⟩
  cases r with
  | none => exact Triple.pure (fun s h => h.2.good hbase)
  | some r =>
    obtain ⟨d, name⟩ := r
    have hlinked : (b.inode d).linked := ⟨walk_parent hwalk, hparent _ hwalk⟩
    have hdots := hb.tree.dots d hlinked.1
    have hd := hb.tree.lt (linked_type hlinked)
    apply Triple.bind ((ilock_spec (hlive _ rfl)).pre (fun _ h => h.2))
    intro _
    apply Triple.bind (dirlookup_spec.pre (fun _ h => h.1))
    intro r
    apply Triple.known (fun _ h => h.1)
    intro hlookup
    cases r with
    | some r =>
      obtain ⟨i, off⟩ := r
      apply Triple.bind (iunlockput_spec.pre (fun _ h => h.2))
      intro _
      apply Triple.bind (ilock_spec (fun hs => (hbase.sane hs).lookup hlinked.1 hlookup))
      intro _
      apply Triple.get
      rintro s ⟨h, -⟩
      apply Triple.ite
      · intro _
        apply Triple.pure
        rintro _ rfl
        exact h.good hbase
      · intro _
        apply Triple.bind (iunlockput_spec.pre (by rintro _ rfl; exact h))
        intro _
        exact Triple.pure (fun s h => h.good hbase)
    | none =>
      have hname := hdots.lookup_none hd.1 hlookup
      apply Triple.bind (ialloc_spec.pre (fun _ h => h.2))
      intro i
      apply Triple.start
      rintro s ⟨hi, hfree, s₀, h, rfl⟩
      have hne : i ≠ d := by
        rintro rfl
        exact linked_type hlinked hfree
      apply Triple.bind (ilock_new_spec h hfree htype)
      intro _
      apply Triple.bind (iupdate_new_spec h ⟨htype, one_ne_zero⟩)
      intro _
      apply Triple.ite
      · rintro rfl
        apply create_dots hbase hlinked hi hfree hname rfl
        intro b₃ hproc hdir hend
        rw [← hproc]
        refine create_entry ?_ ?_ hend
        · rw [hdir]
          exact hdots.size
        · rw [hdir]
          exact ⟨hlinked.1, hlinked.2.trans (Int.le_add_of_nonneg_right (by decide))⟩
      · intro hfile
        have hself : (b.setInode i ⟨type, short major, short minor, 1, 0, []⟩).inode d = b.inode d :=
          update_of_ne hne.symm _ _
        refine create_entry (b := b.setInode i ⟨type, short major, short minor, 1, 0, []⟩) ?_ ?_ fun n hn => ?_
        · rw [hself]
          exact hdots.size
        · rw [hself]
          exact hlinked
        · refine hbase.link hlinked hi ?_ ⟨hfile, htype⟩ ?_ ?_ hname hn
          · rw [hfree]
            decide
          · rw [hb.tree.unnamed i hi.1 hfree]
            rfl
          · rw [hb.tree.cleared i hfree]

theorem sysOpen_spec {omode : ℕ} (hb : Good strict [] [] b) (hp : b.proc p = some x)
    (hparent : O_CREATE omode → ∀ r ∈ walkFrom b.inode true x.cwd path, 1 ≤ (b.inode r.1).nlink) :
    Triple (fun s => s = b) (sysOpen p x path omode) (fun _ => Good strict [] []) (Safe strict) := by
  apply Triple.ite
  · intro hcreate
    apply Triple.bind (create_spec hb hp (by decide) (hparent hcreate))
    intro r
    cases r with
    | none => exact Triple.pure (fun s h => h.2)
    | some ip => exact openFile_spec hp
  · intro _
    apply Triple.bind (namei_spec hb hp)
    intro r
    cases r with
    | none => exact Triple.pure (fun s h => (h.2.good hb.base.1).2)
    | some ip =>
      apply Triple.known (fun _ h => h.1 ip rfl)
      intro hlive
      apply Triple.bind ((ilock_spec hlive).pre (fun _ h => h.2))
      intro _
      apply Triple.get
      rintro s ⟨h, -⟩
      obtain ⟨hproc, hgood⟩ := h.good hb.base.1
      apply Triple.ite
      · intro _
        apply Triple.bind (iunlockput_good.pre (by rintro _ rfl; exact ⟨hproc, hgood⟩))
        intro _
        exact Triple.pure (fun _ h => h.2)
      · intro _
        apply (openFile_spec hp).pre
        rintro _ rfl
        exact ⟨hproc, hgood⟩

theorem sysCreate_spec (hb : Good strict [] [] b) (hp : b.proc p = some x)
    (htype : type ≠ .free) (hparent : ∀ r ∈ walkFrom b.inode true x.cwd path, 1 ≤ (b.inode r.1).nlink) :
    Triple (fun s => s = b) (sysCreate x path type major minor) (fun _ => Good strict [] []) (Safe strict) := by
  apply Triple.bind (create_spec hb hp htype hparent)
  intro r
  cases r with
  | none => exact Triple.pure (fun s h => h.2)
  | some ip =>
    apply Triple.bind iunlockput_good
    intro _
    exact Triple.pure (fun _ h => h.2)

theorem link_entry (hb : Good strict [] [] b) (hp : b.proc p = some x)
    (hparent : ∀ r ∈ walkFrom b.inode true x.cwd new, 1 ≤ (b.inode r.1).nlink)
    (hi : (b.inode i).type ≠ .dir ∧ (b.inode i).type ≠ .free) :
    Triple (Holds (b.setInode i ((b.inode i).addLinks 1)) [] [i]) (do
      match ← nameiparent x.cwd new with
      | none => pure false
      | some (dp, name) => do
        ilock dp
        let linked ← dirlink dp name i
        iunlockput dp
        pure linked) (fun linked s => if linked then ∃ b', Base strict b' ∧ Holds b' [] [i] s
          else Holds (b.setInode i ((b.inode i).addLinks 1)) [] [i] s) (Safe strict) := by
  have hbase := hb.base.1
  have htypes (j : ℕ) : ((b.setInode i ((b.inode i).addLinks 1)).inode j).type = (b.inode j).type :=
    update_eq Dinode.type (x := (b.inode i).addLinks 1) rfl j
  have hentries (j : ℕ) : ((b.setInode i ((b.inode i).addLinks 1)).inode j).entries = (b.inode j).entries :=
    update_eq Dinode.entries (x := (b.inode i).addLinks 1) rfl j
  have hroot : (b.inode ROOTINO).type ≠ .free := linked_type hb.tree.root.1
  have hcwd : b.users x.cwd ≠ 0 := users_cwd hp
  have hsane (hs : strict) : Sane (b.setInode i ((b.inode i).addLinks 1)).inode := by
    intro d hd de hde hinum
    rw [htypes] at hd ⊢
    rw [hentries] at hde
    exact hbase.sane hs d hd de hde hinum
  have hwalks (path : List Char) : walkFrom (b.setInode i ((b.inode i).addLinks 1)).inode true x.cwd path =
      walkFrom b.inode true x.cwd path := walk_congr (fun j => ⟨htypes j, hentries j⟩)
  have hpath : Triple (Holds (b.setInode i ((b.inode i).addLinks 1)) [] [i])
      (nameiparent x.cwd new) _ (Safe strict) :=
    namexFrom_spec hsane (fun _ => by rw [htypes]; exact hroot) hcwd
      (fun _ => by rw [htypes]; exact hb.used x.cwd hcwd)
  apply Triple.bind hpath
  intro r
  apply Triple.known (fun _ h => h.1)
  intro hwalk
  rw [hwalks] at hwalk
  cases r with
  | none => exact Triple.pure (fun s h => h.2)
  | some r =>
    obtain ⟨d, name⟩ := r
    have hlinked : (b.inode d).linked := ⟨walk_parent hwalk, hparent _ hwalk⟩
    have hnlink := hlinked.2
    have hdots := hb.tree.dots d hlinked.1
    have hd := hb.tree.lt (linked_type hlinked)
    have hne : d ≠ i := by
      rintro rfl
      exact hi.1 hlinked.1
    have hself : (b.setInode i ((b.inode i).addLinks 1)).inode d = b.inode d := update_of_ne hne _ _
    apply Triple.bind ((ilock_spec (fun _ => by rw [hself]; exact linked_type hlinked)).pre (fun _ h => h.2))
    intro _
    have hdirlink : Triple (Holds (b.setInode i ((b.inode i).addLinks 1)) [] [d, i])
        (dirlink d name i) _ (Safe strict) :=
      dirlink_spec (by rw [hself]; exact hdots.size)
      (by rw [hself]; exact linked_type hlinked) (by rw [hself]; omega)
    apply Triple.bind (hdirlink.pre (fun _ h => h.1))
    intro linked
    cases linked with
    | false =>
      apply Triple.bind (iunlockput_spec.pre (fun _ h => h))
      intro _
      exact Triple.pure (fun _ h => h)
    | true =>
      apply Triple.start
      rintro s ⟨hnone, n, hn, h⟩
      rw [hself] at hnone
      apply Triple.bind (iunlockput_spec.pre (by rintro _ rfl; exact h))
      intro _
      apply Triple.pure
      intro s' h'
      refine ⟨_, ?_, h'⟩
      refine hbase.link (y := (b.inode i).addLinks 1) hlinked (hb.tree.lt hi.2) hi.1 hi ?_ rfl
        (hdots.lookup_none hd.1 hnone) hn
      simp only [Dinode.addLinks, hb.tree.nlink i hi.2]

theorem sysLink_spec {old : List Char} (hb : Good strict [] [] b) (hp : b.proc p = some x)
    (hparent : ∀ r ∈ walkFrom b.inode true x.cwd new, 1 ≤ (b.inode r.1).nlink) :
    Triple (fun s => s = b) (sysLink x.cwd old new) (fun _ => Good strict [] []) (Safe strict) := by
  obtain ⟨hbase, hholds⟩ := hb.base
  apply Triple.bind (namei_spec hb hp)
  intro r
  cases r with
  | none => exact Triple.pure (fun s h => (h.2.good hbase).2)
  | some i =>
    apply Triple.known (fun _ h => h.1 i rfl)
    intro hlive
    apply Triple.bind ((ilock_spec hlive).pre (fun _ h => h.2))
    intro _
    apply Triple.get
    rintro s ⟨h, htype⟩
    rw [h.inode]
    apply Triple.ite
    · intro _
      apply Triple.bind (iunlockput_spec.pre (by rintro _ rfl; exact h))
      intro _
      exact Triple.pure (fun s h => (h.good hbase).2)
    intro hfile
    obtain ⟨hpos, hlt⟩ := hbase.nlink_range htype
    have hraise : ((b.inode i).addLinks 1).nlink ≠ 0 := by
      simp only [Dinode.addLinks]
      omega
    apply Triple.bind ((iupdate_spec (y := (b.inode i).addLinks 1) _ htype (.inl hraise)).pre
      (by rintro _ rfl; exact h))
    swap
    · rw [hbase.addLink htype]
      rfl
    intro _
    apply Triple.bind iunlock_spec
    intro _
    apply Triple.bind (link_entry hb hp hparent ⟨hfile, htype⟩)
    intro linked
    cases linked with
    | true =>
      apply Triple.start
      rintro s' ⟨b', hb', h'⟩
      apply Triple.bind (iput_spec.pre (by rintro _ rfl; exact h'.forget))
      intro _
      exact Triple.pure (fun s h => (h.good hb').2)
    | false =>
      have hself : (b.setInode i ((b.inode i).addLinks 1)).inode i = (b.inode i).addLinks 1 := update_self _ _ _
      have hback : (b.setInode i ((b.inode i).addLinks 1)).setInode i (b.inode i) = b := by
        simp only [State.setInode, update_idem, update_eq_self]
      have hn : (b.inode i).nlink ≠ 0 ∨ (b.setInode i ((b.inode i).addLinks 1)).users i ≠ 0 ∧ i ∈ [i] := by
        by_cases hzero : (b.inode i).nlink = 0
        · exact .inr ⟨(hholds.unlinked i htype hzero).1, List.mem_singleton_self i⟩
        · exact .inl hzero
      apply Triple.bind ((ilock_spec fun _ => by rw [hself]; exact htype).pre fun _ h => Holds.forget h)
      intro _
      apply Triple.bind ((iupdate_spec (y := b.inode i) _ htype hn).pre fun _ h => h.1)
      swap
      · have hsub : (b.inode i).nlink + 1 - 1 = (b.inode i).nlink := by omega
        rw [hself]
        simp only [Dinode.addLinks, hsub]
        rw [short_self (by omega) (by omega)]
      intro _
      rw [hback]
      apply Triple.bind iunlockput_spec
      intro _
      exact Triple.pure (fun s h => (h.good hbase).2)

theorem Holds.unlink (h : Holds b held (i :: known) s) (hb : Base strict (b.setInode i z)) (hz : z.type ≠ .free) :
    Inv strict b.proc b.file b.users held (i :: known) (s.setInode i z) := by
  have hinode : (s.setInode i z).inode = (b.setInode i z).inode := by
    rw [h.same]
    rfl
  refine ⟨by rw [h.same]; rfl, by rw [h.same]; rfl, ?_, ?_, h.refs, fun j hj hne => ?_,
    h.known, fun j hfree hnlink => ?_, ?_, ?_⟩
  · rw [hinode]
    exact hb.tree
  · rw [hinode]
    change _ + s.freeBlocks ≤ _
    rw [h.freeBlocks]
    exact hb.space
  · rw [hinode]
    by_cases hji : j = i
    · subst hji
      simp only [State.setInode, update_self]
      exact hz
    · simp only [State.setInode, update_of_ne hji]
      exact h.valid j hj hne
  · rw [hinode] at hfree hnlink
    by_cases hji : j = i
    · subst hji
      exact ⟨.inr (List.mem_append_right _ List.mem_cons_self), h.known j List.mem_cons_self⟩
    · simp only [State.setInode, update_of_ne hji] at hfree hnlink
      obtain ⟨husers, hvalid⟩ := h.unlinked j hfree hnlink
      exact ⟨.inl husers, hvalid⟩
  · rw [hinode]
    exact hb.used
  · rw [hinode]
    exact hb.strict

theorem lookup_two (h : Dots d y) (hname : name ≠ dot ∧ name ≠ dotdot) (hlookup : y.lookup name = some (i, off)) :
    2 ≤ off := by
  obtain ⟨-, -, hget, -⟩ := lookup_some hlookup
  rw [h.entries] at hget
  match off, hget with
  | 0, hget => exact absurd hget.symm hname.1
  | 1, hget => exact absurd hget.symm hname.2
  | off + 2, _ => omega

theorem Tree.linked_of_lookup {t : Table} (h : Tree t) (hd : (t d).type = .dir)
    (hname : name ≠ dot ∧ name ≠ dotdot) (hlookup : (t d).lookup name = some (i, off)) : (t d).linked := by
  obtain ⟨hlt, hget, -, hne⟩ := lookup_some hlookup
  have hholds := holds_of_getD (lookup_two (h.dots d hd) hname hlookup) hlt hget
  have hnlink := h.nlink d (by rw [hd]; decide)
  refine ⟨hd, ?_⟩
  by_contra hzero
  obtain ⟨de, hde, rfl⟩ := holds_pos.mp hholds
  exact hne (h.empty d hd (by omega) de hde)

theorem unlink_end (hb : Base strict b) (hi : (b.inode i).type ≠ .free) (hne : d ≠ i)
    (hd : d < NINODES) (hz : z.linked) (hsize : z.size = (b.inode d).size)
    (htree : Tree (update (update b.inode i ((b.inode i).addLinks (-1))) d z))
    (hgone : (b.inode i).type = .dir → (b.inode i).parent = d)
    (hkeep : strict → (b.inode i).linked → ∀ j, (b.inode j).type = .dir → (b.inode j).nlink = 0 →
      (b.inode j).parent ≠ i) :
    Triple (Holds (b.setInode d z) [] [i, d]) (do
      iunlockput d
      iupdate i fun x => { x with nlink := short (x.nlink - 1) }
      iunlockput i
      pure 0) (fun _ : ℤ => Good strict [] []) (Safe strict) := by
  have hself : (b.setInode d z).inode i = b.inode i := update_of_ne hne.symm _ _
  have hbase : Base strict ((b.setInode d z).setInode i ((b.inode i).addLinks (-1))) := by
    have htable : ((b.setInode d z).setInode i ((b.inode i).addLinks (-1))).inode =
        update (update b.inode i ((b.inode i).addLinks (-1))) d z := update_comm hne _ _ _
    refine hb.edit htable rfl htree ?_ hz hi (fun hdir _ => hgone hdir) hkeep
    rw [space_setInode (hb.tree.lt hi).2 (by rw [hself]; rfl), space_setInode hd hsize]
    rfl
  apply Triple.bind (iunlockput_spec.pre (fun _ h => h.swap))
  intro _
  apply Triple.bind (R := fun _ => Inv strict b.proc b.file b.users [] [i])
  · apply Triple.get
    intro s h
    apply Triple.set
    intro _ _
    simp only [h.inode, hself, hb.subLink hi]
    exact h.unlink hbase hi
  intro _
  apply Triple.bind iunlockput_inv
  intro _
  apply Triple.pure
  intro s h
  exact h.good.2

theorem sysUnlink_spec (hb : Good strict [] [] b) (hp : b.proc p = some x)
    (hguard : strict → ∀ r ∈ walkFrom b.inode true x.cwd path, ∀ q ∈ (b.inode r.1).lookup r.2,
      (b.inode q.1).type = .dir → ∀ j, (b.inode j).type = .dir → (b.inode j).nlink = 0 →
      (b.inode j).parent ≠ q.1) :
    Triple (fun s => s = b) (sysUnlink x.cwd path) (fun _ => Good strict [] []) (Safe strict) := by
  have hbase := hb.base.1
  apply Triple.bind ((path_spec hb hp).pre hb.holds)
  intro r
  apply Triple.known (fun _ h => h.1)
  rintro ⟨hwalk, hlive⟩
  cases r with
  | none => exact Triple.pure (fun s h => (h.2.good hbase).2)
  | some r =>
    obtain ⟨d, name⟩ := r
    have hdir : (b.inode d).type = .dir := walk_parent hwalk
    have hdots := hb.tree.dots d hdir
    apply Triple.bind ((ilock_spec (hlive _ rfl)).pre (fun _ h => h.2))
    intro _
    apply Triple.ite
    · intro _
      apply Triple.bind (iunlockput_spec.pre (fun _ h => h.1))
      intro _
      exact Triple.pure (fun s h => (h.good hbase).2)
    intro hname
    rw [not_or] at hname
    apply Triple.bind (dirlookup_spec.pre (fun _ h => h.1))
    intro r
    apply Triple.known (fun _ h => h.1)
    intro hlookup
    cases r with
    | none =>
      apply Triple.bind (iunlockput_spec.pre (fun _ h => h.2))
      intro _
      exact Triple.pure (fun s h => (h.good hbase).2)
    | some r =>
      obtain ⟨i, off⟩ := r
      have hd := hb.tree.linked_of_lookup hdir hname hlookup
      have htwo := lookup_two hdots hname hlookup
      obtain ⟨hoff, hget, -, -⟩ := lookup_some hlookup
      apply Triple.bind ((ilock_spec (fun hs => (hbase.sane hs).lookup hdir hlookup)).pre (fun _ h => h.2))
      intro _
      apply Triple.get
      rintro s ⟨h, htype⟩
      rw [h.inode]
      apply Triple.ite
      · intro _
        exact Triple.throw (fun _ => by decide)
      intro hnlink
      apply Triple.ite
      · intro _
        apply Triple.bind (iunlockput_spec.pre (by rintro _ rfl; exact h))
        intro _
        apply Triple.bind iunlockput_spec
        intro _
        exact Triple.pure (fun s h => (h.good hbase).2)
      intro hempty
      have hdn := hd.2
      apply Triple.bind ((writeDirent_clear_spec hoff (linked_type hd) (by omega)).pre (by rintro _ rfl; exact h))
      intro r
      apply Triple.ite
      swap
      · intro _
        exact Triple.throw (fun _ => by decide)
      intro hr
      simp only [hr, forall_const]
      have hkeep (hs : strict) (hi : (b.inode i).linked) := hguard hs _ hwalk _ hlookup hi.1
      have hlt := (hb.tree.lt (linked_type hd)).2
      have hholds : (b.inode d).holds i ≠ 0 := holds_of_getD htwo hoff hget
      apply Triple.ite
      · intro hidir
        have hi : (b.inode i).linked := ⟨hidir, by omega⟩
        have hrest : ∀ de ∈ (b.inode i).rest, de.inum = 0 := by
          simpa [hidir, isdirempty, Dinode.rest] using hempty
        obtain ⟨-, hne, hparent, -, -, -, hmany⟩ := hb.tree.leaf hd hi hholds (fun j hj => by
          by_contra hpos
          obtain ⟨de, hde, rfl⟩ := holds_pos.mp hpos
          exact hj (hrest de hde))
        have hz : (((b.inode d).clear off).addLinks (-1)).linked := by
          refine ⟨hdir, ?_⟩
          simp only [Dinode.addLinks, Dinode.clear]
          omega
        have hzn := hz.2
        apply Triple.bind (iupdate_spec (y := ((b.inode d).clear off).addLinks (-1)) _
          (linked_type hz) (.inl (by omega)))
        swap
        · simp only [State.setInode, update_self]
          have hsub := hbase.subLink (linked_type hd)
          simp only [Dinode.addLinks, Dinode.clear, hsub]
          rfl
        intro _
        have hidem : (b.setInode d ((b.inode d).clear off)).setInode d (((b.inode d).clear off).addLinks (-1)) =
            b.setInode d (((b.inode d).clear off).addLinks (-1)) := by
          simp only [State.setInode, update_idem]
        rw [hidem]
        exact unlink_end hbase htype hne hlt hz rfl (hb.tree.rmdir hd hi htwo hoff hget hrest)
          (fun _ => hparent) hkeep
      · intro hfile
        have hne : d ≠ i := by
          rintro rfl
          exact hfile hdir
        exact unlink_end hbase htype hne hlt ⟨hdir, hdn⟩ rfl (hb.tree.unlink hd ⟨hfile, htype⟩ htwo hoff hget)
          (fun hidir => absurd hidir hfile) hkeep

end

end Xv6.FileSystem
