import Xv6.InodeCache

namespace Xv6.FileSystem

open Xv6.Triples Function

section

variable {b s s₀ : State} {held known : List ℕ} {i dp inum n : ℕ} {strict : Prop} {name : Name} {x y : Dinode}
  {type : FileType} {f : Dinode → Dinode} {de : Dirent}

theorem Holds.setInode (h : Holds b held known s) (hx : x.type ≠ .free)
    (hn : x.nlink ≠ 0 ∨ b.users i ≠ 0 ∧ i ∈ known) : Holds (b.setInode i x) held known (s.setInode i x) := by
  refine ⟨by rw [h.same]; rfl, h.refs, fun j hj hne => ?_, h.known, fun j hfree hnlink => ?_⟩
  · by_cases hji : j = i
    · subst hji
      simp only [State.setInode, update_self]
      exact hx
    · simp only [State.setInode, update_of_ne hji]
      exact h.valid j hj hne
  · by_cases hji : j = i
    · subst hji
      simp only [State.setInode, update_self] at hnlink
      obtain ⟨husers, hmem⟩ := hn.resolve_left (fun hne => hne hnlink)
      exact ⟨husers, h.known j hmem⟩
    · simp only [State.setInode, update_of_ne hji] at hfree hnlink
      exact h.unlinked j hfree hnlink

theorem Holds.setFree (h : Holds b held known s) :
    Holds { b with freeBlocks := n } held known { s with freeBlocks := n } :=
  ⟨by rw [h.same]; rfl, h.refs, h.valid, h.known, h.unlinked⟩

theorem Holds.freeBlocks (h : Holds b held known s) : s.freeBlocks = b.freeBlocks := by
  rw [h.same]
  rfl

theorem iupdate_spec (hf : f (b.inode i) = y) (hy : y.type ≠ .free)
    (hn : y.nlink ≠ 0 ∨ b.users i ≠ 0 ∧ i ∈ known) :
    Triple (Holds b held known) (iupdate i f) (fun _ => Holds (b.setInode i y) held known) (Safe strict) := by
  apply Triple.get
  intro s h
  apply Triple.set
  intro _ _
  rw [h.inode, hf]
  exact h.setInode hy hn

def State.linked (b : State) (dp : ℕ) (de : Dirent) (n : ℕ) : State :=
  { b with freeBlocks := n }.setInode dp ((b.inode dp).insert de)

theorem Holds.linked (h : Holds b held known s) (htype : (b.inode dp).type ≠ .free)
    (hnlink : (b.inode dp).nlink ≠ 0) : Holds (b.linked dp de n) held known (s.linked dp de n) := by
  have hset := h.setFree (n := n).setInode (i := dp) (x := (b.inode dp).insert de) htype (.inl hnlink)
  rw [State.linked, State.linked, ← h.inode]
  rw [← h.inode] at hset
  exact hset

theorem insert_set (de : Dirent) (hsize : x.size = 16 * x.entries.length)
    (hlt : x.entries.findIdx (fun e => e.inum = 0) < x.entries.length) :
    { x with entries := x.entries.set (x.entries.findIdx fun e => e.inum = 0) de } = x.insert de := by
  have hentries : insertDirent de x.entries = x.entries.set (x.entries.findIdx fun e => e.inum = 0) de := by
    rw [insertDirent_eq, if_pos hlt]
  rw [Dinode.insert, hentries, List.length_set, ← hsize]

theorem insert_append (de : Dirent) (hlt : ¬x.entries.findIdx (fun e => e.inum = 0) < x.entries.length) :
    { x with
      size := ((x.entries.findIdx fun e => e.inum = 0) + 1) * 16
      entries := x.entries ++ [de] } = x.insert de := by
  have hentries : insertDirent de x.entries = x.entries ++ [de] := by rw [insertDirent_eq, if_neg hlt]
  have hidx : (x.entries.findIdx fun e => e.inum = 0) = x.entries.length :=
    Nat.le_antisymm List.findIdx_le_length (Nat.le_of_not_lt hlt)
  rw [Dinode.insert, hentries, hidx, List.length_append, List.length_singleton, Nat.mul_comm]

theorem insert_size (de : Dirent) (hsize : x.size = 16 * x.entries.length) : x.size ≤ (x.insert de).size := by
  rw [Dinode.insert, insertDirent_eq]
  split_ifs
  · rw [List.length_set, hsize]
  · rw [List.length_append, hsize]
    exact Nat.mul_le_mul_left _ (Nat.le_add_right _ _)

theorem balloc_run : (balloc n).run s = if s.freeBlocks < n then .error .ballocOutOfBlocks
    else .ok ((), { s with freeBlocks := s.freeBlocks - n }) := by
  change (ite _ _ _ : M Unit).run s = _
  split_ifs
  · rfl
  · rfl

theorem writeDirent_run (de : Dirent) (hsize : (s.inode dp).size = 16 * (s.inode dp).entries.length) :
    (writeDirent dp ((s.inode dp).entries.findIdx fun e => e.inum = 0) de).run s =
      if (((s.inode dp).entries.findIdx fun e => e.inum = 0) + 1) * 16 > MAXFILE * BSIZE then .ok (false, s)
      else if s.freeBlocks + blocks (s.inode dp).size < blocks ((s.inode dp).insert de).size then
        .error .ballocOutOfBlocks
      else .ok (true, s.linked dp de (s.freeBlocks + blocks (s.inode dp).size - blocks
        ((s.inode dp).insert de).size)) := by
  change (ite _ _ (ite _ _ _) : M Bool).run s = _
  by_cases hbig : (((s.inode dp).entries.findIdx fun e => e.inum = 0) + 1) * 16 > MAXFILE * BSIZE
  · rw [if_pos hbig, if_pos hbig]
    rfl
  rw [if_neg hbig, if_neg hbig]
  have hle := blocks_mono (insert_size de hsize)
  by_cases hlt : (s.inode dp).entries.findIdx (fun e => e.inum = 0) < (s.inode dp).entries.length
  · have hinsert := insert_set de hsize hlt
    have hblocks : blocks ((s.inode dp).insert de).size = blocks (s.inode dp).size := by rw [← hinsert]
    rw [if_pos hlt, hinsert, hblocks, if_neg (by omega), Nat.add_sub_cancel]
    rfl
  · rw [if_neg hlt]
    have hinsert := insert_append de hlt
    have hsize : (((s.inode dp).entries.findIdx fun e => e.inum = 0) + 1) * 16 =
        ((s.inode dp).insert de).size := by
      rw [← hinsert]
    rw [hsize] at hinsert ⊢
    rw [StateT.run_bind, balloc_run]
    by_cases hfree : s.freeBlocks < blocks ((s.inode dp).insert de).size - blocks (s.inode dp).size
    · rw [if_pos hfree, if_pos (by omega)]
      rfl
    · have hrest : s.freeBlocks - (blocks ((s.inode dp).insert de).size - blocks (s.inode dp).size) =
          s.freeBlocks + blocks (s.inode dp).size - blocks ((s.inode dp).insert de).size := by omega
      rw [if_neg hfree, if_neg (by omega), hrest, State.linked, ← hinsert]
      rfl

theorem writeDirent_spec (hsize : (b.inode dp).size = 16 * (b.inode dp).entries.length)
    (htype : (b.inode dp).type ≠ .free) (hnlink : (b.inode dp).nlink ≠ 0) :
    Triple (Holds b held known) (writeDirent dp ((b.inode dp).entries.findIdx fun e => e.inum = 0) de)
      (fun r s => r = true → ∃ n, n + blocks ((b.inode dp).insert de).size = b.freeBlocks +
        blocks (b.inode dp).size ∧ Holds (b.linked dp de n) held known s) (Safe strict) := by
  intro s h
  have hsame : (s.inode dp).size = 16 * (s.inode dp).entries.length := by
    rw [h.inode]
    exact hsize
  have hrun := writeDirent_run de hsame
  rw [h.inode, h.freeBlocks] at hrun
  rw [hrun]
  split_ifs with hbig hfree
  · intro hfalse
    cases hfalse
  · exact fun _ => by decide
  · exact fun _ => ⟨_, Nat.sub_add_cancel (Nat.le_of_not_lt hfree), h.linked htype hnlink⟩

theorem dirlink_spec (hsize : (b.inode dp).size = 16 * (b.inode dp).entries.length)
    (htype : (b.inode dp).type ≠ .free) (hnlink : (b.inode dp).nlink ≠ 0) :
    Triple (Holds b held known) (dirlink dp name inum) (fun r s =>
      if r then (b.inode dp).lookup name = none ∧ ∃ n,
        n + blocks ((b.inode dp).insert ⟨inum, name.take DIRSIZ⟩).size = b.freeBlocks + blocks (b.inode dp).size ∧
          Holds (b.linked dp ⟨inum, name.take DIRSIZ⟩ n) held known s
      else Holds b held known s) (Safe strict) := by
  apply Triple.bind dirlookup_spec
  intro r
  apply Triple.known (fun _ h => h.1)
  intro hlookup
  cases r with
  | some r =>
    apply Triple.bind (iput_spec.pre (fun _ h => h.2))
    intro _
    apply Triple.pure
    intro s h
    exact h
  | none =>
    apply Triple.get
    rintro s ⟨-, h⟩
    rw [h.inode]
    apply Triple.bind ((writeDirent_spec hsize htype hnlink).pre (by rintro _ rfl; exact h))
    intro r
    apply Triple.ite
    · intro hr
      apply Triple.pure
      intro s' h'
      exact ⟨hlookup, h' hr⟩
    · intro _
      exact Triple.throw (fun _ => by decide)

theorem dirlink_cases {α : Type} {fail next : M α} {Q : α → State → Prop}
    (hsize : (b.inode dp).size = 16 * (b.inode dp).entries.length) (htype : (b.inode dp).type ≠ .free)
    (hnlink : (b.inode dp).nlink ≠ 0) (hfail : Triple (Holds b held known) fail Q (Safe strict))
    (hnext : ∀ n, n + blocks ((b.inode dp).insert ⟨inum, name.take DIRSIZ⟩).size =
      b.freeBlocks + blocks (b.inode dp).size →
        Triple (Holds (b.linked dp ⟨inum, name.take DIRSIZ⟩ n) held known) next Q (Safe strict)) :
    Triple (Holds b held known) (do
      if !(← dirlink dp name inum) then fail
      else next) Q (Safe strict) := by
  apply Triple.bind (dirlink_spec hsize htype hnlink)
  intro r
  cases r with
  | false => exact hfail
  | true =>
    apply Triple.start
    rintro s ⟨-, n, hn, h⟩
    apply (hnext n hn).pre
    rintro _ rfl
    exact h

theorem ialloc_spec : Triple (Holds b held known) (ialloc type) (fun i s => (i ≠ 0 ∧ i < NINODES) ∧
    (b.inode i).type = .free ∧ ∃ s₀, Holds b (i :: held) known s₀ ∧ s = s₀.setInode i ⟨type, 0, 0, 0, 0, []⟩)
    (Safe strict) := by
  apply Triple.get
  intro s h
  rw [h.inode]
  cases hfind : (List.range' 1 (NINODES - 1)).find? fun inum => (b.inode inum).type = .free with
  | none => exact Triple.throw (fun _ => by decide)
  | some i =>
    have hmem := List.mem_of_find?_eq_some hfind
    have hfree : (b.inode i).type = .free := by simpa using List.find?_some hfind
    have hi : i ≠ 0 ∧ i < NINODES := by
      rw [List.mem_range'_1] at hmem
      simp only [NINODES] at hmem ⊢
      omega
    apply Triple.bind (R := fun _ s' => s' = s.setInode i ⟨type, 0, 0, 0, 0, []⟩) (Triple.set fun _ _ => rfl)
    intro _
    apply Triple.bind (R := fun _ s' => ∃ s₀, Holds b (i :: held) known s₀ ∧
      s' = s₀.setInode i ⟨type, 0, 0, 0, 0, []⟩)
    · apply Triple.get
      rintro _ rfl
      apply Triple.ite
      · intro hpos
        apply Triple.set
        intro _ _
        exact ⟨_, h.incr (Nat.pos_iff_ne_zero.mp hpos), rfl⟩
      · intro hzero
        apply Triple.ite
        · intro _
          exact Triple.throw (fun _ => by decide)
        · intro _
          apply Triple.set
          intro _ _
          exact ⟨_, h.recycle (Nat.eq_zero_of_not_pos hzero), rfl⟩
    intro _
    apply Triple.pure
    intro s' h'
    exact ⟨hi, hfree, h'⟩

theorem ilock_new_spec (h : Holds b (i :: held) known s₀) (hfree : (b.inode i).type = .free)
    (htype : y.type ≠ .free) :
    Triple (fun s => s = s₀.setInode i y) (ilock i) (fun _ s => s = (s₀.setInode i y).setIcache
      ((s₀.icache.setLocked i true).setValid i true)) (Safe strict) := by
  have hself : (s₀.setInode i y).inode i = y := update_self _ _ _
  apply Triple.get
  rintro _ rfl
  apply Triple.ite
  · intro _
    exact Triple.throw (fun _ => by decide)
  intro href
  apply Triple.ite
  · intro _
    exact Triple.throw (fun _ => by decide)
  intro _
  apply Triple.ite
  · intro hvalid
    exact absurd hfree (h.valid i hvalid (fun hzero => href (by rw [State.setInode, hzero]; decide)))
  intro _
  rw [hself]
  apply Triple.ite
  · intro hy
    exact absurd hy htype
  · intro _
    exact Triple.set (fun _ _ => rfl)

theorem iupdate_new_spec (h : Holds b (i :: held) known s₀)
    (hf : (f y).type ≠ .free ∧ (f y).nlink ≠ 0) :
    Triple (fun s => s = (s₀.setInode i y).setIcache ((s₀.icache.setLocked i true).setValid i true)) (iupdate i f)
      (fun _ => Holds (b.setInode i (f y)) held (i :: known)) (Safe strict) := by
  have hself : (s₀.setInode i y).inode i = y := update_self _ _ _
  have hrefs (j : ℕ) : s₀.icache.ref j = b.users j + (held ++ i :: known).count j := by
    rw [h.refs, List.count_append, List.count_append, count_cons_eq, count_cons_eq]
    omega
  apply Triple.get
  rintro _ rfl
  apply Triple.set
  intro _ _
  have hfy : ((s₀.setInode i y).setIcache ((s₀.icache.setLocked i true).setValid i true)).inode i = y := hself
  rw [hfy]
  have hmono {j : ℕ} (hj : s₀.icache.valid j) : update s₀.icache.valid i true j = true := by
    by_cases hji : j = i
    · subst hji
      rw [update_self]
    · rw [update_of_ne hji]
      exact hj
  refine ⟨?_, hrefs, fun j hj hne => ?_, fun j hj => ?_, fun j hlive hnlink => ?_⟩
  · rw [h.same]
    simp only [State.setInode, State.setIcache, update_idem]
  · by_cases hji : j = i
    · subst hji
      simp only [State.setInode, update_self]
      exact hf.1
    · simp only [State.setInode, State.setIcache, Icache.setValid, update_of_ne hji] at hj ⊢
      exact h.valid j hj hne
  · obtain rfl | hj := List.mem_cons.mp hj
    · exact update_self _ _ _
    · exact hmono (h.known j hj)
  · by_cases hji : j = i
    · subst hji
      simp only [State.setInode, update_self] at hnlink
      exact absurd hnlink hf.2
    · simp only [State.setInode, update_of_ne hji] at hlive hnlink
      obtain ⟨husers, hvalid⟩ := h.unlinked j hlive hnlink
      exact ⟨husers, hmono hvalid⟩

theorem writeDirent_clear_spec {off : ℕ} (hoff : off < (b.inode dp).entries.length)
    (htype : (b.inode dp).type ≠ .free) (hnlink : (b.inode dp).nlink ≠ 0) :
    Triple (Holds b held known) (writeDirent dp off .zero)
      (fun r s => r = true → Holds (b.setInode dp ((b.inode dp).clear off)) held known s) (Safe strict) := by
  apply Triple.get
  intro s h
  rw [h.inode]
  apply Triple.ite
  · intro _
    apply Triple.pure
    intro _ _ hfalse
    cases hfalse
  intro _
  rw [if_pos hoff]
  apply Triple.bind (R := fun _ s' => s' = s.setInode dp ((b.inode dp).clear off)) (Triple.set fun _ _ => rfl)
  intro _
  apply Triple.pure
  rintro _ rfl _
  exact h.setInode htype (.inl hnlink)

end

end Xv6.FileSystem
