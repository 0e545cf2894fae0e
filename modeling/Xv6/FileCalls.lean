import Xv6.DiskImage
import Xv6.DirectoryWrites

namespace Xv6.FileSystem

open Xv6.Counting Xv6.Triples Function

def nblocks : ℕ := FSSIZE - nmeta

/-- The tree and the inode cache in the middle of a call, which holds references to `hs` and `ks`, those of
`ks` known to be valid, while `u` counts the others. Where `strict` holds the parent of an unlinked directory
is linked. -/
structure Inv (strict : Prop) (P : Fin NPROC → Option Proc) (F : Fin NFILE → File) (u : ℕ → ℕ) (hs ks : List ℕ)
    (s : State) : Prop where
  proc : s.proc = P
  file : s.file = F
  tree : Tree s.inode
  space : space s.inode + s.freeBlocks ≤ nblocks + 1
  refs : ∀ i, s.icache.ref i = u i + (hs ++ ks).count i
  valid : ∀ i, s.icache.valid i → s.icache.ref i ≠ 0 → (s.inode i).type ≠ .free
  known : ∀ i ∈ ks, s.icache.valid i
  unlinked : ∀ i, (s.inode i).type ≠ .free → (s.inode i).nlink = 0 →
    (u i ≠ 0 ∨ i ∈ hs ++ ks) ∧ s.icache.valid i
  used : ∀ i, u i ≠ 0 → (s.inode i).type ≠ .free
  strict : strict → ∀ d, (s.inode d).type = .dir → (s.inode d).nlink = 0 → (s.inode (s.inode d).parent).linked

def Good (strict : Prop) (held known : List ℕ) (s : State) : Prop :=
  Inv strict s.proc s.file s.users held known s

structure Base (strict : Prop) (b : State) : Prop where
  tree : Tree b.inode
  space : space b.inode + b.freeBlocks ≤ nblocks + 1
  used : ∀ i, b.users i ≠ 0 → (b.inode i).type ≠ .free
  strict : strict → ∀ d, (b.inode d).type = .dir → (b.inode d).nlink = 0 → (b.inode (b.inode d).parent).linked

section

variable {strict : Prop} {b s : State} {held known : List ℕ} {i : ℕ} {u : ℕ → ℕ}
  {P : Fin NPROC → Option Proc} {F : Fin NFILE → File} {p : Fin NPROC} {x : Proc} {f : Fin NFILE}

theorem Inv.good (h : Inv strict P F (users P F) held known s) : s.proc = P ∧ Good strict held known s := by
  obtain rfl := h.proc
  obtain rfl := h.file
  exact ⟨rfl, h⟩

theorem Holds.inv (h : Holds b held known s) (hb : Base strict b) :
    Inv strict b.proc b.file b.users held known s := by
  have hproc : s.proc = b.proc := by
    rw [h.same]
    rfl
  have hfile : s.file = b.file := by
    rw [h.same]
    rfl
  refine ⟨hproc, hfile, ?_, ?_, h.refs, ?_, h.known, ?_, ?_, ?_⟩
  · rw [h.inode]
    exact hb.tree
  · rw [h.inode, h.freeBlocks]
    exact hb.space
  · rw [h.inode]
    exact h.valid
  · rw [h.inode]
    intro i hfree hnlink
    obtain ⟨husers, hvalid⟩ := h.unlinked i hfree hnlink
    exact ⟨.inl husers, hvalid⟩
  · rw [h.inode]
    exact hb.used
  · rw [h.inode]
    exact hb.strict

theorem Holds.good (h : Holds b held known s) (hb : Base strict b) : s.proc = b.proc ∧ Good strict held known s :=
  (h.inv hb).good

theorem Good.base (h : Good strict [] [] s) : Base strict s ∧ Holds s [] [] s := by
  refine ⟨⟨h.tree, h.space, h.used, h.strict⟩, ⟨rfl, h.refs, h.valid, h.known, fun i hfree hnlink => ?_⟩⟩
  obtain ⟨husers, hvalid⟩ := h.unlinked i hfree hnlink
  exact ⟨husers.resolve_right List.not_mem_nil, hvalid⟩

theorem Good.holds (h : Good strict [] [] b) (s : State) (hs : s = b) : Holds b [] [] s := by
  rw [hs]
  exact h.base.2

theorem Base.sane (hb : Base strict b) (hs : strict) : Sane b.inode := by
  intro d hd de hde hinum
  have hdots := hb.tree.dots d hd
  by_cases hname : de.name = dot
  · rw [hdots.entries, List.mem_cons, List.mem_cons] at hde
    obtain rfl | rfl | hde := hde
    · rw [hd]
      decide
    · exact absurd hname (show dotdot ≠ dot by decide)
    · exact absurd hname (hdots.names de hde hinum).1
  by_cases hzero : (b.inode d).nlink = 0
  · rw [hdots.entries, List.mem_cons, List.mem_cons] at hde
    obtain rfl | rfl | hde := hde
    · exact absurd rfl hname
    · exact linked_type (hb.strict hs d hd hzero)
    · exact absurd (hb.tree.empty d hd hzero de hde) hinum
  · have hnlink := hb.tree.nlink d (by rw [hd]; decide)
    exact hb.tree.named ⟨hd, by omega⟩ hde hname hinum

theorem Inv.forget (h : Inv strict P F u held (i :: known) s) : Inv strict P F u (i :: held) known s := by
  have hperm (j : ℕ) : (held ++ i :: known).count j = (i :: held ++ known).count j := by
    rw [List.count_append, List.cons_append, count_cons_eq, count_cons_eq, List.count_append]
    omega
  refine ⟨h.proc, h.file, h.tree, h.space, fun j => ?_, h.valid, fun j hj => h.known j (List.mem_cons_of_mem i hj),
    fun j hfree hnlink => ?_, h.used, h.strict⟩
  · rw [h.refs]
    exact congrArg _ (hperm j)
  · obtain ⟨hin, hvalid⟩ := h.unlinked j hfree hnlink
    refine ⟨hin.imp_right fun hmem => ?_, hvalid⟩
    rw [← List.count_pos_iff] at hmem ⊢
    exact hmem.trans_eq (hperm j)

variable {u' : ℕ → ℕ} {held' known' : List ℕ}

theorem Inv.transfer (h : Inv strict P F u held known s)
    (P' : Fin NPROC → Option Proc) (F' : Fin NFILE → File)
    (hsum : ∀ i, u' i + (held' ++ known').count i = u i + (held ++ known).count i)
    (hknown : ∀ i ∈ known', i ∈ known)
    (hused : ∀ i, u' i ≠ 0 → u i ≠ 0 ∨ i ∈ known) :
    Inv strict P' F' u' held' known' { s with proc := P', file := F' } := by
  have hpos {u : ℕ} {l : List ℕ} {i : ℕ} : (u ≠ 0 ∨ i ∈ l) ↔ u + l.count i ≠ 0 := by
    rw [← List.count_pos_iff]
    omega
  refine ⟨rfl, rfl, h.tree, h.space, fun i => ?_, h.valid,
    fun i hi => h.known i (hknown i hi), fun i hfree hnlink => ?_, fun i hi => ?_, h.strict⟩
  · rw [hsum]
    exact h.refs i
  · obtain ⟨hin, hvalid⟩ := h.unlinked i hfree hnlink
    rw [hpos, ← hsum, ← hpos] at hin
    exact ⟨hin, hvalid⟩
  · obtain hold | hmem := hused i hi
    · exact h.used i hold
    · apply h.valid i (h.known i hmem)
      rw [h.refs]
      exact hpos.mp (.inr (List.mem_append_right _ hmem))

theorem Inv.setIcache_locked (h : Inv strict P F u held known s) (v : Bool) :
    Inv strict P F u held known (s.setIcache (s.icache.setLocked i v)) :=
  ⟨h.proc, h.file, h.tree, h.space, h.refs, h.valid, h.known, h.unlinked, h.used, h.strict⟩

theorem iunlock_inv : Triple (Inv strict P F u held known) (iunlock i) (fun _ => Inv strict P F u held known)
    (Safe strict) := by
  apply Triple.get
  intro s h
  apply Triple.ite
  · intro _
    exact Triple.throw (fun _ => by decide)
  · intro _
    apply Triple.set
    intro _ _
    exact h.setIcache_locked false

theorem Inv.decr (h : Inv strict P F u (i :: held) known s)
    (hlast : s.icache.valid i → (s.inode i).nlink = 0 → s.icache.ref i ≠ 1) :
    Inv strict P F u held known (s.setIcache (s.icache.decr i)) := by
  have hcount (j : ℕ) : s.icache.ref j = u j + ((held ++ known).count j + if i = j then 1 else 0) := by
    rw [h.refs, List.cons_append, count_cons_eq]
  refine ⟨h.proc, h.file, h.tree, h.space, fun j => ?_, fun j hj hne => ?_, h.known,
    fun j hfree hnlink => ?_, h.used, h.strict⟩
  · have hj := hcount j
    simp only [State.setIcache, Icache.decr]
    by_cases hji : j = i
    · subst hji
      rw [if_pos rfl] at hj
      rw [update_self]
      omega
    · rw [if_neg (Ne.symm hji)] at hj
      rw [update_of_ne hji]
      exact hj
  · apply h.valid j hj
    have hj := hcount j
    by_cases hji : j = i
    · subst hji
      rw [if_pos rfl] at hj
      omega
    · simpa only [State.setIcache, Icache.decr, update_of_ne hji] using hne
  · obtain ⟨hin, hvalid⟩ := h.unlinked j hfree hnlink
    refine ⟨?_, hvalid⟩
    by_cases hji : j = i
    · subst hji
      have hj := hcount j
      rw [if_pos rfl] at hj
      have hne := hlast hvalid hnlink
      rw [← List.count_pos_iff]
      omega
    · exact hin.imp_right fun hmem => (List.mem_cons.mp hmem).resolve_left hji

theorem Inv.freed (h : Inv strict P F u (i :: held) known s) (hvalid : s.icache.valid i)
    (hnlink : (s.inode i).nlink = 0) (href : s.icache.ref i = 1) :
    Inv strict P F u held known ((s.ifree i).setIcache ((s.ifree i).icache.decr i)) := by
  have htype := h.valid i hvalid (by omega)
  have hlt := h.tree.lt htype
  have hcount (j : ℕ) : s.icache.ref j = u j + ((held ++ known).count j + if i = j then 1 else 0) := by
    rw [h.refs, List.cons_append, count_cons_eq]
  have hone := hcount i
  rw [if_pos rfl, href] at hone
  have hnot : i ∉ held ++ known := by
    rw [← List.count_pos_iff]
    omega
  have hinode : (s.ifree i).inode = update s.inode i (s.inode i).freed := rfl
  have hself : ((s.ifree i).inode i).type = .free := by
    rw [hinode, update_self]
    rfl
  have hother {j : ℕ} (hj : ((s.ifree i).inode j).type ≠ .free) : j ≠ i := by
    rintro rfl
    exact hj hself
  refine ⟨h.proc, h.file, h.tree.free htype hnlink, ?_, fun j => ?_, fun j hj hne => ?_, fun j hj => ?_,
    fun j hfree hzero => ?_, fun j hj => ?_, fun hs d hd hzero => ?_⟩
  · have hsum : FileSystem.space (update s.inode i (s.inode i).freed) + _ = _ := space_update hlt.2
    have hzero : blocks (s.inode i).freed.size = 0 := show blocks 0 = 0 by decide
    have hold := h.space
    change FileSystem.space (update s.inode i (s.inode i).freed) + (s.freeBlocks + blocks (s.inode i).size) ≤ _
    omega
  · have hj := hcount j
    simp only [State.setIcache, Icache.decr, State.ifree, Icache.setValid]
    by_cases hji : j = i
    · subst hji
      rw [update_self]
      omega
    · rw [if_neg (Ne.symm hji)] at hj
      rw [update_of_ne hji]
      exact hj
  · by_cases hji : j = i
    · subst hji
      simp [State.setIcache, Icache.decr, State.ifree, Icache.setValid] at hj
    · simp only [State.setIcache, Icache.decr, State.ifree, Icache.setValid, update_of_ne hji] at hj hne
      change ((s.ifree i).inode j).type ≠ _
      rw [hinode, update_of_ne hji]
      exact h.valid j hj hne
  · have hji : j ≠ i := by
      rintro rfl
      exact hnot (List.mem_append_right _ hj)
    simp only [State.setIcache, Icache.decr, State.ifree, Icache.setValid, update_of_ne hji]
    exact h.known j hj
  · have hji := hother hfree
    change ((s.ifree i).inode j).type ≠ _ at hfree
    change ((s.ifree i).inode j).nlink = _ at hzero
    rw [hinode, update_of_ne hji] at hfree hzero
    obtain ⟨hin, hv⟩ := h.unlinked j hfree hzero
    refine ⟨hin.imp_right fun hmem => (List.mem_cons.mp hmem).resolve_left hji, ?_⟩
    simp only [State.setIcache, Icache.decr, State.ifree, Icache.setValid, update_of_ne hji]
    exact hv
  · have hji : j ≠ i := by
      rintro rfl
      omega
    change ((s.ifree i).inode j).type ≠ _
    rw [hinode, update_of_ne hji]
    exact h.used j hj
  · have hdi : d ≠ i := hother (j := d) (by change ((s.ifree i).inode d).type = _ at hd; rw [hd]; decide)
    change ((s.ifree i).inode d).type = _ at hd
    change ((s.ifree i).inode d).nlink = _ at hzero
    rw [hinode, update_of_ne hdi] at hd hzero
    have hparent := h.strict hs d hd hzero
    have hne : (s.inode d).parent ≠ i := by
      intro heq
      have hle := hparent.2
      rw [heq] at hle
      omega
    change ((s.ifree i).inode ((s.ifree i).inode d).parent).linked
    rw [hinode, update_of_ne hdi, update_of_ne hne]
    exact hparent

theorem iput_inv : Triple (Inv strict P F u (i :: held) known) (iput i) (fun _ => Inv strict P F u held known)
    (Safe strict) := by
  apply Triple.get
  intro s h
  apply Triple.ite
  · intro _
    exact Triple.throw (fun _ => by decide)
  intro _
  apply Triple.ite
  · rintro ⟨hvalid, hnlink, href⟩
    apply Triple.set
    intro _ _
    exact h.freed hvalid hnlink href
  · intro hne
    apply Triple.set
    intro _ _
    exact h.decr (fun hvalid hnlink href => hne ⟨hvalid, hnlink, href⟩)

theorem iunlockput_inv :
    Triple (Inv strict P F u held (i :: known)) (iunlockput i)
      (fun _ => Inv strict P F u held known) (Safe strict) := by
  apply Triple.bind iunlock_inv
  intro _
  exact iput_inv.pre (fun _ h => h.forget)

theorem users_cwd (hp : P p = some x) : users P F x.cwd ≠ 0 := by
  have hpos : 0 < count (fun y : Option Proc => y.any fun y => y.cwd = x.cwd) P := by
    rw [count, Finset.card_pos]
    exact ⟨p, Finset.mem_filter.mpr ⟨Finset.mem_univ p, by simp [hp]⟩⟩
  rw [users]
  omega

theorem users_setProc (y : Option Proc) (i : ℕ) :
    users (update P p y) F i + (if (P p).any (fun x => x.cwd = i) then 1 else 0) =
      users P F i + if y.any (fun x => x.cwd = i) then 1 else 0 := by
  have hsum := count_update (fun y : Option Proc => y.any fun y => y.cwd = i) P p y
  simp only [users]
  omega

theorem users_setFile (y : File) (i : ℕ) :
    users P (update F f y) i + (if (F f).ref ≠ 0 ∧ (F f).ip = some i then 1 else 0) =
      users P F i + if y.ref ≠ 0 ∧ y.ip = some i then 1 else 0 := by
  have hsum := count_update (fun y : File => y.ref ≠ 0 ∧ y.ip = some i) F f y
  simp only [decide_eq_true_eq] at hsum
  simp only [users]
  omega

theorem Good.setFile (h : Good strict held known s) {y : File}
    (hy : ∀ i, ((s.file f).ref ≠ 0 ∧ (s.file f).ip = some i) ↔ (y.ref ≠ 0 ∧ y.ip = some i)) :
    Good strict held known { s with file := update s.file f y } := by
  have husers (i : ℕ) : users s.proc (update s.file f y) i = s.users i := by
    have hsum := users_setFile (P := s.proc) (F := s.file) (f := f) y i
    simp only [hy] at hsum
    change _ = users s.proc s.file i
    omega
  refine h.transfer s.proc (update s.file f y) (fun i => ?_) (fun i hi => hi) (fun i hi => .inl ?_)
  · rw [← husers]
    rfl
  · rw [← husers]
    exact hi

theorem fileclose_spec : Triple (fun s => s.proc = P ∧ Good strict held known s) (fileclose f)
    (fun _ s => s.proc = P ∧ Good strict held known s) (Safe strict) := by
  apply Triple.get
  rintro s ⟨rfl, h⟩
  apply Triple.ite
  · intro _
    exact Triple.throw (fun _ => by decide)
  intro href
  apply Triple.ite
  · intro hmany
    apply Triple.set
    intro _ _
    refine ⟨rfl, h.setFile fun i => ?_⟩
    simp only
    constructor
    · rintro ⟨-, hip⟩
      exact ⟨by omega, hip⟩
    · rintro ⟨-, hip⟩
      exact ⟨by omega, hip⟩
  intro hone
  apply Triple.bind (R := fun _ s' => s' = { s with file := update s.file f ⟨0, none⟩ })
    (Triple.set fun _ _ => rfl)
  intro _
  cases hip : (s.file f).ip with
  | none =>
    apply Triple.pure
    rintro _ rfl
    exact ⟨rfl, h.setFile fun i => by simp [hip]⟩
  | some ip =>
    apply Triple.post (Q := fun _ => Inv strict s.proc (update s.file f ⟨0, none⟩)
      (users s.proc (update s.file f ⟨0, none⟩)) held known)
    · apply iput_inv.pre
      rintro _ rfl
      have husers (i : ℕ) := users_setFile (P := s.proc) (F := s.file) (f := f) ⟨0, none⟩ i
      refine h.transfer s.proc (update s.file f ⟨0, none⟩) (fun i => ?_) (fun i hi => hi) (fun i hi => .inl ?_)
      · have hi := husers i
        have hold : s.users i = users s.proc s.file i := rfl
        rw [List.cons_append, count_cons_eq]
        simp only [hip, Option.some.injEq, ne_eq, not_true_eq_false, false_and, if_false] at hi
        split_ifs at hi ⊢
        all_goals omega
      · have hi' := husers i
        have hold : s.users i = users s.proc s.file i := rfl
        simp only [ne_eq, not_true_eq_false, false_and, if_false] at hi'
        omega
    · intro _ s' h'
      exact h'.good

theorem iunlockput_good :
    Triple (fun s => s.proc = P ∧ Good strict held (i :: known) s) (iunlockput i)
      (fun _ s => s.proc = P ∧ Good strict held known s) (Safe strict) := by
  apply Triple.start
  rintro s ⟨rfl, h⟩
  apply (iunlockput_inv.pre (by rintro _ rfl; exact h)).post
  intro _ s' h'
  exact h'.good

theorem Inv.share (h : Inv strict P F u held known s)
    (hsum : ∀ i, u' i + (held' ++ known').count i = u i + (held ++ known).count i)
    (hknown : ∀ i ∈ known', i ∈ known)
    (hused : ∀ i, u' i ≠ 0 → u i ≠ 0 ∨ i ∈ known) :
    Inv strict P F u' held' known' s := by
  obtain rfl := h.proc
  obtain rfl := h.file
  exact h.transfer s.proc s.file hsum hknown hused

theorem Inv.install {P' : Fin NPROC → Option Proc} {F' : Fin NFILE → File}
    (h : Inv strict P F (users P' F') held known s) : Good strict held known { s with proc := P', file := F' } :=
  h.transfer P' F' (fun _ => rfl) (fun _ hi => hi) (fun _ hi => .inl hi)

theorem Inv.setProc {y : Option Proc} (h : Inv strict P F (users (update P p y) F) held known s) :
    Good strict held known (s.setProc p y) := by
  obtain rfl := h.proc
  obtain rfl := h.file
  exact h.install

variable {path : List Char} {ip : ℕ}

theorem path_spec {parent : Bool} (hb : Good strict [] [] b) (hp : b.proc p = some x) :
    Triple (Holds b held known) (namexFrom parent x.cwd path) (fun r s =>
      (walkFrom b.inode parent x.cwd path = r ∧ ∀ q ∈ r, strict → (b.inode q.1).type ≠ .free) ∧
        Holds b ((r.map Prod.fst).toList ++ held) known s) (Safe strict) := by
  have hroot : (b.inode ROOTINO).type ≠ .free := linked_type hb.tree.root.1
  have hcwd : b.users x.cwd ≠ 0 := users_cwd hp
  have hsane (hs : strict) : Sane b.inode := hb.base.1.sane hs
  have hlive := hb.used x.cwd hcwd
  apply (namexFrom_spec hsane (fun _ => hroot) hcwd (fun _ => hlive)).post
  rintro r s ⟨hwalk, h⟩
  refine ⟨⟨hwalk, fun q hq hs => ?_⟩, h⟩
  apply walk_live (hsane hs) _ (hwalk.trans hq)
  split_ifs
  · exact hroot
  · exact hlive

theorem namei_spec (hb : Good strict [] [] b) (hp : b.proc p = some x) :
    Triple (fun s => s = b) (namei x.cwd path) (fun r s =>
      (∀ ip ∈ r, strict → (b.inode ip).type ≠ .free) ∧ Holds b r.toList [] s) (Safe strict) := by
  apply Triple.bind ((path_spec hb hp).pre hb.holds)
  intro r
  cases r with
  | none =>
    apply Triple.pure
    rintro s ⟨-, h⟩
    exact ⟨fun _ hip => (Option.not_mem_none _ hip).elim, h⟩
  | some r =>
    apply Triple.pure
    rintro s ⟨⟨-, hlive⟩, h⟩
    refine ⟨fun ip hip => ?_, h⟩
    cases hip
    exact hlive r rfl

theorem sysChdir_spec (hb : Good strict [] [] b) (hp : b.proc p = some x) :
    Triple (fun s => s = b) (sysChdir p x path) (fun _ => Good strict [] []) (Safe strict) := by
  apply Triple.bind (namei_spec hb hp)
  intro r
  cases r with
  | none =>
    apply Triple.pure
    rintro s ⟨-, h⟩
    exact (h.good hb.base.1).2
  | some ip =>
    apply Triple.known (fun _ h => h.1 ip rfl)
    intro hlive
    apply Triple.bind ((ilock_spec hlive).pre (fun _ h => h.2))
    intro _
    apply Triple.get
    rintro s ⟨h, -⟩
    apply Triple.ite
    · intro _
      apply Triple.bind (iunlockput_spec.pre (by rintro _ rfl; exact h))
      intro _
      apply Triple.pure
      intro s' h'
      exact (h'.good hb.base.1).2
    · intro _
      apply Triple.bind (iunlock_spec.pre (by rintro _ rfl; exact h))
      intro _
      -- The new directory takes the place of the old one before the reference to the old one is dropped.
      apply Triple.bind (R := fun _ => Inv strict b.proc b.file
        (users (update b.proc p (some { x with cwd := ip })) b.file) [] [])
      · apply iput_inv.pre
        intro s' h'
        have hgood : Inv strict b.proc b.file b.users [] [ip] s' := h'.inv hb.base.1
        have husers (i : ℕ) := users_setProc (P := b.proc) (F := b.file) (p := p) (some { x with cwd := ip }) i
        simp only [hp, Option.any_some, decide_eq_true_eq] at husers
        have hold (i : ℕ) : b.users i = users b.proc b.file i := rfl
        refine hgood.share (fun i => ?_) (fun i hi => (List.not_mem_nil hi).elim) (fun i hi => ?_)
        · have hi := husers i
          simp only [List.append_nil, List.nil_append, count_cons_eq, List.count_nil, hold]
          omega
        · have hi' := husers i
          by_cases hip : ip = i
          · subst hip
            exact .inr (List.mem_singleton_self ip)
          · rw [if_neg hip] at hi'
            refine .inl ?_
            rw [hold]
            omega
      · intro _
        apply Triple.get
        intro s' h'
        apply Triple.bind (R := fun _ => Good strict [] [])
        · apply Triple.set
          rintro _ rfl
          exact h'.setProc
        · intro _
          exact Triple.pure (fun _ h => h)

theorem users_same {y : Proc} (hp : P p = some x) (hcwd : y.cwd = x.cwd) :
    users (update P p (some y)) F = users P F := by
  funext i
  have hsum := users_setProc (P := P) (F := F) (p := p) (some y) i
  rw [hp, Option.any_some, Option.any_some, hcwd] at hsum
  omega

theorem openFile_spec (hp : P p = some x) :
    Triple (fun s => s.proc = P ∧ Good strict [] [ip] s) (openFile p x ip) (fun _ => Good strict [] [])
      (Safe strict) := by
  apply Triple.get
  rintro s ⟨rfl, h⟩
  cases hfind : (List.finRange NFILE).find? fun f => (s.file f).ref = 0 with
  | none =>
    apply Triple.bind (iunlockput_good.pre (by rintro _ rfl; exact ⟨rfl, h⟩))
    intro _
    exact Triple.pure (fun _ h => h.2)
  | some f =>
    have hzero : (s.file f).ref = 0 := by simpa using List.find?_some hfind
    have hopen : Good strict [] [ip] { s with file := update s.file f ⟨1, none⟩ } :=
      h.setFile fun i => by simp [hzero]
    apply Triple.bind (R := fun _ s' => s' = { s with file := update s.file f ⟨1, none⟩ })
      (Triple.set fun _ _ => rfl)
    intro _
    cases (List.range NOFILE).find? fun fd => x.ofile fd = none with
    | none =>
      apply Triple.bind (fileclose_spec.pre (by rintro _ rfl; exact ⟨rfl, hopen⟩))
      intro _
      apply Triple.bind iunlockput_good
      intro _
      exact Triple.pure (fun _ h => h.2)
    | some fd =>
      apply Triple.bind (R := fun _ => Inv strict s.proc (update s.file f ⟨1, none⟩)
        (users (update s.proc p (some { x with ofile := update x.ofile fd (some f) }))
          (update (update s.file f ⟨1, none⟩) f ⟨1, some ip⟩)) [] [])
      · apply iunlock_inv.pre
        rintro _ rfl
        rw [users_same (y := { x with ofile := update x.ofile fd (some f) }) hp rfl]
        have husers (i : ℕ) := users_setFile (P := s.proc) (F := update s.file f ⟨1, none⟩) (f := f)
          ⟨1, some ip⟩ i
        simp only [update_self, reduceCtorEq, and_false, if_false, ne_eq, one_ne_zero, not_false_eq_true,
          true_and, Option.some.injEq] at husers
        refine Inv.share hopen (fun i => ?_) (fun i hi => (List.not_mem_nil hi).elim) (fun i hi => ?_)
        · have hi := husers i
          simp only [List.append_nil, List.nil_append, count_cons_eq, List.count_nil, Nat.zero_add]
          exact hi
        · have hi' := husers i
          by_cases hip : ip = i
          · subst hip
            exact .inr (List.mem_singleton_self ip)
          · rw [if_neg hip] at hi'
            exact .inl (hi'.symm.trans_ne hi)
      · intro _
        apply Triple.get
        intro s' h'
        apply Triple.bind (R := fun _ => Good strict [] [])
        · apply Triple.set
          rintro _ rfl
          have hproc := h'.proc
          have hfile := h'.file
          rw [State.setProc]
          simp only
          rw [hproc, hfile]
          exact h'.install
        · intro _
          exact Triple.pure (fun _ h => h)

theorem sysClose_spec {fd : ℕ} (hb : Good strict [] [] b) (hp : b.proc p = some x) :
    Triple (fun s => s = b) (sysClose p x fd) (fun _ => Good strict [] []) (Safe strict) := by
  have hsame : ∀ s, s = b → Good strict [] [] s := by
    rintro _ rfl
    exact hb
  apply Triple.ite
  · intro _
    exact Triple.pure hsame
  intro _
  cases x.ofile fd with
  | none => exact Triple.pure hsame
  | some f =>
    apply Triple.get
    rintro s rfl
    apply Triple.bind (R := fun _ s' => s'.proc = (update s.proc p
      (some { x with ofile := update x.ofile fd none })) ∧ Good strict [] [] s')
    · apply Triple.set
      intro _ _
      refine ⟨rfl, Inv.setProc (P := s.proc) (F := s.file) ?_⟩
      rw [users_same (y := { x with ofile := update x.ofile fd none }) hp rfl]
      exact hb
    intro _
    apply Triple.bind fileclose_spec
    intro _
    exact Triple.pure (fun _ h => h.2)

theorem filedup_spec : Triple (fun s => s.proc = P ∧ Good strict held known s) (filedup f)
    (fun _ s => s.proc = P ∧ Good strict held known s) (Safe strict) := by
  apply Triple.get
  rintro s ⟨rfl, h⟩
  apply Triple.ite
  · intro _
    exact Triple.throw (fun _ => by decide)
  · intro href
    apply Triple.set
    intro _ _
    refine ⟨rfl, h.setFile fun i => ?_⟩
    simp only
    constructor
    · rintro ⟨-, hip⟩
      exact ⟨by omega, hip⟩
    · rintro ⟨-, hip⟩
      exact ⟨by omega, hip⟩

theorem ofile_spec {m : Fin NFILE → M PUnit}
    (hm : ∀ f, Triple (fun s => s.proc = P ∧ Good strict [] [] s) (m f)
      (fun _ s => s.proc = P ∧ Good strict [] [] s) (Safe strict)) (l : List ℕ) :
    Triple (fun s => s.proc = P ∧ Good strict [] [] s) (l.forM fun fd => match x.ofile fd with
      | some f => m f
      | none => pure ()) (fun _ s => s.proc = P ∧ Good strict [] [] s) (Safe strict) := by
  apply Triple.forM
  intro fd _
  cases x.ofile fd with
  | none => exact Triple.pure (fun _ h => h)
  | some f => exact hm f

theorem fork_spec {child : Fin NPROC} (hb : Good strict [] [] b) (hp : b.proc p = some x) :
    Triple (fun s => s = b) (fork x child) (fun _ => Good strict [] []) (Safe strict) := by
  apply Triple.get
  rintro b rfl
  apply Triple.ite
  · intro _
    apply Triple.pure
    rintro _ rfl
    exact hb
  intro hchild
  rw [Option.not_isSome_iff_eq_none] at hchild
  apply Triple.bind ((ofile_spec (P := b.proc) (fun f => filedup_spec) _).pre (by rintro _ rfl; exact ⟨rfl, hb⟩))
  intro _
  apply Triple.start
  rintro s ⟨hproc, h⟩
  rw [← hproc] at hp hchild
  apply Triple.bind ((idup_spec (users_cwd hp)).pre h.holds)
  intro _
  apply Triple.get
  intro s' h'
  apply Triple.bind (R := fun _ => Good strict [] [])
  · apply Triple.set
    rintro _ rfl
    apply Inv.setProc (P := s.proc) (F := s.file)
    have husers (i : ℕ) := users_setProc (P := s.proc) (F := s.file) (p := child) (some x) i
    simp only [hchild, Option.any_none, Option.any_some, decide_eq_true_eq, Bool.false_eq_true, if_false] at husers
    have hold (i : ℕ) : s.users i = users s.proc s.file i := rfl
    refine (h'.inv h.base.1).share (fun i => ?_) (fun i hi => hi) (fun i hi => .inl ?_)
    · have hi := husers i
      simp only [List.append_nil, count_cons_eq, List.count_nil, hold]
      omega
    · have hi' := husers i
      by_cases hcwd : x.cwd = i
      · subst hcwd
        exact users_cwd hp
      · rw [if_neg hcwd] at hi'
        rw [hold]
        omega
  · intro _
    exact Triple.pure (fun _ h => h)

theorem exit_spec (hb : Good strict [] [] b) (hp : b.proc p = some x) :
    Triple (fun s => s = b) (exit p x) (fun _ => Good strict [] []) (Safe strict) := by
  apply Triple.ite
  · intro _
    exact Triple.throw (fun _ => by decide)
  intro _
  apply Triple.bind ((ofile_spec (P := b.proc) (fun f => fileclose_spec) _).pre (by rintro _ rfl; exact ⟨rfl, hb⟩))
  intro _
  apply Triple.start
  rintro s ⟨hproc, h⟩
  rw [← hproc] at hp
  apply Triple.bind (R := fun _ => Inv strict s.proc s.file (users (update s.proc p none) s.file) [] [])
  · apply iput_inv.pre
    rintro s rfl
    have husers (i : ℕ) := users_setProc (P := s.proc) (F := s.file) (p := p) none i
    simp only [hp, Option.any_none, Option.any_some, decide_eq_true_eq, Bool.false_eq_true, if_false] at husers
    have hold (i : ℕ) : s.users i = users s.proc s.file i := rfl
    refine Inv.share h (fun i => ?_) (fun i hi => hi) (fun i hi => .inl ?_)
    · have hi := husers i
      simp only [List.append_nil, count_cons_eq, List.count_nil, hold]
      omega
    · have hi' := husers i
      rw [hold]
      omega
  intro _
  apply Triple.get
  intro s' h'
  apply Triple.bind (R := fun _ => Good strict [] [])
  · apply Triple.set
    rintro _ rfl
    exact h'.setProc
  · intro _
    exact Triple.pure (fun _ h => h)

end

end Xv6.FileSystem
