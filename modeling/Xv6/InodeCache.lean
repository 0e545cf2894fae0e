import Xv6.DirectoryTree
import Xv6.Triples

namespace Xv6.FileSystem

open Xv6.Counting Xv6.Triples Function

def users (proc : Fin NPROC → Option Proc) (file : Fin NFILE → File) (i : ℕ) : ℕ :=
  count (fun x => x.any fun x => x.cwd = i) proc + count (fun f => f.ref ≠ 0 ∧ f.ip = some i) file

def State.users (s : State) : ℕ → ℕ := FileSystem.users s.proc s.file

structure Holds (b : State) (held known : List ℕ) (s : State) : Prop where
  same : s = b.setIcache s.icache
  refs : ∀ i, s.icache.ref i = b.users i + (held ++ known).count i
  valid : ∀ i, s.icache.valid i → s.icache.ref i ≠ 0 → (b.inode i).type ≠ .free
  known : ∀ i ∈ known, s.icache.valid i
  unlinked : ∀ i, (b.inode i).type ≠ .free → (b.inode i).nlink = 0 → b.users i ≠ 0 ∧ s.icache.valid i

def Safe (strict : Prop) (e : Stop) : Prop := strict → e ≠ .ilockNoType

section

variable {b s : State} {held known : List ℕ} {i dp : ℕ} {strict : Prop} {name : Name}

theorem Holds.inode (h : Holds b held known s) : s.inode = b.inode := by
  rw [h.same]
  rfl

theorem count_cons_eq (i j : ℕ) (l : List ℕ) : (i :: l).count j = l.count j + if i = j then 1 else 0 := by
  rw [List.count_cons]
  simp only [beq_iff_eq]

theorem Holds.forget (h : Holds b held (i :: known) s) : Holds b (i :: held) known s := by
  refine ⟨h.same, fun j => ?_, h.valid, fun j hj => h.known j (List.mem_cons_of_mem i hj), h.unlinked⟩
  rw [h.refs, List.count_append, List.count_append, count_cons_eq, count_cons_eq]
  omega

theorem Holds.swap {j : ℕ} (h : Holds b held (i :: j :: known) s) : Holds b held (j :: i :: known) s := by
  have hperm : (i :: j :: known).Perm (j :: i :: known) := .swap j i known
  refine ⟨h.same, fun k => ?_, h.valid, fun k hk => h.known k (hperm.mem_iff.mpr hk), h.unlinked⟩
  rw [h.refs, (hperm.append_left held).count_eq]

theorem Holds.incr (h : Holds b held known s) (hpos : s.icache.ref i ≠ 0) :
    Holds b (i :: held) known (s.setIcache (s.icache.incr i)) := by
  refine ⟨by rw [h.same]; rfl, fun j => ?_, fun j hj hne => ?_, h.known, h.unlinked⟩
  · rw [List.cons_append, count_cons_eq, ← Nat.add_assoc, ← h.refs]
    simp only [State.setIcache, Icache.incr]
    by_cases hj : j = i
    · subst hj
      rw [update_self, if_pos rfl]
    · rw [update_of_ne hj, if_neg (Ne.symm hj), Nat.add_zero]
  · apply h.valid j hj
    by_cases hji : j = i
    · subst hji
      exact hpos
    · simpa only [State.setIcache, Icache.incr, update_of_ne hji] using hne

theorem Holds.recycle (h : Holds b held known s) (hzero : s.icache.ref i = 0) :
    Holds b (i :: held) known (s.setIcache (s.icache.recycle i)) := by
  have hi := h.refs i
  rw [hzero, List.count_append] at hi
  refine ⟨by rw [h.same]; rfl, fun j => ?_, fun j hj hne => ?_, fun j hj => ?_, fun j hfree hnlink => ?_⟩
  · rw [List.cons_append, count_cons_eq, ← Nat.add_assoc, ← h.refs]
    simp only [State.setIcache, Icache.recycle]
    by_cases hj : j = i
    · subst hj
      rw [update_self, if_pos rfl, hzero]
    · rw [update_of_ne hj, if_neg (Ne.symm hj), Nat.add_zero]
  · by_cases hji : j = i
    · subst hji
      simp [State.setIcache, Icache.recycle] at hj
    · simp only [State.setIcache, Icache.recycle, update_of_ne hji] at hj hne
      exact h.valid j hj hne
  · have hji : j ≠ i := by
      rintro rfl
      have hpos : 0 < known.count j := List.count_pos_iff.mpr hj
      omega
    simp only [State.setIcache, Icache.recycle, update_of_ne hji]
    exact h.known j hj
  · obtain ⟨husers, hvalid⟩ := h.unlinked j hfree hnlink
    have hji : j ≠ i := by
      rintro rfl
      omega
    simp only [State.setIcache, Icache.recycle, update_of_ne hji]
    exact ⟨husers, hvalid⟩

theorem Holds.decr (h : Holds b (i :: held) known s) : Holds b held known (s.setIcache (s.icache.decr i)) := by
  refine ⟨by rw [h.same]; rfl, fun j => ?_, fun j hj hne => ?_, h.known, h.unlinked⟩
  · have hj := h.refs j
    rw [List.cons_append, count_cons_eq] at hj
    simp only [State.setIcache, Icache.decr]
    by_cases hji : j = i
    · subst hji
      rw [if_pos rfl] at hj
      rw [update_self]
      omega
    · rw [if_neg (Ne.symm hji)] at hj
      rw [update_of_ne hji]
      exact hj
  · apply h.valid j hj
    by_cases hji : j = i
    · subst hji
      have hrefs := h.refs j
      rw [List.cons_append, count_cons_eq, if_pos rfl] at hrefs
      omega
    · simpa only [State.setIcache, Icache.decr, update_of_ne hji] using hne

theorem Holds.setLocked (h : Holds b held known s) (v : Bool) :
    Holds b held known (s.setIcache (s.icache.setLocked i v)) :=
  ⟨by rw [h.same]; rfl, h.refs, h.valid, h.known, h.unlinked⟩

theorem Holds.setValid (h : Holds b (i :: held) known s) (htype : (b.inode i).type ≠ .free) :
    Holds b held (i :: known) (s.setIcache (s.icache.setValid i true)) := by
  have hmono {j : ℕ} (hj : s.icache.valid j) : update s.icache.valid i true j = true := by
    by_cases hji : j = i
    · subst hji
      rw [update_self]
    · rw [update_of_ne hji]
      exact hj
  refine ⟨by rw [h.same]; rfl, fun j => ?_, fun j hj hne => ?_, fun j hj => ?_, fun j hfree hnlink => ?_⟩
  · change s.icache.ref j = _
    rw [h.refs, List.count_append, List.count_append, count_cons_eq, count_cons_eq]
    omega
  · by_cases hji : j = i
    · rw [hji]
      exact htype
    · simp only [State.setIcache, Icache.setValid, update_of_ne hji] at hj
      exact h.valid j hj hne
  · obtain rfl | hj := List.mem_cons.mp hj
    · exact update_self _ _ _
    · exact hmono (h.known j hj)
  · obtain ⟨husers, hvalid⟩ := h.unlinked j hfree hnlink
    exact ⟨husers, hmono hvalid⟩

theorem iget_spec : Triple (Holds b held known) (iget i) (fun _ => Holds b (i :: held) known) (Safe strict) := by
  apply Triple.get
  intro s h
  apply Triple.ite
  · intro hpos
    apply Triple.set
    intro _ _
    exact h.incr (by omega)
  · intro hzero
    apply Triple.ite
    · intro _
      exact Triple.throw (fun _ => by decide)
    · intro _
      apply Triple.set
      intro _ _
      exact h.recycle (by omega)

theorem idup_spec (hi : b.users i ≠ 0) :
    Triple (Holds b held known) (idup i) (fun _ => Holds b (i :: held) known) (Safe strict) := by
  apply Triple.get
  intro s h
  apply Triple.set
  intro _ _
  apply h.incr
  rw [h.refs]
  omega

theorem iput_spec : Triple (Holds b (i :: held) known) (iput i) (fun _ => Holds b held known) (Safe strict) := by
  apply Triple.get
  intro s h
  apply Triple.ite
  · intro _
    exact Triple.throw (fun _ => by decide)
  · intro _
    apply Triple.ite
    · rintro ⟨hvalid, hnlink, href⟩
      rw [h.inode] at hnlink
      have husers := (h.unlinked i (h.valid i hvalid (by omega)) hnlink).1
      have hrefs := h.refs i
      rw [List.cons_append, count_cons_eq, if_pos rfl] at hrefs
      omega
    · intro _
      apply Triple.set
      intro _ _
      exact h.decr

theorem ilock_spec (hs : strict → (b.inode i).type ≠ .free) :
    Triple (Holds b (i :: held) known) (ilock i)
      (fun _ s => Holds b held (i :: known) s ∧ (b.inode i).type ≠ .free) (Safe strict) := by
  apply Triple.get
  intro s h
  apply Triple.ite
  · intro _
    exact Triple.throw (fun _ => by decide)
  intro href
  apply Triple.ite
  · intro _
    exact Triple.throw (fun _ => by decide)
  intro _
  apply Triple.ite
  · intro hvalid
    have htype := h.valid i hvalid (by omega)
    apply Triple.set
    intro _ _
    refine ⟨?_, htype⟩
    have hlocked := (h.setLocked (i := i) true).setValid htype
    have hsame : s.icache.setLocked i true = (s.icache.setLocked i true).setValid i true := by
      simp only [Icache.setLocked, Icache.setValid]
      congr 1
      rw [eq_comm, update_eq_self_iff]
      exact hvalid.symm
    rw [hsame]
    exact hlocked
  intro _
  apply Triple.ite
  · intro hfree
    rw [h.inode] at hfree
    exact Triple.throw (fun hstrict => absurd hfree (hs hstrict))
  · intro htype
    rw [h.inode] at htype
    apply Triple.set
    intro _ _
    exact ⟨(h.setLocked (i := i) true).setValid htype, htype⟩

theorem iunlock_spec : Triple (Holds b held known) (iunlock i) (fun _ => Holds b held known) (Safe strict) := by
  apply Triple.get
  intro s h
  apply Triple.ite
  · intro _
    exact Triple.throw (fun _ => by decide)
  · intro _
    apply Triple.set
    intro _ _
    exact h.setLocked false

theorem iunlockput_spec :
    Triple (Holds b held (i :: known)) (iunlockput i) (fun _ => Holds b held known) (Safe strict) := by
  apply Triple.bind iunlock_spec
  intro _
  exact iput_spec.pre (fun _ h => h.forget)

theorem dirlookup_spec :
    Triple (Holds b held known) (dirlookup dp name) (fun r s => (b.inode dp).lookup name = r ∧
      Holds b ((r.map Prod.fst).toList ++ held) known s) (Safe strict) := by
  apply Triple.get
  intro s h
  rw [h.inode]
  apply Triple.ite
  · intro _
    exact Triple.throw (fun _ => by decide)
  intro _
  cases hlookup : (b.inode dp).lookup name with
  | none =>
    apply Triple.pure
    rintro _ rfl
    exact ⟨rfl, h⟩
  | some r =>
    apply Triple.bind (iget_spec.pre (by rintro _ rfl; exact h))
    intro _
    apply Triple.pure
    intro s' h'
    exact ⟨rfl, h'⟩

end

def walk (t : Table) (nameiparent : Bool) : ℕ → List Name → Option (ℕ × Name)
  | ip, [] => if nameiparent then none else some (ip, [])
  | ip, name :: path =>
    if (t ip).type ≠ .dir then none
    else if nameiparent ∧ path = [] then some (ip, name)
    else match (t ip).lookup name with
      | none => none
      | some (next, _) => walk t nameiparent next path

def walkFrom (t : Table) (nameiparent : Bool) (cwd : ℕ) (path : List Char) : Option (ℕ × Name) :=
  walk t nameiparent (if path.head? = some '/' then ROOTINO else cwd) (elems path.length path)

def Sane (t : Table) : Prop :=
  ∀ d, (t d).type = .dir → ∀ de ∈ (t d).entries, de.inum ≠ 0 → (t de.inum).type ≠ .free

section

variable {t : Table} {b : State} {held known : List ℕ} {ip cwd i off : ℕ} {strict : Prop}
    {path : List Char} {name : Name}
  {names : List Name} {parent : Bool} {r : ℕ × Name}

theorem lookup_some {x : Dinode} (h : x.lookup name = some (i, off)) :
    off < x.entries.length ∧ (x.entries.getD off default).inum = i ∧
    (x.entries.getD off default).name = name ∧ i ≠ 0 := by
  obtain ⟨k, hk, heq⟩ := Option.map_eq_some_iff.mp h
  cases heq
  obtain ⟨hlt, hprop, -⟩ := List.findIdx?_eq_some_iff_getElem.mp hk
  rw [List.getD_eq_getElem _ _ hlt]
  simp only [decide_eq_true_eq] at hprop
  exact ⟨hlt, rfl, hprop.2, hprop.1⟩

theorem Sane.lookup (h : Sane t) (hdir : (t ip).type = .dir) (hlookup : (t ip).lookup name = some (i, off)) :
    (t i).type ≠ .free := by
  obtain ⟨hlt, rfl, -, hne⟩ := lookup_some hlookup
  rw [List.getD_eq_getElem _ _ hlt] at hne ⊢
  exact h ip hdir _ (List.getElem_mem hlt) hne

theorem walk_live (h : Sane t) (hip : (t ip).type ≠ .free) (hwalk : walk t parent ip names = some r) :
    (t r.1).type ≠ .free := by
  induction names generalizing ip with
  | nil =>
    simp only [walk] at hwalk
    split_ifs at hwalk
    cases hwalk
    exact hip
  | cons name names ih =>
    simp only [walk] at hwalk
    split_ifs at hwalk with hdir hlast
    · cases hwalk
      exact hip
    · split at hwalk
      · cases hwalk
      · rename_i next off hlookup
        exact ih (h.lookup (not_not.mp hdir) hlookup) hwalk

theorem walk_parent (hwalk : walk t true ip names = some r) : (t r.1).type = .dir := by
  induction names generalizing ip with
  | nil => simp [walk] at hwalk
  | cons name names ih =>
    simp only [walk] at hwalk
    split_ifs at hwalk with hdir hlast
    · cases hwalk
      exact not_not.mp hdir
    · split at hwalk
      · cases hwalk
      · exact ih hwalk

theorem walk_congr {t' : Table} (h : ∀ i, (t' i).type = (t i).type ∧ (t' i).entries = (t i).entries) :
    walk t' parent ip names = walk t parent ip names := by
  induction names generalizing ip with
  | nil => rfl
  | cons name names ih =>
    have hlookup : (t' ip).lookup name = (t ip).lookup name := by
      rw [Dinode.lookup, Dinode.lookup, (h ip).2]
    rw [walk, walk, (h ip).1, hlookup]
    cases (t ip).lookup name with
    | none => rfl
    | some r =>
      simp only
      rw [ih]

theorem namex_spec (hs : strict → Sane b.inode) (hip : strict → (b.inode ip).type ≠ .free) :
    Triple (Holds b (ip :: held) known) (namex parent ip names) (fun r s => walk b.inode parent ip names = r ∧
      Holds b ((r.map Prod.fst).toList ++ held) known s) (Safe strict) := by
  induction names generalizing ip with
  | nil =>
    simp only [namex, walk]
    apply Triple.ite
    · intro hparent
      apply Triple.bind iput_spec
      intro _
      apply Triple.pure
      intro s h
      exact ⟨if_pos hparent, h⟩
    · intro hparent
      apply Triple.pure
      intro s h
      exact ⟨if_neg hparent, h⟩
  | cons name names ih =>
    simp only [namex, walk]
    apply Triple.bind (ilock_spec hip)
    intro _
    apply Triple.get
    rintro s ⟨h, -⟩
    rw [h.inode]
    have hstart : ∀ s', s' = s → Holds b held (ip :: known) s' := by
      rintro _ rfl
      exact h
    apply Triple.ite
    · intro hdir
      rw [if_pos hdir]
      apply Triple.bind (iunlockput_spec.pre hstart)
      intro _
      apply Triple.pure
      intro s' h'
      exact ⟨rfl, h'⟩
    · intro hdir
      rw [if_neg hdir]
      apply Triple.ite
      · intro hlast
        rw [if_pos hlast]
        apply Triple.bind (iunlock_spec.pre hstart)
        intro _
        apply Triple.pure
        intro s' h'
        exact ⟨rfl, h'.forget⟩
      · intro hlast
        rw [if_neg hlast]
        apply Triple.bind (dirlookup_spec.pre hstart)
        intro r
        apply Triple.known (fun _ h => h.1)
        intro hlookup
        rw [hlookup]
        cases r with
        | none =>
          apply Triple.bind (iunlockput_spec.pre (fun _ h => h.2))
          intro _
          apply Triple.pure
          intro s' h'
          exact ⟨rfl, h'⟩
        | some r =>
          apply Triple.bind (iunlockput_spec.pre (fun _ h => h.2))
          intro _
          exact ih (fun hstrict => (hs hstrict).lookup (not_not.mp hdir) hlookup)

theorem namexFrom_spec (hs : strict → Sane b.inode) (hroot : strict → (b.inode ROOTINO).type ≠ .free)
    (hcwd : b.users cwd ≠ 0) (htype : strict → (b.inode cwd).type ≠ .free) :
    Triple (Holds b held known) (namexFrom parent cwd path) (fun r s => walkFrom b.inode parent cwd path = r ∧
      Holds b ((r.map Prod.fst).toList ++ held) known s) (Safe strict) := by
  unfold namexFrom walkFrom
  apply Triple.ite
  · intro habs
    rw [if_pos habs]
    apply Triple.bind iget_spec
    intro _
    exact namex_spec hs hroot
  · intro hrel
    rw [if_neg hrel]
    apply Triple.bind (idup_spec hcwd)
    intro _
    exact namex_spec hs htype

end

end Xv6.FileSystem
