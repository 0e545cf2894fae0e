import Xv6.InodeCache

namespace Xv6.FileSystem

open Xv6.Triples Function

def slots (b : State) (l : List ℕ) : ℕ := (l.toFinset.filter fun i => b.users i = 0).card

structure Roomy (b : State) (held known L : List ℕ) (s : State) : Prop where
  holds : Holds b held known s
  locked : ∀ i, s.icache.locked i = decide (i ∈ L)
  used : s.icache.used = b.icache.used + slots b (held ++ known)

section

variable {b s : State} {held known L l : List ℕ} {i dp : ℕ} {name : Name} {E : Stop → Prop}

theorem slots_le : slots b l ≤ l.length :=
  (Finset.card_filter_le _ _).trans l.toFinset_card_le

theorem slots_perm {l' : List ℕ} (h : l.Perm l') : slots b l = slots b l' := by
  rw [slots, slots, List.toFinset_eq_of_perm _ _ h]

theorem slots_old (h : b.users i + l.count i ≠ 0) : slots b (i :: l) = slots b l := by
  rw [slots, slots, List.toFinset_cons, Finset.filter_insert]
  split_ifs with husers
  · rw [Finset.insert_eq_of_mem]
    have hmem : i ∈ l := List.count_pos_iff.mp (by omega)
    exact Finset.mem_filter.mpr ⟨List.mem_toFinset.mpr hmem, husers⟩
  · rfl

theorem slots_new (h : b.users i + l.count i = 0) : slots b (i :: l) = slots b l + 1 := by
  have hmem : i ∉ l := fun hmem => by
    have := List.count_pos_iff.mpr hmem
    omega
  rw [slots, slots, List.toFinset_cons, Finset.filter_insert, if_pos (by omega), Finset.card_insert_of_notMem]
  exact fun hin => hmem (List.mem_toFinset.mp (Finset.mem_filter.mp hin).1)

theorem Roomy.forget (h : Roomy b held (i :: known) L s) : Roomy b (i :: held) known L s :=
  ⟨h.holds.forget, h.locked, by rw [h.used, slots_perm List.perm_middle]; rfl⟩

theorem iget_room (hroom : b.icache.used + (held ++ known).length < NINODE) :
    Triple (Roomy b held known L) (iget i) (fun _ => Roomy b (i :: held) known L) E := by
  apply Triple.get
  intro s h
  have hrefs := h.holds.refs i
  apply Triple.ite
  · intro hpos
    refine Triple.set fun _ _ => ⟨h.holds.incr (by omega), h.locked, ?_⟩
    rw [List.cons_append, slots_old (by omega)]
    exact h.used
  intro hzero
  apply Triple.ite
  · intro hfull
    have hused := h.used
    have hle : slots b (held ++ known) ≤ (held ++ known).length := slots_le
    omega
  · intro _
    refine Triple.set fun _ _ => ⟨h.holds.recycle (by omega), h.locked, ?_⟩
    rw [List.cons_append, slots_new (by omega), ← Nat.add_assoc, ← h.used]
    rfl

theorem idup_room (hi : b.users i ≠ 0) :
    Triple (Roomy b held known L) (idup i) (fun _ => Roomy b (i :: held) known L) E := by
  apply Triple.get
  intro s h
  have hrefs := h.holds.refs i
  refine Triple.set fun _ _ => ⟨h.holds.incr (by omega), h.locked, ?_⟩
  rw [List.cons_append, slots_old (by omega)]
  exact h.used

theorem iput_room (hL : i ∉ L) : Triple (Roomy b (i :: held) known L) (iput i)
    (fun _ => Roomy b held known L) E := by
  apply Triple.get
  intro s h
  have hrefs := h.holds.refs i
  rw [List.cons_append, count_cons_eq, if_pos rfl] at hrefs
  have hused := h.used
  rw [List.cons_append] at hused
  rw [h.locked, if_neg (by simpa using hL)]
  apply Triple.ite
  · rintro ⟨hvalid, hnlink, href⟩
    rw [h.holds.inode] at hnlink
    have husers := (h.holds.unlinked i (h.holds.valid i hvalid (by omega)) hnlink).1
    omega
  · intro _
    refine Triple.set fun _ _ => ⟨h.holds.decr, h.locked, ?_⟩
    simp only [State.setIcache, Icache.decr]
    split_ifs with hone
    · rw [hused, slots_new (by omega)]
      rfl
    · rw [hused, slots_old (by omega)]

theorem ilock_room (hL : i ∉ L) (htype : (b.inode i).type ≠ .free) :
    Triple (Roomy b (i :: held) known L) (ilock i) (fun _ => Roomy b held (i :: known) (i :: L)) E := by
  apply Triple.get
  intro s h
  have hrefs := h.holds.refs i
  rw [List.cons_append, count_cons_eq, if_pos rfl] at hrefs
  have hlocked (j : ℕ) : update s.icache.locked i true j = decide (j ∈ i :: L) := by
    by_cases hj : j = i
    · rw [hj, update_self]
      simp
    · rw [update_of_ne hj, h.locked]
      simp [hj]
  have hused : s.icache.used = b.icache.used + slots b (held ++ i :: known) := by
    rw [h.used, slots_perm List.perm_middle]
    rfl
  have hnext := (h.holds.setLocked (i := i) true).setValid htype
  rw [if_neg (by omega), h.locked, if_neg (by simpa using hL)]
  apply Triple.ite
  · intro hvalid
    have hsame : s.icache.setLocked i true = (s.icache.setLocked i true).setValid i true := by
      simp only [Icache.setLocked, Icache.setValid]
      congr 1
      rw [eq_comm, update_eq_self_iff]
      exact hvalid.symm
    refine Triple.set fun _ _ => ⟨?_, hlocked, hused⟩
    rw [hsame]
    exact hnext
  · intro _
    rw [h.holds.inode, if_neg htype]
    exact Triple.set fun _ _ => ⟨hnext, hlocked, hused⟩

theorem iunlock_room (hL : i ∉ L) :
    Triple (Roomy b held (i :: known) (i :: L)) (iunlock i) (fun _ => Roomy b held (i :: known) L) E := by
  apply Triple.get
  intro s h
  have hrefs := h.holds.refs i
  rw [List.count_append, count_cons_eq, if_pos rfl] at hrefs
  rw [if_neg (by rw [h.locked]; simp; omega)]
  refine Triple.set fun _ _ => ⟨h.holds.setLocked false, fun j => ?_, h.used⟩
  simp only [State.setIcache, Icache.setLocked]
  by_cases hj : j = i
  · rw [hj, update_self]
    simpa using hL
  · rw [update_of_ne hj, h.locked]
    simp [hj]

theorem iunlockput_room (hL : i ∉ L) :
    Triple (Roomy b held (i :: known) (i :: L)) (iunlockput i) (fun _ => Roomy b held known L) E := by
  apply Triple.bind (iunlock_room hL)
  intro _
  exact (iput_room hL).pre fun _ h => h.forget

theorem dirlookup_room (hdir : (b.inode dp).type = .dir)
    (hroom : b.icache.used + (held ++ known).length < NINODE) :
    Triple (Roomy b held known L) (dirlookup dp name) (fun r s => (b.inode dp).lookup name = r ∧
      Roomy b ((r.map Prod.fst).toList ++ held) known L s) E := by
  apply Triple.get
  intro s h
  rw [h.holds.inode, if_neg (not_not.mpr hdir)]
  cases hlookup : (b.inode dp).lookup name with
  | none => exact Triple.ret ⟨rfl, h⟩
  | some r =>
    apply Triple.bind ((iget_room hroom).here h)
    intro _
    exact Triple.pure fun s' h' => ⟨rfl, h'⟩

end

section

variable {b s : State} {held known : List ℕ} {ip cwd : ℕ} {names : List Name} {parent : Bool} {path : List Char}
  {E : Stop → Prop}

theorem namex_room (hs : Sane b.inode) (hip : (b.inode ip).type ≠ .free)
    (hroom : b.icache.used + (held ++ known).length + 1 < NINODE) :
    Triple (Roomy b (ip :: held) known []) (namex parent ip names) (fun r s => walk b.inode parent ip names = r ∧
      Roomy b ((r.map Prod.fst).toList ++ held) known [] s) E := by
  induction names generalizing ip with
  | nil =>
    simp only [namex, walk]
    apply Triple.ite
    · intro hparent
      apply Triple.bind (iput_room List.not_mem_nil)
      intro _
      exact Triple.pure fun s h => ⟨if_pos hparent, h⟩
    · intro hparent
      exact Triple.pure fun s h => ⟨if_neg hparent, h⟩
  | cons name names ih =>
    simp only [namex, walk]
    apply Triple.bind (ilock_room List.not_mem_nil hip)
    intro _
    apply Triple.get
    intro s h
    rw [h.holds.inode]
    apply Triple.ite
    · intro hdir
      rw [if_pos hdir]
      apply Triple.bind ((iunlockput_room List.not_mem_nil).here h)
      intro _
      exact Triple.pure fun s' h' => ⟨rfl, h'⟩
    intro hdir
    rw [if_neg hdir]
    apply Triple.ite
    · intro hlast
      rw [if_pos hlast]
      apply Triple.bind ((iunlock_room List.not_mem_nil).here h)
      intro _
      exact Triple.pure fun s' h' => ⟨rfl, h'.forget⟩
    intro hlast
    rw [if_neg hlast]
    have hfits : b.icache.used + (held ++ ip :: known).length < NINODE := by
      simp only [List.length_append, List.length_cons] at hroom ⊢
      omega
    apply Triple.bind ((dirlookup_room (not_not.mp hdir) hfits).here h)
    intro r
    apply Triple.known (fun _ h => h.1)
    intro hlookup
    rw [hlookup]
    apply Triple.pre _ fun _ h => h.2
    cases r with
    | none =>
      apply Triple.bind (iunlockput_room List.not_mem_nil)
      intro _
      exact Triple.pure fun s' h' => ⟨rfl, h'⟩
    | some r =>
      apply Triple.bind (iunlockput_room List.not_mem_nil)
      intro _
      exact ih (hs.lookup (not_not.mp hdir) hlookup)

theorem namexFrom_room (hs : Sane b.inode) (hroot : (b.inode ROOTINO).type ≠ .free) (hcwd : b.users cwd ≠ 0)
    (htype : (b.inode cwd).type ≠ .free) (hroom : b.icache.used + (held ++ known).length + 1 < NINODE) :
    Triple (Roomy b held known []) (namexFrom parent cwd path) (fun r s => walkFrom b.inode parent cwd path = r ∧
      Roomy b ((r.map Prod.fst).toList ++ held) known [] s) E := by
  unfold namexFrom walkFrom
  apply Triple.ite
  · intro habs
    rw [if_pos habs]
    apply Triple.bind (iget_room (by omega))
    intro _
    exact namex_room hs hroot hroom
  · intro hrel
    rw [if_neg hrel]
    apply Triple.bind (idup_room hcwd)
    intro _
    exact namex_room hs htype hroom

end

end Xv6.FileSystem
