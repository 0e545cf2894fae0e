import Xv6.Runs
import Xv6.VmCalls

namespace Xv6.Vm

open Xv6.Memory (PGSIZE KERNBASE)
open Xv6.Runs Xv6.Triples Xv6.Words

structure Space where
  pgdir : ℕ
  sz : ℕ
  deriving DecidableEq, Repr

def spacesOwned (mem : ℕ → Bytes) (live : List Space) : Multiset ℕ := (live.map fun x => ownedBy mem x.pgdir).sum

def Matches (mem : ℕ → Bytes) (x : Space) : Prop :=
  x.sz < KERNBASE ∧ ∀ v < KERNBASE / PGSIZE, present (entryOf mem x.pgdir v) = decide (v < PGROUNDUP x.sz / PGSIZE)

theorem pgroundup_div {sz : ℕ} (h : sz ≤ KERNBASE) : PGROUNDUP sz / PGSIZE = pageCount sz := by
  rw [pgroundup_eq h, Nat.mul_div_cancel _ (by decide)]

theorem matches_iff {mem : ℕ → Bytes} {x : Space} :
    Matches mem x ↔ x.sz < KERNBASE ∧ Filled (entryOf mem x.pgdir) (pageCount x.sz) := by
  unfold Matches Filled
  constructor
  · rintro ⟨hsz, h⟩
    rw [pgroundup_div (Nat.le_of_lt hsz)] at h
    exact ⟨hsz, h⟩
  · rintro ⟨hsz, h⟩
    rw [pgroundup_div (Nat.le_of_lt hsz)]
    exact ⟨hsz, h⟩

variable {L : Layout} {A : Frames L} {K : Multiset ℕ} {live rest : List Space} {x : Space} {s s' : Machine}
  {mem mem' : ℕ → Bytes} {d hi lo n v : ℕ} {live' : List Space} {E E' : ℕ → ℕ}

theorem mem_ownedBy_dir (mem : ℕ → Bytes) (d : ℕ) : d ∈ ownedBy mem d := by
  simp [ownedBy]

theorem mem_ownedBy_table {i t : ℕ} (hi : i < NPDENTRIES) (ht : tableOf mem d i = some t) : t ∈ ownedBy mem d := by
  have h := mem_tablePages hi ht
  simp only [ownedBy, Multiset.mem_add]
  exact .inl (.inr h)

theorem entryOf_kept (h : ∀ p ∈ ownedBy mem d, mem' p = mem p) (hv : v < 2 ^ 20) :
    entryOf mem' d v = entryOf mem d v := by
  refine entryOf_congr (h d (mem_ownedBy_dir mem d)) fun t ht => h t (mem_ownedBy_table ?_ ht)
  simp only [NPDENTRIES]
  omega

theorem ownedBy_kept (h : ∀ p ∈ ownedBy mem d, mem' p = mem p) : ownedBy mem' d = ownedBy mem d := by
  unfold ownedBy
  rw [userPages_congr fun v hv => entryOf_kept h hv]
  simp only [funext (tableOf_congr (h d (mem_ownedBy_dir mem d)))]

theorem Matches.kept (hx : Matches mem x) (h : ∀ p ∈ ownedBy mem x.pgdir, mem' p = mem p) : Matches mem' x := by
  refine ⟨hx.1, fun v hv => ?_⟩
  rw [entryOf_kept h (Nat.lt_trans (user_lt hv) (by decide))]
  exact hx.2 v hv

theorem mem_spacesOwned {p : ℕ} (hx : x ∈ live) (hp : p ∈ ownedBy mem x.pgdir) : p ∈ spacesOwned mem live := by
  induction live with
  | nil => cases hx
  | cons y live ih =>
    simp only [spacesOwned, List.map_cons, List.sum_cons, Multiset.mem_add]
    obtain rfl | hx := List.mem_cons.mp hx
    · exact .inl hp
    · exact .inr (ih hx)

theorem spacesOwned_kept (h : ∀ p ∈ spacesOwned mem live, mem' p = mem p) :
    spacesOwned mem' live = spacesOwned mem live := by
  unfold spacesOwned
  congr 1
  refine List.map_congr_left fun x hx => ownedBy_kept fun p hp => h p (mem_spacesOwned hx hp)

theorem spacesOwned_cons (mem : ℕ → Bytes) (x : Space) (rest : List Space) :
    spacesOwned mem (x :: rest) = ownedBy mem x.pgdir + spacesOwned mem rest := by
  rw [spacesOwned, List.map_cons, List.sum_cons, spacesOwned]

theorem spacesOwned_perm (h : live.Perm live') : spacesOwned mem live = spacesOwned mem live' :=
  (h.map _).sum_eq

structure Sound (A : Frames L) (K : Multiset ℕ) (live : List Space) (s : Machine) : Prop where
  pages : (s.freelist : Multiset ℕ) + spacesOwned s.mem live + K = A.pages
  sizes : ∀ x ∈ live, Matches s.mem x
  calm : A.calm → s.fails = []

theorem Sound.perm (h : Sound A K live s) (hp : live.Perm live') : Sound A K live' s :=
  ⟨by rw [← spacesOwned_perm hp]; exact h.pages, fun x hx => h.sizes x (hp.mem_iff.mpr hx), h.calm⟩

theorem Sound.heap (h : Sound A K live s) : Heap A 0 (spacesOwned s.mem live + K) s.mem s :=
  ⟨by rw [add_zero, ← add_assoc]; exact h.pages, fun _ _ => rfl, h.calm⟩

theorem Heap.beside {H : Multiset ℕ} (h : Sound A K live s) (h' : Heap A H (spacesOwned s.mem live + K) s.mem s') :
    Sound A (H + K) live s' := by
  have hkept : ∀ p ∈ spacesOwned s.mem live, s'.mem p = s.mem p := fun p hp =>
    h'.frame p (Multiset.mem_add.mpr (.inl hp))
  refine ⟨?_, fun x hx => (h.sizes x hx).kept fun p hp => hkept p (mem_spacesOwned hx hp), h'.calm⟩
  rw [spacesOwned_kept hkept, ← h'.pages]
  simp only [add_assoc, add_left_comm]

theorem Heap.sound (h : Sound A K live s) (h' : Heap A 0 (spacesOwned s.mem live + K) s.mem s') :
    Sound A K live s' := by
  have hs := h'.beside h
  rwa [zero_add] at hs

theorem Sound.own (h : Sound A K (x :: rest) s) :
    Own A 0 (spacesOwned s.mem rest + K) s.mem x.pgdir (entryOf s.mem x.pgdir) s := by
  refine ⟨fun _ _ => rfl, ?_, fun _ _ => rfl, h.calm⟩
  have hpages := h.pages
  rw [spacesOwned, List.map_cons, List.sum_cons] at hpages
  rw [← hpages, add_zero, spacesOwned, ownedBy]
  simp only [add_assoc]

theorem Own.sound {sz : ℕ} (h : Own A 0 (spacesOwned mem rest + K) mem d E s)
    (hrest : ∀ y ∈ rest, Matches mem y) (hsz : sz < KERNBASE) (hE : Filled E (pageCount sz)) :
    Sound A K (⟨d, sz⟩ :: rest) s := by
  have hkept : ∀ p ∈ spacesOwned mem rest, s.mem p = mem p := fun p hp =>
    h.frame p (Multiset.mem_add.mpr (.inl hp))
  refine ⟨?_, fun y hy => ?_, h.calm⟩
  · have hrestOwned := spacesOwned_kept hkept
    rw [spacesOwned] at hrestOwned
    rw [← h.pages, spacesOwned, List.map_cons, List.sum_cons, hrestOwned, add_zero, ownedBy,
      userPages_congr h.entries]
    simp only [add_assoc]
  · obtain rfl | hy := List.mem_cons.mp hy
    · refine matches_iff.mpr ⟨hsz, fun v hv => ?_⟩
      rw [h.entries v (Nat.lt_trans (user_lt hv) (by decide))]
      exact hE v hv
    · exact (hrest y hy).kept fun p hp => hkept p (mem_spacesOwned hy hp)

theorem setupkvm_sound : Triple (Sound A K live) (setupkvm L) (fun r s =>
    r.elim (Sound A K live s ∧ Scarce A (1 + NPDENTRIES + (spacesOwned s.mem live + K).card)) fun d =>
      Sound A K (⟨d, 0⟩ :: live) s) NoStop := by
  apply Triple.start
  intro s hs
  refine Triple.post (setupkvm_heap.here hs.heap) ?_
  rintro (_ | d) y hy
  · refine ⟨hy.1.sound hs, fun hc => ?_⟩
    have hkept : ∀ p ∈ spacesOwned s.mem live, y.mem p = s.mem p := fun p hp =>
      hy.1.frame p (Multiset.mem_add.mpr (.inl hp))
    have hcard := hy.2 hc
    rw [spacesOwned_kept hkept]
    simpa using hcard
  · refine hy.sound hs.sizes (by decide) fun v hv => ?_
    rw [kernelEntries_user hv]
    simp [pageCount, PGSIZE, present]

theorem Filled.maps (h : Filled E lo) (hmaps : Maps E E' lo hi) (hle : lo ≤ hi) :
    Filled E' hi := by
  intro v hv
  by_cases hin : lo ≤ v ∧ v < hi
  · rw [(hmaps.inside v hin.1 hin.2).1, decide_eq_true hin.2]
  · rw [hmaps.outside v hin, h v hv]
    congr 1
    rw [eq_iff_iff]
    omega

theorem Filled.alike (h : Filled E n) (hE : Alike E E') : Filled E' n := by
  intro v hv
  rw [← h v hv]
  obtain heq | ⟨h', hE⟩ := hE v
  · rw [heq]
  · rw [h', hE]

theorem Filled.clear (h : Filled E hi) : Filled (clearRange E lo hi) (min lo hi) := by
  intro v hv
  unfold clearRange
  by_cases hin : lo ≤ v ∧ v < hi
  · rw [if_pos ⟨hin.1, hin.2, by rw [h v hv, decide_eq_true hin.2]⟩, decide_eq_false (by omega)]
    rfl
  · rw [if_neg (fun hc => hin ⟨hc.1, hc.2.1⟩), h v hv]
    congr 1
    rw [eq_iff_iff]
    omega

theorem Filled.above (h : Filled E n) (hn : n ≤ v) (hv : v < KERNBASE / PGSIZE) :
    present (E v) = false := by
  rw [h v hv, decide_eq_false (by omega)]

theorem Matches.absent {newsz : ℕ} (h : Matches mem x) (hnew : newsz < KERNBASE) (v : ℕ) (hlo : pageCount x.sz ≤ v)
    (hhi : v < pageCount newsz) : present (entryOf mem x.pgdir v) = false :=
  (matches_iff.mp h).2.above hlo (Nat.lt_of_lt_of_le hhi (pageCount_le (Nat.le_of_lt hnew)))

theorem allocuvm_sound (newsz : ℕ) : Triple (Sound A K (x :: rest)) (allocuvm L x.pgdir x.sz newsz)
    (fun r s => Sound A K ((if r = 0 then x else ⟨x.pgdir, r⟩) :: rest) s) NoStop := by
  apply Triple.start
  intro s hs
  have hx := hs.sizes x List.mem_cons_self
  obtain ⟨hsz, hfill⟩ := matches_iff.mp hx
  have hrest : ∀ y ∈ rest, Matches s.mem y := fun y hy => hs.sizes y (List.mem_cons_of_mem x hy)
  refine Triple.post ((allocuvm_own (Nat.le_of_lt hsz) hx.absent).here hs.own) ?_
  rintro r y (⟨rfl, hle, hnew, E, hy, hmaps⟩ | ⟨rfl, hlt, _, hy⟩ | ⟨rfl, E, hy, halike, _⟩)
  · have hcount : pageCount x.sz ≤ pageCount r := by
      simp only [pageCount, PGSIZE]
      omega
    have hsound := hy.sound hrest hnew (hfill.maps hmaps hcount)
    split_ifs with hzero
    · have hx : x = ⟨x.pgdir, r⟩ := by
        cases x
        simp only [Space.mk.injEq, true_and] at hle ⊢
        omega
      rwa [hx]
    · exact hsound
  · rw [if_neg (by omega)]
    exact hy.sound hrest hsz hfill
  · rw [if_pos rfl]
    exact hy.sound hrest hsz (hfill.alike halike)

theorem deallocuvm_sound (newsz : ℕ) : Triple (Sound A K (x :: rest)) (deallocuvm L x.pgdir x.sz newsz)
    (fun r s => r = min x.sz newsz ∧ Sound A K (⟨x.pgdir, r⟩ :: rest) s) NoStop := by
  apply Triple.start
  intro s hs
  obtain ⟨hsz, hfill⟩ := matches_iff.mp (hs.sizes x List.mem_cons_self)
  have hrest : ∀ y ∈ rest, Matches s.mem y := fun y hy => hs.sizes y (List.mem_cons_of_mem x hy)
  refine Triple.post ((deallocuvm_own (Nat.le_of_lt hsz)).here hs.own) ?_
  rintro r y ⟨rfl, hy⟩
  have hcount : pageCount (min x.sz newsz) = min (pageCount newsz) (pageCount x.sz) := by
    simp only [pageCount, PGSIZE]
    omega
  refine ⟨rfl, hy.sound hrest (by omega) ?_⟩
  rw [hcount]
  exact hfill.clear

theorem Sound.copyable (hs : Sound A K live s) (hx : x ∈ live) :
    Framed (spacesOwned s.mem live + K) s.mem x.pgdir ∧
    x.sz ≤ KERNBASE ∧ ∀ v < pageCount x.sz, present (entryOf s.mem x.pgdir v) = true := by
  obtain ⟨hsz, hfill⟩ := matches_iff.mp (hs.sizes x hx)
  have hin {p : ℕ} (hp : p ∈ ownedBy s.mem x.pgdir) : p ∈ spacesOwned s.mem live + K :=
    Multiset.mem_add.mpr (.inl (mem_spacesOwned hx hp))
  refine ⟨⟨hin (mem_ownedBy_dir _ _), fun i hi t ht => hin (mem_ownedBy_table hi ht)⟩,
    Nat.le_of_lt hsz, fun v hv => ?_⟩
  rw [hfill v (Nat.lt_of_lt_of_le hv (pageCount_le (Nat.le_of_lt hsz))), decide_eq_true hv]

theorem copyuvm_own (hs : Sound A K live s) (hx : x ∈ live) :
    Triple (Heap A 0 (spacesOwned s.mem live + K) s.mem) (copyuvm L x.pgdir x.sz)
      (fun r y => r.elim (Heap A 0 (spacesOwned s.mem live + K) s.mem y) fun d =>
        ∃ E, Own A 0 (spacesOwned s.mem live + K) s.mem d E y ∧ Filled E (pageCount x.sz)) NoStop := by
  obtain ⟨hframed, hsz, hpresent⟩ := hs.copyable hx
  exact copyuvm_heap hframed hsz hpresent

theorem copyuvm_sound (hx : x ∈ live) : Triple (Sound A K live) (copyuvm L x.pgdir x.sz)
    (fun r s => r.elim (Sound A K live s) fun d => Sound A K (⟨d, x.sz⟩ :: live) s) NoStop := by
  apply Triple.start
  intro s hs
  refine Triple.post ((copyuvm_own hs hx).here hs.heap) ?_
  rintro (_ | d) y hy
  · exact hy.sound hs
  · obtain ⟨E, hy, hE⟩ := hy
    exact hy.sound hs.sizes (hs.sizes x hx).1 hE

theorem freevm_sound : Triple (Sound A K (x :: rest)) (freevm L x.pgdir) (fun _ => Sound A K rest) NoStop := by
  apply Triple.start
  intro s hs
  have hrest : ∀ y ∈ rest, Matches s.mem y := fun y hy => hs.sizes y (List.mem_cons_of_mem x hy)
  refine Triple.post (freevm_own.here hs.own) fun _ y hy => ?_
  have hkept : ∀ p ∈ spacesOwned s.mem rest, y.mem p = s.mem p := fun p hp =>
    hy.frame p (Multiset.mem_add.mpr (.inl hp))
  refine ⟨?_, fun z hz => (hrest z hz).kept fun p hp => hkept p (mem_spacesOwned hz hp), hy.calm⟩
  rw [spacesOwned_kept hkept, ← hy.pages, add_zero, add_assoc]

namespace Conservation

structure State where
  machine : Machine
  live : List Space

inductive Event where
  | setupkvm (fails : List Bool)
  | allocuvm (i newsz : ℕ) (fails : List Bool)
  | deallocuvm (i newsz : ℕ)
  | copyuvm (i : ℕ) (fails : List Bool)
  | freevm (i : ℕ)
  deriving DecidableEq, Repr

def Event.index : Event → Option ℕ
  | .setupkvm _ => none
  | .allocuvm i _ _ | .deallocuvm i _ | .copyuvm i _ | .freevm i => some i

@[simps]
def failing (s : Machine) (fails : List Bool) : Machine := { s with fails := fails }

theorem failing_nil {s : Machine} (h : s.fails = []) : failing s [] = s := by
  cases s
  cases h
  rfl

def call {α : Type} (m : Call α) (s : Machine) (fails : List Bool) : Option (α × Machine) :=
  match m.run (failing s fails) with
  | .ok r => some r
  | .error _ => none

def State.become (s : State) (i : ℕ) (ys : List Space) (machine : Machine) :
    State := ⟨machine, ys ++ s.live.eraseIdx i⟩

def step (L : Layout) (s : State) : Event → Option State
  | .setupkvm fails => (call (setupkvm L) s.machine fails).map fun (r, machine) =>
    ⟨machine, (r.elim [] fun d => [⟨d, 0⟩]) ++ s.live⟩
  | .allocuvm i newsz fails => s.live[i]?.bind fun x =>
    (call (allocuvm L x.pgdir x.sz newsz) s.machine fails).map fun (r, machine) =>
      s.become i [if r = 0 then x else ⟨x.pgdir, r⟩] machine
  | .deallocuvm i newsz => s.live[i]?.bind fun x =>
    (call (deallocuvm L x.pgdir x.sz newsz) s.machine []).map fun (r, machine) => s.become i [⟨x.pgdir, r⟩] machine
  | .copyuvm i fails => s.live[i]?.bind fun x =>
    (call (copyuvm L x.pgdir x.sz) s.machine fails).map fun (r, machine) =>
      ⟨machine, (r.elim [] fun d => [⟨d, x.sz⟩]) ++ s.live⟩
  | .freevm i => s.live[i]?.bind fun x =>
    (call (freevm L x.pgdir) s.machine []).map fun (_, machine) => s.become i [] machine

structure Accounts (L : Layout) (all : Multiset ℕ) (s : State) : Prop where
  pages : (s.machine.freelist : Multiset ℕ) + spacesOwned s.machine.mem s.live = all
  nodup : all.Nodup
  fits : ∀ p ∈ all, L.kernelEnd ≤ p * PGSIZE + KERNBASE ∧ p * PGSIZE < PHYSTOP
  sizes : ∀ x ∈ s.live, Matches s.machine.mem x

/-- What the calls that fail give back, and what `freevm` does. -/
structure ReturnsPages (L : Layout) (s : State) : Prop where
  setupkvm : ∀ fails machine, (setupkvm L).run (failing s.machine fails) = .ok (none, machine) →
    (machine.freelist : Multiset ℕ) = s.machine.freelist
  copyuvm : ∀ x ∈ s.live, ∀ fails machine,
    (copyuvm L x.pgdir x.sz).run (failing s.machine fails) = .ok (none, machine) →
      (machine.freelist : Multiset ℕ) = s.machine.freelist
  allocuvm : ∀ x ∈ s.live, ∀ newsz fails machine,
    (allocuvm L x.pgdir x.sz newsz).run (failing s.machine fails) = .ok (0, machine) →
      (machine.freelist : Multiset ℕ) + tablePages (tableOf machine.mem x.pgdir) =
        s.machine.freelist + tablePages (tableOf s.machine.mem x.pgdir) ∧
      userPages (entryOf machine.mem x.pgdir) = userPages (entryOf s.machine.mem x.pgdir)
  freevm : ∀ x ∈ s.live, ∀ machine, (freevm L x.pgdir).run s.machine = .ok ((), machine) →
    (machine.freelist : Multiset ℕ) = s.machine.freelist + ownedBy s.machine.mem x.pgdir

variable {all : Multiset ℕ} {s s' : State}

def Accounts.frames (h : Accounts L all s) : Frames L := ⟨all, False, h.nodup, h.fits⟩

theorem Accounts.sound (h : Accounts L all s) (fails : List Bool) :
    Sound h.frames 0 s.live (failing s.machine fails) :=
  ⟨by rw [add_zero]; exact h.pages, h.sizes, False.elim⟩

variable {machine machine' : Machine} {α : Type} {E E' : ℕ → ℕ} {R : Multiset ℕ} {m₀ : ℕ → Bytes}

theorem Accounts.of_sound (h : Accounts L all s)
    (hs : Sound h.frames 0 live machine) : Accounts L all ⟨machine, live⟩ :=
  ⟨by rw [← add_zero (_ + _)]; exact hs.pages, h.nodup, h.fits, hs.sizes⟩

theorem pick_perm {live : List α} {i : ℕ} {x : α} (h : live[i]? = some x) :
    live.Perm (x :: live.eraseIdx i) := by
  obtain ⟨hi, rfl⟩ := List.getElem?_eq_some_iff.mp h
  exact (List.getElem_cons_eraseIdx_perm hi).symm

theorem call_spec {m : Call α} {P : Machine → Prop} {Q : α → Machine → Prop}
    {fails : List Bool} (h : Triple P m Q NoStop) (hs : P (failing machine fails)) :
    ∃ r machine', call m machine fails = some (r, machine') ∧ Q r machine' := by
  obtain ⟨r, machine', hrun, hQ⟩ := h.returns hs
  exact ⟨r, machine', by rw [call, hrun], hQ⟩

theorem accounts_step (h : Accounts L all s) (e : Event) (hidx : ∀ i, e.index = some i → i < s.live.length) :
    ∃ s', step L s e = some s' ∧ Accounts L all s' := by
  have hpick {i : ℕ} {x : Space} (hx : s.live[i]? = some x) (fails : List Bool) :
      Sound h.frames 0 (x :: s.live.eraseIdx i) (failing s.machine fails) :=
    (h.sound fails).perm (pick_perm hx)
  have hget {i : ℕ} (he : e.index = some i) : ∃ x, s.live[i]? = some x :=
    ⟨_, List.getElem?_eq_getElem (hidx i he)⟩
  cases e with
  | setupkvm fails =>
    obtain ⟨r, machine, hcall, hQ⟩ := call_spec setupkvm_sound (h.sound fails)
    refine ⟨_, by rw [step, hcall, Option.map_some], ?_⟩
    cases r with
    | none => exact h.of_sound hQ.1
    | some d => exact h.of_sound hQ
  | allocuvm i newsz fails =>
    obtain ⟨x, hx⟩ := hget rfl
    obtain ⟨r, machine, hcall, hQ⟩ := call_spec (allocuvm_sound newsz) (hpick hx fails)
    exact ⟨_, by rw [step, hx, Option.bind_some, hcall, Option.map_some]; rfl, h.of_sound hQ⟩
  | deallocuvm i newsz =>
    obtain ⟨x, hx⟩ := hget rfl
    obtain ⟨r, machine, hcall, hQ⟩ := call_spec (deallocuvm_sound newsz) (hpick hx [])
    exact ⟨_, by rw [step, hx, Option.bind_some, hcall, Option.map_some]; rfl, h.of_sound hQ.2⟩
  | copyuvm i fails =>
    obtain ⟨x, hx⟩ := hget rfl
    obtain ⟨r, machine, hcall, hQ⟩ := call_spec (copyuvm_sound (List.mem_of_getElem? hx)) (h.sound fails)
    refine ⟨_, by rw [step, hx, Option.bind_some, hcall, Option.map_some], ?_⟩
    cases r with
    | none => exact h.of_sound hQ
    | some d => exact h.of_sound hQ
  | freevm i =>
    obtain ⟨x, hx⟩ := hget rfl
    obtain ⟨r, machine, hcall, hQ⟩ := call_spec freevm_sound (hpick hx [])
    exact ⟨_, by rw [step, hx, Option.bind_some, hcall, Option.map_some]; rfl, h.of_sound hQ⟩

theorem step_index {e : Event} (h : step L s e = some s') (i : ℕ) (hi : e.index = some i) : i < s.live.length := by
  have hbind {f : Space → Option State} (hf : s.live[i]?.bind f = some s') : i < s.live.length := by
    obtain ⟨x, hx, _⟩ := Option.bind_eq_some_iff.mp hf
    exact (List.getElem?_eq_some_iff.mp hx).1
  cases e <;> cases hi <;> exact hbind h

theorem accounts_preserved : Preserves (step L) Always (Accounts L all) := by
  intro s e s' h _ hs
  obtain ⟨t, ht, h'⟩ := accounts_step h e (step_index hs)
  rw [ht] at hs
  cases hs
  exact h'

theorem alike_userPages (h : Alike E E') : userPages E' = userPages E := by
  refine sumBelow_congr fun v _ => ?_
  obtain heq | ⟨h', hE⟩ := h v
  · rw [heq]
  · simp [pageOf, h', hE]

theorem heap_back
    (h : Heap A 0 R m₀ machine) (h' : Heap A 0 R m₀ machine') :
    (machine'.freelist : Multiset ℕ) = machine.freelist := by
  have hpages := h'.pages.trans h.pages.symm
  exact add_right_cancel (add_right_cancel hpages)

theorem own_back {d : ℕ}
    (h : Own A 0 R m₀ d E machine) (h' : Own A 0 R m₀ d E' machine') (hE : userPages E' = userPages E) :
    (machine'.freelist : Multiset ℕ) + tablePages (tableOf machine'.mem d) =
      machine.freelist + tablePages (tableOf machine.mem d) ∧
    userPages (entryOf machine'.mem d) = userPages (entryOf machine.mem d) := by
  refine ⟨?_, by rw [userPages_congr h'.entries, userPages_congr h.entries, hE]⟩
  have hpages := add_right_cancel (add_right_cancel (h'.pages.trans h.pages.symm))
  rw [hE] at hpages
  simp only [← add_assoc] at hpages
  have hnoUsers := add_right_cancel hpages
  rw [add_right_comm, add_right_comm (machine.freelist : Multiset ℕ)] at hnoUsers
  exact add_right_cancel hnoUsers

theorem Accounts.returnsPages (h : Accounts L all s) : ReturnsPages L s := by
  refine ⟨fun fails machine hrun => ?_, fun x hx fails machine hrun => ?_, fun x hx newsz fails machine hrun => ?_,
    fun x hx machine hrun => ?_⟩
  · have hs := h.sound fails
    have hback := heap_back hs.heap (setupkvm_heap.ok hs.heap hrun).1
    exact hback
  · have hs := h.sound fails
    have hback := heap_back hs.heap ((copyuvm_own hs hx).ok hs.heap hrun)
    exact hback
  · obtain ⟨i, hi⟩ := List.mem_iff_getElem?.mp hx
    have hs := (h.sound fails).perm (pick_perm hi)
    have hmatch := hs.sizes x List.mem_cons_self
    have hcases := (allocuvm_own (Nat.le_of_lt hmatch.1) hmatch.absent).ok hs.own hrun
    obtain ⟨rfl, hle, _, E, hy, hmaps⟩ | ⟨hr, hlt, _⟩ | ⟨_, E, hy, halike, _⟩ := hcases
    · -- growing from 0 to 0 succeeds with the value of a failure
      have hzero : pageCount x.sz = pageCount 0 := by rw [Nat.le_zero.mp hle]
      have hsame : E = entryOf s.machine.mem x.pgdir := by
        funext v
        refine hmaps.outside v ?_
        rw [hzero]
        omega
      have hback := own_back hs.own hy (by rw [hsame]; rfl)
      exact hback
    · omega
    · have hback := own_back hs.own hy (alike_userPages halike)
      exact hback
  · obtain ⟨i, hi⟩ := List.mem_iff_getElem?.mp hx
    have hs := (h.sound s.machine.fails).perm (pick_perm hi)
    have hfreed := (freevm_own.ok hs.own hrun).pages
    have hpages := hs.pages.trans hfreed.symm
    rw [spacesOwned_cons, add_zero, add_zero, add_zero, ← add_assoc] at hpages
    exact (add_right_cancel hpages).symm

theorem pages_conserved (L : Layout) (all : Multiset ℕ) (s s' : State) (hs : Accounts L all s)
    (hr : Reaches (step L) Always s s') :
    (s'.machine.freelist : Multiset ℕ) + spacesOwned s'.machine.mem s'.live = all ∧
    ((s'.machine.freelist : Multiset ℕ) + spacesOwned s'.machine.mem s'.live).Nodup ∧
    ReturnsPages L s' ∧
    ∀ e : Event, (∀ i, e.index = some i → i < s'.live.length) → ∃ t, step L s' e = some t := by
  have h := hr.invariant accounts_preserved hs
  refine ⟨h.pages, h.pages ▸ h.nodup, h.returnsPages, fun e he => ?_⟩
  obtain ⟨t, ht, _⟩ := accounts_step h e he
  exact ⟨t, ht⟩

def smallKernel : Layout := ⟨0x80108000, 0x80200000, by decide, by decide, by decide, by decide⟩

def booted : State := ⟨⟨List.range' 1024 1100, fun _ _ => 0, []⟩, []⟩

theorem booted_nodup : (booted.machine.freelist : Multiset ℕ).Nodup := Multiset.coe_nodup.mpr List.nodup_range'

theorem booted_fits : ∀ p ∈ (booted.machine.freelist : Multiset ℕ),
    smallKernel.kernelEnd ≤ p * PGSIZE + KERNBASE ∧ p * PGSIZE < PHYSTOP := by
  intro p hp
  have hrange := List.mem_range'_1.mp (Multiset.mem_coe.mp hp)
  simp only [smallKernel, PGSIZE, KERNBASE, PHYSTOP]
  omega

theorem booted_accounts : Accounts smallKernel (booted.machine.freelist : Multiset ℕ) booted :=
  ⟨by simp [booted, spacesOwned], booted_nodup, booted_fits, fun _ h => by cases h⟩

theorem booted_setupkvm : ∃ d machine, step smallKernel booted (.setupkvm []) = some ⟨machine, [⟨d, 0⟩]⟩ := by
  have hsound : Sound ⟨booted.machine.freelist, True, booted_nodup, booted_fits⟩ 0 []
      (failing booted.machine []) :=
    ⟨by simp [booted, spacesOwned], (fun _ h => by cases h), fun _ => rfl⟩
  obtain ⟨r, machine, hcall, hQ⟩ := call_spec setupkvm_sound hsound
  cases r with
  | none =>
    have hcard := hQ.2 trivial
    simp [spacesOwned, booted, NPDENTRIES] at hcard
  | some d => exact ⟨d, machine, by rw [step, hcall]; rfl⟩

theorem pages_conserved_booted : ∃ s', Reaches (step smallKernel) Always booted s' ∧ s'.live ≠ [] ∧
    (s'.machine.freelist : Multiset ℕ) + spacesOwned s'.machine.mem s'.live = booted.machine.freelist ∧
    ((s'.machine.freelist : Multiset ℕ) + spacesOwned s'.machine.mem s'.live).Nodup ∧
    ReturnsPages smallKernel s' ∧
    ∀ e : Event, (∀ i, e.index = some i → i < s'.live.length) → ∃ t, step smallKernel s' e = some t := by
  obtain ⟨d, machine, hstep⟩ := booted_setupkvm
  have hr : Reaches (step smallKernel) Always booted ⟨machine, [⟨d, 0⟩]⟩ := Reaches.tail .refl trivial hstep
  exact ⟨_, hr, List.cons_ne_nil _ _, pages_conserved _ _ _ _ booted_accounts hr⟩

end Conservation

end Xv6.Vm
