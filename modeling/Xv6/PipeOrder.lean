import Xv6.Pipes
import Xv6.Rings
import Xv6.Runs

open Function

namespace Xv6.Files

open Xv6.Rings

def Pipe.ring (p : Pipe) : Rings.Ring ℕ := ⟨p.data, p.nread, p.nwrite⟩

def storedBytes : List ℕ → Pipe → List ℕ
  | [], _ => []
  | byte :: rest, p => if p.full then [] else byte :: storedBytes rest (p.put byte)

abbrev Carries (p : Pipe) (pushed popped : List ℕ) : Prop := Holds PIPESIZE (2 ^ 32) p.ring pushed popped

theorem pipesize_lt_word : PIPESIZE < 2 ^ 32 := by decide

theorem pipesize_dvd_word : PIPESIZE ∣ 2 ^ 32 := by decide

variable {p : Pipe} {pushed popped : List ℕ}

theorem pipewrite_carries (killed : Bool) (n : ℕ) (bytes : List ℕ) (h : Carries p pushed popped) :
    Carries (pipewrite killed n bytes p).1 (pushed ++ storedBytes bytes p) popped := by
  induction bytes generalizing p pushed with
  | nil => simpa [pipewrite, storedBytes] using h
  | cons byte rest ih =>
    unfold pipewrite storedBytes
    by_cases hfull : p.full
    · simpa [hfull] using h
    · have hne : pushed.length ≠ popped.length + PIPESIZE := by
        rw [Ne, ← h.full_iff pipesize_lt_word]
        simpa [Pipe.full, Pipe.ring] using hfull
      have hroom := h.room
      have hput : Carries (p.put byte) (pushed ++ [byte]) popped := h.push pipesize_dvd_word (by omega) byte
      simpa [hfull] using ih hput

theorem pipewrite_returns (killed : Bool) (n : ℕ) (bytes : List ℕ) (p : Pipe) {value : ℤ}
    (h : (pipewrite killed n bytes p).2 = .returns value) :
    value = -1 ∨ (value = n ∧ storedBytes bytes p = bytes) := by
  induction bytes generalizing p with
  | nil =>
    simp only [pipewrite, WriteResult.returns.injEq] at h
    exact .inr ⟨h.symm, rfl⟩
  | cons byte rest ih =>
    unfold pipewrite at h
    unfold storedBytes
    split_ifs at h ⊢ with hfull hgone
    · simp only [WriteResult.returns.injEq] at h
      exact .inl h.symm
    · exact (ih _ h).imp_right (And.imp_right (congrArg _))

theorem pipewrite_sleeps (killed : Bool) (n : ℕ) (bytes : List ℕ) (p : Pipe) {rest : List ℕ}
    (h : (pipewrite killed n bytes p).2 = .sleeps rest) : storedBytes bytes p ++ rest = bytes := by
  induction bytes generalizing p with
  | nil => simp [pipewrite] at h
  | cons byte bytes ih =>
    unfold pipewrite at h
    unfold storedBytes
    split_ifs at h ⊢ with hfull hgone
    · simp only [WriteResult.sleeps.injEq] at h
      exact h.symm
    · exact congrArg _ (ih _ h)

theorem pipereadCopy_carries (n : ℕ) (h : Carries p pushed popped) :
    Carries (pipereadCopy n p).1 pushed (popped ++ (pipereadCopy n p).2) := by
  induction n generalizing p popped with
  | zero => simpa [pipereadCopy] using h
  | succ n ih =>
    unfold pipereadCopy
    split_ifs with hempty
    · simpa using h
    · have hne : pushed.length ≠ popped.length := by
        rwa [Ne, ← h.empty_iff pipesize_lt_word]
      have hle := h.order.length_le
      have hpop := ih (p := { p with nread := (p.nread + 1) % 2 ^ 32 }) (h.pop pipesize_dvd_word (by omega))
      simpa [Pipe.ring] using hpop

end Xv6.Files

namespace Xv6.Pipes

open Xv6.Files Xv6.Rings Xv6.Runs

inductive Stage where
  | idle
  | writing (k : ℕ) (rest : List ℕ)
  | writeSleeping (k : ℕ) (rest : List ℕ)
  | reading (n : ℕ)
  | readSleeping (n : ℕ)
  deriving DecidableEq, Repr

def Stage.wakeupNread : Stage → Stage
  | .readSleeping n => .reading n
  | stage => stage

def Stage.wakeupNwrite : Stage → Stage
  | .writeSleeping k rest => .writing k rest
  | stage => stage

/-- Beside the pipe and its users, the history of the calls: the `bytes` that call `k` was given and its
`result`, every byte `stored` with the call that stored it, and every byte `returned`. -/
structure State (Thread : Type) where
  pipe : Pipe
  stage : Thread → Stage
  calls : ℕ
  bytes : ℕ → List ℕ
  result : ℕ → Option ℤ
  stored : List (ℕ × ℕ)
  returned : List ℕ

inductive Event (Thread : Type) where
  | write (t : Thread) (bytes : List ℕ)
  | read (t : Thread) (n : ℕ)
  | run (t : Thread) (killed : Bool)
  | trap (t : Thread)
  deriving DecidableEq, Repr

variable {Thread : Type} [DecidableEq Thread]

def writeStretch (s : State Thread) (t : Thread) (killed : Bool) (k : ℕ) (rest : List ℕ) : State Thread :=
  let w := pipewrite killed (s.bytes k).length rest s.pipe
  let s' := { s with pipe := w.1, stored := s.stored ++ (storedBytes rest s.pipe).map (fun byte => (k, byte)) }
  match w.2 with
  | .sleeps left =>
    { s' with stage := Function.update (fun u => (s.stage u).wakeupNread) t (.writeSleeping k left) }
  | .returns value =>
    { s' with
      stage := Function.update (fun u => if value = -1 then s.stage u else (s.stage u).wakeupNread) t .idle
      result := Function.update s.result k (some value) }

def readStretch (s : State Thread) (t : Thread) (killed : Bool) (n : ℕ) : State Thread :=
  let r := piperead killed n s.pipe
  match r.2 with
  | .sleeps => { s with pipe := r.1, stage := Function.update s.stage t (.readSleeping n) }
  | .returns value bytes =>
    { s with
      pipe := r.1
      stage := Function.update (fun u => if value = -1 then s.stage u else (s.stage u).wakeupNwrite) t .idle
      returned := s.returned ++ bytes }

def step (s : State Thread) : Event Thread → Option (State Thread)
  | .write t bytes =>
    if s.stage t = .idle then
      some { s with
        stage := Function.update s.stage t (.writing s.calls bytes)
        calls := s.calls + 1
        bytes := Function.update s.bytes s.calls bytes }
    else none
  | .read t n =>
    if s.stage t = .idle then some { s with stage := Function.update s.stage t (.reading n) } else none
  | .run t killed =>
    match s.stage t with
    | .writing k rest => some (writeStretch s t killed k rest)
    | .reading n => some (readStretch s t killed n)
    | _ => none
  | .trap t => some { s with stage := Function.update s.stage t (s.stage t).wakeupNread.wakeupNwrite }

def opened (data : ℕ → ℕ) : State Thread :=
  ⟨⟨data, 0, 0, true, true⟩, fun _ => .idle, 0, fun _ => [], fun _ => none, [], []⟩

def State.storedBy (s : State Thread) (k : ℕ) : List ℕ :=
  (s.stored.filter (fun entry => entry.1 = k)).map Prod.snd

def Stage.pending : Stage → Option (ℕ × List ℕ)
  | .writing k rest | .writeSleeping k rest => some (k, rest)
  | _ => none

@[simp] theorem wakeupNread_pending (stage : Stage) : stage.wakeupNread.pending = stage.pending := by
  cases stage <;> rfl

@[simp] theorem wakeupNwrite_pending (stage : Stage) : stage.wakeupNwrite.pending = stage.pending := by
  cases stage <;> rfl

structure Ordered (s : State Thread) : Prop where
  ring : Carries s.pipe (s.stored.map Prod.snd) s.returned
  fresh : ∀ k, s.calls ≤ k → s.result k = none ∧ s.storedBy k = []
  pending : ∀ t k rest, (s.stage t).pending = some (k, rest) →
    k < s.calls ∧ s.result k = none ∧ s.storedBy k ++ rest = s.bytes k
  owner : ∀ t u k rest rest', (s.stage t).pending = some (k, rest) → (s.stage u).pending = some (k, rest') → t = u
  finished : ∀ k, s.result k = some ((s.bytes k).length : ℤ) → s.storedBy k = s.bytes k

omit [DecidableEq Thread] in
theorem storedBy_append (s : State Thread) (k j : ℕ) (bytes : List ℕ) :
    ((s.stored ++ bytes.map (fun byte => (k, byte))).filter (fun entry => entry.1 = j)).map Prod.snd =
      s.storedBy j ++ if k = j then bytes else [] := by
  simp only [State.storedBy, List.filter_append, List.map_append]
  congr 1
  split_ifs with hkj
  · rw [List.filter_eq_self.mpr (by simpa using fun _ _ => hkj), List.map_map]
    exact List.map_id _
  · rw [List.filter_eq_nil_iff.mpr (by simpa using fun _ _ => hkj), List.map_nil]

variable {s s' : State Thread} {t : Thread} {k : ℕ} {rest : List ℕ}

theorem Ordered.stores (h : Ordered s) (bytes : List ℕ)
    (hp : (s.stage t).pending = some (k, rest)) (hcalls : s'.calls = s.calls) (hbytes : s'.bytes = s.bytes)
    (hstored : s'.stored = s.stored ++ bytes.map (fun byte => (k, byte)))
    (hring : Carries s'.pipe (s'.stored.map Prod.snd) s'.returned)
    (hothers : ∀ u, u ≠ t → (s'.stage u).pending = (s.stage u).pending)
    (hresult : ∀ j, j ≠ k → s'.result j = s.result j)
    (hself : ((s'.stage t).pending = none ∧
        (s'.result k = some ((s.bytes k).length : ℤ) → bytes = rest)) ∨
      ∃ left, (s'.stage t).pending = some (k, left) ∧ s'.result k = none ∧ bytes ++ left = rest) :
    Ordered s' := by
  obtain ⟨hk, hnone, hsofar⟩ := h.pending t k rest hp
  have hby (j : ℕ) : s'.storedBy j = s.storedBy j ++ if k = j then bytes else [] := by
    rw [State.storedBy, hstored, storedBy_append]
  have hother {j : ℕ} (hj : j ≠ k) : s'.storedBy j = s.storedBy j := by
    rw [hby, if_neg (Ne.symm hj), List.append_nil]
  have hown : s'.storedBy k = s.storedBy k ++ bytes := by rw [hby, if_pos rfl]
  refine ⟨hring, fun j hj => ?_, fun u j left hu => ?_, fun u v j left left' hu hv => ?_, fun j hj => ?_⟩
  · rw [hcalls] at hj
    have hjk : j ≠ k := by omega
    rw [hresult j hjk, hother hjk]
    exact h.fresh j hj
  · rw [hcalls, hbytes]
    by_cases hut : u = t
    · subst hut
      obtain ⟨hgone, _⟩ | ⟨left', hpend, hres, hsplit⟩ := hself
      · rw [hgone] at hu
        cases hu
      · rw [hpend] at hu
        cases hu
        exact ⟨hk, hres, by rw [hown, List.append_assoc, hsplit, hsofar]⟩
    · rw [hothers u hut] at hu
      have hjk : j ≠ k := fun hjk => hut (h.owner u t k left rest (hjk ▸ hu) hp)
      rw [hresult j hjk, hother hjk]
      exact h.pending u j left hu
  · have hback {w : Thread} {m : List ℕ} (hw : (s'.stage w).pending = some (j, m)) :
        ∃ m', (s.stage w).pending = some (j, m') := by
      by_cases hwt : w = t
      · subst hwt
        obtain ⟨hgone, _⟩ | ⟨left, hpend, _⟩ := hself
        · rw [hgone] at hw
          cases hw
        · rw [hpend] at hw
          cases hw
          exact ⟨rest, hp⟩
      · exact ⟨m, by rw [← hothers w hwt, hw]⟩
    obtain ⟨m, hm⟩ := hback hu
    obtain ⟨m', hm'⟩ := hback hv
    exact h.owner u v j m m' hm hm'
  · rw [hbytes] at hj ⊢
    by_cases hjk : j = k
    · subst hjk
      obtain ⟨_, hall⟩ | ⟨_, _, hres, _⟩ := hself
      · rw [hown, hall hj, hsofar]
      · rw [hres] at hj
        cases hj
    · rw [hresult j hjk] at hj
      rw [hother hjk]
      exact h.finished j hj

omit [DecidableEq Thread] in
theorem Ordered.keeps (h : Ordered s) (hcalls : s'.calls = s.calls) (hbytes : s'.bytes = s.bytes)
    (hresult : s'.result = s.result) (hstored : s'.stored = s.stored)
    (hpending : ∀ u, (s'.stage u).pending = (s.stage u).pending)
    (hring : Carries s'.pipe (s.stored.map Prod.snd) s'.returned) : Ordered s' := by
  have hby (k : ℕ) : s'.storedBy k = s.storedBy k := by rw [State.storedBy, hstored, State.storedBy]
  refine ⟨hstored ▸ hring, fun k hk => ?_, fun t k rest ht => ?_, fun t u k rest rest' ht hu => ?_, fun k hk => ?_⟩
  · rw [hresult, hby]
    exact h.fresh k (hcalls ▸ hk)
  · rw [hcalls, hresult, hbytes, hby]
    exact h.pending t k rest (hpending t ▸ ht)
  · exact h.owner t u k rest rest' (hpending t ▸ ht) (hpending u ▸ hu)
  · rw [hbytes, hby]
    exact h.finished k (by rw [← hresult, ← hbytes, hk])

theorem ordered_writeStretch (h : Ordered s)
    (hp : s.stage t = .writing k rest) (killed : Bool) : Ordered (writeStretch s t killed k rest) := by
  have hpend : (s.stage t).pending = some (k, rest) := by rw [hp]; rfl
  have hnone := (h.pending t k rest hpend).2.1
  have hring := pipewrite_carries killed (s.bytes k).length rest h.ring
  have hmap : (s.stored ++ (storedBytes rest s.pipe).map (fun byte => (k, byte))).map Prod.snd =
      s.stored.map Prod.snd ++ storedBytes rest s.pipe := by
    simp [Function.comp_def]
  unfold writeStretch
  simp only
  split
  · rename_i left hw
    refine h.stores (storedBytes rest s.pipe) hpend rfl rfl rfl (by rwa [hmap]) (fun u hu => ?_)
      (fun _ _ => rfl) (.inr ⟨left, ?_, hnone, pipewrite_sleeps _ _ _ _ hw⟩)
    · simp [update_of_ne hu]
    · simp [Stage.pending]
  · rename_i value hw
    refine h.stores (storedBytes rest s.pipe) hpend rfl rfl rfl (by rwa [hmap]) (fun u hu => ?_)
      (fun j hj => update_of_ne hj _ _) (.inl ⟨?_, fun hv => ?_⟩)
    · simp only [update_of_ne hu]
      split_ifs <;> simp
    · simp [Stage.pending]
    · simp only [update_self, Option.some.injEq] at hv
      obtain hneg | ⟨_, hall⟩ := pipewrite_returns _ _ _ _ hw
      · omega
      · exact hall

theorem ordered_readStretch {n : ℕ} (h : Ordered s) (hp : s.stage t = .reading n)
    (killed : Bool) : Ordered (readStretch s t killed n) := by
  have hself (stage : Stage) (f : Thread → Stage) (hs : stage.pending = none)
      (hf : ∀ u, (f u).pending = (s.stage u).pending) (u : Thread) :
      (update f t stage u).pending = (s.stage u).pending := by
    by_cases hut : u = t
    · subst hut
      rw [update_self, hs, hp]
      rfl
    · rw [update_of_ne hut, hf]
  have hcopy := pipereadCopy_carries n h.ring
  unfold readStretch piperead
  split_ifs with hempty hkilled
  · refine h.keeps rfl rfl rfl rfl (hself _ _ rfl (fun u => rfl)) ?_
    simpa using h.ring
  · exact h.keeps rfl rfl rfl rfl (hself _ _ rfl (fun u => rfl)) h.ring
  · refine h.keeps rfl rfl rfl rfl (hself _ _ rfl (fun u => ?_)) hcopy
    split_ifs <;> simp

theorem ordered_write (h : Ordered s) (hp : s.stage t = .idle) (bytes : List ℕ) :
    Ordered { s with
      stage := update s.stage t (.writing s.calls bytes)
      calls := s.calls + 1
      bytes := update s.bytes s.calls bytes } := by
  have hold {u : Thread} {k : ℕ} {rest : List ℕ}
      (hu : (update s.stage t (Stage.writing s.calls bytes) u).pending = some (k, rest)) :
      (u = t ∧ k = s.calls ∧ rest = bytes) ∨ (k ≠ s.calls ∧ (s.stage u).pending = some (k, rest)) := by
    by_cases hut : u = t
    · subst hut
      rw [update_self] at hu
      cases hu
      exact .inl ⟨rfl, rfl, rfl⟩
    · rw [update_of_ne hut] at hu
      exact .inr ⟨Nat.ne_of_lt (h.pending u k rest hu).1, hu⟩
  refine ⟨h.ring, fun k hk => ?_, fun u k rest hu => ?_, fun u v k rest rest' hu hv => ?_, fun k hk => ?_⟩
  · exact h.fresh k (Nat.le_of_succ_le hk)
  · obtain ⟨_, rfl, rfl⟩ | ⟨hk, hu⟩ := hold hu
    · obtain ⟨hres, hby⟩ := h.fresh s.calls (Nat.le_refl _)
      refine ⟨Nat.lt_succ_self _, hres, ?_⟩
      simpa [State.storedBy] using hby
    · obtain ⟨hlt, hres, hsofar⟩ := h.pending u k rest hu
      exact ⟨Nat.lt_succ_of_lt hlt, hres, hsofar.trans (update_of_ne hk _ _).symm⟩
  · obtain ⟨hut, hk, _⟩ | ⟨hk, hu⟩ := hold hu
    · obtain ⟨hvt, _, _⟩ | ⟨hk', _⟩ := hold hv
      · rw [hut, hvt]
      · exact absurd hk hk'
    · obtain ⟨_, hk', _⟩ | ⟨_, hv⟩ := hold hv
      · exact absurd hk' hk
      · exact h.owner u v k rest rest' hu hv
  · have hne : k ≠ s.calls := by
      intro hkc
      simp [hkc, (h.fresh s.calls (Nat.le_refl _)).1] at hk
    simp only [update_of_ne hne] at hk ⊢
    exact h.finished k hk

theorem ordered_step : Preserves (step : State Thread → Event Thread → Option (State Thread)) Always Ordered := by
  intro s e s' h _ hs
  cases e with
  | write t bytes =>
    simp only [step, Option.ite_none_right_eq_some, Option.some.injEq] at hs
    obtain ⟨hidle, rfl⟩ := hs
    exact ordered_write h hidle bytes
  | read t n =>
    simp only [step, Option.ite_none_right_eq_some, Option.some.injEq] at hs
    obtain ⟨hidle, rfl⟩ := hs
    refine h.keeps rfl rfl rfl rfl (fun u => ?_) h.ring
    by_cases hut : u = t
    · simp [hut, hidle, Stage.pending]
    · simp [update_of_ne hut]
  | run t killed =>
    simp only [step] at hs
    split at hs
    · cases hs
      exact ordered_writeStretch h ‹_› killed
    · cases hs
      exact ordered_readStretch h ‹_› killed
    · cases hs
  | trap t =>
    simp only [step, Option.some.injEq] at hs
    subst hs
    refine h.keeps rfl rfl rfl rfl (fun u => ?_) h.ring
    by_cases hut : u = t
    · simp [hut]
    · simp [update_of_ne hut]

omit [DecidableEq Thread] in
theorem ordered_opened (data : ℕ → ℕ) : Ordered (opened data : State Thread) := by
  refine ⟨holds_empty data, fun _ _ => ⟨rfl, rfl⟩, fun _ _ _ h => ?_, fun _ _ _ _ _ h => ?_,
    fun _ h => ?_⟩ <;> cases h

theorem pipe_fifo (data : ℕ → ℕ) (s : State Thread) (hr : Reaches step Always (opened data) s) :
    s.returned <+: s.stored.map Prod.snd ∧
    s.stored.length - s.returned.length = (s.pipe.nwrite + 2 ^ 32 - s.pipe.nread) % 2 ^ 32 ∧
    s.stored.length - s.returned.length ≤ PIPESIZE ∧
    ∀ k, s.result k = some ((s.bytes k).length : ℤ) → s.storedBy k = s.bytes k := by
  have h := hr.invariant ordered_step (ordered_opened data)
  have hcount := h.ring.count pipesize_lt_word
  have hroom := h.ring.room
  rw [List.length_map] at hcount hroom
  exact ⟨h.ring.order, hcount, by omega, h.finished⟩

def shortTalk : List (Event Bool) :=
  [.read false 2, .run false false, .write true [7, 8, 9], .run true false, .run false false]

theorem pipe_fifo_shortTalk : ∃ s : State Bool, Reaches step Always (opened fun _ => 0) s ∧
    s.returned = [7, 8] ∧ s.result 0 = some 3 ∧
    s.returned <+: s.stored.map Prod.snd ∧
    s.stored.length - s.returned.length = (s.pipe.nwrite + 2 ^ 32 - s.pipe.nread) % 2 ^ 32 ∧
    s.stored.length - s.returned.length ≤ PIPESIZE ∧
    ∀ k, s.result k = some ((s.bytes k).length : ℤ) → s.storedBy k = s.bytes k :=
  have hr := exec_get_reaches (opened fun _ => 0) shortTalk (by decide +kernel)
  ⟨_, hr, by decide +kernel, by decide +kernel, pipe_fifo _ _ hr⟩

end Xv6.Pipes
