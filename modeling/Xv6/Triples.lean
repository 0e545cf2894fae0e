
namespace Xv6.Triples

variable {σ ε α β : Type}

def Triple (P : σ → Prop) (m : StateT σ (Except ε) α) (Q : α → σ → Prop) (E : ε → Prop) : Prop :=
  ∀ s, P s → match m.run s with
    | .ok (a, s') => Q a s'
    | .error e => E e

section

variable {P P' : σ → Prop} {Q Q' : α → σ → Prop} {R : β → σ → Prop} {E : ε → Prop}
  {m m' : StateT σ (Except ε) α} {n : StateT σ (Except ε) β} {f : β → StateT σ (Except ε) α} {a : α} {e : ε}

theorem Triple.bind (h : Triple P n R E) (h' : ∀ b, Triple (R b) (f b) Q E) : Triple P (n >>= f) Q E := by
  intro s hs
  have hn := h s hs
  rw [StateT.run_bind]
  cases hrun : n.run s with
  | error e =>
    rw [hrun] at hn
    exact hn
  | ok r =>
    rw [hrun] at hn
    exact h' r.1 r.2 hn

variable {s s' : σ} {b : β} {E' : ε → Prop} {p : Prop}

theorem run_bind_ok {r : α × σ} :
    (n >>= f).run s = .ok r ↔ ∃ b s', n.run s = .ok (b, s') ∧ (f b).run s' = .ok r := by
  rw [StateT.run_bind]
  cases hrun : n.run s with
  | error e =>
    constructor
    · intro h
      cases h
    · rintro ⟨b, s', h, _⟩
      cases h
  | ok x =>
    constructor
    · intro h
      exact ⟨x.1, x.2, rfl, h⟩
    · rintro ⟨b, s', hx, h⟩
      cases hx
      exact h

theorem run_bind_after (h : n.run s = .ok (b, s')) : (n >>= f).run s = (f b).run s' := by
  rw [StateT.run_bind, h]
  rfl

theorem Triple.step (hrun : n.run s = .ok (b, s')) (h : Triple (fun x => x = s') (f b) Q E) :
    Triple (fun x => x = s) (n >>= f) Q E := by
  rintro _ rfl
  rw [run_bind_after hrun]
  exact h s' rfl

theorem Triple.stop (hrun : n.run s = .error e) (h : E e) : Triple (fun x => x = s) (n >>= f) Q E := by
  rintro _ rfl
  rw [StateT.run_bind, hrun]
  exact h

theorem Triple.pure (h : ∀ s, P s → Q a s) : Triple P (Pure.pure a) Q E := h

theorem Triple.throw (h : E e) : Triple P (throw e) Q E := fun _ _ => h

theorem Triple.set {Q : PUnit → σ → Prop} (h : ∀ s, P s → Q ⟨⟩ s') : Triple P (set s') Q E := h

theorem Triple.setThen {f : PUnit → StateT σ (Except ε) α} (h : Triple (fun x => x = s') (f ⟨⟩) Q E) :
    Triple P (MonadStateOf.set s' >>= f) Q E := fun _ _ => h s' rfl

theorem Triple.ret (h : Q a s) : Triple (fun x => x = s) (Pure.pure a) Q E := fun _ hx => hx ▸ h

theorem Triple.get {f : σ → StateT σ (Except ε) α} (h : ∀ s, P s → Triple (fun x => x = s) (f s) Q E) :
    Triple P (MonadState.get >>= f) Q E := by
  intro s hs
  exact h s hs s rfl

theorem Triple.ok (h : Triple P m Q E) (hs : P s) (hrun : m.run s = .ok (a, s')) : Q a s' := by
  have hm := h s hs
  rwa [hrun] at hm

theorem Triple.returns (h : Triple P m Q fun _ => False) (hs : P s) :
    ∃ a s', m.run s = .ok (a, s') ∧ Q a s' := by
  have hm := h s hs
  cases hrun : m.run s with
  | error e =>
    rw [hrun] at hm
    exact hm.elim
  | ok r =>
    rw [hrun] at hm
    exact ⟨r.1, r.2, rfl, hm⟩

theorem Triple.pre (h : Triple P m Q E) (hP : ∀ s, P' s → P s) : Triple P' m Q E := fun s hs => h s (hP s hs)

theorem Triple.here (h : Triple P m Q E) (hs : P s) : Triple (fun x => x = s) m Q E :=
  h.pre fun _ hx => hx ▸ hs

theorem Triple.start (h : ∀ s, P s → Triple (fun x => x = s) m Q E) : Triple P m Q E := fun s hs => h s hs s rfl

theorem Triple.post (h : Triple P m Q E) (hQ : ∀ a s, Q a s → Q' a s) : Triple P m Q' E := by
  intro s hs
  have hm := h s hs
  cases hrun : m.run s with
  | error e =>
    rw [hrun] at hm
    exact hm
  | ok r =>
    rw [hrun] at hm
    exact hQ _ _ hm

theorem Triple.except (h : Triple P m Q E) (hE : ∀ e, E e → E' e) : Triple P m Q E' := by
  intro s hs
  have hm := h s hs
  cases hrun : m.run s with
  | error e =>
    rw [hrun] at hm
    exact hE _ hm
  | ok r =>
    rw [hrun] at hm
    exact hm

theorem Triple.and (h : Triple P m Q E) (h' : Triple P' m Q' E') :
    Triple (fun s => P s ∧ P' s) m (fun a s => Q a s ∧ Q' a s) fun e => E e ∧ E' e := by
  intro s hs
  have hm := h s hs.1
  have hm' := h' s hs.2
  cases hrun : m.run s with
  | error e =>
    rw [hrun] at hm hm'
    exact ⟨hm, hm'⟩
  | ok r =>
    rw [hrun] at hm hm'
    exact ⟨hm, hm'⟩

theorem Triple.unmap {g : α → β} {Q : β → σ → Prop} (h : Triple P (m >>= fun a => Pure.pure (g a)) Q E) :
    Triple P m (fun a s => Q (g a) s) E := by
  intro s hs
  have hrun := h s hs
  rw [StateT.run_bind] at hrun
  cases hm : m.run s with
  | error e => rwa [hm] at hrun
  | ok r => rwa [hm] at hrun

theorem Triple.anything : Triple P m (fun _ _ => True) (fun _ : ε => True) := by
  intro s _
  cases m.run s <;> trivial

theorem Triple.never : Triple (fun _ => False) m Q E := fun _ h => h.elim

theorem Triple.fails (h : Triple P m (fun _ _ => False) E) (hs : P s) : ∃ e, m.run s = .error e ∧ E e := by
  have hm := h s hs
  cases hrun : m.run s with
  | error e =>
    rw [hrun] at hm
    exact ⟨e, rfl, hm⟩
  | ok r =>
    rw [hrun] at hm
    exact hm.elim

theorem Triple.ite {c : Prop} [Decidable c] (ht : c → Triple P m Q E) (hf : ¬c → Triple P m' Q E) :
    Triple P (if c then m else m') Q E := by
  by_cases hc : c
  · rw [if_pos hc]
    exact ht hc
  · rw [if_neg hc]
    exact hf hc

theorem Triple.known (hp : ∀ s, P s → p) (h : p → Triple P m Q E) : Triple P m Q E :=
  fun s hs => h (hp s hs) s hs

theorem Triple.given (h : p → Triple P m Q E) : Triple (fun s => p ∧ P s) m Q E :=
  fun s hs => h hs.1 s hs.2

theorem Triple.forM {l : List β} {f : β → StateT σ (Except ε) PUnit} (h : ∀ b ∈ l, Triple P (f b) (fun _ => P) E) :
    Triple P (l.forM f) (fun _ => P) E := by
  induction l with
  | nil => exact Triple.pure (fun _ hs => hs)
  | cons b l ih =>
    apply Triple.bind (h b List.mem_cons_self)
    intro _
    exact ih (fun x hx => h x (List.mem_cons_of_mem b hx))

end

end Xv6.Triples
