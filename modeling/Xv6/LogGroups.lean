import Xv6.LogOps

namespace Xv6.LogOps

open Xv6.Log Xv6.Runs Function

inductive Phase
  | outside
  | inside
  | committing
  deriving DecidableEq

def Pc.phase : Pc → Phase
  | .user | .beginOp | .sleeps => .outside
  | .op | .logWrite _ | .logWriteTrans _ | .logWriteLocked _ | .endOp => .inside
  | .commit _ => .committing

def Progress (blocks : List ℕ) (c : Commit) : CommitPc → Prop
  | .start => c = .empty
  | .writeLog tail => c = ⟨blocks.take tail, [], []⟩ ∧ tail ≤ blocks.length
  | .writeHead => c = ⟨blocks, [], []⟩
  | .installTrans tail => c = ⟨blocks, blocks, blocks.take tail⟩ ∧ tail ≤ blocks.length
  | .clear => c = ⟨blocks, blocks, blocks⟩
  | .clearHead | .done => blocks = [] ∧ c.copied = c.head ∧ c.installed = c.head

variable {Thread : Type}

def Covered (s : State Thread) (o : Ended) : Prop :=
  o.began = o.ended ∧
    (o.ended = s.commits.length ∧ (∀ b ∈ o.blocks, b ∈ s.blocks ∨ b ∈ s.current.head) ∨
      ∃ c, s.commits[o.ended]? = some c ∧ ∀ b ∈ o.blocks, b ∈ c.head)

structure Sound (s : State Thread) : Prop where
  outstanding : ∃ A : Finset Thread, (∀ t, t ∈ A ↔ (s.pc t).phase = .inside) ∧ s.outstanding = A.card
  committing : ∀ t pc, s.pc t = .commit pc → s.committing = true ∧ Progress s.blocks s.current pc
  alone : ∀ t t', (s.pc t).phase = .committing → (s.pc t').phase = .committing → t = t'
  busy : s.committing = true → s.outstanding = 0
  idle : s.committing = false → s.current = .empty ∧ (s.outstanding = 0 → s.blocks = [])
  nodup : s.blocks.Nodup
  began : ∀ t, (s.pc t).phase = .inside → (s.op t).began = s.commits.length ∧ ∀ b ∈ (s.op t).blocks, b ∈ s.blocks
  ended : ∀ o ∈ s.ended, Covered s o
  commits : ∀ c ∈ s.commits, c.copied = c.head ∧ c.installed = c.head
  stopped : s.stopped ≠ some .committing ∧ s.stopped ≠ some .outside

section

variable {s : State Thread} {t : Thread} {p : Thread → Pc} {x : Option Stop}
    {c c' : Commit} {blocks blocks' : List ℕ}
  {pc pc' : CommitPc}

theorem phase_commit {pc : Pc} (h : pc.phase = .committing) : ∃ c, pc = .commit c := by
  cases pc with
  | commit c => exact ⟨c, rfl⟩
  | _ => cases h

theorem boot_sound : Sound (boot : State Thread) where
  outstanding := ⟨∅, by simp [boot, Pc.phase], rfl⟩
  committing := fun t pc h => by cases h
  alone := fun t t' h => by cases h
  busy := fun h => by cases h
  idle := fun _ => ⟨rfl, fun _ => rfl⟩
  nodup := List.nodup_nil
  began := fun t h => by cases h
  ended := fun o ho => by cases ho
  commits := fun c hc => by cases hc
  stopped := ⟨by simp [boot], by simp [boot]⟩

theorem Sound.inside (h : Sound s) (ht : (s.pc t).phase = .inside) :
    1 ≤ s.outstanding ∧ s.committing = false ∧ ∀ t', (s.pc t').phase ≠ .committing := by
  obtain ⟨A, hA, hout⟩ := h.outstanding
  have hpos : 0 < A.card := Finset.card_pos.mpr ⟨t, (hA t).mpr ht⟩
  have hfalse : s.committing = false := by
    rw [← Bool.not_eq_true]
    intro htrue
    have hzero := h.busy htrue
    omega
  refine ⟨by omega, hfalse, fun t' ht' => ?_⟩
  obtain ⟨c, hc⟩ := phase_commit ht'
  have htrue := (h.committing t' c hc).1
  rw [hfalse] at htrue
  cases htrue

theorem Sound.phases (h : Sound s) (hx : x ≠ some .committing ∧ x ≠ some .outside)
    (hp : ∀ t, p t = s.pc t ∨ (p t).phase = (s.pc t).phase ∧ (s.pc t).phase ≠ .committing) :
    Sound { s with pc := p, stopped := x } := by
  have hphase (t : Thread) : (p t).phase = (s.pc t).phase := by
    obtain heq | heq := hp t
    · rw [heq]
    · exact heq.1
  refine ⟨?_, ?_, ?_, h.busy, h.idle, h.nodup, ?_, h.ended, h.commits, hx⟩
  · obtain ⟨A, hA, hout⟩ := h.outstanding
    refine ⟨A, fun t => ?_, hout⟩
    rw [hA, ← hphase]
  · intro t pc hpc
    change p t = _ at hpc
    obtain heq | ⟨heq, hne⟩ := hp t
    · exact h.committing t pc (heq ▸ hpc)
    · rw [hpc] at heq
      exact absurd heq.symm hne
  · intro t t' ht ht'
    apply h.alone t t'
    · rw [← hphase]
      exact ht
    · rw [← hphase]
      exact ht'
  · intro t ht
    apply h.began t
    rw [← hphase]
    exact ht

theorem Sound.none_inside (h : Sound s) (hc : s.committing = true) : (s.pc t).phase ≠ .inside := by
  intro ht
  have hout := (h.inside ht).1
  have hzero := h.busy hc
  omega

theorem Sound.wakeup (h : Sound s) : Sound s.wakeup := by
  apply h.phases h.stopped
  intro t
  cases hpc : s.pc t with
  | sleeps => exact .inr ⟨rfl, by simp [Pc.phase]⟩
  | _ => exact .inl rfl

theorem Sound.stop (h : Sound s) {x : Stop} (hx : x ≠ .committing ∧ x ≠ .outside) : Sound (s.stop x) :=
  h.phases (by simpa using hx) (fun _ => .inl rfl)

theorem progress_turn (h : Progress blocks c pc) (ht : commitTurn blocks c pc = some (pc', blocks', c')) :
    Progress blocks' c' pc' := by
  cases pc with
  | start =>
    cases h
    simp only [commitTurn] at ht
    split_ifs at ht with hlen
    · cases ht
      exact ⟨by simp [Commit.empty], by omega⟩
    · cases ht
      exact ⟨by simpa using hlen, rfl, rfl⟩
  | writeLog tail =>
    obtain ⟨rfl, hle⟩ := h
    simp only [commitTurn] at ht
    split at ht
    · rename_i b hb
      cases ht
      have hlt := (List.getElem?_eq_some_iff.mp hb).1
      exact ⟨by rw [List.take_add_one, hb, Option.toList_some], hlt⟩
    · rename_i hnone
      cases ht
      rw [List.getElem?_eq_none_iff] at hnone
      change _ = _
      rw [List.take_of_length_le hnone]
  | writeHead =>
    cases h
    cases ht
    exact ⟨by simp, by omega⟩
  | installTrans tail =>
    obtain ⟨rfl, hle⟩ := h
    simp only [commitTurn] at ht
    split at ht
    · rename_i b hb
      cases ht
      have hlt := (List.getElem?_eq_some_iff.mp hb).1
      exact ⟨by rw [List.take_add_one, hb, Option.toList_some], hlt⟩
    · rename_i hnone
      cases ht
      rw [List.getElem?_eq_none_iff] at hnone
      change _ = _
      rw [List.take_of_length_le hnone]
  | clear =>
    cases h
    cases ht
    exact ⟨rfl, rfl, rfl⟩
  | clearHead =>
    cases ht
    exact h
  | done => cases ht

theorem turn_lists (ht : commitTurn blocks c pc = some (pc', blocks', c')) :
    blocks' = blocks ∧ c'.head = c.head ∨ pc = .writeHead ∧ blocks' = blocks ∨ pc = .clear ∧
    blocks' = [] ∧ c' = c := by
  cases pc with
  | start =>
    simp only [commitTurn] at ht
    split_ifs at ht
    · cases ht
      exact .inl ⟨rfl, rfl⟩
    · cases ht
      exact .inl ⟨rfl, rfl⟩
  | writeHead =>
    cases ht
    exact .inr (.inl ⟨rfl, rfl⟩)
  | clear =>
    cases ht
    exact .inr (.inr ⟨rfl, rfl, rfl⟩)
  | clearHead =>
    cases ht
    exact .inl ⟨rfl, rfl⟩
  | done => cases ht
  | _ =>
    simp only [commitTurn] at ht
    split at ht
    · cases ht
      exact .inl ⟨rfl, rfl⟩
    · cases ht
      exact .inl ⟨rfl, rfl⟩

theorem turn_covers (h : Progress blocks c pc) (ht : commitTurn blocks c pc = some (pc', blocks', c')) {b : ℕ}
    (hb : b ∈ blocks ∨ b ∈ c.head) : b ∈ blocks' ∨ b ∈ c'.head := by
  obtain ⟨rfl, hhead⟩ | ⟨rfl, rfl⟩ | ⟨rfl, -, rfl⟩ := turn_lists ht
  · rwa [hhead]
  · cases h
    exact .inl (hb.resolve_right List.not_mem_nil)
  · cases h
    exact .inr (hb.elim id id)

theorem turn_nodup (h : blocks.Nodup) (ht : commitTurn blocks c pc = some (pc', blocks', c')) : blocks'.Nodup := by
  obtain ⟨rfl, -⟩ | ⟨-, rfl⟩ | ⟨-, rfl, -⟩ := turn_lists ht
  · exact h
  · exact h
  · exact List.nodup_nil

theorem turn_none (ht : commitTurn blocks c pc = none) : pc = .done := by
  cases pc with
  | done => rfl
  | start =>
    simp only [commitTurn] at ht
    split_ifs at ht
  | writeLog tail =>
    simp only [commitTurn] at ht
    split at ht <;> cases ht
  | installTrans tail =>
    simp only [commitTurn] at ht
    split at ht <;> cases ht
  | _ => cases ht

end

section

variable [DecidableEq Thread] {s s' : State Thread} {t t' : Thread} {p : Thread → Pc}
    {b size : ℕ} {e : Event Thread}

variable {pc : Pc} {A : Finset Thread}

theorem update_commit {c : CommitPc} (hp : pc.phase ≠ .committing)
    (h : update p t pc t' = .commit c) : p t' = .commit c := by
  by_cases ht : t' = t
  · subst ht
    rw [update_self] at h
    subst h
    exact absurd rfl hp
  · rwa [update_of_ne ht] at h

theorem update_alone (h : ∀ t t', (p t).phase = .committing → (p t').phase = .committing → t = t')
    (hp : pc.phase ≠ .committing) (t₁ t₂ : Thread) (h₁ : (update p t pc t₁).phase = .committing)
    (h₂ : (update p t pc t₂).phase = .committing) : t₁ = t₂ := by
  obtain ⟨c₁, hc₁⟩ := phase_commit h₁
  obtain ⟨c₂, hc₂⟩ := phase_commit h₂
  apply h
  · rw [update_commit hp hc₁]
    rfl
  · rw [update_commit hp hc₂]
    rfl

theorem inside_insert (hA : ∀ t, t ∈ A ↔ (p t).phase = .inside)
    (hp : pc.phase = .inside) : t' ∈ insert t A ↔ (update p t pc t').phase = .inside := by
  rw [Finset.mem_insert]
  by_cases ht : t' = t
  · subst ht
    rw [update_self]
    exact ⟨fun _ => hp, fun _ => .inl rfl⟩
  · rw [update_of_ne ht, hA]
    exact ⟨fun h => h.resolve_left ht, .inr⟩

theorem inside_erase (hA : ∀ t, t ∈ A ↔ (p t).phase = .inside)
    (hp : pc.phase ≠ .inside) : t' ∈ A.erase t ↔ (update p t pc t').phase = .inside := by
  rw [Finset.mem_erase]
  by_cases ht : t' = t
  · subst ht
    rw [update_self]
    exact ⟨fun h => absurd rfl h.1, fun h => absurd h hp⟩
  · rw [update_of_ne ht, hA]
    exact ⟨fun h => h.2, fun h => ⟨ht, h⟩⟩

theorem Sound.goto (h : Sound s) (hp : pc.phase = (s.pc t).phase) (hne : (s.pc t).phase ≠ .committing) :
    Sound (s.goto t pc) := by
  apply h.phases h.stopped
  intro t'
  by_cases ht : t' = t
  · subst ht
    rw [update_self]
    exact .inr ⟨hp, hne⟩
  · rw [update_of_ne ht]
    exact .inl rfl

theorem wakeup_goto : s.wakeup.goto t .user = (s.goto t .user).wakeup := by
  unfold State.wakeup State.goto
  congr 1
  funext t'
  by_cases ht : t' = t
  · subst ht
    simp only [update_self]
    rfl
  · simp only [update_of_ne ht]

theorem Sound.beginOp (h : Sound s) (ht : s.pc t = .beginOp) : Sound (beginOp s t) := by
  unfold LogOps.beginOp
  split_ifs with hcommitting hfull
  · exact h.goto (by rw [ht]; rfl) (by simp [ht, Pc.phase])
  · exact h.goto (by rw [ht]; rfl) (by simp [ht, Pc.phase])
  have hfalse : s.committing = false := by simpa using hcommitting
  obtain ⟨A, hA, hout⟩ := h.outstanding
  have hnot : t ∉ A := by
    rw [hA, ht]
    simp [Pc.phase]
  have hop : Pc.op.phase ≠ .committing := by simp [Pc.phase]
  refine ⟨⟨insert t A, fun t' => inside_insert hA rfl, ?_⟩, fun t' pc hpc =>
    h.committing t' pc (update_commit hop hpc),
    update_alone h.alone hop, fun htrue => absurd htrue hcommitting, fun _ => ⟨(h.idle hfalse).1, fun hzero => ?_⟩,
    h.nodup, ?_, h.ended, h.commits, h.stopped⟩
  · rw [Finset.card_insert_of_notMem hnot]
    simp only [hout]
    push_cast
    rfl
  · simp only at hzero
    omega
  · intro t' ht'
    simp only [State.goto] at ht' ⊢
    by_cases htt : t' = t
    · subst htt
      rw [update_self]
      exact ⟨rfl, fun b hb => by simp at hb⟩
    · rw [update_of_ne htt] at ht' ⊢
      exact h.began t' ht'

theorem Sound.logWriteLocked (h : Sound s) (ht : s.pc t = .logWriteLocked b) : Sound (logWriteLocked s t b) := by
  unfold LogOps.logWriteLocked
  have hin : (s.pc t).phase = .inside := by
    rw [ht]
    rfl
  split_ifs with hfull
  · exact h.stop (by decide)
  obtain ⟨hpos, hfalse, hnone⟩ := h.inside hin
  have hgoto : Sound (s.goto t .op) := h.goto (by rw [ht]; rfl) (by simp [ht, Pc.phase])
  have hsub {x : ℕ} (hx : x ∈ s.blocks) : x ∈ absorb s.blocks b := mem_absorb.mpr (.inl hx)
  refine ⟨hgoto.outstanding, ?_, hgoto.alone, h.busy, fun hidle => ⟨(h.idle hidle).1, fun hzero => ?_⟩,
    absorb_nodup h.nodup, ?_, ?_, h.commits, h.stopped⟩
  · intro t' pc hpc
    have hold := update_commit (by simp [Pc.phase]) hpc
    exact absurd (by rw [hold]; rfl) (hnone t')
  · simp only [State.goto] at hzero
    omega
  · intro t' ht'
    simp only [State.goto] at ht' ⊢
    by_cases htt : t' = t
    · subst htt
      rw [update_self]
      refine ⟨(h.began t' hin).1, fun x hx => ?_⟩
      obtain rfl | hx := Finset.mem_insert.mp hx
      · exact mem_absorb.mpr (.inr rfl)
      · exact hsub ((h.began t' hin).2 x hx)
    · rw [update_of_ne htt] at ht' ⊢
      obtain ⟨hbegan, hblocks⟩ := h.began t' ht'
      exact ⟨hbegan, fun x hx => hsub (hblocks x hx)⟩
  · intro o ho
    obtain ⟨hgroup, hcover⟩ := h.ended o ho
    refine ⟨hgroup, hcover.imp_left fun ⟨hlen, hin⟩ => ⟨hlen, fun x hx => (hin x hx).imp_left hsub⟩⟩

theorem Sound.leave (h : Sound s) (ht : s.pc t = .endOp) (pc : Pc) (committing : Bool) (hpc : pc.phase ≠ .inside)
    (hcommit : if committing then pc = .commit .start ∧ s.outstanding = 1
      else pc.phase ≠ .committing ∧ s.outstanding ≠ 1) :
    Sound { s.goto t pc with
      outstanding := s.outstanding - 1
      ended := s.ended ++ [⟨s.op t, s.commits.length⟩]
      committing := committing } := by
  have hin : (s.pc t).phase = .inside := by
    rw [ht]
    rfl
  obtain ⟨hpos, hfalse, hnone⟩ := h.inside hin
  obtain ⟨A, hA, hout⟩ := h.outstanding
  have hcard : (A.erase t).card + 1 = A.card := Finset.card_erase_add_one ((hA t).mpr hin)
  refine ⟨⟨A.erase t, fun t' => inside_erase hA hpc, ?_⟩, ?_, ?_, ?_, ?_, h.nodup, ?_, ?_, h.commits, h.stopped⟩
  · simp only [hout]
    omega
  · intro t' c hc
    simp only [State.goto] at hc ⊢
    by_cases htt : t' = t
    · subst htt
      rw [update_self] at hc
      subst hc
      split_ifs at hcommit with hb
      · obtain ⟨hc, -⟩ := hcommit
        cases hc
        exact ⟨hb, (h.idle hfalse).1⟩
      · exact absurd rfl hcommit.1
    · rw [update_of_ne htt] at hc
      exact absurd (by rw [hc]; rfl) (hnone t')
  · have honly (t' : Thread) (h' : (update s.pc t pc t').phase = .committing) : t' = t := by
      by_contra htt
      rw [update_of_ne htt] at h'
      exact hnone t' h'
    intro t₁ t₂ h₁ h₂
    rw [honly t₁ h₁, honly t₂ h₂]
  · intro htrue
    simp only at htrue
    rw [if_pos htrue] at hcommit
    simp only
    omega
  · intro hf
    simp only at hf
    rw [hf, if_neg (by decide)] at hcommit
    refine ⟨(h.idle hfalse).1, fun hzero => ?_⟩
    simp only at hzero
    omega
  · intro t' ht'
    simp only [State.goto] at ht' ⊢
    by_cases htt : t' = t
    · subst htt
      rw [update_self] at ht'
      exact absurd ht' hpc
    · rw [update_of_ne htt] at ht'
      exact h.began t' ht'
  · intro o ho
    obtain ho | ho := List.mem_append.mp ho
    · exact h.ended o ho
    · rw [List.mem_singleton] at ho
      subst ho
      exact ⟨(h.began t hin).1, .inl ⟨rfl, fun x hx => .inl ((h.began t hin).2 x hx)⟩⟩

theorem Sound.endOp (h : Sound s) (ht : s.pc t = .endOp) : Sound (endOp s t) := by
  unfold LogOps.endOp
  have hin : (s.pc t).phase = .inside := by
    rw [ht]
    rfl
  obtain ⟨-, hfalse, -⟩ := h.inside hin
  rw [if_neg (by simp [hfalse])]
  simp only
  split_ifs with hzero
  · exact h.leave ht _ true (by simp [Pc.phase]) (by rw [if_pos rfl]; exact ⟨rfl, by omega⟩)
  · rw [wakeup_goto]
    apply Sound.wakeup
    have hleave := h.leave ht .user false (by simp [Pc.phase])
      (by rw [if_neg (by decide)]; exact ⟨by simp [Pc.phase], by omega⟩)
    rw [← hfalse] at hleave
    exact hleave

theorem Sound.commit (h : Sound s) {pc : CommitPc} (ht : s.pc t = .commit pc) : Sound (commit s t pc) := by
  obtain ⟨htrue, hprogress⟩ := h.committing t pc ht
  have honly (t' : Thread) (h' : (s.pc t').phase = .committing) : t' = t := h.alone t' t h' (by rw [ht]; rfl)
  have hphase (pc' : CommitPc) (t' : Thread) : (update s.pc t (.commit pc') t').phase = (s.pc t').phase := by
    by_cases htt : t' = t
    · subst htt
      rw [update_self, ht]
      rfl
    · rw [update_of_ne htt]
  unfold LogOps.commit
  split
  · rename_i pc' blocks current hturn
    refine ⟨?_, ?_, ?_, h.busy, ?_, turn_nodup h.nodup hturn, ?_, ?_, h.commits, h.stopped⟩
    · obtain ⟨A, hA, hout⟩ := h.outstanding
      refine ⟨A, fun t' => ?_, hout⟩
      rw [hA, ← hphase pc']
      rfl
    · intro t' c hc
      refine ⟨htrue, ?_⟩
      have htt : t' = t := honly t' (by rw [← hphase pc']; exact congrArg Pc.phase hc)
      subst htt
      simp only [State.goto, update_self] at hc
      cases hc
      exact progress_turn hprogress hturn
    · intro t₁ t₂ h₁ h₂
      rw [honly t₁ ((hphase pc' t₁).symm.trans h₁), honly t₂ ((hphase pc' t₂).symm.trans h₂)]
    · intro hfalse
      exact absurd (htrue.symm.trans hfalse) (by decide)
    · intro t' ht'
      exact absurd ((hphase pc' t').symm.trans ht') (h.none_inside htrue)
    · intro o ho
      obtain ⟨hgroup, hcover⟩ := h.ended o ho
      exact ⟨hgroup, hcover.imp_left fun ⟨hlen, hin⟩ =>
        ⟨hlen, fun x hx => turn_covers hprogress hturn (hin x hx)⟩⟩
  · rename_i hnone
    cases turn_none hnone
    obtain ⟨hblocks, hcopied, hinstalled⟩ := hprogress
    have huser : Pc.user.phase ≠ .committing := by simp [Pc.phase]
    rw [wakeup_goto]
    apply Sound.wakeup
    refine ⟨?_, ?_, update_alone h.alone huser, ?_, fun _ => ⟨rfl, fun _ => hblocks⟩,
      h.nodup, ?_, ?_, ?_, h.stopped⟩
    · obtain ⟨A, hA, hout⟩ := h.outstanding
      have hnot : t ∉ A := by
        rw [hA]
        exact h.none_inside htrue
      refine ⟨A.erase t, fun t' => inside_erase hA (by simp [Pc.phase]), ?_⟩
      rw [Finset.erase_eq_of_notMem hnot]
      exact hout
    · intro t' c hc
      have hold := update_commit huser hc
      have htt := honly t' (by rw [hold]; rfl)
      subst htt
      simp [State.goto] at hc
    · intro hf
      cases hf
    · intro t' ht'
      by_cases htt : t' = t
      · subst htt
        simp [State.goto, Pc.phase] at ht'
      · simp only [State.goto, update_of_ne htt] at ht'
        exact absurd ht' (h.none_inside htrue)
    · intro o ho
      obtain ⟨hgroup, ⟨hlen, hin⟩ | ⟨c, hc, hin⟩⟩ := h.ended o ho
      · refine ⟨hgroup, .inr ⟨s.current, ?_, fun x hx => ?_⟩⟩
        · simp [State.goto, hlen]
        · exact (hin x hx).resolve_left (by simp [hblocks])
      · refine ⟨hgroup, .inr ⟨c, ?_, hin⟩⟩
        have hlt := (List.getElem?_eq_some_iff.mp hc).1
        simp only [State.goto]
        rw [List.getElem?_append_left hlt]
        exact hc
    · intro c hc
      obtain hc | hc := List.mem_append.mp hc
      · exact h.commits c hc
      · rw [List.mem_singleton] at hc
        subst hc
        exact ⟨hcopied, hinstalled⟩

theorem sound_step : Preserves (step size) Always (@Sound Thread) := by
  intro s e s' h _ hs
  unfold step at hs
  rw [Option.ite_none_left_eq_some] at hs
  obtain ⟨-, hs⟩ := hs
  cases e with
  | beginOp t =>
    simp only at hs
    split at hs
    · rename_i ht
      cases hs
      exact h.goto (by rw [ht]; rfl) (by simp [ht, Pc.phase])
    · cases hs
  | logWrite t b =>
    simp only at hs
    split at hs
    · rename_i ht
      cases hs
      exact h.goto (by rw [ht]; rfl) (by simp [ht, Pc.phase])
    · cases hs
  | endOp t =>
    simp only at hs
    split at hs
    · rename_i ht
      cases hs
      exact h.goto (by rw [ht]; rfl) (by simp [ht, Pc.phase])
    · cases hs
  | run t =>
    simp only [run] at hs
    split at hs
    · rename_i ht
      cases hs
      exact h.beginOp ht
    · rename_i b ht
      split_ifs at hs
      · cases hs
        exact h.stop (by decide)
      · cases hs
        exact h.goto (by rw [ht]; rfl) (by simp [ht, Pc.phase])
    · rename_i b ht
      have hout := (h.inside (t := t) (by rw [ht]; rfl)).1
      rw [if_neg (by omega)] at hs
      cases hs
      exact h.goto (by rw [ht]; rfl) (by simp [ht, Pc.phase])
    · rename_i b ht
      cases hs
      exact h.logWriteLocked ht
    · rename_i ht
      cases hs
      exact h.endOp ht
    · rename_i pc ht
      cases hs
      exact h.commit ht
    · cases hs

end

end Xv6.LogOps
