import Xv6.ShellParser
import Mathlib.Data.List.Forall2

namespace Xv6.ShellParser

open Xv6.Triples

def Cmd.words {α : Type} : Cmd α → List α
  | .exec argv => argv
  | .redir cmd file _ _ => cmd.words ++ [file]
  | .pipe left right => left.words ++ right.words
  | .list left right => left.words ++ right.words
  | .back cmd => cmd.words

def Cmd.map {α β : Type} (f : α → β) : Cmd α → Cmd β
  | .exec argv => .exec (argv.map f)
  | .redir cmd file mode fd => .redir (cmd.map f) (f file) mode fd
  | .pipe left right => .pipe (left.map f) (right.map f)
  | .list left right => .list (left.map f) (right.map f)
  | .back cmd => .back (cmd.map f)

def slice (text : List Char) (w : Span) : List Char := (text.drop w.q).take (w.eq - w.q)

def string (buf : List Char) (w : Span) : List Char := (buf.drop w.q).takeWhile (· != NUL)

section

variable {α β : Type} {text buf : List Char} {s : ℕ}

theorem Cmd.map_congr {f g : α → β} {cmd : Cmd α} (h : ∀ w ∈ cmd.words, f w = g w) : cmd.map f = cmd.map g := by
  induction cmd with
  | exec argv => exact congrArg Cmd.exec (List.map_congr_left h)
  | redir cmd file mode fd ih =>
    rw [Cmd.map, Cmd.map, ih fun w hw => h w (List.mem_append_left _ hw),
      h file (List.mem_append_right _ (List.mem_singleton_self file))]
  | pipe left right ihl ihr =>
    rw [Cmd.map, Cmd.map, ihl fun w hw => h w (List.mem_append_left _ hw),
      ihr fun w hw => h w (List.mem_append_right _ hw)]
  | list left right ihl ihr =>
    rw [Cmd.map, Cmd.map, ihl fun w hw => h w (List.mem_append_left _ hw),
      ihr fun w hw => h w (List.mem_append_right _ hw)]
  | back cmd ih => rw [Cmd.map, Cmd.map, ih h]

theorem nulterminate_eq_foldl (cmd : Cmd Span) (buf : List Char) :
    nulterminate cmd buf = cmd.words.foldl (fun buf w => buf.set w.eq NUL) buf := by
  induction cmd generalizing buf with
  | exec argv => rfl
  | redir cmd file mode fd ih =>
    rw [nulterminate, ih, Cmd.words, List.foldl_append, List.foldl_cons, List.foldl_nil]
  | pipe left right ihl ihr => rw [nulterminate, ihl, ihr, Cmd.words, List.foldl_append]
  | list left right ihl ihr => rw [nulterminate, ihl, ihr, Cmd.words, List.foldl_append]
  | back cmd ih => rw [nulterminate, ih, Cmd.words]

structure IsToken (text : List Char) (w : Span) : Prop where
  inside : w.q < text.length
  eq_skipWord : w.eq = skipWord text w.q

def Spares (c b : Char) : Prop := b = c ∨ b = NUL ∧ isWord c = false

theorem slice_eq_takeWhile {w : Span} (h : IsToken text w) : slice text w = (text.drop w.q).takeWhile isWord := by
  rw [slice, h.eq_skipWord, skipWord, Nat.add_sub_cancel_left]
  exact List.prefix_iff_eq_take.mp (List.takeWhile_prefix isWord) |>.symm

theorem skipWord_le (h : s ≤ text.length) : skipWord text s ≤ text.length := by
  have hle := (List.takeWhile_prefix (l := text.drop s) isWord).length_le
  rw [List.length_drop] at hle
  rw [skipWord]
  omega

theorem spares_skipWord {c : Char} (hs : s ≤ text.length) (h : (text ++ [NUL])[skipWord text s]? = some c) :
    Spares c NUL := by
  rcases Nat.lt_or_eq_of_le (skipWord_le hs) with hlt | heq
  · rw [List.getElem?_append_left hlt] at h
    have hhead := List.head?_dropWhile_not isWord (text.drop s)
    rw [← drop_skipWord, List.head?_drop, h] at hhead
    exact .inr ⟨rfl, by simpa using hhead⟩
  · rw [heq, List.getElem?_append_right le_rfl, Nat.sub_self] at h
    cases h
    exact .inl rfl

theorem forall₂_set {R : α → β → Prop} {l : List α} {l' : List β} (h : List.Forall₂ R l l') {i : ℕ} {b : β}
    (hb : ∀ a, l[i]? = some a → R a b) : List.Forall₂ R l (l'.set i b) := by
  induction h generalizing i with
  | nil => exact .nil
  | cons hab hrest ih =>
    cases i with
    | zero => exact .cons (hb _ rfl) hrest
    | succ i => exact .cons hab (ih hb)

theorem foldl_set_spares {ws : List Span} (hws : ∀ w ∈ ws, IsToken text w)
    (hbuf : List.Forall₂ Spares (text ++ [NUL]) buf) :
    List.Forall₂ Spares (text ++ [NUL]) (ws.foldl (fun buf w => buf.set w.eq NUL) buf) ∧
      ∀ i, buf[i]? = some NUL ∨ (∃ w ∈ ws, w.eq = i) →
        (ws.foldl (fun buf w => buf.set w.eq NUL) buf)[i]? = some NUL := by
  induction ws generalizing buf with
  | nil =>
    refine ⟨hbuf, ?_⟩
    rintro i (hi | ⟨w, hw, -⟩)
    · exact hi
    · cases hw
  | cons w ws ih =>
    obtain ⟨hw, hws⟩ := List.forall_mem_cons.mp hws
    have hle : w.eq ≤ text.length := hw.eq_skipWord ▸ skipWord_le hw.inside.le
    have hlt : w.eq < buf.length := by
      rw [← hbuf.length_eq, List.length_append]
      exact Nat.lt_succ_of_le hle
    have hset : List.Forall₂ Spares (text ++ [NUL]) (buf.set w.eq NUL) := by
      apply forall₂_set hbuf
      intro c hc
      exact spares_skipWord hw.inside.le (hw.eq_skipWord ▸ hc)
    obtain ⟨hspares, hnul⟩ := ih hws hset
    refine ⟨hspares, ?_⟩
    intro i hi
    apply hnul
    by_cases heq : w.eq = i
    · exact .inl (heq ▸ List.getElem?_set_self hlt)
    · rw [List.getElem?_set_ne heq]
      refine hi.imp_right ?_
      rintro ⟨w', hw', rfl⟩
      rcases List.mem_cons.mp hw' with rfl | hw'
      · exact absurd rfl heq
      · exact ⟨w', hw', rfl⟩

theorem takeWhile_of_spares {l b : List Char} (h : List.Forall₂ Spares (l ++ [NUL]) b) (hl : NUL ∉ l)
    (hnul : b[(l.takeWhile isWord).length]? = some NUL) : b.takeWhile (· != NUL) = l.takeWhile isWord := by
  induction l generalizing b with
  | nil =>
    cases h with
    | cons hc hrest =>
      cases hnul
      rfl
  | cons c l ih =>
    cases h with
    | @cons _ x _ b hc hrest =>
      obtain ⟨hne, hmem⟩ := not_or.mp (mt List.mem_cons.mpr hl)
      by_cases hword : isWord c = true
      · obtain rfl | ⟨-, hc⟩ := hc
        · rw [List.takeWhile_cons_of_pos hword] at hnul ⊢
          rw [List.takeWhile_cons_of_pos (by simpa using Ne.symm hne), ih hrest hmem hnul]
        · exact absurd hword (by simp [hc])
      · rw [List.takeWhile_cons_of_neg hword] at hnul ⊢
        cases hnul
        rfl

variable {cmd : Cmd Span} {δ : Type}

theorem string_nulterminate (htext : NUL ∉ text) (h : ∀ w ∈ cmd.words, IsToken text w) :
    cmd.map (string (nulterminate cmd (text ++ [NUL]))) = cmd.map (slice text) := by
  have hself : List.Forall₂ Spares (text ++ [NUL]) (text ++ [NUL]) := List.forall₂_same.mpr fun _ _ => .inl rfl
  obtain ⟨hspares, hnul⟩ := foldl_set_spares h hself
  rw [← nulterminate_eq_foldl] at hspares hnul
  apply Cmd.map_congr
  intro w hw
  have hdrop := List.forall₂_drop w.q hspares
  rw [List.drop_append_of_le_length (h w hw).inside.le] at hdrop
  rw [slice_eq_takeWhile (h w hw), string]
  apply takeWhile_of_spares hdrop
  · exact fun hmem => htext (List.mem_of_mem_drop hmem)
  · rw [List.getElem?_drop]
    exact hnul _ (.inr ⟨w, hw, (h w hw).eq_skipWord⟩)

abbrev Collects {δ : Type} (text : List Char) (words : δ → List Span) (m : Parse δ) : Prop :=
  Triple (fun _ => True) m (fun r _ => ∀ w ∈ words r, IsToken text w) fun _ => True

theorem gettoken_isToken : Triple (fun _ => True) (gettoken text)
    (fun tok _ => tok.ret = 'a' → IsToken text tok.span)
    fun _ => True := by
  apply Triple.start
  intro s _
  apply (gettoken_spec.post _).except fun _ h => h.elim
  rintro _ _ ⟨rfl, rfl⟩ hret
  obtain ⟨-, htok⟩ | ⟨hsymbol, htok⟩ | ⟨-, -, htok⟩ | ⟨-, -, htok⟩ | ⟨hnul, -, htok⟩ :=
      token_cases text (skipSpace text s) <;> rw [htok] at hret ⊢ <;> dsimp only at hret
  · exact absurd hret (by decide)
  · rw [hret] at hsymbol
    exact absurd hsymbol (by decide)
  · exact absurd hret (by decide)
  · exact absurd hret (by decide)
  · exact ⟨lt_length_of_charAt hnul, rfl⟩

theorem collects_parseredirs (rounds : ℕ) : Collects text (List.map Redirect.file) (parseredirs text rounds) := by
  induction rounds with
  | zero => exact Triple.throw trivial
  | succ rounds ih =>
    apply Triple.bind Triple.anything
    intro more
    apply Triple.ite
    · intro _
      apply Triple.bind Triple.anything
      intro tok
      apply gettoken_isToken.bind
      intro file
      apply Triple.ite
      · intro _
        exact Triple.throw trivial
      intro hret
      apply Triple.known (fun _ h => h (not_not.mp hret))
      intro hfile
      apply (ih.pre fun _ _ => trivial).bind
      intro rest
      apply Triple.pure
      intro _ hrest w hw
      rw [List.map_append, List.mem_append] at hw
      rcases hw with hw | hw
      · have hone : w = file.span := by
          unfold redirOf at hw
          split_ifs at hw <;> simp at hw <;> exact hw
        exact hone ▸ hfile
      · exact hrest w hw
    · intro _
      exact Triple.pure fun _ _ w hw => by cases hw

theorem collects_parseargs (rounds argc : ℕ) :
    Collects text (fun r => r.1 ++ r.2.map Redirect.file) (parseargs text rounds argc) := by
  induction rounds generalizing argc with
  | zero => exact Triple.throw trivial
  | succ rounds ih =>
    have hnone : ∀ w ∈ ([] : List Span) ++ ([] : List (Redirect Span)).map Redirect.file, IsToken text w :=
      fun w hw => by cases hw
    apply Triple.bind Triple.anything
    intro stop
    apply Triple.ite
    · intro _
      exact Triple.pure fun _ _ => hnone
    intro _
    apply gettoken_isToken.bind
    intro tok
    apply Triple.ite
    · intro _
      exact Triple.pure fun _ _ => hnone
    intro _
    apply Triple.ite
    · intro _
      exact Triple.throw trivial
    intro hret
    apply Triple.known (fun _ h => h (not_not.mp hret))
    intro htok
    apply Triple.ite
    · intro _
      exact Triple.throw trivial
    intro _
    apply ((collects_parseredirs (text.length + 1)).pre fun _ _ => trivial).bind
    intro redirs
    apply Triple.known (fun _ h => h)
    intro hredirs
    apply ((ih (argc + 1)).pre fun _ _ => trivial).bind
    intro rest
    apply Triple.pure
    intro _ hrest
    simp only [List.map_append, List.cons_append, List.mem_cons, List.mem_append] at hrest ⊢
    rintro w (rfl | hw | hw | hw)
    · exact htok
    · exact hrest w (.inl hw)
    · exact hredirs w hw
    · exact hrest w (.inr hw)

theorem words_redircmds (cmd : Cmd α) (redirs : List (Redirect α)) :
    (redircmds cmd redirs).words = cmd.words ++ redirs.map Redirect.file := by
  induction redirs generalizing cmd with
  | nil => exact (List.append_nil _).symm
  | cons r redirs ih =>
    rw [redircmds, List.foldl_cons]
    exact (ih _).trans (List.append_assoc _ _ _)

structure CollectAll (text : List Char) (fuel : ℕ) : Prop where
  line : Collects text Cmd.words (parseline text fuel)
  pipe : Collects text Cmd.words (parsepipe text fuel)
  exec : Collects text Cmd.words (parseexec text fuel)
  block : Collects text Cmd.words (parseblock text fuel)

theorem collects_bind {γ : Type} {words : δ → List Span} {words' : γ → List Span} {m : Parse δ} {f : δ → Parse γ}
    (h : Collects text words m) (h' : ∀ r, (∀ w ∈ words r, IsToken text w) → Collects text words' (f r)) :
    Collects text words' (m >>= f) := by
  apply Triple.bind h
  intro r
  exact Triple.known (fun _ h => h) fun hr => (h' r hr).pre fun _ _ => trivial

theorem collects_choice {words : δ → List Span} {toks : List Char} {f : Token → Parse δ} {g : Parse δ}
    (hf : ∀ tok, Collects text words (f tok)) (hg : Collects text words g) :
    Collects text words (peek text toks >>= fun more => if more then gettoken text >>= f else g) := by
  apply Triple.bind Triple.anything
  intro more
  apply Triple.ite
  · intro _
    exact Triple.bind Triple.anything hf
  · exact fun _ => hg

theorem forall_words_append {l l' : List Span} (h : ∀ w ∈ l, IsToken text w) (h' : ∀ w ∈ l', IsToken text w) :
    ∀ w ∈ l ++ l', IsToken text w := by
  intro w hw
  rcases List.mem_append.mp hw with hw | hw
  · exact h w hw
  · exact h' w hw

theorem collects_parsebacks (rounds : ℕ) (h : ∀ w ∈ cmd.words, IsToken text w) :
    Collects text Cmd.words (parsebacks text rounds cmd) := by
  induction rounds generalizing cmd with
  | zero => exact Triple.throw trivial
  | succ rounds ih =>
    apply collects_choice
    · exact fun _ => ih h
    · exact Triple.pure fun _ _ => h

theorem collectAll (text : List Char) (fuel : ℕ) : CollectAll text fuel := by
  induction fuel with
  | zero => exact ⟨Triple.throw trivial, Triple.throw trivial, Triple.throw trivial, Triple.throw trivial⟩
  | succ fuel ih =>
    constructor
    · apply collects_bind ih.pipe
      intro cmd hcmd
      apply collects_bind (collects_parsebacks _ hcmd)
      intro cmd hcmd
      apply collects_choice
      · intro _
        apply collects_bind ih.line
        intro right hright
        exact Triple.pure fun _ _ => forall_words_append hcmd hright
      · exact Triple.pure fun _ _ => hcmd
    · apply collects_bind ih.exec
      intro cmd hcmd
      apply collects_choice
      · intro _
        apply collects_bind ih.pipe
        intro right hright
        exact Triple.pure fun _ _ => forall_words_append hcmd hright
      · exact Triple.pure fun _ _ => hcmd
    · apply Triple.bind Triple.anything
      intro block
      apply Triple.ite
      · exact fun _ => ih.block
      · intro _
        apply collects_bind (collects_parseredirs _)
        intro redirs hredirs
        apply collects_bind (collects_parseargs _ 0)
        intro rest hrest
        apply Triple.pure
        intro _ _
        rw [words_redircmds, List.map_append]
        simp only [Cmd.words, List.mem_append] at hrest ⊢
        rintro w (hw | hw | hw)
        · exact hrest w (.inl hw)
        · exact hredirs w hw
        · exact hrest w (.inr hw)
    · apply collects_choice
      · intro _
        apply collects_bind ih.line
        intro cmd hcmd
        apply collects_choice
        · intro _
          apply collects_bind (collects_parseredirs _)
          intro redirs hredirs
          exact Triple.pure fun _ _ => words_redircmds cmd redirs ▸ forall_words_append hcmd hredirs
        · exact Triple.throw trivial
      · exact Triple.throw trivial

theorem parsecmd_strings (htext : NUL ∉ text) (h : parsecmd text = .ok (cmd, buf)) :
    cmd.map (string buf) = cmd.map (slice text) := by
  obtain ⟨e, -, he⟩ | ⟨cmd', p, hrun, hcmd⟩ := parsecmd_cases text
  · rw [he] at h
    cases h
  · rw [hcmd] at h
    split_ifs at h
    cases h
    exact string_nulterminate htext ((collectAll text _).line.ok trivial hrun)

end

end Xv6.ShellParser
