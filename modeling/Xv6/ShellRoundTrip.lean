import Xv6.ShellText

namespace Xv6.ShellParser

open Xv6.Triples

section

variable {text l : List Char} {t : Tok} {ts : List Tok} {q : ℕ} {rest : List Char} {s : ℕ}

theorem dropWhile_blank {gap : List Char} (h : Blank gap) (rest : List Char) :
    (gap ++ rest).dropWhile isSpace = rest.dropWhile isSpace := by
  induction gap with
  | nil => rfl
  | cons c gap ih =>
    obtain ⟨hc, hgap⟩ := List.forall_mem_cons.mp h
    rw [List.cons_append, List.dropWhile_cons_of_pos hc, ih hgap]

theorem Tok.chars_eq_cons (t : Tok) : ∃ c cs, t.chars = c :: cs ∧ c ≠ NUL ∧ isSpace c = false := by
  cases t with
  | word w =>
    obtain ⟨c, cs, hw⟩ := List.exists_cons_of_ne_nil w.nonempty
    obtain ⟨hnul, hplain⟩ := w.plain c (hw ▸ List.mem_cons_self)
    refine ⟨c, cs, hw, hnul, ?_⟩
    simp only [isWord, Bool.and_eq_true, Bool.not_eq_true', decide_eq_false_iff_not] at hplain
    exact decide_eq_false hplain.1
  | _ => exact ⟨_, _, rfl, by decide, by decide⟩

theorem Renders.skip_nil (h : Renders [] l) : l.dropWhile isSpace = [] := by
  cases h with
  | nil hgap =>
    have hskip := dropWhile_blank hgap []
    rwa [List.append_nil] at hskip

theorem Renders.skip_cons (h : Renders (t :: ts) l) :
    ∃ rest, l.dropWhile isSpace = t.chars ++ rest ∧ t.Ends rest ∧ Renders ts rest := by
  cases h with
  | @cons _ _ gap rest hgap hends hrest =>
    refine ⟨rest, ?_, hends, hrest⟩
    obtain ⟨c, cs, hchars, -, hspace⟩ := t.chars_eq_cons
    rw [dropWhile_blank hgap, hchars, List.cons_append, List.dropWhile_cons_of_neg (by simp [hspace])]

theorem Renders.skip (h : Renders ts l) : Renders ts (l.dropWhile isSpace) := by
  cases ts with
  | nil =>
    rw [h.skip_nil]
    exact .nil fun _ hc => by cases hc
  | cons t ts =>
    obtain ⟨rest, hskip, hends, hrest⟩ := h.skip_cons
    have hgap : Blank [] := fun _ hc => by cases hc
    rw [hskip]
    exact .cons hgap hends hrest

theorem Renders.NUL_notMem (h : Renders ts l) : NUL ∉ l := by
  have hblank {gap : List Char} (hgap : Blank gap) : NUL ∉ gap := fun hmem => absurd (hgap NUL hmem) (by decide)
  induction h with
  | nil hgap => exact hblank hgap
  | @cons t _ _ _ hgap _ _ ih =>
    have htok : NUL ∉ t.chars := by
      cases t with
      | word w => exact fun hmem => (w.plain NUL hmem).1 rfl
      | _ => decide
    simp only [List.mem_append, not_or]
    exact ⟨hblank hgap, htok, ih⟩

theorem drop_add_of_append {l' : List Char} (h : text.drop s = l ++ l') : text.drop (s + l.length) = l' := by
  rw [← List.drop_drop, h, List.drop_left]

theorem takeWhile_word (w : Word) (hrest : ∀ c ∈ rest.head?, isWord c = false) :
    (w.chars ++ rest).takeWhile isWord = w.chars := by
  rw [List.takeWhile_append_of_pos fun c hc => (w.plain c hc).2]
  cases rest with
  | nil => rw [List.takeWhile_nil, List.append_nil]
  | cons c rest => rw [List.takeWhile_cons_of_neg (by simp [hrest c rfl]), List.append_nil]

theorem token_eq (h : text.drop q = t.chars ++ rest) (hends : t.Ends rest) :
    token text q = (t.ret, q + t.chars.length) := by
  have hsymbol {c : Char} {cs : List Char} (hdrop : text.drop q = c :: cs) (hnul : c ≠ NUL)
      (hc : c ∈ ['|', '(', ')', ';', '&', '<']) : token text q = (c, q + 1) := by
    have hchar := charAt_eq_of_drop hdrop
    simp only [token]
    rw [hchar, if_neg hnul, if_pos hc]
  cases t with
  | greater =>
    have hnext : charAt text (q + 1) ≠ '>' := by
      have hdrop : text.drop (q + 1) = rest := drop_add_of_append h
      cases rest with
      | nil =>
        rw [charAt_eq_NUL hdrop]
        decide
      | cons c rest =>
        rw [charAt_eq_of_drop hdrop]
        exact fun hc => hends (hc ▸ rfl)
    simp only [token]
    rw [charAt_eq_of_drop h, if_neg (by decide), if_neg (by decide), if_pos rfl, if_neg hnext]
    rfl
  | append =>
    have hnext : text.drop (q + 1) = '>' :: rest := drop_add_of_append (l := ['>']) h
    simp only [token]
    rw [charAt_eq_of_drop h, if_neg (by decide), if_neg (by decide), if_pos rfl, if_pos (charAt_eq_of_drop hnext)]
    rfl
  | word w =>
    obtain ⟨c, cs, hw⟩ := List.exists_cons_of_ne_nil w.nonempty
    obtain ⟨hnul, hplain⟩ := w.plain c (hw ▸ List.mem_cons_self)
    have hdrop : text.drop q = c :: (cs ++ rest) := by
      rw [h]
      exact congrArg (· ++ rest) hw
    have hchar := charAt_eq_of_drop hdrop
    obtain ⟨hn, -⟩ | ⟨hmem, -⟩ | ⟨hgreater, -⟩ | ⟨hgreater, -⟩ | ⟨-, -, htok⟩ := token_cases text q
    · exact absurd (hchar ▸ hn) hnul
    · have hsymbols : ∀ c ∈ ['|', '(', ')', ';', '&', '<'], isWord c = false := by simp [isWord, symbols]
      rw [hsymbols c (hchar ▸ hmem)] at hplain
      exact absurd hplain (by decide)
    · rw [← hchar, hgreater] at hplain
      exact absurd hplain (by decide)
    · rw [← hchar, hgreater] at hplain
      exact absurd hplain (by decide)
    · rw [htok, skipWord, h]
      exact congrArg (fun l => ('a', q + l.length)) (takeWhile_word w hends)
  | _ => exact hsymbol h (by decide) (by decide)

structure At (text : List Char) (ts : List Tok) (s : ℕ) : Prop where
  inside : s ≤ text.length
  renders : Renders ts (text.drop s)

theorem skipSpace_le (h : s ≤ text.length) : skipSpace text s ≤ text.length := by
  have hle := (List.takeWhile_prefix (l := text.drop s) isSpace).length_le
  rw [List.length_drop] at hle
  rw [skipSpace]
  omega

theorem At.skip (h : At text ts s) : At text ts (skipSpace text s) := by
  refine ⟨skipSpace_le h.inside, ?_⟩
  rw [drop_skipSpace]
  exact h.renders.skip

theorem At.drop_nil (h : At text [] s) : text.drop (skipSpace text s) = [] := by
  rw [drop_skipSpace]
  exact h.renders.skip_nil

theorem At.drop_cons (h : At text (t :: ts) s) :
    ∃ rest, text.drop (skipSpace text s) = t.chars ++ rest ∧ t.Ends rest ∧ Renders ts rest := by
  rw [drop_skipSpace]
  exact h.renders.skip_cons

theorem gettoken_cons : Triple (At text (t :: ts)) (gettoken text)
    (fun tok s => tok.ret = t.ret ∧ slice text tok.span = t.chars ∧ At text ts s) fun _ : Stop => False := by
  apply Triple.start
  intro s hs
  obtain ⟨rest, hdrop, hends, hrest⟩ := hs.drop_cons
  have hafter : At text ts (skipSpace text s + t.chars.length) := by
    have hlen := congrArg List.length hdrop
    rw [List.length_drop, List.length_append] at hlen
    have hle := skipSpace_le hs.inside
    refine ⟨by omega, ?_⟩
    rw [drop_add_of_append hdrop]
    exact hrest
  apply gettoken_spec.post
  rintro _ _ ⟨rfl, rfl⟩
  rw [token_eq hdrop hends]
  refine ⟨rfl, ?_, hafter.skip⟩
  rw [slice, Nat.add_sub_cancel_left, hdrop, List.take_left]

theorem gettoken_nil : Triple (At text []) (gettoken text) (fun tok s => tok.ret = NUL ∧ At text [] s)
    fun _ : Stop => False := by
  apply Triple.start
  intro s hs
  have htok : token text (skipSpace text s) = (NUL, skipSpace text s) := by
    simp [token, charAt_eq_NUL hs.drop_nil]
  apply gettoken_spec.post
  rintro _ _ ⟨rfl, rfl⟩
  rw [htok]
  exact ⟨rfl, hs.skip.skip⟩

def startsWith (toks : List Char) : List Tok → Bool
  | [] => false
  | .word _ :: _ => false
  | t :: _ => decide (t.chars.headD NUL ∈ toks)

theorem peek_tokens {toks : List Char} (htoks : toks ⊆ symbols) : Triple (At text ts) (peek text toks)
    (fun b s => b = startsWith toks ts ∧ At text ts s) fun _ : Stop => False := by
  apply Triple.start
  intro s hs
  apply (peek_spec toks).post
  rintro b _ ⟨rfl, hb⟩
  refine ⟨?_, hs.skip⟩
  rw [Bool.eq_iff_iff, hb]
  cases ts with
  | nil => simp [charAt_eq_NUL hs.drop_nil, startsWith]
  | cons t ts =>
    obtain ⟨rest, hdrop, -, -⟩ := hs.drop_cons
    obtain ⟨c, cs, hchars, hnul, hspace⟩ := t.chars_eq_cons
    rw [hchars, List.cons_append] at hdrop
    rw [charAt_eq_of_drop hdrop]
    cases t with
    | word w =>
      have hword := (w.plain c (by change c ∈ Tok.chars (.word w); rw [hchars]; exact List.mem_cons_self)).2
      simp only [startsWith, Bool.false_eq_true, iff_false, not_and]
      intro _ hc
      simp [isWord, htoks hc] at hword
    | _ =>
      cases hchars
      simp [startsWith, Tok.chars, hnul]

abbrev Reads {α : Type} (text : List Char) (ts : List Tok) (m : Parse α) (follow : List Tok) (Q : α → Prop) :
    Prop :=
  Triple (At text ts) m (fun a s => Q a ∧ At text follow s) fun e => e = .outOfFuel

variable {α β : Type} {follow : List Tok} {toks : List Char} {Q : α → Prop}

theorem reads_bind {m : Parse β} {f : β → Parse α} {R : β → Prop} {ts' : List Tok} (h : Reads text ts m ts' R)
    (h' : ∀ b, R b → Reads text ts' (f b) follow Q) : Reads text ts (m >>= f) follow Q := by
  apply Triple.bind h
  intro b
  exact Triple.given (h' b)

theorem reads_pure {a : α} (h : Q a) : Reads text ts (pure a : Parse α) ts Q := Triple.pure fun _ hs => ⟨h, hs⟩

theorem reads_gettoken : Reads text (t :: ts) (gettoken text) ts
    fun tok => tok.ret = t.ret ∧ slice text tok.span = t.chars :=
  (gettoken_cons.post fun _ _ h => ⟨⟨h.1, h.2.1⟩, h.2.2⟩).except fun _ h => h.elim

theorem reads_peek (htoks : toks ⊆ symbols) : Reads text ts (peek text toks) ts fun b => b = startsWith toks ts :=
  (peek_tokens htoks).except fun _ h => h.elim

variable {g : Parse α} {rs : List (Redirect Word)} {level : Level} {ws : List Word}
  {cmd : Cmd Word}

theorem reads_taken {f : Token → Parse α} (htoks : toks ⊆ symbols)
    (ht : startsWith toks (t :: ts) = true) (hf : ∀ tok, tok.ret = t.ret → Reads text ts (f tok) follow Q) :
    Reads text (t :: ts) (peek text toks >>= fun more => if more then gettoken text >>= f else g) follow Q := by
  apply reads_bind (reads_peek htoks)
  rintro _ rfl
  rw [ht, if_pos rfl]
  apply reads_bind reads_gettoken
  intro tok htok
  exact hf tok htok.1

theorem reads_passed {f : Parse α} (htoks : toks ⊆ symbols) (ht : startsWith toks ts = false)
    (hg : Reads text ts g follow Q) :
    Reads text ts (peek text toks >>= fun more => if more then f else g) follow Q := by
  apply reads_bind (reads_peek htoks)
  rintro _ rfl
  rw [ht, if_neg (by decide)]
  exact hg

def Redirect.map (f : α → β) (r : Redirect α) : Redirect β := ⟨f r.file, r.mode, r.fd⟩

theorem map_redircmds (f : α → β) (cmd : Cmd α) (rs : List (Redirect α)) :
    (redircmds cmd rs).map f = redircmds (cmd.map f) (rs.map (Redirect.map f)) := by
  induction rs generalizing cmd with
  | nil => rfl
  | cons r rs ih => exact ih _

theorem reads_redirection {rounds : ℕ} {file : Word} {r : Redirect Word}
    (ht : startsWith ['<', '>'] (t :: ts) = true)
    (hr : ∀ w, slice text w = file.chars → (redirOf t.ret w).map (Redirect.map (slice text)) = [r.map Word.chars])
    (h : Reads text ts (parseredirs text rounds) follow
      fun redirs => redirs.map (Redirect.map (slice text)) = rs.map (Redirect.map Word.chars)) :
    Reads text (t :: .word file :: ts) (parseredirs text (rounds + 1)) follow
      fun redirs => redirs.map (Redirect.map (slice text)) = (r :: rs).map (Redirect.map Word.chars) := by
  apply reads_taken (by decide)
  · cases t <;> exact ht
  intro tok htok
  apply reads_bind reads_gettoken
  rintro w ⟨hret, hword⟩
  rw [if_neg fun hne => hne hret]
  apply reads_bind h
  intro rest hrest
  apply reads_pure
  rw [List.map_append, htok, hr _ hword, hrest, List.map_cons]
  rfl

theorem reads_parseredirs (h : PrintsRedirs rs ts)
    (hfollow : startsWith ['<', '>'] follow = false) (rounds : ℕ) :
    Reads text (ts ++ follow) (parseredirs text rounds) follow
      fun redirs => redirs.map (Redirect.map (slice text)) = rs.map (Redirect.map Word.chars) := by
  induction h generalizing rounds with
  | nil =>
    cases rounds with
    | zero => exact Triple.throw rfl
    | succ rounds => exact reads_passed (by decide) hfollow (reads_pure rfl)
  | input file _ ih =>
    cases rounds with
    | zero => exact Triple.throw rfl
    | succ rounds =>
      apply reads_redirection rfl _ (ih rounds)
      intro w hw
      simp [redirOf, Tok.ret, Tok.chars, Redirect.map, hw]
  | output file _ ih =>
    cases rounds with
    | zero => exact Triple.throw rfl
    | succ rounds =>
      apply reads_redirection rfl _ (ih rounds)
      intro w hw
      simp [redirOf, Tok.ret, Tok.chars, Redirect.map, hw]
  | append file _ ih =>
    cases rounds with
    | zero => exact Triple.throw rfl
    | succ rounds =>
      apply reads_redirection rfl _ (ih rounds)
      intro w hw
      simp [redirOf, Tok.ret, Redirect.map, hw]

def Level.stops : Level → List Char
  | .exec => ['|', ')', '&', ';']
  | .pipe => [')', '&', ';']
  | .line => [')']

def Level.Follows (level : Level) (ts : List Tok) : Prop := ts = [] ∨ startsWith level.stops ts = true

theorem startsWith_mono {toks' : List Char} (h : toks ⊆ toks') (ht : startsWith toks ts = true) :
    startsWith toks' ts = true := by
  match ts, ht with
  | t :: ts, ht =>
    cases t with
    | word w => cases ht
    | _ => exact decide_eq_true (h (of_decide_eq_true ht))

theorem Level.Follows.not_startsWith (h : level.Follows ts) (hd : level.stops ∩ toks = []) :
    startsWith toks ts = false := by
  have hnot {c : Char} (hstop : c ∈ level.stops) : c ∉ toks := by
    intro htok
    have hboth := List.mem_inter_iff.mpr ⟨hstop, htok⟩
    rw [hd] at hboth
    cases hboth
  rcases h with rfl | h
  · rfl
  · match ts, h with
    | t :: ts, h =>
      cases t with
      | word w => cases h
      | _ => exact decide_eq_false (hnot (of_decide_eq_true h))

theorem Level.Follows.mono {level' : Level} (h : level.Follows ts) (hle : level.stops ⊆ level'.stops) :
    level'.Follows ts := h.imp_right (startsWith_mono hle)

theorem startsWith_append (hts : startsWith toks ts = false) (hfollow : startsWith toks follow = false) :
    startsWith toks (ts ++ follow) = false := by
  cases ts with
  | nil => exact hfollow
  | cons t ts => cases t <;> exact hts

theorem PrintsRedirs.not_startsWith (h : PrintsRedirs rs ts) (hless : '<' ∉ toks)
    (hgreater : '>' ∉ toks) : startsWith toks ts = false := by
  cases h with
  | nil => rfl
  | input file _ => exact decide_eq_false hless
  | output file _ => exact decide_eq_false hgreater
  | append file _ => exact decide_eq_false hgreater

theorem PrintsArgs.not_startsWith (h : PrintsArgs ws rs ts) :
    startsWith toks ts = false := by
  cases h with
  | nil => rfl
  | cons w _ _ => rfl

theorem reads_parseargs (h : PrintsArgs ws rs ts)
    (hfollow : Level.exec.Follows follow) (rounds : ℕ) {argc : ℕ} (hargc : argc + ws.length < MAXARGS) :
    Reads text (ts ++ follow) (parseargs text rounds argc) follow fun r =>
      r.1.map (slice text) = ws.map Word.chars ∧
        r.2.map (Redirect.map (slice text)) = rs.map (Redirect.map Word.chars) := by
  induction h generalizing rounds argc with
  | nil =>
    cases rounds with
    | zero => exact Triple.throw rfl
    | succ rounds =>
      rcases hfollow with rfl | hstops
      · apply reads_passed (by decide) rfl
        apply Triple.bind (gettoken_nil.except fun _ h => h.elim)
        intro tok
        apply Triple.given
        intro hret
        rw [if_pos hret]
        exact reads_pure ⟨rfl, rfl⟩
      · apply reads_bind (reads_peek (by decide))
        rintro _ rfl
        rw [if_pos (by exact hstops)]
        exact reads_pure ⟨rfl, rfl⟩
  | @cons ws rs rs' ts ts' w hredirs hargs ih =>
    cases rounds with
    | zero => exact Triple.throw rfl
    | succ rounds =>
      rw [List.length_cons] at hargc
      have hnext : startsWith ['<', '>'] (ts' ++ follow) = false :=
        startsWith_append hargs.not_startsWith (hfollow.not_startsWith (by decide))
      rw [List.cons_append, List.append_assoc]
      apply reads_passed (by decide) rfl
      apply reads_bind reads_gettoken
      rintro tok ⟨hret, hword⟩
      have hnul : tok.ret ≠ NUL := by
        rw [hret]
        exact (by decide : 'a' ≠ NUL)
      rw [if_neg hnul, if_neg fun hne => hne hret, if_neg (by omega)]
      apply reads_bind (reads_parseredirs hredirs hnext _)
      intro redirs hredirs
      apply reads_bind (ih rounds (by omega))
      rintro rest ⟨hwords, hrest⟩
      apply reads_pure
      dsimp only
      rw [List.map_cons, List.map_cons, hwords, hword, List.map_append, List.map_append, hredirs, hrest]
      exact ⟨rfl, rfl⟩

theorem reads_parsebacks (hfollow : startsWith ['&'] follow = false) (k rounds : ℕ) (cmd : Cmd Span) :
    Reads text (List.replicate k .amp ++ follow) (parsebacks text rounds cmd) follow fun r => r = backs k cmd := by
  induction k generalizing rounds cmd with
  | zero =>
    cases rounds with
    | zero => exact Triple.throw rfl
    | succ rounds => exact reads_passed (by decide) hfollow (reads_pure rfl)
  | succ k ih =>
    cases rounds with
    | zero => exact Triple.throw rfl
    | succ rounds =>
      apply reads_taken (by decide) (by rfl)
      intro _ _
      exact ih rounds (.back cmd)

theorem map_backs (f : α → β) (k : ℕ) (cmd : Cmd α) : (backs k cmd).map f = backs k (cmd.map f) := by
  induction k generalizing cmd with
  | zero => rfl
  | succ k ih => exact ih (.back cmd)

def Level.parse (text : List Char) : Level → ℕ → Parse (Cmd Span)
  | .exec => parseexec text
  | .pipe => parsepipe text
  | .line => parseline text

theorem reads_prints (h : Prints level cmd ts)
    (hfollow : level.Follows follow) (fuel : ℕ) :
    Reads text (ts ++ follow) (level.parse text fuel) follow fun r => r.map (slice text) = cmd.map Word.chars := by
  induction h generalizing follow fuel with
  | @exec ws rs rs' ts ts' hredirs hargs hlen =>
    cases fuel with
    | zero => exact Triple.throw rfl
    | succ fuel =>
      have hblock : startsWith ['('] (ts ++ (ts' ++ follow)) = false :=
        startsWith_append (hredirs.not_startsWith (by decide) (by decide))
          (startsWith_append hargs.not_startsWith (hfollow.not_startsWith (by decide)))
      have hnext : startsWith ['<', '>'] (ts' ++ follow) = false :=
        startsWith_append hargs.not_startsWith (hfollow.not_startsWith (by decide))
      rw [List.append_assoc]
      apply reads_passed (by decide) hblock
      apply reads_bind (reads_parseredirs hredirs hnext _)
      intro redirs hredirs
      apply reads_bind (reads_parseargs hargs hfollow _ (by omega))
      rintro rest ⟨hwords, hrest⟩
      apply reads_pure
      rw [map_redircmds, map_redircmds, List.map_append, List.map_append, hredirs, hrest, Cmd.map, Cmd.map, hwords]
  | @block cmd rs ts ts' hline hredirs ih =>
    cases fuel with
    | zero => exact Triple.throw rfl
    | succ fuel =>
      apply reads_bind (reads_peek (by decide))
      rintro _ rfl
      rw [if_pos (by rfl)]
      cases fuel with
      | zero => exact Triple.throw rfl
      | succ fuel =>
        rw [List.cons_append, List.append_assoc, List.cons_append]
        apply reads_taken (by decide) (by rfl)
        intro _ _
        apply reads_bind (ih (.inr (by rfl)) fuel)
        intro inner hinner
        apply reads_taken (by decide) (by rfl)
        intro _ _
        apply reads_bind (reads_parseredirs hredirs (hfollow.not_startsWith (by decide)) _)
        intro redirs hredirs
        apply reads_pure
        rw [map_redircmds, map_redircmds, hredirs, hinner]
  | last hexec ih =>
    cases fuel with
    | zero => exact Triple.throw rfl
    | succ fuel =>
      apply reads_bind (ih (hfollow.mono (by decide)) fuel)
      intro cmd hcmd
      exact reads_passed (by decide) (hfollow.not_startsWith (by decide)) (reads_pure hcmd)
  | pipe hleft hright ihl ihr =>
    cases fuel with
    | zero => exact Triple.throw rfl
    | succ fuel =>
      rw [List.append_assoc, List.cons_append]
      apply reads_bind (ihl (.inr (by rfl)) fuel)
      intro left hleft
      apply reads_taken (by decide) (by rfl)
      intro _ _
      apply reads_bind (ihr hfollow fuel)
      intro right hright
      apply reads_pure
      rw [Cmd.map, Cmd.map, hleft, hright]
  | line k hpipe ih =>
    cases fuel with
    | zero => exact Triple.throw rfl
    | succ fuel =>
      have hnext : Level.pipe.Follows (List.replicate k .amp ++ follow) := by
        cases k with
        | zero => exact hfollow.mono (by decide)
        | succ k => exact .inr (by rfl)
      rw [List.append_assoc]
      apply reads_bind (ih hnext fuel)
      intro cmd hcmd
      apply reads_bind (reads_parsebacks (hfollow.not_startsWith (by decide)) k _ cmd)
      rintro _ rfl
      apply reads_passed (by decide) (hfollow.not_startsWith (by decide))
      apply reads_pure
      rw [map_backs, map_backs, hcmd]
  | @list left right ts ts' k hleft hright ihl ihr =>
    cases fuel with
    | zero => exact Triple.throw rfl
    | succ fuel =>
      have hnext : Level.pipe.Follows (List.replicate k .amp ++ (.semi :: (ts' ++ follow))) := by
        cases k with
        | zero => exact .inr (by rfl)
        | succ k => exact .inr (by rfl)
      rw [List.append_assoc, List.append_assoc, List.cons_append]
      apply reads_bind (ihl hnext fuel)
      intro cmd hcmd
      apply reads_bind (reads_parsebacks (by rfl) k _ cmd)
      rintro _ rfl
      apply reads_taken (by decide) (by rfl)
      intro _ _
      apply reads_bind (ihr hfollow fuel)
      intro right hright
      apply reads_pure
      rw [Cmd.map, Cmd.map, map_backs, map_backs, hcmd, hright]

def ParsesTo (text : List Char) (cmd : Cmd Word) : Prop :=
  ∃ r buf, parsecmd text = .ok (r, buf) ∧ r.map (string buf) = cmd.map Word.chars

theorem parsesTo_of_prints (h : Prints .line cmd ts) (htext : Renders ts text) :
    ParsesTo text cmd := by
  have hreads : Reads text (ts ++ []) _ [] _ := reads_prints h (.inl rfl) (4 * text.length + 3)
  rw [List.append_nil] at hreads
  have hrun := hreads 0 ⟨Nat.zero_le _, htext⟩
  obtain ⟨e, he, herror⟩ | ⟨r, s, hok, hcmd⟩ := parsecmd_cases text
  · have hfuel : e = .outOfFuel := by
      change (parseline text (4 * text.length + 3)).run 0 = .error e at he
      simp only [Level.parse, he] at hrun
      exact hrun
    exact absurd (hfuel ▸ herror) (parsecmd_stops text)
  · simp only [Level.parse, hok] at hrun
    obtain ⟨hr, hs⟩ := hrun
    have hend : skipSpace text s = text.length :=
      Nat.le_antisymm (skipSpace_le hs.inside) (List.drop_eq_nil_iff.mp hs.drop_nil)
    rw [if_pos hend] at hcmd
    refine ⟨r, _, hcmd, ?_⟩
    rw [parsecmd_strings htext.NUL_notMem hcmd, hr]

end

theorem parser_inverts_printing (text : List Char) : parsecmd text ≠ .error .outOfFuel ∧ ∀ cmd : Cmd Word,
    (cmd.WellFormed → Renders cmd.text.line text → ParsesTo text cmd) ∧
      ∀ ts, Prints .line cmd ts → Renders ts text → ParsesTo text cmd := by
  refine ⟨parsecmd_stops text, ?_⟩
  intro cmd
  constructor
  · intro hcmd htext
    exact parsesTo_of_prints hcmd.canonical.line htext
  · intro ts hprints htext
    exact parsesTo_of_prints hprints htext

def wordLs : Word := ⟨['l', 's'], by decide, by simp [isWord, whitespace, symbols, NUL]⟩

def wordF : Word := ⟨['f'], by decide, by simp [isWord, whitespace, symbols, NUL]⟩

theorem parser_inverts_printing_redir :
    ParsesTo ['l', 's', '>', ' ', 'f'] (.redir (.exec [wordLs]) wordF (O_WRONLY ||| O_CREATE) 1) := by
  have hgap : Blank [] := fun _ hc => by cases hc
  have hspace : Blank [' '] := by
    intro c hc
    rw [List.mem_singleton.mp hc]
    decide
  have hfile : Renders [.word wordF] [' ', 'f'] := .cons hspace (fun _ hc => by cases hc) (.nil hgap)
  have hgreater : Renders [.greater, .word wordF] ['>', ' ', 'f'] :=
    .cons (t := .greater) hgap (by simp [Tok.Ends]) hfile
  have htext : Renders [.word wordLs, .greater, .word wordF] ['l', 's', '>', ' ', 'f'] :=
    .cons (t := .word wordLs) hgap (fun c hc => by cases hc; decide) hgreater
  have hwords : (Cmd.exec [wordLs]).WellFormed := by
    show [wordLs].length ≤ MAXARGS - 1
    decide
  exact ((parser_inverts_printing _).2 _).1 ⟨hwords, .inr ⟨rfl, rfl⟩⟩ htext

end Xv6.ShellParser
