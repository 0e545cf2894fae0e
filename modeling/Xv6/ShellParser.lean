import Xv6.Triples
import Mathlib.Algebra.Order.Ring.Nat

namespace Xv6.ShellParser

open Xv6.Triples

def NUL : Char := '\x00'

def whitespace : List Char := [' ', '\t', '\r', '\n', '\x0b']

def symbols : List Char := ['<', '|', '>', '&', ';', '(', ')']

def MAXARGS : ℕ := 10

def O_RDONLY : ℕ := 0x000

def O_WRONLY : ℕ := 0x001

def O_CREATE : ℕ := 0x200

inductive Cmd (α : Type)
  | exec (argv : List α)
  | redir (cmd : Cmd α) (file : α) (mode fd : ℕ)
  | pipe (left right : Cmd α)
  | list (left right : Cmd α)
  | back (cmd : Cmd α)
  deriving DecidableEq

structure Span where
  q : ℕ
  eq : ℕ
  deriving DecidableEq

inductive Stop
  | leftovers
  | missingFile
  | parseblock
  | missingParen
  | notAWord
  | tooManyArgs
  | outOfFuel
  deriving DecidableEq

abbrev Parse := StateT ℕ (Except Stop)

def isSpace (c : Char) : Bool := c ∈ whitespace

def isWord (c : Char) : Bool := !(c ∈ whitespace) && !(c ∈ symbols)

def skipSpace (text : List Char) (s : ℕ) : ℕ := s + ((text.drop s).takeWhile isSpace).length

def skipWord (text : List Char) (s : ℕ) : ℕ := s + ((text.drop s).takeWhile isWord).length

def charAt (text : List Char) (s : ℕ) : Char := text.getD s NUL

structure Token where
  ret : Char
  span : Span

def token (text : List Char) (q : ℕ) : Char × ℕ :=
  let c := charAt text q
  if c = NUL then (c, q)
  else if c ∈ ['|', '(', ')', ';', '&', '<'] then (c, q + 1)
  else if c = '>' then if charAt text (q + 1) = '>' then ('+', q + 2) else (c, q + 1)
  else ('a', skipWord text q)

def gettoken (text : List Char) : Parse Token := do
  let s ← get
  let q := skipSpace text s
  let (ret, eq) := token text q
  set (skipSpace text eq)
  pure ⟨ret, ⟨q, eq⟩⟩

def peek (text : List Char) (toks : List Char) : Parse Bool := do
  let s ← get
  let s := skipSpace text s
  set s
  pure (decide (charAt text s ≠ NUL ∧ charAt text s ∈ toks))

structure Redirect (α : Type) where
  file : α
  mode : ℕ
  fd : ℕ

def redircmds {α : Type} (cmd : Cmd α) (redirs : List (Redirect α)) : Cmd α :=
  redirs.foldl (fun cmd r => .redir cmd r.file r.mode r.fd) cmd

def redirOf (tok : Char) (file : Span) : List (Redirect Span) :=
  if tok = '<' then [⟨file, O_RDONLY, 0⟩]
  else if tok = '>' then [⟨file, O_WRONLY ||| O_CREATE, 1⟩]
  else if tok = '+' then [⟨file, O_WRONLY ||| O_CREATE, 1⟩]
  else []

def parseredirs (text : List Char) : ℕ → Parse (List (Redirect Span))
  | 0 => throw .outOfFuel
  | rounds + 1 => do
    let more ← peek text ['<', '>']
    if more then do
      let tok ← gettoken text
      let file ← gettoken text
      if file.ret ≠ 'a' then throw .missingFile
      else do
        let rest ← parseredirs text rounds
        pure (redirOf tok.ret file.span ++ rest)
    else pure []

def parseargs (text : List Char) : ℕ → ℕ → Parse (List Span × List (Redirect Span))
  | 0, _ => throw .outOfFuel
  | rounds + 1, argc => do
    let stop ← peek text ['|', ')', '&', ';']
    if stop then pure ([], [])
    else do
      let tok ← gettoken text
      if tok.ret = NUL then pure ([], [])
      else if tok.ret ≠ 'a' then throw .notAWord
      else if MAXARGS ≤ argc + 1 then throw .tooManyArgs
      else do
        let redirs ← parseredirs text (text.length + 1)
        let rest ← parseargs text rounds (argc + 1)
        pure (tok.span :: rest.1, redirs ++ rest.2)

def parsebacks (text : List Char) : ℕ → Cmd Span → Parse (Cmd Span)
  | 0, _ => throw .outOfFuel
  | rounds + 1, cmd => do
    let more ← peek text ['&']
    if more then do
      let _ ← gettoken text
      parsebacks text rounds (.back cmd)
    else pure cmd

mutual

def parseline (text : List Char) : ℕ → Parse (Cmd Span)
  | 0 => throw .outOfFuel
  | fuel + 1 => do
    let cmd ← parsepipe text fuel
    let cmd ← parsebacks text (text.length + 1) cmd
    let more ← peek text [';']
    if more then do
      let _ ← gettoken text
      let right ← parseline text fuel
      pure (.list cmd right)
    else pure cmd

def parsepipe (text : List Char) : ℕ → Parse (Cmd Span)
  | 0 => throw .outOfFuel
  | fuel + 1 => do
    let cmd ← parseexec text fuel
    let more ← peek text ['|']
    if more then do
      let _ ← gettoken text
      let right ← parsepipe text fuel
      pure (.pipe cmd right)
    else pure cmd

def parseexec (text : List Char) : ℕ → Parse (Cmd Span)
  | 0 => throw .outOfFuel
  | fuel + 1 => do
    let block ← peek text ['(']
    if block then parseblock text fuel
    else do
      let redirs ← parseredirs text (text.length + 1)
      let rest ← parseargs text (text.length + 1) 0
      pure (redircmds (.exec rest.1) (redirs ++ rest.2))

def parseblock (text : List Char) : ℕ → Parse (Cmd Span)
  | 0 => throw .outOfFuel
  | fuel + 1 => do
    let opens ← peek text ['(']
    if opens then do
      let _ ← gettoken text
      let cmd ← parseline text fuel
      let closes ← peek text [')']
      if closes then do
        let _ ← gettoken text
        let redirs ← parseredirs text (text.length + 1)
        pure (redircmds cmd redirs)
      else throw .missingParen
    else throw .parseblock

end

def nulterminate : Cmd Span → List Char → List Char
  | .exec argv, buf => argv.foldl (fun buf word => buf.set word.eq NUL) buf
  | .redir cmd file _ _, buf => (nulterminate cmd buf).set file.eq NUL
  | .pipe left right, buf => nulterminate right (nulterminate left buf)
  | .list left right, buf => nulterminate right (nulterminate left buf)
  | .back cmd, buf => nulterminate cmd buf

def parsecmd (text : List Char) : Except Stop (Cmd Span × List Char) := do
  let (cmd, s) ← (parseline text (4 * text.length + 3)).run 0
  let (_, s) ← (peek text []).run s
  if s ≠ text.length then throw .leftovers
  else pure (cmd, nulterminate cmd (text ++ [NUL]))

example : (parsecmd "(ls a<f;b)&".toList).map (·.1) =
    .ok (.back (.list (.redir (.exec [⟨1, 3⟩, ⟨4, 5⟩]) ⟨6, 7⟩ O_RDONLY 0) (.exec [⟨8, 9⟩]))) := by
  decide +kernel

section

variable {α : Type} {text : List Char} {s k : ℕ}

theorem charAt_eq_of_drop {c : Char} {rest : List Char} (h : text.drop s = c :: rest) : charAt text s = c := by
  have hget : text[s]? = some c := by
    rw [← List.head?_drop, h]
    rfl
  rw [charAt, List.getD_eq_getElem?_getD, hget]
  rfl

theorem charAt_eq_NUL (h : text.drop s = []) : charAt text s = NUL := by
  rw [charAt, List.getD_eq_getElem?_getD, ← List.head?_drop, h]
  rfl

theorem drop_eq_cons (h : charAt text s ≠ NUL) : ∃ rest, text.drop s = charAt text s :: rest := by
  cases hdrop : text.drop s with
  | nil => exact absurd (charAt_eq_NUL hdrop) h
  | cons c rest => exact ⟨rest, by rw [charAt_eq_of_drop hdrop]⟩

theorem lt_length_of_charAt (h : charAt text s ≠ NUL) : s < text.length :=
  Nat.lt_of_not_le fun hle => h (charAt_eq_NUL (List.drop_eq_nil_of_le hle))

theorem drop_takeWhile (p : Char → Bool) (l : List Char) : l.drop (l.takeWhile p).length = l.dropWhile p := by
  calc l.drop (l.takeWhile p).length
      = (l.takeWhile p ++ l.dropWhile p).drop (l.takeWhile p).length := by rw [List.takeWhile_append_dropWhile]
    _ = l.dropWhile p := List.drop_left

theorem drop_skipSpace : text.drop (skipSpace text s) = (text.drop s).dropWhile isSpace := by
  rw [skipSpace, ← List.drop_drop, drop_takeWhile]

theorem drop_skipWord : text.drop (skipWord text s) = (text.drop s).dropWhile isWord := by
  rw [skipWord, ← List.drop_drop, drop_takeWhile]

theorem le_skipSpace : s ≤ skipSpace text s := Nat.le_add_right _ _

theorem isSpace_charAt_skipSpace : isSpace (charAt text (skipSpace text s)) = false := by
  cases hdrop : text.drop (skipSpace text s) with
  | nil =>
    rw [charAt_eq_NUL hdrop]
    decide
  | cons c rest =>
    rw [charAt_eq_of_drop hdrop]
    rw [drop_skipSpace] at hdrop
    have hhead := List.head?_dropWhile_not isSpace (text.drop s)
    rw [hdrop] at hhead
    simpa using hhead

theorem skipSpace_of_isSpace (h : isSpace (charAt text s) = false) : skipSpace text s = s := by
  cases hdrop : text.drop s with
  | nil => simp [skipSpace, hdrop]
  | cons c rest =>
    rw [charAt_eq_of_drop hdrop] at h
    simp [skipSpace, hdrop, h]

theorem token_cases (text : List Char) (s : ℕ) :
    charAt text s = NUL ∧ token text s = (NUL, s) ∨
    charAt text s ∈ ['|', '(', ')', ';', '&', '<'] ∧ token text s = (charAt text s, s + 1) ∨
    charAt text s = '>' ∧ charAt text (s + 1) = '>' ∧ token text s = ('+', s + 2) ∨
    charAt text s = '>' ∧ charAt text (s + 1) ≠ '>' ∧ token text s = ('>', s + 1) ∨
    charAt text s ≠ NUL ∧ charAt text s ∉ symbols ∧ token text s = ('a', skipWord text s) := by
  simp only [token]
  split_ifs with hnul hsymbol hgreater happend
  · exact .inl ⟨hnul, by rw [hnul]⟩
  · exact .inr (.inl ⟨hsymbol, rfl⟩)
  · exact .inr (.inr (.inl ⟨hgreater, happend, rfl⟩))
  · exact .inr (.inr (.inr (.inl ⟨hgreater, happend, by rw [hgreater]⟩)))
  · refine .inr (.inr (.inr (.inr ⟨hnul, ?_, rfl⟩)))
    simp only [symbols, List.mem_cons, List.not_mem_nil, or_false, not_or] at hsymbol ⊢
    exact ⟨hsymbol.2.2.2.2.2, hsymbol.1, hgreater, hsymbol.2.2.2.2.1, hsymbol.2.2.2.1, hsymbol.2.1, hsymbol.2.2.1⟩

theorem lt_skipWord (hnul : charAt text s ≠ NUL) (h : isWord (charAt text s) = true) : s < skipWord text s := by
  obtain ⟨rest, hdrop⟩ := drop_eq_cons hnul
  simp [skipWord, hdrop, h]

theorem lt_token (hspace : isSpace (charAt text s) = false) (h : (token text s).1 ≠ NUL) :
    s < (token text s).2 := by
  obtain ⟨-, htok⟩ | ⟨-, htok⟩ | ⟨-, -, htok⟩ | ⟨-, -, htok⟩ | ⟨hnul, hsymbol, htok⟩ := token_cases text s <;>
    rw [htok] at h ⊢
  · exact absurd rfl h
  · exact Nat.lt_succ_self s
  · exact Nat.lt_add_of_pos_right (by decide)
  · exact Nat.lt_succ_self s
  · apply lt_skipWord hnul
    simp only [isSpace, decide_eq_false_iff_not] at hspace
    simp [isWord, hspace, hsymbol]

theorem le_token : s ≤ (token text s).2 := by
  obtain ⟨-, htok⟩ | ⟨-, htok⟩ | ⟨-, -, htok⟩ | ⟨-, -, htok⟩ | ⟨-, -, htok⟩ := token_cases text s <;> rw [htok]
  · exact Nat.le_succ s
  · exact Nat.le_add_right s 2
  · exact Nat.le_succ s
  · exact Nat.le_add_right s _

theorem token_ne_NUL (h : charAt text s ≠ NUL) : (token text s).1 ≠ NUL := by
  obtain ⟨hnul, -⟩ | ⟨-, htok⟩ | ⟨-, -, htok⟩ | ⟨-, -, htok⟩ | ⟨-, -, htok⟩ := token_cases text s
  · exact absurd hnul h
  all_goals rw [htok]
  · exact h
  all_goals
    dsimp only
    decide

abbrev Stops (text : List Char) (k j : ℕ) (m : Parse α) : Prop :=
  Triple (fun s => text.length - s ≤ k) m (fun _ s => text.length - s ≤ j) fun e => e ≠ .outOfFuel

theorem peek_spec (toks : List Char) : Triple (fun p => p = s) (peek text toks)
    (fun b p => p = skipSpace text s ∧ (b = true ↔ charAt text p ≠ NUL ∧ charAt text p ∈ toks))
    fun _ : Stop => False := by
  apply Triple.get
  rintro _ rfl
  apply Triple.setThen
  apply Triple.ret
  exact ⟨rfl, decide_eq_true_iff⟩

theorem gettoken_spec : Triple (fun p => p = s) (gettoken text)
    (fun tok p => tok = ⟨(token text (skipSpace text s)).1, skipSpace text s, (token text (skipSpace text s)).2⟩ ∧
      p = skipSpace text (token text (skipSpace text s)).2)
    fun _ : Stop => False := by
  apply Triple.get
  rintro _ rfl
  apply Triple.setThen
  apply Triple.ret
  exact ⟨rfl, rfl⟩

theorem stops_gettoken : Triple (fun s => text.length - s ≤ k) (gettoken text)
    (fun tok s => text.length - s ≤ k ∧ (tok.ret ≠ NUL → text.length - s + 1 ≤ k)) fun e => e ≠ .outOfFuel := by
  apply Triple.start
  intro s hs
  apply (gettoken_spec.post _).except fun _ h => h.elim
  rintro _ _ ⟨rfl, rfl⟩
  have hspace : s ≤ skipSpace text s := le_skipSpace
  have hle : skipSpace text s ≤ (token text (skipSpace text s)).2 := le_token
  have hafter : (token text (skipSpace text s)).2 ≤ skipSpace text (token text (skipSpace text s)).2 :=
    le_skipSpace
  refine ⟨by omega, ?_⟩
  intro hret
  have hlt := lt_token isSpace_charAt_skipSpace hret
  have hin : skipSpace text s < text.length := by
    apply lt_length_of_charAt
    intro hnul
    simp [token, hnul] at hret
  omega

theorem stops_choice {toks : List Char} {f : Token → Parse α} {g : Parse α} {j : ℕ}
    (hf : ∀ i, k = i + 1 → ∀ tok, Stops text i j (f tok)) (hg : Stops text k j g) :
    Stops text k j (peek text toks >>= fun more => if more then gettoken text >>= f else g) := by
  apply Triple.start
  intro s hs
  apply ((peek_spec toks).except fun _ h => h.elim).bind
  intro more
  apply Triple.start
  rintro _ ⟨rfl, hmore⟩
  have hspace : s ≤ skipSpace text s := le_skipSpace
  apply Triple.ite
  · intro htrue
    obtain ⟨hnul, -⟩ := hmore.mp htrue
    have hret : (token text (skipSpace text (skipSpace text s))).1 ≠ NUL := by
      rw [skipSpace_of_isSpace isSpace_charAt_skipSpace]
      exact token_ne_NUL hnul
    have hleft : text.length - skipSpace text s ≤ k := by omega
    apply (((stops_gettoken.and gettoken_spec).except fun _ h => h.1).here ⟨hleft, rfl⟩).bind
    intro tok
    apply Triple.start
    rintro p ⟨⟨-, hlt⟩, rfl, rfl⟩
    have hk := hlt hret
    obtain ⟨i, rfl⟩ : ∃ i, k = i + 1 := ⟨k - 1, by omega⟩
    exact (hf i rfl _).here (by omega)
  · intro _
    exact hg.here (by omega)

variable {fuel rounds : ℕ}

theorem stops_parseredirs (h : k + 1 ≤ rounds) : Stops text k k (parseredirs text rounds) := by
  induction rounds generalizing k with
  | zero => omega
  | succ rounds ih =>
    apply stops_choice
    · rintro i rfl tok
      apply stops_gettoken.bind
      intro file
      apply Triple.ite
      · intro _
        exact Triple.throw (by decide)
      · intro _
        apply ((ih (k := i) (by omega)).pre fun _ h => h.1).bind
        intro rest
        exact Triple.pure fun _ h => by omega
    · exact Triple.pure fun _ h => h

theorem stops_parseargs (h : k + 1 ≤ rounds) (hk : k ≤ text.length) (argc : ℕ) :
    Stops text k k (parseargs text rounds argc) := by
  induction rounds generalizing k argc with
  | zero => omega
  | succ rounds ih =>
    have hpeek : Stops text k k (peek text ['|', ')', '&', ';']) := by
      apply Triple.start
      intro s hs
      apply ((peek_spec _).post _).except fun _ h => h.elim
      rintro _ _ ⟨rfl, -⟩
      have hspace : s ≤ skipSpace text s := le_skipSpace
      omega
    apply hpeek.bind
    intro stop
    apply Triple.ite
    · intro _
      exact Triple.pure fun _ h => h
    intro _
    apply stops_gettoken.bind
    intro tok
    apply Triple.ite
    · intro _
      exact Triple.pure fun _ h => h.1
    intro hret
    apply Triple.ite
    · intro _
      exact Triple.throw (by decide)
    intro _
    apply Triple.ite
    · intro _
      exact Triple.throw (by decide)
    intro _
    apply Triple.known (p := 1 ≤ k) (fun _ h => (h.2 hret).trans' (Nat.le_add_left 1 _))
    intro hpos
    have hredirs : Stops text (k - 1) (k - 1) (parseredirs text (text.length + 1)) := stops_parseredirs (by omega)
    apply (hredirs.pre fun _ h => by have := h.2 hret; omega).bind
    intro redirs
    apply (ih (k := k - 1) (by omega) (by omega) (argc + 1)).bind
    intro rest
    exact Triple.pure fun _ h => by omega

theorem stops_parsebacks (h : k + 1 ≤ rounds) (cmd : Cmd Span) :
    Stops text k k (parsebacks text rounds cmd) := by
  induction rounds generalizing k cmd with
  | zero => omega
  | succ rounds ih =>
    apply stops_choice
    · rintro i rfl tok
      exact (ih (k := i) (by omega) (.back cmd)).post fun _ _ h => by omega
    · exact Triple.pure fun _ h => h

structure StopAll (text : List Char) (fuel : ℕ) : Prop where
  line : ∀ k ≤ text.length, 4 * k + 3 ≤ fuel → Stops text k k (parseline text fuel)
  pipe : ∀ k ≤ text.length, 4 * k + 2 ≤ fuel → Stops text k k (parsepipe text fuel)
  exec : ∀ k ≤ text.length, 4 * k + 1 ≤ fuel → Stops text k k (parseexec text fuel)
  block : ∀ k ≤ text.length, 4 * k ≤ fuel → 1 ≤ k → Stops text k k (parseblock text fuel)

theorem stops_parseline (h : StopAll text fuel) (hk : k ≤ text.length) (hfuel : 4 * k + 3 ≤ fuel + 1) :
    Stops text k k (parseline text (fuel + 1)) := by
  apply (h.pipe k hk (by omega)).bind
  intro cmd
  apply (stops_parsebacks (by omega) cmd).bind
  intro cmd
  apply stops_choice
  · rintro i rfl tok
    apply (h.line i (by omega) (by omega)).bind
    intro right
    exact Triple.pure fun _ h => by omega
  · exact Triple.pure fun _ h => h

theorem stops_parsepipe (h : StopAll text fuel) (hk : k ≤ text.length) (hfuel : 4 * k + 2 ≤ fuel + 1) :
    Stops text k k (parsepipe text (fuel + 1)) := by
  apply (h.exec k hk (by omega)).bind
  intro cmd
  apply stops_choice
  · rintro i rfl tok
    apply (h.pipe i (by omega) (by omega)).bind
    intro right
    exact Triple.pure fun _ h => by omega
  · exact Triple.pure fun _ h => h

theorem stops_parseexec (h : StopAll text fuel) (hk : k ≤ text.length) (hfuel : 4 * k + 1 ≤ fuel + 1) :
    Stops text k k (parseexec text (fuel + 1)) := by
  apply Triple.start
  intro s hs
  apply ((peek_spec _).except fun _ h => h.elim).bind
  intro block
  apply Triple.start
  rintro _ ⟨rfl, hblock⟩
  have hspace : s ≤ skipSpace text s := le_skipSpace
  have hleft : text.length - skipSpace text s ≤ k := by omega
  apply Triple.ite
  · intro htrue
    have hlt := lt_length_of_charAt (hblock.mp htrue).1
    exact (h.block k hk (by omega) (by omega)).here hleft
  · intro _
    apply ((stops_parseredirs (by omega)).here hleft).bind
    intro redirs
    apply (stops_parseargs (by omega) hk 0).bind
    intro rest
    exact Triple.pure fun _ h => h

theorem stops_parseblock (h : StopAll text fuel) (hk : k ≤ text.length) (hfuel : 4 * k ≤ fuel + 1) :
    Stops text k k (parseblock text (fuel + 1)) := by
  apply stops_choice
  · rintro i rfl tok
    apply (h.line i (by omega) (by omega)).bind
    intro cmd
    apply Triple.post (Q := fun _ s => text.length - s ≤ i)
    · apply stops_choice
      · rintro i rfl tok
        apply (stops_parseredirs (by omega)).bind
        intro redirs
        exact Triple.pure fun _ h => by omega
      · exact Triple.throw (by decide)
    · exact fun _ _ h => by omega
  · exact Triple.throw (by decide)

theorem stopAll (text : List Char) (fuel : ℕ) : StopAll text fuel := by
  induction fuel with
  | zero => exact ⟨by omega, by omega, by omega, by omega⟩
  | succ fuel ih =>
    exact ⟨fun _ => stops_parseline ih, fun _ => stops_parsepipe ih, fun _ => stops_parseexec ih,
      fun _ hk hfuel _ => stops_parseblock ih hk hfuel⟩

theorem parsecmd_cases (text : List Char) :
    (∃ e, (parseline text (4 * text.length + 3)).run 0 = .error e ∧ parsecmd text = .error e) ∨
    ∃ cmd s, (parseline text (4 * text.length + 3)).run 0 = .ok (cmd, s) ∧ parsecmd text =
      if skipSpace text s = text.length then .ok (cmd, nulterminate cmd (text ++ [NUL]))
        else .error .leftovers := by
  unfold parsecmd
  cases hrun : (parseline text (4 * text.length + 3)).run 0 with
  | error e => exact .inl ⟨e, rfl, rfl⟩
  | ok r =>
    refine .inr ⟨r.1, r.2, rfl, ?_⟩
    change (if skipSpace text r.2 ≠ text.length then _ else _) = _
    rw [ite_not]
    rfl

theorem parsecmd_stops (text : List Char) : parsecmd text ≠ .error .outOfFuel := by
  intro h
  have hstops := (stopAll text (4 * text.length + 3)).line text.length le_rfl le_rfl 0 (Nat.sub_le _ _)
  obtain ⟨e, hrun, he⟩ | ⟨cmd, s, -, hcmd⟩ := parsecmd_cases text
  · rw [hrun] at hstops
    rw [he] at h
    cases h
    exact hstops rfl
  · rw [hcmd] at h
    split_ifs at h
    cases h

end

end Xv6.ShellParser
