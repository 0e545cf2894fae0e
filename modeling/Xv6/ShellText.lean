import Xv6.ShellWords

namespace Xv6.ShellParser

open Xv6.Triples

structure Word where
  chars : List Char
  nonempty : chars ≠ []
  plain : ∀ c ∈ chars, c ≠ NUL ∧ isWord c = true

inductive Tok
  | bar
  | semi
  | amp
  | opens
  | closes
  | less
  | greater
  | append
  | word (w : Word)

def Tok.chars : Tok → List Char
  | .bar => ['|']
  | .semi => [';']
  | .amp => ['&']
  | .opens => ['(']
  | .closes => [')']
  | .less => ['<']
  | .greater => ['>']
  | .append => ['>', '>']
  | .word w => w.chars

def Tok.ret : Tok → Char
  | .append => '+'
  | .word _ => 'a'
  | t => t.chars.headD NUL

def Tok.Ends : Tok → List Char → Prop
  | .greater, rest => rest.head? ≠ some '>'
  | .word _, rest => ∀ c ∈ rest.head?, isWord c = false
  | _, _ => True

def Blank (gap : List Char) : Prop := ∀ c ∈ gap, isSpace c = true

inductive Renders : List Tok → List Char → Prop
  | nil {gap : List Char} : Blank gap → Renders [] gap
  | cons {t : Tok} {ts : List Tok} {gap rest : List Char} :
    Blank gap → t.Ends rest → Renders ts rest → Renders (t :: ts) (gap ++ (t.chars ++ rest))

inductive PrintsRedirs : List (Redirect Word) → List Tok → Prop
  | nil : PrintsRedirs [] []
  | input {rs : List (Redirect Word)} {ts : List Tok} (file : Word) :
    PrintsRedirs rs ts → PrintsRedirs (⟨file, O_RDONLY, 0⟩ :: rs) (.less :: .word file :: ts)
  | output {rs : List (Redirect Word)} {ts : List Tok} (file : Word) :
    PrintsRedirs rs ts → PrintsRedirs (⟨file, O_WRONLY ||| O_CREATE, 1⟩ :: rs) (.greater :: .word file :: ts)
  | append {rs : List (Redirect Word)} {ts : List Tok} (file : Word) :
    PrintsRedirs rs ts → PrintsRedirs (⟨file, O_WRONLY ||| O_CREATE, 1⟩ :: rs) (.append :: .word file :: ts)

inductive PrintsArgs : List Word → List (Redirect Word) → List Tok → Prop
  | nil : PrintsArgs [] [] []
  | cons {ws : List Word} {rs rs' : List (Redirect Word)} {ts ts' : List Tok} (w : Word) :
    PrintsRedirs rs ts → PrintsArgs ws rs' ts' → PrintsArgs (w :: ws) (rs ++ rs') (.word w :: (ts ++ ts'))

inductive Level
  | exec
  | pipe
  | line

def backs {α : Type} (k : ℕ) (cmd : Cmd α) : Cmd α := Cmd.back^[k] cmd

inductive Prints : Level → Cmd Word → List Tok → Prop
  | exec {ws : List Word} {rs rs' : List (Redirect Word)} {ts ts' : List Tok} :
    PrintsRedirs rs ts → PrintsArgs ws rs' ts' → ws.length < MAXARGS →
      Prints .exec (redircmds (.exec ws) (rs ++ rs')) (ts ++ ts')
  | block {cmd : Cmd Word} {rs : List (Redirect Word)} {ts ts' : List Tok} :
    Prints .line cmd ts → PrintsRedirs rs ts' → Prints .exec (redircmds cmd rs) (.opens :: (ts ++ .closes :: ts'))
  | last {cmd : Cmd Word} {ts : List Tok} : Prints .exec cmd ts → Prints .pipe cmd ts
  | pipe {left right : Cmd Word} {ts ts' : List Tok} :
    Prints .exec left ts → Prints .pipe right ts' → Prints .pipe (.pipe left right) (ts ++ .bar :: ts')
  | line {cmd : Cmd Word} {ts : List Tok} (k : ℕ) :
    Prints .pipe cmd ts → Prints .line (backs k cmd) (ts ++ List.replicate k .amp)
  | list {left right : Cmd Word} {ts ts' : List Tok} (k : ℕ) :
    Prints .pipe left ts → Prints .line right ts' →
      Prints .line (.list (backs k left) right) (ts ++ (List.replicate k .amp ++ .semi :: ts'))

structure Text where
  exec : List Tok
  pipe : List Tok
  back : List Tok
  line : List Tok

def parens (ts : List Tok) : List Tok := .opens :: (ts ++ [.closes])

def Cmd.text : Cmd Word → Text
  | .exec argv =>
    let ts := argv.map .word
    ⟨ts, ts, ts, ts⟩
  | .redir cmd file _ fd =>
    let ts := cmd.text.exec ++ [if fd = 0 then .less else .greater, .word file]
    ⟨ts, ts, ts, ts⟩
  | .pipe left right =>
    let ts := left.text.exec ++ .bar :: right.text.pipe
    ⟨parens ts, ts, ts, ts⟩
  | .back cmd =>
    let ts := cmd.text.back ++ [.amp]
    ⟨parens ts, parens ts, ts, ts⟩
  | .list left right =>
    let ts := left.text.back ++ .semi :: right.text.line
    ⟨parens ts, parens ts, parens ts, ts⟩

def Cmd.WellFormed : Cmd Word → Prop
  | .exec argv => argv.length ≤ MAXARGS - 1
  | .redir cmd _ mode fd => cmd.WellFormed ∧ (mode = O_RDONLY ∧ fd = 0 ∨ mode = O_WRONLY ||| O_CREATE ∧ fd = 1)
  | .pipe left right => left.WellFormed ∧ right.WellFormed
  | .list left right => left.WellFormed ∧ right.WellFormed
  | .back cmd => cmd.WellFormed

section

variable {cmd : Cmd Word} {rs : List (Redirect Word)} {ts : List Tok}

variable {r : Redirect Word} {t : List Tok}

theorem PrintsRedirs.concat (h : PrintsRedirs rs ts) (hr : PrintsRedirs [r] t) :
    PrintsRedirs (rs ++ [r]) (ts ++ t) := by
  induction h with
  | nil => exact hr
  | input file _ ih => exact .input file ih
  | output file _ ih => exact .output file ih
  | append file _ ih => exact .append file ih

theorem redircmds_concat {α : Type} (cmd : Cmd α) (rs : List (Redirect α)) (r : Redirect α) :
    redircmds cmd (rs ++ [r]) = .redir (redircmds cmd rs) r.file r.mode r.fd := by
  rw [redircmds, List.foldl_append]
  rfl

theorem PrintsArgs.words (ws : List Word) : PrintsArgs ws [] (ws.map .word) := by
  induction ws with
  | nil => exact .nil
  | cons w ws ih => exact .cons w .nil ih

theorem PrintsArgs.concat {ws : List Word} {w : Word} (h : PrintsArgs (w :: ws) rs ts)
    (hr : PrintsRedirs [r] t) : PrintsArgs (w :: ws) (rs ++ [r]) (ts ++ t) := by
  induction ws generalizing w rs ts with
  | nil =>
    cases h with
    | cons _ hredirs hrest =>
      cases hrest
      simp only [List.append_nil, List.cons_append]
      have hall := PrintsArgs.cons w (hredirs.concat hr) .nil
      rwa [List.append_nil, List.append_nil] at hall
  | cons w' ws ih =>
    cases h with
    | cons _ hredirs hrest =>
      rw [List.append_assoc, List.cons_append, List.append_assoc]
      exact .cons w hredirs (ih hrest)

theorem Prints.redir (h : Prints .exec cmd ts) (hr : PrintsRedirs [r] t) :
    Prints .exec (.redir cmd r.file r.mode r.fd) (ts ++ t) := by
  cases h with
  | @exec ws rs rs' ts ts' hredirs hargs hlen =>
    rw [← redircmds_concat, List.append_assoc, List.append_assoc]
    cases ws with
    | nil =>
      cases hargs
      have hall := Prints.exec (hredirs.concat hr) .nil hlen
      simpa only [List.append_nil, List.nil_append] using hall
    | cons w ws => exact .exec hredirs (hargs.concat hr) hlen
  | block hline hredirs =>
    rw [← redircmds_concat, List.cons_append, List.append_assoc, List.cons_append]
    exact .block hline (hredirs.concat hr)

theorem Prints.parens (h : Prints .line cmd ts) : Prints .exec cmd (parens ts) := .block h .nil

structure Cmd.Canonical (cmd : Cmd Word) : Prop where
  exec : Prints .exec cmd cmd.text.exec
  pipe : Prints .pipe cmd cmd.text.pipe
  back : ∃ k inner ts, Prints .pipe inner ts ∧ cmd = backs k inner ∧ cmd.text.back = ts ++ List.replicate k .amp
  line : Prints .line cmd cmd.text.line

theorem Prints.back (h : Prints .pipe cmd ts) :
    ∃ k inner ts', Prints .pipe inner ts' ∧ cmd = backs k inner ∧ ts = ts' ++ List.replicate k .amp :=
  ⟨0, cmd, ts, h, rfl, (List.append_nil ts).symm⟩

theorem Prints.oneLine (h : Prints .pipe cmd ts) : Prints .line cmd ts := by
  have hline := Prints.line 0 h
  rwa [List.replicate_zero, List.append_nil] at hline

theorem Cmd.WellFormed.canonical (h : cmd.WellFormed) : cmd.Canonical := by
  have hexec {cmd : Cmd Word} {ts : List Tok} (h : Prints .exec cmd ts) (he : cmd.text = ⟨ts, ts, ts, ts⟩) :
      cmd.Canonical := by
    constructor <;> rw [he]
    · exact h
    · exact h.last
    · exact h.last.back
    · exact h.last.oneLine
  induction cmd with
  | exec argv =>
    apply hexec _ rfl
    exact .exec .nil (PrintsArgs.words argv) (Nat.lt_succ_of_le h)
  | redir cmd file mode fd ih =>
    apply hexec _ rfl
    obtain ⟨hcmd, ⟨rfl, rfl⟩ | ⟨rfl, rfl⟩⟩ := h
    · exact (ih hcmd).exec.redir (.input file .nil)
    · exact (ih hcmd).exec.redir (.output file .nil)
  | pipe left right ihl ihr =>
    have hpipe : Prints .pipe (.pipe left right) _ := .pipe (ihl h.1).exec (ihr h.2).pipe
    exact ⟨hpipe.oneLine.parens, hpipe, hpipe.back, hpipe.oneLine⟩
  | list left right ihl ihr =>
    obtain ⟨k, inner, ts, hinner, rfl, htext⟩ := (ihl h.1).back
    have hline : Prints .line (.list (backs k inner) right) (Cmd.text (.list (backs k inner) right)).line := by
      rw [Cmd.text]
      dsimp only
      rw [htext, List.append_assoc]
      exact .list k hinner (ihr h.2).line
    exact ⟨hline.parens, hline.parens.last, hline.parens.last.back, hline⟩
  | back cmd ih =>
    obtain ⟨k, inner, ts, hinner, rfl, htext⟩ := (ih h).back
    have hback : backs (k + 1) inner = .back (backs k inner) := Function.iterate_succ_apply' _ _ _
    have hamp : (Cmd.text (.back (backs k inner))).line = ts ++ List.replicate (k + 1) .amp := by
      rw [Cmd.text, htext, List.replicate_succ', List.append_assoc]
    have hline : Prints .line (.back (backs k inner)) (Cmd.text (.back (backs k inner))).line := by
      rw [hamp, ← hback]
      exact .line (k + 1) hinner
    exact ⟨hline.parens, hline.parens.last, ⟨k + 1, inner, ts, hinner, hback.symm, hamp⟩, hline⟩

end

end Xv6.ShellParser
