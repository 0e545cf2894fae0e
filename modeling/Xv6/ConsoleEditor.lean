import Xv6.Console

namespace Xv6.Console

open Xv6.Runs Xv6.Rings Function

structure Represents (s : Input) (ed : Editor) : Prop where
  w : s.w = s.r + BitVec.ofNat 32 ed.committed.length
  e : s.e = s.w + BitVec.ofNat 32 ed.line.length
  room : ed.committed.length + ed.line.length ≤ INPUT_BUF
  cells : ∀ i < ed.committed.length + ed.line.length,
    (ed.committed ++ ed.line)[i]? = some (s.buf ((s.r.toNat + i) % INPUT_BUF))

section

variable {s : Input} {ed : Editor} {c : Byte} {rest : List Byte}

theorem slot_add (i : BitVec 32) (k : ℕ) : slot (i + BitVec.ofNat 32 k) = (i.toNat + k) % INPUT_BUF := by
  have hdvd : INPUT_BUF ∣ 2 ^ 32 := by decide
  rw [slot, BitVec.toNat_add, BitVec.toNat_ofNat, Nat.add_mod_mod, Nat.mod_mod_of_dvd _ hdvd]

theorem Represents.edit (h : Represents s ed) :
    s.e = s.r + BitVec.ofNat 32 (ed.committed.length + ed.line.length) := by
  rw [h.e, h.w, BitVec.add_assoc, BitVec.ofNat_add]

theorem add_ofNat_inj {i : BitVec 32} {k l : ℕ} (hk : k ≤ INPUT_BUF) (hl : l ≤ INPUT_BUF) :
    i + BitVec.ofNat 32 k = i + BitVec.ofNat 32 l ↔ k = l := by
  simp only [INPUT_BUF] at hk hl
  constructor
  · intro heq
    bv_omega
  · rintro rfl
    rfl

theorem Represents.no_line (h : Represents s ed) : s.e = s.w ↔ ed.line = [] := by
  have hroom := h.room
  have hw : s.w = s.w + BitVec.ofNat 32 0 := (BitVec.add_zero s.w).symm
  rw [h.e, ← List.length_eq_zero_iff]
  nth_rewrite 2 [hw]
  exact add_ofNat_inj (by omega) (Nat.zero_le _)

theorem Represents.no_committed (h : Represents s ed) : s.r = s.w ↔ ed.committed = [] := by
  have hroom := h.room
  have hr : s.r = s.r + BitVec.ofNat 32 0 := (BitVec.add_zero s.r).symm
  rw [h.w, ← List.length_eq_zero_iff]
  nth_rewrite 1 [hr]
  rw [add_ofNat_inj (Nat.zero_le _) (by omega)]
  exact eq_comm

theorem Represents.full (h : Represents s ed) :
    s.e = s.r + 128 ↔ ed.committed.length + ed.line.length = INPUT_BUF := by
  have h128 : (128 : BitVec 32) = BitVec.ofNat 32 INPUT_BUF := rfl
  rw [h.edit, h128]
  exact add_ofNat_inj h.room (Nat.le_refl _)

theorem Represents.unread (h : Represents s ed) : (s.e - s.r).toNat = ed.committed.length + ed.line.length := by
  have hroom := h.room
  simp only [INPUT_BUF] at hroom
  rw [h.edit]
  bv_omega

theorem Represents.uncommitted (h : Represents s ed) : (s.e - s.w).toNat = ed.line.length := by
  have hroom := h.room
  simp only [INPUT_BUF] at hroom
  rw [h.e]
  bv_omega

theorem Represents.append (h : Represents s ed)
    (hroom : ed.committed.length + ed.line.length < INPUT_BUF) (c : Byte) :
    Represents (s.append c) { ed with line := ed.line ++ [c] } where
  w := h.w
  e := by
    rw [List.length_append, List.length_singleton, BitVec.ofNat_add, ← BitVec.add_assoc]
    exact congrArg (· + 1) h.e
  room := by
    simp only [List.length_append, List.length_singleton]
    omega
  cells := by
    intro i hi
    simp only [List.length_append, List.length_singleton] at hi
    have hslot : slot s.e = (s.r.toNat + (ed.committed.length + ed.line.length)) % INPUT_BUF := by
      rw [h.edit, slot_add]
    simp only [← List.append_assoc, Input.append, hslot]
    by_cases hlast : i = ed.committed.length + ed.line.length
    · rw [hlast, update_self, ← List.length_append]
      exact List.getElem?_concat_length
    · have hold : i < ed.committed.length + ed.line.length := by omega
      have hne := slot_ne (Nat.add_lt_add_left hold s.r.toNat) (by omega : _ < s.r.toNat + i + INPUT_BUF)
      rw [update_of_ne hne, List.getElem?_append_left (by rwa [List.length_append])]
      exact h.cells i hold

theorem Represents.commit (h : Represents s ed) : Represents { s with w := s.e } ed.commit where
  w := by
    simp only [Editor.commit, List.length_append]
    exact h.edit
  e := (BitVec.add_zero s.e).symm
  room := by
    simp only [Editor.commit, List.length_append, List.length_nil]
    exact h.room
  cells := by
    simp only [Editor.commit, List.length_append, List.length_nil, List.append_nil]
    exact h.cells

theorem Represents.backspace (h : Represents s ed) (hline : ed.line ≠ []) :
    Represents { s with e := s.e - 1 } { ed with line := ed.line.dropLast } := by
  obtain ⟨l, c, hl⟩ := List.eq_nil_or_concat'  ed.line |>.resolve_left hline
  have hlength : ed.line.length = l.length + 1 := by rw [hl, List.length_append, List.length_singleton]
  have hroom := h.room
  rw [hl, List.dropLast_concat]
  refine ⟨h.w, ?_, by simp only; omega, fun i hi => ?_⟩
  · simp only
    rw [h.e, hlength, BitVec.ofNat_add, ← BitVec.add_assoc]
    exact BitVec.add_sub_cancel _ _
  · simp only at hi ⊢
    have hcell := h.cells i (by omega)
    rw [hl, ← List.append_assoc, List.getElem?_append_left (by rw [List.length_append]; omega)] at hcell
    exact hcell

theorem Represents.last (h : Represents s ed) {l : List Byte} (hl : ed.line = l ++ [c]) :
    s.buf (slot (s.e - 1)) = c := by
  have hlength : ed.line.length = l.length + 1 := by rw [hl, List.length_append, List.length_singleton]
  have hlast := h.cells (ed.committed.length + l.length) (by omega)
  rw [hl, ← List.append_assoc, ← List.length_append, List.getElem?_concat_length] at hlast
  have hslot : slot (s.e - 1) = (s.r.toNat + (ed.committed.length + l.length)) % INPUT_BUF := by
    rw [← slot_add, h.edit, hlength, ← Nat.add_assoc, BitVec.ofNat_add _ 1, ← BitVec.add_assoc]
    congr 1
    exact BitVec.add_sub_cancel _ _
  rw [hslot, ← List.length_append]
  exact (Option.some.inj hlast).symm

theorem Represents.killLine (h : Represents s ed) (hplain : newline ∉ ed.line) {rounds : ℕ}
    (hrounds : ed.line.length ≤ rounds) : Represents (killLine rounds s) { ed with line := [] } := by
  induction rounds generalizing s ed with
  | zero =>
    have hnil : ed.line = [] := List.length_eq_zero_iff.mp (by omega)
    have hsame : ({ ed with line := [] } : Editor) = ed := by rw [← hnil]
    rw [hsame]
    exact h
  | succ rounds ih =>
    unfold Console.killLine
    by_cases hnil : ed.line = []
    · have hsame : ({ ed with line := [] } : Editor) = ed := by rw [← hnil]
      rw [if_neg fun hc => hc.1 (h.no_line.mpr hnil), hsame]
      exact h
    · obtain ⟨l, c, hl⟩ := List.eq_nil_or_concat' ed.line |>.resolve_left hnil
      have hc : c ≠ newline := by
        rintro rfl
        exact hplain (by simp [hl])
      have hgo : s.e ≠ s.w ∧ s.buf (slot (s.e - 1)) ≠ newline :=
        ⟨fun heq => hnil (h.no_line.mp heq), h.last hl ▸ hc⟩
      rw [if_pos hgo]
      have hstep := h.backspace hnil
      have hless : ed.line.dropLast.length ≤ rounds := by
        rw [List.length_dropLast]
        omega
      have hrest := ih hstep (fun hin => hplain (List.dropLast_subset _ hin)) hless
      exact hrest

theorem firstLine_cons (c : Byte) (l : List Byte) :
    firstLine (c :: l) = if c = newline then [c] else c :: firstLine l := by
  split_ifs with hc
  · simp [firstLine, hc]
  · simp [firstLine, hc]

theorem read_zero (target : ℕ) (ed : Editor) : ed.read target 0 = ⟨ed, [], false, .returns 0⟩ := by
  simp [Editor.read, firstLine]

theorem read_nil (target n : ℕ) (hnil : ed.committed = []) :
    ed.read target (n + 1) = ⟨ed, [], false, .sleeps (n + 1)⟩ := by
  obtain ⟨committed, line, log⟩ := ed
  obtain rfl : committed = [] := hnil
  simp [Editor.read, firstLine]

theorem read_eof (target n : ℕ) (hcons : ed.committed = C 'D' :: rest) :
    ed.read target (n + 1) =
      if n + 1 < target then ⟨ed, [], false, .returns (n + 1)⟩
      else ⟨{ ed with committed := rest }, [], true, .returns (n + 1)⟩ := by
  obtain ⟨committed, line, log⟩ := ed
  obtain rfl : committed = C 'D' :: rest := hcons
  simp [Editor.read, firstLine]

theorem read_newline (target n : ℕ) (hcons : ed.committed = newline :: rest) :
    ed.read target (n + 1) = ⟨{ ed with committed := rest }, [newline], false, .returns n⟩ := by
  have hne : (newline != C 'D') = true := by decide
  simp [Editor.read, hcons, hne, firstLine_cons]

theorem read_char (target n : ℕ) (hcons : ed.committed = c :: rest) (heof : c ≠ C 'D')
    (hline : c ≠ newline) :
    ed.read target (n + 1) =
      { Editor.read target n { ed with committed := rest } with
        bytes := c :: (Editor.read target n { ed with committed := rest }).bytes } := by
  have hbytes : firstLine ((ed.committed.takeWhile (· != C 'D')).take (n + 1)) =
      c :: firstLine ((rest.takeWhile (· != C 'D')).take n) := by
    rw [hcons, List.takeWhile_cons, if_pos (by simpa using heof), List.take_succ_cons,
      firstLine_cons, if_neg hline]
  simp only [Editor.read, hbytes]
  generalize firstLine ((rest.takeWhile (· != C 'D')).take n) = bytes
  have hlast : (c :: bytes).getLast? = some newline ↔ bytes.getLast? = some newline := by
    cases bytes with
    | nil => simp [hline]
    | cons b bytes => rw [List.getLast?_cons_cons]
  simp only [hcons, List.length_cons, List.drop_succ_cons, Nat.add_sub_add_right, hlast]
  cases rest.drop bytes.length with
  | nil =>
    split_ifs
    · rfl
    · rfl
    · rfl
  | cons d after =>
    split_ifs
    · rfl
    · rfl
    · rfl

theorem Represents.pop (h : Represents s ed) (hcons : ed.committed = c :: rest) :
    s.buf (slot s.r) = c ∧ Represents { s with r := s.r + 1 } { ed with committed := rest } := by
  have hlength : ed.committed.length = rest.length + 1 := by rw [hcons, List.length_cons]
  have hroom := h.room
  constructor
  · have hfirst := h.cells 0 (by omega)
    rw [hcons, List.cons_append, List.getElem?_cons_zero, Nat.add_zero] at hfirst
    exact (Option.some.inj hfirst).symm
  · refine ⟨?_, h.e, by simp only; omega, fun i hi => ?_⟩
    · simp only
      rw [h.w, hlength, Nat.add_comm, BitVec.ofNat_add, ← BitVec.add_assoc]
      rfl
    · simp only at hi ⊢
      have hcell := h.cells (i + 1) (by omega)
      rw [hcons, List.cons_append, List.getElem?_cons_succ, Nat.add_comm i, ← Nat.add_assoc] at hcell
      have hnext := slot_add (s.r + 1) i
      have hslot := slot_add s.r (1 + i)
      rw [BitVec.ofNat_add, ← BitVec.add_assoc] at hslot
      rw [hcell, ← hnext, Nat.add_assoc, ← hslot]
      rfl

structure Agrees {σ τ : Type} (R : σ → τ → Prop) (x : Stretch σ) (y : Stretch τ) : Prop where
  device : R x.device y.device
  bytes : x.bytes = y.bytes
  eof : x.eof = y.eof
  outcome : x.outcome = y.outcome

def Shows (s : Input) (ed : Editor) : Prop := Represents s ed ∧ newline ∉ ed.line

theorem readLoop_agrees (h : Shows s ed) (target n : ℕ) :
    Agrees Shows (readLoop target n s) (ed.read target n) := by
  induction n generalizing s ed with
  | zero =>
    rw [read_zero]
    exact ⟨h, rfl, rfl, rfl⟩
  | succ n ih =>
    unfold readLoop
    cases hcommitted : ed.committed with
    | nil =>
      rw [if_pos (h.1.no_committed.mpr hcommitted), read_nil target n hcommitted]
      exact ⟨h, rfl, rfl, rfl⟩
    | cons c rest =>
      have hne : s.r ≠ s.w := by
        rw [Ne, h.1.no_committed, hcommitted]
        exact List.cons_ne_nil c rest
      obtain ⟨hc, hpop⟩ := h.1.pop hcommitted
      have hnext : Shows { s with r := s.r + 1 } { ed with committed := rest } := ⟨hpop, h.2⟩
      rw [if_neg hne]
      simp only [hc]
      split_ifs with heof hagain hline
      · -- The byte is put back.
        subst heof
        rw [read_eof target n hcommitted, if_pos hagain, BitVec.add_sub_cancel]
        exact ⟨h, rfl, rfl, rfl⟩
      · subst heof
        rw [read_eof target n hcommitted, if_neg hagain]
        exact ⟨hnext, rfl, rfl, rfl⟩
      · subst hline
        rw [read_newline target n hcommitted]
        exact ⟨hnext, rfl, rfl, rfl⟩
      · rw [read_char target n hcommitted heof hline]
        have hrest := ih hnext
        exact ⟨hrest.device, congrArg (c :: ·) hrest.bytes, hrest.eof, hrest.outcome⟩

theorem erase_shows (h : Shows s ed) :
    Shows (if s.e ≠ s.w then { s with e := s.e - 1 } else s) { ed with line := ed.line.dropLast } := by
  by_cases hnil : ed.line = []
  · have hsame : ({ ed with line := ed.line.dropLast } : Editor) = ed := by rw [hnil, List.dropLast_nil, ← hnil]
    rw [if_neg (not_not_intro (h.1.no_line.mpr hnil)), hsame]
    exact h
  · rw [if_pos fun heq => hnil (h.1.no_line.mp heq)]
    exact ⟨h.1.backspace hnil, fun hin => h.2 (List.dropLast_subset _ hin)⟩

theorem key_shows (h : Shows s ed) (c : Byte) : Shows (key s c).1 (ed.key c).1 ∧ (key s c).2 = (ed.key c).2 := by
  unfold key Editor.key
  by_cases hdump : c = C 'P'
  · rw [if_pos hdump, if_pos hdump]
    exact ⟨h, rfl⟩
  rw [if_neg hdump, if_neg hdump]
  by_cases hkill : c = C 'U'
  · rw [if_pos hkill, if_pos hkill]
    exact ⟨⟨h.1.killLine h.2 (Nat.le_of_eq h.1.uncommitted.symm), List.not_mem_nil⟩, rfl⟩
  rw [if_neg hkill, if_neg hkill]
  by_cases herase : c = C 'H' ∨ c = delete
  · rw [if_pos herase, if_pos herase]
    exact ⟨erase_shows h, rfl⟩
  rw [if_neg herase, if_neg herase, h.1.unread]
  by_cases hroom : c ≠ 0 ∧ ed.committed.length + ed.line.length < INPUT_BUF
  · rw [if_pos hroom, if_pos hroom]
    generalize (if c = carriageReturn then newline else c) = c
    have happend := h.1.append hroom.2 c
    simp only [happend.full]
    split_ifs with hcommit
    · exact ⟨⟨happend.commit, List.not_mem_nil⟩, rfl⟩
    · refine ⟨⟨happend, fun hin => ?_⟩, rfl⟩
      rcases List.mem_append.mp hin with hin | hin
      · exact h.2 hin
      · exact hcommit (.inl (List.mem_singleton.mp hin).symm)
  · rw [if_neg hroom, if_neg hroom]
    exact ⟨h, rfl⟩

theorem consoleintr_shows (h : Shows s ed) (chars : List Byte) :
    Shows (consoleintr ring s chars).1 (consoleintr editor ed chars).1 ∧
      (consoleintr ring s chars).2 = (consoleintr editor ed chars).2 := by
  induction chars generalizing s ed with
  | nil => exact ⟨h, rfl⟩
  | cons c chars ih =>
    obtain ⟨hfirst, hwake⟩ := key_shows h c
    obtain ⟨hrest, hwake'⟩ := ih hfirst
    exact ⟨hrest, congrArg₂ or hwake hwake'⟩

end

section

variable {Thread : Type} [DecidableEq Thread]

structure Matches (s : State Input Thread) (t : State Editor Thread) : Prop where
  device : Shows s.device t.device
  stage : s.stage = t.stage
  calls : s.calls = t.calls
  consumed : s.consumed = t.consumed

variable {t : State Editor Thread} {n : ℕ} {ed : Editor} {consumed got : List Byte} {u : Thread}

theorem consoleread_matches {s : State Input Thread} (h : Matches s t) (u : Thread)
    (target : ℕ) (got : List Byte) {x : Stretch Input} {y : Stretch Editor}
    (hxy : Agrees Shows x y) (killed : Bool) :
    Matches (consoleread s u target got x killed) (consoleread t u target got y killed) := by
  obtain ⟨device, bytes, eof, outcome⟩ := x
  obtain ⟨device', bytes', eof', outcome'⟩ := y
  obtain ⟨hdevice, rfl, rfl, rfl⟩ := hxy
  have hdone (value : ℤ) : Matches
      ⟨device, update s.stage u .idle, s.calls ++ [⟨u, target, value, got ++ bytes⟩],
        s.consumed ++ bytes ++ if eof then [C 'D'] else []⟩
      ⟨device', update t.stage u .idle, t.calls ++ [⟨u, target, value, got ++ bytes⟩],
        t.consumed ++ bytes ++ if eof then [C 'D'] else []⟩ :=
    ⟨hdevice, by rw [h.stage], by rw [h.calls], by rw [h.consumed]⟩
  cases outcome with
  | returns n => exact hdone _
  | sleeps n =>
    cases killed with
    | true => exact hdone _
    | false =>
      exact ⟨hdevice, by simp only [consoleread, h.stage]; rfl, h.calls,
        by simp only [consoleread, h.consumed]; rfl⟩

theorem step_matches (s : State Input Thread) (t : State Editor Thread) (e : Event Thread) (h : Matches s t) :
    Option.Rel Matches (step ring s e) (step editor t e) := by
  cases e with
  | intr chars =>
    obtain ⟨hdevice, hwake⟩ := consoleintr_shows h.device chars
    refine .some ⟨hdevice, ?_, h.calls, h.consumed⟩
    simp only [hwake, h.stage]
  | read u n =>
    simp only [step, h.stage]
    split_ifs
    · exact .some ⟨h.device, rfl, h.calls, h.consumed⟩
    · exact .none
  | run u killed =>
    simp only [step, h.stage]
    cases t.stage u with
    | idle => exact .none
    | asleep target n got => exact .none
    | reading target n got =>
      exact .some (consoleread_matches h u target got (readLoop_agrees h.device target n) killed)
  | wake u => exact .some ⟨h.device, by rw [h.stage], h.calls, h.consumed⟩

structure Takes (n : ℕ) (ed : Editor) (x : Stretch Editor) : Prop where
  line : x.device.line = ed.line
  log : x.device.log = ed.log
  committed : ed.committed = x.bytes ++ (if x.eof then [C 'D'] else []) ++ x.device.committed
  no_eof : C 'D' ∉ x.bytes
  one_line : newline ∉ x.bytes.dropLast
  returns : ∀ m, x.outcome = .returns m → x.bytes.length + m = n
  sleeps : ∀ m, x.outcome = .sleeps m → x.bytes.length + m = n ∧ newline ∉ x.bytes ∧ x.eof = false

theorem Takes.cons {c : Byte} {rest : List Byte} (hcons : ed.committed = c :: rest)
    (heof : c ≠ C 'D') (hline : c ≠ newline) {x : Stretch Editor} (h : Takes n { ed with committed := rest } x) :
    Takes (n + 1) ed { x with bytes := c :: x.bytes } where
  line := h.line
  log := h.log
  committed := by
    rw [hcons, List.cons_append, List.cons_append]
    exact congrArg (c :: ·) h.committed
  no_eof := by
    rw [List.mem_cons]
    rintro (heq | hin)
    · exact heof heq.symm
    · exact h.no_eof hin
  one_line := by
    intro hin
    cases hbytes : x.bytes with
    | nil =>
      rw [hbytes] at hin
      cases hin
    | cons b bytes =>
      rw [hbytes, List.dropLast_cons_cons, ← hbytes, List.mem_cons] at hin
      rcases hin with heq | hin
      · exact hline heq.symm
      · exact h.one_line hin
  returns := by
    intro m hm
    have := h.returns m hm
    simp only [List.length_cons]
    omega
  sleeps := by
    intro m hm
    obtain ⟨hlength, hin, hkeep⟩ := h.sleeps m hm
    refine ⟨by simp only [List.length_cons]; omega, ?_, hkeep⟩
    rw [List.mem_cons]
    rintro (heq | hmem)
    · exact hline heq.symm
    · exact hin hmem

theorem read_takes (target n : ℕ) (ed : Editor) : Takes n ed (ed.read target n) := by
  induction n generalizing ed with
  | zero =>
    rw [read_zero]
    exact ⟨rfl, rfl, rfl, List.not_mem_nil, List.not_mem_nil, by simp, by simp⟩
  | succ n ih =>
    cases hcommitted : ed.committed with
    | nil =>
      rw [read_nil target n hcommitted]
      exact ⟨rfl, rfl, rfl, List.not_mem_nil, List.not_mem_nil, by simp, by simp⟩
    | cons c rest =>
      by_cases heof : c = C 'D'
      · subst heof
        rw [read_eof target n hcommitted]
        split_ifs
        · exact ⟨rfl, rfl, rfl, List.not_mem_nil, List.not_mem_nil, by simp, by simp⟩
        · exact ⟨rfl, rfl, hcommitted, List.not_mem_nil, List.not_mem_nil, by simp, by simp⟩
      by_cases hline : c = newline
      · subst hline
        rw [read_newline target n hcommitted]
        have hbyte : C 'D' ∉ [newline] := fun hin => heof (List.mem_singleton.mp hin).symm
        exact ⟨rfl, rfl, hcommitted, hbyte, List.not_mem_nil, by simp [Nat.add_comm], by simp⟩
      · rw [read_char target n hcommitted heof hline]
        exact (ih _).cons hcommitted heof hline

def Stage.Partial : Stage → Prop
  | .idle => True
  | .reading target n got | .asleep target n got => got.length + n = target ∧ C 'D' ∉ got ∧ newline ∉ got

theorem Stage.Partial.wakeup {stage : Stage} (h : stage.Partial) : stage.wakeup.Partial := by
  cases stage with
  | idle => exact h
  | reading target n got => exact h
  | asleep target n got => exact h

structure Call.Proper (c : Call Thread) : Prop where
  value : c.value = c.bytes.length ∨ c.value = -1
  length : c.bytes.length ≤ c.target
  no_eof : C 'D' ∉ c.bytes
  one_line : newline ∉ c.bytes.dropLast

structure Sound (t : State Editor Thread) : Prop where
  log : t.device.log = t.consumed ++ t.device.committed
  stage : ∀ u, (t.stage u).Partial
  calls : ∀ c ∈ t.calls, c.Proper

theorem dropLast_append_plain {bytes : List Byte} (hgot : newline ∉ got) (hbytes : newline ∉ bytes.dropLast) :
    newline ∉ (got ++ bytes).dropLast := by
  cases bytes with
  | nil =>
    rw [List.append_nil]
    exact fun hin => hgot (List.dropLast_subset _ hin)
  | cons b bytes =>
    rw [List.dropLast_append_of_ne_nil (List.cons_ne_nil b bytes), List.mem_append]
    rintro (hin | hin)
    · exact hgot hin
    · exact hbytes hin

theorem update_partial {stage : Thread → Stage} (h : ∀ u, (stage u).Partial) {x : Stage} (hx : x.Partial)
    (v : Thread) : (update stage u x v).Partial := by
  obtain rfl | hne := eq_or_ne v u
  · rwa [update_self]
  · rw [update_of_ne hne]
    exact h v

theorem consoleread_sound (h : Sound t) {target : ℕ}
    (hu : t.stage u = .reading target n got) (killed : Bool) :
    Sound (consoleread t u target got (t.device.read target n) killed) := by
  have hstage := h.stage u
  rw [hu] at hstage
  obtain ⟨hlength, hgot, hplain⟩ := hstage
  have htakes := read_takes target n t.device
  generalize t.device.read target n = x at htakes
  have hnoeof : C 'D' ∉ got ++ x.bytes := by
    rw [List.mem_append]
    rintro (hin | hin)
    · exact hgot hin
    · exact htakes.no_eof hin
  have hlog : x.device.log = t.consumed ++ x.bytes ++ (if x.eof then [C 'D'] else []) ++ x.device.committed := by
    rw [htakes.log, h.log, htakes.committed]
    simp only [List.append_assoc]
  have hdone (value : ℤ) (hvalue : value = (got ++ x.bytes).length ∨
    value = -1) (hle : (got ++ x.bytes).length ≤ target) :
      Sound (⟨x.device, update t.stage u .idle, t.calls ++ [⟨u, target, value, got ++ x.bytes⟩],
        t.consumed ++ x.bytes ++ if x.eof then [C 'D'] else []⟩ : State Editor Thread) := by
    refine ⟨hlog, update_partial h.stage trivial, fun c hc => ?_⟩
    rcases List.mem_append.mp hc with hc | hc
    · exact h.calls c hc
    · rw [List.mem_singleton.mp hc]
      exact ⟨hvalue, hle, hnoeof, dropLast_append_plain hplain htakes.one_line⟩
  cases houtcome : x.outcome with
  | returns m =>
    have hm := htakes.returns m houtcome
    have hend : (got ++ x.bytes).length + m = target := by
      rw [List.length_append]
      omega
    rw [consoleread, houtcome]
    exact hdone _ (.inl (by omega)) (by omega)
  | sleeps m =>
    obtain ⟨hm, hbytes, hkeep⟩ := htakes.sleeps m houtcome
    have hend : (got ++ x.bytes).length + m = target := by
      rw [List.length_append]
      omega
    rw [consoleread, houtcome]
    cases killed with
    | true => exact hdone _ (.inr rfl) (by omega)
    | false =>
      have hline : newline ∉ got ++ x.bytes := by
        rw [List.mem_append]
        rintro (hin | hin)
        · exact hplain hin
        · exact hbytes hin
      rw [hkeep, if_neg Bool.false_ne_true, List.append_nil] at hlog
      exact ⟨hlog, update_partial h.stage ⟨hend, hnoeof, hline⟩, h.calls⟩

theorem Editor.key_log (ed : Editor) (h : ed.log = consumed ++ ed.committed) (c : Byte) :
    (ed.key c).1.log = consumed ++ (ed.key c).1.committed := by
  unfold Editor.key
  generalize (if c = carriageReturn then newline else c) = d
  dsimp only
  split_ifs
  · exact h
  · exact h
  · exact h
  · simp only [Editor.commit, h, List.append_assoc]
  · exact h
  · exact h

theorem consoleintr_log (chars : List Byte) (h : ed.log = consumed ++ ed.committed) :
    (consoleintr editor ed chars).1.log = consumed ++ (consoleintr editor ed chars).1.committed := by
  induction chars generalizing ed with
  | nil => exact h
  | cons c chars ih => exact ih (ed.key_log h c)

theorem sound_preserved : Preserves (step editor) Always (Sound : State Editor Thread → Prop) := by
  intro t e t' h _ hstep
  cases e with
  | intr chars =>
    cases hstep
    refine ⟨consoleintr_log chars h.log, fun u => ?_, h.calls⟩
    simp only
    split_ifs
    · exact (h.stage u).wakeup
    · exact h.stage u
  | read u n =>
    simp only [step, Option.ite_none_right_eq_some, Option.some.injEq] at hstep
    obtain ⟨_, rfl⟩ := hstep
    exact ⟨h.log, update_partial h.stage ⟨Nat.zero_add _, List.not_mem_nil, List.not_mem_nil⟩, h.calls⟩
  | run u killed =>
    simp only [step] at hstep
    cases hu : t.stage u with
    | idle =>
      rw [hu] at hstep
      cases hstep
    | asleep target n got =>
      rw [hu] at hstep
      cases hstep
    | reading target n got =>
      rw [hu] at hstep
      cases hstep
      exact consoleread_sound h hu killed
  | wake u =>
    cases hstep
    exact ⟨h.log, update_partial h.stage (h.stage u).wakeup, h.calls⟩

def Input.Ordered (s : Input) : Prop :=
  (s.w - s.r).toNat ≤ (s.e - s.r).toNat ∧ (s.e - s.r).toNat = (s.w - s.r).toNat + (s.e - s.w).toNat ∧
    (s.e - s.r).toNat ≤ INPUT_BUF

theorem Represents.ordered {s : Input} (h : Represents s ed) : s.Ordered := by
  have hroom := h.room
  have hcommitted : (s.w - s.r).toNat = ed.committed.length := by
    simp only [INPUT_BUF] at hroom
    rw [h.w]
    bv_omega
  rw [Input.Ordered, h.unread, h.uncommitted, hcommitted]
  omega

def emptyInput (buf : ℕ → Byte) (i : BitVec 32) : Input := ⟨buf, i, i, i⟩

theorem emptyInput_shows (buf : ℕ → Byte) (i : BitVec 32) : Shows (emptyInput buf i) ⟨[], [], []⟩ := by
  refine ⟨⟨?_, ?_, Nat.zero_le _, fun k hk => absurd hk (Nat.not_lt_zero k)⟩, List.not_mem_nil⟩
  · exact (BitVec.add_zero i).symm
  · exact (BitVec.add_zero i).symm

theorem console_refines_editor (buf : ℕ → Byte) (i : BitVec 32) (es : List (Event Thread)) :
    (exec (step ring) Always (start (emptyInput buf i)) es).isSome =
        (exec (step editor) Always (start ⟨[], [], []⟩) es).isSome ∧
      ∀ s t, exec (step ring) Always (start (emptyInput buf i)) es = some s →
        exec (step editor) Always (start ⟨[], [], []⟩) es = some t →
        s.device.Ordered ∧ s.stage = t.stage ∧ s.calls = t.calls ∧ s.consumed = t.consumed ∧
          t.device.log = t.consumed ++ t.device.committed ∧ ∀ c ∈ t.calls, c.Proper := by
  have hstart : Matches (start (emptyInput buf i) : State Input Thread) (start ⟨[], [], []⟩) :=
    ⟨emptyInput_shows buf i, rfl, rfl, rfl⟩
  have hrel := exec_rel step_matches es hstart
  have hsound : Sound (start ⟨[], [], []⟩ : State Editor Thread) := ⟨rfl, fun _ => trivial, by simp [start]⟩
  constructor
  · cases hs : exec (step ring) Always (start (emptyInput buf i)) es with
    | none =>
      rw [hs] at hrel
      cases ht : exec (step editor) Always (start ⟨[], [], []⟩) es with
      | none => rfl
      | some t =>
        rw [ht] at hrel
        cases hrel
    | some s =>
      rw [hs] at hrel
      cases ht : exec (step editor) Always (start ⟨[], [], []⟩) es with
      | none =>
        rw [ht] at hrel
        cases hrel
      | some t => rfl
  · intro s t hs ht
    rw [hs, ht] at hrel
    cases hrel with
    | some hm =>
      have hend := (exec_reaches ht).invariant sound_preserved hsound
      exact ⟨hm.device.1.ordered, hm.stage, hm.calls, hm.consumed, hend.log, hend.calls⟩

def typing : List (Event Unit) :=
  [.intr [97, 98, 8, 99], .read () 2, .run () false, .intr [13, 4], .run () false, .read () 5, .run () false,
    .read () 5, .run () false]

theorem console_refines_editor_typing : ∃ s t,
    exec (step ring) Always (start (emptyInput (fun _ => 0) 0xfffffffe)) typing = some s ∧
      exec (step editor) Always (start ⟨[], [], []⟩) typing = some t ∧
      t.calls.map (fun c => (c.value, c.bytes)) = [(2, [97, 99]), (1, [10]), (0, [])] ∧
      s.device.Ordered ∧ s.stage = t.stage ∧ s.calls = t.calls ∧ s.consumed = t.consumed ∧
      t.device.log = t.consumed ++ t.device.committed ∧ ∀ c ∈ t.calls, c.Proper :=
  ⟨_, _, rfl, rfl, by decide, (console_refines_editor (fun _ => 0) 0xfffffffe typing).2 _ _ rfl rfl⟩

end

end Xv6.Console
