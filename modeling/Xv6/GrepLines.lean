import Mathlib.Data.List.TakeWhile
import Xv6.GrepMatch
import Xv6.MemoryMoves
import Xv6.TextLines

namespace Xv6.Grep

open Xv6.Moves (Memory Ulib.memmove)
open Xv6.TextLines Function

def BUFSIZE : ℕ := 1024

def newline : UInt8 := '\n'.toUInt8

def strchr : Text → UInt8 → Option ℕ
  | [], _ => none
  | x :: s, c => if x = 0 then none else if x = c then some 0 else (strchr s c).map (· + 1)

theorem strchr_lt {s : Text} {c : UInt8} {i : ℕ} (h : strchr s c = some i) : i < s.length := by
  induction s generalizing i with
  | nil => cases h
  | cons x s ih =>
    rw [strchr] at h
    split_ifs at h
    · cases h
      exact Nat.succ_pos _
    · obtain ⟨j, hj, rfl⟩ := Option.map_eq_some_iff.mp h
      exact Nat.succ_lt_succ (ih hj)

def bytes (buf : Memory) (p n : ℕ) : Text := (List.range' p n).map buf

def stringAt (buf : Memory) (p : ℕ) : Text := bytes buf p (BUFSIZE - p)

theorem length_bytes (buf : Memory) (p n : ℕ) : (bytes buf p n).length = n := by
  rw [bytes, List.length_map, List.length_range']

structure Scan where
  buf : Memory
  p : ℕ
  out : Text

def scan (pattern : Text) (buf : Memory) (p : ℕ) (out : Text) : Scan :=
  match _h : strchr (stringAt buf p) newline with
  | none => ⟨buf, p, out⟩
  | some i =>
    let q := p + i
    let cut := Function.update buf q 0
    if matchText pattern (stringAt cut p) then
      let buf := Function.update cut q newline
      scan pattern buf (q + 1) (out ++ bytes buf p (q + 1 - p))
    else scan pattern cut (q + 1) out
termination_by BUFSIZE - p
decreasing_by
  all_goals
    have hlt := strchr_lt _h
    rw [stringAt, length_bytes] at hlt
    omega

structure State where
  buf : Memory
  m : ℕ
  out : Text

def fill (buf : Memory) (m : ℕ) (piece : Text) : Memory := fun a =>
  if m ≤ a ∧ a < m + piece.length then piece.getD (a - m) 0 else buf a

def keep (m : ℕ) (r : Scan) : State :=
  let m := if r.p = 0 then 0 else m
  if 0 < m then ⟨(Ulib.memmove r.buf 0 r.p ((m : ℤ) - r.p)).2, m - r.p, r.out⟩ else ⟨r.buf, m, r.out⟩

def round (pattern : Text) (s : State) (piece : Text) : State :=
  let m := s.m + piece.length
  keep m (scan pattern (Function.update (fill s.buf s.m piece) m 0) 0 s.out)

def grepFrom (pattern : Text) : State → List Text → State
  | s, [] => s
  | s, piece :: pieces => grepFrom pattern (round pattern s piece) pieces

def grep (pattern : Text) (buf : Memory) (pieces : List Text) : State := grepFrom pattern ⟨buf, 0, []⟩ pieces

def request (s : State) : ℕ := BUFSIZE - s.m - 1

/-- Each `read` finds at least one byte and no more than it was asked for. -/
def Served (pattern : Text) : State → List Text → Prop
  | _, [] => True
  | s, piece :: pieces => piece ≠ [] ∧ piece.length ≤ request s ∧ Served pattern (round pattern s piece) pieces

def printed (pattern s : Text) : Text := ((lines newline s).filter (matchText pattern)).flatMap (· ++ [newline])

def written (pattern : Text) : Text → List Text → Text
  | _, [] => []
  | carry, piece :: pieces =>
    if newline ∈ piece then
      printed pattern (carry ++ piece) ++ written pattern (rest newline (carry ++ piece)) pieces
    else written pattern [] pieces

section Buffers

variable {buf : Memory} {p n m a : ℕ} {b junk : Text} {x c : UInt8}

theorem bytes_add (buf : Memory) (p n k : ℕ) : bytes buf p (n + k) = bytes buf p n ++ bytes buf (p + n) k := by
  rw [bytes, bytes, bytes, ← List.map_append, List.range'_append_1]

theorem bytes_update_outside (h : a < p ∨ p + n ≤ a) : bytes (update buf a x) p n = bytes buf p n := by
  apply List.map_congr_left
  intro i hi
  rw [List.mem_range'_1] at hi
  apply update_of_ne
  omega

theorem bytes_singleton (buf : Memory) (p : ℕ) : bytes buf p 1 = [buf p] := rfl

theorem bytes_congr {buf' : Memory} {p' : ℕ} (h : ∀ i < n, buf' (p' + i) = buf (p + i)) :
    bytes buf' p' n = bytes buf p n := by
  apply List.ext_getElem
  · rw [length_bytes, length_bytes]
  · intro i hi _
    rw [length_bytes] at hi
    simp [bytes, h i hi]

theorem bytes_fill (buf : Memory) (m : ℕ) (piece : Text) : bytes (fill buf m piece) m piece.length = piece := by
  apply List.ext_getElem
  · rw [length_bytes]
  · intro i hi hlt
    simp [bytes, fill, hlt]

theorem bytes_fill_below (buf : Memory) (m : ℕ) (piece : Text) : bytes (fill buf m piece) 0 m = bytes buf 0 m := by
  apply bytes_congr
  intro i hi
  apply if_neg
  omega

theorem bytes_append {u v : Text} (h : bytes buf p (u.length + n) = u ++ v) :
    bytes buf p u.length = u ∧ bytes buf (p + u.length) n = v := by
  rw [bytes_add] at h
  exact List.append_inj h (length_bytes buf p u.length)

theorem stringAt_eq (hb : bytes buf p (b.length + 1) = b ++ [0]) (hp : p + b.length < BUFSIZE) :
    stringAt buf p = b ++ 0 :: bytes buf (p + (b.length + 1)) (BUFSIZE - p - (b.length + 1)) := by
  have hn : BUFSIZE - p = b.length + 1 + (BUFSIZE - p - (b.length + 1)) := by omega
  rw [stringAt, hn, bytes_add, hb, List.append_assoc, List.singleton_append, Nat.add_sub_cancel_left]

theorem strchr_none (hc : c ∉ b) (h0 : 0 ∉ b) : strchr (b ++ 0 :: junk) c = none := by
  induction b with
  | nil => rfl
  | cons x b ih =>
    rw [List.mem_cons, not_or] at hc h0
    rw [List.cons_append, strchr, if_neg (Ne.symm h0.1), if_neg (Ne.symm hc.1), ih hc.2 h0.2]
    rfl

theorem strchr_some (hc : c ∉ b) (h0 : 0 ∉ b) (hne : c ≠ 0) : strchr (b ++ c :: junk) c = some b.length := by
  induction b with
  | nil => rw [List.nil_append, strchr, if_neg hne, if_pos rfl, List.length_nil]
  | cons x b ih =>
    rw [List.mem_cons, not_or] at hc h0
    rw [List.cons_append, strchr, if_neg (Ne.symm h0.1), if_neg (Ne.symm hc.1), ih hc.2 h0.2]
    rfl

end Buffers

section Rounds

variable {pattern : Text} {buf : Memory} {p : ℕ} {out b piece carry : Text} {s : State}

variable {l : Text} {n : ℕ} {r : Scan}

theorem cstring_cut (junk : Text) (h : 0 ∉ l) : cstring (l ++ 0 :: junk) = cstring l := by
  have hl : ∀ x ∈ l, decide (x ≠ 0) = true := by
    intro x hx
    exact decide_eq_true (ne_of_mem_of_not_mem hx h)
  rw [cstring, cstring, List.takeWhile_append_of_pos hl, List.takeWhile_cons_of_neg (by decide), List.append_nil,
    List.takeWhile_eq_self_iff.mpr hl]

theorem matchText_cut (pattern junk : Text) (h : 0 ∉ l) :
    matchText pattern (l ++ 0 :: junk) = matchText pattern l := by
  rw [Bool.eq_iff_iff, match_iff, match_iff, cstring_cut junk h]

theorem printed_line (hl : newline ∉ l) (b : Text) :
    printed pattern (l ++ newline :: b) =
      (if matchText pattern l then l ++ [newline] else []) ++ printed pattern b := by
  rw [printed, lines_line hl, List.filter_cons]
  split_ifs
  · rw [List.flatMap_cons, printed]
  · rfl

structure Scanned (pattern : Text) (p : ℕ) (out b : Text) (r : Scan) : Prop where
  out : r.out = out ++ printed pattern b
  p : r.p + (rest newline b).length = p + b.length
  buf : bytes r.buf r.p ((rest newline b).length + 1) = rest newline b ++ [0]

theorem scan_none (h : strchr (stringAt buf p) newline = none) : scan pattern buf p out = ⟨buf, p, out⟩ := by
  rw [scan]
  split
  · rfl
  · rename_i hsome
    rw [h] at hsome
    cases hsome

theorem scan_some {i : ℕ} (h : strchr (stringAt buf p) newline = some i) :
    scan pattern buf p out =
      if matchText pattern (stringAt (update buf (p + i) 0) p) then
        scan pattern (update (update buf (p + i) 0) (p + i) newline) (p + i + 1)
          (out ++ bytes (update (update buf (p + i) 0) (p + i) newline) p (p + i + 1 - p))
      else scan pattern (update buf (p + i) 0) (p + i + 1) out := by
  rw [scan]
  split
  · rename_i hnone
    rw [h] at hnone
    cases hnone
  · rename_i j hj
    rw [h] at hj
    cases hj
    rfl

theorem scan_spec (hb : bytes buf p (b.length + 1) = b ++ [0]) (hp : p + b.length < BUFSIZE)
    (h0 : 0 ∉ b) (out : Text) : Scanned pattern p out b (scan pattern buf p out) := by
  induction b using lines_induction newline generalizing buf p out with
  | last b hline =>
    have hnone : strchr (stringAt buf p) newline = none := by
      rw [stringAt_eq hb hp]
      exact strchr_none hline h0
    rw [scan_none hnone]
    constructor
    · rw [printed, lines_of_notMem hline, List.filter_nil, List.flatMap_nil, List.append_nil]
    · rw [rest_of_notMem hline]
    · rw [rest_of_notMem hline]
      exact hb
  | line l b hl ih =>
    rw [List.mem_append, List.mem_cons, not_or, not_or] at h0
    obtain ⟨hl0, _, hb0⟩ := h0
    have hlen : (l ++ newline :: b).length + 1 = l.length + (b.length + 1 + 1) := by
      simp only [List.length_append, List.length_cons]
      omega
    rw [List.length_append, List.length_cons] at hp
    have hstring : stringAt buf p = l ++ newline :: (b ++ 0 :: bytes buf (p + ((l ++ newline :: b).length + 1))
        (BUFSIZE - p - ((l ++ newline :: b).length + 1))) := by
      rw [stringAt_eq hb (by rw [List.length_append, List.length_cons]; exact hp),
        List.append_assoc, List.cons_append]
    rw [hlen, List.append_assoc, List.cons_append] at hb
    obtain ⟨hline, htail⟩ := bytes_append hb
    have hrest : bytes buf (p + l.length + 1) (b.length + 1) = b ++ [0] := List.tail_eq_of_cons_eq htail
    have hsome : strchr (stringAt buf p) newline = some l.length := by
      rw [hstring]
      exact strchr_some hl hl0 (by decide)
    have hcut : bytes (update buf (p + l.length) 0) p (l.length + 1) = l ++ [0] := by
      rw [bytes_add, bytes_update_outside (by omega), hline, bytes_singleton, update_self]
    have hmatch : matchText pattern (stringAt (update buf (p + l.length) 0) p) = matchText pattern l := by
      rw [stringAt_eq hcut (by omega), matchText_cut pattern _ hl0]
    rw [scan_some hsome, hmatch]
    have hmove (buf' : Memory) (out' : Text) (htext : bytes buf' (p + l.length + 1) (b.length + 1) = b ++ [0])
        (hout : out' = out ++ if matchText pattern l then l ++ [newline] else []) :
        Scanned pattern p out (l ++ newline :: b) (scan pattern buf' (p + l.length + 1) out') := by
      obtain ⟨hwrite, hat, hleft⟩ := ih htext (by omega) hb0 out'
      constructor
      · rw [hwrite, hout, printed_line hl, List.append_assoc]
      · rw [rest_line, hat, List.length_append, List.length_cons]
        omega
      · rw [rest_line]
        exact hleft
    split_ifs with hm
    · apply hmove
      · rw [bytes_update_outside (by omega), bytes_update_outside (by omega), hrest]
      · rw [if_pos hm, Nat.add_assoc, Nat.add_sub_cancel_left, bytes_add, bytes_update_outside (by omega),
          bytes_update_outside (by omega), hline, bytes_singleton, update_self]
    · apply hmove
      · rw [bytes_update_outside (by omega), hrest]
      · rw [if_neg hm, List.append_nil]

structure Carries (carry : Text) (s : State) : Prop where
  m : s.m = carry.length
  buf : bytes s.buf 0 carry.length = carry
  clean : 0 ∉ carry
  unended : newline ∉ carry
  room : carry.length + 1 < BUFSIZE

theorem read_bytes (h : Carries carry s) (piece : Text) :
    bytes (update (fill s.buf s.m piece) (s.m + piece.length) 0) 0 ((carry ++ piece).length + 1) =
      carry ++ piece ++ [0] := by
  rw [List.length_append, bytes_add, bytes_singleton, bytes_add, Nat.zero_add, Nat.zero_add, ← h.m, update_self,
    bytes_update_outside (by omega), bytes_update_outside (by omega), bytes_fill, bytes_fill_below, h.m, h.buf]

theorem bytes_memmove (buf : Memory) (h : p + n ≤ 2 ^ 32) :
    bytes (Ulib.memmove buf 0 p n).2 0 n = bytes buf p n := by
  have hmoved : (Ulib.memmove buf 0 p n).2 = Moves.moved buf 0 p n := Moves.copyUp_moved (by omega) h (by omega)
  rw [hmoved]
  apply bytes_congr
  intro i hi
  rw [Moves.moved_inside (by omega) (by omega), Nat.sub_zero, Nat.zero_add]

theorem scanned_round (pattern : Text) (h : Carries carry s) (h0 : 0 ∉ piece) (hfit : piece.length ≤ request s) :
    Scanned pattern 0 s.out (carry ++ piece)
      (scan pattern (update (fill s.buf s.m piece) (s.m + piece.length) 0) 0 s.out) := by
  have hroom := h.room
  apply scan_spec (read_bytes h piece)
  · rw [request, h.m] at hfit
    rw [List.length_append]
    omega
  · rw [List.mem_append, not_or]
    exact ⟨h.clean, h0⟩

theorem keep_none {m : ℕ} (h : r.p = 0) : keep m r = ⟨r.buf, 0, r.out⟩ := by
  simp only [keep, if_pos h, Nat.lt_irrefl, if_false]

theorem keep_some (h : r.p ≠ 0) : keep (r.p + n) r = ⟨(Ulib.memmove r.buf 0 r.p n).2, n, r.out⟩ := by
  have hn : ((r.p + n : ℕ) : ℤ) - r.p = n := by omega
  simp only [keep, if_neg h]
  rw [if_pos (by omega), hn, Nat.add_sub_cancel_left]

theorem round_line (pattern : Text) (h : Carries carry s) (h0 : 0 ∉ piece) (hfit : piece.length ≤ request s)
    (hline : newline ∈ piece) :
    (round pattern s piece).out = s.out ++ printed pattern (carry ++ piece) ∧
      Carries (rest newline (carry ++ piece)) (round pattern s piece) := by
  obtain ⟨hout, hp, hbuf⟩ := scanned_round pattern h h0 hfit
  have hlt := length_rest_lt (List.mem_append_right carry hline)
  have hclean : 0 ∉ carry ++ piece := by
    rw [List.mem_append, not_or]
    exact ⟨h.clean, h0⟩
  rw [Nat.zero_add] at hp
  have hm : s.m + piece.length = (carry ++ piece).length := by rw [h.m, List.length_append]
  have hsize : (carry ++ piece).length < BUFSIZE := by
    have hroom := h.room
    rw [request, h.m] at hfit
    rw [List.length_append]
    omega
  rw [round]
  generalize scan pattern (update (fill s.buf s.m piece) (s.m + piece.length) 0) 0 s.out = r at hout hp hbuf ⊢
  rw [hm, ← hp, keep_some (by omega)]
  refine ⟨hout, rfl, ?_, fun hmem => hclean (mem_of_mem_rest hmem), notMem_rest newline _, by omega⟩
  rw [bytes_memmove]
  · exact (bytes_append hbuf).1
  · simp only [BUFSIZE] at hsize
    omega

theorem round_open (pattern : Text) (h : Carries carry s) (h0 : 0 ∉ piece) (hfit : piece.length ≤ request s)
    (hline : newline ∉ piece) : (round pattern s piece).out = s.out ∧ Carries [] (round pattern s piece) := by
  obtain ⟨hout, hp, _⟩ := scanned_round pattern h h0 hfit
  have hopen : newline ∉ carry ++ piece := by
    rw [List.mem_append, not_or]
    exact ⟨h.unended, hline⟩
  rw [rest_of_notMem hopen] at hp
  rw [printed, lines_of_notMem hopen, List.filter_nil, List.flatMap_nil, List.append_nil] at hout
  rw [round]
  generalize scan pattern (update (fill s.buf s.m piece) (s.m + piece.length) 0) 0 s.out = r at hout hp ⊢
  rw [keep_none (by omega)]
  exact ⟨hout, rfl, rfl, List.not_mem_nil, List.not_mem_nil, by decide⟩

theorem grepFrom_written {pieces : List Text} (h : Carries carry s) (h0 : ∀ piece ∈ pieces, 0 ∉ piece)
    (hserved : Served pattern s pieces) :
    (grepFrom pattern s pieces).out = s.out ++ written pattern carry pieces ∧
      ∃ left, Carries left (grepFrom pattern s pieces) := by
  induction pieces generalizing carry s with
  | nil => exact ⟨(List.append_nil s.out).symm, carry, h⟩
  | cons piece pieces ih =>
    obtain ⟨_, hfit, hserved⟩ := hserved
    obtain ⟨hpiece, hpieces⟩ := List.forall_mem_cons.mp h0
    rw [grepFrom, written]
    split_ifs with hline
    · obtain ⟨hout, hcarry⟩ := round_line pattern h hpiece hfit hline
      obtain ⟨hwritten, hleft⟩ := ih hcarry hpieces hserved
      rw [hwritten, hout, List.append_assoc]
      exact ⟨rfl, hleft⟩
    · obtain ⟨hout, hcarry⟩ := round_open pattern h hpiece hfit hline
      obtain ⟨hwritten, hleft⟩ := ih hcarry hpieces hserved
      rw [hwritten, hout]
      exact ⟨rfl, hleft⟩

end Rounds

section Lines

variable {pattern carry : Text} {pieces : List Text}

def InLines (pieces : List Text) : Prop := pieces.Pairwise fun piece later => newline ∈ later → newline ∈ piece

theorem printed_append (pattern s t : Text) :
    printed pattern (s ++ t) = printed pattern s ++ printed pattern (rest newline s ++ t) := by
  rw [printed, printed, printed, lines_append, List.filter_append, List.flatMap_append]

theorem printed_open {s : Text} (h : newline ∉ s) : printed pattern s = [] := by
  rw [printed, lines_of_notMem h]
  rfl

theorem written_open (h : ∀ piece ∈ pieces, newline ∉ piece) : written pattern carry pieces = [] := by
  induction pieces generalizing carry with
  | nil => rfl
  | cons piece pieces ih =>
    obtain ⟨hpiece, hpieces⟩ := List.forall_mem_cons.mp h
    rw [written, if_neg hpiece, ih hpieces]

theorem written_eq_printed (hcarry : newline ∉ carry) (h : InLines pieces) :
    written pattern carry pieces = printed pattern (carry ++ pieces.flatten) := by
  induction pieces generalizing carry with
  | nil => rw [List.flatten_nil, List.append_nil, written, printed_open hcarry]
  | cons piece pieces ih =>
    obtain ⟨hfirst, hrest⟩ := List.pairwise_cons.mp h
    rw [written, List.flatten_cons, ← List.append_assoc]
    split_ifs with hline
    · rw [printed_append pattern (carry ++ piece), ih (notMem_rest newline _) hrest]
    · have hopen : ∀ later ∈ pieces, newline ∉ later := fun later hlater hmem => hline (hfirst later hlater hmem)
      rw [written_open hopen, printed_open]
      simp only [List.mem_append, List.mem_flatten, not_or, not_exists, not_and]
      exact ⟨⟨hcarry, hline⟩, hopen⟩

theorem matchText_nil (text : Text) : matchText [] text = true := by
  rw [matchText, if_neg (by decide), matchFrom, matchhere]
  rfl

theorem length_printed_nil (s : Text) : (printed [] s).length + (rest newline s).length = s.length := by
  have hall : (lines newline s).filter (matchText []) = lines newline s :=
    List.filter_eq_self.mpr fun l _ => matchText_nil l
  rw [printed, hall, ← List.length_append, lines_rest]

theorem length_printed_append {s t : Text} (ht : newline ∈ t) :
    (printed [] (s ++ t)).length = s.length + (printed [] t).length := by
  have hall := length_printed_nil (s ++ t)
  have hlast := length_printed_nil t
  rw [rest_append_of_mem ht, List.length_append] at hall
  omega

theorem written_drop (hline : newline ∈ pieces.flatten) {s : Text} (hs : s ≠ [])
    (hle : (written [] [] pieces).length ≤ (printed [] pieces.flatten).length) :
    (written [] [] pieces).length < (printed [] (s ++ pieces.flatten)).length := by
  have hpos := List.length_pos_of_ne_nil hs
  rw [length_printed_append hline]
  omega

theorem length_written_le (hcarry : newline ∉ carry) (hne : ∀ piece ∈ pieces, piece ≠ []) :
    (written [] carry pieces).length ≤ (printed [] (carry ++ pieces.flatten)).length := by
  induction pieces generalizing carry with
  | nil => exact Nat.zero_le _
  | cons piece pieces ih =>
    obtain ⟨hpiece, hpieces⟩ := List.forall_mem_cons.mp hne
    rw [written, List.flatten_cons, ← List.append_assoc]
    split_ifs with hline
    · rw [printed_append [] (carry ++ piece), List.length_append, List.length_append]
      exact Nat.add_le_add_left (ih (notMem_rest newline _) hpieces) _
    · by_cases hlater : newline ∈ pieces.flatten
      · have hdrop := written_drop hlater (List.append_ne_nil_of_right_ne_nil carry hpiece)
          (ih List.not_mem_nil hpieces)
        exact Nat.le_of_lt hdrop
      · have hopen : ∀ later ∈ pieces, newline ∉ later := by
          intro later hmem hnl
          exact hlater (List.mem_flatten_of_mem hmem hnl)
        rw [written_open hopen]
        exact Nat.zero_le _

theorem inLines_of_written (hcarry : newline ∉ carry) (hne : ∀ piece ∈ pieces, piece ≠ [])
    (h : (written [] carry pieces).length = (printed [] (carry ++ pieces.flatten)).length) : InLines pieces := by
  induction pieces generalizing carry with
  | nil => exact .nil
  | cons piece pieces ih =>
    obtain ⟨hpiece, hpieces⟩ := List.forall_mem_cons.mp hne
    rw [written, List.flatten_cons, ← List.append_assoc] at h
    split_ifs at h with hline
    · rw [printed_append [] (carry ++ piece), List.length_append, List.length_append] at h
      apply List.Pairwise.cons
      · exact fun _ _ _ => hline
      · exact ih (notMem_rest newline _) hpieces (Nat.add_left_cancel h)
    · by_cases hlater : newline ∈ pieces.flatten
      · have hdrop := written_drop hlater (List.append_ne_nil_of_right_ne_nil carry hpiece)
          (length_written_le List.not_mem_nil hpieces)
        exact absurd h (Nat.ne_of_lt hdrop)
      · have hopen : ∀ later ∈ pieces, newline ∉ later := by
          intro later hmem hnl
          exact hlater (List.mem_flatten_of_mem hmem hnl)
        apply List.Pairwise.cons
        · exact fun later hmem hnl => absurd hnl (hopen later hmem)
        · exact List.pairwise_of_forall_mem_list fun _ _ later hmem hnl => absurd hnl (hopen later hmem)

end Lines

theorem carries_nothing (buf : Memory) : Carries [] ⟨buf, 0, []⟩ :=
  ⟨rfl, rfl, List.not_mem_nil, List.not_mem_nil, by decide⟩

variable {pattern : Text} {pieces : List Text} {buf : Memory}

theorem Served.ne_nil {s : State} (h : Served pattern s pieces) :
    ∀ piece ∈ pieces, piece ≠ [] := by
  induction pieces generalizing s with
  | nil => exact fun _ hpiece => absurd hpiece List.not_mem_nil
  | cons piece pieces ih => exact List.forall_mem_cons.mpr ⟨h.1, ih h.2.2⟩

theorem grep_written (h0 : ∀ piece ∈ pieces, 0 ∉ piece)
    (hserved : Served pattern ⟨buf, 0, []⟩ pieces) : (grep pattern buf pieces).out = written pattern [] pieces :=
  (grepFrom_written (carries_nothing buf) h0 hserved).1

theorem grep_lines_iff (buf : Memory) (pieces : List Text) (h0 : ∀ piece ∈ pieces, 0 ∉ piece)
    (hserved : ∀ pattern, Served pattern ⟨buf, 0, []⟩ pieces) :
    (∀ pattern, (grep pattern buf pieces).out = printed pattern pieces.flatten) ↔ InLines pieces := by
  constructor
  · intro h
    have hall := h []
    rw [grep_written h0 (hserved [])] at hall
    exact inLines_of_written List.not_mem_nil (hserved []).ne_nil (congrArg List.length hall)
  · intro h pattern
    rw [grep_written h0 (hserved pattern)]
    exact written_eq_printed List.not_mem_nil h

theorem grep_two_reads :
    InLines [[97, 10, 98], [99, 10]] ∧
      ∀ pattern, (grep pattern (fun _ => 0) [[97, 10, 98], [99, 10]]).out =
      printed pattern [97, 10, 98, 99, 10] := by
  have hlines : InLines [[97, 10, 98], [99, 10]] := by
    unfold InLines
    decide
  have hserved (pattern : Text) : Served pattern ⟨fun _ => 0, 0, []⟩ [[97, 10, 98], [99, 10]] := by
    have hround := round_line pattern (carries_nothing fun _ => 0)
      (show 0 ∉ ([97, 10, 98] : Text) by decide) (by decide) (by decide)
    refine ⟨by decide, by decide, by decide, ?_, trivial⟩
    rw [request, hround.2.m]
    decide
  exact ⟨hlines, (grep_lines_iff (fun _ => 0) [[97, 10, 98], [99, 10]] (by decide) hserved).mpr hlines⟩

theorem grep_loses_line :
    Served [] ⟨fun _ => 0, 0, []⟩ [[97], [98, 10]] ∧
      (grep [] (fun _ => 0) [[97], [98, 10]]).out ≠ printed [] [97, 98, 10] := by
  have hserved : Served [] ⟨fun _ => 0, 0, []⟩ [[97], [98, 10]] := by
    have hround := round_open [] (carries_nothing fun _ => 0)
      (show 0 ∉ ([97] : Text) by decide) (by decide) (by decide)
    refine ⟨by decide, by decide, by decide, ?_, trivial⟩
    rw [request, hround.2.m]
    decide
  refine ⟨hserved, ?_⟩
  rw [grep_written (by decide) hserved]
  intro h
  have hin := inLines_of_written List.not_mem_nil hserved.ne_nil (congrArg List.length h)
  revert hin
  unfold InLines
  decide

end Xv6.Grep
