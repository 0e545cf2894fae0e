import Mathlib.Data.List.Basic

namespace Xv6.TextLines

variable {α : Type} [DecidableEq α]

def lines (sep : α) (s : List α) : List (List α) := (s.splitOn sep).dropLast

def rest (sep : α) (s : List α) : List α := (s.splitOn sep).getLastD []

variable {sep : α} {s t l : List α}

theorem splitOn_of_notMem (h : sep ∉ s) : s.splitOn sep = [s] := by
  apply List.splitOn_eq_singleton_of_beq_eq_false
  intro x hx
  exact beq_eq_false_iff_ne.mpr (ne_of_mem_of_not_mem hx h)

theorem splitOn_line (sep : α) (s t : List α) : (s ++ sep :: t).splitOn sep = s.splitOn sep ++ t.splitOn sep := by
  rw [List.splitOn_eq_splitOnP, List.splitOn_eq_splitOnP, List.splitOn_eq_splitOnP]
  exact List.splitOnP_append_cons s t (beq_self_eq_true sep)

theorem lines_of_notMem (h : sep ∉ s) : lines sep s = [] := by
  rw [lines, splitOn_of_notMem h]
  rfl

theorem rest_of_notMem (h : sep ∉ s) : rest sep s = s := by
  rw [rest, splitOn_of_notMem h]
  rfl

theorem lines_line (hl : sep ∉ l) (s : List α) : lines sep (l ++ sep :: s) = l :: lines sep s := by
  rw [lines, splitOn_line, splitOn_of_notMem hl, List.singleton_append,
    List.dropLast_cons_of_ne_nil (List.splitOn_ne_nil sep s), lines]

theorem rest_line (sep : α) (l s : List α) : rest sep (l ++ sep :: s) = rest sep s := by
  obtain ⟨x, xs, hs⟩ := List.exists_cons_of_ne_nil (List.splitOn_ne_nil sep s)
  rw [rest, splitOn_line, rest, hs, List.getLastD_eq_getLast?, List.getLastD_eq_getLast?,
    List.getLast?_append_cons]

theorem rest_append_of_mem (h : sep ∈ t) (s : List α) : rest sep (s ++ t) = rest sep t := by
  obtain ⟨l, t, rfl, _⟩ := List.eq_append_cons_of_mem h
  rw [← List.append_assoc, rest_line, rest_line]

@[elab_as_elim]
theorem lines_induction {P : List α → Prop} (sep : α) (last : ∀ s, sep ∉ s → P s)
    (line : ∀ l s, sep ∉ l → P s → P (l ++ sep :: s)) (s : List α) : P s := by
  induction hn : s.length using Nat.strongRecOn generalizing s with
  | _ n ih =>
    by_cases hs : sep ∈ s
    · obtain ⟨l, t, rfl, hl⟩ := List.eq_append_cons_of_mem hs
      apply line l t hl
      apply ih t.length _ t rfl
      simp only [List.length_append, List.length_cons] at hn
      omega
    · exact last s hs

theorem notMem_rest (sep : α) (s : List α) : sep ∉ rest sep s := by
  induction s using lines_induction sep with
  | last s hs => rwa [rest_of_notMem hs]
  | line l s hl ih => rwa [rest_line]

theorem lines_append (sep : α) (s t : List α) :
    lines sep (s ++ t) = lines sep s ++ lines sep (rest sep s ++ t) := by
  induction s using lines_induction sep with
  | last s hs => rw [lines_of_notMem hs, rest_of_notMem hs, List.nil_append]
  | line l s hl ih =>
    rw [List.append_assoc, List.cons_append, lines_line hl, lines_line hl, rest_line, ih, List.cons_append]

theorem lines_rest (sep : α) (s : List α) : (lines sep s).flatMap (· ++ [sep]) ++ rest sep s = s := by
  induction s using lines_induction sep with
  | last s hs => rw [lines_of_notMem hs, rest_of_notMem hs, List.flatMap_nil, List.nil_append]
  | line l s hl ih =>
    rw [lines_line hl, rest_line, List.flatMap_cons, List.append_assoc, ih,
      List.append_assoc, List.singleton_append]

theorem mem_of_mem_rest {x : α} (h : x ∈ rest sep s) : x ∈ s := by
  rw [← lines_rest sep s]
  exact List.mem_append_right _ h

theorem length_rest_lt (h : sep ∈ s) : (rest sep s).length < s.length := by
  obtain ⟨l, t, rfl, hl⟩ := List.eq_append_cons_of_mem h
  have hlen := congrArg List.length (lines_rest sep t)
  rw [List.length_append] at hlen
  rw [rest_line, List.length_append, List.length_cons]
  omega

end Xv6.TextLines
