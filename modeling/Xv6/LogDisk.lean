import Xv6.Params
import Xv6.Writes
import Xv6.Runs
import Mathlib.Data.List.GetD
import Mathlib.Data.List.Nodup
import Mathlib.Data.List.Range

namespace Xv6.Log

open Xv6.Writes Function

abbrev Block := ℕ → ℕ

structure Buffers where
  disk : ℕ → Block
  cache : ℕ → Option Block
  writes : List (ℕ × Block)

def bread (s : Buffers) (b : ℕ) : Block × Buffers :=
  match s.cache b with
  | some data => (data, s)
  | none => (s.disk b, { s with cache := Function.update s.cache b (some (s.disk b)) })

def bwrite (s : Buffers) (b : ℕ) (data : Block) : Buffers where
  disk := Function.update s.disk b data
  cache := Function.update s.cache b (some data)
  writes := s.writes ++ [(b, data)]

def copyBlock (s : Buffers) (src dst : ℕ) : Buffers :=
  let (data, s) := bread s src
  let (_, s) := bread s dst
  bwrite s dst data

def copyBlocks (s : Buffers) (pairs : List (ℕ × ℕ)) : Buffers := pairs.foldl (fun s p => copyBlock s p.1 p.2) s

def logged (start : ℕ) (blocks : List ℕ) : List (ℕ × ℕ) := blocks.zipIdx.map fun p => (p.1, start + p.2 + 1)

def writeLog (start : ℕ) (blocks : List ℕ) (s : Buffers) : Buffers := copyBlocks s (logged start blocks)

def installTrans (start : ℕ) (blocks : List ℕ) (s : Buffers) : Buffers :=
  copyBlocks s ((logged start blocks).map Prod.swap)

def setHead (blocks : List ℕ) (hb : Block) : Block := fun w =>
  if w = 0 then blocks.length else if w ≤ blocks.length then blocks.getD (w - 1) 0 else hb w

def readHead (hb : Block) : List ℕ := (List.range (hb 0)).map fun i => hb (i + 1)

def writeHead (start : ℕ) (blocks : List ℕ) (s : Buffers) : Buffers :=
  let (hb, s) := bread s start
  bwrite s start (setHead blocks hb)

def recoverFromLog (start : ℕ) (s : Buffers) : Buffers :=
  let (hb, s) := bread s start
  writeHead start [] (installTrans start (readHead hb) s)

def commit (start : ℕ) (blocks : List ℕ) (s : Buffers) : Buffers :=
  if blocks ≠ [] then writeHead start [] (installTrans start blocks
    (writeHead start blocks (writeLog start blocks s))) else s

def absorb (blocks : List ℕ) (b : ℕ) : List ℕ := if b ∈ blocks then blocks else blocks ++ [b]

def Buffers.view (s : Buffers) : ℕ → Block := fun b => (s.cache b).getD (s.disk b)

structure Issues (s : Buffers) (ws : List (ℕ × Block)) (s' : Buffers) : Prop where
  writes : s'.writes = s.writes ++ ws
  disk : s'.disk = write s.disk ws
  view : s'.view = write s.view ws

section

variable {s s' s'' : Buffers} {ws ws' : List (ℕ × Block)} {b start : ℕ} {data : Block} {blocks : List ℕ}

theorem Issues.trans (h : Issues s ws s') (h' : Issues s' ws' s'') : Issues s (ws ++ ws') s'' := by
  refine ⟨?_, ?_, ?_⟩
  · rw [h'.writes, h.writes, List.append_assoc]
  · rw [h'.disk, h.disk, write_append]
  · rw [h'.view, h.view, write_append]

theorem bread_fst : (bread s b).1 = s.view b := by
  unfold bread Buffers.view
  split
  · rename_i data h
    rw [h, Option.getD_some]
  · rename_i h
    rw [h, Option.getD_none]

theorem bread_issues : Issues s [] (bread s b).2 := by
  unfold bread
  split
  · exact ⟨by simp, rfl, rfl⟩
  · rename_i hnone
    refine ⟨by simp, rfl, ?_⟩
    funext x
    simp only [Buffers.view, write_nil]
    by_cases hx : x = b
    · rw [hx, update_self, hnone, Option.getD_some, Option.getD_none]
    · rw [update_of_ne hx]

theorem bwrite_issues : Issues s [(b, data)] (bwrite s b data) := by
  refine ⟨rfl, rfl, ?_⟩
  funext x
  simp only [Buffers.view, bwrite, write_cons, write_nil]
  by_cases hx : x = b
  · subst hx
    rw [update_self, update_self, Option.getD_some, update_self]
  · rw [update_of_ne hx, update_of_ne hx, update_of_ne hx]
    rfl

theorem copyBlock_issues {src dst : ℕ} : Issues s [(dst, s.view src)] (copyBlock s src dst) := by
  have h : Issues s ([] ++ ([] ++ [(dst, (bread s src).1)])) (copyBlock s src dst) :=
    bread_issues.trans (bread_issues.trans bwrite_issues)
  rw [bread_fst] at h
  exact h

theorem copyBlocks_issues {pairs : List (ℕ × ℕ)} (h : ∀ p ∈ pairs, ∀ q ∈ pairs, p.1 ≠ q.2) :
    Issues s (pairs.map fun p => (p.2, s.view p.1)) (copyBlocks s pairs) := by
  induction pairs generalizing s with
  | nil => exact ⟨by simp [copyBlocks], rfl, rfl⟩
  | cons p pairs ih =>
    have hfirst : Issues s [(p.2, s.view p.1)] (copyBlock s p.1 p.2) := copyBlock_issues
    have hrest := ih (s := copyBlock s p.1 p.2)
      (fun q hq r hr => h q (List.mem_cons_of_mem _ hq) r (List.mem_cons_of_mem _ hr))
    have hsame : (pairs.map fun q => (q.2, (copyBlock s p.1 p.2).view q.1)) = pairs.map
        fun q => (q.2, s.view q.1) := by
      apply List.map_congr_left
      intro q hq
      rw [hfirst.view, write_cons, write_nil, update_of_ne (h q (List.mem_cons_of_mem _ hq) p List.mem_cons_self)]
    rw [hsame] at hrest
    exact hfirst.trans hrest

theorem writeHead_issues (start : ℕ) (blocks : List ℕ) (s : Buffers) :
    Issues s [(start, setHead blocks (s.view start))] (writeHead start blocks s) := by
  have h : Issues s ([] ++ [(start, setHead blocks (bread s start).1)]) (writeHead start blocks s) :=
    bread_issues.trans bwrite_issues
  rw [bread_fst] at h
  exact h

theorem readHead_setHead (hb : Block) : readHead (setHead blocks hb) = blocks := by
  apply List.ext_getElem
  · simp [readHead, setHead]
  · intro i hi hi'
    simp only [readHead, List.getElem_map, List.getElem_range, setHead]
    rw [if_neg (by omega), if_pos (by omega), Nat.add_sub_cancel, List.getD_eq_getElem _ _ hi']

theorem readHead_nil {hb : Block} : readHead hb = [] ↔ hb 0 = 0 := by simp [readHead]

theorem absorb_nodup (h : blocks.Nodup) : (absorb blocks b).Nodup := by
  unfold absorb
  split_ifs with hmem
  · exact h
  · rw [List.nodup_append]
    refine ⟨h, List.nodup_singleton b, ?_⟩
    rintro x hx y hy rfl
    rw [List.mem_singleton] at hy
    exact hmem (hy ▸ hx)

theorem absorb_length (blocks : List ℕ) (b : ℕ) : (absorb blocks b).length ≤ blocks.length + 1 := by
  unfold absorb
  split_ifs
  · omega
  · rw [List.length_append, List.length_singleton]

theorem mem_absorb {x : ℕ} : x ∈ absorb blocks b ↔ x ∈ blocks ∨ x = b := by
  unfold absorb
  split_ifs with hmem
  · constructor
    · exact .inl
    · rintro (hx | rfl)
      · exact hx
      · exact hmem
  · rw [List.mem_append, List.mem_singleton]

theorem mem_logged {p : ℕ × ℕ} (h : p ∈ logged start blocks) :
    p.1 ∈ blocks ∧ start < p.2 ∧ p.2 < start + blocks.length + 1 := by
  obtain ⟨q, hq, rfl⟩ := List.mem_map.mp h
  have hidx := List.mem_zipIdx hq
  have hlt := hidx.2.1
  refine ⟨?_, ?_, ?_⟩
  · rw [hidx.2.2]
    exact List.getElem_mem _
  · simp only
    omega
  · simp only
    omega

theorem logged_fst (start : ℕ) (blocks : List ℕ) : (logged start blocks).map Prod.fst = blocks := by
  simp [logged, List.map_map, Function.comp_def]

theorem logged_snd_nodup : ((logged start blocks).map Prod.snd).Nodup := by
  have hsnd : (logged start blocks).map Prod.snd = (List.range blocks.length).map (fun i => start + i + 1) := by
    rw [logged, List.map_map, List.range_eq_range', ← List.zipIdx_map_snd 0 blocks, List.map_map]
    rfl
  rw [hsnd]
  apply List.Nodup.map _ List.nodup_range
  intro i j h
  simp only at h
  omega

end

end Xv6.Log
