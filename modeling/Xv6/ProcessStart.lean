import Xv6.ProcessSound

namespace Xv6.Process

open Xv6.Threads

structure Start (base : ℕ) (s : State) : Prop where
  used : s.state = .used
  main : (s.thr base).state = .runnable ∧ s.pc base = .forkret ∧ 0 < (s.thr base).tid
  rest : ∀ i ∈ slots base, i ≠ base → (s.thr i).state = .uninit ∧ (s.thr i).kstack = 0
  dead : ∀ k, k ≠ base → s.pc k = .dead
  next : ∀ i ∈ slots base, (s.thr i).tid < s.nexttid
  distinct : ∀ i ∈ slots base, ∀ j ∈ slots base, (s.thr i).tid = (s.thr j).tid → 0 < (s.thr i).tid → i = j
  pages : (s.thr base).kstack ≠ 0 ∧ ∀ page, s.pages page = true ↔ page = (s.thr base).kstack
  pgdir : s.pgdir < s.nextpgdir
  logs : s.freed = [] ∧ s.created = [] ∧ s.reaped = [] ∧ ∀ k, s.exited k = false

section start

variable {base k : ℕ} {s : State}

theorem base_mem (base : ℕ) : base ∈ slots base :=
  List.mem_range'_1.mpr ⟨Nat.le_refl _, Nat.lt_add_of_pos_right (by decide)⟩

theorem Start.place (h : Start base s) (k : ℕ) : s.pc k = .dead ∨ s.pc k = .forkret := by
  by_cases hk : k = base
  · rw [hk]
    exact .inr h.main.2.1
  · exact .inl (h.dead k hk)

theorem Start.place_ne (h : Start base s) {pc : Pc} (hpc : s.pc k = pc) (hd : pc ≠ .dead) (hf : pc ≠ .forkret) :
    False := by
  obtain hp | hp := h.place k <;> rw [hpc] at hp
  · exact hd hp
  · exact hf hp

theorem start_sound (h : Start base s) : Sound base s where
  outside k hk := h.dead k (fun heq => hk (heq ▸ base_mem base))
  idle i _ _ := h.place i
  create _ _ _ _ hpc := (h.place_ne hpc (by simp) (by simp)).elim
  apart _ _ _ _ _ _ _ hpc _ := (h.place_ne hpc (by simp) (by simp)).elim
  alone _ hpc := hpc.elim (fun hpc => (h.place_ne hpc (by simp) (by simp)).elim)
    (fun hpc => (h.place_ne hpc (by simp) (by simp)).elim)
  kexit k := by obtain hp | hp := h.place k <;> simp [hp]
  used hu := absurd h.used hu

end start

def forked : State where
  thr i := if i = 16 then ⟨4096, 0, .runnable, 2, some 1, tfAddr 8192, contextAddr 8192, .null, 0⟩
    else emptySlot
  pc i := if i = 16 then .forkret else .dead
  eax _ := 0
  nexttid := 3
  killed := false
  state := .used
  pages page := page = 4096
  pgdir := 1
  nextpgdir := 2
  cr3 _ := 0
  freed := []
  created := []
  reaped := []
  exited _ := false

theorem forked_start : Start 16 forked where
  used := rfl
  main := by decide
  rest i _ hne := by simp [forked, emptySlot, hne]
  dead k hne := by simp [forked, hne]
  next := by decide
  distinct := by decide
  pages := ⟨by decide, fun page => by simp [forked]⟩
  pgdir := by decide
  logs := ⟨rfl, rfl, rfl, fun _ => rfl⟩

end Xv6.Process
