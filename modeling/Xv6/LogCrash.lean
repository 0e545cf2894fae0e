import Xv6.LogDisk

namespace Xv6.Log

open Xv6.Writes Xv6.Runs Function

structure Area where
  start : ℕ
  size : ℕ
  pos : 0 < size

def Area.home (log : Area) (b : ℕ) : Prop := b < log.start ∨ log.start + log.size ≤ b

instance (log : Area) (b : ℕ) : Decidable (log.home b) := inferInstanceAs (Decidable (_ ∨ _))

structure Due (log : Area) (disk f : ℕ → Block) : Prop where
  room : (readHead (disk log.start)).length < log.size
  nodup : (readHead (disk log.start)).Nodup
  home : ∀ b ∈ readHead (disk log.start), log.home b
  logged : ∀ p ∈ logged log.start (readHead (disk log.start)), disk p.2 = f p.1
  rest : ∀ b, log.home b → b ∉ readHead (disk log.start) → disk b = f b

def finish (start : ℕ) (v : ℕ → Block) : List (ℕ × Block) :=
  (logged start (readHead (v start))).map (fun p => (p.1, v p.2)) ++ [(start, setHead [] (v start))]

section

variable {log : Area} {disk f v : ℕ → Block} {ws : List (ℕ × Block)} {blocks : List ℕ} {b k : ℕ} {s : Buffers}

theorem Area.home.ne_start (h : log.home b) : b ≠ log.start := by
  have hpos := log.pos
  unfold home at h
  omega

theorem Area.home.ne_logged (h : log.home b) (hroom : blocks.length < log.size) {p : ℕ × ℕ}
    (hp : p ∈ Log.logged log.start blocks) : b ≠ p.2 := by
  have hlog := mem_logged hp
  unfold home at h
  omega

theorem due_of_zero (h : disk log.start 0 = 0) (hf : ∀ b, log.home b → disk b = f b) : Due log disk f := by
  have hhead : readHead (disk log.start) = [] := readHead_nil.mpr h
  constructor
  · rw [hhead]
    exact log.pos
  · rw [hhead]
    exact List.nodup_nil
  · rw [hhead]
    intro b hb
    cases hb
  · rw [hhead]
    intro p hp
    cases hp
  · intro b hb _
    exact hf b hb

theorem Due.write (h : Due log disk f) (hws : ∀ b ∈ ws.map Prod.fst, b ∈ readHead (disk log.start)) :
    Due log (write disk ws) f := by
  have hkeep (b : ℕ) (hb : b ∉ readHead (disk log.start)) : Writes.write disk ws b = disk b :=
    write_notMem (fun hmem => hb (hws b hmem))
  have hstart : Writes.write disk ws log.start = disk log.start :=
    hkeep _ (fun hmem => (h.home _ hmem).ne_start rfl)
  constructor
  · rw [hstart]
    exact h.room
  · rw [hstart]
    exact h.nodup
  · rw [hstart]
    exact h.home
  · rw [hstart]
    intro p hp
    rw [hkeep p.2 (fun hmem => (h.home _ hmem).ne_logged h.room hp rfl)]
    exact h.logged p hp
  · rw [hstart]
    intro b hb hmem
    rw [hkeep b hmem]
    exact h.rest b hb hmem

theorem finish_fst (start : ℕ) (blocks : List ℕ) (v : ℕ → Block) :
    ((logged start blocks).map fun p => (p.1, v p.2)).map Prod.fst = blocks := by
  rw [List.map_map]
  exact logged_fst start blocks

theorem finish_done (h : Due log disk f) :
    write disk (finish log.start disk) log.start 0 = 0 ∧
      ∀ b, log.home b → write disk (finish log.start disk) b = f b := by
  rw [finish, write_append, write_cons, write_nil]
  refine ⟨by rw [update_self]; rfl, fun b hb => ?_⟩
  rw [update_of_ne hb.ne_start]
  by_cases hmem : b ∈ readHead (disk log.start)
  · rw [← logged_fst log.start (readHead (disk log.start)), List.mem_map] at hmem
    obtain ⟨p, hp, rfl⟩ := hmem
    rw [← h.logged p hp]
    apply write_of_mem
    · rw [finish_fst]
      exact h.nodup
    · exact List.mem_map_of_mem hp
  · rw [write_notMem (by rwa [finish_fst])]
    exact h.rest b hb hmem

theorem finish_take (h : Due log disk f) (k : ℕ) : Due log (write disk ((finish log.start disk).take k)) f := by
  by_cases hk : k < (finish log.start disk).length
  · apply h.write
    rw [finish, List.length_append, List.length_singleton] at hk
    rw [finish, List.take_append_of_le_length (by omega)]
    intro b hb
    rw [← finish_fst log.start (readHead (disk log.start)) disk]
    exact ((List.take_sublist k _).map Prod.fst).subset hb
  · rw [List.take_of_length_le (by omega)]
    obtain ⟨hzero, hf⟩ := finish_done h
    exact due_of_zero hzero hf

theorem swap_ne (hhome : ∀ b ∈ blocks, log.home b) (hroom : blocks.length < log.size) :
    ∀ p ∈ logged log.start blocks, ∀ q ∈ logged log.start blocks, p.1 ≠ q.2 :=
  fun p hp _ hq => (hhome p.1 (mem_logged hp).1).ne_logged hroom hq

theorem installTrans_issues (hhome : ∀ b ∈ blocks, log.home b) (hroom : blocks.length < log.size) :
    Issues s ((logged log.start blocks).map fun p => (p.1, s.view p.2)) (installTrans log.start blocks s) := by
  have hne : ∀ p ∈ (logged log.start blocks).map Prod.swap, ∀ q ∈ (logged log.start blocks).map Prod.swap,
      p.1 ≠ q.2 := by
    intro p hp q hq
    obtain ⟨x, hx, rfl⟩ := List.mem_map.mp hp
    obtain ⟨y, hy, rfl⟩ := List.mem_map.mp hq
    exact (swap_ne hhome hroom y hy x hx).symm
  have h := copyBlocks_issues (s := s) hne
  rw [List.map_map] at h
  exact h

theorem finish_issues (hhome : ∀ b ∈ readHead (s.view log.start), log.home b)
    (hroom : (readHead (s.view log.start)).length < log.size) :
    Issues s (finish log.start s.view)
      (writeHead log.start [] (installTrans log.start (readHead (s.view log.start)) s)) := by
  have hinstall := installTrans_issues (s := s) hhome hroom
  have hstart : (installTrans log.start (readHead (s.view log.start)) s).view log.start = s.view log.start := by
    rw [hinstall.view]
    apply write_notMem
    rw [finish_fst]
    exact fun hmem => (hhome _ hmem).ne_start rfl
  have h := hinstall.trans (writeHead_issues log.start [] _)
  rw [hstart] at h
  exact h

end

structure Ready (log : Area) (disk : ℕ → Block) (blocks : List ℕ) : Prop where
  clear : disk log.start 0 = 0
  room : blocks.length < log.size
  nodup : blocks.Nodup
  home : ∀ b ∈ blocks, log.home b

def begins (start : ℕ) (blocks : List ℕ) (v : ℕ → Block) : List (ℕ × Block) :=
  (logged start blocks).map (fun p => (p.2, v p.1)) ++ [(start, setHead blocks (v start))]

section

variable {log : Area} {disk f v : ℕ → Block} {blocks : List ℕ} {b k : ℕ} {s : Buffers}

theorem Ready.due (h : Ready log disk blocks) : Due log disk disk := due_of_zero h.clear (fun _ _ => rfl)

theorem begins_fst (start : ℕ) (blocks : List ℕ) (v : ℕ → Block) :
    ((logged start blocks).map fun p => (p.2, v p.1)).map Prod.fst = (logged start blocks).map Prod.snd := by
  rw [List.map_map]
  rfl

theorem begins_issues (h : Ready log disk blocks) (s : Buffers) :
    Issues s (begins log.start blocks s.view) (writeHead log.start blocks (writeLog log.start blocks s)) := by
  have hlog : Issues s _ (writeLog log.start blocks s) := copyBlocks_issues (swap_ne h.home h.room)
  have hstart : (writeLog log.start blocks s).view log.start = s.view log.start := by
    rw [hlog.view]
    apply write_notMem
    rw [begins_fst]
    intro hmem
    obtain ⟨p, hp, heq⟩ := List.mem_map.mp hmem
    have hlt := (mem_logged hp).2.1
    omega
  have hall := hlog.trans (writeHead_issues log.start blocks _)
  rw [hstart] at hall
  exact hall

theorem write_begins_start : write f (begins log.start blocks v) log.start = setHead blocks (v log.start) := by
  rw [begins, write_append, write_cons, write_nil, update_self]

theorem write_begins_logged {p : ℕ × ℕ} (hp : p ∈ logged log.start blocks) :
    write f (begins log.start blocks v) p.2 = v p.1 := by
  have hlt := (mem_logged hp).2.1
  rw [begins, write_append, write_cons, write_nil, update_of_ne (by simp only; omega)]
  apply write_of_mem
  · rw [begins_fst]
    exact logged_snd_nodup
  · exact List.mem_map_of_mem (f := fun p : ℕ × ℕ => (p.2, v p.1)) hp

theorem write_begins_home (h : Ready log disk blocks) (hb : log.home b) :
    write f (begins log.start blocks v) b = f b := by
  rw [begins, write_append, write_cons, write_nil, update_of_ne hb.ne_start]
  apply write_notMem
  rw [begins_fst]
  intro hmem
  obtain ⟨p, hp, heq⟩ := List.mem_map.mp hmem
  exact hb.ne_logged h.room hp heq.symm

theorem due_begins (h : Ready log disk blocks) :
    Due log (write disk (begins log.start blocks v)) (fun b => if b ∈ blocks then v b else disk b) := by
  have hhead : readHead (write disk (begins log.start blocks v) log.start) = blocks := by
    rw [write_begins_start, readHead_setHead]
  constructor
  · rw [hhead]
    exact h.room
  · rw [hhead]
    exact h.nodup
  · rw [hhead]
    exact h.home
  · rw [hhead]
    intro p hp
    rw [write_begins_logged hp, if_pos (mem_logged hp).1]
  · rw [hhead]
    intro b hb hmem
    rw [write_begins_home h hb, if_neg hmem]

theorem finish_agree (h : readHead (v log.start) = blocks) (hstart : v log.start = f log.start)
    (hlog : ∀ p ∈ logged log.start blocks, v p.2 = f p.2) : finish log.start v = finish log.start f := by
  rw [finish, finish, ← hstart, h]
  congr 1
  apply List.map_congr_left
  intro p hp
  rw [hlog p hp]

theorem commit_issues (h : Ready log disk blocks) (hne : blocks ≠ []) (s : Buffers) :
    Issues s (begins log.start blocks s.view ++ finish log.start (write s.disk (begins log.start blocks s.view)))
      (commit log.start blocks s) := by
  have hbegins := begins_issues h s
  have hhead : readHead ((writeHead log.start blocks (writeLog log.start blocks s)).view log.start) = blocks := by
    rw [hbegins.view, write_begins_start, readHead_setHead]
  have hhome := h.home
  have hroom := h.room
  rw [← hhead] at hhome hroom
  have hfinish := finish_issues hhome hroom
  rw [finish_agree hhead (f := write s.disk (begins log.start blocks s.view)), hhead] at hfinish
  · rw [commit, if_pos hne]
    exact hbegins.trans hfinish
  · rw [hbegins.view, write_begins_start, write_begins_start]
  · intro p hp
    rw [hbegins.view, write_begins_logged hp, write_begins_logged hp]

theorem begins_take (h : Ready log disk blocks) (hk : k < (begins log.start blocks v).length) :
    log.start ∉ ((begins log.start blocks v).take k).map Prod.fst ∧
      ∀ b, log.home b → write disk ((begins log.start blocks v).take k) b = disk b := by
  rw [begins, List.length_append, List.length_singleton] at hk
  have hkey (b : ℕ) (hb : b ∈ ((begins log.start blocks v).take k).map Prod.fst) :
      ∃ p ∈ logged log.start blocks, p.2 = b := by
    rw [begins, List.take_append_of_le_length (by omega)] at hb
    have hmem := ((List.take_sublist k _).map Prod.fst).subset hb
    rwa [begins_fst, List.mem_map] at hmem
  constructor
  · intro hmem
    obtain ⟨p, hp, heq⟩ := hkey _ hmem
    have hlt := (mem_logged hp).2.1
    omega
  · intro b hb
    apply write_notMem
    intro hmem
    obtain ⟨p, hp, heq⟩ := hkey _ hmem
    exact hb.ne_logged h.room hp heq.symm

end

end Xv6.Log
