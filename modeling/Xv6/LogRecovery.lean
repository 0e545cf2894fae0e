import Xv6.LogCrash

namespace Xv6.Log

open Xv6.Writes Xv6.Runs Function

def fresh (disk : ℕ → Block) (cache : ℕ → Option Block) : Buffers where
  disk := disk
  cache := cache
  writes := []

def cold (disk : ℕ → Block) : Buffers := fresh disk fun _ => none

def commitWrites (start : ℕ) (disk : ℕ → Block) (cache : ℕ → Option Block) (blocks : List ℕ) : List (ℕ × Block) :=
  (commit start blocks (fresh disk cache)).writes

def recoverWrites (start : ℕ) (disk : ℕ → Block) : List (ℕ × Block) := (recoverFromLog start (cold disk)).writes

/-- `recoverFromLog` is run, stopped any number of times after some of its writes and run again, until it
returns. -/
inductive Recovers (start : ℕ) : (ℕ → Block) → (ℕ → Block) → Prop
  | returns (disk : ℕ → Block) : Recovers start disk (recoverFromLog start (cold disk)).disk
  | stops (disk disk' : ℕ → Block) (k : ℕ)
      (h : Recovers start (write disk ((recoverWrites start disk).take k)) disk') :
      Recovers start disk disk'

section

variable {log : Area} {disk disk' f : ℕ → Block} {cache : ℕ → Option Block} {blocks : List ℕ} {k : ℕ}

theorem recoverFromLog_issues (h : Due log disk f) :
    Issues (cold disk) (finish log.start disk) (recoverFromLog log.start (cold disk)) := by
  have hread : Issues (cold disk) [] (bread (cold disk) log.start).2 := bread_issues
  have hview : (bread (cold disk) log.start).2.view = disk := hread.view
  have hhead : (bread (cold disk) log.start).1 = disk log.start := bread_fst
  have hhome := h.home
  have hroom := h.room
  rw [← hview] at hhome hroom
  have hfinish := hread.trans (finish_issues hhome hroom)
  rw [hview, ← hhead] at hfinish
  exact hfinish

theorem recoverWrites_eq (h : Due log disk f) : recoverWrites log.start disk = finish log.start disk := by
  rw [recoverWrites, (recoverFromLog_issues h).writes]
  exact List.nil_append _

theorem recovers_due (hd : Recovers log.start disk disk') (h : Due log disk f) :
    disk' log.start 0 = 0 ∧ ∀ b, log.home b → disk' b = f b := by
  induction hd with
  | returns disk =>
    rw [(recoverFromLog_issues h).disk]
    exact finish_done h
  | stops disk disk' k _ ih =>
    apply ih
    rw [recoverWrites_eq h]
    exact finish_take h k

theorem commitWrites_eq (h : Ready log disk blocks) (hne : blocks ≠ []) :
    commitWrites log.start disk cache blocks = begins log.start blocks (fresh disk cache).view ++
      finish log.start (write disk (begins log.start blocks (fresh disk cache).view)) :=
  (commit_issues h hne (fresh disk cache)).writes

theorem commitWrites_take (h : Ready log disk blocks) (cache : ℕ → Option Block) (k : ℕ) :
    Due log (write disk ((commitWrites log.start disk cache blocks).take k)) (fun b =>
      if log.start ∈ ((commitWrites log.start disk cache blocks).take k).map Prod.fst ∧ b ∈ blocks
      then (cache b).getD (disk b) else disk b) := by
  by_cases hne : blocks = []
  · subst hne
    have hnone : commitWrites log.start disk cache [] = [] := rfl
    rw [hnone, List.take_nil]
    apply due_of_zero h.clear
    intro b _
    rw [if_neg (fun hmem => List.not_mem_nil hmem.2)]
  rw [commitWrites_eq h hne, List.take_append]
  by_cases hk : k < (begins log.start blocks (fresh disk cache).view).length
  · obtain ⟨hstart, hhome⟩ := begins_take h hk
    rw [Nat.sub_eq_zero_of_le (by omega), List.take_zero, List.append_nil]
    apply due_of_zero
    · rw [write_notMem hstart]
      exact h.clear
    · intro b hb
      rw [if_neg (fun hmem => hstart hmem.1)]
      exact hhome b hb
  · rw [List.take_of_length_le (by omega), write_append]
    have hstart (ws : List (ℕ × Block)) :
        log.start ∈ (begins log.start blocks (fresh disk cache).view ++ ws).map Prod.fst := by simp [begins]
    simp only [hstart, true_and]
    exact finish_take (due_begins h) _

theorem commit_clear (h : Ready log disk blocks) :
    (commit log.start blocks (fresh disk cache)).disk log.start 0 = 0 := by
  by_cases hne : blocks = []
  · subst hne
    exact h.clear
  · rw [(commit_issues h hne (fresh disk cache)).disk, write_append]
    exact (finish_done (due_begins h)).1

theorem commit_clean (h : Ready log disk blocks) (hclean : ∀ b ∉ blocks, (fresh disk cache).view b = disk b) :
    (commit log.start blocks (fresh disk cache)).view = (commit log.start blocks (fresh disk cache)).disk := by
  funext b
  by_cases hne : blocks = []
  · subst hne
    exact hclean b List.not_mem_nil
  · have hissues := commit_issues h hne (fresh disk cache)
    rw [hissues.view, hissues.disk]
    apply write_agree
    intro hb
    apply hclean
    intro hmem
    apply hb
    rw [List.map_append, List.mem_append, finish, write_begins_start, readHead_setHead,
      List.map_append, finish_fst]
    exact .inr (List.mem_append_left _ hmem)

end

structure Memory where
  cache : ℕ → Option Block
  blocks : List ℕ

structure Machine where
  disk : ℕ → Block
  memory : Option Memory

inductive Event
  | boot
  | bootStops (k : ℕ)
  | bread (b : ℕ)
  | evict (b : ℕ)
  | logWrite (b : ℕ) (data : Block)
  | commit
  | commitStops (k : ℕ)
  | stop

def logWrite (log : Area) (blocks : List ℕ) (b : ℕ) : Option (List ℕ) :=
  if blocks.length ≥ LOGSIZE ∨ blocks.length ≥ log.size - 1 then none else some (absorb blocks b)

def running (log : Area) (disk : ℕ → Block) (m : Memory) : Event → Option Machine
  | .bread b => some ⟨disk, some { m with cache := (Log.bread (fresh disk m.cache) b).2.cache }⟩
  | .evict b => if b ∉ m.blocks then some ⟨disk, some { m with cache := Function.update m.cache b none }⟩ else none
  | .logWrite b data =>
    if log.home b then (Log.logWrite log m.blocks b).map fun blocks =>
      ⟨disk, some ⟨Function.update m.cache b (some data), blocks⟩⟩ else none
  | .commit =>
    let s := Log.commit log.start m.blocks (fresh disk m.cache)
    some ⟨s.disk, some ⟨s.cache, []⟩⟩
  | .commitStops k => some ⟨write disk ((commitWrites log.start disk m.cache m.blocks).take k), none⟩
  | .stop => some ⟨disk, none⟩
  | _ => none

def booting (log : Area) (disk : ℕ → Block) : Event → Option Machine
  | .boot =>
    let s := recoverFromLog log.start (cold disk)
    some ⟨s.disk, some ⟨s.cache, []⟩⟩
  | .bootStops k => some ⟨write disk ((recoverWrites log.start disk).take k), none⟩
  | _ => none

def step (log : Area) (s : Machine) (e : Event) : Option Machine :=
  match s.memory with
  | some m => running log s.disk m e
  | none => booting log s.disk e

structure Sound (log : Area) (s : Machine) : Prop where
  ready : ∀ m ∈ s.memory, Ready log s.disk m.blocks
  clean : ∀ m ∈ s.memory, ∀ b ∉ m.blocks, (fresh s.disk m.cache).view b = s.disk b
  due : s.memory = none → ∃ f, Due log s.disk f

section

variable {log : Area} {disk f : ℕ → Block} {cache : ℕ → Option Block} {m : Memory} {e : Event} {s s' : Machine}
  {blocks : List ℕ} {b : ℕ}

theorem sound_stopped (h : Due log disk f) : Sound log ⟨disk, none⟩ where
  ready := fun m hm => by cases hm
  clean := fun m hm => by cases hm
  due := fun _ => ⟨f, h⟩

theorem sound_running (h : Ready log disk blocks) (hclean : ∀ b ∉ blocks, (fresh disk cache).view b = disk b) :
    Sound log ⟨disk, some ⟨cache, blocks⟩⟩ where
  ready := fun m' hm => by cases hm; exact h
  clean := fun m' hm => by cases hm; exact hclean
  due := fun hnone => by cases hnone

theorem ready_nil (h : disk log.start 0 = 0) : Ready log disk [] where
  clear := h
  room := log.pos
  nodup := List.nodup_nil
  home := fun b hb => by cases hb

theorem logWrite_ready (h : Ready log disk m.blocks) (hb : log.home b)
    (hw : logWrite log m.blocks b = some blocks) : Ready log disk blocks ∧ b ∈ blocks ∧ m.blocks ⊆ blocks := by
  unfold logWrite at hw
  split_ifs at hw with hfull
  cases hw
  refine ⟨⟨h.clear, ?_, absorb_nodup h.nodup, ?_⟩, mem_absorb.mpr (.inr rfl), fun x hx => mem_absorb.mpr (.inl hx)⟩
  · have hlen := absorb_length m.blocks b
    omega
  · intro x hx
    obtain hx | rfl := mem_absorb.mp hx
    · exact h.home x hx
    · exact hb

theorem sound_booting (h : Due log disk f) (hs : booting log disk e = some s') : Sound log s' := by
  cases e with
  | boot =>
    cases hs
    have hissues := recoverFromLog_issues h
    apply sound_running
    · apply ready_nil
      rw [hissues.disk]
      exact (finish_done h).1
    · intro b _
      have hview : (recoverFromLog log.start (cold disk)).view b =
          (recoverFromLog log.start (cold disk)).disk b := by
        rw [hissues.view, hissues.disk]
        rfl
      exact hview
  | bootStops k =>
    cases hs
    rw [recoverWrites_eq h]
    exact sound_stopped (finish_take h k)
  | _ => cases hs

theorem sound_step_running (h : Ready log disk m.blocks)
    (hclean : ∀ b ∉ m.blocks, (fresh disk m.cache).view b = disk b) (hs : running log disk m e = some s') :
    Sound log s' := by
  cases e with
  | bread b =>
    cases hs
    apply sound_running h
    intro x hx
    have hissues : Issues (fresh disk m.cache) [] (bread (fresh disk m.cache) b).2 := bread_issues
    have hview : (fresh disk (bread (fresh disk m.cache) b).2.cache).view x =
        (bread (fresh disk m.cache) b).2.view x := by
      rw [Buffers.view, Buffers.view, hissues.disk]
      rfl
    rw [hview, hissues.view]
    exact hclean x hx
  | evict b =>
    simp only [running, Option.ite_none_right_eq_some, Option.some.injEq] at hs
    obtain ⟨-, rfl⟩ := hs
    apply sound_running h
    intro x hx
    by_cases hxb : x = b
    · subst hxb
      simp [Buffers.view, fresh]
    · rw [← hclean x hx]
      simp [Buffers.view, fresh, update_of_ne hxb]
  | logWrite b data =>
    simp only [running, Option.ite_none_right_eq_some, Option.map_eq_some_iff] at hs
    obtain ⟨hb, blocks, hw, rfl⟩ := hs
    obtain ⟨hready, hmem, hsub⟩ := logWrite_ready h hb hw
    apply sound_running hready
    intro x hx
    have hxb : x ≠ b := by
      rintro rfl
      exact hx hmem
    rw [← hclean x (fun hold => hx (hsub hold))]
    simp [Buffers.view, fresh, update_of_ne hxb]
  | commit =>
    cases hs
    apply sound_running
    · apply ready_nil
      exact commit_clear h
    · intro b _
      exact congrFun (commit_clean h hclean) b
  | commitStops k =>
    cases hs
    exact sound_stopped (commitWrites_take h m.cache k)
  | stop =>
    cases hs
    exact sound_stopped h.due
  | _ => cases hs

theorem sound_step : Preserves (step log) Always (Sound log) := by
  intro s e s' h _ hs
  unfold step at hs
  split at hs
  · rename_i m hm
    exact sound_step_running (h.ready m hm) (h.clean m hm) hs
  · rename_i hnone
    obtain ⟨f, hdue⟩ := h.due hnone
    exact sound_booting hdue hs

end

/-- A commit can start only with a clear header on the disk. Wherever it is stopped, and however often recovery is,
the home blocks end up with all of the transaction, if its header was written, or with nothing of it. -/
theorem commit_atomic (log : Area) :
    (∀ s₀ s m, s₀.memory = none → s₀.disk log.start 0 = 0 → Reaches (step log) Always s₀ s → s.memory = some m →
      Ready log s.disk m.blocks) ∧
    ∀ disk cache blocks k disk', Ready log disk blocks →
      Recovers log.start (write disk ((commitWrites log.start disk cache blocks).take k)) disk' →
      (∀ b, log.home b → disk' b =
        if log.start ∈ ((commitWrites log.start disk cache blocks).take k).map Prod.fst ∧ b ∈ blocks
        then (cache b).getD (disk b) else disk b) ∧
      disk' log.start 0 = 0 := by
  constructor
  · intro s₀ s m hnone hzero hr hm
    have hsound : Sound log s₀ := by
      obtain ⟨disk, memory⟩ := s₀
      cases hnone
      exact sound_stopped (due_of_zero hzero (fun _ _ => rfl))
    exact (hr.invariant sound_step hsound).ready m hm
  · intro disk cache blocks k disk' h hd
    exact (recovers_due hd (commitWrites_take h cache k)).symm

def smallLog : Area where
  start := 2
  size := 5
  pos := by decide

def smallRun : List Event := [.boot, .bread 12, .logWrite 10 fun _ => 7, .logWrite 11 fun _ => 8]

def smallMachine : Machine := (exec (step smallLog) Always ⟨fun _ _ => 0, none⟩ smallRun).get (by decide +kernel)

def smallMemory : Memory := smallMachine.memory.get (by decide +kernel)

theorem commit_atomic_stopped :
    Reaches (step smallLog) Always ⟨fun _ _ => 0, none⟩ smallMachine ∧ smallMachine.memory = some smallMemory ∧
    smallMemory.blocks = [10, 11] ∧ ∃ disk',
      Recovers 2 (write smallMachine.disk
        ((commitWrites 2 smallMachine.disk smallMemory.cache smallMemory.blocks).take 4)) disk' ∧
      disk' 10 0 = 7 ∧ disk' 11 0 = 8 ∧ disk' 12 0 = 0 ∧ disk' 2 0 = 0 := by
  have hr : Reaches (step smallLog) Always ⟨fun _ _ => 0, none⟩ smallMachine := exec_get_reaches _ smallRun _
  have hm : smallMachine.memory = some smallMemory := (Option.some_get _).symm
  refine ⟨hr, hm, by decide +kernel, _, .stops _ _ 1 (.returns _), ?_⟩
  obtain ⟨hready, hatomic⟩ := commit_atomic smallLog
  obtain ⟨hhome, hzero⟩ := hatomic _ _ _ 4 _ (hready _ _ _ rfl rfl hr hm) (.stops _ _ 1 (.returns _))
  refine ⟨?_, ?_, ?_, hzero⟩
  · exact (congrFun (hhome 10 (by decide)) 0).trans (by decide +kernel)
  · exact (congrFun (hhome 11 (by decide)) 0).trans (by decide +kernel)
  · exact (congrFun (hhome 12 (by decide)) 0).trans (by decide +kernel)

end Xv6.Log
