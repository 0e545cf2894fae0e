import Xv6.ProcessStacks
import Xv6.Runs

namespace Xv6.Process

open Xv6.Threads Xv6.Runs Function

def Event.refused : Event → Bool
  | .kalloc _ page => page = 0
  | _ => false

def CreateTurn (base : ℕ) (s : State) (e : Event) : Prop := collides base s e = false ∧ e.refused = false

instance (base : ℕ) (s : State) (e : Event) : Decidable (CreateTurn base s e) :=
  inferInstanceAs (Decidable (_ ∧ _))

structure CreatesApart (base : ℕ) (s : State) : Prop where
  tids : (s.created.map Prod.fst).Nodup
  places : ∀ a t b u, (a, t) ∈ s.created → (b, u) ∈ s.created → a ∉ s.reaped → b ∉ s.reaped → a ≠ b → t ≠ u
  pages : ∀ page, s.pages page = true → ∃! i, i ∈ slots base ∧ (s.thr i).kstack = page

structure CreateInv (base : ℕ) (s : State) : Prop where
  sound : Sound base s
  tids : TidsOk base s
  logs : LogsOk base s
  kstacks : StacksOk base s

variable {base i : ℕ} {s s' : State} {e : Event}

theorem start_createInv (h : Start base s) : CreateInv base s :=
  ⟨start_sound h, start_tids h, start_logs h, start_stacks h⟩

theorem createInv_step (base : ℕ) :
    Preserves (step base) (fun s e => collides base s e = false) (CreateInv base) :=
  fun _ _ _ hi hc h => ⟨sound_step hi.sound h hc, tidsOk_step hi.tids hi.sound h,
    logsOk_step hi.logs hi.tids hi.sound h hc, stacksOk_step hi.kstacks hi.sound h⟩

theorem CreateInv.apart (hi : CreateInv base s) : CreatesApart base s where
  tids := hi.logs.nodup
  places := by
    rintro a t b u ha hb hra hrb hab rfl
    obtain ⟨hta, _⟩ := (hi.logs.entry a t ha).2.2.2.resolve_left hra
    obtain ⟨htb, _⟩ := (hi.logs.entry b t hb).2.2.2.resolve_left hrb
    exact hab (hta.symm.trans htb)
  pages := by
    intro page hpage
    obtain ⟨i, hio, rfl⟩ := hi.kstacks.owner page hpage
    refine ⟨i, ⟨hio, rfl⟩, fun j hj => ?_⟩
    refine hi.kstacks.inj j hj.1 i hio hj.2 (fun h0 => ?_)
    rw [← hj.2, h0, hi.kstacks.zero] at hpage
    cases hpage

theorem live_kept (hs : Sound base s) (h : step base s e = some s') (hi : i ∈ slots base)
    (hl : (s.thr i).state.live) : (s'.thr i).tid = (s.thr i).tid ∧ (s'.thr i).kstack = (s.thr i).kstack := by
  have hne {state : ThreadState} {t : ℕ} (ht : (s.thr t).state = state) (hd : state.live = false) : i ≠ t := by
    rintro rfl
    rw [ht, hd] at hl
    cases hl
  cases step_stock hs h with
  | quiet _ hslot _ _ _ _ _ => exact ⟨(hslot i hi).1, (hslot i hi).2.1⟩
  | claim k t f st hp hsearch hs' =>
    rw [hs', createSearch_some hsearch]
    simp [update_of_ne (hne (searchUninit_spec hsearch).2 rfl)]
  | kalloc k t sp page ops hp hfree hs' =>
    rw [hs', kallocStep_thr, update_of_ne (hne (hs.early hp (by decide)).2 rfl)]
    exact ⟨rfl, rfl⟩
  | created k t sp hp hs' =>
    rw [hs']
    exact ⟨rfl, rfl⟩
  | reap k t id hp ht hs' =>
    rw [hs', reap_thr, update_of_ne (hne ht rfl)]
    exact ⟨rfl, rfl⟩
  | wait hz hs' =>
    rw [hs', wait_kept]
    · exact ⟨rfl, rfl⟩
    · exact fun ht => hne ht rfl rfl

theorem creates_apart (s s' : State) (hstart : Start base s) (h : Reaches (step base) (CreateTurn base) s s') :
    CreatesApart base s' ∧ ∀ e s'', CreateTurn base s' e → step base s' e = some s'' →
      (∀ i ∈ slots base, (s'.thr i).state.live →
        (s''.thr i).tid = (s'.thr i).tid ∧ (s''.thr i).kstack = (s'.thr i).kstack) ∧
      ∀ k, e = .kalloc k 0 → s''.eax k = -1 := by
  have hi : CreateInv base s' :=
    (h.mono (fun _ _ hturn => hturn.1)).invariant (createInv_step base) (start_createInv hstart)
  refine ⟨hi.apart, fun e s'' hturn hstep => ⟨fun i ho hl => live_kept hi.sound hstep ho hl, ?_⟩⟩
  rintro k rfl
  cases hturn.2

def enterCall (k : ℕ) (call : Call) : List Event := [.trap k .syscall, .run k, .run k, .syscall k call]

def leaveCall (k : ℕ) : List Event := [.run k, .run k]

def startThread (k : ℕ) : List Event := [.scheduler k, .run k]

def secondThread : List Event :=
  startThread 16 ++ enterCall 16 (.kthreadCreate 64 8192) ++ [.run 16, .kalloc 16 8192] ++
    List.replicate 13 (.run 16) ++ leaveCall 16 ++ startThread 17

theorem creates_apart_secondThread : ∃ s', Reaches (step 16) (CreateTurn 16) forked s' ∧ s'.created = [(3, 17)] ∧
    CreatesApart 16 s' :=
  have hr := exec_get_reaches forked secondThread (by decide +kernel)
  ⟨_, hr, by decide +kernel, (creates_apart forked _ forked_start hr).1⟩

def sameSlot : List Event :=
  secondThread ++ enterCall 16 (.kthreadCreate 64 8192) ++ [.run 16] ++ enterCall 17 (.kthreadCreate 96 12288) ++
    [.run 17, .kalloc 16 12288, .kalloc 17 16384] ++ List.replicate 13 (.run 16) ++ List.replicate 13 (.run 17)

def noStack : List Event := startThread 16 ++ enterCall 16 (.kthreadCreate 64 8192) ++ [.run 16, .kalloc 16 0]

theorem creates_apart_fails : (∃ s', Reaches (step 16) Always forked s' ∧
    s'.created = [(5, 18), (5, 18), (3, 17)] ∧
      s'.eax 16 = 5 ∧ s'.eax 17 = 5 ∧ s'.pages 12288 = true ∧ ∀ i ∈ slots 16, (s'.thr i).kstack ≠ 12288) ∧
    ∃ s', Reaches (step 16) Always forked s' ∧ s'.pc 16 = .testExit .user ∧
    s'.eax 16 = 0 ∧ (s'.thr 17).kstack = 0 :=
  ⟨⟨_, exec_get_reaches forked sameSlot (by decide +kernel), by decide +kernel⟩,
    ⟨_, exec_get_reaches forked noStack (by decide +kernel), by decide +kernel⟩⟩

end Xv6.Process
