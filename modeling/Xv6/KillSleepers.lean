import Xv6.ExitWait

/-! `kill` and the kill branch of `trap()`, on top of the kernel model: which threads they leave asleep. -/

namespace Xv6.Kill

open Xv6.Runs Xv6.Threads Function
open Xv6.Kernel (boot cpuA cpuB creates scans)

inductive Loop where
  | sysSleep
  | piperead
  | pipewrite
  | consoleread
  deriving DecidableEq, Repr

def Loop.givesUp (exitRequest : ℤ) (closed : Bool) : Loop → Bool
  | .sysSleep => exitRequest ≠ 0
  | .pipewrite => closed
  | .piperead | .consoleread => false

/-- Where a thread is while the kernel model has it outside its calls: in `falls` it has passed the test of
`killed`, and `trapTest` and `trapStore` are the loop of `trap` over the threads of the process. -/
inductive Place where
  | out
  | test (loop : Loop)
  | falls (loop : Loop)
  | asleep (loop : Loop)
  | trapTest (rest : List ℕ)
  | trapStore (t : ℕ) (rest : List ℕ)
  deriving DecidableEq, Repr

variable {Cpu : Type} [DecidableEq Cpu]

/-- `early a t` is not read by the code: `t` was asleep in one of the wait loops of its process when `a`
stored `killed` the last time, and has been asleep since. -/
structure State (Cpu : Type) where
  kernel : Kernel.State Cpu
  place : ℕ → Place
  early : ℕ → ℕ → Bool

inductive Event (Cpu : Type) where
  | kernel (e : Kernel.Event Cpu)
  | enter (c : Cpu) (loop : Loop)
  | test (c : Cpu) (closed : Bool)
  | sleep (c : Cpu) (addr : ℕ)
  | awake (c : Cpu) (again : Bool)
  | kill (c : Cpu) (pid : ℤ)
  | trap (c : Cpu)
  | trapNext (c : Cpu)
  deriving DecidableEq, Repr

def State.next (s : State Cpu) (kernel : Kernel.State Cpu) : State Cpu :=
  { s with kernel := kernel, early := fun a t => s.early a t && (kernel.thr t).state = .sleeping }

def State.goto (s : State Cpu) (k : ℕ) (place : Place) : State Cpu :=
  { s with place := Function.update s.place k place }

def waits (s : State Cpu) (t : ℕ) : Bool :=
  (s.kernel.thr t).state = .sleeping && (s.kernel.context t = .waiting || match s.place t with
    | .asleep _ => true
    | _ => false)

def State.stored (s : State Cpu) (k p : ℕ) : State Cpu :=
  { s with early := Function.update s.early k fun t => row t = p && waits s t }

def actor (s : State Cpu) (c : Cpu) : Option ℕ :=
  match s.kernel.cpu c with
  | .runs k .free => some k
  | _ => none

def admits (s : State Cpu) : Kernel.Event Cpu → Bool
  | .call c _ | .sleep c _ =>
    match s.kernel.cpu c with
    | .runs k _ => s.place k = .out
    | _ => false
  | .kill _ => false
  | _ => true

def kill (s : State Cpu) (k : ℕ) (pid : ℤ) : Option (State Cpu) :=
  (Kernel.step s.kernel (.kill pid)).map fun kernel =>
    match killRow s.kernel.proc pid with
    | some p => (s.next kernel).stored k p
    | none => s.next kernel

def trap (s : State Cpu) (k : ℕ) : State Cpu :=
  ((s.next (s.kernel.setProc (row k) { s.kernel.proc (row k) with killed := true })).goto k
    (.trapTest (slots (base (row k))))).stored k (row k)

def trapNext (s : State Cpu) (k : ℕ) : Option (State Cpu) :=
  match s.place k with
  | .trapTest [] => some (s.goto k .out)
  | .trapTest (t :: rest) =>
    some (s.goto k (if (s.kernel.thr t).state = .sleeping then .trapStore t rest else .trapTest rest))
  | .trapStore t rest =>
    some ((s.next (s.kernel.setThr (setState s.kernel.thr t .runnable))).goto k (.trapTest rest))
  | _ => none

def step (s : State Cpu) : Event Cpu → Option (State Cpu)
  | .kernel e => if admits s e then (Kernel.step s.kernel e).map s.next else none
  | .enter c loop => (actor s c).bind fun k => if s.place k = .out then some (s.goto k (.test loop)) else none
  | .test c closed =>
    (actor s c).bind fun k =>
      match s.place k with
      | .test loop =>
        if (s.kernel.proc (row k)).killed ∨
          loop.givesUp (s.kernel.thr k).exitRequest closed then some (s.goto k .out)
        else some (s.goto k (.falls loop))
      | _ => none
  | .sleep c addr =>
    (actor s c).bind fun k =>
      match s.place k with
      | .falls loop =>
        (Kernel.step s.kernel (.sleep c addr)).map fun kernel => (s.next kernel).goto k (.asleep loop)
      | _ => none
  | .awake c again =>
    (actor s c).bind fun k =>
      match s.place k with
      | .asleep loop => some (s.goto k (if again then .test loop else .out))
      | _ => none
  | .kill c pid => (actor s c).bind fun k => if s.place k = .out then kill s k pid else none
  | .trap c => (actor s c).bind fun k => if s.place k = .out then some (trap s k) else none
  | .trapNext c => (actor s c).bind fun k => trapNext s k

def NoSleeper (s : State Cpu) : Event Cpu → Prop
  | .kill _ pid => ∀ p ∈ killRow s.kernel.proc pid, ∀ t ∈ slots (base p), waits s t = false
  | _ => True

instance (s : State Cpu) : ∀ e, Decidable (NoSleeper s e)
  | .kill _ pid =>
    inferInstanceAs (Decidable (∀ p ∈ killRow s.kernel.proc pid, ∀ t ∈ slots (base p), waits s t = false))
  | .kernel _ | .enter _ _ | .test _ _ | .sleep _ _ | .awake _ _ | .trap _ | .trapNext _ =>
    inferInstanceAs (Decidable True)

def Place.rest : Place → List ℕ
  | .trapTest rest => rest
  | .trapStore t rest => t :: rest
  | _ => []

def Place.done : Place → Bool
  | .trapTest _ | .trapStore _ _ => false
  | _ => true

structure Reached (s : State Cpu) : Prop where
  asleep : ∀ a t, s.early a t → (s.kernel.thr t).state = .sleeping
  rest : ∀ a t, s.early a t → t ∈ (s.place a).rest

section Steps

variable {s : State Cpu} {k : ℕ}

omit [DecidableEq Cpu] in
theorem Reached.next (h : Reached s) (kernel : Kernel.State Cpu) : Reached (s.next kernel) := by
  refine ⟨fun a t he => ?_, fun a t he => ?_⟩
  · exact of_decide_eq_true (Bool.and_eq_true_iff.mp he).2
  · exact h.rest a t (Bool.and_eq_true_iff.mp he).1

omit [DecidableEq Cpu] in
theorem Reached.goto (h : Reached s) {place : Place}
    (hrest : ∀ t ∈ (s.place k).rest, (s.kernel.thr t).state = .sleeping → t ∈ place.rest) :
    Reached (s.goto k place) := by
  refine ⟨h.asleep, fun a t he => ?_⟩
  simp only [State.goto]
  by_cases ha : a = k
  · rw [ha, update_self]
    exact hrest t (ha ▸ h.rest a t he) (h.asleep a t he)
  · rw [update_of_ne ha]
    exact h.rest a t he

omit [DecidableEq Cpu] in
theorem Reached.leave (h : Reached s) (hout : (s.place k).rest = []) (place : Place) :
    Reached (s.goto k place) := by
  refine h.goto fun t ht => ?_
  rw [hout] at ht
  cases ht

omit [DecidableEq Cpu] in
theorem Reached.stored (h : Reached s) {p : ℕ}
    (hrest : ∀ t, row t = p → waits s t → t ∈ (s.place k).rest) : Reached (s.stored k p) := by
  have hcases {a t : ℕ} (he : (s.stored k p).early a t) : s.early a t ∨ a = k ∧ row t = p ∧ waits s t := by
    simp only [State.stored] at he
    by_cases ha : a = k
    · rw [ha, update_self, Bool.and_eq_true_iff, decide_eq_true_eq] at he
      exact .inr ⟨ha, he⟩
    · rw [update_of_ne ha] at he
      exact .inl he
  refine ⟨fun a t he => ?_, fun a t he => ?_⟩
  · obtain he | ⟨_, _, hw⟩ := hcases he
    · exact h.asleep a t he
    · exact of_decide_eq_true (Bool.and_eq_true_iff.mp hw).1
  · obtain he | ⟨rfl, hrow, hw⟩ := hcases he
    · exact h.rest a t he
    · exact hrest t hrow hw

end Steps

theorem reached_step : Preserves (@step Cpu _) NoSleeper Reached := by
  intro s e s' h hok hs
  cases e with
  | kernel e =>
    obtain ⟨_, hs⟩ := Option.ite_none_right_eq_some.mp hs
    obtain ⟨kernel, _, rfl⟩ := Option.map_eq_some_iff.mp hs
    exact h.next kernel
  | enter c loop =>
    obtain ⟨k, _, hs⟩ := Option.bind_eq_some_iff.mp hs
    obtain ⟨hout, heq⟩ := Option.ite_none_right_eq_some.mp hs
    cases heq
    exact h.leave (by rw [hout]; rfl) _
  | test c closed =>
    obtain ⟨k, _, hs⟩ := Option.bind_eq_some_iff.mp hs
    split at hs
    · rename_i hplace
      split_ifs at hs with hk
      · cases hs
        exact h.leave (by rw [hplace]; rfl) _
      · cases hs
        exact h.leave (by rw [hplace]; rfl) _
    · cases hs
  | sleep c addr =>
    obtain ⟨k, _, hs⟩ := Option.bind_eq_some_iff.mp hs
    split at hs
    · rename_i hplace
      obtain ⟨kernel, _, rfl⟩ := Option.map_eq_some_iff.mp hs
      exact (h.next kernel).leave (by simp only [State.next, hplace]; rfl) _
    · cases hs
  | awake c again =>
    obtain ⟨k, _, hs⟩ := Option.bind_eq_some_iff.mp hs
    split at hs
    · rename_i hplace
      cases hs
      exact h.leave (by rw [hplace]; rfl) _
    · cases hs
  | kill c pid =>
    obtain ⟨k, _, hs⟩ := Option.bind_eq_some_iff.mp hs
    obtain ⟨hout, hs⟩ := Option.ite_none_right_eq_some.mp hs
    obtain ⟨kernel, hk, rfl⟩ := Option.map_eq_some_iff.mp hs
    obtain ⟨_, hk⟩ := Option.ite_none_right_eq_some.mp hk
    cases hk
    split
    · rename_i p hp
      refine (h.next _).stored fun t hrow hw => ?_
      have hfree : waits s t = false := hok p hp t (mem_slots.mpr hrow)
      have hsame : waits s t = true := hw
      rw [hfree] at hsame
      cases hsame
    · exact h.next _
  | trap c =>
    obtain ⟨k, _, hs⟩ := Option.bind_eq_some_iff.mp hs
    obtain ⟨hout, heq⟩ := Option.ite_none_right_eq_some.mp hs
    cases heq
    have hidle : (s.place k).rest = [] := by rw [hout]; rfl
    have hgo := (h.next (s.kernel.setProc (row k) { s.kernel.proc (row k) with killed := true })).leave hidle
      (.trapTest (slots (base (row k))))
    refine hgo.stored fun t hrow _ => ?_
    simp only [State.goto, update_self]
    exact mem_slots.mpr hrow
  | trapNext c =>
    obtain ⟨k, _, hs⟩ := Option.bind_eq_some_iff.mp hs
    unfold trapNext at hs
    split at hs
    · rename_i hplace
      cases hs
      exact h.leave (by rw [hplace]; rfl) _
    · rename_i t rest hplace
      cases hs
      refine h.goto fun u hu hasleep => ?_
      rw [hplace] at hu
      split_ifs with ht
      · exact hu
      · obtain rfl | hu := List.mem_cons.mp hu
        · exact absurd hasleep ht
        · exact hu
    · rename_i t rest hplace
      cases hs
      refine (h.next _).goto fun u hu hasleep => ?_
      have hu' : u ∈ t :: rest := by
        simp only [State.next, hplace] at hu
        exact hu
      obtain rfl | hu' := List.mem_cons.mp hu'
      · have hset : (setState s.kernel.thr u .runnable u).state = .sleeping := hasleep
        rw [setState_self] at hset
        cases hset
      · exact hu'
    · cases hs

theorem killed_reaches_sleepers (s₀ s : State Cpu) (hstart : ∀ a t, s₀.early a t = false)
    (hr : Reaches step NoSleeper s₀ s) (a : ℕ) (hdone : (s.place a).done) (t : ℕ) : s.early a t = false := by
  have hbegin : Reached s₀ := by
    refine ⟨fun a t he => ?_, fun a t he => ?_⟩
    · rw [hstart a t] at he
      cases he
    · rw [hstart a t] at he
      cases he
  have h := hr.invariant reached_step hbegin
  by_contra he
  have hrest := h.rest a t (Bool.not_eq_false _ ▸ he)
  cases hplace : s.place a with
  | trapTest rest =>
    rw [hplace] at hdone
    cases hdone
  | trapStore u rest =>
    rw [hplace] at hdone
    cases hdone
  | _ =>
    rw [hplace] at hrest
    cases hrest

def bootKill : State (Fin 2) := ⟨boot, fun _ => .out, fun _ _ => false⟩

def secondThread : List (Kernel.Event (Fin 2)) :=
  scans cpuA 3 ++ [.run cpuA] ++ creates cpuA ++ scans cpuB 4 ++ [.run cpuB]

def readerTurns : List (Event (Fin 2)) :=
  secondThread.map Event.kernel ++ [.enter cpuB .piperead, .test cpuB false, .sleep cpuB NPROC]

def readerAsleep : State (Fin 2) := (exec step NoSleeper bootKill readerTurns).get (by decide +kernel)

def trapTurns : List (Event (Fin 2)) := .trap cpuA :: List.replicate 18 (.trapNext cpuA)

def trapped : State (Fin 2) := (exec step NoSleeper bootKill (readerTurns ++ trapTurns)).get (by decide +kernel)

theorem killed_reaches_sleepers_trapped : (readerAsleep.kernel.thr 1).state = .sleeping ∧
    (trapped.kernel.proc 0).killed ∧ (trapped.kernel.thr 1).state = .runnable ∧ trapped.early 0 1 = false :=
  ⟨by decide +kernel, by decide +kernel, by decide +kernel,
    killed_reaches_sleepers bootKill trapped (fun _ _ => rfl)
    (exec_get_reaches _ _ (by decide +kernel)) 0 (by decide +kernel) 1⟩

def killTurns : List (Event (Fin 2)) := readerTurns ++ (scans cpuB 79).map Event.kernel ++ [.kill cpuA 1]

theorem kill_leaves_sleeper : ∃ s, Reaches step Always bootKill s ∧ (s.kernel.proc 0).killed ∧ s.place 0 = .out ∧
    s.place 1 = .asleep .piperead ∧ (s.kernel.thr 1).state = .sleeping ∧ s.early 0 1 :=
  ⟨_, exec_get_reaches _ killTurns (by decide +kernel), by decide +kernel, by decide +kernel, by decide +kernel,
    by decide +kernel, by decide +kernel⟩

end Xv6.Kill
