import Xv6.KernelSeats
import Mathlib.Data.Fintype.Basic

namespace Xv6.Kernel

open Xv6.Threads Xv6.Runs Function

def Pc.readies : Pc → Option ℕ
  | .forkCopy q | .forkParent q | .forkUsed q => some (base q)
  | .createRequest j | .createRunnable j => some j
  | _ => none

variable {Cpu : Type} [DecidableEq Cpu]

structure Represents (s : State Cpu) (a : Flows) : Prop where
  seats : Seats s a.flow
  state : ∀ q, (s.proc q).state = a.state q
  parent : ∀ q, (s.proc q).parent = a.parent q
  ready : ∀ k pc j, a.flow k = some pc → pc.readies = some j → s.context j = .forkret
  sound : a.Sound

def CpuState.pc : CpuState → Option Pc
  | .resumes _ context => some context.pc
  | .runs _ pc => some pc
  | _ => none

def Working (s : State Cpu) (j : ℕ) : Prop :=
  (∃ c, ∃ pc ∈ (s.cpu c).pc, pc.owns = some (.slot j)) ∨
    ∃ k ∈ slots (base (row j)), kind (s.thr k).state = .waits ∧ (s.context k).pc.owns = some (.slot j)

def CpuState.late : CpuState → Option ℕ
  | .runs _ (.forkUninit q) => some q
  | _ => none

def CpuState.searches : CpuState → Option ℕ
  | .runs k .createSearch => some k
  | _ => none

def KernelTurn (s : State Cpu) : Event Cpu → Prop
  | .run c =>
    (∀ q ∈ (s.cpu c).late, (s.thr (base q)).state.live = false) ∧
      ∀ k ∈ (s.cpu c).searches, ∀ j ∈ searchUninit s.thr (base (row k)), ¬ Working s j
  | _ => True

instance [Fintype Cpu] (s : State Cpu) (j : ℕ) : Decidable (Working s j) := inferInstanceAs (Decidable (_ ∨ _))

instance [Fintype Cpu] (s : State Cpu) : ∀ e, Decidable (KernelTurn s e)
  | .run c => inferInstanceAs (Decidable ((∀ q ∈ (s.cpu c).late, (s.thr (base q)).state.live = false) ∧
      ∀ k ∈ (s.cpu c).searches, ∀ j ∈ searchUninit s.thr (base (row k)), ¬ Working s j))
  | .scheduler _ | .call _ _ | .alloc _ _ | .sleep _ _ | .preempt _ | .wakeup _ | .kill _ =>
    inferInstanceAs (Decidable True)

section

variable {proc : ℕ → Proc} {thr : Table} {chan : Chan} {k j : ℕ} {b : ℕ} {state : ThreadState}

theorem wakeup1_kind : kind (wakeup1 proc thr chan k).state = kind (thr k).state := by
  unfold wakeup1
  split_ifs with h
  · rw [h.2.2.1]
    rfl
  · rfl

theorem requestExit_kind : kind (requestExit thr b k j).state = kind (thr j).state := by
  unfold requestExit
  split_ifs <;> rfl

theorem waitTable_kind : kind (waitTable thr b k).state = kind (thr k).state := by
  unfold waitTable
  split_ifs with h
  · rw [h.2]
    rfl
  · rfl

theorem update_kind {t : Kthread} (h : kind t.state = kind (thr k).state) (i : ℕ) :
    kind (update thr k t i).state = kind (thr i).state := by
  by_cases hi : i = k
  · rw [hi, update_self, h]
  · rw [update_of_ne hi]

theorem lastRunning_iff {p : ℕ} :
    lastRunning thr (base p) k = true ↔ ∀ j, row j = p → j ≠ k → kind (thr j).state = .off := by
  simp only [lastRunning, List.all_eq_true, mem_slots, Bool.or_eq_true, decide_eq_true_eq, Bool.not_eq_true']
  refine forall_congr' fun j => forall_congr' fun _ => ?_
  rw [← Bool.not_eq_true, live_iff, not_not]
  tauto

end

section

variable {s s' : State Cpu} {a a' : Flows} {c : Cpu} {k j q : ℕ} {pc pc₀ : Pc} {x : CpuState}

omit [DecidableEq Cpu] in
theorem rep_rows (hr : Represents s a) (hsound : a'.Sound) (hflow : a'.flow = a.flow) (hcpu : s'.cpu = s.cpu)
    (hcontext : s'.context = s.context) (hkind : ∀ k, kind (s'.thr k).state = kind (s.thr k).state)
    (hstate : ∀ q, (s'.proc q).state = a'.state q) (hparent : ∀ q, (s'.proc q).parent = a'.parent q) :
    Represents s' a' := by
  refine ⟨?_, hstate, hparent, ?_, hsound⟩
  · rw [hflow]
    exact seats_kind hr.seats hcpu hcontext hkind
  · rw [hflow, hcontext]
    exact hr.ready

omit [DecidableEq Cpu] in
theorem rep_kind (hr : Represents s a) (hcpu : s'.cpu = s.cpu) (hcontext : s'.context = s.context)
    (hproc : s'.proc = s.proc) (hkind : ∀ k, kind (s'.thr k).state = kind (s.thr k).state) : Represents s' a :=
  rep_rows hr hr.sound rfl hcpu hcontext hkind (by rw [hproc]; exact hr.state) (by rw [hproc]; exact hr.parent)

omit [DecidableEq Cpu] in
theorem ready_move {v : Option Pc} (hr : Represents s a) (hv : ∀ pc j, v = some pc →
    pc.readies = some j → s.context j = .forkret)
    (i : ℕ) (pc : Pc) (j : ℕ) (h : (a.move k v).flow i = some pc) (hj : pc.readies = some j) :
    s.context j = .forkret := by
  obtain ⟨-, hpc⟩ | ⟨-, h⟩ := move_flow h
  · exact hv pc j hpc hj
  · exact hr.ready i pc j h hj

theorem rep_goto (hr : Represents s a) (hc : (s.cpu c).seat = some (k, pc₀)) (hsound : (a.move k (some pc)).Sound)
    (hready : ∀ j, pc.readies = some j → s.context j = .forkret) (hx : x.seat = some (k, pc))
    (hcpu : s'.cpu = update s.cpu c x) (hthr : s'.thr = s.thr) (hcontext : s'.context = s.context)
    (hproc : s'.proc = s.proc) : Represents s' (a.move k (some pc)) := by
  refine ⟨seats_goto hr.seats hc hx hcpu hthr hcontext,
    by rw [hproc]; exact hr.state, by rw [hproc]; exact hr.parent, ?_, hsound⟩
  rw [hcontext]
  apply ready_move hr
  rintro pc' j ⟨⟩
  exact hready j

theorem Flows.Sound.unready (hi : a.Sound) (hk : a.flow k = some pc) (hj : pc.readies = some j) :
    a.flow j = none := by
  by_contra hne
  obtain ⟨pc', hj'⟩ := Option.ne_none_iff_exists'.mp hne
  have hused := hi.used j pc' hj'
  have hembryo {q : ℕ} (ho : pc.owns = some (.row q)) (hq : base q = j) : False := by
    have hvalid : a.state q = .embryo := hi.owned k pc _ hk ho
    rw [← hq, row_base, hvalid] at hused
    cases hused
  have hslot (ho : pc.owns = some (.slot j)) : False := hne (hi.owned k pc _ hk ho).2
  cases pc with
  | forkCopy q => exact hembryo rfl (Option.some.inj hj)
  | forkParent q => exact hembryo rfl (Option.some.inj hj)
  | forkUsed q => exact hembryo rfl (Option.some.inj hj)
  | createRequest i =>
    cases hj
    exact hslot rfl
  | createRunnable i =>
    cases hj
    exact hslot rfl
  | _ => cases hj

theorem rep_leave {ctx : Context} {v : Option Pc} (hr : Represents s a) (hc : (s.cpu c).seat = some (k, pc₀))
    (hsound : (a.move k v).Sound) (hready : ∀ pc, v = some pc → pc.readies = none ∨ pc = pc₀) (hx : x.seat = none)
    (hcpu : s'.cpu = update s.cpu c x) (hcontext : s'.context = update s.context k ctx)
    (hkind : ∀ i, i ≠ k → kind (s'.thr i).state = kind (s.thr i).state)
    (hv : kind (s'.thr k).state = .waits ∧ v = some ctx.pc ∨ kind (s'.thr k).state = .off ∧ v = none)
    (hproc : s'.proc = s.proc) : Represents s' (a.move k v) := by
  have hk := (hr.seats.cpu c k pc₀ hc).2
  refine ⟨seats_leave hr.seats hc hx hcpu hcontext hkind hv,
    by rw [hproc]; exact hr.state, by rw [hproc]; exact hr.parent, fun i pc j h hj => ?_, hsound⟩
  have hold : ∃ i pc, a.flow i = some pc ∧ pc.readies = some j := by
    obtain ⟨-, hpc⟩ | ⟨-, h⟩ := move_flow h
    · obtain hnone | rfl := hready pc hpc
      · rw [hnone] at hj
        cases hj
      · exact ⟨k, pc, hk, hj⟩
    · exact ⟨i, pc, h, hj⟩
  obtain ⟨i', pc', hi', hj'⟩ := hold
  have hne : j ≠ k := by
    rintro rfl
    rw [hr.sound.unready hi' hj'] at hk
    cases hk
  rw [hcontext, update_of_ne hne]
  exact hr.ready i' pc' j hi' hj'

omit [DecidableEq Cpu] in
theorem rep_context (hr : Represents s a) (hj : a.flow j = none) (hcpu : s'.cpu = s.cpu) (hthr : s'.thr = s.thr)
    (hcontext : s'.context = update s.context j .forkret) (hproc : s'.proc = s.proc) : Represents s' a := by
  refine ⟨seats_context hr.seats hj hcpu hthr hcontext,
    by rw [hproc]; exact hr.state, by rw [hproc]; exact hr.parent, fun i pc j' h hj' => ?_, hr.sound⟩
  rw [hcontext]
  by_cases hjj : j' = j
  · rw [hjj, update_self]
  · rw [update_of_ne hjj]
    exact hr.ready i pc j' h hj'

omit [DecidableEq Cpu] in
theorem rep_start (hr : Represents s a) (hj : a.flow j = none) (hcontext : s.context j = .forkret)
    (hsound : (a.move j (some .free)).Sound) (hcpu : s'.cpu = s.cpu) (hctx : s'.context = s.context)
    (hnew : kind (s'.thr j).state = .waits) (hkind : ∀ i, i ≠ j → kind (s'.thr i).state = kind (s.thr i).state)
    (hproc : s'.proc = s.proc) : Represents s' (a.move j (some .free)) := by
  refine ⟨seats_start hr.seats hj hcontext hcpu hctx hnew hkind, by rw [hproc]; exact hr.state,
    by rw [hproc]; exact hr.parent, ?_, hsound⟩
  rw [hctx]
  apply ready_move hr
  rintro pc j ⟨⟩ hno
  cases hno

end

end Xv6.Kernel
