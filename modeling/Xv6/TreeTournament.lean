import Xv6.TreePaths
import Mathlib.Logic.Embedding.Basic

/-! `trnmnt_tree_acquire` and `trnmnt_tree_release` by many threads when the mutex of every inner node is an ideal
lock: a lock call waits until nobody holds it, an unlock call by another thread than the owner returns -1. -/

open Function

namespace Xv6.Tournament

def Tree.relock (lock : ℕ → ℤ) : Tree → Tree
  | .leaf node => .leaf node
  | .inner node left right => .inner { node with mutexId := lock node.addr } (left.relock lock) (right.relock lock)

def Tree.subtrees : Tree → List Tree
  | .leaf node => [.leaf node]
  | .inner node left right => .inner node left right :: (left.subtrees ++ right.subtrees)

end Xv6.Tournament

namespace Xv6.Tournament.Ideal

open Xv6.Runs

inductive Pc where
  | idle
  | returned (value : ℤ)
  | climbing (leaf curNode : TreeNode)
  | locking (leaf curNode parent : TreeNode)
  | locked (leaf curNode parent : TreeNode) (mutexLock : ℤ)
  | releasing (leaf : TreeNode) (i : ℤ)
  | unlocked (leaf : TreeNode) (i res : ℤ)
  deriving DecidableEq, Repr

def Pc.free : Pc → Bool
  | .idle | .returned _ => true
  | _ => false

structure Seat where
  pc : Pc
  inside : Bool
  leaving : Bool
  deriving DecidableEq, Repr

structure State (Thread : Type) where
  owner : ℤ → Option Thread
  lockPath : ℕ → ℤ → ℤ
  seat : Thread → Seat

inductive Event (Thread : Type) where
  | acquire (t : Thread)
  | release (t : Thread)
  | run (t : Thread)
  deriving DecidableEq, Repr

section Code

variable {Thread : Type} [DecidableEq Thread]

@[simps]
def State.sit (s : State Thread) (t : Thread) (seat : Seat) : State Thread :=
  { s with seat := Function.update s.seat t seat }

def State.goto (s : State Thread) (t : Thread) (pc : Pc) : State Thread := s.sit t { s.seat t with pc := pc }

@[simps]
def State.setOwner (s : State Thread) (mutexId : ℤ) (owner : Option Thread) : State Thread :=
  { s with owner := Function.update s.owner mutexId owner }

@[simps]
def State.setLockPath (s : State Thread) (path : ℕ) (i value : ℤ) : State Thread :=
  { s with lockPath := Function.update s.lockPath path (Function.update (s.lockPath path) i value) }

def lockDone (s : State Thread) (t : Thread) (leaf curNode parent : TreeNode) (mutexLock : ℤ) : State Thread :=
  let s := s.setLockPath leaf.lockPath parent.level parent.mutexId
  if mutexLock = -1 then s.goto t (.returned (-1))
  else if mutexLock = 0 then s.goto t (.climbing leaf parent)
  else s.goto t (.climbing leaf curNode)

def unlockNext (s : State Thread) (t : Thread) (leaf : TreeNode) (i : ℤ) : State Thread :=
  if i < 0 then s.goto t (.returned 0)
  else if s.owner (s.lockPath leaf.lockPath i) = some t then
    (s.setOwner (s.lockPath leaf.lockPath i) none).goto t (.unlocked leaf i 0)
  else s.goto t (.unlocked leaf i (-1))

def unlockDone (s : State Thread) (t : Thread) (leaf : TreeNode) (i res : ℤ) : State Thread :=
  if res = -1 then s.goto t (.returned (-1))
  else (s.setLockPath leaf.lockPath i 0).goto t (.releasing leaf (i - 1))

def resume (tree : Tree) (s : State Thread) (t : Thread) : Option (State Thread) :=
  match (s.seat t).pc with
  | .idle | .returned _ => none
  | .climbing leaf curNode =>
    if curNode.parent = 0 then some (s.sit t { s.seat t with pc := .returned 0, inside := true })
    else (tree.nodeAt curNode.parent).map fun parent => s.goto t (.locking leaf curNode parent)
  | .locking leaf curNode parent =>
    if s.owner parent.mutexId = none then
      some ((s.setOwner parent.mutexId (some t)).goto t (.locked leaf curNode parent 0))
    else none
  | .locked leaf curNode parent mutexLock => some (lockDone s t leaf curNode parent mutexLock)
  | .releasing leaf i => some (unlockNext s t leaf i)
  | .unlocked leaf i res => some (unlockDone s t leaf i res)

def step (tree : Tree) (treeDepth : ℤ) (ID : Thread → ℤ) (s : State Thread) : Event Thread → Option (State Thread)
  | .acquire t =>
    if (s.seat t).pc.free then
      (findLeaf (ID t) tree).map fun leaf => s.sit t { s.seat t with pc := .climbing leaf leaf, leaving := false }
    else none
  | .release t =>
    if (s.seat t).pc.free then
      (findLeaf (ID t) tree).map fun leaf =>
        s.sit t { pc := .releasing leaf (treeDepth - 1), inside := false, leaving := (s.seat t).inside }
    else none
  | .run t => resume tree s t

def start (lockPath : ℕ → ℤ → ℤ) : State Thread := ⟨fun _ => none, lockPath, fun _ => ⟨.idle, false, false⟩⟩

def Holds (s : State Thread) (t : Thread) (node : TreeNode) : Prop := s.owner node.mutexId = some t

def Waits (s : State Thread) (t : Thread) (node : TreeNode) : Prop :=
  ∃ leaf curNode, (s.seat t).pc = .locking leaf curNode node

def From (tree side : Tree) (ID : Thread → ℤ) (t : Thread) : Prop :=
  ∃ leaf ∈ side.leaves, findLeaf (ID t) tree = some leaf

structure Disciplined (tree : Tree) (treeDepth : ℤ) (ID : Thread → ℤ) (s : State Thread) : Prop where
  oneSide : ∀ node left right, Tree.inner node left right ∈ tree.subtrees → ∀ side, side = left ∨ side = right →
    ∀ t t', From tree side ID t → From tree side ID t' → Holds s t node ∨ Waits s t node →
      Holds s t' node ∨ Waits s t' node → t = t'
  below : ∀ node ∈ tree.inners, ∀ t, Holds s t node ∨ Waits s t node → ∀ leaf above,
    tree.path (ID t) = some (leaf, above) →
      ∃ lower upper, above = lower ++ node :: upper ∧ ∀ m ∈ lower, Holds s t m
  alone : ∀ t t', (s.seat t).inside → (s.seat t').inside → t = t'
  release : ∀ t, (s.seat t).inside → (s.seat t).pc.free → ∃ s₁, step tree treeDepth ID s (.release t) = some s₁ ∧
    ∀ s', Reaches (step tree treeDepth ID) (fun _ e => e ≠ .acquire t ∧ e ≠ .release t) s₁ s' →
      (∃ s'', Reaches (step tree treeDepth ID) (fun _ e => e = .run t) s' s'' ∧ (s''.seat t).pc = .returned 0) ∧
      ∀ value, (s'.seat t).pc = .returned value → value = 0 ∧
        ∀ leaf above, tree.path (ID t) = some (leaf, above) → ∀ n ∈ above, ¬ Holds s' t n

end Code

structure Field (tree : Tree) (depth : ℕ) : Prop extends Laid tree depth where
  pos : 1 ≤ depth
  names : ∀ n ∈ tree.inners, ∀ m ∈ tree.inners, n.mutexId = m.mutexId → n = m

section Paths

variable {tree : Tree} {depth : ℕ} {id : ℤ} {leaf : TreeNode} {above : List TreeNode}

theorem Field.locks (hf : Field tree depth) (h : tree.path id = some (leaf, above)) :
    (above.map TreeNode.mutexId).Nodup := by
  have hrise := (path_rises hf.shaped h).1
  have hnodup : (above.map TreeNode.level).Nodup := by
    rw [hrise.levels]
    exact List.nodup_range.map fun _ _ => Int.ofNat.inj
  exact (List.Nodup.of_map _ hnodup).map_on fun n hn m hm => hf.names n (hrise.inners n hn) m (hrise.inners m hm)

theorem Field.above_ne_nil (hf : Field tree depth) (h : tree.path id = some (leaf, above)) : above ≠ [] := by
  rintro rfl
  have hlength := (path_rises hf.shaped h).1.length
  have hpos := hf.pos
  rw [← hlength] at hpos
  exact Nat.not_succ_le_zero 0 hpos

theorem Field.above_inner (hf : Field tree depth) {n : TreeNode} {lower upper : List TreeNode}
    (hpath : tree.path id = some (leaf, above)) (habove : above = lower ++ n :: upper) :
    n ∈ tree.inners ∧ n.level = lower.length := by
  have hrise := (path_rises hf.shaped hpath).1
  subst habove
  have hlevel := hrise.level (i := lower.length) (by simp)
  exact ⟨hrise.inners _ (by simp), by simpa using hlevel⟩

theorem lockPath_blocks (h : leaf ∈ tree.leaves) : leaf.lockPath ∈ tree.blocks := by
  induction tree with
  | leaf node =>
    rw [List.mem_singleton.mp h]
    exact List.mem_cons_of_mem _ (List.mem_singleton_self _)
  | inner node left right ihl ihr =>
    exact List.mem_cons_of_mem _ (List.mem_append.mpr ((List.mem_append.mp h).imp ihl ihr))

theorem lockPath_inj {leaf' : TreeNode} (hnodup : tree.blocks.Nodup) (h : leaf ∈ tree.leaves)
    (h' : leaf' ∈ tree.leaves) (heq : leaf.lockPath = leaf'.lockPath) : leaf = leaf' := by
  induction tree with
  | leaf node => rw [List.mem_singleton.mp h, List.mem_singleton.mp h']
  | inner node left right ihl ihr =>
    obtain ⟨_, hnodup⟩ := List.nodup_cons.mp hnodup
    obtain ⟨hl, hr, hdisj⟩ := List.nodup_append'.mp hnodup
    obtain h | h := List.mem_append.mp h
    · obtain h' | h' := List.mem_append.mp h'
      · exact ihl hl h h'
      · exact (hdisj (lockPath_blocks h) (heq ▸ lockPath_blocks h')).elim
    · obtain h' | h' := List.mem_append.mp h'
      · exact (hdisj (heq ▸ lockPath_blocks h') (lockPath_blocks h)).elim
      · exact ihr hr h h'

theorem path_leaf (h : tree.path id = some (leaf, above)) : leaf ∈ tree.leaves := by
  induction tree generalizing above with
  | leaf node =>
    simp only [Tree.path, Option.ite_none_right_eq_some, Option.some.injEq, Prod.mk.injEq] at h
    rw [h.2.1]
    exact List.mem_singleton_self _
  | inner node left right ihl ihr =>
    obtain ⟨⟨leaf', below⟩, hbelow, heq⟩ := Option.map_eq_some_iff.mp h
    obtain ⟨rfl, rfl⟩ := Prod.mk.inj heq
    obtain hp | ⟨_, hp⟩ := Option.or_eq_some_iff.mp hbelow
    · exact List.mem_append_left _ (ihl hp)
    · exact List.mem_append_right _ (ihr hp)

variable {node : TreeNode} {left right sub : Tree}

theorem path_child {side : Tree} (hnodup : (Tree.inner node left right).blocks.Nodup)
    (hside : side = left ∨ side = right) (h : (Tree.inner node left right).path id = some (leaf, above))
    (hleaf : leaf ∈ side.leaves) : ∃ lower, side.path id = some (leaf, lower) ∧ above = lower ++ [node] := by
  obtain ⟨⟨leaf', lower⟩, hlower, heq⟩ := Option.map_eq_some_iff.mp h
  obtain ⟨rfl, rfl⟩ := Prod.mk.inj heq
  obtain ⟨_, _, hdisj⟩ := List.nodup_append'.mp (List.nodup_cons.mp hnodup).2
  have hapart {l : TreeNode} (hl : l ∈ left.leaves) (hr : l ∈ right.leaves) : False :=
    hdisj (lockPath_blocks hl) (lockPath_blocks hr)
  refine ⟨lower, ?_, rfl⟩
  obtain hp | ⟨_, hp⟩ := Option.or_eq_some_iff.mp hlower
  · obtain rfl | rfl := hside
    · exact hp
    · exact (hapart (path_leaf hp) hleaf).elim
  · obtain rfl | rfl := hside
    · exact (hapart hleaf (path_leaf hp)).elim
    · exact hp

theorem path_root (h : (Tree.inner node left right).path id = some (leaf, above)) :
    node ∈ above := by
  obtain ⟨below, _, heq⟩ := Option.map_eq_some_iff.mp h
  rw [← (Prod.mk.inj heq).2]
  exact List.mem_append_right _ (List.mem_singleton_self _)

theorem subtrees_leaves (h : sub ∈ tree.subtrees) : ∀ n ∈ sub.leaves, n ∈ tree.leaves := by
  induction tree with
  | leaf node =>
    rw [List.mem_singleton.mp h]
    exact fun _ => id
  | inner node left right ihl ihr =>
    obtain rfl | h := List.mem_cons.mp h
    · exact fun _ => id
    · intro n hn
      exact List.mem_append.mpr ((List.mem_append.mp h).imp (fun h => ihl h n hn) fun h => ihr h n hn)

theorem path_through (hnodup : tree.blocks.Nodup) (hsub : sub ∈ tree.subtrees)
    (h : tree.path id = some (leaf, above)) (hleaf : leaf ∈ sub.leaves) :
    sub.blocks.Nodup ∧ ∃ lower upper, sub.path id = some (leaf, lower) ∧ above = lower ++ upper := by
  induction tree generalizing above with
  | leaf node =>
    rw [List.mem_singleton.mp hsub]
    exact ⟨hnodup, above, [], h, (List.append_nil above).symm⟩
  | inner node left right ihl ihr =>
    obtain rfl | hin := List.mem_cons.mp hsub
    · exact ⟨hnodup, above, [], h, (List.append_nil above).symm⟩
    · obtain ⟨hl, hr, _⟩ := List.nodup_append'.mp (List.nodup_cons.mp hnodup).2
      obtain hin | hin := List.mem_append.mp hin
      · obtain ⟨lower, hp, rfl⟩ := path_child hnodup (.inl rfl) h (subtrees_leaves hin leaf hleaf)
        obtain ⟨hn, lower', upper, hp', rfl⟩ := ihl hl hin hp
        exact ⟨hn, lower', upper ++ [node], hp', List.append_assoc _ _ _⟩
      · obtain ⟨lower, hp, rfl⟩ := path_child hnodup (.inr rfl) h (subtrees_leaves hin leaf hleaf)
        obtain ⟨hn, lower', upper, hp', rfl⟩ := ihr hr hin hp
        exact ⟨hn, lower', upper ++ [node], hp', List.append_assoc _ _ _⟩

end Paths

inductive Stands (leaf : TreeNode) (above : List TreeNode) : Seat → List TreeNode → List TreeNode → Prop
  | outside (pc : Pc) (hfree : pc.free) : Stands leaf above ⟨pc, false, false⟩ [] []
  | left : Stands leaf above ⟨.returned 0, false, true⟩ [] []
  | inside (pc : Pc) (hfree : pc.free) : Stands leaf above ⟨pc, true, false⟩ above above
  | climbing (held upper : List TreeNode) (curNode : TreeNode) (hpath : above = held ++ upper)
      (hup : Links curNode upper 0) : Stands leaf above ⟨.climbing leaf curNode, false, false⟩ held held
  | locking (held upper : List TreeNode) (curNode parent : TreeNode) (hpath : above = held ++ parent :: upper)
      (hup : Links parent upper 0) : Stands leaf above ⟨.locking leaf curNode parent, false, false⟩ held held
  | locked (held upper : List TreeNode) (curNode parent : TreeNode) (hpath : above = held ++ parent :: upper)
      (hup : Links parent upper 0) :
      Stands leaf above ⟨.locked leaf curNode parent 0, false, false⟩ (held ++ [parent]) held
  | again : Stands leaf above ⟨.climbing leaf leaf, true, false⟩ above above
  | stuck (parent : TreeNode) (upper : List TreeNode) (hpath : above = parent :: upper) :
      Stands leaf above ⟨.locking leaf leaf parent, true, false⟩ above above
  | releasing (held upper : List TreeNode) (hpath : above = held ++ upper) :
      Stands leaf above ⟨.releasing leaf (held.length - 1), false, true⟩ held held
  | unlocked (held upper : List TreeNode) (hpath : above = held ++ upper) :
      Stands leaf above ⟨.unlocked leaf held.length 0, false, true⟩ held held
  | refused : Stands leaf above ⟨.releasing leaf (above.length - 1), false, false⟩ [] []
  | refusing (i : ℤ) : Stands leaf above ⟨.unlocked leaf i (-1), false, false⟩ [] []

variable {Thread : Type}

structure Climber (s : State Thread) (t : Thread) (leaf : TreeNode) (above held noted : List TreeNode) : Prop where
  owns : ∀ id, s.owner id = some t ↔ id ∈ held.map TreeNode.mutexId
  notes : ∀ (i : ℕ) n, noted[i]? = some n → s.lockPath leaf.lockPath i = n.mutexId
  stands : Stands leaf above (s.seat t) held noted

structure Apart (s s' : State Thread) (t : Thread) (leaf : TreeNode) : Prop where
  seat : ∀ u ≠ t, s'.seat u = s.seat u
  owner : ∀ u ≠ t, ∀ id, s'.owner id = some u ↔ s.owner id = some u
  lockPath : ∀ path ≠ leaf.lockPath, s'.lockPath path = s.lockPath path

section Standing

variable {tree : Tree} {depth : ℕ} {treeDepth : ℤ} {ID : Thread → ℤ} {leaf n : TreeNode}
  {above held noted : List TreeNode} {s s' : State Thread} {t : Thread} {seat : Seat}

theorem Climber.frame {u : Thread} {leaf' : TreeNode} (h : Climber s u leaf' above held noted)
    (ha : Apart s s' t leaf) (hu : u ≠ t) (hleaf : leaf'.lockPath ≠ leaf.lockPath) :
    Climber s' u leaf' above held noted := by
  refine ⟨fun id => (ha.owner u hu id).trans (h.owns id), fun i n hn => ?_, ?_⟩
  · rw [ha.lockPath _ hleaf]
    exact h.notes i n hn
  · rw [ha.seat u hu]
    exact h.stands

theorem Stands.free_cases (h : Stands leaf above seat held noted) (hfree : seat.pc.free) :
    seat.inside = false ∧ held = [] ∧ noted = [] ∨ seat.inside = true ∧ held = above ∧ noted = above := by
  cases h with
  | outside => exact .inl ⟨rfl, rfl, rfl⟩
  | left => exact .inl ⟨rfl, rfl, rfl⟩
  | inside => exact .inr ⟨rfl, rfl, rfl⟩
  | _ => cases hfree

theorem Stands.lower (h : Stands leaf above seat held noted) : held <+: above := by
  cases h with
  | outside => exact List.nil_prefix
  | left => exact List.nil_prefix
  | inside => exact List.prefix_refl _
  | climbing _ upper _ habove => exact ⟨upper, habove.symm⟩
  | locking _ upper _ parent habove => exact ⟨parent :: upper, habove.symm⟩
  | locked lower upper _ parent habove => exact ⟨upper, by rw [habove, List.append_assoc, List.singleton_append]⟩
  | again => exact List.prefix_refl _
  | stuck => exact List.prefix_refl _
  | releasing _ upper habove => exact ⟨upper, habove.symm⟩
  | unlocked _ upper habove => exact ⟨upper, habove.symm⟩
  | refused => exact List.nil_prefix
  | refusing => exact List.nil_prefix

theorem Stands.inside_held (h : Stands leaf above seat held noted) (hin : seat.inside) : held = above := by
  cases h with
  | inside => rfl
  | again => rfl
  | stuck => rfl
  | _ => cases hin

theorem Stands.leaving_cases (h : Stands leaf above seat held noted) (hl : seat.leaving) :
    seat.pc = .returned 0 ∧ held = [] ∨ seat.pc = .releasing leaf (held.length - 1) ∨
      seat.pc = .unlocked leaf held.length 0 := by
  cases h with
  | left => exact .inl ⟨rfl, rfl⟩
  | releasing => exact .inr (.inl rfl)
  | unlocked => exact .inr (.inr rfl)
  | _ => cases hl

def Orderly (tree : Tree) (ID : Thread → ℤ) (s : State Thread) : Prop :=
  ∀ t, ∃ leaf above held noted, tree.path (ID t) = some (leaf, above) ∧ Climber s t leaf above held noted

theorem Orderly.climber (ho : Orderly tree ID s) (hpath : tree.path (ID t) = some (leaf, above)) :
    ∃ held noted, Climber s t leaf above held noted := by
  obtain ⟨leaf', above', held, noted, hpath', h⟩ := ho t
  rw [hpath] at hpath'
  cases hpath'
  exact ⟨held, noted, h⟩

theorem orderly_start (hall : ∀ t, (tree.path (ID t)).isSome) (lockPath : ℕ → ℤ → ℤ) :
    Orderly tree ID (start lockPath) := by
  intro t
  obtain ⟨⟨leaf, above⟩, hpath⟩ := Option.isSome_iff_exists.mp (hall t)
  exact ⟨leaf, above, [], [], hpath, fun id => by simp [start], nofun, .outside _ rfl⟩

theorem Orderly.below (hf : Field tree depth) (ho : Orderly tree ID s) (hn : n ∈ tree.inners)
    (hpath : tree.path (ID t) = some (leaf, above)) (h : Holds s t n ∨ Waits s t n) :
    ∃ lower upper, above = lower ++ n :: upper ∧ ∀ m ∈ lower, Holds s t m := by
  obtain ⟨held, noted, hc⟩ := ho.climber hpath
  have hrise := (path_rises hf.shaped hpath).1
  have hheld (m : TreeNode) (hm : m ∈ held) : Holds s t m := (hc.owns _).mpr (List.mem_map_of_mem hm)
  obtain h | ⟨leaf', curNode, hpc⟩ := h
  · obtain ⟨m, hm, hname⟩ := List.mem_map.mp ((hc.owns _).mp h)
    obtain ⟨upper, rfl⟩ := hc.stands.lower
    have hmn : m = n := hf.names m (hrise.inners m (List.mem_append_left _ hm)) n hn hname
    subst hmn
    obtain ⟨lower, rest, rfl⟩ := List.append_of_mem hm
    exact ⟨lower, rest ++ upper, by simp, fun k hk => hheld k (List.mem_append_left _ hk)⟩
  · have hstands := hc.stands
    generalize s.seat t = seat at hstands hpc
    cases hstands with
    | locking _ upper _ parent habove =>
      cases hpc
      exact ⟨held, upper, habove, hheld⟩
    | stuck parent upper habove =>
      cases hpc
      exact ⟨[], upper, habove, nofun⟩
    | outside pc hfree =>
      cases hpc
      cases hfree
    | inside pc hfree =>
      cases hpc
      cases hfree
    | _ => cases hpc

theorem Orderly.oneSide (hf : Field tree depth) (hID : Function.Injective ID) (ho : Orderly tree ID s)
    {node : TreeNode} {left right side : Tree} {t' : Thread} (hsub : Tree.inner node left right ∈ tree.subtrees)
    (hside : side = left ∨ side = right) (ht : From tree side ID t) (ht' : From tree side ID t')
    (h : Holds s t node ∨ Waits s t node) (h' : Holds s t' node ∨ Waits s t' node) : t = t' := by
  have hcome {u : Thread} (hu : From tree side ID u) (hw : Holds s u node ∨ Waits s u node) :
      ∃ leaf lower, side.path (ID u) = some (leaf, lower) ∧ ∀ m ∈ lower, Holds s u m := by
    obtain ⟨leaf, hleaf, hfind⟩ := hu
    obtain ⟨leaf', above, held, noted, hpath, hc⟩ := ho u
    have hsame : leaf' = leaf := by
      rw [path_findLeaf, hpath] at hfind
      exact Option.some.inj hfind
    subst hsame
    have hin : leaf' ∈ (Tree.inner node left right).leaves := by
      obtain rfl | rfl := hside
      · exact List.mem_append_left _ hleaf
      · exact List.mem_append_right _ hleaf
    obtain ⟨hnodup, below, upper, hp, rfl⟩ := path_through hf.blocks hsub hpath hin
    obtain ⟨lower, hlower, rfl⟩ := path_child hnodup hside hp hleaf
    refine ⟨leaf', lower, hlower, ?_⟩
    have hrise := (path_rises hf.shaped hpath).1
    obtain ⟨lower', upper', heq, hheld⟩ := ho.below hf (hrise.inners node (by simp)) hpath hw
    have hnodup := (List.Nodup.of_map _ (hf.locks hpath))
    rw [List.append_assoc, List.singleton_append] at heq hnodup
    have hone := List.nodup_middle.mp hnodup
    rw [List.nodup_cons, List.mem_append, not_or] at hone
    have hsplit := (List.append_cons_inj_of_notMem hone.1.1 hone.1.2).mp heq
    rw [hsplit.1]
    exact hheld
  obtain ⟨leaf, lower, hp, hheld⟩ := hcome ht h
  obtain ⟨leaf', lower', hp', hheld'⟩ := hcome ht' h'
  cases side with
  | leaf only =>
    simp only [Tree.path, Option.ite_none_right_eq_some] at hp hp'
    exact hID (hp.1.trans hp'.1.symm)
  | inner child l r =>
    have hown := hheld child (path_root hp)
    have hown' := hheld' child (path_root hp')
    exact Option.some.inj (hown.symm.trans hown')

theorem Orderly.alone (hf : Field tree depth) (ho : Orderly tree ID s) {t' : Thread} (h : (s.seat t).inside)
    (h' : (s.seat t').inside) : t = t' := by
  have hroot {u : Thread} (hu : (s.seat u).inside) : Holds s u tree.node := by
    obtain ⟨leaf, above, held, noted, hpath, hc⟩ := ho u
    have hheld : held = above := hc.stands.inside_held hu
    subst hheld
    refine (hc.owns _).mpr (List.mem_map_of_mem ?_)
    cases tree with
    | leaf only =>
      obtain ⟨_, heq⟩ := Option.ite_none_right_eq_some.mp hpath
      exact (hf.above_ne_nil hpath (Prod.mk.inj (Option.some.inj heq)).2.symm).elim
    | inner node left right => exact path_root hpath
  exact Option.some.inj ((hroot h).symm.trans (hroot h'))

end Standing

section Steps

variable [DecidableEq Thread] {tree : Tree} {depth : ℕ} {ID : Thread → ℤ} {leaf n : TreeNode}
  {above held noted : List TreeNode} {s s' : State Thread} {t : Thread} {seat : Seat}

def Moves (s s' : State Thread) (t : Thread) (leaf : TreeNode) (above : List TreeNode) : Prop :=
  (∃ held noted, Climber s' t leaf above held noted) ∧ Apart s s' t leaf

theorem goto_eq {pc : Pc} {inside leaving : Bool} (h : s.seat t = ⟨pc, inside, leaving⟩) (next : Pc) :
    s.goto t next = s.sit t ⟨next, inside, leaving⟩ := by
  rw [State.goto, h]

theorem Climber.sit (h : Climber s t leaf above held noted) (hs : Stands leaf above seat held noted) :
    Moves s (s.sit t seat) t leaf above := by
  refine ⟨⟨held, noted, h.owns, h.notes, ?_⟩, fun u hu => update_of_ne hu _ _,
    fun _ _ _ => Iff.rfl, fun _ _ => rfl⟩
  rw [State.sit_seat, update_self]
  exact hs

theorem Climber.take (h : Climber s t leaf above held noted) (hfree : s.owner n.mutexId = none)
    (hs : Stands leaf above seat (held ++ [n]) noted) :
    Moves s ((s.setOwner n.mutexId (some t)).sit t seat) t leaf above := by
  refine ⟨⟨held ++ [n], noted, fun id => ?_, h.notes, ?_⟩, fun u hu => update_of_ne hu _ _, fun u hu id => ?_,
    fun _ _ => rfl⟩
  · rw [List.map_append, List.mem_append, ← h.owns, State.sit_owner, State.setOwner_owner, List.map_singleton,
      List.mem_singleton]
    by_cases hid : id = n.mutexId
    · simp [hid]
    · simp [hid]
  · rw [State.sit_seat, update_self]
    exact hs
  · rw [State.sit_owner, State.setOwner_owner]
    by_cases hid : id = n.mutexId
    · rw [hid, update_self, hfree]
      simp [hu.symm]
    · rw [update_of_ne hid]

theorem Climber.drop (h : Climber s t leaf above (held ++ [n]) noted) {lower : List TreeNode}
    (hnodup : ((held ++ [n]).map TreeNode.mutexId).Nodup) (hlower : lower <+: noted)
    (hs : Stands leaf above seat held lower) :
    Moves s ((s.setOwner n.mutexId none).sit t seat) t leaf above := by
  have howner : s.owner n.mutexId = some t := (h.owns _).mpr (by simp)
  rw [List.map_append, List.map_singleton] at hnodup
  have hlast : n.mutexId ∉ held.map TreeNode.mutexId := fun hmem =>
    (List.nodup_append'.mp hnodup).2.2 hmem (List.mem_singleton_self _)
  refine ⟨⟨held, lower, fun id => ?_, fun i m hm => ?_, ?_⟩, fun u hu => update_of_ne hu _ _, fun u hu id => ?_,
    fun _ _ => rfl⟩
  · rw [State.sit_owner, State.setOwner_owner]
    by_cases hid : id = n.mutexId
    · rw [hid, update_self]
      exact ⟨nofun, fun hmem => (hlast hmem).elim⟩
    · rw [update_of_ne hid, h.owns, List.map_append, List.mem_append, List.map_singleton,
        List.mem_singleton, or_iff_left hid]
  · obtain ⟨rest, rfl⟩ := hlower
    obtain ⟨hi, rfl⟩ := List.getElem?_eq_some_iff.mp hm
    exact h.notes i _ (by rw [List.getElem?_append_left hi, hm])
  · rw [State.sit_seat, update_self]
    exact hs
  · rw [State.sit_owner, State.setOwner_owner]
    by_cases hid : id = n.mutexId
    · rw [hid, update_self, howner]
      simp [hu.symm]
    · rw [update_of_ne hid]

theorem Climber.note (h : Climber s t leaf above held noted) {noted' : List TreeNode} {value : ℤ}
    (hnoted : noted' = noted ∨ noted' = noted ++ [n] ∧ value = n.mutexId)
    (hs : Stands leaf above seat held noted') :
    Moves s ((s.setLockPath leaf.lockPath noted.length value).sit t seat) t leaf above := by
  refine ⟨⟨held, noted', h.owns, fun i m hm => ?_, ?_⟩, fun u hu => update_of_ne hu _ _, fun _ _ _ => Iff.rfl,
    fun path hp => update_of_ne hp _ _⟩
  · rw [State.sit_lockPath, State.setLockPath_lockPath, update_self]
    have hold (hi : i < noted.length) (hm : noted[i]? = some m) :
        update (s.lockPath leaf.lockPath) (noted.length : ℤ) value i = m.mutexId := by
      rw [update_of_ne (by omega)]
      exact h.notes i m hm
    obtain rfl | ⟨rfl, rfl⟩ := hnoted
    · exact hold (List.getElem?_eq_some_iff.mp hm).1 hm
    · obtain hi | hi := Nat.lt_or_ge i noted.length
      · exact hold hi (by rwa [List.getElem?_append_left hi] at hm)
      · have hi' : i = noted.length := by
          have hlt := (List.getElem?_eq_some_iff.mp hm).1
          rw [List.length_append, List.length_singleton] at hlt
          omega
        rw [hi', List.getElem?_concat_length, Option.some.injEq] at hm
        rw [hi', update_self, hm]
  · rw [State.sit_seat, update_self]
    exact hs

theorem resume_climbing (hf : Field tree depth) {curNode parent : TreeNode} {inside : Bool}
    (hmem : parent ∈ tree.inners) (hparent : curNode.parent = parent.addr)
    (hseat : s.seat t = ⟨.climbing leaf curNode, inside, false⟩) :
    resume tree s t = some (s.sit t ⟨.locking leaf curNode parent, inside, false⟩) := by
  rw [resume, hseat]
  simp only
  rw [hparent, if_neg (hf.addr_ne_zero hmem), hf.nodeAt hmem, Option.map_some, goto_eq hseat]

theorem Climber.unlock (hf : Field tree depth) (hpath : tree.path (ID t) = some (leaf, above))
    (h : Climber s t leaf above (held ++ [n]) (held ++ [n])) {upper : List TreeNode}
    (habove : above = held ++ [n] ++ upper)
    (hseat : s.seat t = ⟨.releasing leaf ((held ++ [n]).length - 1), false, true⟩)
    (hs : resume tree s t = some s') : Moves s s' t leaf above := by
  have hlast : (((held ++ [n]).length : ℤ) - 1) = held.length := by simp
  have hnote : s.lockPath leaf.lockPath held.length = n.mutexId := h.notes held.length n (by simp)
  have howner : s.owner n.mutexId = some t := (h.owns _).mpr (by simp)
  rw [resume, hseat] at hs
  simp only [Option.some.injEq, unlockNext] at hs
  rw [hlast, if_neg (by omega), hnote, if_pos howner, goto_eq (s := s.setOwner n.mutexId none) hseat] at hs
  subst hs
  refine h.drop ?_ (List.prefix_append _ _) (.unlocked held (n :: upper) ?_)
  · have hnodup := hf.locks hpath
    rw [habove, List.map_append] at hnodup
    exact hnodup.of_append_left
  · rw [habove, List.append_assoc, List.singleton_append]

theorem Climber.resume (hf : Field tree depth) (hpath : tree.path (ID t) = some (leaf, above))
    (h : Climber s t leaf above held noted) (hs : resume tree s t = some s') : Moves s s' t leaf above := by
  have hrise := (path_rises hf.shaped hpath).1
  have hstands := h.stands
  generalize hseat : s.seat t = seat at hstands
  cases hstands with
  | outside pc hfree =>
    rw [Ideal.resume, hseat] at hs
    cases pc with
    | idle => cases hs
    | returned value => cases hs
    | _ => cases hfree
  | left =>
    rw [Ideal.resume, hseat] at hs
    cases hs
  | inside pc hfree =>
    rw [Ideal.resume, hseat] at hs
    cases pc with
    | idle => cases hs
    | returned value => cases hs
    | _ => cases hfree
  | climbing _ upper curNode habove hup =>
    cases upper with
    | nil =>
      have hroot : curNode.parent = 0 := hup
      rw [Ideal.resume, hseat] at hs
      simp only [if_pos hroot, Option.some.injEq] at hs
      rw [List.append_nil] at habove
      subst hs habove
      exact h.sit (.inside _ rfl)
    | cons parent upper =>
      rw [resume_climbing hf (hf.above_inner hpath habove).1 hup.1 hseat] at hs
      cases hs
      exact h.sit (.locking _ upper curNode parent habove hup.2)
  | locking _ upper curNode parent habove hup =>
    rw [Ideal.resume, hseat] at hs
    simp only [Option.ite_none_right_eq_some, Option.some.injEq] at hs
    obtain ⟨hfree, rfl⟩ := hs
    rw [goto_eq (s := s.setOwner parent.mutexId (some t)) hseat]
    exact h.take hfree (.locked _ upper curNode parent habove hup)
  | locked lower upper curNode parent habove hup =>
    rw [Ideal.resume, hseat] at hs
    simp only [Option.some.injEq, lockDone] at hs
    rw [if_neg (by decide), if_pos trivial, (hf.above_inner hpath habove).2,
      goto_eq (s := s.setLockPath leaf.lockPath noted.length parent.mutexId) hseat] at hs
    subst hs
    refine h.note (n := parent) (.inr ⟨rfl, rfl⟩) (.climbing _ upper parent ?_ hup)
    rw [habove, List.append_assoc, List.singleton_append]
  | again =>
    obtain ⟨parent, upper, habove⟩ := List.exists_cons_of_ne_nil (hf.above_ne_nil hpath)
    have hlinks := hrise.links
    rw [habove] at hlinks
    rw [resume_climbing hf (hf.above_inner hpath (habove.trans (List.nil_append _).symm)).1 hlinks.1 hseat] at hs
    cases hs
    exact h.sit (.stuck parent upper habove)
  | stuck parent upper habove =>
    rw [Ideal.resume, hseat] at hs
    simp only [Option.ite_none_right_eq_some, Option.some.injEq] at hs
    have howner : s.owner parent.mutexId = some t := (h.owns _).mpr (by rw [habove]; simp)
    rw [howner] at hs
    cases hs.1
  | releasing held upper habove =>
    obtain rfl | ⟨lower, n, rfl⟩ := held.eq_nil_or_concat'
    · rw [Ideal.resume, hseat] at hs
      simp only [Option.some.injEq, unlockNext] at hs
      rw [if_pos (by decide), goto_eq hseat] at hs
      subst hs
      exact h.sit .left
    · exact h.unlock hf hpath habove hseat hs
  | unlocked held upper habove =>
    rw [Ideal.resume, hseat] at hs
    simp only [Option.some.injEq, unlockDone] at hs
    rw [if_neg (by decide), goto_eq (s := s.setLockPath leaf.lockPath held.length 0) hseat] at hs
    subst hs
    exact h.note (n := leaf) (.inl rfl) (.releasing _ upper habove)
  | refused =>
    rw [Ideal.resume, hseat] at hs
    simp only [Option.some.injEq, unlockNext] at hs
    have hpos := List.length_pos_of_ne_nil (hf.above_ne_nil hpath)
    rw [if_neg (by omega), if_neg fun howner => by simpa using (h.owns _).mp howner, goto_eq hseat] at hs
    subst hs
    exact h.sit (.refusing _)
  | refusing i =>
    rw [Ideal.resume, hseat] at hs
    simp only [Option.some.injEq, unlockDone, if_pos, goto_eq hseat] at hs
    subst hs
    exact h.sit (.outside _ rfl)

theorem Climber.step (hf : Field tree depth) (hpath : tree.path (ID t) = some (leaf, above)) {e : Event Thread}
    (he : e = .acquire t ∨ e = .release t ∨ e = .run t) (h : Climber s t leaf above held noted)
    (hs : step tree depth ID s e = some s') : Moves s s' t leaf above := by
  have hfind : findLeaf (ID t) tree = some leaf := by rw [path_findLeaf, hpath, Option.map_some]
  have hrise := (path_rises hf.shaped hpath).1
  obtain rfl | rfl | rfl := he
  · simp only [Ideal.step, Option.ite_none_right_eq_some, hfind, Option.map_some, Option.some.injEq] at hs
    obtain ⟨hfree, rfl⟩ := hs
    obtain ⟨hin, rfl, rfl⟩ | ⟨hin, rfl, rfl⟩ := h.stands.free_cases hfree
    · rw [hin]
      exact h.sit (.climbing [] above leaf rfl hrise.links)
    · rw [hin]
      exact h.sit .again
  · simp only [Ideal.step, Option.ite_none_right_eq_some, hfind, Option.map_some, Option.some.injEq] at hs
    obtain ⟨hfree, rfl⟩ := hs
    rw [← hrise.length]
    obtain ⟨hin, rfl, rfl⟩ | ⟨hin, rfl, rfl⟩ := h.stands.free_cases hfree
    · rw [hin]
      exact h.sit .refused
    · rw [hin]
      exact h.sit (.releasing _ [] (List.append_nil _).symm)
  · exact h.resume hf hpath hs

theorem orderly_step (hf : Field tree depth) (hID : Function.Injective ID) :
    Preserves (step tree depth ID) Always (Orderly tree ID) := by
  intro s e s' ho _ hs
  obtain ⟨t, he⟩ : ∃ t, e = .acquire t ∨ e = .release t ∨ e = .run t := by
    cases e with
    | acquire t => exact ⟨t, .inl rfl⟩
    | release t => exact ⟨t, .inr (.inl rfl)⟩
    | run t => exact ⟨t, .inr (.inr rfl)⟩
  obtain ⟨leaf, above, held, noted, hpath, hc⟩ := ho t
  obtain ⟨⟨held', noted', hc'⟩, hapart⟩ := hc.step hf hpath he hs
  intro u
  by_cases hu : u = t
  · subst hu
    exact ⟨leaf, above, held', noted', hpath, hc'⟩
  · obtain ⟨leaf', above', held'', noted'', hpath', hc''⟩ := ho u
    refine ⟨leaf', above', held'', noted'', hpath', hc''.frame hapart hu fun heq => hu ?_⟩
    have hleaf := lockPath_inj hf.blocks (path_leaf hpath') (path_leaf hpath) heq
    have hid := (path_rises hf.shaped hpath').2
    rw [hleaf, (path_rises hf.shaped hpath).2] at hid
    exact hID hid.symm

def Pc.rest : Pc → ℕ
  | .releasing _ i => 2 * (i + 1).toNat + 1
  | .unlocked _ i _ => 2 * i.toNat + 2
  | _ => 0

theorem unlockNext_seat (s : State Thread) (t : Thread) (leaf : TreeNode) (i : ℤ) :
    ((unlockNext s t leaf i).seat t).leaving = (s.seat t).leaving ∧
    ((unlockNext s t leaf i).seat t).pc.rest < 2 * (i + 1).toNat + 1 := by
  unfold unlockNext State.goto
  split_ifs with hi howner
  · simp [Pc.rest]
  · simp only [State.sit_seat, State.setOwner_seat, update_self, Pc.rest, true_and]
    omega
  · simp only [State.sit_seat, update_self, Pc.rest, true_and]
    omega

theorem unlockDone_seat (s : State Thread) (t : Thread) (leaf : TreeNode) (i res : ℤ) :
    ((unlockDone s t leaf i res).seat t).leaving = (s.seat t).leaving ∧
    ((unlockDone s t leaf i res).seat t).pc.rest < 2 * i.toNat + 2 := by
  unfold unlockDone State.goto
  split_ifs with hres
  · simp [Pc.rest]
  · simp only [State.sit_seat, State.setLockPath_seat, update_self, Pc.rest, true_and]
    omega

theorem Orderly.finish (hf : Field tree depth) (hID : Function.Injective ID) (ho : Orderly tree ID s)
    (hl : (s.seat t).leaving) :
    ∃ s', Reaches (step tree depth ID) (fun _ e => e = .run t) s s' ∧ (s'.seat t).pc = .returned 0 := by
  induction hk : (s.seat t).pc.rest using Nat.strongRecOn generalizing s with
  | ind k ih =>
    obtain ⟨leaf, above, held, noted, hpath, hc⟩ := ho t
    have hgo {s' : State Thread} (hs : Ideal.resume tree s t = some s')
      (hleft : (s'.seat t).leaving = (s.seat t).leaving)
        (hless : (s'.seat t).pc.rest < k) :
        ∃ s', Reaches (step tree depth ID) (fun _ e => e = .run t) s s' ∧ (s'.seat t).pc = .returned 0 := by
      obtain ⟨last, hr, hpc⟩ := ih _ hless (orderly_step hf hID s (.run t) s' ho trivial hs) (hleft.trans hl) rfl
      exact ⟨last, Reaches.trans (Reaches.tail .refl rfl hs) hr, hpc⟩
    obtain ⟨hpc, _⟩ | hpc | hpc := hc.stands.leaving_cases hl
    · exact ⟨s, .refl, hpc⟩
    · have hseat := unlockNext_seat s t leaf (held.length - 1)
      refine hgo (by rw [Ideal.resume, hpc]) hseat.1 ?_
      rw [← hk, hpc]
      exact hseat.2
    · have hseat := unlockDone_seat s t leaf held.length 0
      refine hgo (by rw [Ideal.resume, hpc]) hseat.1 ?_
      rw [← hk, hpc]
      exact hseat.2

@[simp]
theorem goto_leaving (s : State Thread) (u t : Thread) (pc : Pc) :
    ((s.goto u pc).seat t).leaving = (s.seat t).leaving := by
  by_cases hu : t = u
  · subst hu
    rw [State.goto, State.sit_seat, update_self]
  · rw [State.goto, State.sit_seat, update_of_ne hu]

theorem resume_leaving {u : Thread} (hs : Ideal.resume tree s u = some s') (t : Thread) :
    (s'.seat t).leaving = (s.seat t).leaving := by
  unfold Ideal.resume at hs
  split at hs
  · cases hs
  · cases hs
  · split_ifs at hs
    · cases hs
      by_cases hu : t = u
      · subst hu
        rw [State.sit_seat, update_self]
      · rw [State.sit_seat, update_of_ne hu]
    · obtain ⟨parent, _, rfl⟩ := Option.map_eq_some_iff.mp hs
      exact goto_leaving _ _ _ _
  · obtain ⟨_, heq⟩ := Option.ite_none_right_eq_some.mp hs
    cases heq
    exact goto_leaving _ _ _ _
  · cases hs
    unfold lockDone
    split_ifs <;> exact goto_leaving _ _ _ _
  · cases hs
    unfold unlockNext
    split_ifs <;> exact goto_leaving _ _ _ _
  · cases hs
    unfold unlockDone
    split_ifs <;> exact goto_leaving _ _ _ _

theorem step_leaving {e : Event Thread} (hs : step tree depth ID s e = some s') (ha : e ≠ .acquire t)
    (hr : e ≠ .release t) :
    (s'.seat t).leaving = (s.seat t).leaving := by
  cases e with
  | run u => exact resume_leaving hs t
  | acquire u =>
    obtain ⟨_, hs⟩ := Option.ite_none_right_eq_some.mp hs
    obtain ⟨leaf, _, rfl⟩ := Option.map_eq_some_iff.mp hs
    rw [State.sit_seat, update_of_ne fun heq => ha (congrArg Event.acquire heq.symm)]
  | release u =>
    obtain ⟨_, hs⟩ := Option.ite_none_right_eq_some.mp hs
    obtain ⟨leaf, _, rfl⟩ := Option.map_eq_some_iff.mp hs
    rw [State.sit_seat, update_of_ne fun heq => hr (congrArg Event.release heq.symm)]

omit [DecidableEq Thread] in
theorem Orderly.left (ho : Orderly tree ID s) (hl : (s.seat t).leaving) {value : ℤ}
    (hpc : (s.seat t).pc = .returned value) : value = 0 ∧ ∀ n, ¬ Holds s t n := by
  obtain ⟨leaf, above, held, noted, hpath, hc⟩ := ho t
  obtain ⟨hzero, rfl⟩ | hpc' | hpc' := hc.stands.leaving_cases hl
  · rw [hpc] at hzero
    exact ⟨Pc.returned.inj hzero, fun n hn => List.not_mem_nil ((hc.owns _).mp hn)⟩
  · rw [hpc] at hpc'
    cases hpc'
  · rw [hpc] at hpc'
    cases hpc'

theorem Orderly.release (ho : Orderly tree ID s) (hin : (s.seat t).inside)
    (hfree : (s.seat t).pc.free) : ∃ s₁, step tree depth ID s (.release t) = some s₁ ∧ (s₁.seat t).leaving := by
  obtain ⟨leaf, above, held, noted, hpath, hc⟩ := ho t
  have hfind : findLeaf (ID t) tree = some leaf := by rw [path_findLeaf, hpath, Option.map_some]
  refine ⟨_, by rw [Ideal.step, if_pos hfree, hfind, Option.map_some], ?_⟩
  rw [State.sit_seat, update_self]
  exact hin

theorem Orderly.disciplined (hf : Field tree depth) (hID : Function.Injective ID) (ho : Orderly tree ID s) :
    Disciplined tree depth ID s where
  oneSide _ _ _ hsub _ hside _ _ ht ht' h h' := ho.oneSide hf hID hsub hside ht ht' h h'
  below _ hn _ h _ _ hpath := ho.below hf hn hpath h
  alone _ _ := ho.alone hf
  release t hin hfree := by
    obtain ⟨s₁, hs₁, hl⟩ := ho.release hin hfree
    refine ⟨s₁, hs₁, fun s' hr => ?_⟩
    have hstep : Preserves (step tree depth ID) (fun _ e => e ≠ .acquire t ∧ e ≠ .release t)
        fun s => Orderly tree ID s ∧ (s.seat t).leaving := by
      rintro x e y ⟨hx, hlx⟩ he hy
      exact ⟨orderly_step hf hID x e y hx trivial hy, (step_leaving hy he.1 he.2).trans hlx⟩
    obtain ⟨ho', hl'⟩ := hr.invariant hstep ⟨orderly_step hf hID s _ s₁ ho trivial hs₁, hl⟩
    refine ⟨ho'.finish hf hID hl', fun value hpc => ?_⟩
    obtain ⟨hzero, hnone⟩ := ho'.left hl' hpc
    exact ⟨hzero, fun _ _ _ n _ => hnone n⟩

end Steps

section Locks

variable {tree : Tree} {lock : ℕ ↪ ℤ}

theorem relock_shaped {parent k : ℕ} (h : tree.Shaped parent k) : (tree.relock lock).Shaped parent k := by
  induction tree generalizing parent k with
  | leaf node => exact h
  | inner node left right ihl ihr =>
    cases k with
    | zero => exact h
    | succ k =>
      obtain ⟨hparent, hlevel, hl, hr⟩ := h
      exact ⟨hparent, hlevel, ihl hl, ihr hr⟩

theorem relock_blocks (tree : Tree) : (tree.relock lock).blocks = tree.blocks := by
  induction tree with
  | leaf node => rfl
  | inner node left right ihl ihr => rw [Tree.relock, Tree.blocks, ihl, ihr, Tree.blocks]

theorem relock_leaves (tree : Tree) : (tree.relock lock).leaves = tree.leaves := by
  induction tree with
  | leaf node => rfl
  | inner node left right ihl ihr => rw [Tree.relock, Tree.leaves, ihl, ihr, Tree.leaves]

theorem relock_names {n : TreeNode} (h : n ∈ (tree.relock lock).inners) : n.mutexId = lock n.addr := by
  induction tree with
  | leaf node => cases h
  | inner node left right ihl ihr =>
    obtain rfl | h := List.mem_cons.mp h
    · rfl
    · exact (List.mem_append.mp h).elim ihl ihr

theorem relock_field {depth : ℕ} (hlaid : Laid tree depth) (hpos : 1 ≤ depth) :
    Field (tree.relock lock) depth := by
  have hlaid' : Laid (tree.relock lock) depth :=
    ⟨relock_shaped hlaid.shaped, (relock_blocks tree).symm ▸ hlaid.blocks,
      (relock_blocks tree).symm ▸ hlaid.nonzero⟩
  refine ⟨hlaid', hpos, fun n hn m hm heq => ?_⟩
  rw [relock_names hn, relock_names hm] at heq
  have hat := hlaid'.nodeAt hn
  rw [lock.injective heq, hlaid'.nodeAt hm] at hat
  exact (Option.some.inj hat).symm

end Locks

/-- The tournament of `trnmnt_tree_acquire` and `trnmnt_tree_release` over ideal locks, for any tree that
`trnmnt_tree_alloc` builds and any interleaving of the threads. -/
theorem tournament_disciplined [DecidableEq Thread] (h h' : Memory) (depth : ℤ) (tree : TrnmntTree)
    (halloc : trnmntTreeAlloc h depth = some (tree, h')) (lock : ℕ ↪ ℤ) (ID : Thread ↪ ℤ)
    (hID : ∀ t, 0 ≤ ID t ∧ ID t < 2 ^ depth.toNat) (lockPath : ℕ → ℤ → ℤ) (s : State Thread)
    (hr : Reaches (step (tree.root.relock lock) h'.treeDepth ID) Always (start lockPath) s) :
    (∀ t, (findLeaf (ID t) (tree.root.relock lock)).isSome) ∧
      Disciplined (tree.root.relock lock) h'.treeDepth ID s := by
  obtain ⟨hlaid, hdepth, hpos, htree⟩ := trnmntTreeAlloc_laid halloc
  rw [hdepth] at hlaid
  have hf : Field (tree.root.relock lock) depth.toNat := relock_field hlaid (by omega)
  have hall (t : Thread) : ((tree.root.relock lock).path (ID t)).isSome := by
    apply path_isSome
    rw [relock_leaves, trnmntTreeAlloc_indices halloc]
    obtain ⟨hlow, hhigh⟩ := hID t
    refine List.mem_map.mpr ⟨(ID t).toNat, List.mem_range.mpr ?_, Int.toNat_of_nonneg hlow⟩
    have hcast : ((2 ^ depth.toNat : ℕ) : ℤ) = 2 ^ depth.toNat := Int.natCast_pow 2 _
    omega
  have hcast : h'.treeDepth = (depth.toNat : ℤ) := by omega
  rw [hcast] at hr ⊢
  refine ⟨fun t => ?_, ?_⟩
  · rw [path_findLeaf, Option.isSome_map]
    exact hall t
  · have ho := hr.invariant (orderly_step hf ID.injective) (orderly_start hall lockPath)
    exact ho.disciplined hf ID.injective

def nodeLock : ℕ ↪ ℤ := ⟨Int.ofNat, fun _ _ => Int.ofNat.inj⟩

def twoPlayers : Bool ↪ ℤ := ⟨fun b => if b then 1 else 0, fun a b h => by cases a <;> cases b <;> simp_all⟩

def finalEvents : List (Event Bool) :=
  [.acquire false, .acquire true, .run false, .run true, .run false, .run false, .run false]

def finalRound : State Bool :=
  (exec (step (smallTree.1.root.relock nodeLock) smallTree.2.treeDepth twoPlayers) Always (start fun _ _ => 0)
    finalEvents).get (by decide +kernel)

def releasing : State Bool :=
  (step (smallTree.1.root.relock nodeLock) smallTree.2.treeDepth twoPlayers finalRound (.release false)).get
    (by decide +kernel)

def afterRelease : State Bool :=
  (exec (step (smallTree.1.root.relock nodeLock) smallTree.2.treeDepth twoPlayers)
    (fun _ e => e ≠ .acquire false ∧ e ≠ .release false) releasing [.run false, .run false, .run false]).get
    (by decide +kernel)

theorem tournament_disciplined_finalRound : (finalRound.seat false).inside = true ∧
    (∃ leaf curNode, (finalRound.seat true).pc = .locking leaf curNode (smallTree.1.root.relock nodeLock).node) ∧
    Disciplined (smallTree.1.root.relock nodeLock) smallTree.2.treeDepth twoPlayers finalRound ∧
    Holds finalRound false (smallTree.1.root.relock nodeLock).node ∧
    (afterRelease.seat false).pc = .returned 0 ∧
    ¬ Holds afterRelease false (smallTree.1.root.relock nodeLock).node := by
  have hfinal := (tournament_disciplined emptyHeap smallTree.2 1 smallTree.1 rfl nodeLock twoPlayers
    (fun t => by cases t <;> decide) (fun _ _ => 0) finalRound (exec_get_reaches _ _ (by decide +kernel))).2
  obtain ⟨s₁, hs₁, hleft⟩ := hfinal.release false (by decide +kernel) (by decide +kernel)
  have hfirst : releasing = s₁ := Option.get_of_eq_some _ hs₁
  have hpc : (afterRelease.seat false).pc = .returned 0 := by decide +kernel
  obtain ⟨_, hnone⟩ := (hleft afterRelease (hfirst ▸ exec_get_reaches _ _ _)).2 0 hpc
  exact ⟨by decide +kernel, ⟨_, _, rfl⟩, hfinal, Eq.refl (some false), hpc,
    hnone _ _ rfl _ (List.mem_singleton_self _)⟩

end Xv6.Tournament.Ideal
