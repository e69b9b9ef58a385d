import Tsl.RbTree.Rounds

set_option autoImplicit false

/-! # Traversing a red-black tree

`rb_tree_traverse` of `tsl/rbtree.h` hands the nodes to a callback, a node before the ones below it,
until the callback wants to stop. It calls itself for the children, so the depth of the calls is a
resource like the rounds of a loop: `depth` is how many calls the stack has room for.

The callback may change its own state, but not the nodes. -/

namespace Tsl

open Lib

universe u v

variable {ν κ : Type u} {σ : Type v}

/-- `rb_control_t`. -/
inductive RbControl where
  | rbStop
  | rbContinue
deriving DecidableEq, Repr

/-- `__rb_tree_traverse_node`: what it returns, and the state of the callback. -/
def rbTreeTraverseNode (cb : ν → σ → RbControl × σ) (t : RbTree ν κ) :
    ℕ → Option ν → σ → Option (RbControl × σ)
  | 0, _, _ => none
  | _ + 1, none, state => some (.rbContinue, state)
  | depth + 1, some node, state =>
      let (ret, state) := cb node state
      if ret ≠ .rbContinue then some (ret, state)
      else do
        let (ret, state) ← rbTreeTraverseNode cb t depth (t.node node).left state
        if ret ≠ .rbContinue then some (ret, state)
        else rbTreeTraverseNode cb t depth (t.node node).right state

/-- `rb_tree_traverse`. -/
def rbTreeTraverse (cb : ν → σ → RbControl × σ) (depth : ℕ) (t : RbTree ν κ) (state : σ) :
    Option (RbControl × σ) :=
  rbTreeTraverseNode cb t depth t.root state

/-- `rb_tree_empty`: the result code and `*is_empty`. -/
def rbTreeEmpty (t : RbTree ν κ) : AResult × Bool := (aOk, t.root.isNone)

/-! ## What it should do -/

/-- The callback is called with one node after the other, until it does not want to go on. -/
def visitUntilStop (cb : ν → σ → RbControl × σ) : List ν → σ → RbControl × σ
  | [], state => (.rbContinue, state)
  | node :: rest, state =>
      let (ret, state) := cb node state
      if ret ≠ .rbContinue then (ret, state) else visitUntilStop cb rest state

/-- The nodes that are linked in memory below a pointer, depth first: a node, then those of its left
    subtree, then those of its right one. -/
inductive DepthFirst (t : RbTree ν κ) : Option ν → List ν → Prop
  | null : DepthFirst t none []
  | node {x : ν} {left right : List ν} : DepthFirst t (t.node x).left left →
      DepthFirst t (t.node x).right right → DepthFirst t (some x) (x :: (left ++ right))

/-- A traversal with room for so many calls visits the nodes `order`, whatever the callback does. -/
structure RbSession.Traversed (s : RbSession ν κ) (depth : ℕ) (order : List ν) : Prop where
  depthFirst : DepthFirst s.tree s.tree.root order
  nodup : order.Nodup
  mem_iff : ∀ z, z ∈ order ↔ z ∈ s.linked
  visits : ∀ (σ : Type v) (cb : ν → σ → RbControl × σ) (state : σ),
    rbTreeTraverse cb depth s.tree state = some (visitUntilStop cb order state)

/-! ## Down the tree -/

open RBTree

/-- The items, each before those below it. -/
def preorder : RBTree ν → List ν
  | .nil => []
  | .node _ l x r => x :: (preorder l ++ preorder r)

theorem preorder_perm (s : RBTree ν) : (preorder s).Perm s.items := by
  induction s with
  | nil => exact .refl _
  | node c l x r ihl ihr => exact ((ihl.append ihr).cons x).trans List.perm_middle.symm

section Traverse

variable {t : RbTree ν κ} {s : RBTree ν} {parent : Option ν}

theorem depthFirst_preorder (h : Reads t.node s parent) : DepthFirst t s.top (preorder s) := by
  induction s generalizing parent with
  | nil => exact .null
  | node c l x r ihl ihr =>
      obtain ⟨-, -, hleft, hright, hl, hr⟩ := h
      exact .node (hleft ▸ ihl hl) (hright ▸ ihr hr)

theorem visitUntilStop_append (cb : ν → σ → RbControl × σ) (xs ys : List ν) (state : σ) :
    visitUntilStop cb (xs ++ ys) state =
      if (visitUntilStop cb xs state).1 ≠ .rbContinue then visitUntilStop cb xs state
      else visitUntilStop cb ys (visitUntilStop cb xs state).2 := by
  induction xs generalizing state with
  | nil => rfl
  | cons x xs ih =>
      simp only [List.cons_append, visitUntilStop]
      by_cases hret : (cb x state).1 ≠ .rbContinue
      · simp only [if_pos hret]
      · simp only [if_neg hret, ih]

/-- **One call** visits the subtree, with room for one call more than it is high. -/
theorem rbTreeTraverseNode_eq (cb : ν → σ → RbControl × σ) (depth : ℕ) (h : Reads t.node s parent)
    (hdepth : s.height < depth) (state : σ) :
    rbTreeTraverseNode cb t depth s.top state = some (visitUntilStop cb (preorder s) state) := by
  induction s generalizing depth parent state with
  | nil =>
      obtain ⟨depth, rfl⟩ : ∃ k, depth = k + 1 := ⟨depth - 1, by omega⟩
      rfl
  | node c l x r ihl ihr =>
      obtain ⟨-, -, hleft, hright, hl, hr⟩ := h
      simp only [height] at hdepth
      obtain ⟨depth, rfl⟩ : ∃ k, depth = k + 1 := ⟨depth - 1, by omega⟩
      have hleftRun := ihl depth hl (by omega)
      have hrightRun := ihr depth hr (by omega)
      simp only [top_node, rbTreeTraverseNode, hleft, hright, preorder, visitUntilStop]
      by_cases hret : (cb x state).1 ≠ .rbContinue
      · simp only [if_pos hret]
      · simp only [if_neg hret, hleftRun, hrightRun, Option.bind_eq_bind, Option.bind_some,
          visitUntilStop_append]
        split <;> rfl

end Traverse

/-! ## After every run -/

section Runs

variable [DecidableEq ν] {compare : κ → κ → ℤ} {s : RbSession ν κ}

/-- **After every run of `n` nodes left a traversal visits the linked nodes**, each once and before the
nodes below it, until the callback stops it, and at most `2 log₂ (n + 1) + 1` of its calls are nested. -/
theorem traversed_of_run (hcompare : IsTotalPreorder compare) (rightmost : Option ν)
    (node : ν → RbTreeNode ν κ) (calls : List (RbCall ν κ))
    (hrun : exec (RbSession.step compare) (.new rightmost node) calls = some s) :
    ∃ order, ∀ depth, 2 * Nat.log 2 (s.linked.length + 1) < depth →
      RbSession.Traversed.{u, v} s depth order := by
  obtain ⟨T, hok, hperm⟩ := inv_of_run hcompare hrun
  obtain ⟨n, hbal⟩ := hok.balanced
  have hreads := hok.focused.below
  have hroot : s.tree.root = T.top := hok.focused.root_eq
  refine ⟨preorder T, fun depth hdepth => ?_⟩
  have hheight : T.height < depth := by
    rw [← hperm.length_eq] at hdepth
    exact hbal.height_le_log.trans_lt hdepth
  exact
    { depthFirst := hroot ▸ depthFirst_preorder hreads
      nodup := (preorder_perm T).nodup_iff.2 hok.focused.nodup_items
      mem_iff := fun z => (preorder_perm T).mem_iff.trans hperm.mem_iff
      visits := by
        intro σ cb state
        rw [rbTreeTraverse, hroot]
        exact rbTreeTraverseNode_eq cb depth hreads hheight state }

/-- A callback that stops at its second node. -/
def stopAtSecond (node : ℕ) (seen : List ℕ) : RbControl × List ℕ :=
  (if seen = [] then .rbContinue else .rbStop, node :: seen)

theorem traversed_of_run_removeRun :
    ∃ s, exec (RbSession.step compareKeyNumbers) (.new none unusedNodes) removeRun = some s ∧
      ∃ order : List ℕ, (∀ z, z ∈ order ↔ z ∈ s.linked) ∧
        rbTreeTraverse stopAtSecond 5 s.tree [] = some (visitUntilStop stopAtSecond order []) := by
  obtain ⟨s, hrun, hlinked⟩ : ∃ s, exec (RbSession.step compareKeyNumbers) (.new none unusedNodes)
      removeRun = some s ∧ s.linked.length = 3 := by
    have h : (exec (RbSession.step compareKeyNumbers) (.new none unusedNodes) removeRun).map
        (fun s => s.linked.length) = some 3 := by decide +kernel
    exact Option.map_eq_some_iff.1 h
  obtain ⟨order, horder⟩ :=
    traversed_of_run.{0, 0} isTotalPreorder_compareKeyNumbers none unusedNodes _ hrun
  rw [hlinked] at horder
  have htraversed := horder 5 (by decide)
  exact ⟨s, hrun, order, htraversed.mem_iff, htraversed.visits _ stopAtSecond []⟩

/-- **After every run `rb_tree_empty` tells whether a node is linked.** -/
theorem rbTreeEmpty_of_run (hcompare : IsTotalPreorder compare) (rightmost : Option ν)
    (node : ν → RbTreeNode ν κ) (calls : List (RbCall ν κ))
    (hrun : exec (RbSession.step compare) (.new rightmost node) calls = some s) :
    rbTreeEmpty s.tree = (aOk, decide (s.linked = [])) := by
  obtain ⟨T, hok, hperm⟩ := inv_of_run hcompare hrun
  have hroot : s.tree.root = T.top := hok.focused.root_eq
  rw [rbTreeEmpty, hroot]
  cases T with
  | nil =>
      have hnil : s.linked = [] := hperm.nil_eq.symm
      simp [hnil]
  | node c l x r =>
      have hne : s.linked ≠ [] := List.ne_nil_of_mem (hperm.mem_iff.1 (top_mem_items rfl))
      simp [hne]

end Runs

end Tsl
