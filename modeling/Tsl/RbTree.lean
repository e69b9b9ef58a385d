import Mathlib.Logic.Function.Basic
import Tsl.Lib.Compare
import Tsl.Lib.RedBlack
import Tsl.Result

set_option autoImplicit false

/-! # Intrusive red-black trees

`tsl/rbtree.h` and `tsl/rbtree.c`. The nodes are embedded in structures of the client; a node address
is a value of an arbitrary type `ν`, a pointer to a node an `Option ν`, and all nodes of a program,
in the tree or not, are one memory. Reading through a `NULL` pointer answers `none`.

The source treats left and right in mirrored branches. Here a branch and its mirror image are one,
with the side as a value: `is_left` and `!uncle_is_left` are `Dir.left`. Every loop has fuel, one unit
for a round, and answers `none` without. -/

namespace Tsl

open Lib

universe u

/-- `COLOR_BLACK`. -/
def colorBlack : ℤ := 0x0

/-- `COLOR_RED`. -/
def colorRed : ℤ := 0x1

/-- `struct rb_tree_node`. -/
structure RbTreeNode (ν κ : Type u) where
  left : Option ν
  right : Option ν
  parent : Option ν
  key : κ
  color : ℤ

/-- `struct rb_tree`, with the memory of all nodes. The `compare` function is an argument of what
    calls it, with its `state` applied. -/
structure RbTree (ν κ : Type u) where
  root : Option ν
  rightmost : Option ν
  node : ν → RbTreeNode ν κ

/-- The child on a side. -/
def RbTreeNode.child {ν κ : Type u} (n : RbTreeNode ν κ) : Dir → Option ν
  | .left => n.left
  | .right => n.right

def RbTreeNode.setChild {ν κ : Type u} (n : RbTreeNode ν κ) (v : Option ν) : Dir → RbTreeNode ν κ
  | .left => { n with left := v }
  | .right => { n with right := v }

def RbTreeNode.setParent {ν κ : Type u} (n : RbTreeNode ν κ) (v : Option ν) : RbTreeNode ν κ :=
  { n with parent := v }

def RbTreeNode.setColor {ν κ : Type u} (n : RbTreeNode ν κ) (c : ℤ) : RbTreeNode ν κ :=
  { n with color := c }

variable {ν κ : Type u} [DecidableEq ν]

namespace RbTree

def setNode (t : RbTree ν κ) (a : ν) (n : RbTreeNode ν κ) : RbTree ν κ :=
  { t with node := Function.update t.node a n }

def setChild (t : RbTree ν κ) (d : Dir) (a : ν) (v : Option ν) : RbTree ν κ :=
  t.setNode a ((t.node a).setChild v d)

def setParent (t : RbTree ν κ) (a : ν) (v : Option ν) : RbTree ν κ :=
  t.setNode a ((t.node a).setParent v)

def setColor (t : RbTree ν κ) (a : ν) (c : ℤ) : RbTree ν κ :=
  t.setNode a ((t.node a).setColor c)

def setKey (t : RbTree ν κ) (a : ν) (k : κ) : RbTree ν κ :=
  t.setNode a { t.node a with key := k }

/-- `node == NULL || node->color == COLOR_BLACK`. -/
def isBlack (t : RbTree ν κ) : Option ν → Bool
  | none => true
  | some a => (t.node a).color = colorBlack

/-- `node && node->color == COLOR_RED`. -/
def isRed (t : RbTree ν κ) : Option ν → Bool
  | none => false
  | some a => (t.node a).color = colorRed

/-- The pointer to `x`, in its parent or at the root, becomes `y`. -/
def replaceChild (t : RbTree ν κ) (parent : Option ν) (x : ν) (y : Option ν) : RbTree ν κ :=
  match parent with
  | none => { t with root := y }
  | some xp =>
      if (t.node xp).left = some x then t.setChild .left xp y else t.setChild .right xp y

/-- Writing through a pointer that was tested for `NULL`. -/
def setParentIf (t : RbTree ν κ) (p : Option ν) (v : Option ν) : RbTree ν κ :=
  match p with
  | none => t
  | some a => t.setParent a v

def setColorIf (t : RbTree ν κ) (p : Option ν) (c : ℤ) : RbTree ν κ :=
  match p with
  | none => t
  | some a => t.setColor a c

end RbTree

/-! ## Looking up -/

/-- `rb_tree_new_ex`; `rightmost` is what is there in memory, as nothing writes it. -/
def rbTreeNewEx (rightmost : Option ν) (node : ν → RbTreeNode ν κ) : RbTree ν κ :=
  { root := none, rightmost := rightmost, node := node }

/-- The loop of `rb_tree_find`. -/
def rbTreeFindLoop (compare : κ → κ → ℤ) (t : RbTree ν κ) (key : κ) :
    ℕ → Option ν → Option (Option ν)
  | _, none => some none
  | 0, some _ => none
  | fuel + 1, some node =>
      if compare key (t.node node).key < 0 then
        rbTreeFindLoop compare t key fuel (t.node node).left
      else if compare key (t.node node).key = 0 then some (some node)
      else rbTreeFindLoop compare t key fuel (t.node node).right

/-- `rb_tree_find`: the result code and `*value`, which holds `value` before the call. -/
def rbTreeFind [DecidableEq κ] [VoidPtr κ] (compare : κ → κ → ℤ) (fuel : ℕ) (t : RbTree ν κ)
    (key : κ) (value : Option ν) : Option (AResult × Option ν) :=
  if key = VoidPtr.null then some (aEBadargs, value)
  else do
    let node ← rbTreeFindLoop compare t key fuel t.root
    match node with
    | none => some (aENotfound, none)
    | some node => some (aOk, some node)

/-- `__helper_rb_tree_find_minimum` for `.left`, `__helper_rb_tree_find_maximum` for `.right`. -/
def helperRbTreeFindEnd (d : Dir) (t : RbTree ν κ) : ℕ → ν → Option ν
  | 0, _ => none
  | fuel + 1, x =>
      match (t.node x).child d with
      | none => some x
      | some next => helperRbTreeFindEnd d t fuel next

def helperRbTreeFindMinimum (fuel : ℕ) (t : RbTree ν κ) (node : ν) : Option ν :=
  helperRbTreeFindEnd .left t fuel node

def helperRbTreeFindMaximum (fuel : ℕ) (t : RbTree ν κ) (node : ν) : Option ν :=
  helperRbTreeFindEnd .right t fuel node

/-- The loop that goes up as long as it comes from the side `d`. -/
def climb (d : Dir) (t : RbTree ν κ) : ℕ → ν → Option (Option ν)
  | 0, _ => none
  | fuel + 1, x =>
      match (t.node x).parent with
      | none => some none
      | some y => if (t.node y).child d = some x then climb d t fuel y else some (some y)

/-- `__helper_rb_tree_find_successor`. -/
def helperRbTreeFindSuccessor (fuel : ℕ) (t : RbTree ν κ) (node : ν) : Option (Option ν) :=
  match (t.node node).right with
  | some right => (helperRbTreeFindMinimum fuel t right).map some
  | none => climb .right t fuel node

/-- `__helper_rb_tree_find_predecessor`. -/
def helperRbTreeFindPredecessor (fuel : ℕ) (t : RbTree ν κ) (node : ν) : Option (Option ν) :=
  match (t.node node).left with
  | some left => (helperRbTreeFindMaximum fuel t left).map some
  | none => climb .left t fuel node

/-! ## Rotations -/

/-- `__helper_get_grandparent`. -/
def helperGetGrandparent (t : RbTree ν κ) (node : ν) : Option ν :=
  (t.node node).parent.bind fun parent => (t.node parent).parent

/-- `__helper_rotate_left` for `.left`, `__helper_rotate_right` for `.right`. -/
def helperRotate (d : Dir) (t : RbTree ν κ) (x : ν) : Option (RbTree ν κ) := do
  let y ← (t.node x).child d.flip
  let inner := (t.node y).child d
  let t := t.setChild d.flip x inner
  let t := t.setParentIf inner (some x)
  let t := t.setParent y (t.node x).parent
  let t := t.replaceChild (t.node x).parent x (some y)
  let t := t.setChild d y (some x)
  some (t.setParent x (some y))

def helperRotateLeft (t : RbTree ν κ) (node : ν) : Option (RbTree ν κ) := helperRotate .left t node

def helperRotateRight (t : RbTree ν κ) (node : ν) : Option (RbTree ν κ) :=
  helperRotate .right t node

/-! ## Insertion -/

/-- Case 2 of `__helper_rb_tree_insert_rebalance`: a node on the inner side of its red parent changes
    places with it. -/
def insertCase2 (side : Dir) (t : RbTree ν κ) (parent pnode : ν) : Option (ν × RbTree ν κ) :=
  if (t.node parent).child side.flip = some pnode then do
    let t ← helperRotate side t parent
    some (parent, t)
  else some (pnode, t)

/-- Case 3: recolor and rotate. -/
def insertCase3 (side : Dir) (t : RbTree ν κ) (pnode : ν) : Option (RbTree ν κ) := do
  let parent ← (t.node pnode).parent
  let t := t.setColor parent colorBlack
  let grandparent ← helperGetGrandparent t pnode
  let t := t.setColor grandparent colorRed
  helperRotate side.flip t grandparent

/-- The loop of `__helper_rb_tree_insert_rebalance`. -/
def insertRebalanceLoop : ℕ → RbTree ν κ → ν → Option (RbTree ν κ)
  | 0, _, _ => none
  | fuel + 1, t, pnode =>
      match (t.node pnode).parent with
      | none => some t
      | some parent =>
          if t.root = some pnode ∨ (t.node parent).color ≠ colorRed then some t
          else do
            let grandparent ← helperGetGrandparent t pnode
            let side := if (t.node grandparent).left = some parent then Dir.left else .right
            let uncle := (t.node grandparent).child side.flip
            if t.isRed uncle then
              -- Case 1: color parent and uncle black, and go on with the grandparent
              let t := (t.setColor parent colorBlack).setColorIf uncle colorBlack
              insertRebalanceLoop fuel (t.setColor grandparent colorRed) grandparent
            else do
              let (pnode, t) ← insertCase2 side t parent pnode
              let t ← insertCase3 side t pnode
              insertRebalanceLoop fuel t pnode

/-- `__helper_rb_tree_insert_rebalance`. -/
def helperRbTreeInsertRebalance (fuel : ℕ) (t : RbTree ν κ) (node : ν) : Option (RbTree ν κ) :=
  match (t.node node).parent with
  | none => some t
  | some newNodeParent =>
      if (t.node newNodeParent).color ≠ colorBlack then do
        let t ← insertRebalanceLoop fuel t node
        let treeRoot ← t.root
        some (t.setColor treeRoot colorBlack)
      else some t

/-- The loop of `rb_tree_insert` that looks for the place of the new node: under which node, on which
    side, and whether it becomes the rightmost one; nothing if the key is there already. -/
def insertPlace (compare : κ → κ → ℤ) (t : RbTree ν κ) (node : ν) :
    ℕ → ν → Bool → Option (Option (ν × Dir × Bool))
  | 0, _, _ => none
  | fuel + 1, nd, rightmost =>
      if compare (t.node node).key (t.node nd).key = 0 then some none
      else if compare (t.node node).key (t.node nd).key < 0 then
        match (t.node nd).left with
        | none => some (some (nd, .left, false))
        | some left => insertPlace compare t node fuel left false
      else
        match (t.node nd).right with
        | none => some (some (nd, .right, rightmost))
        | some right => insertPlace compare t node fuel right rightmost

/-- `rb_tree_insert`. -/
def rbTreeInsert (compare : κ → κ → ℤ) (fuel : ℕ) (t : RbTree ν κ) (key : κ) (node : ν) :
    Option (AResult × RbTree ν κ) :=
  let t := t.setKey node key
  match t.root with
  | none =>
      let t := { t with root := some node, rightmost := some node }
      some (aOk, t.setColor node colorBlack)
  | some root => do
      let t := t.setColor node colorRed
      let place ← insertPlace compare t node fuel root true
      match place with
      | none => some (aEBusy, t)
      | some (nd, side, rightmost) =>
          let t := t.setChild side nd (some node)
          let t := t.setParent node (some nd)
          let t := if rightmost then { t with rightmost := some node } else t
          let t ← helperRbTreeInsertRebalance fuel t node
          some (aOk, t)

/-- The loop of `rb_tree_find_or_insert`: `node`, `node_prev`, `dir` and `rightmost` at its end. -/
def findPlace (compare : κ → κ → ℤ) (t : RbTree ν κ) (key : κ) :
    ℕ → Option ν → Option ν → Dir → Bool → Option (Option ν × Option ν × Dir × Bool)
  | _, none, nodePrev, dir, rightmost => some (none, nodePrev, dir, rightmost)
  | 0, some _, _, _, _ => none
  | fuel + 1, some node, nodePrev, dir, rightmost =>
      if compare key (t.node node).key < 0 then
        findPlace compare t key fuel (t.node node).left (some node) .left false
      else if compare key (t.node node).key = 0 then some (some node, nodePrev, dir, rightmost)
      else findPlace compare t key fuel (t.node node).right (some node) .right rightmost

/-- `rb_tree_find_or_insert`: the result code and `*value`. -/
def rbTreeFindOrInsert (compare : κ → κ → ℤ) (fuel : ℕ) (t : RbTree ν κ) (key : κ)
    (newCandidate : ν) : Option (AResult × Option ν × RbTree ν κ) :=
  let t := t.setKey newCandidate key
  match t.root with
  | none =>
      let t := { t with root := some newCandidate, rightmost := some newCandidate }
      some (aOk, some newCandidate, t.setColor newCandidate colorBlack)
  | some root => do
      let (node, nodePrev, dir, rightmost) ←
        findPlace compare t key fuel (some root) none .left true
      match node with
      | some node => some (aOk, some node, t)
      | none => do
          let nodePrev ← nodePrev
          let t := t.setChild dir nodePrev (some newCandidate)
          let t := t.setParent newCandidate (some nodePrev)
          let t := t.setColor newCandidate colorRed
          let t := if rightmost then { t with rightmost := some newCandidate } else t
          let t ← helperRbTreeInsertRebalance fuel t newCandidate
          some (aOk, some newCandidate, t)

/-! ## Removal -/

/-- `__helper_rb_tree_swap_node`: `y` takes the place of `x`. -/
def helperRbTreeSwapNode (t : RbTree ν κ) (x y : ν) : RbTree ν κ :=
  let left := (t.node x).left
  let right := (t.node x).right
  let parent := (t.node x).parent
  let t := t.setParent y parent
  let t :=
    match parent with
    | some parent =>
        if (t.node parent).left = some x then t.setChild .left parent (some y)
        else t.setChild .right parent (some y)
    | none => if t.root = some x then { t with root := some y } else t
  let t := t.setChild .right y right
  let t := t.setParentIf right (some y)
  let t := t.setChild .right x none
  let t := t.setChild .left y left
  let t := t.setParentIf left (some y)
  let t := t.setChild .left x none
  let t := t.setColor y (t.node x).color
  t.setParent x none

/-- Case 1 of `__helper_rb_tree_delete_rebalance`: a red sibling is rotated away. -/
def deleteCase1 (side : Dir) (t : RbTree ν κ) (xp : ν) : Option (Option ν × RbTree ν κ) :=
  let w := (t.node xp).child side.flip
  if t.isRed w then do
    let t := (t.setColorIf w colorBlack).setColor xp colorRed
    let t ← helperRotate side t xp
    some ((t.node xp).child side.flip, t)
  else some (w, t)

/-- Case 3: the outer child of the sibling is black, so the inner one is turned out. -/
def deleteCase3 (side : Dir) (t : RbTree ν κ) (xp w : ν) : Option (ν × RbTree ν κ) :=
  if t.isBlack ((t.node w).child side.flip) then do
    let inner := (t.node w).child side
    let t := (t.setColor w colorRed).setColorIf inner colorBlack
    let t ← helperRotate side.flip t w
    let w ← (t.node xp).child side.flip
    some (w, t)
  else some (w, t)

/-- Case 4. -/
def deleteCase4 (side : Dir) (t : RbTree ν κ) (xp w : ν) : Option (RbTree ν κ) :=
  let outer := (t.node w).child side.flip
  let t := (t.setColor w (t.node xp).color).setColor xp colorBlack
  match outer with
  | none => some t
  | some outer => helperRotate side (t.setColor outer colorBlack) xp

/-- The loop of `__helper_rb_tree_delete_rebalance`. -/
def deleteRebalanceLoop : ℕ → RbTree ν κ → Option ν → Option ν → Dir → Option (RbTree ν κ)
  | 0, _, _, _, _ => none
  | fuel + 1, t, x, xp, side =>
      if x = t.root ∨ t.isBlack x = false then some (t.setColorIf x colorBlack)
      else do
        let p ← xp
        let (w, t) ← deleteCase1 side t p
        let inner := w.bind fun w => (t.node w).child side
        let outer := w.bind fun w => (t.node w).child side.flip
        if t.isBlack inner ∧ t.isBlack outer then
          -- Case 2
          let t := t.setColorIf w colorRed
          let up := (t.node p).parent
          let isLeft := up.any fun q => (t.node q).left = some p
          deleteRebalanceLoop fuel t (some p) up (if isLeft then .left else .right)
        else do
          let w ← w
          let (w, t) ← deleteCase3 side t p w
          let t ← deleteCase4 side t p w
          deleteRebalanceLoop fuel t t.root xp side

/-- `__helper_rb_tree_delete_rebalance`. -/
def helperRbTreeDeleteRebalance (fuel : ℕ) (t : RbTree ν κ) (node parent : Option ν)
    (nodeIsLeft : Dir) : Option (RbTree ν κ) :=
  deleteRebalanceLoop fuel t node parent nodeIsLeft

/-- The part of `rb_tree_remove` that finds the node `y` to take out of its place. -/
def removeFind (fuel : ℕ) (t : RbTree ν κ) (node : ν) : Option (ν × RbTree ν κ) :=
  if (t.node node).left = none ∨ (t.node node).right = none then
    if t.rightmost = some node then do
      let rightmost ← helperRbTreeFindPredecessor fuel t node
      some (node, { t with rightmost := rightmost })
    else some (node, t)
  else do
    let y ← helperRbTreeFindSuccessor fuel t node
    let y ← y
    some (y, t)

/-- The part of `rb_tree_remove` that takes `y` out of its place: what is left there, under which
    node, and on which side. -/
def removeUnlink (t : RbTree ν κ) (y : ν) : Option ν × Option ν × Dir × RbTree ν κ :=
  let x :=
    match (t.node y).left with
    | some left => some left
    | none => (t.node y).right
  let xp := (t.node y).parent
  let t := t.setParentIf x xp
  let isLeft := (t.node y).parent.any fun yp => (t.node yp).left = some y
  (x, xp, if isLeft then .left else .right, t.replaceChild (t.node y).parent y x)

/-- `rb_tree_remove`. -/
def rbTreeRemove (fuel : ℕ) (t : RbTree ν κ) (node : ν) : Option (AResult × RbTree ν κ) := do
  let (y, t) ← removeFind fuel t node
  let (x, xp, isLeft, t) := removeUnlink t y
  let yColor := (t.node y).color
  let (xp, t) :=
    if y ≠ node then (if xp = some node then some y else xp, helperRbTreeSwapNode t node y)
    else (xp, t)
  let t ←
    if yColor = colorBlack then helperRbTreeDeleteRebalance fuel t x xp isLeft else some t
  let t := t.setParent node none
  let t := t.setChild .left node none
  some (aOk, t.setChild .right node none)

end Tsl
