import Tsl.RbTree.Links

set_option autoImplicit false

/-! # Finding nodes of a red-black tree

The three loops that go down by the comparison are one search, `descend`, of which each keeps what it
needs: the node that was found, or where the way down ended. The four that go to a neighbour in the
order answer an end of a subtree, or the next item beside the way up. -/

namespace Tsl

open Lib RBTree RbTree

universe u

variable {ν κ : Type u}

/-- **Search order**: the keys increase along the items. -/
def SearchOrder (compare : κ → κ → ℤ) (t : RbTree ν κ) (items : List ν) : Prop :=
  items.Pairwise fun a b => compare (t.node a).key (t.node b).key < 0

/-- How a key compares with the ones in the tree. -/
abbrev keyCmp (compare : κ → κ → ℤ) (t : RbTree ν κ) (key : κ) (z : ν) : ℤ :=
  compare key (t.node z).key

theorem SearchOrder.congr {compare : κ → κ → ℤ} {t t' : RbTree ν κ} {xs : List ν}
    (h : SearchOrder compare t xs) (hkey : ∀ z ∈ xs, (t'.node z).key = (t.node z).key) :
    SearchOrder compare t' xs := by
  refine h.imp_of_mem fun ha hb hab => ?_
  rw [hkey _ ha, hkey _ hb]
  exact hab

theorem SearchOrder.cut {compare : κ → κ → ℤ} {t : RbTree ν κ} {xs : List ν}
    (hcompare : IsTotalPreorder compare) (h : SearchOrder compare t xs) (key : κ) :
    Cut (keyCmp compare t key) xs :=
  h.imp fun hab ha => hcompare.lt_of_le_of_lt ha hab

/-! ## Down by the comparison -/

/-- Which side the hole is on; the code starts with the left one. -/
def dirOf : List (Frame ν) → Dir
  | [] => .left
  | f :: _ => f.dir

/-- The place for a new node, unless the search has found one. -/
def placeOf : List (Frame ν) × RBTree ν → Option (ν × Dir × Bool)
  | (f :: up, .nil) => some (f.item, f.dir, (itemsAfter (f :: up)).isEmpty)
  | _ => none

theorem placeOf_node (path : List (Frame ν)) (c : Color) (l r : RBTree ν) (x : ν) :
    placeOf (path, .node c l x r) = none := by
  cases path <;> rfl

section Down

variable (compare : κ → κ → ℤ) {t : RbTree ν κ} {s : RBTree ν} {parent : Option ν}

/-- **`rb_tree_find` answers what the search finds.** -/
theorem rbTreeFindLoop_eq (key : κ) (path : List (Frame ν)) (fuel : ℕ)
    (h : Reads t.node s parent) (hfuel : s.height ≤ fuel) :
    rbTreeFindLoop compare t key fuel s.top =
      some (descend (keyCmp compare t key) path s).2.top := by
  induction s generalizing fuel path parent with
  | nil => cases fuel <;> rfl
  | node c l x r ihl ihr =>
      obtain ⟨-, -, hleft, hright, hl, hr⟩ := h
      simp only [height] at hfuel
      obtain ⟨fuel, rfl⟩ : ∃ k, fuel = k + 1 := ⟨fuel - 1, by omega⟩
      simp only [top_node, rbTreeFindLoop, descend, keyCmp, hleft, hright]
      by_cases hneg : compare key (t.node x).key < 0
      · simp only [if_pos hneg]
        exact ihl _ fuel hl (by omega)
      · by_cases hzero : compare key (t.node x).key = 0
        · simp only [if_neg hneg, if_pos hzero, top_node]
        · simp only [if_neg hneg, if_neg hzero]
          exact ihr _ fuel hr (by omega)

theorem findPlace_eq (key : κ) (path : List (Frame ν)) (fuel : ℕ) (h : Reads t.node s parent)
    (hfuel : s.height ≤ fuel) :
    findPlace compare t key fuel s.top (parentOf path) (dirOf path) (itemsAfter path).isEmpty =
      some ((descend (keyCmp compare t key) path s).2.top,
        parentOf (descend (keyCmp compare t key) path s).1,
        dirOf (descend (keyCmp compare t key) path s).1,
        (itemsAfter (descend (keyCmp compare t key) path s).1).isEmpty) := by
  induction s generalizing fuel path parent with
  | nil => cases fuel <;> rfl
  | node c l x r ihl ihr =>
      obtain ⟨-, -, hleft, hright, hl, hr⟩ := h
      simp only [height] at hfuel
      obtain ⟨fuel, rfl⟩ : ∃ k, fuel = k + 1 := ⟨fuel - 1, by omega⟩
      simp only [top_node, findPlace, descend, keyCmp, hleft, hright]
      by_cases hneg : compare key (t.node x).key < 0
      · simp only [if_pos hneg]
        exact ihl (⟨.left, c, x, r⟩ :: path) fuel hl (by omega)
      · by_cases hzero : compare key (t.node x).key = 0
        · simp only [if_neg hneg, if_pos hzero, top_node]
        · simp only [if_neg hneg, if_neg hzero]
          exact ihr (⟨.right, c, x, l⟩ :: path) fuel hr (by omega)

/-- `rb_tree_insert` keeps only the end, and asks for an equal key first. -/
theorem insertPlace_eq (node nd : ν) (path : List (Frame ν)) (fuel : ℕ)
    (h : Reads t.node s parent) (hnd : s.top = some nd) (hfuel : s.height ≤ fuel) :
    insertPlace compare t node fuel nd (itemsAfter path).isEmpty =
      some (placeOf (descend (keyCmp compare t (t.node node).key) path s)) := by
  induction s generalizing fuel path parent nd with
  | nil => cases hnd
  | node c l x r ihl ihr =>
      obtain rfl : x = nd := Option.some.inj hnd
      obtain ⟨-, -, hleft, hright, hl, hr⟩ := h
      simp only [height] at hfuel
      obtain ⟨fuel, rfl⟩ : ∃ k, fuel = k + 1 := ⟨fuel - 1, by omega⟩
      simp only [insertPlace, descend, keyCmp, hleft, hright]
      by_cases hzero : compare (t.node node).key (t.node x).key = 0
      · simp only [if_pos hzero, if_neg hzero.not_lt, placeOf_node]
      · by_cases hneg : compare (t.node node).key (t.node x).key < 0
        · simp only [if_neg hzero, if_pos hneg]
          cases l with
          | nil => rfl
          | node _ _ y _ => exact ihl y (⟨.left, c, x, r⟩ :: path) fuel hl rfl (by omega)
        · simp only [if_neg hzero, if_neg hneg]
          cases r with
          | nil => rfl
          | node _ _ y _ => exact ihr y (⟨.right, c, x, l⟩ :: path) fuel hr rfl (by omega)

end Down

/-! ## Along the order -/

/-- The item at one end. -/
def endOf (d : Dir) (xs : List ν) : Option ν :=
  match d with
  | .left => xs.head?
  | .right => xs.getLast?

/-- The items beside the way up, on the other side than `d`. -/
def itemsBeyond (d : Dir) (path : List (Frame ν)) : List ν :=
  match d with
  | .left => itemsBefore path
  | .right => itemsAfter path

section Along

variable [DecidableEq ν] {t : RbTree ν κ} {s : RBTree ν} {path : List (Frame ν)} {d : Dir}
  {x : ν} {parent : Option ν}

omit [DecidableEq ν] in
theorem helperRbTreeFindEnd_eq (fuel : ℕ) (h : Reads t.node s parent) (hx : s.top = some x)
    (hfuel : s.height ≤ fuel) :
    ∃ y, helperRbTreeFindEnd d t fuel x = some y ∧ endOf d s.items = some y := by
  induction s generalizing fuel x parent with
  | nil => cases hx
  | node c l z r ihl ihr =>
      obtain rfl : z = x := Option.some.inj hx
      obtain ⟨-, -, hleft, hright, hl, hr⟩ := h
      simp only [height] at hfuel
      obtain ⟨fuel, rfl⟩ : ∃ k, fuel = k + 1 := ⟨fuel - 1, by omega⟩
      cases d with
      | left =>
          simp only [helperRbTreeFindEnd, RbTreeNode.child, hleft]
          cases l with
          | nil => exact ⟨z, rfl, rfl⟩
          | node _ _ y _ =>
              obtain ⟨w, hw, hend⟩ := ihl fuel hl rfl (by omega)
              refine ⟨w, hw, ?_⟩
              simp only [endOf, items] at hend ⊢
              rw [List.head?_append, hend]
              rfl
      | right =>
          simp only [helperRbTreeFindEnd, RbTreeNode.child, hright]
          cases r with
          | nil => exact ⟨z, rfl, by simp [endOf, items]⟩
          | node _ _ y _ =>
              obtain ⟨w, hw, hend⟩ := ihr fuel hr rfl (by omega)
              refine ⟨w, hw, ?_⟩
              simp only [endOf, items] at hend ⊢
              rw [List.getLast?_append, List.getLast?_cons, hend]
              rfl

theorem climb_eq (fuel : ℕ) (h : Focused t path s) (hx : s.top = some x)
    (hfuel : path.length < fuel) :
    climb d t fuel x = some (endOf d.flip (itemsBeyond d path)) := by
  induction path generalizing fuel s x with
  | nil =>
      obtain ⟨fuel, rfl⟩ : ∃ k, fuel = k + 1 := ⟨fuel - 1, by simp at hfuel; omega⟩
      have hparent : (t.node x).parent = none := h.parent_eq hx
      simp only [climb, hparent]
      cases d <;> rfl
  | cons f up ih =>
      obtain ⟨fuel, rfl⟩ : ∃ k, fuel = k + 1 := ⟨fuel - 1, by simp at hfuel; omega⟩
      simp only [List.length_cons, Nat.add_lt_add_iff_right] at hfuel
      have hparent : (t.node x).parent = some f.item := h.parent_eq hx
      simp only [climb, hparent, h.child_eq_iff hx]
      split
      · next hd =>
          rw [ih fuel (focused_fill.1 h) (top_join _ _ _ _ _) hfuel]
          cases d <;> simp only [itemsBeyond, itemsBefore, itemsAfter, hd]
      · next hd =>
          obtain ⟨df, cf, y, sib⟩ := f
          cases d <;> cases df <;> simp_all [itemsBeyond, itemsBefore, itemsAfter, endOf, Dir.flip]

/-- **The predecessor** is the item just before. -/
theorem helperRbTreeFindPredecessor_eq {c : Color} {l r : RBTree ν} (fuel : ℕ)
    (h : Focused t path (.node c l x r)) (hfuel : (plug path (.node c l x r)).height ≤ fuel) :
    helperRbTreeFindPredecessor fuel t x = some (itemsBefore path ++ l.items).getLast? := by
  have hlen := length_path_le path (.node c l x r)
  simp only [height] at hlen
  obtain ⟨-, -, hleft, -, hl, -⟩ := h.below
  simp only [helperRbTreeFindPredecessor, hleft]
  cases hc : l.top with
  | none =>
      rw [top_eq_none] at hc
      simp only [climb_eq fuel h rfl (by omega), hc, items, List.append_nil]
      rfl
  | some y =>
      obtain ⟨w, hw, hend⟩ := helperRbTreeFindEnd_eq (d := .right) fuel hl hc (by omega)
      simp only [helperRbTreeFindMaximum, hw, Option.map_some]
      simp only [endOf] at hend
      rw [List.getLast?_append, hend]
      rfl

/-- **The successor** is the item just after. -/
theorem helperRbTreeFindSuccessor_eq {c : Color} {l r : RBTree ν} (fuel : ℕ)
    (h : Focused t path (.node c l x r)) (hfuel : (plug path (.node c l x r)).height ≤ fuel) :
    helperRbTreeFindSuccessor fuel t x = some (r.items ++ itemsAfter path).head? := by
  have hlen := length_path_le path (.node c l x r)
  simp only [height] at hlen
  obtain ⟨-, -, -, hright, -, hr⟩ := h.below
  simp only [helperRbTreeFindSuccessor, hright]
  cases hc : r.top with
  | none =>
      rw [top_eq_none] at hc
      simp only [climb_eq fuel h rfl (by omega), hc, items, List.nil_append]
      rfl
  | some y =>
      obtain ⟨w, hw, hend⟩ := helperRbTreeFindEnd_eq (d := .left) fuel hr hc (by omega)
      simp only [helperRbTreeFindMinimum, hw, Option.map_some]
      simp only [endOf] at hend
      rw [List.head?_append, hend]
      rfl

end Along

/-! ## The tree between two calls -/

/-- What holds of a tree between two calls. A tree that was never written has any `rightmost`. -/
structure RbTree.Ok (compare : κ → κ → ℤ) (t : RbTree ν κ) (s : RBTree ν) : Prop where
  focused : Focused t [] s
  balanced : ∃ n, Balanced s .black n
  ordered : SearchOrder compare t s.items
  rightmost : s ≠ .nil → t.rightmost = s.items.getLast?

theorem RbTree.Ok.congr {compare : κ → κ → ℤ} {t t' : RbTree ν κ} {s : RBTree ν}
    (h : Ok compare t s) (hnode : ∀ z ∈ s.items, t'.node z = t.node z) (hroot : t'.root = t.root)
    (hright : t'.rightmost = t.rightmost) : Ok compare t' s where
  focused := ⟨hroot.trans h.focused.above, h.focused.below.congr hnode, h.focused.nodup⟩
  balanced := h.balanced
  ordered := h.ordered.congr fun z hz => congrArg RbTreeNode.key (hnode z hz)
  rightmost := fun hs => hright.trans (h.rightmost hs)

theorem RbTree.Ok.congr_compare {compare compare' : κ → κ → ℤ} {t : RbTree ν κ} {s : RBTree ν}
    (h : Ok compare t s)
    (hcmp : ∀ a ∈ s.items, ∀ b ∈ s.items,
      compare (t.node a).key (t.node b).key = compare' (t.node a).key (t.node b).key) :
    Ok compare' t s where
  focused := h.focused
  balanced := h.balanced
  ordered := h.ordered.imp_of_mem fun ha hb hab => hcmp _ ha _ hb ▸ hab
  rightmost := h.rightmost

end Tsl
