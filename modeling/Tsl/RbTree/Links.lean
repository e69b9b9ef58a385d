import Mathlib.Data.List.Nodup
import Mathlib.Data.List.Perm.Basic
import Mathlib.Tactic.Set
import Tsl.RbTree

set_option autoImplicit false

/-! # Red-black trees in memory

`Focused t path s` says that the nodes in memory are linked as the tree `plug path s`, and looks at it
from the subtree `s`. The focus can be moved anywhere in the tree (`focused_fill`, `focused_plug`,
`Focused.sideways`), and what the code does to a tree is specified where it does it: a change of a
colour, a rotation, the link to a new leaf, a node taken out, a node put in the place of another.

Each of these leaves the keys alone, and all memory that is not in the tree (`Kept`). -/

namespace Tsl

open Lib RBTree

universe u

/-- How a colour is stored. -/
def colorOf : Color → ℤ
  | .red => colorRed
  | .black => colorBlack

theorem colorOf_eq_colorRed {c : Color} : colorOf c = colorRed ↔ c = .red := by
  cases c <;> decide

theorem colorOf_eq_colorBlack {c : Color} : colorOf c = colorBlack ↔ c = .black := by
  cases c <;> decide

/-! ## Fields of a node -/

namespace RbTreeNode

variable {ν κ : Type u} (n : RbTreeNode ν κ) (v : Option ν) (d : Dir)

@[simp] theorem child_setChild : (n.setChild v d).child d = v := by cases d <;> rfl

@[simp] theorem child_flip_setChild : (n.setChild v d).child d.flip = n.child d.flip := by
  cases d <;> rfl

@[simp] theorem child_setChild_flip : (n.setChild v d.flip).child d = n.child d := by
  cases d <;> rfl

@[simp] theorem parent_setChild : (n.setChild v d).parent = n.parent := by cases d <;> rfl

@[simp] theorem color_setChild : (n.setChild v d).color = n.color := by cases d <;> rfl

@[simp] theorem key_setChild : (n.setChild v d).key = n.key := by cases d <;> rfl

@[simp] theorem child_setParent : (n.setParent v).child d = n.child d := by cases d <;> rfl

@[simp] theorem parent_setParent : (n.setParent v).parent = v := rfl

@[simp] theorem color_setParent : (n.setParent v).color = n.color := rfl

@[simp] theorem child_setColor (k : ℤ) : (n.setColor k).child d = n.child d := by cases d <;> rfl

@[simp] theorem parent_setColor (k : ℤ) : (n.setColor k).parent = n.parent := rfl

@[simp] theorem color_setColor (k : ℤ) : (n.setColor k).color = k := rfl

end RbTreeNode

variable {ν κ : Type u}

/-! ## Reading a tree -/

/-- The memory holds the tree, under the node `parent`. -/
def Reads (m : ν → RbTreeNode ν κ) : RBTree ν → Option ν → Prop
  | .nil, _ => True
  | .node c l x r, parent =>
      (m x).parent = parent ∧ (m x).color = colorOf c ∧ (m x).left = l.top ∧
        (m x).right = r.top ∧ Reads m l (some x) ∧ Reads m r (some x)

/-- The memory holds the way up, and below it a pointer `hole`. -/
def ReadsPath (m : ν → RbTreeNode ν κ) (root : Option ν) : List (Frame ν) → Option ν → Prop
  | [], hole => root = hole
  | f :: up, hole =>
      (m f.item).parent = parentOf up ∧ (m f.item).color = colorOf f.color ∧
        (m f.item).child f.dir = hole ∧ (m f.item).child f.dir.flip = f.sibling.top ∧
        Reads m f.sibling (some f.item) ∧ ReadsPath m root up (some f.item)

/-- The items of the way up and of the subtrees beside it. -/
def pathItems : List (Frame ν) → List ν
  | [] => []
  | f :: up => f.item :: (f.sibling.items ++ pathItems up)

/-- The tree is `plug path s`. -/
structure Focused (t : RbTree ν κ) (path : List (Frame ν)) (s : RBTree ν) : Prop where
  above : ReadsPath t.node t.root path s.top
  below : Reads t.node s (parentOf path)
  nodup : (s.items ++ pathItems path).Nodup

/-- Nothing changed but links and colours of the nodes `xs`. -/
structure Kept (t t' : RbTree ν κ) (xs : List ν) : Prop where
  key : ∀ z, (t'.node z).key = (t.node z).key
  rightmost : t'.rightmost = t.rightmost
  outside : ∀ z, z ∉ xs → t'.node z = t.node z

section Focus

variable {t t' : RbTree ν κ} {m m' : ν → RbTreeNode ν κ} {path up : List (Frame ν)} {s : RBTree ν}
  {f : Frame ν} {d : Dir} {c : Color} {x : ν} {near far : RBTree ν} {parent root : Option ν}

theorem Kept.refl (t : RbTree ν κ) (xs : List ν) : Kept t t xs :=
  ⟨fun _ => rfl, rfl, fun _ _ => rfl⟩

theorem Kept.trans {t'' : RbTree ν κ} {xs : List ν} (h : Kept t t' xs) (h' : Kept t' t'' xs) :
    Kept t t'' xs :=
  ⟨fun z => (h'.key z).trans (h.key z), h'.rightmost.trans h.rightmost,
    fun z hz => (h'.outside z hz).trans (h.outside z hz)⟩

theorem Kept.mono {xs ys : List ν} (h : Kept t t' xs) (hsub : ∀ z ∈ xs, z ∈ ys) : Kept t t' ys :=
  ⟨h.key, h.rightmost, fun z hz => h.outside z fun hmem => hz (hsub z hmem)⟩

theorem reads_join :
    Reads m (join d c near x far) parent ↔
      (m x).parent = parent ∧ (m x).color = colorOf c ∧ (m x).child d = near.top ∧
        (m x).child d.flip = far.top ∧ Reads m near (some x) ∧ Reads m far (some x) := by
  cases d with
  | left => exact Iff.rfl
  | right =>
      simp only [join, Reads, RbTreeNode.child, Dir.flip]
      tauto

theorem items_join_color (d : Dir) (c c' : Color) (near far : RBTree ν) (x : ν) :
    (join d c near x far).items = (join d c' near x far).items := by cases d <;> rfl

theorem items_join_perm (d : Dir) (c : Color) (near far : RBTree ν) (x : ν) :
    (join d c near x far).items.Perm (x :: (near.items ++ far.items)) := by
  cases d with
  | left => exact List.perm_middle
  | right => exact List.perm_middle.trans (List.perm_append_comm.cons x)

/-- **Moving the focus one node up**, or down. -/
theorem focused_fill : Focused t (f :: up) s ↔ Focused t up (f.fill s) := by
  have hperm : ((f.fill s).items ++ pathItems up).Perm (s.items ++ pathItems (f :: up)) := by
    refine ((items_join_perm _ _ _ _ _).append_right _).trans ?_
    simp only [pathItems, List.cons_append, List.append_assoc]
    exact List.perm_middle.symm
  constructor
  · rintro ⟨⟨hparent, hcolor, hchild, hsib, hreads, hup⟩, htree, hnd⟩
    refine ⟨?_, reads_join.2 ⟨hparent, hcolor, hchild, hsib, htree, hreads⟩, hperm.nodup_iff.2 hnd⟩
    rw [Frame.fill, top_join]
    exact hup
  · rintro ⟨hup, htree, hnd⟩
    obtain ⟨hparent, hcolor, hchild, hsib, htree, hreads⟩ := reads_join.1 htree
    rw [Frame.fill, top_join] at hup
    exact ⟨⟨hparent, hcolor, hchild, hsib, hreads, hup⟩, htree, hperm.nodup_iff.1 hnd⟩

theorem focused_plug : Focused t (path ++ up) s ↔ Focused t up (plug path s) := by
  induction path generalizing s with
  | nil => exact Iff.rfl
  | cons f path ih => exact focused_fill.trans ih

/-- Looking at the other child. -/
theorem Focused.sideways (h : Focused t (⟨d, c, x, far⟩ :: up) near) :
    Focused t (⟨d.flip, c, x, near⟩ :: up) far := by
  rw [focused_fill] at h ⊢
  rw [Frame.fill, join_flip]
  exact h

theorem focused_join :
    Focused t path (join d c near x far) ↔ Focused t (⟨d, c, x, far⟩ :: path) near :=
  (focused_fill (f := ⟨d, c, x, far⟩)).symm

theorem mem_pathItems_iff {z : ν} :
    z ∈ (plug path s).items ↔ z ∈ s.items ∨ z ∈ pathItems path := by
  induction path generalizing s with
  | nil => simp [plug, pathItems]
  | cons f up ih =>
      rw [plug, ih, Frame.fill, mem_items_join]
      simp only [pathItems, List.mem_cons, List.mem_append]
      tauto

theorem Focused.nodup_items (h : Focused t path s) : (plug path s).items.Nodup := by
  have h' : Focused t ([] : List (Frame ν)) (plug path s) :=
    focused_plug.1 (by rwa [List.append_nil])
  simpa [pathItems] using h'.nodup

/-! ## Looking around -/

theorem Focused.parent_eq (h : Focused t path s) (hx : s.top = some x) :
    (t.node x).parent = parentOf path := by
  obtain ⟨c, l, r, rfl⟩ := exists_join .left hx
  exact (reads_join.1 h.below).1

theorem Focused.frame (h : Focused t (f :: up) s) :
    (t.node f.item).parent = parentOf up ∧ (t.node f.item).color = colorOf f.color ∧
      (t.node f.item).child f.dir = s.top ∧ (t.node f.item).child f.dir.flip = f.sibling.top := by
  obtain ⟨hparent, hcolor, hchild, hsib, -⟩ := h.above
  exact ⟨hparent, hcolor, hchild, hsib⟩

theorem Focused.child_eq_iff (h : Focused t (f :: up) s) (hx : s.top = some x) :
    (t.node f.item).child d = some x ↔ f.dir = d := by
  obtain ⟨df, c, y, sib⟩ := f
  obtain ⟨-, -, hchild, hsib⟩ := h.frame
  rcases Dir.eq_or_eq_flip d df with rfl | rfl
  · exact iff_of_true (hchild.trans hx) rfl
  · refine iff_of_false (fun heq => ?_) (by simp)
    have htop : sib.top = some x := hsib.symm.trans (by rwa [Dir.flip_flip])
    have hnd := (List.nodup_append.1 h.nodup).2.2 x (top_mem_items hx) x
    exact hnd (by simp [pathItems, top_mem_items htop]) rfl

theorem Focused.left_eq_iff (h : Focused t (f :: up) s) (hx : s.top = some x) :
    (t.node f.item).left = some x ↔ f.dir = .left :=
  h.child_eq_iff (d := .left) hx

theorem ReadsPath.root_mem {hole : Option ν} (h : ReadsPath m root (f :: up) hole) :
    ∃ z ∈ pathItems (f :: up), root = some z := by
  induction up generalizing f hole with
  | nil => exact ⟨f.item, List.mem_cons_self, h.2.2.2.2.2⟩
  | cons g up ih =>
      obtain ⟨z, hz, hroot⟩ := ih h.2.2.2.2.2
      exact ⟨z, List.mem_cons_of_mem _ (List.mem_append_right _ hz), hroot⟩

theorem Focused.root_ne (h : Focused t (f :: up) s) : t.root ≠ s.top := by
  obtain ⟨z, hz, hroot⟩ := h.above.root_mem
  intro heq
  have hmem := top_mem_items (heq.symm.trans hroot)
  exact (List.nodup_append.1 h.nodup).2.2 z hmem z hz rfl

theorem Focused.root_eq (h : Focused t [] s) : t.root = s.top := h.above

theorem Reads.isRed_iff [DecidableEq ν] (h : Reads t.node s parent) :
    t.isRed s.top = true ↔ s.color = .red := by
  cases s with
  | nil => exact iff_of_false (by simp [RbTree.isRed, top]) (by simp [RBTree.color])
  | node c l y r => simp [RbTree.isRed, top, RBTree.color, h.2.1, colorOf_eq_colorRed]

theorem Reads.isBlack_iff [DecidableEq ν] (h : Reads t.node s parent) :
    t.isBlack s.top = true ↔ s.color = .black := by
  cases s with
  | nil => exact iff_of_true rfl rfl
  | node c l y r => simp [RbTree.isBlack, top, RBTree.color, h.2.1, colorOf_eq_colorBlack]

/-! ## What is not written stays -/

theorem Reads.congr (h : Reads m s parent) (hm : ∀ z ∈ s.items, m' z = m z) :
    Reads m' s parent := by
  induction s generalizing parent with
  | nil => trivial
  | node c l y r ihl ihr =>
      obtain ⟨hparent, hcolor, hleft, hright, hl, hr⟩ := h
      have hy : m' y = m y := hm y (by simp [items])
      refine ⟨by rwa [hy], by rwa [hy], by rwa [hy], by rwa [hy], ihl hl fun z hz => ?_,
        ihr hr fun z hz => ?_⟩
      · exact hm z (by simp [items, hz])
      · exact hm z (by simp [items, hz])

theorem ReadsPath.congr {hole : Option ν} (h : ReadsPath m root path hole)
    (hm : ∀ z ∈ pathItems path, m' z = m z) : ReadsPath m' root path hole := by
  induction path generalizing hole with
  | nil => exact h
  | cons f up ih =>
      obtain ⟨hparent, hcolor, hchild, hsib, hreads, hup⟩ := h
      have hf : m' f.item = m f.item := hm _ List.mem_cons_self
      refine ⟨by rwa [hf], by rwa [hf], by rwa [hf], by rwa [hf], hreads.congr fun z hz => ?_,
        ih hup fun z hz => ?_⟩
      · exact hm z (by simp [pathItems, hz])
      · exact hm z (by simp [pathItems, hz])

theorem Reads.reparent {parent' : Option ν} (h : Reads m s parent) (hnd : s.items.Nodup)
    (hm : ∀ z ∈ s.items, s.top ≠ some z → m' z = m z)
    (htop : ∀ z, s.top = some z → m' z = (m z).setParent parent') :
    Reads m' s parent' := by
  cases s with
  | nil => trivial
  | node c l y r =>
      obtain ⟨-, hcolor, hleft, hright, hl, hr⟩ := h
      have hy : m' y = (m y).setParent parent' := htop y rfl
      have hlr : y ∉ l.items ∧ y ∉ r.items := by
        have hcons := (List.nodup_cons.1 (List.perm_middle.nodup_iff.1 hnd)).1
        rwa [List.mem_append, not_or] at hcons
      rw [Reads, hy]
      refine ⟨rfl, hcolor, hleft, hright, hl.congr fun z hz => ?_, hr.congr fun z hz => ?_⟩
      · exact hm z (by simp [items, hz]) fun heq => hlr.1 (Option.some.inj heq ▸ hz)
      · exact hm z (by simp [items, hz]) fun heq => hlr.2 (Option.some.inj heq ▸ hz)

end Focus

/-! ## Changing links -/

section Changes

variable [DecidableEq ν] {t t' : RbTree ν κ} {m' : ν → RbTreeNode ν κ} {path up : List (Frame ν)}
  {s near far : RBTree ν} {f : Frame ν} {d : Dir} {c c' : Color} {x y : ν} {hole v : Option ν}

theorem setNode_node (t : RbTree ν κ) (a z : ν) (n : RbTreeNode ν κ) :
    (t.setNode a n).node z = if z = a then n else t.node z :=
  Function.update_apply _ _ _ _

theorem kept_setNode {a : ν} {n : RbTreeNode ν κ} {xs : List ν} (hkey : n.key = (t.node a).key)
    (ha : a ∈ xs) : Kept t (t.setNode a n) xs := by
  refine ⟨fun z => ?_, rfl, fun z hz => ?_⟩
  · rw [setNode_node]
    split
    · next heq => rw [hkey, heq]
    · rfl
  · rw [setNode_node, if_neg]
    rintro rfl
    exact hz ha

theorem setChild_node (t : RbTree ν κ) (d : Dir) (a z : ν) (v : Option ν) :
    (t.setChild d a v).node z = if z = a then (t.node a).setChild v d else t.node z :=
  setNode_node _ _ _ _

theorem setParent_node (t : RbTree ν κ) (a z : ν) (v : Option ν) :
    (t.setParent a v).node z = if z = a then (t.node a).setParent v else t.node z :=
  setNode_node _ _ _ _

theorem setParentIf_node (t : RbTree ν κ) (p : Option ν) (z : ν) (v : Option ν) :
    (t.setParentIf p v).node z =
      if p = some z then (t.node z).setParent v else t.node z := by
  cases p with
  | none => rfl
  | some a =>
      rw [RbTree.setParentIf, setParent_node]
      by_cases hz : z = a
      · rw [if_pos hz, if_pos (by rw [hz]), hz]
      · rw [if_neg hz, if_neg fun heq => hz (Option.some.inj heq).symm]

theorem setColor_node (t : RbTree ν κ) (a z : ν) (k : ℤ) :
    (t.setColor a k).node z = if z = a then (t.node a).setColor k else t.node z :=
  setNode_node _ _ _ _

@[simp] theorem setChild_root (t : RbTree ν κ) (d : Dir) (a : ν) (v : Option ν) :
    (t.setChild d a v).root = t.root := rfl

@[simp] theorem setParent_root (t : RbTree ν κ) (a : ν) (v : Option ν) :
    (t.setParent a v).root = t.root := rfl

@[simp] theorem setColor_root (t : RbTree ν κ) (a : ν) (k : ℤ) :
    (t.setColor a k).root = t.root := rfl

@[simp] theorem setParentIf_root (t : RbTree ν κ) (p v : Option ν) :
    (t.setParentIf p v).root = t.root := by cases p <;> rfl

theorem kept_setChild {a : ν} {xs : List ν} (ha : a ∈ xs) : Kept t (t.setChild d a v) xs :=
  kept_setNode (RbTreeNode.key_setChild _ _ _) ha

theorem kept_setParent {a : ν} {xs : List ν} (ha : a ∈ xs) : Kept t (t.setParent a v) xs :=
  kept_setNode rfl ha

theorem kept_setColor {a : ν} {xs : List ν} {k : ℤ} (ha : a ∈ xs) : Kept t (t.setColor a k) xs :=
  kept_setNode rfl ha

theorem Kept.of_setColor {a : ν} {xs : List ν} {k : ℤ} (h : Kept (t.setColor a k) t' xs)
    (ha : a ∈ xs) : Kept t t' xs :=
  (kept_setColor ha).trans h

theorem kept_setColorIf {p : Option ν} {xs : List ν} {k : ℤ} (hp : ∀ a, p = some a → a ∈ xs) :
    Kept t (t.setColorIf p k) xs := by
  cases p with
  | none => exact Kept.refl _ _
  | some a => exact kept_setColor (hp a rfl)

theorem kept_setParentIf {p : Option ν} {xs : List ν} (hp : ∀ a, p = some a → a ∈ xs) :
    Kept t (t.setParentIf p v) xs := by
  cases p with
  | none => exact Kept.refl _ _
  | some a => exact kept_setParent (hp a rfl)

/-- The pointer into the hole, at the node above it or at the root. -/
def setHole (t : RbTree ν κ) (v : Option ν) : List (Frame ν) → RbTree ν κ
  | [] => { t with root := v }
  | f :: _ => t.setChild f.dir f.item v

theorem setHole_node_of_ne {z : ν} (hz : parentOf path ≠ some z) :
    (setHole t v path).node z = t.node z := by
  cases path with
  | nil => rfl
  | cons f up => exact Function.update_of_ne (fun heq => hz (congrArg some heq.symm)) _ _

theorem kept_setHole {xs : List ν} (hp : ∀ a, parentOf path = some a → a ∈ xs) :
    Kept t (setHole t v path) xs := by
  cases path with
  | nil => exact ⟨fun _ => rfl, rfl, fun _ _ => rfl⟩
  | cons f up => exact kept_setChild (hp _ rfl)

omit [DecidableEq ν] in
theorem parentOf_mem {z : ν} (h : parentOf path = some z) : z ∈ pathItems path := by
  cases path with
  | nil => cases h
  | cons f up =>
      rw [← Option.some.inj h]
      exact List.mem_cons_self

/-- The code finds the side of a node by looking whether it is the left child. -/
theorem replaceChild_eq (h : ReadsPath t.node t.root path (some x)) (hx : x ∉ pathItems path) :
    t.replaceChild (parentOf path) x v = setHole t v path := by
  cases path with
  | nil => rfl
  | cons f up =>
      obtain ⟨d, c, y, sib⟩ := f
      obtain ⟨-, -, hchild, hsib, -⟩ := h
      unfold RbTree.replaceChild parentOf setHole
      cases d with
      | left => exact if_pos hchild
      | right =>
          refine if_neg fun hleft => hx ?_
          have htop : sib.top = some x := hsib.symm.trans hleft
          simp [pathItems, top_mem_items htop]

theorem ReadsPath.setHole (h : ReadsPath t.node t.root path hole) (hnd : (pathItems path).Nodup)
    (v : Option ν) : ReadsPath (setHole t v path).node (setHole t v path).root path v := by
  cases path with
  | nil => rfl
  | cons f up =>
      obtain ⟨hparent, hcolor, -, hsib, hreads, hup⟩ := h
      obtain ⟨hf, -⟩ := List.nodup_cons.1 hnd
      rw [List.mem_append, not_or] at hf
      have hself : (Tsl.setHole t v (f :: up)).node f.item = (t.node f.item).setChild v f.dir :=
        Function.update_self _ _ _
      have hother : ∀ z, z ≠ f.item → (Tsl.setHole t v (f :: up)).node z = t.node z :=
        fun z hz => Function.update_of_ne hz _ _
      refine ⟨by simpa [hself] using hparent, by simpa [hself] using hcolor, by simp [hself],
        by simpa [hself] using hsib, hreads.congr fun z hz => hother z ?_,
        hup.congr fun z hz => hother z ?_⟩
      · rintro rfl
        exact hf.1 hz
      · rintro rfl
        exact hf.2 hz

theorem ReadsPath.setParent (h : ReadsPath t.node t.root path hole) (hy : y ∉ pathItems path)
    (v : Option ν) : ReadsPath (t.setParent y v).node (t.setParent y v).root path hole := by
  refine h.congr fun z hz => ?_
  rw [setParent_node, if_neg]
  rintro rfl
  exact hy hz

theorem ReadsPath.setParentIf {p : Option ν} (h : ReadsPath t.node t.root path hole)
    (hp : ∀ a, p = some a → a ∉ pathItems path) (v : Option ν) :
    ReadsPath (t.setParentIf p v).node (t.setParentIf p v).root path hole := by
  cases p with
  | none => exact h
  | some a => exact h.setParent (hp a rfl) v

/-- What the focus rests on is spread over different nodes. -/
structure Apart (near far : RBTree ν) (x : ν) (path : List (Frame ν)) : Prop where
  not_near : x ∉ near.items
  not_far : x ∉ far.items
  not_path : x ∉ pathItems path
  near_far : ∀ z ∈ near.items, z ∉ far.items
  near_path : ∀ z ∈ near.items, z ∉ pathItems path
  far_path : ∀ z ∈ far.items, z ∉ pathItems path
  near_nodup : near.items.Nodup
  far_nodup : far.items.Nodup
  path_nodup : (pathItems path).Nodup

omit [DecidableEq ν] in
theorem apart_iff : ((join d c near x far).items ++ pathItems path).Nodup ↔
    Apart near far x path := by
  have hperm := (items_join_perm d c near far x).append_right (pathItems path)
  rw [hperm.nodup_iff]
  simp only [List.cons_append, List.nodup_cons, List.nodup_append, List.mem_append]
  constructor
  · rintro ⟨hx, ⟨hn, hf, hnf⟩, hp, hnfp⟩
    refine ⟨by tauto, by tauto, by tauto, fun z hz hz' => hnf z hz z hz' rfl,
      fun z hz hz' => hnfp z (.inl hz) z hz' rfl, fun z hz hz' => hnfp z (.inr hz) z hz' rfl,
      hn, hf, hp⟩
  · intro h
    refine ⟨by simp [h.not_near, h.not_far, h.not_path], ⟨h.near_nodup, h.far_nodup, ?_⟩, h.path_nodup, ?_⟩
    · rintro z hz w hw rfl
      exact h.near_far z hz hw
    · rintro z (hz | hz) w hw rfl
      · exact h.near_path z hz hw
      · exact h.far_path z hz hw

/-- **Recoloring** a node. -/
theorem Focused.setColor (h : Focused t path (join d c near x far)) (c' : Color) :
    Focused (t.setColor x (colorOf c')) path (join d c' near x far) := by
  obtain ⟨habove, hbelow, hnd⟩ := h
  obtain ⟨hparent, -, hnear, hfar, hn, hf⟩ := reads_join.1 hbelow
  have hA := apart_iff.1 hnd
  have hother : ∀ z, z ≠ x → (t.setColor x (colorOf c')).node z = t.node z :=
    fun z hz => Function.update_of_ne hz _ _
  have hself : (t.setColor x (colorOf c')).node x = (t.node x).setColor (colorOf c') :=
    Function.update_self _ _ _
  refine ⟨?_, reads_join.2 ⟨by simpa [hself] using hparent, by simp [hself],
    by simpa [hself] using hnear, by simpa [hself] using hfar,
    hn.congr fun z hz => hother z ?_, hf.congr fun z hz => hother z ?_⟩, apart_iff.2 hA⟩
  · rw [top_join] at habove ⊢
    refine habove.congr fun z hz => hother z ?_
    rintro rfl
    exact hA.not_path hz
  · rintro rfl
    exact hA.not_near hz
  · rintro rfl
    exact hA.not_far hz

theorem Focused.blacken (h : Focused t path s) :
    Focused (t.setColorIf s.top colorBlack) path s.blacken := by
  cases s with
  | nil => exact h
  | node c l x r => exact Focused.setColor (d := .left) h .black

theorem Focused.setColor_frame (h : Focused t (⟨d, c, x, far⟩ :: up) s) (c' : Color) :
    Focused (t.setColor x (colorOf c')) (⟨d, c', x, far⟩ :: up) s :=
  focused_join.1 ((focused_fill.1 h).setColor c')

theorem Focused.setColor_sibling {e : Dir} {k : Color}
    (h : Focused t (⟨d, c, x, join e k near y far⟩ :: up) s) (c' : Color) :
    Focused (t.setColor y (colorOf c')) (⟨d, c, x, join e c' near y far⟩ :: up) s := by
  have h' := (h.sideways.setColor c').sideways
  rwa [Dir.flip_flip] at h'

/-- The nodes that a rotation writes are different ones, and apart from those it leaves alone. -/
structure RotateApart (a b e : RBTree ν) (x y : ν) (path : List (Frame ν)) : Prop where
  ne : x ≠ y
  lower_inner : x ∉ b.items
  lower_outer : x ∉ e.items
  upper_near : y ∉ a.items
  upper_inner : y ∉ b.items
  upper_outer : y ∉ e.items
  near_inner : ∀ z ∈ a.items, z ∉ b.items
  inner_outer : ∀ z ∈ b.items, z ∉ e.items
  inner_nodup : b.items.Nodup
  path : ∀ z ∈ pathItems path, z ≠ x ∧ z ≠ y ∧ z ∉ b.items

omit [DecidableEq ν] in
theorem Focused.rotateApart {a b e : RBTree ν} (h : Focused t path (join d c a x (join d c' b y e))) :
    RotateApart a b e x y path := by
  have hA := apart_iff.1 h.nodup
  have hA' := apart_iff.1 (focused_join.1 h).sideways.nodup
  have hy : y ∈ (join d c' b y e).items := mem_items_join.2 (.inr (.inl rfl))
  have hb : ∀ z ∈ b.items, z ∈ (join d c' b y e).items := fun z hz => mem_items_join.2 (.inl hz)
  exact
    { ne := fun heq => hA.not_far (heq ▸ hy)
      lower_inner := fun hx => hA.not_far (hb x hx)
      lower_outer := fun hx => hA.not_far (mem_items_join.2 (.inr (.inr hx)))
      upper_near := fun hya => hA.near_far y hya hy
      upper_inner := hA'.not_near
      upper_outer := hA'.not_far
      near_inner := fun z hz hzb => hA.near_far z hz (hb z hzb)
      inner_outer := hA'.near_far
      inner_nodup := hA'.near_nodup
      path := fun z hz => ⟨fun heq => hA.not_path (heq ▸ hz), fun heq => hA.far_path y hy (heq ▸ hz),
        fun hzb => hA.far_path z (hb z hzb) hz⟩ }

/-- The writes of a rotation before `y` comes into the hole. -/
def rotateInner (t : RbTree ν κ) (d : Dir) (x y : ν) (inner parent : Option ν) : RbTree ν κ :=
  ((t.setChild d.flip x inner).setParentIf inner (some x)).setParent y parent

theorem rotateInner_node {inner p : Option ν} (hxy : x ≠ y) (hx : inner ≠ some x)
    (hy : inner ≠ some y) (z : ν) :
    (rotateInner t d x y inner p).node z =
      if z = y then (t.node y).setParent p
      else if z = x then (t.node x).setChild inner d.flip
      else if inner = some z then (t.node z).setParent (some x) else t.node z := by
  simp only [rotateInner, setParent_node, setParentIf_node, setChild_node, if_neg hy, if_neg hxy.symm]
  by_cases hzy : z = y
  · simp only [if_pos hzy]
  · by_cases hzx : z = x
    · subst hzx
      simp only [if_neg hzy, if_neg hx, if_true]
    · simp only [if_neg hzy, if_neg hzx]

/-- The writes of a rotation after `y` came into the hole. -/
def rotateOuter (t : RbTree ν κ) (d : Dir) (x y : ν) : RbTree ν κ :=
  (t.setChild d y (some x)).setParent x (some y)

theorem rotateOuter_node (hxy : x ≠ y) (z : ν) :
    (rotateOuter t d x y).node z =
      if z = x then (t.node x).setParent (some y)
      else if z = y then (t.node y).setChild (some x) d else t.node z := by
  simp only [rotateOuter, setParent_node, setChild_node, if_neg hxy]

/-- What the code of a rotation comes to, and what is above before the last writes. -/
theorem helperRotate_eq {a b e : RBTree ν} (h : Focused t path (join d c a x (join d c' b y e))) :
    helperRotate d t x = some (rotateOuter
        (setHole (rotateInner t d x y b.top (parentOf path)) (some y) path) d x y) ∧
      ReadsPath (rotateInner t d x y b.top (parentOf path)).node t.root path (some x) := by
  have hR := h.rotateApart
  have hA := apart_iff.1 h.nodup
  obtain ⟨habove, hbelow, -⟩ := h
  obtain ⟨hparent, -, -, hfar, -, hy⟩ := reads_join.1 hbelow
  obtain ⟨-, -, hnear', -, -, -⟩ := reads_join.1 hy
  rw [top_join] at habove hfar
  have hbx : b.top ≠ some x := fun htop => hR.lower_inner (top_mem_items htop)
  have hby : b.top ≠ some y := fun htop => hR.upper_inner (top_mem_items htop)
  set t₃ := rotateInner t d x y b.top (parentOf path) with ht₃
  have hnode := rotateInner_node (t := t) (d := d) (p := parentOf path) hR.ne hbx hby
  have hroot : t₃.root = t.root := by simp [ht₃, rotateInner]
  have habove₃ : ReadsPath t₃.node t.root path (some x) := by
    refine habove.congr fun z hz => ?_
    obtain ⟨hzx, hzy, hzb⟩ := hR.path z hz
    rw [hnode, if_neg hzy, if_neg hzx, if_neg fun htop => hzb (top_mem_items htop)]
  refine ⟨?_, habove₃⟩
  have hx₃ : (t₃.node x).parent = parentOf path := by
    rw [hnode, if_neg hR.ne, if_pos rfl, RbTreeNode.parent_setChild, hparent]
  have hxp : (((t.setChild d.flip x b.top).setParentIf b.top (some x)).node x).parent =
      parentOf path := by
    rw [setParentIf_node, if_neg hbx, setChild_node, if_pos rfl, RbTreeNode.parent_setChild, hparent]
  have hreplace := replaceChild_eq (v := some y) (hroot.symm ▸ habove₃) hA.not_path
  simp only [helperRotate, hfar, Option.bind_eq_bind, Option.bind_some, hnear', hxp]
  change some (((t₃.replaceChild (t₃.node x).parent x (some y)).setChild d y (some x)).setParent x
    (some y)) = _
  rw [hx₃, hreplace]
  rfl

/-- **A rotation**: the child `y` of `x` on the other side goes up, `x` goes down on the side `d`, and
the inner subtree goes from `y` to `x`. -/
theorem helperRotate_spec {a b e : RBTree ν}
    (h : Focused t path (join d c a x (join d c' b y e))) :
    ∃ t', helperRotate d t x = some t' ∧ Focused t' path (join d c' (join d c a x b) y e) ∧
      Kept t t' (plug path (join d c a x (join d c' b y e))).items := by
  have hR := h.rotateApart
  have hA := apart_iff.1 h.nodup
  obtain ⟨hrun, habove₃⟩ := helperRotate_eq h
  obtain ⟨-, hbelow, hnd⟩ := h
  obtain ⟨hparent, hcolor, hnear, -, ha, hy⟩ := reads_join.1 hbelow
  obtain ⟨-, hcolor', hnear', hfar', hb, he⟩ := reads_join.1 hy
  set t₃ := rotateInner t d x y b.top (parentOf path) with ht₃
  set t₆ := rotateOuter (setHole t₃ (some y) path) d x y with ht₆
  have hnode₃ := rotateInner_node (t := t) (d := d) (p := parentOf path) hR.ne
    (fun htop => hR.lower_inner (top_mem_items htop)) fun htop => hR.upper_inner (top_mem_items htop)
  have hnode₄ : ∀ z, z ∉ pathItems path → (setHole t₃ (some y) path).node z = t₃.node z :=
    fun z hz => setHole_node_of_ne fun heq => hz (parentOf_mem heq)
  have hx₆ : t₆.node x = ((t.node x).setChild b.top d.flip).setParent (some y) := by
    rw [ht₆, rotateOuter_node hR.ne, if_pos rfl, hnode₄ x hA.not_path, hnode₃, if_neg hR.ne,
      if_pos rfl]
  have hy₆ : t₆.node y = ((t.node y).setParent (parentOf path)).setChild (some x) d := by
    rw [ht₆, rotateOuter_node hR.ne, if_neg hR.ne.symm, if_pos rfl,
      hnode₄ y fun hy => (hR.path y hy).2.1 rfl, hnode₃, if_pos rfl]
  have hother : ∀ z, z ∉ pathItems path → z ≠ x → z ≠ y →
      t₆.node z = if b.top = some z then (t.node z).setParent (some x) else t.node z := by
    intro z hz hzx hzy
    rw [ht₆, rotateOuter_node hR.ne, if_neg hzx, if_neg hzy, hnode₄ z hz, hnode₃, if_neg hzy,
      if_neg hzx]
  have hinner : ∀ z ∈ b.items,
      t₆.node z = if b.top = some z then (t.node z).setParent (some x) else t.node z := fun z hz =>
    hother z (hA.far_path z (mem_items_join.2 (.inl hz))) (fun heq => hR.lower_inner (heq ▸ hz))
      fun heq => hR.upper_inner (heq ▸ hz)
  refine ⟨t₆, hrun, ⟨?_, ?_, ?_⟩, ?_⟩
  · have hroot : t₃.root = t.root := by simp [ht₃, rotateInner]
    rw [← hroot] at habove₃
    rw [top_join]
    refine (habove₃.setHole hA.path_nodup (some y)).congr fun z hz => ?_
    obtain ⟨hzx, hzy, -⟩ := hR.path z hz
    rw [ht₆, rotateOuter_node hR.ne, if_neg hzx, if_neg hzy]
  · refine reads_join.2 ⟨by simp [hy₆], by simpa [hy₆] using hcolor', by simp [hy₆],
      by simpa [hy₆] using hfar', reads_join.2 ⟨by simp [hx₆], by simpa [hx₆] using hcolor,
        by simpa [hx₆] using hnear, by simp [hx₆], ha.congr fun z hz => ?_,
        hb.reparent hR.inner_nodup (fun z hz hne => ?_) fun z hz => ?_⟩,
      he.congr fun z hz => ?_⟩
    · rw [hother z (hA.near_path z hz) (fun heq => hA.not_near (heq ▸ hz))
        (fun heq => hR.upper_near (heq ▸ hz)), if_neg fun htop =>
          hR.near_inner z hz (top_mem_items htop)]
    · rw [hinner z hz, if_neg hne]
    · rw [hinner z (top_mem_items hz), if_pos hz]
    · rw [hother z (hA.far_path z (mem_items_join.2 (.inr (.inr hz))))
        (fun heq => hR.lower_outer (heq ▸ hz)) (fun heq => hR.upper_outer (heq ▸ hz)),
        if_neg fun htop => hR.inner_outer z (top_mem_items htop) hz]
  · rw [items_rotate d c c' c c']
    exact hnd
  · have hin : ∀ z, z ∈ (join d c a x (join d c' b y e)).items ∨ z ∈ pathItems path →
        z ∈ (plug path (join d c a x (join d c' b y e))).items := fun z => mem_pathItems_iff.2
    have hxin := hin x (.inl (mem_items_join.2 (.inr (.inl rfl))))
    have hyin := hin y (.inl (mem_items_join.2 (.inr (.inr (mem_items_join.2 (.inr (.inl rfl)))))))
    have hbin : ∀ z, b.top = some z → z ∈ (plug path (join d c a x (join d c' b y e))).items :=
      fun z hz => hin z (.inl (mem_items_join.2 (.inr (.inr (mem_items_join.2
        (.inl (top_mem_items hz)))))))
    exact (kept_setChild hxin).trans ((kept_setParentIf hbin).trans ((kept_setParent hyin).trans
      ((kept_setHole fun z hz => hin z (.inr (parentOf_mem hz))).trans
        ((kept_setChild hyin).trans (kept_setParent hxin)))))

end Changes

end Tsl
