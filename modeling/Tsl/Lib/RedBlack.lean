import Mathlib.Algebra.Group.Nat.Defs
import Mathlib.Data.List.Basic
import Mathlib.Data.Nat.Log

set_option autoImplicit false

/-! # Red-black trees

Coloured binary trees, and trees with a hole. What an algorithm with parent pointers works on is a
subtree together with the way up from it to the root: a list of frames, each with the node above, the
side the way comes from and the subtree on the other side. `plug` puts a subtree into the hole.

The red-black invariant is split the same way. `Balanced t c n` says that `t` has a root of colour `c`,
no red node with a red child, and `n` black nodes on each way down; `Hole path c n` says what may be
put into the hole. Sides are values (`Dir`), so that an argument for one side is one for both. -/

namespace Tsl.Lib

variable {ν : Type*}

/-- A side. -/
inductive Dir where
  | left
  | right
deriving DecidableEq, Repr

/-- The other side. -/
def Dir.flip : Dir → Dir
  | .left => .right
  | .right => .left

@[simp] theorem Dir.flip_flip (d : Dir) : d.flip.flip = d := by cases d <;> rfl

@[simp] theorem Dir.flip_ne (d : Dir) : d.flip ≠ d := by cases d <;> decide

@[simp] theorem Dir.ne_flip (d : Dir) : d ≠ d.flip := by cases d <;> decide

theorem Dir.eq_or_eq_flip (d e : Dir) : e = d ∨ e = d.flip := by cases d <;> cases e <;> decide

/-- The colour of a node. -/
inductive Color where
  | red
  | black
deriving DecidableEq, Repr

/-- Binary trees of coloured items. -/
inductive RBTree (ν : Type*) where
  | nil
  | node (color : Color) (left : RBTree ν) (item : ν) (right : RBTree ν)
deriving DecidableEq, Repr

namespace RBTree

/-- The item at the root. -/
def top : RBTree ν → Option ν
  | nil => none
  | node _ _ x _ => some x

/-- The colour of the root; an empty tree counts as black. -/
def color : RBTree ν → Color
  | nil => .black
  | node c _ _ _ => c

/-- The items from left to right. -/
def items : RBTree ν → List ν
  | nil => []
  | node _ l x r => l.items ++ x :: r.items

def height : RBTree ν → ℕ
  | nil => 0
  | node _ l _ r => max l.height r.height + 1

theorem height_le_length (t : RBTree ν) : t.height ≤ t.items.length := by
  induction t with
  | nil => exact Nat.le_refl 0
  | node c l x r ihl ihr =>
      simp only [height, items, List.length_append, List.length_cons]
      omega

/-- The number of black nodes on each way from the root down to an empty tree. -/
def blackCounts : RBTree ν → List ℕ
  | nil => [0]
  | node c l _ r =>
      (l.blackCounts ++ r.blackCounts).map fun n => if c = .black then n + 1 else n

/-- No red node has a red child. -/
def NoRedRed : RBTree ν → Prop
  | nil => True
  | node c l _ r => (c = .red → l.color = .black ∧ r.color = .black) ∧ l.NoRedRed ∧ r.NoRedRed

/-- The tree with a black root. -/
def blacken : RBTree ν → RBTree ν
  | nil => nil
  | node _ l x r => node .black l x r

/-- A node with the subtree `near` on the side `d` and `far` on the other. -/
def join : Dir → Color → RBTree ν → ν → RBTree ν → RBTree ν
  | .left, c, near, x, far => node c near x far
  | .right, c, near, x, far => node c far x near

@[simp] theorem top_nil : (nil : RBTree ν).top = none := rfl

@[simp] theorem top_node (c : Color) (l r : RBTree ν) (x : ν) : (node c l x r).top = some x := rfl

@[simp] theorem top_blacken (t : RBTree ν) : t.blacken.top = t.top := by cases t <;> rfl

@[simp] theorem items_blacken (t : RBTree ν) : t.blacken.items = t.items := by cases t <;> rfl

@[simp] theorem top_join (d : Dir) (c : Color) (near far : RBTree ν) (x : ν) :
    (join d c near x far).top = some x := by cases d <;> rfl

@[simp] theorem color_join (d : Dir) (c : Color) (near far : RBTree ν) (x : ν) :
    (join d c near x far).color = c := by cases d <;> rfl

@[simp] theorem blacken_join (d : Dir) (c : Color) (near far : RBTree ν) (x : ν) :
    (join d c near x far).blacken = join d .black near x far := by cases d <;> rfl

theorem join_flip (d : Dir) (c : Color) (near far : RBTree ν) (x : ν) :
    join d.flip c far x near = join d c near x far := by cases d <;> rfl

theorem exists_join (d : Dir) {t : RBTree ν} {x : ν} (h : t.top = some x) :
    ∃ c near far, t = join d c near x far := by
  cases t with
  | nil => cases h
  | node c l y r =>
      obtain rfl : y = x := Option.some.inj h
      cases d with
      | left => exact ⟨c, l, r, rfl⟩
      | right => exact ⟨c, r, l, rfl⟩

theorem top_eq_none {t : RBTree ν} : t.top = none ↔ t = nil := by
  cases t <;> simp [top]

theorem top_mem_items {t : RBTree ν} {x : ν} (h : t.top = some x) : x ∈ t.items := by
  cases t with
  | nil => cases h
  | node c l y r =>
      obtain rfl : y = x := Option.some.inj h
      simp [items]

theorem mem_items_join {d : Dir} {c : Color} {near far : RBTree ν} {x y : ν} :
    y ∈ (join d c near x far).items ↔ y ∈ near.items ∨ y = x ∨ y ∈ far.items := by
  cases d with
  | left => simp [join, items]
  | right =>
      simp only [join, items, List.mem_append, List.mem_cons]
      tauto

theorem items_join_congr {d : Dir} {c : Color} {near far far' : RBTree ν} {x : ν}
    (h : far'.items = far.items) :
    (join d c near x far').items = (join d c near x far).items := by
  cases d <;> simp only [join, items, h]

theorem items_rotate (d : Dir) (c c' k k' : Color) (a b e : RBTree ν) (x y : ν) :
    (join d c' (join d c a x b) y e).items = (join d k a x (join d k' b y e)).items := by
  cases d <;> simp [join, items]

end RBTree

open Tsl.Lib.RBTree

/-! ## Trees with a hole -/

/-- A node with a hole in place of its subtree on the side `dir`. -/
structure Frame (ν : Type*) where
  dir : Dir
  color : Color
  item : ν
  sibling : RBTree ν

/-- The node with the hole filled. -/
def Frame.fill (f : Frame ν) (t : RBTree ν) : RBTree ν := join f.dir f.color t f.item f.sibling

/-- Filling the hole at the bottom of `path`, which leads from the hole up to the root. -/
def plug : List (Frame ν) → RBTree ν → RBTree ν
  | [], t => t
  | f :: up, t => plug up (f.fill t)

/-- The items to the left of the hole. -/
def itemsBefore : List (Frame ν) → List ν
  | [] => []
  | f :: up =>
      match f.dir with
      | .left => itemsBefore up
      | .right => itemsBefore up ++ (f.sibling.items ++ [f.item])

/-- The items to the right of the hole. -/
def itemsAfter : List (Frame ν) → List ν
  | [] => []
  | f :: up =>
      match f.dir with
      | .left => f.item :: (f.sibling.items ++ itemsAfter up)
      | .right => itemsAfter up

/-- The node above the hole. -/
def parentOf : List (Frame ν) → Option ν
  | [] => none
  | f :: _ => some f.item

section Plug

variable {path up : List (Frame ν)} {t : RBTree ν} {f : Frame ν}

theorem items_fill (f : Frame ν) (t : RBTree ν) :
    (f.fill t).items = match f.dir with
      | .left => t.items ++ f.item :: f.sibling.items
      | .right => f.sibling.items ++ f.item :: t.items := by
  unfold Frame.fill
  cases f.dir <;> rfl

theorem items_fill_congr {t t' : RBTree ν} (h : t'.items = t.items) (f : Frame ν) :
    (f.fill t').items = (f.fill t).items := by
  rw [items_fill, items_fill, h]

/-- **What is in the hole is one stretch of the items.** -/
theorem items_plug (path : List (Frame ν)) (t : RBTree ν) :
    (plug path t).items = itemsBefore path ++ t.items ++ itemsAfter path := by
  induction path generalizing t with
  | nil => simp [plug, itemsBefore, itemsAfter]
  | cons f up ih =>
      rw [plug, ih, items_fill, itemsBefore, itemsAfter]
      cases f.dir <;> simp

theorem plug_append (path up : List (Frame ν)) (t : RBTree ν) :
    plug (path ++ up) t = plug up (plug path t) := by
  induction path generalizing t with
  | nil => rfl
  | cons f path ih => exact ih _

theorem items_plug_congr {t t' : RBTree ν} (h : t'.items = t.items) (path : List (Frame ν)) :
    (plug path t').items = (plug path t).items := by
  rw [items_plug, items_plug, h]

theorem height_lt_fill (f : Frame ν) (t : RBTree ν) : t.height < (f.fill t).height := by
  unfold Frame.fill
  cases f.dir with
  | left => exact Nat.lt_succ_of_le (Nat.le_max_left _ _)
  | right => exact Nat.lt_succ_of_le (Nat.le_max_right _ _)

theorem length_path_le (path : List (Frame ν)) (t : RBTree ν) :
    path.length + t.height ≤ (plug path t).height := by
  induction path generalizing t with
  | nil => exact Nat.le_of_eq (Nat.zero_add _)
  | cons f up ih =>
      have hle := ih (f.fill t)
      have hlt := height_lt_fill f t
      simp only [plug, List.length_cons]
      omega

theorem exists_path_of_mem {t : RBTree ν} {x : ν} (hx : x ∈ t.items) :
    ∃ path s, t = plug path s ∧ s.top = some x := by
  induction t with
  | nil => cases hx
  | node c l y r ihl ihr =>
      rcases List.mem_append.1 hx with hl | hx
      · obtain ⟨path, s, rfl, hs⟩ := ihl hl
        refine ⟨path ++ [⟨.left, c, y, r⟩], s, ?_, hs⟩
        rw [plug_append]
        rfl
      · rcases List.mem_cons.1 hx with rfl | hr
        · exact ⟨[], _, rfl, rfl⟩
        · obtain ⟨path, s, rfl, hs⟩ := ihr hr
          refine ⟨path ++ [⟨.right, c, y, l⟩], s, ?_, hs⟩
          rw [plug_append]
          rfl

end Plug

/-! ## Searching

A search is given by a function that is positive on what lies before the place looked for, negative on
what lies after it, and zero on what is found. -/

/-- In the order of the items, `cmp` is positive first, then zero at most once, then negative. -/
def Cut (cmp : ν → ℤ) (items : List ν) : Prop := items.Pairwise fun a b => cmp a ≤ 0 → cmp b < 0

/-- The place looked for is in the hole. -/
structure Narrowed (cmp : ν → ℤ) (path : List (Frame ν)) : Prop where
  before : ∀ z ∈ itemsBefore path, 0 < cmp z
  after : ∀ z ∈ itemsAfter path, cmp z < 0

/-- The way down from the subtree in the hole, to what is found or to an empty tree. -/
def descend (cmp : ν → ℤ) : List (Frame ν) → RBTree ν → List (Frame ν) × RBTree ν
  | path, .nil => (path, .nil)
  | path, .node c l x r =>
      if cmp x < 0 then descend cmp (⟨.left, c, x, r⟩ :: path) l
      else if cmp x = 0 then (path, .node c l x r)
      else descend cmp (⟨.right, c, x, l⟩ :: path) r

section Search

variable {cmp : ν → ℤ} {path up : List (Frame ν)} {s : RBTree ν} {x z : ν}

theorem plug_descend (cmp : ν → ℤ) (path : List (Frame ν)) (s : RBTree ν) :
    plug (descend cmp path s).1 (descend cmp path s).2 = plug path s := by
  induction s generalizing path with
  | nil => rfl
  | node c l x r ihl ihr =>
      unfold descend
      split
      · exact ihl _
      · split
        · rfl
        · exact ihr _

theorem descend_congr {cmp cmp' : ν → ℤ} (h : ∀ z ∈ s.items, cmp z = cmp' z)
    (path : List (Frame ν)) : descend cmp path s = descend cmp' path s := by
  induction s generalizing path with
  | nil => rfl
  | node c l x r ihl ihr =>
      have hx : cmp x = cmp' x := h x (by simp [items])
      have hl := fun path => ihl (fun z hz => h z (by simp [items, hz])) path
      have hr := fun path => ihr (fun z hz => h z (by simp [items, hz])) path
      simp only [descend, hx, hl, hr]

theorem cmp_descend (h : (descend cmp path s).2.top = some x) : cmp x = 0 := by
  induction s generalizing path with
  | nil => cases h
  | node c l y r ihl ihr =>
      unfold descend at h
      split at h
      · exact ihl h
      · split at h
        · next heq => exact Option.some.inj h ▸ heq
        · exact ihr h

theorem Narrowed.nil : Narrowed cmp [] := ⟨fun _ h => (by cases h), fun _ h => (by cases h)⟩

/-- **A search stays where what is looked for must be.** -/
theorem Narrowed.descend (h : Narrowed cmp path) (hcut : Cut cmp (plug path s).items) :
    Narrowed cmp (descend cmp path s).1 := by
  induction s generalizing path with
  | nil => exact h
  | node c l x r ihl ihr =>
      have hcut' := hcut
      rw [items_plug, Cut, List.append_assoc, List.pairwise_append, List.pairwise_append] at hcut'
      obtain ⟨-, ⟨hs, -, -⟩, -⟩ := hcut'
      simp only [items, List.pairwise_append, List.pairwise_cons, List.forall_mem_cons] at hs
      obtain ⟨-, ⟨hxr, -⟩, hlx⟩ := hs
      unfold Lib.descend
      split
      · next hneg =>
          refine ihl ⟨h.before, fun z hz => ?_⟩ hcut
          rw [itemsAfter, List.mem_cons, List.mem_append] at hz
          rcases hz with rfl | hz | hz
          · exact hneg
          · exact hxr z hz hneg.le
          · exact h.after z hz
      · next hneg =>
          split
          · exact h
          · next hzero =>
              refine ihr ⟨fun z hz => ?_, h.after⟩ hcut
              rw [itemsBefore, List.mem_append, List.mem_append, List.mem_singleton] at hz
              rcases hz with hz | hz | rfl
              · exact h.before z hz
              · by_contra hle
                exact hneg ((hlx z hz).1 (not_lt.1 hle))
              · omega

/-- What is looked for is nowhere but in the hole. -/
theorem Narrowed.mem_of_cmp (h : Narrowed cmp path) (hz : z ∈ (plug path s).items)
    (hcmp : cmp z = 0) : z ∈ s.items := by
  rw [items_plug, List.mem_append, List.mem_append] at hz
  rcases hz with (hz | hz) | hz
  · have := h.before z hz
    omega
  · exact hz
  · have := h.after z hz
    omega

/-- **A search that ends in an empty tree has missed nothing.** -/
theorem cmp_ne_of_descend (hcut : Cut cmp s.items) (hnone : (descend cmp [] s).2.top = none)
    (hz : z ∈ s.items) : cmp z ≠ 0 := by
  intro hcmp
  have hplug := plug_descend cmp [] s
  rw [top_eq_none.1 hnone] at hplug
  have hmem : z ∈ (plug (descend cmp [] s).1 RBTree.nil).items := by
    rw [hplug]
    exact hz
  exact absurd ((Narrowed.nil.descend hcut).mem_of_cmp hmem hcmp) List.not_mem_nil

theorem mem_of_descend (h : (descend cmp [] s).2.top = some z) : z ∈ s.items := by
  have hplug : plug (descend cmp [] s).1 (descend cmp [] s).2 = s := plug_descend cmp [] s
  rw [← hplug, items_plug, List.mem_append, List.mem_append]
  exact .inl (.inr (top_mem_items h))

/-- A search in a tree ends at what is found, or under some node of it. -/
theorem descend_cases (hcut : Cut cmp s.items) (hne : s ≠ .nil) :
    (∃ path c l z r, descend cmp [] s = (path, .node c l z r) ∧ z ∈ s.items ∧ cmp z = 0) ∨
      ∃ f up, descend cmp [] s = (f :: up, .nil) ∧ ∀ z ∈ s.items, cmp z ≠ 0 := by
  have hplug : plug (descend cmp [] s).1 (descend cmp [] s).2 = s := plug_descend cmp [] s
  have hfound : ∀ z, (descend cmp [] s).2.top = some z → cmp z = 0 := fun z => cmp_descend
  have hmissed := fun h z => cmp_ne_of_descend (z := z) hcut h
  generalize descend cmp [] s = e at hplug hfound hmissed
  obtain ⟨path, sub⟩ := e
  cases sub with
  | node c l z r =>
      refine .inl ⟨path, c, l, z, r, rfl, ?_, hfound z rfl⟩
      rw [← hplug, items_plug]
      simp [items]
  | nil =>
      cases path with
      | nil => exact absurd hplug.symm hne
      | cons f up => exact .inr ⟨f, up, rfl, hmissed rfl⟩

theorem mem_items_of_descend {f : Frame ν} (h : descend cmp [] s = (f :: up, .nil)) :
    f.item ∈ s.items := by
  have hplug := plug_descend cmp [] s
  rw [h] at hplug
  change f.item ∈ (plug [] s).items
  rw [← hplug]
  change f.item ∈ (plug up (f.fill .nil)).items
  rw [items_plug, List.mem_append, List.mem_append]
  exact .inl (.inr (mem_items_join.2 (.inr (.inl rfl))))

end Search

/-! ## The red-black invariant -/

/-- A root of colour `c`, no red node with a red child, and `n` black nodes on each way down. -/
inductive Balanced : RBTree ν → Color → ℕ → Prop
  | nil : Balanced nil .black 0
  | red {l r : RBTree ν} {x : ν} {n : ℕ} :
      Balanced l .black n → Balanced r .black n → Balanced (node .red l x r) .red n
  | black {l r : RBTree ν} {x : ν} {c₁ c₂ : Color} {n : ℕ} :
      Balanced l c₁ n → Balanced r c₂ n → Balanced (node .black l x r) .black (n + 1)

/-- What may be put into the hole, so that the whole is balanced and its root black. -/
inductive Hole : List (Frame ν) → Color → ℕ → Prop
  | root {n : ℕ} : Hole [] .black n
  | underRed {d : Dir} {x : ν} {s : RBTree ν} {up : List (Frame ν)} {n : ℕ} :
      Balanced s .black n → Hole up .red n → Hole (⟨d, .red, x, s⟩ :: up) .black n
  | underBlack {d : Dir} {x : ν} {s : RBTree ν} {up : List (Frame ν)} {c c' : Color} {n : ℕ} :
      Balanced s c' n → Hole up .black (n + 1) → Hole (⟨d, .black, x, s⟩ :: up) c n

section Balance

variable {d : Dir} {c : Color} {n : ℕ} {near far t : RBTree ν} {x : ν} {path : List (Frame ν)}

theorem Balanced.color_eq (h : Balanced t c n) : t.color = c := by
  cases h <;> rfl

theorem balanced_join_red :
    Balanced (join d .red near x far) c n ↔
      c = .red ∧ Balanced near .black n ∧ Balanced far .black n := by
  constructor
  · intro h
    cases d with
    | left => cases h with | red hl hr => exact ⟨rfl, hl, hr⟩
    | right => cases h with | red hl hr => exact ⟨rfl, hr, hl⟩
  · rintro ⟨rfl, hn, hf⟩
    cases d with
    | left => exact .red hn hf
    | right => exact .red hf hn

theorem balanced_join_black :
    Balanced (join d .black near x far) c n ↔
      c = .black ∧ ∃ m c₁ c₂, n = m + 1 ∧ Balanced near c₁ m ∧ Balanced far c₂ m := by
  constructor
  · intro h
    cases d with
    | left => cases h with | black hl hr => exact ⟨rfl, _, _, _, rfl, hl, hr⟩
    | right => cases h with | black hl hr => exact ⟨rfl, _, _, _, rfl, hr, hl⟩
  · rintro ⟨rfl, m, c₁, c₂, rfl, hn, hf⟩
    cases d with
    | left => exact .black hn hf
    | right => exact .black hf hn

theorem Balanced.exists_top (h : Balanced t c (n + 1)) : ∃ x, t.top = some x := by
  cases h with
  | red _ _ => exact ⟨_, rfl⟩
  | black _ _ => exact ⟨_, rfl⟩

theorem Balanced.blacken_red (h : Balanced t .red n) : Balanced t.blacken .black (n + 1) := by
  cases h with
  | red hl hr => exact .black hl hr

theorem Balanced.blacken (h : Balanced t c n) : ∃ m, Balanced t.blacken .black m := by
  cases h with
  | nil => exact ⟨0, .nil⟩
  | red hl hr => exact ⟨n + 1, .black hl hr⟩
  | black hl hr => exact ⟨_, .black hl hr⟩

theorem Hole.black (h : Hole path .red n) : Hole path .black n := by
  cases h with
  | underBlack hs hup => exact .underBlack hs hup

/-- **Filling a hole** with what may be put into it. -/
theorem Hole.balanced (h : Hole path c n) (ht : Balanced t c n) :
    ∃ m, Balanced (plug path t) .black m := by
  induction h generalizing t with
  | root => exact ⟨_, ht⟩
  | underRed hs _ ih => exact ih (balanced_join_red.2 ⟨rfl, ht, hs⟩)
  | underBlack hs _ ih => exact ih (balanced_join_black.2 ⟨rfl, _, _, _, rfl, ht, hs⟩)

/-- Conversely, a subtree of a balanced tree may be put into the hole it leaves. -/
theorem Balanced.hole {m : ℕ} (h : Balanced (plug path t) .black m) :
    ∃ c n, Balanced t c n ∧ Hole path c n := by
  induction path generalizing t with
  | nil => exact ⟨_, _, h, .root⟩
  | cons f up ih =>
      obtain ⟨d, c, x, s⟩ := f
      obtain ⟨c', n, hbal, hhole⟩ := ih h
      cases c with
      | red =>
          obtain ⟨rfl, ht, hs⟩ := balanced_join_red.1 hbal
          exact ⟨_, _, ht, .underRed hs hhole⟩
      | black =>
          obtain ⟨rfl, m, c₁, c₂, rfl, ht, hs⟩ := balanced_join_black.1 hbal
          exact ⟨_, _, ht, .underBlack hs hhole⟩

theorem Hole.rename {down up : List (Frame ν)} {k : Color} {y : ν}
    (h : Hole (down ++ ⟨d, k, x, t⟩ :: up) c n) : Hole (down ++ ⟨d, k, y, t⟩ :: up) c n := by
  induction down generalizing c n with
  | nil =>
      cases h with
      | underRed hs hup => exact .underRed hs hup
      | underBlack hs hup => exact .underBlack hs hup
  | cons f down ih =>
      cases h with
      | underRed hs hup => exact .underRed hs (ih hup)
      | underBlack hs hup => exact .underBlack hs (ih hup)

/-! ## What it is good for -/

theorem Balanced.noRedRed (h : Balanced t c n) : t.NoRedRed := by
  induction h with
  | nil => trivial
  | red hl hr ihl ihr => exact ⟨fun _ => ⟨hl.color_eq, hr.color_eq⟩, ihl, ihr⟩
  | black _ _ ihl ihr => exact ⟨fun h => (by cases h), ihl, ihr⟩

theorem Balanced.blackCounts (h : Balanced t c n) : ∀ k ∈ t.blackCounts, k = n := by
  induction h with
  | nil => simp [RBTree.blackCounts]
  | red _ _ ihl ihr =>
      intro k hk
      obtain ⟨j, hj, rfl⟩ := List.mem_map.1 hk
      rcases List.mem_append.1 hj with hj | hj
      · exact ihl j hj
      · exact ihr j hj
  | black _ _ ihl ihr =>
      intro k hk
      obtain ⟨j, hj, rfl⟩ := List.mem_map.1 hk
      rcases List.mem_append.1 hj with hj | hj
      · rw [if_pos rfl, ihl j hj]
      · rw [if_pos rfl, ihr j hj]

/-- At most every other node on a way down is red. -/
theorem Balanced.height_le (h : Balanced t c n) :
    t.height ≤ 2 * n + if c = .red then 1 else 0 := by
  induction h with
  | nil => simp [height]
  | red _ _ ihl ihr =>
      simp only [height, reduceCtorEq, if_false, if_true] at *
      omega
  | @black _ _ _ c₁ c₂ _ _ _ ihl ihr =>
      have h₁ : (if c₁ = .red then 1 else 0) ≤ 1 := by split <;> omega
      have h₂ : (if c₂ = .red then 1 else 0) ≤ 1 := by split <;> omega
      simp only [height, reduceCtorEq, if_false] at *
      omega

theorem Balanced.pow_le (h : Balanced t c n) : 2 ^ n ≤ t.items.length + 1 := by
  induction h with
  | nil => simp [items]
  | red _ _ ihl ihr =>
      simp only [items, List.length_append, List.length_cons]
      omega
  | black _ _ ihl ihr =>
      rw [Nat.pow_succ]
      simp only [items, List.length_append, List.length_cons]
      omega

/-- **A red-black tree of `n` items is at most `2 log₂ (n + 1)` high.** -/
theorem Balanced.height_le_log (h : Balanced t .black n) :
    t.height ≤ 2 * Nat.log 2 (t.items.length + 1) := by
  have hheight := h.height_le
  have hlog := Nat.le_log_of_pow_le (by decide) h.pow_le
  simp only [reduceCtorEq, if_false] at hheight
  omega

end Balance

end Tsl.Lib
