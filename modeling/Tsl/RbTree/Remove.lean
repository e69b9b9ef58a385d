import Tsl.RbTree.Search

set_option autoImplicit false

/-! # Removal from a red-black tree

`rb_tree_remove` takes a node with at most one child out of its place: the node itself, or its
successor, which then takes the place of the node. If that node was black, the ways through its place
have a black node too few, and the loop moves this place up until it can be made up for. -/

namespace Tsl

open Lib RBTree RbTree

universe u

variable {ν κ : Type u} [DecidableEq ν]

/-! ## Taking a node out of its place -/

section Places

variable {t t' : RbTree ν κ} {path up : List (Frame ν)} {s l r : RBTree ν} {f : Frame ν} {c : Color}
  {x y z : ν}

/-- What is left in the place of a node with at most one child. -/
def onlyChild (l r : RBTree ν) : RBTree ν :=
  match l with
  | .nil => r
  | .node c l x r => .node c l x r

omit [DecidableEq ν] in
theorem items_onlyChild (hone : l = .nil ∨ r = .nil) :
    (onlyChild l r).items = l.items ++ r.items := by
  rcases hone with rfl | rfl
  · rfl
  · cases l <;> simp [onlyChild, items]

omit [DecidableEq ν] in
theorem Apart.onlyChild (hA : Apart l r y path) (hone : l = .nil ∨ r = .nil) :
    ∀ z ∈ (onlyChild l r).items, z ≠ y ∧ z ∉ pathItems path := by
  intro z hz
  rw [items_onlyChild hone, List.mem_append] at hz
  refine ⟨?_, hz.elim (hA.near_path z) (hA.far_path z)⟩
  rintro rfl
  exact hz.elim hA.not_near hA.not_far

omit [DecidableEq ν] in
theorem nodup_onlyChild (h : ((RBTree.node c l y r).items ++ pathItems path).Nodup)
    (hone : l = .nil ∨ r = .nil) : ((onlyChild l r).items ++ pathItems path).Nodup := by
  have hperm := (items_join_perm .left c l r y).append_right (pathItems path)
  rw [items_onlyChild hone]
  exact (List.nodup_cons.1 (hperm.nodup_iff.1 h)).2

/-- **The unlinked node** leaves its only child in its place. -/
theorem removeUnlink_spec (h : Focused t path (.node c l y r)) (hone : l = .nil ∨ r = .nil) :
    ∃ side t', removeUnlink t y = ((onlyChild l r).top, parentOf path, side, t') ∧
      (path ≠ [] → side = dirOf path) ∧ Focused t' path (onlyChild l r) ∧
      t'.node y = t.node y ∧ Kept t t' (plug path (.node c l y r)).items := by
  set ch := onlyChild l r with hch
  have hA : Apart l r y path := (apart_iff (d := .left) (c := c)).1 h.nodup
  obtain ⟨hparent, -, hleft, hright, hl, hr⟩ := h.below
  have hreads : Reads t.node ch (some y) := by
    rw [hch]
    cases l with
    | nil => exact hr
    | node => exact hl
  have hchItems : ch.items = l.items ++ r.items := items_onlyChild hone
  have hmem : ∀ z ∈ ch.items, z ≠ y ∧ z ∉ pathItems path := hA.onlyChild hone
  have hnd : (ch.items ++ pathItems path).Nodup := nodup_onlyChild h.nodup hone
  set t₁ := t.setParentIf ch.top (parentOf path) with ht₁
  have hnode₁ : ∀ z, z ∉ ch.items → t₁.node z = t.node z := by
    intro z hz
    rw [ht₁, setParentIf_node, if_neg fun htop => hz (top_mem_items htop)]
  have hy₁ : t₁.node y = t.node y := hnode₁ y fun hy => (hmem y hy).1 rfl
  have habove₁ : ReadsPath t₁.node t₁.root path (some y) :=
    h.above.setParentIf (fun z htop => (hmem z (top_mem_items htop)).2) (parentOf path)
  have hunlink : removeUnlink t y = (ch.top, parentOf path,
      if (parentOf path).any fun yp => (t₁.node yp).left = some y then .left else .right,
      setHole t₁ ch.top path) := by
    unfold removeUnlink
    cases hc : l with
    | nil =>
        have htop : r.top = ch.top := by rw [hch, hc, onlyChild]
        rw [hc] at hleft
        simp only [hleft, top_nil, hright, htop, hparent, ← ht₁, hy₁,
          replaceChild_eq habove₁ hA.not_path]
    | node c' l' z r' =>
        have htop : some z = ch.top := by rw [hch, hc, onlyChild, top_node]
        rw [hc] at hleft
        simp only [hleft, top_node]
        simp only [htop, hparent, ← ht₁, hy₁, replaceChild_eq habove₁ hA.not_path]
  refine ⟨_, _, hunlink, fun hpath => ?_, ⟨?_, ?_, hnd⟩, ?_, ?_⟩
  · cases path with
    | nil => exact absurd rfl hpath
    | cons f up =>
        have hf : t₁.node f.item = t.node f.item :=
          hnode₁ _ fun hz => (hmem _ hz).2 List.mem_cons_self
        have hleft := h.left_eq_iff (x := y) rfl
        simp only [parentOf, Option.any_some, hf, decide_eq_true_eq, dirOf]
        cases hd : f.dir with
        | left => exact if_pos (hleft.2 hd)
        | right => exact if_neg fun heq => by cases hd.symm.trans (hleft.1 heq)
  · exact habove₁.setHole hA.path_nodup ch.top
  · refine hreads.reparent (List.nodup_append.1 hnd).1 (fun z hz htop => ?_) fun z htop => ?_
    · rw [setHole_node_of_ne fun heq => (hmem z hz).2 (parentOf_mem heq), ht₁, setParentIf_node,
        if_neg htop]
    · rw [setHole_node_of_ne fun heq => (hmem z (top_mem_items htop)).2 (parentOf_mem heq), ht₁,
        setParentIf_node, if_pos htop]
  · exact (setHole_node_of_ne fun heq => hA.not_path (parentOf_mem heq)).trans hy₁
  · have hin : ∀ z, z ∈ ch.items ∨ z ∈ pathItems path →
        z ∈ (plug path (.node c l y r)).items := by
      intro z hz
      rw [mem_pathItems_iff]
      refine hz.imp_left fun hz => ?_
      rw [hchItems, List.mem_append] at hz
      simp only [items, List.mem_append, List.mem_cons]
      tauto
    exact (kept_setParentIf fun z hz => hin z (.inl (top_mem_items hz))).trans
      (kept_setHole fun z hz => hin z (.inr (parentOf_mem hz)))

/-- What `__helper_rb_tree_swap_node` does with `y` in the hole: `y` takes over the children `p` and `q`
    and the colour of `x`, which is left without links. -/
def takeOver (t : RbTree ν κ) (x y : ν) (p q : Option ν) : RbTree ν κ :=
  let t := ((t.setChild .right y q).setParentIf q (some y)).setChild .right x none
  let t := ((t.setChild .left y p).setParentIf p (some y)).setChild .left x none
  (t.setColor y (t.node x).color).setParent x none

theorem takeOver_root (p q : Option ν) : (takeOver t x y p q).root = t.root := by simp [takeOver]

theorem takeOver_node_self {p q : Option ν} (hyx : y ≠ x) (hpx : p ≠ some x) (hqx : q ≠ some x)
    (hpy : p ≠ some y) (hqy : q ≠ some y) :
    (takeOver t x y p q).node y =
      (((t.node y).setChild q .right).setChild p .left).setColor (t.node x).color := by
  simp only [takeOver, setParent_node, setColor_node, setChild_node, setParentIf_node, if_neg hyx,
    if_neg hyx.symm, if_true, if_neg hpx, if_neg hqx, if_neg hpy, if_neg hqy,
    RbTreeNode.color_setChild]

/-- Besides the two nodes their children are written. -/
theorem takeOver_node_of_ne {p q : Option ν} (hzx : z ≠ x) (hzy : z ≠ y) :
    (takeOver t x y p q).node z =
      if p = some z ∨ q = some z then (t.node z).setParent (some y) else t.node z := by
  simp only [takeOver, setParent_node, setColor_node, setChild_node, setParentIf_node, if_neg hzx,
    if_neg hzy]
  by_cases hp : p = some z
  · simp only [hp, if_true, true_or]
    split <;> rfl
  · simp only [hp, if_false, false_or]

theorem kept_takeOver {p q : Option ν} {xs : List ν} (hx : x ∈ xs) (hy : y ∈ xs)
    (hp : ∀ a, p = some a → a ∈ xs) (hq : ∀ a, q = some a → a ∈ xs) :
    Kept t (takeOver t x y p q) xs :=
  (((kept_setChild hy).trans ((kept_setParentIf hq).trans (kept_setChild hx))).trans
    ((kept_setChild hy).trans ((kept_setParentIf hp).trans (kept_setChild hx)))).trans
      ((kept_setColor hy).trans (kept_setParent hx))

theorem helperRbTreeSwapNode_eq (h : Focused t path (.node c l x r)) (hypath : y ∉ pathItems path) :
    helperRbTreeSwapNode t x y =
      takeOver (setHole (t.setParent y (parentOf path)) (some y) path) x y l.top r.top := by
  have hA : Apart l r x path := (apart_iff (d := .left) (c := c)).1 h.nodup
  obtain ⟨hparent, -, hleft, hright, -, -⟩ := h.below
  set t₁ := t.setParent y (parentOf path) with ht₁
  have habove : ReadsPath t₁.node t₁.root path (some x) := h.above.setParent hypath (parentOf path)
  have hhole := replaceChild_eq (v := some y) habove hA.not_path
  unfold RbTree.replaceChild at hhole
  unfold helperRbTreeSwapNode
  simp only [hleft, hright, hparent, ← ht₁]
  cases hp : path with
  | nil =>
      rw [hp] at habove hhole
      have hroot : t₁.root = some x := habove
      simp only [parentOf] at hhole ⊢
      simp only [if_pos hroot, hhole]
      rfl
  | cons f up =>
      rw [hp] at hhole
      simp only [parentOf] at hhole ⊢
      simp only [hhole]
      rfl

theorem helperRbTreeSwapNode_node (h : Focused t path (.node c l x r)) (hypath : y ∉ pathItems path)
    (hzx : z ≠ x) (hzy : z ≠ y) (hz : z ∉ pathItems path) :
    (helperRbTreeSwapNode t x y).node z =
      if l.top = some z ∨ r.top = some z then (t.node z).setParent (some y) else t.node z := by
  rw [helperRbTreeSwapNode_eq h hypath, takeOver_node_of_ne hzx hzy,
    setHole_node_of_ne fun heq => hz (parentOf_mem heq), setParent_node, if_neg hzy]

/-- **The successor takes the place** of the node, whatever was in its links. -/
theorem helperRbTreeSwapNode_spec (h : Focused t path (.node c l x r))
    (hy : y ∉ (plug path (.node c l x r)).items) :
    Focused (helperRbTreeSwapNode t x y) path (.node c l y r) ∧
      Kept t (helperRbTreeSwapNode t x y) (y :: (plug path (.node c l x r)).items) := by
  have hA : Apart l r x path := (apart_iff (d := .left) (c := c)).1 h.nodup
  obtain ⟨hparent, hcolor, hleft, hright, hl, hr⟩ := h.below
  have hyApart : y ≠ x ∧ y ∉ l.items ∧ y ∉ r.items ∧ y ∉ pathItems path := by
    rw [mem_pathItems_iff, items, List.mem_append, List.mem_cons] at hy
    tauto
  obtain ⟨hyx, hyl, hyr, hypath⟩ := hyApart
  have hother := fun z => helperRbTreeSwapNode_node (z := z) h hypath
  rw [helperRbTreeSwapNode_eq h hypath] at hother ⊢
  set t₁ := t.setParent y (parentOf path) with ht₁
  have habove₁ : ReadsPath t₁.node t₁.root path (some x) := h.above.setParent hypath (parentOf path)
  have hx₁ : t₁.node x = t.node x := by rw [ht₁, setParent_node, if_neg hyx.symm]
  set t₂ := setHole t₁ (some y) path with ht₂
  have hnode₂ : ∀ z, z ∉ pathItems path → t₂.node z = t₁.node z :=
    fun z hz => setHole_node_of_ne fun heq => hz (parentOf_mem heq)
  set t' := takeOver t₂ x y l.top r.top with ht'
  have hself : t'.node y = ((((t.node y).setParent (parentOf path)).setChild r.top .right).setChild
      l.top .left).setColor (colorOf c) := by
    rw [ht', takeOver_node_self hyx (fun htop => hA.not_near (top_mem_items htop))
      (fun htop => hA.not_far (top_mem_items htop)) (fun htop => hyl (top_mem_items htop))
      (fun htop => hyr (top_mem_items htop)), hnode₂ x hA.not_path, hx₁, hcolor, hnode₂ y hypath, ht₁,
      setParent_node, if_pos rfl]
  -- of the nodes below, the two children are written
  have hnear : ∀ z ∈ l.items,
      t'.node z = if l.top = some z then (t.node z).setParent (some y) else t.node z := by
    intro z hz
    have hzx : z ≠ x := fun heq => hA.not_near (heq ▸ hz)
    have hzy : z ≠ y := fun heq => hyl (heq ▸ hz)
    have hr : r.top ≠ some z := fun htop => hA.near_far z hz (top_mem_items htop)
    rw [hother z hzx hzy (hA.near_path z hz)]
    simp only [hr, or_false]
  have hfar : ∀ z ∈ r.items,
      t'.node z = if r.top = some z then (t.node z).setParent (some y) else t.node z := by
    intro z hz
    have hzx : z ≠ x := fun heq => hA.not_far (heq ▸ hz)
    have hzy : z ≠ y := fun heq => hyr (heq ▸ hz)
    have hl : l.top ≠ some z := fun htop => hA.near_far z (top_mem_items htop) hz
    rw [hother z hzx hzy (hA.far_path z hz)]
    simp only [hl, false_or]
  refine ⟨⟨?_, ⟨?_, ?_, ?_, ?_, hl.reparent hA.near_nodup (fun z hz htop => ?_) fun z htop => ?_,
    hr.reparent hA.far_nodup (fun z hz htop => ?_) fun z htop => ?_⟩, ?_⟩, ?_⟩
  · rw [ht', takeOver_root]
    refine (habove₁.setHole hA.path_nodup (some y)).congr fun z hz => ?_
    have hzx : z ≠ x := fun heq => hA.not_path (heq ▸ hz)
    have hzy : z ≠ y := fun heq => hypath (heq ▸ hz)
    rw [takeOver_node_of_ne hzx hzy, if_neg]
    rintro (htop | htop)
    · exact hA.near_path z (top_mem_items htop) hz
    · exact hA.far_path z (top_mem_items htop) hz
  · rw [hself, RbTreeNode.parent_setColor, RbTreeNode.parent_setChild, RbTreeNode.parent_setChild,
      RbTreeNode.parent_setParent]
  · rw [hself, RbTreeNode.color_setColor]
  · rw [hself]
    rfl
  · rw [hself]
    rfl
  · rw [hnear z hz, if_neg htop]
  · rw [hnear z (top_mem_items htop), if_pos htop]
  · rw [hfar z hz, if_neg htop]
  · rw [hfar z (top_mem_items htop), if_pos htop]
  · exact (apart_iff (d := .left) (c := c)).2
      { hA with not_near := hyl, not_far := hyr, not_path := hypath }
  · have hyin : y ∈ y :: (plug path (.node c l x r)).items := List.mem_cons_self
    have hin : ∀ z, z ∈ (RBTree.node c l x r).items ∨ z ∈ pathItems path →
        z ∈ y :: (plug path (.node c l x r)).items :=
      fun z hz => List.mem_cons_of_mem _ (mem_pathItems_iff.2 hz)
    have hbelow : ∀ z, z ∈ l.items ∨ z = x ∨ z ∈ r.items →
        z ∈ y :: (plug path (.node c l x r)).items :=
      fun z hz => hin z (.inl ((mem_items_join (d := .left)).2 hz))
    exact ((kept_setParent hyin).trans (kept_setHole fun z hz => hin z (.inr (parentOf_mem hz)))).trans
      (kept_takeOver (hbelow x (.inr (.inl rfl))) hyin
        (fun z htop => hbelow z (.inl (top_mem_items htop)))
        (fun z htop => hbelow z (.inr (.inr (top_mem_items htop)))))

end Places

/-! ## The cases of the rebalancing -/

section Cases

variable {t t' : RbTree ν κ} {up : List (Frame ν)} {s a b : RBTree ν} {f : Frame ν} {d : Dir}
  {c ca cb : Color} {p w : ν} {n : ℕ}

omit [DecidableEq ν] in
theorem mem_plug_sibling {e : Dir} {z : ν} :
    z ∈ (plug (⟨d, c, p, join e ca a w b⟩ :: up) s).items ↔
      z ∈ s.items ∨ z = p ∨ z ∈ a.items ∨ z = w ∨ z ∈ b.items ∨ z ∈ pathItems up := by
  rw [mem_pathItems_iff]
  simp only [pathItems, mem_items_join, List.mem_cons, List.mem_append]
  tauto

omit [DecidableEq ν] in
theorem items_plug_sibling {a' b' : RBTree ν} (ha : a'.items = a.items) (hb : b'.items = b.items)
    (c c' k k' : Color) :
    (plug up (join d c' s p (join d k' a' w b'))).items =
      (plug (⟨d, c, p, join d k a w b⟩ :: up) s).items := by
  refine items_plug_congr ?_ up
  cases d <;> simp [Frame.fill, join, items, ha, hb]

/-- **Case 1**: from now on the sibling is black. -/
theorem deleteCase1_spec (h : Focused t (f :: up) s) (hhole : Hole (f :: up) .black (n + 1)) :
    ∃ t' f' up', deleteCase1 f.dir t f.item = some (f'.sibling.top, t') ∧
      Focused t' (f' :: up') s ∧ f'.dir = f.dir ∧ f'.item = f.item ∧
      Balanced f'.sibling .black (n + 1) ∧ Hole (f' :: up') .black (n + 1) ∧
      (f'.color = .red ∨ up' = up) ∧ (plug (f' :: up') s).items = (plug (f :: up) s).items ∧
      Kept t t' (plug (f :: up) s).items := by
  have hsib : (t.node f.item).child f.dir.flip = f.sibling.top := h.frame.2.2.2
  have hisRed : t.isRed f.sibling.top = true ↔ f.sibling.color = .red :=
    (Focused.sideways (x := f.item) h).below.isRed_iff
  by_cases hred : f.sibling.color = .red
  · -- the sibling goes up, and its inner child, which is black, is the sibling now
    obtain ⟨d, cf, p, sib⟩ := f
    simp only at hsib hisRed hred
    have hbal : Balanced sib .red (n + 1) ∧ cf = .black ∧ Hole up .black (n + 2) := by
      cases hhole with
      | underRed hs _ => exact absurd (hs.color_eq.symm.trans hred) (by decide)
      | underBlack hs hup => exact ⟨hred ▸ hs.color_eq ▸ hs, rfl, hup⟩
    obtain ⟨hbal, rfl, hup⟩ := hbal
    obtain ⟨w, hw⟩ := hbal.exists_top
    obtain ⟨cw, a, b, rfl⟩ := exists_join d hw
    obtain rfl : cw = .red := by rwa [color_join] at hred
    obtain ⟨-, ha, hb⟩ := balanced_join_red.1 hbal
    have h₁ := focused_fill.1 ((h.setColor_sibling .black).setColor_frame .red)
    obtain ⟨t', hrot, hfocus, hkept⟩ := helperRotate_spec h₁
    have hfocus' : Focused t' (⟨d, .red, p, a⟩ :: ⟨d, .black, w, b⟩ :: up) s :=
      focused_join.1 (focused_join.1 hfocus)
    refine ⟨t', _, _, ?_, hfocus', rfl, rfl, ha, .underRed ha (.underBlack hb hup), .inl rfl, ?_, ?_⟩
    · have hchild : (t'.node p).child d.flip = a.top := hfocus'.frame.2.2.2
      have hcond : t.isRed (some w) = true := hw ▸ hisRed.2 (color_join _ _ _ _ _)
      simp only [deleteCase1, hsib, top_join, hcond, if_true, RbTree.setColorIf, Option.bind_eq_bind]
      change ((helperRotate d ((t.setColor w (colorOf .black)).setColor p (colorOf .red)) p).bind _) = _
      rw [hrot, Option.bind_some, hchild]
    · change (plug up (join d .black (join d .red s p a) w b)).items = (plug up (join d _ s p _)).items
      exact items_plug_congr (items_rotate d .red .black .black .red s a b p w) up
    · rw [items_plug_sibling rfl rfl .black _ .red] at hkept
      exact (hkept.of_setColor (mem_plug_sibling.2 (.inr (.inl rfl)))).of_setColor
        (mem_plug_sibling.2 (.inr (.inr (.inr (.inl rfl)))))
  · have hbal : Balanced f.sibling .black (n + 1) := by
      cases hhole with
      | underRed hs _ => exact hs
      | @underBlack _ _ sib _ _ c' _ hs _ =>
          cases c' with
          | red => exact absurd hs.color_eq hred
          | black => exact hs
    refine ⟨t, f, up, ?_, h, rfl, rfl, hbal, hhole, .inr rfl, rfl, Kept.refl _ _⟩
    simp only [deleteCase1, hsib, hisRed, if_neg hred]

/-- **Case 2**: the sibling is made red, which makes up for the black node on its side, and the place
moves up. -/
theorem deleteCase2_spec (h : Focused t (⟨d, c, p, join d .black a w b⟩ :: up) s)
    (hs : Balanced s .black n) (ha : Balanced a .black n) (hb : Balanced b .black n) :
    Focused (t.setColor w colorRed) up (Frame.fill ⟨d, c, p, join d .red a w b⟩ s) ∧
      Balanced (join d .black s p (join d .red a w b)) .black (n + 1) ∧
      (plug up (Frame.fill ⟨d, c, p, join d .red a w b⟩ s)).items =
        (plug (⟨d, c, p, join d .black a w b⟩ :: up) s).items ∧
      Kept t (t.setColor w colorRed) (plug (⟨d, c, p, join d .black a w b⟩ :: up) s).items := by
  have hred : Balanced (join d .red a w b) .red n := balanced_join_red.2 ⟨rfl, ha, hb⟩
  have hw : w ∈ (plug (⟨d, c, p, join d .black a w b⟩ :: up) s).items :=
    mem_plug_sibling.2 (.inr (.inr (.inr (.inl rfl))))
  refine ⟨focused_fill.1 (h.setColor_sibling .red),
    balanced_join_black.2 ⟨rfl, n, _, _, rfl, hs, hred⟩, ?_, kept_setColor hw⟩
  exact items_plug_sibling rfl rfl c c .black .red

/-- **Case 3**: from now on the outer child of the sibling is red. -/
theorem deleteCase3_spec
    (h : Focused t (⟨d, c, p, join d .black a w b⟩ :: up) s) (ha : Balanced a ca n)
    (hb : Balanced b cb n) (hnot : ¬ (a.color = .black ∧ b.color = .black)) :
    ∃ t' a' w' b' c', deleteCase3 d t p w = some (w', t') ∧
      Focused t' (⟨d, c, p, join d .black a' w' b'⟩ :: up) s ∧ Balanced a' c' n ∧
      Balanced b' .red n ∧ (join d .black a' w' b').items = (join d .black a w b).items ∧
      Kept t t' (plug (⟨d, c, p, join d .black a w b⟩ :: up) s).items := by
  obtain ⟨-, -, hinner, houter, -, hreads⟩ := reads_join.1 h.sideways.below
  by_cases hblack : b.color = .black
  · -- the red one is the inner child, which a rotation brings up
    have hred : a.color = .red := by
      cases hc : a.color with
      | red => rfl
      | black => exact absurd ⟨hc, hblack⟩ hnot
    obtain ⟨i, hi⟩ : ∃ i, a.top = some i := by
      cases a with
      | nil => cases hred
      | node _ _ i _ => exact ⟨i, rfl⟩
    obtain ⟨c', a₁, a₂, rfl⟩ := exists_join d.flip hi
    obtain rfl : c' = .red := by rwa [color_join] at hred
    obtain ⟨-, ha₁, ha₂⟩ := balanced_join_red.1 ha
    obtain rfl : Color.black = cb := hblack.symm.trans hb.color_eq
    have hcond : t.isBlack b.top = true := hreads.isBlack_iff.2 hblack
    have h₁ := (focused_join.1 (h.setColor_sibling .red).sideways).setColor .black
    have h₂ : Focused ((t.setColor w (colorOf .red)).setColor i (colorOf .black))
        (⟨d.flip, c, p, s⟩ :: up) (join d.flip .red b w (join d.flip .black a₁ i a₂)) := by
      rw [join_flip]
      exact focused_fill.1 h₁
    obtain ⟨t', hrot, hfocus, hkept⟩ := helperRotate_spec h₂
    have hfocus' : Focused t' (⟨d, c, p, join d .black a₂ i (join d.flip .red b w a₁)⟩ :: up) s := by
      rw [← join_flip d]
      have := hfocus.sideways
      rwa [Dir.flip_flip] at this
    refine ⟨t', a₂, i, _, _, ?_, hfocus', ha₂, balanced_join_red.2 ⟨rfl, hb, ha₁⟩, ?_, ?_⟩
    · have hchild : (t'.node p).child d.flip = some i :=
        hfocus'.frame.2.2.2.trans (top_join _ _ _ _ _)
      simp only [deleteCase3, houter, hcond, if_true, hinner, top_join, RbTree.setColorIf,
        Option.bind_eq_bind]
      change ((helperRotate d.flip ((t.setColor w (colorOf .red)).setColor i (colorOf .black)) w).bind
        _) = _
      rw [hrot, Option.bind_some, hchild, Option.bind_some]
    · cases d <;> simp [join, Dir.flip, items]
    · have hinnerItems : (join d.flip .black a₁ i a₂).items = (join d.flip .red a₁ i a₂).items :=
        items_join_color _ _ _ _ _ _
      rw [plug, Frame.fill, join_flip, join_flip,
        items_plug_sibling hinnerItems rfl c _ .black] at hkept
      exact (hkept.of_setColor (mem_plug_sibling.2 (.inr (.inr (.inl (top_mem_items hi)))))).of_setColor
        (mem_plug_sibling.2 (.inr (.inr (.inr (.inl rfl)))))
  · obtain rfl : Color.red = cb := by
      rw [← hb.color_eq]
      cases hc : b.color with
      | red => rfl
      | black => exact absurd hc hblack
    refine ⟨t, a, w, b, _, ?_, h, ha, hb, rfl, Kept.refl _ _⟩
    have hcond : ¬ t.isBlack b.top = true := fun hc => hblack (hreads.isBlack_iff.1 hc)
    simp only [deleteCase3, houter, if_neg hcond]

/-- **Case 4**: the sibling goes up and makes up for the missing black node. -/
theorem deleteCase4_spec (h : Focused t (⟨d, c, p, join d .black a w b⟩ :: up) s)
    (hb : Balanced b .red n) :
    ∃ t', deleteCase4 d t p w = some t' ∧
      Focused t' up (join d c (join d .black s p a) w b.blacken) ∧
      Kept t t' (plug (⟨d, c, p, join d .black a w b⟩ :: up) s).items := by
  obtain ⟨o, ho⟩ : ∃ o, b.top = some o := by
    cases hb with
    | red _ _ => exact ⟨_, rfl⟩
  obtain ⟨-, -, -, houter, -, -⟩ := reads_join.1 h.sideways.below
  have hcolor : (t.node p).color = colorOf c := h.frame.2.1
  have h₁ := ((h.setColor_sibling c).setColor_frame .black).sideways
  have h₂ : Focused _ (⟨d.flip, c, w, a⟩ :: ⟨d.flip, .black, p, s⟩ :: up) b :=
    (focused_join.1 h₁).sideways
  have h₃ := (focused_fill.1 h₂.blacken).sideways
  rw [Dir.flip_flip, ho] at h₃
  have h₄ : Focused (((t.setColor w (colorOf c)).setColor p colorBlack).setColor o colorBlack) up
      (join d .black s p (join d c a w b.blacken)) := by
    have := focused_fill.1 h₃
    rw [Frame.fill, Frame.fill, join_flip] at this
    exact this
  obtain ⟨t', hrot, hfocus, hkept⟩ := helperRotate_spec h₄
  refine ⟨t', ?_, hfocus, ?_⟩
  · simp only [deleteCase4, houter, ho, hcolor]
    exact hrot
  · rw [items_plug_sibling rfl (items_blacken b) c _ .black] at hkept
    exact ((hkept.of_setColor
      (mem_plug_sibling.2 (.inr (.inr (.inr (.inr (.inl (top_mem_items ho)))))))).of_setColor
      (mem_plug_sibling.2 (.inr (.inl rfl)))).of_setColor (mem_plug_sibling.2 (.inr (.inr (.inr (.inl rfl)))))

/-- **Cases 3 and 4**: the sibling makes up for the missing black node, and the tree is balanced. -/
theorem deleteCase34_spec (h : Focused t (⟨d, c, p, join d .black a w b⟩ :: up) s)
    (hhole : Hole (⟨d, c, p, join d .black a w b⟩ :: up) .black (n + 1)) (hs : Balanced s .black n)
    (ha : Balanced a ca n) (hb : Balanced b cb n) (hnot : ¬ (a.color = .black ∧ b.color = .black)) :
    ∃ t₂ w' t₃ T, deleteCase3 d t p w = some (w', t₂) ∧ deleteCase4 d t₂ p w' = some t₃ ∧
      Focused t₃ [] T ∧ (∃ m, Balanced T .black m) ∧
      T.items = (plug (⟨d, c, p, join d .black a w b⟩ :: up) s).items ∧
      Kept t t₃ (plug (⟨d, c, p, join d .black a w b⟩ :: up) s).items := by
  obtain ⟨t₂, a', w', b', c', hcase3, h₂, ha', hb', hitems₂, hkept₂⟩ :=
    deleteCase3_spec h ha hb hnot
  obtain ⟨t₃, hcase4, h₃, hkept₃⟩ := deleteCase4_spec h₂ hb'
  have hupper : Balanced (join d .black s p a') .black (n + 1) :=
    balanced_join_black.2 ⟨rfl, n, _, _, rfl, hs, ha'⟩
  have hbal : ∃ m, Balanced (plug up (join d c (join d .black s p a') w' b'.blacken)) .black m := by
    cases hhole with
    | underRed _ hup =>
        exact hup.balanced (balanced_join_red.2 ⟨rfl, hupper, hb'.blacken_red⟩)
    | underBlack _ hup =>
        exact hup.balanced (balanced_join_black.2 ⟨rfl, _, _, _, rfl, hupper, hb'.blacken_red⟩)
  have hfocus : Focused t₃ [] (plug up (join d c (join d .black s p a') w' b'.blacken)) :=
    focused_plug.1 (by rwa [List.append_nil])
  have hitems₃ : (plug (⟨d, c, p, join d .black a' w' b'⟩ :: up) s).items =
      (plug (⟨d, c, p, join d .black a w b⟩ :: up) s).items :=
    items_plug_congr (items_join_congr hitems₂) up
  have hitems₄ : (plug up (join d c (join d .black s p a') w' b'.blacken)).items =
      (plug (⟨d, c, p, join d .black a' w' b'⟩ :: up) s).items := by
    rw [← items_plug_sibling rfl (items_blacken b') c c .black .black]
    exact items_plug_congr (items_rotate d .black c c .black s a' _ p w') up
  exact ⟨t₂, w', t₃, _, hcase3, hcase4, hfocus, hbal, hitems₄.trans hitems₃,
    hkept₂.trans (hitems₃ ▸ hkept₃)⟩

end Cases

/-! ## The loop -/

section Loop

variable {t t' : RbTree ν κ} {path up : List (Frame ν)} {s : RBTree ν} {f : Frame ν} {side : Dir}
  {c : Color} {p : ν} {xp : Option ν} {n : ℕ}

/-- Which side a node is on, as the code finds it out. -/
theorem Focused.side_eq (h : Focused t path s) (hp : s.top = some p) (hpath : path ≠ []) :
    (if (parentOf path).any fun q => (t.node q).left = some p then Dir.left else .right) =
      dirOf path := by
  cases path with
  | nil => exact absurd rfl hpath
  | cons f up =>
      have hleft := h.left_eq_iff hp
      simp only [parentOf, Option.any_some, decide_eq_true_eq, dirOf]
      cases hd : f.dir with
      | left => exact if_pos (hleft.2 hd)
      | right => exact if_neg fun heq => by cases hd.symm.trans (hleft.1 heq)

/-- What the end of the loop leaves. -/
structure Rebalanced (t t' : RbTree ν κ) (T : RBTree ν) (xs : List ν) : Prop where
  focused : Focused t' [] T
  balanced : ∃ m, Balanced T .black m
  items : T.items = xs
  kept : Kept t t' xs

theorem deleteRebalanceLoop_exit {x : Option ν} (h : Focused t path s) (hx : s.top = x)
    (hexit : path = [] ∨ s.color = .red) (hbal : ∃ m, Balanced (plug path s.blacken) .black m)
    (xp : Option ν) (side : Dir) (fuel : ℕ) :
    ∃ t' T, deleteRebalanceLoop (fuel + 1) t x xp side = some t' ∧
      Rebalanced t t' T (plug path s).items := by
  have hcond : s.top = t.root ∨ t.isBlack s.top = false := by
    rcases hexit with rfl | hred
    · exact .inl h.root_eq.symm
    · refine .inr (Bool.eq_false_iff.2 fun hblack => ?_)
      rw [h.below.isBlack_iff, hred] at hblack
      cases hblack
  subst hx
  have hfocus : Focused (t.setColorIf s.top colorBlack) [] (plug path s.blacken) :=
    focused_plug.1 (by rw [List.append_nil]; exact h.blacken)
  refine ⟨t.setColorIf s.top colorBlack, plug path s.blacken, ?_, hfocus, hbal,
    items_plug_congr (items_blacken s) path, ?_⟩
  · rw [deleteRebalanceLoop, if_pos hcond]
  · exact kept_setColorIf fun z hz => mem_pathItems_iff.2 (.inl (top_mem_items hz))

/-- A round of the loop, after case 1. -/
theorem deleteRebalanceLoop_round {t₁ : RbTree ν κ} {a b : RBTree ν} {w : ν} {q : Option ν}
    (h : Focused t (f :: up) s) (hs : s.color = .black)
    (hcase1 : deleteCase1 f.dir t f.item = some (some w, t₁))
    (hinner : (t₁.node w).child f.dir = a.top) (houter : (t₁.node w).child f.dir.flip = b.top)
    (ha : Reads t₁.node a q) (hb : Reads t₁.node b q) (fuel : ℕ) :
    deleteRebalanceLoop (fuel + 1) t s.top (some f.item) f.dir =
      if a.color = .black ∧ b.color = .black then
        deleteRebalanceLoop fuel (t₁.setColor w colorRed) (some f.item)
          ((t₁.setColor w colorRed).node f.item).parent
          (if ((t₁.setColor w colorRed).node f.item).parent.any
              fun q => ((t₁.setColor w colorRed).node q).left = some f.item then .left else .right)
      else (deleteCase3 f.dir t₁ f.item w).bind fun r =>
        (deleteCase4 f.dir r.2 f.item r.1).bind fun t =>
          deleteRebalanceLoop fuel t t.root (some f.item) f.dir := by
  have hcond : ¬ (s.top = t.root ∨ t.isBlack s.top = false) := by
    rw [h.below.isBlack_iff.2 hs]
    simpa using fun heq => h.root_ne heq.symm
  rw [deleteRebalanceLoop, if_neg hcond]
  by_cases hblack : a.color = .black ∧ b.color = .black
  · simp only [Option.bind_eq_bind, Option.bind_some, hcase1, hinner, houter, ha.isBlack_iff,
      hb.isBlack_iff, RbTree.setColorIf, if_pos hblack]
    rfl
  · simp only [Option.bind_eq_bind, Option.bind_some, hcase1, hinner, houter, ha.isBlack_iff,
      hb.isBlack_iff, if_neg hblack]

omit [DecidableEq ν] in
theorem Rebalanced.trans {t₁ : RbTree ν κ} {T : RBTree ν} {xs ys : List ν}
    (h : Rebalanced t₁ t' T ys) (hkept : Kept t t₁ xs) (hys : ys = xs) : Rebalanced t t' T xs := by
  subst hys
  exact ⟨h.focused, h.balanced, h.items, hkept.trans h.kept⟩

/-- **The loop** ends with a balanced tree of the same items, with a black root. -/
theorem deleteRebalanceLoop_spec (fuel : ℕ) {x : Option ν} (h : Focused t path s) (hx : s.top = x)
    (hs : Balanced s c n) (hhole : Hole path .black (n + 1))
    (hside : path ≠ [] → side = dirOf path) (hfuel : path.length < fuel) :
    ∃ t' T, deleteRebalanceLoop fuel t x (parentOf path) side = some t' ∧
      Rebalanced t t' T (plug path s).items := by
  induction fuel generalizing t path s side c n x with
  | zero => cases hfuel
  | succ fuel ih =>
      cases path with
      | nil => exact deleteRebalanceLoop_exit h hx (.inl rfl) hs.blacken _ _ fuel
      | cons f up =>
          cases c with
          | red =>
              exact deleteRebalanceLoop_exit h hx (.inr hs.color_eq) (hhole.balanced hs.blacken_red)
                _ _ fuel
          | black =>
              subst hx
              obtain rfl : side = f.dir := hside (List.cons_ne_nil _ _)
              obtain ⟨t₁, f₁, up₁, hcase1, h₁, hdir, hitem, hsib, hhole₁, hlevel, hitems₁, hkept₁⟩ :=
                deleteCase1_spec h hhole
              obtain ⟨d, c₁, p, sib⟩ := f₁
              simp only at hdir hitem hsib hlevel hcase1
              subst hdir hitem
              obtain ⟨w, hw⟩ := hsib.exists_top
              obtain ⟨cw, a, b, rfl⟩ := exists_join f.dir hw
              obtain rfl : cw = .black := by
                rw [← color_join f.dir cw a b w]
                exact hsib.color_eq
              obtain ⟨-, _, ca, cb, hn, ha, hb⟩ := balanced_join_black.1 hsib
              obtain rfl := Nat.succ.inj hn
              obtain ⟨-, -, hinner, houter, hreadsA, hreadsB⟩ := reads_join.1 h₁.sideways.below
              rw [top_join] at hcase1
              rw [parentOf, deleteRebalanceLoop_round h hs.color_eq hcase1 hinner houter hreadsA hreadsB]
              split
              · next hblack =>
                  obtain rfl : Color.black = ca := hblack.1.symm.trans ha.color_eq
                  obtain rfl : Color.black = cb := hblack.2.symm.trans hb.color_eq
                  obtain ⟨h₂, hblackened, hitems₂, hcolored⟩ := deleteCase2_spec h₁ hs ha hb
                  rw [hitems₁] at hitems₂ hcolored
                  have hkept₂ := hkept₁.trans hcolored
                  have hparent : ((t₁.setColor w colorRed).node f.item).parent = parentOf up₁ :=
                    h₂.parent_eq (top_join _ _ _ _ _)
                  have hside₂ := h₂.side_eq (p := f.item) (top_join _ _ _ _ _)
                  obtain ⟨fuel, rfl⟩ : ∃ k, fuel = k + 1 :=
                    ⟨fuel - 1, by simp only [List.length_cons] at hfuel; omega⟩
                  rw [hparent]
                  cases hhole₁ with
                  | underRed _ hup =>
                      have hbal := hup.black.balanced hblackened
                      rw [← blacken_join f.dir .red] at hbal
                      obtain ⟨t', T, hrun, hT⟩ := deleteRebalanceLoop_exit h₂ (top_join _ _ _ _ _)
                        (.inr (color_join _ _ _ _ _)) hbal (parentOf up₁) _ fuel
                      exact ⟨t', T, hrun, hT.trans hkept₂ hitems₂⟩
                  | underBlack _ hup =>
                      obtain rfl : up₁ = up := hlevel.resolve_left (by simp)
                      obtain ⟨t', T, hrun, hT⟩ := ih h₂ (top_join _ _ _ _ _) hblackened hup hside₂
                        (by simp only [List.length_cons] at hfuel; omega)
                      exact ⟨t', T, hrun, hT.trans hkept₂ hitems₂⟩
              · next hnot =>
                  obtain ⟨t₂, w', t₃, T, hcase3, hcase4, hfocus, ⟨m, hbal⟩, hitemsT, hkeptT⟩ :=
                    deleteCase34_spec h₁ hhole₁ hs ha hb hnot
                  obtain ⟨fuel, rfl⟩ : ∃ k, fuel = k + 1 :=
                    ⟨fuel - 1, by simp only [List.length_cons] at hfuel; omega⟩
                  obtain ⟨t', T', hrun, hT⟩ := deleteRebalanceLoop_exit hfocus hfocus.root_eq.symm
                    (.inl rfl) hbal.blacken (some f.item) f.dir fuel
                  refine ⟨t', T', ?_, hT.trans (hkept₁.trans (hitems₁ ▸ hkeptT))
                    (hitemsT.trans hitems₁)⟩
                  simp only [hcase3, hcase4, Option.bind_some, hrun]

end Loop

/-! ## The whole removal -/

/-- `x` is no longer in the tree, and nothing else was done to the tree. -/
structure Removed (compare : κ → κ → ℤ) (t t' : RbTree ν κ) (s s' : RBTree ν) (x : ν) : Prop where
  ok : Ok compare t' s'
  items : ∃ xs ys, s.items = xs ++ x :: ys ∧ s'.items = xs ++ ys
  key : ∀ z, (t'.node z).key = (t.node z).key
  outside : ∀ z, z ∉ s.items → t'.node z = t.node z
  left : (t'.node x).left = none
  right : (t'.node x).right = none
  parent : (t'.node x).parent = none
  rightmost : t'.rightmost = s'.items.getLast?

/-- What the place of an unlinked node of colour `c` needs. -/
def Vacated (c : Color) (path : List (Frame ν)) (s : RBTree ν) : Prop :=
  match c with
  | .red => ∃ m, Balanced (plug path s) .black m
  | .black => ∃ c' n, Balanced s c' n ∧ Hole path .black (n + 1)

section Removal

variable {compare : κ → κ → ℤ} {t t₁ t₂ : RbTree ν κ} {path up : List (Frame ν)}
  {s l r : RBTree ν} {side : Dir} {c : Color} {x y : ν} {fuel n : ℕ} {xs ys : List ν}

omit [DecidableEq ν] in
theorem vacated_onlyChild (hone : l = .nil ∨ r = .nil)
    (h : Balanced (plug path (.node c l y r)) .black n) : Vacated c path (onlyChild l r) := by
  obtain ⟨c', m, hbal, hhole⟩ := h.hole
  cases hbal with
  | red hl hr =>
      refine hhole.black.balanced ?_
      cases l with
      | nil => exact hr
      | node => exact hl
  | black hl hr =>
      cases l with
      | nil => exact ⟨_, _, hr, hhole⟩
      | node => exact ⟨_, _, hl, hhole⟩

/-- Only the place of a black node has to be rebalanced. -/
theorem Vacated.rebalance (hvac : Vacated c path l) (h : Focused t path l)
    (hside : path ≠ [] → side = dirOf path) (hfuel : path.length < fuel) :
    ∃ t' T, (if colorOf c = colorBlack then
      helperRbTreeDeleteRebalance fuel t l.top (parentOf path) side else some t) = some t' ∧
      Rebalanced t t' T (plug path l).items := by
  cases c with
  | red =>
      have hwhole : Focused t [] (plug path l) := focused_plug.1 (by rwa [List.append_nil])
      exact ⟨t, _, rfl, hwhole, hvac, rfl, Kept.refl _ _⟩
  | black =>
      obtain ⟨c', m, hbal, hhole⟩ := hvac
      exact deleteRebalanceLoop_spec fuel h rfl hbal hhole hside hfuel

/-- **The end of `rb_tree_remove`**: rebalancing if a black node was unlinked, and the links of the
removed node. -/
theorem removeTail_spec (h : Ok compare t s) (hnode₁ : t₁.node = t.node)
    (hright₁ : t₁.rightmost = (xs ++ ys).getLast?) (hkept : Kept t₁ t₂ s.items)
    (hfocus : Focused t₂ path l) (hvac : Vacated c path l) (hside : path ≠ [] → side = dirOf path)
    (hitems : s.items = xs ++ x :: ys) (hitems' : (plug path l).items = xs ++ ys)
    (hfuel : path.length < fuel) :
    ∃ t' s', (if colorOf c = colorBlack then
          (helperRbTreeDeleteRebalance fuel t₂ l.top (parentOf path) side).bind fun t =>
            some (aOk, ((t.setParent x none).setChild .left x none).setChild .right x none)
        else some (aOk, ((t₂.setParent x none).setChild .left x none).setChild .right x none)) =
          some (aOk, t') ∧ Removed compare t t' s s' x := by
  obtain ⟨t₃, T, hrun, hT⟩ := hvac.rebalance hfocus hside hfuel
  have hTitems : T.items = xs ++ ys := hT.items.trans hitems'
  have hnd : s.items.Nodup := h.focused.nodup_items
  have hx : x ∉ T.items := by
    rw [hTitems]
    rw [hitems] at hnd
    exact (List.nodup_cons.1 (List.perm_middle.nodup_iff.1 hnd)).1
  have hsub : ∀ z ∈ T.items, z ∈ s.items := by
    intro z hz
    rw [hTitems] at hz
    rw [hitems]
    simp only [List.mem_append, List.mem_cons] at hz ⊢
    tauto
  have hkept₃ : Kept t₁ t₃ s.items := hkept.trans (hT.kept.mono (hT.items ▸ hsub))
  set t' := ((t₃.setParent x none).setChild .left x none).setChild .right x none with ht'
  have hself : t'.node x = (((t₃.node x).setParent none).setChild none .left).setChild none .right := by
    simp only [ht', setChild_node, setParent_node, if_true]
  have hother : ∀ z, z ≠ x → t'.node z = t₃.node z := by
    intro z hz
    simp only [ht', setChild_node, setParent_node, if_neg hz]
  have hkey : ∀ z, (t'.node z).key = (t.node z).key := by
    intro z
    have hz₃ : (t₃.node z).key = (t.node z).key := by rw [hkept₃.key, hnode₁]
    by_cases hz : z = x
    · subst hz
      rw [hself]
      exact hz₃
    · rw [hother z hz, hz₃]
  have hlast : t'.rightmost = T.items.getLast? := by
    rw [hTitems, ← hright₁, ← hkept₃.rightmost]
    rfl
  have hrun' : (if colorOf c = colorBlack then
      (helperRbTreeDeleteRebalance fuel t₂ l.top (parentOf path) side).bind fun t =>
        some (aOk, ((t.setParent x none).setChild .left x none).setChild .right x none)
      else some (aOk, ((t₂.setParent x none).setChild .left x none).setChild .right x none)) =
      some (aOk, t') := by
    split at hrun
    · next hblack => rw [if_pos hblack, hrun, Option.bind_some]
    · next hred => rw [if_neg hred, ht', Option.some.inj hrun]
  refine ⟨t', T, hrun', ⟨⟨hT.focused.above, hT.focused.below.congr fun z hz => ?_,
    hT.focused.nodup⟩, hT.balanced, ?_, fun _ => hlast⟩, ⟨xs, ys, hitems, hTitems⟩, hkey,
    fun z hz => ?_, ?_, ?_, ?_, hlast⟩
  · exact hother z fun heq => hx (heq ▸ hz)
  · have hsublist : T.items.Sublist s.items := by
      rw [hTitems, hitems]
      exact (List.sublist_cons_self x ys).append_left xs
    exact SearchOrder.congr (List.Pairwise.sublist hsublist h.ordered) fun z _ => hkey z
  · have hzx : z ≠ x := by
      rintro rfl
      exact hz (hitems ▸ List.mem_append_right _ List.mem_cons_self)
    rw [hother z hzx, hkept₃.outside z hz, hnode₁]
  · rw [hself]
    rfl
  · rw [hself]
    rfl
  · rw [hself]
    rfl

/-- **The node to unlink** is the node itself, if it has at most one child. -/
theorem removeFind_one (h : Focused t path (.node c l x r)) (hone : l = .nil ∨ r = .nil)
    (hfuel : (plug path (.node c l x r)).height ≤ fuel) :
    removeFind fuel t x = some (x, { t with
      rightmost :=
        if t.rightmost = some x then (itemsBefore path ++ l.items).getLast? else t.rightmost }) := by
  obtain ⟨-, -, hleft, hright, -, -⟩ := h.below
  have hcond : (t.node x).left = none ∨ (t.node x).right = none := by
    rw [hleft, hright, top_eq_none, top_eq_none]
    exact hone
  unfold removeFind
  rw [if_pos hcond]
  by_cases hlast : t.rightmost = some x
  · simp only [if_pos hlast, helperRbTreeFindPredecessor_eq fuel h hfuel, Option.bind_eq_bind,
      Option.bind_some]
  · simp only [if_neg hlast]

/-- Otherwise it is the first node of the right subtree, which has no left child. -/
theorem removeFind_two (h : Focused t path (.node c l x r)) (hl : l ≠ .nil) (hr : r ≠ .nil)
    (hfuel : (plug path (.node c l x r)).height ≤ fuel) :
    ∃ y down cy ry, removeFind fuel t x = some (y, t) ∧ r = plug down (.node cy .nil y ry) ∧
      itemsBefore down = [] := by
  obtain ⟨-, -, hleft, hright, -, -⟩ := h.below
  have hcond : ¬ ((t.node x).left = none ∨ (t.node x).right = none) := by
    rw [hleft, hright, top_eq_none, top_eq_none]
    exact fun hone => hone.elim hl hr
  obtain ⟨y, hy⟩ : ∃ y, r.items.head? = some y := by
    cases r with
    | nil => exact absurd rfl hr
    | node _ l' z r' => cases hitems : l'.items <;> simp [items, hitems]
  obtain ⟨down, sub, hsub, htop⟩ := exists_path_of_mem (List.mem_of_mem_head? hy)
  cases sub with
  | nil => cases htop
  | node cy ly z ry =>
      obtain rfl : z = y := Option.some.inj htop
      have hnd : r.items.Nodup := by
        have := (apart_iff (d := .left) (c := c)).1 h.nodup
        exact this.far_nodup
      -- the first item occurs only once, so nothing stands before it
      have hempty : itemsBefore down ++ ly.items = [] := by
        rw [hsub, items_plug, items] at hnd hy
        simp only [List.append_assoc, List.cons_append] at hnd hy
        rw [← List.append_assoc] at hnd hy
        cases hpre : itemsBefore down ++ ly.items with
        | nil => rfl
        | cons w ws =>
            rw [hpre] at hnd hy
            obtain rfl : w = z := Option.some.inj hy
            exact absurd (List.mem_append_right _ List.mem_cons_self) (List.nodup_cons.1 hnd).1
      obtain ⟨hbefore, hly⟩ := List.append_eq_nil_iff.1 hempty
      obtain rfl : ly = .nil := by
        cases ly with
        | nil => rfl
        | node => simp [items] at hly
      refine ⟨z, down, cy, ry, ?_, hsub, hbefore⟩
      unfold removeFind
      rw [if_neg hcond, helperRbTreeFindSuccessor_eq fuel h hfuel, List.head?_append, hy]
      rfl

omit [DecidableEq ν] in
theorem Vacated.rename {down : List (Frame ν)} {d : Dir} {k : Color}
    (h : Vacated c (down ++ ⟨d, k, x, l⟩ :: up) s) : Vacated c (down ++ ⟨d, k, y, l⟩ :: up) s := by
  cases c with
  | red =>
      obtain ⟨m, hbal⟩ := h
      obtain ⟨c', n, hs, hhole⟩ := hbal.hole
      exact hhole.rename.balanced hs
  | black =>
      obtain ⟨c', n, hs, hhole⟩ := h
      exact ⟨c', n, hs, hhole.rename⟩

/-- Where the unlinked node was under the one to remove, it takes that place over. -/
theorem parentOf_rename {down : List (Frame ν)} {d : Dir} {k : Color}
    (hx : x ∉ pathItems down) :
    (if parentOf (down ++ ⟨d, k, x, l⟩ :: up) = some x then some y
      else parentOf (down ++ ⟨d, k, x, l⟩ :: up)) = parentOf (down ++ ⟨d, k, y, l⟩ :: up) := by
  cases down with
  | nil => exact if_pos rfl
  | cons f down =>
      refine if_neg fun heq => hx ?_
      rw [← Option.some.inj heq]
      exact List.mem_cons_self

omit [DecidableEq ν] in
theorem dirOf_rename {down : List (Frame ν)} {d : Dir} {k : Color} :
    dirOf (down ++ ⟨d, k, x, l⟩ :: up) = dirOf (down ++ ⟨d, k, y, l⟩ :: up) := by
  cases down <;> rfl

omit [DecidableEq ν] in
theorem exists_focused_of_mem (h : Ok compare t s) (hx : x ∈ s.items) :
    ∃ path c l r, s = plug path (.node c l x r) ∧ Focused t path (.node c l x r) := by
  obtain ⟨path, sub, rfl, htop⟩ := exists_path_of_mem hx
  cases sub with
  | nil => cases htop
  | node c l z r =>
      obtain rfl : z = x := Option.some.inj htop
      have := focused_plug.2 h.focused
      rw [List.append_nil] at this
      exact ⟨path, c, l, r, rfl, this⟩

omit [DecidableEq ν] in
theorem items_plug_node (path : List (Frame ν)) (c : Color) (l r : RBTree ν) (x : ν) :
    (plug path (.node c l x r)).items =
      (itemsBefore path ++ l.items) ++ x :: (r.items ++ itemsAfter path) := by
  rw [items_plug, items]
  simp only [List.append_assoc, List.cons_append]

omit [DecidableEq ν] in
theorem rightmost_of_ne_nil (h : Ok compare t s) (hitems : s.items = xs ++ x :: ys) (hys : ys ≠ []) :
    t.rightmost = (xs ++ ys).getLast? ∧ t.rightmost ≠ some x := by
  have hs : s ≠ .nil := by
    rintro rfl
    cases xs <;> cases hitems
  have hlast : t.rightmost = ys.getLast? := by
    rw [h.rightmost hs, hitems, List.getLast?_append, List.getLast?_cons,
      List.getLast?_eq_some_getLast hys]
    rfl
  obtain ⟨w, hw⟩ : ∃ w, ys.getLast? = some w := ⟨_, List.getLast?_eq_some_getLast hys⟩
  refine ⟨?_, ?_⟩
  · rw [hlast, List.getLast?_append, hw]
    rfl
  · rw [hlast, hw]
    rintro heq
    obtain rfl := Option.some.inj heq
    have hnd : s.items.Nodup := h.focused.nodup_items
    rw [hitems, List.perm_middle.nodup_iff, List.nodup_cons] at hnd
    exact hnd.1 (List.mem_append_right _ (List.mem_of_getLast? hw))

/-- The rightmost node after the removal, as `rb_tree_remove` finds it before. -/
theorem rightmost_of_removeFind (h : Ok compare t s) (hitems : s.items = xs ++ x :: ys) :
    (if t.rightmost = some x then xs.getLast? else t.rightmost) = (xs ++ ys).getLast? := by
  by_cases hys : ys = []
  · subst hys
    have hs : s ≠ .nil := by
      rintro rfl
      cases xs <;> cases hitems
    have hlast : t.rightmost = some x := by rw [h.rightmost hs, hitems, List.getLast?_concat]
    rw [if_pos hlast, List.append_nil]
  · obtain ⟨hlast, hne⟩ := rightmost_of_ne_nil h hitems hys
    rw [if_neg hne, hlast]

/-- A node with at most one child is unlinked itself. -/
theorem rbTreeRemove_one (h : Ok compare t (plug path (.node c l x r)))
    (hfocus : Focused t path (.node c l x r)) (hone : l = .nil ∨ r = .nil)
    (hfuel : (plug path (.node c l x r)).height < fuel) :
    ∃ t' s', rbTreeRemove fuel t x = some (aOk, t') ∧
      Removed compare t t' (plug path (.node c l x r)) s' x := by
  obtain ⟨m, hbal⟩ := h.balanced
  have hitems := items_plug_node path c l r x
  have hfind := removeFind_one hfocus hone hfuel.le
  rw [rightmost_of_removeFind h hitems] at hfind
  set t₁ : RbTree ν κ := { t with
    rightmost := ((itemsBefore path ++ l.items) ++ (r.items ++ itemsAfter path)).getLast? } with ht₁
  have hfocus₁ : Focused t₁ path (.node c l x r) := ⟨hfocus.above, hfocus.below, hfocus.nodup⟩
  obtain ⟨side, t₂, hunlink, hside, hfocus₂, hself, hkept⟩ := removeUnlink_spec hfocus₁ hone
  have hcolor : (t₂.node x).color = colorOf c := by
    rw [hself]
    exact hfocus.below.2.1
  have hitems' : (plug path (onlyChild l r)).items =
      (itemsBefore path ++ l.items) ++ (r.items ++ itemsAfter path) := by
    rw [items_plug, items_onlyChild hone]
    simp only [List.append_assoc]
  have hnode₁ : t₁.node = t.node := rfl
  have hless : path.length < fuel := by
    have hlen := length_path_le path (.node c l x r)
    omega
  obtain ⟨t', s', hrun, hremoved⟩ := removeTail_spec h hnode₁ rfl hkept hfocus₂
    (vacated_onlyChild hone hbal) hside hitems hitems' hless
  refine ⟨t', s', ?_, hremoved⟩
  rw [← hrun]
  simp only [rbTreeRemove, hfind, hunlink, Option.bind_eq_bind, Option.bind_some, hcolor, ne_eq,
    not_true_eq_false, if_false]

/-- For a node with two children its successor is unlinked, and takes its place. -/
theorem rbTreeRemove_two (h : Ok compare t (plug path (.node c l x r)))
    (hfocus : Focused t path (.node c l x r)) (hl : l ≠ .nil) (hr : r ≠ .nil)
    (hfuel : (plug path (.node c l x r)).height < fuel) :
    ∃ t' s', rbTreeRemove fuel t x = some (aOk, t') ∧
      Removed compare t t' (plug path (.node c l x r)) s' x := by
  obtain ⟨m, hbal⟩ := h.balanced
  have hitems := items_plug_node path c l r x
  obtain ⟨y, down, cy, ry, hfind, rfl, hbefore⟩ := removeFind_two hfocus hl hr hfuel.le
  have hys : (plug down (.node cy .nil y ry)).items ++ itemsAfter path ≠ [] := by
    rw [items_plug, items]
    simp
  obtain ⟨hright, -⟩ := rightmost_of_ne_nil h hitems hys
  -- the focus on the successor, below the right link of the node
  have hdown : Focused t (down ++ ⟨.right, c, x, l⟩ :: path) (.node cy .nil y ry) :=
    focused_plug.2 (focused_fill.2 hfocus)
  have hplug : ∀ sub, plug (down ++ ⟨.right, c, x, l⟩ :: path) sub =
      plug path (.node c l x (plug down sub)) := fun sub => plug_append _ _ _
  obtain ⟨side, t₂, hunlink, hside, hfocus₂, hself, hkept⟩ := removeUnlink_spec hdown (.inl rfl)
  have hcolor : (t₂.node y).color = colorOf cy := by
    rw [hself]
    exact hdown.below.2.1
  rw [hplug] at hkept
  change Focused t₂ _ ry at hfocus₂
  have hfocus₂' : Focused t₂ path (.node c l x (plug down ry)) :=
    focused_fill.1 (focused_plug.1 hfocus₂)
  -- the successor is the first node of the right subtree
  have hfirst : (plug down (.node cy .nil y ry)).items = y :: (plug down ry).items := by
    rw [items_plug, items_plug, hbefore]
    rfl
  have hperm : (plug path (.node c l x (plug down (.node cy .nil y ry)))).items.Perm
      (y :: (plug path (.node c l x (plug down ry))).items) := by
    rw [hitems, items_plug_node path c l _ x, hfirst]
    exact ((List.Perm.swap y x _).append_left _).trans List.perm_middle
  have hmem : ∀ z, z ∈ (plug path (.node c l x (plug down (.node cy .nil y ry)))).items ↔
      z = y ∨ z ∈ (plug path (.node c l x (plug down ry))).items := fun z =>
    hperm.mem_iff.trans List.mem_cons
  have hy : y ∉ (plug path (.node c l x (plug down ry))).items :=
    (List.nodup_cons.1 (hperm.nodup_iff.1 h.focused.nodup_items)).1
  obtain ⟨hfocus₃, hkept₃⟩ := helperRbTreeSwapNode_spec hfocus₂' hy
  have hfocus₄ : Focused (helperRbTreeSwapNode t₂ x y) (down ++ ⟨.right, c, y, l⟩ :: path) ry :=
    focused_plug.2 (focused_fill.2 hfocus₃)
  have hxdown : x ∉ pathItems down := fun hmem =>
    ((apart_iff (d := .left) (c := c)).1 hfocus.nodup).not_far (mem_pathItems_iff.2 (.inr hmem))
  have hyx : y ≠ x := by
    rintro rfl
    exact hy (by rw [items_plug_node]; simp)
  have hvac : Vacated cy (down ++ ⟨.right, c, y, l⟩ :: path) ry := by
    rw [← hplug] at hbal
    exact (vacated_onlyChild (.inl rfl) hbal).rename
  have hitems' : (plug (down ++ ⟨.right, c, y, l⟩ :: path) ry).items =
      (itemsBefore path ++ l.items) ++
        ((plug down (.node cy .nil y ry)).items ++ itemsAfter path) := by
    rw [plug_append, hfirst]
    exact items_plug_node path c l (plug down ry) y
  have hkept₄ := hkept.trans (hkept₃.mono fun z hz => (hmem z).2 (List.mem_cons.1 hz))
  have hless : (down ++ ⟨.right, c, y, l⟩ :: path).length < fuel := by
    have hlen := length_path_le (down ++ ⟨.right, c, x, l⟩ :: path) (.node cy .nil y ry)
    rw [hplug] at hlen
    simp only [List.length_append, List.length_cons] at hlen ⊢
    omega
  obtain ⟨t', s', hrun, hremoved⟩ := removeTail_spec h rfl hright hkept₄ hfocus₄ hvac
    (fun _ => (hside (by simp)).trans dirOf_rename) hitems hitems' hless
  refine ⟨t', s', ?_, hremoved⟩
  rw [← hrun]
  simp only [rbTreeRemove, hfind, hunlink, Option.bind_eq_bind, Option.bind_some, hcolor, ne_eq,
    hyx, not_false_eq_true, if_true, parentOf_rename hxdown]
  rfl

/-- **`rb_tree_remove`** takes the node out, and nothing else. -/
theorem rbTreeRemove_spec (h : Ok compare t s) (hx : x ∈ s.items) (hfuel : s.height < fuel) :
    ∃ t' s', rbTreeRemove fuel t x = some (aOk, t') ∧ Removed compare t t' s s' x := by
  obtain ⟨path, c, l, r, rfl, hfocus⟩ := exists_focused_of_mem h hx
  by_cases hone : l = .nil ∨ r = .nil
  · exact rbTreeRemove_one h hfocus hone hfuel
  · rw [not_or] at hone
    exact rbTreeRemove_two h hfocus hone.1 hone.2 hfuel

end Removal

end Tsl
