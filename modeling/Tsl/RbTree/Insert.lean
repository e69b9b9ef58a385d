import Tsl.RbTree.Search

set_option autoImplicit false

/-! # Insertion into a red-black tree

The rebalancing loop goes up from a red node whose parent may be red too. It keeps that the red
subtree is balanced in itself, and that the hole it is in would take a black one (`Hole path .black n`). -/

namespace Tsl

open Lib RBTree RbTree

universe u

variable {ν κ : Type u} [DecidableEq ν]

section Cases

variable {t t' : RbTree ν κ} {path up : List (Frame ν)} {s a b e : RBTree ν} {d : Dir}
  {c c' : Color} {x y z p : ν} {n : ℕ}

/-- **Case 2**: from now on the red node is on the outer side of its red parent. -/
theorem insertCase2_spec {f g : Frame ν} (h : Focused t (f :: g :: up) s) (hp : s.top = some p)
    (hf : f.color = .red) (hs : Balanced s .red n) (hsib : Balanced f.sibling .black n) :
    ∃ q y t' Q R, insertCase2 g.dir t f.item p = some (q, t') ∧ Q.top = some q ∧
      Focused t' (g :: up) (join g.dir .red Q y R) ∧ Balanced Q .red n ∧ Balanced R .black n ∧
      (join g.dir .red Q y R).items = (f.fill s).items ∧
      Kept t t' (plug (f :: g :: up) s).items := by
  obtain ⟨df, cf, x, sib⟩ := f
  obtain rfl : cf = .red := hf
  obtain ⟨-, -, hchild, hother⟩ := h.frame
  rcases Dir.eq_or_eq_flip g.dir df with rfl | rfl
  · -- already on the outer side
    have hne : (t.node x).child g.dir.flip ≠ some p := by
      intro heq
      have hmem := top_mem_items (hother.symm.trans heq)
      exact (List.nodup_append.1 h.nodup).2.2 p (top_mem_items hp) p
        (by simp [pathItems, hmem]) rfl
    exact ⟨p, x, t, s, sib, if_neg hne, hp, focused_fill.1 h, hs, hsib, rfl, Kept.refl _ _⟩
  · obtain ⟨c, a, b, rfl⟩ := exists_join g.dir hp
    obtain rfl : c = .red := by
      rw [← color_join g.dir c a b p]
      exact hs.color_eq
    obtain ⟨-, ha, hb⟩ := balanced_join_red.1 hs
    have hfocus : Focused t (g :: up) (join g.dir .red sib x (join g.dir .red a p b)) := by
      rw [← join_flip]
      exact focused_fill.1 h
    obtain ⟨t', hrot, hfocus', hkept⟩ := helperRotate_spec hfocus
    refine ⟨x, p, t', _, b, ?_, top_join _ _ _ _ _, hfocus', balanced_join_red.2 ⟨rfl, hsib, ha⟩,
      hb, ?_, ?_⟩
    · have hcond : (t.node x).child g.dir.flip = some p := hchild.trans hp
      simp only [insertCase2, if_pos hcond, hrot, Option.bind_eq_bind, Option.bind_some]
    · rw [items_rotate g.dir .red .red .red .red, Frame.fill, join_flip]
    · refine hkept.mono fun w hw => ?_
      rw [plug, Frame.fill, join_flip]
      exact hw

/-- **Case 3**: the parent goes up in black, between two red nodes. -/
theorem insertCase3_spec {g : Frame ν} {Q R : RBTree ν}
    (h : Focused t (g :: up) (join g.dir .red Q y R)) (hp : Q.top = some p) (hg : g.color = .black) :
    ∃ t' u, insertCase3 g.dir t p = some t' ∧
      u = join g.dir.flip .black (join g.dir.flip .red g.sibling g.item R) y Q ∧
      Focused t' up u ∧ u.items = (g.fill (join g.dir .red Q y R)).items ∧
      Kept t t' (plug (g :: up) (join g.dir .red Q y R)).items := by
  obtain ⟨d, cg, x, sib⟩ := g
  obtain rfl : cg = .black := hg
  set all := (plug (⟨d, .black, x, sib⟩ :: up) (join d .red Q y R)).items with hall
  have hyin : y ∈ all := mem_pathItems_iff.2 (.inl (mem_items_join.2 (.inr (.inl rfl))))
  have hxin : x ∈ all := mem_pathItems_iff.2 (.inr (by simp [pathItems]))
  have h₁ := h.setColor .black
  have hparent : (t.node p).parent = some y := (focused_join.1 h).parent_eq hp
  have hparent₁ : ((t.setColor y colorBlack).node p).parent = some y :=
    (focused_join.1 h₁).parent_eq hp
  have hgrand₁ : ((t.setColor y colorBlack).node y).parent = some x :=
    h₁.parent_eq (top_join _ _ _ _ _)
  have h₂ := (focused_fill.1 h₁).setColor .red
  have h₃ : Focused ((t.setColor y (colorOf .black)).setColor x (colorOf .red)) up
      (join d.flip .red sib x (join d.flip .black R y Q)) := by
    rw [join_flip, join_flip]
    exact h₂
  obtain ⟨t', hrot, hfocus, hkept⟩ := helperRotate_spec h₃
  refine ⟨t', _, ?_, rfl, hfocus, ?_, ?_⟩
  · simp only [insertCase3, hparent, Option.bind_eq_bind, Option.bind_some, helperGetGrandparent,
      hparent₁, hgrand₁]
    exact hrot
  · rw [items_rotate d.flip .red .black .red .black, join_flip, join_flip, Frame.fill]
    cases d <;> rfl
  · refine (kept_setColor hyin).trans ((kept_setColor hxin).trans (hkept.mono fun w hw => ?_))
    rw [hall, plug, Frame.fill]
    rw [join_flip, join_flip, mem_pathItems_iff] at hw
    rw [mem_pathItems_iff]
    refine hw.imp_left fun hw => ?_
    simp only [mem_items_join] at hw ⊢
    exact hw

/-- **Case 1**: the red colour goes from the parent and the uncle to the grandparent. -/
theorem insertCase1_spec {f g : Frame ν} (h : Focused t (f :: g :: up) s) (hs : Balanced s .red n)
    (hsib : Balanced f.sibling .black n) (huncle : Balanced g.sibling .red n) :
    ∃ t' u, t' = ((t.setColor f.item colorBlack).setColorIf g.sibling.top colorBlack).setColor
        g.item colorRed ∧ Focused t' up u ∧ u.top = some g.item ∧ Balanced u .red (n + 1) ∧
      u.items = (g.fill (f.fill s)).items ∧ Kept t t' (plug (f :: g :: up) s).items := by
  obtain ⟨df, cf, x, sib⟩ := f
  obtain ⟨d, cg, y, uncle⟩ := g
  cases huncle with
  | @red l r z _ hl hr =>
      have h₁ := (focused_fill.1 h).setColor .black
      have h₂ : Focused ((t.setColor x colorBlack).setColor z colorBlack) _ (join .left .black l z r) :=
        Focused.setColor (d := .left) h₁.sideways .black
      have h₃ := (focused_fill.1 h₂.sideways).setColor .red
      rw [Dir.flip_flip] at h₃
      refine ⟨_, _, rfl, h₃, top_join _ _ _ _ _, ?_, ?_, ?_⟩
      · refine balanced_join_red.2 ⟨rfl, balanced_join_black.2 ⟨rfl, n, _, _, rfl, hs, hsib⟩, ?_⟩
        exact .black hl hr
      · cases d <;> cases df <;> rfl
      · have hin : ∀ w, w = x ∨ w = z ∨ w = y →
            w ∈ (plug (⟨df, cf, x, sib⟩ :: ⟨d, cg, y, .node .red l z r⟩ :: up) s).items := by
          intro w hw
          refine mem_pathItems_iff.2 (.inr ?_)
          rcases hw with rfl | rfl | rfl <;> simp [pathItems, items]
        exact (kept_setColor (hin x (.inl rfl))).trans ((kept_setColor (hin z (.inr (.inl rfl)))).trans
          (kept_setColor (hin y (.inr (.inr rfl)))))

end Cases

/-! ## The loop -/

section Loop

variable {t : RbTree ν κ} {path up : List (Frame ν)} {s : RBTree ν} {f : Frame ν} {p : ν} {n : ℕ}

/-- A black parent ends the loop. -/
theorem insertRebalanceLoop_black (h : Focused t (f :: up) s) (hp : s.top = some p)
    (hf : f.color = .black) (fuel : ℕ) : insertRebalanceLoop (fuel + 1) t p = some t := by
  have hparent : (t.node p).parent = some f.item := h.parent_eq hp
  have hcolor : (t.node f.item).color ≠ colorRed := by
    rw [h.frame.2.1, hf]
    decide
  simp only [insertRebalanceLoop, hparent, hcolor, ne_eq, not_false_eq_true, or_true, if_true]

theorem insertRebalanceLoop_red {g : Frame ν} (h : Focused t (f :: g :: up) s)
    (hp : s.top = some p) (hf : f.color = .red) (fuel : ℕ) :
    insertRebalanceLoop (fuel + 1) t p =
      if g.sibling.color = .red then
        insertRebalanceLoop fuel (((t.setColor f.item colorBlack).setColorIf g.sibling.top
          colorBlack).setColor g.item colorRed) g.item
      else (insertCase2 g.dir t f.item p).bind fun r =>
        (insertCase3 g.dir r.2 r.1).bind fun t' => insertRebalanceLoop fuel t' r.1 := by
  have hfill := focused_fill.1 h
  have hparent : (t.node p).parent = some f.item := h.parent_eq hp
  have hred : (t.node f.item).color = colorRed := by
    rw [h.frame.2.1, hf]
    rfl
  have hroot : t.root ≠ some p := hp ▸ h.root_ne
  have hgrand : (t.node f.item).parent = some g.item := hfill.parent_eq (top_join _ _ _ _ _)
  have hside : (if (t.node g.item).left = some f.item then Dir.left else .right) = g.dir := by
    have hleft := hfill.left_eq_iff (x := f.item) (top_join _ _ _ _ _)
    cases hd : g.dir with
    | left => exact if_pos (hleft.2 hd)
    | right => exact if_neg fun heq => by cases hd.symm.trans (hleft.1 heq)
  have huncle : (t.node g.item).child g.dir.flip = g.sibling.top := hfill.frame.2.2.2
  have hisRed : t.isRed g.sibling.top = true ↔ g.sibling.color = .red :=
    (Focused.sideways (x := g.item) hfill).below.isRed_iff
  simp only [insertRebalanceLoop, hparent, hroot, hred, ne_eq, not_true_eq_false, or_self, if_false,
    helperGetGrandparent, Option.bind_some, hgrand, Option.bind_eq_bind, hside, huncle, hisRed]

/-- **The loop** ends with a balanced tree of the same items, whose root may be red. -/
theorem insertRebalanceLoop_spec (fuel : ℕ) (h : Focused t path s) (hp : s.top = some p)
    (hs : Balanced s .red n) (hhole : Hole path .black n) (hfuel : path.length < fuel) :
    ∃ t' T c m, insertRebalanceLoop fuel t p = some t' ∧ Focused t' [] T ∧ Balanced T c m ∧
      T.items = (plug path s).items ∧ Kept t t' (plug path s).items := by
  induction fuel generalizing t path s p n with
  | zero => cases hfuel
  | succ fuel ih =>
      have hwhole : Focused t [] (plug path s) := focused_plug.1 (by rwa [List.append_nil])
      cases hhole with
      | root =>
          have hparent : (t.node p).parent = none := h.parent_eq hp
          refine ⟨t, s, _, _, ?_, h, hs, rfl, Kept.refl _ _⟩
          simp only [insertRebalanceLoop, hparent]
      | underBlack hsib hup =>
          obtain ⟨m, hbal⟩ := Hole.balanced (.underBlack hsib hup) hs
          exact ⟨t, _, _, _, insertRebalanceLoop_black h hp rfl fuel, hwhole, hbal, rfl,
            Kept.refl _ _⟩
      | @underRed df x sib _ _ hsib hup =>
          cases hup with
          | @underBlack d y uncle up _ cu _ huncle hup =>
              rw [insertRebalanceLoop_red h hp rfl]
              obtain rfl : uncle.color = cu := huncle.color_eq
              split
              · next hred =>
                  -- the red uncle: the hole moves two levels up, below a node that was black
                  simp only at hred
                  rw [hred] at huncle
                  obtain ⟨t₁, u, rfl, h₁, htop, hbal, hitems, hkept⟩ :=
                    insertCase1_spec h hs hsib huncle
                  simp only [List.length_cons] at hfuel
                  obtain ⟨t', T, c, m, hloop, hT, hbalT, hitemsT, hkeptT⟩ :=
                    ih h₁ htop hbal hup (by omega)
                  have heq := items_plug_congr hitems up
                  exact ⟨t', T, c, m, hloop, hT, hbalT, hitemsT.trans heq,
                    hkept.trans (heq ▸ hkeptT)⟩
              · next hblack =>
                  -- the black uncle: the subtree gets a black top, so the next round is the last
                  have hu : Balanced uncle .black n := by
                    cases hc : uncle.color with
                    | red => exact absurd hc hblack
                    | black => exact hc ▸ huncle
                  obtain ⟨q, z, t₁, Q, R, hcase2, hq, h₁, hQ, hR, hitems₁, hkept₁⟩ :=
                    insertCase2_spec h hp rfl hs hsib
                  obtain ⟨t₂, u, hcase3, hu₂, h₂, hitems₂, hkept₂⟩ := insertCase3_spec h₁ hq rfl
                  have hbal : Balanced u .black (n + 1) := by
                    rw [hu₂]
                    exact balanced_join_black.2 ⟨rfl, n, _, _, rfl, balanced_join_red.2 ⟨rfl, hu, hR⟩, hQ⟩
                  obtain ⟨m, hbalT⟩ := hup.balanced hbal
                  have hwhole₂ : Focused t₂ [] (plug up u) :=
                    focused_plug.1 (by rwa [List.append_nil])
                  have hitems : (plug up u).items = (plug up _).items :=
                    items_plug_congr (hitems₂.trans (items_fill_congr hitems₁ _)) up
                  refine ⟨t₂, plug up u, _, m, ?_, hwhole₂, hbalT, hitems, ?_⟩
                  · simp only [hcase2, hcase3, Option.bind_some]
                    obtain ⟨fuel, rfl⟩ : ∃ k, fuel = k + 1 := ⟨fuel - 1, by simp at hfuel; omega⟩
                    rw [hu₂, ← join_flip, Dir.flip_flip, focused_join] at h₂
                    exact insertRebalanceLoop_black h₂ hq rfl fuel
                  · exact hkept₁.trans (items_plug_congr hitems₁ (_ :: up) ▸ hkept₂)

/-- **The rebalancing of an insertion** leaves a balanced tree with a black root. -/
theorem helperRbTreeInsertRebalance_spec (fuel : ℕ) (h : Focused t (f :: up) s)
    (hp : s.top = some p) (hs : Balanced s .red n) (hhole : Hole (f :: up) .black n)
    (hfuel : (f :: up).length < fuel) :
    ∃ t' T m, helperRbTreeInsertRebalance fuel t p = some t' ∧ Focused t' [] T ∧
      Balanced T .black m ∧ T.items = (plug (f :: up) s).items ∧
      Kept t t' (plug (f :: up) s).items := by
  have hparent : (t.node p).parent = some f.item := h.parent_eq hp
  have hcolor := h.frame.2.1
  cases hf : f.color with
  | black =>
      have hwhole : Focused t [] (plug (f :: up) s) := focused_plug.1 (by rwa [List.append_nil])
      obtain ⟨m, hbal⟩ : ∃ m, Balanced (plug (f :: up) s) .black m := by
        obtain ⟨df, cf, x, sib⟩ := f
        obtain rfl : cf = .black := hf
        cases hhole with
        | underBlack hsib hup => exact Hole.balanced (.underBlack hsib hup) hs
      refine ⟨t, _, m, ?_, hwhole, hbal, rfl, Kept.refl _ _⟩
      have hblack : ¬ (t.node f.item).color ≠ colorBlack := by
        rw [hcolor, hf]
        exact not_not_intro rfl
      simp only [helperRbTreeInsertRebalance, hparent, if_neg hblack]
  | red =>
      obtain ⟨t₁, T, c, m, hloop, hT, hbal, hitems, hkept⟩ :=
        insertRebalanceLoop_spec fuel h hp hs hhole hfuel
      have hred : (t.node f.item).color ≠ colorBlack := by
        rw [hcolor, hf]
        decide
      obtain ⟨r, hr⟩ : ∃ r, T.top = some r := by
        cases T with
        | nil =>
            have hmem : p ∈ (plug (f :: up) s).items := mem_pathItems_iff.2 (.inl (top_mem_items hp))
            rw [← hitems] at hmem
            cases hmem
        | node c l r _ => exact ⟨r, rfl⟩
      have hroot : t₁.root = some r := hT.root_eq.trans hr
      obtain ⟨m', hbal'⟩ := hbal.blacken
      have hT' := hT.blacken
      rw [hr] at hT'
      refine ⟨t₁.setColor r colorBlack, _, m', ?_, hT', hbal', ?_, ?_⟩
      · simp only [helperRbTreeInsertRebalance, hparent, if_pos hred, hloop, hroot,
          Option.bind_eq_bind, Option.bind_some]
      · rw [items_blacken, hitems]
      · exact hkept.trans (kept_setColor (hitems ▸ top_mem_items hr))

end Loop

/-! ## Linking a new node -/

/-- `x` is in the tree now, under `key`, and nothing else was done to the tree. -/
structure Added (compare : κ → κ → ℤ) (t t' : RbTree ν κ) (s s' : RBTree ν) (x : ν) (key : κ) :
    Prop where
  ok : Ok compare t' s'
  items : ∃ xs ys, s.items = xs ++ ys ∧ s'.items = xs ++ x :: ys
  key : ∀ z, (t'.node z).key = if z = x then key else (t.node z).key
  outside : ∀ z, z ∉ s'.items → t'.node z = t.node z
  rightmost : t'.rightmost = s'.items.getLast?

section Link

variable {compare : κ → κ → ℤ} {t t₁ t' : RbTree ν κ} {s s' : RBTree ν} {f : Frame ν}
  {up : List (Frame ν)} {x : ν} {key : κ} {fuel : ℕ}

theorem Added.mem_iff (h : Added compare t t' s s' x key) {z : ν} :
    z ∈ s'.items ↔ z = x ∨ z ∈ s.items := by
  obtain ⟨xs, ys, hs, hs'⟩ := h.items
  rw [hs, hs', List.mem_append, List.mem_cons, List.mem_append]
  tauto

/-- **A new leaf** in the hole. -/
theorem Focused.attach (h : Focused t (f :: up) .nil) (hx : x ∉ pathItems (f :: up))
    (hroot : t₁.root = t.root)
    (hnode : ∀ z, z ≠ x → t₁.node z = (t.setChild f.dir f.item (some x)).node z)
    (hself : t₁.node x = ⟨none, none, some f.item, key, colorRed⟩) :
    Focused t₁ (f :: up) (.node .red .nil x .nil) := by
  have habove := h.above.setHole h.nodup (some x)
  refine ⟨?_, ?_, List.nodup_cons.2 ⟨hx, h.nodup⟩⟩
  swap
  · rw [Reads, hself]
    exact ⟨rfl, rfl, rfl, rfl, trivial, trivial⟩
  rw [hroot]
  refine habove.congr fun z hz => hnode z ?_
  rintro rfl
  exact hx hz

theorem SearchOrder.insert (hcompare : IsTotalPreorder compare) {path : List (Frame ν)}
    (h : SearchOrder compare t (plug path .nil).items)
    (hpath : Narrowed (keyCmp compare t key) path)
    (hkey : ∀ z, (t'.node z).key = if z = x then key else (t.node z).key)
    (hx : x ∉ (plug path .nil).items) :
    SearchOrder compare t' (itemsBefore path ++ x :: itemsAfter path) := by
  rw [items_plug, items, List.append_nil] at h hx
  rw [List.mem_append, not_or] at hx
  have hother : ∀ z ∈ itemsBefore path ++ itemsAfter path, (t'.node z).key = (t.node z).key := by
    intro z hz
    rw [hkey, if_neg]
    rintro rfl
    exact (List.mem_append.1 hz).elim hx.1 hx.2
  have hself : (t'.node x).key = key := by rw [hkey, if_pos rfl]
  have h' := h.congr hother
  rw [SearchOrder, List.pairwise_append] at h' ⊢
  rw [List.pairwise_cons]
  refine ⟨h'.1, ⟨fun z hz => ?_, h'.2.1⟩, fun z hz w hw => ?_⟩
  · rw [hself, hother z (List.mem_append_right _ hz)]
    exact hpath.after z hz
  · rcases List.mem_cons.1 hw with rfl | hw
    · rw [hself, hother z (List.mem_append_left _ hz), hcompare.swap]
      exact hpath.before z hz
    · exact h'.2.2 z hz w hw

/-- **Linking a node** at the place found for it, and rebalancing. -/
theorem link_spec (hcompare : IsTotalPreorder compare) (h : Ok compare t s) (hx : x ∉ s.items)
    (hplace : descend (keyCmp compare t key) [] s = (f :: up, .nil)) (hroot : t₁.root = t.root)
    (hrightmost : t₁.rightmost =
      if (itemsAfter (f :: up)).isEmpty then some x else t.rightmost)
    (hnode : ∀ z, z ≠ x → t₁.node z = (t.setChild f.dir f.item (some x)).node z)
    (hself : t₁.node x = ⟨none, none, some f.item, key, colorRed⟩) (hfuel : s.height < fuel) :
    ∃ t' s', helperRbTreeInsertRebalance fuel t₁ x = some t' ∧ Added compare t t' s s' x key := by
  have hplug : plug (f :: up) .nil = s := by
    have := plug_descend (keyCmp compare t key) [] s
    rwa [hplace] at this
  have hnarrow : Narrowed (keyCmp compare t key) (f :: up) := by
    have hnil : Narrowed (keyCmp compare t key) (descend (keyCmp compare t key) [] s).1 :=
      Narrowed.nil.descend (h.ordered.cut hcompare key)
    rwa [hplace] at hnil
  obtain ⟨m, hbal⟩ := h.balanced
  subst hplug
  have hfocus : Focused t (f :: up) .nil := by
    have := focused_plug.2 h.focused
    rwa [List.append_nil] at this
  obtain ⟨c, n, hnil, hhole⟩ : ∃ c n, Balanced (.nil : RBTree ν) c n ∧ Hole (f :: up) c n :=
    hbal.hole
  obtain ⟨rfl, rfl⟩ : c = .black ∧ n = 0 := by
    cases hnil
    exact ⟨rfl, rfl⟩
  have hxpath : x ∉ pathItems (f :: up) := fun hmem => hx (mem_pathItems_iff.2 (.inr hmem))
  have hfocus₁ := hfocus.attach hxpath hroot hnode hself
  have hlen := length_path_le (f :: up) (.nil : RBTree ν)
  obtain ⟨t', T, m', hrun, hT, hbalT, hitems, hkept⟩ :=
    helperRbTreeInsertRebalance_spec fuel hfocus₁ rfl (.red .nil .nil) hhole (by omega)
  have hitems' : T.items = itemsBefore (f :: up) ++ x :: itemsAfter (f :: up) := by
    rw [hitems, items_plug]
    simp [items]
  have hitems₀ : (plug (f :: up) .nil).items = itemsBefore (f :: up) ++ itemsAfter (f :: up) := by
    rw [items_plug, items, List.append_nil]
  have hkeys : ∀ z, (t'.node z).key = if z = x then key else (t.node z).key := by
    intro z
    rw [hkept.key]
    split
    · next heq => rw [heq, hself]
    · next hne => rw [hnode z hne, (kept_setChild (List.mem_singleton_self _)).key]
  have hlast : t'.rightmost = T.items.getLast? := by
    rw [hkept.rightmost, hrightmost, hitems', List.getLast?_append, List.getLast?_cons]
    cases hys : itemsAfter (f :: up) with
    | nil => rfl
    | cons y ys =>
        have hne : plug (f :: up) .nil ≠ .nil := by
          intro heq
          rw [heq, hys] at hitems₀
          simp [items] at hitems₀
        rw [h.rightmost hne, hitems₀, List.getLast?_append, hys, List.getLast?_cons]
        rfl
  refine ⟨t', T, hrun, ⟨⟨hT, ⟨m', hbalT⟩, ?_, fun _ => hlast⟩, ⟨_, _, hitems₀, hitems'⟩, hkeys,
    fun z hz => ?_, hlast⟩⟩
  · rw [hitems']
    exact h.ordered.insert hcompare hnarrow hkeys hx
  · have hz₀ : z ∉ (plug (f :: up) (.nil : RBTree ν)).items := by
      rw [hitems₀]
      rw [hitems'] at hz
      simp only [List.mem_append, List.mem_cons] at hz ⊢
      tauto
    rw [hkept.outside z (hitems ▸ hz), hnode z, setChild_node, if_neg]
    · rintro rfl
      exact hz₀ (mem_pathItems_iff.2 (.inr List.mem_cons_self))
    · rintro rfl
      exact hz (hitems' ▸ List.mem_append_right _ List.mem_cons_self)

/-- A single node. -/
theorem added_root (hroot : t'.root = some x) (hright : t'.rightmost = some x)
    (hnode : ∀ z, z ≠ x → t'.node z = t.node z)
    (hself : t'.node x = ⟨none, none, none, key, colorBlack⟩) :
    Added compare t t' .nil (.node .black .nil x .nil) x key where
  ok := {
    focused := by
      refine ⟨hroot, ?_, List.nodup_singleton x⟩
      rw [Reads, hself]
      exact ⟨rfl, rfl, rfl, rfl, trivial, trivial⟩
    balanced := ⟨1, .black .nil .nil⟩
    ordered := List.pairwise_singleton _ _
    rightmost := fun _ => hright }
  items := ⟨[], [], rfl, rfl⟩
  key := by
    intro z
    split
    · next heq => rw [heq, hself]
    · next hne => rw [hnode z hne]
  outside := fun z hz => hnode z (List.mem_singleton.not.1 hz)
  rightmost := hright

theorem setKey_node_of_ne {z : ν} (hz : z ≠ x) : (t.setKey x key).node z = t.node z :=
  Function.update_of_ne hz _ _

theorem setColor_node_of_ne {k : ℤ} {z : ν} (hz : z ≠ x) : (t.setColor x k).node z = t.node z :=
  Function.update_of_ne hz _ _

omit [DecidableEq ν] in
theorem same_of_unlinked (hx : x ∉ s.items) (hnode : ∀ z, z ≠ x → t₁.node z = t.node z) :
    ∀ z ∈ s.items, t₁.node z = t.node z :=
  fun z hz => hnode z fun heq => hx (heq ▸ hz)

/-- Nothing but the node `x` was written. -/
structure Beside (t t' : RbTree ν κ) (x : ν) : Prop where
  root : t'.root = t.root
  rightmost : t'.rightmost = t.rightmost
  node : ∀ z, z ≠ x → t'.node z = t.node z

theorem beside_setKey (t : RbTree ν κ) (x : ν) (key : κ) : Beside t (t.setKey x key) x :=
  ⟨rfl, rfl, fun _ hz => setKey_node_of_ne hz⟩

theorem beside_setColor (t : RbTree ν κ) (x : ν) (k : ℤ) : Beside t (t.setColor x k) x :=
  ⟨rfl, rfl, fun _ hz => setColor_node_of_ne hz⟩

omit [DecidableEq ν] in
theorem Beside.trans (h : Beside t t₁ x) (h' : Beside t₁ t' x) : Beside t t' x :=
  ⟨h'.root.trans h.root, h'.rightmost.trans h.rightmost,
    fun z hz => (h'.node z hz).trans (h.node z hz)⟩

omit [DecidableEq ν] in
theorem Beside.ok (hb : Beside t t₁ x) (h : Ok compare t s) (hx : x ∉ s.items) : Ok compare t₁ s :=
  h.congr (same_of_unlinked hx hb.node) hb.root hb.rightmost

omit [DecidableEq ν] in
theorem Beside.key_eq (hb : Beside t t₁ x) (hx : x ∉ s.items) {z : ν} (hz : z ∈ s.items) :
    (t₁.node z).key = (t.node z).key :=
  congrArg RbTreeNode.key (same_of_unlinked hx hb.node z hz)

/-- A node that can be linked. Nothing writes its children, and only under another node its parent. -/
structure Linkable (t : RbTree ν κ) (s : RBTree ν) (x : ν) : Prop where
  left : (t.node x).left = none
  right : (t.node x).right = none
  parent : s = .nil → (t.node x).parent = none

/-- A node that the clients may pass to be inserted. -/
structure Fresh (t : RbTree ν κ) (s : RBTree ν) (x : ν) : Prop where
  unlinked : x ∉ s.items
  left : (t.node x).left = none
  right : (t.node x).right = none
  parent : (t.node x).parent = none

omit [DecidableEq ν] in
theorem Fresh.linkable (hx : Fresh t s x) : Linkable t s x := ⟨hx.left, hx.right, fun _ => hx.parent⟩

/-- What both insertions make of an empty tree. -/
def linkRoot (t : RbTree ν κ) (key : κ) (x : ν) : RbTree ν κ :=
  RbTree.setColor { t.setKey x key with root := some x, rightmost := some x } x colorBlack

/-- What both insertions write at the place they have found, before the rebalancing. -/
def linkLeaf (t : RbTree ν κ) (key : κ) (x nd : ν) (side : Dir) (rightmost : Bool) : RbTree ν κ :=
  let t := (((t.setKey x key).setColor x colorRed).setChild side nd (some x)).setParent x (some nd)
  { t with rightmost := if rightmost then some x else t.rightmost }

theorem linkRoot_node_self (hleft : (t.node x).left = none) (hright : (t.node x).right = none)
    (hparent : (t.node x).parent = none) :
    (linkRoot t key x).node x = ⟨none, none, none, key, colorBlack⟩ := by
  simp [linkRoot, RbTree.setKey, RbTree.setColor, RbTree.setNode, RbTreeNode.setColor, hleft, hright,
    hparent]

theorem linkRoot_node_of_ne {z : ν} (hz : z ≠ x) : (linkRoot t key x).node z = t.node z :=
  (setColor_node_of_ne hz).trans (setKey_node_of_ne hz)

theorem linkLeaf_node_self {nd : ν} {side : Dir} {rightmost : Bool} (hleft : (t.node x).left = none)
    (hright : (t.node x).right = none) (hne : x ≠ nd) :
    (linkLeaf t key x nd side rightmost).node x = ⟨none, none, some nd, key, colorRed⟩ := by
  simp only [linkLeaf, setParent_node, if_true, setChild_node, if_neg hne]
  simp [RbTree.setKey, RbTree.setColor, RbTree.setNode, RbTreeNode.setColor, RbTreeNode.setParent,
    hleft, hright]

theorem linkLeaf_node_of_ne {nd z : ν} {side : Dir} {rightmost : Bool} (hne : x ≠ nd) (hz : z ≠ x) :
    (linkLeaf t key x nd side rightmost).node z = (t.setChild side nd (some x)).node z := by
  have hbase : ∀ w, w ≠ x → ((t.setKey x key).setColor x colorRed).node w = t.node w :=
    ((beside_setKey t x key).trans (beside_setColor _ x colorRed)).node
  simp only [linkLeaf, setParent_node, if_neg hz, setChild_node, hbase z hz, hbase nd hne.symm]

omit [DecidableEq ν] in
theorem ite_rightmost (b : Bool) (t : RbTree ν κ) (v : Option ν) :
    (if b then { t with rightmost := v } else t) =
      { t with rightmost := if b then v else t.rightmost } := by
  cases b <;> rfl

theorem setColor_setParent_setChild {nd : ν} (side : Dir) (v w : Option ν) (k : ℤ) (hne : x ≠ nd) :
    ((t.setChild side nd v).setParent x w).setColor x k =
      ((t.setColor x k).setChild side nd v).setParent x w := by
  refine congrArg (RbTree.mk t.root t.rightmost) (funext fun z => ?_)
  change (((t.setChild side nd v).setParent x w).setColor x k).node z =
    (((t.setColor x k).setChild side nd v).setParent x w).node z
  simp only [setColor_node, setParent_node, setChild_node, if_neg hne, if_neg hne.symm]
  by_cases hz : z = x
  · simp only [if_pos hz]
    rfl
  · simp only [if_neg hz]

/-- Comparisons that agree on the key and the keys in the tree insert the same way. -/
theorem rbTreeInsert_congr {compare' : κ → κ → ℤ} (h : Focused t [] s) (hx : x ∉ s.items)
    (hfuel : s.height ≤ fuel)
    (hcmp : ∀ z ∈ s.items, compare key (t.node z).key = compare' key (t.node z).key) :
    rbTreeInsert compare fuel t key x = rbTreeInsert compare' fuel t key x := by
  have hroot : (t.setKey x key).root = s.top := h.root_eq
  cases hs : s.top with
  | none => simp only [rbTreeInsert, hroot, hs]
  | some root =>
      set t₁ := (t.setKey x key).setColor x colorRed with ht₁
      have hnode₁ : ∀ z ∈ s.items, t₁.node z = t.node z :=
        same_of_unlinked hx fun z hz => (setColor_node_of_ne hz).trans (setKey_node_of_ne hz)
      have hkey₁ : (t₁.node x).key = key := by
        simp [ht₁, RbTree.setKey, RbTree.setColor, RbTree.setNode, RbTreeNode.setColor]
      have hdescend : descend (keyCmp compare t₁ (t₁.node x).key) [] s =
          descend (keyCmp compare' t₁ (t₁.node x).key) [] s := by
        refine descend_congr (fun z hz => ?_) []
        rw [keyCmp, keyCmp, hkey₁, hnode₁ z hz]
        exact hcmp z hz
      have hreads : Reads t₁.node s none := h.below.congr hnode₁
      have hplace := insertPlace_eq compare x root [] fuel hreads hs hfuel
      have hplace' := insertPlace_eq compare' x root [] fuel hreads hs hfuel
      rw [hdescend, ← hplace'] at hplace
      replace hplace : insertPlace compare t₁ x fuel root true =
        insertPlace compare' t₁ x fuel root true := hplace
      simp only [rbTreeInsert, hroot, hs, ← ht₁, hplace]

/-- The two insertions of one node, side by side: the way down decides for both. -/
inductive Insertions (compare : κ → κ → ℤ) (fuel : ℕ) (t : RbTree ν κ) (s : RBTree ν) (key : κ)
    (x : ν) : Prop
  | root (empty : s = .nil)
      (insert : rbTreeInsert compare fuel t key x = some (aOk, linkRoot t key x))
      (findOrInsert : rbTreeFindOrInsert compare fuel t key x =
        some (aOk, some x, linkRoot t key x))
  | busy {z : ν} (mem : z ∈ s.items) (equal : compare key (t.node z).key = 0)
      (insert : rbTreeInsert compare fuel t key x =
        some (aEBusy, (t.setKey x key).setColor x colorRed))
      (findOrInsert : rbTreeFindOrInsert compare fuel t key x = some (aOk, some z, t.setKey x key))
  | leaf {f : Frame ν} {up : List (Frame ν)} {t₁ : RbTree ν κ}
      (place : descend (keyCmp compare t key) [] s = (f :: up, .nil))
      (absent : ∀ z ∈ s.items, compare key (t.node z).key ≠ 0)
      (linked : t₁ = linkLeaf t key x f.item f.dir (itemsAfter (f :: up)).isEmpty)
      (insert : rbTreeInsert compare fuel t key x =
        (helperRbTreeInsertRebalance fuel t₁ x).map fun t' => (aOk, t'))
      (findOrInsert : rbTreeFindOrInsert compare fuel t key x =
        (helperRbTreeInsertRebalance fuel t₁ x).map fun t' => (aOk, some x, t'))

/-- **The two insertions agree**, whatever is in the links of the node. -/
theorem insertions_of_height (hcompare : IsTotalPreorder compare) (h : Ok compare t s)
    (hx : x ∉ s.items) (key : κ) (hfuel : s.height ≤ fuel) :
    Insertions compare fuel t s key x := by
  have hroot : (t.setKey x key).root = s.top := h.focused.root_eq
  cases hs : s.top with
  | none =>
      refine .root (top_eq_none.1 hs) ?_ ?_
      · simp only [rbTreeInsert, hroot, hs, linkRoot]
      · simp only [rbTreeFindOrInsert, hroot, hs, linkRoot]
  | some root =>
      set t₁ := t.setKey x key with ht₁
      set t₂ := t₁.setColor x colorRed with ht₂
      have hbeside₁ : Beside t t₁ x := beside_setKey t x key
      have hbeside₂ : Beside t t₂ x := hbeside₁.trans (beside_setColor t₁ x colorRed)
      have hkey₂ : (t₂.node x).key = key := by
        simp [ht₂, ht₁, RbTree.setKey, RbTree.setColor, RbTree.setNode, RbTreeNode.setColor]
      -- neither write is seen on the way down
      have hdescend₁ : descend (keyCmp compare t₁ key) [] s = descend (keyCmp compare t key) [] s :=
        descend_congr (fun z hz => by rw [keyCmp, hbeside₁.key_eq hx hz]) []
      have hdescend₂ : descend (keyCmp compare t₂ key) [] s = descend (keyCmp compare t key) [] s :=
        descend_congr (fun z hz => by rw [keyCmp, hbeside₂.key_eq hx hz]) []
      have hinsert := insertPlace_eq compare x root [] fuel (hbeside₂.ok h hx).focused.below hs hfuel
      have hfind := findPlace_eq compare key [] fuel (hbeside₁.ok h hx).focused.below hfuel
      rw [hkey₂, hdescend₂] at hinsert
      rw [hs, hdescend₁] at hfind
      have hne : s ≠ .nil := fun heq => by rw [heq] at hs; cases hs
      rcases descend_cases (h.ordered.cut hcompare key) hne with
        ⟨path, c, l, z, r, hd, hz, hcmp⟩ | ⟨f, up, hd, hcmp⟩
      · -- the search meets an equal key
        have hinsert' : insertPlace compare t₂ x fuel root true = some none := by
          rw [hd, placeOf_node] at hinsert
          exact hinsert
        have hfind' : findPlace compare t₁ key fuel (some root) none .left true =
            some (some z, parentOf path, dirOf path, (itemsAfter path).isEmpty) := by
          rw [hd] at hfind
          exact hfind
        refine .busy hz hcmp ?_ ?_
        · simp only [rbTreeInsert, ← ht₁, hroot, hs, ← ht₂, Option.bind_eq_bind, hinsert',
            Option.bind_some]
        · simp only [rbTreeFindOrInsert, ← ht₁, hroot, hs, Option.bind_eq_bind, hfind',
            Option.bind_some]
      · -- the search falls off the tree below `f.item`
        have hfx : x ≠ f.item := by
          rintro rfl
          exact hx (mem_items_of_descend hd)
        have hinsert' : insertPlace compare t₂ x fuel root true =
            some (some (f.item, f.dir, (itemsAfter (f :: up)).isEmpty)) := by
          rw [hd] at hinsert
          exact hinsert
        have hfind' : findPlace compare t₁ key fuel (some root) none .left true =
            some (none, some f.item, f.dir, (itemsAfter (f :: up)).isEmpty) := by
          rw [hd] at hfind
          exact hfind
        refine .leaf hd hcmp rfl ?_ ?_
        · simp only [rbTreeInsert, ← ht₁, hroot, hs, ← ht₂, Option.bind_eq_bind, hinsert',
            Option.bind_some, ite_rightmost, Option.map_eq_bind]
          rfl
        · simp only [rbTreeFindOrInsert, ← ht₁, hroot, hs, Option.bind_eq_bind, hfind',
            Option.bind_some, setColor_setParent_setChild _ _ _ _ hfx, ite_rightmost,
            Option.map_eq_bind]
          rfl

theorem insertions_cases (hcompare : IsTotalPreorder compare) (h : Ok compare t s) (hx : x ∉ s.items)
    (key : κ) (hfuel : s.items.length ≤ fuel) : Insertions compare fuel t s key x :=
  insertions_of_height hcompare h hx key (s.height_le_length.trans hfuel)

theorem linkLeaf_of_height (hcompare : IsTotalPreorder compare) (h : Ok compare t s)
    (hx : x ∉ s.items) (hlinks : Linkable t s x)
    (hplace : descend (keyCmp compare t key) [] s = (f :: up, .nil)) (hfuel : s.height < fuel) :
    ∃ t' s', helperRbTreeInsertRebalance fuel
        (linkLeaf t key x f.item f.dir (itemsAfter (f :: up)).isEmpty) x = some t' ∧
      Added compare t t' s s' x key := by
  have hfx : x ≠ f.item := by
    rintro rfl
    exact hx (mem_items_of_descend hplace)
  exact link_spec hcompare h hx hplace rfl rfl (fun z hz => linkLeaf_node_of_ne hfx hz)
    (linkLeaf_node_self hlinks.left hlinks.right hfx) hfuel

theorem linkLeaf_spec (hcompare : IsTotalPreorder compare) (h : Ok compare t s) (hx : x ∉ s.items)
    (hlinks : Linkable t s x) (hplace : descend (keyCmp compare t key) [] s = (f :: up, .nil))
    (hfuel : s.items.length < fuel) :
    ∃ t' s', helperRbTreeInsertRebalance fuel
        (linkLeaf t key x f.item f.dir (itemsAfter (f :: up)).isEmpty) x = some t' ∧
      Added compare t t' s s' x key :=
  linkLeaf_of_height hcompare h hx hlinks hplace (s.height_le_length.trans_lt hfuel)

theorem linkRoot_spec (hlinks : Linkable t .nil x) :
    Added compare t (linkRoot t key x) .nil (.node .black .nil x .nil) x key :=
  added_root rfl rfl (fun _ hz => linkRoot_node_of_ne hz)
    (linkRoot_node_self hlinks.left hlinks.right (hlinks.parent rfl))

/-- **`rb_tree_insert`** links the node, unless an equal key is there. -/
theorem rbTreeInsert_spec (hcompare : IsTotalPreorder compare) (h : Ok compare t s)
    (hx : x ∉ s.items) (key : κ)
    (hlinks : (∀ z ∈ s.items, compare key (t.node z).key ≠ 0) → Linkable t s x)
    (hfuel : s.height < fuel) :
    (∃ z ∈ s.items, compare key (t.node z).key = 0 ∧
        rbTreeInsert compare fuel t key x = some (aEBusy, (t.setKey x key).setColor x colorRed)) ∨
      (∀ z ∈ s.items, compare key (t.node z).key ≠ 0) ∧
        ∃ t' s', rbTreeInsert compare fuel t key x = some (aOk, t') ∧
          Added compare t t' s s' x key := by
  cases insertions_of_height hcompare h hx key hfuel.le with
  | root hs hrun =>
      subst hs
      have habsent : ∀ z ∈ (RBTree.nil : RBTree ν).items, compare key (t.node z).key ≠ 0 :=
        fun z hz => by cases hz
      exact .inr ⟨habsent, _, _, hrun, linkRoot_spec (hlinks habsent)⟩
  | busy hz hcmp hrun => exact .inl ⟨_, hz, hcmp, hrun⟩
  | leaf hd hcmp heq hrun =>
      obtain ⟨t', s', hrebalance, hadded⟩ :=
        linkLeaf_of_height hcompare h hx (hlinks hcmp) hd hfuel
      refine .inr ⟨hcmp, t', s', ?_, hadded⟩
      rw [hrun, heq, hrebalance, Option.map_some]

/-- **`rb_tree_find_or_insert`** links the candidate, or answers the node with an equal key. -/
theorem rbTreeFindOrInsert_spec (hcompare : IsTotalPreorder compare) (h : Ok compare t s)
    (hx : x ∉ s.items) (key : κ)
    (hlinks : (∀ z ∈ s.items, compare key (t.node z).key ≠ 0) → Linkable t s x)
    (hfuel : s.height < fuel) :
    (∃ z ∈ s.items, compare key (t.node z).key = 0 ∧
        rbTreeFindOrInsert compare fuel t key x = some (aOk, some z, t.setKey x key)) ∨
      (∀ z ∈ s.items, compare key (t.node z).key ≠ 0) ∧
        ∃ t' s', rbTreeFindOrInsert compare fuel t key x = some (aOk, some x, t') ∧
          Added compare t t' s s' x key := by
  cases insertions_of_height hcompare h hx key hfuel.le with
  | root hs _ hrun =>
      subst hs
      have habsent : ∀ z ∈ (RBTree.nil : RBTree ν).items, compare key (t.node z).key ≠ 0 :=
        fun z hz => by cases hz
      exact .inr ⟨habsent, _, _, hrun, linkRoot_spec (hlinks habsent)⟩
  | busy hz hcmp _ hrun => exact .inl ⟨_, hz, hcmp, hrun⟩
  | leaf hd hcmp heq _ hrun =>
      obtain ⟨t', s', hrebalance, hadded⟩ :=
        linkLeaf_of_height hcompare h hx (hlinks hcmp) hd hfuel
      refine .inr ⟨hcmp, t', s', ?_, hadded⟩
      rw [hrun, heq, hrebalance, Option.map_some]

end Link

end Tsl
