import Tsl.RbTree.Iterate

set_option autoImplicit false

/-! # A red-black tree in memory that was not initialized

The tree and the nodes are in memory with any content. The colour and the key of a node are written by
every insertion; its children are written by none, and its parent is not by one into an empty tree.
`rb_tree_new` leaves `rightmost` as it is. So the tree is a red-black tree as long as what is not
written happens to be `NULL` when a node is linked. -/

namespace Tsl

open Lib RBTree RbTree

universe u

variable {ν κ : Type u} [DecidableEq ν]

/-- One step of a run with nodes that need not be initialized; `none` if a node is inserted that is
    linked already, or one is removed that is not. -/
def RbSession.stepProper (compare : κ → κ → ℤ) (s : RbSession ν κ) (call : RbCall ν κ) :
    Option (RbSession ν κ) :=
  if s.Proper call then (s.perform compare call).map Prod.snd else none

/-- What is promised of nodes that need not be initialized. -/
structure WellFormed (compare : κ → κ → ℤ) (s : RbSession ν κ) : Prop where
  isRedBlackTree : ∃ T, IsRedBlackTree compare s.tree s.linked T
  rightmost : s.linked = [] → rbTreeGetRightmost s.tree = (aOk, none)

section Runs

variable {compare : κ → κ → ℤ} {s s' : RbSession ν κ} {call : RbCall ν κ} {t : RbTree ν κ} {x : ν}
  {key : κ}

theorem outcome_of_stepProper (hcompare : IsTotalPreorder compare) {T : RBTree ν}
    (hok : Ok compare s.tree T) (hperm : T.items.Perm s.linked) (hready : s.Ready compare call)
    (hstep : s.stepProper compare call = some s') :
    ∃ answer T', Outcome compare s T call answer s' T' := by
  unfold RbSession.stepProper at hstep
  split at hstep
  · next hproper =>
      obtain ⟨⟨answer, s''⟩, hperform, rfl⟩ := Option.map_eq_some_iff.1 hstep
      exact ⟨answer, outcome_of_perform hcompare hok hperm hproper hready hperform⟩
  · cases hstep

/-- **One step** that finds in the links what it does not write keeps the tree. -/
theorem inv_stepProper (hcompare : IsTotalPreorder compare) (h : s.Inv compare)
    (hready : s.Ready compare call) (hstep : s.stepProper compare call = some s') :
    s'.Inv compare := by
  obtain ⟨T, hok, hperm⟩ := h
  obtain ⟨answer, T', houtcome⟩ := outcome_of_stepProper hcompare hok hperm hready hstep
  exact ⟨T', houtcome.ok hok hperm, houtcome.perm hperm⟩

theorem invRightmost_stepProper (hcompare : IsTotalPreorder compare) (h : s.InvRightmost compare)
    (hready : s.Ready compare call) (hstep : s.stepProper compare call = some s') :
    s'.InvRightmost compare := by
  obtain ⟨T, hok, hperm, hlast⟩ := h
  obtain ⟨answer, T', houtcome⟩ := outcome_of_stepProper hcompare hok hperm hready hstep
  exact ⟨T', houtcome.ok hok hperm, houtcome.perm hperm, houtcome.rightmost hlast⟩

/-- A call that finds in the links what it does not write returns. -/
theorem exists_stepProper (hcompare : IsTotalPreorder compare) (h : s.Inv compare)
    (hproper : s.Proper call) (hready : s.Ready compare call) :
    ∃ s', s.stepProper compare call = some s' := by
  obtain ⟨answer, s', hperform, -, -⟩ := perform_spec hcompare h hproper hready
  exact ⟨s', by rw [RbSession.stepProper, if_pos hproper, hperform, Option.map_some]⟩

omit [DecidableEq ν] in
theorem RbSession.InvRightmost.inv (h : s.InvRightmost compare) : s.Inv compare := by
  obtain ⟨T, hok, hperm, -⟩ := h
  exact ⟨T, hok, hperm⟩

omit [DecidableEq ν] in
theorem RbSession.InvRightmost.wellFormed (h : s.InvRightmost compare) : WellFormed compare s where
  isRedBlackTree := h.inv.isRedBlackTree
  rightmost := by
    intro hnil
    obtain ⟨T, -, hperm, hlast⟩ := h
    rw [hnil] at hperm
    rw [rbTreeGetRightmost, hlast, hperm.eq_nil]
    rfl

/-- The first node of a tree makes it a red-black tree exactly if its links are `NULL`. -/
theorem isRedBlackTree_linkRoot_iff :
    (∃ T, IsRedBlackTree compare (linkRoot t key x) [x] T) ↔
      (t.node x).left = none ∧ (t.node x).right = none ∧ (t.node x).parent = none := by
  have hself : (linkRoot t key x).node x =
      { t.node x with key := key, color := colorBlack } := by
    simp [linkRoot, RbTree.setKey, RbTree.setColor, RbTree.setNode, RbTreeNode.setColor]
  constructor
  · rintro ⟨T, h⟩
    have hreads := h.reads
    have htop : T.top = some x := h.root.symm
    cases T with
    | nil => cases htop
    | node c l z r =>
        obtain rfl : z = x := Option.some.inj htop
        have hnd : (l.items ++ z :: r.items).Nodup := h.nodup
        rw [List.nodup_middle, List.nodup_cons, List.mem_append, not_or] at hnd
        -- the tree has one node, so its subtrees are empty
        have hmem : ∀ w ∈ l.items ++ z :: r.items, w = z :=
          fun w hw => List.mem_singleton.1 ((h.mem_iff w).1 hw)
        have hl : l.top = none := by
          cases hlt : l.top with
          | none => rfl
          | some w =>
              have hw := top_mem_items hlt
              exact absurd (hmem w (List.mem_append_left _ hw) ▸ hw) hnd.1.1
        have hr : r.top = none := by
          cases hrt : r.top with
          | none => rfl
          | some w =>
              have hw := top_mem_items hrt
              have hwz := hmem w (List.mem_append_right _ (List.mem_cons_of_mem _ hw))
              exact absurd (hwz ▸ hw) hnd.1.2
        obtain ⟨hparent, -, hleft, hright, -, -⟩ := hreads
        rw [hself] at hparent hleft hright
        exact ⟨hleft.trans hl, hright.trans hr, hparent⟩
  · rintro ⟨hleft, hright, hparent⟩
    have hadded : Added compare t (linkRoot t key x) .nil (.node .black .nil x .nil) x key :=
      linkRoot_spec ⟨hleft, hright, fun _ => hparent⟩
    exact RbSession.Inv.isRedBlackTree (s := ⟨linkRoot t key x, [x]⟩)
      ⟨_, hadded.ok, List.Perm.refl [x]⟩

/-- **Without initialization the tree is well formed in every run whose steps find `NULL` in the links
that they do not write**; that there is no rightmost node in an empty tree holds in such a run
exactly if `rb_tree_new` has found `NULL` there. -/
theorem wellFormed_of_run (hcompare : IsTotalPreorder compare) (rightmost : Option ν)
    (node : ν → RbTreeNode ν κ) (calls : List (RbCall ν κ))
    (hready : Meets (RbSession.stepProper compare) (RbSession.Ready compare) (.new rightmost node)
      calls) :
    Throughout (RbSession.stepProper compare) (fun s =>
      (∃ T, IsRedBlackTree compare s.tree s.linked T) ∧
        ∀ call, s.Proper call → s.Ready compare call →
          ∃ s', s.stepProper compare call = some s') (.new rightmost node) calls ∧
    (Throughout (RbSession.stepProper compare) (WellFormed compare) (.new rightmost node) calls ↔
      rightmost = none) := by
  refine ⟨?_, fun h => ?_, ?_⟩
  · refine throughout_of_meets (fun s call s' h hready hstep => inv_stepProper hcompare h hready hstep)
      (fun s h => ⟨h.isRedBlackTree, fun call hproper hready => ?_⟩) calls _
      (inv_new compare rightmost node) hready
    exact exists_stepProper hcompare h hproper hready
  · exact congrArg Prod.snd (h.head.rightmost rfl)
  · rintro rfl
    obtain ⟨T, hok, hperm⟩ := inv_new compare (none : Option ν) node
    have hfirst : (RbSession.new none node).InvRightmost compare := by
      refine ⟨T, hok, hperm, ?_⟩
      rw [hperm.eq_nil]
      rfl
    exact throughout_of_meets
      (fun s call s' h hready hstep => invRightmost_stepProper hcompare h hready hstep)
      (fun s h => h.wellFormed) calls _ hfirst hready

/-- Memory of nodes that were used for something else. -/
def usedNodes : ℕ → RbTreeNode ℕ (Option ℕ)
  | 1 => ⟨none, none, none, some 7, 42⟩
  | 2 => ⟨none, none, some 5, some 7, 42⟩
  | _ => ⟨some 9, some 9, some 9, some 7, 42⟩

theorem wellFormed_of_run_usedNodes :
    Throughout (RbSession.stepProper compareKeyNumbers) (WellFormed compareKeyNumbers)
      (.new none usedNodes)
      [.insert (some 10) 1, .findOrInsert (some 20) 2, .insert (some 10) 3, .remove 1] :=
  (wellFormed_of_run isTotalPreorder_compareKeyNumbers none usedNodes _ (by decide +kernel)).2.2 rfl

/-- A tree with something in `rightmost`, and one whose first node has something in its links. -/
theorem not_wellFormed_usedNodes :
    ¬ WellFormed compareKeyNumbers (.new (some 9) usedNodes) ∧
      ∃ s, (RbSession.new none usedNodes).stepProper compareKeyNumbers (.insert (some 10) 3) =
          some s ∧ ¬ WellFormed compareKeyNumbers s := by
  constructor
  · intro h
    exact absurd (h.rightmost rfl) (by decide)
  · refine ⟨⟨linkRoot (rbTreeNewEx none usedNodes) (some 10) 3, [3]⟩, rfl, fun h => ?_⟩
    exact absurd (isRedBlackTree_linkRoot_iff.1 h.isRedBlackTree).1 (by decide)

end Runs

end Tsl
