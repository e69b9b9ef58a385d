import Tsl.RbTree.Map

set_option autoImplicit false

/-! # The two insertions

`rb_tree_insert` and `rb_tree_find_or_insert` link a node in the same way where they link one. Where an
equal key is there already the second only writes the key of its candidate, but the first has coloured
its node as well: this is seen in the tree when the node is one of the linked ones. -/

namespace Tsl

open Lib RBTree RbTree

universe u

variable {ν κ : Type u}

/-- The linked nodes and the pointers of the tree are as they were. -/
structure SameTree (linked : List ν) (t t' : RbTree ν κ) : Prop where
  root : t'.root = t.root
  rightmost : t'.rightmost = t.rightmost
  node : ∀ z ∈ linked, t'.node z = t.node z

variable [DecidableEq ν] {compare : κ → κ → ℤ} {s : RbSession ν κ} {t t' : RbTree ν κ}
  {linked : List ν} {T : RBTree ν} {x : ν} {key : κ} {fuel : ℕ}

omit [DecidableEq ν] in
theorem Beside.sameTree (h : Beside t t' x) (hx : x ∉ linked) : SameTree linked t t' :=
  ⟨h.root, h.rightmost, fun z hz => h.node z fun heq => hx (heq ▸ hz)⟩

omit [DecidableEq ν] in
theorem IsRedBlackTree.congr (h : IsRedBlackTree compare t linked T) (hsame : SameTree linked t t') :
    IsRedBlackTree compare t' linked T := by
  have hnode : ∀ z ∈ T.items, t'.node z = t.node z := fun z hz => hsame.node z ((h.mem_iff z).1 hz)
  exact { h with
    root := hsame.root.trans h.root
    reads := h.reads.congr hnode
    searchOrder := h.searchOrder.congr fun z hz => congrArg RbTreeNode.key (hnode z hz) }

omit [DecidableEq ν] in
theorem IsRedBlackTree.root_black (h : IsRedBlackTree compare t linked T) (hroot : t.root = some x) :
    (t.node x).color = colorBlack := by
  have htop : T.top = some x := h.root.symm.trans hroot
  have hreads := h.reads
  have hblack := h.black
  cases T with
  | nil => cases htop
  | node c l z r =>
      obtain rfl : z = x := Option.some.inj htop
      obtain rfl : c = .black := hblack
      exact hreads.2.1

/-! ## A new candidate -/

/-- **The two insertions agree after every run**: they link the candidate in the same way, or neither
links it and the tree is as it was. -/
theorem insertions_agree_of_run (hcompare : IsTotalPreorder compare) (rightmost : Option ν)
    (node : ν → RbTreeNode ν κ) (calls : List (RbCall ν κ))
    (hrun : exec (RbSession.step compare) (.new rightmost node) calls = some s) (key : κ)
    (hallowed : s.Allowed (.findOrInsert key x)) (hfuel : s.linked.length < fuel) :
    ∃ result value t₁ t₂, rbTreeInsert compare fuel s.tree key x = some (result, t₁) ∧
      rbTreeFindOrInsert compare fuel s.tree key x = some (aOk, value, t₂) ∧
      (value = some x ↔ result = aOk) ∧ (value = some x → t₁ = t₂) ∧
      (value ≠ some x → result = aEBusy ∧
        (∃ z ∈ s.linked, value = some z ∧ compare key (s.tree.node z).key = 0) ∧
        SameTree s.linked s.tree t₁ ∧ SameTree s.linked s.tree t₂) := by
  obtain ⟨T, hok, hperm⟩ := inv_of_run hcompare hrun
  rw [← hperm.length_eq] at hfuel
  obtain ⟨hunlinked, hleft, hright, hparent⟩ := hallowed
  have hx : x ∉ T.items := fun hmem => hunlinked (hperm.mem_iff.1 hmem)
  cases insertions_cases hcompare hok hx key hfuel.le with
  | root hs hinsert hfind =>
      exact ⟨aOk, some x, _, _, hinsert, hfind, iff_of_true rfl rfl, fun _ => rfl,
        fun hne => absurd rfl hne⟩
  | @busy z hz hcmp hinsert hfind =>
      -- both have written to the candidate, which no linked node sees
      have hzx : some z ≠ some x := fun heq => hx (Option.some.inj heq ▸ hz)
      have hbeside := beside_setKey s.tree x key
      refine ⟨aEBusy, some z, _, _, hinsert, hfind, iff_of_false hzx (by decide),
        fun heq => absurd heq hzx, fun _ => ⟨rfl, ⟨z, hperm.mem_iff.1 hz, rfl, hcmp⟩, ?_, ?_⟩⟩
      · exact (hbeside.trans (beside_setColor _ x colorRed)).sameTree hunlinked
      · exact hbeside.sameTree hunlinked
  | leaf hd hcmp heq hinsert hfind =>
      -- from the same place on, both do the same
      obtain ⟨t', T', hrebalance, -⟩ :=
        linkLeaf_spec hcompare hok hx ⟨hleft, hright, fun _ => hparent⟩ hd hfuel
      rw [heq, hrebalance] at hinsert hfind
      exact ⟨aOk, some x, t', t', hinsert, hfind, iff_of_true rfl rfl, fun _ => rfl,
        fun hne => absurd rfl hne⟩

theorem insertions_agree_of_run_removeRun :
    ∃ s, exec (RbSession.step compareKeyNumbers) (.new none unusedNodes) removeRun = some s ∧
      ∃ result value t₁ t₂,
        rbTreeInsert compareKeyNumbers 4 s.tree (some 50) 7 = some (result, t₁) ∧
        rbTreeFindOrInsert compareKeyNumbers 4 s.tree (some 50) 7 = some (aOk, value, t₂) ∧
        (value = some 7 ↔ result = aOk) := by
  obtain ⟨s, hrun, hallowed, hlength⟩ : ∃ s, exec (RbSession.step compareKeyNumbers)
      (.new none unusedNodes) removeRun = some s ∧
      s.Allowed (.findOrInsert (some 50) 7) ∧ s.linked.length < 4 := by
    have h : (exec (RbSession.step compareKeyNumbers) (.new none unusedNodes) removeRun).map
        (fun s => decide (s.Allowed (.findOrInsert (some 50) 7) ∧ s.linked.length < 4)) =
          some true := by decide +kernel
    obtain ⟨s, hrun, hs⟩ := Option.map_eq_some_iff.1 h
    exact ⟨s, hrun, of_decide_eq_true hs⟩
  obtain ⟨result, value, t₁, t₂, hinsert, hfind, hiff, -⟩ := insertions_agree_of_run
    isTotalPreorder_compareKeyNumbers none unusedNodes _ hrun (some 50) hallowed hlength
  exact ⟨s, hrun, result, value, t₁, t₂, hinsert, hfind, hiff⟩

/-! ## Any node, with an equal key there -/

/-- What an insertion has written when it finds that an equal key is there. -/
theorem rbTreeInsert_busy (hbusy : rbTreeInsert compare fuel t key x = some (aEBusy, t')) :
    t' = (t.setKey x key).setColor x colorRed := by
  unfold rbTreeInsert at hbusy
  cases hroot : (t.setKey x key).root with
  | none =>
      simp only [hroot, Option.some.injEq, Prod.mk.injEq] at hbusy
      exact absurd hbusy.1 (by decide)
  | some root =>
      simp only [hroot, Option.bind_eq_bind, Option.bind_eq_some_iff] at hbusy
      obtain ⟨place, -, hbusy⟩ := hbusy
      cases place with
      | none =>
          simp only [Option.some.injEq, Prod.mk.injEq, true_and] at hbusy
          exact hbusy.symm
      | some place =>
          simp only [Option.bind_eq_some_iff, Option.some.injEq, Prod.mk.injEq] at hbusy
          obtain ⟨-, -, hresult, -⟩ := hbusy
          exact absurd hresult (by decide)

theorem setColor_setKey_node_self (k : ℤ) :
    ((t.setKey x key).setColor x k).node x = { t.node x with key := key, color := k } := by
  simp [RbTree.setKey, RbTree.setColor, RbTree.setNode, RbTreeNode.setColor]

/-- Nothing is to be seen of these writes outside the tree, nor in a red node with that key. -/
theorem sameTree_setColor_iff :
    SameTree linked t ((t.setKey x key).setColor x colorRed) ↔
      (x ∈ linked → (t.node x).key = key ∧ (t.node x).color = colorRed) := by
  have hbeside : Beside t ((t.setKey x key).setColor x colorRed) x :=
    (beside_setKey t x key).trans (beside_setColor _ x colorRed)
  constructor
  · intro h hx
    have hnode := h.node x hx
    rw [setColor_setKey_node_self] at hnode
    exact ⟨(congrArg RbTreeNode.key hnode).symm, (congrArg RbTreeNode.color hnode).symm⟩
  · intro h
    refine ⟨rfl, rfl, fun z hz => ?_⟩
    by_cases hzx : z = x
    · subst hzx
      obtain ⟨hkey, hcolor⟩ := h hz
      rw [setColor_setKey_node_self, ← hkey, ← hcolor]
    · exact hbeside.node z hzx

/-- **An insertion that answers `A_E_BUSY` leaves the tree as it was** exactly if its node is not in the
tree, or is red there already under this key. -/
theorem rbTreeInsert_busy_of_run (hcompare : IsTotalPreorder compare) (rightmost : Option ν)
    (node : ν → RbTreeNode ν κ) (calls : List (RbCall ν κ))
    (hrun : exec (RbSession.step compare) (.new rightmost node) calls = some s)
    (hbusy : rbTreeInsert compare fuel s.tree key x = some (aEBusy, t')) :
    (SameTree s.linked s.tree t' ∧ ∃ T, IsRedBlackTree compare t' s.linked T) ↔
      (x ∈ s.linked → (s.tree.node x).key = key ∧ (s.tree.node x).color = colorRed) := by
  obtain ⟨T, htree⟩ := (inv_of_run hcompare hrun).isRedBlackTree
  rw [rbTreeInsert_busy hbusy, ← sameTree_setColor_iff]
  exact ⟨fun h => h.1, fun hsame => ⟨hsame, T, htree.congr hsame⟩⟩

/-- A full tree of three nodes, in which the root has red children. -/
def threeNodesRun : List (RbCall ℕ (Option ℕ)) :=
  [.insert (some 20) 2, .insert (some 10) 1, .insert (some 30) 3]

theorem rbTreeInsert_busy_of_run_threeNodesRun :
    ∃ s t', exec (RbSession.step compareKeyNumbers) (.new none unusedNodes) threeNodesRun = some s ∧
      rbTreeInsert compareKeyNumbers 3 s.tree (some 30) 3 = some (aEBusy, t') ∧
      SameTree s.linked s.tree t' := by
  obtain ⟨s, hrun⟩ : ∃ s, exec (RbSession.step compareKeyNumbers) (.new none unusedNodes)
      threeNodesRun = some s := ⟨_, rfl⟩
  have h : (exec (RbSession.step compareKeyNumbers) (.new none unusedNodes) threeNodesRun).any
      fun s => decide ((s.tree.node 3).key = some 30 ∧ (s.tree.node 3).color = colorRed ∧
        (rbTreeInsert compareKeyNumbers 3 s.tree (some 30) 3).any fun r => r.1 = aEBusy) := by
    decide +kernel
  rw [hrun, Option.any_some, decide_eq_true_iff] at h
  obtain ⟨hkey, hcolor, hany⟩ := h
  obtain ⟨⟨result, t'⟩, hinsert, hresult⟩ := (Option.any_eq_true _ _).1 hany
  obtain rfl : result = aEBusy := of_decide_eq_true hresult
  exact ⟨s, t', hrun, hinsert, ((rbTreeInsert_busy_of_run isTotalPreorder_compareKeyNumbers none
    unusedNodes _ hrun hinsert).2 fun _ => ⟨hkey, hcolor⟩).1⟩

/-- Inserting the root again paints it red, above its red children. -/
theorem rbTreeInsert_busy_not_sameTree :
    ∃ s t', exec (RbSession.step compareKeyNumbers) (.new none unusedNodes) threeNodesRun = some s ∧
      rbTreeInsert compareKeyNumbers 3 s.tree (some 20) 2 = some (aEBusy, t') ∧
      ¬ SameTree s.linked s.tree t' ∧
      ¬ ∃ T, IsRedBlackTree compareKeyNumbers t' s.linked T := by
  obtain ⟨s, hrun⟩ : ∃ s, exec (RbSession.step compareKeyNumbers) (.new none unusedNodes)
      threeNodesRun = some s := ⟨_, rfl⟩
  have h : (exec (RbSession.step compareKeyNumbers) (.new none unusedNodes) threeNodesRun).any
      fun s => decide (2 ∈ s.linked ∧ (s.tree.node 2).color = colorBlack ∧
        (rbTreeInsert compareKeyNumbers 3 s.tree (some 20) 2).any fun r =>
          r.1 = aEBusy ∧ r.2.root = some 2 ∧ (r.2.node 2).color = colorRed) := by
    decide +kernel
  rw [hrun, Option.any_some, decide_eq_true_iff] at h
  obtain ⟨hlinked, hblack, hany⟩ := h
  obtain ⟨⟨result, t'⟩, hinsert, hresult⟩ := (Option.any_eq_true _ _).1 hany
  obtain ⟨rfl, hroot, hred⟩ := of_decide_eq_true hresult
  refine ⟨s, t', hrun, hinsert, fun hsame => ?_, fun ⟨T, htree⟩ => ?_⟩
  · have hcolor := congrArg RbTreeNode.color (hsame.node 2 hlinked)
    rw [hblack, hred] at hcolor
    exact absurd hcolor (by decide)
  · have hcolor := htree.root_black hroot
    rw [hred] at hcolor
    exact absurd hcolor (by decide)

end Tsl
