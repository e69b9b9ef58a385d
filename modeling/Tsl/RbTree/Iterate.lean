import Tsl.RbTree.Map

set_option autoImplicit false

/-! # The nodes of a red-black tree in their order

The inline functions of `tsl/rbtree.h`: the node with the greatest key, and from a node the ones next
to it in the order. The tree is its list of items to them, so the greatest node is the last item and
a node's neighbours are those in the list. -/

namespace Tsl

open Lib RBTree RbTree

universe u

variable {ν κ : Type u}

/-- `rb_tree_get_rightmost`: the result code and `*rightmost`. -/
def rbTreeGetRightmost (t : RbTree ν κ) : AResult × Option ν := (aOk, t.rightmost)

/-- `__rb_tree_find_minimum` for `.left`, `__rb_tree_find_maximum` for `.right`: the result code and
    what is answered. -/
def rbTreeFindEnd (d : Dir) (fuel : ℕ) (t : RbTree ν κ) (root : ν) : Option (AResult × ν) :=
  (helperRbTreeFindEnd d t fuel root).map fun x => (aOk, x)

def rbTreeFindMinimum (fuel : ℕ) (t : RbTree ν κ) (root : ν) : Option (AResult × ν) :=
  rbTreeFindEnd .left fuel t root

def rbTreeFindMaximum (fuel : ℕ) (t : RbTree ν κ) (root : ν) : Option (AResult × ν) :=
  rbTreeFindEnd .right fuel t root

variable [DecidableEq ν]

/-- `rb_tree_find_successor`: the result code and `*successor`. -/
def rbTreeFindSuccessor (fuel : ℕ) (t : RbTree ν κ) (node : ν) : Option (AResult × Option ν) :=
  match (t.node node).right with
  | some right => do
      let (_, successor) ← rbTreeFindMinimum fuel t right
      some (aOk, some successor)
  | none => do
      let y ← climb .right t fuel node
      some (aOk, y)

/-- `rb_tree_find_predecessor`: the result code and `*pred`. -/
def rbTreeFindPredecessor (fuel : ℕ) (t : RbTree ν κ) (node : ν) : Option (AResult × Option ν) :=
  match (t.node node).left with
  | some left => do
      let (_, pred) ← rbTreeFindMaximum fuel t left
      some (aOk, some pred)
  | none => do
      let y ← climb .left t fuel node
      some (aOk, y)

/-- The nodes met from a node on, going to the successor until there is none. The last argument has one
    unit for each node. -/
def visitFrom (fuel : ℕ) (t : RbTree ν κ) : Option ν → ℕ → Option (List ν)
  | none, _ => some []
  | some _, 0 => none
  | some x, rounds + 1 => do
      let (_, successor) ← rbTreeFindSuccessor fuel t x
      let visited ← visitFrom fuel t successor rounds
      some (x :: visited)

/-- The nodes met from the minimum on. -/
def visitNodes (fuel : ℕ) (t : RbTree ν κ) : Option (List ν) :=
  match t.root with
  | none => some []
  | some root => do
      let (_, min) ← rbTreeFindMinimum fuel t root
      visitFrom fuel t (some min) fuel

/-! ## Neighbours in the list -/

section Neighbours

variable {compare : κ → κ → ℤ} {t : RbTree ν κ} {T : RBTree ν} {xs ys : List ν} {x y : ν} {fuel : ℕ}

theorem rbTreeFindSuccessor_eq_map :
    rbTreeFindSuccessor fuel t x =
      (helperRbTreeFindSuccessor fuel t x).map fun answer => (aOk, answer) := by
  unfold rbTreeFindSuccessor helperRbTreeFindSuccessor
  cases (t.node x).right with
  | none => simp only [Option.map_eq_bind, Option.bind_eq_bind]; rfl
  | some right =>
      simp only [rbTreeFindMinimum, rbTreeFindEnd, helperRbTreeFindMinimum, Option.bind_eq_bind]
      cases helperRbTreeFindEnd .left t fuel right <;> rfl

theorem rbTreeFindPredecessor_eq_map :
    rbTreeFindPredecessor fuel t x =
      (helperRbTreeFindPredecessor fuel t x).map fun answer => (aOk, answer) := by
  unfold rbTreeFindPredecessor helperRbTreeFindPredecessor
  cases (t.node x).left with
  | none => simp only [Option.map_eq_bind, Option.bind_eq_bind]; rfl
  | some left =>
      simp only [rbTreeFindMaximum, rbTreeFindEnd, helperRbTreeFindMaximum, Option.bind_eq_bind]
      cases helperRbTreeFindEnd .right t fuel left <;> rfl

omit [DecidableEq ν] in
/-- The way to a node of the tree cuts the list of items at the node. -/
theorem RbTree.Ok.focus (h : Ok compare t T) (hitems : T.items = xs ++ x :: ys) :
    ∃ path c l r, T = plug path (.node c l x r) ∧ Focused t path (.node c l x r) ∧
      xs = itemsBefore path ++ l.items ∧ ys = r.items ++ itemsAfter path := by
  have hx : x ∈ T.items := by
    rw [hitems]
    exact List.mem_append_right _ List.mem_cons_self
  obtain ⟨path, c, l, r, hT, hfocus⟩ := exists_focused_of_mem h hx
  have hnd : (xs ++ x :: ys).Nodup := hitems ▸ h.focused.nodup_items
  rw [List.nodup_middle, List.nodup_cons, List.mem_append, not_or] at hnd
  rw [hT, items_plug_node, eq_comm, List.append_cons_inj_of_notMem hnd.1.1 hnd.1.2] at hitems
  exact ⟨path, c, l, r, hT, hfocus, hitems.1, hitems.2.2⟩

/-- **The successor** of a node is the next one in the list. -/
theorem rbTreeFindSuccessor_eq (h : Ok compare t T) (hitems : T.items = xs ++ x :: ys)
    (hfuel : T.items.length ≤ fuel) : rbTreeFindSuccessor fuel t x = some (aOk, ys.head?) := by
  obtain ⟨path, c, l, r, rfl, hfocus, -, rfl⟩ := h.focus hitems
  rw [rbTreeFindSuccessor_eq_map, helperRbTreeFindSuccessor_eq fuel hfocus
    ((height_le_length _).trans hfuel), Option.map_some]

/-- **The predecessor** of a node is the one before it. -/
theorem rbTreeFindPredecessor_eq (h : Ok compare t T) (hitems : T.items = xs ++ x :: ys)
    (hfuel : T.items.length ≤ fuel) : rbTreeFindPredecessor fuel t x = some (aOk, xs.getLast?) := by
  obtain ⟨path, c, l, r, rfl, hfocus, rfl, -⟩ := h.focus hitems
  rw [rbTreeFindPredecessor_eq_map, helperRbTreeFindPredecessor_eq fuel hfocus
    ((height_le_length _).trans hfuel), Option.map_some]

theorem visitFrom_eq {rounds : ℕ} (h : Ok compare t T) (hfuel : T.items.length ≤ fuel)
    (hitems : T.items = xs ++ ys) (hrounds : ys.length ≤ rounds) :
    visitFrom fuel t ys.head? rounds = some ys := by
  induction ys generalizing xs rounds with
  | nil => cases rounds <;> rfl
  | cons x ys ih =>
      obtain ⟨rounds, rfl⟩ : ∃ n, rounds = n + 1 := ⟨rounds - 1, by simp at hrounds; omega⟩
      -- what was visited so far is the front of the list
      have hsplit : T.items = (xs ++ [x]) ++ ys := by
        rw [hitems, List.append_assoc, List.singleton_append]
      have hrest : visitFrom fuel t ys.head? rounds = some ys := ih hsplit (by simpa using hrounds)
      rw [List.head?_cons, visitFrom, rbTreeFindSuccessor_eq h hitems hfuel]
      simp only [Option.bind_eq_bind, Option.bind_some, hrest]

theorem visitNodes_eq (h : Ok compare t T) (hfuel : T.items.length ≤ fuel) :
    visitNodes fuel t = some T.items := by
  have hroot := h.focused.root_eq
  unfold visitNodes
  cases htop : T.top with
  | none =>
      rw [hroot, htop, top_eq_none.1 htop]
      rfl
  | some root =>
      obtain ⟨min, hmin, hend⟩ := helperRbTreeFindEnd_eq (d := .left) fuel h.focused.below
        htop (T.height_le_length.trans hfuel)
      have hvisit := visitFrom_eq h hfuel (List.nil_append T.items).symm hfuel
      rw [show T.items.head? = some min from hend] at hvisit
      simp only [hroot, htop, rbTreeFindMinimum, rbTreeFindEnd, hmin, Option.map_some,
        Option.bind_eq_bind, Option.bind_some, hvisit]

/-- On nodes of the tree the predecessor undoes the successor. -/
theorem successor_iff_predecessor (h : Ok compare t T) (hfuel : T.items.length ≤ fuel)
    (hx : x ∈ T.items) (hy : y ∈ T.items) :
    rbTreeFindSuccessor fuel t x = some (aOk, some y) ↔
      rbTreeFindPredecessor fuel t y = some (aOk, some x) := by
  constructor
  · obtain ⟨xs, ys, hitems⟩ := List.append_of_mem hx
    rw [rbTreeFindSuccessor_eq h hitems hfuel]
    intro hnext
    obtain ⟨ys', rfl⟩ : ∃ ys', ys = y :: ys' :=
      List.head?_eq_some_iff.1 (congrArg Prod.snd (Option.some.inj hnext))
    have hitems' : T.items = (xs ++ [x]) ++ y :: ys' := by
      rw [hitems, List.append_assoc, List.singleton_append]
    rw [rbTreeFindPredecessor_eq h hitems' hfuel, List.getLast?_append]
    rfl
  · obtain ⟨xs, ys, hitems⟩ := List.append_of_mem hy
    rw [rbTreeFindPredecessor_eq h hitems hfuel]
    intro hprevious
    obtain ⟨xs', rfl⟩ : ∃ xs', xs = xs' ++ [x] :=
      List.getLast?_eq_some_iff.1 (congrArg Prod.snd (Option.some.inj hprevious))
    have hitems' : T.items = xs' ++ x :: (y :: ys) := by
      rw [hitems, List.append_assoc, List.singleton_append]
    rw [rbTreeFindSuccessor_eq h hitems' hfuel, List.head?_cons]

omit [DecidableEq ν] in
theorem SearchOrder.lt_getLast (h : SearchOrder compare t xs) (hx : xs.getLast? = some x)
    (hy : y ∈ xs) (hne : y ≠ x) : compare (t.node y).key (t.node x).key < 0 := by
  obtain ⟨ys, rfl⟩ := List.getLast?_eq_some_iff.1 hx
  rw [SearchOrder, List.pairwise_append] at h
  rcases List.mem_append.1 hy with hy | hy
  · exact h.2.2 y hy x (List.mem_singleton_self x)
  · exact absurd (List.mem_singleton.1 hy) hne

end Neighbours

/-! ## After every run -/

/-- What `rb_tree_get_rightmost` is to answer: the linked node with the greatest key, or `NULL`. -/
def RbSession.Greatest (compare : κ → κ → ℤ) (s : RbSession ν κ) : Option ν → Prop
  | none => s.linked = []
  | some z => z ∈ s.linked ∧
      ∀ w ∈ s.linked, w ≠ z → compare (s.tree.node w).key (s.tree.node z).key < 0

/-- The tree in memory, with its `rightmost` also where it is empty. -/
def RbSession.InvRightmost (compare : κ → κ → ℤ) (s : RbSession ν κ) : Prop :=
  ∃ T, Ok compare s.tree T ∧ T.items.Perm s.linked ∧ s.tree.rightmost = T.items.getLast?

section Runs

variable {compare : κ → κ → ℤ} {s s' s₁ s₂ : RbSession ν κ} {call : RbCall ν κ}
  {answer : AResult × Option ν} {T T' : RBTree ν} {x : ν}

theorem Outcome.rightmost (h : Outcome compare s T call answer s' T')
    (hlast : s.tree.rightmost = T.items.getLast?) : s'.tree.rightmost = T'.items.getLast? := by
  cases h with
  | busy _ _ _ hbeside => exact hbeside.rightmost.trans hlast
  | insert _ _ hadded => exact hadded.rightmost
  | found _ _ _ hbeside => exact hbeside.rightmost.trans hlast
  | findOrInsert _ _ hadded => exact hadded.rightmost
  | remove _ hremoved => exact hremoved.rightmost

theorem invRightmost_step (hcompare : IsTotalPreorder compare) (h : s.InvRightmost compare)
    (hstep : s.step compare call = some s') : s'.InvRightmost compare := by
  obtain ⟨T, hok, hperm, hlast⟩ := h
  obtain ⟨hallowed, answer, hperform⟩ := step_eq_some.1 hstep
  obtain ⟨T', houtcome⟩ :=
    outcome_of_perform hcompare hok hperm hallowed.proper hallowed.ready hperform
  exact ⟨T', houtcome.ok hok hperm, houtcome.perm hperm, houtcome.rightmost hlast⟩

theorem invRightmost_of_inserted (hcompare : IsTotalPreorder compare) (h : s.Inv compare)
    (hallowed : s.Allowed call) (hperform : s.perform compare call = some (answer, s'))
    (hinserted : call.inserted answer = some x) : s'.InvRightmost compare := by
  obtain ⟨T, hok, hperm⟩ := h
  obtain ⟨T', houtcome⟩ :=
    outcome_of_perform hcompare hok hperm hallowed.proper hallowed.ready hperform
  obtain ⟨key, -, hadded, -⟩ := houtcome.of_inserted hperm hinserted
  exact ⟨T', houtcome.ok hok hperm, houtcome.perm hperm, hadded.rightmost⟩

omit [DecidableEq ν] in
theorem greatest_of_invRightmost (h : s.InvRightmost compare) :
    s.Greatest compare s.tree.rightmost := by
  obtain ⟨T, hok, hperm, hlast⟩ := h
  rw [hlast]
  cases hend : T.items.getLast? with
  | none =>
      -- only the empty list has no last item
      rw [List.getLast?_eq_none_iff] at hend
      rw [hend] at hperm
      exact hperm.nil_eq.symm
  | some z =>
      refine ⟨hperm.mem_iff.1 (List.mem_of_getLast? hend), fun w hw hne => ?_⟩
      exact hok.ordered.lt_getLast hend (hperm.mem_iff.2 hw) hne

/-- **After every run in which a node was inserted, the rightmost node is the greatest**, and there is
none when the tree has become empty. -/
theorem rbTreeGetRightmost_of_run (hcompare : IsTotalPreorder compare) (rightmost : Option ν)
    (node : ν → RbTreeNode ν κ) (before after : List (RbCall ν κ))
    (hbefore : exec (RbSession.step compare) (.new rightmost node) before = some s₁)
    (hallowed : s₁.Allowed call) (hperform : s₁.perform compare call = some (answer, s₂))
    (hinserted : call.inserted answer = some x)
    (hafter : exec (RbSession.step compare) s₂ after = some s) :
    ∃ value, rbTreeGetRightmost s.tree = (aOk, value) ∧ s.Greatest compare value := by
  have hfirst : s₂.InvRightmost compare :=
    invRightmost_of_inserted hcompare (inv_of_run hcompare hbefore) hallowed hperform hinserted
  have hinv : s.InvRightmost compare :=
    exec_invariant (fun _ _ _ h hstep => invRightmost_step hcompare h hstep) hfirst hafter
  exact ⟨s.tree.rightmost, rfl, greatest_of_invRightmost hinv⟩

theorem rbTreeGetRightmost_of_run_removeRun :
    ∃ s₂ s, (RbSession.new (some 9) unusedNodes).perform compareKeyNumbers (.insert (some 40) 4) =
        some ((aOk, none), s₂) ∧
      exec (RbSession.step compareKeyNumbers) s₂ removeRun.tail = some s ∧
      ∃ value, rbTreeGetRightmost s.tree = (aOk, value) ∧ s.Greatest compareKeyNumbers value := by
  obtain ⟨s₂, hperform⟩ : ∃ s₂, (RbSession.new (some 9) unusedNodes).perform compareKeyNumbers
      (.insert (some 40) 4) = some ((aOk, none), s₂) := ⟨_, rfl⟩
  have hsome : ((RbSession.new (some 9) unusedNodes).perform compareKeyNumbers
      (.insert (some 40) 4)).any fun r =>
        (exec (RbSession.step compareKeyNumbers) r.2 removeRun.tail).isSome := by decide +kernel
  rw [hperform, Option.any_some] at hsome
  obtain ⟨s, hrun⟩ := Option.isSome_iff_exists.1 hsome
  exact ⟨s₂, s, hperform, hrun, rbTreeGetRightmost_of_run isTotalPreorder_compareKeyNumbers (some 9)
    unusedNodes [] removeRun.tail rfl (by decide) hperform rfl hrun⟩

/-- **After every run the successors visit the linked nodes in the order of their keys**, each once, and
the predecessors lead back. -/
theorem visitNodes_of_run (hcompare : IsTotalPreorder compare) (rightmost : Option ν)
    (node : ν → RbTreeNode ν κ) (calls : List (RbCall ν κ))
    (hrun : exec (RbSession.step compare) (.new rightmost node) calls = some s) {fuel : ℕ}
    (hfuel : s.linked.length ≤ fuel) :
    (∃ visited, visitNodes fuel s.tree = some visited ∧ visited.Nodup ∧
      (∀ z, z ∈ visited ↔ z ∈ s.linked) ∧ SearchOrder compare s.tree visited) ∧
    (∀ x ∈ s.linked, ∃ successor pred, rbTreeFindSuccessor fuel s.tree x = some (aOk, successor) ∧
      rbTreeFindPredecessor fuel s.tree x = some (aOk, pred)) ∧
    ∀ x ∈ s.linked, ∀ y ∈ s.linked, rbTreeFindSuccessor fuel s.tree x = some (aOk, some y) ↔
      rbTreeFindPredecessor fuel s.tree y = some (aOk, some x) := by
  obtain ⟨T, hok, hperm⟩ := inv_of_run hcompare hrun
  rw [← hperm.length_eq] at hfuel
  refine ⟨⟨T.items, visitNodes_eq hok hfuel, hok.focused.nodup_items, fun z => hperm.mem_iff,
    hok.ordered⟩, fun x hx => ?_, fun x hx y hy => ?_⟩
  · obtain ⟨xs, ys, hitems⟩ := List.append_of_mem (hperm.mem_iff.2 hx)
    exact ⟨ys.head?, xs.getLast?, rbTreeFindSuccessor_eq hok hitems hfuel,
      rbTreeFindPredecessor_eq hok hitems hfuel⟩
  · exact successor_iff_predecessor hok hfuel (hperm.mem_iff.2 hx) (hperm.mem_iff.2 hy)

theorem visitNodes_of_run_removeRun :
    ∃ s, exec (RbSession.step compareKeyNumbers) (.new none unusedNodes) removeRun = some s ∧
      ∃ visited, visitNodes 3 s.tree = some visited ∧ ∀ z, z ∈ visited ↔ z ∈ s.linked := by
  obtain ⟨s, hrun, hlinked⟩ : ∃ s, exec (RbSession.step compareKeyNumbers) (.new none unusedNodes)
      removeRun = some s ∧ s.linked.length = 3 := by
    have h : (exec (RbSession.step compareKeyNumbers) (.new none unusedNodes) removeRun).map
        (fun s => s.linked.length) = some 3 := by decide +kernel
    exact Option.map_eq_some_iff.1 h
  obtain ⟨visited, hvisit, -, hmem, -⟩ := (visitNodes_of_run isTotalPreorder_compareKeyNumbers none
    unusedNodes _ hrun hlinked.le).1
  exact ⟨s, hrun, visited, hvisit, hmem⟩

end Runs

end Tsl
