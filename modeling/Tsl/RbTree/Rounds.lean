import Tsl.Lib.Fuel
import Tsl.RbTree.Iterate

set_option autoImplicit false

/-! # How long a red-black tree takes

Every loop of `rbtree.c` goes one level down or up in each round, so none makes more rounds than the
tree is high, and one to end. `EndsWithin` says so of a whole call: each of its loops is cut off after
that many rounds, and the call still returns what it returns with any more. -/

namespace Tsl

open Lib RBTree RbTree

universe u

variable {ν κ : Type u}

/-! ## More rounds change no answer -/

section Extends

variable (compare : κ → κ → ℤ) (t : RbTree ν κ) (key : κ)

theorem rbTreeFindLoop_extends (fuel : ℕ) (node : Option ν) :
    Extends (rbTreeFindLoop compare t key fuel node)
      (rbTreeFindLoop compare t key (fuel + 1) node) := by
  induction fuel generalizing node with
  | zero =>
      cases node with
      | none => exact .refl _
      | some node => exact .of_none _
  | succ fuel ih =>
      cases node with
      | none => exact .refl _
      | some node => exact .ite _ (ih _) (.ite _ (.refl _) (ih _))

theorem findPlace_extends (fuel : ℕ) (node nodePrev : Option ν) (dir : Dir) (rightmost : Bool) :
    Extends (findPlace compare t key fuel node nodePrev dir rightmost)
      (findPlace compare t key (fuel + 1) node nodePrev dir rightmost) := by
  induction fuel generalizing node nodePrev dir rightmost with
  | zero =>
      cases node with
      | none => exact .refl _
      | some node => exact .of_none _
  | succ fuel ih =>
      cases node with
      | none => exact .refl _
      | some node => exact .ite _ (ih _ _ _ _) (.ite _ (.refl _) (ih _ _ _ _))

theorem insertPlace_extends (node : ν) (fuel : ℕ) (nd : ν) (rightmost : Bool) :
    Extends (insertPlace compare t node fuel nd rightmost)
      (insertPlace compare t node (fuel + 1) nd rightmost) := by
  induction fuel generalizing nd rightmost with
  | zero => exact .of_none _
  | succ fuel ih =>
      refine .ite _ (.refl _) (.ite _ ?_ ?_)
      · cases (t.node nd).left with
        | none => exact .refl _
        | some left => exact ih _ _
      · cases (t.node nd).right with
        | none => exact .refl _
        | some right => exact ih _ _

theorem helperRbTreeFindEnd_extends (d : Dir) (fuel : ℕ) (x : ν) :
    Extends (helperRbTreeFindEnd d t fuel x) (helperRbTreeFindEnd d t (fuel + 1) x) := by
  induction fuel generalizing x with
  | zero => exact .of_none _
  | succ fuel ih =>
      unfold helperRbTreeFindEnd
      cases (t.node x).child d with
      | none => exact .refl _
      | some next => exact ih _

variable [DecidableEq ν]

theorem climb_extends (d : Dir) (fuel : ℕ) (x : ν) :
    Extends (climb d t fuel x) (climb d t (fuel + 1) x) := by
  induction fuel generalizing x with
  | zero => exact .of_none _
  | succ fuel ih =>
      unfold climb
      cases (t.node x).parent with
      | none => exact .refl _
      | some y => exact .ite _ (ih _) (.refl _)

theorem helperRbTreeFindSuccessor_extends (fuel : ℕ) (node : ν) :
    Extends (helperRbTreeFindSuccessor fuel t node) (helperRbTreeFindSuccessor (fuel + 1) t node) := by
  unfold helperRbTreeFindSuccessor
  cases (t.node node).right with
  | none => exact climb_extends t _ _ _
  | some right => exact (helperRbTreeFindEnd_extends t _ _ _).map _

theorem helperRbTreeFindPredecessor_extends (fuel : ℕ) (node : ν) :
    Extends (helperRbTreeFindPredecessor fuel t node)
      (helperRbTreeFindPredecessor (fuel + 1) t node) := by
  unfold helperRbTreeFindPredecessor
  cases (t.node node).left with
  | none => exact climb_extends t _ _ _
  | some left => exact (helperRbTreeFindEnd_extends t _ _ _).map _

theorem insertRebalanceLoop_extends (fuel : ℕ) (pnode : ν) :
    Extends (insertRebalanceLoop fuel t pnode) (insertRebalanceLoop (fuel + 1) t pnode) := by
  induction fuel generalizing t pnode with
  | zero => exact .of_none _
  | succ fuel ih =>
      unfold insertRebalanceLoop
      cases (t.node pnode).parent with
      | none => exact .refl _
      | some parent =>
          refine .ite _ (.refl _) (.bind (.refl _) fun grandparent => .ite _ (ih _ _) ?_)
          exact .bind (.refl _) fun _ => .bind (.refl _) fun _ => ih _ _

theorem helperRbTreeInsertRebalance_extends (fuel : ℕ) (node : ν) :
    Extends (helperRbTreeInsertRebalance fuel t node)
      (helperRbTreeInsertRebalance (fuel + 1) t node) := by
  unfold helperRbTreeInsertRebalance
  cases (t.node node).parent with
  | none => exact .refl _
  | some parent =>
      exact .ite _ (.bind (insertRebalanceLoop_extends t _ _) fun _ => .refl _) (.refl _)

theorem deleteRebalanceLoop_extends (fuel : ℕ) (x xp : Option ν) (side : Dir) :
    Extends (deleteRebalanceLoop fuel t x xp side) (deleteRebalanceLoop (fuel + 1) t x xp side) := by
  induction fuel generalizing t x xp side with
  | zero => exact .of_none _
  | succ fuel ih =>
      unfold deleteRebalanceLoop
      refine .ite _ (.refl _) (.bind (.refl _) fun p => .bind (.refl _) fun _ => .ite _ (ih _ _ _ _) ?_)
      exact .bind (.refl _) fun _ => .bind (.refl _) fun _ => .bind (.refl _) fun _ => ih _ _ _ _

/-! ### The calls -/

omit [DecidableEq ν] in
theorem rbTreeFind_monotonic [DecidableEq κ] [VoidPtr κ] (value : Option ν) :
    Monotonic fun fuel => rbTreeFind compare fuel t key value := fun _ =>
  .ite _ (.refl _) (.bind (rbTreeFindLoop_extends _ _ _ _ _) fun _ => .refl _)

theorem rbTreeInsert_monotonic (node : ν) :
    Monotonic fun fuel => rbTreeInsert compare fuel t key node := by
  intro fuel
  cases hroot : (t.setKey node key).root with
  | none =>
      simp only [rbTreeInsert, hroot]
      exact .refl _
  | some root =>
      simp only [rbTreeInsert, hroot]
      refine .bind (insertPlace_extends _ _ _ _ _ _) fun place => ?_
      cases place with
      | none => exact .refl _
      | some place => exact .bind (helperRbTreeInsertRebalance_extends _ _ _) fun _ => .refl _

theorem rbTreeFindOrInsert_monotonic (newCandidate : ν) :
    Monotonic fun fuel => rbTreeFindOrInsert compare fuel t key newCandidate := by
  intro fuel
  cases hroot : (t.setKey newCandidate key).root with
  | none =>
      simp only [rbTreeFindOrInsert, hroot]
      exact .refl _
  | some root =>
      simp only [rbTreeFindOrInsert, hroot]
      refine .bind (findPlace_extends _ _ _ _ _ _ _ _) fun place => ?_
      cases place.1 with
      | some node => exact .refl _
      | none =>
          exact .bind (.refl _) fun _ =>
            .bind (helperRbTreeInsertRebalance_extends _ _ _) fun _ => .refl _

theorem removeFind_extends (fuel : ℕ) (node : ν) :
    Extends (removeFind fuel t node) (removeFind (fuel + 1) t node) :=
  .ite _ (.ite _ (.bind (helperRbTreeFindPredecessor_extends _ _ _) fun _ => .refl _) (.refl _))
    (.bind (helperRbTreeFindSuccessor_extends _ _ _) fun _ => .refl _)

theorem rbTreeRemove_monotonic (node : ν) : Monotonic fun fuel => rbTreeRemove fuel t node := by
  intro fuel
  refine .bind (removeFind_extends _ _ _) fun ⟨y, t⟩ => .ite _ (.bind ?_ fun _ => .refl _) (.refl _)
  exact deleteRebalanceLoop_extends _ _ _ _ _

theorem performWith_monotonic (s : RbSession ν κ) (call : RbCall ν κ) :
    Monotonic fun fuel => s.performWith compare fuel call := by
  intro fuel
  cases call with
  | insert key x => exact .bind (rbTreeInsert_monotonic _ _ _ _ _) fun _ => .refl _
  | findOrInsert key x => exact .bind (rbTreeFindOrInsert_monotonic _ _ _ _ _) fun _ => .refl _
  | remove x => exact .bind (rbTreeRemove_monotonic _ _ _) fun _ => .refl _

end Extends

/-! ## As many rounds as the tree is high -/

/-- No loop makes more than so many rounds, in a lookup, in a call that is allowed, and on the way to
    the ends of the tree and to the neighbours of a node. -/
structure RbSession.Prompt [DecidableEq ν] [DecidableEq κ] [VoidPtr κ] (compare : κ → κ → ℤ)
    (s : RbSession ν κ) (rounds : ℕ) : Prop where
  find : ∀ key value, EndsWithin (fun fuel => rbTreeFind compare fuel s.tree key value) rounds
  call : ∀ call, s.Allowed call → EndsWithin (fun fuel => s.performWith compare fuel call) rounds
  minimum : ∀ root, s.tree.root = some root →
    EndsWithin (fun fuel => rbTreeFindMinimum fuel s.tree root) rounds
  maximum : ∀ root, s.tree.root = some root →
    EndsWithin (fun fuel => rbTreeFindMaximum fuel s.tree root) rounds
  successor : ∀ x ∈ s.linked, EndsWithin (fun fuel => rbTreeFindSuccessor fuel s.tree x) rounds
  predecessor : ∀ x ∈ s.linked, EndsWithin (fun fuel => rbTreeFindPredecessor fuel s.tree x) rounds

section Prompt

variable {compare : κ → κ → ℤ} {s : RbSession ν κ} {T : RBTree ν} {rounds : ℕ}

theorem endsWithin_rbTreeFind [DecidableEq κ] [VoidPtr κ] (hok : Ok compare s.tree T) (key : κ)
    (value : Option ν) (hrounds : T.height ≤ rounds) :
    EndsWithin (fun fuel => rbTreeFind compare fuel s.tree key value) rounds := by
  obtain ⟨answer, hanswer⟩ : ∃ answer, rbTreeFind compare rounds s.tree key value = some answer := by
    have hloop := rbTreeFindLoop_eq compare key [] rounds hok.focused.below hrounds
    rw [← hok.focused.root_eq] at hloop
    unfold rbTreeFind
    by_cases hkey : key = VoidPtr.null
    · exact ⟨_, if_pos hkey⟩
    · rw [if_neg hkey, hloop]
      cases (descend (keyCmp compare s.tree key) [] T).2.top with
      | none => exact ⟨_, rfl⟩
      | some z => exact ⟨_, rfl⟩
  exact (rbTreeFind_monotonic compare s.tree key value).endsWithin hanswer

theorem endsWithin_rbTreeFindEnd (d : Dir) (hok : Ok compare s.tree T) {root : ν}
    (hroot : s.tree.root = some root) (hrounds : T.height ≤ rounds) :
    EndsWithin (fun fuel => rbTreeFindEnd d fuel s.tree root) rounds := by
  rw [hok.focused.root_eq] at hroot
  obtain ⟨y, hy, -⟩ := helperRbTreeFindEnd_eq (d := d) rounds hok.focused.below hroot hrounds
  have hmono : Monotonic fun fuel => rbTreeFindEnd d fuel s.tree root := fun fuel =>
    (helperRbTreeFindEnd_extends s.tree d fuel root).map _
  exact hmono.endsWithin (congrArg (Option.map _) hy)

variable [DecidableEq ν]

theorem endsWithin_neighbours (hok : Ok compare s.tree T) {x : ν} (hx : x ∈ T.items)
    (hrounds : T.height ≤ rounds) :
    EndsWithin (fun fuel => rbTreeFindSuccessor fuel s.tree x) rounds ∧
      EndsWithin (fun fuel => rbTreeFindPredecessor fuel s.tree x) rounds := by
  obtain ⟨path, c, l, r, rfl, hfocus⟩ := exists_focused_of_mem hok hx
  have hsucc : Monotonic fun fuel => rbTreeFindSuccessor fuel s.tree x := by
    intro fuel
    simp only [rbTreeFindSuccessor_eq_map]
    exact (helperRbTreeFindSuccessor_extends s.tree fuel x).map _
  have hpred : Monotonic fun fuel => rbTreeFindPredecessor fuel s.tree x := by
    intro fuel
    simp only [rbTreeFindPredecessor_eq_map]
    exact (helperRbTreeFindPredecessor_extends s.tree fuel x).map _
  refine ⟨hsucc.endsWithin (r := (aOk, (r.items ++ itemsAfter path).head?)) ?_,
    hpred.endsWithin (r := (aOk, (itemsBefore path ++ l.items).getLast?)) ?_⟩
  · simp only [rbTreeFindSuccessor_eq_map, helperRbTreeFindSuccessor_eq rounds hfocus hrounds,
      Option.map_some]
  · simp only [rbTreeFindPredecessor_eq_map, helperRbTreeFindPredecessor_eq rounds hfocus hrounds,
      Option.map_some]

theorem prompt_of_height [DecidableEq κ] [VoidPtr κ] (hcompare : IsTotalPreorder compare)
    (hok : Ok compare s.tree T) (hperm : T.items.Perm s.linked) (hrounds : T.height < rounds) :
    s.Prompt compare rounds where
  find := fun key value => endsWithin_rbTreeFind hok key value hrounds.le
  call := by
    intro call hallowed
    obtain ⟨answer, s', -, hcall, -⟩ :=
      performWith_outcome hcompare hok hperm hallowed.proper hallowed.ready hrounds
    exact (performWith_monotonic compare s call).endsWithin hcall
  minimum := fun _ hroot => endsWithin_rbTreeFindEnd .left hok hroot hrounds.le
  maximum := fun _ hroot => endsWithin_rbTreeFindEnd .right hok hroot hrounds.le
  successor := fun _ hx => (endsWithin_neighbours hok (hperm.mem_iff.2 hx) hrounds.le).1
  predecessor := fun _ hx => (endsWithin_neighbours hok (hperm.mem_iff.2 hx) hrounds.le).2

/-- **After every run of `n` nodes left no loop makes more than `2 log₂ (n + 1) + 1` rounds.** -/
theorem prompt_of_run [DecidableEq κ] [VoidPtr κ] (hcompare : IsTotalPreorder compare)
    (rightmost : Option ν) (node : ν → RbTreeNode ν κ) (calls : List (RbCall ν κ))
    (hrun : exec (RbSession.step compare) (.new rightmost node) calls = some s) :
    s.Prompt compare (2 * Nat.log 2 (s.linked.length + 1) + 1) := by
  obtain ⟨T, hok, hperm⟩ := inv_of_run hcompare hrun
  obtain ⟨n, hbal⟩ := hok.balanced
  have hheight : T.height ≤ 2 * Nat.log 2 (s.linked.length + 1) := by
    rw [← hperm.length_eq]
    exact hbal.height_le_log
  exact prompt_of_height hcompare hok hperm (Nat.lt_succ_of_le hheight)

/-- Three nodes are left, so five rounds are enough to find one. -/
theorem prompt_of_run_removeRun :
    ∃ s, exec (RbSession.step compareKeyNumbers) (.new none unusedNodes) removeRun = some s ∧
      s.Prompt compareKeyNumbers 5 := by
  obtain ⟨s, hrun, hlinked⟩ : ∃ s, exec (RbSession.step compareKeyNumbers) (.new none unusedNodes)
      removeRun = some s ∧ s.linked.length = 3 := by
    have h : (exec (RbSession.step compareKeyNumbers) (.new none unusedNodes) removeRun).map
        (fun s => s.linked.length) = some 3 := by decide +kernel
    exact Option.map_eq_some_iff.1 h
  have hprompt := prompt_of_run isTotalPreorder_compareKeyNumbers none unusedNodes _ hrun
  rw [hlinked] at hprompt
  exact ⟨s, hrun, hprompt⟩

end Prompt

end Tsl
