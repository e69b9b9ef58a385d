import Mathlib.Data.List.Pairwise
import Tsl.Lib.Machine
import Tsl.RbTree.Insert
import Tsl.RbTree.Remove

set_option autoImplicit false

/-! # A red-black tree in use

A tree with the calls of its clients. The clients pass nodes with `NULL` links that are not in the tree
to the insertions, and nodes that are in the tree to the removal; `linked` is the list of the nodes
they have inserted and not removed, as far as they know from what the calls return.

In every state reached the tree is a red-black tree of the linked nodes, and the calls do to it what
they would do to a map from nodes to keys. -/

namespace Tsl

open Lib RBTree RbTree

universe u

variable {ν κ : Type u}

/-- A call. -/
inductive RbCall (ν κ : Type u) where
  | insert (key : κ) (node : ν)
  | findOrInsert (key : κ) (newCandidate : ν)
  | remove (node : ν)

/-- A tree and the nodes its clients have linked. -/
structure RbSession (ν κ : Type u) where
  tree : RbTree ν κ
  linked : List ν

/-- A tree that was just created. -/
def RbSession.new (rightmost : Option ν) (node : ν → RbTreeNode ν κ) : RbSession ν κ :=
  ⟨rbTreeNewEx rightmost node, []⟩

/-- The node that a call has linked, by what it returns. -/
def RbCall.inserted [DecidableEq ν] : RbCall ν κ → AResult × Option ν → Option ν
  | .insert _ x, (result, _) => if result = aOk then some x else none
  | .findOrInsert _ x, (_, value) => if value = some x then some x else none
  | .remove _, _ => none

namespace RbSession

variable [DecidableEq ν]

/-- What clients may ask for. -/
def Allowed (s : RbSession ν κ) : RbCall ν κ → Prop
  | .insert _ x | .findOrInsert _ x =>
      x ∉ s.linked ∧ (s.tree.node x).left = none ∧ (s.tree.node x).right = none ∧
        (s.tree.node x).parent = none
  | .remove x => x ∈ s.linked

instance (s : RbSession ν κ) (call : RbCall ν κ) : Decidable (s.Allowed call) := by
  cases call <;> unfold Allowed <;> infer_instance

/-- What clients may ask for, apart from what is in the links of a node. -/
def Proper (s : RbSession ν κ) : RbCall ν κ → Prop
  | .insert _ x | .findOrInsert _ x => x ∉ s.linked
  | .remove x => x ∈ s.linked

instance (s : RbSession ν κ) (call : RbCall ν κ) : Decidable (s.Proper call) := by
  cases call <;> unfold Proper <;> infer_instance

/-- A call with what it returns: the result code, and `*value` where the call has one. There is fuel
    for one round more than there are nodes. -/
def perform (compare : κ → κ → ℤ) (s : RbSession ν κ) :
    RbCall ν κ → Option ((AResult × Option ν) × RbSession ν κ)
  | .insert key x => do
      let (result, tree) ← rbTreeInsert compare (s.linked.length + 1) s.tree key x
      some ((result, none), ⟨tree, if result = aOk then x :: s.linked else s.linked⟩)
  | .findOrInsert key x => do
      let (result, value, tree) ← rbTreeFindOrInsert compare (s.linked.length + 1) s.tree key x
      some ((result, value), ⟨tree, if value = some x then x :: s.linked else s.linked⟩)
  | .remove x => do
      let (result, tree) ← rbTreeRemove (s.linked.length + 1) s.tree x
      some ((result, none), ⟨tree, s.linked.erase x⟩)

/-- A call with fuel for so many rounds of each loop. -/
def performWith (compare : κ → κ → ℤ) (fuel : ℕ) (s : RbSession ν κ) :
    RbCall ν κ → Option ((AResult × Option ν) × RbSession ν κ)
  | .insert key x => do
      let (result, tree) ← rbTreeInsert compare fuel s.tree key x
      some ((result, none), ⟨tree, if result = aOk then x :: s.linked else s.linked⟩)
  | .findOrInsert key x => do
      let (result, value, tree) ← rbTreeFindOrInsert compare fuel s.tree key x
      some ((result, value), ⟨tree, if value = some x then x :: s.linked else s.linked⟩)
  | .remove x => do
      let (result, tree) ← rbTreeRemove fuel s.tree x
      some ((result, none), ⟨tree, s.linked.erase x⟩)

theorem perform_eq (compare : κ → κ → ℤ) (s : RbSession ν κ) (call : RbCall ν κ) :
    s.perform compare call = s.performWith compare (s.linked.length + 1) call := by
  cases call <;> rfl

/-- One step of a run; `none` if the call is not allowed. -/
def step (compare : κ → κ → ℤ) (s : RbSession ν κ) (call : RbCall ν κ) : Option (RbSession ν κ) :=
  if s.Allowed call then (s.perform compare call).map Prod.snd else none

end RbSession

/-- A node that a call may link has nothing in the links that are not written. -/
def RbSession.Ready (compare : κ → κ → ℤ) (s : RbSession ν κ) : RbCall ν κ → Prop
  | .insert key x | .findOrInsert key x =>
      (∃ z ∈ s.linked, compare key (s.tree.node z).key = 0) ∨
        (s.tree.node x).left = none ∧ (s.tree.node x).right = none ∧
          (s.linked = [] → (s.tree.node x).parent = none)
  | .remove _ => True

instance [DecidableEq ν] (compare : κ → κ → ℤ) (s : RbSession ν κ) (call : RbCall ν κ) :
    Decidable (s.Ready compare call) := by
  cases call <;> unfold RbSession.Ready <;> infer_instance

/-! ## The map -/

/-- The key each linked node has. -/
abbrev KeyMap (ν κ : Type u) : Type u := ν → Option κ

/-- No node has a key equal to `k`. -/
def KeyMap.Absent (compare : κ → κ → ℤ) (m : KeyMap ν κ) (k : κ) : Prop :=
  ∀ z k', m z = some k' → compare k k' ≠ 0

/-- What looking up a key returns. -/
inductive KeyMap.Find (compare : κ → κ → ℤ) (m : KeyMap ν κ) (k : κ) : AResult × Option ν → Prop
  | found {z : ν} {k' : κ} : m z = some k' → compare k k' = 0 → Find compare m k (aOk, some z)
  | absent : m.Absent compare k → Find compare m k (aENotfound, none)

/-- What a call returns and leaves. -/
inductive KeyMap.Step [DecidableEq ν] (compare : κ → κ → ℤ) (m : KeyMap ν κ) :
    RbCall ν κ → AResult × Option ν → KeyMap ν κ → Prop
  | busy {x z : ν} {k k' : κ} : m z = some k' → compare k k' = 0 →
      Step compare m (.insert k x) (aEBusy, none) m
  | insert {x : ν} {k : κ} : m.Absent compare k →
      Step compare m (.insert k x) (aOk, none) (Function.update m x (some k))
  | found {x z : ν} {k k' : κ} : m z = some k' → compare k k' = 0 →
      Step compare m (.findOrInsert k x) (aOk, some z) m
  | findOrInsert {x : ν} {k : κ} : m.Absent compare k →
      Step compare m (.findOrInsert k x) (aOk, some x) (Function.update m x (some k))
  | remove {x : ν} {k : κ} : m x = some k →
      Step compare m (.remove x) (aOk, none) (Function.update m x none)

/-- The map a session stands for. -/
def RbSession.keyMap [DecidableEq ν] (s : RbSession ν κ) : KeyMap ν κ :=
  fun z => if z ∈ s.linked then some (s.tree.node z).key else none

/-! ## What holds between the calls -/

/-- The tree in memory holds exactly the linked nodes. -/
def RbSession.Inv (compare : κ → κ → ℤ) (s : RbSession ν κ) : Prop :=
  ∃ T, Ok compare s.tree T ∧ T.items.Perm s.linked

section Steps

variable [DecidableEq ν] {compare : κ → κ → ℤ} {s s' : RbSession ν κ} {call : RbCall ν κ}
  {t' : RbTree ν κ} {T T' : RBTree ν} {x z : ν} {key k : κ}

omit [DecidableEq ν] in
theorem inv_new (compare : κ → κ → ℤ) (rightmost : Option ν) (node : ν → RbTreeNode ν κ) :
    (RbSession.new rightmost node).Inv compare := by
  refine ⟨.nil, ⟨⟨rfl, trivial, List.nodup_nil⟩, ⟨0, .nil⟩, List.Pairwise.nil, ?_⟩, List.Perm.refl _⟩
  exact fun h => absurd rfl h

theorem keyMap_eq_some : s.keyMap z = some k ↔ z ∈ s.linked ∧ (s.tree.node z).key = k := by
  unfold RbSession.keyMap
  split
  · next hz => simp [hz]
  · next hz => simp [hz]

theorem keyMap_of_unlinked (hx : x ∉ s.linked) (hb : Beside s.tree t' x) :
    RbSession.keyMap ⟨t', s.linked⟩ = s.keyMap := by
  funext z
  unfold RbSession.keyMap
  by_cases hz : z ∈ s.linked
  · have hne : z ≠ x := fun heq => hx (heq ▸ hz)
    simp only [if_pos hz, hb.node z hne]
  · simp only [if_neg hz]

theorem keyMap_of_added (h : Added compare s.tree t' T T' x key) :
    RbSession.keyMap ⟨t', x :: s.linked⟩ = Function.update s.keyMap x (some key) := by
  funext z
  unfold RbSession.keyMap
  by_cases hz : z = x
  · subst hz
    rw [Function.update_self, if_pos List.mem_cons_self, h.key, if_pos rfl]
  · rw [Function.update_of_ne hz, h.key, if_neg hz]
    by_cases hmem : z ∈ s.linked
    · rw [if_pos (List.mem_cons_of_mem _ hmem), if_pos hmem]
    · rw [if_neg fun hmem' => (List.mem_cons.1 hmem').elim hz hmem, if_neg hmem]

theorem keyMap_of_removed (h : Removed compare s.tree t' T T' x) (hnd : s.linked.Nodup) :
    RbSession.keyMap ⟨t', s.linked.erase x⟩ = Function.update s.keyMap x none := by
  funext z
  unfold RbSession.keyMap
  by_cases hz : z = x
  · subst hz
    rw [Function.update_self, if_neg fun hmem => (hnd.mem_erase_iff.1 hmem).1 rfl]
  · rw [Function.update_of_ne hz, h.key]
    simp only [hnd.mem_erase_iff, hz, ne_eq, not_false_eq_true, true_and]

theorem absent_iff (hperm : T.items.Perm s.linked) :
    s.keyMap.Absent compare k ↔ ∀ z ∈ T.items, compare k (s.tree.node z).key ≠ 0 := by
  constructor
  · intro h z hz
    exact h z _ (keyMap_eq_some.2 ⟨hperm.mem_iff.1 hz, rfl⟩)
  · intro h z k' hz
    obtain ⟨hmem, rfl⟩ := keyMap_eq_some.1 hz
    exact h z (hperm.mem_iff.2 hmem)

theorem Added.perm (h : Added compare s.tree t' T T' x key) (hperm : T.items.Perm s.linked) :
    T'.items.Perm (x :: s.linked) := by
  obtain ⟨xs, ys, hT, hT'⟩ := h.items
  rw [hT']
  exact List.perm_middle.trans ((hT ▸ hperm).cons x)

theorem Removed.perm (h : Removed compare s.tree t' T T' x) (hperm : T.items.Perm s.linked) :
    T'.items.Perm (s.linked.erase x) := by
  obtain ⟨xs, ys, hT, hT'⟩ := h.items
  have herase := hperm.erase x
  rw [hT] at herase
  rw [hT']
  refine List.Perm.trans ?_ herase
  have hmiddle : (xs ++ x :: ys).Perm (x :: (xs ++ ys)) := List.perm_middle
  replace hmiddle := hmiddle.erase x
  rw [List.erase_cons_head] at hmiddle
  exact hmiddle.symm

omit [DecidableEq ν] in
theorem height_lt_fuel (hperm : T.items.Perm s.linked) : T.height < s.linked.length + 1 := by
  rw [← hperm.length_eq]
  exact Nat.lt_succ_of_le T.height_le_length

theorem keyMap_of_mem (hperm : T.items.Perm s.linked) (hz : z ∈ T.items) :
    s.keyMap z = some (s.tree.node z).key :=
  keyMap_eq_some.2 ⟨hperm.mem_iff.1 hz, rfl⟩

omit [DecidableEq ν] in
/-- What clients may ask for can be done. -/
theorem RbSession.Allowed.proper (h : s.Allowed call) : s.Proper call := by
  cases call with
  | insert key x => exact h.1
  | findOrInsert key x => exact h.1
  | remove x => exact h

omit [DecidableEq ν] in
theorem RbSession.Allowed.ready (h : s.Allowed call) : s.Ready compare call := by
  cases call with
  | insert key x => exact .inr ⟨h.2.1, h.2.2.1, fun _ => h.2.2.2⟩
  | findOrInsert key x => exact .inr ⟨h.2.1, h.2.2.1, fun _ => h.2.2.2⟩
  | remove x => trivial

omit [DecidableEq ν] in
theorem linkable_of_ready (hperm : T.items.Perm s.linked)
    (hready : (∃ z ∈ s.linked, compare key (s.tree.node z).key = 0) ∨
      (s.tree.node x).left = none ∧ (s.tree.node x).right = none ∧
        (s.linked = [] → (s.tree.node x).parent = none))
    (habsent : ∀ z ∈ T.items, compare key (s.tree.node z).key ≠ 0) : Linkable s.tree T x := by
  rcases hready with ⟨z, hz, hcmp⟩ | ⟨hleft, hright, hparent⟩
  · exact absurd hcmp (habsent z (hperm.mem_iff.2 hz))
  · refine ⟨hleft, hright, fun hnil => hparent ?_⟩
    rw [hnil] at hperm
    exact hperm.nil_eq.symm

/-- What a call returns and does to the tree `T`. -/
inductive Outcome (compare : κ → κ → ℤ) (s : RbSession ν κ) (T : RBTree ν) :
    RbCall ν κ → AResult × Option ν → RbSession ν κ → RBTree ν → Prop
  | busy {x z : ν} {key : κ} {t' : RbTree ν κ} (unlinked : x ∉ s.linked) (mem : z ∈ T.items)
      (equal : compare key (s.tree.node z).key = 0) (beside : Beside s.tree t' x) :
      Outcome compare s T (.insert key x) (aEBusy, none) ⟨t', s.linked⟩ T
  | insert {x : ν} {key : κ} {t' : RbTree ν κ} {T' : RBTree ν} (unlinked : x ∉ s.linked)
      (absent : ∀ z ∈ T.items, compare key (s.tree.node z).key ≠ 0)
      (added : Added compare s.tree t' T T' x key) :
      Outcome compare s T (.insert key x) (aOk, none) ⟨t', x :: s.linked⟩ T'
  | found {x z : ν} {key : κ} {t' : RbTree ν κ} (unlinked : x ∉ s.linked) (mem : z ∈ T.items)
      (equal : compare key (s.tree.node z).key = 0) (beside : Beside s.tree t' x) :
      Outcome compare s T (.findOrInsert key x) (aOk, some z) ⟨t', s.linked⟩ T
  | findOrInsert {x : ν} {key : κ} {t' : RbTree ν κ} {T' : RBTree ν} (unlinked : x ∉ s.linked)
      (absent : ∀ z ∈ T.items, compare key (s.tree.node z).key ≠ 0)
      (added : Added compare s.tree t' T T' x key) :
      Outcome compare s T (.findOrInsert key x) (aOk, some x) ⟨t', x :: s.linked⟩ T'
  | remove {x : ν} {t' : RbTree ν κ} {T' : RBTree ν} (mem : x ∈ T.items)
      (removed : Removed compare s.tree t' T T' x) :
      Outcome compare s T (.remove x) (aOk, none) ⟨t', s.linked.erase x⟩ T'

/-- **One call** returns, if there is fuel for one round more than the tree is high. -/
theorem performWith_outcome (hcompare : IsTotalPreorder compare) (hok : Ok compare s.tree T)
    (hperm : T.items.Perm s.linked) (hproper : s.Proper call) (hready : s.Ready compare call)
    {fuel : ℕ} (hfuel : T.height < fuel) :
    ∃ answer s' T', s.performWith compare fuel call = some (answer, s') ∧
      Outcome compare s T call answer s' T' := by
  cases call with
  | insert key x =>
      have hx : x ∉ T.items := fun hmem => hproper (hperm.mem_iff.1 hmem)
      rcases rbTreeInsert_spec hcompare hok hx key (linkable_of_ready hperm hready) hfuel with
        ⟨z, hz, hcmp, hrun⟩ | ⟨hcmp, t', T', hrun, hadded⟩
      · refine ⟨_, _, T, ?_, .busy hproper hz hcmp
          ((beside_setKey s.tree x key).trans (beside_setColor _ x colorRed))⟩
        simp only [RbSession.performWith, hrun, Option.bind_eq_bind, Option.bind_some]
        rfl
      · refine ⟨_, _, T', ?_, .insert hproper hcmp hadded⟩
        simp only [RbSession.performWith, hrun, Option.bind_eq_bind, Option.bind_some, if_true]
  | findOrInsert key x =>
      have hx : x ∉ T.items := fun hmem => hproper (hperm.mem_iff.1 hmem)
      rcases rbTreeFindOrInsert_spec hcompare hok hx key (linkable_of_ready hperm hready) hfuel with
        ⟨z, hz, hcmp, hrun⟩ | ⟨hcmp, t', T', hrun, hadded⟩
      · have hzx : ¬ some z = some x := by
          intro heq
          obtain rfl := Option.some.inj heq
          exact hx hz
        refine ⟨_, _, T, ?_, .found hproper hz hcmp (beside_setKey s.tree x key)⟩
        simp only [RbSession.performWith, hrun, Option.bind_eq_bind, Option.bind_some, if_neg hzx]
      · refine ⟨_, _, T', ?_, .findOrInsert hproper hcmp hadded⟩
        simp only [RbSession.performWith, hrun, Option.bind_eq_bind, Option.bind_some, if_true]
  | remove x =>
      have hx : x ∈ T.items := hperm.mem_iff.2 hproper
      obtain ⟨t', T', hrun, hremoved⟩ := rbTreeRemove_spec hok hx hfuel
      refine ⟨_, _, T', ?_, .remove hx hremoved⟩
      simp only [RbSession.performWith, hrun, Option.bind_eq_bind, Option.bind_some]

theorem perform_outcome (hcompare : IsTotalPreorder compare) (hok : Ok compare s.tree T)
    (hperm : T.items.Perm s.linked) (hproper : s.Proper call) (hready : s.Ready compare call) :
    ∃ answer s' T', s.perform compare call = some (answer, s') ∧
      Outcome compare s T call answer s' T' := by
  rw [RbSession.perform_eq]
  exact performWith_outcome hcompare hok hperm hproper hready (height_lt_fuel hperm)

variable {answer : AResult × Option ν}

theorem Outcome.ok (h : Outcome compare s T call answer s' T') (hok : Ok compare s.tree T)
    (hperm : T.items.Perm s.linked) : Ok compare s'.tree T' := by
  cases h with
  | busy hx _ _ hbeside => exact hbeside.ok hok fun hmem => hx (hperm.mem_iff.1 hmem)
  | insert _ _ hadded => exact hadded.ok
  | found hx _ _ hbeside => exact hbeside.ok hok fun hmem => hx (hperm.mem_iff.1 hmem)
  | findOrInsert _ _ hadded => exact hadded.ok
  | remove _ hremoved => exact hremoved.ok

theorem Outcome.perm (h : Outcome compare s T call answer s' T') (hperm : T.items.Perm s.linked) :
    T'.items.Perm s'.linked := by
  cases h with
  | busy => exact hperm
  | insert _ _ hadded => exact hadded.perm hperm
  | found => exact hperm
  | findOrInsert _ _ hadded => exact hadded.perm hperm
  | remove _ hremoved => exact hremoved.perm hperm

/-- A call does what it would do to the map. -/
theorem Outcome.step (h : Outcome compare s T call answer s' T') (hok : Ok compare s.tree T)
    (hperm : T.items.Perm s.linked) : s.keyMap.Step compare call answer s'.keyMap := by
  cases h with
  | busy hx hz hcmp hbeside =>
      rw [keyMap_of_unlinked hx hbeside]
      exact .busy (keyMap_of_mem hperm hz) hcmp
  | insert _ hcmp hadded =>
      rw [keyMap_of_added hadded]
      exact .insert ((absent_iff hperm).2 hcmp)
  | found hx hz hcmp hbeside =>
      rw [keyMap_of_unlinked hx hbeside]
      exact .found (keyMap_of_mem hperm hz) hcmp
  | findOrInsert _ hcmp hadded =>
      rw [keyMap_of_added hadded]
      exact .findOrInsert ((absent_iff hperm).2 hcmp)
  | remove hx hremoved =>
      rw [keyMap_of_removed hremoved (hperm.nodup_iff.1 hok.focused.nodup_items)]
      exact .remove (keyMap_of_mem hperm hx)

theorem outcome_of_perform (hcompare : IsTotalPreorder compare) (hok : Ok compare s.tree T)
    (hperm : T.items.Perm s.linked) (hproper : s.Proper call) (hready : s.Ready compare call)
    (hperform : s.perform compare call = some (answer, s')) :
    ∃ T', Outcome compare s T call answer s' T' := by
  obtain ⟨answer', s'', T', hperform', houtcome⟩ :=
    perform_outcome hcompare hok hperm hproper hready
  rw [hperform, Option.some.injEq, Prod.mk.injEq] at hperform'
  obtain ⟨rfl, rfl⟩ := hperform'
  exact ⟨T', houtcome⟩

theorem Outcome.of_inserted (h : Outcome compare s T call answer s' T')
    (hperm : T.items.Perm s.linked) (hinserted : call.inserted answer = some x) :
    ∃ key, (call = .insert key x ∨ call = .findOrInsert key x) ∧
      Added compare s.tree s'.tree T T' x key ∧ s'.linked = x :: s.linked := by
  cases h with
  | busy => cases hinserted
  | @insert _ key _ _ hx hcmp hadded =>
      obtain rfl := Option.some.inj hinserted
      exact ⟨key, .inl rfl, hadded, rfl⟩
  | @found w z _ _ hx hz _ _ =>
      have hne : ¬ some z = some w := by
        intro heq
        exact hx (hperm.mem_iff.1 (Option.some.inj heq ▸ hz))
      rw [RbCall.inserted, if_neg hne] at hinserted
      cases hinserted
  | @findOrInsert w key _ _ hx hcmp hadded =>
      rw [RbCall.inserted, if_pos rfl] at hinserted
      obtain rfl := Option.some.inj hinserted
      exact ⟨key, .inr rfl, hadded, rfl⟩
  | remove => cases hinserted

theorem step_eq_some : s.step compare call = some s' ↔
    s.Allowed call ∧ ∃ answer, s.perform compare call = some (answer, s') := by
  unfold RbSession.step
  split
  · next hallowed => simp [hallowed]
  · next hallowed => simp [hallowed]

/-- A call returns, does what it would do to the map, and keeps the tree. -/
def Performs (compare : κ → κ → ℤ) (s : RbSession ν κ) (call : RbCall ν κ) : Prop :=
  ∃ result s', s.perform compare call = some (result, s') ∧
    s.keyMap.Step compare call result s'.keyMap ∧ s'.Inv compare

/-- **One call** returns, does what it would do to the map, and keeps the tree. -/
theorem perform_spec (hcompare : IsTotalPreorder compare) (h : s.Inv compare)
    (hproper : s.Proper call) (hready : s.Ready compare call) : Performs compare s call := by
  obtain ⟨T, hok, hperm⟩ := h
  obtain ⟨answer, s', T', hperform, houtcome⟩ := perform_outcome hcompare hok hperm hproper hready
  exact ⟨answer, s', hperform, houtcome.step hok hperm, T', houtcome.ok hok hperm,
    houtcome.perm hperm⟩

/-- **One step** keeps the tree. -/
theorem inv_step (hcompare : IsTotalPreorder compare) (h : s.Inv compare)
    (hstep : s.step compare call = some s') : s'.Inv compare := by
  obtain ⟨hallowed, answer, hperform⟩ := step_eq_some.1 hstep
  obtain ⟨T, hok, hperm⟩ := h
  obtain ⟨T', houtcome⟩ :=
    outcome_of_perform hcompare hok hperm hallowed.proper hallowed.ready hperform
  exact ⟨T', houtcome.ok hok hperm, houtcome.perm hperm⟩

/-- **One run** keeps the tree. -/
theorem inv_of_run (hcompare : IsTotalPreorder compare) {rightmost : Option ν}
    {node : ν → RbTreeNode ν κ} {calls : List (RbCall ν κ)}
    (hrun : exec (RbSession.step compare) (.new rightmost node) calls = some s) : s.Inv compare :=
  exec_invariant (fun _ _ _ h hstep => inv_step hcompare h hstep) (inv_new compare rightmost node) hrun

end Steps

/-! ## The invariants of a red-black tree -/

/-- The nodes `linked` form the red-black tree `T` in memory. -/
structure IsRedBlackTree (compare : κ → κ → ℤ) (t : RbTree ν κ) (linked : List ν) (T : RBTree ν) :
    Prop where
  root : t.root = T.top
  /-- Every child's parent pointer is its parent, and the one of the root is `NULL`. -/
  reads : Reads t.node T none
  searchOrder : SearchOrder compare t T.items
  black : T.color = .black
  noRedRed : T.NoRedRed
  blackCounts : ∃ n, ∀ k ∈ T.blackCounts, k = n
  nodup : T.items.Nodup
  mem_iff : ∀ z, z ∈ T.items ↔ z ∈ linked
  height : T.height ≤ 2 * Nat.log 2 (linked.length + 1)

/-- Numbers as keys, with `NULL` below them all. -/
def keyNumber (k : Option ℕ) : ℤ := k.elim (-1) Int.ofNat

def compareKeyNumbers (a b : Option ℕ) : ℤ := keyNumber a - keyNumber b

theorem isTotalPreorder_compareKeyNumbers : IsTotalPreorder compareKeyNumbers where
  swap := by
    intro a b
    unfold compareKeyNumbers
    omega
  trans := by
    intro a b c
    unfold compareKeyNumbers
    omega

/-- Nodes that were not used before. -/
def unusedNodes : ℕ → RbTreeNode ℕ (Option ℕ) := fun _ => ⟨none, none, none, none, colorBlack⟩

section Runs

variable [DecidableEq ν] {compare : κ → κ → ℤ} {s : RbSession ν κ}

omit [DecidableEq ν] in
theorem RbSession.Inv.isRedBlackTree (h : s.Inv compare) :
    ∃ T, IsRedBlackTree compare s.tree s.linked T := by
  obtain ⟨T, hok, hperm⟩ := h
  obtain ⟨n, hbal⟩ := hok.balanced
  have hheight := hbal.height_le_log
  rw [hperm.length_eq] at hheight
  exact ⟨T, hok.focused.root_eq, hok.focused.below, hok.ordered, hbal.color_eq, hbal.noRedRed,
    ⟨n, hbal.blackCounts⟩, hok.focused.nodup_items, fun z => hperm.mem_iff, hheight⟩

/-- **After every run the linked nodes form a red-black tree**, and every call that is allowed then
returns. -/
theorem isRedBlackTree_of_run (hcompare : IsTotalPreorder compare) (rightmost : Option ν)
    (node : ν → RbTreeNode ν κ) (calls : List (RbCall ν κ))
    (hrun : exec (RbSession.step compare) (.new rightmost node) calls = some s) :
    (∃ T, IsRedBlackTree compare s.tree s.linked T) ∧
      ∀ call, s.Allowed call → ∃ s', s.step compare call = some s' := by
  have hinv := inv_of_run hcompare hrun
  refine ⟨hinv.isRedBlackTree, fun call hallowed => ?_⟩
  obtain ⟨result, s', hperform, -, -⟩ := perform_spec hcompare hinv hallowed.proper hallowed.ready
  exact ⟨s', by rw [RbSession.step, if_pos hallowed, hperform, Option.map_some]⟩

/-- A run that removes the root of a full tree, and then a leaf. -/
def removeRun : List (RbCall ℕ (Option ℕ)) :=
  [.insert (some 40) 4, .insert (some 20) 2, .insert (some 60) 6, .findOrInsert (some 10) 1,
    .insert (some 50) 5, .insert (some 10) 3, .remove 4, .remove 2]

theorem isRedBlackTree_of_run_removeRun :
    ∃ s, exec (RbSession.step compareKeyNumbers) (.new none unusedNodes) removeRun = some s ∧
      ∃ T, IsRedBlackTree compareKeyNumbers s.tree s.linked T := by
  obtain ⟨s, hrun⟩ := Option.isSome_iff_exists.1 (show (exec (RbSession.step compareKeyNumbers)
    (.new none unusedNodes) removeRun).isSome by decide +kernel)
  exact ⟨s, hrun, (isRedBlackTree_of_run isTotalPreorder_compareKeyNumbers none unusedNodes _ hrun).1⟩

/-! ## The tree as a map -/

/-- A session works like its map. -/
structure RefinesMap [DecidableEq κ] [VoidPtr κ] (compare : κ → κ → ℤ) (s : RbSession ν κ) :
    Prop where
  unique : ∀ z z' k k', s.keyMap z = some k → s.keyMap z' = some k' → compare k k' = 0 → z = z'
  find : ∀ key value fuel, key ≠ VoidPtr.null → s.linked.length ≤ fuel →
    ∃ answer, rbTreeFind compare fuel s.tree key value = some answer ∧
      s.keyMap.Find compare key answer
  own : ∀ z k value fuel, s.keyMap z = some k → k ≠ VoidPtr.null → s.linked.length ≤ fuel →
    rbTreeFind compare fuel s.tree k value = some (aOk, some z)
  call : ∀ call, s.Allowed call → ∃ answer s', s.perform compare call = some (answer, s') ∧
    s.keyMap.Step compare call answer s'.keyMap

theorem keyMap_unique (hcompare : IsTotalPreorder compare) (h : s.Inv compare) {z z' : ν}
    {k k' : κ} (hz : s.keyMap z = some k) (hz' : s.keyMap z' = some k') (hcmp : compare k k' = 0) :
    z = z' := by
  obtain ⟨T, hok, hperm⟩ := h
  obtain ⟨hmem, rfl⟩ := keyMap_eq_some.1 hz
  obtain ⟨hmem', rfl⟩ := keyMap_eq_some.1 hz'
  by_contra hne
  have hapart : T.items.Pairwise fun a b =>
      compare (s.tree.node a).key (s.tree.node b).key ≠ 0 ∧
        compare (s.tree.node b).key (s.tree.node a).key ≠ 0 := by
    refine hok.ordered.imp fun hab => ⟨hab.ne, ?_⟩
    exact ((hcompare.swap _ _).1 hab).ne'
  have : Std.Symm fun a b => compare (s.tree.node a).key (s.tree.node b).key ≠ 0 ∧
      compare (s.tree.node b).key (s.tree.node a).key ≠ 0 := ⟨fun _ _ hab => hab.symm⟩
  exact (hapart.forall (hperm.mem_iff.2 hmem) (hperm.mem_iff.2 hmem') hne).1 hcmp

/-- **`rb_tree_find`** looks the key up in the map. -/
theorem rbTreeFind_spec [DecidableEq κ] [VoidPtr κ] (hcompare : IsTotalPreorder compare)
    (h : s.Inv compare) {key : κ} (hkey : key ≠ VoidPtr.null) (value : Option ν) {fuel : ℕ}
    (hfuel : s.linked.length ≤ fuel) :
    ∃ answer, rbTreeFind compare fuel s.tree key value = some answer ∧
      s.keyMap.Find compare key answer := by
  obtain ⟨T, hok, hperm⟩ := h
  rw [← hperm.length_eq] at hfuel
  have hloop := rbTreeFindLoop_eq compare key [] fuel hok.focused.below
    (T.height_le_length.trans hfuel)
  rw [← hok.focused.root_eq] at hloop
  have hcut := hok.ordered.cut hcompare key
  cases hfound : (descend (keyCmp compare s.tree key) [] T).2.top with
  | none =>
      have hne : ∀ z ∈ T.items, keyCmp compare s.tree key z ≠ 0 :=
        fun z hz => cmp_ne_of_descend hcut hfound hz
      refine ⟨(aENotfound, none), ?_, .absent ((absent_iff hperm).2 hne)⟩
      rw [rbTreeFind, if_neg hkey, hloop, hfound]
      rfl
  | some z =>
      have hz : z ∈ s.linked := hperm.mem_iff.1 (mem_of_descend hfound)
      have hcmp : keyCmp compare s.tree key z = 0 := cmp_descend hfound
      refine ⟨(aOk, some z), ?_, .found (keyMap_eq_some.2 ⟨hz, rfl⟩) hcmp⟩
      rw [rbTreeFind, if_neg hkey, hloop, hfound]
      rfl

/-- **After every run the tree refines a finite map** from keys to nodes. -/
theorem refinesMap_of_run [DecidableEq κ] [VoidPtr κ] (hcompare : IsTotalPreorder compare)
    (rightmost : Option ν) (node : ν → RbTreeNode ν κ) (calls : List (RbCall ν κ))
    (hrun : exec (RbSession.step compare) (.new rightmost node) calls = some s) :
    RefinesMap compare s := by
  have hinv := inv_of_run hcompare hrun
  refine ⟨fun z z' k k' => keyMap_unique hcompare hinv, fun key value fuel hkey hfuel =>
    rbTreeFind_spec hcompare hinv hkey value hfuel, fun z k value fuel hz hk hfuel => ?_,
    fun call hallowed => ?_⟩
  · obtain ⟨answer, hfind, hanswer⟩ := rbTreeFind_spec hcompare hinv hk value hfuel
    rw [hfind]
    have hrefl : compare k k = 0 := hcompare.self_eq_zero k
    cases hanswer with
    | found hz' hcmp => rw [keyMap_unique hcompare hinv hz hz' hcmp]
    | absent habsent => exact absurd hrefl (habsent z k hz)
  · obtain ⟨answer, s', hperform, hstep, -⟩ := perform_spec hcompare hinv hallowed.proper hallowed.ready
    exact ⟨answer, s', hperform, hstep⟩

theorem refinesMap_of_run_removeRun :
    ∃ s, exec (RbSession.step compareKeyNumbers) (.new none unusedNodes) removeRun = some s ∧
      rbTreeFind compareKeyNumbers 3 s.tree (some 50) none = some (aOk, some 5) := by
  obtain ⟨s, hrun, hlinked, hkey⟩ : ∃ s, exec (RbSession.step compareKeyNumbers) (.new none unusedNodes)
      removeRun = some s ∧ s.linked.length = 3 ∧ s.keyMap 5 = some (some 50) := by
    have h : (exec (RbSession.step compareKeyNumbers) (.new none unusedNodes) removeRun).map
        (fun s => (s.linked.length, s.keyMap 5)) = some (3, some (some 50)) := by decide +kernel
    obtain ⟨s, hrun, hs⟩ := Option.map_eq_some_iff.1 h
    exact ⟨s, hrun, congrArg Prod.fst hs, congrArg Prod.snd hs⟩
  exact ⟨s, hrun, (refinesMap_of_run isTotalPreorder_compareKeyNumbers none unusedNodes _ hrun).own 5 _
    none 3 hkey (by decide) hlinked.le⟩

end Runs

end Tsl
