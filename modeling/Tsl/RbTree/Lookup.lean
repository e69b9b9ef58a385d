import Tsl.RbTree.Map

set_option autoImplicit false

/-! # Finding what was inserted

An insertion that returns `A_OK` has told its client which node of the tree has the key: the one it has
linked, or the one that `rb_tree_find_or_insert` has met. Until this node is removed `rb_tree_find`
answers it for the key, unless the key is `NULL`, which `rb_tree_find` refuses. -/

namespace Tsl

open Lib RBTree RbTree

universe u

variable {ν κ : Type u}

/-- The key of an insertion. -/
def RbCall.key : RbCall ν κ → Option κ
  | .insert key _ | .findOrInsert key _ => some key
  | .remove _ => none

/-- The node that has the key, by what an insertion returns. -/
def RbCall.holder : RbCall ν κ → AResult × Option ν → Option ν
  | .insert _ x, (result, _) => if result = aOk then some x else none
  | .findOrInsert _ _, (result, value) => if result = aOk then value else none
  | .remove _, _ => none

/-- The linked node `z` has a key equal to `key`. -/
def RbSession.Holds (compare : κ → κ → ℤ) (s : RbSession ν κ) (key : κ) (z : ν) : Prop :=
  z ∈ s.linked ∧ compare key (s.tree.node z).key = 0

section Lookup

variable [DecidableEq ν] {compare : κ → κ → ℤ} {s s' s₁ s₂ : RbSession ν κ} {call : RbCall ν κ}
  {answer : AResult × Option ν} {T T' : RBTree ν} {x z : ν} {key : κ} {fuel : ℕ}

theorem Outcome.linked_ne (h : Outcome compare s T call answer s' T') (hz : z ∈ s.linked)
    (hcall : call ≠ .remove z) : z ∈ s'.linked ∧ (s'.tree.node z).key = (s.tree.node z).key := by
  have hother : ∀ x, x ∉ s.linked → z ≠ x := fun x hx heq => hx (heq ▸ hz)
  cases h with
  | busy hx _ _ hbeside =>
      exact ⟨hz, congrArg RbTreeNode.key (hbeside.node z (hother _ hx))⟩
  | insert hx _ hadded =>
      exact ⟨List.mem_cons_of_mem _ hz, by rw [hadded.key, if_neg (hother _ hx)]⟩
  | found hx _ _ hbeside =>
      exact ⟨hz, congrArg RbTreeNode.key (hbeside.node z (hother _ hx))⟩
  | findOrInsert hx _ hadded =>
      exact ⟨List.mem_cons_of_mem _ hz, by rw [hadded.key, if_neg (hother _ hx)]⟩
  | @remove x _ _ _ hremoved =>
      have hne : z ≠ x := fun heq => hcall (by rw [heq])
      exact ⟨(List.mem_erase_of_ne hne).2 hz, hremoved.key z⟩

theorem Outcome.holds (hcompare : IsTotalPreorder compare)
    (h : Outcome compare s T call answer s' T') (hperm : T.items.Perm s.linked)
    (hkey : call.key = some key) (hholder : call.holder answer = some z) :
    s'.Holds compare key z := by
  cases h with
  | busy => cases hholder
  | insert _ _ hadded =>
      obtain rfl := Option.some.inj hkey
      obtain rfl := Option.some.inj hholder
      refine ⟨List.mem_cons_self, ?_⟩
      rw [hadded.key, if_pos rfl]
      exact hcompare.self_eq_zero _
  | @found x _ _ _ hx hz hcmp hbeside =>
      obtain rfl := Option.some.inj hkey
      obtain rfl := Option.some.inj hholder
      -- the candidate has the key too, but it is not linked
      have hlinked := hperm.mem_iff.1 hz
      refine ⟨hlinked, ?_⟩
      rw [hbeside.node _ fun heq => hx (heq ▸ hlinked)]
      exact hcmp
  | findOrInsert _ _ hadded =>
      obtain rfl := Option.some.inj hkey
      obtain rfl := Option.some.inj hholder
      refine ⟨List.mem_cons_self, ?_⟩
      rw [hadded.key, if_pos rfl]
      exact hcompare.self_eq_zero _
  | remove => cases hkey

/-- **One step** leaves a node its key until it is removed. -/
theorem holds_step (hcompare : IsTotalPreorder compare) (h : s.Inv compare)
    (hholds : s.Holds compare key z) (hstep : s.step compare call = some s')
    (hcall : call ≠ .remove z) : s'.Holds compare key z := by
  obtain ⟨T, hok, hperm⟩ := h
  obtain ⟨hallowed, answer, hperform⟩ := step_eq_some.1 hstep
  obtain ⟨T', houtcome⟩ :=
    outcome_of_perform hcompare hok hperm hallowed.proper hallowed.ready hperform
  obtain ⟨hlinked, hkey⟩ := houtcome.linked_ne hholds.1 hcall
  exact ⟨hlinked, hkey ▸ hholds.2⟩

theorem holds_of_run (hcompare : IsTotalPreorder compare) {calls : List (RbCall ν κ)}
    (h : s.Inv compare) (hholds : s.Holds compare key z)
    (hrun : exec (RbSession.step compare) s calls = some s') (hkept : .remove z ∉ calls) :
    s'.Inv compare ∧ s'.Holds compare key z := by
  induction calls generalizing s with
  | nil =>
      obtain rfl := Option.some.inj hrun
      exact ⟨h, hholds⟩
  | cons call calls ih =>
      obtain ⟨s₁, hstep, hrest⟩ := exec_cons_eq_some.1 hrun
      rw [List.mem_cons, not_or] at hkept
      exact ih (inv_step hcompare h hstep)
        (holds_step hcompare h hholds hstep fun heq => hkept.1 heq.symm) hrest hkept.2

/-- A node that has the key is found. -/
theorem rbTreeFind_of_holds [DecidableEq κ] [VoidPtr κ] (hcompare : IsTotalPreorder compare)
    (h : s.Inv compare) (hholds : s.Holds compare key z) (hkey : key ≠ VoidPtr.null)
    (value : Option ν) (hfuel : s.linked.length ≤ fuel) :
    rbTreeFind compare fuel s.tree key value = some (aOk, some z) := by
  obtain ⟨answer, hfind, hanswer⟩ := rbTreeFind_spec hcompare h hkey value hfuel
  have hz : s.keyMap z = some (s.tree.node z).key := keyMap_eq_some.2 ⟨hholds.1, rfl⟩
  rw [hfind]
  cases hanswer with
  | @found z' k' hz' hcmp =>
      -- both keys are equal to this one, so they are to each other
      have hcmp' : compare (s.tree.node z).key k' = 0 :=
        hcompare.eq_zero_of_eq_zero hholds.2 hcmp
      rw [keyMap_unique hcompare h hz hz' hcmp']
  | absent habsent => exact absurd hholds.2 (habsent z _ hz)

/-- **What was inserted is found until it is removed**, under every key that is not `NULL`. -/
theorem rbTreeFind_of_run [DecidableEq κ] [VoidPtr κ] (hcompare : IsTotalPreorder compare)
    (rightmost : Option ν) (node : ν → RbTreeNode ν κ) (before after : List (RbCall ν κ))
    (hbefore : exec (RbSession.step compare) (.new rightmost node) before = some s₁)
    (hallowed : s₁.Allowed call) (hperform : s₁.perform compare call = some (answer, s₂))
    (hkey : call.key = some key) (hholder : call.holder answer = some z)
    (hafter : exec (RbSession.step compare) s₂ after = some s) (hkept : .remove z ∉ after)
    (value : Option ν) (hfuel : s.linked.length ≤ fuel) :
    rbTreeFind compare fuel s.tree key value =
      if key = VoidPtr.null then some (aEBadargs, value) else some (aOk, some z) := by
  obtain ⟨T, hok, hperm⟩ := inv_of_run hcompare hbefore
  obtain ⟨T', houtcome⟩ :=
    outcome_of_perform hcompare hok hperm hallowed.proper hallowed.ready hperform
  obtain ⟨hinv, hholds⟩ := holds_of_run hcompare ⟨T', houtcome.ok hok hperm, houtcome.perm hperm⟩
    (houtcome.holds hcompare hperm hkey hholder) hafter hkept
  split
  · next hnull => exact if_pos hnull
  · next hnull => exact rbTreeFind_of_holds hcompare hinv hholds hnull value hfuel

theorem rbTreeFind_of_run_removeRun :
    ∃ s₁ s₂ s, exec (RbSession.step compareKeyNumbers) (.new none unusedNodes) (removeRun.take 4) =
        some s₁ ∧
      s₁.perform compareKeyNumbers (.insert (some 50) 5) = some ((aOk, none), s₂) ∧
      exec (RbSession.step compareKeyNumbers) s₂ (removeRun.drop 5) = some s ∧
      rbTreeFind compareKeyNumbers 3 s.tree (some 50) none = some (aOk, some 5) := by
  obtain ⟨s₁, hbefore⟩ : ∃ s₁, exec (RbSession.step compareKeyNumbers) (.new none unusedNodes)
      (removeRun.take 4) = some s₁ := ⟨_, rfl⟩
  have h₁ : (exec (RbSession.step compareKeyNumbers) (.new none unusedNodes) (removeRun.take 4)).any
      fun s₁ => decide (s₁.Allowed (.insert (some 50) 5) ∧
        (s₁.perform compareKeyNumbers (.insert (some 50) 5)).any fun r => r.1 = (aOk, none) ∧
          (exec (RbSession.step compareKeyNumbers) r.2 (removeRun.drop 5)).any fun s =>
            s.linked.length = 3) := by
    decide +kernel
  rw [hbefore, Option.any_some, decide_eq_true_iff] at h₁
  obtain ⟨hallowed, h₂⟩ := h₁
  obtain ⟨⟨answer, s₂⟩, hperform, h₃⟩ := (Option.any_eq_true _ _).1 h₂
  obtain ⟨rfl, h₄⟩ := of_decide_eq_true h₃
  obtain ⟨s, hafter, hlength⟩ := (Option.any_eq_true _ _).1 h₄
  exact ⟨s₁, s₂, s, hbefore, hperform, hafter, rbTreeFind_of_run isTotalPreorder_compareKeyNumbers
    none unusedNodes _ _ hbefore hallowed hperform rfl rfl hafter (by simp [removeRun]) none
    (of_decide_eq_true hlength).le⟩

/-- `NULL` can be inserted as a key, but not found. -/
theorem rbTreeFind_null :
    ∃ s, (RbSession.new none unusedNodes).perform compareKeyNumbers (.insert none 1) =
        some ((aOk, none), s) ∧
      rbTreeFind compareKeyNumbers 1 s.tree none none = some (aEBadargs, none) :=
  ⟨_, rfl, rfl⟩

end Lookup

end Tsl
