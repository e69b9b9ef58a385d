import Mathlib.Data.Int.Notation
import Mathlib.Data.Nat.Notation

set_option autoImplicit false

/-! # Comparison callbacks

A C comparison function answers an integer whose sign says how its arguments compare.
`IsTotalPreorder` says that the signs come from a total preorder, where different values may compare
equal. Orders are kept as relations, because a callback that reads memory need not be a function of its
two arguments. -/

namespace Tsl.Lib

variable {α : Type*}

/-- A pointer type with a `NULL`, such as the one of the arguments of a callback. -/
class VoidPtr (π : Type*) where
  null : π

instance {ν : Type*} : VoidPtr (Option ν) := ⟨none⟩

/-- A number that is passed as a pointer. -/
instance {w : ℕ} : VoidPtr (BitVec w) := ⟨0#w⟩

/-- A total preorder. -/
structure TotalPreorder (le : α → α → Prop) : Prop where
  trans : ∀ {a b c}, le a b → le b c → le a c
  total : ∀ a b, le a b ∨ le b a

theorem TotalPreorder.refl {le : α → α → Prop} (h : TotalPreorder le) (a : α) : le a a :=
  (h.total a a).elim id id

theorem TotalPreorder.le_of_not_le {le : α → α → Prop} (h : TotalPreorder le) {a b : α}
    (hab : ¬ le a b) : le b a :=
  (h.total a b).resolve_left hab

/-- The callback `cmp` answers like a total preorder: turning its arguments around turns its sign
    around, and being at most is transitive. -/
structure IsTotalPreorder (cmp : α → α → ℤ) : Prop where
  swap : ∀ a b, cmp a b < 0 ↔ 0 < cmp b a
  trans : ∀ {a b c}, cmp a b ≤ 0 → cmp b c ≤ 0 → cmp a c ≤ 0

namespace IsTotalPreorder

variable {cmp : α → α → ℤ}

theorem totalPreorder (h : IsTotalPreorder cmp) : TotalPreorder fun a b => cmp a b ≤ 0 where
  trans := h.trans
  total := by
    intro a b
    by_cases hab : cmp a b ≤ 0
    · exact .inl hab
    · have := (h.swap b a).2 (by omega)
      exact .inr (by omega)

theorem neg_iff (h : IsTotalPreorder cmp) (a b : α) : cmp a b < 0 ↔ ¬ cmp b a ≤ 0 := by
  rw [h.swap a b]
  omega

theorem lt_of_le_of_lt (h : IsTotalPreorder cmp) {a b c : α} (hab : cmp a b ≤ 0)
    (hbc : cmp b c < 0) : cmp a c < 0 := by
  rw [h.neg_iff] at hbc ⊢
  exact fun hca => hbc (h.trans hca hab)

theorem lt_of_lt_of_le (h : IsTotalPreorder cmp) {a b c : α} (hab : cmp a b < 0)
    (hbc : cmp b c ≤ 0) : cmp a c < 0 := by
  rw [h.neg_iff] at hab ⊢
  exact fun hca => hab (h.trans hbc hca)

theorem self_eq_zero (h : IsTotalPreorder cmp) (a : α) : cmp a a = 0 := by
  have hswap := h.swap a a
  omega

theorem eq_zero_iff (h : IsTotalPreorder cmp) (a b : α) :
    cmp a b = 0 ↔ cmp a b ≤ 0 ∧ cmp b a ≤ 0 := by
  have hswap := h.swap a b
  omega

/-- What is equal to one value is equal to another. -/
theorem eq_zero_of_eq_zero (h : IsTotalPreorder cmp) {a b c : α} (hab : cmp a b = 0)
    (hac : cmp a c = 0) : cmp b c = 0 := by
  rw [h.eq_zero_iff] at hab hac ⊢
  exact ⟨h.trans hab.2 hac.1, h.trans hac.2 hab.1⟩

end IsTotalPreorder

end Tsl.Lib
