import Mathlib.Logic.Function.Basic
import Tsl.Lib.LinkedRing

set_option autoImplicit false

/-! # A lazily extended free list

A pool of `n` items whose free items are linked through the items themselves: the word at a free
item is a pointer to the next one. Items that were never handed out need not be linked one by one.
The first of them carries a mark instead of a link, and stands for all items from there on; only when
the mark is found is the link written and the mark moved on by one item.

`FreeChain addr null mark n words start is` says that the chain from `start` goes through the items
`is`, in this order. -/

namespace Tsl.Lib

variable {α : Type*}

/-- The free items from `start` on; `addr i` is where item `i` is. -/
inductive FreeChain (addr : ℕ → α) (null mark : α) (n : ℕ) (words : α → α) : α → List ℕ → Prop
  /-- Nothing is free. -/
  | nil : FreeChain addr null mark n words null []
  /-- All items from `i` on are free, and none of them was ever handed out. -/
  | virgin {i : ℕ} (hi : i < n) (hmark : words (addr i) = mark) :
      FreeChain addr null mark n words (addr i) (List.range' i (n - i))
  /-- Item `i` was given back, when `start` was the first free one. -/
  | returned {i : ℕ} {start : α} {rest : List ℕ} (hlink : words (addr i) = start)
      (hrest : FreeChain addr null mark n words start rest) :
      FreeChain addr null mark n words (addr i) (i :: rest)

section Chains

variable {addr : ℕ → α} {null mark start : α} {n i : ℕ} {words words' : α → α} {rest is : List ℕ}

/-- Only the words of free items matter. -/
theorem FreeChain.congr (h : FreeChain addr null mark n words start is)
    (hwords : ∀ i ∈ is, words' (addr i) = words (addr i)) :
    FreeChain addr null mark n words' start is := by
  induction h with
  | nil => exact .nil
  | virgin hi hmark =>
      refine .virgin hi ((hwords _ ?_).trans hmark)
      rw [range'_eq_cons hi]
      exact List.mem_cons_self
  | returned hlink _ ih =>
      refine .returned ((hwords _ List.mem_cons_self).trans hlink) (ih fun j hj => ?_)
      exact hwords j (List.mem_cons_of_mem _ hj)

theorem FreeChain.start_eq (h : FreeChain addr null mark n words start is) :
    start = (is.head?.map addr).getD null := by
  cases h with
  | nil => rfl
  | virgin hi _ =>
      rw [range'_eq_cons hi]
      rfl
  | returned _ _ => rfl

/-- **Giving back**: item `i` is linked in front. -/
theorem FreeChain.push [DecidableEq α] (h : FreeChain addr null mark n words start is)
    (hi : ∀ j ∈ is, addr j ≠ addr i) :
    FreeChain addr null mark n (Function.update words (addr i) start) (addr i) (i :: is) := by
  refine .returned (Function.update_self _ _ _) (h.congr fun j hj => ?_)
  exact Function.update_of_ne (hi j hj) _ _

/-- **Taking**: either the first item carries the mark, and the rest was never handed out, or its
word is where the rest starts. -/
theorem FreeChain.take (h : FreeChain addr null mark n words start (i :: rest))
    (hnull : null ≠ mark) (haddr : ∀ j, addr j ≠ mark) :
    (words (addr i) = mark ∧ i < n ∧ rest = List.range' (i + 1) (n - (i + 1))) ∨
      (words (addr i) ≠ mark ∧ FreeChain addr null mark n words (words (addr i)) rest) := by
  generalize his : i :: rest = is at h
  cases h with
  | nil => cases his
  | virgin hi hmark =>
      rw [range'_eq_cons hi] at his
      obtain ⟨rfl, rfl⟩ := List.cons.inj his
      exact .inl ⟨hmark, hi, rfl⟩
  | returned hlink hrest =>
      obtain ⟨rfl, rfl⟩ := List.cons.inj his
      refine .inr ⟨?_, hlink ▸ hrest⟩
      rw [hlink, hrest.start_eq]
      cases rest with
      | nil => exact hnull
      | cons j _ => exact haddr j

end Chains

end Tsl.Lib
