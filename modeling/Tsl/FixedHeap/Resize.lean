import Tsl.FixedHeap

set_option autoImplicit false

/-! # Resizing a heap

`fixed_heap_resize` is to leave the heap untouched where the allocation fails, and to have room for the
new capacity where it succeeds. The number of bytes it asks for is a product that wraps, and one that is
0 makes `realloc` free the array. Both happen only where the new capacity does not fit the address space
or is 0 (`resizesRight_iff`). `fixed_heap_push` looks at the capacity alone, and runs out of the array
then (`fixedHeapPush_outside`). -/

namespace Tsl

open Lib

universe u

variable {κ π : Type u}

/-- After a resize to `newMaxItems` that succeeded, the array has the bytes for as many pointers; after
    one that failed, the heap is what it was. -/
structure ResizesRight (h : FixedHeap κ π) (newMaxItems : ℕ) (r : AResult × FixedHeap κ π) : Prop where
  ok : r.1 = aOk → r.2.capacity = newMaxItems ∧ 8 * newMaxItems ≤ 8 * r.2.allocated
  error : r.1 ≠ aOk → r.2 = h

theorem noSlots_fit : 8 * 0 < 2 ^ 64 := by decide

/-- The heap after its array was freed. -/
def FixedHeap.freed (h : FixedHeap κ π) : FixedHeap κ π :=
  { h with allocated := 0, allocated_fits := noSlots_fit }

section Resize

variable {h : FixedHeap κ π} {newMaxItems : ℕ} {realloc : Bool}

/-- The bytes that are asked for are those of the slots that do not wrap away. -/
theorem resizeBytes_eq (newMaxItems : ℕ) :
    8 * newMaxItems % 2 ^ 64 = 8 * (newMaxItems % 2 ^ 61) :=
  Nat.mul_mod_mul_left 8 newMaxItems (2 ^ 61)

/-- With no bytes to ask for, the array is freed, and the call fails. -/
theorem fixedHeapResize_nothing (hmin : h.entries ≤ newMaxItems) (hzero : newMaxItems % 2 ^ 61 = 0)
    (realloc : Bool) (fresh : ℕ → π) :
    fixedHeapResize h newMaxItems realloc fresh = (aENomem, h.freed) := by
  have hbytes : 8 * newMaxItems % 2 ^ 64 = 0 := by rw [resizeBytes_eq, hzero]
  rw [fixedHeapResize, if_neg (not_not_intro hmin), if_pos hbytes]
  rfl

theorem fixedHeapResize_refused (hmin : h.entries ≤ newMaxItems) (hne : newMaxItems % 2 ^ 61 ≠ 0)
    (fresh : ℕ → π) : fixedHeapResize h newMaxItems false fresh = (aENomem, h) := by
  have hbytes : 8 * newMaxItems % 2 ^ 64 ≠ 0 := by
    rw [resizeBytes_eq]
    omega
  rw [fixedHeapResize, if_neg (not_not_intro hmin), if_neg hbytes, if_pos rfl]

/-- Where the allocation succeeds, the array has the slots that do not wrap away. -/
theorem fixedHeapResize_given (hmin : h.entries ≤ newMaxItems) (hne : newMaxItems % 2 ^ 61 ≠ 0)
    (fresh : ℕ → π) :
    ∃ h', fixedHeapResize h newMaxItems true fresh = (aOk, h') ∧ h'.capacity = newMaxItems ∧
      h'.allocated = newMaxItems % 2 ^ 61 := by
  have hbytes : 8 * newMaxItems % 2 ^ 64 ≠ 0 := by
    rw [resizeBytes_eq]
    omega
  rw [fixedHeapResize, if_neg (not_not_intro hmin), if_neg hbytes, if_neg (by decide)]
  refine ⟨_, rfl, rfl, ?_⟩
  change 8 * newMaxItems % 2 ^ 64 / 8 = newMaxItems % 2 ^ 61
  rw [resizeBytes_eq, Nat.mul_div_cancel_left _ (by decide)]

/-- With no slot of the array left behind the entries, `fixed_heap_push` writes outside of it where the
capacity says that there is room. -/
theorem fixedHeapPush_outside (hroom : h.entries < h.capacity) (hout : h.allocated ≤ h.entries)
    (w : κ) (item : π) : fixedHeapPush h w item = none := by
  have hstore : FixedHeap.store { h with entries := h.entries + 1 } h.entries item = none :=
    if_neg (Nat.not_lt.2 hout)
  rw [fixedHeapPush, if_neg (Nat.not_le.2 hroom), fixedHeapInsert, hstore]
  rfl

/-- **Resizing a heap** that has an array is right, for a number of items that is accepted, exactly if
the number is no multiple of `2 ^ 61`, such as 0, and is below `2 ^ 61` where `realloc` gives what it is
asked for. -/
theorem resizesRight_iff (harray : 0 < h.allocated) (hmin : h.entries ≤ newMaxItems)
    (realloc : Bool) (fresh : ℕ → π) :
    ResizesRight h newMaxItems (fixedHeapResize h newMaxItems realloc fresh) ↔
      newMaxItems % 2 ^ 61 ≠ 0 ∧ (realloc = true → newMaxItems < 2 ^ 61) := by
  by_cases hzero : newMaxItems % 2 ^ 61 = 0
  · -- the array is gone
    rw [fixedHeapResize_nothing hmin hzero]
    refine iff_of_false (fun hright => ?_) fun hcond => hcond.1 hzero
    have hfreed : h.freed = h := hright.error (aresultError_ne_aOk _ _)
    have hgone : h.freed.allocated = 0 := rfl
    rw [hfreed] at hgone
    omega
  cases realloc with
  | false =>
      rw [fixedHeapResize_refused hmin hzero]
      exact iff_of_true ⟨fun hok => absurd hok (aresultError_ne_aOk _ _), fun _ => rfl⟩
        ⟨hzero, fun heq => Bool.noConfusion heq⟩
  | true =>
      obtain ⟨h', hresize, hcap, halloc⟩ := fixedHeapResize_given hmin hzero fresh
      rw [hresize]
      constructor
      · intro hright
        obtain ⟨-, hroom⟩ := hright.ok rfl
        simp only [halloc] at hroom
        exact ⟨hzero, fun _ => by omega⟩
      · rintro ⟨-, hfits⟩
        have hlt := hfits rfl
        refine ⟨fun _ => ⟨hcap, ?_⟩, fun hne => absurd rfl hne⟩
        simp only [halloc]
        omega

end Resize

/-- An empty heap of one slot. -/
def oneSlot : FixedHeap Unit (Option ℕ) where
  heap := fun _ => none
  allocated := 1
  capacity := 1
  entries := 0
  compare := fun w _ _ => (0, w)
  allocated_fits := by decide

theorem resizesRight_iff_oneSlot :
    ResizesRight oneSlot 5 (fixedHeapResize oneSlot 5 true fun _ => none) ↔
      5 % 2 ^ 61 ≠ 0 ∧ (true = true → 5 < 2 ^ 61) :=
  resizesRight_iff (by decide) (by decide) true _

/-- Resized to 0, the heap has lost its array but not its capacity, and the next push writes to what was
freed. Resized to `2 ^ 61 + 1`, it is said to have that many slots, and has one. -/
theorem resize_loses_array :
    ¬ ResizesRight oneSlot 0 (fixedHeapResize oneSlot 0 true fun _ => none) ∧
    fixedHeapPush (fixedHeapResize oneSlot 0 true fun _ => none).2 () (some 1) = none ∧
    ¬ ResizesRight oneSlot (2 ^ 61 + 1) (fixedHeapResize oneSlot (2 ^ 61 + 1) true fun _ => none) ∧
    (fixedHeapResize oneSlot (2 ^ 61 + 1) true fun _ => none).1 = aOk := by
  refine ⟨fun hright => ?_, rfl, fun hright => ?_, rfl⟩
  · have hsame := congrArg FixedHeap.allocated (hright.error (by decide))
    revert hsame
    decide
  · have hroom := (hright.ok rfl).2
    revert hroom
    decide

end Tsl
