import Mathlib.Tactic.ByContra
import Tsl.Megaqueue.Segment

set_option autoImplicit false

/-! # The slots of a megaqueue that was just created

`megaqueue_open` sizes the region with the object size and count it is given; the sum is a `size_t` and
can wrap. The handle has both as `uint32_t` fields, and the slots are where those say. `slotsFit_iff` says
when they lie apart and inside the region all the same, and `slotsFit_fails` is a queue without any. -/

namespace Tsl

open Lib

/-- The byte is one of the object in the slot with this offset. -/
def MegaqueueHandle.InSlot (queue : MegaqueueHandle) (objSize offset byte : ℕ) : Prop :=
  queue.slotAt offset ≤ byte ∧ byte < queue.slotAt offset + objSize

/-- The handle has slots, and they hold objects of the requested size: apart from each other and
    inside the region. -/
structure SlotsFit (queue : MegaqueueHandle) (objSize : ℕ) : Prop where
  count_ne_zero : queue.objectCount ≠ 0
  apart : ∀ i j byte, i < queue.objectCount → j < queue.objectCount → i ≠ j →
    queue.InSlot objSize i byte → ¬ queue.InSlot objSize j byte
  inside : ∀ i byte, i < queue.objectCount → queue.InSlot objSize i byte → byte < queue.regionSize

variable {page : PageSize} {sys : Sys} {mode : OpenMode} {objSize objCount : ℕ}
  {prior : Option Segment} {queue : MegaqueueHandle} {seg : Segment}

theorem slotAt_openedHandle {size i : ℕ}
    (hi : i < (openedHandle page mode objSize objCount size).objectCount) :
    (openedHandle page mode objSize objCount size).slotAt i =
      page.bytes + objSize % 2 ^ 32 * i := by
  have hsize : objSize % 2 ^ 32 < 2 ^ 32 := Nat.mod_lt _ (by decide)
  have hcount : i < 2 ^ 32 := Nat.lt_trans hi (Nat.mod_lt _ (by decide))
  have hoffset : objSize % 2 ^ 32 * i < 2 ^ 32 * 2 ^ 32 := Nat.mul_lt_mul'' hsize hcount
  exact congrArg (page.bytes + ·) (Nat.mod_eq_of_lt hoffset)

theorem queueSize_pos (hcreat : mode.creat = true)
    (hopen : megaqueueOpen page sys mode objSize objCount prior = (.opened queue, some seg)) :
    0 < queueSize page objSize objCount := by
  obtain ⟨carried, cut, -, -, hmap, -, -⟩ := granted_of_opened hcreat hopen
  simp only [mmapSucceeds, decide_eq_true_eq] at hmap
  exact hmap.2.2

theorem whole_of_slotsFit {size : ℕ}
    (hfit : SlotsFit (openedHandle page mode objSize objCount size) objSize) :
    objSize < 2 ^ 32 ∨ objCount % 2 ^ 32 = 1 := by
  by_contra hnot
  rw [not_or, Nat.not_lt] at hnot
  obtain ⟨hlarge, hone⟩ := hnot
  have hne : objCount % 2 ^ 32 ≠ 0 := hfit.count_ne_zero
  have hfirst : 0 < objCount % 2 ^ 32 := Nat.pos_of_ne_zero hne
  have hsecond : 1 < objCount % 2 ^ 32 := by omega
  have hstride : objSize % 2 ^ 32 < objSize :=
    Nat.lt_of_lt_of_le (Nat.mod_lt _ (by decide)) hlarge
  -- The byte the second slot starts with is one of the first slot's object.
  refine hfit.apart 0 1 (page.bytes + objSize % 2 ^ 32) hfirst hsecond (by decide) ?_ ?_
  · rw [MegaqueueHandle.InSlot, slotAt_openedHandle hfirst]
    omega
  · rw [MegaqueueHandle.InSlot, slotAt_openedHandle hsecond]
    omega

theorem slotAt_of_whole {size i : ℕ} (hwhole : objSize < 2 ^ 32 ∨ objCount % 2 ^ 32 = 1)
    (hi : i < (openedHandle page mode objSize objCount size).objectCount) :
    (openedHandle page mode objSize objCount size).slotAt i = page.bytes + objSize * i := by
  rw [slotAt_openedHandle hi]
  rcases hwhole with hsmall | hone
  · rw [Nat.mod_eq_of_lt hsmall]
  · have hcount : i < objCount % 2 ^ 32 := hi
    obtain rfl : i = 0 := by omega
    simp only [Nat.mul_zero]

/-- The slots fit exactly when they are as far apart as objects are large, and the last one ends
    inside the region. -/
theorem slotsFit_openedHandle_iff {size : ℕ} (hempty : objSize = 0 → page.bytes ≤ size) :
    SlotsFit (openedHandle page mode objSize objCount size) objSize ↔
      objCount % 2 ^ 32 ≠ 0 ∧ (objSize < 2 ^ 32 ∨ objCount % 2 ^ 32 = 1) ∧
        objSize * (objCount % 2 ^ 32) + page.bytes ≤ size := by
  constructor
  · intro hfit
    have hwhole := whole_of_slotsFit hfit
    have hne : objCount % 2 ^ 32 ≠ 0 := hfit.count_ne_zero
    refine ⟨hne, hwhole, ?_⟩
    rcases Nat.eq_zero_or_pos objSize with rfl | hpos
    · rw [Nat.zero_mul, Nat.zero_add]
      exact hempty rfl
    · obtain ⟨last, hlast⟩ := Nat.exists_eq_succ_of_ne_zero hne
      have hlt : last < objCount % 2 ^ 32 := by omega
      have hend : page.bytes + objSize * last + (objSize - 1) < size := by
        refine hfit.inside last _ hlt ?_
        rw [MegaqueueHandle.InSlot, slotAt_of_whole hwhole hlt]
        omega
      rw [hlast, Nat.succ_eq_add_one, Nat.mul_add, Nat.mul_one]
      omega
  · rintro ⟨hne, hwhole, hroom⟩
    refine ⟨hne, ?_, ?_⟩
    · intro i j byte hi hj hij hin hin'
      rw [MegaqueueHandle.InSlot, slotAt_of_whole hwhole hi] at hin
      rw [MegaqueueHandle.InSlot, slotAt_of_whole hwhole hj] at hin'
      rcases Nat.lt_or_gt_of_ne hij with hlt | hlt
      · have hnext := Nat.mul_le_mul_left objSize (Nat.succ_le_of_lt hlt)
        rw [Nat.succ_eq_add_one, Nat.mul_add, Nat.mul_one] at hnext
        omega
      · have hnext := Nat.mul_le_mul_left objSize (Nat.succ_le_of_lt hlt)
        rw [Nat.succ_eq_add_one, Nat.mul_add, Nat.mul_one] at hnext
        omega
    · intro i byte hi hin
      rw [MegaqueueHandle.InSlot, slotAt_of_whole hwhole hi] at hin
      have hcount : i < objCount % 2 ^ 32 := hi
      have hend := Nat.mul_le_mul_left objSize (Nat.succ_le_of_lt hcount)
      rw [Nat.succ_eq_add_one, Nat.mul_add, Nat.mul_one] at hend
      exact Nat.lt_of_lt_of_le (by omega) hroom

/-- **The slots of a new megaqueue** fit exactly when the lower half of the count is not zero, the size
    has no upper half or there is one slot, and the region, whose size may have wrapped, is as large
    as the slots and the header page. -/
theorem slotsFit_iff (hcreat : mode.creat = true)
    (hopen : megaqueueOpen page sys mode objSize objCount prior = (.opened queue, some seg)) :
    SlotsFit queue objSize ↔
      objCount % 2 ^ 32 ≠ 0 ∧ (objSize < 2 ^ 32 ∨ objCount % 2 ^ 32 = 1) ∧
        objSize * (objCount % 2 ^ 32) + page.bytes ≤ queueSize page objSize objCount := by
  obtain ⟨carried, -, hcreated⟩ := created_of_opened hcreat hopen
  rw [hcreated.handle]
  refine slotsFit_openedHandle_iff ?_
  rintro rfl
  exact Nat.le_of_eq (queueSize_of_zero (Nat.zero_mul _) (queueSize_pos hcreat hopen)).symm

/-- Four objects of eight bytes fit. -/
theorem slotsFit_iff_four : ∃ seg,
    megaqueueOpen page4k willing creating 8 4 none = (.opened fourObjects, some seg) ∧
      SlotsFit fourObjects 8 := by
  have hopen : (megaqueueOpen page4k willing creating 8 4 none).1 = .opened fourObjects := by
    decide +kernel
  have hseg : (megaqueueOpen page4k willing creating 8 4 none).2.isSome := by decide +kernel
  obtain ⟨seg, hseg⟩ := Option.isSome_iff_exists.1 hseg
  exact ⟨seg, Prod.ext hopen hseg, (slotsFit_iff rfl (Prod.ext hopen hseg)).2 (by decide +kernel)⟩

/-- A queue of `2 ^ 32` objects of one byte has none for its handle. -/
theorem slotsFit_fails : ∃ queue seg,
    megaqueueOpen page4k willing creating 1 (2 ^ 32) none = (.opened queue, some seg) ∧
      queue.objectCount = 0 ∧ ¬ SlotsFit queue 1 :=
  ⟨⟨1, 0, 4096, true, 4294971392⟩, _, rfl, rfl, fun h => h.count_ne_zero rfl⟩

end Tsl
