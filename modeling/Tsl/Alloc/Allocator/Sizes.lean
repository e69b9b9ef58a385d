import Tsl.Alloc.Allocator.Safety

set_option autoImplicit false

/-! # The sizes of a new allocator

`allocator_new` rounds the size of an item up to a multiple of 16 and the number of items up to whole
pages. Both add before they divide, in 64 bits. A size that wraps becomes 0, which is then divided by; a
count that wraps asks for no page, which there always is. Everything else comes out right
(`sizesRight_iff`), on any heap and for pages of any size. -/

namespace Tsl

open Lib

/-- `items_per_slab` of `allocator_new`. -/
def itemsPerSlab (h : SlabHeap) (itemSize flags : ℕ) : ℕ :=
  h.slabBytes (classOfFlags flags) / round16 itemSize

/-- `allocator_new` computes its sizes right. -/
structure SizesRight (h : SlabHeap) (itemSize itemCount flags : ℕ) (malloc : Option ℕ) : Prop where
  /-- The rounded size is divided by. -/
  divides : round16 itemSize ≠ 0
  /-- Items of an allocator that was made are as large as was asked for, the pages have as many as were
      asked for, and there is a slab. -/
  sizes : ∀ new h', allocatorNew h itemSize itemCount flags malloc = some (aOk, some new, h') →
    itemSize ≤ (h'.allocator new).itemSize ∧
    itemCount ≤ pagesNeeded h itemSize itemCount flags * itemsPerSlab h itemSize flags ∧
    listEmpty h'.links (.slabs new) = false

/-! ## Rounding -/

theorem le_round16 {x : ℕ} (hx : x + 15 < 2 ^ 64) : x ≤ round16 x := by
  rw [round16, Nat.shiftLeft_eq, Nat.shiftRight_eq_div_pow, Nat.mod_eq_of_lt hx]
  omega

theorem round16_eq_zero {x : ℕ} (hx : x < 2 ^ 64) (hwrap : 2 ^ 64 ≤ x + 15) : round16 x = 0 := by
  rw [round16, Nat.shiftLeft_eq, Nat.shiftRight_eq_div_pow]
  omega

section Pages

variable {h : SlabHeap} {itemSize itemCount flags : ℕ}

/-- The pages have room for the items if their number does not wrap. -/
theorem le_pagesNeeded_mul (hpos : 0 < itemsPerSlab h itemSize flags)
    (hfits : itemCount + itemsPerSlab h itemSize flags - 1 < 2 ^ 64) :
    itemCount ≤ pagesNeeded h itemSize itemCount flags * itemsPerSlab h itemSize flags := by
  have hpages : pagesNeeded h itemSize itemCount flags =
      (itemCount + itemsPerSlab h itemSize flags - 1) / itemsPerSlab h itemSize flags :=
    congrArg (· / itemsPerSlab h itemSize flags) (Nat.mod_eq_of_lt hfits)
  have hlast := Nat.lt_div_mul_add (a := itemCount + itemsPerSlab h itemSize flags - 1) hpos
  rw [hpages]
  omega

/-- If it wraps, what is left of it is not enough for one page. -/
theorem pagesNeeded_eq_zero (hcount : itemCount < 2 ^ 64)
    (hwrap : 2 ^ 64 ≤ itemCount + itemsPerSlab h itemSize flags - 1) :
    pagesNeeded h itemSize itemCount flags = 0 := by
  refine Nat.div_eq_of_lt ?_
  change (itemCount + itemsPerSlab h itemSize flags - 1) % 2 ^ 64 < itemsPerSlab h itemSize flags
  rcases Nat.lt_or_ge (itemsPerSlab h itemSize flags) (2 ^ 64) with hlt | hge
  · omega
  · exact Nat.lt_of_lt_of_le (Nat.mod_lt _ (by decide)) hge

end Pages

/-! ## The slabs -/

section Slabs

variable {h h' : SlabHeap} {alloc : ℕ} {cls : SlabClassId}

theorem allocatorAcquirePage_inv {ret : AResult} {page : Option ℕ}
    (hacq : allocatorAcquirePage h cls = some (ret, page, h')) :
    h'.allocator = h.allocator ∧ (page = none → ret = aENomem) := by
  rw [allocatorAcquirePage] at hacq
  split at hacq
  · simp only [Option.some.injEq, Prod.mk.injEq] at hacq
    obtain ⟨rfl, -, rfl⟩ := hacq
    exact ⟨rfl, fun _ => rfl⟩
  · simp only [Option.bind_eq_bind, Option.bind_eq_some_iff, Option.some.injEq,
      Prod.mk.injEq] at hacq
    obtain ⟨ptr, -, -, rfl, rfl⟩ := hacq
    exact ⟨rfl, fun hnone => absurd hnone (Option.some_ne_none ptr)⟩

theorem listEmpty_helperAddSlab (h : SlabHeap) (alloc slab : ℕ) :
    listEmpty (helperAddSlab h alloc slab).links (.slabs alloc) = false := by
  change decide ((listPrepend h.links (.slabs alloc) (.snode slab) (.slabs alloc)).next = _) = false
  simp [listPrepend, _listAdd_next]

theorem itemSize_helperAddSlab (h : SlabHeap) (alloc slab : ℕ) :
    ((helperAddSlab h alloc slab).allocator alloc).itemSize = (h.allocator alloc).itemSize := by
  simp [helperAddSlab, SlabHeap.setAllocator]

theorem grabPages_inv (pageSize numPages : ℕ) :
    ∀ {h}, grabPages h alloc cls pageSize numPages = some (aOk, h') →
      (h'.allocator alloc).itemSize = (h.allocator alloc).itemSize ∧
        (0 < numPages → listEmpty h'.links (.slabs alloc) = false) := by
  induction numPages with
  | zero =>
      intro h hgrab
      simp only [grabPages, Option.some.injEq, Prod.mk.injEq, true_and] at hgrab
      exact ⟨by rw [hgrab], fun hpos => absurd hpos (Nat.lt_irrefl 0)⟩
  | succ numPages ih =>
      intro h hgrab
      simp only [grabPages, Option.bind_eq_bind, Option.bind_eq_some_iff, Prod.exists] at hgrab
      obtain ⟨ret, page, h₁, hacq, hgrab⟩ := hgrab
      obtain ⟨hsame, hret⟩ := allocatorAcquirePage_inv hacq
      cases page with
      | none =>
          simp only [Option.some.injEq, Prod.mk.injEq, hret rfl] at hgrab
          exact absurd hgrab.1 (aresultError_ne_aOk _ _)
      | some page =>
          have hsize := itemSize_helperAddSlab
            (helperSlabInit h₁ page (h₁.allocator alloc).itemSize pageSize) alloc page
          have hinit : (helperSlabInit h₁ page (h₁.allocator alloc).itemSize pageSize).allocator =
            h.allocator := hsame
          rw [hinit] at hsize
          obtain ⟨hkept, hslab⟩ := ih hgrab
          refine ⟨hkept.trans hsize, fun _ => ?_⟩
          rcases Nat.eq_zero_or_pos numPages with rfl | hpos
          · simp only [grabPages, Option.some.injEq, Prod.mk.injEq, true_and] at hgrab
            rw [← hgrab]
            exact listEmpty_helperAddSlab _ _ _
          · exact hslab hpos

end Slabs

/-! ## The call -/

section Call

variable {h h' : SlabHeap} {itemSize itemCount flags new : ℕ} {malloc : Option ℕ}

/-- The heap before `allocator_new` grabs its pages. -/
def SlabHeap.beforePages (h : SlabHeap) (itemSize flags new : ℕ) : SlabHeap :=
  (helperAllocatorNewInit h new).setAllocator new
    { (helperAllocatorNewInit h new).allocator new with
      itemSize := round16 itemSize
      freeMask := 2 ^ 64 - 1 - (h.slabBytes (classOfFlags flags) - 1)
      allocState := classOfFlags flags }

theorem SlabHeap.itemSize_beforePages :
    ((h.beforePages itemSize flags new).allocator new).itemSize = round16 itemSize := by
  simp [SlabHeap.beforePages, SlabHeap.setAllocator]

/-- The call, once there is memory for the allocator. -/
theorem allocatorNew_pages (hargs : ¬ (itemSize = 0 ∨ itemCount = 0)) (hround : round16 itemSize ≠ 0)
    (hper : itemsPerSlab h itemSize flags ≠ 0) (new : ℕ) :
    allocatorNew h itemSize itemCount flags (some new) =
      (grabPages (h.beforePages itemSize flags new) new (classOfFlags flags)
        (h.slabBytes (classOfFlags flags)) (pagesNeeded h itemSize itemCount flags)).map
          fun (ret, h') => (ret, if afailed ret then none else some new, h') := by
  have hcls : (if flags &&& allocFlagHugePage ≠ 0 then SlabClassId.hugeSlabs else .normalSlabs) =
      classOfFlags flags := rfl
  have hper' : h.slabBytes (classOfFlags flags) / round16 itemSize ≠ 0 := hper
  simp only [allocatorNew, hcls, if_neg hargs, if_neg hround, if_neg hper']
  change (grabPages (h.beforePages itemSize flags new) new (classOfFlags flags)
    (h.slabBytes (classOfFlags flags)) (pagesNeeded h itemSize itemCount flags)).bind _ = _
  cases grabPages (h.beforePages itemSize flags new) new (classOfFlags flags)
    (h.slabBytes (classOfFlags flags)) (pagesNeeded h itemSize itemCount flags) <;> rfl

/-- An allocator was made only if there was memory for it and a page has room for an item. -/
theorem allocatorNew_inv
    (hnew : allocatorNew h itemSize itemCount flags malloc = some (aOk, some new, h')) :
    malloc = some new ∧ round16 itemSize ≠ 0 ∧ itemsPerSlab h itemSize flags ≠ 0 ∧
      grabPages (h.beforePages itemSize flags new) new (classOfFlags flags)
        (h.slabBytes (classOfFlags flags)) (pagesNeeded h itemSize itemCount flags) =
          some (aOk, h') := by
  have hcls : (if flags &&& allocFlagHugePage ≠ 0 then SlabClassId.hugeSlabs else .normalSlabs) =
      classOfFlags flags := rfl
  by_cases hargs : itemSize = 0 ∨ itemCount = 0
  · simp [allocatorNew, hargs] at hnew
  by_cases hround : round16 itemSize = 0
  · simp [allocatorNew, hargs, hround] at hnew
  by_cases hper : itemsPerSlab h itemSize flags = 0
  · have hper' : h.slabBytes (classOfFlags flags) / round16 itemSize = 0 := hper
    simp only [allocatorNew, hcls, if_neg hargs, if_neg hround, if_pos hper'] at hnew
    simp at hnew
  cases malloc with
  | none =>
      have hper' : h.slabBytes (classOfFlags flags) / round16 itemSize ≠ 0 := hper
      simp only [allocatorNew, hcls, if_neg hargs, if_neg hround, if_neg hper'] at hnew
      simp at hnew
  | some id =>
      rw [allocatorNew_pages hargs hround hper] at hnew
      obtain ⟨⟨ret, h₁⟩, hgrab, heq⟩ := Option.map_eq_some_iff.1 hnew
      simp only [Prod.mk.injEq] at heq
      obtain ⟨rfl, hid, rfl⟩ := heq
      rw [afailed_aOk, if_neg (by decide)] at hid
      exact ⟨hid, hround, hper, Option.some.inj hid ▸ hgrab⟩

/-- No page is as easily had as any. -/
theorem allocatorNew_noPages (hargs : ¬ (itemSize = 0 ∨ itemCount = 0))
    (hround : round16 itemSize ≠ 0) (hcount : itemCount < 2 ^ 64)
    (hwrap : 2 ^ 64 ≤ itemCount + itemsPerSlab h itemSize flags - 1) (new : ℕ) :
    allocatorNew h itemSize itemCount flags (some new) =
      some (aOk, some new, h.beforePages itemSize flags new) := by
  have hper : itemsPerSlab h itemSize flags ≠ 0 := by omega
  rw [allocatorNew_pages hargs hround hper, pagesNeeded_eq_zero hcount hwrap, grabPages,
    Option.map_some]
  rfl

/-- **The sizes of a new allocator** are right, for any size and number of items, on any heap, exactly if
the size does not wrap where it is rounded up to a multiple of 16, and the number does not where it is
rounded up to whole pages, unless there is no memory for the allocator. -/
theorem sizesRight_iff (h : SlabHeap) (hsize : 0 < itemSize) (hsize' : itemSize < 2 ^ 64)
    (hcount : 0 < itemCount) (hcount' : itemCount < 2 ^ 64) (flags : ℕ) (malloc : Option ℕ) :
    SizesRight h itemSize itemCount flags malloc ↔
      itemSize + 15 < 2 ^ 64 ∧
        (malloc = none ∨ itemCount + itemsPerSlab h itemSize flags - 1 < 2 ^ 64) := by
  have hargs : ¬ (itemSize = 0 ∨ itemCount = 0) := by omega
  constructor
  · intro hright
    refine ⟨?_, ?_⟩
    · by_contra hwrap
      exact hright.divides (round16_eq_zero hsize' (Nat.le_of_not_lt hwrap))
    · cases malloc with
      | none => exact .inl rfl
      | some new =>
          -- with no page asked for, there are no items
          by_contra hwrap
          have hwrap' : 2 ^ 64 ≤ itemCount + itemsPerSlab h itemSize flags - 1 := by
            simp only [reduceCtorEq, false_or] at hwrap
            omega
          obtain ⟨-, henough, -⟩ := hright.sizes _ _
            (allocatorNew_noPages hargs hright.divides hcount' hwrap' new)
          rw [pagesNeeded_eq_zero hcount' hwrap', Nat.zero_mul] at henough
          omega
  · rintro ⟨hround, hpages⟩
    refine ⟨Nat.pos_iff_ne_zero.1 (round16_pos hsize hround), fun new h' hnew => ?_⟩
    obtain ⟨rfl, -, hper, hgrab⟩ := allocatorNew_inv hnew
    have henough := le_pagesNeeded_mul (Nat.pos_of_ne_zero hper)
      (hpages.resolve_left (Option.some_ne_none new))
    have hneeded : 0 < pagesNeeded h itemSize itemCount flags := by
      by_contra hzero
      rw [Nat.eq_zero_of_not_pos hzero, Nat.zero_mul] at henough
      omega
    obtain ⟨hkept, hslab⟩ := grabPages_inv _ _ hgrab
    rw [hkept, SlabHeap.itemSize_beforePages]
    exact ⟨le_round16 hround, henough, hslab hneeded⟩

end Call

/-- Five items of 100 bytes. -/
theorem sizesRight_iff_five :
    SizesRight (slabRunInit zeroMem threePages).heap 100 5 0 (some 1) ↔
      100 + 15 < 2 ^ 64 ∧ (some 1 = none ∨
        5 + itemsPerSlab (slabRunInit zeroMem threePages).heap 100 0 - 1 < 2 ^ 64) :=
  sizesRight_iff _ (by decide) (by decide) (by decide) (by decide) 0 (some 1)

/-- An item of `2 ^ 64 - 15` bytes divides by zero. As many items of half a page as there are numbers
are given an allocator without a slab. -/
theorem sizes_wrap :
    allocatorNew (slabRunInit zeroMem threePages).heap (2 ^ 64 - 15) 1 0 (some 1) = none ∧
    ¬ SizesRight (slabRunInit zeroMem threePages).heap (2 ^ 64 - 15) 1 0 (some 1) ∧
    (∃ h', allocatorNew (slabRunInit zeroMem threePages).heap 2048 (2 ^ 64 - 1) 0 (some 1) =
      some (aOk, some 1, h') ∧ listEmpty h'.links (.slabs 1) = true) ∧
    ¬ SizesRight (slabRunInit zeroMem threePages).heap 2048 (2 ^ 64 - 1) 0 (some 1) := by
  obtain ⟨⟨ret, alloc, h'⟩, hnew, hfacts⟩ := Option.map_eq_some_iff.1 (show
    (allocatorNew (slabRunInit zeroMem threePages).heap 2048 (2 ^ 64 - 1) 0 (some 1)).map
      (fun x => (x.1, x.2.1, listEmpty x.2.2.links (.slabs 1))) = some (aOk, some 1, true) by
    decide +kernel)
  simp only [Prod.mk.injEq] at hfacts
  obtain ⟨rfl, rfl, hempty⟩ := hfacts
  refine ⟨by decide +kernel, fun hright => hright.divides (by decide), ⟨h', hnew, hempty⟩,
    fun hright => ?_⟩
  obtain ⟨-, -, hslab⟩ := hright.sizes 1 h' hnew
  rw [hempty] at hslab
  cases hslab

end Tsl
