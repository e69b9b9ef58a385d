import Tsl.Alloc.Logalloc.Prepare

set_option autoImplicit false

/-! # Finalizing a prepared region

`logalloc_finalize_region` makes a block of what was prepared, as long as its client needs it. It should
be the block that `logalloc_alloc` hands out for that size. But where all the cells prepared are used
the call returns before the block gets its reference (`finalizesLikeAlloc_iff`). -/

namespace Tsl

open Lib

/-- The number of cells for a size. -/
def cellsFor (a : Logalloc) (size : BitVec 64) : ℕ := (size.toNat + a.cellSize - 1) / a.cellSize

/-- A block of `cells` cells was handed out at `cell`, and the log head is behind it. -/
structure HandedOut (a : Logalloc) (cell cells : ℕ) : Prop where
  refs : a.refAt cell = 1
  length : a.nrAt cell = cells
  head : a.logHead = (cell + cells) % a.nrCells
  freed : (logallocFree a (a.ptrOf cell)).map Prod.fst = some aOk

/-- Finalizing `size` bytes of `prepared` cells at the log head succeeds and hands out the block that
    `logalloc_alloc` hands out in the state `a` from before; the cells that are left over are free. -/
structure FinalizesLikeAlloc (a filled : Logalloc) (size : BitVec 64) (prepared : ℕ) : Prop where
  finalized : ∃ a', logallocFinalizeRegion filled size = some (aOk, a') ∧
    HandedOut a' a.logHead (cellsFor a size) ∧
    (cellsFor a size < prepared →
      a'.refAt a'.logHead = 0 ∧ a'.nrAt a'.logHead = prepared - cellsFor a size)
  allocated : ∃ a', logallocAlloc a size none = some (aOk, some (a.ptrOf a.logHead), a') ∧
    HandedOut a' a.logHead (cellsFor a size)

section Finalize

variable {a a' : Logalloc} {n w found avail : ℕ}

/-! ## What is prepared -/

theorem lt_of_logallocScan (hS : a.Shape) {answer : ℕ × Bool}
    (h : logallocScan a n avail w found = some answer) : w + found < a.nrCells := by
  rw [logallocScan] at h
  split at h
  · split at h
    · cases h
    · next hload =>
      exact ((header_isSome_iff hS _).1).1 (by rw [hload]; rfl)
  · cases h

/-- What the headers say where enough cells were found: the first block goes up to the end, or is as
    long as needed, or is longer and not the last. -/
theorem first_of_logallocScan (hS : a.Shape) {answer : ℕ × Bool}
    (h : logallocScan a n avail a.logHead 0 = some answer) (hle : n ≤ answer.1)
    (href : a.refAt a.logHead = 0) :
    a.nrAt a.logHead = 0 ∨ a.nrAt a.logHead = n ∨
      (n < a.nrAt a.logHead ∧ a.logHead + a.nrAt a.logHead < a.nrCells) := by
  rw [logallocScan_eq hS (lt_of_logallocScan hS h)] at h
  simp only [Nat.add_zero, Nat.zero_add, href, ne_eq, not_true_eq_false, if_false] at h
  split at h
  · next hzero => exact .inl hzero
  · split at h
    · next hmore => exact .inr (.inr ⟨hmore, lt_of_logallocScan hS h⟩)
    · next hless =>
      cases h
      exact .inr (.inl (Nat.le_antisymm (Nat.le_of_not_lt hless) hle))

theorem logallocMarkCells_frame {virt cur rem : ℕ} (hS : a.Shape)
    (h : logallocMarkCells a virt cur rem = some a') :
    a.SameCells a' ∧ a'.logHead = a.logHead ∧
      ∀ c < virt + cur, a'.nrAt c = a.nrAt c ∧ a'.refAt c = a.refAt c := by
  induction rem using Nat.strong_induction_on generalizing a cur with
  | _ rem ih =>
      rw [logallocMarkCells] at h
      split at h
      · next hrem =>
          obtain ⟨b, hb, h⟩ := Option.bind_eq_some_iff.1 h
          have hcell : virt + cur < a.nrCells :=
            ((header_isSome_iff hS _).2 _ _).1 (by rw [hb]; rfl)
          have hnr : (if rem > 255 then 255 else rem) < 256 := by
            split <;> omega
          obtain ⟨b', hb', hsame, hlog, -, -, hframe⟩ := setHeader_spec hS hcell 0 _ (by omega) hnr
          obtain rfl := Option.some.inj (hb'.symm.trans hb)
          obtain ⟨hsame', hlog', hframe'⟩ := ih _ (by split <;> omega) (hsame.shape hS) h
          refine ⟨hsame.trans hsame', hlog'.trans hlog, fun c hc => ?_⟩
          have h' := hframe' c (by omega)
          have h := hframe c (by omega)
          exact ⟨h'.1.trans h.1, h'.2.trans h.2⟩
      · cases h
        exact ⟨⟨rfl, rfl⟩, rfl, fun _ _ => ⟨rfl, rfl⟩⟩

/-- The header of the region prepared says how many cells it has, and that it is free. -/
theorem logallocPlaceRegion_header (hS : a.Shape) (hhead : a.logHead < a.nrCells) (hpos : 0 < n)
    (hmax : n ≤ 255) {remainder : Bool} (h : logallocPlaceRegion a n found remainder = some a') :
    a.SameCells a' ∧ a'.logHead = a.logHead ∧ a'.nrAt a.logHead = n ∧ a'.refAt a.logHead = 0 := by
  obtain ⟨b, hb, hsame, hlog, hnr, href, -⟩ :=
    setHeader_spec hS hhead 0 n (by omega) (by omega)
  simp only [logallocPlaceRegion, hb, Option.bind_eq_bind, Option.bind_some] at h
  have hrest : b.SameCells a' ∧ a'.logHead = b.logHead ∧
      a'.nrAt a.logHead = b.nrAt a.logHead ∧ a'.refAt a.logHead = b.refAt a.logHead := by
    cases remainder with
    | true =>
        simp only [if_true] at h
        have hcell : a.logHead + n < b.nrCells :=
          ((header_isSome_iff (hsame.shape hS) _).2 _ _).1 (by rw [h]; rfl)
        obtain ⟨b', hb', hsame', hlog', -, -, hframe⟩ :=
          setHeader_spec (hsame.shape hS) hcell 0 0 (by omega) (by omega)
        obtain rfl := Option.some.inj (hb'.symm.trans h)
        exact ⟨hsame', hlog', hframe _ (by omega)⟩
    | false =>
        simp only [Bool.false_eq_true, if_false] at h
        obtain ⟨hsame', hlog', hframe⟩ := logallocMarkCells_frame (hsame.shape hS) h
        exact ⟨hsame', hlog', hframe _ (by omega)⟩
  exact ⟨hsame.trans hrest.1, hrest.2.1.trans hlog, hrest.2.2.1.trans hnr, hrest.2.2.2.trans href⟩

/-- The state before and after a region was prepared. -/
structure PreparedAt (a a' : Logalloc) (n : ℕ) : Prop where
  same : a.SameCells a'
  head : a'.logHead = a.logHead
  length : a'.nrAt a.logHead = n
  refs : a'.refAt a.logHead = 0
  room : n ≤ a.nrCells - a.logHead
  max : n ≤ 255
  free : a.refAt a.logHead = 0
  first : a.nrAt a.logHead = 0 ∨ a.nrAt a.logHead = n ∨
    (n < a.nrAt a.logHead ∧ a.logHead + a.nrAt a.logHead < a.nrCells)

/-- **A call of `logalloc_prepare_region` that succeeds**, whatever the other headers say. -/
theorem preparedAt_of_ok (hS : a.Shape) (hhead : a.logHead < a.nrCells) {sizeHint : BitVec 64}
    {before pptr : Option ℕ} {sizeBefore psize : ℕ}
    (hcall : logallocPrepareRegion a sizeHint before sizeBefore = some (aOk, pptr, psize, a'))
    (hpos : 0 < logallocHintCells a sizeHint) :
    pptr = some (a.ptrOf a.logHead) ∧ psize = logallocHintCells a sizeHint * a.cellSize % 2 ^ 64 ∧
      PreparedAt a a' (logallocHintCells a sizeHint) := by
  have hsize : sizeHint ≠ 0 := by
    rintro rfl
    rw [logallocPrepareRegion, if_pos rfl, Option.some.injEq, Prod.mk.injEq] at hcall
    exact absurd hcall.1 (by decide)
  by_cases hfew : a.nrCells - a.logHead < logallocHintCells a sizeHint ∨ a.refAt a.logHead ≠ 0
  · rw [logallocPrepareRegion_refused hS hhead hsize before sizeBefore hfew, Option.some.injEq,
      Prod.mk.injEq] at hcall
    exact absurd hcall.1 (by decide)
  rw [not_or, Nat.not_lt, not_not] at hfew
  obtain ⟨hroom, href⟩ := hfew
  have hmax : logallocHintCells a sizeHint ≤ 255 := by
    rw [logallocHintCells]
    split <;> omega
  rw [logallocPrepareRegion_eq hS hhead hsize before sizeBefore hroom href] at hcall
  obtain ⟨answer, hscan, hcall⟩ := Option.bind_eq_some_iff.1 hcall
  split at hcall
  · rw [Option.some.injEq, Prod.mk.injEq] at hcall
    exact absurd hcall.1 (by decide)
  · next hle =>
    obtain ⟨b, hput, heq⟩ := Option.map_eq_some_iff.1 hcall
    obtain ⟨hsame, hlog, hnr, hrefs⟩ := logallocPlaceRegion_header hS hhead hpos hmax hput
    simp only [hsame.cellSize, Prod.mk.injEq, true_and] at heq
    obtain ⟨rfl, rfl, rfl⟩ := heq
    exact ⟨rfl, rfl, hsame, hlog, hnr, hrefs, hroom, hmax, href,
      first_of_logallocScan hS hscan (Nat.le_of_not_lt hle) href⟩

/-! ## What is handed out -/

theorem logallocFree_ok (hS : a.Shape) {cell : ℕ} (hcell : cell < a.nrCells)
    (href : a.refAt cell ≠ 0) : (logallocFree a (a.ptrOf cell)).map Prod.fst = some aOk := by
  have hne : ¬ a.rgn (cell * a.cellSize + 1) = 0 := fun h => href (refAt_eq_zero_iff.1 h)
  have hptr : a.ptrOf cell - 2 = cell * a.cellSize := Nat.add_sub_cancel _ _
  obtain ⟨b, hstore, -⟩ := store_spec (hS.header_lt hcell) (a.rgn (cell * a.cellSize + 1) - 1)
  simp only [logallocFree, hptr, loadRefcnt_eq hS hcell, Option.bind_eq_bind, Option.bind_some,
    if_neg hne, hstore, Option.map_some]

/-- **Finalizing**: where all cells are used the header stays as it was prepared. -/
theorem logallocFinalizeRegion_ok (hS : a.Shape) (hhead : a.logHead < a.nrCells) {size : BitVec 64}
    (hsize : size ≠ 0) {used : ℕ} (hreq : logallocReqCells a size = used) (hpos : 0 < used)
    (hused : used ≤ n) (hnr : a.nrAt a.logHead = n) (hroom : n ≤ a.nrCells - a.logHead)
    (hmax : n ≤ 255) :
    ∃ a', logallocFinalizeRegion a size = some (aOk, a') ∧ a.SameCells a' ∧
      a'.logHead = (a.logHead + used) % a.nrCells ∧ a'.nrAt a.logHead = used ∧
      (used = n → a'.refAt a.logHead = a.refAt a.logHead) ∧
      (used < n → a'.refAt a.logHead = 1 ∧ a'.refAt a'.logHead = 0 ∧
        a'.nrAt a'.logHead = n - used) := by
  rcases Nat.eq_or_lt_of_le hused with heq | hlt
  · have hlen : (a.rgn (a.logHead * a.cellSize)).toNat = n := hnr
    refine ⟨{ a with logHead := (a.logHead + used) % a.nrCells }, ?_, ⟨rfl, rfl⟩, rfl,
      hnr.trans heq.symm, fun _ => rfl, fun hlt => absurd hlt (by omega)⟩
    simp only [logallocFinalizeRegion, if_neg hsize, hreq, loadNrCells_eq hS hhead, hlen,
      Option.bind_eq_bind, Option.bind_some]
    rw [if_neg (by omega), if_neg (by omega), if_pos heq.symm]
  · obtain ⟨a', hfinal, hsame, hlog, hleft, hfree, hblock, -⟩ :=
      logallocFinalizeRegion_split hS hhead hsize hreq (by omega) (by omega)
    obtain ⟨hcount, hone⟩ := hblock hpos
    rw [hnr] at hleft
    refine ⟨a', hfinal, hsame, ?_, hcount, fun heq => absurd heq (by omega), fun _ => ⟨hone, ?_⟩⟩
    · rw [hlog, Nat.mod_eq_of_lt (by omega)]
    · rw [hlog]
      exact ⟨hfree, hleft⟩

theorem logallocGather_first (hS : a.Shape) (hhead : a.logHead < a.nrCells) {used : ℕ}
    (hpos : 0 < used) (href : a.refAt a.logHead = 0)
    (hfirst : a.nrAt a.logHead = 0 ∨ used ≤ a.nrAt a.logHead) :
    logallocGather a a.nrCells a.logHead used 0 0 =
      if a.nrAt a.logHead = 0 then some (a.nrCells - a.logHead, 0)
      else some (a.nrAt a.logHead, a.nrAt a.logHead) := by
  have hbyte : a.rgn (a.logHead * a.cellSize + 1) = 0 := refAt_eq_zero_iff.2 href
  have hlen : (a.rgn (a.logHead * a.cellSize)).toNat = a.nrAt a.logHead := rfl
  rw [logallocGather, if_pos hpos]
  simp only [Nat.add_zero, loadRefcnt_eq hS hhead, loadNrCells_eq hS hhead, hbyte, hlen,
    Option.bind_eq_bind, Option.bind_some, ne_eq, not_true_eq_false, if_false, Nat.zero_add]
  split
  · rfl
  · next hne =>
    rw [logallocGather, if_neg (by omega)]

/-- **Allocating** as many cells at the log head as could be prepared there. -/
theorem logallocAlloc_ok (hS : a.Shape) (hhead : a.logHead < a.nrCells) {size : BitVec 64}
    (hsize : size ≠ 0) {used : ℕ} (hreq : logallocReqCells a size = used) (hpos : 0 < used)
    (hused : used ≤ n) (hP : PreparedAt a a' n) :
    ∃ b, logallocAlloc a size none = some (aOk, some (a.ptrOf a.logHead), b) ∧ a.SameCells b ∧
      b.logHead = (a.logHead + used) % a.nrCells ∧ b.nrAt a.logHead = used ∧
      b.refAt a.logHead = 1 := by
  have hroom := hP.room
  have hmax := hP.max
  have hfirst := hP.first
  have hbyte : a.rgn (a.logHead * a.cellSize + 1) = 0 := refAt_eq_zero_iff.2 hP.free
  have hcall : logallocAlloc a size none = logallocCarve a a.nrCells a.logHead used := by
    simp only [logallocAlloc, if_neg hsize, hreq]
    rw [if_neg (by omega)]
    simp only [loadRefcnt_eq hS hhead, hbyte, Option.bind_eq_bind, Option.bind_some, ne_eq,
      not_true_eq_false, if_false]
    rw [if_neg (by omega)]
  obtain ⟨i, last, hgather, hle, hbehind, hrem⟩ : ∃ i last,
      logallocGather a a.nrCells a.logHead used 0 0 = some (i, last) ∧ used ≤ i ∧
        (used < i → a.logHead + used < a.nrCells) ∧ (if last = 0 then 0 else i - used) ≤ 255 := by
    have hbytes := (a.rgn (a.logHead * a.cellSize)).isLt
    have hlen : (a.rgn (a.logHead * a.cellSize)).toNat = a.nrAt a.logHead := rfl
    rw [logallocGather_first hS hhead hpos hP.free (by omega)]
    by_cases hzero : a.nrAt a.logHead = 0
    · exact ⟨_, _, if_pos hzero, by omega, by omega, by simp⟩
    · refine ⟨_, _, if_neg hzero, by omega, by omega, ?_⟩
      rw [if_neg hzero]
      omega
  obtain ⟨b, hset, hsame, hlog, hnr, href, -⟩ :=
    setHeader_spec hS hhead 1 used (by omega) (by omega)
  set b₀ : Logalloc := { b with logHead := (a.logHead + used) % a.nrCells } with hb₀
  have hsame₀ : a.SameCells b₀ := ⟨hsame.cellSize, hsame.regionSize⟩
  by_cases hrest : used < i
  · have hmod : (a.logHead + used) % a.nrCells = a.logHead + used := Nat.mod_eq_of_lt (hbehind hrest)
    have hlog₀ : b₀.logHead = a.logHead + used := hmod
    obtain ⟨b', hmark, hsame', hlog', -, -, hframe⟩ := setHeader_spec (hsame₀.shape hS)
      (show a.logHead + used < b₀.nrCells by rw [hsame₀.nrCells]; exact hbehind hrest) 0
      (if last = 0 then 0 else i - used) (by omega) (by omega)
    have hw := hframe a.logHead (by omega)
    refine ⟨b', ?_, hsame₀.trans hsame', ?_, hw.1.trans hnr, hw.2.trans href⟩
    · rw [hcall]
      simp only [logallocCarve, hgather, Option.bind_eq_bind, Option.bind_some, if_pos hrest, hset]
      rw [if_neg (by omega), ← hb₀, logallocMarkRest_eq hrem, hlog₀, hmark]
      rfl
    · rw [hlog', hlog₀, hmod]
  · refine ⟨b₀, ?_, hsame₀, rfl, hnr, href⟩
    rw [hcall]
    simp only [logallocCarve, hgather, Option.bind_eq_bind, Option.bind_some, if_neg hrest, hset]
    rw [if_neg (by omega), hb₀]
    rfl

/-! ## Every size that fits -/

/-- What clients write in the meantime spares the header of the region. -/
theorem exec_write_frame {cell : ℕ} (writes : List (ℕ × BitVec 8)) :
    ∀ a : Logalloc, (∀ w ∈ writes, w.1 ≠ cell * a.cellSize ∧ w.1 ≠ cell * a.cellSize + 1) →
      exec regionStep a (writes.map fun w => .write w.1 w.2) = some a' →
      a.SameCells a' ∧ a'.logHead = a.logHead ∧ a'.nrAt cell = a.nrAt cell ∧
        a'.refAt cell = a.refAt cell := by
  induction writes with
  | nil =>
      intro a _ hrun
      cases hrun
      exact ⟨⟨rfl, rfl⟩, rfl, rfl, rfl⟩
  | cons w ws ih =>
      intro a hout hrun
      obtain ⟨b, hb, hrest⟩ := exec_cons_eq_some.1 hrun
      have haddr : w.1 < a.regionSize := (Option.ite_none_right_eq_some.1 hb).1
      obtain ⟨b', hb', hsame, hlog, hnr, href, -⟩ := store_spec haddr w.2
      obtain rfl := Option.some.inj (hb'.symm.trans hb)
      have hw := hout w List.mem_cons_self
      obtain ⟨hsame', hlog', hnr', href'⟩ := ih b'
        (fun v hv => by
          rw [hsame.cellSize]
          exact hout v (List.mem_cons_of_mem _ hv)) hrest
      exact ⟨hsame.trans hsame', hlog'.trans hlog, hnr'.trans (hnr cell hw.1.symm),
        href'.trans (href cell hw.2.symm)⟩

theorem psize_of_prepared (hS : a.Sized) {sizeHint : BitVec 64} {before pptr : Option ℕ}
    {sizeBefore psize : ℕ}
    (hprepare : logallocPrepareRegion a sizeHint before sizeBefore = some (aOk, pptr, psize, a')) :
    psize = logallocHintCells a sizeHint * a.cellSize := by
  obtain ⟨w, hw, -, hpsize⟩ := (logallocPrepareRegion_moved hS hprepare).2 rfl
  have hle : logallocHintCells a sizeHint * a.cellSize ≤ a.nrCells * a.cellSize :=
    Nat.mul_le_mul_right _ (by omega)
  rw [hpsize, Nat.mod_eq_of_lt (Nat.lt_of_le_of_lt hle (hS.region ▸ hS.region_lt))]

theorem cellsFor_spec (hS : a.Sized) {size : BitVec 64} (hpos : 1 ≤ size.toNat)
    (hle : size.toNat ≤ n * a.cellSize) (hroom : n ≤ a.nrCells) :
    logallocReqCells a size = cellsFor a size ∧ 0 < cellsFor a size ∧ cellsFor a size ≤ n := by
  have hcell := hS.cell_pos
  have hfits : n * a.cellSize + a.cellSize ≤ 2 ^ 64 := by
    obtain ⟨k, hk⟩ := hS.cell_dvd
    have hregion := hS.region_lt
    rw [hS.region, hk, Nat.mul_comm a.cellSize k] at hregion
    have hlt : a.nrCells < k := Nat.lt_of_mul_lt_mul_right hregion
    rw [hk, Nat.mul_comm a.cellSize k, ← Nat.succ_mul]
    exact Nat.mul_le_mul_right _ (by omega)
  refine ⟨?_, Nat.div_pos (by omega) hcell, ?_⟩
  · rw [logallocReqCells, Nat.mod_eq_of_lt (by omega), cellsFor]
  · refine Nat.le_of_lt_succ ((Nat.div_lt_iff_lt_mul hcell).2 ?_)
    rw [Nat.succ_mul]
    omega

theorem shape_of_run {cellSize nrCells : BitVec 64} {calloc : Bool}
    {alloc : BitVec 64 → AResult × (ℕ → BitVec 8)} {ret : AResult} {a₀ : Logalloc}
    (hnew : logallocNew cellSize nrCells calloc alloc = some (ret, some a₀))
    (hcell : cellSize ≠ BitVec.allOnes 64) {calls : List RegionCall}
    (hrun : exec regionStep a₀ calls = some a) : a.Sized ∧ a.Shape := by
  have hstep : ∀ (b : Logalloc) (call : RegionCall) (b' : Logalloc), b.Sized ∧ b.Shape →
      regionStep b call = some b' → b'.Sized ∧ b'.Shape := by
    intro b call b' hb hcall
    have hmoved := regionStep_moved hb.1 hcall
    exact ⟨hb.1.moved hmoved, hmoved.same.shape hb.2⟩
  exact exec_invariant hstep ⟨logallocNew_sized hnew, (logallocNew_spec hnew hcell).1.shape⟩ hrun

end Finalize

/-- **Finalizing a prepared region**, in every state that calls on a new allocator lead to, whatever
    clients write, before or to the region itself: for every size that fits it is as good as an
    allocation of that size, exactly if it does not use all the cells that were prepared. -/
theorem finalizesLikeAlloc_iff {cellSize nrCells : BitVec 64} {calloc : Bool}
    {alloc : BitVec 64 → AResult × (ℕ → BitVec 8)} {ret : AResult} {a₀ a a' filled : Logalloc}
    (hnew : logallocNew cellSize nrCells calloc alloc = some (ret, some a₀))
    (hcell : cellSize ≠ BitVec.allOnes 64) (calls : List RegionCall)
    (hrun : exec regionStep a₀ calls = some a) {sizeHint : BitVec 64} {before pptr : Option ℕ}
    {sizeBefore psize : ℕ}
    (hprepare : logallocPrepareRegion a sizeHint before sizeBefore = some (aOk, pptr, psize, a'))
    (writes : List (ℕ × BitVec 8))
    (hout : ∀ w ∈ writes, w.1 ≠ a.logHead * a.cellSize ∧ w.1 ≠ a.logHead * a.cellSize + 1)
    (hfill : exec regionStep a' (writes.map fun w => .write w.1 w.2) = some filled)
    {size : BitVec 64} (hpos : 1 ≤ size.toNat) (hle : size.toNat ≤ psize) :
    pptr = some (a.ptrOf a.logHead) ∧
      (FinalizesLikeAlloc a filled size (psize / a.cellSize) ↔
        cellsFor a size < psize / a.cellSize) := by
  obtain ⟨hS, hshape⟩ := shape_of_run hnew hcell hrun
  have hcs := hS.cell_pos
  have hbytes := psize_of_prepared hS hprepare
  have hcells : psize / a.cellSize = logallocHintCells a sizeHint := by
    rw [hbytes, Nat.mul_div_cancel _ hcs]
  obtain ⟨n, hn⟩ : ∃ n, logallocHintCells a sizeHint = n := ⟨_, rfl⟩
  rw [hn] at hbytes hcells
  have hnpos : 0 < n := by
    rcases Nat.eq_zero_or_pos n with hzero | hpos'
    · rw [hzero, Nat.zero_mul] at hbytes
      omega
    · exact hpos'
  obtain ⟨hptr, -, hP⟩ := preparedAt_of_ok hshape hS.head hprepare (hn ▸ hnpos)
  rw [hn] at hP
  have hroom := hP.room
  obtain ⟨hreq, hused, hfew⟩ := cellsFor_spec hS hpos (hbytes ▸ hle) (by omega)
  have hne : size ≠ 0 := by
    rintro rfl
    exact absurd hpos (by decide)
  obtain ⟨hsame, hlog, hnr, href⟩ := exec_write_frame writes a'
    (fun w hw => by
      rw [hP.same.cellSize]
      exact hout w hw) hfill
  have hboth := hP.same.trans hsame
  have hlog' : filled.logHead = a.logHead := hlog.trans hP.head
  have hreq' : logallocReqCells filled size = cellsFor a size := by
    rw [← hreq, logallocReqCells, logallocReqCells, hboth.cellSize]
  obtain ⟨b, hfinal, hsame_b, hlog_b, hnr_b, hexact, hrest⟩ := logallocFinalizeRegion_ok
    (hboth.shape hshape) (by rw [hlog', hboth.nrCells]; exact hS.head) hne hreq' hused hfew
    (by rw [hlog']; exact hnr.trans hP.length) (by rw [hlog', hboth.nrCells]; exact hroom) hP.max
  have hsame' := hboth.trans hsame_b
  rw [hlog', hboth.nrCells] at hlog_b
  rw [hlog'] at hnr_b hexact hrest
  refine ⟨hptr, hcells ▸ ⟨fun h => ?_, fun hlt => ⟨?_, ?_⟩⟩⟩
  · -- where all cells are used, the block has no reference
    obtain ⟨b', hb', hout', -⟩ := h.finalized
    obtain rfl : b = b' := by
      rw [hfinal, Option.some.injEq, Prod.mk.injEq] at hb'
      exact hb'.2
    refine Nat.lt_of_le_of_ne hfew fun heq => ?_
    have hzero := (hexact heq).trans (href.trans hP.refs)
    rw [hout'.refs] at hzero
    exact absurd hzero (by decide)
  · obtain ⟨hone, hfree, hleft⟩ := hrest hlt
    refine ⟨b, hfinal, ⟨hone, hnr_b, ?_, ?_⟩, fun _ => ⟨hfree, hleft⟩⟩
    · rw [hlog_b, hsame'.nrCells]
    · exact logallocFree_ok (hsame'.shape hshape) (by rw [hsame'.nrCells]; exact hS.head) (by omega)
  · obtain ⟨c, halloc, hsame_c, hlog_c, hnr_c, hone_c⟩ :=
      logallocAlloc_ok hshape hS.head hne hreq hused hfew hP
    refine ⟨c, halloc, hone_c, hnr_c, ?_, ?_⟩
    · rw [hlog_c, hsame_c.nrCells]
    · exact logallocFree_ok (hsame_c.shape hshape) (by rw [hsame_c.nrCells]; exact hS.head) (by omega)

/-- Two cells are prepared behind a block, a byte is written, and one cell is used. -/
theorem finalizesLikeAlloc_iff_three :
    ∃ ret a₀ a a' filled, sixSmallCells = some (ret, some a₀) ∧
      exec regionStep a₀ [.alloc 4] = some a ∧
      logallocPrepareRegion a 8 none 0 = some (aOk, some 6, 8, a') ∧
      exec regionStep a' [.write 6 1] = some filled ∧ FinalizesLikeAlloc a filled 3 2 := by
  obtain ⟨ret, a₀, hnew⟩ := sixSmallCells_new
  have hrun : ((sixSmallCells.bind Prod.snd).bind fun a₀ =>
      (exec regionStep a₀ [.alloc 4]).bind fun a =>
        (logallocPrepareRegion a 8 none 0).bind fun r =>
          (exec regionStep r.2.2.2 [.write 6 1]).map fun _ =>
            ((a.cellSize, a.logHead), r.1, r.2.1, r.2.2.1)) =
      some ((4, 1), aOk, some 6, 8) := by decide +kernel
  rw [hnew, Option.bind_some, Option.bind_some] at hrun
  obtain ⟨a, hexec, hrun⟩ := Option.bind_eq_some_iff.1 hrun
  obtain ⟨⟨res, pptr, psize, a'⟩, hprepare, hrun⟩ := Option.bind_eq_some_iff.1 hrun
  obtain ⟨filled, hfill, heq⟩ := Option.map_eq_some_iff.1 hrun
  simp only [Prod.mk.injEq] at heq
  obtain ⟨⟨hcell, hhead⟩, rfl, rfl, rfl⟩ := heq
  refine ⟨ret, a₀, a, a', filled, hnew, hexec, hprepare, hfill, ?_⟩
  have hiff := (finalizesLikeAlloc_iff hnew (by decide) _ hexec hprepare [(6, 1)]
    (by rw [hcell, hhead]; decide) hfill (show 1 ≤ BitVec.toNat (3 : BitVec 64) by decide)
    (by decide)).2
  rw [hcell] at hiff
  refine hiff.2 ?_
  rw [cellsFor, hcell]
  decide

/-- One cell is prepared and used: the call succeeds, but the block it leaves is not live, and cannot
    be given back. -/
theorem exact_fit_not_live :
    ∃ ret a₀ a' a'', sixSmallCells = some (ret, some a₀) ∧
      logallocPrepareRegion a₀ 4 none 0 = some (aOk, some 2, 4, a') ∧
      logallocFinalizeRegion a' 4 = some (aOk, a'') ∧ a''.refAt 0 = 0 ∧
      (logallocFree a'' 2).map Prod.fst = some aEInval ∧ ¬ FinalizesLikeAlloc a₀ a' 4 1 := by
  obtain ⟨ret, a₀, hnew⟩ := sixSmallCells_new
  have hrun : ((sixSmallCells.bind Prod.snd).bind fun a₀ =>
      (logallocPrepareRegion a₀ 4 none 0).bind fun r =>
        (logallocFinalizeRegion r.2.2.2 4).map fun f =>
          ((a₀.logHead, r.1, r.2.1, r.2.2.1), f.1, f.2.refAt 0,
            (logallocFree f.2 2).map Prod.fst)) =
      some ((0, aOk, some 2, 4), aOk, 0, some aEInval) := by decide +kernel
  rw [hnew, Option.bind_some, Option.bind_some] at hrun
  obtain ⟨⟨res, pptr, psize, a'⟩, hprepare, hrun⟩ := Option.bind_eq_some_iff.1 hrun
  obtain ⟨⟨res', a''⟩, hfinal, heq⟩ := Option.map_eq_some_iff.1 hrun
  simp only [Prod.mk.injEq] at heq
  obtain ⟨⟨hhead, rfl, rfl, rfl⟩, rfl, hzero, hfree⟩ := heq
  refine ⟨ret, a₀, a', a'', hnew, hprepare, hfinal, hzero, hfree, fun h => ?_⟩
  obtain ⟨b, hb, hout, -⟩ := h.finalized
  rw [hfinal, Option.some.injEq, Prod.mk.injEq] at hb
  have hone := hout.refs
  rw [← hb.2, hhead, hzero] at hone
  exact absurd hone (by decide)

end Tsl
