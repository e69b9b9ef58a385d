import Tsl.Alloc.Logalloc.Region

set_option autoImplicit false

/-! # What a refused allocation leaves behind

When a request does not fit between the log head and the end of the region, `logalloc_alloc` turns the
cells up to the end into one free block before it looks for room at cell 0. If there is none, the
allocator is not what it was: later requests find that block (`refusedUnchanged_iff`). -/

namespace Tsl

open Lib

/-- The log head and all headers are what they were. -/
def Unchanged (a a' : Logalloc) : Prop :=
  a'.logHead = a.logHead ∧
    ∀ cell < a.nrCells, a'.nrAt cell = a.nrAt cell ∧ a'.refAt cell = a.refAt cell

/-- The cell at the log head is free, and the request is for too many cells to fit behind it, but for no
    more than there are: `logalloc_alloc` goes on at cell 0. -/
def WrapsAround (a : Logalloc) (size : BitVec 64) : Prop :=
  a.refAt a.logHead = 0 ∧ logallocReqCells a size ≤ 255 ∧ logallocReqCells a size ≤ a.nrCells ∧
    a.nrCells - a.logHead < logallocReqCells a size

instance (a : Logalloc) (size : BitVec 64) : Decidable (WrapsAround a size) :=
  inferInstanceAs (Decidable (_ ∧ _))

section Refused

variable {a a' : Logalloc} {ret : AResult} {pptr before : Option ℕ} {size : BitVec 64}

theorem Unchanged.refl (a : Logalloc) : Unchanged a a := ⟨rfl, fun _ _ => ⟨rfl, rfl⟩⟩

theorem logallocCarve_refused {nr w req : ℕ} (hfail : ret ≠ aOk)
    (h : logallocCarve a nr w req = some (ret, pptr, a')) : pptr = none ∧ a' = a := by
  unfold logallocCarve at h
  obtain ⟨⟨i, last⟩, -, h⟩ := Option.bind_eq_some_iff.1 h
  by_cases hfew : i < req
  · simp only [if_pos hfew, Option.some.injEq, Prod.mk.injEq] at h
    exact ⟨h.2.1.symm, h.2.2.symm⟩
  · simp only [if_neg hfew] at h
    obtain ⟨b, -, h⟩ := Option.bind_eq_some_iff.1 h
    split at h
    · obtain ⟨b', -, h⟩ := Option.bind_eq_some_iff.1 h
      simp only [Option.some.injEq, Prod.mk.injEq] at h
      exact absurd h.1.symm hfail
    · simp only [Option.some.injEq, Prod.mk.injEq] at h
      exact absurd h.1.symm hfail

/-- Writing a header over a free one changes it unless its length was the one that is written. -/
theorem unchanged_setHeader_iff {cell nr : ℕ} (hcell : cell < a.nrCells) (href : a.refAt cell = 0)
    (h : a.setHeader (cell * a.cellSize) 0 nr = some a') :
    Unchanged a a' ↔ a.nrAt cell = nr % 256 := by
  obtain ⟨b, hb, h⟩ := Option.bind_eq_some_iff.1 h
  obtain ⟨-, hb⟩ := Option.ite_none_right_eq_some.1 hb
  obtain ⟨-, h⟩ := Option.ite_none_right_eq_some.1 h
  cases hb
  cases h
  constructor
  · intro hsame
    rw [← (hsame.2 cell hcell).1]
    simp [Logalloc.nrAt]
  · intro hnr
    have hbyte : a.rgn (cell * a.cellSize + 1) = 0 := BitVec.eq_of_toNat_eq href
    have hlen : BitVec.ofNat 8 nr = a.rgn (cell * a.cellSize) := by
      refine BitVec.eq_of_toNat_eq ?_
      rw [BitVec.toNat_ofNat]
      exact hnr.symm
    have hrgn : Function.update (Function.update a.rgn (cell * a.cellSize + 1) (BitVec.ofNat 8 0))
        (cell * a.cellSize) (BitVec.ofNat 8 nr) = a.rgn := by
      have hzero : BitVec.ofNat 8 0 = a.rgn (cell * a.cellSize + 1) := hbyte.symm
      rw [hlen, hzero, Function.update_eq_self, Function.update_eq_self]
    simp only [hrgn]
    exact Unchanged.refl a

/-- A call that fails. -/
theorem logallocAlloc_refused_iff (hhead : a.logHead < a.nrCells) (hsize : size ≠ 0)
    (hcall : logallocAlloc a size before = some (ret, pptr, a')) (hfail : ret ≠ aOk) :
    pptr = none ∧ (Unchanged a a' ↔
      ¬ WrapsAround a size ∨ a.nrAt a.logHead = (a.nrCells - a.logHead) % 256) := by
  simp only [logallocAlloc, if_neg hsize] at hcall
  split at hcall
  · next hbig =>
      simp only [Option.some.injEq, Prod.mk.injEq] at hcall
      obtain ⟨-, rfl, rfl⟩ := hcall
      refine ⟨rfl, iff_of_true (.refl a) (.inl fun hwraps => ?_)⟩
      have hmax := hwraps.2.1
      have hroom := hwraps.2.2.1
      omega
  · next hbig =>
      obtain ⟨refcnt, hload, hcall⟩ := Option.bind_eq_some_iff.1 hcall
      obtain ⟨-, hload⟩ := Option.ite_none_right_eq_some.1 hload
      have href : refcnt.toNat = a.refAt a.logHead := by
        rw [← Option.some.inj hload]
        rfl
      split at hcall
      · next hoccupied =>
          simp only [Option.some.injEq, Prod.mk.injEq] at hcall
          obtain ⟨-, rfl, rfl⟩ := hcall
          refine ⟨rfl, iff_of_true (.refl a) (.inl fun hwraps => hoccupied ?_)⟩
          exact BitVec.eq_of_toNat_eq (href.trans hwraps.1)
      · next hfree =>
          rw [not_not] at hfree
          rw [hfree] at href
          have hzero : a.refAt a.logHead = 0 := href.symm
          split at hcall
          · next hwrap =>
              obtain ⟨b, hset, hcall⟩ := Option.bind_eq_some_iff.1 hcall
              obtain ⟨rfl, rfl⟩ := logallocCarve_refused hfail hcall
              refine ⟨rfl, (unchanged_setHeader_iff hhead hzero hset).trans
                ⟨.inr, fun h => h.resolve_left fun hnot => hnot ?_⟩⟩
              exact ⟨hzero, by omega, by omega, hwrap⟩
          · next hroom =>
              obtain ⟨rfl, rfl⟩ := logallocCarve_refused hfail hcall
              exact ⟨rfl, iff_of_true (.refl _) (.inl fun hwraps => hroom hwraps.2.2.2)⟩

end Refused

/-- **What a call of `logalloc_alloc` that fails leaves behind**, in every state that calls on a new
    allocator lead to, and whatever clients write: the allocator as it was, exactly if the call does
    not go on at cell 0, or the block at the log head has been turned into the rest of the region
    before. -/
theorem refusedUnchanged_iff {cellSize nrCells : BitVec 64} {calloc : Bool}
    {alloc : BitVec 64 → AResult × (ℕ → BitVec 8)} {ret₀ : AResult} {a₀ a : Logalloc}
    (hnew : logallocNew cellSize nrCells calloc alloc = some (ret₀, some a₀))
    (calls : List RegionCall) (hrun : exec regionStep a₀ calls = some a) {size : BitVec 64}
    (hsize : size ≠ 0) {before pptr : Option ℕ} {ret : AResult} {a' : Logalloc}
    (hcall : logallocAlloc a size before = some (ret, pptr, a')) (hfail : ret ≠ aOk) :
    (pptr = none ∧ Unchanged a a') ↔
      ¬ WrapsAround a size ∨ a.nrAt a.logHead = (a.nrCells - a.logHead) % 256 := by
  have hS : a.Sized := exec_invariant regionStep_sized (logallocNew_sized hnew) hrun
  obtain ⟨hnone, hiff⟩ := logallocAlloc_refused_iff hS.head hsize hcall hfail
  rw [and_iff_right hnone]
  exact hiff

/-- Behind four cells that are live there is no room for three. The second time that is asked, the rest
    has been marked already. -/
theorem refusedUnchanged_iff_again :
    ∃ ret₀ a₀ a a', sixSmallCells = some (ret₀, some a₀) ∧
      exec regionStep a₀ [.alloc 16, .alloc 12] = some a ∧
      logallocAlloc a 12 none = some (aENomem, none, a') ∧ Unchanged a a' := by
  obtain ⟨ret₀, a₀, hnew⟩ := sixSmallCells_new
  have hrun : ((sixSmallCells.bind Prod.snd).bind fun a₀ =>
      (exec regionStep a₀ [.alloc 16, .alloc 12]).bind fun a =>
        (logallocAlloc a 12 none).map fun r =>
          (r.1, r.2.1, decide (a.nrAt a.logHead = (a.nrCells - a.logHead) % 256))) =
      some (aENomem, none, true) := by decide +kernel
  rw [hnew, Option.bind_some, Option.bind_some] at hrun
  obtain ⟨a, hexec, hcall⟩ := Option.bind_eq_some_iff.1 hrun
  obtain ⟨⟨ret, pptr, a'⟩, halloc, heq⟩ := Option.map_eq_some_iff.1 hcall
  simp only [Prod.mk.injEq] at heq
  obtain ⟨rfl, rfl, hmarked⟩ := heq
  exact ⟨ret₀, a₀, a, a', hnew, hexec, halloc, ((refusedUnchanged_iff hnew _ hexec (by decide) halloc
    (by decide)).2 (.inr (of_decide_eq_true hmarked))).2⟩

/-- The first time, the block at the log head had no length, and has length 2 afterwards. -/
theorem refused_marks_rest :
    ∃ ret₀ a₀ a a', sixSmallCells = some (ret₀, some a₀) ∧
      exec regionStep a₀ [.alloc 16] = some a ∧
      logallocAlloc a 12 none = some (aENomem, none, a') ∧ a.logHead = 4 ∧ a.nrAt 4 = 0 ∧
      a'.nrAt 4 = 2 ∧ ¬ Unchanged a a' := by
  obtain ⟨ret₀, a₀, hnew⟩ := sixSmallCells_new
  have hrun : ((sixSmallCells.bind Prod.snd).bind fun a₀ =>
      (exec regionStep a₀ [.alloc 16]).bind fun a =>
        (logallocAlloc a 12 none).map fun r =>
          (r.1, r.2.1, a.logHead, a.nrCells, a.nrAt 4, r.2.2.nrAt 4)) =
      some (aENomem, none, 4, 6, 0, 2) := by decide +kernel
  rw [hnew, Option.bind_some, Option.bind_some] at hrun
  obtain ⟨a, hexec, hcall⟩ := Option.bind_eq_some_iff.1 hrun
  obtain ⟨⟨ret, pptr, a'⟩, halloc, heq⟩ := Option.map_eq_some_iff.1 hcall
  simp only [Prod.mk.injEq] at heq
  obtain ⟨rfl, rfl, hhead, hcells, hbefore, hafter⟩ := heq
  refine ⟨ret₀, a₀, a, a', hnew, hexec, halloc, hhead, hbefore, hafter, fun hsame => ?_⟩
  have heq := (hsame.2 4 (by omega)).1
  rw [hafter, hbefore] at heq
  exact absurd heq (by decide)

end Tsl
