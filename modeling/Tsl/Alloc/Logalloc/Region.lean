import Tsl.Alloc.Logalloc.Chain

set_option autoImplicit false

/-! # Regions of the log allocator, and what is handed out

`logalloc_prepare_region` and `logalloc_finalize_region` give out the cells at the log head before it
is known how much of them is needed.

Whatever the headers say, the log head stays in the region and what is handed out starts two bytes
into its first cell, after the header. The number of cells is computed as if there were no header, so
the bytes handed out fit them only for some sizes (`handsOutInside_iff`). -/

namespace Tsl

open Lib

/-! ## The code -/

/-- The loop of `logalloc_prepare_region` that looks for free blocks, from `foundCells` on: how many
    cells it finds, and whether the last header says that all cells up to the end are free. It has
    divided by `cell_size` before. -/
def logallocScan (a : Logalloc) (nrCells availCells virtLogHead foundCells : ℕ) :
    Option (ℕ × Bool) :=
  if _hcell : 0 < a.cellSize then
    match _hload : a.loadRefcnt ((virtLogHead + foundCells) * a.cellSize) with
    | none => none
    | some refcnt =>
        if refcnt ≠ 0 then some (foundCells, false)
        else
          match a.loadNrCells ((virtLogHead + foundCells) * a.cellSize) with
          | none => none
          | some nr =>
              if _hnr : nr.toNat = 0 then
                -- a `size_t`, which wraps where the log head is past the middle
                let found := BitVec.ofNat 64 foundCells
                some ((found + (BitVec.ofNat 64 availCells - BitVec.ofNat 64 virtLogHead -
                  found)).toNat, true)
              else if nrCells < foundCells + nr.toNat then
                logallocScan a nrCells availCells virtLogHead (foundCells + nr.toNat)
              else some (foundCells + nr.toNat, false)
  else none
termination_by a.regionSize - foundCells
decreasing_by
  have hlt : (virtLogHead + foundCells) * a.cellSize + 1 < a.regionSize := by
    by_contra hge
    rw [Logalloc.loadRefcnt, Logalloc.load, if_neg hge] at _hload
    cases _hload
  have hmul := Nat.le_mul_of_pos_right (virtLogHead + foundCells) _hcell
  omega

/-- The loop of `logalloc_prepare_region` that marks the rest of the cells found as free. -/
def logallocMarkCells (a : Logalloc) (virtLogHead curCell remCells : ℕ) : Option Logalloc :=
  if _h : remCells > 0 then do
    let nr := if remCells > 255 then 255 else remCells
    let a ← a.setHeader ((virtLogHead + curCell) * a.cellSize) 0 nr
    logallocMarkCells a virtLogHead (curCell + nr) (remCells - nr)
  else some a
termination_by remCells
decreasing_by
  split <;> omega

/-- The number of cells `logalloc_prepare_region` asks for. -/
def logallocHintCells (a : Logalloc) (sizeHint : BitVec 64) : ℕ :=
  if 255 < logallocReqCells a sizeHint then 255 else logallocReqCells a sizeHint

/-- `logalloc_prepare_region`: the result code, `*pptr` and `*psize`. -/
def logallocPrepareRegion (a : Logalloc) (sizeHint : BitVec 64) (pptr : Option ℕ) (psize : ℕ) :
    Option (AResult × Option ℕ × ℕ × Logalloc) :=
  if sizeHint = 0 then some (aEBadargs, pptr, psize, a)
  else
    let nrCells := logallocHintCells a sizeHint
    let availCells := a.nrCells - a.logHead
    if availCells < nrCells then some (aENomem, pptr, psize, a)
    else do
      let refcnt ← a.loadRefcnt (a.logHead * a.cellSize)
      if refcnt ≠ 0 then some (aENomem, pptr, psize, a)
      else do
        -- the cells were compared before, so this never wraps
        let virtLogHead := if availCells < nrCells then 0 else a.logHead
        let (foundCells, remainder) ← logallocScan a nrCells availCells virtLogHead 0
        if foundCells < nrCells then some (aENomem, pptr, psize, a)
        else do
          let a := { a with logHead := virtLogHead }
          let a ← a.setHeader (virtLogHead * a.cellSize) 0 nrCells
          let a ← if remainder then a.setHeader ((virtLogHead + nrCells) * a.cellSize) 0 0
            else logallocMarkCells a virtLogHead nrCells (foundCells - nrCells)
          some (aOk, some (virtLogHead * a.cellSize + 2), nrCells * a.cellSize % 2 ^ 64, a)

/-- `logalloc_finalize_region`. -/
def logallocFinalizeRegion (a : Logalloc) (size : BitVec 64) : Option (AResult × Logalloc) :=
  if size = 0 then some (aEBadargs, a)
  else
    let nrCellsUsed := logallocReqCells a size
    let ch := a.logHead * a.cellSize
    if nrCellsUsed > 255 then some (aEInval, a)
    else do
      let nr ← a.loadNrCells ch
      if nrCellsUsed > nr.toNat then some (aEInval, a)
      else
        let a := { a with logHead := (a.logHead + nrCellsUsed) % a.nrCells }
        if nr.toNat = nrCellsUsed then some (aOk, a)
        else do
          let a ← a.setHeader ch 1 nrCellsUsed
          let a ← a.setHeader (a.logHead * a.cellSize) 0 (nr.toNat - nrCellsUsed)
          some (aOk, a)

/-- The calls on an allocator. In between, its clients write what they like. -/
inductive RegionCall where
  | alloc (size : BitVec 64)
  | reference (ptr : ℕ)
  | free (ptr : ℕ)
  | prepare (sizeHint : BitVec 64)
  | finalize (size : BitVec 64)
  | write (addr : ℕ) (val : BitVec 8)

/-- One call. -/
def regionStep (a : Logalloc) : RegionCall → Option Logalloc
  | .alloc size => (logallocAlloc a size none).map fun (_, _, a) => a
  | .reference ptr => (logallocReference a ptr).map fun (_, a) => a
  | .free ptr => (logallocFree a ptr).map fun (_, a) => a
  | .prepare sizeHint => (logallocPrepareRegion a sizeHint none 0).map fun (_, _, _, a) => a
  | .finalize size => (logallocFinalizeRegion a size).map fun (_, a) => a
  | .write addr val => a.store addr val

/-! ## What should be handed out -/

/-- The `size` bytes at `ptr` lie in the region, and in the `cells` cells from the one on whose header
    is before `ptr`. -/
def InsideCells (a : Logalloc) (ptr size cells : ℕ) : Prop :=
  ∀ addr, ptr ≤ addr → addr < ptr + size → addr < a.regionSize ∧
    (ptr - 2) / a.cellSize ≤ addr / a.cellSize ∧
      addr / a.cellSize < (ptr - 2) / a.cellSize + cells

/-- A size that leaves room for the header in the last of its cells, and whose number of cells does
    not wrap. -/
def LeavesRoom (a : Logalloc) (size : BitVec 64) : Prop :=
  size.toNat % a.cellSize ≠ 0 ∧ size.toNat % a.cellSize ≠ a.cellSize - 1 ∧
    size.toNat + a.cellSize ≤ 2 ^ 64

/-! ## What no call changes -/

/-- The region is a whole number of cells and its size divides the address space evenly; the log head
    is in it. -/
structure Logalloc.Sized (a : Logalloc) : Prop where
  cell_dvd : a.cellSize ∣ 2 ^ 64
  region : a.regionSize = a.nrCells * a.cellSize
  region_lt : a.regionSize < 2 ^ 64
  head : a.logHead < a.nrCells

/-- `a'` has the cells of `a`, and its log head is that of `a` or another cell. -/
structure Logalloc.Moved (a a' : Logalloc) : Prop where
  same : a.SameCells a'
  head : a'.logHead = a.logHead ∨ a'.logHead < a.nrCells

section Moved

open Logalloc

variable {a a' a'' : Logalloc}

theorem Logalloc.Moved.refl (a : Logalloc) : a.Moved a := ⟨⟨rfl, rfl⟩, .inl rfl⟩

theorem Logalloc.Moved.trans (h : a.Moved a') (h' : a'.Moved a'') : a.Moved a'' where
  same := h.same.trans h'.same
  head := by
    rcases h'.head with heq | hlt
    · rw [heq]
      exact h.head
    · exact .inr (h.same.nrCells ▸ hlt)

theorem Logalloc.Sized.moved (hS : a.Sized) (h : a.Moved a') : a'.Sized where
  cell_dvd := h.same.cellSize ▸ hS.cell_dvd
  region := by
    rw [h.same.regionSize, h.same.nrCells, h.same.cellSize]
    exact hS.region
  region_lt := h.same.regionSize ▸ hS.region_lt
  head := by
    rw [h.same.nrCells]
    rcases h.head with heq | hlt
    · exact heq ▸ hS.head
    · exact hlt

theorem Logalloc.Sized.nrCells_pos (hS : a.Sized) : 0 < a.nrCells := Nat.zero_lt_of_lt hS.head

theorem moved_setHead {head : ℕ} (h : head = a.logHead ∨ head < a.nrCells) :
    a.Moved { a with logHead := head } := ⟨⟨rfl, rfl⟩, h⟩

theorem store_moved {addr : ℕ} {val : BitVec 8} (h : a.store addr val = some a') : a.Moved a' := by
  unfold Logalloc.store at h
  split at h
  · cases h
    exact ⟨⟨rfl, rfl⟩, .inl rfl⟩
  · cases h

theorem setHeader_moved {ch refcnt nr : ℕ} (h : a.setHeader ch refcnt nr = some a') :
    a.Moved a' := by
  obtain ⟨b, hb, ha'⟩ := Option.bind_eq_some_iff.1 h
  exact (store_moved hb).trans (store_moved ha')

theorem logallocMarkRest_moved {rem : ℕ} (h : logallocMarkRest a rem = some a') : a.Moved a' := by
  induction rem using Nat.strong_induction_on generalizing a with
  | _ rem ih =>
      rw [logallocMarkRest] at h
      obtain ⟨b, hb, ha'⟩ := Option.bind_eq_some_iff.1 h
      by_cases hrem : rem - (if rem > 255 then 255 else rem) > 0
      · rw [dif_pos hrem] at ha'
        refine (setHeader_moved hb).trans (ih _ ?_ ha')
        split at hrem <;> split <;> omega
      · rw [dif_neg hrem] at ha'
        cases ha'
        exact setHeader_moved hb

theorem logallocMarkCells_moved {virt cur rem : ℕ}
    (h : logallocMarkCells a virt cur rem = some a') : a.Moved a' := by
  induction rem using Nat.strong_induction_on generalizing a cur with
  | _ rem ih =>
      rw [logallocMarkCells] at h
      by_cases hrem : rem > 0
      · rw [dif_pos hrem] at h
        obtain ⟨b, hb, ha'⟩ := Option.bind_eq_some_iff.1 h
        refine (setHeader_moved hb).trans (ih _ ?_ ha')
        split <;> omega
      · rw [dif_neg hrem] at h
        cases h
        exact .refl _

/-- A call that refuses leaves the allocator alone; `state` is the allocator among what it answers. -/
theorem moved_of_refused {β : Type*} (state : β → Logalloc) {x y : β} {err ret : AResult} {P : Prop}
    (herr : err ≠ aOk) (h : some (err, x) = some (ret, y)) :
    (state x).Moved (state y) ∧ (ret = aOk → P) := by
  simp only [Option.some.injEq, Prod.mk.injEq] at h
  obtain ⟨rfl, rfl⟩ := h
  exact ⟨.refl _, fun hok => absurd hok herr⟩

/-- The part of `logalloc_alloc` from the working log head on: what it hands out starts there. -/
theorem logallocCarve_moved {nr w req : ℕ} (hnr : nr = a.nrCells) (hpos : 0 < nr) {ret : AResult}
    {pptr : Option ℕ} (h : logallocCarve a nr w req = some (ret, pptr, a')) :
    a.Moved a' ∧ (ret = aOk → pptr = some (w * a.cellSize + 2)) := by
  unfold logallocCarve at h
  obtain ⟨⟨i, last⟩, -, h⟩ := Option.bind_eq_some_iff.1 h
  by_cases hfew : i < req
  · simp only [if_pos hfew] at h
    exact moved_of_refused Prod.snd (by decide) h
  · simp only [if_neg hfew] at h
    obtain ⟨b, hb, h⟩ := Option.bind_eq_some_iff.1 h
    have hmoved := setHeader_moved hb
    have hhead : a.Moved { b with logHead := (w + req) % nr } :=
      hmoved.trans (moved_setHead (.inr (by
        rw [hmoved.same.nrCells, ← hnr]
        exact Nat.mod_lt _ hpos)))
    split at h
    · obtain ⟨b', hb', h⟩ := Option.bind_eq_some_iff.1 h
      simp only [Option.some.injEq, Prod.mk.injEq] at h
      obtain ⟨-, rfl, rfl⟩ := h
      exact ⟨hhead.trans (logallocMarkRest_moved hb'), fun _ => rfl⟩
    · simp only [Option.some.injEq, Prod.mk.injEq] at h
      obtain ⟨-, rfl, rfl⟩ := h
      exact ⟨hhead, fun _ => rfl⟩

/-- `logalloc_alloc`: what it hands out starts at a cell from which on the cells are in the region. -/
theorem logallocAlloc_moved (hS : a.Sized) {size : BitVec 64} {before pptr : Option ℕ}
    {ret : AResult} (h : logallocAlloc a size before = some (ret, pptr, a')) :
    a.Moved a' ∧ (ret = aOk → ∃ w, w + logallocReqCells a size ≤ a.nrCells ∧
      pptr = some (w * a.cellSize + 2)) := by
  have hhead := hS.head
  unfold logallocAlloc at h
  split at h
  · exact moved_of_refused Prod.snd (by decide) h
  · simp only at h
    split at h
    · exact moved_of_refused Prod.snd (by decide) h
    · next hreq =>
        obtain ⟨refcnt, -, h⟩ := Option.bind_eq_some_iff.1 h
        split at h
        · exact moved_of_refused Prod.snd (by decide) h
        · split at h
          · obtain ⟨b, hb, h⟩ := Option.bind_eq_some_iff.1 h
            have hmoved := setHeader_moved hb
            obtain ⟨hcarve, hptr⟩ :=
              logallocCarve_moved hmoved.same.nrCells.symm hS.nrCells_pos h
            refine ⟨hmoved.trans hcarve, fun hok => ⟨0, by omega, ?_⟩⟩
            rw [hptr hok, hmoved.same.cellSize]
          · next hroom =>
              obtain ⟨hcarve, hptr⟩ := logallocCarve_moved rfl hS.nrCells_pos h
              exact ⟨hcarve, fun hok => ⟨a.logHead, by omega, hptr hok⟩⟩

theorem logallocPrepareRegion_moved (hS : a.Sized) {sizeHint : BitVec 64} {before pptr : Option ℕ}
    {sizeBefore psize : ℕ} {ret : AResult}
    (h : logallocPrepareRegion a sizeHint before sizeBefore = some (ret, pptr, psize, a')) :
    a.Moved a' ∧ (ret = aOk → ∃ w, w + logallocHintCells a sizeHint ≤ a.nrCells ∧
      pptr = some (w * a.cellSize + 2) ∧
        psize = logallocHintCells a sizeHint * a.cellSize % 2 ^ 64) := by
  have hhead := hS.head
  unfold logallocPrepareRegion at h
  split at h
  · exact moved_of_refused (fun answer => answer.2.2) (by decide) h
  · simp only at h
    split at h
    · exact moved_of_refused (fun answer => answer.2.2) (by decide) h
    · next havail =>
        obtain ⟨refcnt, -, h⟩ := Option.bind_eq_some_iff.1 h
        split at h
        · exact moved_of_refused (fun answer => answer.2.2) (by decide) h
        · obtain ⟨⟨found, remainder⟩, -, h⟩ := Option.bind_eq_some_iff.1 h
          simp only at h
          split at h
          · exact moved_of_refused (fun answer => answer.2.2) (by decide) h
          · obtain ⟨b, hb, h⟩ := Option.bind_eq_some_iff.1 h
            have hmoved : a.Moved b :=
              (moved_setHead (.inl rfl)).trans (setHeader_moved hb)
            -- either way the headers behind the block are rewritten
            obtain ⟨b', hrest, h⟩ : ∃ b', b.Moved b' ∧
                some (aOk, some (a.logHead * b'.cellSize + 2),
                  logallocHintCells a sizeHint * b'.cellSize % 2 ^ 64, b') =
                  some (ret, pptr, psize, a') := by
              split at h
              · obtain ⟨b', hb', h⟩ := Option.bind_eq_some_iff.1 h
                exact ⟨b', setHeader_moved hb', h⟩
              · obtain ⟨b', hb', h⟩ := Option.bind_eq_some_iff.1 h
                exact ⟨b', logallocMarkCells_moved hb', h⟩
            have hsame := hmoved.trans hrest
            simp only [hsame.same.cellSize, Option.some.injEq, Prod.mk.injEq] at h
            obtain ⟨-, rfl, rfl, rfl⟩ := h
            exact ⟨hsame, fun _ => ⟨a.logHead, by omega, rfl, rfl⟩⟩

theorem logallocFinalizeRegion_moved (hS : a.Sized) {size : BitVec 64} {ret : AResult}
    (h : logallocFinalizeRegion a size = some (ret, a')) : a.Moved a' := by
  unfold logallocFinalizeRegion at h
  split at h
  · cases h
    exact .refl a
  · simp only at h
    split at h
    · cases h
      exact .refl a
    · obtain ⟨nr, -, h⟩ := Option.bind_eq_some_iff.1 h
      split at h
      · cases h
        exact .refl a
      · have hhead : a.Moved { a with
            logHead := (a.logHead + logallocReqCells a size) % a.nrCells } :=
          moved_setHead (.inr (Nat.mod_lt _ hS.nrCells_pos))
        split at h
        · cases h
          exact hhead
        · obtain ⟨b, hb, h⟩ := Option.bind_eq_some_iff.1 h
          obtain ⟨b', hb', h⟩ := Option.bind_eq_some_iff.1 h
          cases h
          exact (hhead.trans (setHeader_moved hb)).trans (setHeader_moved hb')

/-- A call that reads a reference count, and refuses it or stores another one. -/
theorem moved_of_recount {load : Option (BitVec 8)} {refused : BitVec 8 → Prop}
    [DecidablePred refused] {addr : ℕ} {recount : BitVec 8 → BitVec 8} {err ret : AResult}
    (h : (do
      let refcnt ← load
      if refused refcnt then some (err, a)
      else do
        let a ← a.store addr (recount refcnt)
        some (aOk, a)) = some (ret, a')) : a.Moved a' := by
  obtain ⟨refcnt, -, h⟩ := Option.bind_eq_some_iff.1 h
  split at h
  · cases h
    exact .refl a
  · obtain ⟨b, hb, h⟩ := Option.bind_eq_some_iff.1 h
    cases h
    exact store_moved hb

theorem logallocReference_moved {ptr : ℕ} {ret : AResult}
    (h : logallocReference a ptr = some (ret, a')) : a.Moved a' := moved_of_recount h

theorem logallocFree_moved {ptr : ℕ} {ret : AResult}
    (h : logallocFree a ptr = some (ret, a')) : a.Moved a' := moved_of_recount h

/-- **One call**, whatever the headers say. -/
theorem regionStep_moved (hS : a.Sized) {call : RegionCall} (hstep : regionStep a call = some a') :
    a.Moved a' := by
  cases call with
  | alloc size =>
      obtain ⟨⟨ret, pptr, b⟩, h, rfl⟩ := Option.map_eq_some_iff.1 hstep
      exact (logallocAlloc_moved hS h).1
  | reference ptr =>
      obtain ⟨⟨ret, b⟩, h, rfl⟩ := Option.map_eq_some_iff.1 hstep
      exact logallocReference_moved h
  | free ptr =>
      obtain ⟨⟨ret, b⟩, h, rfl⟩ := Option.map_eq_some_iff.1 hstep
      exact logallocFree_moved h
  | prepare sizeHint =>
      obtain ⟨⟨ret, pptr, psize, b⟩, h, rfl⟩ := Option.map_eq_some_iff.1 hstep
      exact (logallocPrepareRegion_moved hS h).1
  | finalize size =>
      obtain ⟨⟨ret, b⟩, h, rfl⟩ := Option.map_eq_some_iff.1 hstep
      exact logallocFinalizeRegion_moved hS h
  | write addr val => exact store_moved hstep

theorem regionStep_sized (a : Logalloc) (call : RegionCall) (a' : Logalloc) (hS : a.Sized)
    (hstep : regionStep a call = some a') : a'.Sized := hS.moved (regionStep_moved hS hstep)

end Moved

/-- The cells of a new allocator are a power of two, of 1 byte where `cell_size + 2` wraps to 1. -/
theorem logallocNew_sized {cellSize nrCells : BitVec 64} {calloc : Bool}
    {alloc : BitVec 64 → AResult × (ℕ → BitVec 8)} {ret : AResult} {a : Logalloc}
    (hnew : logallocNew cellSize nrCells calloc alloc = some (ret, some a)) : a.Sized := by
  by_cases hcell : cellSize = BitVec.allOnes 64
  · obtain ⟨-, hcells, rgn, a₁, h₁, h₂⟩ := logallocNew_inv hnew
    have hcel : tslRoundUp2_64 (cellSize + 2) = 1#64 := by
      rw [hcell]
      decide
    rw [hcel, BitVec.one_mul] at h₁
    refine Logalloc.Sized.moved ?_ ((store_moved h₁).trans (store_moved h₂))
    have hpos : 0 < nrCells.toNat := by
      by_contra hzero
      exact hcells (BitVec.eq_of_toNat_eq (show nrCells.toNat = 0 by omega))
    refine ⟨show 1 ∣ 2 ^ 64 by decide, ?_, nrCells.isLt, ?_⟩
    · change nrCells.toNat = nrCells.toNat / 1 * 1
      omega
    · change 0 < nrCells.toNat / 1
      omega
  · obtain ⟨hC, -, hlt, hdvd⟩ := logallocNew_spec hnew hcell
    exact ⟨hdvd, hC.shape.region, hlt, hC.tiling.lt _ hC.head⟩

/-! ## The bytes that fit the cells -/

section Bytes

variable {a : Logalloc} {size : BitVec 64}

theorem Logalloc.Sized.cell_pos (hS : a.Sized) : 0 < a.cellSize :=
  Nat.pos_of_dvd_of_pos hS.cell_dvd (by decide)

/-- The header takes the first two bytes of the cells. -/
theorem insideCells_iff (hS : a.Sized) {w size cells : ℕ} (hfit : w + cells ≤ a.nrCells)
    (hsize : 0 < size) :
    InsideCells a (w * a.cellSize + 2) size cells ↔ 2 + size ≤ cells * a.cellSize := by
  have hpos := hS.cell_pos
  have hstart : (w * a.cellSize + 2 - 2) / a.cellSize = w := by
    rw [Nat.add_sub_cancel, Nat.mul_div_cancel _ hpos]
  have hcells : (w + cells) * a.cellSize ≤ a.nrCells * a.cellSize := Nat.mul_le_mul_right _ hfit
  rw [InsideCells, hstart]
  rw [← hS.region, Nat.add_mul] at hcells
  constructor
  · intro hin
    obtain ⟨-, -, hlast⟩ := hin (w * a.cellSize + 2 + size - 1) (by omega) (by omega)
    rw [Nat.div_lt_iff_lt_mul hpos, Nat.add_mul] at hlast
    omega
  · intro hroom addr hlo hhi
    refine ⟨by omega, ?_, ?_⟩
    · rw [Nat.le_div_iff_mul_le hpos]
      omega
    · rw [Nat.div_lt_iff_lt_mul hpos, Nat.add_mul]
      omega

theorem reqCells_eq (hS : a.Sized) (hfits : size.toNat + a.cellSize ≤ 2 ^ 64) :
    logallocReqCells a size =
      size.toNat / a.cellSize + if size.toNat % a.cellSize = 0 then 0 else 1 := by
  have hpos := hS.cell_pos
  have hdiv := Nat.div_add_mod' size.toNat a.cellSize
  have hlt := Nat.mod_lt size.toNat hpos
  rw [logallocReqCells, Nat.mod_eq_of_lt (by omega)]
  split
  · rw [Nat.add_zero]
    refine Nat.div_eq_of_lt_le (by omega) ?_
    rw [Nat.add_mul]
    omega
  · refine Nat.div_eq_of_lt_le ?_ ?_
    · rw [Nat.add_mul]
      omega
    · rw [Nat.add_mul, Nat.add_mul]
      omega

theorem reqCells_wrapped (hS : a.Sized) (hwrap : 2 ^ 64 < size.toNat + a.cellSize) :
    logallocReqCells a size = 0 := by
  have hle := Nat.le_of_dvd (by decide) hS.cell_dvd
  have hlt := size.isLt
  rw [logallocReqCells, Nat.mod_eq_sub_mod (by omega), Nat.mod_eq_of_lt (by omega)]
  exact Nat.div_eq_of_lt (by omega)

theorem reqCells_pos_iff (hS : a.Sized) (hsize : 0 < size.toNat) :
    0 < logallocReqCells a size ↔ size.toNat + a.cellSize ≤ 2 ^ 64 := by
  constructor
  · intro hreq
    by_contra hwrap
    rw [reqCells_wrapped hS (by omega)] at hreq
    exact Nat.lt_irrefl 0 hreq
  · intro hfits
    have hdiv := Nat.div_add_mod' size.toNat a.cellSize
    rw [reqCells_eq hS hfits]
    split
    · have hq : size.toNat / a.cellSize ≠ 0 := by
        intro hzero
        rw [hzero] at hdiv
        omega
      exact Nat.pos_of_ne_zero hq
    · exact Nat.succ_pos _

/-- The header and the size fit the cells for the size exactly if the last cell has room for both. -/
theorem leavesRoom_iff (hS : a.Sized) :
    2 + size.toNat ≤ logallocReqCells a size * a.cellSize ↔ LeavesRoom a size := by
  have hpos := hS.cell_pos
  have hdiv := Nat.div_add_mod' size.toNat a.cellSize
  have hlt := Nat.mod_lt size.toNat hpos
  unfold LeavesRoom
  by_cases hfits : size.toNat + a.cellSize ≤ 2 ^ 64
  · rw [reqCells_eq hS hfits, Nat.add_mul]
    by_cases hwhole : size.toNat % a.cellSize = 0
    · rw [if_pos hwhole]
      refine iff_of_false (by omega) fun h => h.1 hwhole
    · rw [if_neg hwhole]
      constructor
      · exact fun h => ⟨hwhole, by omega, hfits⟩
      · rintro ⟨-, hlast, -⟩
        omega
  · rw [reqCells_wrapped hS (by omega)]
    exact iff_of_false (by omega) fun h => hfits h.2.2

theorem insideCells_alloc_iff (hS : a.Sized) {before : Option ℕ} {ptr : ℕ} {a' : Logalloc}
    (h : logallocAlloc a size before = some (aOk, some ptr, a')) :
    InsideCells a ptr size.toNat (logallocReqCells a size) ↔ LeavesRoom a size := by
  obtain ⟨w, hfit, hptr⟩ := (logallocAlloc_moved hS h).2 rfl
  cases hptr
  have hsize : 0 < size.toNat := by
    by_contra hzero
    have hz : size = 0 := BitVec.eq_of_toNat_eq (show size.toNat = 0 by omega)
    rw [logallocAlloc, if_pos hz] at h
    cases h
  rw [insideCells_iff hS hfit hsize, leavesRoom_iff hS]

theorem insideCells_prepare_iff (hS : a.Sized) {before : Option ℕ} {sizeBefore ptr psize : ℕ}
    {a' : Logalloc}
    (h : logallocPrepareRegion a size before sizeBefore = some (aOk, some ptr, psize, a')) :
    InsideCells a ptr psize (logallocHintCells a size) ↔ 2 ^ 64 < size.toNat + a.cellSize := by
  obtain ⟨w, hfit, hptr, hpsize⟩ := (logallocPrepareRegion_moved hS h).2 rfl
  cases hptr
  have hsize : 0 < size.toNat := by
    by_contra hzero
    have hz : size = 0 := BitVec.eq_of_toNat_eq (show size.toNat = 0 by omega)
    rw [logallocPrepareRegion, if_pos hz] at h
    cases h
  have hbytes : psize = logallocHintCells a size * a.cellSize := by
    have hle : logallocHintCells a size * a.cellSize ≤ a.nrCells * a.cellSize :=
      Nat.mul_le_mul_right _ (by omega)
    rw [hpsize, Nat.mod_eq_of_lt (Nat.lt_of_le_of_lt hle (hS.region ▸ hS.region_lt))]
  have hzero : logallocHintCells a size = 0 ↔ logallocReqCells a size = 0 := by
    unfold logallocHintCells
    split <;> omega
  by_cases hwrap : 2 ^ 64 < size.toNat + a.cellSize
  · have hnone : psize = 0 := by
      rw [hbytes, hzero.2 (reqCells_wrapped hS hwrap), Nat.zero_mul]
    refine iff_of_true ?_ hwrap
    intro addr hlo hhi
    omega
  · have hreq := (reqCells_pos_iff hS hsize).2 (by omega)
    have hmul : 0 < psize := by
      rw [hbytes]
      exact Nat.mul_pos (by omega) hS.cell_pos
    refine iff_of_false ?_ hwrap
    rw [insideCells_iff hS hfit hmul]
    omega

end Bytes

/-- **What is handed out stays inside its cells**, in every state that calls on a new allocator lead to:
for `logalloc_alloc` exactly if the size leaves room for the header, for `logalloc_prepare_region` only
if the size wraps, so that nothing is handed out. -/
theorem handsOutInside_iff {cellSize nrCells : BitVec 64} {calloc : Bool}
    {alloc : BitVec 64 → AResult × (ℕ → BitVec 8)} {ret : AResult} {a₀ a : Logalloc}
    (hnew : logallocNew cellSize nrCells calloc alloc = some (ret, some a₀))
    (calls : List RegionCall) (hrun : exec regionStep a₀ calls = some a) :
    (∀ size before ptr a', logallocAlloc a size before = some (aOk, some ptr, a') →
      (InsideCells a ptr size.toNat (logallocReqCells a size) ↔ LeavesRoom a size)) ∧
    ∀ sizeHint before sizeBefore ptr psize a',
      logallocPrepareRegion a sizeHint before sizeBefore = some (aOk, some ptr, psize, a') →
      (InsideCells a ptr psize (logallocHintCells a sizeHint) ↔
        2 ^ 64 < sizeHint.toNat + a.cellSize) := by
  have hS : a.Sized := exec_invariant regionStep_sized (logallocNew_sized hnew) hrun
  exact ⟨fun _ _ _ _ h => insideCells_alloc_iff hS h,
    fun _ _ _ _ _ _ h => insideCells_prepare_iff hS h⟩

/-- Six cells of four bytes. -/
def sixSmallCells : Option (AResult × Option Logalloc) :=
  logallocNew 2 6 true (logallocDefaultAlloc true)

theorem sixSmallCells_new : ∃ ret a, sixSmallCells = some (ret, some a) := by
  have hnew : (sixSmallCells.bind Prod.snd).isSome = true := by decide +kernel
  obtain ⟨a, ha⟩ := Option.isSome_iff_exists.1 hnew
  obtain ⟨⟨ret, _⟩, hsix, rfl⟩ := Option.bind_eq_some_iff.1 ha
  exact ⟨ret, a, hsix⟩

/-- Behind a block of one cell, and a region of two of which one is used, five bytes get two cells. -/
theorem handsOutInside_iff_fiveBytes :
    ∃ ret a₀ a ptr a', sixSmallCells = some (ret, some a₀) ∧
      exec regionStep a₀ [.alloc 1, .prepare 5, .finalize 2] = some a ∧
      logallocAlloc a 5 none = some (aOk, some ptr, a') ∧ InsideCells a ptr 5 2 := by
  obtain ⟨ret, a₀, hnew⟩ := sixSmallCells_new
  have hrun : ((sixSmallCells.bind Prod.snd).bind fun a₀ =>
      (exec regionStep a₀ [.alloc 1, .prepare 5, .finalize 2]).bind fun a =>
        (logallocAlloc a 5 none).map fun r => (a.cellSize, logallocReqCells a 5, r.1, r.2.1)) =
      some (4, 2, aOk, some 10) := by decide +kernel
  rw [hnew, Option.bind_some, Option.bind_some] at hrun
  obtain ⟨a, hexec, hcall⟩ := Option.bind_eq_some_iff.1 hrun
  obtain ⟨⟨res, pptr, a'⟩, halloc, heq⟩ := Option.map_eq_some_iff.1 hcall
  simp only [Prod.mk.injEq] at heq
  obtain ⟨hcell, hreq, rfl, rfl⟩ := heq
  refine ⟨ret, a₀, a, 10, a', hnew, hexec, halloc, ?_⟩
  have hiff := (handsOutInside_iff hnew _ hexec).1 5 none 10 a' halloc
  rw [hreq] at hiff
  refine hiff.2 ?_
  rw [LeavesRoom, hcell]
  decide

/-- Four bytes spill out of their one cell, as do the bytes of a region of one cell, and a size that
wraps gets no cell at all. -/
theorem payload_spills :
    ∃ ret a, sixSmallCells = some (ret, some a) ∧
      (∃ ptr a', logallocAlloc a 4 none = some (aOk, some ptr, a') ∧
        ¬ InsideCells a ptr 4 (logallocReqCells a 4)) ∧
      (∃ ptr a', logallocAlloc a (-1) none = some (aOk, some ptr, a') ∧
        ¬ InsideCells a ptr (2 ^ 64 - 1) (logallocReqCells a (-1))) ∧
      ∃ ptr a', logallocPrepareRegion a 4 none 0 = some (aOk, some ptr, 4, a') ∧
        ¬ InsideCells a ptr 4 (logallocHintCells a 4) := by
  obtain ⟨ret, a, hnew⟩ := sixSmallCells_new
  have hS := logallocNew_sized hnew
  have hfour : ((sixSmallCells.bind Prod.snd).bind fun a =>
      (logallocAlloc a 4 none).map fun r => (a.cellSize, r.1, r.2.1)) =
      some (4, aOk, some 2) := by decide +kernel
  have hwrap : ((sixSmallCells.bind Prod.snd).bind fun a =>
      (logallocAlloc a (-1) none).map fun r => (r.1, r.2.1)) = some (aOk, some 2) := by
    decide +kernel
  have hprepare : ((sixSmallCells.bind Prod.snd).bind fun a =>
      (logallocPrepareRegion a 4 none 0).map fun r => (r.1, r.2.1, r.2.2.1)) =
      some (aOk, some 2, 4) := by decide +kernel
  rw [hnew, Option.bind_some, Option.bind_some] at hfour hwrap hprepare
  obtain ⟨⟨_, _, a₁⟩, hfour, heq₁⟩ := Option.map_eq_some_iff.1 hfour
  obtain ⟨⟨_, _, a₂⟩, hwrap, heq₂⟩ := Option.map_eq_some_iff.1 hwrap
  obtain ⟨⟨_, _, _, a₃⟩, hprepare, heq₃⟩ := Option.map_eq_some_iff.1 hprepare
  simp only [Prod.mk.injEq] at heq₁ heq₂ heq₃
  obtain ⟨hcell, rfl, rfl⟩ := heq₁
  obtain ⟨rfl, rfl⟩ := heq₂
  obtain ⟨rfl, rfl, rfl⟩ := heq₃
  refine ⟨ret, a, hnew, ⟨2, a₁, hfour, ?_⟩, ⟨2, a₂, hwrap, ?_⟩, ⟨2, a₃, hprepare, ?_⟩⟩
  · rw [show 4 = BitVec.toNat (4 : BitVec 64) from rfl, insideCells_alloc_iff hS hfour, LeavesRoom,
      hcell]
    decide
  · rw [show 2 ^ 64 - 1 = BitVec.toNat (-1 : BitVec 64) by decide, insideCells_alloc_iff hS hwrap,
      LeavesRoom, hcell]
    decide
  · rw [insideCells_prepare_iff hS hprepare, hcell]
    decide

end Tsl
