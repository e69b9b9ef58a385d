import Tsl.Alloc.Logalloc.Chain

set_option autoImplicit false

/-! # Following the headers of the log allocator

`logalloc_alloc` believes what it reads in headers. This module proves that it may: the headers
reachable from cell 0 partition the region in every state of every run (`headersSound_of_run`), also
where clients use pointers to blocks that are theirs no longer. And when all of these blocks are free,
every request that is not too large succeeds (`recovers_of_run`), however the region is split. Both
need cells that have room for a header; with a cell size of `2^64 - 1` cells have one byte. -/

namespace Tsl

open Lib

namespace Logalloc

/-- The cells obtained from cell 0 by adding `nr_cells` of each header, where 0 stands for all cells up
    to the end. -/
def positions (a : Logalloc) : List ℕ := walk a.nrCells a.lenAt a.nrCells 0

/-- `size + cell_size - 1` does not wrap. -/
def SizeFits (a : Logalloc) (size : BitVec 64) : Prop := size.toNat + a.cellSize - 1 < 2 ^ 64

instance (a : Logalloc) (size : BitVec 64) : Decidable (a.SizeFits size) :=
  inferInstanceAs (Decidable (_ < _))

/-- The byte is in no header that can be reached from cell 0. -/
def OutsideHeaders (a : Logalloc) (addr : ℕ) : Prop :=
  ∀ c ∈ a.positions, addr ≠ c * a.cellSize ∧ addr ≠ c * a.cellSize + 1

instance (a : Logalloc) (addr : ℕ) : Decidable (a.OutsideHeaders addr) :=
  inferInstanceAs (Decidable (∀ c ∈ a.positions, _))

end Logalloc

/-- One step of an allocator whose clients may do anything but write into a header: references may be
    taken and given up through any pointer to a cell. -/
def headerStep (a : Logalloc) : LogallocCall → Option Logalloc
  | .alloc size => if a.SizeFits size then (logallocAlloc a size none).map fun r => r.2.2 else none
  | .reference cell =>
      if cell < a.nrCells then (logallocReference a (a.ptrOf cell)).map Prod.snd else none
  | .free cell => if cell < a.nrCells then (logallocFree a (a.ptrOf cell)).map Prod.snd else none
  | .write addr val => if a.OutsideHeaders addr then a.store addr val else none

/-! ## Stores without truncation

`logalloc_alloc` once more, with `set` for every place where it writes a header. -/

def logallocMarkRestBy (set : Logalloc → ℕ → ℕ → ℕ → Option Logalloc) (a : Logalloc) (rem : ℕ) :
    Option Logalloc := do
  let val := if rem > 255 then 255 else rem
  let a ← set a (a.logHead * a.cellSize) 0 val
  if _h : rem - val > 0 then logallocMarkRestBy set a (rem - val) else some a
termination_by rem
decreasing_by
  simp only [val] at _h ⊢
  split at _h <;> split <;> omega

def logallocCarveBy (set : Logalloc → ℕ → ℕ → ℕ → Option Logalloc) (a : Logalloc)
    (nrCells workingLogHead reqCells : ℕ) : Option (AResult × Option ℕ × Logalloc) := do
  let ch := workingLogHead * a.cellSize
  let (i, lastCellCount) ← logallocGather a nrCells workingLogHead reqCells 0 0
  if i < reqCells then some (aENomem, none, a)
  else do
    let a ← set a ch 1 reqCells
    let a := { a with logHead := (workingLogHead + reqCells) % nrCells }
    if reqCells < i then do
      let a ← logallocMarkRestBy set a (if lastCellCount = 0 then 0 else i - reqCells)
      some (aOk, some (ch + 2), a)
    else some (aOk, some (ch + 2), a)

def logallocAllocBy (set : Logalloc → ℕ → ℕ → ℕ → Option Logalloc) (a : Logalloc) (size : BitVec 64)
    (pptr : Option ℕ) : Option (AResult × Option ℕ × Logalloc) :=
  if size = 0 then some (aEBadargs, pptr, a)
  else
    let nrCells := a.nrCells
    let reqCells := logallocReqCells a size
    if reqCells > 255 ∨ reqCells > nrCells then some (aENomem, none, a)
    else do
      let refcnt ← a.loadRefcnt (a.logHead * a.cellSize)
      if refcnt ≠ 0 then some (aENomem, none, a)
      else if reqCells > nrCells - a.logHead then do
        let a ← set a (a.logHead * a.cellSize) 0 (nrCells - a.logHead)
        logallocCarveBy set a nrCells 0 reqCells
      else logallocCarveBy set a nrCells a.logHead reqCells

theorem logallocMarkRestBy_setHeader (a : Logalloc) (rem : ℕ) :
    logallocMarkRestBy Logalloc.setHeader a rem = logallocMarkRest a rem := by
  fun_induction logallocMarkRest a rem with
  | case1 a rem val ih =>
      rw [logallocMarkRestBy]
      refine Option.bind_congr fun a' _ => ?_
      by_cases hrest : rem - val > 0
      · rw [dif_pos hrest]
        exact (dif_pos hrest).trans (ih a' hrest)
      · rw [dif_neg hrest]
        exact dif_neg hrest

/-- It is the code. -/
theorem logallocAllocBy_setHeader : logallocAllocBy Logalloc.setHeader = logallocAlloc := by
  have hcarve : logallocCarveBy Logalloc.setHeader = logallocCarve := by
    funext a nrCells w req
    simp only [logallocCarveBy, logallocCarve, logallocMarkRestBy_setHeader]
  funext a size pptr
  simp only [logallocAllocBy, logallocAlloc, hcarve]

/-- Writing a header is a fault unless `nr_cells` fits its 8 bits. -/
def Logalloc.setHeaderExact (a : Logalloc) (ch refcnt nrCells : ℕ) : Option Logalloc :=
  if nrCells < 2 ^ 8 then a.setHeader ch refcnt nrCells else none

/-! ## What holds of the headers -/

/-- What every state has. -/
structure HeadersSound (a : Logalloc) : Prop where
  /-- Each cell is in the block of exactly one position. -/
  partition : ∀ x < a.nrCells, ∃! c, c ∈ a.positions ∧ c ≤ x ∧ x < c + a.lenAt c
  inside : ∀ c ∈ a.positions, c + a.lenAt c ≤ a.nrCells
  /-- Only the last block says that it goes up to the end, and it is free. -/
  zero : ∀ c ∈ a.positions, a.nrAt c = 0 → a.refAt c = 0 ∧ ∀ d ∈ a.positions, d ≤ c
  head : a.logHead ∈ a.positions
  /-- No header is looked at that is not in the region, and the region ends with its last cell. -/
  inspects : ∀ size pptr, a.SizeFits size → (logallocAlloc a size pptr).isSome
  region : a.regionSize = a.nrCells * a.cellSize
  /-- No count of cells is truncated when it is stored. -/
  fits : ∀ size pptr, a.SizeFits size →
    logallocAllocBy Logalloc.setHeaderExact a size pptr = logallocAlloc a size pptr

/-- If all blocks are free, every request of at most 255 cells, and at most as many as there are,
    succeeds. -/
def Recovers (a : Logalloc) : Prop :=
  (∀ c ∈ a.positions, a.refAt c = 0) →
    ∀ (size : BitVec 64) (pptr : Option ℕ), size ≠ 0 →
      (size.toNat + a.cellSize - 1) / a.cellSize ≤ min 255 a.nrCells →
        ∃ ptr a', logallocAlloc a size pptr = some (aOk, some ptr, a')

/-- The chain from cell 0 starts blocks at `starts`, and one that goes up to the end is free. -/
structure HeaderChain (a : Logalloc) (starts : Set ℕ) : Prop where
  chain : a.Chain starts
  zero : ∀ c ∈ starts, a.nrAt c = 0 → a.refAt c = 0
  region_lt : a.regionSize < 2 ^ 64
  cell_dvd : a.cellSize ∣ 2 ^ 64

section Steps

variable {a a' : Logalloc} {starts : Set ℕ} {w e r ref req cell : ℕ} {size : BitVec 64}

theorem Logalloc.Chain.mem_positions (hC : a.Chain starts) : cell ∈ a.positions ↔ cell ∈ starts :=
  hC.tiling.mem_walk

/-- A size that is not 0 and does not wrap is at least one cell. -/
theorem reqCells_pos (hS : a.Shape) (hsize : size ≠ 0) (hfits : a.SizeFits size) :
    0 < logallocReqCells a size ∧
      logallocReqCells a size = (size.toNat + a.cellSize - 1) / a.cellSize := by
  have hcell := hS.cell
  have hpos : 0 < size.toNat := by
    refine Nat.pos_of_ne_zero fun hzero => hsize (BitVec.eq_of_toNat_eq hzero)
  have heq : logallocReqCells a size = (size.toNat + a.cellSize - 1) / a.cellSize := by
    rw [logallocReqCells, Nat.mod_eq_of_lt hfits]
  rw [heq]
  exact ⟨Nat.div_pos (by omega) (by omega), rfl⟩

theorem HeaderChain.rewritten (h : HeaderChain a starts) (hR : Rewritten a a' w e r ref) (hw : w ∈ starts)
    (he : e = a.nrCells ∨ e ∈ starts) (hr : 0 < r) (hre : w + r ≤ e)
    (hhead : a'.logHead ∈ resplit starts w e r) (hzero : a'.nrAt w = 0 → ref = 0) :
    HeaderChain a' (resplit starts w e r) where
  chain := ⟨hR.same.shape h.chain.shape, hR.tiling h.chain.tiling hw he hr hre, hhead⟩
  zero := by
    rintro c (⟨hc, hout⟩ | ⟨rfl, hlt⟩) hnr
    · by_cases hcw : c = w
      · subst hcw
        rw [hR.ref_eq]
        exact hzero hnr
      · obtain ⟨hnr', href'⟩ := hR.frame c (by omega)
        rw [href']
        exact h.zero c hc (hnr' ▸ hnr)
    · exact (hR.rest hlt).1
  region_lt := hR.same.regionSize ▸ h.region_lt
  cell_dvd := hR.same.cellSize ▸ h.cell_dvd

/-- **Where `logalloc_alloc` looks for cells**: it rejects the request, or gathers from a block of a
    chain that has room for it, which is that of the state before, or one whose blocks from the log head
    on have become one free block. -/
theorem logallocAlloc_cases (h : HeaderChain a starts) (hsize : size ≠ 0) (pptr : Option ℕ) :
    (logallocAlloc a size pptr = some (aENomem, none, a) ∧
      (255 < logallocReqCells a size ∨ a.nrCells < logallocReqCells a size ∨
        a.refAt a.logHead ≠ 0)) ∨
    ∃ a₁ starts₁ w, logallocAlloc a size pptr =
        logallocCarve a₁ a₁.nrCells w (logallocReqCells a size) ∧
      HeaderChain a₁ starts₁ ∧ w ∈ starts₁ ∧ w + logallocReqCells a size ≤ a₁.nrCells ∧
      logallocReqCells a size ≤ 255 ∧
      ((∀ c ∈ starts, a.refAt c = 0) → ∀ c ∈ starts₁, a₁.refAt c = 0) := by
  have hhead := h.chain.tiling.lt _ h.chain.head
  have hload := loadRefcnt_eq h.chain.shape hhead
  by_cases hbig : 255 < logallocReqCells a size ∨ a.nrCells < logallocReqCells a size
  · refine .inl ⟨?_, hbig.imp_right .inl⟩
    rw [logallocAlloc, if_neg hsize, if_pos hbig]
  have hbig' := hbig
  rw [not_or, Nat.not_lt, Nat.not_lt] at hbig
  by_cases href : a.rgn (a.logHead * a.cellSize + 1) = 0
  · refine .inr ?_
    have hcommon : logallocAlloc a size pptr =
        if logallocReqCells a size > a.nrCells - a.logHead then
          (a.setHeader (a.logHead * a.cellSize) 0 (a.nrCells - a.logHead)).bind fun a₁ =>
            logallocCarve a₁ a.nrCells 0 (logallocReqCells a size)
        else logallocCarve a a.nrCells a.logHead (logallocReqCells a size) := by
      rw [logallocAlloc, if_neg hsize]
      simp only [if_neg hbig', hload, Option.bind_eq_bind, Option.bind_some, href, ne_eq,
        not_true_eq_false, if_false]
    by_cases hwrap : logallocReqCells a size > a.nrCells - a.logHead
    · obtain ⟨a₁, hset, hhead₁, hR⟩ := setHeader_tail h.chain.shape hhead (by omega)
      have hnr := hR.same.nrCells
      have hmem : a₁.logHead ∈ resplit starts a.logHead a.nrCells (a.nrCells - a.logHead) := by
        rw [hhead₁]
        exact mem_resplit_of_outside h.chain.head (by omega)
      refine ⟨a₁, _, 0, ?_, h.rewritten hR h.chain.head (.inl rfl) (by omega) (by omega) hmem
        (fun _ => rfl), mem_resplit_of_outside h.chain.tiling.zero_mem (by omega), by omega,
        hbig.1, ?_⟩
      · rw [hcommon, if_pos hwrap, hset, Option.bind_some, hnr]
      · intro hfree c hc
        rcases hc with ⟨hc, hout⟩ | ⟨rfl, hlt⟩
        · by_cases hcw : c = a.logHead
          · rw [hcw]
            exact hR.ref_eq
          · rw [(hR.frame c (by have := h.chain.tiling.lt c hc; omega)).2]
            exact hfree c hc
        · omega
    · refine ⟨a, starts, a.logHead, ?_, h, h.chain.head, by omega, hbig.1, fun hfree => hfree⟩
      rw [hcommon, if_neg hwrap]
  · refine .inl ⟨?_, .inr (.inr fun hzero => href (BitVec.eq_of_toNat_eq hzero))⟩
    rw [logallocAlloc, if_neg hsize]
    simp only [if_neg hbig', hload, Option.bind_eq_bind, Option.bind_some, ne_eq, href,
      not_false_eq_true, if_true]

theorem HeaderChain.alloc (h : HeaderChain a starts) (hfits : a.SizeFits size) (pptr : Option ℕ) :
    ∃ ret ptr a' starts', logallocAlloc a size pptr = some (ret, ptr, a') ∧ HeaderChain a' starts' := by
  by_cases hsize : size = 0
  · exact ⟨_, _, a, starts, if_pos hsize, h⟩
  obtain ⟨hpos, -⟩ := reqCells_pos h.chain.shape hsize hfits
  rcases logallocAlloc_cases h hsize pptr with
    ⟨hfail, -⟩ | ⟨a₁, starts₁, w, heq, h₁, hw, hreq, hmax, -⟩
  · exact ⟨_, _, a, starts, hfail, h⟩
  · rcases logallocCarve_spec h₁.chain.shape h₁.chain.tiling hw hreq hpos hmax with
      ⟨hcarve, -⟩ | ⟨i, a', hcarve, hG, hle, hR, hnr, hhead⟩
    · exact ⟨_, _, a₁, starts₁, heq.trans hcarve, h₁⟩
    · refine ⟨_, _, a', _, heq.trans hcarve, h₁.rewritten hR hw hG.boundary hpos (by omega) ?_ ?_⟩
      · rw [hhead]
        exact head_mem_resplit h₁.chain.tiling hG.boundary (by omega)
      · intro hzero
        omega

/-- Where all blocks are free, an allocation succeeds. -/
theorem HeaderChain.alloc_ok (h : HeaderChain a starts) (hfree : ∀ c ∈ starts, a.refAt c = 0)
    (hsize : size ≠ 0) (hfits : a.SizeFits size) (hmax : logallocReqCells a size ≤ 255)
    (hroom : logallocReqCells a size ≤ a.nrCells) (pptr : Option ℕ) :
    ∃ ptr a', logallocAlloc a size pptr = some (aOk, some ptr, a') := by
  obtain ⟨hpos, -⟩ := reqCells_pos h.chain.shape hsize hfits
  rcases logallocAlloc_cases h hsize pptr with
    ⟨-, hwhy⟩ | ⟨a₁, starts₁, w, heq, h₁, hw, hreq, hmax', hfree₁⟩
  · have hhead := hfree _ h.chain.head
    omega
  · rcases logallocCarve_spec h₁.chain.shape h₁.chain.tiling hw hreq hpos hmax' with
      ⟨-, c, hc, href⟩ | ⟨i, a', hcarve, -⟩
    · exact absurd (hfree₁ hfree c hc) href
    · exact ⟨_, a', heq.trans hcarve⟩

/-- A step that writes a byte which is in no header of the chain, or the count of a block that does not
    go up to the end. -/
theorem HeaderChain.store (h : HeaderChain a starts) {addr : ℕ} (haddr : addr < a.regionSize)
    (val : BitVec 8) (hnr : ∀ c ∈ starts, c * a.cellSize ≠ addr)
    (href : ∀ c ∈ starts, a.nrAt c = 0 → c * a.cellSize + 1 ≠ addr) :
    ∃ a', a.store addr val = some a' ∧ HeaderChain a' starts := by
  obtain ⟨a', hstore, hsame, -, hnr', href', -⟩ := store_spec haddr val
  have hkeep : ∀ c ∈ starts, a'.nrAt c = a.nrAt c := fun c hc => hnr' c (hnr c hc)
  refine ⟨a', hstore, h.chain.store hnr hstore, fun c hc hzero => ?_,
    hsame.regionSize ▸ h.region_lt, hsame.cellSize ▸ h.cell_dvd⟩
  rw [hkeep c hc] at hzero
  rw [href' c (href c hc hzero)]
  exact h.zero c hc hzero

theorem HeaderChain.setRefcnt (h : HeaderChain a starts) (hcell : cell < a.nrCells)
    (hne : a.rgn (cell * a.cellSize + 1) ≠ 0) (val : BitVec 8) :
    ∃ a', a.store (cell * a.cellSize + 1) val = some a' ∧ HeaderChain a' starts := by
  have hc := h.chain.shape.cell
  refine h.store (h.chain.shape.header_lt hcell) val ?_ ?_
  · intro c _ heq
    have hbyte := ((cell_byte_inj 0 1 (by omega) (by omega)).1 heq).2
    omega
  · intro c hc' hzero heq
    obtain ⟨rfl, -⟩ := (cell_byte_inj 1 1 (by omega) (by omega)).1 heq
    exact hne (BitVec.eq_of_toNat_eq (h.zero c hc' hzero))

/-- **Every step** keeps the chain. -/
theorem headerStep_chain (a : Logalloc) (call : LogallocCall) (a' : Logalloc)
    (h : ∃ starts, HeaderChain a starts) (hstep : headerStep a call = some a') :
    ∃ starts, HeaderChain a' starts := by
  obtain ⟨starts, h⟩ := h
  cases call with
  | alloc size =>
      by_cases hfits : a.SizeFits size
      · obtain ⟨ret, ptr, a₁, starts₁, halloc, h₁⟩ := h.alloc hfits none
        simp only [headerStep, if_pos hfits, halloc, Option.map_some, Option.some.injEq] at hstep
        exact ⟨starts₁, hstep ▸ h₁⟩
      · simp only [headerStep, if_neg hfits, reduceCtorEq] at hstep
  | reference cell =>
      by_cases hcell : cell < a.nrCells
      · simp only [headerStep, if_pos hcell, logallocReference, Logalloc.ptrOf, Nat.add_sub_cancel,
          loadRefcnt_eq h.chain.shape hcell, Option.bind_eq_bind, Option.bind_some] at hstep
        split at hstep
        · simp only [Option.map_some, Option.some.injEq] at hstep
          exact ⟨starts, hstep ▸ h⟩
        · next hcount =>
          obtain ⟨a₁, hstore, h₁⟩ := h.setRefcnt hcell (fun hzero => hcount (.inr hzero))
            (a.rgn (cell * a.cellSize + 1) + 1)
          simp only [hstore, Option.bind_some, Option.map_some, Option.some.injEq] at hstep
          exact ⟨starts, hstep ▸ h₁⟩
      · simp only [headerStep, if_neg hcell, reduceCtorEq] at hstep
  | free cell =>
      by_cases hcell : cell < a.nrCells
      · simp only [headerStep, if_pos hcell, logallocFree, Logalloc.ptrOf, Nat.add_sub_cancel,
          loadRefcnt_eq h.chain.shape hcell, Option.bind_eq_bind, Option.bind_some] at hstep
        split at hstep
        · simp only [Option.map_some, Option.some.injEq] at hstep
          exact ⟨starts, hstep ▸ h⟩
        · next hcount =>
          obtain ⟨a₁, hstore, h₁⟩ := h.setRefcnt hcell hcount
            (a.rgn (cell * a.cellSize + 1) - 1)
          simp only [hstore, Option.bind_some, Option.map_some, Option.some.injEq] at hstep
          exact ⟨starts, hstep ▸ h₁⟩
      · simp only [headerStep, if_neg hcell, reduceCtorEq] at hstep
  | write addr val =>
      by_cases hout : a.OutsideHeaders addr
      · simp only [headerStep, if_pos hout] at hstep
        have haddr : addr < a.regionSize := by
          by_contra hge
          rw [Logalloc.store, if_neg hge] at hstep
          cases hstep
        obtain ⟨a₁, hstore, h₁⟩ := h.store haddr val
          (fun c hc => (hout c (h.chain.mem_positions.2 hc)).1.symm)
          fun c hc _ => (hout c (h.chain.mem_positions.2 hc)).2.symm
        exact ⟨starts, Option.some.inj (hstore.symm.trans hstep) ▸ h₁⟩
      · simp only [headerStep, if_neg hout, reduceCtorEq] at hstep

/-! ## What the chain gives -/

theorem setHeaderExact_eq (a : Logalloc) (ch refcnt : ℕ) {nr : ℕ} (hnr : nr ≤ 255) :
    a.setHeaderExact ch refcnt nr = a.setHeader ch refcnt nr := if_pos (by omega)

theorem logallocMarkRestBy_eq (set : Logalloc → ℕ → ℕ → ℕ → Option Logalloc) {rem : ℕ}
    (hrem : rem ≤ 255) : logallocMarkRestBy set a rem = set a (a.logHead * a.cellSize) 0 rem := by
  rw [logallocMarkRestBy]
  have hval : (if rem > 255 then 255 else rem) = rem := if_neg (by omega)
  simp [hval]

/-- What is carved out of a chain, and what is left, fits the field. -/
theorem logallocCarveBy_exact (h : HeaderChain a starts) (hw : w ∈ starts)
    (hreq : w + req ≤ a.nrCells) (hmax : req ≤ 255) :
    logallocCarveBy Logalloc.setHeaderExact a a.nrCells w req = logallocCarve a a.nrCells w req := by
  obtain ⟨i, last, hgather, -, hdone⟩ := logallocGather_spec h.chain.shape h.chain.tiling hreq 0 0
    ⟨.inr hw, fun c _ _ hlt => absurd hlt (by omega)⟩ (fun hlt => absurd hlt (by omega))
  rw [logallocCarveBy, logallocCarve]
  simp only [hgather, Option.bind_eq_bind, Option.bind_some, setHeaderExact_eq _ _ _ hmax]
  by_cases hlt : i < req
  · rw [if_pos hlt, if_pos hlt]
  · rw [if_neg hlt, if_neg hlt]
    by_cases hri : req < i
    · -- the rest is less than the last block that was gathered
      have hrem : (if last = 0 then 0 else i - req) ≤ 255 := by
        rcases (hdone (by omega)).2 hri with ⟨h0, -⟩ | ⟨-, h255, hlt'⟩
        · simp [h0]
        · split <;> omega
      simp only [if_pos hri, logallocMarkRestBy_eq _ hrem, logallocMarkRest_eq hrem,
        setHeaderExact_eq _ _ _ hrem]
    · simp only [if_neg hri]

theorem logallocAllocBy_exact (h : HeaderChain a starts) (size : BitVec 64) (pptr : Option ℕ) :
    logallocAllocBy Logalloc.setHeaderExact a size pptr = logallocAlloc a size pptr := by
  by_cases hsize : size = 0
  · rw [logallocAllocBy, if_pos hsize, logallocAlloc, if_pos hsize]
  have hhead := h.chain.tiling.lt _ h.chain.head
  rw [logallocAllocBy, if_neg hsize, logallocAlloc, if_neg hsize]
  simp only [loadRefcnt_eq h.chain.shape hhead, Option.bind_eq_bind, Option.bind_some]
  by_cases hbig : logallocReqCells a size > 255 ∨ logallocReqCells a size > a.nrCells
  · rw [if_pos hbig, if_pos hbig]
  have hbig' := hbig
  rw [not_or, Nat.not_lt, Nat.not_lt] at hbig
  rw [if_neg hbig', if_neg hbig']
  by_cases href : a.rgn (a.logHead * a.cellSize + 1) ≠ 0
  · rw [if_pos href, if_pos href]
  rw [if_neg href, if_neg href]
  by_cases hwrap : logallocReqCells a size > a.nrCells - a.logHead
  · obtain ⟨a₁, hset, hhead₁, hR⟩ := setHeader_tail h.chain.shape hhead (by omega)
    have hmem : a₁.logHead ∈ resplit starts a.logHead a.nrCells (a.nrCells - a.logHead) := by
      rw [hhead₁]
      exact mem_resplit_of_outside h.chain.head (by omega)
    have h₁ := h.rewritten hR h.chain.head (.inl rfl) (by omega) (by omega) hmem fun _ => rfl
    rw [if_pos hwrap, if_pos hwrap, setHeaderExact_eq _ _ _ (by omega), hset, Option.bind_some,
      Option.bind_some, ← hR.same.nrCells]
    exact logallocCarveBy_exact h₁ h₁.chain.tiling.zero_mem (by rw [hR.same.nrCells]; omega) hbig.1
  · rw [if_neg hwrap, if_neg hwrap]
    exact logallocCarveBy_exact h h.chain.head (by omega) hbig.1

theorem headersSound_of_chain (h : HeaderChain a starts) : HeadersSound a where
  partition := by
    intro x hx
    simp only [h.chain.mem_positions]
    exact h.chain.tiling.existsUnique_block hx
  inside := fun c hc => h.chain.tiling.end_le (h.chain.mem_positions.1 hc)
  zero := by
    intro c hc hzero
    have hmem := h.chain.mem_positions.1 hc
    refine ⟨h.zero c hmem hzero, fun d hd => ?_⟩
    by_contra hlt
    have hd' := h.chain.mem_positions.1 hd
    have hgap := h.chain.tiling.gap c hmem d hd' (by omega)
    have hdlt := h.chain.tiling.lt d hd'
    rw [Logalloc.lenAt, if_pos hzero] at hgap
    omega
  head := h.chain.mem_positions.2 h.chain.head
  inspects := by
    intro size pptr hfits
    obtain ⟨ret, ptr, a', starts', halloc, -⟩ := h.alloc hfits pptr
    rw [halloc]
    rfl
  region := h.chain.shape.region
  fits := fun size pptr _ => logallocAllocBy_exact h size pptr

theorem HeaderChain.sizeFits (h : HeaderChain a starts)
    (hroom : (size.toNat + a.cellSize - 1) / a.cellSize ≤ a.nrCells) : a.SizeFits size := by
  obtain ⟨k, hk⟩ := h.cell_dvd
  have hcell := h.chain.shape.cell
  have hlt : a.nrCells < k := by
    have hregion := h.region_lt
    rw [h.chain.shape.region, hk, Nat.mul_comm a.cellSize k] at hregion
    exact Nat.lt_of_mul_lt_mul_right hregion
  have hdiv : (size.toNat + a.cellSize - 1) / a.cellSize < k := Nat.lt_of_le_of_lt hroom hlt
  rw [Nat.div_lt_iff_lt_mul (by omega), Nat.mul_comm, ← hk] at hdiv
  exact hdiv

theorem recovers_of_chain (h : HeaderChain a starts) : Recovers a := by
  intro hfree size pptr hsize hcells
  have hfits := h.sizeFits (Nat.le_trans hcells (Nat.min_le_right _ _))
  obtain ⟨-, hreq⟩ := reqCells_pos h.chain.shape hsize hfits
  refine h.alloc_ok (fun c hc => hfree c (h.chain.mem_positions.2 hc)) hsize hfits ?_ ?_ pptr
  · exact hreq ▸ Nat.le_trans hcells (Nat.min_le_left _ _)
  · exact hreq ▸ Nat.le_trans hcells (Nat.min_le_right _ _)

/-! ## Runs -/

theorem headerChain_of_run {cellSize nrCells : BitVec 64} {calloc : Bool}
    {alloc : BitVec 64 → AResult × (ℕ → BitVec 8)} {ret : AResult} {a s : Logalloc}
    (hnew : logallocNew cellSize nrCells calloc alloc = some (ret, some a))
    (hcell : cellSize ≠ BitVec.allOnes 64) (run : List LogallocCall)
    (hrun : exec headerStep a run = some s) : ∃ starts, HeaderChain s starts := by
  obtain ⟨hC, href, hregion, hdvd⟩ := logallocNew_spec hnew hcell
  refine exec_invariant headerStep_chain ⟨{0}, hC, fun c hc _ => ?_, hregion, hdvd⟩ hrun
  rw [show c = 0 from hc]
  exact href

/-- **The headers** of every state partition the region. -/
theorem headersSound_of_run {cellSize nrCells : BitVec 64} {calloc : Bool}
    {alloc : BitVec 64 → AResult × (ℕ → BitVec 8)} {ret : AResult} {a s : Logalloc}
    (hnew : logallocNew cellSize nrCells calloc alloc = some (ret, some a))
    (hcell : cellSize ≠ BitVec.allOnes 64) (run : List LogallocCall)
    (hrun : exec headerStep a run = some s) : HeadersSound s := by
  obtain ⟨starts, h⟩ := headerChain_of_run hnew hcell run hrun
  exact headersSound_of_chain h

/-- **All space is recovered** when all blocks are free. -/
theorem recovers_of_run {cellSize nrCells : BitVec 64} {calloc : Bool}
    {alloc : BitVec 64 → AResult × (ℕ → BitVec 8)} {ret : AResult} {a s : Logalloc}
    (hnew : logallocNew cellSize nrCells calloc alloc = some (ret, some a))
    (hcell : cellSize ≠ BitVec.allOnes 64) (run : List LogallocCall)
    (hrun : exec headerStep a run = some s) : Recovers s := by
  obtain ⟨starts, h⟩ := headerChain_of_run hnew hcell run hrun
  exact recovers_of_chain h

end Steps

/-- The state after a run that starts with `logalloc_new`. -/
def afterNew (new : Option (AResult × Option Logalloc)) (run : List LogallocCall) : Option Logalloc :=
  match new with
  | some (_, some a) => exec headerStep a run
  | _ => none

theorem exists_of_afterNew {new : Option (AResult × Option Logalloc)} {run : List LogallocCall}
    {s : Logalloc} (h : afterNew new run = some s) :
    ∃ ret a, new = some (ret, some a) ∧ exec headerStep a run = some s := by
  unfold afterNew at h
  split at h
  · next ret a => exact ⟨ret, a, rfl, h⟩
  · cases h

/-- Four cells of 128 bytes: a marker at the end, a reference, a write to a payload. -/
theorem headersSound_of_run_four :
    ∃ ret a s, logallocNew 126 4 true (logallocDefaultAlloc true) = some (ret, some a) ∧
      exec headerStep a [.alloc 256, .alloc 128, .reference 0, .free 2, .alloc 256, .write 130 7] =
        some s ∧ HeadersSound s := by
  obtain ⟨s, hs⟩ := Option.isSome_iff_exists.1 (show (afterNew
    (logallocNew 126 4 true (logallocDefaultAlloc true))
    [.alloc 256, .alloc 128, .reference 0, .free 2, .alloc 256, .write 130 7]).isSome = true by
      decide +kernel)
  obtain ⟨ret, a, hnew, hrun⟩ := exists_of_afterNew hs
  exact ⟨ret, a, s, hnew, hrun, headersSound_of_run hnew (by decide) _ hrun⟩

theorem recovers_of_run_four :
    ∃ ret a s, logallocNew 126 4 true (logallocDefaultAlloc true) = some (ret, some a) ∧
      exec headerStep a [.alloc 256, .alloc 128, .free 0, .free 2] = some s ∧ Recovers s := by
  obtain ⟨s, hs⟩ := Option.isSome_iff_exists.1 (show (afterNew
    (logallocNew 126 4 true (logallocDefaultAlloc true))
    [.alloc 256, .alloc 128, .free 0, .free 2]).isSome = true by decide +kernel)
  obtain ⟨ret, a, hnew, hrun⟩ := exists_of_afterNew hs
  exact ⟨ret, a, s, hnew, hrun, recovers_of_run hnew (by decide) _ hrun⟩

/-! ## Cells of one byte -/

/-- `cell_size + sizeof(struct logalloc_cell_header)` wraps to 1. -/
def oneByteCells : Option (AResult × Option Logalloc) :=
  logallocNew (BitVec.allOnes 64) 4 true (logallocDefaultAlloc true)

/-- Two blocks are allocated and the first is freed. The count of references of the one is the length
    of the other. -/
theorem oneByteCells_after :
    (afterNew oneByteCells [.alloc 1, .alloc 1, .free 0]).map (fun s =>
      ((s.logHead, s.nrCells, s.cellSize), s.positions, s.positions.map s.refAt,
        (logallocAlloc s 3 none).map Prod.fst)) =
      some ((2, 4, 1), [0, 1], [0, 0], some aENomem) := by decide +kernel

/-- The log head is at no header. -/
theorem headersSound_fails :
    ∃ ret a s, oneByteCells = some (ret, some a) ∧
      exec headerStep a [.alloc 1, .alloc 1, .free 0] = some s ∧ s.logHead = 2 ∧
      s.positions = [0, 1] ∧ ¬ HeadersSound s := by
  obtain ⟨s, hs, heq⟩ := Option.map_eq_some_iff.1 oneByteCells_after
  simp only [Prod.mk.injEq] at heq
  obtain ⟨⟨hhead, -⟩, hpositions, -⟩ := heq
  obtain ⟨ret, a, hnew, hrun⟩ := exists_of_afterNew hs
  refine ⟨ret, a, s, hnew, hrun, hhead, hpositions, fun h => ?_⟩
  have hmem := h.head
  rw [hhead, hpositions] at hmem
  exact absurd hmem (by decide)

/-- All blocks are free, and a request for three of four cells fails. -/
theorem recovers_fails :
    ∃ ret a s, oneByteCells = some (ret, some a) ∧
      exec headerStep a [.alloc 1, .alloc 1, .free 0] = some s ∧
      (∀ c ∈ s.positions, s.refAt c = 0) ∧
      (logallocAlloc s 3 none).map Prod.fst = some aENomem ∧ ¬ Recovers s := by
  obtain ⟨s, hs, heq⟩ := Option.map_eq_some_iff.1 oneByteCells_after
  simp only [Prod.mk.injEq] at heq
  obtain ⟨⟨-, hcells, hsize⟩, hpositions, hcounts, hfail⟩ := heq
  obtain ⟨ret, a, hnew, hrun⟩ := exists_of_afterNew hs
  have hfree : ∀ c ∈ s.positions, s.refAt c = 0 := by
    rw [hpositions] at hcounts ⊢
    simp only [List.map_cons, List.map_nil, List.cons.injEq, and_true] at hcounts
    simp [hcounts.1, hcounts.2]
  refine ⟨ret, a, s, hnew, hrun, hfree, hfail, fun h => ?_⟩
  obtain ⟨ptr, a', halloc⟩ := h hfree 3 none (by decide) (by rw [hsize, hcells]; decide)
  rw [halloc, Option.map_some, Option.some.injEq] at hfail
  exact absurd (show aOk = aENomem from hfail) (by decide)

end Tsl
