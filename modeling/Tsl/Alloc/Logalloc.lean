import Tsl.Bits
import Tsl.Lib.Machine
import Tsl.Lib.Tiling
import Tsl.Result

set_option autoImplicit false

/-! # The log-structured allocator

`tsl/alloc/logalloc.c`: a region of cells that is handed out round and round from a log head. The
first two bytes of every block, free or not, are its header: the number of cells of the block, with
0 for "all cells up to the end", and its reference count.

The region is modelled byte by byte, as clients write into it. An access outside the region answers
`none`. A pointer is the offset of a byte in the region. -/

namespace Tsl

open Lib

/-- `struct logalloc` with its region. -/
structure Logalloc where
  rgn : ℕ → BitVec 8
  logHead : ℕ
  cellSize : ℕ
  regionSize : ℕ

namespace Logalloc

/-- `region_size / cell_size`. -/
def nrCells (a : Logalloc) : ℕ := a.regionSize / a.cellSize

/-- Reading a byte of the region. -/
def load (a : Logalloc) (addr : ℕ) : Option (BitVec 8) :=
  if addr < a.regionSize then some (a.rgn addr) else none

/-- Writing one. -/
def store (a : Logalloc) (addr : ℕ) (val : BitVec 8) : Option Logalloc :=
  if addr < a.regionSize then some { a with rgn := Function.update a.rgn addr val } else none

/-- `nr_cells` of the header at a byte offset. -/
def loadNrCells (a : Logalloc) (ch : ℕ) : Option (BitVec 8) := a.load ch

/-- `refcnt` of the header at a byte offset. -/
def loadRefcnt (a : Logalloc) (ch : ℕ) : Option (BitVec 8) := a.load (ch + 1)

/-- `ch->refcnt = refcnt; ch->nr_cells = nr_cells`, where the fields have 8 bits. -/
def setHeader (a : Logalloc) (ch refcnt nrCells : ℕ) : Option Logalloc := do
  let a ← a.store (ch + 1) (BitVec.ofNat 8 refcnt)
  a.store ch (BitVec.ofNat 8 nrCells)

end Logalloc

/-! ## The code -/

/-- `__logalloc_default_alloc`; `calloc` says whether the memory is there. -/
def logallocDefaultAlloc (calloc : Bool) (length : BitVec 64) : AResult × (ℕ → BitVec 8) :=
  if length = 0 then (aEBadargs, fun _ => 0)
  else if calloc = false then (aENomem, fun _ => 0)
  else (aOk, fun _ => 0)

/-- `logalloc_new`; `alloc` is the `alloc` function of the parameters, which answers a result code
    and a region of the length it is given, and `calloc` says whether the handle can be
    allocated. -/
def logallocNew (cellSize nrCells : BitVec 64) (calloc : Bool)
    (alloc : BitVec 64 → AResult × (ℕ → BitVec 8)) : Option (AResult × Option Logalloc) :=
  if cellSize = 0 then some (aEBadargs, none)
  else if nrCells = 0 then some (aEBadargs, none)
  else
    let celSize := tslRoundUp2_64 (cellSize + 2)
    let rgnSize := celSize * nrCells
    if calloc = false then some (aENomem, none)
    else
      match alloc rgnSize with
      | (ret, rgn) =>
        if afailed ret then some (ret, none)
        else do
          let a : Logalloc :=
            { rgn := rgn, logHead := 0, cellSize := celSize.toNat, regionSize := rgnSize.toNat }
          let a ← a.store 0 0
          let a ← a.store 1 0
          some (ret, some a)

/-- The number of cells `logalloc_alloc` asks for: the sum wraps at `2^64`. -/
def logallocReqCells (a : Logalloc) (size : BitVec 64) : ℕ :=
  (size.toNat + a.cellSize - 1) % 2 ^ 64 / a.cellSize

/-- The loop of `logalloc_alloc` that gathers free blocks from `workingLogHead` on: how many cells
    were gathered, and the cell count in the last header looked at. -/
def logallocGather (a : Logalloc) (nrCells workingLogHead reqCells i lastCellCount : ℕ) :
    Option (ℕ × ℕ) :=
  if i < reqCells then do
    let chdr := (workingLogHead + i) * a.cellSize
    let refcnt ← a.loadRefcnt chdr
    if refcnt ≠ 0 then some (i, lastCellCount)
    else do
      let nr ← a.loadNrCells chdr
      if _h : nr.toNat = 0 then some (nrCells - workingLogHead, 0)
      else logallocGather a nrCells workingLogHead reqCells (i + nr.toNat) nr.toNat
  else some (i, lastCellCount)
termination_by reqCells - i
decreasing_by omega

/-- The loop at the end of `logalloc_alloc` that marks the rest as free; its `offs` stays 0. -/
def logallocMarkRest (a : Logalloc) (rem : ℕ) : Option Logalloc := do
  let val := if rem > 255 then 255 else rem
  let a ← a.setHeader (a.logHead * a.cellSize) 0 val
  if _h : rem - val > 0 then logallocMarkRest a (rem - val) else some a
termination_by rem
decreasing_by
  simp only [val] at _h ⊢
  split at _h <;> split <;> omega

/-- The part of `logalloc_alloc` from the working log head on. -/
def logallocCarve (a : Logalloc) (nrCells workingLogHead reqCells : ℕ) :
    Option (AResult × Option ℕ × Logalloc) := do
  let ch := workingLogHead * a.cellSize
  let (i, lastCellCount) ← logallocGather a nrCells workingLogHead reqCells 0 0
  if i < reqCells then some (aENomem, none, a)
  else do
    let a ← a.setHeader ch 1 reqCells
    let a := { a with logHead := (workingLogHead + reqCells) % nrCells }
    if reqCells < i then do
      let a ← logallocMarkRest a (if lastCellCount = 0 then 0 else i - reqCells)
      some (aOk, some (ch + 2), a)
    else some (aOk, some (ch + 2), a)

/-- `logalloc_alloc`: the result code and `*pptr`, which holds `pptr` before the call. -/
def logallocAlloc (a : Logalloc) (size : BitVec 64) (pptr : Option ℕ) :
    Option (AResult × Option ℕ × Logalloc) :=
  if size = 0 then some (aEBadargs, pptr, a)
  else
    let nrCells := a.nrCells
    let reqCells := logallocReqCells a size
    if reqCells > 255 ∨ reqCells > nrCells then some (aENomem, none, a)
    else do
      let refcnt ← a.loadRefcnt (a.logHead * a.cellSize)
      if refcnt ≠ 0 then some (aENomem, none, a)
      else if reqCells > nrCells - a.logHead then do
        -- the cells up to the end become one free block, before it is known whether there is room
        let a ← a.setHeader (a.logHead * a.cellSize) 0 (nrCells - a.logHead)
        logallocCarve a nrCells 0 reqCells
      else logallocCarve a nrCells a.logHead reqCells

/-- `logalloc_reference`. -/
def logallocReference (a : Logalloc) (ptr : ℕ) : Option (AResult × Logalloc) := do
  let refcnt ← a.loadRefcnt (ptr - 2)
  if refcnt = 255 ∨ refcnt = 0 then some (aEBusy, a)
  else do
    let a ← a.store (ptr - 2 + 1) (refcnt + 1)
    some (aOk, a)

/-- `logalloc_free`. -/
def logallocFree (a : Logalloc) (ptr : ℕ) : Option (AResult × Logalloc) := do
  let refcnt ← a.loadRefcnt (ptr - 2)
  if refcnt = 0 then some (aEInval, a)
  else do
    let a ← a.store (ptr - 2 + 1) (refcnt - 1)
    some (aOk, a)

/-! ## Runs of an allocator and its clients -/

/-- A live allocation: its first cell, the number of cells its header gave it, and the references
    held on it. -/
structure LiveBlock where
  start : ℕ
  nrCells : ℕ
  refs : ℕ
deriving DecidableEq, Repr

/-- An allocator and the allocations that are live. -/
structure LogallocRun where
  heap : Logalloc
  live : List LiveBlock

/-- What can happen to a region. -/
inductive LogallocCall where
  | alloc (size : BitVec 64)
  /-- A reference to whatever pointer to a cell a client still has. -/
  | reference (cell : ℕ)
  /-- Giving up a reference that is held. -/
  | free (cell : ℕ)
  /-- A client writes a byte. -/
  | write (addr : ℕ) (val : BitVec 8)

/-- The pointer to the payload of a block. -/
def Logalloc.ptrOf (a : Logalloc) (cell : ℕ) : ℕ := cell * a.cellSize + 2

/-- The byte is in the payload of the live allocation, so it is in no header. -/
def LiveBlock.owns (a : Logalloc) (b : LiveBlock) (addr : ℕ) : Prop :=
  a.ptrOf b.start ≤ addr ∧ addr < (b.start + b.nrCells) * a.cellSize

instance (a : Logalloc) (b : LiveBlock) (addr : ℕ) : Decidable (b.owns a addr) :=
  inferInstanceAs (Decidable (_ ∧ _))

/-- One step. A successful allocation goes live with one reference; a reference given up is one less,
    and at none the allocation is live no longer. -/
def logallocStep (s : LogallocRun) : LogallocCall → Option LogallocRun
  | .alloc size => do
      let (_, pptr, heap) ← logallocAlloc s.heap size none
      match pptr with
      | none => some { s with heap := heap }
      | some ptr => do
          let nr ← heap.loadNrCells (ptr - 2)
          let block : LiveBlock :=
            { start := (ptr - 2) / heap.cellSize, nrCells := nr.toNat, refs := 1 }
          some { heap := heap, live := block :: s.live }
  | .reference cell =>
      if cell < s.heap.nrCells then do
        let (ret, heap) ← logallocReference s.heap (s.heap.ptrOf cell)
        let live := s.live.map fun b =>
          if b.start = cell ∧ ret = aOk then { b with refs := b.refs + 1 } else b
        some { heap := heap, live := live }
      else none
  | .free cell =>
      if ∃ b ∈ s.live, b.start = cell then do
        let (ret, heap) ← logallocFree s.heap (s.heap.ptrOf cell)
        let live := s.live.map fun b =>
          if b.start = cell ∧ ret = aOk then { b with refs := b.refs - 1 } else b
        some { heap := heap, live := live.filter fun b => b.refs ≠ 0 }
      else none
  | .write addr val =>
      if ∃ b ∈ s.live, b.owns s.heap addr then do
        let heap ← s.heap.store addr val
        some { s with heap := heap }
      else none

end Tsl
