import Mathlib.Algebra.Group.Nat.Defs
import Tsl.Lib.Machine
import Tsl.List
import Tsl.Result

set_option autoImplicit false

/-! # The slab allocator

`tsl/alloc/allocator.c`: allocators of items of one size. An allocator has a list of slabs, and every
slab is a page of a slab class, taken from the class when the allocator needs one and given back when
it is empty.

Memory is typed. The list entries, the `struct allocator`s, the slab headers at the start of a page
and the words of the items are kept by address, each in a map of their own; that items lie behind the
header of their slab and overlap neither each other nor those of another slab is proved, not assumed.
A word of an item is an aligned one of 8 bytes. Pointers are numbers, and 0 is `NULL`. -/

namespace Tsl

open Lib

/-- The slab classes of `struct slab_manager`. -/
inductive SlabClassId where
  | normalSlabs
  | hugeSlabs
deriving DecidableEq, Repr

/-- Where a list entry is: at the head of a list or at the start of a page. -/
inductive SlabNode where
  /-- `&class->avail_slabs`. -/
  | availSlabs (cls : SlabClassId)
  /-- `&alloc->slabs`. -/
  | slabs (alloc : ℕ)
  /-- `&slab->snode`. -/
  | snode (slab : ℕ)
  | poisonNext
  | poisonPrev
deriving DecidableEq, Repr

instance : ListPtr SlabNode where
  poisonNext := .poisonNext
  poisonPrev := .poisonPrev

/-- `struct allocator`. -/
structure Allocator where
  itemSize : ℕ
  maxItems : ℕ
  freeMask : ℕ
  allocState : SlabClassId
  flags : ℕ
  slabsTaken : ℕ

/-- `struct slab`, the metadata of a slab. -/
structure Slab where
  freeItems : ℕ
  flags : ℕ
  maxItems : ℕ
  freeItemCount : ℕ
  slabSize : ℕ

/-- The slab manager with all allocators and their memory. -/
structure SlabHeap where
  links : ListMem SlabNode
  /-- `slab_bytes` of a class. -/
  slabBytes : SlabClassId → ℕ
  allocator : ℕ → Allocator
  slab : ℕ → Slab
  /-- The word at an address in an item; the first one of a free item is its `next`. -/
  word : ℕ → ℕ

/-- `ALLOC_SLAB_NEXT_LINK`. -/
def allocSlabNextLink : ℕ := 0xfefef0f0f1f1f5f5

/-- `ALLOC_FLAG_NO_GROW`. -/
def allocFlagNoGrow : ℕ := 0x1

/-- `ALLOC_FLAG_HUGE_PAGE`. -/
def allocFlagHugePage : ℕ := 0x2

/-- `SYS_CACHE_LINE_LENGTH`. -/
def sysCacheLineLength : ℕ := 64

/-- `sizeof(struct slab)`: a list entry, a pointer and four words of 32 bits. -/
def sizeofSlab : ℕ := 16 + 8 + 4 * 4

/-- `ROUND_16(x)`, on a `size_t`. -/
def round16 (x : ℕ) : ℕ := ((x + 15) % 2 ^ 64) >>> 4 <<< 4

/-- `ROUND_CACHE_LINE(x)`. -/
def roundCacheLine (x : ℕ) : ℕ :=
  (x + (sysCacheLineLength - 1)) / sysCacheLineLength * sysCacheLineLength

namespace SlabHeap

/-- `LIST_ITEM(node, struct slab, snode)`; reading a slab where there is none is a fault. -/
def slabAt : SlabNode → Option ℕ
  | .snode slab => some slab
  | _ => none

def setSlab (h : SlabHeap) (slab : ℕ) (hdr : Slab) : SlabHeap :=
  { h with slab := Function.update h.slab slab hdr }

def setAllocator (h : SlabHeap) (alloc : ℕ) (a : Allocator) : SlabHeap :=
  { h with allocator := Function.update h.allocator alloc a }

def setWord (h : SlabHeap) (addr val : ℕ) : SlabHeap :=
  { h with word := Function.update h.word addr val }

end SlabHeap

/-! ## Slab classes -/

/-- The loop of `__allocator_subsystem_init_page_class`, with `count` pages from `page` on to go. -/
def makeAvailable (links : ListMem SlabNode) (cls : SlabClassId) (bytes : ℕ) :
    ℕ → ℕ → ListMem SlabNode
  | 0, _ => links
  | count + 1, page =>
      makeAvailable (listAppend (listInit links (.snode page)) (.availSlabs cls) (.snode page)) cls
        bytes count (page + bytes)

/-- `__allocator_subsystem_init_page_class`; `pages` is what `mmap` returns. -/
def allocatorSubsystemInitPageClass (h : SlabHeap) (cls : SlabClassId) (count bytes pages : ℕ) :
    SlabHeap :=
  if count = 0 then h
  else
    { h with
      links := makeAvailable h.links cls bytes count pages
      slabBytes := Function.update h.slabBytes cls bytes }

/-- `__allocator_release_page`. -/
def allocatorReleasePage (h : SlabHeap) (cls : SlabClassId) (ptr : ℕ) : SlabHeap :=
  { h with links := listAppend h.links (.availSlabs cls) (.snode ptr) }

/-- `__allocator_acquire_page`: the result code and `*ptr`. -/
def allocatorAcquirePage (h : SlabHeap) (cls : SlabClassId) :
    Option (AResult × Option ℕ × SlabHeap) :=
  if listEmpty h.links (.availSlabs cls) then some (aENomem, none, h)
  else do
    let item := (h.links (.availSlabs cls)).next
    let ptr ← SlabHeap.slabAt item
    some (aOk, some ptr, { h with links := listDel h.links item })

/-! ## Slabs -/

/-- The offset of the first item in a slab. -/
def firstObjOffset : ℕ := roundCacheLine sizeofSlab

/-- `__helper_slab_init`; the count and the size are stored in 32 bits. -/
def helperSlabInit (h : SlabHeap) (slab objSize slabSize : ℕ) : SlabHeap :=
  let itemCount := (slabSize - firstObjOffset) / objSize
  let first := slab + firstObjOffset
  let h := { h with links := listInit h.links (.snode slab) }
  let h := h.setWord first allocSlabNextLink
  h.setSlab slab
    { freeItems := first
      flags := 0
      maxItems := itemCount % 2 ^ 32
      freeItemCount := itemCount % 2 ^ 32
      slabSize := slabSize % 2 ^ 32 }

/-- `__helper_add_slab`. -/
def helperAddSlab (h : SlabHeap) (alloc slab : ℕ) : SlabHeap :=
  let a := h.allocator alloc
  let h := { h with links := listPrepend h.links (.slabs alloc) (.snode slab) }
  h.setAllocator alloc { a with maxItems := (a.maxItems + (h.slab slab).freeItemCount) % 2 ^ 64 }

/-! ## Allocators -/

/-- `__helper_allocator_new_init`, where `malloc` returned `alloc`. What it does not write is what
    was in that memory before. -/
def helperAllocatorNewInit (h : SlabHeap) (alloc : ℕ) : SlabHeap :=
  let h := { h with links := listInit h.links (.slabs alloc) }
  h.setAllocator alloc { h.allocator alloc with itemSize := 0, maxItems := 0, freeMask := 0 }

/-- The loop of `allocator_new` that grabs the pages from the slab manager. -/
def grabPages (h : SlabHeap) (alloc : ℕ) (cls : SlabClassId) (pageSize : ℕ) :
    ℕ → Option (AResult × SlabHeap)
  | 0 => some (aOk, h)
  | numPages + 1 => do
      let (pageResult, newPage, h) ← allocatorAcquirePage h cls
      match newPage with
      | none => some (pageResult, h)
      | some newPage =>
          let h := helperSlabInit h newPage (h.allocator alloc).itemSize pageSize
          grabPages (helperAddSlab h alloc newPage) alloc cls pageSize numPages

/-- `allocator_new`: the result code and the new allocator, if there is one; `malloc` is the address
    it returns, if any. A division by 0 is a fault. -/
def allocatorNew (h : SlabHeap) (itemSize itemCount flags : ℕ) (malloc : Option ℕ) :
    Option (AResult × Option ℕ × SlabHeap) :=
  if itemSize = 0 ∨ itemCount = 0 then some (aEBadargs, none, h)
  else
    let realSize := round16 itemSize
    let cls := if flags &&& allocFlagHugePage ≠ 0 then SlabClassId.hugeSlabs else .normalSlabs
    let pageSize := h.slabBytes cls
    if realSize = 0 then none
    else
      let itemsPerSlab := pageSize / realSize
      if itemsPerSlab = 0 then some (aENomem, none, h)
      else
        match malloc with
        | none => some (aENomem, none, h)
        | some newAlloc => do
            let h := helperAllocatorNewInit h newAlloc
            let h := h.setAllocator newAlloc
              { h.allocator newAlloc with
                itemSize := realSize
                -- the bits of `page_size - 1` are all those that are not in the mask
                freeMask := 2 ^ 64 - 1 - (pageSize - 1)
                allocState := cls }
            let numPages := (itemCount + itemsPerSlab - 1) % 2 ^ 64 / itemsPerSlab
            let (result, h) ← grabPages h newAlloc cls pageSize numPages
            some (result, if afailed result then none else some newAlloc, h)

/-- `__helper_allocator_grow`. -/
def helperAllocatorGrow (h : SlabHeap) (alloc : ℕ) : Option (AResult × SlabHeap) := do
  let cls := (h.allocator alloc).allocState
  let (result, newPage, h) ← allocatorAcquirePage h cls
  match newPage with
  | none => some (result, h)
  | some newPage =>
      let a := h.allocator alloc
      let h := helperSlabInit h newPage a.itemSize (h.slabBytes cls)
      let h := h.setAllocator alloc { a with slabsTaken := (a.slabsTaken + 1) % 2 ^ 32 }
      some (result, helperAddSlab h alloc newPage)

/-- `__helper_allocator_shrink`. -/
def helperAllocatorShrink (h : SlabHeap) (alloc slab : ℕ) : AResult × SlabHeap :=
  if (h.slab slab).freeItemCount ≠ (h.slab slab).maxItems then (aEBadargs, h)
  else
    let h := { h with links := listDel h.links (.snode slab) }
    (aOk, allocatorReleasePage h (h.allocator alloc).allocState slab)

/-- The part of `allocator_alloc` that finds the slab `first` to take an item from, after growing the
    allocator if there is nothing left; `none` inside if it cannot grow. -/
def allocatorFirst (h : SlabHeap) (alloc : ℕ) : Option (Option ℕ × SlabHeap) := do
  let growable := (h.allocator alloc).flags &&& allocFlagNoGrow = 0
  let exhausted ←
    if listEmpty h.links (.slabs alloc) then some true
    else do
      let first ← SlabHeap.slabAt (h.links (.slabs alloc)).next
      some (decide ((h.slab first).freeItemCount = 0))
  if exhausted then
    if growable then do
      -- the result is not looked at; the first slab is grabbed again either way
      let (_, h) ← helperAllocatorGrow h alloc
      let first ← SlabHeap.slabAt (h.links (.slabs alloc)).next
      some (some first, h)
    else some (none, h)
  else do
    let first ← SlabHeap.slabAt (h.links (.slabs alloc)).next
    some (some first, h)

/-- The part of `allocator_alloc` that fills in the next item, if that is still to be done. -/
def fillInNext (h : SlabHeap) (alloc first item : ℕ) : SlabHeap :=
  if h.word item = allocSlabNextLink then
    let next := item + (h.allocator alloc).itemSize
    if next + (h.allocator alloc).itemSize ≤ first + (h.slab first).slabSize then
      (h.setWord next allocSlabNextLink).setWord item next
    else h.setWord item 0
  else h

/-- The rest of `allocator_alloc`, which takes an item from the slab `first`. -/
def allocatorTake (h : SlabHeap) (alloc first : ℕ) : AResult × Option ℕ × SlabHeap :=
  if (h.slab first).freeItemCount = 0 then (aENomem, none, h)
  else
    let item := (h.slab first).freeItems
    if item = 0 then (aENomem, none, h)
    else
      let h := fillInNext h alloc first item
      let s := h.slab first
      let h := h.setSlab first
        { s with freeItems := h.word item, freeItemCount := s.freeItemCount - 1 }
      let h := h.setWord item 0
      if (h.slab first).freeItemCount = 0 then
        let links := listAppend (listDel h.links (.snode first)) (.slabs alloc) (.snode first)
        (aOk, some item, { h with links := links })
      else (aOk, some item, h)

/-- `allocator_alloc`: the result code and `*item_ptr`. -/
def allocatorAlloc (h : SlabHeap) (alloc : ℕ) : Option (AResult × Option ℕ × SlabHeap) := do
  let (first, h) ← allocatorFirst h alloc
  match first with
  | none => some (aENomem, none, h)
  | some first => some (allocatorTake h alloc first)

/-- `allocator_free`. -/
def allocatorFree (h : SlabHeap) (alloc item : ℕ) : AResult × SlabHeap :=
  if item = 0 then (aEBadargs, h)
  else
    let slab := item &&& (h.allocator alloc).freeMask
    let s := h.slab slab
    let h := h.setWord item s.freeItems
    let h := h.setSlab slab
      { s with freeItems := item, freeItemCount := (s.freeItemCount + 1) % 2 ^ 32 }
    if (h.slab slab).freeItemCount = (h.slab slab).maxItems then
      -- the ends of the list differ where it has several slabs; the only one stays
      if (h.links (.slabs alloc)).next ≠ (h.links (.slabs alloc)).prev then
        helperAllocatorShrink h alloc slab
      else (aOk, h)
    else
      let links := listPrepend (listDel h.links (.snode slab)) (.slabs alloc) (.snode slab)
      (aOk, { h with links := links })

/-! ## Runs of any number of allocators -/

/-- An item that was handed out and not freed, with the slab it came from. -/
structure LiveItem where
  alloc : ℕ
  addr : ℕ
  slab : ℕ
deriving DecidableEq, Repr

/-- The heap, with what its clients have of it. -/
structure SlabRun where
  heap : SlabHeap
  /-- What `malloc` gave `allocator_new`, also where `allocator_new` failed. -/
  mallocs : List ℕ
  /-- The allocators clients have. -/
  allocators : List ℕ
  live : List LiveItem

/-- What can happen to the heap. -/
inductive AllocatorCall where
  | new (itemSize itemCount flags : ℕ) (malloc : Option ℕ)
  | alloc (alloc : ℕ)
  | free (item : LiveItem)
  /-- A client writes a word of a live item. -/
  | write (item : LiveItem) (addr : ℕ) (val : BitVec 64)

/-- One step. Clients use allocators they have, free live items to the allocator they are from, and
    write into live items only; `malloc` does not return what it returned before. -/
def slabStep (s : SlabRun) : AllocatorCall → Option SlabRun
  | .new itemSize itemCount flags malloc =>
      if ∀ id, malloc = some id → id ∉ s.mallocs then do
        let (_, alloc, heap) ← allocatorNew s.heap itemSize itemCount flags malloc
        some { s with
          heap := heap
          mallocs := malloc.toList ++ s.mallocs
          allocators := alloc.toList ++ s.allocators }
      else none
  | .alloc alloc =>
      if alloc ∈ s.allocators then do
        let (first, _) ← allocatorFirst s.heap alloc
        let (_, item, heap) ← allocatorAlloc s.heap alloc
        let handedOut : List LiveItem :=
          (item.bind fun item => first.map fun first => ⟨alloc, item, first⟩).toList
        some { s with heap := heap, live := handedOut ++ s.live }
      else none
  | .free item =>
      if item ∈ s.live ∧ item.alloc ∈ s.allocators then
        let (_, heap) := allocatorFree s.heap item.alloc item.addr
        some { s with heap := heap, live := s.live.erase item }
      else none
  | .write item addr val =>
      if item ∈ s.live ∧ item.addr ≤ addr ∧
          addr + 8 ≤ item.addr + (s.heap.allocator item.alloc).itemSize ∧ addr % 8 = 0 then
        some { s with heap := s.heap.setWord addr val.toNat }
      else none

end Tsl
