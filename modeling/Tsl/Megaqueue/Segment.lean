import Tsl.Lib.Bytes
import Tsl.Result

set_option autoImplicit false

/-! # The shared memory of a megaqueue

`tsl/megaqueue/megaqueue.c`: a megaqueue lives in a named shared memory segment, which outlasts the
processes that use it. Its first page holds the header, the slots follow. `megaqueue_open` with
`O_CREAT` sets up the segment, whatever it held before, and without `O_CREAT` takes up a segment
that is there.

The queue and its name are given. What the system answers, and what the stack held before
`read(2)`, are arguments. What the hardware traps (an access past the last page of the segment or
to a mapping without `PROT_WRITE`, a remainder by zero) is `none` or `killed`. The calls on a
handle are here as a whole, each with the segment before and after; their interleavings are those
of `megaqueueStep`. -/

namespace Tsl

open Lib

/-! ## The segment -/

/-- A shared memory object. A byte past its end can be in memory, when it shares the last page. -/
structure Segment where
  size : ℕ
  bytes : Bytes

/-- `ftruncate(2)`: what is cut off is gone, what is added is zero. -/
def Segment.truncate (seg : Segment) (size : ℕ) : Segment where
  size := size
  bytes := fun i => if i < min seg.size size then seg.bytes i else 0

/-- What `getpagesize` may return: a power of two, and large enough for the header. -/
structure PageSize where
  shift : ℕ
  large : 12 ≤ shift

/-- The size in bytes. -/
def PageSize.bytes (page : PageSize) : ℕ := 2 ^ page.shift

/-- `x & ~(page_size - 1)`. -/
def PageSize.down (page : PageSize) (x : ℕ) : ℕ := x - x % page.bytes

/-! The fields of `struct megaqueue_header`, by offset. `head`, `tail`, `_delete` and
`producer_pid` start a cache line each. -/

def hdrHead : ℕ := 0
def hdrTail : ℕ := 64
def hdrDelete : ℕ := 128
def hdrProducerPid : ℕ := 192
def hdrObjectSize : ℕ := 200
def hdrObjectCount : ℕ := 208

/-- `sizeof(struct megaqueue_header)`. -/
def sizeofHeader : ℕ := 256

/-- A `uint64_t` of the header. -/
def Segment.load64 (seg : Segment) (field : ℕ) : ℕ := seg.bytes.load field 8

/-- A store to a `uint64_t` of the header. -/
def Segment.store64 (seg : Segment) (field value : ℕ) : Segment :=
  { seg with bytes := seg.bytes.store field 8 value }

/-! ## The calls of the system -/

/-- The access mode of an `open(2)`. -/
inductive Access where
  | rdonly
  | wronly
  | rdwr
deriving DecidableEq, Repr

/-- The flags of `mode` that matter. -/
structure OpenMode where
  access : Access
  creat : Bool
  trunc : Bool
deriving DecidableEq, Repr

/-- Which calls of one `megaqueue_open` the system lets succeed, the process id, and what the stack
    held where `read_header` is. -/
structure Sys where
  asprintf : Bool
  shmOpen : Bool
  ftruncate : Bool
  read : Bool
  mmap : Bool
  pid : ℕ
  stack : Bytes

/-- `shm_open(3)`: a segment that is missing is made only with `O_CREAT`, and is empty. -/
def shmOpen (sys : Sys) (mode : OpenMode) (seg : Option Segment) : Option Segment :=
  if sys.shmOpen then
    match seg with
    | some seg => some (if mode.trunc then seg.truncate 0 else seg)
    | none => if mode.creat then some ⟨0, fun _ => 0⟩ else none
  else none

/-- `ftruncate(2)` wants a descriptor that is open for writing and a size that is an `off_t`. -/
def ftruncate (sys : Sys) (mode : OpenMode) (size : ℕ) (seg : Segment) : Option Segment :=
  if sys.ftruncate ∧ mode.access ≠ .rdonly ∧ size < 2 ^ 63 then some (seg.truncate size) else none

/-- `mmap(2)` wants a descriptor that is open for reading and at least one byte. -/
def mmapSucceeds (sys : Sys) (mode : OpenMode) (size : ℕ) : Bool :=
  sys.mmap ∧ mode.access ≠ .wronly ∧ 0 < size

/-- `read(2)` of the header: what the segment does not have stays as the stack had it. -/
def readHeader (sys : Sys) (mode : OpenMode) (seg : Segment) : Option Bytes :=
  if sys.read ∧ mode.access ≠ .wronly then
    some fun i => if i < seg.size then seg.bytes i else sys.stack i
  else none

/-! ## `megaqueue_open` -/

/-- `struct megaqueue`. Addresses in the region are offsets from its start, where the header is;
    `writable` is whether it was mapped with `PROT_WRITE`. -/
structure MegaqueueHandle where
  objectSize : ℕ
  objectCount : ℕ
  writableStart : ℕ
  writable : Bool
  regionSize : ℕ
deriving DecidableEq, Repr

/-- How `megaqueue_open` ends. -/
inductive OpenResult where
  | opened (queue : MegaqueueHandle)
  | failed (ret : AResult)
  | killed
deriving DecidableEq

/-- `MB(x)`. -/
def megabytes (x : ℕ) : ℕ := x * 1024 * 1024

/-- `megaqueue_prepare_superblock`. -/
def megaqueuePrepareSuperblock (pid objSize objCount : ℕ) (hdr : Segment) : Segment :=
  (((hdr.store64 hdrHead 0).store64 hdrProducerPid pid).store64 hdrObjectSize objSize).store64
    hdrObjectCount objCount

/-- `__megaqueue_prefault_range`: a `uint32_t` is written to the beginning of each page. -/
def megaqueuePrefaultRange (page : PageSize) (bytes : ℕ) (base : Segment) : Segment :=
  let pageCount := page.down (bytes - 1) / page.bytes
  (List.range pageCount).foldl
    (fun seg i => { seg with bytes := seg.bytes.store (i * page.bytes) 4 0xdead }) base

/-- How much of the queue is touched when it is created. -/
def prefetchSize (page : PageSize) (queueSize : ℕ) : ℕ :=
  let prefetch :=
    if queueSize > megabytes 512 then megabytes 512 else queueSize + page.bytes - 1
  page.down (prefetch + page.bytes - 1)

/-- `obj_size * obj_count + page_size`, a `size_t`. -/
def queueSize (page : PageSize) (objSize objCount : ℕ) : ℕ :=
  (objSize * objCount + page.bytes) % 2 ^ 64

/-- The handle that `megaqueue_open` fills in; the object size and count are `uint32_t`. -/
def openedHandle (page : PageSize) (mode : OpenMode) (objSize objCount size : ℕ) :
    MegaqueueHandle where
  objectSize := objSize % 2 ^ 32
  objectCount := objCount % 2 ^ 32
  writableStart := page.bytes
  writable := mode.access = .rdwr ∨ mode.access = .wronly
  regionSize := size

/-- `megaqueue_open` with `O_CREAT`, from the `ftruncate` on. -/
def openCreating (page : PageSize) (sys : Sys) (mode : OpenMode) (objSize objCount : ℕ)
    (seg : Segment) : OpenResult × Segment :=
  let size := queueSize page objSize objCount
  match ftruncate sys mode size seg with
  | none => (.failed aEInval, seg)
  | some seg =>
      if mmapSucceeds sys mode size then
        let mapping := megaqueuePrefaultRange page (prefetchSize page size) seg
        (.opened (openedHandle page mode objSize objCount size),
          megaqueuePrepareSuperblock sys.pid objSize objCount mapping)
      else (.failed aEInval, seg)

/-- `megaqueue_open` without `O_CREAT`, from the `read` on. The segment stays as it is. -/
def openExisting (page : PageSize) (sys : Sys) (mode : OpenMode) (objSize : ℕ)
    (seg : Segment) : OpenResult :=
  match readHeader sys mode seg with
  | none => .failed aEInval
  | some read =>
      let size := queueSize page (read.load hdrObjectSize 8) (read.load hdrObjectCount 8)
      if mmapSucceeds sys mode size then
        -- The mapping of an empty segment has no page behind it.
        if seg.size = 0 then .killed
        else if seg.load64 hdrObjectSize < objSize then .failed aEInval
        else if seg.load64 hdrObjectCount = 0 then .failed aEInval
        else .opened (openedHandle page mode objSize (seg.load64 hdrObjectCount) size)
      else .failed aEInval

/-- `megaqueue_open`, with the segment of that name before and after. -/
def megaqueueOpen (page : PageSize) (sys : Sys) (mode : OpenMode) (objSize objCount : ℕ)
    (prior : Option Segment) : OpenResult × Option Segment :=
  if sys.asprintf then
    match shmOpen sys mode prior with
    | none => (.failed aEInval, prior)
    | some seg =>
        if mode.creat then
          let (result, seg) := openCreating page sys mode objSize objCount seg
          (result, some seg)
        else (openExisting page sys mode objSize seg, some seg)
  else (.failed aENomem, prior)

/-! ## The calls on a handle -/

/-- `__megaqueue_is_full`. -/
def megaqueueIsFull (queue : MegaqueueHandle) (seg : Segment) : Option Bool :=
  if queue.objectCount = 0 then none
  else some (seg.load64 hdrDelete = (seg.load64 hdrHead + 1) % 2 ^ 64 % queue.objectCount)

/-- `__megaqueue_is_empty`. -/
def megaqueueIsEmpty (seg : Segment) : Bool := seg.load64 hdrTail = seg.load64 hdrHead

/-- `__megaqueue_can_delete`. -/
def megaqueueCanDelete (seg : Segment) : Bool := seg.load64 hdrTail = seg.load64 hdrDelete

/-- `queue->writable_start + (queue->object_size * offset)`. -/
def MegaqueueHandle.slotAt (queue : MegaqueueHandle) (offset : ℕ) : ℕ :=
  queue.writableStart + queue.objectSize * offset % 2 ^ 64

/-- `megaqueue_next_slot`; a slot only with `A_OK`. -/
def megaqueueNextSlot (queue : MegaqueueHandle) (seg : Segment) : Option (AResult × Option ℕ) :=
  (megaqueueIsFull queue seg).map fun full =>
    if full then (aENospc, none) else (aOk, some (queue.slotAt (seg.load64 hdrHead)))

/-- `megaqueue_read_next_slot`; without an entry the slot is `NULL`. -/
def megaqueueReadNextSlot (queue : MegaqueueHandle) (seg : Segment) : AResult × Option ℕ :=
  if megaqueueIsEmpty seg then (aEEmpty, none)
  else (aOk, some (queue.slotAt (seg.load64 hdrTail)))

/-- The next offset, `(offset + 1) % queue->object_count`, is stored to each of the fields. -/
def advanceFields (queue : MegaqueueHandle) (offset : ℕ) (fields : List ℕ) (seg : Segment) :
    Option (AResult × Segment) :=
  if queue.objectCount = 0 ∨ queue.writable = false then none
  else some (aOk,
    fields.foldl (·.store64 · ((offset + 1) % 2 ^ 64 % queue.objectCount)) seg)

/-- `megaqueue_advance`. -/
def megaqueueAdvance (queue : MegaqueueHandle) (seg : Segment) : Option (AResult × Segment) :=
  (megaqueueIsFull queue seg).bind fun full =>
    if full then some (aENospc, seg)
    else advanceFields queue (seg.load64 hdrHead) [hdrHead] seg

/-- `megaqueue_read_advance`. -/
def megaqueueReadAdvance (queue : MegaqueueHandle) (seg : Segment) : Option (AResult × Segment) :=
  if megaqueueIsEmpty seg then some (aEEmpty, seg)
  else advanceFields queue (seg.load64 hdrTail) [hdrTail, hdrDelete] seg

/-- `megaqueue_read_only_advance`. -/
def megaqueueReadOnlyAdvance (queue : MegaqueueHandle) (seg : Segment) :
    Option (AResult × Segment) :=
  if megaqueueIsEmpty seg then some (aEEmpty, seg)
  else advanceFields queue (seg.load64 hdrTail) [hdrTail] seg

/-- `megaqueue_delete_advance`. -/
def megaqueueDeleteAdvance (queue : MegaqueueHandle) (seg : Segment) :
    Option (AResult × Segment) :=
  if megaqueueCanDelete seg then some (aEEmpty, seg)
  else advanceFields queue (seg.load64 hdrDelete) [hdrDelete] seg

/-- The users of the queue store what they like to its slots. -/
def Segment.fillSlots (seg : Segment) (queue : MegaqueueHandle) (data : Bytes) : Segment :=
  { seg with bytes := fun i => if i < queue.writableStart then seg.bytes i else data i }

/-! ## Loads and stores of the header -/

theorem PageSize.sizeofHeader_le (page : PageSize) : sizeofHeader ≤ page.bytes := by
  have hpow : 2 ^ 12 ≤ 2 ^ page.shift := Nat.pow_le_pow_right (by decide) page.large
  simp only [sizeofHeader, PageSize.bytes]
  omega

theorem Segment.load64_store64_same (seg : Segment) (field value : ℕ) :
    (seg.store64 field value).load64 field = value % 2 ^ 64 :=
  Bytes.load_store_same seg.bytes field 8 value

theorem Segment.load64_store64_ne {seg : Segment} {field field' value : ℕ}
    (h : field' + 8 ≤ field ∨ field + 8 ≤ field') :
    (seg.store64 field value).load64 field' = seg.load64 field' :=
  Bytes.load_store_disjoint h

theorem Segment.load64_fillSlots {seg : Segment} {queue : MegaqueueHandle} {data : Bytes}
    {field : ℕ} (h : field + 8 ≤ queue.writableStart) :
    (seg.fillSlots queue data).load64 field = seg.load64 field :=
  Bytes.load_congr fun i _ hhi => if_pos (by omega)

/-! ## What a creating open leaves in the header -/

/-- Without objects, what is mapped is the header page: its size is a power of two, so it wraps to
    nothing or not at all. -/
theorem queueSize_of_zero {page : PageSize} {objSize objCount : ℕ} (hzero : objSize * objCount = 0)
    (hpos : 0 < queueSize page objSize objCount) :
    queueSize page objSize objCount = page.bytes := by
  unfold queueSize at hpos ⊢
  rw [hzero, Nat.zero_add] at hpos ⊢
  by_cases hwide : 64 ≤ page.shift
  · have hdvd : 2 ^ 64 ∣ page.bytes := Nat.pow_dvd_pow 2 hwide
    rw [Nat.mod_eq_zero_of_dvd hdvd] at hpos
    exact absurd hpos (Nat.lt_irrefl 0)
  · exact Nat.mod_eq_of_lt (Nat.pow_lt_pow_right (by decide) (Nat.lt_of_not_le hwide))

theorem load64_megaqueuePrefaultRange (page : PageSize) (bytes : ℕ) (base : Segment) {field : ℕ}
    (hlo : 4 ≤ field) (hhi : field + 8 ≤ sizeofHeader) :
    (megaqueuePrefaultRange page bytes base).load64 field = base.load64 field := by
  have hpage := page.sizeofHeader_le
  simp only [megaqueuePrefaultRange]
  generalize List.range _ = pages
  induction pages generalizing base with
  | nil => rw [List.foldl_nil]
  | cons i pages ih =>
      have hapart : field + 8 ≤ i * page.bytes ∨ i * page.bytes + 4 ≤ field := by
        rcases Nat.eq_zero_or_pos i with rfl | hi
        · exact .inr (by omega)
        · have hnext := Nat.le_mul_of_pos_left page.bytes hi
          exact .inl (by omega)
      rw [List.foldl_cons, ih]
      exact Bytes.load_store_disjoint hapart

theorem size_megaqueuePrefaultRange (page : PageSize) (bytes : ℕ) (base : Segment) :
    (megaqueuePrefaultRange page bytes base).size = base.size := by
  simp only [megaqueuePrefaultRange]
  generalize List.range _ = pages
  induction pages generalizing base with
  | nil => rfl
  | cons i pages ih => rw [List.foldl_cons, ih]

/-- What `megaqueue_open` with `O_CREAT` leaves when it succeeds: the handle, and the fields of the
    header. The superblock has all of them but `tail` and `_delete`, which are those of `carried`,
    the bytes of the segment from before. -/
structure Created (page : PageSize) (mode : OpenMode) (objSize objCount : ℕ) (carried : Segment)
    (queue : MegaqueueHandle) (seg : Segment) : Prop where
  handle : queue = openedHandle page mode objSize objCount (queueSize page objSize objCount)
  access : mode.access = .rdwr
  size : seg.size = queueSize page objSize objCount
  head : seg.load64 hdrHead = 0
  tail : seg.load64 hdrTail = (carried.truncate (queueSize page objSize objCount)).load64 hdrTail
  delete : seg.load64 hdrDelete =
    (carried.truncate (queueSize page objSize objCount)).load64 hdrDelete
  objectSize : seg.load64 hdrObjectSize = objSize % 2 ^ 64
  objectCount : seg.load64 hdrObjectCount = objCount % 2 ^ 64

variable {page : PageSize} {sys : Sys} {mode : OpenMode} {objSize objCount : ℕ}
  {prior : Option Segment} {queue : MegaqueueHandle} {seg : Segment}

theorem created_superblock (pid bytes : ℕ) (carried : Segment) (haccess : mode.access = .rdwr) :
    Created page mode objSize objCount carried
      (openedHandle page mode objSize objCount (queueSize page objSize objCount))
      (megaqueuePrepareSuperblock pid objSize objCount (megaqueuePrefaultRange page bytes
        (carried.truncate (queueSize page objSize objCount)))) where
  handle := rfl
  access := haccess
  size := size_megaqueuePrefaultRange _ _ _
  head := by
    unfold megaqueuePrepareSuperblock
    rw [Segment.load64_store64_ne (by decide), Segment.load64_store64_ne (by decide),
      Segment.load64_store64_ne (by decide), Segment.load64_store64_same, Nat.zero_mod]
  tail := by
    unfold megaqueuePrepareSuperblock
    rw [Segment.load64_store64_ne (by decide), Segment.load64_store64_ne (by decide),
      Segment.load64_store64_ne (by decide), Segment.load64_store64_ne (by decide),
      load64_megaqueuePrefaultRange _ _ _ (by decide) (by decide)]
  delete := by
    unfold megaqueuePrepareSuperblock
    rw [Segment.load64_store64_ne (by decide), Segment.load64_store64_ne (by decide),
      Segment.load64_store64_ne (by decide), Segment.load64_store64_ne (by decide),
      load64_megaqueuePrefaultRange _ _ _ (by decide) (by decide)]
  objectSize := by
    unfold megaqueuePrepareSuperblock
    rw [Segment.load64_store64_ne (by decide), Segment.load64_store64_same]
  objectCount := by
    unfold megaqueuePrepareSuperblock
    rw [Segment.load64_store64_same]

theorem shmOpen_cases {carried : Segment} (h : shmOpen sys mode prior = some carried) :
    prior = none ∧ carried = ⟨0, fun _ => 0⟩ ∨
      ∃ seg, prior = some seg ∧ carried = if mode.trunc then seg.truncate 0 else seg := by
  cases prior with
  | none =>
      simp only [shmOpen, Option.ite_none_right_eq_some, Option.some.injEq] at h
      exact .inl ⟨rfl, h.2.2.symm⟩
  | some seg =>
      simp only [shmOpen, Option.ite_none_right_eq_some, Option.some.injEq] at h
      exact .inr ⟨seg, rfl, h.2.symm⟩

theorem granted_of_opened (hcreat : mode.creat = true)
    (hopen : megaqueueOpen page sys mode objSize objCount prior = (.opened queue, some seg)) :
    ∃ carried cut, shmOpen sys mode prior = some carried ∧
      ftruncate sys mode (queueSize page objSize objCount) carried = some cut ∧
      mmapSucceeds sys mode (queueSize page objSize objCount) = true ∧
      queue = openedHandle page mode objSize objCount (queueSize page objSize objCount) ∧
      seg = megaqueuePrepareSuperblock sys.pid objSize objCount
        (megaqueuePrefaultRange page (prefetchSize page (queueSize page objSize objCount)) cut) := by
  simp only [megaqueueOpen, hcreat, if_true] at hopen
  split at hopen
  case isFalse => simp at hopen
  cases hshm : shmOpen sys mode prior with
  | none => simp [hshm] at hopen
  | some carried =>
      simp only [hshm, openCreating] at hopen
      cases htrunc : ftruncate sys mode (queueSize page objSize objCount) carried with
      | none => simp [htrunc] at hopen
      | some cut =>
          simp only [htrunc] at hopen
          split at hopen
          case isFalse => simp at hopen
          case isTrue hmap =>
            simp only [Prod.mk.injEq, OpenResult.opened.injEq, Option.some.injEq] at hopen
            exact ⟨carried, cut, rfl, htrunc, hmap, hopen.1.symm, hopen.2.symm⟩

theorem created_of_opened (hcreat : mode.creat = true)
    (hopen : megaqueueOpen page sys mode objSize objCount prior = (.opened queue, some seg)) :
    ∃ carried, shmOpen sys mode prior = some carried ∧
      Created page mode objSize objCount carried queue seg := by
  obtain ⟨carried, cut, hshm, htrunc, hmap, rfl, rfl⟩ := granted_of_opened hcreat hopen
  obtain ⟨hgrant, hcut⟩ := Option.ite_none_right_eq_some.1 htrunc
  have haccess : mode.access = .rdwr := by
    have hread : mode.access ≠ .wronly := by
      simp only [mmapSucceeds, decide_eq_true_eq] at hmap
      exact hmap.2.1
    cases hmode : mode.access with
    | rdonly => exact absurd hmode hgrant.2.1
    | wronly => exact absurd hmode hread
    | rdwr => rfl
  obtain rfl := Option.some.inj hcut
  exact ⟨carried, hshm, created_superblock sys.pid _ carried haccess⟩

/-! ## A queue of four objects -/

/-- A page of 4096 bytes. -/
def page4k : PageSize := ⟨12, by decide⟩

/-- Every call of the system succeeds. -/
def willing : Sys := ⟨true, true, true, true, true, 1, fun _ => 0⟩

/-- `O_RDWR | O_CREAT`. -/
def creating : OpenMode := ⟨.rdwr, true, false⟩

/-- `O_RDWR`. -/
def attaching : OpenMode := ⟨.rdwr, false, false⟩

/-- The handle its creator has, with objects of eight bytes. -/
def fourObjects : MegaqueueHandle := ⟨8, 4, 4096, true, 4128⟩

end Tsl
