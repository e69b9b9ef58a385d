import Tsl.Lib.Simulation
import Tsl.Megaqueue
import Tsl.Megaqueue.Fresh
import Tsl.Megaqueue.Layout
import Tsl.Megaqueue.Slots

set_option autoImplicit false

/-! # A megaqueue in its shared memory

The queue of `megaqueueStep` has its offsets and slots for itself. Here they are bytes of the segment
that `megaqueue_open` left: every load and store of an offset is one of 64 bits of the header, whoever
was handed a slot stores or loads a byte of it at a time, at any moment, and the parties that read and
delete attach by a `megaqueue_open` of their own, while the producer is at work.

Where the slots fit and nothing of an earlier queue survived in the header, this simulates
`megaqueueStep` (`simulates_megaqueueStep`). So what a reader loads of the entries, byte by byte, is
what was published (`delivers_of_run`), and nobody leaves the region. -/

namespace Tsl

open Lib

/-- What the queue is made and used with. -/
structure SharedParams where
  page : PageSize
  objSize : ℕ
  objCount : ℕ
  /-- The reader advances `_delete` itself. -/
  lockstep : Bool

/-- A byte the reader loaded: of which entry, where in it, and what it was. -/
structure Fetch where
  entry : ℕ
  index : ℕ
  byte : BitVec 8
deriving DecidableEq, Repr

/-- The segment and its parties. What was published, observed and fetched is kept besides, and how
    often `tail` and `_delete` were advanced; no step reads these. -/
structure SharedQueue where
  segment : Segment
  /-- The handle of the creating open. -/
  producerQueue : MegaqueueHandle
  readerQueue : Option MegaqueueHandle
  deleterQueue : Option MegaqueueHandle
  producer : ProducerPc
  reader : ReaderPc
  deleter : DeleterPc
  published : List (List (BitVec 8))
  observed : List (List (BitVec 8))
  fetched : List Fetch
  advanced : ℕ
  deleted : ℕ

/-- Who moves. -/
inductive SharedMove where
  | producer
  /-- The producer stores to a byte of the slot it fills. -/
  | store (index : ℕ) (byte : BitVec 8)
  | attachReader (sys : Sys) (mode : OpenMode) (count : ℕ)
  | reader
  /-- The reader loads a byte of the slot it reads. -/
  | fetch (index : ℕ)
  | attachDeleter (sys : Sys) (mode : OpenMode) (count : ℕ)
  | deleter

/-- The bytes of the object in a slot. -/
def Segment.object (seg : Segment) (queue : MegaqueueHandle) (objSize offset : ℕ) :
    List (BitVec 8) :=
  (List.range objSize).map fun i => seg.bytes (queue.slotAt offset + i)

/-- `(offset + 1) % queue->object_count`. -/
def MegaqueueHandle.next (queue : MegaqueueHandle) (offset : ℕ) : ℕ :=
  (offset + 1) % 2 ^ 64 % queue.objectCount

/-! ## Steps -/

/-- The next access of the producer. -/
def sharedProducer (objSize : ℕ) (queue : MegaqueueHandle) (s : SharedQueue) : SharedQueue :=
  match s.producer with
  | .idle => { s with producer := .nextSlotHead (s.segment.load64 hdrHead) }
  | .nextSlotHead headOffset =>
      { s with producer := .nextSlotDelete headOffset (s.segment.load64 hdrHead) }
  | .nextSlotDelete headOffset fullHead =>
      if s.segment.load64 hdrDelete = queue.next fullHead then { s with producer := .idle }
      else { s with producer := .filling headOffset }
  | .filling headOffset =>
      { s with producer := .advanceDelete headOffset (s.segment.load64 hdrHead) }
  | .advanceDelete headOffset fullHead =>
      if s.segment.load64 hdrDelete = queue.next fullHead then { s with producer := .idle }
      else { s with producer := .advanceHead headOffset }
  | .advanceHead headOffset =>
      { s with producer := .advanceStore headOffset (s.segment.load64 hdrHead) }
  | .advanceStore headOffset offset =>
      { s with
        segment := s.segment.store64 hdrHead (queue.next offset)
        producer := .idle
        published := s.published ++ [s.segment.object queue objSize headOffset] }

/-- The next access of the reader to an offset. -/
def sharedReader (objSize : ℕ) (lockstep : Bool) (queue : MegaqueueHandle) (s : SharedQueue) :
    SharedQueue :=
  match s.reader with
  | .idle => { s with reader := .nextSlotHead (s.segment.load64 hdrTail) }
  | .nextSlotHead tailOffset =>
      { s with reader := .nextSlotTail tailOffset (s.segment.load64 hdrHead) }
  | .nextSlotTail tailOffset emptyHead =>
      if s.segment.load64 hdrTail = emptyHead then { s with reader := .idle }
      else { s with reader := .reading tailOffset }
  | .reading tailOffset =>
      { s with
        reader := .advanceHead
        observed := s.observed ++ [s.segment.object queue objSize tailOffset] }
  | .advanceHead => { s with reader := .advanceTail (s.segment.load64 hdrHead) }
  | .advanceTail emptyHead =>
      if s.segment.load64 hdrTail = emptyHead then { s with reader := .idle }
      else { s with reader := .advanceLoad }
  | .advanceLoad => { s with reader := .advanceStore (s.segment.load64 hdrTail) }
  | .advanceStore offset =>
      { s with
        segment := s.segment.store64 hdrTail (queue.next offset)
        advanced := s.advanced + 1
        reader := if lockstep then .storeDelete (queue.next offset) else .idle }
  | .storeDelete offset =>
      { s with
        segment := s.segment.store64 hdrDelete offset
        deleted := s.deleted + 1
        reader := .idle }

/-- The next access of the deleter. -/
def sharedDeleter (queue : MegaqueueHandle) (s : SharedQueue) : SharedQueue :=
  match s.deleter with
  | .idle => { s with deleter := .checkDelete (s.segment.load64 hdrTail) }
  | .checkDelete tailOffset =>
      if tailOffset = s.segment.load64 hdrDelete then { s with deleter := .idle }
      else { s with deleter := .advanceLoad }
  | .advanceLoad => { s with deleter := .advanceStore (s.segment.load64 hdrDelete) }
  | .advanceStore offset =>
      { s with
        segment := s.segment.store64 hdrDelete (queue.next offset)
        deleted := s.deleted + 1
        deleter := .idle }

/-- `megaqueue_open` by a party that is to take part. It opens for reading and writing, does not
    truncate, and asks for objects as large as the queue was made for. -/
def attach (p : SharedParams) (sys : Sys) (mode : OpenMode) (count : ℕ) (seg : Segment) :
    Option (OpenResult × Segment) :=
  if mode = attaching then
    let (result, after) := megaqueueOpen p.page sys mode p.objSize count (some seg)
    some (result, after.getD seg)
  else none

/-- The handle, where one was opened. -/
def OpenResult.queue? : OpenResult → Option MegaqueueHandle
  | .opened queue => some queue
  | _ => none

/-- One step of an interleaving. A party that was refused may try again. -/
def sharedStep (p : SharedParams) (s : SharedQueue) : SharedMove → Option SharedQueue
  | .producer => some (sharedProducer p.objSize s.producerQueue s)
  | .store index byte =>
      match s.producer with
      | .filling headOffset =>
          if index < p.objSize then
            some { s with segment :=
              { s.segment with bytes :=
                Function.update s.segment.bytes (s.producerQueue.slotAt headOffset + index) byte } }
          else none
      | _ => none
  | .attachReader sys mode count =>
      if s.readerQueue = none then
        (attach p sys mode count s.segment).map fun (result, seg) =>
          { s with segment := seg, readerQueue := result.queue? }
      else none
  | .reader => s.readerQueue.map fun queue => sharedReader p.objSize p.lockstep queue s
  | .fetch index =>
      match s.readerQueue, s.reader with
      | some queue, .reading tailOffset =>
          if index < p.objSize then
            some { s with
              fetched := s.fetched ++
                [⟨s.advanced, index, s.segment.bytes (queue.slotAt tailOffset + index)⟩] }
          else none
      | _, _ => none
  | .attachDeleter sys mode count =>
      if p.lockstep = false ∧ s.deleterQueue = none then
        (attach p sys mode count s.segment).map fun (result, seg) =>
          { s with segment := seg, deleterQueue := result.queue? }
      else none
  | .deleter => s.deleterQueue.map fun queue => sharedDeleter queue s

/-- What the creating open leaves, for its caller to produce into. -/
def SharedQueue.created (queue : MegaqueueHandle) (seg : Segment) : SharedQueue where
  segment := seg
  producerQueue := queue
  readerQueue := none
  deleterQueue := none
  producer := .idle
  reader := .idle
  deleter := .idle
  published := []
  observed := []
  fetched := []
  advanced := 0
  deleted := 0

/-! ## Where the accesses go -/

/-- An access to the mapping of a handle. -/
structure Touch where
  queue : MegaqueueHandle
  start : ℕ
  length : ℕ
  stores : Bool

/-- The hardware has nothing against it. -/
def Touch.Inside (t : Touch) (seg : Segment) : Prop :=
  t.start + t.length ≤ t.queue.regionSize ∧ t.start + t.length ≤ seg.size ∧
    (t.stores = true → t.queue.writable = true)

/-- The field of the header that is accessed next, and whether it is stored to. -/
def ProducerPc.field : ProducerPc → ℕ × Bool
  | .idle | .nextSlotHead _ | .filling _ | .advanceHead _ => (hdrHead, false)
  | .nextSlotDelete _ _ | .advanceDelete _ _ => (hdrDelete, false)
  | .advanceStore _ _ => (hdrHead, true)

def ReaderPc.field : ReaderPc → ℕ × Bool
  | .idle | .nextSlotTail _ _ | .advanceTail _ | .advanceLoad => (hdrTail, false)
  | .nextSlotHead _ | .reading _ | .advanceHead => (hdrHead, false)
  | .advanceStore _ => (hdrTail, true)
  | .storeDelete _ => (hdrDelete, true)

def DeleterPc.field : DeleterPc → ℕ × Bool
  | .idle => (hdrTail, false)
  | .checkDelete _ | .advanceLoad => (hdrDelete, false)
  | .advanceStore _ => (hdrDelete, true)

/-- A field of the header, as an access. -/
def MegaqueueHandle.touchField (queue : MegaqueueHandle) (field : ℕ × Bool) : Touch :=
  ⟨queue, field.1, 8, field.2⟩

/-- What a move accesses through a handle. -/
def SharedQueue.touch (s : SharedQueue) : SharedMove → Option Touch
  | .producer => some (s.producerQueue.touchField s.producer.field)
  | .store index _ =>
      match s.producer with
      | .filling headOffset =>
          some ⟨s.producerQueue, s.producerQueue.slotAt headOffset + index, 1, true⟩
      | _ => none
  | .reader => s.readerQueue.map (·.touchField s.reader.field)
  | .fetch index =>
      match s.readerQueue, s.reader with
      | some queue, .reading tailOffset =>
          some ⟨queue, queue.slotAt tailOffset + index, 1, false⟩
      | _, _ => none
  | .deleter => s.deleterQueue.map (·.touchField s.deleter.field)
  | .attachReader _ _ _ | .attachDeleter _ _ _ => none

/-! ## The queue that is meant -/

/-- The queue of `megaqueueStep` in the segment. -/
def SharedQueue.view (p : SharedParams) (s : SharedQueue) : Megaqueue (List (BitVec 8)) where
  head := s.segment.load64 hdrHead
  tail := s.segment.load64 hdrTail
  delete := s.segment.load64 hdrDelete
  slots := fun offset =>
    if offset < s.producerQueue.objectCount then
      s.segment.object s.producerQueue p.objSize offset
    else []
  producer := s.producer
  reader := s.reader
  deleter := s.deleter
  published := s.published
  observed := s.observed
  advanced := s.advanced
  deleted := s.deleted

/-- What a move is there. -/
def SharedQueue.label (p : SharedParams) (s : SharedQueue) :
    SharedMove → List (MegaqueueMove (List (BitVec 8)))
  | .producer => [.producer]
  | .store index byte =>
      match s.producer with
      | .filling headOffset =>
          let bytes :=
            Function.update s.segment.bytes (s.producerQueue.slotAt headOffset + index) byte
          [.write ({ s.segment with bytes := bytes }.object s.producerQueue p.objSize headOffset)]
      | _ => []
  | .reader => [.reader]
  | .deleter => [.deleter]
  | .fetch _ | .attachReader _ _ _ | .attachDeleter _ _ _ => []

/-- A byte that was fetched is the one of the entry that was published. -/
def Fetch.Published (published : List (List (BitVec 8))) (f : Fetch) : Prop :=
  ∃ content, published[f.entry]? = some content ∧ content[f.index]? = some f.byte

/-- The slots fit, the header is that of the creating open but for the offsets, and everybody has
    the handle of the producer. -/
structure SharedQueue.Ok (p : SharedParams) (s : SharedQueue) : Prop where
  fits : SlotsFit s.producerQueue p.objSize
  handle : s.producerQueue =
    openedHandle p.page attaching p.objSize p.objCount (queueSize p.page p.objSize p.objCount)
  size : s.segment.size = queueSize p.page p.objSize p.objCount
  large : p.page.bytes ≤ s.segment.size
  objectSize : s.segment.load64 hdrObjectSize = p.objSize % 2 ^ 64
  objectCount : s.segment.load64 hdrObjectCount = p.objCount % 2 ^ 64
  readerQueue : ∀ queue ∈ s.readerQueue, queue = s.producerQueue
  deleterQueue : ∀ queue ∈ s.deleterQueue, queue = s.producerQueue ∧ p.lockstep = false
  fetched : ∀ f ∈ s.fetched, f.Published s.published

section Memory

variable {p : SharedParams} {s s' : SharedQueue} {seg : Segment} {queue : MegaqueueHandle}

/-! ## Fields and slots lie apart -/

theorem MegaqueueHandle.start_le_slotAt (queue : MegaqueueHandle) (offset : ℕ) :
    queue.writableStart ≤ queue.slotAt offset := Nat.le_add_right _ _

theorem Segment.object_store64 {field value objSize offset : ℕ}
    (h : field + 8 ≤ queue.writableStart) :
    (seg.store64 field value).object queue objSize offset = seg.object queue objSize offset := by
  have hslot := queue.start_le_slotAt offset
  apply List.map_congr_left
  intro i _
  exact Bytes.store_outside (.inr (by omega))

theorem Segment.load64_update {bytes : Bytes} {field address : ℕ} {byte : BitVec 8}
    (h : field + 8 ≤ address) :
    (Segment.mk seg.size (Function.update bytes address byte)).load64 field =
      (Segment.mk seg.size bytes).load64 field :=
  Bytes.load_congr fun i _ hi => Function.update_of_ne (by omega) _ _

/-- Nor to another slot. -/
theorem Segment.object_update {objSize offset other index : ℕ} {byte : BitVec 8}
    (hfits : SlotsFit queue objSize) (hoffset : offset < queue.objectCount)
    (hother : other < queue.objectCount) (hne : other ≠ offset) (hindex : index < objSize) :
    (Segment.mk seg.size (Function.update seg.bytes (queue.slotAt offset + index) byte)).object
      queue objSize other = seg.object queue objSize other := by
  apply List.map_congr_left
  intro i hi
  refine Function.update_of_ne (fun heq => ?_) _ _
  have hin : queue.InSlot objSize offset (queue.slotAt offset + index) := ⟨by omega, by omega⟩
  have hin' : queue.InSlot objSize other (queue.slotAt other + i) :=
    ⟨by omega, by have := List.mem_range.1 hi; omega⟩
  exact hfits.apart offset other _ hoffset hother hne.symm hin (heq ▸ hin')

theorem Segment.getElem?_object {objSize offset index : ℕ} (h : index < objSize) :
    (seg.object queue objSize offset)[index]? = some (seg.bytes (queue.slotAt offset + index)) := by
  simp [Segment.object, h]

/-! ## Attaching -/

/-- A segment that has the header of the creating open. -/
structure HeaderOf (p : SharedParams) (seg : Segment) : Prop where
  reaches : sizeofHeader ≤ seg.size
  objectSize : seg.load64 hdrObjectSize = p.objSize % 2 ^ 64
  objectCount : seg.load64 hdrObjectCount = p.objCount % 2 ^ 64

/-- Who opens the queue later gets the handle of its creator. -/
theorem openExisting_eq_handle (sys : Sys) (hheader : HeaderOf p seg)
    (h : openExisting p.page sys attaching p.objSize seg = .opened queue) :
    queue = openedHandle p.page attaching p.objSize p.objCount
      (queueSize p.page p.objSize p.objCount) := by
  have hreach := hheader.reaches
  cases hread : readHeader sys attaching seg with
  | none => simp [openExisting, hread] at h
  | some read =>
      obtain ⟨-, hbytes⟩ := Option.ite_none_right_eq_some.1 hread
      have hload : ∀ field, field + 8 ≤ sizeofHeader → read.load field 8 = seg.load64 field := by
        intro field hfield
        rw [← Option.some.inj hbytes]
        exact Bytes.load_congr fun i _ hi => if_pos (by omega)
      have hsize : queueSize p.page (p.objSize % 2 ^ 64) (p.objCount % 2 ^ 64) =
          queueSize p.page p.objSize p.objCount := by
        unfold queueSize
        rw [Nat.add_mod, ← Nat.mul_mod, ← Nat.add_mod]
      have hcount : p.objCount % 2 ^ 64 % 2 ^ 32 = p.objCount % 2 ^ 32 :=
        Nat.mod_mod_of_dvd _ (by decide)
      simp only [openExisting, hread, hload hdrObjectSize (by decide),
        hload hdrObjectCount (by decide), hheader.objectSize, hheader.objectCount, hsize] at h
      split at h
      case isFalse => simp at h
      case isTrue =>
        split at h
        case isTrue => simp at h
        case isFalse =>
          split at h
          case isTrue => simp at h
          case isFalse =>
            split at h
            case isTrue => simp at h
            case isFalse =>
              rw [← OpenResult.opened.inj h]
              simp only [openedHandle, hcount]

/-- Attaching leaves the segment as it is, and gives the handle of the creator or none. -/
theorem attach_spec {sys : Sys} {mode : OpenMode} {count : ℕ} {result : OpenResult}
    {after : Segment} (hheader : HeaderOf p seg)
    (h : attach p sys mode count seg = some (result, after)) :
    after = seg ∧ ∀ queue ∈ result.queue?, queue = openedHandle p.page attaching p.objSize
      p.objCount (queueSize p.page p.objSize p.objCount) := by
  obtain ⟨rfl, h⟩ := Option.ite_none_right_eq_some.1 h
  rw [megaqueueOpen_existing rfl] at h
  have hrefused : ∀ ret, (OpenResult.failed ret, seg) = (result, after) →
      after = seg ∧ ∀ queue ∈ result.queue?, queue = openedHandle p.page attaching p.objSize
        p.objCount (queueSize p.page p.objSize p.objCount) := by
    intro ret heq
    obtain ⟨rfl, rfl⟩ := Prod.mk.inj heq
    exact ⟨rfl, fun queue hqueue => by cases hqueue⟩
  cases hasprintf : sys.asprintf with
  | false =>
      rw [hasprintf] at h
      exact hrefused aENomem (Option.some.inj h)
  | true =>
      cases hshm : sys.shmOpen with
      | false =>
          rw [hasprintf, hshm] at h
          exact hrefused aEInval (Option.some.inj h)
      | true =>
          rw [hasprintf, hshm] at h
          -- `O_TRUNC` is not among the flags
          have hopen : (openExisting p.page sys attaching p.objSize seg, seg) = (result, after) :=
            Option.some.inj h
          obtain ⟨rfl, rfl⟩ := Prod.mk.inj hopen
          refine ⟨rfl, fun queue hqueue => openExisting_eq_handle sys hheader ?_⟩
          cases hresult : openExisting p.page sys attaching p.objSize seg with
          | opened opened =>
              rw [hresult] at hqueue
              rw [Option.some.inj hqueue]
          | failed ret => rw [hresult] at hqueue; cases hqueue
          | killed => rw [hresult] at hqueue; cases hqueue

/-! ## The simulation -/

theorem SharedQueue.Ok.header (h : s.Ok p) : HeaderOf p s.segment :=
  ⟨p.page.sizeofHeader_le.trans h.large, h.objectSize, h.objectCount⟩

theorem SharedQueue.Ok.start (h : s.Ok p) : sizeofHeader ≤ s.producerQueue.writableStart := by
  rw [h.handle]
  exact p.page.sizeofHeader_le

theorem SharedQueue.Ok.count (h : s.Ok p) :
    s.producerQueue.objectCount = p.objCount % 2 ^ 32 := by
  rw [h.handle]
  rfl

theorem SharedQueue.Ok.count_pos (h : s.Ok p) : 0 < p.objCount % 2 ^ 32 :=
  Nat.pos_of_ne_zero (h.count ▸ h.fits.count_ne_zero)

/-- An offset does not wrap before it goes round. -/
theorem SharedQueue.Ok.next_eq (h : s.Ok p) {offset : ℕ} (hlt : offset < p.objCount % 2 ^ 32) :
    s.producerQueue.next offset = (offset + 1) % (p.objCount % 2 ^ 32) := by
  have hsmall : p.objCount % 2 ^ 32 < 2 ^ 32 := Nat.mod_lt _ (by decide)
  rw [MegaqueueHandle.next, h.count, Nat.mod_eq_of_lt (show offset + 1 < 2 ^ 64 by omega)]

/-- What is stored to an offset is loaded from it. -/
theorem SharedQueue.Ok.round_lt (h : s.Ok p) (offset : ℕ) :
    offset % (p.objCount % 2 ^ 32) % 2 ^ 64 = offset % (p.objCount % 2 ^ 32) := by
  have hlt := Nat.mod_lt offset h.count_pos
  have hsmall : p.objCount % 2 ^ 32 < 2 ^ 32 := Nat.mod_lt _ (by decide)
  exact Nat.mod_eq_of_lt (by omega)

theorem SharedQueue.Ok.slots (h : s.Ok p) {offset : ℕ} (hlt : offset < p.objCount % 2 ^ 32) :
    (s.view p).slots offset = s.segment.object s.producerQueue p.objSize offset :=
  if_pos (h.count.symm ▸ hlt)

/-- A store to an offset, as the view has it. -/
theorem SharedQueue.Ok.slots_store64 (h : s.Ok p) {field value offset : ℕ}
    (hfield : field + 8 ≤ sizeofHeader) :
    (s.segment.store64 field value).object s.producerQueue p.objSize offset =
      s.segment.object s.producerQueue p.objSize offset :=
  Segment.object_store64 (hfield.trans h.start)

theorem SharedQueue.Ok.view_sharedProducer (h : s.Ok p)
    (hJ : (s.view p).Inv p.lockstep (p.objCount % 2 ^ 32)) :
    (sharedProducer p.objSize s.producerQueue s).view p =
      stepProducer (p.objCount % 2 ^ 32) (s.view p) := by
  have hp := hJ.producer
  have hlt : s.published.length % (p.objCount % 2 ^ 32) < p.objCount % 2 ^ 32 :=
    Nat.mod_lt _ h.count_pos
  change ProducerOk _ s.published.length s.deleted s.producer at hp
  cases hpc : s.producer with
  | idle => simp only [sharedProducer, stepProducer, SharedQueue.view, hpc]
  | nextSlotHead headOffset => simp only [sharedProducer, stepProducer, SharedQueue.view, hpc]
  | nextSlotDelete headOffset fullHead =>
      rw [hpc] at hp
      obtain ⟨-, rfl⟩ := hp
      simp only [sharedProducer, stepProducer, hpc, h.next_eq hlt, SharedQueue.view]
      split <;> rfl
  | filling headOffset => simp only [sharedProducer, stepProducer, SharedQueue.view, hpc]
  | advanceDelete headOffset fullHead =>
      rw [hpc] at hp
      obtain ⟨-, -, rfl⟩ := hp
      simp only [sharedProducer, stepProducer, hpc, h.next_eq hlt, SharedQueue.view]
      split <;> rfl
  | advanceHead headOffset => simp only [sharedProducer, stepProducer, SharedQueue.view, hpc]
  | advanceStore headOffset offset =>
      rw [hpc] at hp
      obtain ⟨rfl, -, rfl⟩ := hp
      have hslot := h.slots hlt
      simp only [SharedQueue.view] at hslot
      simp (disch := decide) only [sharedProducer, stepProducer, SharedQueue.view, hpc, hslot,
        Segment.load64_store64_same, Segment.load64_store64_ne, h.slots_store64, h.next_eq hlt,
        h.round_lt]

theorem SharedQueue.Ok.view_sharedReader (h : s.Ok p)
    (hJ : (s.view p).Inv p.lockstep (p.objCount % 2 ^ 32)) :
    (sharedReader p.objSize p.lockstep s.producerQueue s).view p =
      stepReader p.lockstep (p.objCount % 2 ^ 32) (s.view p) := by
  have hr := hJ.reader
  have hlt : s.advanced % (p.objCount % 2 ^ 32) < p.objCount % 2 ^ 32 :=
    Nat.mod_lt _ h.count_pos
  change ReaderOk _ s.published.length s.advanced s.reader at hr
  cases hpc : s.reader with
  | idle => simp only [sharedReader, stepReader, SharedQueue.view, hpc]
  | nextSlotHead tailOffset => simp only [sharedReader, stepReader, SharedQueue.view, hpc]
  | nextSlotTail tailOffset emptyHead =>
      simp only [sharedReader, stepReader, SharedQueue.view, hpc]
      split <;> rfl
  | reading tailOffset =>
      rw [hpc] at hr
      obtain ⟨rfl, -⟩ := hr
      have hslot := h.slots hlt
      simp only [SharedQueue.view] at hslot
      simp only [sharedReader, stepReader, SharedQueue.view, hpc, hslot]
  | advanceHead => simp only [sharedReader, stepReader, SharedQueue.view, hpc]
  | advanceTail emptyHead =>
      simp only [sharedReader, stepReader, SharedQueue.view, hpc]
      split <;> rfl
  | advanceLoad => simp only [sharedReader, stepReader, SharedQueue.view, hpc]
  | advanceStore offset =>
      rw [hpc] at hr
      obtain ⟨-, rfl⟩ := hr
      simp (disch := decide) only [sharedReader, stepReader, SharedQueue.view, hpc,
        Segment.load64_store64_same, Segment.load64_store64_ne, h.slots_store64, h.next_eq hlt,
        h.round_lt]
  | storeDelete offset =>
      rw [hpc] at hr
      obtain rfl : offset = s.advanced % (p.objCount % 2 ^ 32) := hr
      simp (disch := decide) only [sharedReader, stepReader, SharedQueue.view, hpc,
        Segment.load64_store64_same, Segment.load64_store64_ne, h.slots_store64, h.round_lt]

theorem SharedQueue.Ok.view_sharedDeleter (h : s.Ok p)
    (hJ : (s.view p).Inv p.lockstep (p.objCount % 2 ^ 32)) :
    (sharedDeleter s.producerQueue s).view p =
      stepDeleter (p.objCount % 2 ^ 32) (s.view p) := by
  have hd := hJ.deleter
  have hlt : s.deleted % (p.objCount % 2 ^ 32) < p.objCount % 2 ^ 32 :=
    Nat.mod_lt _ h.count_pos
  change DeleterOk _ s.advanced s.deleted s.deleter at hd
  cases hpc : s.deleter with
  | idle => simp only [sharedDeleter, stepDeleter, SharedQueue.view, hpc]
  | checkDelete tailOffset =>
      simp only [sharedDeleter, stepDeleter, SharedQueue.view, hpc]
      split <;> rfl
  | advanceLoad => simp only [sharedDeleter, stepDeleter, SharedQueue.view, hpc]
  | advanceStore offset =>
      rw [hpc] at hd
      obtain ⟨-, rfl⟩ := hd
      simp (disch := decide) only [sharedDeleter, stepDeleter, SharedQueue.view, hpc,
        Segment.load64_store64_same, Segment.load64_store64_ne, h.slots_store64, h.next_eq hlt,
        h.round_lt]

theorem SharedQueue.Ok.view_store (h : s.Ok p) {headOffset index : ℕ} (byte : BitVec 8)
    (hlt : headOffset < p.objCount % 2 ^ 32) (hindex : index < p.objSize) :
    let seg := Segment.mk s.segment.size
      (Function.update s.segment.bytes (s.producerQueue.slotAt headOffset + index) byte)
    SharedQueue.view p { s with segment := seg } = { s.view p with
      slots := Function.update (s.view p).slots headOffset
        (seg.object s.producerQueue p.objSize headOffset) } := by
  intro seg
  have hload : ∀ field, field + 8 ≤ sizeofHeader → seg.load64 field = s.segment.load64 field :=
    fun field hfield => Segment.load64_update
      ((hfield.trans h.start).trans ((s.producerQueue.start_le_slotAt _).trans (Nat.le_add_right _ _)))
  have hslots : (SharedQueue.view p { s with segment := seg }).slots =
      Function.update (s.view p).slots headOffset
        (seg.object s.producerQueue p.objSize headOffset) := by
    funext offset
    rw [← h.count] at hlt
    by_cases hsame : offset = headOffset
    · subst hsame
      rw [Function.update_self]
      exact if_pos hlt
    · rw [Function.update_of_ne hsame]
      simp only [SharedQueue.view]
      split
      · next hother => exact Segment.object_update h.fits hlt hother hsame hindex
      · rfl
  simp only [SharedQueue.view] at hslots ⊢
  simp only [hslots, hload hdrHead (by decide), hload hdrTail (by decide),
    hload hdrDelete (by decide)]

/-! ## What every move preserves -/

theorem Fetch.Published.mono {published published' : List (List (BitVec 8))} {f : Fetch}
    (h : f.Published published) (hle : published <+: published') : f.Published published' := by
  obtain ⟨content, hentry, hbyte⟩ := h
  obtain ⟨later, rfl⟩ := hle
  have hlt := (List.getElem?_eq_some_iff.1 hentry).1
  exact ⟨content, (List.getElem?_append_left hlt).trans hentry, hbyte⟩

/-- A move of somebody who is there: of the segment at most offsets and slots change. -/
structure SharedQueue.Moved (s s' : SharedQueue) : Prop where
  producerQueue : s'.producerQueue = s.producerQueue
  readerQueue : s'.readerQueue = s.readerQueue
  deleterQueue : s'.deleterQueue = s.deleterQueue
  size : s'.segment.size = s.segment.size
  objectSize : s'.segment.load64 hdrObjectSize = s.segment.load64 hdrObjectSize
  objectCount : s'.segment.load64 hdrObjectCount = s.segment.load64 hdrObjectCount
  published : s.published <+: s'.published
  fetched : s'.fetched = s.fetched

theorem SharedQueue.Moved.ok (hm : s.Moved s') (h : s.Ok p) : s'.Ok p where
  fits := hm.producerQueue ▸ h.fits
  handle := hm.producerQueue ▸ h.handle
  size := hm.size ▸ h.size
  large := hm.size ▸ h.large
  objectSize := hm.objectSize.trans h.objectSize
  objectCount := hm.objectCount.trans h.objectCount
  readerQueue := by
    rw [hm.readerQueue, hm.producerQueue]
    exact h.readerQueue
  deleterQueue := by
    rw [hm.deleterQueue, hm.producerQueue]
    exact h.deleterQueue
  fetched := by
    rw [hm.fetched]
    exact fun f hf => (h.fetched f hf).mono hm.published

theorem SharedQueue.moved_sharedProducer (objSize : ℕ) (queue : MegaqueueHandle)
    (s : SharedQueue) : s.Moved (sharedProducer objSize queue s) := by
  unfold sharedProducer
  split
  case h_7 =>
    exact ⟨rfl, rfl, rfl, rfl, Segment.load64_store64_ne (by decide),
      Segment.load64_store64_ne (by decide), List.prefix_append _ _, rfl⟩
  all_goals (try split) <;>
    exact ⟨rfl, rfl, rfl, rfl, rfl, rfl, List.prefix_rfl, rfl⟩

theorem SharedQueue.moved_sharedReader (objSize : ℕ) (lockstep : Bool) (queue : MegaqueueHandle)
    (s : SharedQueue) : s.Moved (sharedReader objSize lockstep queue s) := by
  unfold sharedReader
  split
  case h_8 | h_9 =>
    exact ⟨rfl, rfl, rfl, rfl, Segment.load64_store64_ne (by decide),
      Segment.load64_store64_ne (by decide), List.prefix_rfl, rfl⟩
  all_goals (try split) <;>
    exact ⟨rfl, rfl, rfl, rfl, rfl, rfl, List.prefix_rfl, rfl⟩

theorem SharedQueue.moved_sharedDeleter (queue : MegaqueueHandle) (s : SharedQueue) :
    s.Moved (sharedDeleter queue s) := by
  unfold sharedDeleter
  split
  case h_4 =>
    exact ⟨rfl, rfl, rfl, rfl, Segment.load64_store64_ne (by decide),
      Segment.load64_store64_ne (by decide), List.prefix_rfl, rfl⟩
  all_goals (try split) <;>
    exact ⟨rfl, rfl, rfl, rfl, rfl, rfl, List.prefix_rfl, rfl⟩

theorem SharedQueue.moved_store {address : ℕ} {byte : BitVec 8} (h : sizeofHeader ≤ address) :
    s.Moved { s with segment := ⟨s.segment.size, Function.update s.segment.bytes address byte⟩ } := by
  have hload : ∀ field, field + 8 ≤ sizeofHeader →
      (Segment.mk s.segment.size (Function.update s.segment.bytes address byte)).load64 field =
        s.segment.load64 field :=
    fun field hfield => Segment.load64_update (hfield.trans h)
  exact ⟨rfl, rfl, rfl, rfl, hload hdrObjectSize (by decide), hload hdrObjectCount (by decide),
    List.prefix_rfl, rfl⟩

/-- A byte of the entry at `tail` that is fetched while it is read is as it was published. -/
theorem SharedQueue.Ok.published_fetch (h : s.Ok p)
    (hJ : (s.view p).Inv p.lockstep (p.objCount % 2 ^ 32)) {tailOffset index : ℕ}
    (hpc : s.reader = .reading tailOffset) (hindex : index < p.objSize) :
    Fetch.Published s.published
      ⟨s.advanced, index, s.segment.bytes (s.producerQueue.slotAt tailOffset + index)⟩ := by
  have hr := hJ.reader
  change ReaderOk _ s.published.length s.advanced s.reader at hr
  rw [hpc] at hr
  obtain ⟨rfl, hlt⟩ := hr
  have hentry := hJ.intact s.advanced hJ.deleted_le hlt
  rw [h.slots (Nat.mod_lt _ h.count_pos)] at hentry
  exact ⟨_, hentry, Segment.getElem?_object hindex⟩

theorem megaqueueStep_write {β : Type*} {l : Bool} {n headOffset : ℕ} {q : Megaqueue β}
    (hpc : q.producer = .filling headOffset) (content : β) :
    megaqueueStep l n q (.write content) =
      some { q with slots := Function.update q.slots headOffset content } := by
  simp only [megaqueueStep, hpc]

/-- One step of an interleaving in the segment is one of `megaqueueStep`, or none. -/
theorem SharedQueue.Ok.step (h : s.Ok p) (hJ : (s.view p).Inv p.lockstep (p.objCount % 2 ^ 32))
    {move : SharedMove} (hstep : sharedStep p s move = some s') :
    s'.Ok p ∧ exec (megaqueueStep p.lockstep (p.objCount % 2 ^ 32)) (s.view p) (s.label p move) =
      some (s'.view p) := by
  cases move with
  | producer =>
      obtain rfl := Option.some.inj hstep
      refine ⟨(SharedQueue.moved_sharedProducer _ _ _).ok h, ?_⟩
      rw [h.view_sharedProducer hJ]
      rfl
  | store index byte =>
      simp only [sharedStep] at hstep
      split at hstep
      · next headOffset hpc =>
        obtain ⟨hindex, hs'⟩ := Option.ite_none_right_eq_some.1 hstep
        obtain rfl := Option.some.inj hs'
        have hp := hJ.producer
        change ProducerOk _ s.published.length s.deleted s.producer at hp
        rw [hpc] at hp
        have hlt : headOffset < p.objCount % 2 ^ 32 := hp.1 ▸ Nat.mod_lt _ h.count_pos
        have haddress : sizeofHeader ≤ s.producerQueue.slotAt headOffset + index :=
          h.start.trans ((s.producerQueue.start_le_slotAt _).trans (Nat.le_add_right _ _))
        refine ⟨(SharedQueue.moved_store haddress).ok h, ?_⟩
        have hview : (s.view p).producer = .filling headOffset := hpc
        have hwrite := h.view_store byte hlt hindex
        have hlabel : s.label p (.store index byte) = [.write ((Segment.mk s.segment.size
            (Function.update s.segment.bytes (s.producerQueue.slotAt headOffset + index)
              byte)).object s.producerQueue p.objSize headOffset)] := by
          simp only [SharedQueue.label, hpc]
        rw [hlabel, exec, megaqueueStep_write hview, Option.bind_some]
        exact congrArg some hwrite.symm
      · cases hstep
  | attachReader sys mode count =>
      simp only [sharedStep, Option.ite_none_right_eq_some, Option.map_eq_some_iff,
        Prod.exists] at hstep
      obtain ⟨-, result, after, hattach, rfl⟩ := hstep
      obtain ⟨rfl, hqueue⟩ := attach_spec h.header hattach
      exact ⟨{ h with readerQueue := fun queue hmem => (hqueue queue hmem).trans h.handle.symm }, rfl⟩
  | reader =>
      simp only [sharedStep, Option.map_eq_some_iff] at hstep
      obtain ⟨queue, hqueue, rfl⟩ := hstep
      obtain rfl := h.readerQueue queue hqueue
      refine ⟨(SharedQueue.moved_sharedReader _ _ _ _).ok h, ?_⟩
      rw [h.view_sharedReader hJ]
      rfl
  | fetch index =>
      simp only [sharedStep] at hstep
      split at hstep
      · next queue tailOffset hqueue hpc =>
        obtain ⟨hindex, hs'⟩ := Option.ite_none_right_eq_some.1 hstep
        obtain rfl := Option.some.inj hs'
        obtain rfl := h.readerQueue queue hqueue
        refine ⟨{ h with fetched := ?_ }, rfl⟩
        intro f hf
        rcases List.mem_append.1 hf with hold | hnew
        · exact h.fetched f hold
        · rw [List.mem_singleton.1 hnew]
          exact h.published_fetch hJ hpc hindex
      · cases hstep
  | attachDeleter sys mode count =>
      simp only [sharedStep, Option.ite_none_right_eq_some, Option.map_eq_some_iff,
        Prod.exists] at hstep
      obtain ⟨⟨hlock, -⟩, result, after, hattach, rfl⟩ := hstep
      obtain ⟨rfl, hqueue⟩ := attach_spec h.header hattach
      exact ⟨{ h with
        deleterQueue := fun queue hmem => ⟨(hqueue queue hmem).trans h.handle.symm, hlock⟩ }, rfl⟩
  | deleter =>
      simp only [sharedStep, Option.map_eq_some_iff] at hstep
      obtain ⟨queue, hqueue, rfl⟩ := hstep
      obtain ⟨rfl, hlock⟩ := h.deleterQueue queue hqueue
      refine ⟨(SharedQueue.moved_sharedDeleter _ _).ok h, ?_⟩
      rw [h.view_sharedDeleter hJ, SharedQueue.label, exec, megaqueueStep, hlock]
      rfl

variable (p) in
theorem simulates_megaqueueStep :
    Simulates (sharedStep p) (megaqueueStep p.lockstep (p.objCount % 2 ^ 32))
      (fun s => s.Ok p ∧ (s.view p).Inv p.lockstep (p.objCount % 2 ^ 32))
      (SharedQueue.view p) (SharedQueue.label p) :=
  .of_view inv_megaqueueStep (fun _ _ _ h hJ hstep => (h.step hJ hstep).1)
    fun _ _ _ h hJ hstep => (h.step hJ hstep).2

/-! ## Nobody leaves the region -/

theorem SharedQueue.Ok.inside_field (h : s.Ok p) {field : ℕ × Bool}
    (hfield : field.1 + 8 ≤ sizeofHeader) :
    (s.producerQueue.touchField field).Inside s.segment := by
  have hlarge := h.large
  have hsize := h.size
  have hpage := p.page.sizeofHeader_le
  have hregion : s.producerQueue.regionSize = queueSize p.page p.objSize p.objCount := by
    rw [h.handle]
    rfl
  have hwritable : s.producerQueue.writable = true := by
    rw [h.handle]
    rfl
  simp only [Touch.Inside, MegaqueueHandle.touchField]
  exact ⟨by omega, by omega, fun _ => hwritable⟩

/-- So is a byte of a slot. -/
theorem SharedQueue.Ok.inside_slot (h : s.Ok p) {offset index : ℕ} (stores : Bool)
    (hlt : offset < p.objCount % 2 ^ 32) (hindex : index < p.objSize) :
    (Touch.mk s.producerQueue (s.producerQueue.slotAt offset + index) 1 stores).Inside s.segment := by
  have hin : s.producerQueue.slotAt offset + index < s.producerQueue.regionSize :=
    h.fits.inside offset _ (h.count.symm ▸ hlt) ⟨by omega, by omega⟩
  have hregion : s.producerQueue.regionSize = s.segment.size := by
    rw [h.size, h.handle]
    rfl
  have hwritable : s.producerQueue.writable = true := by
    rw [h.handle]
    rfl
  simp only [Touch.Inside]
  exact ⟨by omega, by omega, fun _ => hwritable⟩

theorem ProducerPc.field_le (pc : ProducerPc) : pc.field.1 + 8 ≤ sizeofHeader := by
  cases pc <;> simp [field, hdrHead, hdrDelete, sizeofHeader]

theorem ReaderPc.field_le (pc : ReaderPc) : pc.field.1 + 8 ≤ sizeofHeader := by
  cases pc <;> simp [field, hdrHead, hdrTail, hdrDelete, sizeofHeader]

theorem DeleterPc.field_le (pc : DeleterPc) : pc.field.1 + 8 ≤ sizeofHeader := by
  cases pc <;> simp [field, hdrTail, hdrDelete, sizeofHeader]

/-- What a move that may be taken accesses is in the region, and nothing is stored through a handle
    that may not. -/
theorem SharedQueue.Ok.inside (h : s.Ok p)
    (hJ : (s.view p).Inv p.lockstep (p.objCount % 2 ^ 32)) {move : SharedMove}
    (hstep : sharedStep p s move = some s') {t : Touch} (ht : s.touch move = some t) :
    t.Inside s.segment := by
  cases move with
  | producer =>
      obtain rfl := Option.some.inj ht
      exact h.inside_field s.producer.field_le
  | store index byte =>
      simp only [sharedStep] at hstep
      split at hstep
      · next headOffset hpc =>
        obtain ⟨hindex, -⟩ := Option.ite_none_right_eq_some.1 hstep
        simp only [SharedQueue.touch, hpc, Option.some.injEq] at ht
        have hp := hJ.producer
        change ProducerOk _ s.published.length s.deleted s.producer at hp
        rw [hpc] at hp
        rw [← ht]
        exact h.inside_slot true (hp.1 ▸ Nat.mod_lt _ h.count_pos) hindex
      · cases hstep
  | reader =>
      simp only [SharedQueue.touch, Option.map_eq_some_iff] at ht
      obtain ⟨queue, hqueue, rfl⟩ := ht
      obtain rfl := h.readerQueue queue hqueue
      exact h.inside_field s.reader.field_le
  | fetch index =>
      simp only [sharedStep] at hstep
      split at hstep
      · next queue tailOffset hqueue hpc =>
        obtain ⟨hindex, -⟩ := Option.ite_none_right_eq_some.1 hstep
        obtain rfl := h.readerQueue queue hqueue
        simp only [SharedQueue.touch, hqueue, hpc, Option.some.injEq] at ht
        have hr := hJ.reader
        change ReaderOk _ s.published.length s.advanced s.reader at hr
        rw [hpc] at hr
        rw [← ht]
        exact h.inside_slot false (hr.1 ▸ Nat.mod_lt _ h.count_pos) hindex
      · cases hstep
  | deleter =>
      simp only [SharedQueue.touch, Option.map_eq_some_iff] at ht
      obtain ⟨queue, hqueue, rfl⟩ := ht
      obtain ⟨rfl, -⟩ := h.deleterQueue queue hqueue
      exact h.inside_field s.deleter.field_le
  | attachReader sys mode count => cases ht
  | attachDeleter sys mode count => cases ht

/-! ## From the creating open on -/

theorem SharedQueue.ok_created {sys : Sys} {mode : OpenMode} {prior : Option Segment}
    (hcreat : mode.creat = true)
    (hopen : megaqueueOpen p.page sys mode p.objSize p.objCount prior = (.opened queue, some seg))
    (hclear : OffsetsClear mode (queueSize p.page p.objSize p.objCount) prior)
    (hfits : SlotsFit queue p.objSize) :
    (SharedQueue.created queue seg).Ok p ∧
      ((SharedQueue.created queue seg).view p).Inv p.lockstep (p.objCount % 2 ^ 32) := by
  obtain ⟨carried, hshm, hcreated⟩ := created_of_opened hcreat hopen
  obtain ⟨htail, hdelete⟩ := (offsetsClear_iff hshm).1 hclear
  have hempty : p.objSize = 0 → p.page.bytes ≤ queueSize p.page p.objSize p.objCount := fun hzero =>
    Nat.le_of_eq (queueSize_of_zero (by rw [hzero, Nat.zero_mul]) (queueSize_pos hcreat hopen)).symm
  obtain ⟨hne, -, hroom⟩ := (slotsFit_openedHandle_iff hempty).1 (hcreated.handle ▸ hfits)
  have hhandle : queue = openedHandle p.page attaching p.objSize p.objCount
      (queueSize p.page p.objSize p.objCount) := by
    rw [hcreated.handle]
    simp only [openedHandle, hcreated.access, attaching]
  have hlarge : p.page.bytes ≤ seg.size := by
    rw [hcreated.size]
    omega
  refine ⟨⟨hfits, hhandle, hcreated.size, hlarge, hcreated.objectSize, hcreated.objectCount,
    (fun _ h => by cases h), (fun _ h => by cases h), (fun _ h => by cases h)⟩, ?_⟩
  have hview : (SharedQueue.created queue seg).view p =
      Megaqueue.initial ((SharedQueue.created queue seg).view p).slots := by
    simp only [SharedQueue.view, SharedQueue.created, Megaqueue.initial, hcreated.head,
      hcreated.tail, hcreated.delete, htail, hdelete]
  rw [hview]
  exact inv_initial (Nat.pos_of_ne_zero hne) _

/-- What a queue in shared memory is for. -/
structure Delivers (p : SharedParams) (s : SharedQueue) : Prop where
  /-- A byte the reader loaded of its `n`-th entry is that byte of the `n`-th one published. -/
  fetched : ∀ f ∈ s.fetched, f.Published s.published
  /-- The bytes of the slots and offsets are those of a FIFO. -/
  isFifo : IsFifo (p.objCount % 2 ^ 32) (s.view p)
  /-- No party is about to leave the region, or to store to a mapping it may only read. -/
  inside : ∀ move s', sharedStep p s move = some s' →
    ∀ t, s.touch move = some t → t.Inside s.segment

/-- **What is published arrives, byte for byte.** A queue was created, its slots fit and nothing of
    an earlier one survived in its offsets. Then in every interleaving of the 64-bit loads and stores
    of its producer, reader and deleter with the stores and loads of single bytes of the slots, and
    with the opens by which reader and deleter attach, the reader loads of each entry what was
    published there, the queue is a FIFO, and all accesses are in the region. -/
theorem delivers_of_run {sys : Sys} {mode : OpenMode} {prior : Option Segment}
    (hcreat : mode.creat = true)
    (hopen : megaqueueOpen p.page sys mode p.objSize p.objCount prior = (.opened queue, some seg))
    (hclear : OffsetsClear mode (queueSize p.page p.objSize p.objCount) prior)
    (hfits : SlotsFit queue p.objSize) (moves : List SharedMove)
    (hrun : exec (sharedStep p) (.created queue seg) moves = some s) : Delivers p s := by
  obtain ⟨hok, hview⟩ := ((simulates_megaqueueStep p).exec
    (SharedQueue.ok_created hcreat hopen hclear hfits) hrun).1
  exact ⟨hok.fetched, hview.isFifo, fun move s' hstep t ht => hok.inside hview hstep ht⟩

end Memory

/-- Four objects of eight bytes, a reader in lockstep. -/
def fourShared : SharedParams := ⟨page4k, 8, 4, true⟩

/-- The producer stores to a byte of the first slot; the reader attaches meanwhile, and loads it once
    the entry is published. -/
def oneMessage : List SharedMove :=
  [.producer, .producer, .producer, .store 3 0x2a, .attachReader willing attaching 0, .reader,
    .producer, .producer, .producer, .producer, .reader, .reader, .fetch 3, .reader, .reader, .reader,
    .reader, .reader, .reader]

theorem delivers_of_run_one : ∃ seg s,
    megaqueueOpen page4k willing creating 8 4 none = (.opened fourObjects, some seg) ∧
      exec (sharedStep fourShared) (.created fourObjects seg) oneMessage = some s ∧
      s.fetched = [⟨0, 3, 0x2a⟩] ∧ s.deleted = 1 ∧ Delivers fourShared s := by
  have hopen : (megaqueueOpen page4k willing creating 8 4 none).1 = .opened fourObjects := by
    decide +kernel
  have hrun : ((megaqueueOpen page4k willing creating 8 4 none).2.bind fun seg =>
      (exec (sharedStep fourShared) (.created fourObjects seg) oneMessage).map fun s =>
        (s.fetched, s.deleted)) = some ([⟨0, 3, 0x2a⟩], 1) := by
    decide +kernel
  obtain ⟨seg, hseg, hrun⟩ := Option.bind_eq_some_iff.1 hrun
  obtain ⟨s, hrun, hout⟩ := Option.map_eq_some_iff.1 hrun
  obtain ⟨hfetched, hdeleted⟩ := Prod.mk.inj hout
  have hopened : megaqueueOpen page4k willing creating 8 4 none = (.opened fourObjects, some seg) :=
    Prod.ext hopen hseg
  have hfits : SlotsFit (openedHandle page4k creating 8 4 (queueSize page4k 8 4)) 8 :=
    (slotsFit_openedHandle_iff (by decide)).2 (by decide +kernel)
  exact ⟨seg, s, hopened, hrun, hfetched, hdeleted,
    delivers_of_run (p := fourShared) rfl hopened (.inr nofun) hfits oneMessage hrun⟩

end Tsl
