import Tsl.Megaqueue.Segment

set_option autoImplicit false

/-! # A megaqueue that was just created

`megaqueue_prepare_superblock` resets `head`, but neither `tail` nor `_delete`: an open with
`O_CREAT` of a segment that is there takes both over from the earlier run. What it gives is an empty
queue exactly when they were zero, or did not survive (`emptyQueue_created_iff`). -/

namespace Tsl

open Lib

/-- One entry is published: the slot is handed out, its user fills it, the offset is advanced.
    `none` when a call does not answer `A_OK`. -/
def publish (queue : MegaqueueHandle) (seg : Segment) (data : Bytes) : Option Segment :=
  match megaqueueNextSlot queue seg with
  | some (ret, some _) =>
      if ret = aOk then
        match megaqueueAdvance queue (seg.fillSlots queue data) with
        | some (ret, seg) => if ret = aOk then some seg else none
        | none => none
      else none
  | _ => none

/-- An entry for each element of `data` is published. -/
def publishAll (queue : MegaqueueHandle) (seg : Segment) (data : List Bytes) : Option Segment :=
  data.foldlM (publish queue) seg

/-- The queue is empty, and there is room for `object_count - 1` entries and no more. -/
structure EmptyQueue (queue : MegaqueueHandle) (seg : Segment) : Prop where
  empty : megaqueueReadNextSlot queue seg = (aEEmpty, none)
  offsets : seg.load64 hdrHead = seg.load64 hdrTail ∧ seg.load64 hdrTail = seg.load64 hdrDelete
  room : ∀ data : List Bytes, data.length = queue.objectCount - 1 →
    ∃ seg', publishAll queue seg data = some seg' ∧
      megaqueueNextSlot queue seg' = some (aENospc, none)

/-- Nothing of an earlier `tail` or `_delete` survives the open: the segment is new or emptied by
    `O_TRUNC`, or the bytes of the two that it has, and that are kept, are zero. -/
def OffsetsClear (mode : OpenMode) (size : ℕ) (prior : Option Segment) : Prop :=
  mode.trunc = true ∨ ∀ seg, prior = some seg → ∀ i, i < seg.size → i < size →
    hdrTail ≤ i ∧ i < hdrTail + 8 ∨ hdrDelete ≤ i ∧ i < hdrDelete + 8 → seg.bytes i = 0

/-! ## What is carried over -/

variable {page : PageSize} {sys : Sys} {mode : OpenMode} {objSize objCount size : ℕ}
  {prior : Option Segment} {carried : Segment} {queue : MegaqueueHandle} {seg : Segment}

theorem load64_truncate_eq_zero_iff {field : ℕ} :
    (carried.truncate size).load64 field = 0 ↔
      ∀ i, i < carried.size → i < size → field ≤ i ∧ i < field + 8 → carried.bytes i = 0 := by
  rw [Segment.load64, Bytes.load_eq_zero_iff]
  constructor
  · intro h i hseg hsize hfield
    have hi := h i hfield.1 hfield.2
    simpa only [Segment.truncate, if_pos (show i < min carried.size size by omega)] using hi
  · intro h i hlo hhi
    simp only [Segment.truncate]
    split
    · exact h i (by omega) (by omega) ⟨hlo, hhi⟩
    · rfl

/-- The words carried over are zero exactly when nothing of them survives. -/
theorem offsetsClear_iff (hshm : shmOpen sys mode prior = some carried) :
    OffsetsClear mode size prior ↔
      (carried.truncate size).load64 hdrTail = 0 ∧ (carried.truncate size).load64 hdrDelete = 0 := by
  have hsplit : ((carried.truncate size).load64 hdrTail = 0 ∧
      (carried.truncate size).load64 hdrDelete = 0) ↔
      ∀ i, i < carried.size → i < size →
        hdrTail ≤ i ∧ i < hdrTail + 8 ∨ hdrDelete ≤ i ∧ i < hdrDelete + 8 → carried.bytes i = 0 := by
    rw [load64_truncate_eq_zero_iff, load64_truncate_eq_zero_iff]
    constructor
    · rintro ⟨htail, hdelete⟩ i hseg hsize (h | h)
      · exact htail i hseg hsize h
      · exact hdelete i hseg hsize h
    · exact fun h => ⟨fun i hseg hsize hi => h i hseg hsize (.inl hi),
        fun i hseg hsize hi => h i hseg hsize (.inr hi)⟩
  rw [hsplit, OffsetsClear]
  rcases shmOpen_cases hshm with ⟨rfl, rfl⟩ | ⟨seg, rfl, rfl⟩
  · simp
  · cases htrunc : mode.trunc with
    | true => simp [Segment.truncate]
    | false => simp

/-! ## Publishing -/

/-- A queue with `head` at `n` and the other offsets at zero. -/
structure PublishedUpTo (queue : MegaqueueHandle) (n : ℕ) (seg : Segment) : Prop where
  head : seg.load64 hdrHead = n
  tail : seg.load64 hdrTail = 0
  delete : seg.load64 hdrDelete = 0

theorem PublishedUpTo.fillSlots {n : ℕ} (hstart : sizeofHeader ≤ queue.writableStart)
    (h : PublishedUpTo queue n seg) (data : Bytes) :
    PublishedUpTo queue n (seg.fillSlots queue data) := by
  have hload : ∀ field, field + 8 ≤ sizeofHeader →
      (seg.fillSlots queue data).load64 field = seg.load64 field :=
    fun field hfield => Segment.load64_fillSlots (by omega)
  exact ⟨(hload hdrHead (by decide)).trans h.head, (hload hdrTail (by decide)).trans h.tail,
    (hload hdrDelete (by decide)).trans h.delete⟩

/-- The offset after `n`, which is the last of a full queue once it is back at zero. -/
theorem next_offset (hcount : queue.objectCount < 2 ^ 32) {n : ℕ} (hn : n + 1 < queue.objectCount) :
    (n + 1) % 2 ^ 64 % queue.objectCount = n + 1 := by
  rw [Nat.mod_eq_of_lt (by omega : n + 1 < 2 ^ 64), Nat.mod_eq_of_lt hn]

theorem PublishedUpTo.isFull (hcount : queue.objectCount < 2 ^ 32) {n : ℕ}
    (hn : n + 1 < queue.objectCount) (h : PublishedUpTo queue n seg) :
    megaqueueIsFull queue seg = some false := by
  have hpos : queue.objectCount ≠ 0 := by omega
  rw [megaqueueIsFull, if_neg hpos, h.head, h.delete, next_offset hcount hn]
  simp

/-- As long as the next offset is not back at zero the queue takes an entry. -/
theorem publish_spec (hstart : sizeofHeader ≤ queue.writableStart) (hwritable : queue.writable = true)
    (hcount : queue.objectCount < 2 ^ 32) {n : ℕ} (hn : n + 1 < queue.objectCount)
    (h : PublishedUpTo queue n seg) (data : Bytes) :
    ∃ seg', publish queue seg data = some seg' ∧ PublishedUpTo queue (n + 1) seg' := by
  have hfilled := h.fillSlots hstart data
  have hpos : queue.objectCount ≠ 0 := by omega
  have hslot : megaqueueNextSlot queue seg = some (aOk, some (queue.slotAt n)) := by
    rw [megaqueueNextSlot, h.isFull hcount hn, h.head]
    rfl
  have hadvance : megaqueueAdvance queue (seg.fillSlots queue data) =
      some (aOk, (seg.fillSlots queue data).store64 hdrHead (n + 1)) := by
    rw [megaqueueAdvance, hfilled.isFull hcount hn, hfilled.head, Option.bind_some,
      if_neg Bool.false_ne_true, advanceFields, if_neg (by simp [hpos, hwritable]),
      next_offset hcount hn]
    rfl
  refine ⟨(seg.fillSlots queue data).store64 hdrHead (n + 1), ?_, ?_, ?_, ?_⟩
  · simp only [publish, hslot, hadvance, if_true]
  · rw [Segment.load64_store64_same, Nat.mod_eq_of_lt (by omega)]
  · rw [Segment.load64_store64_ne (by decide), hfilled.tail]
  · rw [Segment.load64_store64_ne (by decide), hfilled.delete]

theorem publishAll_spec (hstart : sizeofHeader ≤ queue.writableStart)
    (hwritable : queue.writable = true) (hcount : queue.objectCount < 2 ^ 32) (data : List Bytes) :
    ∀ {n : ℕ} {seg : Segment}, n + data.length < queue.objectCount → PublishedUpTo queue n seg →
      ∃ seg', publishAll queue seg data = some seg' ∧
        PublishedUpTo queue (n + data.length) seg' := by
  induction data with
  | nil => exact fun {_ seg} _ h => ⟨seg, rfl, h⟩
  | cons d data ih =>
      intro n seg hn h
      rw [List.length_cons] at hn
      obtain ⟨mid, hpublish, hmid⟩ :=
        publish_spec hstart hwritable hcount (by omega) h d
      obtain ⟨seg', hrest, hlast⟩ := ih (n := n + 1) (by omega) hmid
      refine ⟨seg', ?_, ?_⟩
      · simp only [publishAll, List.foldlM_cons, hpublish] at hrest ⊢
        exact hrest
      · rwa [List.length_cons, Nat.add_comm data.length, ← Nat.add_assoc]

theorem emptyQueue_of_zero (hstart : sizeofHeader ≤ queue.writableStart)
    (hwritable : queue.writable = true) (hcount : queue.objectCount < 2 ^ 32)
    (hpos : queue.objectCount ≠ 0) (h : PublishedUpTo queue 0 seg) : EmptyQueue queue seg where
  empty := by simp [megaqueueReadNextSlot, megaqueueIsEmpty, h.head, h.tail]
  offsets := ⟨h.head.trans h.tail.symm, h.tail.trans h.delete.symm⟩
  room := by
    intro data hdata
    obtain ⟨seg', hall, hlast⟩ :=
      publishAll_spec hstart hwritable hcount data (n := 0) (by omega) h
    refine ⟨seg', hall, ?_⟩
    rw [hdata, Nat.zero_add] at hlast
    have hround : (queue.objectCount - 1 + 1) % 2 ^ 64 % queue.objectCount = 0 := by
      have hfits : queue.objectCount < 2 ^ 64 := by omega
      rw [Nat.sub_add_cancel (by omega), Nat.mod_eq_of_lt hfits, Nat.mod_self]
    simp only [megaqueueNextSlot, megaqueueIsFull, if_neg hpos, hlast.head, hlast.delete, hround]
    rfl

theorem not_emptyQueue_of_count_zero (hzero : queue.objectCount = 0) : ¬ EmptyQueue queue seg := by
  intro h
  obtain ⟨seg', -, hfull⟩ := h.room [] (by simp [hzero])
  simp [megaqueueNextSlot, megaqueueIsFull, hzero] at hfull

/-- **What an open with `O_CREAT` gives.** Whatever the segment held before: when the open
    succeeds, the queue is empty, its offsets are equal and it takes `object_count - 1` entries,
    exactly if nothing but zeros is carried over to `tail` and `_delete`, and the count does not
    become zero as a `uint32_t`. -/
theorem emptyQueue_created_iff (hcreat : mode.creat = true)
    (hopen : megaqueueOpen page sys mode objSize objCount prior = (.opened queue, some seg)) :
    EmptyQueue queue seg ↔
      OffsetsClear mode (queueSize page objSize objCount) prior ∧ objCount % 2 ^ 32 ≠ 0 := by
  obtain ⟨carried, hshm, hcreated⟩ := created_of_opened hcreat hopen
  have hcount : queue.objectCount = objCount % 2 ^ 32 := by rw [hcreated.handle]; rfl
  rw [offsetsClear_iff hshm, ← hcreated.tail, ← hcreated.delete, ← hcount]
  constructor
  · intro h
    have htail : seg.load64 hdrTail = 0 := h.offsets.1.symm.trans hcreated.head
    exact ⟨⟨htail, h.offsets.2.symm.trans htail⟩,
      fun hzero => not_emptyQueue_of_count_zero hzero h⟩
  · rintro ⟨⟨htail, hdelete⟩, hpos⟩
    have hstart : sizeofHeader ≤ queue.writableStart := by
      rw [hcreated.handle]
      exact page.sizeofHeader_le
    have hwritable : queue.writable = true := by
      rw [hcreated.handle]
      simp [openedHandle, hcreated.access]
    have hlt : queue.objectCount < 2 ^ 32 := by
      rw [hcount]
      exact Nat.mod_lt _ (by decide)
    exact emptyQueue_of_zero hstart hwritable hlt hpos ⟨hcreated.head, htail, hdelete⟩

/-! ## A queue that is created again -/

/-- The segment of a queue of four objects, after one was published and read. -/
def leftover : Option Segment := do
  let (result, seg) := megaqueueOpen page4k willing creating 8 4 none
  match result with
  | .opened queue =>
      let seg ← publish queue (← seg) fun _ => 7
      let (_, seg) ← megaqueueReadAdvance queue seg
      some seg
  | _ => none

theorem emptyQueue_created_iff_absent : ∃ seg,
    megaqueueOpen page4k willing creating 8 4 none = (.opened fourObjects, some seg) ∧
      (EmptyQueue fourObjects seg ↔
        OffsetsClear creating (queueSize page4k 8 4) none ∧ 4 % 2 ^ 32 ≠ 0) := by
  have hopen : (megaqueueOpen page4k willing creating 8 4 none).1 = .opened fourObjects := by
    decide +kernel
  have hseg : (megaqueueOpen page4k willing creating 8 4 none).2.isSome := by decide +kernel
  obtain ⟨seg, hseg⟩ := Option.isSome_iff_exists.1 hseg
  exact ⟨seg, Prod.ext hopen hseg, emptyQueue_created_iff rfl (Prod.ext hopen hseg)⟩

/-- Created once more, the queue is not empty: the reader is offered the slot after the one it
    read before. -/
theorem recreated_not_empty : ∃ seg,
    megaqueueOpen page4k willing creating 8 4 leftover = (.opened fourObjects, some seg) ∧
      seg.load64 hdrHead = 0 ∧ seg.load64 hdrTail = 1 ∧ seg.load64 hdrDelete = 1 ∧
      megaqueueReadNextSlot fourObjects seg = (aOk, some 4104) ∧ ¬ EmptyQueue fourObjects seg := by
  have hopen : (megaqueueOpen page4k willing creating 8 4 leftover).1 = .opened fourObjects := by
    decide +kernel
  have hseg : (megaqueueOpen page4k willing creating 8 4 leftover).2.map (fun seg =>
      (seg.load64 hdrHead, seg.load64 hdrTail, seg.load64 hdrDelete)) = some (0, 1, 1) := by
    decide +kernel
  obtain ⟨seg, hseg, hfields⟩ := Option.map_eq_some_iff.1 hseg
  simp only [Prod.mk.injEq] at hfields
  obtain ⟨hhead, htail, hdelete⟩ := hfields
  have hread : megaqueueReadNextSlot fourObjects seg = (aOk, some 4104) := by
    simp [megaqueueReadNextSlot, megaqueueIsEmpty, hhead, htail, MegaqueueHandle.slotAt,
      fourObjects]
  refine ⟨seg, Prod.ext hopen hseg, hhead, htail, hdelete, hread, ?_⟩
  intro h
  have hempty := h.empty
  rw [hread] at hempty
  exact absurd hempty (by decide)

end Tsl
