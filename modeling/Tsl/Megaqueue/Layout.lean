import Tsl.Lib.Machine
import Tsl.Megaqueue.Segment

set_option autoImplicit false

/-! # Where the handles of a megaqueue see its slots

The address of a slot comes from the handle, the number of slots from the handle too. An open
without `O_CREAT` takes the number from the header, but keeps the object size it was called with,
which it only checks not to be too large. A handle opened with a smaller size computes other
addresses than the producer (`layoutsAgree_throughout_iff`). -/

namespace Tsl

open Lib

/-- Two handles agree on where the slots are: what one hands out to be filled at some offset, the
    other hands out to be read there. -/
structure SameLayout (c d : MegaqueueHandle) : Prop where
  count : c.objectCount = d.objectCount
  slot : ∀ i < c.objectCount, c.slotAt i = d.slotAt i
  address : ∀ (seg seg' : Segment) (a b : ℕ), seg.load64 hdrHead = seg'.load64 hdrTail →
    seg.load64 hdrHead < c.objectCount → megaqueueNextSlot c seg = some (aOk, some a) →
    megaqueueReadNextSlot d seg' = (aOk, some b) → a = b

/-- A segment with the handles on it, the creator's among them. -/
structure SegmentRun where
  segment : Segment
  handles : List MegaqueueHandle

/-- All handles agree. -/
def LayoutsAgree (s : SegmentRun) : Prop := ∀ c ∈ s.handles, ∀ d ∈ s.handles, SameLayout c d

/-- What is done with a handle, besides asking for slots. -/
inductive HandleOp where
  | advance
  | readAdvance
  | readOnlyAdvance
  | deleteAdvance
  | fillSlots (data : Bytes)

/-- The segment after the call. -/
def HandleOp.run (queue : MegaqueueHandle) (seg : Segment) : HandleOp → Option Segment
  | .advance => (megaqueueAdvance queue seg).map Prod.snd
  | .readAdvance => (megaqueueReadAdvance queue seg).map Prod.snd
  | .readOnlyAdvance => (megaqueueReadOnlyAdvance queue seg).map Prod.snd
  | .deleteAdvance => (megaqueueDeleteAdvance queue seg).map Prod.snd
  | .fillSlots data => some (seg.fillSlots queue data)

/-- A call of some process: it opens the queue, or uses the handle at `i`. -/
inductive SegmentCall where
  | reopen (sys : Sys) (mode : OpenMode) (objSize objCount : ℕ)
  | onHandle (i : ℕ) (op : HandleOp)

/-- One call on the segment. An open with `O_CREAT` would start another queue. A call that traps
    ends its process, and leaves the segment as it was. -/
def segmentStep (page : PageSize) (s : SegmentRun) : SegmentCall → Option SegmentRun
  | .reopen sys mode objSize objCount =>
      if mode.creat then none
      else
        let (result, seg) := megaqueueOpen page sys mode objSize objCount (some s.segment)
        some {
          segment := seg.getD s.segment
          handles := match result with
            | .opened queue => s.handles ++ [queue]
            | _ => s.handles }
  | .onHandle i op =>
      (s.handles[i]?).map fun queue =>
        -- A segment that was emptied by `O_TRUNC` has no page left.
        if s.segment.size = 0 then s
        else { s with segment := (op.run queue s.segment).getD s.segment }

/-- The system lets an open without `O_CREAT` get as far as the check of the header. -/
def SystemGrants (sys : Sys) (mode : OpenMode) (seg : Segment) : Prop :=
  sys.asprintf = true ∧ sys.shmOpen = true ∧ sys.read = true ∧ sys.mmap = true ∧
    mode.access ≠ .wronly ∧ mode.creat = false ∧ mode.trunc = false ∧ seg.size ≠ 0

instance (sys : Sys) (mode : OpenMode) (seg : Segment) : Decidable (SystemGrants sys mode seg) :=
  inferInstanceAs (Decidable (_ ∧ _))

/-- An open that reaches the check asks for no less than the object size the queue was created
    with; a queue of at most one slot does not need this. -/
def RequestsFullObjects (objSize objCount : ℕ) (s : SegmentRun) : SegmentCall → Prop
  | .reopen sys mode requested _ =>
      SystemGrants sys mode s.segment → objSize ≤ requested ∨ objCount ≤ 1
  | .onHandle _ _ => True

instance (objSize objCount : ℕ) (s : SegmentRun) (call : SegmentCall) :
    Decidable (RequestsFullObjects objSize objCount s call) :=
  match call with
  | .reopen _ _ _ _ => inferInstanceAs (Decidable (_ → _))
  | .onHandle _ _ => inferInstanceAs (Decidable True)

/-! ## When two handles agree -/

theorem sameLayout_of_size {c d : MegaqueueHandle} (hcount : c.objectCount = d.objectCount)
    (hslot : ∀ i < c.objectCount, c.slotAt i = d.slotAt i) : SameLayout c d where
  count := hcount
  slot := hslot
  address := by
    intro seg seg' a b hoffset hlt hnext hread
    simp only [megaqueueNextSlot, Option.map_eq_some_iff] at hnext
    obtain ⟨full, -, hnext⟩ := hnext
    have ha : c.slotAt (seg.load64 hdrHead) = a := by
      cases full with
      | true => simp at hnext
      | false => simpa using hnext
    have hb : d.slotAt (seg'.load64 hdrTail) = b := by
      simp only [megaqueueReadNextSlot] at hread
      split at hread
      · simp at hread
      · simpa using hread
    rw [← ha, ← hb, ← hoffset]
    exact hslot _ hlt

/-- With the same number of slots, two handles agree if they have the same object size, or if there
    is no second slot. -/
theorem sameLayout_iff {c d : MegaqueueHandle} (hstart : c.writableStart = d.writableStart)
    (hcount : c.objectCount = d.objectCount) (hc : c.objectSize < 2 ^ 32)
    (hd : d.objectSize < 2 ^ 32) :
    SameLayout c d ↔ c.objectCount ≤ 1 ∨ c.objectSize = d.objectSize := by
  constructor
  · intro h
    rcases Nat.lt_or_ge 1 c.objectCount with hlt | hle
    · have hslot := h.slot 1 hlt
      simp only [MegaqueueHandle.slotAt, Nat.mul_one, hstart] at hslot
      rw [Nat.mod_eq_of_lt (by omega), Nat.mod_eq_of_lt (by omega)] at hslot
      exact .inr (Nat.add_left_cancel hslot)
    · exact .inl hle
  · intro h
    apply sameLayout_of_size hcount
    intro i hi
    rcases h with hle | hsize
    · obtain rfl : i = 0 := by omega
      simp [MegaqueueHandle.slotAt, hstart]
    · simp [MegaqueueHandle.slotAt, hstart, hsize]

/-! ## What every call preserves -/

/-- The header still says what the creating open wrote there, unless the segment was emptied. -/
def Geometry (objSize objCount : ℕ) (seg : Segment) : Prop :=
  seg.size ≠ 0 → sizeofHeader ≤ seg.size ∧ seg.load64 hdrObjectSize = objSize ∧
    seg.load64 hdrObjectCount = objCount

/-- Every handle has the page size and the count of the creating open, and one its object size. -/
structure SegmentRun.Inv (page : PageSize) (objSize objCount : ℕ) (s : SegmentRun) : Prop where
  geometry : Geometry objSize objCount s.segment
  start : ∀ q ∈ s.handles, q.writableStart = page.bytes
  count : ∀ q ∈ s.handles, q.objectCount = objCount
  small : ∀ q ∈ s.handles, q.objectSize < 2 ^ 32
  creator : ∃ q ∈ s.handles, q.objectSize = objSize

variable {page : PageSize} {sys : Sys} {mode : OpenMode} {objSize objCount requested count : ℕ}
  {seg : Segment} {s s' : SegmentRun}

/-- Under the invariant the handles agree exactly if all have the object size of the creator. -/
theorem SegmentRun.Inv.layoutsAgree_iff (hI : s.Inv page objSize objCount) :
    LayoutsAgree s ↔ objCount ≤ 1 ∨ ∀ q ∈ s.handles, q.objectSize = objSize := by
  have hpair : ∀ c ∈ s.handles, ∀ d ∈ s.handles,
      (SameLayout c d ↔ objCount ≤ 1 ∨ c.objectSize = d.objectSize) := by
    intro c hc d hd
    rw [← hI.count c hc]
    exact sameLayout_iff ((hI.start c hc).trans (hI.start d hd).symm)
      ((hI.count c hc).trans (hI.count d hd).symm) (hI.small c hc) (hI.small d hd)
  constructor
  · intro h
    rcases Nat.lt_or_ge 1 objCount with hlt | hle
    · right
      intro q hq
      obtain ⟨c, hc, rfl⟩ := hI.creator
      exact ((hpair q hq c hc).1 (h q hq c hc)).resolve_left (by omega)
    · exact .inl hle
  · rintro h c hc d hd
    rcases h with hle | hsize
    · exact (hpair c hc d hd).2 (.inl hle)
    · exact (hpair c hc d hd).2 (.inr ((hsize c hc).trans (hsize d hd).symm))

theorem Geometry.store64 (h : Geometry objSize objCount seg) {field value : ℕ}
    (hfield : field + 8 ≤ hdrObjectSize) : Geometry objSize objCount (seg.store64 field value) := by
  intro hsize
  have hcount : field + 8 ≤ hdrObjectCount := Nat.le_trans hfield (by decide)
  rw [Segment.load64_store64_ne (.inr hfield), Segment.load64_store64_ne (.inr hcount)]
  exact h hsize

theorem Geometry.foldl_store64 (h : Geometry objSize objCount seg) {fields : List ℕ}
    (hfields : ∀ field ∈ fields, field + 8 ≤ hdrObjectSize) (value : ℕ) :
    Geometry objSize objCount (fields.foldl (·.store64 · value) seg) := by
  induction fields generalizing seg with
  | nil => exact h
  | cons field fields ih =>
      rw [List.foldl_cons]
      exact ih (h.store64 (hfields field List.mem_cons_self))
        fun f hf => hfields f (List.mem_cons_of_mem _ hf)

/-- Each of the advancing calls either refuses, or stores to the offsets of the header. -/
theorem Geometry.advanceFields (h : Geometry objSize objCount seg) {queue : MegaqueueHandle}
    {offset : ℕ} {fields : List ℕ} (hfields : ∀ field ∈ fields, field + 8 ≤ hdrObjectSize)
    {refused : Bool} {code : AResult} {out : AResult × Segment}
    (hcall : (if refused then some (code, seg) else advanceFields queue offset fields seg) =
      some out) : Geometry objSize objCount out.2 := by
  cases refused with
  | true =>
      simp only [if_true, Option.some.injEq] at hcall
      exact hcall ▸ h
  | false =>
      simp only [Bool.false_eq_true, if_false, Tsl.advanceFields] at hcall
      obtain ⟨-, hcall⟩ := Option.ite_none_left_eq_some.1 hcall
      rw [Option.some.injEq] at hcall
      subst hcall
      exact h.foldl_store64 hfields _

theorem Geometry.run (h : Geometry objSize objCount seg) {queue : MegaqueueHandle}
    (hstart : queue.writableStart = page.bytes) (op : HandleOp) {seg' : Segment}
    (hrun : op.run queue seg = some seg') : Geometry objSize objCount seg' := by
  cases op with
  | advance =>
      simp only [HandleOp.run, megaqueueAdvance, Option.map_eq_some_iff,
        Option.bind_eq_some_iff] at hrun
      obtain ⟨out, ⟨full, -, hcall⟩, rfl⟩ := hrun
      exact h.advanceFields (by decide) hcall
  | readAdvance =>
      simp only [HandleOp.run, Option.map_eq_some_iff] at hrun
      obtain ⟨out, hcall, rfl⟩ := hrun
      exact h.advanceFields (by decide) hcall
  | readOnlyAdvance =>
      simp only [HandleOp.run, Option.map_eq_some_iff] at hrun
      obtain ⟨out, hcall, rfl⟩ := hrun
      exact h.advanceFields (by decide) hcall
  | deleteAdvance =>
      simp only [HandleOp.run, Option.map_eq_some_iff] at hrun
      obtain ⟨out, hcall, rfl⟩ := hrun
      exact h.advanceFields (by decide) hcall
  | fillSlots data =>
      simp only [HandleOp.run, Option.some.injEq] at hrun
      subst hrun
      have hpage := page.sizeofHeader_le
      have hfits : ∀ field, field + 8 ≤ sizeofHeader → field + 8 ≤ queue.writableStart :=
        fun field hfield => by omega
      intro hsize
      rw [Segment.load64_fillSlots (hfits _ (by decide)),
        Segment.load64_fillSlots (hfits _ (by decide))]
      exact h hsize

/-! ## Opening a queue that is there -/

/-- What an open without `O_CREAT` leaves of the segment. -/
theorem Geometry.truncate_zero (h : Geometry objSize objCount seg) :
    Geometry objSize objCount (if mode.trunc then seg.truncate 0 else seg) := by
  split
  · exact fun hsize => absurd rfl hsize
  · exact h

/-- An open that the system grants reads the geometry from the header, and checks the size. -/
theorem openExisting_granted (h : Geometry objSize objCount seg)
    (hfits : objSize * objCount + page.bytes < 2 ^ 64) (hgrant : SystemGrants sys mode seg) :
    openExisting page sys mode requested seg =
      if objSize < requested then .failed aEInval
      else if objCount = 0 then .failed aEInval
      else .opened (openedHandle page mode requested objCount
        (objSize * objCount + page.bytes)) := by
  obtain ⟨-, -, hread, hmmap, haccess, -, -, hsize⟩ := hgrant
  obtain ⟨hheader, hobjSize, hobjCount⟩ := h hsize
  have hpage := page.sizeofHeader_le
  have hload : ∀ field, field + 8 ≤ sizeofHeader →
      Bytes.load (fun i => if i < seg.size then seg.bytes i else sys.stack i) field 8 =
        seg.load64 field :=
    fun field hfield => Bytes.load_congr fun i _ hhi => if_pos (by omega)
  have hqueueSize : queueSize page objSize objCount = objSize * objCount + page.bytes :=
    Nat.mod_eq_of_lt hfits
  have hmap : mmapSucceeds sys mode (objSize * objCount + page.bytes) = true := by
    simp only [mmapSucceeds, decide_eq_true_eq]
    exact ⟨hmmap, haccess, by simp only [sizeofHeader] at hpage; omega⟩
  simp only [openExisting, readHeader, hread, haccess, ne_eq, not_false_eq_true, and_self, if_true,
    hload hdrObjectSize (by decide), hload hdrObjectCount (by decide), hobjSize, hobjCount,
    hqueueSize, hmap, if_neg hsize]

theorem openExisting_opened {queue : MegaqueueHandle}
    (h : openExisting page sys mode requested seg = .opened queue) :
    sys.read = true ∧ sys.mmap = true ∧ mode.access ≠ .wronly ∧ seg.size ≠ 0 := by
  cases hread : readHeader sys mode seg with
  | none => simp [openExisting, hread] at h
  | some read =>
      obtain ⟨hgranted, -⟩ := Option.ite_none_right_eq_some.1 hread
      simp only [openExisting, hread] at h
      split at h
      case isFalse => simp at h
      case isTrue hmap =>
        simp only [mmapSucceeds, decide_eq_true_eq] at hmap
        split at h
        case isTrue => simp at h
        case isFalse hsize => exact ⟨hgranted.1, hmap.1, hgranted.2, hsize⟩

theorem megaqueueOpen_existing (hcreat : mode.creat = false) :
    megaqueueOpen page sys mode requested count (some seg) =
      if sys.asprintf then
        if sys.shmOpen then
          let found := if mode.trunc then seg.truncate 0 else seg
          (openExisting page sys mode requested found, some found)
        else (.failed aEInval, some seg)
      else (.failed aENomem, some seg) := by
  cases hshm : sys.shmOpen with
  | false => simp [megaqueueOpen, shmOpen, hshm]
  | true => simp [megaqueueOpen, shmOpen, hshm, hcreat]

theorem not_opened_of_not_granted (hcreat : mode.creat = false)
    (hgrant : ¬ SystemGrants sys mode seg) (queue : MegaqueueHandle) :
    (megaqueueOpen page sys mode requested count (some seg)).1 ≠ .opened queue := by
  intro hopen
  apply hgrant
  rw [megaqueueOpen_existing hcreat] at hopen
  split at hopen
  case isFalse => simp at hopen
  case isTrue hasprintf =>
    split at hopen
    case isFalse => simp at hopen
    case isTrue hshm =>
      obtain ⟨hread, hmmap, haccess, hsize⟩ := openExisting_opened hopen
      cases htrunc : mode.trunc with
      | true =>
          rw [htrunc] at hsize
          exact absurd rfl hsize
      | false =>
          rw [htrunc] at hsize
          exact ⟨hasprintf, hshm, hread, hmmap, haccess, hcreat, htrunc, hsize⟩

/-! ## Runs -/

/-- What an open without `O_CREAT` does: it opens nothing, or adds a handle with the requested
    object size; the latter when the system grants it and the size is not too large. -/
theorem segmentStep_reopen (hI : s.Inv page objSize objCount)
    (hfits : objSize * objCount + page.bytes < 2 ^ 64)
    (hstep : segmentStep page s (.reopen sys mode requested count) = some s') :
    Geometry objSize objCount s'.segment ∧
      (SystemGrants sys mode s.segment ∧ requested ≤ objSize ∧ objCount ≠ 0 ∧
          s'.handles = s.handles ++
            [openedHandle page mode requested objCount (objSize * objCount + page.bytes)] ∨
        (SystemGrants sys mode s.segment → objSize < requested ∨ objCount = 0) ∧
          s'.handles = s.handles) := by
  simp only [segmentStep] at hstep
  cases hcreat : mode.creat with
  | true => simp [hcreat] at hstep
  | false =>
      simp only [hcreat, Bool.false_eq_true, if_false, Option.some.injEq] at hstep
      subst hstep
      refine ⟨?_, ?_⟩
      · rw [megaqueueOpen_existing hcreat]
        split
        · split
          · exact hI.geometry.truncate_zero
          · exact hI.geometry
        · exact hI.geometry
      · by_cases hgrant : SystemGrants sys mode s.segment
        · have hopen : (megaqueueOpen page sys mode requested count (some s.segment)).1 =
              openExisting page sys mode requested s.segment := by
            obtain ⟨hasprintf, hshm, -, -, -, -, htrunc, -⟩ := hgrant
            simp [megaqueueOpen_existing hcreat, hasprintf, hshm, htrunc]
          rw [openExisting_granted hI.geometry hfits hgrant] at hopen
          by_cases hlarge : objSize < requested
          · exact .inr ⟨fun _ => .inl hlarge, by simp only [hopen, if_pos hlarge]⟩
          · by_cases hzero : objCount = 0
            · exact .inr ⟨fun _ => .inr hzero, by simp only [hopen, if_neg hlarge, if_pos hzero]⟩
            · exact .inl ⟨hgrant, by omega, hzero,
                by simp only [hopen, if_neg hlarge, if_neg hzero]⟩
        · refine .inr ⟨fun h => absurd h hgrant, ?_⟩
          have hnot : ∀ queue, (megaqueueOpen page sys mode requested count
              (some s.segment)).1 ≠ .opened queue := not_opened_of_not_granted hcreat hgrant
          cases hresult : (megaqueueOpen page sys mode requested count (some s.segment)).1 with
          | opened queue => exact absurd hresult (hnot queue)
          | failed ret => rfl
          | killed => rfl

theorem segmentStep_onHandle (hI : s.Inv page objSize objCount) {i : ℕ} {op : HandleOp}
    (hstep : segmentStep page s (.onHandle i op) = some s') :
    Geometry objSize objCount s'.segment ∧ s'.handles = s.handles := by
  simp only [segmentStep, Option.map_eq_some_iff] at hstep
  obtain ⟨queue, hqueue, rfl⟩ := hstep
  split
  · exact ⟨hI.geometry, rfl⟩
  · refine ⟨?_, rfl⟩
    cases hrun : op.run queue s.segment with
    | none => exact hI.geometry
    | some seg =>
        exact hI.geometry.run (hI.start queue (List.mem_of_getElem? hqueue)) op hrun

theorem SegmentRun.Inv.withHandles (hI : s.Inv page objSize objCount)
    (hgeometry : Geometry objSize objCount s'.segment) (hhandles : s'.handles = s.handles) :
    s'.Inv page objSize objCount where
  geometry := hgeometry
  start := hhandles ▸ hI.start
  count := hhandles ▸ hI.count
  small := hhandles ▸ hI.small
  creator := hhandles ▸ hI.creator

theorem SegmentRun.Inv.addHandle (hI : s.Inv page objSize objCount)
    (hgeometry : Geometry objSize objCount s'.segment) (hcount : objCount < 2 ^ 32) {size : ℕ}
    (hhandles : s'.handles = s.handles ++ [openedHandle page mode requested objCount size]) :
    s'.Inv page objSize objCount := by
  have hmem : ∀ q ∈ s'.handles, q ∈ s.handles ∨
      q = openedHandle page mode requested objCount size := by
    intro q hq
    rw [hhandles, List.mem_append, List.mem_singleton] at hq
    exact hq
  refine ⟨hgeometry, ?_, ?_, ?_, ?_⟩
  · intro q hq
    rcases hmem q hq with hq | rfl
    · exact hI.start q hq
    · rfl
  · intro q hq
    rcases hmem q hq with hq | rfl
    · exact hI.count q hq
    · exact Nat.mod_eq_of_lt hcount
  · intro q hq
    rcases hmem q hq with hq | rfl
    · exact hI.small q hq
    · exact Nat.mod_lt _ (by decide)
  · obtain ⟨q, hq, hsize⟩ := hI.creator
    exact ⟨q, hhandles ▸ List.mem_append_left _ hq, hsize⟩

/-- Every call keeps the invariant. -/
theorem segmentStep_inv (hcount : objCount < 2 ^ 32)
    (hfits : objSize * objCount + page.bytes < 2 ^ 64) (s : SegmentRun) (call : SegmentCall)
    (s' : SegmentRun) (hI : s.Inv page objSize objCount) (hstep : segmentStep page s call = some s') :
    s'.Inv page objSize objCount := by
  cases call with
  | reopen sys mode requested count =>
      obtain ⟨hgeometry, ⟨-, -, -, hhandles⟩ | ⟨-, hhandles⟩⟩ := segmentStep_reopen hI hfits hstep
      · exact hI.addHandle hgeometry hcount hhandles
      · exact hI.withHandles hgeometry hhandles
  | onHandle i op =>
      obtain ⟨hgeometry, hhandles⟩ := segmentStep_onHandle hI hstep
      exact hI.withHandles hgeometry hhandles

theorem segmentStep_layoutsAgree_iff (hsize : objSize < 2 ^ 32) (hcount : objCount < 2 ^ 32)
    (hfits : objSize * objCount + page.bytes < 2 ^ 64) (s : SegmentRun) (call : SegmentCall)
    (s' : SegmentRun) (hI : s.Inv page objSize objCount) (hP : LayoutsAgree s)
    (hstep : segmentStep page s call = some s') :
    LayoutsAgree s' ↔ RequestsFullObjects objSize objCount s call := by
  have hI' := segmentStep_inv hcount hfits s call s' hI hstep
  have hbefore := hI.layoutsAgree_iff.1 hP
  rw [hI'.layoutsAgree_iff]
  cases call with
  | onHandle i op =>
      obtain ⟨-, hhandles⟩ := segmentStep_onHandle hI hstep
      exact iff_of_true (hhandles ▸ hbefore) trivial
  | reopen sys mode requested count =>
      simp only [RequestsFullObjects]
      obtain ⟨-, ⟨hgrant, hle, hzero, hhandles⟩ | ⟨hrefused, hhandles⟩⟩ :=
        segmentStep_reopen hI hfits hstep
      · -- The new handle has the requested size; the others keep theirs.
        have hnew : (openedHandle page mode requested objCount
            (objSize * objCount + page.bytes)).objectSize = requested :=
          Nat.mod_eq_of_lt (by omega)
        rw [hhandles]
        constructor
        · rintro (hone | hall) -
          · exact .inr hone
          · have := hall _ (List.mem_append_right _ (List.mem_singleton_self _))
            exact .inl (by omega)
        · intro h
          rcases h hgrant with hge | hone
          · rcases hbefore with hone | hall
            · exact .inl hone
            · right
              intro q hq
              rcases List.mem_append.1 hq with hq | hq
              · exact hall q hq
              · rw [List.mem_singleton.1 hq, hnew]
                omega
          · exact .inl hone
      · rw [hhandles]
        refine iff_of_true hbefore fun hgrant => ?_
        rcases hrefused hgrant with hlarge | hzero
        · exact .inl (by omega)
        · exact .inr (by omega)

theorem requestsFullObjects_of_none (s : SegmentRun) (call : SegmentCall)
    (hstep : segmentStep page s call = none) : RequestsFullObjects objSize objCount s call := by
  cases call with
  | onHandle i op => trivial
  | reopen sys mode requested count =>
      intro hgrant
      obtain ⟨-, -, -, -, -, hcreat, -⟩ := hgrant
      simp [segmentStep, hcreat] at hstep

theorem inv_created {prior : Option Segment} {queue : MegaqueueHandle}
    (hcreat : mode.creat = true) (hsize : objSize < 2 ^ 32) (hcount : objCount < 2 ^ 32)
    (hfits : objSize * objCount + page.bytes < 2 ^ 64)
    (hopen : megaqueueOpen page sys mode objSize objCount prior = (.opened queue, some seg)) :
    (SegmentRun.mk seg [queue]).Inv page objSize objCount ∧ LayoutsAgree ⟨seg, [queue]⟩ := by
  obtain ⟨carried, -, hcreated⟩ := created_of_opened hcreat hopen
  have hpage := page.sizeofHeader_le
  have hobjectSize : queue.objectSize = objSize := by
    rw [hcreated.handle]
    exact Nat.mod_eq_of_lt hsize
  have hI : (SegmentRun.mk seg [queue]).Inv page objSize objCount := by
    refine ⟨?_, ?_, ?_, ?_, ⟨queue, List.mem_singleton_self _, hobjectSize⟩⟩
    · intro _
      rw [hcreated.size, hcreated.objectSize, hcreated.objectCount, queueSize,
        Nat.mod_eq_of_lt hfits, Nat.mod_eq_of_lt (by omega), Nat.mod_eq_of_lt (by omega)]
      exact ⟨by omega, rfl, rfl⟩
    · intro q hq
      rw [List.mem_singleton.1 hq, hcreated.handle]
      rfl
    · intro q hq
      rw [List.mem_singleton.1 hq, hcreated.handle]
      exact Nat.mod_eq_of_lt hcount
    · intro q hq
      rw [List.mem_singleton.1 hq, hobjectSize]
      exact hsize
  refine ⟨hI, hI.layoutsAgree_iff.2 (.inr fun q hq => ?_)⟩
  rw [List.mem_singleton.1 hq, hobjectSize]

/-- **Handles that agree on the layout.** A queue was created with some object size and count.
    Whatever is then done with it by any number of handles, and however often it is opened, the
    handles agree on the number of slots and on the address of each, exactly if every open that the
    system grants asks for no less than the object size of the creator, or there is at most one
    slot. -/
theorem layoutsAgree_throughout_iff {prior : Option Segment} {queue : MegaqueueHandle}
    (hcreat : mode.creat = true) (hsize : objSize < 2 ^ 32) (hcount : objCount < 2 ^ 32)
    (hfits : objSize * objCount + page.bytes < 2 ^ 64)
    (hopen : megaqueueOpen page sys mode objSize objCount prior = (.opened queue, some seg))
    (calls : List SegmentCall) :
    Throughout (segmentStep page) LayoutsAgree ⟨seg, [queue]⟩ calls ↔
      Meets (segmentStep page) (RequestsFullObjects objSize objCount) ⟨seg, [queue]⟩ calls := by
  obtain ⟨hI, hP⟩ := inv_created hcreat hsize hcount hfits hopen
  exact throughout_iff_meets (segmentStep_inv hcount hfits)
    (segmentStep_layoutsAgree_iff hsize hcount hfits)
    (fun s call _ _ hnone => requestsFullObjects_of_none s call hnone) calls _ hI hP

theorem layoutsAgree_throughout_iff_four : ∃ seg,
    megaqueueOpen page4k willing creating 8 4 none = (.opened fourObjects, some seg) ∧
      (Throughout (segmentStep page4k) LayoutsAgree ⟨seg, [fourObjects]⟩
          [.reopen willing attaching 8 0, .onHandle 1 .advance] ↔
        Meets (segmentStep page4k) (RequestsFullObjects 8 4) ⟨seg, [fourObjects]⟩
          [.reopen willing attaching 8 0, .onHandle 1 .advance]) := by
  have hopen : (megaqueueOpen page4k willing creating 8 4 none).1 = .opened fourObjects := by
    decide +kernel
  have hseg : (megaqueueOpen page4k willing creating 8 4 none).2.isSome := by decide +kernel
  obtain ⟨seg, hseg⟩ := Option.isSome_iff_exists.1 hseg
  exact ⟨seg, Prod.ext hopen hseg, layoutsAgree_throughout_iff rfl (by decide) (by decide)
    (by decide) (Prod.ext hopen hseg) _⟩

/-- A queue of objects of eight bytes, opened again for objects of four: the second slot is at 4104
    for the one handle and at 4100 for the other. -/
theorem smaller_request_disagrees : ∃ seg seg' consumer,
    megaqueueOpen page4k willing creating 8 4 none = (.opened fourObjects, some seg) ∧
      megaqueueOpen page4k willing attaching 4 0 (some seg) = (.opened consumer, some seg') ∧
      fourObjects.slotAt 1 = 4104 ∧ consumer.slotAt 1 = 4100 ∧
      ¬ Throughout (segmentStep page4k) LayoutsAgree ⟨seg, [fourObjects]⟩
        [.reopen willing attaching 4 0] := by
  have hopen : (megaqueueOpen page4k willing creating 8 4 none).1 = .opened fourObjects := by
    decide +kernel
  have hseg : (megaqueueOpen page4k willing creating 8 4 none).2.map (fun seg =>
      ((megaqueueOpen page4k willing attaching 4 0 (some seg)).1,
        (megaqueueOpen page4k willing attaching 4 0 (some seg)).2.isSome)) =
      some (.opened ⟨4, 4, 4096, true, 4128⟩, true) := by
    decide +kernel
  obtain ⟨seg, hseg, hagain⟩ := Option.map_eq_some_iff.1 hseg
  simp only [Prod.mk.injEq] at hagain
  obtain ⟨hresult, hsome⟩ := hagain
  obtain ⟨seg', hseg'⟩ := Option.isSome_iff_exists.1 hsome
  have hreopen : megaqueueOpen page4k willing attaching 4 0 (some seg) =
      (.opened ⟨4, 4, 4096, true, 4128⟩, some seg') := Prod.ext hresult hseg'
  refine ⟨seg, seg', _, Prod.ext hopen hseg, hreopen, by decide, by decide, ?_⟩
  rintro ⟨-, hrest⟩
  have hstep : segmentStep page4k ⟨seg, [fourObjects]⟩ (.reopen willing attaching 4 0) =
      some ⟨seg', [fourObjects, ⟨4, 4, 4096, true, 4128⟩]⟩ := by
    have hcreat : attaching.creat = false := rfl
    simp [segmentStep, hreopen, hcreat]
  rw [hstep] at hrest
  have hagree : SameLayout fourObjects ⟨4, 4, 4096, true, 4128⟩ :=
    Throughout.head hrest _ (by simp) _ (by simp)
  exact absurd (hagree.slot 1 (by decide)) (by decide)

end Tsl
