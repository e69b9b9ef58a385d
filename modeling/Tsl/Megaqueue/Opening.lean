import Tsl.Lib.Machine
import Tsl.Megaqueue.Segment

set_option autoImplicit false

/-! # Opening a megaqueue while it is created

A creating `megaqueue_open` makes the segment, gives it its size, touches its pages and stores the
superblock field by field; another process may call `megaqueue_open` without `O_CREAT` at any moment
in between. That one reads the header twice: it sizes its mapping by what it reads from the
descriptor, and checks, and takes over, what it finds in the mapping. The machine below takes one
step for each call of the system and each access to the header of either of them.

`opensInside_iff` says in which runs the consumer gets a region that is large enough for the handle:
those in which, at its `read`, the header is complete and its sum did not wrap, or no object takes any
room. `opensInside_fails` is a run in which the header is stored between the two looks. -/

namespace Tsl

open Lib

/-- The two calls of `megaqueue_open`, with their arguments and what the system answers each. -/
structure Openers where
  page : PageSize
  creator : Sys
  creatorMode : OpenMode
  creates : creatorMode.creat = true
  objSize : ℕ
  objCount : ℕ
  consumer : Sys
  consumerMode : OpenMode
  attaches : consumerMode.creat = false
  /-- The object size the consumer asks for. -/
  wanted : ℕ

/-- Where the creating call is. -/
inductive CreatorPc where
  | shmOpen
  | ftruncate
  | mmap
  /-- The loop of `__megaqueue_prefault_range`. -/
  | prefault (i : ℕ)
  /-- The stores of `megaqueue_prepare_superblock`. -/
  | storeHead
  | storePid
  | storeSize
  | storeCount
  | opened
  | failed (ret : AResult)
  | killed
deriving DecidableEq, Repr

/-- Where the other call is, with the `queue_size` it has computed. -/
inductive ConsumerPc where
  | shmOpen
  | read
  | mmap (size : ℕ)
  /-- `hdr->object_size < obj_size`. -/
  | checkSize (size : ℕ)
  /-- `0 == hdr->object_count`. -/
  | checkCount (size : ℕ)
  /-- `obj_count = hdr->object_count`. -/
  | loadCount (size : ℕ)
  | ended (result : OpenResult)
deriving DecidableEq

/-- The segment, and the two calls. -/
structure OpenRace where
  segment : Option Segment
  creator : CreatorPc
  consumer : ConsumerPc

/-- Whose step it is. -/
inductive Opener where
  | creator
  | consumer
deriving DecidableEq, Repr

namespace OpenRace

/-- There is no segment of that name yet. -/
def initial : OpenRace := ⟨none, .shmOpen, .shmOpen⟩

/-- A store of the creator to its mapping. Without a byte in the segment there is no page behind it. -/
def store (s : OpenRace) (next : CreatorPc) (f : Segment → Segment) : Option OpenRace :=
  match s.segment with
  | none => none
  | some seg =>
      if seg.size = 0 then some { s with creator := .killed }
      else some { s with segment := some (f seg), creator := next }

/-- A load of the consumer from the header in its mapping. -/
def load (s : OpenRace) (field : ℕ) (next : ℕ → ConsumerPc) : Option OpenRace :=
  match s.segment with
  | none => none
  | some seg =>
      if seg.size = 0 then some { s with consumer := .ended .killed }
      else some { s with consumer := next (seg.load64 field) }

end OpenRace

/-- `page_count` in `__megaqueue_prefault_range`. -/
def Openers.pageCount (o : Openers) : ℕ :=
  o.page.down (prefetchSize o.page (queueSize o.page o.objSize o.objCount) - 1) / o.page.bytes

/-- One page is touched. -/
def touched (page : PageSize) (seg : Segment) (i : ℕ) : Segment :=
  { seg with bytes := seg.bytes.store (i * page.bytes) 4 0xdead }

/-- A step of `megaqueue_open` with `O_CREAT`. -/
def creatorStep (o : Openers) (s : OpenRace) : Option OpenRace :=
  let size := queueSize o.page o.objSize o.objCount
  match s.creator with
  | .shmOpen =>
      if o.creator.asprintf then
        match shmOpen o.creator o.creatorMode s.segment with
        | none => some { s with creator := .failed aEInval }
        | some seg => some { s with segment := some seg, creator := .ftruncate }
      else some { s with creator := .failed aENomem }
  | .ftruncate =>
      match s.segment with
      | none => none
      | some seg =>
          match ftruncate o.creator o.creatorMode size seg with
          | none => some { s with creator := .failed aEInval }
          | some seg => some { s with segment := some seg, creator := .mmap }
  | .mmap =>
      some { s with
        creator :=
          if mmapSucceeds o.creator o.creatorMode size then .prefault 0 else .failed aEInval }
  | .prefault i =>
      if i < o.pageCount then s.store (.prefault (i + 1)) (touched o.page · i)
      else some { s with creator := .storeHead }
  | .storeHead => s.store .storePid (·.store64 hdrHead 0)
  | .storePid => s.store .storeSize (·.store64 hdrProducerPid o.creator.pid)
  | .storeSize => s.store .storeCount (·.store64 hdrObjectSize o.objSize)
  | .storeCount => s.store .opened (·.store64 hdrObjectCount o.objCount)
  | .opened | .failed _ | .killed => none

/-- A step of `megaqueue_open` without `O_CREAT`. -/
def consumerStep (o : Openers) (s : OpenRace) : Option OpenRace :=
  match s.consumer with
  | .shmOpen =>
      if o.consumer.asprintf then
        match shmOpen o.consumer o.consumerMode s.segment with
        | none => some { s with consumer := .ended (.failed aEInval) }
        | some seg => some { s with segment := some seg, consumer := .read }
      else some { s with consumer := .ended (.failed aENomem) }
  | .read =>
      match s.segment with
      | none => none
      | some seg =>
          match readHeader o.consumer o.consumerMode seg with
          | none => some { s with consumer := .ended (.failed aEInval) }
          | some read => some { s with
              consumer :=
                .mmap (queueSize o.page (read.load hdrObjectSize 8) (read.load hdrObjectCount 8)) }
  | .mmap size =>
      some { s with
        consumer :=
          if mmapSucceeds o.consumer o.consumerMode size then .checkSize size
          else .ended (.failed aEInval) }
  | .checkSize size =>
      s.load hdrObjectSize fun found =>
        if found < o.wanted then .ended (.failed aEInval) else .checkCount size
  | .checkCount size =>
      s.load hdrObjectCount fun found =>
        if found = 0 then .ended (.failed aEInval) else .loadCount size
  | .loadCount size =>
      s.load hdrObjectCount fun found =>
        .ended (.opened (openedHandle o.page o.consumerMode o.wanted found size))
  | .ended _ => none

/-- One step of either. -/
def openStep (o : Openers) (s : OpenRace) : Opener → Option OpenRace
  | .creator => creatorStep o s
  | .consumer => consumerStep o s

/-! ## One call at a time -/

section Alone

variable {o : Openers} {s : OpenRace} {seg : Segment}

/-- The other call alone, from its `read` on, is `openExisting`. -/
theorem exec_consumer_alone (hseg : s.segment = some seg) (hpc : s.consumer = .read) :
    ∃ n, exec (openStep o) s (List.replicate n .consumer) = some { s with
      consumer := .ended (openExisting o.page o.consumer o.consumerMode o.wanted seg) } := by
  unfold openExisting
  cases hread : readHeader o.consumer o.consumerMode seg with
  | none => exact ⟨1, by simp [exec, openStep, consumerStep, hpc, hseg, hread]⟩
  | some read =>
      simp only
      split
      · next hmap =>
        split
        · next hsize =>
          exact ⟨3, by simp [exec, openStep, consumerStep, hpc, hseg, hread, hmap, OpenRace.load,
            hsize]⟩
        · next hsize =>
          split
          · next hsmall =>
            exact ⟨3, by simp [exec, openStep, consumerStep, hpc, hseg, hread, hmap, OpenRace.load,
              hsize, hsmall]⟩
          · next hsmall =>
            split
            · next hcount =>
              exact ⟨4, by simp [exec, openStep, consumerStep, hpc, hseg, hread, hmap, OpenRace.load,
                hsize, hsmall, hcount]⟩
            · next hcount =>
              exact ⟨5, by simp [exec, openStep, consumerStep, hpc, hseg, hread, hmap, OpenRace.load,
                hsize, hsmall, hcount]⟩
      · next hmap =>
        exact ⟨2, by simp [exec, openStep, consumerStep, hpc, hseg, hread, hmap]⟩

theorem exec_prefault (left : ℕ) : ∀ (i : ℕ) (s : OpenRace) (seg : Segment),
    i + left = o.pageCount → s.segment = some seg → seg.size ≠ 0 → s.creator = .prefault i →
    exec (openStep o) s (List.replicate left .creator) = some { s with
      segment := some ((List.range' i left).foldl (touched o.page) seg)
      creator := .prefault o.pageCount } := by
  induction left with
  | zero =>
      intro i s seg hi hseg _ hpc
      rw [List.replicate_zero, exec_nil, List.range'_zero, List.foldl_nil, ← hi, Nat.add_zero, ← hpc,
        ← hseg]
  | succ left ih =>
      intro i s seg hi hseg hsize hpc
      have hlt : i < o.pageCount := by omega
      have hstep : openStep o s .creator = some { s with
          segment := some (touched o.page seg i), creator := .prefault (i + 1) } := by
        simp only [openStep, creatorStep, hpc, if_pos hlt, OpenRace.store, hseg, if_neg hsize]
      rw [List.replicate_succ, exec, hstep, Option.bind_some, List.range'_succ, List.foldl_cons]
      exact ih (i + 1) _ (touched o.page seg i) (by omega) rfl hsize rfl

/-- Where a call that came to its result is. -/
def CreatorPc.ofResult : OpenResult → CreatorPc
  | .opened _ => .opened
  | .failed ret => .failed ret
  | .killed => .killed

/-- The creating call alone, from its `ftruncate` on, is `openCreating`. -/
theorem exec_creator_alone (hseg : s.segment = some seg) (hpc : s.creator = .ftruncate) :
    ∃ n, exec (openStep o) s (List.replicate n .creator) = some { s with
      segment := some (openCreating o.page o.creator o.creatorMode o.objSize o.objCount seg).2
      creator := .ofResult
        (openCreating o.page o.creator o.creatorMode o.objSize o.objCount seg).1 } := by
  unfold openCreating
  cases htrunc : ftruncate o.creator o.creatorMode (queueSize o.page o.objSize o.objCount) seg with
  | none =>
      refine ⟨1, ?_⟩
      simp [exec, openStep, creatorStep, hpc, hseg, htrunc, CreatorPc.ofResult]
  | some cut =>
      by_cases hmap : mmapSucceeds o.creator o.creatorMode (queueSize o.page o.objSize o.objCount)
      · have hsize : cut.size ≠ 0 := by
          obtain ⟨-, hcut⟩ := Option.ite_none_right_eq_some.1 htrunc
          obtain rfl := Option.some.inj hcut
          simp only [mmapSucceeds, decide_eq_true_eq] at hmap
          exact Nat.pos_iff_ne_zero.1 hmap.2.2
        have hmapped : exec (openStep o) s (List.replicate 2 .creator) =
            some { s with segment := some cut, creator := .prefault 0 } := by
          simp [exec, openStep, creatorStep, hpc, hseg, htrunc, hmap]
        have htouched := exec_prefault (o := o) o.pageCount 0
          { s with segment := some cut, creator := .prefault 0 } cut (Nat.zero_add _) rfl hsize rfl
        have hloop : (List.range' 0 o.pageCount).foldl (touched o.page) cut =
            megaqueuePrefaultRange o.page
              (prefetchSize o.page (queueSize o.page o.objSize o.objCount)) cut := by
          rw [← List.range_eq_range']
          rfl
        rw [hloop] at htouched
        rw [← size_megaqueuePrefaultRange o.page
          (prefetchSize o.page (queueSize o.page o.objSize o.objCount)) cut] at hsize
        refine ⟨2 + (o.pageCount + 5), ?_⟩
        rw [← List.replicate_append_replicate, exec_append hmapped, ← List.replicate_append_replicate,
          exec_append htouched]
        simp [exec, openStep, creatorStep, OpenRace.store, hsize, htrunc, hmap,
          Segment.store64, megaqueuePrepareSuperblock, CreatorPc.ofResult]
      · refine ⟨2, ?_⟩
        simp [exec, openStep, creatorStep, hpc, hseg, htrunc, hmap, CreatorPc.ofResult]

end Alone

/-! ## The condition -/

/-- Where it is opened, the region is as large as the header page and the objects of the handle. -/
def OpensInside (o : Openers) (s : OpenRace) : Prop :=
  ∀ queue, s.consumer = .ended (.opened queue) →
    o.page.bytes + queue.objectCount * queue.objectSize ≤ queue.regionSize

/-- What the objects of the consumer's handle take. -/
def Openers.objects (o : Openers) : ℕ := o.objCount % 2 ^ 32 * (o.wanted % 2 ^ 32)

/-- A word of the header the consumer reads. -/
def Openers.foundWord (o : Openers) (seg : Segment) (field : ℕ) : ℕ :=
  Bytes.load (fun i => if i < seg.size then seg.bytes i else o.consumer.stack i) field 8

/-- The `queue_size` the consumer computes. -/
def Openers.foundSize (o : Openers) (seg : Segment) : ℕ :=
  queueSize o.page (o.foundWord seg hdrObjectSize) (o.foundWord seg hdrObjectCount)

/-- The condition on a step: the consumer reads the header after the creator has stored all of it, and
    the size it was made with holds the objects; or before, and the objects take no room. If the
    segment does not reach to the end of the two words, as is so before the creator's `ftruncate`, what
    is left on the stack has to make a size that is large enough. -/
def ReadsComplete (o : Openers) (s : OpenRace) : Opener → Prop
  | .creator => True
  | .consumer =>
      s.consumer = .read → ∀ seg ∈ s.segment,
        if hdrObjectCount + 8 ≤ seg.size then
          if s.creator = .opened then
            o.page.bytes + o.objects ≤ queueSize o.page o.objSize o.objCount
          else o.objects = 0
        else o.page.bytes + o.objects ≤ o.foundSize seg

instance (o : Openers) (s : OpenRace) : (who : Opener) → Decidable (ReadsComplete o s who)
  | .creator => inferInstanceAs (Decidable True)
  | .consumer => inferInstanceAs (Decidable (s.consumer = .read → ∀ seg ∈ s.segment,
      if hdrObjectCount + 8 ≤ seg.size then
        if s.creator = .opened then
          o.page.bytes + o.objects ≤ queueSize o.page o.objSize o.objCount
        else o.objects = 0
      else o.page.bytes + o.objects ≤ o.foundSize seg))

/-! ## What the segment holds -/

/-- `hdr->object_size`, and `hdr->object_count`, once the creator is there. -/
def CreatorPc.sizeWord (o : Openers) : CreatorPc → ℕ
  | .storeCount | .opened => o.objSize % 2 ^ 64
  | _ => 0

def CreatorPc.countWord (o : Openers) : CreatorPc → ℕ
  | .opened => o.objCount % 2 ^ 64
  | _ => 0

/-- The `queue_size` of a mapping the consumer has. -/
def ConsumerPc.mapped : ConsumerPc → Option ℕ
  | .checkSize size | .checkCount size | .loadCount size => some size
  | _ => none

/-- The segment has its size, and the words a creator at `pc` has stored. -/
structure Stored (o : Openers) (pc : CreatorPc) (seg : Segment) : Prop where
  size : seg.size = queueSize o.page o.objSize o.objCount
  sizeWord : seg.load64 hdrObjectSize = pc.sizeWord o
  countWord : seg.load64 hdrObjectCount = pc.countWord o

/-- What holds in every run. -/
structure OpenRace.Inv (o : Openers) (s : OpenRace) : Prop where
  absent : s.creator = .shmOpen → s.segment = none
  empty : s.creator = .ftruncate → ∀ seg ∈ s.segment, seg.size = 0
  /-- A consumer may have cut the segment off again. -/
  stored : ∀ seg ∈ s.segment, seg.size ≠ 0 → Stored o s.creator seg
  mapped : ∀ size ∈ s.consumer.mapped, 0 < size
  /-- The count is not zero once it was seen not to be. -/
  counted : ∀ size, s.consumer = .loadCount size → s.creator = .opened
  opened : ∀ queue, s.consumer = .ended (.opened queue) → ∃ size, 0 < size ∧
    queue = openedHandle o.page o.consumerMode o.wanted (o.objCount % 2 ^ 64) size

theorem inv_initialRace (o : Openers) : OpenRace.initial.Inv o where
  absent := fun _ => rfl
  empty := fun h => by cases h
  stored := fun seg hseg => by cases hseg
  mapped := fun size hsize => by cases hsize
  counted := fun size h => by cases h
  opened := fun queue h => by cases h

section Steps

variable {o : Openers} {s s' : OpenRace} {pc next : CreatorPc} {seg : Segment}

theorem load64_truncate_empty (hempty : seg.size = 0) (size field : ℕ) :
    (seg.truncate size).load64 field = 0 := by
  rw [Segment.load64, Bytes.load_eq_zero_iff]
  intro i _ _
  simp [Segment.truncate, hempty]

theorem Stored.moveOn (hstored : Stored o pc seg) (hsize : next.sizeWord o = pc.sizeWord o)
    (hcount : next.countWord o = pc.countWord o) : Stored o next seg :=
  ⟨hstored.size, hstored.sizeWord.trans hsize.symm, hstored.countWord.trans hcount.symm⟩

theorem Stored.elsewhere (hstored : Stored o pc seg) {off n value : ℕ}
    (happart : off + n ≤ hdrObjectSize ∨ hdrObjectCount + 8 ≤ off)
    (hsize : next.sizeWord o = pc.sizeWord o) (hcount : next.countWord o = pc.countWord o) :
    Stored o next { seg with bytes := seg.bytes.store off n value } where
  size := hstored.size
  sizeWord := by
    rw [hsize, ← hstored.sizeWord]
    exact Bytes.load_store_disjoint (by simp only [hdrObjectSize, hdrObjectCount] at *; omega)
  countWord := by
    rw [hcount, ← hstored.countWord]
    exact Bytes.load_store_disjoint (by simp only [hdrObjectSize, hdrObjectCount] at *; omega)

theorem Stored.storeSize (hstored : Stored o .storeSize seg) :
    Stored o .storeCount (seg.store64 hdrObjectSize o.objSize) where
  size := hstored.size
  sizeWord := Segment.load64_store64_same seg _ _
  countWord := (Segment.load64_store64_ne (by decide)).trans hstored.countWord

theorem Stored.storeCount (hstored : Stored o .storeCount seg) :
    Stored o .opened (seg.store64 hdrObjectCount o.objCount) where
  size := hstored.size
  sizeWord := (Segment.load64_store64_ne (by decide)).trans hstored.sizeWord
  countWord := Segment.load64_store64_same seg _ _

theorem touched_apart (page : PageSize) (i : ℕ) :
    i * page.bytes + 4 ≤ hdrObjectSize ∨ hdrObjectCount + 8 ≤ i * page.bytes := by
  have hpage := page.sizeofHeader_le
  simp only [hdrObjectSize, hdrObjectCount, sizeofHeader] at *
  rcases Nat.eq_zero_or_pos i with rfl | hi
  · exact .inl (by omega)
  · have hnext := Nat.le_mul_of_pos_left page.bytes hi
    exact .inr (by omega)

theorem OpenRace.store_cases {next : CreatorPc} {f : Segment → Segment}
    (hstep : s.store next f = some s') :
    ∃ seg, s.segment = some seg ∧
      (seg.size = 0 ∧ s' = { s with creator := .killed } ∨
        seg.size ≠ 0 ∧ s' = { s with segment := some (f seg), creator := next }) := by
  unfold OpenRace.store at hstep
  split at hstep
  · cases hstep
  · next seg hseg =>
    refine ⟨seg, hseg, ?_⟩
    split at hstep
    · next hsize => exact .inl ⟨hsize, (Option.some.inj hstep).symm⟩
    · next hsize => exact .inr ⟨hsize, (Option.some.inj hstep).symm⟩

theorem OpenRace.load_cases {field : ℕ} {next : ℕ → ConsumerPc}
    (hstep : s.load field next = some s') :
    ∃ seg, s.segment = some seg ∧
      (seg.size = 0 ∧ s' = { s with consumer := .ended .killed } ∨
        seg.size ≠ 0 ∧ s' = { s with consumer := next (seg.load64 field) }) := by
  unfold OpenRace.load at hstep
  split at hstep
  · cases hstep
  · next seg hseg =>
    refine ⟨seg, hseg, ?_⟩
    split at hstep
    · next hsize => exact .inl ⟨hsize, (Option.some.inj hstep).symm⟩
    · next hsize => exact .inr ⟨hsize, (Option.some.inj hstep).symm⟩

theorem OpenRace.Inv.withCreator (hI : s.Inv o) {segment : Option Segment} (hpc : s.creator ≠ .opened)
    (hlater : next ≠ .shmOpen)
    (hempty : next = .ftruncate → ∀ seg ∈ segment, seg.size = 0)
    (hstored : ∀ seg ∈ segment, seg.size ≠ 0 → Stored o next seg) :
    OpenRace.Inv o { s with segment := segment, creator := next } where
  absent := fun h => absurd h hlater
  empty := hempty
  stored := hstored
  mapped := hI.mapped
  counted := fun size h => absurd (hI.counted size h) hpc
  opened := hI.opened

theorem OpenRace.Inv.store (hI : s.Inv o) {f : Segment → Segment} (hpc : s.creator = pc)
    (hbefore : pc ≠ .opened) (hlater : next ≠ .shmOpen ∧ next ≠ .ftruncate)
    (hf : ∀ seg, Stored o pc seg → Stored o next (f seg)) (hstep : s.store next f = some s') :
    s'.Inv o := by
  subst hpc
  obtain ⟨seg, hseg, ⟨hsize, rfl⟩ | ⟨hsize, rfl⟩⟩ := OpenRace.store_cases hstep
  · refine hI.withCreator hbefore (by simp) (by simp) fun seg' hseg' hne => ?_
    obtain rfl := Option.some.inj (hseg.symm.trans hseg')
    exact absurd hsize hne
  · refine hI.withCreator hbefore hlater.1 (fun h => absurd h hlater.2) fun seg' hseg' _ => ?_
    obtain rfl := Option.some.inj hseg'
    exact hf seg (hI.stored seg hseg hsize)

theorem OpenRace.consumer_store {f : Segment → Segment} (hstep : s.store next f = some s') :
    s'.consumer = s.consumer := by
  obtain ⟨seg, -, ⟨-, rfl⟩ | ⟨-, rfl⟩⟩ := OpenRace.store_cases hstep
  · rfl
  · rfl

theorem consumer_creatorStep (hstep : creatorStep o s = some s') : s'.consumer = s.consumer := by
  unfold creatorStep at hstep
  cases hpc : s.creator with
  | shmOpen | ftruncate =>
      simp only [hpc] at hstep
      repeat' split at hstep
      all_goals cases hstep <;> rfl
  | mmap =>
      simp only [hpc, Option.some.injEq] at hstep
      subst hstep
      rfl
  | prefault i =>
      simp only [hpc] at hstep
      split at hstep
      · exact OpenRace.consumer_store hstep
      · obtain rfl := Option.some.inj hstep
        rfl
  | storeHead | storePid | storeSize | storeCount =>
      simp only [hpc] at hstep
      exact OpenRace.consumer_store hstep
  | opened | failed | killed => simp [hpc] at hstep

theorem OpenRace.Inv.moveOn (hI : s.Inv o) (hpc : s.creator = pc) (hbefore : pc ≠ .opened)
    (hlater : next ≠ .shmOpen ∧ next ≠ .ftruncate) (hsize : next.sizeWord o = pc.sizeWord o)
    (hcount : next.countWord o = pc.countWord o) : OpenRace.Inv o { s with creator := next } := by
  subst hpc
  exact hI.withCreator hbefore hlater.1 (fun h => absurd h hlater.2) fun seg hseg hne =>
    (hI.stored seg hseg hne).moveOn hsize hcount

theorem OpenRace.Inv.made (hI : s.Inv o) (hpc : s.creator = .shmOpen)
    (hshm : shmOpen o.creator o.creatorMode s.segment = some seg) :
    OpenRace.Inv o { s with segment := some seg, creator := .ftruncate } := by
  have hempty : seg.size = 0 := by
    rcases shmOpen_cases hshm with ⟨-, rfl⟩ | ⟨seg', hseg', -⟩
    · rfl
    · rw [hI.absent hpc] at hseg'
      cases hseg'
  refine hI.withCreator (by simp [hpc]) (by simp) ?_ ?_
  · intro _ seg' hseg'
    obtain rfl := Option.some.inj hseg'
    exact hempty
  · intro seg' hseg' hne
    obtain rfl := Option.some.inj hseg'
    exact absurd hempty hne

theorem OpenRace.Inv.sized (hI : s.Inv o) (hpc : s.creator = .ftruncate)
    (hseg : s.segment = some seg) {cut : Segment}
    (htrunc : ftruncate o.creator o.creatorMode (queueSize o.page o.objSize o.objCount) seg =
      some cut) :
    OpenRace.Inv o { s with segment := some cut, creator := .mmap } := by
  have hempty := hI.empty hpc seg hseg
  obtain ⟨-, hcut⟩ := Option.ite_none_right_eq_some.1 htrunc
  obtain rfl := Option.some.inj hcut
  refine hI.withCreator (by simp [hpc]) (by simp) (by simp) fun seg' hseg' _ => ?_
  obtain rfl := Option.some.inj hseg'
  exact ⟨rfl, load64_truncate_empty hempty _ _, load64_truncate_empty hempty _ _⟩

theorem OpenRace.Inv.creatorStep (hI : s.Inv o) (hstep : creatorStep o s = some s') : s'.Inv o := by
  unfold Tsl.creatorStep at hstep
  cases hpc : s.creator with
  | shmOpen =>
      simp only [hpc] at hstep
      split at hstep
      · split at hstep
        · obtain rfl := Option.some.inj hstep
          exact hI.moveOn hpc (by simp) (by simp) rfl rfl
        · next seg hshm =>
          obtain rfl := Option.some.inj hstep
          exact hI.made hpc hshm
      · obtain rfl := Option.some.inj hstep
        exact hI.moveOn hpc (by simp) (by simp) rfl rfl
  | ftruncate =>
      simp only [hpc] at hstep
      split at hstep
      · cases hstep
      · next seg hseg =>
        split at hstep
        · obtain rfl := Option.some.inj hstep
          exact hI.moveOn hpc (by simp) (by simp) rfl rfl
        · next cut htrunc =>
          obtain rfl := Option.some.inj hstep
          exact hI.sized hpc hseg htrunc
  | mmap =>
      simp only [hpc, Option.some.injEq] at hstep
      subst hstep
      split
      · exact hI.moveOn hpc (by simp) (by simp) rfl rfl
      · exact hI.moveOn hpc (by simp) (by simp) rfl rfl
  | prefault i =>
      simp only [hpc] at hstep
      split at hstep
      · refine hI.store hpc (by simp) (by simp) (fun seg hstored => ?_) hstep
        exact hstored.elsewhere (touched_apart o.page i) rfl rfl
      · obtain rfl := Option.some.inj hstep
        exact hI.moveOn hpc (by simp) (by simp) rfl rfl
  | storeHead | storePid =>
      simp only [hpc] at hstep
      refine hI.store hpc (by simp) (by simp) (fun seg hstored => ?_) hstep
      exact hstored.elsewhere (.inl (by decide)) rfl rfl
  | storeSize =>
      simp only [hpc] at hstep
      exact hI.store hpc (by simp) (by simp) (fun seg => Stored.storeSize) hstep
  | storeCount =>
      simp only [hpc] at hstep
      exact hI.store hpc (by simp) (by simp) (fun seg => Stored.storeCount) hstep
  | opened | failed | killed => simp [hpc] at hstep

/-- What a step of the consumer does. -/
inductive ConsumerStep (o : Openers) (s : OpenRace) : OpenRace → Prop where
  | fails (ret : AResult) : ConsumerStep o s { s with consumer := .ended (.failed ret) }
  | killed : ConsumerStep o s { s with consumer := .ended .killed }
  | finds {seg : Segment} (hpc : s.consumer = .shmOpen) (hseg : s.segment = some seg) :
      ConsumerStep o s { s with
        segment := some (if o.consumerMode.trunc then seg.truncate 0 else seg), consumer := .read }
  | reads {seg : Segment} (hpc : s.consumer = .read) (hseg : s.segment = some seg) :
      ConsumerStep o s { s with consumer := .mmap (o.foundSize seg) }
  | maps {size : ℕ} (hpc : s.consumer = .mmap size) (hpos : 0 < size) :
      ConsumerStep o s { s with consumer := .checkSize size }
  | checksSize {size : ℕ} (hpc : s.consumer = .checkSize size) :
      ConsumerStep o s { s with consumer := .checkCount size }
  | checksCount {size : ℕ} {seg : Segment} (hpc : s.consumer = .checkCount size)
      (hseg : s.segment = some seg) (hsize : seg.size ≠ 0) (hcount : seg.load64 hdrObjectCount ≠ 0) :
      ConsumerStep o s { s with consumer := .loadCount size }
  | loads {size : ℕ} {seg : Segment} (hpc : s.consumer = .loadCount size)
      (hseg : s.segment = some seg) (hsize : seg.size ≠ 0) :
      ConsumerStep o s { s with
        consumer := .ended (.opened
          (openedHandle o.page o.consumerMode o.wanted (seg.load64 hdrObjectCount) size)) }

theorem consumerStep_cases (hstep : consumerStep o s = some s') : ConsumerStep o s s' := by
  unfold consumerStep at hstep
  cases hpc : s.consumer with
  | shmOpen =>
      simp only [hpc] at hstep
      split at hstep
      · split at hstep
        · obtain rfl := Option.some.inj hstep
          exact .fails _
        · next found hshm =>
          obtain rfl := Option.some.inj hstep
          rcases shmOpen_cases hshm with ⟨hnone, -⟩ | ⟨seg, hseg, rfl⟩
          · simp [shmOpen, hnone, o.attaches] at hshm
          · exact .finds hpc hseg
      · obtain rfl := Option.some.inj hstep
        exact .fails _
  | read =>
      simp only [hpc] at hstep
      split at hstep
      · cases hstep
      · next seg hseg =>
        split at hstep
        · obtain rfl := Option.some.inj hstep
          exact .fails _
        · next read hread =>
          obtain rfl := Option.some.inj hstep
          obtain ⟨-, hbytes⟩ := Option.ite_none_right_eq_some.1 hread
          obtain rfl := Option.some.inj hbytes
          exact .reads hpc hseg
  | mmap size =>
      simp only [hpc, Option.some.injEq] at hstep
      subst hstep
      split
      · next hmap =>
        simp only [mmapSucceeds, decide_eq_true_eq] at hmap
        exact .maps hpc hmap.2.2
      · exact .fails _
  | checkSize size =>
      simp only [hpc] at hstep
      obtain ⟨seg, hseg, ⟨-, rfl⟩ | ⟨-, rfl⟩⟩ := OpenRace.load_cases hstep
      · exact .killed
      · split
        · exact .fails _
        · exact .checksSize hpc
  | checkCount size =>
      simp only [hpc] at hstep
      obtain ⟨seg, hseg, ⟨-, rfl⟩ | ⟨hsize, rfl⟩⟩ := OpenRace.load_cases hstep
      · exact .killed
      · split
        · exact .fails _
        · next hcount => exact .checksCount hpc hseg hsize hcount
  | loadCount size =>
      simp only [hpc] at hstep
      obtain ⟨seg, hseg, ⟨-, rfl⟩ | ⟨hsize, rfl⟩⟩ := OpenRace.load_cases hstep
      · exact .killed
      · exact .loads hpc hseg hsize
  | ended result => simp [hpc] at hstep

theorem OpenRace.Inv.withConsumer (hI : s.Inv o) {consumer : ConsumerPc}
    (hmapped : ∀ size ∈ consumer.mapped, 0 < size)
    (hcounted : ∀ size, consumer = .loadCount size → s.creator = .opened)
    (hopened : ∀ queue, consumer = .ended (.opened queue) → ∃ size, 0 < size ∧
      queue = openedHandle o.page o.consumerMode o.wanted (o.objCount % 2 ^ 64) size) :
    OpenRace.Inv o { s with consumer := consumer } :=
  ⟨hI.absent, hI.empty, hI.stored, hmapped, hcounted, hopened⟩

/-- A count that is not zero is the one the creator has stored. -/
theorem OpenRace.Inv.count_eq (hI : s.Inv o) (hseg : s.segment = some seg) (hsize : seg.size ≠ 0)
    (hcount : seg.load64 hdrObjectCount ≠ 0) : s.creator = .opened := by
  have hword := (hI.stored seg hseg hsize).countWord
  cases hpc : s.creator <;> simp_all [CreatorPc.countWord]

theorem OpenRace.Inv.consumerStep (hI : s.Inv o) (hstep : ConsumerStep o s s') : s'.Inv o := by
  cases hstep with
  | fails ret => exact hI.withConsumer (by simp [ConsumerPc.mapped]) (by simp) (by simp)
  | killed => exact hI.withConsumer (by simp [ConsumerPc.mapped]) (by simp) (by simp)
  | @finds seg hpc hseg =>
      refine ⟨fun h => ?_, fun h seg' hseg' => ?_, fun seg' hseg' hne => ?_, by simp [ConsumerPc.mapped],
        by simp, by simp⟩
      · rw [hI.absent h] at hseg
        cases hseg
      · obtain rfl := Option.some.inj hseg'
        split
        · simp [Segment.truncate]
        · exact hI.empty h seg hseg
      · obtain rfl := Option.some.inj hseg'
        split at hne
        · exact absurd rfl hne
        · next htrunc =>
          rw [if_neg htrunc]
          exact hI.stored seg hseg hne
  | reads hpc hseg => exact hI.withConsumer (by simp [ConsumerPc.mapped]) (by simp) (by simp)
  | maps hpc hpos =>
      exact hI.withConsumer (by simpa [ConsumerPc.mapped] using hpos) (by simp) (by simp)
  | checksSize hpc =>
      have hpos := hI.mapped
      rw [hpc] at hpos
      exact hI.withConsumer hpos (by simp) (by simp)
  | checksCount hpc hseg hsize hcount =>
      have hpos := hI.mapped
      rw [hpc] at hpos
      exact hI.withConsumer hpos (fun _ _ => hI.count_eq hseg hsize hcount) (by simp)
  | @loads size seg hpc hseg hsize =>
      have hpos := hI.mapped size (by rw [hpc]; rfl)
      have hword := (hI.stored seg hseg hsize).countWord
      rw [hI.counted size hpc] at hword
      refine hI.withConsumer (by simp [ConsumerPc.mapped]) (by simp) fun queue hqueue => ?_
      refine ⟨size, hpos, ?_⟩
      simp only [ConsumerPc.ended.injEq, OpenResult.opened.injEq] at hqueue
      rw [← hqueue, hword]
      rfl

/-- **Every step** keeps the invariant. -/
theorem inv_openStep (s : OpenRace) (who : Opener) (s' : OpenRace) (hI : s.Inv o)
    (hstep : openStep o s who = some s') : s'.Inv o := by
  cases who with
  | creator => exact hI.creatorStep hstep
  | consumer => exact hI.consumerStep (consumerStep_cases hstep)

/-! ## The size the consumer has computed -/

/-- The consumer has read, and if it has not failed since, the size it has computed satisfies `P`. -/
def ConsumerPc.Has (P : ℕ → Prop) : ConsumerPc → Prop
  | .shmOpen | .read => False
  | .mmap size | .checkSize size | .checkCount size | .loadCount size => P size
  | .ended (.opened queue) => P queue.regionSize
  | .ended _ => True

theorem has_openStep {P : ℕ → Prop} {who : Opener} (hP : s.consumer.Has P)
    (hstep : openStep o s who = some s') : s'.consumer.Has P := by
  cases who with
  | creator =>
      rw [consumer_creatorStep hstep]
      exact hP
  | consumer =>
      cases consumerStep_cases hstep with
      | fails | killed => trivial
      | finds hpc | reads hpc =>
          rw [hpc] at hP
          exact hP.elim
      | maps hpc | checksSize hpc | checksCount hpc | loads hpc =>
          rw [hpc] at hP
          exact hP

theorem Openers.foundWord_eq {field : ℕ} (hfield : field + 8 ≤ seg.size) :
    o.foundWord seg field = seg.load64 field :=
  Bytes.load_congr fun i _ hi => if_pos (by omega)

theorem queueSize_mod (page : PageSize) (a b : ℕ) :
    queueSize page (a % 2 ^ 64) (b % 2 ^ 64) = queueSize page a b := by
  unfold queueSize
  rw [Nat.add_mod, ← Nat.mul_mod, ← Nat.add_mod]

/-- **The condition at the `read`** is that the size the consumer computes is large enough, or nothing
    at all. -/
theorem readsComplete_spec (hI : s.Inv o) (hpc : s.consumer = .read) (hseg : s.segment = some seg) :
    (ReadsComplete o s .consumer → 0 < o.foundSize seg → o.page.bytes + o.objects ≤ o.foundSize seg) ∧
      (¬ ReadsComplete o s .consumer → o.foundSize seg < o.page.bytes + o.objects) := by
  have hcond : ReadsComplete o s .consumer ↔
      if hdrObjectCount + 8 ≤ seg.size then
        if s.creator = .opened then
          o.page.bytes + o.objects ≤ queueSize o.page o.objSize o.objCount
        else o.objects = 0
      else o.page.bytes + o.objects ≤ o.foundSize seg := by
    simp [ReadsComplete, hpc, hseg]
  rw [hcond]
  split
  · next hreach =>
    have hstored := hI.stored seg hseg (by omega)
    have hsize : o.foundSize seg =
        queueSize o.page (s.creator.sizeWord o) (s.creator.countWord o) := by
      rw [Openers.foundSize, Openers.foundWord_eq hreach, hstored.countWord,
        Openers.foundWord_eq (by simp only [hdrObjectSize, hdrObjectCount] at *; omega),
        hstored.sizeWord]
    split
    · next hopened =>
      rw [hsize, hopened, CreatorPc.sizeWord, CreatorPc.countWord, queueSize_mod]
      exact ⟨fun h _ => h, Nat.lt_of_not_le⟩
    · next hopened =>
      have hcount : s.creator.countWord o = 0 := by
        cases hc : s.creator <;> simp_all [CreatorPc.countWord]
      rw [hcount] at hsize
      have hpage : 0 < o.foundSize seg → o.foundSize seg = o.page.bytes := by
        rw [hsize]
        exact queueSize_of_zero (Nat.mul_zero _)
      constructor
      · intro hzero hpos
        rw [hpage hpos, hzero]
        exact Nat.le_refl _
      · intro hsome
        have hbytes : 0 < o.page.bytes := Nat.two_pow_pos o.page.shift
        rcases Nat.eq_zero_or_pos (o.foundSize seg) with hnothing | hpos
        · omega
        · rw [hpage hpos]
          omega
  · exact ⟨fun h _ => h, Nat.lt_of_not_le⟩

theorem opensInside_of_opened (hI : s.Inv o) {queue : MegaqueueHandle}
    (hpc : s.consumer = .ended (.opened queue)) :
    0 < queue.regionSize ∧
      (OpensInside o s ↔ o.page.bytes + o.objects ≤ queue.regionSize) := by
  obtain ⟨size, hpos, rfl⟩ := hI.opened queue hpc
  refine ⟨hpos, ?_⟩
  have hobjects : (openedHandle o.page o.consumerMode o.wanted (o.objCount % 2 ^ 64) size).objectCount *
      (openedHandle o.page o.consumerMode o.wanted (o.objCount % 2 ^ 64) size).objectSize =
      o.objects := by
    simp only [openedHandle, Openers.objects]
    rw [Nat.mod_mod_of_dvd _ (by decide)]
  unfold OpensInside
  simp only [hpc, ConsumerPc.ended.injEq, OpenResult.opened.injEq, forall_eq', hobjects]

/-- What the consumer has computed so far, if anything, is large enough. -/
def SizedWell (o : Openers) (s : OpenRace) : Prop :=
  s.consumer = .shmOpen ∨ s.consumer = .read ∨
    s.consumer.Has fun size => 0 < size → o.page.bytes + o.objects ≤ size

theorem sizedWell_openStep {who : Opener} (hI : s.Inv o) (hsized : SizedWell o s)
    (hread : ReadsComplete o s who) (hstep : openStep o s who = some s') : SizedWell o s' := by
  rcases hsized with hpc | hpc | hhas
  · cases who with
    | creator => exact .inl ((consumer_creatorStep hstep).trans hpc)
    | consumer =>
        cases consumerStep_cases hstep with
        | fails | killed => exact .inr (.inr trivial)
        | finds => exact .inr (.inl rfl)
        | reads h | maps h | checksSize h | checksCount h | loads h => simp [hpc] at h
  · cases who with
    | creator => exact .inr (.inl ((consumer_creatorStep hstep).trans hpc))
    | consumer =>
        cases consumerStep_cases hstep with
        | fails | killed => exact .inr (.inr trivial)
        | reads _ hseg => exact .inr (.inr ((readsComplete_spec hI hpc hseg).1 hread))
        | finds h | maps h | checksSize h | checksCount h | loads h => simp [hpc] at h
  · exact .inr (.inr (has_openStep hhas hstep))

/-- A step that does not meet it makes the consumer compute a size that is too small. -/
theorem has_of_not_readsComplete {who : Opener} (hI : s.Inv o) (hread : ¬ ReadsComplete o s who)
    (hstep : openStep o s who = some s') :
    s'.consumer.Has fun size => size < o.page.bytes + o.objects := by
  cases who with
  | creator => exact absurd trivial hread
  | consumer =>
      have hpc : s.consumer = .read := by
        by_contra hne
        exact hread fun h => absurd h hne
      cases consumerStep_cases hstep with
      | fails | killed => trivial
      | reads _ hseg => exact (readsComplete_spec hI hpc hseg).2 hread
      | finds h | maps h | checksSize h | checksCount h | loads h => simp [hpc] at h

end Steps

/-! ## Runs -/

/-- **A region is large enough** in every state of a run that meets the condition, and where a run ends
    with the queue opened, exactly if it does. -/
theorem opensInside_iff (o : Openers) (moves : List Opener) :
    (Meets (openStep o) (ReadsComplete o) .initial moves →
      Throughout (openStep o) (OpensInside o) .initial moves) ∧
    ∀ s queue, exec (openStep o) .initial moves = some s → s.consumer = .ended (.opened queue) →
      (OpensInside o s ↔ Meets (openStep o) (ReadsComplete o) .initial moves) := by
  have hthroughout : Meets (openStep o) (ReadsComplete o) .initial moves →
      Throughout (openStep o) (OpensInside o) .initial moves := by
    refine throughout_of_meets (I := fun s => s.Inv o ∧ SizedWell o s) ?_ ?_ moves _
      ⟨inv_initialRace o, .inl rfl⟩
    · rintro s who s' ⟨hI, hsized⟩ hread hstep
      exact ⟨inv_openStep s who s' hI hstep, sizedWell_openStep hI hsized hread hstep⟩
    · rintro s ⟨hI, hsized⟩ queue hpc
      obtain ⟨hpos, hiff⟩ := opensInside_of_opened hI hpc
      refine hiff.2 ?_ queue hpc
      rcases hsized with h | h | hhas
      · simp [hpc] at h
      · simp [hpc] at h
      · rw [hpc] at hhas
        exact hhas hpos
  refine ⟨hthroughout, fun s queue hrun hpc => ⟨fun hinside => ?_, fun h => (hthroughout h).last hrun⟩⟩
  refine meets_of_exec (I := OpenRace.Inv o)
    (B := fun s => s.consumer.Has fun size => size < o.page.bytes + o.objects) inv_openStep
    (fun s who s' hI hread hstep => has_of_not_readsComplete hI hread hstep)
    (fun s who s' _ hhas hstep => has_openStep hhas hstep) moves _ (inv_initialRace o) hrun ?_
  have hI := exec_invariant inv_openStep (inv_initialRace o) hrun
  rw [hpc]
  exact Nat.not_lt.2 ((opensInside_of_opened hI hpc).2.1 hinside)

/-- A consumer of four objects of eight bytes. -/
def fourObjectOpeners : Openers where
  page := page4k
  creator := willing
  creatorMode := creating
  creates := rfl
  objSize := 8
  objCount := 4
  consumer := willing
  consumerMode := attaching
  attaches := rfl
  wanted := 8

/-- A consumer that comes after the creator is done. -/
theorem opensInside_iff_complete : ∃ s,
    exec (openStep fourObjectOpeners) .initial
      (List.replicate 10 .creator ++ List.replicate 6 .consumer) = some s ∧
      s.consumer = .ended (.opened ⟨8, 4, 4096, true, 4128⟩) ∧ OpensInside fourObjectOpeners s := by
  have hrun : (exec (openStep fourObjectOpeners) .initial
      (List.replicate 10 .creator ++ List.replicate 6 .consumer)).map OpenRace.consumer =
      some (.ended (.opened ⟨8, 4, 4096, true, 4128⟩)) := by decide +kernel
  obtain ⟨s, hs, hpc⟩ := Option.map_eq_some_iff.1 hrun
  exact ⟨s, hs, hpc, ((opensInside_iff fourObjectOpeners _).1 (by decide +kernel)).last hs⟩

/-- A consumer that reads the header when the segment has its size, and checks it when the creator is
    done: of its four objects, none is in the region. -/
theorem opensInside_fails : ∃ s,
    exec (openStep fourObjectOpeners) .initial
      ([.creator, .creator, .consumer, .consumer] ++ List.replicate 8 .creator ++
        List.replicate 4 .consumer) = some s ∧
      s.consumer = .ended (.opened ⟨8, 4, 4096, true, 4096⟩) ∧ ¬ OpensInside fourObjectOpeners s := by
  have hrun : (exec (openStep fourObjectOpeners) .initial
      ([.creator, .creator, .consumer, .consumer] ++ List.replicate 8 .creator ++
        List.replicate 4 .consumer)).map OpenRace.consumer =
      some (.ended (.opened ⟨8, 4, 4096, true, 4096⟩)) := by decide +kernel
  obtain ⟨s, hs, hpc⟩ := Option.map_eq_some_iff.1 hrun
  exact ⟨s, hs, hpc, fun h => absurd (h _ hpc) (by decide)⟩

end Tsl
