import Mathlib.Data.Set.Insert
import Tsl.Alloc.Allocator.Heap

set_option autoImplicit false

/-! # Safety of the slab allocator

Whatever allocators are created, items allocated and freed, and words of live items written, by any
number of clients and in any order: the live items are where `SlabSafe` says, and every slab counts
its free items right. -/

namespace Tsl

open Lib

/-- What the clients of the allocators may rely on. -/
structure SlabSafe (s : SlabRun) : Prop where
  aligned : ∀ it ∈ s.live, 16 ∣ it.addr
  /-- Live items lie in the slab they came from, behind its header. -/
  inside : ∀ it ∈ s.live, it.slab + sizeofSlab ≤ it.addr ∧
    it.addr + (s.heap.allocator it.alloc).itemSize ≤ it.slab + s.heap.pageBytes it.alloc
  /-- Freeing them finds that slab. -/
  masked : ∀ it ∈ s.live, it.addr &&& (s.heap.allocator it.alloc).freeMask = it.slab
  disjoint : s.live.Pairwise fun it it' =>
    it.addr + (s.heap.allocator it.alloc).itemSize ≤ it'.addr ∨
      it'.addr + (s.heap.allocator it'.alloc).itemSize ≤ it.addr
  /-- The slabs on the list of an allocator are those its live items are in, and others; the items of
      each that are not live are counted. -/
  counted : ∀ id ∈ s.allocators, ∃ xs, IsList s.heap.links (.slabs id) xs ∧
    (∀ it ∈ s.live, it.alloc = id → .snode it.slab ∈ xs) ∧
    ∀ p, .snode p ∈ xs → (s.heap.slab p).freeItemCount =
      ((List.range (slabItems (s.heap.pageBytes id) (s.heap.allocator id).itemSize)).filter fun i =>
        ∀ it ∈ s.live, it.addr ≠ itemAddr p (s.heap.allocator id).itemSize i).length
  /-- `allocator_alloc` reads no slab where there is none. -/
  noFault : ∀ id ∈ s.allocators, (allocatorAlloc s.heap id).isSome

/-- The invariant of a run. -/
def SlabRun.Inv (pages : SlabClassId → Set ℕ) (s : SlabRun) : Prop :=
  ∃ ids seq, SlabHeapOk s.heap pages ids seq s.live ∧ (∀ id ∈ ids, id ∈ s.mallocs) ∧
    ∀ id ∈ s.allocators, id ∈ ids ∧ seq (.slabs id) ≠ []

/-- No size that `allocator_new` computes wraps. -/
def NoWrap (s : SlabRun) : AllocatorCall → Prop
  | .new itemSize itemCount flags _ =>
      itemSize + 15 < 2 ^ 64 ∧ itemCount +
        s.heap.slabBytes (if flags &&& allocFlagHugePage ≠ 0 then .hugeSlabs else .normalSlabs) /
          round16 itemSize - 1 < 2 ^ 64
  | _ => True

instance (s : SlabRun) : (c : AllocatorCall) → Decidable (NoWrap s c)
  | .new _ _ _ _ => inferInstanceAs (Decidable (_ ∧ _))
  | .alloc _ => inferInstanceAs (Decidable True)
  | .free _ => inferInstanceAs (Decidable True)
  | .write _ _ _ => inferInstanceAs (Decidable True)

section Calls

variable {h : SlabHeap} {pages : SlabClassId → Set ℕ} {ids : Set ℕ}
  {seq : SlabNode → List SlabNode} {live : List LiveItem} {p id : ℕ}

/-- The slab `allocator_alloc` looks at, the first one, has no free item; or there is none. -/
def Exhausted (h : SlabHeap) (seq : SlabNode → List SlabNode) (id : ℕ) : Prop :=
  ∀ y ∈ (seq (.slabs id)).head?, h.freeOn y = 0

/-- The test of `allocator_alloc` for a flag that says not to grow. -/
def Growable (h : SlabHeap) (id : ℕ) : Prop := (h.allocator id).flags &&& allocFlagNoGrow = 0

theorem Exhausted.full (hE : Exhausted h seq id) (hord : h.Ordered (seq (.slabs id))) :
    ∀ y ∈ seq (.slabs id), h.freeOn y = 0 := by
  intro y hy
  cases hseq : seq (.slabs id) with
  | nil => rw [hseq] at hy; cases hy
  | cons x rest =>
      rw [hseq] at hord hy
      have hx : h.freeOn x = 0 := hE x (by rw [hseq]; rfl)
      rcases List.mem_cons.1 hy with rfl | hy
      · exact hx
      · exact (List.pairwise_cons.1 hord).1 y hy hx

theorem slabAt_next (hOk : SlabHeapOk h pages ids seq live) (hid : id ∈ ids) :
    seq (.slabs id) = [] ∧ listEmpty h.links (.slabs id) = true ∧
        SlabHeap.slabAt (h.links (.slabs id)).next = none ∨
      ∃ p rest, seq (.slabs id) = .snode p :: rest ∧ listEmpty h.links (.slabs id) = false ∧
        SlabHeap.slabAt (h.links (.slabs id)).next = some p := by
  have hx := slabs_mem_listHeads hid
  have hlist := hOk.lists.isList hx
  cases hseq : seq (.slabs id) with
  | nil =>
      rw [hseq] at hlist
      have hnext : (h.links (.slabs id)).next = .slabs id := (isRing_nil.1 hlist).1
      exact .inl ⟨rfl, (listEmpty_iff hlist).2 rfl, by rw [hnext]; rfl⟩
  | cons x rest =>
      obtain ⟨p, -, rfl⟩ := hOk.page _ hx x (by rw [hseq]; exact List.mem_cons_self)
      have hempty : listEmpty h.links (.slabs id) = false := by
        rw [← Bool.not_eq_true, listEmpty_iff hlist, hseq]
        exact List.cons_ne_nil _ _
      rw [hseq] at hlist
      have hnext : (h.links (.slabs id)).next = .snode p := hlist.next_first.1
      exact .inr ⟨p, rest, rfl, hempty, by rw [hnext]; rfl⟩

/-- What `allocator_alloc` does to find a slab, after the first one turned out to be of no use. -/
theorem allocatorFirst_exhausted (hOk : SlabHeapOk h pages ids seq live) (hid : id ∈ ids)
    (hE : Exhausted h seq id) :
    allocatorFirst h id =
      if (h.allocator id).flags &&& allocFlagNoGrow = 0 then
        (helperAllocatorGrow h id).bind fun x =>
          (SlabHeap.slabAt (x.2.links (.slabs id)).next).bind fun first => some (some first, x.2)
      else some (none, h) := by
  rcases slabAt_next hOk hid with ⟨-, hempty, -⟩ | ⟨p, rest, hseq, hempty, hat⟩
  · simp only [allocatorFirst, hempty, Option.bind_eq_bind, Option.bind_some, if_true]
  · have hzero : (h.slab p).freeItemCount = 0 := hE (.snode p) (by rw [hseq]; rfl)
    simp only [allocatorFirst, hempty, hat, hzero, Option.bind_eq_bind, Option.bind_some,
      Bool.false_eq_true, if_false, decide_true, if_true]

/-- How `allocator_alloc` ends, by what it finds. -/
inductive AllocOutcome (h : SlabHeap) (seq seq' : SlabNode → List SlabNode) (id : ℕ) :
    AResult → Prop where
  /-- The first slab has a free item. -/
  | taken (hfirst : ¬ Exhausted h seq id)
      (havail : ∀ cls, seq' (.availSlabs cls) = seq (.availSlabs cls)) :
      AllocOutcome h seq seq' id aOk
  /-- There is none, and the allocator may not grow, or there is no page to grow by. -/
  | refused (hfirst : Exhausted h seq id)
      (hgrow : ¬ Growable h id ∨ seq (.availSlabs (h.allocator id).allocState) = [])
      (havail : ∀ cls, seq' (.availSlabs cls) = seq (.availSlabs cls)) :
      AllocOutcome h seq seq' id aENomem
  /-- A page was acquired. -/
  | grown (ret : AResult) (p : ℕ) (rest : List SlabNode) (hfirst : Exhausted h seq id)
      (hgrow : Growable h id)
      (hpage : seq (.availSlabs (h.allocator id).allocState) = .snode p :: rest)
      (havail : seq' (.availSlabs (h.allocator id).allocState) = rest) :
      AllocOutcome h seq seq' id ret

theorem movePage_availSlabs {cls : SlabClassId} {rest : List SlabNode}
    (hseq : seq (.availSlabs cls) = .snode p :: rest) :
    movePage seq cls id p (.availSlabs cls) = rest := by
  rw [movePage, Function.update_of_ne (by simp), Function.update_self, hseq, List.erase_cons_head]

theorem allocatorAlloc_taken (hOk : SlabHeapOk h pages ids seq live) (hid : id ∈ ids)
    (hE : ¬ Exhausted h seq id) :
    ∃ p rest, seq (.slabs id) = .snode p :: rest ∧ (h.slab p).freeItemCount ≠ 0 ∧
      allocatorFirst h id = some (some p, h) ∧
      allocatorAlloc h id = some (allocatorTake h id p) := by
  rcases slabAt_next hOk hid with ⟨hseq, -⟩ | ⟨p, rest, hseq, hempty, hat⟩
  · exact absurd (fun y hy => by rw [hseq] at hy; cases hy) hE
  · have hpos : (h.slab p).freeItemCount ≠ 0 := by
      intro hzero
      refine hE fun y hy => ?_
      rw [hseq] at hy
      obtain rfl : SlabNode.snode p = y := by simpa using hy
      exact hzero
    have hfirst : allocatorFirst h id = some (some p, h) := by
      simp [allocatorFirst, hempty, hat, hpos]
    refine ⟨p, rest, hseq, hpos, hfirst, ?_⟩
    simp only [allocatorAlloc, hfirst, Option.bind_eq_bind, Option.bind_some]

/-- There is nothing to take and nothing to grow by: `allocator_alloc` reads a slab where there is none,
or fails and leaves the heap alone. -/
theorem allocatorAlloc_refused (hOk : SlabHeapOk h pages ids seq live) (hid : id ∈ ids)
    (hE : Exhausted h seq id)
    (hno : ¬ Growable h id ∨ seq (.availSlabs (h.allocator id).allocState) = []) :
    Growable h id ∧ seq (.slabs id) = [] ∧ allocatorFirst h id = none ∧
        allocatorAlloc h id = none ∨
      (Growable h id → seq (.slabs id) ≠ []) ∧
        ∃ first, allocatorFirst h id = some (first, h) ∧
          allocatorAlloc h id = some (aENomem, none, h) := by
  have hfirst := allocatorFirst_exhausted hOk hid hE
  by_cases hgrow : Growable h id
  · have havail := hno.resolve_left (not_not_intro hgrow)
    rw [if_pos (show (h.allocator id).flags &&& allocFlagNoGrow = 0 from hgrow)] at hfirst
    -- the result of growing is not looked at
    rcases helperAllocatorGrow_spec hOk hid hE.full with ⟨-, hcall⟩ | ⟨p, rest, -, hseq, -⟩
    · -- nothing changed, the first slab is looked at again
      rcases slabAt_next hOk hid with ⟨hseq, -, hat⟩ | ⟨p, rest, hseq, -, hat⟩
      · rw [hcall, Option.bind_some, hat, Option.bind_none] at hfirst
        refine .inl ⟨hgrow, hseq, hfirst, ?_⟩
        simp only [allocatorAlloc, hfirst, Option.bind_eq_bind, Option.bind_none]
      · rw [hcall, Option.bind_some, hat, Option.bind_some] at hfirst
        have hzero : (h.slab p).freeItemCount = 0 := hE (.snode p) (by rw [hseq]; rfl)
        refine .inr ⟨fun _ hnil => ?_, some p, hfirst, ?_⟩
        · rw [hseq] at hnil
          cases hnil
        · simp only [allocatorAlloc, hfirst, Option.bind_eq_bind, Option.bind_some, allocatorTake,
            if_pos hzero]
    · rw [havail] at hseq
      cases hseq
  · rw [if_neg (show ¬ (h.allocator id).flags &&& allocFlagNoGrow = 0 from hgrow)] at hfirst
    refine .inr ⟨fun h => absurd h hgrow, none, hfirst, ?_⟩
    simp only [allocatorAlloc, hfirst, Option.bind_eq_bind, Option.bind_some]

/-- A page is acquired, and is the first slab then. -/
theorem allocatorAlloc_grown (hOk : SlabHeapOk h pages ids seq live) (hid : id ∈ ids)
    (hE : Exhausted h seq id) (hgrow : Growable h id) {p : ℕ} {rest : List SlabNode}
    (havail : seq (.availSlabs (h.allocator id).allocState) = .snode p :: rest) :
    ∃ h₁, allocatorFirst h id = some (some p, h₁) ∧
      allocatorAlloc h id = some (allocatorTake h₁ id p) ∧
      SlabHeapOk h₁ pages ids (movePage seq (h.allocator id).allocState id p) live ∧
      Moves h h₁ ids id seq (movePage seq (h.allocator id).allocState id p) ∧
      Tallies h h₁ id seq (movePage seq (h.allocator id).allocState id p) ∧
      (h₁.slab p).freeItemCount = slabItems (h.pageBytes id) (h.allocator id).itemSize := by
  have hfirst := allocatorFirst_exhausted hOk hid hE
  rw [if_pos (show (h.allocator id).flags &&& allocFlagNoGrow = 0 from hgrow)] at hfirst
  rcases helperAllocatorGrow_spec hOk hid hE.full with
    ⟨hnil, -⟩ | ⟨p', rest', h₁, hseq, hcall, hOk₁, hmoves, htally, hfree⟩
  · rw [havail] at hnil
    cases hnil
  · obtain rfl : p = p' := by
      rw [havail] at hseq
      exact SlabNode.snode.inj (List.cons.inj hseq).1
    have hseq₁ : movePage seq (h.allocator id).allocState id p (.slabs id) =
        .snode p :: seq (.slabs id) := by
      rw [movePage_slabs, if_pos rfl]
    rcases slabAt_next hOk₁ hid with ⟨hnil, -⟩ | ⟨q, rest', hq, -, hat⟩
    · rw [hseq₁] at hnil
      cases hnil
    · obtain rfl : p = q := by
        rw [hseq₁] at hq
        exact SlabNode.snode.inj (List.cons.inj hq).1
      rw [hcall, Option.bind_some, hat, Option.bind_some] at hfirst
      refine ⟨h₁, hfirst, ?_, hOk₁, hmoves, htally, hfree⟩
      simp only [allocatorAlloc, hfirst, Option.bind_eq_bind, Option.bind_some]

/-- `allocator_alloc` fails, or an item of the slab it looked at goes live. It reads a slab where
there is none only if the allocator has no slab and cannot get one. -/
theorem allocatorAlloc_spec (hOk : SlabHeapOk h pages ids seq live) (hid : id ∈ ids) :
    seq (.slabs id) = [] ∧ seq (.availSlabs (h.allocator id).allocState) = [] ∧
        allocatorFirst h id = none ∨
      ∃ first h₁ ret item h' seq', allocatorFirst h id = some (first, h₁) ∧
        allocatorAlloc h id = some (ret, item, h') ∧
        SlabHeapOk h' pages ids seq' ((item.bind fun item =>
          first.map fun first => (⟨id, item, first⟩ : LiveItem)).toList ++ live) ∧
        Moves h h' ids id seq seq' ∧ KeepsSlabs seq seq' ∧ Tallies h h' id seq seq' ∧
        AllocOutcome h seq seq' id ret := by
  by_cases hE : Exhausted h seq id
  · by_cases hno : ¬ Growable h id ∨ seq (.availSlabs (h.allocator id).allocState) = []
    · rcases allocatorAlloc_refused hOk hid hE hno with
        ⟨hgrow, hseq, hfirst, -⟩ | ⟨-, first, hfirst, hcall⟩
      · exact .inl ⟨hseq, hno.resolve_left (not_not_intro hgrow), hfirst⟩
      · exact .inr ⟨first, h, aENomem, none, h, seq, hfirst, hcall, hOk, Moves.refl _ _ _ _,
          fun _ hne => hne, Tallies.refl _ _ _, .refused hE hno fun _ => rfl⟩
    · push Not at hno
      obtain ⟨hgrow, hne⟩ := hno
      obtain ⟨y, rest, havail⟩ := List.exists_cons_of_ne_nil hne
      obtain ⟨p, -, rfl⟩ := hOk.page _ (availSlabs_mem_listHeads ids _) y
        (by rw [havail]; exact List.mem_cons_self)
      obtain ⟨h₁, hfirst, hcall, hOk₁, hmoves₁, htally₁, -⟩ :=
        allocatorAlloc_grown hOk hid hE hgrow havail
      have hseq₁ : movePage seq (h.allocator id).allocState id p (.slabs id) =
          .snode p :: seq (.slabs id) := by
        rw [movePage_slabs, if_pos rfl]
      rcases allocatorTake_spec hOk₁ hid hseq₁ with
        ⟨-, htake⟩ | ⟨-, item, h', seq', htake, hOk', hmoves', hr, htally', -⟩
      · exact .inr ⟨some p, h₁, _, _, _, _, hfirst, by rw [hcall, htake], hOk₁, hmoves₁,
          keepsSlabs_movePage, htally₁, .grown _ p rest hE hgrow havail (movePage_availSlabs havail)⟩
      · exact .inr ⟨some p, h₁, _, _, _, seq', hfirst, by rw [hcall, htake], hOk',
          hmoves₁.trans hmoves', keepsSlabs_movePage.trans hr.keepsSlabs, htally₁.trans htally',
          .grown _ p rest hE hgrow havail ((hr.avail _).trans (movePage_availSlabs havail))⟩
  · obtain ⟨p, rest, hseq, hpos, hfirst, hcall⟩ := allocatorAlloc_taken hOk hid hE
    rcases allocatorTake_spec hOk hid hseq with
      ⟨hzero, -⟩ | ⟨-, item, h', seq', htake, hOk', hmoves', hr, htally', -⟩
    · exact absurd hzero hpos
    · exact .inr ⟨some p, h, _, _, _, seq', hfirst, by rw [hcall, htake], hOk', hmoves',
        hr.keepsSlabs, htally', .taken hE hr.avail⟩

theorem setWord_ok (hOk : SlabHeapOk h pages ids seq live) {it : LiveItem} (hit : it ∈ live)
    {addr val : ℕ} (hlo : it.addr ≤ addr)
    (hhi : addr < it.addr + (h.allocator it.alloc).itemSize) :
    SlabHeapOk (h.setWord addr val) pages ids seq live := by
  obtain ⟨hid, hp, i, hi, haddr⟩ := hOk.liveItem it hit
  obtain ⟨free, hS⟩ := hOk.slab _ hid _ hp
  have hP := hOk.slabPage hid hp
  have hin := hP.item_mem hi
  rw [← haddr] at hin
  refine hOk.update_slab hid hp ⟨rfl, fun _ => rfl, fun _ => rfl, fun _ => rfl, fun _ _ => rfl,
    fun a ha => Function.update_of_ne ?_ _ _⟩ hOk.lists (fun _ _ => Iff.rfl) free
    (hS.chain_frame (fun j hj => Function.update_of_ne ?_ _ _)) (fun _ _ => Iff.rfl)
    (fun it' hit' => .inl hit') hOk.liveNodup
  · rintro rfl
    exact ha ⟨by omega, by omega⟩
  · -- no other item of the slab reaches into this one
    have hji : j ≠ i := by
      rintro rfl
      exact ((hS.mem_iff j).1 hj).2 ⟨it, hit, haddr⟩
    rcases Nat.lt_or_gt_of_ne hji with hlt | hgt
    · have := itemAddr_apart it.slab (h.allocator it.alloc).itemSize hlt
      have := hP.size_pos
      omega
    · have := itemAddr_apart it.slab (h.allocator it.alloc).itemSize hgt
      omega

theorem SlabHeapOk.live_apart (hOk : SlabHeapOk h pages ids seq live) {it it' : LiveItem}
    (hit : it ∈ live) (hit' : it' ∈ live) (hne : it.addr ≠ it'.addr) :
    it.addr + (h.allocator it.alloc).itemSize ≤ it'.addr ∨
      it'.addr + (h.allocator it'.alloc).itemSize ≤ it.addr := by
  obtain ⟨hid, hp, i, hi, haddr⟩ := hOk.liveItem it hit
  obtain ⟨hid', hp', i', hi', haddr'⟩ := hOk.liveItem it' hit'
  have hx := slabs_mem_listHeads hid
  have hx' := slabs_mem_listHeads hid'
  by_cases hslab : it.slab = it'.slab
  · -- in one slab, of one allocator
    have halloc := SlabNode.slabs.inj (hOk.eq_of_mem hx hx' hp (hslab ▸ hp'))
    rw [← halloc, ← hslab] at haddr'
    rw [← halloc, haddr, haddr']
    have hii : i ≠ i' := by
      rintro rfl
      exact hne (haddr.trans haddr'.symm)
    rcases Nat.lt_or_gt_of_ne hii with hlt | hgt
    · exact .inl (itemAddr_apart _ _ hlt)
    · exact .inr (itemAddr_apart _ _ hgt)
  · have hin := (hOk.slabPage hid hp).item_mem hi
    have hin' := (hOk.slabPage hid' hp').item_mem hi'
    have hapart := hOk.geometry.apart _ _ (hOk.mem_pages hx hp) _ _ (hOk.mem_pages hx' hp') hslab
    change it.slab + h.pageBytes it.alloc ≤ it'.slab ∨
      it'.slab + h.pageBytes it'.alloc ≤ it.slab at hapart
    omega

theorem listHeads_insert (ids : Set ℕ) (id : ℕ) :
    listHeads (insert id ids) = insert (.slabs id) (listHeads ids) := by
  ext x
  simp only [listHeads, Set.mem_insert_iff, Set.mem_ofPred_eq, exists_eq_or_imp]
  tauto

/-- What `malloc` returned for a new allocator is no head of a list, and no page. -/
theorem SlabHeapOk.outside_slabs (hOk : SlabHeapOk h pages ids seq live) (hid : id ∉ ids) :
    Outside (listHeads ids) seq (.slabs id) := by
  intro x hx hmem
  rcases List.mem_cons.1 hmem with rfl | hmem
  · rcases hx with ⟨cls, heq⟩ | ⟨id', hid', heq⟩
    · cases heq
    · exact hid (SlabNode.slabs.inj heq ▸ hid')
  · obtain ⟨q, -, heq⟩ := hOk.page x hx _ hmem
    cases heq

/-- A new allocator has no slabs yet. -/
theorem newAllocator_ok (hOk : SlabHeapOk h pages ids seq live) (hid : id ∉ ids) {a : Allocator}
    (hpos : 0 < a.itemSize) (haligned : 16 ∣ a.itemSize)
    (hmask : a.freeMask = 2 ^ 64 - 1 - (h.slabBytes a.allocState - 1)) :
    SlabHeapOk ((helperAllocatorNewInit h id).setAllocator id a) pages (insert id ids)
      (Function.update seq (.slabs id) []) live := by
  set h' := (helperAllocatorNewInit h id).setAllocator id a with hh'
  have hself : h'.allocator id = a := Function.update_self _ _ _
  have hother : ∀ id' ∈ ids, h'.allocator id' = h.allocator id' := by
    intro id' hid'
    have hne : id' ≠ id := fun heq => hid (heq ▸ hid')
    exact (Function.update_of_ne hne _ _).trans (Function.update_of_ne hne _ _)
  have hbytes : ∀ id' ∈ ids, h'.pageBytes id' = h.pageBytes id' := by
    intro id' hid'
    rw [SlabHeap.pageBytes, hother id' hid']
    rfl
  have hseq : ∀ id' ∈ ids, Function.update seq (.slabs id) [] (.slabs id') = seq (.slabs id') := by
    intro id' hid'
    have hne : SlabNode.slabs id' ≠ .slabs id := fun heq => hid (SlabNode.slabs.inj heq ▸ hid')
    exact Function.update_of_ne hne _ _
  have hnew := hOk.outside_slabs hid
  constructor
  · exact hOk.geometry
  · rw [listHeads_insert]
    exact lists_listInit_head _ hOk.lists hnew
  · rw [listHeads_insert]
    rintro x (rfl | hx) y hy
    · rw [Function.update_self] at hy
      cases hy
    · have hne : x ≠ .slabs id := fun heq => hnew x hx (heq ▸ List.mem_cons_self)
      rw [Function.update_of_ne hne] at hy
      have hcls : h'.classOf x = h.classOf x := by
        rcases hx with ⟨cls, rfl⟩ | ⟨id', hid', rfl⟩
        · rfl
        · exact congrArg Allocator.allocState (hother id' hid')
      rw [hcls]
      exact hOk.page x hx y hy
  · rintro id' (rfl | hid')
    · refine ⟨by rwa [hself], by rwa [hself], ?_⟩
      rw [SlabHeap.pageBytes, hself]
      exact hmask
    · obtain ⟨hpos', haligned', hmask'⟩ := hOk.allocator id' hid'
      rw [← hother id' hid'] at hpos' haligned' hmask'
      exact ⟨hpos', haligned', by rwa [hbytes id' hid']⟩
  · rintro id' (rfl | hid') q hq
    · rw [Function.update_self] at hq
      cases hq
    · rw [hseq id' hid'] at hq
      rw [hother id' hid', hbytes id' hid']
      exact hOk.slab id' hid' q hq
  · intro it hit
    obtain ⟨hid', hslab, hi⟩ := hOk.liveItem it hit
    refine ⟨.inr hid', ?_, ?_⟩
    · rw [hseq _ hid']
      exact hslab
    · rw [hother _ hid', hbytes _ hid']
      exact hi
  · exact hOk.liveNodup

theorem sixteen_dvd_round16 (x : ℕ) : 16 ∣ round16 x := by
  rw [round16, Nat.shiftLeft_eq]
  exact Nat.dvd_mul_left _ _

theorem round16_pos {x : ℕ} (hpos : 0 < x) (hx : x + 15 < 2 ^ 64) : 0 < round16 x := by
  rw [round16, Nat.shiftLeft_eq, Nat.shiftRight_eq_div_pow, Nat.mod_eq_of_lt hx]
  omega

/-- The class `allocator_new` takes its pages from. -/
def classOfFlags (flags : ℕ) : SlabClassId :=
  if flags &&& allocFlagHugePage ≠ 0 then .hugeSlabs else .normalSlabs

/-- How many pages it needs. -/
def pagesNeeded (h : SlabHeap) (itemSize itemCount flags : ℕ) : ℕ :=
  let itemsPerSlab := h.slabBytes (classOfFlags flags) / round16 itemSize
  (itemCount + itemsPerSlab - 1) % 2 ^ 64 / itemsPerSlab

/-- `allocator_new` fails before it asks for a page. An item that is empty, or so large that its
    rounded size wraps to 0, does not fit on a page either. -/
def Rejected (h : SlabHeap) (itemSize itemCount flags : ℕ) (malloc : Option ℕ) : Prop :=
  itemCount = 0 ∨ h.slabBytes (classOfFlags flags) / round16 itemSize = 0 ∨ malloc = none

/-- What `allocator_new` does to the lists, with the first `count` available pages moved to the
    allocator `new`. -/
structure NewAllocator (h h' : SlabHeap) (ids : Set ℕ) (seq seq' : SlabNode → List SlabNode)
    (cls : SlabClassId) (new count : ℕ) : Prop where
  slabs : seq' (.slabs new) = ((seq (.availSlabs cls)).take count).reverse
  avail : seq' (.availSlabs cls) = (seq (.availSlabs cls)).drop count
  others : ∀ id ∈ ids, seq' (.slabs id) = seq (.slabs id)
  availOthers : ∀ cls', cls' ≠ cls → seq' (.availSlabs cls') = seq (.availSlabs cls')
  ordered : (∀ id ∈ ids, h.Ordered (seq (.slabs id))) →
    ∀ id ∈ insert new ids, h'.Ordered (seq' (.slabs id))

theorem NewAllocator.onList {h' : SlabHeap} {seq' : SlabNode → List SlabNode} {cls : SlabClassId}
    {new count : ℕ} (hN : NewAllocator h h' ids seq seq' cls new count) :
    ∀ x ∈ listHeads ids, ∀ y ∈ seq x, ∃ x' ∈ listHeads (insert new ids), y ∈ seq' x' := by
  rintro x (⟨cls', rfl⟩ | ⟨id, hid, rfl⟩) y hy
  · by_cases hcls : cls' = cls
    · subst hcls
      rw [← List.take_append_drop count (seq (.availSlabs cls')), List.mem_append] at hy
      rcases hy with hy | hy
      · refine ⟨_, slabs_mem_listHeads (Set.mem_insert new ids), ?_⟩
        rw [hN.slabs]
        exact List.mem_reverse.2 hy
      · refine ⟨_, availSlabs_mem_listHeads _ cls', ?_⟩
        rwa [hN.avail]
    · refine ⟨_, availSlabs_mem_listHeads _ cls', ?_⟩
      rwa [hN.availOthers cls' hcls]
  · refine ⟨_, slabs_mem_listHeads (Set.mem_insert_of_mem new hid), ?_⟩
    rwa [hN.others id hid]

/-- What `allocator_new` writes into the new allocator. Its `max_items` is right, and that of the others
    still. -/
structure NewTally (h h' : SlabHeap) (ids : Set ℕ) (seq seq' : SlabNode → List SlabNode)
    (new itemSize : ℕ) (cls : SlabClassId) : Prop where
  itemSize : (h'.allocator new).itemSize = itemSize
  pageBytes : h'.pageBytes new = h.slabBytes cls
  mine : Tally h' seq' new
  others : ∀ id ∈ ids, Tally h seq id → Tally h' seq' id

theorem newAllocator_grab (hOk : SlabHeapOk h pages ids seq live) {new : ℕ} (hnew : new ∉ ids)
    {a : Allocator} (hpos : 0 < a.itemSize) (haligned : 16 ∣ a.itemSize) (hmax : a.maxItems = 0)
    (hmask : a.freeMask = 2 ^ 64 - 1 - (h.slabBytes a.allocState - 1)) (count : ℕ) :
    ∃ h' seq', grabPages ((helperAllocatorNewInit h new).setAllocator new a) new a.allocState
        (h.slabBytes a.allocState) count =
          some (if count ≤ (seq (.availSlabs a.allocState)).length then aOk else aENomem, h') ∧
      SlabHeapOk h' pages (insert new ids) seq' live ∧
      NewAllocator h h' ids seq seq' a.allocState new count ∧
      NewTally h h' ids seq seq' new a.itemSize a.allocState := by
  have hOk₁ := newAllocator_ok hOk hnew hpos haligned hmask
  set h₁ := (helperAllocatorNewInit h new).setAllocator new a with hh₁
  have hself : h₁.allocator new = a := Function.update_self _ _ _
  set seq₁ := Function.update seq (.slabs new) [] with hseq₁
  have hmine : seq₁ (.slabs new) = [] := Function.update_self _ _ _
  have havail : ∀ cls, seq₁ (.availSlabs cls) = seq (.availSlabs cls) := fun cls =>
    Function.update_of_ne (by simp) _ _
  have hne : ∀ id ∈ ids, id ≠ new := fun id hid heq => hnew (heq ▸ hid)
  have hothers : ∀ id ∈ ids, seq₁ (.slabs id) = seq (.slabs id) := fun id hid =>
    Function.update_of_ne (fun heq => hne id hid (SlabNode.slabs.inj heq)) _ _
  obtain ⟨h', hgrab, hOk', hmoves, htally⟩ := grabPages_spec (Set.mem_insert new ids) a.allocState
    (h.slabBytes a.allocState) count hOk₁ (by rw [hself]) rfl (by
      intro y hy
      rw [hmine] at hy
      cases hy)
  rw [havail] at hgrab
  have hslabs : ∀ id ∈ ids, movePages seq₁ a.allocState new count (.slabs id) = seq (.slabs id) :=
    fun id hid => by rw [movePages_slabs, if_neg (hne id hid), hothers id hid]
  refine ⟨h', _, hgrab, hOk', ⟨?_, ?_, hslabs, fun cls' hcls => ?_, fun hord => ?_⟩, ?_, ?_, ?_,
    fun id hid ht => ?_⟩
  · rw [movePages_slabs, if_pos rfl, hmine, List.append_nil, havail]
  · rw [movePages_availSlabs, havail]
  · rw [movePages, Function.update_of_ne (by simp),
      Function.update_of_ne (fun heq => hcls (SlabNode.availSlabs.inj heq)), havail]
  · apply hmoves.ordered
    rintro id (rfl | hid)
    · rw [hmine]
      exact List.Pairwise.nil
    · rw [hothers id hid]
      exact (hord id hid).congr fun y _ => by cases y <;> rfl
  · rw [htally.itemSize, hself]
  · rw [SlabHeap.pageBytes, htally.slabBytes, htally.allocState, hself]
    rfl
  · refine htally.mine ?_
    rw [Tally, hmine, hself, hmax, List.length_nil, Nat.zero_mul]
  · have hsame : h₁.allocator id = h.allocator id :=
      (Function.update_of_ne (hne id hid) _ _).trans (Function.update_of_ne (hne id hid) _ _)
    refine htally.other (hne id hid) (by rw [hslabs id hid, hothers id hid]) ?_
    rw [Tally, hothers id hid, SlabHeap.pageBytes, hsame]
    exact ht

/-- `allocator_new` divides by zero, is rejected before it touches anything, or moves the pages it
needs, or all there are, to a new allocator, which the client gets only if there were enough. -/
theorem allocatorNew_cases (hOk : SlabHeapOk h pages ids seq live) (itemSize itemCount flags : ℕ)
    {malloc : Option ℕ} (hfresh : ∀ id, malloc = some id → id ∉ ids) :
    allocatorNew h itemSize itemCount flags malloc = none ∧ round16 itemSize = 0 ∨
      (∃ ret, allocatorNew h itemSize itemCount flags malloc = some (ret, none, h) ∧
        afailed ret = true ∧ Rejected h itemSize itemCount flags malloc) ∨
      ∃ new ret h' seq', malloc = some new ∧
        h.slabBytes (classOfFlags flags) / round16 itemSize ≠ 0 ∧ itemCount ≠ 0 ∧
        ret = (if pagesNeeded h itemSize itemCount flags ≤
          (seq (.availSlabs (classOfFlags flags))).length then aOk else aENomem) ∧
        allocatorNew h itemSize itemCount flags malloc =
          some (ret, if afailed ret then none else some new, h') ∧
        SlabHeapOk h' pages (insert new ids) seq' live ∧
        NewAllocator h h' ids seq seq' (classOfFlags flags) new
          (pagesNeeded h itemSize itemCount flags) ∧
        NewTally h h' ids seq seq' new (round16 itemSize) (classOfFlags flags) := by
  have hcls : (if flags &&& allocFlagHugePage ≠ 0 then SlabClassId.hugeSlabs else .normalSlabs) =
      classOfFlags flags := rfl
  simp only [allocatorNew, hcls]
  by_cases hargs : itemSize = 0 ∨ itemCount = 0
  · rw [if_pos hargs]
    refine .inr (.inl ⟨_, rfl, afailed_aresultError _ _, ?_⟩)
    rcases hargs with rfl | hcount
    · exact .inr (.inl (Nat.div_zero _))
    · exact .inl hcount
  by_cases hround : round16 itemSize = 0
  · rw [if_neg hargs, if_pos hround]
    exact .inl ⟨rfl, hround⟩
  rw [if_neg hargs, if_neg hround]
  by_cases hslab : h.slabBytes (classOfFlags flags) / round16 itemSize = 0
  · rw [if_pos hslab]
    exact .inr (.inl ⟨_, rfl, afailed_aresultError _ _, .inr (.inl hslab)⟩)
  rw [if_neg hslab]
  cases malloc with
  | none => exact .inr (.inl ⟨_, rfl, afailed_aresultError _ _, .inr (.inr rfl)⟩)
  | some new =>
      simp only
      set a : Allocator := { (helperAllocatorNewInit h new).allocator new with
        itemSize := round16 itemSize
        freeMask := 2 ^ 64 - 1 - (h.slabBytes (classOfFlags flags) - 1)
        allocState := classOfFlags flags } with ha
      have hmax : a.maxItems = 0 := by
        simp [ha, helperAllocatorNewInit, SlabHeap.setAllocator]
      obtain ⟨h', seq', hgrab, hOk', hN, hT⟩ := newAllocator_grab (a := a) hOk (hfresh new rfl)
        (Nat.pos_of_ne_zero hround) (sixteen_dvd_round16 itemSize) hmax rfl
        (pagesNeeded h itemSize itemCount flags)
      refine .inr (.inr ⟨new, _, h', seq', rfl, hslab, fun hzero => hargs (.inr hzero), rfl, ?_,
        hOk', hN, hT⟩)
      change (grabPages _ new a.allocState (h.slabBytes a.allocState)
        (pagesNeeded h itemSize itemCount flags) >>= _) = _
      rw [hgrab]
      rfl

theorem NewAllocator.slabs_ne_nil {h' : SlabHeap} {seq' : SlabNode → List SlabNode}
    {itemSize itemCount flags new : ℕ} {ret : AResult}
    (hN : NewAllocator h h' ids seq seq' (classOfFlags flags) new
      (pagesNeeded h itemSize itemCount flags)) (hpos : itemCount ≠ 0)
    (hslab : h.slabBytes (classOfFlags flags) / round16 itemSize ≠ 0)
    (hcount : itemCount + h.slabBytes (classOfFlags flags) / round16 itemSize - 1 < 2 ^ 64)
    (hret : ret = if pagesNeeded h itemSize itemCount flags ≤
      (seq (.availSlabs (classOfFlags flags))).length then aOk else aENomem)
    (hok : afailed ret = false) : seq' (.slabs new) ≠ [] := by
  have hneeded : 0 < pagesNeeded h itemSize itemCount flags := by
    rw [pagesNeeded, Nat.mod_eq_of_lt hcount]
    exact Nat.div_pos (by omega) (Nat.pos_of_ne_zero hslab)
  have hle : pagesNeeded h itemSize itemCount flags ≤
      (seq (.availSlabs (classOfFlags flags))).length := by
    by_contra hgt
    rw [hret, if_neg hgt, aENomem, afailed_aresultError] at hok
    cases hok
  rw [hN.slabs]
  intro hnil
  have hlen := congrArg List.length hnil
  rw [List.length_reverse, List.length_take, List.length_nil] at hlen
  omega

theorem allocatorNew_spec (hOk : SlabHeapOk h pages ids seq live) {itemSize itemCount flags : ℕ}
    {malloc : Option ℕ} (hfresh : ∀ id, malloc = some id → id ∉ ids)
    (hsize : itemSize + 15 < 2 ^ 64)
    (hcount : itemCount + h.slabBytes (classOfFlags flags) / round16 itemSize - 1 < 2 ^ 64) :
    (∃ ret, allocatorNew h itemSize itemCount flags malloc = some (ret, none, h)) ∨
      ∃ new ret h' seq', malloc = some new ∧ allocatorNew h itemSize itemCount flags malloc =
          some (ret, if afailed ret then none else some new, h') ∧
        SlabHeapOk h' pages (insert new ids) seq' live ∧
        (∀ id ∈ ids, seq' (.slabs id) = seq (.slabs id)) ∧
        (afailed ret = false → seq' (.slabs new) ≠ []) := by
  rcases allocatorNew_cases hOk itemSize itemCount flags hfresh with
    ⟨hfault, hround⟩ | ⟨ret, hnew, -⟩ | ⟨new, ret, h', seq', rfl, hslab, hpos, hret, hnew, hOk', hN, -⟩
  · rcases Nat.eq_zero_or_pos itemSize with rfl | hpos
    · exact .inl ⟨_, if_pos (.inl rfl)⟩
    · exact absurd hround (Nat.ne_of_gt (round16_pos hpos hsize))
  · exact .inl ⟨ret, hnew⟩
  · exact .inr ⟨new, ret, h', seq', rfl, hnew, hOk', hN.others,
      hN.slabs_ne_nil hpos hslab hcount hret⟩

end Calls

/-! ## Runs -/

section Runs

variable {pages : SlabClassId → Set ℕ} {s s' : SlabRun}

/-- One call keeps the invariant. -/
theorem slabStep_inv (s : SlabRun) (c : AllocatorCall) (s' : SlabRun) (hI : s.Inv pages)
    (hG : NoWrap s c) (hstep : slabStep s c = some s') : s'.Inv pages := by
  obtain ⟨ids, seq, hOk, hmallocs, hallocs⟩ := hI
  cases c with
  | new itemSize itemCount flags malloc =>
      simp only [slabStep] at hstep
      split at hstep
      · next hfresh =>
        rcases allocatorNew_spec hOk (fun id heq hid => hfresh id heq (hmallocs id hid)) hG.1 hG.2
          with ⟨ret, hnew⟩ | ⟨new, ret, h', seq', rfl, hnew, hOk', hothers, hgot⟩
        · simp only [hnew, Option.bind_eq_bind, Option.bind_some, Option.some.injEq] at hstep
          subst hstep
          exact ⟨ids, seq, hOk, fun id hid => List.mem_append_right _ (hmallocs id hid), hallocs⟩
        · simp only [hnew, Option.bind_eq_bind, Option.bind_some, Option.some.injEq] at hstep
          subst hstep
          refine ⟨insert new ids, seq', hOk', ?_, fun id hid => ?_⟩
          · rintro id (rfl | hid)
            · exact List.mem_cons_self
            · exact List.mem_cons_of_mem _ (hmallocs id hid)
          · rcases List.mem_append.1 hid with hid | hid
            · cases hret : afailed ret with
              | true => simp [hret] at hid
              | false =>
                  obtain rfl : id = new := by simpa [hret] using hid
                  exact ⟨.inl rfl, hgot hret⟩
            · obtain ⟨hid', hne⟩ := hallocs id hid
              exact ⟨.inr hid', by rwa [hothers id hid']⟩
      · cases hstep
  | alloc alloc =>
      simp only [slabStep] at hstep
      split at hstep
      · next halloc =>
        obtain ⟨hid, hne⟩ := hallocs alloc halloc
        obtain ⟨first, h₁, ret, item, h', seq', hfirst, hcall, hOk', -, hkeep, -⟩ :=
          (allocatorAlloc_spec hOk hid).resolve_left fun hnil => hne hnil.1
        simp only [hfirst, hcall, Option.bind_eq_bind, Option.bind_some, Option.some.injEq] at hstep
        subst hstep
        exact ⟨ids, seq', hOk', hmallocs, fun id hid =>
          ⟨(hallocs id hid).1, hkeep id (hallocs id hid).2⟩⟩
      · cases hstep
  | free item =>
      simp only [slabStep] at hstep
      split at hstep
      · next hlive =>
        obtain ⟨h', seq', hfree, hOk', -, -, -, hfreed⟩ := allocatorFree_spec hOk hlive.1
        rw [hfree, Option.some.injEq] at hstep
        subst hstep
        exact ⟨ids, seq', hOk', hmallocs, fun id hid =>
          ⟨(hallocs id hid).1, hfreed.keepsSlabs id (hallocs id hid).2⟩⟩
      · cases hstep
  | write item addr val =>
      simp only [slabStep] at hstep
      split at hstep
      · next hwrite =>
        obtain ⟨hlive, hlo, hhi, -⟩ := hwrite
        rw [Option.some.injEq] at hstep
        subst hstep
        exact ⟨ids, seq, setWord_ok hOk hlive hlo (by omega), hmallocs, hallocs⟩
      · cases hstep

/-- The invariant says what the clients may rely on. -/
theorem SlabRun.Inv.slabSafe (hI : s.Inv pages) : SlabSafe s := by
  obtain ⟨ids, seq, hOk, -, hallocs⟩ := hI
  have hitem : ∀ it ∈ s.live,
      SlabPage it.slab (s.heap.allocator it.alloc).itemSize (s.heap.pageBytes it.alloc) ∧
      it.slab + firstObjOffset ≤ it.addr ∧
      it.addr + (s.heap.allocator it.alloc).itemSize ≤ it.slab + s.heap.pageBytes it.alloc := by
    intro it hit
    obtain ⟨hid, hp, i, hi, haddr⟩ := hOk.liveItem it hit
    have hP := hOk.slabPage hid hp
    exact ⟨hP, haddr ▸ hP.item_mem hi⟩
  constructor
  · intro it hit
    obtain ⟨hid, hp, i, -, haddr⟩ := hOk.liveItem it hit
    exact haddr ▸ (hOk.slabPage hid hp).itemAddr_aligned i
  · intro it hit
    obtain ⟨-, hlo, hhi⟩ := hitem it hit
    have hsizeof : sizeofSlab ≤ firstObjOffset := by decide
    exact ⟨by omega, hhi⟩
  · intro it hit
    obtain ⟨hP, hlo, hhi⟩ := hitem it hit
    have hpos := hP.size_pos
    rw [(hOk.allocator _ (hOk.liveItem it hit).1).freeMask]
    exact hP.and_mask (by omega) (by omega)
  · exact (List.pairwise_map.1 hOk.liveNodup).imp_of_mem fun hit hit' hne =>
      hOk.live_apart hit hit' hne
  · intro id hid
    obtain ⟨hid', -⟩ := hallocs id hid
    refine ⟨seq (.slabs id), hOk.lists.isList (slabs_mem_listHeads hid'), ?_, fun p hp => ?_⟩
    · rintro it hit rfl
      exact (hOk.liveItem it hit).2.1
    · obtain ⟨free, hS⟩ := hOk.slab id hid' p hp
      classical
      rw [hS.count_eq]
      congr 1
      refine List.filter_congr fun i _ => ?_
      rw [decide_eq_decide, liveAddrs, Set.mem_ofPred_eq]
      push Not
      rfl
  · intro id hid
    obtain ⟨hid', hne⟩ := hallocs id hid
    obtain ⟨_, _, _, _, _, _, -, hcall, -⟩ :=
      (allocatorAlloc_spec hOk hid').resolve_left fun hnil => hne hnil.1
    rw [hcall]
    rfl

end Runs

/-! ## From the start -/

/-- Where `mmap` put the pages of a class. -/
structure PageRegion where
  count : ℕ
  bytes : ℕ
  base : ℕ

/-- `count` aligned pages of a power of two in the address space. -/
structure PageRegion.Ok (r : PageRegion) : Prop where
  bytes_pow : ∃ k, 12 ≤ k ∧ k ≤ 31 ∧ r.bytes = 2 ^ k
  aligned : r.bytes ∣ r.base
  below : r.base + r.count * r.bytes ≤ 2 ^ 64

/-- The static initialiser of `mgr`, in a memory with any content. -/
def slabManager (mem : SlabHeap) : SlabHeap :=
  { mem with
    links := listInit (listInit mem.links (.availSlabs .normalSlabs)) (.availSlabs .hugeSlabs)
    slabBytes := fun _ => 0 }

/-- `allocator_subsystem_init`, and no allocator yet. -/
def slabRunInit (mem : SlabHeap) (region : SlabClassId → PageRegion) : SlabRun :=
  let normal := region .normalSlabs
  let huge := region .hugeSlabs
  let h := allocatorSubsystemInitPageClass (slabManager mem) .normalSlabs normal.count normal.bytes
    normal.base
  { heap := allocatorSubsystemInitPageClass h .hugeSlabs huge.count huge.bytes huge.base
    mallocs := []
    allocators := []
    live := [] }

section Start

variable {region : SlabClassId → PageRegion}

/-- The pages of a class. -/
def pagesOf (region : SlabClassId → PageRegion) (cls : SlabClassId) : Set ℕ :=
  { p | ∃ i < (region cls).count, p = (region cls).base + i * (region cls).bytes }

/-- Every page in turn goes to the end of the list of its class. -/
theorem makeAvailable_spec {heads : Set SlabNode} {cls : SlabClassId}
    (hcls : SlabNode.availSlabs cls ∈ heads) {bytes : ℕ} (hbytes : 0 < bytes) (count : ℕ) :
    ∀ links seq page, Lists links heads seq →
      (∀ i < count, Outside heads seq (.snode (page + i * bytes))) →
      ∃ seq', Lists (makeAvailable links cls bytes count page) heads seq' ∧
        (∀ x, x ≠ .availSlabs cls → seq' x = seq x) ∧
        ∀ y, y ∈ seq' (.availSlabs cls) ↔ y ∈ seq (.availSlabs cls) ∨
          ∃ i < count, y = .snode (page + i * bytes) := by
  induction count with
  | zero => exact fun _ seq _ hlists _ => ⟨seq, hlists, fun _ _ => rfl, by simp⟩
  | succ count ih =>
      intro links seq page hlists hout
      have hpage : Outside heads seq (.snode page) := by
        have := hout 0 (Nat.succ_pos _)
        rwa [Nat.zero_mul, Nat.add_zero] at this
      have hnext : ∀ i, page + bytes + i * bytes = page + (i + 1) * bytes := fun i => by
        rw [Nat.add_mul, Nat.one_mul]
        omega
      obtain ⟨seq', hlists', hother, hmem⟩ := ih _ _ (page + bytes)
        (lists_listAppend (lists_listInit hlists hpage) hcls hpage) (by
          intro i hi x hx hin
          have hout' := hout (i + 1) (by omega) x hx
          rw [hnext] at hin
          by_cases hxc : x = .availSlabs cls
          · subst hxc
            rw [Function.update_self] at hin
            rcases List.mem_cons.1 hin with heq | hin
            · cases heq
            · rcases List.mem_append.1 hin with hin | hin
              · exact hout' (List.mem_cons_of_mem _ hin)
              · have heq := SlabNode.snode.inj (List.mem_singleton.1 hin)
                have hpos := Nat.mul_pos (Nat.succ_pos i) hbytes
                rw [Nat.succ_eq_add_one] at hpos
                omega
          · rw [Function.update_of_ne hxc] at hin
            exact hout' hin)
      refine ⟨seq', hlists', fun x hx => ?_, fun y => ?_⟩
      · rw [hother x hx, Function.update_of_ne hx]
      · rw [hmem y, Function.update_self, List.mem_append, List.mem_singleton]
        constructor
        · rintro ((hold | rfl) | ⟨i, hi, rfl⟩)
          · exact .inl hold
          · exact .inr ⟨0, Nat.succ_pos _, by rw [Nat.zero_mul, Nat.add_zero]⟩
          · exact .inr ⟨i + 1, by omega, by rw [hnext]⟩
        · rintro (hold | ⟨i, hi, rfl⟩)
          · exact .inl (.inl hold)
          · cases i with
            | zero => exact .inl (.inr (by rw [Nat.zero_mul, Nat.add_zero]))
            | succ i => exact .inr ⟨i, by omega, by rw [hnext]⟩

theorem initPageClass_spec {heads : Set SlabNode} {cls : SlabClassId} {r : PageRegion} (hr : r.Ok)
    (hcls : SlabNode.availSlabs cls ∈ heads) {h : SlabHeap} {seq : SlabNode → List SlabNode}
    (hlists : Lists h.links heads seq) (hempty : seq (.availSlabs cls) = [])
    (hout : ∀ i < r.count, Outside heads seq (.snode (r.base + i * r.bytes))) :
    ∃ seq', Lists (allocatorSubsystemInitPageClass h cls r.count r.bytes r.base).links heads seq' ∧
      (∀ x, x ≠ .availSlabs cls → seq' x = seq x) ∧
      ∀ y, y ∈ seq' (.availSlabs cls) ↔ ∃ i < r.count, y = .snode (r.base + i * r.bytes) := by
  obtain ⟨k, -, -, hk⟩ := hr.bytes_pow
  unfold allocatorSubsystemInitPageClass
  split
  · next hcount => exact ⟨seq, hlists, fun _ _ => rfl, by simp [hempty, hcount]⟩
  · obtain ⟨seq', hlists', hother, hmem⟩ := makeAvailable_spec hcls
      (hk ▸ Nat.two_pow_pos k) r.count _ _ _ hlists hout
    refine ⟨seq', hlists', hother, fun y => ?_⟩
    rw [hmem y, hempty]
    exact or_iff_right List.not_mem_nil

theorem page_apart {base bytes i j : ℕ} (hij : i < j) :
    base + i * bytes + bytes ≤ base + j * bytes := by
  have hmul := Nat.mul_le_mul_right bytes (Nat.succ_le_of_lt hij)
  rw [Nat.succ_eq_add_one, Nat.add_mul, Nat.one_mul] at hmul
  omega

theorem page_end {r : PageRegion} {i : ℕ} (hi : i < r.count) :
    r.base + i * r.bytes + r.bytes ≤ r.base + r.count * r.bytes := page_apart hi

theorem pages_init (bytes : SlabClassId → ℕ) (hregion : ∀ cls, (region cls).Ok)
    (hapart : ∀ cls cls', cls ≠ cls' →
      (region cls).base + (region cls).count * (region cls).bytes ≤ (region cls').base ∨
      (region cls').base + (region cls').count * (region cls').bytes ≤ (region cls).base)
    (hbytes : ∀ cls, (region cls).count ≠ 0 → bytes cls = (region cls).bytes) :
    Pages bytes (pagesOf region) := by
  have hsize : ∀ c, ∀ i < (region c).count, bytes c = (region c).bytes := fun c i hi =>
    hbytes c (by omega)
  have hpos : ∀ c, 0 < (region c).bytes := fun c => by
    obtain ⟨k, -, -, hk⟩ := (hregion c).bytes_pow
    rw [hk]
    exact Nat.two_pow_pos k
  constructor
  · rintro c p ⟨i, hi, rfl⟩
    rw [hsize c i hi]
    exact (hregion c).bytes_pow
  · rintro c p ⟨i, hi, rfl⟩
    rw [hsize c i hi]
    exact Nat.dvd_add (hregion c).aligned (Nat.dvd_mul_left _ _)
  · rintro c p ⟨i, hi, rfl⟩
    rw [hsize c i hi]
    exact Nat.le_trans (page_end hi) (hregion c).below
  · rintro c p ⟨i, hi, rfl⟩ d q ⟨j, hj, rfl⟩ hne
    rw [hsize c i hi, hsize d j hj]
    by_cases hcd : c = d
    · subst hcd
      have hij : i ≠ j := fun heq => hne (by rw [heq])
      rcases Nat.lt_or_gt_of_ne hij with hlt | hgt
      · exact .inl (page_apart hlt)
      · exact .inr (page_apart hgt)
    · have hi' := page_end hi
      have hj' := page_end hj
      have := hapart c d hcd
      omega
  · rintro c d p ⟨i, hi, rfl⟩ ⟨j, hj, heq⟩
    by_contra hcd
    have hi' := page_end hi
    have hj' := page_end hj
    have := hapart c d hcd
    have := hpos c
    have := hpos d
    omega

theorem lists_slabManager (mem : SlabHeap) :
    Lists (slabManager mem).links (listHeads ∅) fun _ => [] := by
  have hnone : Lists mem.links ∅ fun _ => [] := ⟨by simp, by simp⟩
  have hnormal := lists_listInit_head (.availSlabs .normalSlabs) hnone (by simp [Outside])
  rw [Function.update_eq_self_iff.2 rfl] at hnormal
  have hhuge := lists_listInit_head (.availSlabs .hugeSlabs) hnormal (by simp [Outside])
  rw [Function.update_eq_self_iff.2 rfl] at hhuge
  have hheads : listHeads ∅ =
      insert (SlabNode.availSlabs .hugeSlabs) (insert (.availSlabs .normalSlabs) ∅) := by
    ext x
    constructor
    · rintro (⟨cls, rfl⟩ | ⟨id, hid, -⟩)
      · cases cls with
        | normalSlabs => exact .inr (.inl rfl)
        | hugeSlabs => exact .inl rfl
      · exact absurd hid (by simp)
    · rintro (rfl | rfl | hx)
      · exact availSlabs_mem_listHeads _ _
      · exact availSlabs_mem_listHeads _ _
      · exact absurd hx (by simp)
  rw [hheads]
  exact hhuge

/-- After initialisation, every page of a class is available. -/
theorem slabRunInit_ok (mem : SlabHeap) (hregion : ∀ cls, (region cls).Ok)
    (hapart : ∀ cls cls', cls ≠ cls' →
      (region cls).base + (region cls).count * (region cls).bytes ≤ (region cls').base ∨
      (region cls').base + (region cls').count * (region cls').bytes ≤ (region cls).base) :
    ∃ seq, SlabHeapOk (slabRunInit mem region).heap (pagesOf region) ∅ seq [] ∧
      ∀ cls, ∀ p ∈ pagesOf region cls, .snode p ∈ seq (.availSlabs cls) := by
  have hgeo := pages_init (slabRunInit mem region).heap.slabBytes hregion hapart (by
    intro cls hcount
    simp only [slabRunInit, allocatorSubsystemInitPageClass]
    cases cls with
    | normalSlabs =>
        rw [if_neg hcount]
        split <;> simp
    | hugeSlabs => simp [hcount])
  have hheads : ∀ x ∈ listHeads ∅, ∃ cls, x = .availSlabs cls := by
    rintro x (hx | ⟨id, hid, -⟩)
    · exact hx
    · exact absurd hid (by simp)
  obtain ⟨seq₁, hlists₁, hother₁, hmem₁⟩ := initPageClass_spec (hregion .normalSlabs)
    (availSlabs_mem_listHeads ∅ .normalSlabs) (lists_slabManager mem) rfl (by
      intro i _ x hx hin
      obtain ⟨cls, rfl⟩ := hheads x hx
      simp at hin)
  have hhuge₁ : seq₁ (.availSlabs .hugeSlabs) = [] := hother₁ _ (by simp)
  obtain ⟨seq₂, hlists₂, hother₂, hmem₂⟩ := initPageClass_spec (hregion .hugeSlabs)
    (availSlabs_mem_listHeads ∅ .hugeSlabs) hlists₁ hhuge₁ (by
      intro i hi x hx hin
      obtain ⟨cls, rfl⟩ := hheads x hx
      cases cls with
      | hugeSlabs => simp [hhuge₁] at hin
      | normalSlabs =>
          obtain ⟨j, hj, heq⟩ := (hmem₁ _).1 (by simpa using hin)
          have heq' := SlabNode.snode.inj heq
          have hi' := page_end hi
          have hj' := page_end hj
          have := hapart .normalSlabs .hugeSlabs (by decide)
          obtain ⟨k, -, -, hk⟩ := (hregion .hugeSlabs).bytes_pow
          obtain ⟨k', -, -, hk'⟩ := (hregion .normalSlabs).bytes_pow
          have hpos := Nat.two_pow_pos k
          have hpos' := Nat.two_pow_pos k'
          omega)
  have hmem : ∀ cls y, y ∈ seq₂ (.availSlabs cls) ↔ ∃ p ∈ pagesOf region cls, y = .snode p := by
    intro cls y
    have hpage : (∃ p ∈ pagesOf region cls, y = .snode p) ↔ ∃ i < (region cls).count,
        y = .snode ((region cls).base + i * (region cls).bytes) := by
      constructor
      · rintro ⟨p, ⟨i, hi, rfl⟩, hy⟩
        exact ⟨i, hi, hy⟩
      · rintro ⟨i, hi, hy⟩
        exact ⟨_, ⟨i, hi, rfl⟩, hy⟩
    rw [hpage]
    cases cls with
    | hugeSlabs => exact hmem₂ y
    | normalSlabs =>
        rw [hother₂ _ (by simp)]
        exact hmem₁ y
  refine ⟨seq₂, ⟨hgeo, hlists₂, ?_, by simp, by simp, by simp, List.nodup_nil⟩,
    fun cls p hp => (hmem cls _).2 ⟨p, hp, rfl⟩⟩
  intro x hx y hy
  obtain ⟨cls, rfl⟩ := hheads x hx
  exact (hmem cls y).1 hy

theorem slabRunInit_inv (mem : SlabHeap) (hregion : ∀ cls, (region cls).Ok)
    (hapart : ∀ cls cls', cls ≠ cls' →
      (region cls).base + (region cls).count * (region cls).bytes ≤ (region cls').base ∨
      (region cls').base + (region cls').count * (region cls').bytes ≤ (region cls).base) :
    (slabRunInit mem region).Inv (pagesOf region) := by
  obtain ⟨seq, hOk, -⟩ := slabRunInit_ok mem hregion hapart
  exact ⟨∅, seq, hOk, by simp, by simp [slabRunInit]⟩

/-- **Safety of the slab allocator**: in every run in which no size computation wraps, on any
memory, with aligned pages. -/
theorem slabSafe_of_run (mem : SlabHeap) (hregion : ∀ cls, (region cls).Ok)
    (hapart : ∀ cls cls', cls ≠ cls' →
      (region cls).base + (region cls).count * (region cls).bytes ≤ (region cls').base ∨
      (region cls').base + (region cls').count * (region cls').bytes ≤ (region cls).base)
    (run : List AllocatorCall) (hsmall : Meets slabStep NoWrap (slabRunInit mem region) run) :
    Throughout slabStep SlabSafe (slabRunInit mem region) run :=
  throughout_of_meets slabStep_inv (fun _ hI => hI.slabSafe) run _
    (slabRunInit_inv mem hregion hapart) hsmall

end Start

/-! ## Two allocators -/

/-- Three pages of 4 KiB and no huge ones. -/
def threePages : SlabClassId → PageRegion
  | .normalSlabs => { count := 3, bytes := 4096, base := 65536 }
  | .hugeSlabs => { count := 0, bytes := 2 ^ 21, base := 0 }

theorem threePages_ok (cls : SlabClassId) : (threePages cls).Ok := by
  cases cls with
  | normalSlabs => exact ⟨⟨12, by decide⟩, by decide, by decide⟩
  | hugeSlabs => exact ⟨⟨21, by decide⟩, by decide, by decide⟩

theorem threePages_apart (cls cls' : SlabClassId) (hne : cls ≠ cls') :
    (threePages cls).base + (threePages cls).count * (threePages cls).bytes ≤ (threePages cls').base ∨
    (threePages cls').base + (threePages cls').count * (threePages cls').bytes ≤
      (threePages cls).base := by
  cases cls <;> cases cls' <;> revert hne <;> decide

/-- A memory that was never written. -/
def zeroMem : SlabHeap where
  links := fun _ => ⟨.poisonPrev, .poisonNext⟩
  slabBytes := fun _ => 0
  allocator := fun _ => ⟨0, 0, 0, .normalSlabs, 0, 0⟩
  slab := fun _ => ⟨0, 0, 0, 0, 0⟩
  word := fun _ => 0

/-- An allocator of items of 2000 bytes, two on a page, fills its page and grows, while another one
    is in use. A client writes the mark into an item before it is freed. -/
def twoAllocators : List AllocatorCall :=
  let item : LiveItem := ⟨1, 65536 + 64, 65536⟩
  [.new 2000 1 0 (some 1), .alloc 1, .write item (65536 + 64) (BitVec.ofNat 64 allocSlabNextLink),
    .alloc 1, .new 42 1 0 (some 2), .alloc 2, .alloc 1, .free item]

theorem slabSafe_of_run_twoAllocators :
    (∃ s, exec slabStep (slabRunInit zeroMem threePages) twoAllocators = some s ∧
      s.live.length = 3) ∧
      Throughout slabStep SlabSafe (slabRunInit zeroMem threePages) twoAllocators := by
  constructor
  · exact Option.map_eq_some_iff.1 (show (exec slabStep (slabRunInit zeroMem threePages)
      twoAllocators).map (fun s => s.live.length) = some 3 by decide +kernel)
  · exact slabSafe_of_run _ threePages_ok threePages_apart _ (by decide +kernel)

end Tsl
