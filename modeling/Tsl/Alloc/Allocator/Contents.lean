import Tsl.Alloc.Allocator.Pool
import Tsl.Lib.BlockStore

set_option autoImplicit false

/-! # What clients keep in the items of the slab allocator

The allocator keeps its free lists in the items that are free: it writes to the first words of items
when it hands them out, takes them back, grows or carves a slab. None of that is in an item that is
live, on whichever allocator the call is; so to its clients the whole of all allocators is a store of
blocks (`simulates_blockStep`), and what a client wrote into an item is what it reads there
(`word_kept_of_run`). -/

namespace Tsl

open Lib

/-- The words of an item, by offset. -/
def SlabHeap.words (h : SlabHeap) (it : LiveItem) : ℕ → Option ℕ := fun offset =>
  if offset % 8 = 0 ∧ offset + 8 ≤ (h.allocator it.alloc).itemSize then some (h.word (it.addr + offset))
  else none

/-- The items clients have. -/
def SlabRun.blocks (s : SlabRun) : Blocks LiveItem ℕ ℕ := fun it =>
  if it ∈ s.live then some (s.heap.words it) else none

/-- What a call is to the store of blocks: taking the item that is new after it, if there is one. -/
def PoolRun.label (s : PoolRun) : PoolCall → List (BlockOp LiveItem ℕ ℕ)
  | .call (.alloc alloc) =>
      match poolStep s (.call (.alloc alloc)) with
      | none => []
      | some s' => (s'.run.live.filter (· ∉ s.run.live)).map fun it =>
          .take it (s'.run.heap.words it)
  | .call (.free item) => [.release item]
  | .call (.write item addr val) => [.write item (addr - item.addr) val.toNat]
  | .call (.new _ _ _ _) | .delete _ _ _ _ => []

/-- The live items are as large as they were, and their words are what they were. -/
def KeepsItems (h h' : SlabHeap) (live : List LiveItem) : Prop :=
  ∀ it ∈ live, (h'.allocator it.alloc).itemSize = (h.allocator it.alloc).itemSize ∧
    ∀ a, it.addr ≤ a → a < it.addr + (h.allocator it.alloc).itemSize → h'.word a = h.word a

section Items

variable {h h' h'' : SlabHeap} {pages : SlabClassId → Set ℕ} {ids : Set ℕ}
  {seq : SlabNode → List SlabNode} {live : List LiveItem} {p id : ℕ} {cls : SlabClassId}

theorem KeepsItems.trans (h₁ : KeepsItems h h' live) (h₂ : KeepsItems h' h'' live) :
    KeepsItems h h'' live := by
  intro it hit
  obtain ⟨hsize, hword⟩ := h₁ it hit
  obtain ⟨hsize', hword'⟩ := h₂ it hit
  refine ⟨hsize'.trans hsize, fun a hlo hhi => ?_⟩
  exact (hword' a hlo (hsize ▸ hhi)).trans (hword a hlo hhi)

variable (ids) in
theorem KeepsItems.of_word (hsize : ∀ id ∈ ids, (h'.allocator id).itemSize = (h.allocator id).itemSize)
    (hids : ∀ it ∈ live, it.alloc ∈ ids) (hword : ∀ a, (∃ it ∈ live, it.addr ≤ a ∧
      a < it.addr + (h.allocator it.alloc).itemSize) → h'.word a = h.word a) :
    KeepsItems h h' live :=
  fun it hit => ⟨hsize _ (hids it hit), fun a hlo hhi => hword a ⟨it, hit, hlo, hhi⟩⟩

/-- An address in a live item is on the page of its slab. -/
theorem SlabHeapOk.addr_on_page (hOk : SlabHeapOk h pages ids seq live) {it : LiveItem}
    (hit : it ∈ live) {a : ℕ} (hlo : it.addr ≤ a)
    (hhi : a < it.addr + (h.allocator it.alloc).itemSize) :
    it.slab ≤ a ∧ a < it.slab + h.pageBytes it.alloc := by
  obtain ⟨hid, hp, i, hi, haddr⟩ := hOk.liveItem it hit
  have hmem := (hOk.slabPage hid hp).item_mem hi
  omega

theorem SlabHeapOk.item_outside_live (hOk : SlabHeapOk h pages ids seq live) (hid : id ∈ ids)
    (hp : .snode p ∈ seq (.slabs id)) {j : ℕ}
    (hj : j < slabItems (h.pageBytes id) (h.allocator id).itemSize) {it : LiveItem} (hit : it ∈ live)
    (hne : it.addr ≠ itemAddr p (h.allocator id).itemSize j) {a : ℕ} (hlo : it.addr ≤ a)
    (hhi : a < it.addr + (h.allocator it.alloc).itemSize) :
    a ≠ itemAddr p (h.allocator id).itemSize j := by
  rintro rfl
  have hx := slabs_mem_listHeads hid
  obtain ⟨hid', hp', i, hi, haddr⟩ := hOk.liveItem it hit
  have hx' := slabs_mem_listHeads hid'
  have hon := hOk.addr_on_page hit hlo hhi
  by_cases hslab : p = it.slab
  · -- two items of one slab
    obtain rfl := SlabNode.slabs.inj (hOk.eq_of_mem hx hx' hp (hslab ▸ hp'))
    rw [← hslab] at haddr
    have hij : i ≠ j := fun heq => hne (heq ▸ haddr)
    have hpos := (hOk.slabPage hid hp).size_pos
    rcases Nat.lt_or_gt_of_ne hij with hlt | hgt
    · have := itemAddr_apart p (h.allocator it.alloc).itemSize hlt
      omega
    · have := itemAddr_apart p (h.allocator it.alloc).itemSize hgt
      omega
  · exact hOk.item_outside hid (hOk.mem_pages hx hp) (hOk.mem_pages hx' hp') hslab hj hon

/-- An address in a live item is on no page that is available. -/
theorem SlabHeapOk.avail_outside (hOk : SlabHeapOk h pages ids seq live)
    (hp : .snode p ∈ seq (.availSlabs cls)) {it : LiveItem} (hit : it ∈ live) {a : ℕ}
    (hlo : it.addr ≤ a) (hhi : a < it.addr + (h.allocator it.alloc).itemSize) :
    ¬ (p ≤ a ∧ a < p + h.slabBytes cls) := by
  obtain ⟨hid, hslab, -⟩ := hOk.liveItem it hit
  have hx := slabs_mem_listHeads hid
  have hx' := availSlabs_mem_listHeads ids cls
  have hne : it.slab ≠ p := by
    intro heq
    cases hOk.eq_of_mem hx hx' hslab (heq ▸ hp)
  have hon := hOk.addr_on_page hit hlo hhi
  have hapart := hOk.geometry.apart _ _ (hOk.mem_pages hx hslab) _ _ (hOk.mem_pages hx' hp) hne
  change it.slab + h.pageBytes it.alloc ≤ p ∨ p + h.slabBytes cls ≤ it.slab at hapart
  omega

/-! ## What each call writes -/

/-- Filling in the next item writes to the item that is handed out, and to one that stays free. -/
theorem fillInNext_word {slab size bytes i : ℕ} {rest : List ℕ} {used : Set ℕ}
    (hP : SlabPage slab size bytes)
    (hS : SlabOk (h.slab slab) h.word slab size bytes used (i :: rest))
    (hsize : (h.allocator id).itemSize = size) {a : ℕ} (ha : ∀ j ∈ i :: rest, a ≠ itemAddr slab size j) :
    (fillInNext h id slab (itemAddr slab size i)).word a = h.word a := by
  obtain ⟨hi, -, -⟩ := hS.freeItems_eq
  have hnext : itemAddr slab size i + size = itemAddr slab size (i + 1) := by
    rw [itemAddr, itemAddr, Nat.add_mul, Nat.one_mul]
    omega
  have hne := ha i List.mem_cons_self
  rcases (hS.chain (by omega)).take (by decide) hP.itemAddr_ne_mark with
    ⟨hmark, -, rfl⟩ | ⟨hmark, -⟩
  · unfold fillInNext
    rw [if_pos hmark]
    simp only [hsize, hS.slabSize, hnext, hP.itemAddr_end_le_iff]
    split
    · next hlt =>
      have hne' : a ≠ itemAddr slab size (i + 1) := by
        refine ha _ (List.mem_cons_of_mem _ ?_)
        exact List.mem_range'_1.2 ⟨Nat.le_refl _, by omega⟩
      exact (Function.update_of_ne hne _ _).trans (Function.update_of_ne hne' _ _)
    · exact Function.update_of_ne hne _ _
  · unfold fillInNext
    rw [if_neg hmark]

theorem allocatorTake_keepsItems (hOk : SlabHeapOk h pages ids seq live) (hid : id ∈ ids)
    (hp : .snode p ∈ seq (.slabs id)) : KeepsItems h (allocatorTake h id p).2.2 live := by
  obtain ⟨free, hS⟩ := hOk.slab id hid p hp
  have hP := hOk.slabPage hid hp
  cases free with
  | nil =>
      have hzero : (h.slab p).freeItemCount = 0 := hS.count
      rw [allocatorTake, if_pos hzero]
      exact fun it _ => ⟨rfl, fun _ _ _ => rfl⟩
  | cons i rest =>
      obtain ⟨-, -, hfirst⟩ := hS.freeItems_eq
      have hcount : (h.slab p).freeItemCount ≠ 0 := by
        rw [hS.count, List.length_cons]
        exact Nat.succ_ne_zero _
      have hne0 : itemAddr p (h.allocator id).itemSize i ≠ 0 := Nat.ne_of_gt itemAddr_pos
      have hword : ∀ a, (∀ j ∈ i :: rest, a ≠ itemAddr p (h.allocator id).itemSize j) →
          (allocatorTake h id p).2.2.word a = h.word a := by
        intro a ha
        have hfill := fillInNext_word hP hS rfl ha
        have hne := ha i List.mem_cons_self
        rw [allocatorTake, if_neg hcount, hfirst]
        simp only [if_neg hne0]
        split <;> exact (Function.update_of_ne hne _ _).trans hfill
      refine KeepsItems.of_word ids ?_ (fun it hit => (hOk.liveItem it hit).1) ?_
      · intro id' _
        have hsame : ∀ item, (fillInNext h id p item).allocator = h.allocator := by
          intro item
          unfold fillInNext
          split
          · simp only
            split <;> rfl
          · rfl
        rw [allocatorTake, if_neg hcount, hfirst]
        simp only [if_neg hne0]
        split <;> exact congrArg (fun al => (al id').itemSize) (hsame _)
      · rintro a ⟨it, hit, hlo, hhi⟩
        refine hword a fun j hj => ?_
        obtain ⟨hjlt, hfree⟩ := (hS.mem_iff j).1 hj
        exact hOk.item_outside_live hid hp hjlt hit (fun heq => hfree ⟨it, hit, heq⟩) hlo hhi

/-- A slab is added on a page that was available: only that page is written to. -/
theorem SlabHeapOk.keepsItems_addSlab (hOk : SlabHeapOk h pages ids seq live)
    (hp : .snode p ∈ seq (.availSlabs cls))
    (hsize : ∀ id ∈ ids, (h'.allocator id).itemSize = (h.allocator id).itemSize)
    (hword : h'.word = Function.update h.word (p + firstObjOffset) allocSlabNextLink) :
    KeepsItems h h' live := by
  have hx := availSlabs_mem_listHeads ids cls
  obtain ⟨k, hk, -, hbytes⟩ := hOk.geometry.bytes_pow _ p (hOk.mem_pages hx hp)
  change h.slabBytes cls = 2 ^ k at hbytes
  have hlarge : 2 ^ 12 ≤ 2 ^ k := Nat.pow_le_pow_right (by decide) hk
  refine KeepsItems.of_word ids hsize (fun it hit => (hOk.liveItem it hit).1) ?_
  rintro a ⟨it, hit, hlo, hhi⟩
  rw [hword]
  refine Function.update_of_ne (fun heq => hOk.avail_outside hp hit hlo hhi ?_) _ _
  rw [heq, firstObjOffset_eq]
  omega

theorem helperAllocatorGrow_keepsItems (hOk : SlabHeapOk h pages ids seq live) (hid : id ∈ ids)
    (hfull : h.Ordered (seq (.slabs id)) → ∀ y ∈ seq (.slabs id), h.freeOn y = 0) {ret : AResult}
    (hcall : helperAllocatorGrow h id = some (ret, h')) : KeepsItems h h' live := by
  rcases allocatorAcquirePage_cases hOk (h.allocator id).allocState with
    ⟨-, hacq⟩ | ⟨p, rest, hseq, hacq⟩
  · simp only [helperAllocatorGrow, hacq, Option.bind_eq_bind, Option.bind_some, Option.some.injEq,
      Prod.mk.injEq] at hcall
    obtain ⟨-, rfl⟩ := hcall
    exact fun it _ => ⟨rfl, fun _ _ _ => rfl⟩
  · have hp : .snode p ∈ seq (.availSlabs (h.allocator id).allocState) := by
      rw [hseq]
      exact List.mem_cons_self
    rcases helperAllocatorGrow_spec hOk hid hfull with ⟨hnil, -⟩ | ⟨_, _, h₁, -, hcall', -, -, htally, -⟩
    · rw [hseq] at hnil
      cases hnil
    · cases hcall'.symm.trans hcall
      refine hOk.keepsItems_addSlab hp (fun id' _ => htally.itemSize id') ?_
      simp only [helperAllocatorGrow, hacq, Option.bind_eq_bind, Option.bind_some, Option.some.injEq,
        Prod.mk.injEq] at hcall
      obtain ⟨-, rfl⟩ := hcall
      rfl

/-- `allocator_alloc`. -/
theorem allocatorAlloc_keepsItems (hOk : SlabHeapOk h pages ids seq live) (hid : id ∈ ids)
    {ret : AResult} {item : Option ℕ} (hcall : allocatorAlloc h id = some (ret, item, h')) :
    KeepsItems h h' live := by
  by_cases hE : Exhausted h seq id
  · by_cases hno : ¬ Growable h id ∨ seq (.availSlabs (h.allocator id).allocState) = []
    · rcases allocatorAlloc_refused hOk hid hE hno with ⟨-, -, -, hnone⟩ | ⟨-, _, -, hsame⟩
      · cases hnone.symm.trans hcall
      · cases hsame.symm.trans hcall
        exact fun it _ => ⟨rfl, fun _ _ _ => rfl⟩
    · push Not at hno
      obtain ⟨hgrow, hne⟩ := hno
      obtain ⟨y, rest, havail⟩ := List.exists_cons_of_ne_nil hne
      obtain ⟨p, -, rfl⟩ := hOk.page _ (availSlabs_mem_listHeads ids _) y
        (by rw [havail]; exact List.mem_cons_self)
      obtain ⟨h₁, hfirst, htake, hOk₁, -⟩ := allocatorAlloc_grown hOk hid hE hgrow havail
      have hh' : (allocatorTake h₁ id p).2.2 = h' := by
        rw [Option.some.inj (htake.symm.trans hcall)]
      have hmem : .snode p ∈ movePage seq (h.allocator id).allocState id p (.slabs id) := by
        rw [movePage_slabs, if_pos rfl]
        exact List.mem_cons_self
      -- the first slab after growing, and then the item
      have hfirst' := allocatorFirst_exhausted hOk hid hE
      rw [if_pos (show (h.allocator id).flags &&& allocFlagNoGrow = 0 from hgrow), hfirst] at hfirst'
      obtain ⟨⟨code, h₂⟩, hcode, hat⟩ := Option.bind_eq_some_iff.1 hfirst'.symm
      obtain ⟨first, -, hpair⟩ := Option.bind_eq_some_iff.1 hat
      cases hpair
      rw [← hh']
      exact (helperAllocatorGrow_keepsItems hOk hid hE.full hcode).trans
        (allocatorTake_keepsItems hOk₁ hid hmem)
  · obtain ⟨p, rest, hseq, -, -, htake⟩ := allocatorAlloc_taken hOk hid hE
    have hh' : (allocatorTake h id p).2.2 = h' := by
      rw [Option.some.inj (htake.symm.trans hcall)]
    rw [← hh']
    exact allocatorTake_keepsItems hOk hid (by rw [hseq]; exact List.mem_cons_self)

theorem allocatorFree_keepsItems (hOk : SlabHeapOk h pages ids seq live) {it : LiveItem}
    (hit : it ∈ live) : KeepsItems h (allocatorFree h it.alloc it.addr).2 (live.erase it) := by
  obtain ⟨hid, hp, i, hi, haddr⟩ := hOk.liveItem it hit
  obtain ⟨h', seq', hcall, -, -, -, hsame, -⟩ := allocatorFree_spec hOk hit
  have hword : (allocatorFree h it.alloc it.addr).2.word = Function.update h.word it.addr
      (h.slab (it.addr &&& (h.allocator it.alloc).freeMask)).freeItems := by
    have hne0 : it.addr ≠ 0 := haddr ▸ Nat.ne_of_gt itemAddr_pos
    rw [allocatorFree, if_neg hne0]
    simp only
    split
    · split
      · rw [helperAllocatorShrink]
        split <;> rfl
      · rfl
    · rfl
  refine KeepsItems.of_word ids (fun id' _ => by rw [hcall, hsame])
    (fun it' hit' => (hOk.liveItem it' (List.mem_of_mem_erase hit')).1) ?_
  rintro a ⟨it', hit', hlo, hhi⟩
  rw [hword, haddr]
  refine Function.update_of_ne ?_ _ _
  refine hOk.item_outside_live hid hp hi (List.mem_of_mem_erase hit') (fun heq => ?_) hlo hhi
  have hmem : it'.addr ∈ liveAddrs (live.erase it) := ⟨it', hit', rfl⟩
  rw [mem_liveAddrs_erase hOk.liveNodup hit] at hmem
  exact hmem.2 (heq.trans haddr.symm)

theorem grabPages_keepsItems (hid : id ∈ ids) (cls : SlabClassId) (pageSize numPages : ℕ) :
    ∀ {h seq}, SlabHeapOk h pages ids seq live → (h.allocator id).allocState = cls →
      h.slabBytes cls = pageSize → ∀ {ret h'}, grabPages h id cls pageSize numPages = some (ret, h') →
        KeepsItems h h' live := by
  induction numPages with
  | zero =>
      intro h seq _ _ _ ret h' hcall
      simp only [grabPages, Option.some.injEq, Prod.mk.injEq] at hcall
      obtain ⟨-, rfl⟩ := hcall
      exact fun it _ => ⟨rfl, fun _ _ _ => rfl⟩
  | succ numPages ih =>
      intro h seq hOk hstate hbytes ret h' hcall
      rcases allocatorAcquirePage_cases hOk cls with ⟨-, hacq⟩ | ⟨p, rest, hseq, hacq⟩
      · simp only [grabPages, hacq, Option.bind_eq_bind, Option.bind_some, Option.some.injEq,
          Prod.mk.injEq] at hcall
        obtain ⟨-, rfl⟩ := hcall
        exact fun it _ => ⟨rfl, fun _ _ _ => rfl⟩
      · have hp : .snode p ∈ seq (.availSlabs (h.allocator id).allocState) := by
          rw [hstate, hseq]
          exact List.mem_cons_self
        have hpage : h.pageBytes id = pageSize := by
          rw [SlabHeap.pageBytes, hstate, hbytes]
        obtain ⟨hO, -, hOk', -⟩ := addSlab_ok hOk hid hp h.allocator (fun _ => rfl) (fun _ => rfl)
          (fun _ => rfl) (fun _ => rfl) rfl
        rw [hpage] at hO hOk'
        simp only [grabPages, hacq, Option.bind_eq_bind, Option.bind_some] at hcall
        refine (hOk.keepsItems_addSlab hp (fun id' _ => hO.itemSize id') rfl).trans ?_
        exact ih hOk' ((hO.allocState id).trans hstate) (by rw [hO.slabBytes, hbytes]) hcall

/-- `allocator_new`. -/
theorem allocatorNew_keepsItems (hOk : SlabHeapOk h pages ids seq live)
    {itemSize itemCount flags : ℕ} {malloc new : Option ℕ} (hfresh : ∀ id, malloc = some id → id ∉ ids)
    {ret : AResult} (hcall : allocatorNew h itemSize itemCount flags malloc = some (ret, new, h')) :
    KeepsItems h h' live := by
  have hsame : ∀ code, some (code, (none : Option ℕ), h) = some (ret, new, h') →
      KeepsItems h h' live := by
    intro code heq
    simp only [Option.some.injEq, Prod.mk.injEq] at heq
    obtain ⟨-, -, rfl⟩ := heq
    exact fun it _ => ⟨rfl, fun _ _ _ => rfl⟩
  have hcls : (if flags &&& allocFlagHugePage ≠ 0 then SlabClassId.hugeSlabs else .normalSlabs) =
      classOfFlags flags := rfl
  simp only [allocatorNew, hcls] at hcall
  split at hcall
  · exact hsame _ hcall
  split at hcall
  · cases hcall
  next hround =>
  split at hcall
  · exact hsame _ hcall
  cases malloc with
  | none => exact hsame _ hcall
  | some id =>
      simp only [Option.bind_eq_bind, Option.bind_eq_some_iff] at hcall
      obtain ⟨⟨code, h₂⟩, hgrab, hpair⟩ := hcall
      simp only [Option.some.injEq, Prod.mk.injEq] at hpair
      obtain ⟨-, -, rfl⟩ := hpair
      have hid := hfresh id rfl
      set a : Allocator := { (helperAllocatorNewInit h id).allocator id with
        itemSize := round16 itemSize
        freeMask := 2 ^ 64 - 1 - (h.slabBytes (classOfFlags flags) - 1)
        allocState := classOfFlags flags } with ha
      have hOk₁ := newAllocator_ok (a := a) hOk hid (Nat.pos_of_ne_zero hround)
        (sixteen_dvd_round16 itemSize) rfl
      have hself : ((helperAllocatorNewInit h id).setAllocator id a).allocator id = a :=
        Function.update_self _ _ _
      have hothers : KeepsItems h ((helperAllocatorNewInit h id).setAllocator id a) live := by
        refine KeepsItems.of_word ids (fun id' hid' => ?_)
          (fun it hit => (hOk.liveItem it hit).1) fun _ _ => rfl
        have hne : id' ≠ id := fun heq => hid (heq ▸ hid')
        exact congrArg Allocator.itemSize
          ((Function.update_of_ne hne _ _).trans (Function.update_of_ne hne _ _))
      exact hothers.trans (grabPages_keepsItems (Set.mem_insert id ids) (classOfFlags flags) _ _ hOk₁
        (by rw [hself]) rfl hgrab)

/-- The loop of `allocator_delete` writes to no item. -/
theorem deleteLoop_word {fuel : ℕ} {iterator tmp : SlabNode} {ret : AResult}
    (hcall : deleteLoop id cls fuel h iterator tmp = some (ret, h')) : h'.word = h.word := by
  induction fuel generalizing h iterator tmp with
  | zero => cases hcall
  | succ fuel ih =>
      rw [deleteLoop] at hcall
      split at hcall
      · simp only [Option.some.injEq, Prod.mk.injEq] at hcall
        obtain ⟨-, rfl⟩ := hcall
        rfl
      · obtain ⟨slab, -, hcall⟩ := Option.bind_eq_some_iff.1 hcall
        simp only at hcall
        split at hcall
        · simp only [Option.some.injEq, Prod.mk.injEq] at hcall
          obtain ⟨-, rfl⟩ := hcall
          rfl
        · rw [ih hcall]
          rfl

/-- `allocator_delete`. An allocator that is gone had no live item. -/
theorem allocatorDelete_keepsItems (hOk : SlabHeapOk h pages ids seq live) (hid : id ∈ ids)
    {fuel : ℕ} {freed : Allocator} {entry : ListEntry SlabNode} {ret : AResult}
    (hcall : allocatorDelete h id fuel freed entry = some (ret, h')) : KeepsItems h h' live := by
  have hend : ∀ {code : AResult} {h₁ : SlabHeap}, (if afailed code then some (code, h₁)
      else if listEmpty h₁.links (.slabs id) then some (aOk, { h₁.setAllocator id freed with
        links := Function.update h₁.links (.slabs id) entry })
      else some (aEBusy, h₁)) = some (ret, h') → h'.word = h₁.word := by
    intro code h₁ hend
    split at hend
    · simp only [Option.some.injEq, Prod.mk.injEq] at hend
      rw [← hend.2]
    · split at hend
      · simp only [Option.some.injEq, Prod.mk.injEq] at hend
        rw [← hend.2]
        rfl
      · simp only [Option.some.injEq, Prod.mk.injEq] at hend
        rw [← hend.2]
  have hword : h'.word = h.word := by
    have hcode := hcall
    simp only [allocatorDelete, Option.bind_eq_bind] at hcode
    split at hcode
    · exact hend hcode
    · obtain ⟨⟨code, h₁⟩, hloop, hlast⟩ := Option.bind_eq_some_iff.1 hcode
      exact (hend hlast).trans (deleteLoop_word hloop)
  rcases allocatorDelete_spec hOk hid fuel freed entry with
    ⟨hnone, -⟩ | ⟨h₁, seq', hOk', -, htally, -, ⟨hcall', -⟩ | ⟨hcall', hgone⟩⟩
  · cases hnone.symm.trans hcall
  · cases hcall'.symm.trans hcall
    exact fun it _ => ⟨htally.itemSize _, fun _ _ _ => by rw [hword]⟩
  · cases hcall'.symm.trans hcall
    intro it hit
    have hne : it.alloc ≠ id := by
      intro heq
      have hslab := (hOk'.liveItem it hit).2.1
      rw [heq, hgone] at hslab
      cases hslab
    refine ⟨?_, fun _ _ _ => by rw [hword]⟩
    have hsame : (h₁.setAllocator id freed).allocator it.alloc = h₁.allocator it.alloc :=
      Function.update_of_ne hne _ _
    exact (congrArg Allocator.itemSize hsame).trans (htally.itemSize _)

end Items

/-! ## The store of blocks -/

section Blocks

variable {pages : SlabClassId → Set ℕ} {s s' : SlabRun} {ids : Set ℕ}
  {seq : SlabNode → List SlabNode} {it : LiveItem}

theorem SlabHeap.setWord_same (h : SlabHeap) (addr val : ℕ) : (h.setWord addr val).word addr = val :=
  Function.update_self _ _ _

theorem SlabHeap.setWord_ne (h : SlabHeap) {addr a : ℕ} (val : ℕ) (hne : a ≠ addr) :
    (h.setWord addr val).word a = h.word a := Function.update_of_ne hne _ _

theorem SlabRun.blocks_of_mem (hit : it ∈ s.live) : s.blocks it = some (s.heap.words it) := if_pos hit

theorem SlabRun.blocks_of_not_mem (hit : it ∉ s.live) : s.blocks it = none := if_neg hit

theorem KeepsItems.words {h h' : SlabHeap} {live : List LiveItem} (hk : KeepsItems h h' live)
    (hit : it ∈ live) : h'.words it = h.words it := by
  obtain ⟨hsize, hword⟩ := hk it hit
  funext offset
  simp only [SlabHeap.words, hsize]
  split
  · next hin => rw [hword _ (Nat.le_add_right _ _) (by omega)]
  · rfl

theorem SlabRun.blocks_kept (hlive : s'.live = s.live) (hk : KeepsItems s.heap s'.heap s.live) :
    s'.blocks = s.blocks := by
  funext it
  simp only [SlabRun.blocks, hlive]
  split
  · next hit => rw [hk.words hit]
  · rfl

theorem SlabRun.blocks_take {live : List LiveItem} (hlive : s.live = it :: live)
    {before : SlabRun} (hbefore : before.live = live) (hnew : it ∉ live)
    (hk : KeepsItems before.heap s.heap live) :
    blockStep before.blocks (.take it (s.heap.words it)) = some s.blocks := by
  rw [blockStep_take (SlabRun.blocks_of_not_mem (hbefore ▸ hnew))]
  congr 1
  funext it'
  by_cases hsame : it' = it
  · subst hsame
    rw [Function.update_self, SlabRun.blocks_of_mem (by rw [hlive]; exact List.mem_cons_self)]
  · rw [Function.update_of_ne hsame]
    simp only [SlabRun.blocks, hlive, hbefore, List.mem_cons, hsame, false_or]
    split
    · next hit => rw [hk.words hit]
    · rfl

theorem SlabRun.blocks_release (hit : it ∈ s.live) (hnd : s.live.Nodup)
    (hlive : s'.live = s.live.erase it) (hk : KeepsItems s.heap s'.heap (s.live.erase it)) :
    blockStep s.blocks (.release it) = some s'.blocks := by
  rw [blockStep_release (SlabRun.blocks_of_mem hit)]
  congr 1
  funext it'
  by_cases hsame : it' = it
  · subst hsame
    rw [Function.update_self, SlabRun.blocks_of_not_mem]
    rw [hlive]
    exact hnd.not_mem_erase
  · rw [Function.update_of_ne hsame]
    have hmem : it' ∈ s'.live ↔ it' ∈ s.live := by
      rw [hlive]
      exact List.mem_erase_of_ne hsame
    simp only [SlabRun.blocks, hmem]
    split
    · next hit' => rw [hk.words (hlive ▸ hmem.2 hit')]
    · rfl

theorem SlabRun.blocks_write (hOk : SlabHeapOk s.heap pages ids seq s.live) (hit : it ∈ s.live)
    {addr val : ℕ} (hlo : it.addr ≤ addr)
    (hhi : addr + 8 ≤ it.addr + (s.heap.allocator it.alloc).itemSize) (haligned : addr % 8 = 0) :
    blockStep s.blocks (.write it (addr - it.addr) val) =
      some { s with heap := s.heap.setWord addr val }.blocks := by
  have hitAligned : 16 ∣ it.addr := by
    obtain ⟨hid, hp, i, -, haddr⟩ := hOk.liveItem it hit
    exact haddr ▸ (hOk.slabPage hid hp).itemAddr_aligned i
  have hoffset : (s.heap.words it (addr - it.addr)).isSome := by
    rw [SlabHeap.words, if_pos (by omega)]
    rfl
  rw [blockStep_write (SlabRun.blocks_of_mem hit) hoffset]
  congr 1
  funext it'
  by_cases hsame : it' = it
  · subst hsame
    have hafter : ({ s with heap := s.heap.setWord addr val } : SlabRun).blocks it' =
        some ((s.heap.setWord addr val).words it') := if_pos hit
    rw [Function.update_self, hafter]
    congr 1
    funext offset
    by_cases hoff : offset = addr - it'.addr
    · subst hoff
      have hin : (addr - it'.addr) % 8 = 0 ∧
          addr - it'.addr + 8 ≤ ((s.heap.setWord addr val).allocator it'.alloc).itemSize := by
        change _ ∧ addr - it'.addr + 8 ≤ (s.heap.allocator it'.alloc).itemSize
        omega
      rw [Function.update_self, SlabHeap.words, if_pos hin, Nat.add_sub_cancel' hlo]
      exact congrArg some (s.heap.setWord_same addr val).symm
    · rw [Function.update_of_ne hoff]
      have hne : it'.addr + offset ≠ addr := by omega
      have hword := s.heap.setWord_ne val hne
      simp only [SlabHeap.words, hword]
      rfl
  · rw [Function.update_of_ne hsame]
    simp only [SlabRun.blocks]
    split
    · next hit' =>
      have hne : it'.addr ≠ it.addr := fun heq =>
        hsame (List.inj_on_of_nodup_map hOk.liveNodup hit' hit heq)
      have hapart := hOk.live_apart hit' hit hne
      congr 1
      funext offset
      have hword : offset + 8 ≤ (s.heap.allocator it'.alloc).itemSize →
          (s.heap.setWord addr val).word (it'.addr + offset) = s.heap.word (it'.addr + offset) :=
        fun hin => s.heap.setWord_ne val (by omega)
      simp only [SlabHeap.words]
      split
      · next hin => rw [← hword hin.2]; exact (if_pos hin).symm
      · next hout => exact (if_neg hout).symm
    · rfl

theorem filter_new {live : List LiveItem} (hnew : it ∉ live) :
    (it :: live).filter (· ∉ live) = [it] := by
  have hold : live.filter (· ∉ live) = [] :=
    List.filter_eq_nil_iff.2 fun x hx => by simpa using hx
  rw [List.filter_cons, if_pos (by simpa using hnew), hold]

/-- Every call is one on the store of blocks, or none. -/
theorem PoolState.blocks_step {s s' : PoolRun} (hS : PoolState pages s.run ids seq) {c : PoolCall}
    (hstep : poolStep s c = some s') :
    exec blockStep s.run.blocks (s.label c) = some s'.run.blocks := by
  have hids : ∀ id ∈ s.run.allocators, id ∈ ids := hS.allocators
  cases c with
  | delete id fuel freed entry =>
      have hkept : s'.run.live = s.run.live ∧ KeepsItems s.run.heap s'.run.heap s.run.live := by
        cases poolStep_cases hstep with
        | busy halloc hcall _ =>
            exact ⟨rfl, allocatorDelete_keepsItems hS.ok (hids id halloc) hcall⟩
        | deleted halloc hcall _ =>
            exact ⟨rfl, allocatorDelete_keepsItems hS.ok (hids id halloc) hcall⟩
      exact congrArg some (SlabRun.blocks_kept hkept.1 hkept.2).symm
  | call c =>
      have hrun := poolStep_call hstep
      cases c with
      | new itemSize itemCount flags malloc =>
          simp only [slabStep, Option.ite_none_right_eq_some, Option.bind_eq_bind,
            Option.bind_eq_some_iff] at hrun
          obtain ⟨hfresh, ⟨ret, new, heap⟩, hcall, hs'⟩ := hrun
          have hkeep := allocatorNew_keepsItems hS.ok
            (fun id heq hid => hfresh id heq (hS.mallocs id hid)) hcall
          have heap' : s'.run.heap = heap := by rw [← Option.some.inj hs']
          have hlive : s'.run.live = s.run.live := by rw [← Option.some.inj hs']
          rw [← heap'] at hkeep
          exact congrArg some (SlabRun.blocks_kept hlive hkeep).symm
      | alloc id =>
          have hlabel : s.label (.call (.alloc id)) =
              (s'.run.live.filter (· ∉ s.run.live)).map fun it => .take it (s'.run.heap.words it) := by
            simp only [PoolRun.label, hstep]
          obtain ⟨_, _, _, _, _, -, hS', -⟩ := hS.alloc hrun
          simp only [slabStep, Option.ite_none_right_eq_some, Option.bind_eq_bind,
            Option.bind_eq_some_iff] at hrun
          obtain ⟨halloc, ⟨first, h₁⟩, -, ⟨ret, item, heap⟩, hcall, hs'⟩ := hrun
          have hkeep := allocatorAlloc_keepsItems hS.ok (hids id halloc) hcall
          have heap' : s'.run.heap = heap := by rw [← Option.some.inj hs']
          have hlive : s'.run.live = (item.bind fun item => first.map fun first =>
              (⟨id, item, first⟩ : LiveItem)).toList ++ s.run.live := by
            rw [← Option.some.inj hs']
          rw [← heap'] at hkeep
          cases hout : item.bind fun item => first.map fun first => (⟨id, item, first⟩ : LiveItem) with
          | none =>
              rw [hout, Option.toList_none, List.nil_append] at hlive
              have hnone : s.run.live.filter (· ∉ s.run.live) = [] :=
                List.filter_eq_nil_iff.2 fun x hx => by simpa using hx
              rw [hlabel, hlive, hnone, SlabRun.blocks_kept hlive hkeep]
              rfl
          | some it =>
              rw [hout, Option.toList_some, List.singleton_append] at hlive
              have hnd := hS'.ok.liveNodup
              rw [hlive, List.map_cons, List.nodup_cons] at hnd
              have hnew : it ∉ s.run.live := fun hmem => hnd.1 (List.mem_map_of_mem hmem)
              rw [hlabel, hlive, filter_new hnew, List.map_singleton, exec,
                SlabRun.blocks_take hlive rfl hnew hkeep]
              rfl
      | free it =>
          simp only [slabStep, Option.ite_none_right_eq_some] at hrun
          obtain ⟨⟨hit, -⟩, hs'⟩ := hrun
          have hkeep := allocatorFree_keepsItems hS.ok hit
          have heap' : s'.run.heap = (allocatorFree s.run.heap it.alloc it.addr).2 := by
            rw [← Option.some.inj hs']
          have hlive : s'.run.live = s.run.live.erase it := by rw [← Option.some.inj hs']
          rw [← heap'] at hkeep
          rw [PoolRun.label, exec,
            SlabRun.blocks_release hit (List.Nodup.of_map _ hS.ok.liveNodup) hlive hkeep]
          rfl
      | write it addr val =>
          simp only [slabStep, Option.ite_none_right_eq_some] at hrun
          obtain ⟨⟨hit, hlo, hhi, haligned⟩, hs'⟩ := hrun
          rw [← Option.some.inj hs', PoolRun.label, exec,
            SlabRun.blocks_write hS.ok hit hlo hhi haligned]
          rfl

variable (pages) in
/-- The slab allocator, with all its allocators, is a store of blocks. -/
theorem simulates_blockStep : Simulates poolStep blockStep
    (fun s => ∃ ids seq, PoolState pages s.run ids seq) (fun s => s.run.blocks) PoolRun.label where
  inv := by
    rintro s c s' ⟨ids, seq, hS⟩ hstep
    exact hS.step c hstep
  sim := by
    rintro s c s' ⟨ids, seq, hS⟩ hstep
    exact hS.blocks_step hstep

/-- The client gives the item back, or writes to this word of it. -/
def PoolCall.Touches (it : LiveItem) (addr : ℕ) : PoolCall → Prop
  | .call (.free item) => item = it
  | .call (.write item a _) => item = it ∧ a = addr
  | _ => False

/-- The address is that of a word of the item. -/
def SlabHeap.IsWord (h : SlabHeap) (it : LiveItem) (addr : ℕ) : Prop :=
  it.addr ≤ addr ∧ addr + 8 ≤ it.addr + (h.allocator it.alloc).itemSize ∧ (addr - it.addr) % 8 = 0

/-- What the store of blocks has is in memory. -/
theorem SlabRun.holds_iff {addr val : ℕ} (hlo : it.addr ≤ addr) :
    s.blocks.Holds it (addr - it.addr) val ↔
      it ∈ s.live ∧ s.heap.IsWord it addr ∧ s.heap.word addr = val := by
  constructor
  · rintro ⟨content, hblock, hval⟩
    obtain ⟨hit, hcontent⟩ := Option.ite_none_right_eq_some.1 hblock
    obtain rfl := Option.some.inj hcontent
    obtain ⟨hin, hval⟩ := Option.ite_none_right_eq_some.1 hval
    rw [Nat.add_sub_cancel' hlo] at hval
    exact ⟨hit, ⟨hlo, by omega, hin.1⟩, Option.some.inj hval⟩
  · rintro ⟨hit, ⟨-, hhi, haligned⟩, rfl⟩
    refine ⟨_, SlabRun.blocks_of_mem hit, ?_⟩
    rw [SlabHeap.words, if_pos ⟨haligned, by omega⟩, Nat.add_sub_cancel' hlo]

/-- **What a client has in an item stays there.** Take any run of any number of allocators, on any
memory, and a word of an item that is live after it. However the run goes on, with items allocated and
freed, allocators created, growing and deleted, and other words written: until the item is freed or its
owner writes to the word, the item stays live and the word what it was. -/
theorem word_kept_of_run (mem : SlabHeap) {region : SlabClassId → PageRegion}
    (hregion : ∀ cls, (region cls).Ok)
    (hapart : ∀ cls cls', cls ≠ cls' →
      (region cls).base + (region cls).count * (region cls).bytes ≤ (region cls').base ∨
      (region cls').base + (region cls').count * (region cls').bytes ≤ (region cls).base)
    (before after : List PoolCall) {s s' : PoolRun}
    (hbefore : exec poolStep (poolRunInit mem region) before = some s)
    (hafter : exec poolStep s after = some s') {it : LiveItem} (hit : it ∈ s.run.live) {addr : ℕ}
    (haddr : s.run.heap.IsWord it addr) (hkeep : ∀ c ∈ after, ¬ c.Touches it addr) :
    it ∈ s'.run.live ∧ s'.run.heap.IsWord it addr ∧
      s'.run.heap.word addr = s.run.heap.word addr := by
  have hlo := haddr.1
  have hinv := poolState_of_exec hregion hapart hbefore
  have hholds := (SlabRun.holds_iff hlo).2 ⟨hit, haddr, rfl⟩
  refine (SlabRun.holds_iff hlo).1 ((simulates_blockStep (pagesOf region)).holds
    (G := fun _ c => ¬ c.Touches it addr) ?_ hinv hholds (meets_of_forall hkeep s) hafter)
  rintro t c t' - hstep hc op hop htouch
  cases c with
  | delete _ _ _ _ => cases hop
  | call c =>
      cases c with
      | new _ _ _ _ => cases hop
      | alloc id =>
          simp only [PoolRun.label, hstep, List.mem_map] at hop
          obtain ⟨taken, -, rfl⟩ := hop
          exact htouch
      | free item =>
          rw [List.mem_singleton.1 hop] at htouch
          exact hc htouch
      | write item a val =>
          rw [List.mem_singleton.1 hop] at htouch
          obtain ⟨rfl, hoffset⟩ := htouch
          have hrun := poolStep_call hstep
          simp only [slabStep, Option.ite_none_right_eq_some] at hrun
          exact hc ⟨rfl, by omega⟩

end Blocks

/-- An item of 2000 bytes of the first allocator. -/
def firstItem : LiveItem := ⟨1, 65536 + 64, 65536⟩

/-- A client writes the second word of an item. -/
def writesWord : List PoolCall :=
  [.call (.new 2000 1 0 (some 1)), .call (.alloc 1), .call (.write firstItem (65536 + 72) 7)]

/-- The allocator grows, another one is created and used, and an item freed that has the mark of the
    free list in its first word. -/
def goesOn : List PoolCall :=
  [.call (.alloc 1), .call (.new 42 1 0 (some 2)), .call (.alloc 2), .call (.alloc 1),
    .call (.write ⟨1, 65536 + 2064, 65536⟩ (65536 + 2064) (BitVec.ofNat 64 allocSlabNextLink)),
    .call (.free ⟨1, 65536 + 2064, 65536⟩), .call (.alloc 1)]

theorem word_kept_of_run_goesOn : ∃ s s', exec poolStep (poolRunInit zeroMem threePages) writesWord =
      some s ∧ exec poolStep s goesOn = some s' ∧ s.run.heap.word (65536 + 72) = 7 ∧
      firstItem ∈ s'.run.live ∧ s'.run.heap.IsWord firstItem (65536 + 72) ∧
      s'.run.heap.word (65536 + 72) = s.run.heap.word (65536 + 72) := by
  obtain ⟨s, hs, hafter⟩ := Option.bind_eq_some_iff.1 (Option.eq_some_of_isSome (show
    ((exec poolStep (poolRunInit zeroMem threePages) writesWord).bind fun s =>
      if firstItem ∈ s.run.live ∧ s.run.heap.word (65536 + 72) = 7 ∧
          (s.run.heap.allocator 1).itemSize = 2000 then
        exec poolStep s goesOn
      else none).isSome by decide +kernel))
  obtain ⟨⟨hit, hword, hsize⟩, hrun⟩ := Option.ite_none_right_eq_some.1 hafter
  have haddr : s.run.heap.IsWord firstItem (65536 + 72) := by
    refine ⟨by decide, ?_, by decide⟩
    change _ ≤ 65536 + 64 + (s.run.heap.allocator 1).itemSize
    rw [hsize]
    decide
  refine ⟨s, _, hs, hrun, hword, word_kept_of_run zeroMem threePages_ok threePages_apart writesWord
    goesOn hs hrun hit haddr ?_⟩
  simp [goesOn, PoolCall.Touches, firstItem]

end Tsl
