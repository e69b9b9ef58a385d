import Tsl.Alloc.Allocator.Pool

set_option autoImplicit false

/-! # Refusals

A growable allocator is to refuse an item only when it is full and no page is left, and is to stay as it
was then. `allocator_new` sees to it that items fit on a page, but not that one fits behind the header of
the slab: where none does, `allocator_alloc` acquires page after page and finds no item on any of them
(`refusesRightly_iff_of_run`). -/

namespace Tsl

open Lib

/-- `allocator_alloc` returns, and if it fails, then with all slabs full, no page available, and nothing
changed. -/
def RefusesRightly (h : SlabHeap) (id : ℕ) : Prop :=
  ∃ ret item h', allocatorAlloc h id = some (ret, item, h') ∧
    (afailed ret = true → (∀ y, OnList h (.slabs id) y → h.freeOn y = 0) ∧
      (∀ y, ¬ OnList h (.availSlabs (h.allocator id).allocState) y) ∧ LeavesAllocator h h' id)

/-- The slab class of the allocator has a page. -/
def PageLeft (h : SlabHeap) (id : ℕ) : Prop :=
  ∃ y, OnList h (.availSlabs (h.allocator id).allocState) y

/-- A slab has room for an item, or there is no page to make one of; and there is a slab, or a page to
make one of. -/
structure Serviceable (h : SlabHeap) (id : ℕ) : Prop where
  room : 0 < slabItems (h.pageBytes id) (h.allocator id).itemSize ∨ ¬ PageLeft h id
  slab : (∃ y, OnList h (.slabs id) y) ∨ PageLeft h id

variable {pages : SlabClassId → Set ℕ} {s : SlabRun} {ids : Set ℕ}
  {seq : SlabNode → List SlabNode} {id : ℕ}

theorem SlabHeapOk.exists_onList_iff {h : SlabHeap} {live : List LiveItem}
    (hOk : SlabHeapOk h pages ids seq live) {x : SlabNode} (hx : x ∈ listHeads ids) :
    (∃ y, OnList h x y) ↔ seq x ≠ [] := by
  simp only [hOk.onList_iff hx]
  exact ⟨fun ⟨_, hy⟩ => List.ne_nil_of_mem hy, List.exists_mem_of_ne_nil _⟩

/-- With an item to take, no call is refused. -/
theorem PoolState.refusesRightly_of_free (hS : PoolState pages s ids seq) (hid : id ∈ ids)
    (hE : ¬ Exhausted s.heap seq id) : RefusesRightly s.heap id ∧ Serviceable s.heap id := by
  obtain ⟨p, rest, hseq, hpos, -, hcall⟩ := allocatorAlloc_taken hS.ok hid hE
  obtain ⟨-, item, h', -, htake, -⟩ :=
    (allocatorTake_spec hS.ok hid hseq).resolve_left fun hzero => hpos hzero.1
  have hp : .snode p ∈ seq (.slabs id) := by
    rw [hseq]
    exact List.mem_cons_self
  obtain ⟨free, hslab⟩ := hS.ok.slab id hid p hp
  constructor
  · refine ⟨aOk, some item, h', by rw [hcall, htake], fun hfail => ?_⟩
    rw [afailed_aOk] at hfail
    cases hfail
  · refine ⟨.inl ?_, .inl ⟨_, (hS.ok.onList_iff (slabs_mem_listHeads hid) _).2 hp⟩⟩
    rw [hslab.count] at hpos
    obtain ⟨i, hi⟩ := List.exists_mem_of_length_pos (Nat.pos_of_ne_zero hpos)
    exact Nat.zero_lt_of_lt ((hslab.mem_iff i).1 hi).1

/-- With nothing to take and no page, the call is refused, unless there is no slab to look at. -/
theorem PoolState.refusesRightly_iff_of_noPage (hS : PoolState pages s ids seq) (hid : id ∈ ids)
    (hgrow : Growable s.heap id) (hE : Exhausted s.heap seq id) (hno : ¬ PageLeft s.heap id) :
    RefusesRightly s.heap id ↔ Serviceable s.heap id := by
  have hx := slabs_mem_listHeads hid
  have hnil : seq (.availSlabs (s.heap.allocator id).allocState) = [] := by
    by_contra hne
    exact hno ((hS.ok.exists_onList_iff (availSlabs_mem_listHeads ids _)).2 hne)
  rcases allocatorAlloc_refused hS.ok hid hE (.inr hnil) with
    ⟨-, hseq, -, hcall⟩ | ⟨hne, first, -, hcall⟩
  · -- the list head is no slab
    refine iff_of_false ?_ fun hserve => ?_
    · rintro ⟨ret, item, h', hcall', -⟩
      rw [hcall] at hcall'
      cases hcall'
    · exact (hS.ok.exists_onList_iff hx).1 (hserve.slab.resolve_right hno) hseq
  · refine iff_of_true ⟨_, _, _, hcall, fun _ => ⟨fun y hy => ?_, fun y hy => hno ⟨y, hy⟩,
      LeavesAllocator.refl _ _⟩⟩ ⟨.inr hno, .inl ((hS.ok.exists_onList_iff hx).2 (hne hgrow))⟩
    exact hE.full (hS.ordered id hid) y ((hS.ok.onList_iff hx y).1 hy)

/-- With nothing to take and a page to grow by, the item comes from that page, if it has room for one. -/
theorem PoolState.refusesRightly_iff_of_page (hS : PoolState pages s ids seq) (hid : id ∈ ids)
    (hgrow : Growable s.heap id) (hE : Exhausted s.heap seq id) (hpage : PageLeft s.heap id) :
    RefusesRightly s.heap id ↔ Serviceable s.heap id := by
  have hclass := availSlabs_mem_listHeads ids (s.heap.allocator id).allocState
  obtain ⟨y, rest, havail⟩ :=
    List.exists_cons_of_ne_nil ((hS.ok.exists_onList_iff hclass).1 hpage)
  obtain ⟨p, -, rfl⟩ := hS.ok.page _ hclass y (by rw [havail]; exact List.mem_cons_self)
  obtain ⟨h₁, -, hcall, hOk₁, -, -, hfree⟩ := allocatorAlloc_grown hS.ok hid hE hgrow havail
  have hseq₁ : movePage seq (s.heap.allocator id).allocState id p (.slabs id) =
      .snode p :: seq (.slabs id) := by
    rw [movePage_slabs, if_pos rfl]
  rcases allocatorTake_spec hOk₁ hid hseq₁ with
    ⟨hzero, htake⟩ | ⟨hpos, item, h', seq', htake, -⟩
  · -- the page has no room for an item, and is on the list of the allocator
    refine iff_of_false ?_ fun hserve => ?_
    · rintro ⟨ret, item, h', hcall', hrefused⟩
      rw [hcall, htake] at hcall'
      obtain ⟨rfl, rfl, rfl⟩ : aENomem = ret ∧ none = item ∧ h₁ = h' := by simpa using hcall'
      obtain ⟨-, hnone, -⟩ := hrefused (afailed_aresultError _ _)
      exact hpage.elim hnone
    · rcases hserve.room with hroom | hno
      · rw [hfree] at hzero
        omega
      · exact hno hpage
  · -- its first item is handed out
    refine iff_of_true ⟨aOk, some item, h', by rw [hcall, htake], fun hfail => ?_⟩ ⟨.inl ?_, .inr hpage⟩
    · rw [afailed_aOk] at hfail
      cases hfail
    · rw [hfree] at hpos
      exact Nat.pos_of_ne_zero hpos

/-- One call on a growable allocator. -/
theorem PoolState.refusesRightly_iff (hS : PoolState pages s ids seq) (hid : id ∈ ids)
    (hgrow : Growable s.heap id) : RefusesRightly s.heap id ↔ Serviceable s.heap id := by
  by_cases hE : Exhausted s.heap seq id
  · by_cases hpage : PageLeft s.heap id
    · exact hS.refusesRightly_iff_of_page hid hgrow hE hpage
    · exact hS.refusesRightly_iff_of_noPage hid hgrow hE hpage
  · obtain ⟨hright, hserve⟩ := hS.refusesRightly_of_free hid hE
    exact iff_of_true hright hserve

section Start

variable {region : SlabClassId → PageRegion}

/-- **A growable allocator refuses an item**, in every state any allocators can get to on any memory, only
when it is full and its class has no page left, and stays as it was then, exactly if an item fits
into a slab, or there is no page; and there is a slab, or a page to make one of. -/
theorem refusesRightly_iff_of_run (mem : SlabHeap) (hregion : ∀ cls, (region cls).Ok)
    (hapart : ∀ cls cls', cls ≠ cls' →
      (region cls).base + (region cls).count * (region cls).bytes ≤ (region cls').base ∨
      (region cls').base + (region cls').count * (region cls').bytes ≤ (region cls).base)
    (calls : List PoolCall) {s : PoolRun}
    (hrun : exec poolStep (poolRunInit mem region) calls = some s) {id : ℕ}
    (halloc : id ∈ s.run.allocators) (hgrow : Growable s.run.heap id) :
    RefusesRightly s.run.heap id ↔ Serviceable s.run.heap id := by
  obtain ⟨ids, seq, hS⟩ := poolState_of_exec hregion hapart hrun
  exact hS.refusesRightly_iff (hS.allocators id halloc) hgrow

/-- An allocator of items as large as a page. -/
def pageItems : List PoolCall := [.call (.new 4096 1 0 (some 1))]

theorem pageItems_run : ∃ s h', exec poolStep (poolRunInit zeroMem threePages) pageItems = some s ∧
    1 ∈ s.run.allocators ∧ Growable s.run.heap 1 ∧
    (s.run.heap.links (.availSlabs .normalSlabs)).next = .snode 69632 ∧
    (s.run.heap.allocator 1).slabsTaken = 0 ∧
    allocatorAlloc s.run.heap 1 = some (aENomem, none, h') ∧
    (h'.links (.slabs 1)).next = .snode 69632 ∧ (h'.allocator 1).slabsTaken = 1 := by
  obtain ⟨s, hs, hfacts⟩ := Option.map_eq_some_iff.1 (show
    (exec poolStep (poolRunInit zeroMem threePages) pageItems).map (fun s =>
      (decide (1 ∈ s.run.allocators ∧ (s.run.heap.allocator 1).flags &&& allocFlagNoGrow = 0 ∧
          (s.run.heap.links (.availSlabs .normalSlabs)).next = .snode 69632 ∧
          (s.run.heap.allocator 1).slabsTaken = 0),
        (allocatorAlloc s.run.heap 1).map fun x => (x.1, x.2.1, decide (
          (x.2.2.links (.slabs 1)).next = .snode 69632 ∧ (x.2.2.allocator 1).slabsTaken = 1)))) =
      some (true, some (aENomem, none, true)) by decide +kernel)
  simp only [Prod.mk.injEq, decide_eq_true_eq] at hfacts
  obtain ⟨⟨halloc, hgrow, hnext, htaken⟩, hcall⟩ := hfacts
  obtain ⟨⟨ret, item, h'⟩, hcall, hafter⟩ := Option.map_eq_some_iff.1 hcall
  simp only [Prod.mk.injEq, decide_eq_true_eq] at hafter
  obtain ⟨rfl, rfl, hnext', htaken'⟩ := hafter
  exact ⟨s, h', hs, halloc, hgrow, hnext, htaken, hcall, hnext', htaken'⟩

theorem refusesRightly_iff_of_run_pageItems : ∃ s,
    exec poolStep (poolRunInit zeroMem threePages) pageItems = some s ∧
      (RefusesRightly s.run.heap 1 ↔ Serviceable s.run.heap 1) := by
  obtain ⟨s, -, hs, halloc, hgrow, -⟩ := pageItems_run
  exact ⟨s, hs, refusesRightly_iff_of_run zeroMem threePages_ok threePages_apart pageItems hs halloc
    hgrow⟩

/-- The first item is refused while a page is left, and that page goes to the allocator. -/
theorem pageItems_refused : ∃ s h',
    exec poolStep (poolRunInit zeroMem threePages) pageItems = some s ∧ 1 ∈ s.run.allocators ∧
    Growable s.run.heap 1 ∧ (s.run.heap.links (.availSlabs .normalSlabs)).next = .snode 69632 ∧
    allocatorAlloc s.run.heap 1 = some (aENomem, none, h') ∧
    (h'.links (.slabs 1)).next = .snode 69632 ∧ ¬ RefusesRightly s.run.heap 1 := by
  obtain ⟨s, h', hs, halloc, hgrow, hnext, htaken, hcall, hnext', htaken'⟩ := pageItems_run
  refine ⟨s, h', hs, halloc, hgrow, hnext, hcall, hnext', ?_⟩
  rintro ⟨ret, item, h'', hcall', hrefused⟩
  cases hcall.symm.trans hcall'
  obtain ⟨-, -, hleaves⟩ := hrefused (afailed_aresultError _ _)
  rw [hleaves.allocator, htaken] at htaken'
  cases htaken'

end Start

end Tsl
