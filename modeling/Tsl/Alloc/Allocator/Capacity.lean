import Tsl.Alloc.Allocator.Pool

set_option autoImplicit false

/-! # The capacity of a new allocator

A new allocator is to hold at least as many items as were asked for. `allocator_new` counts its pages as
if items filled all of a page, and `__helper_slab_init` puts a header in front of them: the pages suffice
exactly if what the headers cost is not more than what is left over on the last page
(`initialCapacity_iff`). -/

namespace Tsl

open Lib

/-- `n` calls of `allocator_alloc` hand out an item each, and acquire no page. -/
def HandsOut (id : ℕ) : ℕ → SlabHeap → Prop
  | 0, _ => True
  | n + 1, h => ∃ item h', allocatorAlloc h id = some (aOk, some item, h') ∧
      (∀ cls y, OnList h (.availSlabs cls) y → OnList h' (.availSlabs cls) y) ∧ HandsOut id n h'

/-- The pages for `count` items of `size` bytes have that many, where each page but the last was to hold
    `bytes / size` of them, and the last what remains. -/
def HeadersCovered (bytes size count : ℕ) : Prop :=
  (count - 1) % (bytes / size) + (count - 1) / (bytes / size) * (bytes / size - slabItems bytes size) <
    slabItems bytes size

instance (bytes size count : ℕ) : Decidable (HeadersCovered bytes size count) :=
  inferInstanceAs (Decidable (_ < _))

variable {h : SlabHeap} {pages : SlabClassId → Set ℕ} {ids : Set ℕ}
  {seq : SlabNode → List SlabNode} {live : List LiveItem} {id : ℕ}

theorem SlabHeap.freeTotal_const {b : ℕ} {xs : List SlabNode} (hall : ∀ y ∈ xs, h.freeOn y = b) :
    h.freeTotal xs = xs.length * b := by
  rw [SlabHeap.freeTotal, List.map_congr_left hall, List.map_const', List.sum_replicate_nat]

/-- An allocator without a free item hands out none, or acquires a page for it. -/
theorem Exhausted.not_handsOut (hE : Exhausted h seq id) (hOk : SlabHeapOk h pages ids seq live)
    (hid : id ∈ ids) (n : ℕ) : ¬ HandsOut id (n + 1) h := by
  rintro ⟨item, h', hcall, hkept, -⟩
  rcases allocatorAlloc_spec hOk hid with
    ⟨-, -, hnone⟩ | ⟨first, h₁, ret, item', h'', seq', -, hcall', hOk', -, -, -, hout⟩
  · simp [allocatorAlloc, hnone] at hcall
  · cases hcall'.symm.trans hcall
    cases hout with
    | taken hfirst => exact hfirst hE
    | grown _ p rest _ _ hpage hgone =>
        -- the page it was handed out from is no longer available
        have hcls := availSlabs_mem_listHeads ids (h.allocator id).allocState
        have hp := hkept _ (.snode p) ((hOk.onList_iff hcls _).2 (by
          rw [hpage]
          exact List.mem_cons_self))
        rw [hOk'.onList_iff hcls, hgone] at hp
        exact hOk.page_not_mem hpage hp

/-- As many items as are free are handed out before a page is acquired. -/
theorem handsOut_iff (hid : id ∈ ids) (n : ℕ) :
    ∀ {h seq live}, SlabHeapOk h pages ids seq live → (∀ id ∈ ids, h.Ordered (seq (.slabs id))) →
      (HandsOut id n h ↔ n ≤ h.freeTotal (seq (.slabs id))) := by
  induction n with
  | zero => exact fun _ _ => iff_of_true trivial (Nat.zero_le _)
  | succ n ih =>
      intro h seq live hOk hord
      by_cases hE : Exhausted h seq id
      · have hzero := SlabHeap.freeTotal_const (hE.full (hord id hid))
        exact iff_of_false (hE.not_handsOut hOk hid n) (by omega)
      · -- one item less is free then, and the slabs are in order still
        obtain ⟨p, rest, hseq, hpos, -, hcall⟩ := allocatorAlloc_taken hOk hid hE
        obtain ⟨-, item, h', seq', htake, hOk', hmoves, hr, -, htotal⟩ :=
          (allocatorTake_spec hOk hid hseq).resolve_left fun hzero => hpos hzero.1
        rw [htake] at hcall
        have hkept := hOk.pages_kept hOk' hr.avail
        rw [← htotal, Nat.succ_le_succ_iff, ← ih hOk' (hmoves.ordered hord)]
        constructor
        · rintro ⟨item', h'', hcall', -, hrest⟩
          cases hcall.symm.trans hcall'
          exact hrest
        · exact fun hrest => ⟨item, h', hcall, hkept, hrest⟩

theorem SlabHeapOk.freeTotal_new {new : ℕ} (hOk : SlabHeapOk h pages (insert new ids) seq live)
    (hnone : ∀ it ∈ live, it.alloc ≠ new) :
    h.freeTotal (seq (.slabs new)) =
      (seq (.slabs new)).length * slabItems (h.pageBytes new) (h.allocator new).itemSize := by
  have hid := Set.mem_insert new ids
  have hx := slabs_mem_listHeads hid
  refine SlabHeap.freeTotal_const fun y hy => ?_
  obtain ⟨p, -, rfl⟩ := hOk.page _ hx y hy
  obtain ⟨free, hS⟩ := hOk.slab new hid p hy
  -- a live item of this slab would be one of the new allocator
  have hidle : (h.slab p).maxItems = (h.slab p).freeItemCount := by
    by_contra hbusy
    obtain ⟨it, hit, rfl⟩ := (hOk.busy_iff hid hy).1 hbusy
    obtain ⟨hid', hslab, -⟩ := hOk.liveItem it hit
    exact hnone it hit (SlabNode.slabs.inj (hOk.eq_of_mem (slabs_mem_listHeads hid') hx hslab hy))
  exact hidle.symm.trans hS.maxItems

theorem le_mul_iff_lt {n a b : ℕ} (hn : n ≠ 0) (hba : b ≤ a) :
    n ≤ ((n - 1) / a + 1) * b ↔ (n - 1) % a + (n - 1) / a * (a - b) < b := by
  have hdiv : (n - 1) / a * a + (n - 1) % a = n - 1 := Nat.div_add_mod' (n - 1) a
  have hle : (n - 1) / a * b ≤ (n - 1) / a * a := Nat.mul_le_mul_left _ hba
  rw [Nat.succ_mul, Nat.mul_sub]
  omega

theorem headersCovered_iff {bytes size count : ℕ} (hcount : count ≠ 0) :
    HeadersCovered bytes size count ↔
      count ≤ ((count - 1) / (bytes / size) + 1) * slabItems bytes size :=
  (le_mul_iff_lt hcount (Nat.div_le_div_right (Nat.sub_le _ _))).symm

theorem pagesNeeded_eq {itemSize itemCount flags : ℕ} (hcount : itemCount ≠ 0)
    (hpage : h.slabBytes (classOfFlags flags) / round16 itemSize ≠ 0)
    (hwrap : itemCount + h.slabBytes (classOfFlags flags) / round16 itemSize - 1 < 2 ^ 64) :
    pagesNeeded h itemSize itemCount flags =
      (itemCount - 1) / (h.slabBytes (classOfFlags flags) / round16 itemSize) + 1 := by
  have hpos := Nat.pos_of_ne_zero hpage
  rw [pagesNeeded, Nat.mod_eq_of_lt hwrap, ← Nat.add_div_right _ hpos]
  congr 1
  omega

theorem PoolState.new_capacity {s : SlabRun} (hS : PoolState pages s ids seq)
    {itemSize itemCount flags new : ℕ} (hfresh : new ∉ s.mallocs)
    (hsmall : NoWrap s (.new itemSize itemCount flags (some new))) {h' : SlabHeap}
    (hnew : allocatorNew s.heap itemSize itemCount flags (some new) = some (aOk, some new, h')) :
    itemCount ≠ 0 ∧ ∃ seq', SlabHeapOk h' pages (insert new ids) seq' s.live ∧
      (∀ id ∈ insert new ids, h'.Ordered (seq' (.slabs id))) ∧
      (seq' (.slabs new)).length * slabItems (h'.pageBytes new) (h'.allocator new).itemSize =
        ((itemCount - 1) / (s.heap.slabBytes (classOfFlags flags) / round16 itemSize) + 1) *
          slabItems (s.heap.slabBytes (classOfFlags flags)) (round16 itemSize) := by
  have hfresh' : ∀ id, some new = some id → id ∉ ids := by
    intro id heq hid
    rw [← Option.some.inj heq] at hid
    exact hfresh (hS.mallocs new hid)
  rcases allocatorNew_cases hS.ok itemSize itemCount flags hfresh' with
    ⟨hnone, -⟩ | ⟨ret, hnew', -⟩ |
      ⟨new', ret, h'', seq', heq, hpage, hcount, hret, hnew', hOk', hN, hT⟩
  · cases hnone.symm.trans hnew
  · cases hnew'.symm.trans hnew
  · cases heq
    rw [hnew', Option.some.injEq, Prod.mk.injEq, Prod.mk.injEq] at hnew
    obtain ⟨rfl, -, rfl⟩ := hnew
    have hle : pagesNeeded s.heap itemSize itemCount flags ≤
        (seq (.availSlabs (classOfFlags flags))).length := by
      by_contra hgt
      rw [if_neg hgt] at hret
      exact aresultError_ne_aOk _ _ hret.symm
    refine ⟨hcount, seq', hOk', hN.ordered hS.ordered, ?_⟩
    rw [hN.slabs, List.length_reverse, List.length_take_of_le hle, hT.itemSize, hT.pageBytes,
      pagesNeeded_eq hcount hpage hsmall.2]

section Start

variable {region : SlabClassId → PageRegion}

/-- **The capacity of a new allocator**: in every state any allocators can get to on any memory, and for
every size and count none of whose computations wraps, its slabs have at least as many items as were
asked for, and that many are handed out before a page is acquired, exactly if the headers are
covered. -/
theorem initialCapacity_iff (mem : SlabHeap) (hregion : ∀ cls, (region cls).Ok)
    (hapart : ∀ cls cls', cls ≠ cls' →
      (region cls).base + (region cls).count * (region cls).bytes ≤ (region cls').base ∨
      (region cls').base + (region cls').count * (region cls').bytes ≤ (region cls).base)
    (calls : List PoolCall) {s : PoolRun}
    (hrun : exec poolStep (poolRunInit mem region) calls = some s)
    {itemSize itemCount flags new : ℕ} (hfresh : new ∉ s.run.mallocs)
    (hsmall : NoWrap s.run (.new itemSize itemCount flags (some new))) {h' : SlabHeap}
    (hnew : allocatorNew s.run.heap itemSize itemCount flags (some new) =
      some (aOk, some new, h')) :
    (∃ xs, IsList h'.links (.slabs new) xs ∧ itemCount ≤ (xs.map h'.maxItemsOn).sum) ∧
        HandsOut new itemCount h' ↔
      HeadersCovered (s.run.heap.slabBytes (classOfFlags flags)) (round16 itemSize) itemCount := by
  obtain ⟨ids, seq, hS⟩ := poolState_of_exec hregion hapart hrun
  obtain ⟨hcount, seq', hOk', hord, hcapacity⟩ := hS.new_capacity hfresh hsmall hnew
  have hid := Set.mem_insert new ids
  have hlist := hOk'.lists.isList (slabs_mem_listHeads hid)
  have hsum := hOk'.sum_maxItemsOn hid
  have hfree := hOk'.freeTotal_new fun it hit heq =>
    hfresh (hS.mallocs new (heq ▸ (hS.ok.liveItem it hit).1))
  rw [handsOut_iff hid itemCount hOk' hord, hfree, headersCovered_iff hcount, ← hcapacity, ← hsum]
  constructor
  · rintro ⟨-, hle⟩
    exact hle
  · exact fun hle => ⟨⟨_, hlist, hle⟩, hle⟩

/-- Two items of half a page each are to fit on one page, the first thing after the start. -/
theorem twoHalves_run : ∃ h',
    allocatorNew (poolRunInit zeroMem threePages).run.heap 2048 2 0 (some 1) =
        some (aOk, some 1, h') ∧
      IsList h'.links (.slabs 1) [.snode 65536] ∧ (h'.slab 65536).maxItems = 1 := by
  obtain ⟨⟨ret, alloc, h'⟩, hnew, hfacts⟩ := Option.map_eq_some_iff.1 (show
    (allocatorNew (poolRunInit zeroMem threePages).run.heap 2048 2 0 (some 1)).map (fun x =>
      (x.1, x.2.1, decide ((x.2.2.links (.slabs 1)).next = .snode 65536 ∧
        (x.2.2.links (.snode 65536)).prev = .slabs 1 ∧ (x.2.2.links (.snode 65536)).next = .slabs 1 ∧
        (x.2.2.links (.slabs 1)).prev = .snode 65536 ∧ (x.2.2.slab 65536).maxItems = 1))) =
      some (aOk, some 1, true) by decide +kernel)
  simp only [Prod.mk.injEq, decide_eq_true_eq] at hfacts
  obtain ⟨rfl, rfl, hfirst, hfirst', hlast, hlast', hmax⟩ := hfacts
  exact ⟨h', hnew, ⟨by decide, .cons_cons ⟨hfirst, hfirst'⟩ (.cons_cons ⟨hlast, hlast'⟩
    (.singleton _))⟩, hmax⟩

theorem initialCapacity_iff_twoHalves : ∃ h',
    allocatorNew (poolRunInit zeroMem threePages).run.heap 2048 2 0 (some 1) =
        some (aOk, some 1, h') ∧
      ((∃ xs, IsList h'.links (.slabs 1) xs ∧ 2 ≤ (xs.map h'.maxItemsOn).sum) ∧ HandsOut 1 2 h' ↔
        HeadersCovered ((poolRunInit zeroMem threePages).run.heap.slabBytes (classOfFlags 0))
          (round16 2048) 2) := by
  obtain ⟨h', hnew, -⟩ := twoHalves_run
  exact ⟨h', hnew, initialCapacity_iff zeroMem threePages_ok threePages_apart [] rfl (by decide)
    (by decide +kernel) hnew⟩

/-- But the page has only one. -/
theorem twoHalves_lacks : ∃ h',
    allocatorNew (poolRunInit zeroMem threePages).run.heap 2048 2 0 (some 1) =
        some (aOk, some 1, h') ∧
      ¬ ∃ xs, IsList h'.links (.slabs 1) xs ∧ 2 ≤ (xs.map h'.maxItemsOn).sum := by
  obtain ⟨h', hnew, hlist, hmax⟩ := twoHalves_run
  refine ⟨h', hnew, ?_⟩
  rintro ⟨xs, hxs, hle⟩
  rw [hxs.unique hlist] at hle
  simp [SlabHeap.maxItemsOn, hmax] at hle

end Start

end Tsl
