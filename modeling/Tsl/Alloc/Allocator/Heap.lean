import Mathlib.Algebra.GroupWithZero.Nat
import Mathlib.Tactic.Set
import Tsl.Alloc.Allocator.Slabs

set_option autoImplicit false

/-! # All slabs of all allocators

The invariant of the slab allocator (`SlabHeapOk`) has every page on one list, either of its class or
of one allocator, and every slab of an allocator in order (`SlabOk`). Each call changes one page at a
time (`OnlyPage`) and the list or lists that page is on; `SlabHeapOk.update` is the rule for that. -/

namespace Tsl

open Lib

/-- Where the pages of the classes are. -/
structure Pages (bytes : SlabClassId → ℕ) (pages : SlabClassId → Set ℕ) : Prop where
  bytes_pow : ∀ c, ∀ p ∈ pages c, ∃ k, 12 ≤ k ∧ k ≤ 31 ∧ bytes c = 2 ^ k
  aligned : ∀ c, ∀ p ∈ pages c, bytes c ∣ p
  below : ∀ c, ∀ p ∈ pages c, p + bytes c ≤ 2 ^ 64
  apart : ∀ c, ∀ p ∈ pages c, ∀ d, ∀ q ∈ pages d, p ≠ q → p + bytes c ≤ q ∨ q + bytes d ≤ p
  cls_eq : ∀ c d p, p ∈ pages c → p ∈ pages d → c = d

/-- The heads of the lists that pages are on. -/
def listHeads (ids : Set ℕ) : Set SlabNode :=
  { x | (∃ cls, x = .availSlabs cls) ∨ ∃ id ∈ ids, x = .slabs id }

/-- The class the pages on a list are of. -/
def SlabHeap.classOf (h : SlabHeap) : SlabNode → SlabClassId
  | .availSlabs cls => cls
  | .slabs id => (h.allocator id).allocState
  | _ => .normalSlabs

/-- The size of the pages of an allocator. -/
def SlabHeap.pageBytes (h : SlabHeap) (id : ℕ) : ℕ := h.slabBytes (h.allocator id).allocState

/-- The addresses that are in use. -/
def liveAddrs (live : List LiveItem) : Set ℕ := { a | ∃ it ∈ live, it.addr = a }

/-- What `allocator_new` writes into an allocator and nothing changes. -/
structure AllocatorOk (h : SlabHeap) (id : ℕ) : Prop where
  size_pos : 0 < (h.allocator id).itemSize
  size_aligned : 16 ∣ (h.allocator id).itemSize
  freeMask : (h.allocator id).freeMask = 2 ^ 64 - 1 - (h.pageBytes id - 1)

/-- The invariant: `seq` says which pages are on which list. -/
structure SlabHeapOk (h : SlabHeap) (pages : SlabClassId → Set ℕ) (ids : Set ℕ)
    (seq : SlabNode → List SlabNode) (live : List LiveItem) : Prop where
  geometry : Pages h.slabBytes pages
  lists : Lists h.links (listHeads ids) seq
  page : ∀ x ∈ listHeads ids, ∀ y ∈ seq x, ∃ p ∈ pages (h.classOf x), y = .snode p
  allocator : ∀ id ∈ ids, AllocatorOk h id
  slab : ∀ id ∈ ids, ∀ p, .snode p ∈ seq (.slabs id) → ∃ free,
    SlabOk (h.slab p) h.word p (h.allocator id).itemSize (h.pageBytes id) (liveAddrs live) free
  liveItem : ∀ it ∈ live, it.alloc ∈ ids ∧ .snode it.slab ∈ seq (.slabs it.alloc) ∧
    ∃ i < slabItems (h.pageBytes it.alloc) (h.allocator it.alloc).itemSize,
      it.addr = itemAddr it.slab (h.allocator it.alloc).itemSize i
  liveNodup : (live.map LiveItem.addr).Nodup

/-- `h'` differs from `h` in the page `p` only, and in the lists. -/
structure OnlyPage (h h' : SlabHeap) (p bytes : ℕ) : Prop where
  slabBytes : h'.slabBytes = h.slabBytes
  itemSize : ∀ id, (h'.allocator id).itemSize = (h.allocator id).itemSize
  freeMask : ∀ id, (h'.allocator id).freeMask = (h.allocator id).freeMask
  allocState : ∀ id, (h'.allocator id).allocState = (h.allocator id).allocState
  slab : ∀ q, q ≠ p → h'.slab q = h.slab q
  word : ∀ a, ¬ (p ≤ a ∧ a < p + bytes) → h'.word a = h.word a

section Invariant

variable {h h' : SlabHeap} {pages : SlabClassId → Set ℕ} {ids : Set ℕ}
  {seq seq' : SlabNode → List SlabNode} {live live' : List LiveItem} {p id : ℕ}
  {cls : SlabClassId}

theorem slabs_mem_listHeads (hid : id ∈ ids) : SlabNode.slabs id ∈ listHeads ids :=
  .inr ⟨id, hid, rfl⟩

theorem availSlabs_mem_listHeads (ids : Set ℕ) (cls : SlabClassId) :
    SlabNode.availSlabs cls ∈ listHeads ids := .inl ⟨cls, rfl⟩

theorem OnlyPage.pageBytes {bytes : ℕ} (hO : OnlyPage h h' p bytes) (id : ℕ) :
    h'.pageBytes id = h.pageBytes id := by
  rw [SlabHeap.pageBytes, SlabHeap.pageBytes, hO.slabBytes, hO.allocState]

theorem OnlyPage.classOf {bytes : ℕ} (hO : OnlyPage h h' p bytes) (x : SlabNode) :
    h'.classOf x = h.classOf x := by
  cases x with
  | slabs id => exact hO.allocState id
  | _ => rfl

/-- A page on the list of an allocator is a page of its class. -/
theorem SlabHeapOk.mem_pages (hOk : SlabHeapOk h pages ids seq live) {x : SlabNode}
    (hx : x ∈ listHeads ids) (hp : .snode p ∈ seq x) : p ∈ pages (h.classOf x) := by
  obtain ⟨q, hq, heq⟩ := hOk.page x hx _ hp
  rw [SlabNode.snode.injEq] at heq
  rwa [heq]

theorem SlabHeapOk.slabPage_of_mem (hOk : SlabHeapOk h pages ids seq live) (hid : id ∈ ids)
    (hp : p ∈ pages (h.allocator id).allocState) :
    SlabPage p (h.allocator id).itemSize (h.pageBytes id) where
  bytes_pow := hOk.geometry.bytes_pow _ p hp
  aligned := hOk.geometry.aligned _ p hp
  below := hOk.geometry.below _ p hp
  size_pos := (hOk.allocator id hid).size_pos
  size_aligned := (hOk.allocator id hid).size_aligned

theorem SlabHeapOk.slabPage (hOk : SlabHeapOk h pages ids seq live) (hid : id ∈ ids)
    (hp : .snode p ∈ seq (.slabs id)) : SlabPage p (h.allocator id).itemSize (h.pageBytes id) :=
  hOk.slabPage_of_mem hid (hOk.mem_pages (slabs_mem_listHeads hid) hp)

/-- No page is on two lists. -/
theorem SlabHeapOk.eq_of_mem (hOk : SlabHeapOk h pages ids seq live) {x y : SlabNode}
    (hx : x ∈ listHeads ids) (hy : y ∈ listHeads ids) (hpx : .snode p ∈ seq x)
    (hpy : .snode p ∈ seq y) : x = y :=
  hOk.lists.eq_of_mem hx hy (List.mem_cons_of_mem _ hpx) (List.mem_cons_of_mem _ hpy)

theorem SlabHeapOk.item_outside (hOk : SlabHeapOk h pages ids seq live) (hid : id ∈ ids) {q i : ℕ}
    (hq : q ∈ pages (h.allocator id).allocState) (hp : p ∈ pages cls) (hne : q ≠ p)
    (hi : i < slabItems (h.pageBytes id) (h.allocator id).itemSize) :
    ¬ (p ≤ itemAddr q (h.allocator id).itemSize i ∧
      itemAddr q (h.allocator id).itemSize i < p + h.slabBytes cls) := by
  have hP := hOk.slabPage_of_mem hid hq
  obtain ⟨hlo, hhi⟩ := hP.item_mem hi
  have hpos := hP.size_pos
  have hapart := hOk.geometry.apart _ q hq cls p hp hne
  change q + h.pageBytes id ≤ p ∨ p + h.slabBytes cls ≤ q at hapart
  omega

/-- **The rule for one call.** The page `p` of the class `cls` changes, and the lists it is on; all
other pages stay on their lists. -/
theorem SlabHeapOk.update (hOk : SlabHeapOk h pages ids seq live) (hp : p ∈ pages cls)
    (hO : OnlyPage h h' p (h.slabBytes cls)) (hlists : Lists h'.links (listHeads ids) seq')
    (hpage : ∀ x ∈ listHeads ids, ∀ y ∈ seq' x, y ∈ seq x ∨ (y = .snode p ∧ h.classOf x = cls))
    (hslab : ∀ id ∈ ids, .snode p ∈ seq' (.slabs id) → ∃ free, SlabOk (h'.slab p) h'.word p
      (h.allocator id).itemSize (h.pageBytes id) (liveAddrs live') free)
    (hlive : ∀ a, ¬ (p ≤ a ∧ a < p + h.slabBytes cls) → (a ∈ liveAddrs live' ↔ a ∈ liveAddrs live))
    (hliveItem : ∀ it ∈ live', it.alloc ∈ ids ∧ .snode it.slab ∈ seq' (.slabs it.alloc) ∧
      ∃ i < slabItems (h.pageBytes it.alloc) (h.allocator it.alloc).itemSize,
        it.addr = itemAddr it.slab (h.allocator it.alloc).itemSize i)
    (hnodup : (live'.map LiveItem.addr).Nodup) : SlabHeapOk h' pages ids seq' live' := by
  constructor
  · rw [hO.slabBytes]
    exact hOk.geometry
  · exact hlists
  · intro x hx y hy
    rw [hO.classOf]
    rcases hpage x hx y hy with hold | ⟨rfl, hcls⟩
    · exact hOk.page x hx y hold
    · exact ⟨p, hcls ▸ hp, rfl⟩
  · intro id hid
    obtain ⟨hpos, haligned, hmask⟩ := hOk.allocator id hid
    exact ⟨by rwa [hO.itemSize], by rwa [hO.itemSize], by rwa [hO.freeMask, hO.pageBytes]⟩
  · intro id hid q hq
    rw [hO.itemSize, hO.pageBytes]
    by_cases hqp : q = p
    · subst hqp
      exact hslab id hid hq
    · -- the other slabs, and their items, are on pages that did not change
      have hq' : .snode q ∈ seq (.slabs id) := by
        rcases hpage _ (slabs_mem_listHeads hid) _ hq with hold | ⟨heq, -⟩
        · exact hold
        · exact absurd (SlabNode.snode.inj heq) hqp
      have hmem := hOk.mem_pages (slabs_mem_listHeads hid) hq'
      obtain ⟨free, hS⟩ := hOk.slab id hid q hq'
      rw [hO.slab q hqp]
      refine ⟨free, hS.frame (fun i hi => ?_) (fun i hi => ?_)⟩
      · exact hO.word _ (hOk.item_outside hid hmem hp hqp hi)
      · exact hlive _ (hOk.item_outside hid hmem hp hqp hi)
  · intro it hit
    rw [hO.itemSize, hO.pageBytes]
    exact hliveItem it hit
  · exact hnodup

/-- The rule for a call that changes a slab of an allocator and at most its place in the list. -/
theorem SlabHeapOk.update_slab (hOk : SlabHeapOk h pages ids seq live) (hid : id ∈ ids)
    (hp : .snode p ∈ seq (.slabs id)) (hO : OnlyPage h h' p (h.pageBytes id))
    (hlists : Lists h'.links (listHeads ids) seq') (hmem : ∀ x y, y ∈ seq' x ↔ y ∈ seq x)
    (free : List ℕ) (hS : SlabOk (h'.slab p) h'.word p (h.allocator id).itemSize (h.pageBytes id)
      (liveAddrs live') free)
    (hlive : ∀ a, ¬ (p ≤ a ∧ a < p + h.pageBytes id) → (a ∈ liveAddrs live' ↔ a ∈ liveAddrs live))
    (hliveItem : ∀ it ∈ live', it ∈ live ∨ (it.alloc = id ∧ it.slab = p ∧
      ∃ i < slabItems (h.pageBytes id) (h.allocator id).itemSize,
        it.addr = itemAddr p (h.allocator id).itemSize i))
    (hnodup : (live'.map LiveItem.addr).Nodup) : SlabHeapOk h' pages ids seq' live' := by
  have hx := slabs_mem_listHeads hid
  refine hOk.update (hOk.mem_pages hx hp) hO hlists (fun x _ y hy => .inl ((hmem x y).1 hy)) ?_
    hlive ?_ hnodup
  · intro id' hid' hp'
    have heq := hOk.eq_of_mem hx (slabs_mem_listHeads hid') hp ((hmem _ _).1 hp')
    obtain rfl := SlabNode.slabs.inj heq
    exact ⟨free, hS⟩
  · intro it hit
    rcases hliveItem it hit with hold | ⟨rfl, rfl, hi⟩
    · obtain ⟨hid', hslab, hi⟩ := hOk.liveItem it hold
      exact ⟨hid', (hmem _ _).2 hslab, hi⟩
    · exact ⟨hid, (hmem _ _).2 hp, hi⟩

/-- Every allocator that has a slab still has one. -/
def KeepsSlabs (seq seq' : SlabNode → List SlabNode) : Prop :=
  ∀ id, seq (.slabs id) ≠ [] → seq' (.slabs id) ≠ []

theorem KeepsSlabs.of_mem (hmem : ∀ x y, y ∈ seq' x ↔ y ∈ seq x) : KeepsSlabs seq seq' := by
  intro id hne
  obtain ⟨y, hy⟩ := List.exists_mem_of_ne_nil _ hne
  exact List.ne_nil_of_mem ((hmem _ y).2 hy)

theorem KeepsSlabs.trans {seq'' : SlabNode → List SlabNode} (h₁ : KeepsSlabs seq seq')
    (h₂ : KeepsSlabs seq' seq'') : KeepsSlabs seq seq'' :=
  fun id hne => h₂ id (h₁ id hne)

/-- Rearranging one list keeps what is on the lists. -/
theorem mem_update_perm (seq : SlabNode → List SlabNode) {x : SlabNode} {ys : List SlabNode} (hperm : ys.Perm (seq x))
    (x' y : SlabNode) : y ∈ Function.update seq x ys x' ↔ y ∈ seq x' := by
  by_cases hx : x' = x
  · subst hx
    rw [Function.update_self]
    exact hperm.mem_iff
  · rw [Function.update_of_ne hx]

/-- The free items of the slab at a list entry. -/
def SlabHeap.freeOn (h : SlabHeap) : SlabNode → ℕ
  | .snode p => (h.slab p).freeItemCount
  | _ => 0

/-- No full slab comes before one with a free item. -/
def SlabHeap.Ordered (h : SlabHeap) (xs : List SlabNode) : Prop :=
  xs.Pairwise fun x y => h.freeOn x = 0 → h.freeOn y = 0

/-- What a call on the allocator `id` does to the lists. The last field is about the order of the
    slabs, for callers that keep track of it. -/
structure Moves (h h' : SlabHeap) (ids : Set ℕ) (id : ℕ) (seq seq' : SlabNode → List SlabNode) :
    Prop where
  others : ∀ id', id' ≠ id → seq' (.slabs id') = seq (.slabs id')
  onList : ∀ x ∈ listHeads ids, ∀ y ∈ seq x, ∃ x' ∈ listHeads ids, y ∈ seq' x'
  ordered : (∀ id ∈ ids, h.Ordered (seq (.slabs id))) → ∀ id ∈ ids, h'.Ordered (seq' (.slabs id))

theorem Moves.refl (h : SlabHeap) (ids : Set ℕ) (id : ℕ) (seq : SlabNode → List SlabNode) :
    Moves h h ids id seq seq :=
  ⟨fun _ _ => rfl, fun x hx _ hy => ⟨x, hx, hy⟩, fun hord => hord⟩

theorem Moves.trans {h'' : SlabHeap} {seq'' : SlabNode → List SlabNode}
    (h₁ : Moves h h' ids id seq seq') (h₂ : Moves h' h'' ids id seq' seq'') :
    Moves h h'' ids id seq seq'' where
  others := fun id' hne => (h₂.others id' hne).trans (h₁.others id' hne)
  onList := by
    intro x hx y hy
    obtain ⟨x', hx', hy'⟩ := h₁.onList x hx y hy
    exact h₂.onList x' hx' y hy'
  ordered := fun hord => h₂.ordered (h₁.ordered hord)

theorem OnlyPage.freeOn {bytes : ℕ} (hO : OnlyPage h h' p bytes) {y : SlabNode}
    (hy : y ≠ .snode p) : h'.freeOn y = h.freeOn y := by
  cases y with
  | snode q => exact congrArg Slab.freeItemCount (hO.slab q fun heq => hy (heq ▸ rfl))
  | _ => rfl

theorem SlabHeapOk.freeOn_erase {bytes : ℕ} (hOk : SlabHeapOk h pages ids seq live)
    (hid : id ∈ ids) (hO : OnlyPage h h' p bytes) :
    ∀ y ∈ (seq (.slabs id)).erase (.snode p), h'.freeOn y = h.freeOn y := by
  intro y hy
  apply hO.freeOn
  rintro rfl
  have hnd := (hOk.lists.isList (slabs_mem_listHeads hid)).nodup.of_cons
  exact (hnd.mem_erase_iff.1 hy).1 rfl

theorem SlabHeap.Ordered.congr {xs : List SlabNode} (hord : h.Ordered xs)
    (hfree : ∀ y ∈ xs, h'.freeOn y = h.freeOn y) : h'.Ordered xs := by
  refine List.Pairwise.imp_of_mem ?_ hord
  intro x y hx hy himp
  rw [hfree x hx, hfree y hy]
  exact himp

theorem SlabHeap.Ordered.sublist {xs ys : List SlabNode} (hord : h.Ordered xs)
    (hsub : ys.Sublist xs) : h.Ordered ys :=
  List.Pairwise.sublist hsub hord

theorem SlabHeap.Ordered.tail {x : SlabNode} {xs : List SlabNode} (hord : h.Ordered (x :: xs)) :
    h.Ordered xs :=
  hord.sublist (List.sublist_cons_self x xs)

theorem SlabHeap.Ordered.cons {xs : List SlabNode} (hord : h.Ordered xs) {x : SlabNode}
    (hx : h.freeOn x = 0 → ∀ y ∈ xs, h.freeOn y = 0) : h.Ordered (x :: xs) :=
  List.pairwise_cons.2 ⟨fun y hy hfull => hx hfull y hy, hord⟩

theorem SlabHeap.Ordered.append {xs : List SlabNode} (hord : h.Ordered xs) {x : SlabNode}
    (hx : h.freeOn x = 0) : h.Ordered (xs ++ [x]) := by
  refine List.pairwise_append.2 ⟨hord, List.pairwise_singleton _ _, fun y _ z hz _ => ?_⟩
  rwa [List.mem_singleton.1 hz]

/-- A page changes, which is not on the list of another allocator: the others keep their order. -/
theorem SlabHeapOk.ordered_of_page {bytes : ℕ} (hOk : SlabHeapOk h pages ids seq live)
    (hO : OnlyPage h h' p bytes) {x : SlabNode} (hx : x ∈ listHeads ids) (hp : .snode p ∈ seq x)
    (hxid : ∀ id' ∈ ids, x = .slabs id' → id' = id)
    (hothers : ∀ id', id' ≠ id → seq' (.slabs id') = seq (.slabs id'))
    (hmine : h.Ordered (seq (.slabs id)) → h'.Ordered (seq' (.slabs id)))
    (hord : ∀ id' ∈ ids, h.Ordered (seq (.slabs id'))) :
    ∀ id' ∈ ids, h'.Ordered (seq' (.slabs id')) := by
  intro id' hid'
  by_cases hne : id' = id
  · subst hne
    exact hmine (hord id' hid')
  · rw [hothers id' hne]
    refine (hord id' hid').congr fun y hy => hO.freeOn ?_
    rintro rfl
    exact hne (hxid id' hid' (hOk.eq_of_mem hx (slabs_mem_listHeads hid') hp hy))

theorem SlabHeapOk.moves_rearranged {bytes : ℕ} (hOk : SlabHeapOk h pages ids seq live)
    (hid : id ∈ ids) (hO : OnlyPage h h' p bytes) (hp : .snode p ∈ seq (.slabs id))
    {ys : List SlabNode} (hperm : ys.Perm (seq (.slabs id)))
    (hmine : h.Ordered (seq (.slabs id)) → h'.Ordered ys) :
    Moves h h' ids id seq (Function.update seq (.slabs id) ys) := by
  have hmem := mem_update_perm seq hperm
  have hothers : ∀ id', id' ≠ id →
      Function.update seq (.slabs id) ys (.slabs id') = seq (.slabs id') := fun id' hne =>
    Function.update_of_ne (fun heq => hne (SlabNode.slabs.inj heq)) _ _
  refine ⟨hothers, fun x hx y hy => ⟨x, hx, (hmem x y).2 hy⟩, ?_⟩
  refine hOk.ordered_of_page hO (slabs_mem_listHeads hid) hp
    (fun id' _ heq => (SlabNode.slabs.inj heq).symm) hothers ?_
  rwa [Function.update_self]

/-- The slabs of the allocator `id` may be in another order; the other lists are the same. -/
structure Rearranged (id : ℕ) (seq seq' : SlabNode → List SlabNode) : Prop where
  mine : (seq' (.slabs id)).Perm (seq (.slabs id))
  others : ∀ x, x ≠ .slabs id → seq' x = seq x

theorem Rearranged.refl (id : ℕ) (seq : SlabNode → List SlabNode) : Rearranged id seq seq :=
  ⟨List.Perm.refl _, fun _ _ => rfl⟩

theorem rearranged_update {ys : List SlabNode} (hperm : ys.Perm (seq (.slabs id))) :
    Rearranged id seq (Function.update seq (.slabs id) ys) where
  mine := by rwa [Function.update_self]
  others := fun _ hx => Function.update_of_ne hx _ _

theorem Rearranged.avail (h : Rearranged id seq seq') (cls : SlabClassId) :
    seq' (.availSlabs cls) = seq (.availSlabs cls) := h.others _ (by simp)

theorem Rearranged.keepsSlabs (h : Rearranged id seq seq') : KeepsSlabs seq seq' := by
  refine KeepsSlabs.of_mem fun x y => ?_
  by_cases hx : x = .slabs id
  · rw [hx, h.mine.mem_iff]
  · rw [h.others x hx]

/-! ### Counts over a list -/

/-- How many items of the slabs on a list are free. -/
def SlabHeap.freeTotal (h : SlabHeap) (xs : List SlabNode) : ℕ := (xs.map h.freeOn).sum

theorem SlabHeap.freeTotal_cons (x : SlabNode) (xs : List SlabNode) :
    h.freeTotal (x :: xs) = h.freeOn x + h.freeTotal xs := by
  rw [SlabHeap.freeTotal, List.map_cons, List.sum_cons]
  rfl

theorem SlabHeap.freeTotal_congr {xs : List SlabNode} (hfree : ∀ y ∈ xs, h'.freeOn y = h.freeOn y) :
    h'.freeTotal xs = h.freeTotal xs := by
  rw [SlabHeap.freeTotal, List.map_congr_left hfree]
  rfl

theorem SlabHeap.freeTotal_perm {xs ys : List SlabNode} (hperm : xs.Perm ys) :
    h.freeTotal xs = h.freeTotal ys :=
  (hperm.map _).sum_nat

/-- `max_items` of the slab at a list entry. -/
def SlabHeap.maxItemsOn (h : SlabHeap) : SlabNode → ℕ
  | .snode p => (h.slab p).maxItems
  | _ => 0

/-- `max_items` of an allocator is what its slabs have together. -/
def Tally (h : SlabHeap) (seq : SlabNode → List SlabNode) (id : ℕ) : Prop :=
  (h.allocator id).maxItems =
    (seq (.slabs id)).length * slabItems (h.pageBytes id) (h.allocator id).itemSize

/-- A call on the allocator `id` keeps this figure right, of every allocator. -/
structure Tallies (h h' : SlabHeap) (id : ℕ) (seq seq' : SlabNode → List SlabNode) : Prop where
  slabBytes : h'.slabBytes = h.slabBytes
  itemSize : ∀ id', (h'.allocator id').itemSize = (h.allocator id').itemSize
  allocState : ∀ id', (h'.allocator id').allocState = (h.allocator id').allocState
  others : ∀ id', id' ≠ id → (h'.allocator id').maxItems = (h.allocator id').maxItems
  mine : Tally h seq id → Tally h' seq' id

theorem Tallies.refl (h : SlabHeap) (id : ℕ) (seq : SlabNode → List SlabNode) :
    Tallies h h id seq seq := ⟨rfl, fun _ => rfl, fun _ => rfl, fun _ _ => rfl, fun ht => ht⟩

theorem Tallies.trans {h'' : SlabHeap} {seq'' : SlabNode → List SlabNode}
    (h₁ : Tallies h h' id seq seq') (h₂ : Tallies h' h'' id seq' seq'') :
    Tallies h h'' id seq seq'' where
  slabBytes := h₂.slabBytes.trans h₁.slabBytes
  itemSize := fun id' => (h₂.itemSize id').trans (h₁.itemSize id')
  allocState := fun id' => (h₂.allocState id').trans (h₁.allocState id')
  others := fun id' hne => (h₂.others id' hne).trans (h₁.others id' hne)
  mine := fun ht => h₂.mine (h₁.mine ht)

theorem Tallies.other (ht : Tallies h h' id seq seq') {id' : ℕ} (hne : id' ≠ id)
    (hseq : seq' (.slabs id') = seq (.slabs id')) : Tally h seq id' → Tally h' seq' id' := by
  intro h₀
  rw [Tally, ht.others id' hne, hseq, SlabHeap.pageBytes, ht.slabBytes, ht.allocState, ht.itemSize]
  exact h₀

theorem OnlyPage.tallies {bytes : ℕ} (hO : OnlyPage h h' p bytes)
    (hmax : ∀ id', (h'.allocator id').maxItems = (h.allocator id').maxItems)
    (hr : Rearranged id seq seq') : Tallies h h' id seq seq' := by
  refine ⟨hO.slabBytes, hO.itemSize, hO.allocState, fun id' _ => hmax id', fun h₀ => ?_⟩
  rw [Tally, hmax, hr.mine.length_eq, hO.pageBytes, hO.itemSize]
  exact h₀

/-- The slabs of an allocator have all the same number of items. -/
theorem SlabHeapOk.sum_maxItemsOn (hOk : SlabHeapOk h pages ids seq live) (hid : id ∈ ids) :
    ((seq (.slabs id)).map h.maxItemsOn).sum =
      (seq (.slabs id)).length * slabItems (h.pageBytes id) (h.allocator id).itemSize := by
  have hmap : (seq (.slabs id)).map h.maxItemsOn =
      (seq (.slabs id)).map fun _ => slabItems (h.pageBytes id) (h.allocator id).itemSize := by
    refine List.map_congr_left fun y hy => ?_
    obtain ⟨p, -, rfl⟩ := hOk.page _ (slabs_mem_listHeads hid) y hy
    obtain ⟨free, hS⟩ := hOk.slab id hid p hy
    exact hS.maxItems
  rw [hmap, List.map_const', List.sum_replicate_nat]

/-- The figure fits into its 64 bits, since the slabs do not overlap. -/
theorem SlabHeapOk.length_mul_lt (hOk : SlabHeapOk h pages ids seq live) (hid : id ∈ ids) :
    (seq (.slabs id)).length * slabItems (h.pageBytes id) (h.allocator id).itemSize < 2 ^ 64 := by
  have hx := slabs_mem_listHeads hid
  set bytes := h.pageBytes id with hbytes
  set b := slabItems bytes (h.allocator id).itemSize with hb
  cases hseq : seq (.slabs id) with
  | nil => simp
  | cons x rest =>
      have hmem : ∀ y ∈ x :: rest, ∃ i < 2 ^ 64 / bytes, y = .snode (i * bytes) := by
        intro y hy
        rw [← hseq] at hy
        obtain ⟨q, -, rfl⟩ := hOk.page _ hx y hy
        have hP := hOk.slabPage hid hy
        have hpos := hP.bytes_ge
        obtain ⟨i, hi⟩ := hP.aligned
        have hbelow := hP.below
        refine ⟨i, ?_, by rw [hi, Nat.mul_comm]⟩
        rw [← Nat.succ_le_iff, Nat.le_div_iff_mul_le (by omega), Nat.succ_mul, Nat.mul_comm i, ← hi]
        exact hbelow
      have hlen : (x :: rest).length ≤ 2 ^ 64 / bytes := by
        have hnd : (x :: rest).Nodup := hseq ▸ (hOk.lists.isList hx).nodup.of_cons
        have hsub : x :: rest ⊆ (List.range (2 ^ 64 / bytes)).map fun i => .snode (i * bytes) := by
          intro y hy
          obtain ⟨i, hi, rfl⟩ := hmem y hy
          exact List.mem_map.2 ⟨i, List.mem_range.2 hi, rfl⟩
        have hle := (List.subperm_of_subset hnd hsub).length_le
        rwa [List.length_map, List.length_range] at hle
      obtain ⟨q, -, rfl⟩ := hOk.page _ hx x (by rw [hseq]; exact List.mem_cons_self)
      have hP := hOk.slabPage hid (p := q) (by rw [hseq]; exact List.mem_cons_self)
      have hpos := hP.bytes_ge
      have hlt : b < bytes := by
        have hle : b ≤ bytes - firstObjOffset := Nat.div_le_self _ _
        rw [firstObjOffset_eq] at hle
        omega
      calc (SlabNode.snode q :: rest).length * b
          ≤ 2 ^ 64 / bytes * b := Nat.mul_le_mul_right b hlen
        _ < 2 ^ 64 / bytes * bytes := by
          refine Nat.mul_lt_mul_of_pos_left hlt (Nat.div_pos ?_ (by omega))
          exact hP.bytes_le.trans (by decide)
        _ ≤ 2 ^ 64 := Nat.div_mul_le_self _ _

end Invariant

/-! ## Taking an item from a slab -/

section Take

variable {h : SlabHeap} {pages : SlabClassId → Set ℕ} {ids : Set ℕ}
  {seq : SlabNode → List SlabNode} {live : List LiveItem} {p id : ℕ}

theorem mem_liveAddrs_cons {it : LiveItem} {a : ℕ} :
    a ∈ liveAddrs (it :: live) ↔ a = it.addr ∨ a ∈ liveAddrs live := by
  constructor
  · rintro ⟨it', hit', rfl⟩
    rcases List.mem_cons.1 hit' with rfl | hit'
    · exact .inl rfl
    · exact .inr ⟨it', hit', rfl⟩
  · rintro (rfl | ⟨it', hit', rfl⟩)
    · exact ⟨it, List.mem_cons_self, rfl⟩
    · exact ⟨it', List.mem_cons_of_mem _ hit', rfl⟩

/-- What `allocator_alloc` does with the first free item of a slab, before it looks at the list. -/
theorem allocatorTake_item (hOk : SlabHeapOk h pages ids seq live) (hid : id ∈ ids)
    (hp : .snode p ∈ seq (.slabs id)) {i : ℕ} {rest : List ℕ}
    (hS : SlabOk (h.slab p) h.word p (h.allocator id).itemSize (h.pageBytes id) (liveAddrs live)
      (i :: rest)) :
    ∃ item h₁, h₁.links = h.links ∧ h₁.allocator = h.allocator ∧
      (∀ links', OnlyPage h { h₁ with links := links' } p (h.pageBytes id)) ∧
      h₁.freeOn (.snode p) = rest.length ∧
      (∀ links' seq', Lists links' (listHeads ids) seq' → (∀ x y, y ∈ seq' x ↔ y ∈ seq x) →
        SlabHeapOk { h₁ with links := links' } pages ids seq'
          ({ alloc := id, addr := item, slab := p } :: live)) ∧
      allocatorTake h id p =
        if rest.length = 0 then (aOk, some item, { h₁ with
          links := listAppend (listDel h.links (.snode p)) (.slabs id) (.snode p) })
        else (aOk, some item, h₁) := by
  have hP := hOk.slabPage hid hp
  obtain ⟨hi, hnot, hfirst⟩ := hS.freeItems_eq
  obtain ⟨word', hfill, hframe, hchain⟩ := fillInNext_spec hP hS rfl
  have hcount : (h.slab p).freeItemCount = rest.length + 1 := hS.count
  set item := itemAddr p (h.allocator id).itemSize i with hitem
  set hdr : Slab := { h.slab p with
    freeItems := word' item, freeItemCount := (h.slab p).freeItemCount - 1 } with hhdr
  set h₁ := (({ h with word := word' } : SlabHeap).setSlab p hdr).setWord item 0 with hh₁
  have hslab₁ : h₁.slab p = hdr := Function.update_self _ _ _
  have hcount₁ : (h₁.slab p).freeItemCount = rest.length := by
    rw [hslab₁, hhdr, hcount]
    rfl
  have hpage : ∀ j < slabItems (h.pageBytes id) (h.allocator id).itemSize,
      p ≤ itemAddr p (h.allocator id).itemSize j ∧
        itemAddr p (h.allocator id).itemSize j < p + h.pageBytes id := by
    intro j hj
    have hmem := hP.item_mem hj
    have hpos := hP.size_pos
    omega
  have hO : ∀ links', OnlyPage h { h₁ with links := links' } p (h.pageBytes id) := by
    refine fun links' => ⟨rfl, fun _ => rfl, fun _ => rfl, fun _ => rfl,
      fun q hq => Function.update_of_ne hq _ _, fun a ha => ?_⟩
    have hne : a ≠ item := fun heq => ha (heq ▸ hpage i hi)
    exact (Function.update_of_ne hne _ _).trans
      (hframe a fun j hj heq => ha (heq ▸ hpage j hj))
  refine ⟨item, h₁, rfl, rfl, hO, hcount₁, fun links' seq' hlists hmem => ?_, ?_⟩
  · refine hOk.update_slab hid hp (hO links') hlists hmem rest ?_ ?_ ?_ ?_
    · rw [show ({ h₁ with links := links' } : SlabHeap).slab p = hdr from hslab₁]
      refine hS.take hP rfl rfl rfl hchain
        (fun a ha => Function.update_of_ne ha _ _) fun j _ => mem_liveAddrs_cons
    · intro a ha
      rw [mem_liveAddrs_cons]
      exact ⟨fun hor => hor.resolve_left fun heq => ha (heq ▸ hpage i hi), .inr⟩
    · intro it hit
      rcases List.mem_cons.1 hit with rfl | hit
      · exact .inr ⟨rfl, rfl, i, hi, rfl⟩
      · exact .inl hit
    · refine List.nodup_cons.2 ⟨fun hmem => hnot ?_, hOk.liveNodup⟩
      obtain ⟨it, hit, haddr⟩ := List.mem_map.1 hmem
      exact ⟨it, hit, haddr⟩
  · have hne0 : item ≠ 0 := Nat.ne_of_gt itemAddr_pos
    rw [allocatorTake, if_neg (by omega), hfirst]
    simp only [if_neg hne0, hfill]
    rw [← hcount₁]
    rfl

/-- `allocator_alloc` with the first slab at hand: there is no free item, or the first one goes live,
and the slab, if it is full then, to the end of the list. -/
theorem allocatorTake_spec (hOk : SlabHeapOk h pages ids seq live) (hid : id ∈ ids)
    {others : List SlabNode} (hseq : seq (.slabs id) = .snode p :: others) :
    ((h.slab p).freeItemCount = 0 ∧ allocatorTake h id p = (aENomem, none, h)) ∨
      (h.slab p).freeItemCount ≠ 0 ∧ ∃ item h' seq',
        allocatorTake h id p = (aOk, some item, h') ∧
        SlabHeapOk h' pages ids seq' ({ alloc := id, addr := item, slab := p } :: live) ∧
        Moves h h' ids id seq seq' ∧ Rearranged id seq seq' ∧ Tallies h h' id seq seq' ∧
        h'.freeTotal (seq' (.slabs id)) + 1 = h.freeTotal (seq (.slabs id)) := by
  have hp : .snode p ∈ seq (.slabs id) := by
    rw [hseq]
    exact List.mem_cons_self
  obtain ⟨free, hS⟩ := hOk.slab id hid p hp
  have hx := slabs_mem_listHeads hid
  cases free with
  | nil =>
      have hzero : (h.slab p).freeItemCount = 0 := hS.count
      exact .inl ⟨hzero, by rw [allocatorTake, if_pos hzero]⟩
  | cons i rest =>
      refine .inr ⟨by rw [hS.count, List.length_cons]; omega, ?_⟩
      obtain ⟨item, h₁, hlinks, hsame, hO, hleft, hkey, htake⟩ := allocatorTake_item hOk hid hp hS
      have hmax : ∀ links' id', (({ h₁ with links := links' } : SlabHeap).allocator id').maxItems =
          (h.allocator id').maxItems := fun _ id' => by rw [hsame]
      have herase : (seq (.slabs id)).erase (.snode p) = others := by
        rw [hseq, List.erase_cons_head]
      have hotherFree : ∀ links' y, y ∈ others →
          ({ h₁ with links := links' } : SlabHeap).freeOn y = h.freeOn y := fun links' y hy =>
        hOk.freeOn_erase hid (hO links') y (herase ▸ hy)
      have htotal : ∀ links', ({ h₁ with links := links' } : SlabHeap).freeTotal
          (.snode p :: others) + 1 = h.freeTotal (seq (.slabs id)) := by
        intro links'
        have hbefore : h.freeOn (.snode p) = rest.length + 1 := hS.count
        have hafter : ({ h₁ with links := links' } : SlabHeap).freeOn (.snode p) = rest.length := hleft
        rw [hseq, SlabHeap.freeTotal_cons, SlabHeap.freeTotal_cons, hbefore, hafter,
          SlabHeap.freeTotal_congr (hotherFree links')]
        omega
      by_cases hrest : rest.length = 0
      · -- that was the last item, so the slab goes behind those that have one
        rw [if_pos hrest] at htake
        have hperm := (List.perm_append_singleton _ _).trans (List.perm_cons_erase hp).symm
        have hmem := mem_update_perm seq hperm
        have hr : Rearranged id seq _ := rearranged_update hperm
        refine ⟨item, _, _, htake, hkey _ _ (lists_moveLast hOk.lists hx hp) hmem,
          hOk.moves_rearranged hid (hO _) hp hperm fun hord => ?_, hr,
          (hO _).tallies (hmax _) hr, ?_⟩
        · rw [herase]
          rw [hseq] at hord
          exact (hord.tail.congr (hotherFree _)).append (hleft.trans hrest)
        · rw [← htotal _, SlabHeap.freeTotal_perm (hr.mine.trans (List.Perm.of_eq hseq))]
      · rw [if_neg hrest] at htake
        refine ⟨item, _, _, htake, hkey _ _ (hlinks ▸ hOk.lists) fun _ _ => Iff.rfl, ?_,
          Rearranged.refl id seq, (hO h₁.links).tallies (hmax _) (Rearranged.refl id seq), ?_⟩
        · have hmoves := hOk.moves_rearranged hid (hO h₁.links) hp (List.Perm.refl _) fun hord => ?_
          · rwa [Function.update_eq_self] at hmoves
          rw [hseq] at hord ⊢
          exact (hord.tail.congr (hotherFree h₁.links)).cons fun hfull =>
            absurd (hleft.symm.trans hfull) hrest
        · rw [← htotal h₁.links, hseq]

end Take

/-! ## Giving an item back -/

section Give

variable {h : SlabHeap} {pages : SlabClassId → Set ℕ} {ids : Set ℕ}
  {seq seq' : SlabNode → List SlabNode} {live : List LiveItem} {p id : ℕ} {it : LiveItem}
  {cls : SlabClassId}

theorem mem_liveAddrs_erase (hnd : (live.map LiveItem.addr).Nodup) (hit : it ∈ live) {a : ℕ} :
    a ∈ liveAddrs (live.erase it) ↔ a ∈ liveAddrs live ∧ a ≠ it.addr := by
  have hperm := List.perm_cons_erase hit
  have hnd' := (hperm.map LiveItem.addr).nodup hnd
  rw [List.map_cons, List.nodup_cons] at hnd'
  constructor
  · rintro ⟨it', hit', rfl⟩
    refine ⟨⟨it', List.mem_of_mem_erase hit', rfl⟩, fun heq => hnd'.1 ?_⟩
    exact heq ▸ List.mem_map_of_mem hit'
  · rintro ⟨⟨it', hit', rfl⟩, hne⟩
    rcases List.mem_cons.1 (hperm.mem_iff.1 hit') with rfl | hmem
    · exact absurd rfl hne
    · exact ⟨it', hmem, rfl⟩

/-- The lists after a page went from an allocator back to its class. -/
def releasePage (seq : SlabNode → List SlabNode) (cls : SlabClassId) (id p : ℕ) :
    SlabNode → List SlabNode :=
  Function.update (Function.update seq (.slabs id) ((seq (.slabs id)).erase (.snode p)))
    (.availSlabs cls) (seq (.availSlabs cls) ++ [.snode p])

theorem releasePage_slabs (cls : SlabClassId) (id' : ℕ) :
    releasePage seq cls id p (.slabs id') =
      if id' = id then (seq (.slabs id)).erase (.snode p) else seq (.slabs id') := by
  rw [releasePage, Function.update_of_ne (by simp)]
  by_cases hid : id' = id
  · rw [if_pos hid, hid, Function.update_self]
  · rw [if_neg hid, Function.update_of_ne fun heq => hid (SlabNode.slabs.inj heq)]

theorem mem_releasePage_availSlabs (cls cls' : SlabClassId) (y : SlabNode) :
    y ∈ releasePage seq cls id p (.availSlabs cls') ↔
      y ∈ seq (.availSlabs cls') ∨ (cls' = cls ∧ y = .snode p) := by
  by_cases hcls : cls' = cls
  · subst hcls
    rw [releasePage, Function.update_self, List.mem_append, List.mem_singleton]
    simp
  · have hne : SlabNode.availSlabs cls' ≠ .availSlabs cls := fun heq =>
      hcls (SlabNode.availSlabs.inj heq)
    rw [releasePage, Function.update_of_ne hne, Function.update_of_ne (by simp)]
    simp [hcls]

/-- **A slab less**: a slab none of whose items is live becomes an available page. -/
theorem releasePage_ok (hOk : SlabHeapOk h pages ids seq live) (hid : id ∈ ids)
    (hp : .snode p ∈ seq (.slabs id)) {h' : SlabHeap} (hO : OnlyPage h h' p (h.pageBytes id))
    (hlinks : h'.links = listAppend (listDel h.links (.snode p))
      (.availSlabs (h.allocator id).allocState) (.snode p)) {live' : List LiveItem}
    (hsub : ∀ it ∈ live', it ∈ live)
    (hempty : ∀ i < slabItems (h.pageBytes id) (h.allocator id).itemSize,
      itemAddr p (h.allocator id).itemSize i ∉ liveAddrs live')
    (hlive : ∀ a, ¬ (p ≤ a ∧ a < p + h.pageBytes id) → (a ∈ liveAddrs live' ↔ a ∈ liveAddrs live))
    (hnodup : (live'.map LiveItem.addr).Nodup) :
    SlabHeapOk h' pages ids (releasePage seq (h.allocator id).allocState id p) live' ∧
      Moves h h' ids id seq (releasePage seq (h.allocator id).allocState id p) := by
  set cls := (h.allocator id).allocState with hcls
  have hx := slabs_mem_listHeads hid
  have hnd := (hOk.lists.isList hx).nodup.of_cons
  have hlists := lists_listAppend (lists_listDel hOk.lists hx hp)
    (availSlabs_mem_listHeads ids cls) (hOk.lists.outside_erase hx hp)
  rw [Function.update_of_ne (show SlabNode.availSlabs cls ≠ .slabs id by simp)] at hlists
  refine ⟨hOk.update (hOk.mem_pages hx hp) hO ?_ ?_ ?_ hlive ?_ hnodup, ?_, ?_, ?_⟩
  · rw [hlinks]
    exact hlists
  · rintro x (⟨cls', rfl⟩ | ⟨id', -, rfl⟩) y hy
    · rcases (mem_releasePage_availSlabs _ _ _).1 hy with hold | ⟨rfl, rfl⟩
      · exact .inl hold
      · exact .inr ⟨rfl, rfl⟩
    · rw [releasePage_slabs] at hy
      split at hy
      · next heq => exact .inl (heq ▸ List.mem_of_mem_erase hy)
      · exact .inl hy
  · intro id' hid' hp'
    rw [releasePage_slabs] at hp'
    split at hp'
    · exact absurd rfl (hnd.mem_erase_iff.1 hp').1
    · next hne =>
      exact absurd (SlabNode.slabs.inj (hOk.eq_of_mem hx (slabs_mem_listHeads hid') hp hp')).symm hne
  · intro it hit
    obtain ⟨hid', hslab', j, hj, haddr⟩ := hOk.liveItem it (hsub it hit)
    refine ⟨hid', ?_, j, hj, haddr⟩
    rw [releasePage_slabs]
    split
    · next heq =>
      rw [heq] at hslab' hj haddr
      refine (List.mem_erase_of_ne fun hp' => ?_).2 hslab'
      rw [SlabNode.snode.injEq] at hp'
      exact hempty j hj ⟨it, hit, by rw [haddr, hp']⟩
    · exact hslab'
  · intro id' hne
    rw [releasePage_slabs, if_neg hne]
  · rintro x (⟨cls', rfl⟩ | ⟨id', hid', rfl⟩) y hy
    · exact ⟨_, availSlabs_mem_listHeads _ cls', (mem_releasePage_availSlabs _ _ _).2 (.inl hy)⟩
    · by_cases heq : id' = id ∧ y = .snode p
      · exact ⟨_, availSlabs_mem_listHeads _ cls,
          (mem_releasePage_availSlabs _ _ _).2 (.inr ⟨rfl, heq.2⟩)⟩
      · refine ⟨_, slabs_mem_listHeads hid', ?_⟩
        rw [releasePage_slabs]
        split
        · next hid'' =>
          subst hid''
          exact (List.mem_erase_of_ne fun hyp => heq ⟨rfl, hyp⟩).2 hy
        · exact hy
  · refine hOk.ordered_of_page hO hx hp (fun id' _ heq => (SlabNode.slabs.inj heq).symm)
      (fun id' hne => by rw [releasePage_slabs, if_neg hne]) fun hord => ?_
    rw [releasePage_slabs, if_pos rfl]
    exact (hord.sublist (List.erase_sublist)).congr (hOk.freeOn_erase hid hO)

/-- A live item lies on its page. -/
theorem SlabHeapOk.live_on_page (hOk : SlabHeapOk h pages ids seq live) (hit : it ∈ live) :
    it.slab ≤ it.addr ∧ it.addr < it.slab + h.pageBytes it.alloc := by
  obtain ⟨hid, hp, i, hi, haddr⟩ := hOk.liveItem it hit
  have hP := hOk.slabPage hid hp
  have hmem := hP.item_mem hi
  have hpos := hP.size_pos
  omega

/-- The live items in a slab are those that came from it. -/
theorem SlabHeapOk.live_in_slab_iff (hOk : SlabHeapOk h pages ids seq live) (hid : id ∈ ids)
    (hp : .snode p ∈ seq (.slabs id)) {live' : List LiveItem} (hsub : ∀ it ∈ live', it ∈ live) :
    (∃ i < slabItems (h.pageBytes id) (h.allocator id).itemSize,
      itemAddr p (h.allocator id).itemSize i ∈ liveAddrs live') ↔ ∃ it ∈ live', it.slab = p := by
  have hx := slabs_mem_listHeads hid
  constructor
  · rintro ⟨i, hi, it, hit, haddr⟩
    obtain ⟨hid', hslab, -⟩ := hOk.liveItem it (hsub it hit)
    refine ⟨it, hit, ?_⟩
    by_contra hne
    have hq := hOk.mem_pages (slabs_mem_listHeads hid') hslab
    have hon := hOk.live_on_page (hsub it hit)
    rw [haddr] at hon
    exact hOk.item_outside hid (hOk.mem_pages hx hp) hq (fun heq => hne heq.symm) hi hon
  · rintro ⟨it, hit, rfl⟩
    obtain ⟨hid', hslab, i, hi, haddr⟩ := hOk.liveItem it (hsub it hit)
    obtain rfl := SlabNode.slabs.inj (hOk.eq_of_mem (slabs_mem_listHeads hid') hx hslab hp)
    exact ⟨i, hi, it, hit, haddr⟩

/-- Not all items of a slab are free exactly if one is live. -/
theorem SlabHeapOk.busy_iff (hOk : SlabHeapOk h pages ids seq live) (hid : id ∈ ids)
    (hp : .snode p ∈ seq (.slabs id)) :
    (h.slab p).maxItems ≠ (h.slab p).freeItemCount ↔ ∃ it ∈ live, it.slab = p := by
  obtain ⟨free, hS⟩ := hOk.slab id hid p hp
  rw [ne_comm, ne_eq, hS.count_eq_maxItems_iff, ← hOk.live_in_slab_iff hid hp fun it hit => hit]
  push Not
  rfl

theorem SlabHeapOk.live_erase_outside (hOk : SlabHeapOk h pages ids seq live) (hit : it ∈ live) (a : ℕ)
    (ha : ¬ (it.slab ≤ a ∧ a < it.slab + h.pageBytes it.alloc)) :
    a ∈ liveAddrs (live.erase it) ↔ a ∈ liveAddrs live := by
  rw [mem_liveAddrs_erase hOk.liveNodup hit]
  exact and_iff_left fun heq => ha (heq ▸ hOk.live_on_page hit)

/-- What `allocator_free` does with the item and its slab, before it looks at the list. -/
theorem allocatorFree_item (hOk : SlabHeapOk h pages ids seq live) (hit : it ∈ live) :
    ∃ h₁, h₁.links = h.links ∧ h₁.allocator = h.allocator ∧
      (∀ links', OnlyPage h { h₁ with links := links' } it.slab (h.pageBytes it.alloc)) ∧
      h₁.freeOn (.snode it.slab) ≠ 0 ∧
      (∀ links' seq', Lists links' (listHeads ids) seq' → (∀ x y, y ∈ seq' x ↔ y ∈ seq x) →
        SlabHeapOk { h₁ with links := links' } pages ids seq' (live.erase it)) ∧
      ((h₁.slab it.slab).freeItemCount = (h₁.slab it.slab).maxItems ↔
        ∀ i < slabItems (h.pageBytes it.alloc) (h.allocator it.alloc).itemSize,
          itemAddr it.slab (h.allocator it.alloc).itemSize i ∉ liveAddrs (live.erase it)) ∧
      allocatorFree h it.alloc it.addr =
        if (h₁.slab it.slab).freeItemCount = (h₁.slab it.slab).maxItems then
          if (h.links (.slabs it.alloc)).next ≠ (h.links (.slabs it.alloc)).prev then
            (aOk, { h₁ with
              links := listAppend (listDel h.links (.snode it.slab))
                (.availSlabs (h.allocator it.alloc).allocState) (.snode it.slab) })
          else (aOk, h₁)
        else (aOk, { h₁ with
          links := listPrepend (listDel h.links (.snode it.slab)) (.slabs it.alloc)
            (.snode it.slab) }) := by
  obtain ⟨hid, hp, i, hi, haddr⟩ := hOk.liveItem it hit
  obtain ⟨free, hS⟩ := hOk.slab _ hid _ hp
  have hP := hOk.slabPage hid hp
  have hlive : itemAddr it.slab (h.allocator it.alloc).itemSize i ∈ liveAddrs live :=
    ⟨it, hit, haddr⟩
  have hpage := hOk.live_on_page hit
  have hmask : it.addr &&& (h.allocator it.alloc).freeMask = it.slab := by
    rw [(hOk.allocator _ hid).freeMask]
    exact hP.and_mask hpage.1 hpage.2
  have hcount : ((h.slab it.slab).freeItemCount + 1) % 2 ^ 32 =
      (h.slab it.slab).freeItemCount + 1 := by
    have := hS.count_lt hi hlive
    have := hP.slabItems_lt
    exact Nat.mod_eq_of_lt (by omega)
  set hdr : Slab := { h.slab it.slab with
    freeItems := it.addr, freeItemCount := (h.slab it.slab).freeItemCount + 1 } with hhdr
  set h₁ := (h.setWord it.addr (h.slab it.slab).freeItems).setSlab it.slab hdr with hh₁
  have hslab₁ : h₁.slab it.slab = hdr := Function.update_self _ _ _
  have hS₁ : SlabOk (h₁.slab it.slab) h₁.word it.slab (h.allocator it.alloc).itemSize
      (h.pageBytes it.alloc) (liveAddrs (live.erase it)) (i :: free) := by
    rw [hslab₁]
    refine hS.give hP hi hlive rfl rfl rfl haddr (haddr ▸ rfl) fun j _ => ?_
    rw [mem_liveAddrs_erase hOk.liveNodup hit, haddr]
  have hO : ∀ links', OnlyPage h { h₁ with links := links' } it.slab (h.pageBytes it.alloc) := by
    refine fun links' => ⟨rfl, fun _ => rfl, fun _ => rfl, fun _ => rfl,
      fun q hq => Function.update_of_ne hq _ _, fun a ha => ?_⟩
    have hne : a ≠ it.addr := fun heq => ha (heq ▸ hpage)
    exact Function.update_of_ne hne _ _
  refine ⟨h₁, rfl, rfl, hO, ?_, fun links' seq' hlists hmem => ?_, hS₁.count_eq_maxItems_iff, ?_⟩
  · change (h₁.slab it.slab).freeItemCount ≠ 0
    rw [hslab₁]
    exact Nat.succ_ne_zero _
  · exact hOk.update_slab hid hp (hO links') hlists hmem (i :: free) hS₁
      (hOk.live_erase_outside hit) (fun it' hit' => .inl (List.mem_of_mem_erase hit'))
      (hOk.liveNodup.sublist (List.erase_sublist.map _))
  · have hshrink : ∀ hall : (h₁.slab it.slab).freeItemCount = (h₁.slab it.slab).maxItems,
        helperAllocatorShrink h₁ it.alloc it.slab = (aOk, { h₁ with
          links := listAppend (listDel h.links (.snode it.slab))
            (.availSlabs (h.allocator it.alloc).allocState) (.snode it.slab) }) := fun hall => by
      rw [helperAllocatorShrink, if_neg (not_not.2 hall)]
      rfl
    have hne0 : it.addr ≠ 0 := haddr ▸ Nat.ne_of_gt itemAddr_pos
    rw [allocatorFree, if_neg hne0]
    simp only [hmask, hcount]
    change (if (h₁.slab it.slab).freeItemCount = (h₁.slab it.slab).maxItems then
      if (h.links (.slabs it.alloc)).next ≠ (h.links (.slabs it.alloc)).prev then
        helperAllocatorShrink h₁ it.alloc it.slab
      else (aOk, h₁) else _) = _
    split
    · next hall => rw [hshrink hall]
    · rfl

/-- What `allocator_free` does with the slab of the item. It goes back to its class if no item of it is
    live any more, unless it is the only one. -/
inductive Freed (seq seq' : SlabNode → List SlabNode) (cls : SlabClassId) (live : List LiveItem)
    (it : LiveItem) : Prop where
  | kept (hwhy : (∃ it' ∈ live.erase it, it'.slab = it.slab) ∨
        ∀ y ∈ seq (.slabs it.alloc), y = .snode it.slab)
      (hseq : Rearranged it.alloc seq seq')
  | returned (hempty : ∀ it' ∈ live.erase it, it'.slab ≠ it.slab)
      (hothers : ∃ y ∈ seq (.slabs it.alloc), y ≠ .snode it.slab)
      (hseq : seq' = releasePage seq cls it.alloc it.slab)

theorem Freed.keepsSlabs (hf : Freed seq seq' cls live it) : KeepsSlabs seq seq' := by
  cases hf with
  | kept _ hseq => exact hseq.keepsSlabs
  | returned _ hothers hseq =>
      intro id' hne
      rw [hseq, releasePage_slabs]
      split
      · obtain ⟨y, hy, hyp⟩ := hothers
        exact List.ne_nil_of_mem ((List.mem_erase_of_ne hyp).2 hy)
      · exact hne

/-- `allocator_free` of a live item. -/
theorem allocatorFree_spec (hOk : SlabHeapOk h pages ids seq live) (hit : it ∈ live) :
    ∃ h' seq', allocatorFree h it.alloc it.addr = (aOk, h') ∧
      SlabHeapOk h' pages ids seq' (live.erase it) ∧ Moves h h' ids it.alloc seq seq' ∧
      h'.slabBytes = h.slabBytes ∧ h'.allocator = h.allocator ∧
      Freed seq seq' (h.allocator it.alloc).allocState live it := by
  obtain ⟨hid, hp, -⟩ := hOk.liveItem it hit
  have hx := slabs_mem_listHeads hid
  have hlist := hOk.lists.isList hx
  have hsub : ∀ it' ∈ live.erase it, it' ∈ live := fun it' hit' => List.mem_of_mem_erase hit'
  obtain ⟨h₁, hlinks, hsame, hO, hleft, hkey, hempty, hfree⟩ := allocatorFree_item hOk hit
  have hin := hOk.live_in_slab_iff hid hp hsub
  by_cases hall : (h₁.slab it.slab).freeItemCount = (h₁.slab it.slab).maxItems
  · rw [if_pos hall] at hfree
    have hnone := hempty.1 hall
    by_cases hothers : (h.links (.slabs it.alloc)).next ≠ (h.links (.slabs it.alloc)).prev
    · -- an empty slab of several goes back to its class
      rw [if_pos hothers] at hfree
      obtain ⟨hOk', hmoves⟩ := releasePage_ok hOk hid hp (hO _) rfl hsub hnone
        (hOk.live_erase_outside hit) (hOk.liveNodup.sublist (List.erase_sublist.map _))
      refine ⟨_, _, hfree, hOk', hmoves, (hO h.links).slabBytes, hsame, .returned ?_ ?_ rfl⟩
      · intro it' hit' heq
        obtain ⟨i, hi, hmem⟩ := hin.2 ⟨it', hit', heq⟩
        exact hnone i hi hmem
      · rw [ne_eq, hlist.next_eq_prev_iff hp] at hothers
        push Not at hothers
        exact hothers
    · rw [if_neg hothers] at hfree
      -- the only slab stays
      have hend := not_not.1 hothers
      refine ⟨_, _, hfree, hkey _ _ (hlinks ▸ hOk.lists) fun _ _ => Iff.rfl, ?_,
        (hO h.links).slabBytes, hsame, .kept (.inr ((hlist.next_eq_prev_iff hp).1 hend))
        (Rearranged.refl _ seq)⟩
      have hmoves := hOk.moves_rearranged hid (hO h₁.links) hp (List.Perm.refl _) fun _ => ?_
      · rwa [Function.update_eq_self] at hmoves
      rw [hlist.eq_singleton hp hend]
      exact List.pairwise_singleton _ _
  · -- the slab has a free item now, and goes to the front
    rw [if_neg hall] at hfree
    have hperm := (List.perm_cons_erase hp).symm
    have hmem := mem_update_perm seq hperm
    refine ⟨_, _, hfree, hkey _ _ (lists_moveFirst hOk.lists hx hp) hmem,
      hOk.moves_rearranged hid (hO _) hp hperm fun hord => ?_, (hO h.links).slabBytes, hsame,
      .kept (.inl (hin.1 ?_)) (rearranged_update hperm)⟩
    · refine ((hord.sublist List.erase_sublist).congr (hOk.freeOn_erase hid (hO _))).cons
        fun hfull => ?_
      exact absurd hfull hleft
    · rw [hempty] at hall
      push Not at hall
      exact hall

end Give

/-! ## Acquiring pages -/

section Acquire

variable {h : SlabHeap} {pages : SlabClassId → Set ℕ} {ids : Set ℕ}
  {seq : SlabNode → List SlabNode} {live : List LiveItem} {p id : ℕ} {cls : SlabClassId}

/-- `__allocator_acquire_page`: there is no page, or the first one is taken off the list. -/
theorem allocatorAcquirePage_cases (hOk : SlabHeapOk h pages ids seq live) (cls : SlabClassId) :
    (seq (.availSlabs cls) = [] ∧ allocatorAcquirePage h cls = some (aENomem, none, h)) ∨
      ∃ p rest, seq (.availSlabs cls) = .snode p :: rest ∧
        allocatorAcquirePage h cls =
          some (aOk, some p, { h with links := listDel h.links (.snode p) }) := by
  have hx := availSlabs_mem_listHeads ids cls
  have hlist := hOk.lists.isList hx
  rw [allocatorAcquirePage]
  cases hseq : seq (.availSlabs cls) with
  | nil => exact .inl ⟨rfl, if_pos ((listEmpty_iff hlist).2 hseq)⟩
  | cons x rest =>
      obtain ⟨p, -, rfl⟩ := hOk.page _ hx x (by rw [hseq]; exact List.mem_cons_self)
      have hne : ¬ listEmpty h.links (.availSlabs cls) = true := by
        rw [listEmpty_iff hlist, hseq]
        exact List.cons_ne_nil _ _
      rw [hseq] at hlist
      have hnext : (h.links (.availSlabs cls)).next = .snode p := hlist.next_first.1
      refine .inr ⟨p, rest, rfl, ?_⟩
      rw [if_neg hne, hnext]
      rfl

theorem SlabHeapOk.page_not_mem (hOk : SlabHeapOk h pages ids seq live) {y : SlabNode}
    {rest : List SlabNode} (hseq : seq (.availSlabs cls) = y :: rest) : y ∉ rest := by
  have hnd := (hOk.lists.isList (availSlabs_mem_listHeads ids cls)).nodup.of_cons
  rw [hseq] at hnd
  exact (List.nodup_cons.1 hnd).1

/-- A live item is on no page of a class that is available. -/
theorem SlabHeapOk.avail_not_live (hOk : SlabHeapOk h pages ids seq live)
    (hp : .snode p ∈ seq (.availSlabs cls)) {a : ℕ} (ha : a ∈ liveAddrs live) :
    ¬ (p ≤ a ∧ a < p + h.slabBytes cls) := by
  obtain ⟨it, hit, rfl⟩ := ha
  obtain ⟨hid, hslab, i, hi, haddr⟩ := hOk.liveItem it hit
  have hx := slabs_mem_listHeads hid
  have hne : it.slab ≠ p := by
    intro heq
    have := hOk.eq_of_mem hx (availSlabs_mem_listHeads _ _) hslab (heq ▸ hp)
    cases this
  rw [haddr]
  exact hOk.item_outside hid (hOk.mem_pages hx hslab)
    (hOk.mem_pages (availSlabs_mem_listHeads _ _) hp) hne hi

/-- The lists after a page went from its class to an allocator. -/
def movePage (seq : SlabNode → List SlabNode) (cls : SlabClassId) (id p : ℕ) :
    SlabNode → List SlabNode :=
  Function.update (Function.update seq (.availSlabs cls) ((seq (.availSlabs cls)).erase (.snode p)))
    (.slabs id) (.snode p :: seq (.slabs id))

theorem movePage_slabs (id' : ℕ) :
    movePage seq cls id p (.slabs id') =
      if id' = id then .snode p :: seq (.slabs id) else seq (.slabs id') := by
  by_cases hid : id' = id
  · rw [if_pos hid, hid, movePage, Function.update_self]
  · have hne : SlabNode.slabs id' ≠ .slabs id := fun heq => hid (SlabNode.slabs.inj heq)
    rw [if_neg hid, movePage, Function.update_of_ne hne, Function.update_of_ne (by simp)]

theorem mem_movePage {x y : SlabNode} (hy : y ∈ movePage seq cls id p x) :
    y ∈ seq x ∨ y = .snode p ∧ x = .slabs id := by
  by_cases hxs : x = .slabs id
  · subst hxs
    rw [movePage_slabs, if_pos rfl] at hy
    exact (List.mem_cons.1 hy).symm.imp_right fun heq => ⟨heq, rfl⟩
  · rw [movePage, Function.update_of_ne hxs] at hy
    by_cases hxa : x = .availSlabs cls
    · subst hxa
      rw [Function.update_self] at hy
      exact .inl (List.mem_of_mem_erase hy)
    · rw [Function.update_of_ne hxa] at hy
      exact .inl hy

theorem keepsSlabs_movePage : KeepsSlabs seq (movePage seq cls id p) := by
  intro id' hne
  rw [movePage_slabs]
  split
  · exact List.cons_ne_nil _ _
  · exact hne

theorem onList_movePage (hid : id ∈ ids) :
    ∀ x ∈ listHeads ids, ∀ y ∈ seq x, ∃ x' ∈ listHeads ids, y ∈ movePage seq cls id p x' := by
  rintro x (⟨cls', rfl⟩ | ⟨id', hid', rfl⟩) y hy
  · by_cases hyp : y = .snode p
    · refine ⟨_, slabs_mem_listHeads hid, ?_⟩
      rw [movePage_slabs, if_pos rfl, hyp]
      exact List.mem_cons_self
    · refine ⟨_, availSlabs_mem_listHeads _ cls', ?_⟩
      rw [movePage, Function.update_of_ne (by simp)]
      by_cases hcls : cls' = cls
      · subst hcls
        rw [Function.update_self]
        exact (List.mem_erase_of_ne hyp).2 hy
      · rwa [Function.update_of_ne fun heq => hcls (SlabNode.availSlabs.inj heq)]
  · refine ⟨_, slabs_mem_listHeads hid', ?_⟩
    rw [movePage_slabs]
    split
    · next heq => exact List.mem_cons_of_mem _ (heq ▸ hy)
    · exact hy

/-- A new slab in front keeps the order if it is not full, or the others are. -/
theorem moves_movePage {h' : SlabHeap} (hOk : SlabHeapOk h pages ids seq live) (hid : id ∈ ids)
    (hp : .snode p ∈ seq (.availSlabs cls)) {bytes : ℕ} (hO : OnlyPage h h' p bytes)
    (hfront : h.Ordered (seq (.slabs id)) → h'.freeOn (.snode p) = 0 →
      ∀ y ∈ seq (.slabs id), h.freeOn y = 0) :
    Moves h h' ids id seq (movePage seq cls id p) := by
  have hx := availSlabs_mem_listHeads ids cls
  have hothers : ∀ id', id' ≠ id → movePage seq cls id p (.slabs id') = seq (.slabs id') :=
    fun id' hne => by rw [movePage_slabs, if_neg hne]
  have hfree : ∀ y ∈ seq (.slabs id), h'.freeOn y = h.freeOn y := by
    intro y hy
    apply hO.freeOn
    rintro rfl
    cases hOk.eq_of_mem hx (slabs_mem_listHeads hid) hp hy
  refine ⟨hothers, onList_movePage hid, hOk.ordered_of_page hO hx hp
    (fun id' _ heq => by cases heq) hothers fun hord => ?_⟩
  rw [movePage_slabs, if_pos rfl]
  refine (hord.congr hfree).cons fun hfull y hy => ?_
  rw [hfree y hy]
  exact hfront hord hfull y hy

theorem lists_movePage (hOk : SlabHeapOk h pages ids seq live) (hid : id ∈ ids)
    (hp : .snode p ∈ seq (.availSlabs cls)) :
    Lists (listPrepend (listInit (listDel h.links (.snode p)) (.snode p)) (.slabs id) (.snode p))
      (listHeads ids) (movePage seq cls id p) := by
  have hx := availSlabs_mem_listHeads ids cls
  have hout := hOk.lists.outside_erase hx hp
  have hpre := lists_listPrepend (lists_listInit (lists_listDel hOk.lists hx hp) hout)
    (slabs_mem_listHeads hid) hout
  rw [Function.update_of_ne (show SlabNode.slabs id ≠ .availSlabs cls by simp)] at hpre
  exact hpre

theorem helperAddSlab_allocator (h : SlabHeap) (id p size bytes id' : ℕ) :
    (helperAddSlab (helperSlabInit h p size bytes) id p).allocator id' =
      if id' = id then
        { h.allocator id with
          maxItems := ((h.allocator id).maxItems + slabItems bytes size % 2 ^ 32) % 2 ^ 64 }
      else h.allocator id' := by
  by_cases hne : id' = id
  · subst hne
    simp [helperAddSlab, helperSlabInit, SlabHeap.setAllocator, SlabHeap.setSlab, SlabHeap.setWord,
      slabItems]
  · simp [helperAddSlab, helperSlabInit, SlabHeap.setAllocator, SlabHeap.setSlab, SlabHeap.setWord,
      hne]

theorem addSlab_page (hP : SlabPage p (h.allocator id).itemSize (h.pageBytes id))
    (links : ListMem SlabNode) (allocator : ℕ → Allocator)
    (hsize : ∀ id', (allocator id').itemSize = (h.allocator id').itemSize)
    (hmask : ∀ id', (allocator id').freeMask = (h.allocator id').freeMask)
    (hstate : ∀ id', (allocator id').allocState = (h.allocator id').allocState) {h' : SlabHeap}
    (hh' : h' = helperAddSlab (helperSlabInit { h with links := links, allocator := allocator } p
      (h.allocator id).itemSize (h.pageBytes id)) id p) :
    OnlyPage h h' p (h.pageBytes id) ∧
      h'.word (itemAddr p (h.allocator id).itemSize 0) = allocSlabNextLink ∧
      h'.slab p =
        { freeItems := itemAddr p (h.allocator id).itemSize 0
          flags := 0
          maxItems := slabItems (h.pageBytes id) (h.allocator id).itemSize
          freeItemCount := slabItems (h.pageBytes id) (h.allocator id).itemSize
          slabSize := h.pageBytes id } ∧
      (∀ id', (h'.allocator id').maxItems = if id' = id then
        ((allocator id).maxItems + slabItems (h.pageBytes id) (h.allocator id).itemSize) % 2 ^ 64
        else (allocator id').maxItems) := by
  have hsame : ∀ id', (h'.allocator id').itemSize = (allocator id').itemSize ∧
      (h'.allocator id').freeMask = (allocator id').freeMask ∧
      (h'.allocator id').allocState = (allocator id').allocState := by
    intro id'
    rw [hh', helperAddSlab_allocator]
    split
    · next heq => exact heq ▸ ⟨rfl, rfl, rfl⟩
    · exact ⟨rfl, rfl, rfl⟩
  have hword : h'.word = Function.update h.word (itemAddr p (h.allocator id).itemSize 0)
      allocSlabNextLink := by
    rw [hh', itemAddr, Nat.zero_mul, Nat.add_zero]
    rfl
  have hfirst : p ≤ itemAddr p (h.allocator id).itemSize 0 ∧
      itemAddr p (h.allocator id).itemSize 0 < p + h.pageBytes id := by
    have := hP.bytes_ge
    rw [itemAddr, firstObjOffset_eq]
    omega
  have hfits : slabItems (h.pageBytes id) (h.allocator id).itemSize % 2 ^ 32 =
      slabItems (h.pageBytes id) (h.allocator id).itemSize := Nat.mod_eq_of_lt hP.slabItems_lt
  have hbytes : h.pageBytes id % 2 ^ 32 = h.pageBytes id := by
    have := hP.bytes_le
    exact Nat.mod_eq_of_lt (by omega)
  refine ⟨⟨by rw [hh']; rfl, fun id' => (hsame id').1.trans (hsize id'),
    fun id' => (hsame id').2.1.trans (hmask id'), fun id' => (hsame id').2.2.trans (hstate id'),
    fun q hq => ?_, fun a ha => ?_⟩, ?_, ?_, fun id' => ?_⟩
  · rw [hh']
    exact Function.update_of_ne hq _ _
  · have hne : a ≠ itemAddr p (h.allocator id).itemSize 0 := fun heq => ha (heq ▸ hfirst)
    rw [hword, Function.update_of_ne hne]
  · rw [hword, Function.update_self]
  · have hslab : h'.slab p =
        { freeItems := p + firstObjOffset
          flags := 0
          maxItems := slabItems (h.pageBytes id) (h.allocator id).itemSize % 2 ^ 32
          freeItemCount := slabItems (h.pageBytes id) (h.allocator id).itemSize % 2 ^ 32
          slabSize := h.pageBytes id % 2 ^ 32 } := by
      rw [hh']
      exact Function.update_self _ _ _
    rw [hslab, hfits, hbytes, itemAddr, Nat.zero_mul, Nat.add_zero]
  · rw [hh', helperAddSlab_allocator, hfits]
    split <;> rfl

/-- **A new slab**: an available page becomes a slab of an allocator of its class. The fields of the
allocators that are none of the slab's business may change meanwhile. -/
theorem addSlab_ok (hOk : SlabHeapOk h pages ids seq live) (hid : id ∈ ids)
    (hp : .snode p ∈ seq (.availSlabs (h.allocator id).allocState)) (allocator : ℕ → Allocator)
    (hsize : ∀ id', (allocator id').itemSize = (h.allocator id').itemSize)
    (hmask : ∀ id', (allocator id').freeMask = (h.allocator id').freeMask)
    (hstate : ∀ id', (allocator id').allocState = (h.allocator id').allocState)
    (hmax : ∀ id', (allocator id').maxItems = (h.allocator id').maxItems) {h' : SlabHeap}
    (hh' : h' = helperAddSlab (helperSlabInit
      { h with links := listDel h.links (.snode p), allocator := allocator } p
      (h.allocator id).itemSize (h.pageBytes id)) id p) :
    OnlyPage h h' p (h.pageBytes id) ∧
      h'.freeOn (.snode p) = slabItems (h.pageBytes id) (h.allocator id).itemSize ∧
      SlabHeapOk h' pages ids (movePage seq (h.allocator id).allocState id p) live ∧
      Tallies h h' id seq (movePage seq (h.allocator id).allocState id p) := by
  set cls := (h.allocator id).allocState with hcls
  have hx := availSlabs_mem_listHeads ids cls
  have hmem := hOk.mem_pages hx hp
  have hP := hOk.slabPage_of_mem hid hmem
  obtain ⟨hO, hword, hslab, hcount⟩ := addSlab_page hP _ allocator hsize hmask hstate hh'
  have hfree : h'.freeOn (.snode p) = slabItems (h.pageBytes id) (h.allocator id).itemSize := by
    change (h'.slab p).freeItemCount = _
    rw [hslab]
  have hOk' : SlabHeapOk h' pages ids (movePage seq cls id p) live := by
    refine hOk.update hmem hO ?_ ?_ ?_ (fun a _ => Iff.rfl) ?_ hOk.liveNodup
    · rw [hh']
      exact lists_movePage hOk hid hp
    · exact fun x _ y hy => (mem_movePage hy).imp_right fun ⟨hy, hx⟩ => hx ▸ ⟨hy, rfl⟩
    · intro id' hid' hp'
      rw [movePage_slabs] at hp'
      split at hp'
      · next heq =>
        subst heq
        refine ⟨_, SlabOk.init (fun i hi hlive => ?_) (by rw [hslab]) (by rw [hslab]) (by rw [hslab])
          (by rw [hslab]) hword⟩
        have hin := hP.item_mem hi
        have hpos := hP.size_pos
        have hbytes : h.pageBytes id' = h.slabBytes cls := rfl
        exact hOk.avail_not_live hp hlive (by omega)
      · have := hOk.eq_of_mem hx (slabs_mem_listHeads hid') hp hp'
        cases this
    · intro it hit
      obtain ⟨hid', hslab', hi⟩ := hOk.liveItem it hit
      refine ⟨hid', ?_, hi⟩
      rw [movePage_slabs]
      split
      · next heq => exact List.mem_cons_of_mem _ (heq ▸ hslab')
      · exact hslab'
  refine ⟨hO, hfree, hOk', hO.slabBytes, hO.itemSize, hO.allocState, fun id' hne => ?_, fun ht => ?_⟩
  · rw [hcount, if_neg hne, hmax]
  · -- the slabs do not overlap, so the sum does not wrap
    have hlt := hOk'.length_mul_lt hid
    have hlen : (movePage seq cls id p (.slabs id)).length = (seq (.slabs id)).length + 1 := by
      rw [movePage_slabs, if_pos rfl, List.length_cons]
    rw [hlen, hO.pageBytes, hO.itemSize, Nat.succ_mul] at hlt
    rw [Tally, hcount, if_pos rfl, hmax, ht, hlen, hO.pageBytes, hO.itemSize, Nat.succ_mul,
      Nat.mod_eq_of_lt hlt]

/-- `__helper_allocator_grow` does nothing if there is no page. It is called when no slab has a free
item. -/
theorem helperAllocatorGrow_spec (hOk : SlabHeapOk h pages ids seq live) (hid : id ∈ ids)
    (hfull : h.Ordered (seq (.slabs id)) → ∀ y ∈ seq (.slabs id), h.freeOn y = 0) :
    seq (.availSlabs (h.allocator id).allocState) = [] ∧
        helperAllocatorGrow h id = some (aENomem, h) ∨
      ∃ p rest h', seq (.availSlabs (h.allocator id).allocState) = .snode p :: rest ∧
        helperAllocatorGrow h id = some (aOk, h') ∧
        SlabHeapOk h' pages ids (movePage seq (h.allocator id).allocState id p) live ∧
        Moves h h' ids id seq (movePage seq (h.allocator id).allocState id p) ∧
        Tallies h h' id seq (movePage seq (h.allocator id).allocState id p) ∧
        h'.freeOn (.snode p) = slabItems (h.pageBytes id) (h.allocator id).itemSize := by
  rcases allocatorAcquirePage_cases hOk (h.allocator id).allocState with
    ⟨hseq, hacq⟩ | ⟨p, rest, hseq, hacq⟩
  · exact .inl ⟨hseq, by simp [helperAllocatorGrow, hacq]⟩
  · have hp : .snode p ∈ seq (.availSlabs (h.allocator id).allocState) := by
      rw [hseq]
      exact List.mem_cons_self
    set taken : Allocator :=
      { h.allocator id with slabsTaken := ((h.allocator id).slabsTaken + 1) % 2 ^ 32 }
    have htaken : ∀ id', (Function.update h.allocator id taken id').itemSize =
        (h.allocator id').itemSize ∧ (Function.update h.allocator id taken id').freeMask =
        (h.allocator id').freeMask ∧ (Function.update h.allocator id taken id').allocState =
        (h.allocator id').allocState ∧ (Function.update h.allocator id taken id').maxItems =
        (h.allocator id').maxItems := by
      intro id'
      by_cases hne : id' = id
      · subst hne
        rw [Function.update_self]
        exact ⟨rfl, rfl, rfl, rfl⟩
      · rw [Function.update_of_ne hne]
        exact ⟨rfl, rfl, rfl, rfl⟩
    obtain ⟨hO, hfree, hOk', htally⟩ := addSlab_ok hOk hid hp _ (fun id' => (htaken id').1)
      (fun id' => (htaken id').2.1) (fun id' => (htaken id').2.2.1)
      (fun id' => (htaken id').2.2.2) rfl
    refine .inr ⟨p, rest, _, hseq, ?_, hOk',
      moves_movePage hOk hid hp hO fun hord _ => hfull hord, htally, hfree⟩
    simp only [helperAllocatorGrow, hacq, Option.bind_eq_bind, Option.bind_some]
    rfl

/-- The lists after the first `count` available pages went to an allocator, one by one. -/
def movePages (seq : SlabNode → List SlabNode) (cls : SlabClassId) (id count : ℕ) :
    SlabNode → List SlabNode :=
  Function.update (Function.update seq (.availSlabs cls) ((seq (.availSlabs cls)).drop count))
    (.slabs id) (((seq (.availSlabs cls)).take count).reverse ++ seq (.slabs id))

theorem movePages_slabs (count id' : ℕ) :
    movePages seq cls id count (.slabs id') =
      if id' = id then ((seq (.availSlabs cls)).take count).reverse ++ seq (.slabs id)
      else seq (.slabs id') := by
  by_cases hid : id' = id
  · rw [if_pos hid, hid, movePages, Function.update_self]
  · have hne : SlabNode.slabs id' ≠ .slabs id := fun heq => hid (SlabNode.slabs.inj heq)
    rw [if_neg hid, movePages, Function.update_of_ne hne, Function.update_of_ne (by simp)]

theorem movePages_availSlabs (count : ℕ) :
    movePages seq cls id count (.availSlabs cls) = (seq (.availSlabs cls)).drop count := by
  rw [movePages, Function.update_of_ne (by simp), Function.update_self]

theorem movePages_nothing {count : ℕ} (hnone : count = 0 ∨ seq (.availSlabs cls) = []) :
    movePages seq cls id count = seq := by
  have htake : (seq (.availSlabs cls)).take count = [] := by
    rcases hnone with rfl | hnil
    · exact List.take_zero
    · rw [hnil, List.take_nil]
  have hdrop : (seq (.availSlabs cls)).drop count = seq (.availSlabs cls) := by
    rcases hnone with rfl | hnil
    · exact List.drop_zero
    · rw [hnil, List.drop_nil]
  rw [movePages, htake, hdrop, List.reverse_nil, List.nil_append, Function.update_eq_self,
    Function.update_eq_self]

theorem movePages_succ {rest : List SlabNode} (hseq : seq (.availSlabs cls) = .snode p :: rest)
    (count : ℕ) :
    movePages (movePage seq cls id p) cls id count = movePages seq cls id (count + 1) := by
  have havail : movePage seq cls id p (.availSlabs cls) = rest := by
    rw [movePage, Function.update_of_ne (by simp), Function.update_self, hseq,
      List.erase_cons_head]
  have hmine : movePage seq cls id p (.slabs id) = .snode p :: seq (.slabs id) := by
    rw [movePage_slabs, if_pos rfl]
  funext x
  rw [movePages, movePages, havail, hmine, hseq, List.take_succ_cons, List.drop_succ_cons,
    List.reverse_cons, List.append_assoc, List.singleton_append]
  by_cases hxs : x = .slabs id
  · rw [hxs, Function.update_self, Function.update_self]
  · rw [Function.update_of_ne hxs, Function.update_of_ne hxs]
    by_cases hxa : x = .availSlabs cls
    · rw [hxa, Function.update_self, Function.update_self]
    · rw [Function.update_of_ne hxa, Function.update_of_ne hxa, movePage,
        Function.update_of_ne hxs, Function.update_of_ne hxa]

/-- The loop of `allocator_new` takes the pages it asks for, or all there are, and fails. So far all
slabs of the allocator have as many free items as a new one. -/
theorem grabPages_spec (hid : id ∈ ids) (cls : SlabClassId) (pageSize numPages : ℕ) :
    ∀ {h seq}, SlabHeapOk h pages ids seq live → (h.allocator id).allocState = cls →
      h.slabBytes cls = pageSize →
      (∀ y ∈ seq (.slabs id), h.freeOn y = slabItems pageSize (h.allocator id).itemSize) →
      ∃ h', grabPages h id cls pageSize numPages =
          some (if numPages ≤ (seq (.availSlabs cls)).length then aOk else aENomem, h') ∧
        SlabHeapOk h' pages ids (movePages seq cls id numPages) live ∧
        Moves h h' ids id seq (movePages seq cls id numPages) ∧
        Tallies h h' id seq (movePages seq cls id numPages) := by
  induction numPages with
  | zero =>
      intro h seq hOk _ _ _
      rw [movePages_nothing (.inl rfl), if_pos (Nat.zero_le _)]
      exact ⟨h, rfl, hOk, Moves.refl h ids id seq, Tallies.refl h id seq⟩
  | succ numPages ih =>
      intro h seq hOk hstate hbytes hnew
      rcases allocatorAcquirePage_cases hOk cls with ⟨hseq, hacq⟩ | ⟨p, rest, hseq, hacq⟩
      · -- there is no page left
        rw [movePages_nothing (.inr hseq), hseq, if_neg (by simp)]
        exact ⟨h, by simp [grabPages, hacq], hOk, Moves.refl h ids id seq, Tallies.refl h id seq⟩
      · have hp : .snode p ∈ seq (.availSlabs (h.allocator id).allocState) := by
          rw [hstate, hseq]
          exact List.mem_cons_self
        have hpage : h.pageBytes id = pageSize := by
          rw [SlabHeap.pageBytes, hstate, hbytes]
        obtain ⟨hO, hfree, hOk', htally⟩ := addSlab_ok hOk hid hp h.allocator (fun _ => rfl)
          (fun _ => rfl) (fun _ => rfl) (fun _ => rfl) rfl
        have hmoves := moves_movePage hOk hid hp hO fun _ hzero y hy => by
          rw [hnew y hy, ← hpage, ← hfree, hzero]
        rw [hstate] at hp hOk' hmoves htally
        obtain ⟨h', hgrab, hOk'', hmoves', htally'⟩ := ih hOk' ((hO.allocState id).trans hstate)
          (by rw [hO.slabBytes, hbytes]) (by
            intro y hy
            rw [movePage_slabs, if_pos rfl] at hy
            rw [hO.itemSize]
            rcases List.mem_cons.1 hy with rfl | hy
            · rw [hfree, hpage]
            · rw [← hnew y hy]
              apply hO.freeOn
              rintro rfl
              cases hOk.eq_of_mem (availSlabs_mem_listHeads ids cls) (slabs_mem_listHeads hid) hp hy)
        rw [movePages_succ hseq] at hOk'' hmoves' htally'
        refine ⟨h', ?_, hOk'', hmoves.trans hmoves', htally.trans htally'⟩
        have hlen : (movePage seq cls id p (.availSlabs cls)).length + 1 =
            (seq (.availSlabs cls)).length := by
          rw [movePage, Function.update_of_ne (by simp), Function.update_self, hseq,
            List.erase_cons_head, List.length_cons]
        have hcode : (numPages + 1 ≤ (seq (.availSlabs cls)).length) ↔
            numPages ≤ (movePage seq cls id p (.availSlabs cls)).length := by omega
        simp only [grabPages, hacq, Option.bind_eq_bind, Option.bind_some, hcode]
        rw [← hgrab, ← hpage]

end Acquire

end Tsl
