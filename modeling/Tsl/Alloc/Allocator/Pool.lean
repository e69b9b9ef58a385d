import Tsl.Alloc.Allocator.Safety

set_option autoImplicit false

/-! # Allocators over one pool of pages

The slab allocator with `allocator_delete`. Besides what its clients have, a run keeps which
allocators were created with `ALLOC_FLAG_NO_GROW`, what was asked of them, and the failed calls of
`allocator_new`; no step reads these. `PoolState` is what holds in every run, also where a size
computation wraps; the lemmas about it say what each call does to the lists of pages. -/

namespace Tsl

open Lib

/-! ## `allocator_delete` -/

/-- The loop of `allocator_delete`: `list_for_each_type_safe` with its two iterators. -/
def deleteLoop (alloc : ℕ) (cls : SlabClassId) :
    ℕ → SlabHeap → SlabNode → SlabNode → Option (AResult × SlabHeap)
  | 0, _, _, _ => none
  | fuel + 1, h, iterator, tmp =>
      if iterator = .slabs alloc then some (aOk, h)
      else do
        let slab ← SlabHeap.slabAt iterator
        let s := h.slab slab
        if s.maxItems ≠ s.freeItemCount then some (aEBusy, h)
        else
          let h := { h with links := listDel h.links (.snode slab) }
          let a := h.allocator alloc
          let h := h.setAllocator alloc
            { a with maxItems := (a.maxItems + 2 ^ 64 - s.maxItems) % 2 ^ 64 }
          let h := allocatorReleasePage h cls slab
          deleteLoop alloc cls fuel h tmp (h.links tmp).next

/-- `allocator_delete`. The `struct allocator` is cleared and freed; `freed` and `entry` are what its
    memory holds from then on. -/
def allocatorDelete (h : SlabHeap) (alloc fuel : ℕ) (freed : Allocator)
    (entry : ListEntry SlabNode) : Option (AResult × SlabHeap) := do
  let cls := (h.allocator alloc).allocState
  let (result, h) ←
    if listEmpty h.links (.slabs alloc) then some (aOk, h)
    else
      let iterator := (h.links (.slabs alloc)).next
      deleteLoop alloc cls fuel h iterator (h.links iterator).next
  if afailed result then some (result, h)
  else if listEmpty h.links (.slabs alloc) then
    some (aOk, { h.setAllocator alloc freed with
      links := Function.update h.links (.slabs alloc) entry })
  else some (aEBusy, h)

/-! ## Runs -/

/-- An `allocator_alloc`, with the heap before and after. -/
structure AllocRecord where
  alloc : ℕ
  before : SlabHeap
  ret : AResult
  after : SlabHeap

/-- A run with its records. -/
structure PoolRun where
  run : SlabRun
  /-- The allocators created with `ALLOC_FLAG_NO_GROW`. -/
  noGrow : List ℕ
  /-- The calls of `allocator_alloc` on these. -/
  allocs : List AllocRecord
  /-- The heap before and after each `allocator_new` that returned an error. -/
  failed : List (SlabHeap × SlabHeap)

/-- What can happen. -/
inductive PoolCall where
  | call (c : AllocatorCall)
  | delete (alloc fuel : ℕ) (freed : Allocator) (entry : ListEntry SlabNode)

/-- One step. An allocator that was deleted is no longer the client's, and `malloc` may return its
    address again. -/
def poolStep (s : PoolRun) : PoolCall → Option PoolRun
  | .call c => do
      let run ← slabStep s.run c
      match c with
      | .new itemSize itemCount flags malloc => do
          let (ret, alloc, _) ← allocatorNew s.run.heap itemSize itemCount flags malloc
          some { s with
            run := run
            noGrow := if flags &&& allocFlagNoGrow = 0 then s.noGrow else alloc.toList ++ s.noGrow
            failed := if afailed ret then (s.run.heap, run.heap) :: s.failed else s.failed }
      | .alloc alloc => do
          let (ret, _, _) ← allocatorAlloc s.run.heap alloc
          some { s with
            run := run
            allocs :=
              if alloc ∈ s.noGrow then ⟨alloc, s.run.heap, ret, run.heap⟩ :: s.allocs
              else s.allocs }
      | .free _ | .write _ _ _ => some { s with run := run }
  | .delete alloc fuel freed entry =>
      if alloc ∈ s.run.allocators then do
        let (ret, heap) ← allocatorDelete s.run.heap alloc fuel freed entry
        if afailed ret then some { s with run := { s.run with heap := heap } }
        else some { s with
          run :=
            { heap := heap
              mallocs := s.run.mallocs.filter (· ≠ alloc)
              allocators := s.run.allocators.filter (· ≠ alloc)
              live := s.run.live }
          noGrow := s.noGrow.filter (· ≠ alloc) }
      else none

/-- Before any call. -/
def poolRunInit (mem : SlabHeap) (region : SlabClassId → PageRegion) : PoolRun where
  run := slabRunInit mem region
  noGrow := []
  allocs := []
  failed := []

/-- What a step does, with what it records. -/
inductive PoolStep (s : PoolRun) : PoolCall → PoolRun → Prop where
  | new {itemSize itemCount flags : ℕ} {malloc alloc : Option ℕ} {ret : AResult} {h : SlabHeap}
      {run : SlabRun} (hrun : slabStep s.run (.new itemSize itemCount flags malloc) = some run)
      (hnew : allocatorNew s.run.heap itemSize itemCount flags malloc = some (ret, alloc, h)) :
      PoolStep s (.call (.new itemSize itemCount flags malloc))
        { run := run
          noGrow := if flags &&& allocFlagNoGrow = 0 then s.noGrow else alloc.toList ++ s.noGrow
          allocs := s.allocs
          failed := if afailed ret then (s.run.heap, run.heap) :: s.failed else s.failed }
  | alloc {alloc : ℕ} {ret : AResult} {item : Option ℕ} {h : SlabHeap} {run : SlabRun}
      (hrun : slabStep s.run (.alloc alloc) = some run)
      (hcall : allocatorAlloc s.run.heap alloc = some (ret, item, h)) :
      PoolStep s (.call (.alloc alloc))
        { run := run
          noGrow := s.noGrow
          allocs :=
            if alloc ∈ s.noGrow then ⟨alloc, s.run.heap, ret, run.heap⟩ :: s.allocs else s.allocs
          failed := s.failed }
  | free {item : LiveItem} {run : SlabRun} (hrun : slabStep s.run (.free item) = some run) :
      PoolStep s (.call (.free item)) { s with run := run }
  | write {item : LiveItem} {addr : ℕ} {val : BitVec 64} {run : SlabRun}
      (hrun : slabStep s.run (.write item addr val) = some run) :
      PoolStep s (.call (.write item addr val)) { s with run := run }
  | busy {alloc fuel : ℕ} {freed : Allocator} {entry : ListEntry SlabNode} {ret : AResult}
      {heap : SlabHeap} (halloc : alloc ∈ s.run.allocators)
      (hcall : allocatorDelete s.run.heap alloc fuel freed entry = some (ret, heap))
      (hret : afailed ret = true) :
      PoolStep s (.delete alloc fuel freed entry) { s with run := { s.run with heap := heap } }
  | deleted {alloc fuel : ℕ} {freed : Allocator} {entry : ListEntry SlabNode} {ret : AResult}
      {heap : SlabHeap} (halloc : alloc ∈ s.run.allocators)
      (hcall : allocatorDelete s.run.heap alloc fuel freed entry = some (ret, heap))
      (hret : afailed ret = false) :
      PoolStep s (.delete alloc fuel freed entry)
        { run :=
            { heap := heap
              mallocs := s.run.mallocs.filter (· ≠ alloc)
              allocators := s.run.allocators.filter (· ≠ alloc)
              live := s.run.live }
          noGrow := s.noGrow.filter (· ≠ alloc)
          allocs := s.allocs
          failed := s.failed }

theorem poolStep_cases {s s' : PoolRun} {c : PoolCall} (hstep : poolStep s c = some s') :
    PoolStep s c s' := by
  cases c with
  | call c =>
      simp only [poolStep, Option.bind_eq_bind, Option.bind_eq_some_iff] at hstep
      obtain ⟨run, hrun, hstep⟩ := hstep
      cases c with
      | new itemSize itemCount flags malloc =>
          obtain ⟨⟨ret, alloc, h⟩, hnew, hs'⟩ := Option.bind_eq_some_iff.1 hstep
          cases hs'
          exact .new hrun hnew
      | alloc alloc =>
          obtain ⟨⟨ret, item, h⟩, hcall, hs'⟩ := Option.bind_eq_some_iff.1 hstep
          cases hs'
          exact .alloc hrun hcall
      | free item =>
          cases hstep
          exact .free hrun
      | write item addr val =>
          cases hstep
          exact .write hrun
  | delete alloc fuel freed entry =>
      simp only [poolStep, Option.ite_none_right_eq_some, Option.bind_eq_bind,
        Option.bind_eq_some_iff] at hstep
      obtain ⟨halloc, ⟨ret, heap⟩, hcall, hs'⟩ := hstep
      cases hret : afailed ret with
      | true =>
          simp only [hret, if_true] at hs'
          cases hs'
          exact .busy halloc hcall hret
      | false =>
          simp only [hret, Bool.false_eq_true, if_false] at hs'
          cases hs'
          exact .deleted halloc hcall hret

/-- `y` is on the list with the head `x`. -/
def OnList (h : SlabHeap) (x y : SlabNode) : Prop := ∃ xs, IsList h.links x xs ∧ y ∈ xs

/-- The list of the slabs of an allocator, its counters and those in their headers, and the available
pages of its class are as they were. -/
structure LeavesAllocator (h h' : SlabHeap) (id : ℕ) : Prop where
  slabs : ∀ xs, IsList h'.links (.slabs id) xs ↔ IsList h.links (.slabs id) xs
  allocator : h'.allocator id = h.allocator id
  headers : ∀ p, OnList h (.slabs id) (.snode p) → h'.slab p = h.slab p
  avail : ∀ xs, IsList h'.links (.availSlabs (h.allocator id).allocState) xs ↔
    IsList h.links (.availSlabs (h.allocator id).allocState) xs

theorem LeavesAllocator.refl (h : SlabHeap) (id : ℕ) : LeavesAllocator h h id :=
  ⟨fun _ => Iff.rfl, rfl, fun _ _ => rfl, fun _ => Iff.rfl⟩

/-- What holds in every run: `seq` says which page is on which list. -/
structure PoolState (pages : SlabClassId → Set ℕ) (s : SlabRun) (ids : Set ℕ)
    (seq : SlabNode → List SlabNode) : Prop where
  ok : SlabHeapOk s.heap pages ids seq s.live
  mallocs : ∀ id ∈ ids, id ∈ s.mallocs
  allocators : ∀ id ∈ s.allocators, id ∈ ids
  onList : ∀ cls, ∀ p ∈ pages cls, ∃ x ∈ listHeads ids, .snode p ∈ seq x
  ordered : ∀ id ∈ ids, s.heap.Ordered (seq (.slabs id))

section Delete

variable {h h' : SlabHeap} {pages : SlabClassId → Set ℕ} {ids : Set ℕ}
  {seq : SlabNode → List SlabNode} {live : List LiveItem} {p id : ℕ}

theorem SlabHeapOk.onList_iff (hOk : SlabHeapOk h pages ids seq live) {x : SlabNode}
    (hx : x ∈ listHeads ids) (y : SlabNode) : OnList h x y ↔ y ∈ seq x := by
  have hlist := hOk.lists.isList hx
  constructor
  · rintro ⟨xs, hxs, hy⟩
    rwa [hlist.unique hxs]
  · exact fun hy => ⟨_, hlist, hy⟩

/-- A call that leaves the lists of the available pages alone acquires none. -/
theorem SlabHeapOk.pages_kept {seq' : SlabNode → List SlabNode} {live' : List LiveItem}
    (hOk : SlabHeapOk h pages ids seq live) (hOk' : SlabHeapOk h' pages ids seq' live')
    (hsame : ∀ cls, seq' (.availSlabs cls) = seq (.availSlabs cls)) (cls : SlabClassId) (y : SlabNode)
    (hy : OnList h (.availSlabs cls) y) : OnList h' (.availSlabs cls) y := by
  have hcls := availSlabs_mem_listHeads ids cls
  rw [hOk'.onList_iff hcls, hsame]
  exact (hOk.onList_iff hcls y).1 hy

/-- After the first slab is gone, the list starts where it pointed to. -/
theorem next_first_eq {m m' : ListMem SlabNode} {head x : SlabNode} {xs : List SlabNode}
    (hm : IsList m head (x :: xs)) (hm' : IsList m' head xs) : (m x).next = (m' head).next := by
  have hhead : (m' head).next = xs.headD head := hm'.next_eq_headD
  rw [hm.next_of_first, hhead]

/-- What `allocator_delete` does to a slab that is not in use. -/
def SlabHeap.releaseSlab (h : SlabHeap) (id : ℕ) (cls : SlabClassId) (p : ℕ) : SlabHeap :=
  allocatorReleasePage (({ h with links := listDel h.links (.snode p) } : SlabHeap).setAllocator id
    { h.allocator id with
      maxItems := ((h.allocator id).maxItems + 2 ^ 64 - (h.slab p).maxItems) % 2 ^ 64 }) cls p

theorem SlabHeap.releaseSlab_maxItems (h : SlabHeap) (id : ℕ) (cls : SlabClassId) (p id' : ℕ) :
    ((h.releaseSlab id cls p).allocator id').maxItems =
      if id' = id then ((h.allocator id).maxItems + 2 ^ 64 - (h.slab p).maxItems) % 2 ^ 64
      else (h.allocator id').maxItems := by
  change (Function.update h.allocator id _ id').maxItems = _
  by_cases hne : id' = id
  · rw [hne, Function.update_self, if_pos rfl]
  · rw [Function.update_of_ne hne, if_neg hne]

theorem SlabHeap.releaseSlab_onlyPage (h : SlabHeap) (id : ℕ) (cls : SlabClassId) (p bytes : ℕ) :
    OnlyPage h (h.releaseSlab id cls p) p bytes := by
  have hsame : ∀ id', ((h.releaseSlab id cls p).allocator id').itemSize = (h.allocator id').itemSize ∧
      ((h.releaseSlab id cls p).allocator id').freeMask = (h.allocator id').freeMask ∧
      ((h.releaseSlab id cls p).allocator id').allocState = (h.allocator id').allocState := by
    intro id'
    change (Function.update h.allocator id _ id').itemSize = _ ∧
      (Function.update h.allocator id _ id').freeMask = _ ∧
      (Function.update h.allocator id _ id').allocState = _
    by_cases hne : id' = id
    · rw [hne, Function.update_self]
      exact ⟨rfl, rfl, rfl⟩
    · rw [Function.update_of_ne hne]
      exact ⟨rfl, rfl, rfl⟩
  exact ⟨rfl, fun id' => (hsame id').1, fun id' => (hsame id').2.1, fun id' => (hsame id').2.2,
    fun _ _ => rfl, fun _ _ => rfl⟩

theorem releaseSlab_ok (hOk : SlabHeapOk h pages ids seq live) (hid : id ∈ ids)
    (hp : .snode p ∈ seq (.slabs id)) (hidle : ∀ it ∈ live, it.slab ≠ p) :
    SlabHeapOk (h.releaseSlab id (h.allocator id).allocState p) pages ids
        (releasePage seq (h.allocator id).allocState id p) live ∧
      Moves h (h.releaseSlab id (h.allocator id).allocState p) ids id seq
        (releasePage seq (h.allocator id).allocState id p) ∧
      Tallies h (h.releaseSlab id (h.allocator id).allocState p) id seq
        (releasePage seq (h.allocator id).allocState id p) := by
  set cls := (h.allocator id).allocState with hcls
  have hmax := h.releaseSlab_maxItems id cls p
  have hO := h.releaseSlab_onlyPage id cls p (h.pageBytes id)
  have hempty : ∀ i < slabItems (h.pageBytes id) (h.allocator id).itemSize,
      itemAddr p (h.allocator id).itemSize i ∉ liveAddrs live := by
    intro i hi hmem
    obtain ⟨it, hit, hslab⟩ := (hOk.live_in_slab_iff hid hp fun it hit => hit).1 ⟨i, hi, hmem⟩
    exact hidle it hit hslab
  obtain ⟨hOk', hmoves⟩ := releasePage_ok hOk hid hp hO rfl (fun it hit => hit) hempty
    (fun a _ => Iff.rfl) hOk.liveNodup
  refine ⟨hOk', hmoves, hO.slabBytes, hO.itemSize, hO.allocState, fun id' hne => ?_, fun ht => ?_⟩
  · rw [hmax, if_neg hne]
  · obtain ⟨free, hS⟩ := hOk.slab id hid p hp
    have hlt := hOk.length_mul_lt hid
    have hlen := List.length_pos_of_mem hp
    rw [Tally, hmax, if_pos rfl, releasePage_slabs, if_pos rfl, List.length_erase_of_mem hp,
      hO.pageBytes, hO.itemSize, Nat.sub_mul, Nat.one_mul, hS.maxItems, ht]
    have hle := Nat.le_mul_of_pos_left (slabItems (h.pageBytes id) (h.allocator id).itemSize) hlen
    omega

/-- What `allocator_delete` gives back: the slabs before the first one with a live item. -/
def Drained (h h' : SlabHeap) (id : ℕ) (live : List LiveItem) (seq seq' : SlabNode → List SlabNode) :
    Prop :=
  ∃ idle, seq (.slabs id) = idle ++ seq' (.slabs id) ∧ (∀ it ∈ live, .snode it.slab ∉ idle) ∧
    (idle = [] → h' = h)

/-- The loop releases slabs from the front, up to one that is in use. It ends, with fuel for each
slab and one more. -/
theorem deleteLoop_spec (hid : id ∈ ids) (cls : SlabClassId) (fuel : ℕ) :
    ∀ {h seq}, SlabHeapOk h pages ids seq live → (h.allocator id).allocState = cls →
      deleteLoop id cls fuel h (h.links (.slabs id)).next
          (h.links (h.links (.slabs id)).next).next = none ∧ fuel ≤ (seq (.slabs id)).length ∨
      ∃ ret h' seq', deleteLoop id cls fuel h (h.links (.slabs id)).next
          (h.links (h.links (.slabs id)).next).next = some (ret, h') ∧
        SlabHeapOk h' pages ids seq' live ∧ Moves h h' ids id seq seq' ∧
        Tallies h h' id seq seq' ∧ Drained h h' id live seq seq' ∧
        (ret = aOk ∧ seq' (.slabs id) = [] ∨
          ret = aEBusy ∧ ∃ it ∈ live, (seq' (.slabs id)).head? = some (.snode it.slab)) := by
  induction fuel with
  | zero => exact fun _ _ => .inl ⟨rfl, Nat.zero_le _⟩
  | succ fuel ih =>
      intro h seq hOk hstate
      have hx := slabs_mem_listHeads hid
      have hlist := hOk.lists.isList hx
      cases hseq : seq (.slabs id) with
      | nil =>
          rw [hseq] at hlist
          have hnext : (h.links (.slabs id)).next = .slabs id := (isRing_nil.1 hlist).1
          refine .inr ⟨aOk, h, seq, ?_, hOk, Moves.refl _ _ _ _, Tallies.refl _ _ _,
            ⟨[], rfl, fun _ _ => List.not_mem_nil, fun _ => rfl⟩, .inl ⟨rfl, hseq⟩⟩
          rw [deleteLoop, if_pos hnext]
      | cons x rest =>
          obtain ⟨p, -, rfl⟩ := hOk.page _ hx x (by rw [hseq]; exact List.mem_cons_self)
          have hp : .snode p ∈ seq (.slabs id) := by
            rw [hseq]
            exact List.mem_cons_self
          rw [hseq] at hlist
          have hnext : (h.links (.slabs id)).next = .snode p := hlist.next_first.1
          have hiff := hOk.busy_iff hid hp
          rw [hnext, deleteLoop, if_neg (by simp)]
          simp only [SlabHeap.slabAt, Option.bind_eq_bind, Option.bind_some]
          by_cases hbusy : (h.slab p).maxItems ≠ (h.slab p).freeItemCount
          · -- an item of the first slab is in use
            rw [if_pos hbusy]
            obtain ⟨it, hit, rfl⟩ := hiff.1 hbusy
            exact .inr ⟨aEBusy, h, seq, rfl, hOk, Moves.refl _ _ _ _, Tallies.refl _ _ _,
              ⟨[], rfl, fun _ _ => List.not_mem_nil, fun _ => rfl⟩,
              .inr ⟨rfl, it, hit, by rw [hseq]; rfl⟩⟩
          · -- the slab goes back, and the loop is where it began, with one slab less
            rw [if_neg hbusy]
            have hidle : ∀ it ∈ live, it.slab ≠ p := fun it hit heq => hbusy (hiff.2 ⟨it, hit, heq⟩)
            obtain ⟨hOk₁, hmoves₁, htally₁⟩ := releaseSlab_ok hOk hid hp hidle
            rw [hstate] at hOk₁ hmoves₁ htally₁
            change deleteLoop id cls fuel (h.releaseSlab id cls p) (h.links (.snode p)).next
              ((h.releaseSlab id cls p).links (h.links (.snode p)).next).next = none ∧ _ ∨ _
            have hmine : releasePage seq cls id p (.slabs id) = rest := by
              rw [releasePage_slabs, if_pos rfl, hseq, List.erase_cons_head]
            have hlist₁ := hOk₁.lists.isList hx
            rw [hmine] at hlist₁
            rw [next_first_eq hlist hlist₁]
            rcases ih hOk₁ ((htally₁.allocState id).trans hstate) with
              ⟨hnone, hle⟩ | ⟨ret, h', seq', hloop, hOk', hmoves', htally', ⟨idle, hcut, hout, -⟩, hres⟩
            · rw [hmine] at hle
              exact .inl ⟨hnone, by rw [List.length_cons]; omega⟩
            · rw [hmine] at hcut
              refine .inr ⟨ret, h', seq', hloop, hOk', hmoves₁.trans hmoves', htally₁.trans htally',
                ⟨.snode p :: idle, ?_, fun it hit hmem => ?_, by simp⟩, hres⟩
              · rw [hseq, hcut, List.cons_append]
              · rcases List.mem_cons.1 hmem with heq | hmem
                · exact hidle it hit (SlabNode.snode.inj heq)
                · exact hout it hit hmem

theorem removeAllocator_ok (hOk : SlabHeapOk h pages ids seq live) (hnil : seq (.slabs id) = [])
    (freed : Allocator) (entry : ListEntry SlabNode) :
    SlabHeapOk { h.setAllocator id freed with
      links := Function.update h.links (.slabs id) entry } pages (ids \ {id}) seq live := by
  have hsub : ∀ x ∈ listHeads (ids \ {id}), x ∈ listHeads ids := by
    rintro x (hx | ⟨id', hid', rfl⟩)
    · exact .inl hx
    · exact slabs_mem_listHeads hid'.1
  have hne : ∀ id' ∈ ids \ {id}, id' ≠ id := fun id' hid' heq => hid'.2 heq
  have hhead : ∀ x ∈ listHeads (ids \ {id}), x ≠ .slabs id := by
    rintro x (⟨cls, rfl⟩ | ⟨id', hid', rfl⟩)
    · simp
    · exact fun heq => hne id' hid' (SlabNode.slabs.inj heq)
  -- so its entry may become anything
  have hout : Outside (listHeads (ids \ {id})) seq (.slabs id) := by
    intro x hx hmem
    rcases List.mem_cons.1 hmem with heq | hmem
    · exact hhead x hx heq.symm
    · obtain ⟨q, -, heq⟩ := hOk.page x (hsub x hx) _ hmem
      cases heq
  set h' : SlabHeap := { h.setAllocator id freed with
    links := Function.update h.links (.slabs id) entry } with hh'
  have hother : ∀ id' ∈ ids \ {id}, h'.allocator id' = h.allocator id' := fun id' hid' =>
    Function.update_of_ne (hne id' hid') _ _
  have hbytes : ∀ id' ∈ ids \ {id}, h'.pageBytes id' = h.pageBytes id' := by
    intro id' hid'
    rw [SlabHeap.pageBytes, hother id' hid']
    rfl
  have hlists : Lists h.links (listHeads (ids \ {id})) seq :=
    ⟨fun hd hh => hOk.lists.ring hd (hsub hd hh),
      fun h₁ hh₁ h₂ hh₂ => hOk.lists.disjoint h₁ (hsub h₁ hh₁) h₂ (hsub h₂ hh₂)⟩
  constructor
  · exact hOk.geometry
  · refine hlists.congr fun a ha => Function.update_of_ne (fun heq => ha ?_) _ _
    rw [heq]
    exact hout
  · intro x hx y hy
    have hcls : h'.classOf x = h.classOf x := by
      rcases hx with ⟨cls, rfl⟩ | ⟨id', hid', rfl⟩
      · rfl
      · exact congrArg Allocator.allocState (hother id' hid')
    rw [hcls]
    exact hOk.page x (hsub x hx) y hy
  · intro id' hid'
    obtain ⟨hpos, haligned, hmask⟩ := hOk.allocator id' hid'.1
    exact ⟨by rwa [hother id' hid'], by rwa [hother id' hid'],
      by rwa [hother id' hid', hbytes id' hid']⟩
  · intro id' hid' q hq
    rw [hother id' hid', hbytes id' hid']
    exact hOk.slab id' hid'.1 q hq
  · intro it hit
    obtain ⟨hid', hslab, hi⟩ := hOk.liveItem it hit
    have hmem : it.alloc ∈ ids \ {id} := by
      refine ⟨hid', fun heq => ?_⟩
      rw [Set.mem_singleton_iff.1 heq, hnil] at hslab
      cases hslab
    exact ⟨hmem, hslab, by rwa [hother _ hmem, hbytes _ hmem]⟩
  · exact hOk.liveNodup

/-- `allocator_delete` gives the slabs back, and then the allocator; or it finds one in use. -/
theorem allocatorDelete_spec (hOk : SlabHeapOk h pages ids seq live) (hid : id ∈ ids) (fuel : ℕ)
    (freed : Allocator) (entry : ListEntry SlabNode) :
    allocatorDelete h id fuel freed entry = none ∧ fuel ≤ (seq (.slabs id)).length ∨
      ∃ h₁ seq', SlabHeapOk h₁ pages ids seq' live ∧ Moves h h₁ ids id seq seq' ∧
        Tallies h h₁ id seq seq' ∧ Drained h h₁ id live seq seq' ∧
        (allocatorDelete h id fuel freed entry = some (aEBusy, h₁) ∧
            (∃ it ∈ live, (seq' (.slabs id)).head? = some (.snode it.slab)) ∨
          allocatorDelete h id fuel freed entry = some (aOk, { h₁.setAllocator id freed with
            links := Function.update h₁.links (.slabs id) entry }) ∧ seq' (.slabs id) = []) := by
  have hx := slabs_mem_listHeads hid
  have hempty := listEmpty_iff (hOk.lists.isList hx)
  by_cases hnil : seq (.slabs id) = []
  · refine .inr ⟨h, seq, hOk, Moves.refl _ _ _ _, Tallies.refl _ _ _,
      ⟨[], rfl, fun _ _ => List.not_mem_nil, fun _ => rfl⟩, .inr ⟨?_, hnil⟩⟩
    simp [allocatorDelete, hempty.2 hnil]
  · have hnot : listEmpty h.links (.slabs id) = false := by
      rw [← Bool.not_eq_true]
      exact fun heq => hnil (hempty.1 heq)
    have hdelete : allocatorDelete h id fuel freed entry =
        (deleteLoop id (h.allocator id).allocState fuel h (h.links (.slabs id)).next
          (h.links (h.links (.slabs id)).next).next).bind fun x =>
            if afailed x.1 then some x
            else if listEmpty x.2.links (.slabs id) then
              some (aOk, { x.2.setAllocator id freed with
                links := Function.update x.2.links (.slabs id) entry })
            else some (aEBusy, x.2) := by
      simp only [allocatorDelete, hnot, Bool.false_eq_true, if_false, Option.bind_eq_bind]
    rw [hdelete]
    rcases deleteLoop_spec hid (h.allocator id).allocState fuel hOk rfl with
      ⟨hnone, hle⟩ |
      ⟨ret, h', seq', hloop, hOk', hmoves, htally, hdrained, ⟨rfl, hgone⟩ | ⟨rfl, hleft⟩⟩
    · exact .inl ⟨by rw [hnone, Option.bind_none], hle⟩
    · refine .inr ⟨h', seq', hOk', hmoves, htally, hdrained, .inr ⟨?_, hgone⟩⟩
      have hempty' := (listEmpty_iff (hOk'.lists.isList hx)).2 hgone
      rw [hloop, Option.bind_some]
      simp [hempty']
    · refine .inr ⟨h', seq', hOk', hmoves, htally, hdrained, .inl ⟨?_, hleft⟩⟩
      rw [hloop, Option.bind_some, if_pos (by exact afailed_aresultError _ _)]

end Delete

/-! ## What each call does -/

section Steps

variable {pages : SlabClassId → Set ℕ} {s s' : SlabRun} {ids : Set ℕ}
  {seq seq' : SlabNode → List SlabNode} {id : ℕ}

/-- A call that moves pages between lists that are there. -/
theorem PoolState.moves (hS : PoolState pages s ids seq)
    (hOk : SlabHeapOk s'.heap pages ids seq' s'.live) (hmoves : Moves s.heap s'.heap ids id seq seq')
    (hmallocs : s'.mallocs = s.mallocs) (hallocs : s'.allocators = s.allocators) :
    PoolState pages s' ids seq' where
  ok := hOk
  mallocs := hmallocs ▸ hS.mallocs
  allocators := hallocs ▸ hS.allocators
  onList := by
    intro cls p hp
    obtain ⟨x, hx, hmem⟩ := hS.onList cls p hp
    exact hmoves.onList x hx _ hmem
  ordered := hmoves.ordered hS.ordered

/-- `allocator_new` leaves the heap alone and returns an error, or there is one more allocator. -/
theorem PoolState.new (hS : PoolState pages s ids seq) {itemSize itemCount flags : ℕ}
    {malloc : Option ℕ} (hstep : slabStep s (.new itemSize itemCount flags malloc) = some s') :
    (∃ ret, allocatorNew s.heap itemSize itemCount flags malloc = some (ret, none, s.heap) ∧
        afailed ret = true ∧ Rejected s.heap itemSize itemCount flags malloc ∧
        s'.heap = s.heap ∧ s'.allocators = s.allocators ∧ PoolState pages s' ids seq) ∨
      ∃ new ret seq', malloc = some new ∧ new ∉ ids ∧ itemCount ≠ 0 ∧
        s.heap.slabBytes (classOfFlags flags) / round16 itemSize ≠ 0 ∧
        ret = (if pagesNeeded s.heap itemSize itemCount flags ≤
          (seq (.availSlabs (classOfFlags flags))).length then aOk else aENomem) ∧
        allocatorNew s.heap itemSize itemCount flags malloc =
          some (ret, if afailed ret then none else some new, s'.heap) ∧
        s'.allocators = (if afailed ret then none else some new).toList ++ s.allocators ∧
        PoolState pages s' (insert new ids) seq' ∧
        NewAllocator s.heap s'.heap ids seq seq' (classOfFlags flags) new
          (pagesNeeded s.heap itemSize itemCount flags) ∧
        NewTally s.heap s'.heap ids seq seq' new (round16 itemSize) (classOfFlags flags) := by
  simp only [slabStep] at hstep
  split at hstep
  case isFalse => cases hstep
  case isTrue hfresh =>
    have hfresh' : ∀ id, malloc = some id → id ∉ ids := fun id heq hid =>
      hfresh id heq (hS.mallocs id hid)
    rcases allocatorNew_cases hS.ok itemSize itemCount flags hfresh' with
      ⟨hnone, -⟩ | ⟨ret, hnew, hret, hrejected⟩ |
        ⟨new, ret, h', seq', rfl, hslab, hcount, hret, hnew, hOk', hN, hT⟩
    · simp [hnone] at hstep
    · simp only [hnew, Option.bind_eq_bind, Option.bind_some, Option.some.injEq] at hstep
      subst hstep
      exact .inl ⟨ret, hnew, hret, hrejected, rfl, rfl, hS.ok,
        fun id hid => List.mem_append_right _ (hS.mallocs id hid), hS.allocators, hS.onList,
        hS.ordered⟩
    · simp only [hnew, Option.bind_eq_bind, Option.bind_some, Option.some.injEq] at hstep
      subst hstep
      refine .inr ⟨new, ret, seq', rfl, hfresh' new rfl, hcount, hslab, hret, hnew, rfl,
        ⟨hOk', ?_, ?_, ?_, hN.ordered hS.ordered⟩, hN, hT⟩
      · rintro id (rfl | hid)
        · exact List.mem_cons_self
        · exact List.mem_cons_of_mem _ (hS.mallocs id hid)
      · intro id hid
        rcases List.mem_append.1 hid with hid | hid
        · left
          split at hid
          · cases hid
          · simpa using hid
        · exact .inr (hS.allocators id hid)
      · intro cls p hp
        obtain ⟨x, hx, hmem⟩ := hS.onList cls p hp
        exact hN.onList x hx _ hmem

theorem PoolState.alloc (hS : PoolState pages s ids seq)
    (hstep : slabStep s (.alloc id) = some s') :
    id ∈ s.allocators ∧ s'.allocators = s.allocators ∧ ∃ ret item seq',
      allocatorAlloc s.heap id = some (ret, item, s'.heap) ∧ PoolState pages s' ids seq' ∧
        Moves s.heap s'.heap ids id seq seq' ∧ KeepsSlabs seq seq' ∧
        Tallies s.heap s'.heap id seq seq' ∧ AllocOutcome s.heap seq seq' id ret := by
  simp only [slabStep] at hstep
  split at hstep
  case isFalse => cases hstep
  case isTrue halloc =>
    rcases allocatorAlloc_spec hS.ok (hS.allocators id halloc) with
      ⟨-, -, hnone⟩ |
      ⟨first, h₁, ret, item, h', seq', hfirst, hcall, hOk', hmoves, hkeep, htally, hout⟩
    · simp [hnone] at hstep
    · simp only [hfirst, hcall, Option.bind_eq_bind, Option.bind_some, Option.some.injEq] at hstep
      subst hstep
      exact ⟨halloc, rfl, ret, item, seq', hcall, hS.moves hOk' hmoves rfl rfl, hmoves, hkeep, htally,
        hout⟩

theorem PoolState.free (hS : PoolState pages s ids seq) {item : LiveItem}
    (hstep : slabStep s (.free item) = some s') :
    item ∈ s.live ∧ item.alloc ∈ s.allocators ∧ s'.allocators = s.allocators ∧ ∃ seq',
      PoolState pages s' ids seq' ∧ Moves s.heap s'.heap ids item.alloc seq seq' ∧
        s'.heap.slabBytes = s.heap.slabBytes ∧ s'.heap.allocator = s.heap.allocator ∧
        Freed seq seq' (s.heap.allocator item.alloc).allocState s.live item := by
  simp only [slabStep] at hstep
  split at hstep
  case isFalse => cases hstep
  case isTrue hlive =>
    obtain ⟨h', seq', hfree, hOk', hmoves, hrest⟩ := allocatorFree_spec hS.ok hlive.1
    rw [hfree, Option.some.injEq] at hstep
    subst hstep
    exact ⟨hlive.1, hlive.2, rfl, seq', hS.moves hOk' hmoves rfl rfl, hmoves, hrest⟩

theorem PoolState.write (hS : PoolState pages s ids seq) {item : LiveItem} {addr : ℕ}
    {val : BitVec 64} (hstep : slabStep s (.write item addr val) = some s') :
    s'.allocators = s.allocators ∧ PoolState pages s' ids seq := by
  simp only [slabStep] at hstep
  split at hstep
  case isFalse => cases hstep
  case isTrue hwrite =>
    obtain ⟨hlive, hlo, hhi, -⟩ := hwrite
    rw [Option.some.injEq] at hstep
    subst hstep
    refine ⟨rfl, setWord_ok hS.ok hlive hlo (by omega), hS.mallocs, hS.allocators, hS.onList,
      fun id hid => (hS.ordered id hid).congr fun y _ => ?_⟩
    cases y <;> rfl

/-- `allocator_delete` is busy, with a slab left, or the allocator is gone. -/
theorem PoolState.delete {s s' : PoolRun} (hS : PoolState pages s.run ids seq) {fuel : ℕ}
    {freed : Allocator} {entry : ListEntry SlabNode}
    (hstep : poolStep s (.delete id fuel freed entry) = some s') :
    s'.allocs = s.allocs ∧ s'.failed = s.failed ∧ ∃ seq',
      (∀ id', id' ≠ id → seq' (.slabs id') = seq (.slabs id')) ∧
      (∀ id', id' ≠ id → Tally s.run.heap seq id' → Tally s'.run.heap seq' id') ∧
      (id ∈ s.run.allocators ∧ s'.run.allocators = s.run.allocators ∧
          PoolState pages s'.run ids seq' ∧ seq' (.slabs id) ≠ [] ∧
          (Tally s.run.heap seq id → Tally s'.run.heap seq' id) ∨
        s'.run.allocators = s.run.allocators.filter (· ≠ id) ∧
          PoolState pages s'.run (ids \ {id}) seq') := by
  cases poolStep_cases hstep with
  | @busy _ _ _ _ ret heap halloc hcall hret =>
      rcases allocatorDelete_spec hS.ok (hS.allocators id halloc) fuel freed entry with
        ⟨hnone, -⟩ | ⟨h₁, seq', hOk', hmoves, htally, -, ⟨hcall', it, -, hleft⟩ | ⟨hcall', -⟩⟩
      · cases hnone.symm.trans hcall
      · cases hcall'.symm.trans hcall
        exact ⟨rfl, rfl, seq', hmoves.others, fun id' hne => htally.other hne (hmoves.others id' hne),
          .inl ⟨halloc, rfl, hS.moves hOk' hmoves rfl rfl,
            List.ne_nil_of_mem (List.mem_of_mem_head? hleft), htally.mine⟩⟩
      · cases hcall'.symm.trans hcall
        rw [afailed_aOk] at hret
        cases hret
  | @deleted _ _ _ _ ret heap halloc hcall hret =>
      rcases allocatorDelete_spec hS.ok (hS.allocators id halloc) fuel freed entry with
        ⟨hnone, -⟩ | ⟨h₁, seq', hOk', hmoves, htally, -, ⟨hcall', -⟩ | ⟨hcall', hgone⟩⟩
      · cases hnone.symm.trans hcall
      · cases hcall'.symm.trans hcall
        rw [aEBusy, afailed_aresultError] at hret
        cases hret
      · cases hcall'.symm.trans hcall
        refine ⟨rfl, rfl, seq', hmoves.others, fun id' hne ht => ?_,
          .inr ⟨rfl, ?_, ?_, ?_, ?_, ?_⟩⟩
        · have ht' := htally.other hne (hmoves.others id' hne) ht
          have hsame : (h₁.setAllocator id freed).allocator id' = h₁.allocator id' :=
            Function.update_of_ne hne _ _
          rw [Tally, SlabHeap.pageBytes, hsame]
          exact ht'
        · exact removeAllocator_ok hOk' hgone freed entry
        · intro id' hid'
          exact List.mem_filter.2 ⟨hS.mallocs id' hid'.1, by simpa using hid'.2⟩
        · intro id' hid'
          obtain ⟨hmem, hne⟩ := List.mem_filter.1 hid'
          exact ⟨hS.allocators id' hmem, by simpa using hne⟩
        · -- no page was on the list of the allocator that is gone
          intro cls p hp
          obtain ⟨x, hx, hmem⟩ := hS.onList cls p hp
          obtain ⟨x', hx', hmem'⟩ := hmoves.onList x hx _ hmem
          rcases hx' with hx' | ⟨id', hid', rfl⟩
          · exact ⟨x', .inl hx', hmem'⟩
          · refine ⟨_, slabs_mem_listHeads ⟨hid', fun heq => ?_⟩, hmem'⟩
            rw [Set.mem_singleton_iff.1 heq, hgone] at hmem'
            cases hmem'
        · intro id' hid'
          refine (hmoves.ordered hS.ordered id' hid'.1).congr fun y _ => ?_
          cases y <;> rfl

theorem poolStep_call {s s' : PoolRun} {c : AllocatorCall}
    (hstep : poolStep s (.call c) = some s') : slabStep s.run c = some s'.run := by
  cases poolStep_cases hstep with
  | new hrun _ => exact hrun
  | alloc hrun _ => exact hrun
  | free hrun => exact hrun
  | write hrun => exact hrun

/-- Every call keeps the state of the lists. -/
theorem PoolState.step {s s' : PoolRun} (hS : PoolState pages s.run ids seq) (c : PoolCall)
    (hstep : poolStep s c = some s') : ∃ ids' seq', PoolState pages s'.run ids' seq' := by
  cases c with
  | call c =>
      have hrun := poolStep_call hstep
      cases c with
      | new itemSize itemCount flags malloc =>
          rcases hS.new hrun with ⟨_, -, -, -, -, -, hS'⟩ | ⟨_, _, _, -, -, -, -, -, -, -, hS', -, -⟩
          · exact ⟨_, _, hS'⟩
          · exact ⟨_, _, hS'⟩
      | alloc alloc =>
          obtain ⟨-, -, _, _, _, -, hS', -⟩ := hS.alloc hrun
          exact ⟨_, _, hS'⟩
      | free item =>
          obtain ⟨-, -, -, _, hS', -⟩ := hS.free hrun
          exact ⟨_, _, hS'⟩
      | write item addr val => exact ⟨_, _, (hS.write hrun).2⟩
  | delete alloc fuel freed entry =>
      obtain ⟨-, -, _, -, -, ⟨-, -, hS', -⟩ | ⟨-, hS'⟩⟩ := hS.delete hstep
      · exact ⟨_, _, hS'⟩
      · exact ⟨_, _, hS'⟩

theorem poolState_init {region : SlabClassId → PageRegion} (mem : SlabHeap)
    (hregion : ∀ cls, (region cls).Ok) (hapart : ∀ cls cls', cls ≠ cls' →
      (region cls).base + (region cls).count * (region cls).bytes ≤ (region cls').base ∨
      (region cls').base + (region cls').count * (region cls').bytes ≤ (region cls).base) :
    ∃ seq, PoolState (pagesOf region) (slabRunInit mem region) ∅ seq := by
  obtain ⟨seq, hOk, hall⟩ := slabRunInit_ok mem hregion hapart
  exact ⟨seq, hOk, by simp, by simp [slabRunInit],
    fun cls p hp => ⟨_, availSlabs_mem_listHeads ∅ cls, hall cls p hp⟩, by simp⟩

theorem poolState_of_exec {s : PoolRun} {region : SlabClassId → PageRegion} {mem : SlabHeap}
    {calls : List PoolCall} (hregion : ∀ cls, (region cls).Ok) (hapart : ∀ cls cls', cls ≠ cls' →
      (region cls).base + (region cls).count * (region cls).bytes ≤ (region cls').base ∨
      (region cls').base + (region cls').count * (region cls').bytes ≤ (region cls).base)
    (hrun : exec poolStep (poolRunInit mem region) calls = some s) :
    ∃ ids seq, PoolState (pagesOf region) s.run ids seq := by
  obtain ⟨seq₀, hS₀⟩ := poolState_init mem hregion hapart
  have hstep : ∀ (s : PoolRun) c s', (∃ ids seq, PoolState (pagesOf region) s.run ids seq) →
      poolStep s c = some s' → ∃ ids seq, PoolState (pagesOf region) s'.run ids seq := by
    rintro s c s' ⟨ids, seq, hS⟩ hstep
    exact hS.step c hstep
  exact exec_invariant hstep ⟨∅, seq₀, hS₀⟩ hrun

end Steps

end Tsl
