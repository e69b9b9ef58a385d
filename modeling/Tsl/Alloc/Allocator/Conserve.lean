import Tsl.Alloc.Allocator.Pool

set_option autoImplicit false

/-! # Conservation of pages

Pages move between the list of their class and those of the allocators. `allocator_new` takes its
pages one by one, and keeps those it has when there is no next one: the error path only says that
memory should be freed there. They stay on the list of an allocator that nobody was given, so the
pages are conserved exactly in the runs where that does not happen
(`pagesConserved_throughout_iff`). -/

namespace Tsl

open Lib

/-- The page `p` is on the list of its class, or of an allocator of that class that a client has, and on
    no other one of these lists. -/
def SlabRun.Owned (s : SlabRun) (cls : SlabClassId) (p : ℕ) : Prop :=
  ∃ x ∈ listHeads {id | id ∈ s.allocators}, OnList s.heap x (.snode p) ∧ s.heap.classOf x = cls ∧
    ∀ y ∈ listHeads {id | id ∈ s.allocators}, OnList s.heap y (.snode p) → y = x

/-- The same pages are available in both heaps. -/
def SameAvailable (h h' : SlabHeap) : Prop :=
  ∀ cls y, OnList h (.availSlabs cls) y ↔ OnList h' (.availSlabs cls) y

/-- No page is lost, and an `allocator_new` that failed left all pages where they were. -/
structure PagesConserved (region : SlabClassId → PageRegion) (s : PoolRun) : Prop where
  owned : ∀ cls, ∀ p ∈ pagesOf region cls, s.run.Owned cls p
  failed : ∀ e ∈ s.failed, SameAvailable e.1 e.2

/-- `allocator_new` fails before it asks for a page, or finds none at all, or all it needs. Nothing is
    asked of a call that cannot be, where `malloc` returns memory it returned before. -/
def TakesAllOrNone (s : PoolRun) : PoolCall → Prop
  | .call (.new itemSize itemCount flags malloc) =>
      Rejected s.run.heap itemSize itemCount flags malloc ∨ (∃ id ∈ s.run.mallocs, malloc = some id) ∨
        ∀ xs, IsList s.run.heap.links (.availSlabs (classOfFlags flags)) xs →
          xs = [] ∨ pagesNeeded s.run.heap itemSize itemCount flags ≤ xs.length
  | _ => True

variable {pages : SlabClassId → Set ℕ} {ids : Set ℕ} {seq seq' : SlabNode → List SlabNode}

/-- Only allocators that a client has, have slabs. -/
def NoneLost (allocators : List ℕ) (ids : Set ℕ) (seq : SlabNode → List SlabNode) : Prop :=
  ∀ id ∈ ids, seq (.slabs id) ≠ [] → id ∈ allocators

theorem PoolState.owned_iff {s : SlabRun} (hS : PoolState pages s ids seq) :
    (∀ cls, ∀ p ∈ pages cls, s.Owned cls p) ↔ NoneLost s.allocators ids seq := by
  have hsub : ∀ x ∈ listHeads {id | id ∈ s.allocators}, x ∈ listHeads ids := by
    rintro x (hx | ⟨id, hid, rfl⟩)
    · exact .inl hx
    · exact slabs_mem_listHeads (hS.allocators id hid)
  constructor
  · intro howned id hid hne
    obtain ⟨y, hy⟩ := List.exists_mem_of_ne_nil _ hne
    have hid' := slabs_mem_listHeads hid
    obtain ⟨p, hp, rfl⟩ := hS.ok.page _ hid' y hy
    obtain ⟨x, hx, hon, -⟩ := howned _ p hp
    have heq := hS.ok.eq_of_mem (hsub x hx) hid' ((hS.ok.onList_iff (hsub x hx) _).1 hon) hy
    rcases hx with ⟨cls, rfl⟩ | ⟨id', hid'', rfl⟩
    · cases heq
    · exact SlabNode.slabs.inj heq ▸ hid''
  · intro hnone cls p hp
    obtain ⟨x, hx, hmem⟩ := hS.onList cls p hp
    have hreach : x ∈ listHeads {id | id ∈ s.allocators} := by
      rcases hx with hx | ⟨id, hid, rfl⟩
      · exact .inl hx
      · exact slabs_mem_listHeads (hnone id hid (List.ne_nil_of_mem hmem))
    obtain ⟨q, hq, heq⟩ := hS.ok.page x hx _ hmem
    obtain rfl := SlabNode.snode.inj heq
    refine ⟨x, hreach, (hS.ok.onList_iff hx _).2 hmem, hS.ok.geometry.cls_eq _ _ _ hq hp, ?_⟩
    intro y hy hon
    exact hS.ok.eq_of_mem (hsub y hy) hx ((hS.ok.onList_iff (hsub y hy) _).1 hon) hmem

theorem PoolState.sameAvailable_iff {s s' : SlabRun} {ids' : Set ℕ} (hS : PoolState pages s ids seq)
    (hS' : PoolState pages s' ids' seq') :
    SameAvailable s.heap s'.heap ↔
      ∀ cls y, y ∈ seq (.availSlabs cls) ↔ y ∈ seq' (.availSlabs cls) := by
  refine forall_congr' fun cls => forall_congr' fun y => ?_
  rw [hS.ok.onList_iff (availSlabs_mem_listHeads ids cls),
    hS'.ok.onList_iff (availSlabs_mem_listHeads ids' cls)]

/-! ## One call -/

/-- An `allocator_new` that takes pages loses them exactly if there are some, but not enough. -/
theorem NewAllocator.noneLost_iff {h h' : SlabHeap} {allocators : List ℕ} {cls : SlabClassId}
    {new count : ℕ} {ret : AResult} (hN : NewAllocator h h' ids seq seq' cls new count)
    (hnew : new ∉ allocators)
    (hret : ret = if count ≤ (seq (.availSlabs cls)).length then aOk else aENomem)
    (hnone : NoneLost allocators ids seq) :
    NoneLost ((if afailed ret then none else some new).toList ++ allocators) (insert new ids) seq' ↔
      seq (.availSlabs cls) = [] ∨ count ≤ (seq (.availSlabs cls)).length := by
  have hold : ∀ id ∈ ids, seq' (.slabs id) ≠ [] → id ∈ allocators := by
    intro id hid hne
    rw [hN.others id hid] at hne
    exact hnone id hid hne
  by_cases hle : count ≤ (seq (.availSlabs cls)).length
  · rw [if_pos hle] at hret
    rw [hret, afailed_aOk]
    refine iff_of_true ?_ (.inr hle)
    rintro id (rfl | hid) hne
    · exact List.mem_cons_self
    · exact List.mem_cons_of_mem _ (hold id hid hne)
  · rw [if_neg hle] at hret
    have htake : seq' (.slabs new) = (seq (.availSlabs cls)).reverse := by
      rw [hN.slabs, List.take_of_length_le (by omega)]
    rw [hret, aENomem, afailed_aresultError, or_iff_left hle]
    constructor
    · -- the client has no such allocator, so there is no slab on its list
      intro hnone'
      by_contra hne
      refine hnew (hnone' new (Set.mem_insert new ids) ?_)
      rwa [htake, ne_eq, List.reverse_eq_nil_iff]
    · intro hnil
      rintro id (rfl | hid) hne
      · rw [htake, hnil] at hne
        exact absurd rfl hne
      · exact hold id hid hne

/-- Where the first pages were taken from an empty list, the same ones are available as before. -/
theorem NewAllocator.availSlabs_eq {h h' : SlabHeap} {cls : SlabClassId} {new count : ℕ}
    (hN : NewAllocator h h' ids seq seq' cls new count) (hnil : seq (.availSlabs cls) = [])
    (cls' : SlabClassId) : seq' (.availSlabs cls') = seq (.availSlabs cls') := by
  by_cases heq : cls' = cls
  · subst heq
    rw [hN.avail, hnil, List.drop_nil]
  · exact hN.availOthers cls' heq

theorem PoolState.takesAllOrNone_iff {s : PoolRun} (hS : PoolState pages s.run ids seq)
    {itemSize itemCount flags new : ℕ} (hfresh : new ∉ s.run.mallocs) (hcount : itemCount ≠ 0)
    (hslab : s.run.heap.slabBytes (classOfFlags flags) / round16 itemSize ≠ 0) :
    TakesAllOrNone s (.call (.new itemSize itemCount flags (some new))) ↔
      seq (.availSlabs (classOfFlags flags)) = [] ∨
        pagesNeeded s.run.heap itemSize itemCount flags ≤
          (seq (.availSlabs (classOfFlags flags))).length := by
  have hlist := hS.ok.lists.isList (availSlabs_mem_listHeads ids (classOfFlags flags))
  constructor
  · rintro ((hzero | hzero | hnone) | ⟨id, hid, heq⟩ | hall)
    · exact absurd hzero hcount
    · exact absurd hzero hslab
    · cases hnone
    · cases heq
      exact absurd hid hfresh
    · exact hall _ hlist
  · intro hall
    refine .inr (.inr fun xs hxs => ?_)
    rwa [hlist.unique hxs] at hall

theorem poolStep_new {s s' : PoolRun} {itemSize itemCount flags : ℕ} {malloc : Option ℕ}
    (hstep : poolStep s (.call (.new itemSize itemCount flags malloc)) = some s') :
    (∀ id, malloc = some id → id ∉ s.run.mallocs) ∧
      ∃ ret alloc h, allocatorNew s.run.heap itemSize itemCount flags malloc = some (ret, alloc, h) ∧
        s'.failed = if afailed ret then (s.run.heap, s'.run.heap) :: s.failed else s.failed := by
  cases poolStep_cases hstep with
  | new hrun hnew =>
      simp only [slabStep, Option.ite_none_right_eq_some] at hrun
      exact ⟨hrun.1, _, _, _, hnew, rfl⟩

/-- `allocator_new` conserves the pages exactly if it takes all it needs or none. -/
theorem PoolState.new_conserved_iff {region : SlabClassId → PageRegion} {s s' : PoolRun}
    (hS : PoolState (pagesOf region) s.run ids seq) (hP : PagesConserved region s)
    {itemSize itemCount flags : ℕ} {malloc : Option ℕ}
    (hstep : poolStep s (.call (.new itemSize itemCount flags malloc)) = some s') :
    PagesConserved region s' ↔ TakesAllOrNone s (.call (.new itemSize itemCount flags malloc)) := by
  have hnone := hS.owned_iff.1 hP.owned
  obtain ⟨hfresh, ret, alloc, h, hnew, hfailed⟩ := poolStep_new hstep
  rcases hS.new (poolStep_call hstep) with
    ⟨ret', hnew', hret, hrejected, hheap, hallocs, hS'⟩ |
    ⟨new, ret', seq', rfl, hid, hcount, hslab, hret, hnew', hallocs, hS', hN, -⟩
  · -- it did nothing
    cases hnew.symm.trans hnew'
    rw [if_pos hret, hheap] at hfailed
    refine iff_of_true ⟨hS'.owned_iff.2 (hallocs ▸ hnone), ?_⟩ (.inl hrejected)
    rw [hfailed, List.forall_mem_cons]
    exact ⟨fun _ _ => Iff.rfl, hP.failed⟩
  · cases hnew.symm.trans hnew'
    have hiff := hN.noneLost_iff (fun hmem => hid (hS.allocators new hmem)) hret hnone
    rw [← hallocs] at hiff
    rw [hS.takesAllOrNone_iff (hfresh new rfl) hcount hslab, ← hiff]
    refine ⟨fun h => hS'.owned_iff.1 h.owned, fun hnone' => ⟨hS'.owned_iff.2 hnone', ?_⟩⟩
    rw [hfailed]
    cases hfail : afailed ret with
    | true =>
        -- there was no page to take
        have hnil := (hiff.1 hnone').resolve_right fun hle => by
          rw [hret, if_pos hle, afailed_aOk] at hfail
          cases hfail
        rw [if_pos rfl, List.forall_mem_cons]
        refine ⟨(hS.sameAvailable_iff hS').2 fun cls y => ?_, hP.failed⟩
        rw [hN.availSlabs_eq hnil]
    | false =>
        rw [if_neg Bool.false_ne_true]
        exact hP.failed

theorem NoneLost.others {allocators : List ℕ} {id : ℕ} (hnone : NoneLost allocators ids seq)
    (halloc : id ∈ allocators) (hothers : ∀ id', id' ≠ id → seq' (.slabs id') = seq (.slabs id')) :
    NoneLost allocators ids seq' := by
  intro id' hid' hne
  by_cases heq : id' = id
  · exact heq ▸ halloc
  · rw [hothers id' heq] at hne
    exact hnone id' hid' hne

theorem NoneLost.filter {allocators : List ℕ} {id : ℕ} (hnone : NoneLost allocators ids seq)
    (hothers : ∀ id', id' ≠ id → seq' (.slabs id') = seq (.slabs id')) :
    NoneLost (allocators.filter (· ≠ id)) (ids \ {id}) seq' := by
  intro id' hid' hne
  have hid : id' ≠ id := hid'.2
  rw [hothers id' hid] at hne
  exact List.mem_filter.2 ⟨hnone id' hid'.1 hne, by simpa using hid⟩

/-- `allocator_delete` conserves the pages, also where it gives some of them back and finds an item in
use. -/
theorem PoolState.delete_conserved {region : SlabClassId → PageRegion} {s s' : PoolRun}
    (hS : PoolState (pagesOf region) s.run ids seq) (hP : PagesConserved region s) {id fuel : ℕ}
    {freed : Allocator} {entry : ListEntry SlabNode}
    (hstep : poolStep s (.delete id fuel freed entry) = some s') : PagesConserved region s' := by
  have hnone := hS.owned_iff.1 hP.owned
  obtain ⟨-, hfailed, seq', hothers, -, ⟨halloc, hallocs, hS', -⟩ | ⟨hallocs, hS'⟩⟩ :=
    hS.delete hstep
  · have hnone' := hallocs ▸ hnone.others halloc hothers
    exact ⟨hS'.owned_iff.2 hnone', hfailed ▸ hP.failed⟩
  · have hnone' := hallocs ▸ hnone.filter hothers
    exact ⟨hS'.owned_iff.2 hnone', hfailed ▸ hP.failed⟩

theorem poolStep_pagesConserved_iff {region : SlabClassId → PageRegion} (s : PoolRun) (c : PoolCall)
    (s' : PoolRun) (hI : ∃ ids seq, PoolState (pagesOf region) s.run ids seq)
    (hP : PagesConserved region s) (hstep : poolStep s c = some s') :
    PagesConserved region s' ↔ TakesAllOrNone s c := by
  obtain ⟨ids, seq, hS⟩ := hI
  have hnone := hS.owned_iff.1 hP.owned
  cases poolStep_cases hstep with
  | new => exact hS.new_conserved_iff hP hstep
  | alloc hrun _ =>
      obtain ⟨halloc, hallocs, -, -, seq', -, hS', hmoves, -⟩ := hS.alloc hrun
      have hnone' := hallocs ▸ hnone.others halloc hmoves.others
      exact iff_of_true ⟨hS'.owned_iff.2 hnone', hP.failed⟩ trivial
  | free hrun =>
      obtain ⟨-, halloc, hallocs, seq', hS', hmoves, -⟩ := hS.free hrun
      have hnone' := hallocs ▸ hnone.others halloc hmoves.others
      exact iff_of_true ⟨hS'.owned_iff.2 hnone', hP.failed⟩ trivial
  | write hrun =>
      obtain ⟨hallocs, hS'⟩ := hS.write hrun
      exact iff_of_true ⟨hS'.owned_iff.2 (hallocs ▸ hnone), hP.failed⟩ trivial
  | busy => exact iff_of_true (hS.delete_conserved hP hstep) trivial
  | deleted => exact iff_of_true (hS.delete_conserved hP hstep) trivial

theorem takesAllOrNone_of_none {region : SlabClassId → PageRegion} (s : PoolRun) (c : PoolCall)
    (hI : ∃ ids seq, PoolState (pagesOf region) s.run ids seq) (hnone : poolStep s c = none) :
    TakesAllOrNone s c := by
  obtain ⟨ids, seq, hS⟩ := hI
  cases c with
  | delete => trivial
  | call c =>
      cases c with
      | new itemSize itemCount flags malloc =>
          by_cases hfresh : ∀ id, malloc = some id → id ∉ s.run.mallocs
          · rcases allocatorNew_cases hS.ok itemSize itemCount flags
                (fun id heq hid => hfresh id heq (hS.mallocs id hid)) with
              ⟨-, hround⟩ | ⟨_, hnew, -⟩ | ⟨_, _, _, _, -, -, -, -, hnew, -⟩
            · exact .inl (.inr (.inl (by rw [hround, Nat.div_zero])))
            · simp only [poolStep, slabStep, if_pos hfresh, hnew, Option.bind_eq_bind,
                Option.bind_some] at hnone
              cases hnone
            · simp only [poolStep, slabStep, if_pos hfresh, hnew, Option.bind_eq_bind,
                Option.bind_some] at hnone
              cases hnone
          · push Not at hfresh
            obtain ⟨id, heq, hid⟩ := hfresh
            exact .inr (.inl ⟨id, hid, heq⟩)
      | _ => trivial

section Start

variable {region : SlabClassId → PageRegion}

/-- **The pages of a class are conserved**, in a run of any number of allocators on any memory, exactly
if every `allocator_new` that asks for pages finds none at all or all it needs. -/
theorem pagesConserved_throughout_iff (mem : SlabHeap) (hregion : ∀ cls, (region cls).Ok)
    (hapart : ∀ cls cls', cls ≠ cls' →
      (region cls).base + (region cls).count * (region cls).bytes ≤ (region cls').base ∨
      (region cls').base + (region cls').count * (region cls').bytes ≤ (region cls).base)
    (calls : List PoolCall) :
    Throughout poolStep (PagesConserved region) (poolRunInit mem region) calls ↔
      Meets poolStep TakesAllOrNone (poolRunInit mem region) calls := by
  obtain ⟨seq, hS⟩ := poolState_init mem hregion hapart
  refine throughout_iff_meets (fun s c s' hI hstep => ?_) poolStep_pagesConserved_iff
    (fun s c hI _ hnone => takesAllOrNone_of_none s c hI hnone) calls _ ⟨∅, seq, hS⟩ ?_
  · obtain ⟨ids, seq, hS⟩ := hI
    exact hS.step c hstep
  · refine ⟨hS.owned_iff.2 fun id hid => ?_, fun e he => ?_⟩
    · cases hid
    · cases he

/-- An allocator with a hundred items, two on a page, where there are three pages. -/
def hundredItems : List PoolCall := [.call (.new 2000 100 0 (some 1))]

/-- The theorem on an allocator with four items, which there are pages for, and a second one like it,
which there are not. -/
theorem pagesConserved_throughout_iff_second :
    Throughout poolStep (PagesConserved threePages) (poolRunInit zeroMem threePages)
        [.call (.new 2000 4 0 (some 1)), .call (.new 2000 4 0 (some 2))] ↔
      Meets poolStep TakesAllOrNone (poolRunInit zeroMem threePages)
        [.call (.new 2000 4 0 (some 1)), .call (.new 2000 4 0 (some 2))] :=
  pagesConserved_throughout_iff zeroMem threePages_ok threePages_apart _

/-- `allocator_new` fails, no client has an allocator, and no page is left. -/
theorem hundredItems_loses : ∃ s, exec poolStep (poolRunInit zeroMem threePages) hundredItems = some s ∧
    s.run.allocators = [] ∧ s.failed.length = 1 ∧
    (s.run.heap.links (.availSlabs .normalSlabs)).next = .availSlabs .normalSlabs ∧
    ¬ Throughout poolStep (PagesConserved threePages) (poolRunInit zeroMem threePages)
      hundredItems := by
  obtain ⟨s, hs, hfacts⟩ := Option.map_eq_some_iff.1 (show
    (exec poolStep (poolRunInit zeroMem threePages) hundredItems).map (fun s =>
      ((s.run.allocators, s.failed.length),
        (s.run.heap.links (.availSlabs .normalSlabs)).next)) =
      some (([], 1), .availSlabs .normalSlabs) by decide +kernel)
  simp only [Prod.mk.injEq] at hfacts
  obtain ⟨⟨hallocs, hfailed⟩, hnext⟩ := hfacts
  refine ⟨s, hs, hallocs, hfailed, hnext, fun h => ?_⟩
  -- the first page is on no list that starts anywhere but at a class
  obtain ⟨x, hx, ⟨xs, hxs, hmem⟩, hcls, -⟩ := (h.last hs).owned .normalSlabs 65536 ⟨0, by decide, rfl⟩
  rcases hx with ⟨cls, rfl⟩ | ⟨id, hid, rfl⟩
  · obtain rfl : cls = .normalSlabs := hcls
    have hnil := (listEmpty_iff hxs).1 (by simp [listEmpty, hnext])
    rw [hnil] at hmem
    cases hmem
  · rw [Set.mem_ofPred_eq, hallocs] at hid
    cases hid

end Start

end Tsl
