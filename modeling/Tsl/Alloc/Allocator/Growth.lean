import Tsl.Alloc.Allocator.Pool

set_option autoImplicit false

/-! # Allocators that must not grow

`allocator_alloc` does not grow an allocator with `ALLOC_FLAG_NO_GROW` in its `flags`, but nothing ever
puts it there: `allocator_new` keeps its `flags` argument to itself, and the field is what `malloc`
returned. Such an allocator stays as it is exactly as long as that memory happens to have the bit, or
there is nothing to grow by (`staysSmall_throughout_iff`). -/

namespace Tsl

open Lib

/-- An `allocator_alloc` acquired no page, and failed if all slabs were full. -/
structure AllocRecord.StaysSmall (r : AllocRecord) : Prop where
  acquiresNone : ∀ cls y, OnList r.before (.availSlabs cls) y → OnList r.after (.availSlabs cls) y
  fails : (∀ y, OnList r.before (.slabs r.alloc) y → r.before.freeOn y = 0) → r.ret = aENomem

/-- The allocators created with `ALLOC_FLAG_NO_GROW` did not grow. -/
def StaysSmall (s : PoolRun) : Prop := ∀ r ∈ s.allocs, r.StaysSmall

/-- An item is asked of an allocator that was created with the flag only while the bit is in the memory
    of the allocator, a slab of it has a free item, or its class has no page left. -/
def NothingToGrow (s : PoolRun) : PoolCall → Prop
  | .call (.alloc id) => id ∈ s.noGrow →
      ¬ Growable s.run.heap id ∨
        (∃ y, OnList s.run.heap (.slabs id) y ∧ s.run.heap.freeOn y ≠ 0) ∨
        ∀ y, ¬ OnList s.run.heap (.availSlabs (s.run.heap.allocator id).allocState) y
  | _ => True

variable {pages : SlabClassId → Set ℕ} {s s' : PoolRun} {ids : Set ℕ}
  {seq : SlabNode → List SlabNode} {id : ℕ}

theorem poolStep_alloc (hstep : poolStep s (.call (.alloc id)) = some s') :
    ∃ ret item h, allocatorAlloc s.run.heap id = some (ret, item, h) ∧
      s'.allocs = if id ∈ s.noGrow then ⟨id, s.run.heap, ret, s'.run.heap⟩ :: s.allocs
        else s.allocs := by
  cases poolStep_cases hstep with
  | alloc _ hcall => exact ⟨_, _, _, hcall, rfl⟩

theorem poolStep_allocs {c : PoolCall} (hc : ∀ id, c ≠ .call (.alloc id))
    (hstep : poolStep s c = some s') : s'.allocs = s.allocs := by
  cases poolStep_cases hstep with
  | @alloc id _ _ _ _ _ _ => exact absurd rfl (hc id)
  | _ => rfl

/-- One `allocator_alloc`: it acquires no page exactly if there is nothing to grow by, and then it fails
if the slabs are full. -/
theorem PoolState.staysSmall_iff (hS : PoolState pages s.run ids seq)
    (hstep : poolStep s (.call (.alloc id)) = some s') {ret : AResult} {item : Option ℕ}
    {h : SlabHeap} (hcall : allocatorAlloc s.run.heap id = some (ret, item, h)) :
    (⟨id, s.run.heap, ret, s'.run.heap⟩ : AllocRecord).StaysSmall ↔
      ¬ Growable s.run.heap id ∨
        (∃ y, OnList s.run.heap (.slabs id) y ∧ s.run.heap.freeOn y ≠ 0) ∨
        ∀ y, ¬ OnList s.run.heap (.availSlabs (s.run.heap.allocator id).allocState) y := by
  obtain ⟨halloc, -, ret', item', seq', hcall', hS', -, -, -, hout⟩ := hS.alloc (poolStep_call hstep)
  obtain rfl : ret = ret' := by
    rw [hcall', Option.some.injEq, Prod.mk.injEq] at hcall
    exact hcall.1.symm
  have hid := hS.allocators id halloc
  have hmine := hS.ok.onList_iff (slabs_mem_listHeads hid)
  have havail : ∀ cls y, OnList s.run.heap (.availSlabs cls) y ↔ y ∈ seq (.availSlabs cls) :=
    fun cls => hS.ok.onList_iff (availSlabs_mem_listHeads ids cls)
  have havail' : ∀ cls y, OnList s'.run.heap (.availSlabs cls) y ↔ y ∈ seq' (.availSlabs cls) :=
    fun cls => hS'.ok.onList_iff (availSlabs_mem_listHeads ids cls)
  cases hout with
  | taken hfirst hsame =>
      -- the first slab has a free item
      have hfree : ∃ y, OnList s.run.heap (.slabs id) y ∧ s.run.heap.freeOn y ≠ 0 := by
        by_contra hnone
        push Not at hnone
        exact hfirst fun y hy => hnone y ((hmine y).2 (List.mem_of_mem_head? hy))
      obtain ⟨y, hy, hpos⟩ := hfree
      exact iff_of_true ⟨hS.ok.pages_kept hS'.ok hsame, fun hfull => absurd (hfull y hy) hpos⟩ (.inr (.inl ⟨y, hy, hpos⟩))
  | refused hfirst hgrow hsame =>
      refine iff_of_true ⟨hS.ok.pages_kept hS'.ok hsame, fun _ => rfl⟩ ?_
      rcases hgrow with hgrow | hnil
      · exact .inl hgrow
      · refine .inr (.inr fun y hy => ?_)
        rw [havail, hnil] at hy
        cases hy
  | grown _ p rest hfirst hgrow hpage hgone =>
      have hp : OnList s.run.heap (.availSlabs (s.run.heap.allocator id).allocState) (.snode p) := by
        rw [havail, hpage]
        exact List.mem_cons_self
      refine iff_of_false (fun h => ?_) ?_
      · -- the page is gone
        have hp' := h.acquiresNone _ _ hp
        rw [havail', hgone] at hp'
        exact hS.ok.page_not_mem hpage hp'
      · rintro (hnot | ⟨y, hy, hpos⟩ | hnone)
        · exact hnot hgrow
        · exact hpos (hfirst.full (hS.ordered id hid) y ((hmine y).1 hy))
        · exact hnone _ hp

theorem poolStep_staysSmall_iff (s : PoolRun) (c : PoolCall) (s' : PoolRun)
    (hI : ∃ ids seq, PoolState pages s.run ids seq) (hP : StaysSmall s)
    (hstep : poolStep s c = some s') : StaysSmall s' ↔ NothingToGrow s c := by
  obtain ⟨ids, seq, hS⟩ := hI
  by_cases halloc : ∃ id, c = .call (.alloc id)
  · obtain ⟨id, rfl⟩ := halloc
    obtain ⟨ret, item, h, hcall, hallocs⟩ := poolStep_alloc hstep
    have hiff := hS.staysSmall_iff hstep hcall
    by_cases hflag : id ∈ s.noGrow
    · rw [if_pos hflag] at hallocs
      simp only [StaysSmall, hallocs, List.forall_mem_cons, NothingToGrow, hflag, forall_const]
      rw [hiff]
      exact and_iff_left hP
    · rw [if_neg hflag] at hallocs
      exact iff_of_true (by rw [StaysSmall, hallocs]; exact hP) fun hmem => absurd hmem hflag
  · push Not at halloc
    have hsame := poolStep_allocs halloc hstep
    refine iff_of_true (by rw [StaysSmall, hsame]; exact hP) ?_
    cases c with
    | call c =>
        cases c with
        | alloc id => exact absurd rfl (halloc id)
        | _ => trivial
    | delete => trivial

theorem poolStep_noGrow (c : PoolCall) (hsub : ∀ id ∈ s.noGrow, id ∈ s.run.allocators)
    (hstep : poolStep s c = some s') : ∀ id ∈ s'.noGrow, id ∈ s'.run.allocators := by
  cases poolStep_cases hstep with
  | @new _ _ flags _ alloc _ _ run hrun hnew =>
      simp only [slabStep, hnew, Option.bind_eq_bind, Option.bind_some,
        Option.ite_none_right_eq_some, Option.some.injEq] at hrun
      intro id hid
      rw [← hrun.2]
      simp only at hid
      split at hid
      · exact List.mem_append_right _ (hsub id hid)
      · rcases List.mem_append.1 hid with hid | hid
        · exact List.mem_append_left _ hid
        · exact List.mem_append_right _ (hsub id hid)
  | alloc hrun _ =>
      simp only [slabStep, Option.ite_none_right_eq_some, Option.bind_eq_bind,
        Option.bind_eq_some_iff, Option.some.injEq] at hrun
      obtain ⟨-, _, -, _, -, rfl⟩ := hrun
      exact hsub
  | free hrun =>
      simp only [slabStep, Option.ite_none_right_eq_some, Option.some.injEq] at hrun
      obtain ⟨-, rfl⟩ := hrun
      exact hsub
  | write hrun =>
      simp only [slabStep, Option.ite_none_right_eq_some, Option.some.injEq] at hrun
      obtain ⟨-, rfl⟩ := hrun
      exact hsub
  | busy => exact hsub
  | deleted =>
      intro id hid
      obtain ⟨hmem, hne⟩ := List.mem_filter.1 hid
      exact List.mem_filter.2 ⟨hsub id hmem, hne⟩

theorem nothingToGrow_of_none (s : PoolRun) (c : PoolCall)
    (hI : ∃ ids seq, PoolState pages s.run ids seq) (hnone : poolStep s c = none)
    (halloc : ∀ id ∈ s.noGrow, id ∈ s.run.allocators) : NothingToGrow s c := by
  obtain ⟨ids, seq, hS⟩ := hI
  cases c with
  | delete => trivial
  | call c =>
      cases c with
      | alloc id =>
          intro hflag
          have hid := hS.allocators id (halloc id hflag)
          rcases allocatorAlloc_spec hS.ok hid with
            ⟨-, hnil, -⟩ | ⟨first, h₁, ret, item, h', seq', hfirst, hcall, -⟩
          · refine .inr (.inr fun y hy => ?_)
            rw [hS.ok.onList_iff (availSlabs_mem_listHeads ids _), hnil] at hy
            cases hy
          · simp [poolStep, slabStep, halloc id hflag, hfirst, hcall] at hnone
      | _ => trivial

section Start

variable {region : SlabClassId → PageRegion}

/-- **Allocators that must not grow** grow, in some run of any number of allocators on any memory,
exactly if an item is asked of one whose memory lacks the bit, while all its slabs are full and its
class has a page. -/
theorem staysSmall_throughout_iff (mem : SlabHeap) (hregion : ∀ cls, (region cls).Ok)
    (hapart : ∀ cls cls', cls ≠ cls' →
      (region cls).base + (region cls).count * (region cls).bytes ≤ (region cls').base ∨
      (region cls').base + (region cls').count * (region cls').bytes ≤ (region cls).base)
    (calls : List PoolCall) :
    Throughout poolStep StaysSmall (poolRunInit mem region) calls ↔
      Meets poolStep NothingToGrow (poolRunInit mem region) calls := by
  obtain ⟨seq, hS⟩ := poolState_init mem hregion hapart
  have hstep : ∀ s c s', ((∃ ids seq, PoolState (pagesOf region) s.run ids seq) ∧
      ∀ id ∈ s.noGrow, id ∈ s.run.allocators) → poolStep s c = some s' →
      (∃ ids seq, PoolState (pagesOf region) s'.run ids seq) ∧
        ∀ id ∈ s'.noGrow, id ∈ s'.run.allocators := by
    rintro s c s' ⟨⟨ids, seq, hS⟩, hsub⟩ hstep
    exact ⟨hS.step c hstep, poolStep_noGrow c hsub hstep⟩
  refine throughout_iff_meets hstep
    (fun s c s' hI hP hstep => poolStep_staysSmall_iff s c s' hI.1 hP hstep)
    (fun s c hI _ hnone => nothingToGrow_of_none s c hI.1 hnone hI.2) calls _
    ⟨⟨∅, seq, hS⟩, ?_⟩ ?_
  · intro id hid
    cases hid
  · intro r hr
    cases hr

/-- An allocator with two items on a page, created with `ALLOC_FLAG_NO_GROW`, and asked for three. -/
def thirdItem : List PoolCall :=
  [.call (.new 2000 1 1 (some 1)), .call (.alloc 1), .call (.alloc 1), .call (.alloc 1)]

/-- On a memory that has the bit the third one is refused; the theorem is about other memories
too. -/
theorem staysSmall_throughout_iff_thirdItem :
    Throughout poolStep StaysSmall (poolRunInit zeroMem threePages) thirdItem ↔
      Meets poolStep NothingToGrow (poolRunInit zeroMem threePages) thirdItem :=
  staysSmall_throughout_iff zeroMem threePages_ok threePages_apart thirdItem

/-- On a memory of zeros the third item comes from a page that was acquired for it. -/
theorem thirdItem_grows : ∃ s s',
    exec poolStep (poolRunInit zeroMem threePages) (thirdItem.take 3) = some s ∧
      poolStep s (.call (.alloc 1)) = some s' ∧ 1 ∈ s.noGrow ∧
      (s.run.heap.links (.availSlabs .normalSlabs)).next = .snode 69632 ∧
      (s'.run.heap.links (.slabs 1)).next = .snode 69632 ∧ s'.run.live.length = 3 ∧
      ¬ Throughout poolStep StaysSmall (poolRunInit zeroMem threePages) thirdItem := by
  obtain ⟨s, hs, hfacts⟩ := Option.map_eq_some_iff.1 (show
    (exec poolStep (poolRunInit zeroMem threePages) (thirdItem.take 3)).map (fun s =>
      ((decide (1 ∈ s.noGrow), (s.run.heap.links (.availSlabs .normalSlabs)).next),
        (poolStep s (.call (.alloc 1))).map fun s' =>
          ((s'.run.heap.links (.slabs 1)).next, s'.run.live.length))) =
      some ((true, .snode 69632), some (.snode 69632, 3)) by decide +kernel)
  simp only [Prod.mk.injEq, decide_eq_true_eq] at hfacts
  obtain ⟨⟨hflag, hnext⟩, hlast⟩ := hfacts
  obtain ⟨s', hs', hlast⟩ := Option.map_eq_some_iff.1 hlast
  simp only [Prod.mk.injEq] at hlast
  obtain ⟨hnext', hlive⟩ := hlast
  refine ⟨s, s', hs, hs', hflag, hnext, hnext', hlive, fun h => ?_⟩
  have hrun : exec poolStep (poolRunInit zeroMem threePages) thirdItem = some s' := by
    rw [show thirdItem = thirdItem.take 3 ++ [.call (.alloc 1)] from rfl, exec_append hs]
    simp [exec, hs']
  obtain ⟨ret, item, heap, -, hallocs⟩ := poolStep_alloc hs'
  rw [if_pos hflag] at hallocs
  have hsmall := h.last hrun ⟨1, s.run.heap, ret, s'.run.heap⟩
    (by rw [hallocs]; exact List.mem_cons_self)
  -- the page was available before, and is on the list of the allocator after
  obtain ⟨seq₀, hS₀⟩ := poolState_init zeroMem threePages_ok threePages_apart
  obtain ⟨ids, seq, hS⟩ := exec_invariant
    (fun s c s' (hI : ∃ ids seq, PoolState (pagesOf threePages) s.run ids seq) hstep =>
      hI.elim fun _ hI => hI.elim fun _ hS => hS.step c hstep) ⟨∅, seq₀, hS₀⟩ hs
  obtain ⟨halloc, -, _, _, seq', -, hS', -⟩ := hS.alloc (poolStep_call hs')
  have hx := availSlabs_mem_listHeads ids .normalSlabs
  have hid := slabs_mem_listHeads (hS.allocators 1 halloc)
  have hbefore : SlabNode.snode 69632 ∈ seq (.availSlabs .normalSlabs) := by
    have hmem := (hS.ok.lists.isList hx).next_mem
    rw [hnext] at hmem
    simpa using hmem
  have hafter : SlabNode.snode 69632 ∈ seq' (.slabs 1) := by
    have hmem := (hS'.ok.lists.isList hid).next_mem
    rw [hnext'] at hmem
    simpa using hmem
  have hkept := hsmall.acquiresNone _ _ ((hS.ok.onList_iff hx _).2 hbefore)
  cases hS'.ok.eq_of_mem hid hx hafter ((hS'.ok.onList_iff hx _).1 hkept)

end Start

end Tsl
