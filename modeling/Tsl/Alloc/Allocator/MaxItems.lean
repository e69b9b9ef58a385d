import Tsl.Alloc.Allocator.Pool

set_option autoImplicit false

/-! # The figure `max_items`

An allocator counts in `max_items` how many items its slabs have. `__helper_add_slab` adds those of a
slab that comes, and `allocator_delete` subtracts those of each slab it gives back, but
`__helper_allocator_shrink` only takes the slab off the list. From then on the figure is too large: it is
right exactly in the runs where no `allocator_free` gives a slab back
(`maxItemsRight_throughout_iff`). -/

namespace Tsl

open Lib

/-- The figure of every allocator is the sum over the slabs on its list. -/
def MaxItemsRight (s : PoolRun) : Prop :=
  ∀ id ∈ s.run.allocators, ∃ xs, IsList s.run.heap.links (.slabs id) xs ∧
    (s.run.heap.allocator id).maxItems = (xs.map s.run.heap.maxItemsOn).sum

/-- An item that is freed leaves a live one in its slab, or that is the only slab. -/
def SlabStays (s : PoolRun) : PoolCall → Prop
  | .call (.free item) => item ∈ s.run.live → item.alloc ∈ s.run.allocators →
      (∃ it ∈ s.run.live.erase item, it.slab = item.slab) ∨
        ∀ y, OnList s.run.heap (.slabs item.alloc) y → y = .snode item.slab
  | _ => True

variable {pages : SlabClassId → Set ℕ} {s s' : PoolRun} {ids : Set ℕ}
  {seq seq' : SlabNode → List SlabNode} {id : ℕ}

theorem PoolState.maxItemsRight_iff (hS : PoolState pages s.run ids seq) :
    MaxItemsRight s ↔ ∀ id ∈ s.run.allocators, Tally s.run.heap seq id := by
  refine forall₂_congr fun id halloc => ?_
  have hid := hS.allocators id halloc
  have hlist := hS.ok.lists.isList (slabs_mem_listHeads hid)
  rw [Tally, ← hS.ok.sum_maxItemsOn hid]
  constructor
  · rintro ⟨xs, hxs, hsum⟩
    rwa [hlist.unique hxs]
  · exact fun hsum => ⟨_, hlist, hsum⟩

theorem Tallies.all {h h' : SlabHeap} {allocators : List ℕ} (ht : Tallies h h' id seq seq')
    (hothers : ∀ id', id' ≠ id → seq' (.slabs id') = seq (.slabs id'))
    (hall : ∀ id' ∈ allocators, Tally h seq id') : ∀ id' ∈ allocators, Tally h' seq' id' := by
  intro id' halloc
  by_cases heq : id' = id
  · subst heq
    exact ht.mine (hall id' halloc)
  · exact ht.other heq (hothers id' heq) (hall id' halloc)

/-- Where no allocator was written to, a figure stays right exactly if the number of slabs is the
same. -/
theorem tally_iff_length {h h' : SlabHeap} (hbytes : h'.slabBytes = h.slabBytes)
    (hallocs : h'.allocator = h.allocator) (ht : Tally h seq id)
    (hpos : 0 < slabItems (h.pageBytes id) (h.allocator id).itemSize) :
    Tally h' seq' id ↔ (seq' (.slabs id)).length = (seq (.slabs id)).length := by
  have hpage : h'.pageBytes id = h.pageBytes id := by
    rw [SlabHeap.pageBytes, hbytes, hallocs]
    rfl
  rw [Tally, hpage, hallocs, ht, Nat.mul_left_inj hpos.ne']
  exact eq_comm

/-- Of one `allocator_free`: the figures are right after it exactly if the slab stayed. -/
theorem PoolState.free_maxItemsRight_iff (hS : PoolState pages s.run ids seq) (hP : MaxItemsRight s)
    {item : LiveItem} (hstep : poolStep s (.call (.free item)) = some s') :
    MaxItemsRight s' ↔ SlabStays s (.call (.free item)) := by
  have htally := hS.maxItemsRight_iff.1 hP
  obtain ⟨hlive, halloc, hsame, seq', hS', hmoves, hbytes, hallocs, hfreed⟩ :=
    hS.free (poolStep_call hstep)
  obtain ⟨hid, hp, i, hi, -⟩ := hS.ok.liveItem item hlive
  have hpos := Nat.zero_lt_of_lt hi
  have hmine : Tally s'.run.heap seq' item.alloc ↔
      (seq' (.slabs item.alloc)).length = (seq (.slabs item.alloc)).length :=
    tally_iff_length hbytes hallocs (htally _ halloc) hpos
  -- only the list of the item's allocator changed
  have hiff : MaxItemsRight s' ↔
      (seq' (.slabs item.alloc)).length = (seq (.slabs item.alloc)).length := by
    rw [hS'.maxItemsRight_iff, hsame, ← hmine]
    refine ⟨fun hall => hall _ halloc, fun hright id hmem => ?_⟩
    by_cases heq : id = item.alloc
    · exact heq ▸ hright
    · rw [Tally, hmoves.others id heq, SlabHeap.pageBytes, hbytes, hallocs]
      exact htally id hmem
  rw [hiff]
  have honList := hS.ok.onList_iff (slabs_mem_listHeads hid)
  cases hfreed with
  | kept hwhy hr =>
      refine iff_of_true hr.mine.length_eq fun _ _ => ?_
      rcases hwhy with hother | hone
      · exact .inl hother
      · exact .inr fun y hy => hone y ((honList y).1 hy)
  | returned hempty hothers hr =>
      -- there is a slab less, and the figure was not touched
      refine iff_of_false ?_ fun hstays => ?_
      · have hlen := List.length_pos_of_mem hp
        rw [hr, releasePage_slabs, if_pos rfl, List.length_erase_of_mem hp]
        omega
      · obtain ⟨y, hy, hne⟩ := hothers
        rcases hstays hlive halloc with ⟨it, hit, hslab⟩ | hone
        · exact hempty it hit hslab
        · exact hne (hone y ((honList y).2 hy))

theorem poolStep_maxItemsRight_iff (s : PoolRun) (c : PoolCall) (s' : PoolRun)
    (hI : ∃ ids seq, PoolState pages s.run ids seq) (hP : MaxItemsRight s)
    (hstep : poolStep s c = some s') : MaxItemsRight s' ↔ SlabStays s c := by
  obtain ⟨ids, seq, hS⟩ := hI
  have htally := hS.maxItemsRight_iff.1 hP
  cases c with
  | call c =>
      have hrun := poolStep_call hstep
      cases c with
      | new itemSize itemCount flags malloc =>
          refine iff_of_true ?_ trivial
          rcases hS.new hrun with ⟨ret, -, -, -, hheap, hallocs, hS'⟩ |
            ⟨new, ret, seq', -, -, -, -, -, -, hallocs, hS', -, hT⟩
          · rw [hS'.maxItemsRight_iff, hheap, hallocs]
            exact htally
          · rw [hS'.maxItemsRight_iff, hallocs]
            intro id hid
            rcases List.mem_append.1 hid with hid | hid
            · obtain rfl : id = new := by
                split at hid
                · cases hid
                · simpa using hid
              exact hT.mine
            · exact hT.others id (hS.allocators id hid) (htally id hid)
      | alloc alloc =>
          refine iff_of_true ?_ trivial
          obtain ⟨-, hallocs, -, -, seq', -, hS', hmoves, -, ht, -⟩ := hS.alloc hrun
          rw [hS'.maxItemsRight_iff, hallocs]
          exact ht.all hmoves.others htally
      | free item => exact hS.free_maxItemsRight_iff hP hstep
      | write item addr val =>
          refine iff_of_true ?_ trivial
          obtain ⟨hallocs, hS'⟩ := hS.write hrun
          simp only [slabStep, Option.ite_none_right_eq_some, Option.some.injEq] at hrun
          rw [hS'.maxItemsRight_iff, hallocs, ← hrun.2]
          exact htally
  | delete alloc fuel freed entry =>
      refine iff_of_true ?_ trivial
      obtain ⟨-, -, seq', -, hothers, ⟨-, hallocs, hS', -, hmine⟩ | ⟨hallocs, hS'⟩⟩ :=
        hS.delete hstep
      · rw [hS'.maxItemsRight_iff, hallocs]
        intro id hid
        by_cases heq : id = alloc
        · subst heq
          exact hmine (htally id hid)
        · exact hothers id heq (htally id hid)
      · rw [hS'.maxItemsRight_iff, hallocs]
        intro id hid
        -- nothing is said of the allocator that is gone
        obtain ⟨hid, hne⟩ := List.mem_filter.1 hid
        exact hothers id (by simpa using hne) (htally id hid)

theorem slabStays_of_none (s : PoolRun) (c : PoolCall) (hnone : poolStep s c = none) :
    SlabStays s c := by
  cases c with
  | delete => trivial
  | call c =>
      cases c with
      | free item =>
          intro hlive halloc
          simp only [poolStep, slabStep, if_pos (And.intro hlive halloc)] at hnone
          cases hnone
      | _ => trivial

section Start

variable {region : SlabClassId → PageRegion}

/-- **`max_items`** is the sum over the slabs on the list of an allocator, throughout a run of any number
of allocators on any memory, exactly if every item that is freed leaves a live one in its slab, or its
slab is the only one. -/
theorem maxItemsRight_throughout_iff (mem : SlabHeap) (hregion : ∀ cls, (region cls).Ok)
    (hapart : ∀ cls cls', cls ≠ cls' →
      (region cls).base + (region cls).count * (region cls).bytes ≤ (region cls').base ∨
      (region cls').base + (region cls').count * (region cls').bytes ≤ (region cls).base)
    (calls : List PoolCall) :
    Throughout poolStep MaxItemsRight (poolRunInit mem region) calls ↔
      Meets poolStep SlabStays (poolRunInit mem region) calls := by
  obtain ⟨seq, hS⟩ := poolState_init mem hregion hapart
  refine throughout_iff_meets (fun s c s' hI hstep => ?_) poolStep_maxItemsRight_iff
    (fun s c _ _ hnone => slabStays_of_none s c hnone) calls _ ⟨∅, seq, hS⟩ ?_
  · obtain ⟨ids, seq, hS⟩ := hI
    exact hS.step c hstep
  · intro id hid
    cases hid

/-- An allocator with two items on a page grows for the third one, which is freed. -/
def thirdFreed : List PoolCall :=
  [.call (.new 2000 1 0 (some 1)), .call (.alloc 1), .call (.alloc 1), .call (.alloc 1),
    .call (.free ⟨1, 69632 + 64, 69632⟩)]

/-- Until that item is freed the figure is right, on any memory. -/
theorem maxItemsRight_throughout_iff_thirdFreed :
    Throughout poolStep MaxItemsRight (poolRunInit zeroMem threePages) (thirdFreed.take 4) ↔
      Meets poolStep SlabStays (poolRunInit zeroMem threePages) (thirdFreed.take 4) :=
  maxItemsRight_throughout_iff zeroMem threePages_ok threePages_apart _

/-- Then there is one slab of two items, and `max_items` is four. -/
theorem thirdFreed_drifts : ∃ s, exec poolStep (poolRunInit zeroMem threePages) thirdFreed = some s ∧
    1 ∈ s.run.allocators ∧ IsList s.run.heap.links (.slabs 1) [.snode 65536] ∧
    (s.run.heap.slab 65536).maxItems = 2 ∧ (s.run.heap.allocator 1).maxItems = 4 ∧
    ¬ Throughout poolStep MaxItemsRight (poolRunInit zeroMem threePages) thirdFreed := by
  obtain ⟨s, hs, hfacts⟩ := Option.map_eq_some_iff.1 (show
    (exec poolStep (poolRunInit zeroMem threePages) thirdFreed).map (fun s =>
      ((decide (1 ∈ s.run.allocators), (s.run.heap.slab 65536).maxItems,
          (s.run.heap.allocator 1).maxItems),
        [(s.run.heap.links (.slabs 1)).next, (s.run.heap.links (.snode 65536)).prev,
          (s.run.heap.links (.snode 65536)).next, (s.run.heap.links (.slabs 1)).prev])) =
      some ((true, 2, 4), [.snode 65536, .slabs 1, .slabs 1, .snode 65536]) by decide +kernel)
  simp only [Prod.mk.injEq, List.cons.injEq, decide_eq_true_eq] at hfacts
  obtain ⟨⟨halloc, hslab, hmax⟩, hfirst, hfirst', hlast, hlast', -⟩ := hfacts
  have hlist : IsList s.run.heap.links (.slabs 1) [.snode 65536] :=
    ⟨by decide, .cons_cons ⟨hfirst, hfirst'⟩ (.cons_cons ⟨hlast, hlast'⟩ (.singleton _))⟩
  refine ⟨s, hs, halloc, hlist, hslab, hmax, fun h => ?_⟩
  obtain ⟨xs, hxs, hsum⟩ := h.last hs 1 halloc
  rw [hmax, ← hlist.unique hxs] at hsum
  simp [SlabHeap.maxItemsOn, hslab] at hsum

end Start

end Tsl
