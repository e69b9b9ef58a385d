import Tsl.Alloc.Allocator.Pool

set_option autoImplicit false

/-! # Allocators that must not be deleted

`allocator_delete` refuses an allocator with an item in use. It finds out while it goes through the
slabs, and gives those back that come before the first one in use: the allocator is as it was exactly if
there are none (`allocatorDelete_of_run`). -/

namespace Tsl

open Lib

/-- An item of the slab `p` is in use. -/
def SlabRun.InUse (s : SlabRun) (p : ℕ) : Prop := ∃ it ∈ s.live, it.slab = p

/-- No slab of the allocator is in use, or the first one is. -/
def FirstIfAny (s : SlabRun) (id : ℕ) : Prop :=
  (∀ p, OnList s.heap (.slabs id) (.snode p) → ¬ s.InUse p) ∨
    ∃ p, (s.heap.links (.slabs id)).next = .snode p ∧ s.InUse p

variable {pages : SlabClassId → Set ℕ} {s : SlabRun} {ids : Set ℕ}
  {seq seq' : SlabNode → List SlabNode} {id : ℕ}

theorem Drained.onList {h' : SlabHeap} (hS : PoolState pages s ids seq) (hid : id ∈ ids)
    (hd : Drained s.heap h' id s.live seq seq') {it : LiveItem}
    (hfirst : (seq' (.slabs id)).head? = some (.snode it.slab)) :
    OnList s.heap (.slabs id) (.snode it.slab) := by
  obtain ⟨idle, hcut, -, -⟩ := hd
  rw [hS.ok.onList_iff (slabs_mem_listHeads hid), hcut]
  exact List.mem_append_right _ (List.mem_of_mem_head? hfirst)

/-- Where the loop stops at a slab in use, the allocator is as it was exactly if that is the first. -/
theorem Drained.leaves_iff {h' : SlabHeap} {live : List LiveItem} (hS : PoolState pages s ids seq)
    (hid : id ∈ ids) (hOk' : SlabHeapOk h' pages ids seq' live)
    (hd : Drained s.heap h' id s.live seq seq') {it : LiveItem} (hit : it ∈ s.live)
    (hfirst : (seq' (.slabs id)).head? = some (.snode it.slab)) :
    LeavesAllocator s.heap h' id ↔ FirstIfAny s id := by
  have hx := slabs_mem_listHeads hid
  have hlist := hS.ok.lists.isList hx
  have hon := hd.onList hS hid hfirst
  obtain ⟨idle, hcut, hidle, hsame⟩ := hd
  cases idle with
  | nil =>
      rw [hsame rfl]
      refine iff_of_true (LeavesAllocator.refl _ _) (.inr ⟨it.slab, ?_, it, hit, rfl⟩)
      rw [List.nil_append] at hcut
      have hnext := hlist.next_eq_headD
      rw [hcut] at hnext
      cases hseq' : seq' (.slabs id) with
      | nil => simp [hseq'] at hfirst
      | cons y rest =>
          rw [hseq'] at hnext hfirst
          exact hnext.trans (Option.some.inj hfirst)
  | cons x idle =>
      rw [List.cons_append] at hcut
      refine iff_of_false (fun hleaves => ?_) ?_
      · -- a slab went
        have hkept := (hleaves.slabs _).1 (hOk'.lists.isList hx)
        have hlen := congrArg List.length (hlist.unique hkept)
        rw [hcut, List.length_cons, List.length_append] at hlen
        omega
      · rintro (hnone | ⟨p, hnext, it', hit', rfl⟩)
        · exact hnone _ hon ⟨it, hit, rfl⟩
        · rw [hcut] at hlist
          have hx' : x = .snode it'.slab := hlist.next_first.1.symm.trans hnext
          exact hidle it' hit' (hx' ▸ List.mem_cons_self)

/-- `allocator_delete`, with fuel for each slab and one more. -/
theorem PoolState.allocatorDelete_iff (hS : PoolState pages s ids seq) (hid : id ∈ ids) {fuel : ℕ}
    (hfuel : (seq (.slabs id)).length < fuel) (freed : Allocator) (entry : ListEntry SlabNode) :
    ∃ ret h', allocatorDelete s.heap id fuel freed entry = some (ret, h') ∧
      (ret = aEBusy ↔ ∃ p, OnList s.heap (.slabs id) (.snode p) ∧ s.InUse p) ∧
      ((ret = aEBusy → LeavesAllocator s.heap h' id) ↔ FirstIfAny s id) := by
  obtain ⟨hnone, hle⟩ | ⟨h₁, seq', hOk', -, -, hdrained, ⟨hcall, it, hit, hfirst⟩ | ⟨hcall, hgone⟩⟩ :=
    allocatorDelete_spec hS.ok hid fuel freed entry
  · omega
  · refine ⟨_, _, hcall, iff_of_true rfl ⟨_, hdrained.onList hS hid hfirst, it, hit, rfl⟩, ?_⟩
    have hiff := hdrained.leaves_iff hS hid hOk' hit hfirst
    exact ⟨fun hleaves => hiff.1 (hleaves rfl), fun hfirst _ => hiff.2 hfirst⟩
  · -- all slabs went, and none of them was in use
    obtain ⟨idle, hcut, hidle, -⟩ := hdrained
    rw [hgone, List.append_nil] at hcut
    have hfree : ∀ p, OnList s.heap (.slabs id) (.snode p) → ¬ s.InUse p := by
      rintro p hp ⟨it, hit, rfl⟩
      rw [hS.ok.onList_iff (slabs_mem_listHeads hid), hcut] at hp
      exact hidle it hit hp
    have hne : aOk ≠ aEBusy := (aresultError_ne_aOk _ _).symm
    refine ⟨_, _, hcall, iff_of_false hne ?_, iff_of_true (fun heq => absurd heq hne) (.inl hfree)⟩
    rintro ⟨p, hp, huse⟩
    exact hfree p hp huse

section Start

variable {region : SlabClassId → PageRegion}

/-- **`allocator_delete`** ends, in every state any allocators can get to on any memory. It says
`A_E_BUSY` exactly if a slab of the allocator is in use; and where it says so it leaves the allocator
as it was exactly if that is the first slab. -/
theorem allocatorDelete_of_run (mem : SlabHeap) (hregion : ∀ cls, (region cls).Ok)
    (hapart : ∀ cls cls', cls ≠ cls' →
      (region cls).base + (region cls).count * (region cls).bytes ≤ (region cls').base ∨
      (region cls').base + (region cls').count * (region cls').bytes ≤ (region cls).base)
    (calls : List PoolCall) {s : PoolRun}
    (hrun : exec poolStep (poolRunInit mem region) calls = some s) {id : ℕ}
    (halloc : id ∈ s.run.allocators) {xs : List SlabNode}
    (hxs : IsList s.run.heap.links (.slabs id) xs) {fuel : ℕ} (hfuel : xs.length < fuel)
    (freed : Allocator) (entry : ListEntry SlabNode) :
    ∃ ret h', allocatorDelete s.run.heap id fuel freed entry = some (ret, h') ∧
      (ret = aEBusy ↔ ∃ p, OnList s.run.heap (.slabs id) (.snode p) ∧ s.run.InUse p) ∧
      ((ret = aEBusy → LeavesAllocator s.run.heap h' id) ↔ FirstIfAny s.run id) := by
  obtain ⟨ids, seq, hS⟩ := poolState_of_exec hregion hapart hrun
  have hid := hS.allocators id halloc
  rw [hxs.unique (hS.ok.lists.isList (slabs_mem_listHeads hid))] at hfuel
  exact hS.allocatorDelete_iff hid hfuel freed entry

/-- An allocator with two slabs of two items, and the second slab in use. -/
def secondInUse : List PoolCall := [.call (.new 2000 4 0 (some 1)), .call (.alloc 1), .call (.alloc 1)]

theorem secondInUse_run : ∃ s, exec poolStep (poolRunInit zeroMem threePages) secondInUse = some s ∧
    1 ∈ s.run.allocators ∧ IsList s.run.heap.links (.slabs 1) [.snode 65536, .snode 69632] ∧
    s.run.live.map LiveItem.slab = [69632, 69632] ∧ (s.run.heap.allocator 1).maxItems = 4 ∧
    (allocatorDelete s.run.heap 1 3 (zeroMem.allocator 1) (zeroMem.links (.slabs 1))).map
      (fun x => (x.1, (x.2.allocator 1).maxItems)) = some (aEBusy, 2) := by
  obtain ⟨s, hs, hfacts⟩ := Option.map_eq_some_iff.1 (show
    (exec poolStep (poolRunInit zeroMem threePages) secondInUse).map (fun s =>
      ((decide (1 ∈ s.run.allocators), s.run.live.map LiveItem.slab),
        [(s.run.heap.links (.slabs 1)).next, (s.run.heap.links (.snode 65536)).prev,
          (s.run.heap.links (.snode 65536)).next, (s.run.heap.links (.snode 69632)).prev,
          (s.run.heap.links (.snode 69632)).next, (s.run.heap.links (.slabs 1)).prev],
        (s.run.heap.allocator 1).maxItems,
        (allocatorDelete s.run.heap 1 3 (zeroMem.allocator 1) (zeroMem.links (.slabs 1))).map
          (fun x => (x.1, (x.2.allocator 1).maxItems)))) =
      some ((true, [69632, 69632]), [.snode 65536, .slabs 1, .snode 69632, .snode 65536, .slabs 1,
        .snode 69632], 4, some (aEBusy, 2)) by decide +kernel)
  simp only [Prod.mk.injEq, List.cons.injEq, decide_eq_true_eq] at hfacts
  obtain ⟨⟨halloc, hlive⟩, ⟨h₀, h₀', h₁, h₁', h₂, h₂', -⟩, hmax, hdelete⟩ := hfacts
  exact ⟨s, hs, halloc, ⟨by decide, .cons_cons ⟨h₀, h₀'⟩ (.cons_cons ⟨h₁, h₁'⟩
    (.cons_cons ⟨h₂, h₂'⟩ (.singleton _)))⟩, by simpa using hlive, hmax, hdelete⟩

theorem allocatorDelete_of_run_secondInUse : ∃ s,
    exec poolStep (poolRunInit zeroMem threePages) secondInUse = some s ∧
    ∃ ret h', allocatorDelete s.run.heap 1 3 (zeroMem.allocator 1) (zeroMem.links (.slabs 1)) =
        some (ret, h') ∧
      (ret = aEBusy ↔ ∃ p, OnList s.run.heap (.slabs 1) (.snode p) ∧ s.run.InUse p) ∧
      ((ret = aEBusy → LeavesAllocator s.run.heap h' 1) ↔ FirstIfAny s.run 1) := by
  obtain ⟨s, hs, halloc, hxs, -⟩ := secondInUse_run
  exact ⟨s, hs, allocatorDelete_of_run zeroMem threePages_ok threePages_apart secondInUse hs halloc
    hxs (by decide) _ _⟩

/-- The first slab is given back before the second one is found in use. -/
theorem secondInUse_drained : ∃ s h',
    exec poolStep (poolRunInit zeroMem threePages) secondInUse = some s ∧ 1 ∈ s.run.allocators ∧
    allocatorDelete s.run.heap 1 3 (zeroMem.allocator 1) (zeroMem.links (.slabs 1)) =
      some (aEBusy, h') ∧
    ¬ LeavesAllocator s.run.heap h' 1 := by
  obtain ⟨s, hs, halloc, -, -, hmax, hdelete⟩ := secondInUse_run
  obtain ⟨⟨ret, h'⟩, hcall, hret⟩ := Option.map_eq_some_iff.1 hdelete
  simp only [Prod.mk.injEq] at hret
  obtain ⟨rfl, hmax'⟩ := hret
  refine ⟨s, h', hs, halloc, hcall, fun hleaves => ?_⟩
  rw [hleaves.allocator, hmax] at hmax'
  cases hmax'

end Start

end Tsl
