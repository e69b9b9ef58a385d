import Tsl.Alloc.Allocator.Pool

set_option autoImplicit false

/-! # The order of the slabs

`allocator_alloc` looks at the first slab of an allocator only. That is enough, since no full slab ever
comes before one with a free item: a slab goes to the end when it fills up, to the front when an item
of it is freed or the allocator grows, and leaves the list when it is empty and not the last. -/

namespace Tsl

open Lib

/-- The slabs of every allocator are in order, and a page is acquired only when all are full. -/
def SlabsOrdered (s : PoolRun) : Prop :=
  ∀ id ∈ s.run.allocators, ∃ xs, IsList s.run.heap.links (.slabs id) xs ∧ xs ≠ [] ∧
    (∀ x ∈ xs, ∃ p, x = .snode p) ∧ s.run.heap.Ordered xs ∧
    ∀ ret item h', allocatorAlloc s.run.heap id = some (ret, item, h') →
      (∀ x ∈ xs, s.run.heap.freeOn x = 0) ∨
        ∀ cls y, OnList s.run.heap (.availSlabs cls) y → OnList h' (.availSlabs cls) y

/-- No size that `allocator_new` computes wraps. -/
def PoolNoWrap (s : PoolRun) : PoolCall → Prop
  | .call c => NoWrap s.run c
  | .delete _ _ _ _ => True

instance (s : PoolRun) : (c : PoolCall) → Decidable (PoolNoWrap s c)
  | .call c => inferInstanceAs (Decidable (NoWrap s.run c))
  | .delete _ _ _ _ => inferInstanceAs (Decidable True)

/-- The invariant: every allocator has a slab. -/
def PoolRun.HasSlabs (pages : SlabClassId → Set ℕ) (s : PoolRun) : Prop :=
  ∃ ids seq, PoolState pages s.run ids seq ∧ ∀ id ∈ s.run.allocators, seq (.slabs id) ≠ []

variable {pages : SlabClassId → Set ℕ} {s s' : PoolRun}

/-- As long as no size wraps, every allocator keeps a slab. -/
theorem poolStep_hasSlabs (s : PoolRun) (c : PoolCall) (s' : PoolRun) (hI : s.HasSlabs pages)
    (hG : PoolNoWrap s c) (hstep : poolStep s c = some s') : s'.HasSlabs pages := by
  obtain ⟨ids, seq, hS, hne⟩ := hI
  cases c with
  | call c =>
      have hrun := poolStep_call hstep
      cases c with
      | new itemSize itemCount flags malloc =>
          rcases hS.new hrun with ⟨ret, -, -, -, -, hallocs, hS'⟩ |
            ⟨new, ret, seq', -, -, hcount, hslab, hret, -, hallocs, hS', hN, -⟩
          · exact ⟨ids, seq, hS', hallocs ▸ hne⟩
          · refine ⟨_, seq', hS', fun id hid => ?_⟩
            rw [hallocs] at hid
            rcases List.mem_append.1 hid with hid | hid
            · cases hfail : afailed ret with
              | true => simp [hfail] at hid
              | false =>
                  obtain rfl : id = new := by simpa [hfail] using hid
                  exact hN.slabs_ne_nil hcount hslab hG.2 hret hfail
            · rw [hN.others id (hS.allocators id hid)]
              exact hne id hid
      | alloc alloc =>
          obtain ⟨-, hallocs, -, -, seq', -, hS', -, hkeep, -⟩ := hS.alloc hrun
          exact ⟨ids, seq', hS', fun id hid => hkeep id (hne id (hallocs ▸ hid))⟩
      | free item =>
          obtain ⟨-, -, hallocs, seq', hS', -, -, -, hfreed⟩ := hS.free hrun
          exact ⟨ids, seq', hS', fun id hid => hfreed.keepsSlabs id (hne id (hallocs ▸ hid))⟩
      | write item addr val =>
          obtain ⟨hallocs, hS'⟩ := hS.write hrun
          exact ⟨ids, seq, hS', hallocs ▸ hne⟩
  | delete alloc fuel freed entry =>
      obtain ⟨-, -, seq', hothers, -, ⟨-, hallocs, hS', hleft, -⟩ | ⟨hallocs, hS'⟩⟩ :=
        hS.delete hstep
      · refine ⟨ids, seq', hS', fun id hid => ?_⟩
        rw [hallocs] at hid
        by_cases heq : id = alloc
        · exact heq ▸ hleft
        · rw [hothers id heq]
          exact hne id hid
      · refine ⟨_, seq', hS', fun id hid => ?_⟩
        rw [hallocs, List.mem_filter] at hid
        rw [hothers id (by simpa using hid.2)]
        exact hne id hid.1

theorem PoolRun.HasSlabs.slabsOrdered (hI : s.HasSlabs pages) : SlabsOrdered s := by
  obtain ⟨ids, seq, hS, hne⟩ := hI
  intro id halloc
  have hid := hS.allocators id halloc
  have hx := slabs_mem_listHeads hid
  refine ⟨seq (.slabs id), hS.ok.lists.isList hx, hne id halloc, fun x hmem => ?_,
    hS.ordered id hid, fun ret item h' hcall => ?_⟩
  · obtain ⟨p, -, hp⟩ := hS.ok.page _ hx x hmem
    exact ⟨p, hp⟩
  · obtain ⟨first, h₁, ret', item', h'', seq', -, hcall', hOk', -, -, -, hout⟩ :=
      (allocatorAlloc_spec hS.ok hid).resolve_left fun hnil => hne id halloc hnil.1
    rw [hcall', Option.some.injEq, Prod.mk.injEq, Prod.mk.injEq] at hcall
    obtain ⟨rfl, rfl, rfl⟩ := hcall
    cases hout with
    | taken hfirst havail => exact .inr (hS.ok.pages_kept hOk' havail)
    | refused hfirst hgrow havail => exact .inr (hS.ok.pages_kept hOk' havail)
    | grown ret p rest hfirst hgrow hpage havail => exact .inl (hfirst.full (hS.ordered id hid))

section Start

variable {region : SlabClassId → PageRegion}

/-- **The slab lists stay in order**: in every run in which no size computation wraps, every allocator
has a slab, no full one comes before one with a free item, and `allocator_alloc` takes a page only
when all of them are full. -/
theorem slabsOrdered_of_run (mem : SlabHeap) (hregion : ∀ cls, (region cls).Ok)
    (hapart : ∀ cls cls', cls ≠ cls' →
      (region cls).base + (region cls).count * (region cls).bytes ≤ (region cls').base ∨
      (region cls').base + (region cls').count * (region cls').bytes ≤ (region cls).base)
    (calls : List PoolCall) (hsmall : Meets poolStep PoolNoWrap (poolRunInit mem region) calls) :
    Throughout poolStep SlabsOrdered (poolRunInit mem region) calls := by
  obtain ⟨seq, hS⟩ := poolState_init mem hregion hapart
  refine throughout_of_meets poolStep_hasSlabs (fun _ hI => hI.slabsOrdered) calls _
    ⟨∅, seq, hS, ?_⟩ hsmall
  intro id hid
  cases hid

/-- An allocator with two items on a page fills a page, grows, gives an item of the first page back
and takes it again. -/
def growAndReturn : List PoolCall :=
  [.call (.new 2000 1 0 (some 1)), .call (.alloc 1), .call (.alloc 1), .call (.alloc 1),
    .call (.free ⟨1, 65536 + 64, 65536⟩), .call (.alloc 1)]

theorem slabsOrdered_of_run_growAndReturn :
    (∃ s, exec poolStep (poolRunInit zeroMem threePages) growAndReturn = some s ∧
      s.run.live.length = 3) ∧
      Throughout poolStep SlabsOrdered (poolRunInit zeroMem threePages) growAndReturn := by
  constructor
  · exact Option.map_eq_some_iff.1 (show (exec poolStep (poolRunInit zeroMem threePages)
      growAndReturn).map (fun s => s.run.live.length) = some 3 by decide +kernel)
  · exact slabsOrdered_of_run _ threePages_ok threePages_apart _ (by decide +kernel)

end Start

end Tsl
