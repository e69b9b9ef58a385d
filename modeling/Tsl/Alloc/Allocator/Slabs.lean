import Mathlib.Data.List.Perm.Subperm
import Tsl.Alloc.Allocator
import Tsl.Bits
import Tsl.Lib.LazyFreeList

set_option autoImplicit false

/-! # The items of one slab

Item `i` of a slab starts `i` item sizes behind the header. The free items of a slab are a lazily
extended free list, and `SlabOk` ties it to the header and to the items that are live: what is free is
exactly what is not live. `fillInNext_spec`, `SlabOk.init` and `SlabOk.give` say what the code does to
it. -/

namespace Tsl

open Lib

/-- Where item `i` of a slab is. -/
def itemAddr (slab size i : ℕ) : ℕ := slab + firstObjOffset + i * size

/-- How many items a slab has. -/
def slabItems (bytes size : ℕ) : ℕ := (bytes - firstObjOffset) / size

/-- The page of a slab and the size of its items, as they are for every slab of every allocator. -/
structure SlabPage (slab size bytes : ℕ) : Prop where
  bytes_pow : ∃ k, 12 ≤ k ∧ k ≤ 31 ∧ bytes = 2 ^ k
  aligned : bytes ∣ slab
  below : slab + bytes ≤ 2 ^ 64
  size_pos : 0 < size
  size_aligned : 16 ∣ size

/-- A slab with the items `free`, linked in this order, where the addresses `live` are in use. -/
structure SlabOk (hdr : Slab) (word : ℕ → ℕ) (slab size bytes : ℕ) (live : Set ℕ)
    (free : List ℕ) : Prop where
  maxItems : hdr.maxItems = slabItems bytes size
  slabSize : hdr.slabSize = bytes
  count : hdr.freeItemCount = free.length
  nodup : free.Nodup
  mem_iff : ∀ i, i ∈ free ↔ i < slabItems bytes size ∧ itemAddr slab size i ∉ live
  /-- The list is not kept up in a slab that is too small for an item. -/
  chain : 0 < slabItems bytes size → FreeChain (itemAddr slab size) 0 allocSlabNextLink
    (slabItems bytes size) word hdr.freeItems free

theorem firstObjOffset_eq : firstObjOffset = 64 := rfl

/-! ## Addresses -/

section Addresses

variable {slab size bytes i j : ℕ}

theorem SlabPage.bytes_ge (h : SlabPage slab size bytes) : 4096 ≤ bytes := by
  obtain ⟨k, hk, -, rfl⟩ := h.bytes_pow
  exact Nat.pow_le_pow_right (n := 2) (by decide) hk

theorem SlabPage.bytes_le (h : SlabPage slab size bytes) : bytes ≤ 2 ^ 31 := by
  obtain ⟨k, -, hk, rfl⟩ := h.bytes_pow
  exact Nat.pow_le_pow_right (n := 2) (by decide) hk

theorem SlabPage.slab_aligned (h : SlabPage slab size bytes) : 16 ∣ slab := by
  obtain ⟨k, hk, -, rfl⟩ := h.bytes_pow
  exact Nat.dvd_trans (Nat.pow_dvd_pow 2 (show 4 ≤ k by omega)) h.aligned

theorem SlabPage.itemAddr_aligned (h : SlabPage slab size bytes) (i : ℕ) :
    16 ∣ itemAddr slab size i := by
  refine Nat.dvd_add (Nat.dvd_add h.slab_aligned ?_) (Nat.dvd_mul_left_of_dvd h.size_aligned i)
  exact ⟨4, rfl⟩

/-- No item is where the mark would point to. -/
theorem SlabPage.itemAddr_ne_mark (h : SlabPage slab size bytes) (i : ℕ) :
    itemAddr slab size i ≠ allocSlabNextLink := by
  intro heq
  have hdvd := h.itemAddr_aligned i
  rw [heq, allocSlabNextLink] at hdvd
  omega

theorem itemAddr_pos : 0 < itemAddr slab size i := by
  rw [itemAddr, firstObjOffset_eq]
  omega

theorem itemAddr_apart (slab size : ℕ) (hij : i < j) : itemAddr slab size i + size ≤ itemAddr slab size j := by
  have hmul := Nat.mul_le_mul_right size (Nat.succ_le_of_lt hij)
  rw [Nat.succ_eq_add_one, Nat.add_mul, Nat.one_mul] at hmul
  rw [itemAddr, itemAddr]
  omega

theorem itemAddr_inj (hsize : 0 < size) : itemAddr slab size i = itemAddr slab size j ↔ i = j := by
  constructor
  · intro heq
    rcases Nat.lt_trichotomy i j with hlt | heq' | hgt
    · have := itemAddr_apart slab size hlt
      omega
    · exact heq'
    · have := itemAddr_apart slab size hgt
      omega
  · exact fun heq => heq ▸ rfl

/-- The test of `allocator_alloc` for the end of the items. -/
theorem SlabPage.itemAddr_end_le_iff (h : SlabPage slab size bytes) :
    itemAddr slab size i + size ≤ slab + bytes ↔ i < slabItems bytes size := by
  have hbytes := h.bytes_ge
  rw [slabItems, ← Nat.succ_le_iff, Nat.le_div_iff_mul_le h.size_pos, itemAddr, firstObjOffset_eq,
    Nat.succ_eq_add_one, Nat.add_mul, Nat.one_mul]
  omega

theorem SlabPage.item_mem (h : SlabPage slab size bytes) (hi : i < slabItems bytes size) :
    slab + firstObjOffset ≤ itemAddr slab size i ∧ itemAddr slab size i + size ≤ slab + bytes :=
  ⟨Nat.le_add_right _ _, h.itemAddr_end_le_iff.2 hi⟩

theorem SlabPage.slabItems_lt (h : SlabPage slab size bytes) : slabItems bytes size < 2 ^ 32 := by
  have hle : slabItems bytes size ≤ bytes := Nat.le_trans (Nat.div_le_self _ _) (Nat.sub_le _ _)
  exact Nat.lt_of_le_of_lt (Nat.le_trans hle h.bytes_le) (by decide)

/-- **Masking finds the slab** of every byte of its page. -/
theorem SlabPage.and_mask (h : SlabPage slab size bytes) {x : ℕ} (hle : slab ≤ x)
    (hlt : x < slab + bytes) : x &&& (2 ^ 64 - 1 - (bytes - 1)) = slab := by
  obtain ⟨k, -, hk, rfl⟩ := h.bytes_pow
  obtain ⟨m, rfl⟩ := h.aligned
  have hbelow := h.below
  rw [and_mask_eq (by omega) (by omega)]
  have hdiv : x / 2 ^ k = m := by
    rw [Nat.div_eq_iff (Nat.two_pow_pos k)]
    constructor
    · rw [Nat.mul_comm]
      exact hle
    · rw [Nat.mul_comm]
      omega
  rw [hdiv, Nat.mul_comm]

end Addresses

/-! ## What the code does to a slab -/

section OneSlab

variable {hdr : Slab} {word word' word'' : ℕ → ℕ} {slab size bytes i : ℕ} {live live' : Set ℕ}
  {free rest : List ℕ}

/-- Only the words of the free ones matter. -/
theorem SlabOk.chain_frame (h : SlabOk hdr word slab size bytes live free)
    (hword : ∀ i ∈ free, word' (itemAddr slab size i) = word (itemAddr slab size i)) :
    SlabOk hdr word' slab size bytes live free :=
  { h with chain := fun hpos => (h.chain hpos).congr hword }

theorem SlabOk.frame (h : SlabOk hdr word slab size bytes live free)
    (hword : ∀ i < slabItems bytes size, word' (itemAddr slab size i) = word (itemAddr slab size i))
    (hlive : ∀ i < slabItems bytes size,
      (itemAddr slab size i ∈ live' ↔ itemAddr slab size i ∈ live)) :
    SlabOk hdr word' slab size bytes live' free where
  maxItems := h.maxItems
  slabSize := h.slabSize
  count := h.count
  nodup := h.nodup
  mem_iff := by
    intro i
    rw [h.mem_iff i]
    refine and_congr_right fun hi => ?_
    rw [hlive i hi]
  chain := (h.chain_frame fun i hi => hword i ((h.mem_iff i).1 hi).1).chain

/-- A new slab: all its items are free, and none is linked. -/
theorem SlabOk.init
    (hlive : ∀ i < slabItems bytes size, itemAddr slab size i ∉ live)
    (hmax : hdr.maxItems = slabItems bytes size) (hcount : hdr.freeItemCount = slabItems bytes size)
    (hsize : hdr.slabSize = bytes) (hfirst : hdr.freeItems = itemAddr slab size 0)
    (hword : word (itemAddr slab size 0) = allocSlabNextLink) :
    SlabOk hdr word slab size bytes live (List.range' 0 (slabItems bytes size)) where
  maxItems := hmax
  slabSize := hsize
  count := by rw [hcount, List.length_range']
  nodup := List.nodup_range'
  mem_iff := by
    intro i
    rw [List.mem_range'_1, Nat.zero_add]
    constructor
    · intro hi
      exact ⟨hi.2, hlive i hi.2⟩
    · intro hi
      exact ⟨Nat.zero_le i, hi.1⟩
  chain := by
    intro hpos
    rw [hfirst]
    exact FreeChain.virgin hpos hword

theorem SlabOk.freeItems_eq (h : SlabOk hdr word slab size bytes live (i :: rest)) :
    i < slabItems bytes size ∧ itemAddr slab size i ∉ live ∧
      hdr.freeItems = itemAddr slab size i := by
  obtain ⟨hi, hnot⟩ := (h.mem_iff i).1 List.mem_cons_self
  exact ⟨hi, hnot, (h.chain (by omega)).start_eq⟩

/-- Filling in the next item writes to items of the slab only, and leaves a link to the rest of the
    free items in the first one. -/
theorem fillInNext_spec {h : SlabHeap} {alloc : ℕ} (hP : SlabPage slab size bytes)
    (hS : SlabOk (h.slab slab) h.word slab size bytes live (i :: rest))
    (hsize : (h.allocator alloc).itemSize = size) :
    ∃ word', fillInNext h alloc slab (itemAddr slab size i) = { h with word := word' } ∧
      (∀ a, (∀ j < slabItems bytes size, a ≠ itemAddr slab size j) → word' a = h.word a) ∧
      FreeChain (itemAddr slab size) 0 allocSlabNextLink (slabItems bytes size) word'
        (word' (itemAddr slab size i)) rest := by
  obtain ⟨hi, -, -⟩ := hS.freeItems_eq
  have hnext : itemAddr slab size i + size = itemAddr slab size (i + 1) := by
    rw [itemAddr, itemAddr, Nat.add_mul, Nat.one_mul]
    omega
  have hne : itemAddr slab size (i + 1) ≠ itemAddr slab size i := fun heq => by
    have := (itemAddr_inj hP.size_pos).1 heq
    omega
  rcases (hS.chain (by omega)).take (by decide) hP.itemAddr_ne_mark with
    ⟨hmark, -, rfl⟩ | ⟨hmark, hrest⟩
  · unfold fillInNext
    rw [if_pos hmark]
    simp only [hsize, hS.slabSize, hnext, hP.itemAddr_end_le_iff]
    split
    · next hlt =>
      -- the mark moves on to the next item
      refine ⟨_, rfl, fun a ha => ?_, ?_⟩
      · exact (Function.update_of_ne (ha i hi) _ _).trans (Function.update_of_ne (ha _ hlt) _ _)
      · rw [Function.update_self]
        exact .virgin hlt ((Function.update_of_ne hne _ _).trans (Function.update_self _ _ _))
    · next hge =>
      -- it was the last one
      refine ⟨_, rfl, fun a ha => Function.update_of_ne (ha i hi) _ _, ?_⟩
      rw [Function.update_self, show slabItems bytes size - (i + 1) = 0 by omega]
      exact .nil
  · refine ⟨h.word, ?_, fun _ _ => rfl, hrest⟩
    unfold fillInNext
    rw [if_neg hmark]

theorem SlabOk.give (h : SlabOk hdr word slab size bytes live free) (hP : SlabPage slab size bytes)
    (hi : i < slabItems bytes size) (hlive : itemAddr slab size i ∈ live) {hdr' : Slab}
    (hmax : hdr'.maxItems = hdr.maxItems) (hsize : hdr'.slabSize = hdr.slabSize)
    (hcount : hdr'.freeItemCount = hdr.freeItemCount + 1)
    (hfirst : hdr'.freeItems = itemAddr slab size i)
    (hword : word' = Function.update word (itemAddr slab size i) hdr.freeItems)
    (hlive' : ∀ j < slabItems bytes size, (itemAddr slab size j ∈ live' ↔
      itemAddr slab size j ∈ live ∧ itemAddr slab size j ≠ itemAddr slab size i)) :
    SlabOk hdr' word' slab size bytes live' (i :: free) where
  maxItems := hmax.trans h.maxItems
  slabSize := hsize.trans h.slabSize
  count := by rw [hcount, h.count, List.length_cons]
  nodup := List.nodup_cons.2 ⟨fun hmem => ((h.mem_iff i).1 hmem).2 hlive, h.nodup⟩
  mem_iff := by
    intro j
    rw [List.mem_cons, h.mem_iff j]
    constructor
    · rintro (rfl | ⟨hj, hnot⟩)
      · exact ⟨hi, fun hmem => ((hlive' j hi).1 hmem).2 rfl⟩
      · exact ⟨hj, fun hmem => hnot ((hlive' j hj).1 hmem).1⟩
    · rintro ⟨hj, hnot⟩
      by_cases hji : j = i
      · exact .inl hji
      · refine .inr ⟨hj, fun hmem => hnot ((hlive' j hj).2 ⟨hmem, ?_⟩)⟩
        exact fun heq => hji ((itemAddr_inj hP.size_pos).1 heq)
  chain := by
    intro hpos
    rw [hfirst, hword]
    refine (h.chain hpos).push fun j hj heq => ((h.mem_iff j).1 hj).2 ?_
    rw [heq]
    exact hlive

/-- An item that is taken was the first one. -/
theorem SlabOk.take (h : SlabOk hdr word slab size bytes live (i :: rest))
    (hP : SlabPage slab size bytes) {hdr' : Slab} (hmax : hdr'.maxItems = hdr.maxItems)
    (hsize : hdr'.slabSize = hdr.slabSize) (hcount : hdr'.freeItemCount = hdr.freeItemCount - 1)
    (hchain : FreeChain (itemAddr slab size) 0 allocSlabNextLink (slabItems bytes size) word'
      hdr'.freeItems rest)
    (hword : ∀ a, a ≠ itemAddr slab size i → word'' a = word' a)
    (hlive' : ∀ j < slabItems bytes size, (itemAddr slab size j ∈ live' ↔
      itemAddr slab size j = itemAddr slab size i ∨ itemAddr slab size j ∈ live)) :
    SlabOk hdr' word'' slab size bytes live' rest := by
  obtain ⟨hi, hnot, -⟩ := h.freeItems_eq
  have hnd := List.nodup_cons.1 h.nodup
  constructor
  · exact hmax.trans h.maxItems
  · exact hsize.trans h.slabSize
  · rw [hcount, h.count, List.length_cons, Nat.add_sub_cancel]
  · exact hnd.2
  · intro j
    constructor
    · intro hj
      obtain ⟨hlt, hfree⟩ := (h.mem_iff j).1 (List.mem_cons_of_mem _ hj)
      refine ⟨hlt, fun hmem => ?_⟩
      rcases (hlive' j hlt).1 hmem with heq | hmem'
      · exact hnd.1 ((itemAddr_inj hP.size_pos).1 heq ▸ hj)
      · exact hfree hmem'
    · rintro ⟨hlt, hfree⟩
      have hmem := (h.mem_iff j).2 ⟨hlt, fun hm => hfree ((hlive' j hlt).2 (.inr hm))⟩
      rcases List.mem_cons.1 hmem with rfl | hmem
      · exact absurd ((hlive' j hlt).2 (.inl rfl)) hfree
      · exact hmem
  · intro _
    refine hchain.congr fun j hj => hword _ fun heq => ?_
    exact hnd.1 ((itemAddr_inj hP.size_pos).1 heq ▸ hj)

theorem SlabOk.count_lt (h : SlabOk hdr word slab size bytes live free)
    (hi : i < slabItems bytes size) (hlive : itemAddr slab size i ∈ live) :
    hdr.freeItemCount < slabItems bytes size := by
  have hnd : (i :: free).Nodup :=
    List.nodup_cons.2 ⟨fun hmem => ((h.mem_iff i).1 hmem).2 hlive, h.nodup⟩
  have hsub : i :: free ⊆ List.range (slabItems bytes size) := by
    intro j hj
    rcases List.mem_cons.1 hj with rfl | hj
    · exact List.mem_range.2 hi
    · exact List.mem_range.2 ((h.mem_iff j).1 hj).1
  have hle := (List.subperm_of_subset hnd hsub).length_le
  rw [List.length_cons, List.length_range] at hle
  rw [h.count]
  omega

/-- All items of a slab are free exactly when none is live. -/
theorem SlabOk.count_eq_maxItems_iff (h : SlabOk hdr word slab size bytes live free) :
    hdr.freeItemCount = hdr.maxItems ↔ ∀ i < slabItems bytes size, itemAddr slab size i ∉ live := by
  have hsub : free ⊆ List.range (slabItems bytes size) := fun i hi =>
    List.mem_range.2 ((h.mem_iff i).1 hi).1
  have hperm := List.subperm_of_subset h.nodup hsub
  rw [h.count, h.maxItems]
  constructor
  · intro hlen i hi
    have hall := hperm.perm_of_length_le (by rw [List.length_range, hlen])
    exact ((h.mem_iff i).1 (hall.mem_iff.2 (List.mem_range.2 hi))).2
  · intro hall
    have hsup : List.range (slabItems bytes size) ⊆ free := fun i hi =>
      (h.mem_iff i).2 ⟨List.mem_range.1 hi, hall i (List.mem_range.1 hi)⟩
    have hle := (List.subperm_of_subset List.nodup_range hsup).length_le
    have hge := hperm.length_le
    rw [List.length_range] at hle hge
    omega

theorem SlabOk.count_eq (h : SlabOk hdr word slab size bytes live free)
    [DecidablePred fun i => itemAddr slab size i ∉ live] :
    hdr.freeItemCount =
      ((List.range (slabItems bytes size)).filter fun i => itemAddr slab size i ∉ live).length := by
  rw [h.count]
  refine List.Perm.length_eq ((List.perm_ext_iff_of_nodup h.nodup
    (List.nodup_range.filter _)).2 fun i => ?_)
  rw [h.mem_iff i, List.mem_filter, List.mem_range, decide_eq_true_eq]

end OneSlab

end Tsl
