import Mathlib.Data.Nat.Bitwise
import Tsl.Lib.HeapOrder
import Tsl.Lib.Machine
import Tsl.Result

set_option autoImplicit false

/-! # Fixed heaps

`tsl/fixed_heap.h` and `fixed_heap.c`: a max-heap of pointers in an array of fixed capacity, ordered
by a client's compare callback.

The callback is code: it reads and may change the world `κ`, which is threaded through every call.
Array accesses are checked against the block behind the array, so an operation that answers `some`
accessed nothing outside it. The sifts are proved about twice. Under any callback they end, stay in
bounds and only permute the items (`Sifted`). Where the callback `Answers` like a total preorder on
the items there are, they restore the heap order. -/

namespace Tsl

open Lib

universe u

variable {κ π : Type u}

/-- `fixed_heap_compare_func_t`, run in a world `κ`. -/
abbrev HeapCompare (κ π : Type u) := κ → π → π → ℤ × κ

/-- `struct fixed_heap`, with the number of slots of the block `heap` points to. A block fits the
    address space, so no index of it overflows the shifts below. -/
structure FixedHeap (κ π : Type u) where
  heap : ℕ → π
  allocated : ℕ
  capacity : ℕ
  entries : ℕ
  compare : HeapCompare κ π
  allocated_fits : 8 * allocated < 2 ^ 64

/-- `FIXED_HEAP_PARENT`. -/
def fixedHeapParent (idx : ℕ) : ℕ := (idx - 1) >>> 1

/-- `FIXED_HEAP_LEFT`. -/
def fixedHeapLeft (idx : ℕ) : ℕ := (idx <<< 1) + 1

/-- `FIXED_HEAP_RIGHT`. -/
def fixedHeapRight (idx : ℕ) : ℕ := (idx <<< 1) + 2

theorem fixedHeapParent_eq (i : ℕ) : fixedHeapParent i = parent i := by
  simp [fixedHeapParent, parent, Nat.shiftRight_eq_div_pow]

theorem fixedHeapLeft_eq (i : ℕ) : fixedHeapLeft i = 2 * i + 1 := by
  simp only [fixedHeapLeft, Nat.shiftLeft_eq]
  omega

theorem fixedHeapRight_eq (i : ℕ) : fixedHeapRight i = 2 * i + 2 := by
  simp only [fixedHeapRight, Nat.shiftLeft_eq]
  omega

namespace FixedHeap

/-- `heap->heap[i]`. -/
def load (h : FixedHeap κ π) (i : ℕ) : Option π :=
  if i < h.allocated then some (h.heap i) else none

/-- `heap->heap[i] = x`. -/
def store (h : FixedHeap κ π) (i : ℕ) (x : π) : Option (FixedHeap κ π) :=
  if i < h.allocated then some { h with heap := Function.update h.heap i x } else none

/-- The items in the heap. -/
def items (h : FixedHeap κ π) : Multiset π := itemsBelow h.entries h.heap

theorem load_eq {h : FixedHeap κ π} {i : ℕ} (hi : i < h.allocated) :
    h.load i = some (h.heap i) := if_pos hi

theorem store_eq {h : FixedHeap κ π} {i : ℕ} (hi : i < h.allocated) (x : π) :
    h.store i x = some { h with heap := Function.update h.heap i x } := if_pos hi

end FixedHeap

/-! ## The code -/

/-- `fixed_heap_new`. The `calloc` fails when `calloc` says so and when the array would not fit the
    address space; then there is no heap. -/
def fixedHeapNew [VoidPtr π] (maxItems : ℕ) (compare : HeapCompare κ π) (calloc : Bool) :
    AResult × Option (FixedHeap κ π) :=
  if ¬ maxItems > 0 then (aEBadargs, none)
  else if hfit : 8 * maxItems < 2 ^ 64 ∧ calloc = true then
    (aOk, some { heap := fun _ => VoidPtr.null, allocated := maxItems, capacity := maxItems,
                 entries := 0, compare := compare, allocated_fits := hfit.1 })
  else (aENomem, none)

/-- `fixed_heap_resize`. The byte count is a `size_t` product; `realloc` frees the block when it is
    asked for nothing, and otherwise fails when `realloc` says so. What the slots of the block
    beyond the old ones hold is `fresh`. -/
def fixedHeapResize (h : FixedHeap κ π) (newMaxItems : ℕ) (realloc : Bool) (fresh : ℕ → π) :
    AResult × FixedHeap κ π :=
  if ¬ newMaxItems ≥ h.entries then (aEBadargs, h)
  else
    let bytes := 8 * newMaxItems % 2 ^ 64
    if bytes = 0 then
      (aENomem, { h with allocated := 0, allocated_fits := by decide })
    else if realloc = false then (aENomem, h)
    else
      (aOk, { h with
        heap := fun i => if i < h.allocated then h.heap i else fresh i
        allocated := bytes / 8
        capacity := newMaxItems
        allocated_fits := by
          have : bytes < 2 ^ 64 := Nat.mod_lt _ (by decide)
          omega })

/-- `__fixed_heap_swap`. -/
def fixedHeapSwap (h : FixedHeap κ π) (a b : ℕ) : Option (FixedHeap κ π) := do
  let temp ← h.load a
  let y ← h.load b
  let h ← h.store a y
  h.store b temp

/-- The loop of `__fixed_heap_insert`. -/
def fixedHeapInsertLoop (h : FixedHeap κ π) (w : κ) (i : ℕ) : Option (FixedHeap κ π × κ) :=
  if _hi : i > 0 then do
    let p ← h.load (fixedHeapParent i)
    let x ← h.load i
    let (c, w) := h.compare w p x
    if c < 0 then do
      let h ← fixedHeapSwap h i (fixedHeapParent i)
      fixedHeapInsertLoop h w (fixedHeapParent i)
    else some (h, w)
  else some (h, w)
termination_by i
decreasing_by
  rw [fixedHeapParent_eq]
  exact parent_lt _hi

/-- `__fixed_heap_insert`. -/
def fixedHeapInsert (h : FixedHeap κ π) (w : κ) (key : π) (idx : ℕ) :
    Option (FixedHeap κ π × κ) := do
  let h ← h.store idx key
  fixedHeapInsertLoop h w idx

/-- One of the two comparisons in a pass of `__fixed_heap_heapify`: `child` becomes the largest slot
    if it is in use and its item is greater. -/
def fixedHeapPick (h : FixedHeap κ π) (w : κ) (child largest : ℕ) : Option (ℕ × κ) :=
  if child < h.entries then do
    let x ← h.load child
    let y ← h.load largest
    let (c, w) := h.compare w x y
    some (if c > 0 then child else largest, w)
  else some (largest, w)

/-- The value of `largest` one pass of `__fixed_heap_heapify` ends its comparisons with. -/
def fixedHeapLargest (h : FixedHeap κ π) (w : κ) (i : ℕ) : Option (ℕ × κ) := do
  let (largest, w) ← fixedHeapPick h w (fixedHeapLeft i) i
  fixedHeapPick h w (fixedHeapRight i) largest

theorem fixedHeapPick_mem {h : FixedHeap κ π} {w w' : κ} {child i largest : ℕ}
    (heq : fixedHeapPick h w child i = some (largest, w')) :
    largest = i ∨ (largest = child ∧ child < h.entries) := by
  unfold fixedHeapPick at heq
  split at heq
  · simp only [Option.bind_eq_bind, Option.bind_eq_some_iff, Option.some.injEq,
      Prod.mk.injEq] at heq
    obtain ⟨_, -, _, -, hval, -⟩ := heq
    split at hval
    · exact .inr ⟨hval.symm, ‹_›⟩
    · exact .inl hval.symm
  · simp only [Option.some.injEq, Prod.mk.injEq] at heq
    exact .inl heq.1.symm

theorem fixedHeapLargest_mem {h : FixedHeap κ π} {w w' : κ} {i largest : ℕ}
    (heq : fixedHeapLargest h w i = some (largest, w')) :
    largest = i ∨ (largest < h.entries ∧
      (largest = fixedHeapLeft i ∨ largest = fixedHeapRight i)) := by
  simp only [fixedHeapLargest, Option.bind_eq_bind, Option.bind_eq_some_iff, Prod.exists] at heq
  obtain ⟨first, w₁, hfirst, heq⟩ := heq
  rcases fixedHeapPick_mem heq with rfl | ⟨rfl, hin⟩
  · rcases fixedHeapPick_mem hfirst with rfl | ⟨rfl, hin⟩
    · exact .inl rfl
    · exact .inr ⟨hin, .inl rfl⟩
  · exact .inr ⟨hin, .inr rfl⟩

theorem fixedHeapSwap_entries {h h' : FixedHeap κ π} {a b : ℕ}
    (heq : fixedHeapSwap h a b = some h') : h'.entries = h.entries := by
  simp only [fixedHeapSwap, FixedHeap.load, FixedHeap.store, Option.bind_eq_bind,
    Option.bind_eq_some_iff, Option.ite_none_right_eq_some, Option.some.injEq] at heq
  obtain ⟨_, -, _, -, _, ⟨-, rfl⟩, -, rfl⟩ := heq
  rfl

/-- `__fixed_heap_heapify`: the `do` loop goes on exactly when it swapped. -/
def fixedHeapHeapify (h : FixedHeap κ π) (w : κ) (i : ℕ) : Option (FixedHeap κ π × κ) :=
  match _hl : fixedHeapLargest h w i with
  | none => none
  | some (largest, w) =>
      if _hne : largest ≠ i then
        match _hs : fixedHeapSwap h i largest with
        | none => none
        | some h' => fixedHeapHeapify h' w largest
      else some (h, w)
termination_by h.entries - i
decreasing_by
  have hmem := fixedHeapLargest_mem _hl
  rw [fixedHeapLeft_eq, fixedHeapRight_eq] at hmem
  rw [fixedHeapSwap_entries _hs]
  omega

/-- `fixed_heap_push`. -/
def fixedHeapPush (h : FixedHeap κ π) (w : κ) (item : π) : Option (AResult × FixedHeap κ π × κ) :=
  if h.capacity ≤ h.entries then some (aENospc, h, w)
  else do
    let (h, w) ← fixedHeapInsert { h with entries := h.entries + 1 } w item h.entries
    some (aOk, h, w)

/-- `fixed_heap_pop`; `item` is what `*item` holds before the call, the second answer what it holds
    after. -/
def fixedHeapPop [VoidPtr π] (h : FixedHeap κ π) (w : κ) (item : π) :
    Option (AResult × π × FixedHeap κ π × κ) :=
  if h.entries = 0 then some (aEEmpty, item, h, w)
  else do
    let item ← h.load 0
    let h := { h with entries := h.entries - 1 }
    let last ← h.load h.entries
    let h ← h.store 0 last
    let h ← h.store h.entries VoidPtr.null
    let (h, w) ← fixedHeapHeapify h w 0
    some (aOk, item, h, w)

/-- `fixed_heap_peek_head`. -/
def fixedHeapPeekHead (h : FixedHeap κ π) (item : π) : Option (AResult × π) :=
  if h.entries = 0 then some (aEEmpty, item)
  else do
    let item ← h.load 0
    some (aOk, item)

/-! ## Loop rules

What holds when a sift starts and is kept by every pass holds where it ends. That the sifts end at
all is part of the rules. -/

/-- The heap after exchanging two slots. -/
def FixedHeap.swapped (h : FixedHeap κ π) (a b : ℕ) : FixedHeap κ π :=
  { h with heap := h.heap ∘ Equiv.swap a b }

theorem fixedHeapSwap_eq {h : FixedHeap κ π} {a b : ℕ} (ha : a < h.allocated)
    (hb : b < h.allocated) : fixedHeapSwap h a b = some (h.swapped a b) := by
  have hupd : Function.update (Function.update h.heap a (h.heap b)) b (h.heap a) =
      h.heap ∘ Equiv.swap a b := by
    funext k
    rw [Function.comp_apply]
    by_cases hkb : k = b
    · subst hkb
      rw [Function.update_self, Equiv.swap_apply_right]
    · rw [Function.update_of_ne hkb]
      by_cases hka : k = a
      · subst hka
        rw [Function.update_self, Equiv.swap_apply_left]
      · rw [Function.update_of_ne hka, Equiv.swap_apply_of_ne_of_ne hka hkb]
  simp [fixedHeapSwap, FixedHeap.load, FixedHeap.store, ha, hb, FixedHeap.swapped, hupd]

/-- The comparison that decides whether `__fixed_heap_insert` goes on. -/
def insertCompare (h : FixedHeap κ π) (w : κ) (i : ℕ) : ℤ × κ :=
  h.compare w (h.heap (parent i)) (h.heap i)

theorem fixedHeapInsertLoop_pass {h : FixedHeap κ π} {i : ℕ} (hi : 0 < i)
    (hbound : i < h.allocated) (w : κ) :
    fixedHeapInsertLoop h w i =
      if (insertCompare h w i).1 < 0 then
        fixedHeapInsertLoop (h.swapped i (parent i)) (insertCompare h w i).2 (parent i)
      else some (h, (insertCompare h w i).2) := by
  have hp := parent_lt hi
  rw [fixedHeapInsertLoop, dif_pos hi, fixedHeapParent_eq, FixedHeap.load_eq (by omega),
    FixedHeap.load_eq hbound, fixedHeapSwap_eq hbound (by omega)]
  simp only [Option.bind_eq_bind, Option.bind_some]
  rfl

theorem fixedHeapInsertLoop_zero (h : FixedHeap κ π) (w : κ) :
    fixedHeapInsertLoop h w 0 = some (h, w) := by
  rw [fixedHeapInsertLoop, dif_neg (Nat.lt_irrefl 0)]

/-- The rule of the loop of `__fixed_heap_insert`. -/
theorem fixedHeapInsertLoop_rule {I : FixedHeap κ π → κ → ℕ → Prop}
    {Q : FixedHeap κ π → κ → Prop} (bound : ∀ h w i, I h w i → i < h.allocated)
    (top : ∀ h w, I h w 0 → Q h w)
    (stop : ∀ h w i, I h w i → 0 < i → ¬ (insertCompare h w i).1 < 0 →
      Q h (insertCompare h w i).2)
    (pass : ∀ h w i, I h w i → 0 < i → (insertCompare h w i).1 < 0 →
      I (h.swapped i (parent i)) (insertCompare h w i).2 (parent i))
    (i : ℕ) : ∀ h w, I h w i → ∃ h' w', fixedHeapInsertLoop h w i = some (h', w') ∧ Q h' w' := by
  induction i using Nat.strong_induction_on with
  | _ i ih =>
    intro h w hI
    rcases Nat.eq_zero_or_pos i with rfl | hi
    · exact ⟨h, w, fixedHeapInsertLoop_zero h w, top h w hI⟩
    · rw [fixedHeapInsertLoop_pass hi (bound h w i hI)]
      by_cases hc : (insertCompare h w i).1 < 0
      · rw [if_pos hc]
        exact ih (parent i) (parent_lt hi) _ _ (pass h w i hI hi hc)
      · rw [if_neg hc]
        exact ⟨h, _, rfl, stop h w i hI hi hc⟩

theorem fixedHeapPick_total {h : FixedHeap κ π} (hentries : h.entries ≤ h.allocated) (w : κ)
    {i child : ℕ} (hi : i < child) : ∃ r, fixedHeapPick h w child i = some r := by
  unfold fixedHeapPick
  split
  · rw [FixedHeap.load_eq (by omega), FixedHeap.load_eq (by omega)]
    exact ⟨_, rfl⟩
  · exact ⟨_, rfl⟩

theorem fixedHeapLargest_total {h : FixedHeap κ π} (hentries : h.entries ≤ h.allocated) (w : κ)
    (i : ℕ) : ∃ r, fixedHeapLargest h w i = some r := by
  have hleft : i < fixedHeapLeft i := by
    rw [fixedHeapLeft_eq]
    omega
  obtain ⟨⟨first, w₁⟩, hfirst⟩ := fixedHeapPick_total hentries w hleft
  have hlt : first < fixedHeapRight i := by
    have := fixedHeapPick_mem hfirst
    rw [fixedHeapLeft_eq] at this
    rw [fixedHeapRight_eq]
    omega
  obtain ⟨r, hr⟩ := fixedHeapPick_total hentries w₁ hlt
  exact ⟨r, by rw [fixedHeapLargest, hfirst]; exact hr⟩

theorem fixedHeapHeapify_pass {h : FixedHeap κ π} (hentries : h.entries ≤ h.allocated) {w w' : κ}
    {i largest : ℕ} (hl : fixedHeapLargest h w i = some (largest, w')) :
    fixedHeapHeapify h w i =
      if largest ≠ i then fixedHeapHeapify (h.swapped i largest) w' largest else some (h, w') := by
  rw [fixedHeapHeapify]
  split
  · next hnone => simp [hl] at hnone
  · next l v hsome =>
    obtain ⟨rfl, rfl⟩ : largest = l ∧ w' = v := by simpa [hl] using hsome
    by_cases hne : largest ≠ i
    · have hmem := fixedHeapLargest_mem hl
      rw [fixedHeapLeft_eq, fixedHeapRight_eq] at hmem
      have hswap := fixedHeapSwap_eq (h := h) (a := i) (b := largest) (by omega) (by omega)
      rw [dif_pos hne, if_pos hne]
      split
      · next hnone => simp [hswap] at hnone
      · next h' hsome' =>
        obtain rfl : h.swapped i largest = h' := by simpa [hswap] using hsome'
        rfl
    · rw [dif_neg hne, if_neg hne]

/-- A pass that exchanges two slots goes on one level down. -/
theorem fixedHeapLargest_below {h : FixedHeap κ π} {w w' : κ} {i largest : ℕ}
    (hl : fixedHeapLargest h w i = some (largest, w')) (hne : largest ≠ i) :
    i < largest ∧ largest < h.entries ∧ parent largest = i := by
  have hmem := fixedHeapLargest_mem hl
  rw [fixedHeapLeft_eq, fixedHeapRight_eq] at hmem
  exact ⟨by omega, by omega, (parent_eq_iff (by omega)).2 (by omega)⟩

/-- The rule of the loop of `__fixed_heap_heapify`. -/
theorem fixedHeapHeapify_rule {I : FixedHeap κ π → κ → ℕ → Prop} {Q : FixedHeap κ π → κ → Prop}
    (bound : ∀ h w i, I h w i → h.entries ≤ h.allocated)
    (stop : ∀ h w i w', I h w i → fixedHeapLargest h w i = some (i, w') → Q h w')
    (pass : ∀ h w i largest w', I h w i → fixedHeapLargest h w i = some (largest, w') →
      i < largest → largest < h.entries → parent largest = i →
      I (h.swapped i largest) w' largest)
    (h : FixedHeap κ π) (w : κ) (i : ℕ) (hI : I h w i) :
    ∃ h' w', fixedHeapHeapify h w i = some (h', w') ∧ Q h' w' := by
  obtain ⟨n, hn⟩ : ∃ n, h.entries - i = n := ⟨_, rfl⟩
  induction n using Nat.strong_induction_on generalizing h w i with
  | _ n ih =>
    obtain ⟨⟨largest, w'⟩, hl⟩ := fixedHeapLargest_total (bound h w i hI) w i
    rw [fixedHeapHeapify_pass (bound h w i hI) hl]
    by_cases hne : largest ≠ i
    · obtain ⟨hlt, hin, hparent⟩ := fixedHeapLargest_below hl hne
      rw [if_pos hne]
      exact ih (h.entries - largest) (by omega) _ _ _ (pass h w i largest w' hI hl hlt hin hparent)
        rfl
    · rw [if_neg hne]
      obtain rfl : largest = i := by simpa using hne
      exact ⟨h, w', rfl, stop h w largest w' hI hl⟩

/-! ## Any callback: the sifts permute -/

/-- `h'` is `h` with the items in use permuted. -/
structure Sifted (h h' : FixedHeap κ π) : Prop where
  allocated : h'.allocated = h.allocated
  capacity : h'.capacity = h.capacity
  entries : h'.entries = h.entries
  compare : h'.compare = h.compare
  shuffled : Shuffled h.entries h.heap h'.heap

section AnyCallback

variable {h g : FixedHeap κ π}

theorem Sifted.refl (h : FixedHeap κ π) : Sifted h h := ⟨rfl, rfl, rfl, rfl, Shuffled.refl _ _⟩

theorem Sifted.swapped (hg : Sifted h g) {a b : ℕ} (ha : a < h.entries) (hb : b < h.entries) :
    Sifted h (g.swapped a b) :=
  ⟨hg.allocated, hg.capacity, hg.entries, hg.compare,
    hg.shuffled.trans (shuffled_swap g.heap ha hb)⟩

theorem Sifted.items (hg : Sifted h g) : g.items = h.items := by
  rw [FixedHeap.items, hg.entries, hg.shuffled.itemsBelow_eq, FixedHeap.items]

theorem FixedHeap.heap_mem_items {i : ℕ} (hi : i < h.entries) : h.heap i ∈ h.items :=
  mem_itemsBelow.2 ⟨i, hi, rfl⟩

/-- The callback leaves a world of `W` in a world of `W`. -/
def KeepsWorld (compare : HeapCompare κ π) (W : κ → Prop) : Prop :=
  ∀ w x y, W w → W (compare w x y).2

theorem fixedHeapPick_world {W : κ → Prop} (hW : KeepsWorld h.compare W) {w w' : κ} (hw : W w)
    {child i largest : ℕ} (heq : fixedHeapPick h w child i = some (largest, w')) : W w' := by
  unfold fixedHeapPick at heq
  split at heq
  · simp only [Option.bind_eq_bind, Option.bind_eq_some_iff, Option.some.injEq,
      Prod.mk.injEq] at heq
    obtain ⟨x, -, y, -, -, rfl⟩ := heq
    exact hW w x y hw
  · simp only [Option.some.injEq, Prod.mk.injEq] at heq
    obtain ⟨-, rfl⟩ := heq
    exact hw

theorem fixedHeapLargest_world {W : κ → Prop} (hW : KeepsWorld h.compare W) {w w' : κ} (hw : W w)
    {i largest : ℕ} (heq : fixedHeapLargest h w i = some (largest, w')) : W w' := by
  simp only [fixedHeapLargest, Option.bind_eq_bind, Option.bind_eq_some_iff, Prod.exists] at heq
  obtain ⟨first, v, hfirst, hsecond⟩ := heq
  exact fixedHeapPick_world hW (fixedHeapPick_world hW hw hfirst) hsecond

theorem fixedHeapInsertLoop_sifted {W : κ → Prop} (hW : KeepsWorld h.compare W)
    (hbound : h.entries ≤ h.allocated) {w : κ} (hw : W w) {i : ℕ} (hi : i < h.entries) :
    ∃ h' w', fixedHeapInsertLoop h w i = some (h', w') ∧ Sifted h h' ∧ W w' := by
  have hworld : ∀ g v j, Sifted h g → W v → W (insertCompare g v j).2 := by
    intro g v j hg hv
    rw [insertCompare, hg.compare]
    exact hW v _ _ hv
  refine fixedHeapInsertLoop_rule (I := fun g v j => j < h.entries ∧ Sifted h g ∧ W v)
    (Q := fun g v => Sifted h g ∧ W v) ?_ (fun g v hI => hI.2)
    (fun g v j hI _ _ => ⟨hI.2.1, hworld g v j hI.2.1 hI.2.2⟩) ?_ i h w ⟨hi, Sifted.refl h, hw⟩
  · rintro g v j ⟨hj, hg, -⟩
    rw [hg.allocated]
    omega
  · rintro g v j ⟨hj, hg, hv⟩ hpos -
    have hp := parent_lt hpos
    exact ⟨by omega, hg.swapped hj (by omega), hworld g v j hg hv⟩

theorem fixedHeapHeapify_sifted {W : κ → Prop} (hW : KeepsWorld h.compare W)
    (hbound : h.entries ≤ h.allocated) {w : κ} (hw : W w) (i : ℕ) :
    ∃ h' w', fixedHeapHeapify h w i = some (h', w') ∧ Sifted h h' ∧ W w' := by
  have hworld : ∀ g v j largest v', Sifted h g → W v →
      fixedHeapLargest g v j = some (largest, v') → W v' := by
    intro g v j largest v' hg hv heq
    exact fixedHeapLargest_world (by rw [hg.compare]; exact hW) hv heq
  refine fixedHeapHeapify_rule (I := fun g v _ => Sifted h g ∧ W v)
    (Q := fun g v => Sifted h g ∧ W v) ?_
    (fun g v j v' hI heq => ⟨hI.1, hworld g v j j v' hI.1 hI.2 heq⟩) ?_ h w i ⟨Sifted.refl h, hw⟩
  · rintro g v j ⟨hg, -⟩
    rw [hg.allocated, hg.entries]
    exact hbound
  · rintro g v j largest v' ⟨hg, hv⟩ heq hlt hin _
    rw [hg.entries] at hin
    exact ⟨hg.swapped (by omega) hin, hworld g v j largest v' hg hv heq⟩

end AnyCallback

/-! ## A callback that answers like an order: the sifts restore it -/

/-- In the worlds `W`, the callback answers on the items `S` like `le`, and leaves a world of
    `W`. -/
structure Answers (compare : HeapCompare κ π) (W : κ → Prop) (S : π → Prop)
    (le : π → π → Prop) : Prop where
  world : ∀ w x y, W w → S x → S y → W (compare w x y).2
  neg : ∀ w x y, W w → S x → S y → ((compare w x y).1 < 0 ↔ ¬ le y x)
  pos : ∀ w x y, W w → S x → S y → (0 < (compare w x y).1 ↔ ¬ le x y)

section OrderedCallback

variable {h : FixedHeap κ π} {W : κ → Prop} {S : π → Prop} {le : π → π → Prop} {w : κ}

/-- A pick is between the slot it was given and the child, and at least both. -/
theorem fixedHeapPick_spec (hle : TotalPreorder le) (hA : Answers h.compare W S le)
    (hbound : h.entries ≤ h.allocated) (hS : ∀ x ∈ h.items, S x) (hw : W w) {child i largest : ℕ}
    {w' : κ} (hi : child < h.entries → i < h.entries)
    (heq : fixedHeapPick h w child i = some (largest, w')) :
    W w' ∧ le (h.heap i) (h.heap largest) ∧
      (child < h.entries → le (h.heap child) (h.heap largest)) := by
  unfold fixedHeapPick at heq
  split at heq
  · next hchild =>
    have hin := hi hchild
    have hSc := hS _ (FixedHeap.heap_mem_items hchild)
    have hSi := hS _ (FixedHeap.heap_mem_items hin)
    rw [FixedHeap.load_eq (by omega), FixedHeap.load_eq (by omega)] at heq
    simp only [Option.bind_eq_bind, Option.bind_some, Option.some.injEq, Prod.mk.injEq] at heq
    obtain ⟨hval, rfl⟩ := heq
    have hpos := hA.pos w (h.heap child) (h.heap i) hw hSc hSi
    refine ⟨hA.world w _ _ hw hSc hSi, ?_⟩
    split at hval
    · next hc =>
      subst hval
      exact ⟨hle.le_of_not_le (hpos.1 hc), fun _ => hle.refl _⟩
    · next hc =>
      subst hval
      exact ⟨hle.refl _, fun _ => by_contra fun hn => hc (hpos.2 hn)⟩
  · next hchild =>
    simp only [Option.some.injEq, Prod.mk.injEq] at heq
    obtain ⟨rfl, rfl⟩ := heq
    exact ⟨hw, hle.refl _, fun hc => absurd hc hchild⟩

/-- A pass compares out a slot at least as great as `i` and its children. -/
theorem fixedHeapLargest_spec (hle : TotalPreorder le) (hA : Answers h.compare W S le)
    (hbound : h.entries ≤ h.allocated) (hS : ∀ x ∈ h.items, S x) (hw : W w) {i largest : ℕ}
    {w' : κ} (heq : fixedHeapLargest h w i = some (largest, w')) :
    W w' ∧ le (h.heap i) (h.heap largest) ∧
      ∀ j, 0 < j → j < h.entries → parent j = i → le (h.heap j) (h.heap largest) := by
  simp only [fixedHeapLargest, Option.bind_eq_bind, Option.bind_eq_some_iff, Prod.exists] at heq
  obtain ⟨first, w₁, hfirst, hsecond⟩ := heq
  have hmem := fixedHeapPick_mem hfirst
  obtain ⟨hw₁, hi₁, hleft⟩ := fixedHeapPick_spec hle hA hbound hS hw
    (by rw [fixedHeapLeft_eq]; omega) hfirst
  obtain ⟨hw₂, hi₂, hright⟩ := fixedHeapPick_spec hle hA hbound hS hw₁
    (by rw [fixedHeapLeft_eq] at hmem; rw [fixedHeapRight_eq]; omega) hsecond
  refine ⟨hw₂, hle.trans hi₁ hi₂, ?_⟩
  intro j hpos hj hparent
  rcases (parent_eq_iff hpos).1 hparent with rfl | rfl
  · rw [fixedHeapLeft_eq] at hleft
    exact hle.trans (hleft hj) hi₂
  · rw [fixedHeapRight_eq] at hright
    exact hright hj

theorem fixedHeapInsertLoop_ordered (hle : TotalPreorder le) (hA : Answers h.compare W S le)
    (hbound : h.entries ≤ h.allocated) (hS : ∀ x ∈ h.items, S x) (hw : W w) {i : ℕ}
    (hi : i < h.entries) (hup : UpOrder le h.heap h.entries i) :
    ∃ h' w', fixedHeapInsertLoop h w i = some (h', w') ∧ Sifted h h' ∧ W w' ∧
      HeapOrdered le h'.heap h'.entries := by
  have hanswer : ∀ g v j, Sifted h g → W v → j < h.entries → 0 < j →
      W (insertCompare g v j).2 ∧
        ((insertCompare g v j).1 < 0 ↔ ¬ le (g.heap j) (g.heap (parent j))) := by
    intro g v j hg hv hj hpos
    have hp := parent_lt hpos
    have hSg : ∀ k < h.entries, S (g.heap k) := by
      intro k hk
      refine hS _ ?_
      rw [← hg.items]
      exact FixedHeap.heap_mem_items (by rw [hg.entries]; exact hk)
    rw [insertCompare, hg.compare]
    exact ⟨hA.world v _ _ hv (hSg _ (by omega)) (hSg _ hj),
      hA.neg v _ _ hv (hSg _ (by omega)) (hSg _ hj)⟩
  refine fixedHeapInsertLoop_rule
    (I := fun g v j => j < h.entries ∧ Sifted h g ∧ W v ∧ UpOrder le g.heap h.entries j)
    (Q := fun g v => Sifted h g ∧ W v ∧ HeapOrdered le g.heap g.entries) ?_ ?_ ?_ ?_ i h w
    ⟨hi, Sifted.refl h, hw, hup⟩
  · rintro g v j ⟨hj, hg, -, -⟩
    rw [hg.allocated]
    omega
  · rintro g v ⟨-, hg, hv, ho⟩
    rw [hg.entries]
    exact ⟨hg, hv, ho.finish (fun h0 => absurd h0 (by omega))⟩
  · rintro g v j ⟨hj, hg, hv, ho⟩ hpos hc
    obtain ⟨hv', hneg⟩ := hanswer g v j hg hv hj hpos
    rw [hg.entries]
    exact ⟨hg, hv', ho.finish fun _ => by_contra fun hn => hc (hneg.2 hn)⟩
  · rintro g v j ⟨hj, hg, hv, ho⟩ hpos hc
    obtain ⟨hv', hneg⟩ := hanswer g v j hg hv hj hpos
    have hp := parent_lt hpos
    exact ⟨by omega, hg.swapped hj (by omega), hv',
      ho.swap hle hpos hj (hle.le_of_not_le (hneg.1 hc))⟩

theorem fixedHeapHeapify_ordered (hle : TotalPreorder le) (hA : Answers h.compare W S le)
    (hbound : h.entries ≤ h.allocated) (hS : ∀ x ∈ h.items, S x) (hw : W w) {i : ℕ}
    (hdown : DownOrder le h.heap h.entries i) :
    ∃ h' w', fixedHeapHeapify h w i = some (h', w') ∧ Sifted h h' ∧ W w' ∧
      HeapOrdered le h'.heap h'.entries := by
  have hlargest : ∀ g v j largest v', Sifted h g → W v →
      fixedHeapLargest g v j = some (largest, v') →
      W v' ∧ le (g.heap j) (g.heap largest) ∧
        ∀ k, 0 < k → k < h.entries → parent k = j → le (g.heap k) (g.heap largest) := by
    intro g v j largest v' hg hv heq
    have := fixedHeapLargest_spec (h := g) hle (by rw [hg.compare]; exact hA)
      (by rw [hg.entries, hg.allocated]; exact hbound) (by rw [hg.items]; exact hS) hv heq
    rwa [hg.entries] at this
  refine fixedHeapHeapify_rule
    (I := fun g v j => Sifted h g ∧ W v ∧ DownOrder le g.heap h.entries j)
    (Q := fun g v => Sifted h g ∧ W v ∧ HeapOrdered le g.heap g.entries) ?_ ?_ ?_ h w i
    ⟨Sifted.refl h, hw, hdown⟩
  · rintro g v j ⟨hg, -, -⟩
    rw [hg.allocated, hg.entries]
    exact hbound
  · rintro g v j v' ⟨hg, hv, ho⟩ heq
    obtain ⟨hv', -, hmax⟩ := hlargest g v j j v' hg hv heq
    rw [hg.entries]
    exact ⟨hg, hv', ho.finish hmax⟩
  · rintro g v j largest v' ⟨hg, hv, ho⟩ heq hlt hin hparent
    obtain ⟨hv', hge, hmax⟩ := hlargest g v j largest v' hg hv heq
    rw [hg.entries] at hin
    exact ⟨hg.swapped (by omega) hin, hv', ho.swap (by omega) hin hparent hge hmax⟩

/-! ## The operations -/

/-- The items in use fit the capacity and the capacity fits the block. -/
structure FixedHeap.Wf (h : FixedHeap κ π) : Prop where
  entries_le : h.entries ≤ h.capacity
  capacity_le : h.capacity ≤ h.allocated

/-- `h'` is in the array of `h`. -/
structure SameArray (h h' : FixedHeap κ π) : Prop where
  allocated : h'.allocated = h.allocated
  capacity : h'.capacity = h.capacity
  compare : h'.compare = h.compare

theorem SameArray.wf {h h' : FixedHeap κ π} (hsame : SameArray h h') (hwf : h.Wf)
    (hent : h'.entries ≤ h.capacity) : h'.Wf where
  entries_le := hent.trans (Nat.le_of_eq hsame.capacity.symm)
  capacity_le := by
    rw [hsame.capacity, hsame.allocated]
    exact hwf.capacity_le

theorem fixedHeapPush_full (hfull : h.capacity ≤ h.entries) (w : κ) (item : π) :
    fixedHeapPush h w item = some (aENospc, h, w) := if_pos hfull

/-- The heap before `fixed_heap_push` sifts. -/
def FixedHeap.appended (h : FixedHeap κ π) (item : π) : FixedHeap κ π :=
  { h with entries := h.entries + 1, heap := Function.update h.heap h.entries item }

theorem FixedHeap.items_appended (h : FixedHeap κ π) (item : π) :
    (h.appended item).items = item ::ₘ h.items := itemsBelow_append _ _ _

theorem fixedHeapPush_eq (hwf : h.Wf) (hroom : h.entries < h.capacity) (w : κ) (item : π) :
    fixedHeapPush h w item =
      (fixedHeapInsertLoop (h.appended item) w h.entries).map fun (g, v) => (aOk, g, v) := by
  have hcap := hwf.capacity_le
  have hstore : FixedHeap.store { h with entries := h.entries + 1 } h.entries item =
      some (h.appended item) := FixedHeap.store_eq (by simp only; omega) item
  simp only [fixedHeapPush, if_neg (Nat.not_le.2 hroom), fixedHeapInsert, hstore,
    Option.bind_eq_bind, Option.bind_some]
  cases fixedHeapInsertLoop (h.appended item) w h.entries <;> rfl

/-- The heap before `fixed_heap_pop` sifts. -/
def FixedHeap.beheaded [VoidPtr π] (h : FixedHeap κ π) : FixedHeap κ π :=
  { h with
    entries := h.entries - 1
    heap := Function.update (Function.update h.heap 0 (h.heap (h.entries - 1))) (h.entries - 1)
      VoidPtr.null }

theorem FixedHeap.beheaded_heap [VoidPtr π] {k : ℕ} (hk : k < h.entries - 1) :
    h.beheaded.heap k = Function.update h.heap 0 (h.heap (h.entries - 1)) k :=
  Function.update_of_ne (by omega) _ _

theorem FixedHeap.items_beheaded [VoidPtr π] (hne : 0 < h.entries) :
    h.items = h.heap 0 ::ₘ h.beheaded.items := by
  obtain ⟨m, hm⟩ : ∃ m, h.entries = m + 1 := ⟨h.entries - 1, by omega⟩
  have hbelow : ∀ k < m, h.beheaded.heap k = Function.update h.heap 0 (h.heap m) k := by
    intro k hk
    rw [FixedHeap.beheaded_heap (by omega), hm, Nat.add_sub_cancel]
  have hentries : h.beheaded.entries = m := by
    change h.entries - 1 = m
    omega
  rw [FixedHeap.items, FixedHeap.items, hentries, hm]
  exact (itemsBelow_replace (Nat.zero_le m) hbelow).symm

theorem fixedHeapPop_eq [VoidPtr π] (hwf : h.Wf) (hne : 0 < h.entries) (w : κ) (item : π) :
    fixedHeapPop h w item =
      (fixedHeapHeapify h.beheaded w 0).map fun (g, v) => (aOk, h.heap 0, g, v) := by
  have hcap := hwf.capacity_le
  have hent := hwf.entries_le
  have hload : FixedHeap.load { h with entries := h.entries - 1 } (h.entries - 1) =
      some (h.heap (h.entries - 1)) := FixedHeap.load_eq (by simp only; omega)
  have hroot : FixedHeap.store { h with entries := h.entries - 1 } 0 (h.heap (h.entries - 1)) =
      some { h with
        entries := h.entries - 1
        heap := Function.update h.heap 0 (h.heap (h.entries - 1)) } :=
    FixedHeap.store_eq (by simp only; omega) _
  have hnull : FixedHeap.store
      { h with
        entries := h.entries - 1
        heap := Function.update h.heap 0 (h.heap (h.entries - 1)) } (h.entries - 1)
      VoidPtr.null = some h.beheaded := FixedHeap.store_eq (by simp only; omega) _
  simp only [fixedHeapPop, if_neg (Nat.pos_iff_ne_zero.1 hne),
    FixedHeap.load_eq (h := h) (i := 0) (by omega), hload, hroot, hnull,
    Option.bind_eq_bind, Option.bind_some]
  cases fixedHeapHeapify h.beheaded w 0 <;> rfl

theorem fixedHeapPush_conserves (hW : KeepsWorld h.compare W) (hwf : h.Wf)
    (hroom : h.entries < h.capacity) (hw : W w) (item : π) :
    ∃ h' w', fixedHeapPush h w item = some (aOk, h', w') ∧ SameArray h h' ∧
      h'.entries = h.entries + 1 ∧ h'.items = item ::ₘ h.items ∧ W w' := by
  have hcap := hwf.capacity_le
  obtain ⟨h', w', hloop, hsift, hw'⟩ := fixedHeapInsertLoop_sifted (h := h.appended item) hW
    (by simp only [FixedHeap.appended]; omega) hw (i := h.entries) (Nat.lt_succ_self _)
  refine ⟨h', w', ?_, ⟨hsift.allocated, hsift.capacity, hsift.compare⟩, hsift.entries,
    hsift.items.trans (h.items_appended item), hw'⟩
  rw [fixedHeapPush_eq hwf hroom, hloop, Option.map_some]

theorem fixedHeapPop_conserves [VoidPtr π] (hW : KeepsWorld h.compare W) (hwf : h.Wf)
    (hne : 0 < h.entries) (hw : W w) (item : π) :
    ∃ h' w', fixedHeapPop h w item = some (aOk, h.heap 0, h', w') ∧ SameArray h h' ∧
      h'.entries + 1 = h.entries ∧ h.items = h.heap 0 ::ₘ h'.items ∧ W w' := by
  have hcap := hwf.capacity_le
  have hent := hwf.entries_le
  obtain ⟨h', w', hloop, hsift, hw'⟩ := fixedHeapHeapify_sifted (h := h.beheaded) hW
    (by simp only [FixedHeap.beheaded]; omega) hw 0
  have hentries : h'.entries + 1 = h.entries := by
    have := hsift.entries
    simp only [FixedHeap.beheaded] at this
    omega
  refine ⟨h', w', ?_, ⟨hsift.allocated, hsift.capacity, hsift.compare⟩, hentries, ?_, hw'⟩
  · rw [fixedHeapPop_eq hwf hne, hloop, Option.map_some]
  · rw [hsift.items]
    exact FixedHeap.items_beheaded hne

theorem fixedHeapPush_ordered (hle : TotalPreorder le) (hA : Answers h.compare W S le) (hwf : h.Wf)
    (hroom : h.entries < h.capacity) (hS : ∀ x ∈ h.items, S x) (hw : W w)
    (ho : HeapOrdered le h.heap h.entries) {item : π} (hitem : S item) :
    ∃ h' w', fixedHeapPush h w item = some (aOk, h', w') ∧ SameArray h h' ∧
      h'.entries = h.entries + 1 ∧ h'.items = item ::ₘ h.items ∧ W w' ∧
      HeapOrdered le h'.heap h'.entries := by
  have hcap := hwf.capacity_le
  obtain ⟨h', w', hloop, hsift, hw', ho'⟩ := fixedHeapInsertLoop_ordered (h := h.appended item)
    hle hA (by simp only [FixedHeap.appended]; omega)
    (by rw [h.items_appended]; simpa using ⟨hitem, hS⟩) hw (i := h.entries) (Nat.lt_succ_self _)
    (ho.upOrder_append item)
  refine ⟨h', w', ?_, ⟨hsift.allocated, hsift.capacity, hsift.compare⟩, hsift.entries,
    hsift.items.trans (h.items_appended item), hw', ho'⟩
  rw [fixedHeapPush_eq hwf hroom, hloop, Option.map_some]

theorem fixedHeapPop_ordered [VoidPtr π] (hle : TotalPreorder le)
    (hA : Answers h.compare W S le) (hwf : h.Wf) (hne : 0 < h.entries) (hS : ∀ x ∈ h.items, S x)
    (hw : W w) (ho : HeapOrdered le h.heap h.entries) (item : π) :
    ∃ h' w', fixedHeapPop h w item = some (aOk, h.heap 0, h', w') ∧ SameArray h h' ∧
      h'.entries + 1 = h.entries ∧ h.items = h.heap 0 ::ₘ h'.items ∧ W w' ∧
      HeapOrdered le h'.heap h'.entries := by
  have hcap := hwf.capacity_le
  have hent := hwf.entries_le
  have hitems := FixedHeap.items_beheaded hne
  have hdown : DownOrder le h.beheaded.heap h.beheaded.entries 0 := by
    have hroot := ho.downOrder_root (m := h.entries - 1) (by omega) (h.heap (h.entries - 1))
    refine ⟨fun j hpos hj hp => ?_, fun h0 => absurd h0 (by omega)⟩
    have hj' : j < h.entries - 1 := hj
    have hparent := parent_lt hpos
    rw [FixedHeap.beheaded_heap hj', FixedHeap.beheaded_heap (by omega)]
    exact hroot.except j hpos hj' hp
  obtain ⟨h', w', hloop, hsift, hw', ho'⟩ := fixedHeapHeapify_ordered (h := h.beheaded) hle hA
    (by simp only [FixedHeap.beheaded]; omega)
    (fun x hx => hS x (by rw [hitems]; exact Multiset.mem_cons_of_mem hx)) hw hdown
  have hentries : h'.entries + 1 = h.entries := by
    have := hsift.entries
    simp only [FixedHeap.beheaded] at this
    omega
  refine ⟨h', w', ?_, ⟨hsift.allocated, hsift.capacity, hsift.compare⟩, hentries, ?_, hw', ho'⟩
  · rw [fixedHeapPop_eq hwf hne, hloop, Option.map_some]
  · rw [hsift.items]
    exact hitems

theorem fixedHeapPeekHead_eq (hwf : h.Wf) (hne : 0 < h.entries) (item : π) :
    fixedHeapPeekHead h item = some (aOk, h.heap 0) := by
  have hcap := hwf.capacity_le
  have hent := hwf.entries_le
  simp [fixedHeapPeekHead, Nat.pos_iff_ne_zero.1 hne, FixedHeap.load_eq (h := h) (i := 0) (by omega)]

/-- The first item of an ordered heap is a greatest one. -/
theorem le_heap_zero (hle : TotalPreorder le) (ho : HeapOrdered le h.heap h.entries) :
    ∀ x ∈ h.items, le x (h.heap 0) := by
  intro x hx
  obtain ⟨k, hk, rfl⟩ := mem_itemsBelow.1 hx
  exact ho.le_root hle k hk

end OrderedCallback

/-! ## Draining a heap -/

/-- `n` pops in a row, up to the first that fails. -/
def fixedHeapDrain [VoidPtr π] (h : FixedHeap κ π) (w : κ) :
    ℕ → Option (List π × FixedHeap κ π × κ)
  | 0 => some ([], h, w)
  | n + 1 => do
      let (ret, x, h, w) ← fixedHeapPop h w VoidPtr.null
      if ret = aOk then do
        let (xs, h, w) ← fixedHeapDrain h w n
        some (x :: xs, h, w)
      else some ([], h, w)

/-- Draining an ordered heap yields its items, greatest first. -/
theorem fixedHeapDrain_ordered [VoidPtr π] {W : κ → Prop} {S : π → Prop} {le : π → π → Prop}
    (hle : TotalPreorder le) (n : ℕ) :
    ∀ (h : FixedHeap κ π) (w : κ), Answers h.compare W S le → h.Wf → (∀ x ∈ h.items, S x) → W w →
      HeapOrdered le h.heap h.entries → h.entries = n →
      ∃ xs h' w', fixedHeapDrain h w n = some (xs, h', w') ∧ (xs : Multiset π) = h.items ∧
        xs.Pairwise (fun x y => le y x) ∧ h'.entries = 0 := by
  induction n with
  | zero =>
      intro h w _ _ _ _ _ hn
      exact ⟨[], h, w, rfl, by simp [FixedHeap.items, hn], List.Pairwise.nil, hn⟩
  | succ n ih =>
      intro h w hA hwf hS hw ho hn
      obtain ⟨g, v, hpop, hsame, hent, hitems, hv, hog⟩ :=
        fixedHeapPop_ordered hle hA hwf (by omega) hS hw ho VoidPtr.null
      have hwfg : g.Wf := hsame.wf hwf (by have := hwf.entries_le; omega)
      obtain ⟨xs, h', w', hdrain, hxs, hsorted, hend⟩ := ih g v (by rw [hsame.compare]; exact hA)
        hwfg (fun x hx => hS x (by rw [hitems]; exact Multiset.mem_cons_of_mem hx)) hv hog (by omega)
      refine ⟨h.heap 0 :: xs, h', w', ?_, ?_, ?_, hend⟩
      · simp [fixedHeapDrain, hpop, hdrain]
      · rw [hitems, ← hxs, Multiset.cons_coe]
      · refine List.Pairwise.cons (fun y hy => ?_) hsorted
        refine le_heap_zero hle ho y ?_
        rw [hitems, ← hxs]
        exact Multiset.mem_cons_of_mem (Multiset.mem_coe.2 hy)

end Tsl
