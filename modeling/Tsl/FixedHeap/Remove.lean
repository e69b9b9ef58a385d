import Tsl.FixedHeap.PriorityQueue

set_option autoImplicit false

/-! # Removing an item from the middle of a heap

`fixed_heap_remove_item` puts the last item where the removed one was and sifts it down. It never sifts
it up, although the last item comes from another branch and may be greater than what is above it now.
The items are right in any case; the heap order is kept exactly if the last item is at most the one
above the slot it is put into (`removesItem_iff`). -/

namespace Tsl

open Lib

universe u

variable {κ π : Type u}

/-! ## The code -/

/-- `(size_t)-1`. -/
def noItemOffs : ℕ := 2 ^ 64 - 1

/-- The loop of `fixed_heap_remove_item` that looks for the item, with `n` slots from `i` on to go:
    `item_offs` at its end. -/
def fixedHeapFindItem [DecidableEq π] (h : FixedHeap κ π) (item : π) : ℕ → ℕ → Option ℕ
  | 0, _ => some noItemOffs
  | n + 1, i => (h.load i).bind fun x =>
      if x = item then some i else fixedHeapFindItem h item n (i + 1)

/-- `fixed_heap_remove_item`. -/
def fixedHeapRemoveItem [DecidableEq π] (h : FixedHeap κ π) (w : κ) (item : π) :
    Option (AResult × FixedHeap κ π × κ) :=
  (fixedHeapFindItem h item h.entries 0).bind fun itemOffs =>
  if itemOffs = noItemOffs then some (aENotfound, h, w)
  else
    -- `entries--` is compared with what it was
    let inside := itemOffs < h.entries
    let h := { h with entries := h.entries - 1 }
    if inside then do
      let last ← h.load h.entries
      let h ← h.store itemOffs last
      let (h, w) ← fixedHeapHeapify h w itemOffs
      some (aOk, h, w)
    else some (aOk, h, w)

/-! ## What it should do -/

/-- An item that is present is removed, once, and the order is kept; one that is absent is reported,
    and nothing changes. -/
structure RemovesItem [DecidableEq π] (cmp : π → π → ℤ) (h : FixedHeap κ π) (w : κ) (item : π) :
    Prop where
  present : item ∈ h.items → ∃ h' w', fixedHeapRemoveItem h w item = some (aOk, h', w') ∧
    h'.entries + 1 = h.entries ∧ h.items = item ::ₘ h'.items ∧
    HeapOrdered (fun x y => cmp x y ≤ 0) h'.heap h'.entries
  absent : item ∉ h.items → fixedHeapRemoveItem h w item = some (aENotfound, h, w)

/-- The item is first found in slot `k`. -/
def FixedHeap.FirstAt (h : FixedHeap κ π) (item : π) (k : ℕ) : Prop :=
  k < h.entries ∧ h.heap k = item ∧ ∀ j < k, h.heap j ≠ item

/-- The last item is at most the one above the slot the item is found in. -/
def LastFits (cmp : π → π → ℤ) (h : FixedHeap κ π) (item : π) : Prop :=
  ∀ k, h.FirstAt item k → 0 < k → cmp (h.heap (h.entries - 1)) (h.heap (parent k)) ≤ 0

/-! ## Where the item is found -/

section Find

variable [DecidableEq π] {h : FixedHeap κ π} {item : π}

theorem fixedHeapFindItem_spec (hwf : h.Wf) (n i : ℕ) (hn : i + n = h.entries)
    (hbefore : ∀ j < i, h.heap j ≠ item) :
    (∃ k, h.FirstAt item k ∧ fixedHeapFindItem h item n i = some k) ∨
      item ∉ h.items ∧ fixedHeapFindItem h item n i = some noItemOffs := by
  have hcap := hwf.capacity_le
  have hent := hwf.entries_le
  induction n generalizing i with
  | zero =>
      refine .inr ⟨fun hmem => ?_, rfl⟩
      obtain ⟨k, hk, heq⟩ := mem_itemsBelow.1 hmem
      exact hbefore k (by omega) heq
  | succ n ih =>
      rw [fixedHeapFindItem, FixedHeap.load_eq (by omega)]
      rw [Option.bind_some]
      by_cases heq : h.heap i = item
      · rw [if_pos heq]
        exact .inl ⟨i, ⟨by omega, heq, hbefore⟩, rfl⟩
      · rw [if_neg heq]
        refine ih (i + 1) (by omega) fun j hj => ?_
        rcases Nat.lt_succ_iff_lt_or_eq.1 hj with hlt | rfl
        · exact hbefore j hlt
        · exact heq

theorem fixedHeapFindItem_all (hwf : h.Wf) (item : π) :
    (∃ k, h.FirstAt item k ∧ fixedHeapFindItem h item h.entries 0 = some k) ∨
      item ∉ h.items ∧ fixedHeapFindItem h item h.entries 0 = some noItemOffs :=
  fixedHeapFindItem_spec hwf h.entries 0 (Nat.zero_add _) fun j hj => absurd hj (Nat.not_lt_zero j)

omit [DecidableEq π] in
theorem FixedHeap.FirstAt.unique {k l : ℕ} (hk : h.FirstAt item k) (hl : h.FirstAt item l) :
    k = l := by
  obtain ⟨-, hitem, hfirst⟩ := hk
  obtain ⟨-, hitem', hfirst'⟩ := hl
  rcases Nat.lt_trichotomy k l with hlt | heq | hlt
  · exact absurd hitem (hfirst' k hlt)
  · exact heq
  · exact absurd hitem' (hfirst l hlt)

end Find

/-! ## The heap without the item -/

/-- The heap before `fixed_heap_remove_item` sifts. -/
def FixedHeap.replaced (h : FixedHeap κ π) (k : ℕ) : FixedHeap κ π :=
  { h with entries := h.entries - 1, heap := Function.update h.heap k (h.heap (h.entries - 1)) }

section Replace

variable {h : FixedHeap κ π} {item : π} {k : ℕ}

theorem FixedHeap.items_replaced (hk : k < h.entries) :
    h.items = h.heap k ::ₘ (h.replaced k).items := by
  obtain ⟨m, hm⟩ : ∃ m, h.entries = m + 1 := ⟨h.entries - 1, by omega⟩
  have hentries : (h.replaced k).entries = m := by
    change h.entries - 1 = m
    omega
  have hbelow : ∀ j < m, (h.replaced k).heap j = Function.update h.heap k (h.heap m) j := by
    intro j _
    change Function.update h.heap k (h.heap (h.entries - 1)) j = _
    rw [hm, Nat.add_sub_cancel]
  rw [FixedHeap.items, FixedHeap.items, hentries, hm]
  exact (itemsBelow_replace (by omega) hbelow).symm

theorem FixedHeap.mem_of_replaced (hk : k < h.entries) {x : π} (hx : x ∈ (h.replaced k).items) :
    x ∈ h.items := by
  rw [FixedHeap.items_replaced hk]
  exact Multiset.mem_cons_of_mem hx

theorem FixedHeap.replaced_fits (hwf : h.Wf) : (h.replaced k).entries ≤ (h.replaced k).allocated := by
  have hcap := hwf.capacity_le
  have hent := hwf.entries_le
  simp only [FixedHeap.replaced]
  omega

theorem fixedHeapRemoveItem_found [DecidableEq π] (hwf : h.Wf) (hk : h.FirstAt item k) (w : κ) :
    fixedHeapRemoveItem h w item =
      (fixedHeapHeapify (h.replaced k) w k).map fun (g, v) => (aOk, g, v) := by
  have hcap := hwf.capacity_le
  have hent := hwf.entries_le
  have hin := hk.1
  have hfits := h.allocated_fits
  have hoffs : k ≠ noItemOffs := by
    unfold noItemOffs
    omega
  have hfind : fixedHeapFindItem h item h.entries 0 = some k := by
    rcases fixedHeapFindItem_all hwf item with ⟨l, hl, hfind⟩ | ⟨hnot, -⟩
    · rw [hfind, hk.unique hl]
    · exact absurd (hk.2.1 ▸ FixedHeap.heap_mem_items hin) hnot
  have hload : FixedHeap.load { h with entries := h.entries - 1 } (h.entries - 1) =
      some (h.heap (h.entries - 1)) := FixedHeap.load_eq (by simp only; omega)
  have hstore : FixedHeap.store { h with entries := h.entries - 1 } k (h.heap (h.entries - 1)) =
      some (h.replaced k) := FixedHeap.store_eq (by simp only; omega) _
  simp only [fixedHeapRemoveItem, hfind, Option.bind_eq_bind, Option.bind_some, if_neg hoffs,
    if_pos hin, hload, hstore]
  cases fixedHeapHeapify (h.replaced k) w k <;> rfl

theorem fixedHeapRemoveItem_absent [DecidableEq π] (hwf : h.Wf) (hitem : item ∉ h.items) (w : κ) :
    fixedHeapRemoveItem h w item = some (aENotfound, h, w) := by
  have hfind : fixedHeapFindItem h item h.entries 0 = some noItemOffs := by
    rcases fixedHeapFindItem_all hwf item with ⟨l, hl, -⟩ | ⟨-, hfind⟩
    · exact absurd (hl.2.1 ▸ FixedHeap.heap_mem_items hl.1) hitem
    · exact hfind
  rw [fixedHeapRemoveItem, hfind, Option.bind_some, if_pos rfl]

/-- `fixed_heap_remove_item` takes its item once, whatever the callback answers. -/
theorem fixedHeapRemoveItem_conserves [DecidableEq π] {W : κ → Prop} (hW : KeepsWorld h.compare W) (hwf : h.Wf)
    {w : κ} (hw : W w) (hitem : item ∈ h.items) :
    ∃ h' w', fixedHeapRemoveItem h w item = some (aOk, h', w') ∧ SameArray h h' ∧
      h'.entries + 1 = h.entries ∧ h.items = item ::ₘ h'.items ∧ W w' := by
  obtain ⟨k, hk⟩ : ∃ k, h.FirstAt item k := by
    rcases fixedHeapFindItem_all hwf item with ⟨k, hk, -⟩ | ⟨hnot, -⟩
    · exact ⟨k, hk⟩
    · exact absurd hitem hnot
  obtain ⟨h', w', hrun, hsift, hw'⟩ := fixedHeapHeapify_sifted (h := h.replaced k) hW
    (FixedHeap.replaced_fits hwf) hw k
  have hentries : h'.entries + 1 = h.entries := by
    have hsame := hsift.entries
    simp only [FixedHeap.replaced] at hsame
    have hin := hk.1
    omega
  refine ⟨h', w', ?_, ⟨hsift.allocated, hsift.capacity, hsift.compare⟩, hentries, ?_, hw'⟩
  · rw [fixedHeapRemoveItem_found hwf hk, hrun, Option.map_some]
  · rw [hsift.items, FixedHeap.items_replaced hk.1, hk.2.1]

end Replace

/-! ## When the order is kept -/

section Order

variable {h : FixedHeap κ π} {W : κ → Prop} {S : π → Prop} {le : π → π → Prop} {w : κ} {k : ℕ}

/-- An item that fits its slot is sifted into place. -/
theorem fixedHeapHeapify_replaced (hle : TotalPreorder le) (hA : Answers h.compare W S le)
    (hwf : h.Wf) (hS : ∀ x ∈ h.items, S x) (hw : W w) (ho : HeapOrdered le h.heap h.entries)
    (hk : k < h.entries) (hfits : 0 < k → le (h.heap (h.entries - 1)) (h.heap (parent k))) :
    ∃ h' w', fixedHeapHeapify (h.replaced k) w k = some (h', w') ∧ Sifted (h.replaced k) h' ∧
      HeapOrdered le h'.heap h'.entries := by
  obtain ⟨h', w', hrun, hsift, -, ho'⟩ := fixedHeapHeapify_ordered (h := h.replaced k) hle hA
    (FixedHeap.replaced_fits hwf) (fun x hx => hS x (FixedHeap.mem_of_replaced hk hx)) hw
    (ho.downOrder_replace hle (Nat.sub_le _ _) hfits)
  exact ⟨h', w', hrun, hsift, ho'⟩

/-- One that is greater than what is above it stays there. -/
theorem fixedHeapHeapify_stays (hle : TotalPreorder le) (hA : Answers h.compare W S le)
    (hwf : h.Wf) (hS : ∀ x ∈ h.items, S x) (hw : W w) (ho : HeapOrdered le h.heap h.entries)
    (hk : k < h.entries) (hpos : 0 < k)
    (hgreater : ¬ le (h.heap (h.entries - 1)) (h.heap (parent k))) :
    ∃ w', fixedHeapHeapify (h.replaced k) w k = some (h.replaced k, w') := by
  have hbound : (h.replaced k).entries ≤ (h.replaced k).allocated := FixedHeap.replaced_fits hwf
  obtain ⟨⟨largest, w'⟩, hlargest⟩ := fixedHeapLargest_total hbound w k
  -- everything below the slot is less than the new item
  have hbelow : ∀ j, k < j → j < h.entries → parent j = k →
      ¬ le (h.heap (h.entries - 1)) (h.heap j) := by
    intro j hkj hj hp hlast
    have hup := ho j (by omega) hj
    rw [hp] at hup
    exact hgreater (hle.trans hlast (hle.trans hup (ho k hpos hk)))
  have hstay : largest = k := by
    by_contra hne
    obtain ⟨-, hge, -⟩ := fixedHeapLargest_spec (h := h.replaced k) hle hA hbound
      (fun x hx => hS x (FixedHeap.mem_of_replaced hk hx)) hw hlargest
    obtain ⟨hlt, hin, hparent⟩ := fixedHeapLargest_below hlargest hne
    simp only [FixedHeap.replaced, Function.update_self, Function.update_of_ne hne] at hge hin
    exact hbelow largest hlt (by omega) hparent hge
  subst hstay
  exact ⟨w', by rw [fixedHeapHeapify_pass hbound hlargest, if_neg (not_not_intro rfl)]⟩

theorem not_heapOrdered_replaced (ho : HeapOrdered le h.heap h.entries)
    (hk : k < h.entries) (hpos : 0 < k)
    (hgreater : ¬ le (h.heap (h.entries - 1)) (h.heap (parent k))) :
    ¬ HeapOrdered le (h.replaced k).heap (h.replaced k).entries := by
  have hparent := parent_lt hpos
  -- the last slot is in order, so it is not the one
  have hlast : k ≠ h.entries - 1 := by
    rintro rfl
    exact hgreater (ho _ hpos hk)
  intro ho'
  have hup := ho' k hpos (by simp only [FixedHeap.replaced]; omega)
  simp only [FixedHeap.replaced, Function.update_self,
    Function.update_of_ne (Nat.ne_of_lt hparent)] at hup
  exact hgreater hup

end Order

/-- **`fixed_heap_remove_item` removes the item and keeps the order** exactly if the last item fits the
slot it is put into. -/
theorem removesItem_iff [DecidableEq π] {cmp : π → π → ℤ} (hcmp : IsTotalPreorder cmp)
    {h : FixedHeap κ π} (hby : AnswersBy h.compare cmp) (hwf : h.Wf)
    (ho : HeapOrdered (fun x y => cmp x y ≤ 0) h.heap h.entries) (w : κ) (item : π) :
    RemovesItem cmp h w item ↔ LastFits cmp h item := by
  have hle := hcmp.totalPreorder
  have hA := hby.answers hcmp
  constructor
  · intro hremoves k hk hpos
    by_contra hgreater
    have hmem : item ∈ h.items := hk.2.1 ▸ FixedHeap.heap_mem_items hk.1
    obtain ⟨h', w', hrun, -, -, ho'⟩ := hremoves.present hmem
    obtain ⟨v, hstays⟩ := fixedHeapHeapify_stays hle hA hwf (fun _ _ => trivial) (w := w) trivial ho
      hk.1 hpos hgreater
    rw [fixedHeapRemoveItem_found hwf hk, hstays, Option.map_some] at hrun
    simp only [Option.some.injEq, Prod.mk.injEq, true_and] at hrun
    obtain ⟨rfl, -⟩ := hrun
    exact not_heapOrdered_replaced ho hk.1 hpos hgreater ho'
  · intro hfits
    refine ⟨fun hmem => ?_, fun hmem => fixedHeapRemoveItem_absent hwf hmem w⟩
    obtain ⟨k, hk⟩ : ∃ k, h.FirstAt item k := by
      rcases fixedHeapFindItem_all hwf item with ⟨k, hk, -⟩ | ⟨hnot, -⟩
      · exact ⟨k, hk⟩
      · exact absurd hmem hnot
    obtain ⟨h', w', hrun, hsift, ho'⟩ := fixedHeapHeapify_replaced hle hA hwf (fun _ _ => trivial)
      (w := w) trivial ho hk.1 (hfits k hk)
    have hentries : h'.entries + 1 = h.entries := by
      have hsame := hsift.entries
      simp only [FixedHeap.replaced] at hsame
      have hin := hk.1
      omega
    refine ⟨h', w', ?_, hentries, ?_, ho'⟩
    · rw [fixedHeapRemoveItem_found hwf hk, hrun, Option.map_some]
    · rw [hsift.items, FixedHeap.items_replaced hk.1, hk.2.1]

/-! ## A heap with two unlike branches -/

/-- Pushing 100, 10, 90, 5, 6 and 80 builds this heap. -/
def unlikeBranches : FixedHeap Unit (Option ℕ) where
  heap := fun i => [100, 10, 90, 5, 6, 80][i]?
  allocated := 6
  capacity := 6
  entries := 6
  compare := numbersCallback
  allocated_fits := by decide

theorem compareNumbers_totalPreorder : IsTotalPreorder compareNumbers :=
  ⟨fun x y => by unfold compareNumbers; omega, fun {x y z} hxy hyz => by
    unfold compareNumbers at *; omega⟩

theorem unlikeBranches_ordered :
    HeapOrdered (fun x y => compareNumbers x y ≤ 0) unlikeBranches.heap unlikeBranches.entries := by
  have hslots : ∀ j < 6, 0 < j →
      compareNumbers (unlikeBranches.heap j) (unlikeBranches.heap (parent j)) ≤ 0 := by decide
  exact fun j hpos hj => hslots j hj hpos

/-- The last item goes under the root, where it fits. -/
theorem removesItem_iff_underRoot :
    RemovesItem compareNumbers unlikeBranches () (some 90) := by
  refine (removesItem_iff compareNumbers_totalPreorder (fun _ _ _ => rfl) ⟨le_refl _, le_refl _⟩
    unlikeBranches_ordered () (some 90)).2 fun k hk _ => ?_
  have hslot : k = 2 := hk.unique ⟨by decide, rfl, by decide⟩
  subst hslot
  decide

/-- Removing 5 puts 80, from the other branch, under 10. -/
theorem removeFive_breaks_order :
    some 5 ∈ unlikeBranches.items ∧
    HeapOrdered (fun x y => compareNumbers x y ≤ 0) unlikeBranches.heap unlikeBranches.entries ∧
    ¬ RemovesItem compareNumbers unlikeBranches () (some 5) := by
  have hmem : some 5 ∈ unlikeBranches.items := by decide
  refine ⟨hmem, unlikeBranches_ordered, fun hremoves => ?_⟩
  obtain ⟨h', w', hrun, -, -, ho⟩ := hremoves.present hmem
  have hafter : (fixedHeapRemoveItem unlikeBranches () (some 5)).map
      (fun (_, h, _) => (h.entries, h.heap 1, h.heap 3)) = some (5, some 10, some 80) := by
    decide +kernel
  rw [hrun, Option.map_some, Option.some.injEq] at hafter
  simp only [Prod.mk.injEq] at hafter
  obtain ⟨hentries, hone, hthree⟩ := hafter
  have hup := ho 3 (by decide) (by omega)
  rw [hthree, show parent 3 = 1 from rfl, hone] at hup
  revert hup
  decide

end Tsl
