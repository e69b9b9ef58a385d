import Tsl.FixedHeap.Remove

set_option autoImplicit false

/-! # A fixed heap under any callback

Where a callback answers no order at all, or another one at each call, nothing is known of the order of
the heap. Its items are right still: the sifts stop because they walk along one path of the index tree,
and they only exchange slots. Every call ends, adds or takes the one item it is about, and accesses no
slot beyond the capacity (`itemCall_conserves`).

That no such slot is accessed is said with the block behind the array: a call does the same whatever the
size of the block is, if it has the capacity (`ItemCall.run_inBlock`). -/

namespace Tsl

open Lib

universe u

variable {κ π : Type u}

/-! ## The loop as it is written -/

/-- A pass of the `do` loop of `__fixed_heap_heapify`: `i` and `largest` at its end. After an exchange
    `largest` is `(size_t)-1`. -/
def fixedHeapHeapifyBody (h : FixedHeap κ π) (w : κ) (i : ℕ) :
    Option (FixedHeap κ π × κ × ℕ × ℕ) := do
  let (largest, w) ← fixedHeapLargest h w i
  if largest ≠ i then do
    let h ← fixedHeapSwap h i largest
    some (h, w, largest, noItemOffs)
  else some (h, w, i, largest)

/-- The `do` loop, with at most `n` passes to go. -/
def fixedHeapHeapifyDo : ℕ → FixedHeap κ π → κ → ℕ → Option (FixedHeap κ π × κ)
  | 0, _, _, _ => none
  | n + 1, h, w, i => do
      let (h, w, i, largest) ← fixedHeapHeapifyBody h w i
      if i ≠ largest then fixedHeapHeapifyDo n h w i else some (h, w)

/-- No slot has the number `(size_t)-1`, so the loop goes on exactly after an exchange. There is at most
    one pass for each slot from `idx` on, and one more. -/
theorem fixedHeapHeapifyDo_eq (n : ℕ) :
    ∀ {h : FixedHeap κ π} {w : κ} {i : ℕ}, h.entries ≤ h.allocated → h.entries - i < n →
      fixedHeapHeapifyDo n h w i = fixedHeapHeapify h w i := by
  induction n with
  | zero => exact fun _ hn => absurd hn (Nat.not_lt_zero _)
  | succ n ih =>
      intro h w i hentries hn
      obtain ⟨⟨largest, w'⟩, hl⟩ := fixedHeapLargest_total hentries w i
      rw [fixedHeapHeapify_pass hentries hl, fixedHeapHeapifyDo, fixedHeapHeapifyBody, hl]
      by_cases hne : largest ≠ i
      · obtain ⟨hlt, hin, -⟩ := fixedHeapLargest_below hl hne
        have hsentinel : largest ≠ noItemOffs := by
          have hfits := h.allocated_fits
          unfold noItemOffs
          omega
        have hswap := fixedHeapSwap_eq (h := h) (a := i) (b := largest) (by omega) (by omega)
        simp only [Option.bind_eq_bind, Option.bind_some, if_pos hne, hswap, if_pos hsentinel]
        exact ih hentries (by simp only [FixedHeap.swapped]; omega)
      · simp only [Option.bind_eq_bind, Option.bind_some, if_neg hne]
        rw [if_neg fun heq => hne (Ne.symm heq)]

/-! ## Blocks of any size -/

/-- The heap in a block of `n` slots. -/
def FixedHeap.inBlock (h : FixedHeap κ π) (n : ℕ) (hn : 8 * n < 2 ^ 64) : FixedHeap κ π :=
  { h with allocated := n, allocated_fits := hn }

section Blocks

variable {h : FixedHeap κ π} {n : ℕ} (hn : 8 * n < 2 ^ 64)

theorem FixedHeap.Wf.inBlock (hwf : h.Wf) (hcap : h.capacity ≤ n) : (h.inBlock n hn).Wf :=
  ⟨hwf.entries_le, hcap⟩

theorem fixedHeapInsertLoop_inBlock (i : ℕ) :
    ∀ {h : FixedHeap κ π} {w : κ}, h.entries ≤ h.allocated → h.entries ≤ n → i < h.entries →
      fixedHeapInsertLoop (h.inBlock n hn) w i =
        (fixedHeapInsertLoop h w i).map fun (g, v) => (g.inBlock n hn, v) := by
  induction i using Nat.strong_induction_on with
  | _ i ih =>
    intro h w hentries hblock hi
    rcases Nat.eq_zero_or_pos i with rfl | hpos
    · rw [fixedHeapInsertLoop_zero, fixedHeapInsertLoop_zero]
      rfl
    · have hp := parent_lt hpos
      rw [fixedHeapInsertLoop_pass (h := h) hpos (by omega),
        fixedHeapInsertLoop_pass (h := h.inBlock n hn) hpos (Nat.lt_of_lt_of_le hi hblock)]
      change (if (insertCompare h w i).1 < 0 then
        fixedHeapInsertLoop ((h.swapped i (parent i)).inBlock n hn) _ _ else _) = _
      by_cases hc : (insertCompare h w i).1 < 0
      · rw [if_pos hc, if_pos hc]
        exact ih (parent i) hp hentries hblock (Nat.lt_trans hp hi)
      · rw [if_neg hc, if_neg hc]
        rfl

theorem fixedHeapPick_inBlock (hentries : h.entries ≤ h.allocated) (hblock : h.entries ≤ n) (w : κ)
    {i child : ℕ} (hi : i < child) :
    fixedHeapPick (h.inBlock n hn) w child i = fixedHeapPick h w child i := by
  unfold fixedHeapPick
  by_cases hchild : child < h.entries
  · rw [if_pos hchild, if_pos (show child < (h.inBlock n hn).entries from hchild),
      FixedHeap.load_eq (h := h) (by omega), FixedHeap.load_eq (h := h) (by omega),
      FixedHeap.load_eq (Nat.lt_of_lt_of_le hchild hblock),
      FixedHeap.load_eq (Nat.lt_of_lt_of_le (Nat.lt_trans hi hchild) hblock)]
    rfl
  · rw [if_neg hchild, if_neg (show ¬ child < (h.inBlock n hn).entries from hchild)]

theorem fixedHeapLargest_inBlock (hentries : h.entries ≤ h.allocated) (hblock : h.entries ≤ n)
    (w : κ) (i : ℕ) : fixedHeapLargest (h.inBlock n hn) w i = fixedHeapLargest h w i := by
  have hleft : i < fixedHeapLeft i := by
    rw [fixedHeapLeft_eq]
    omega
  rw [fixedHeapLargest, fixedHeapLargest, fixedHeapPick_inBlock hn hentries hblock w hleft]
  cases hfirst : fixedHeapPick h w (fixedHeapLeft i) i with
  | none => rfl
  | some first =>
      refine fixedHeapPick_inBlock hn hentries hblock _ ?_
      have hmem := fixedHeapPick_mem hfirst
      rw [fixedHeapLeft_eq] at hmem
      rw [fixedHeapRight_eq]
      omega

theorem fixedHeapHeapify_inBlock (k : ℕ) :
    ∀ {h : FixedHeap κ π} {w : κ} {i : ℕ}, h.entries ≤ h.allocated → h.entries ≤ n →
      h.entries - i = k →
      fixedHeapHeapify (h.inBlock n hn) w i =
        (fixedHeapHeapify h w i).map fun (g, v) => (g.inBlock n hn, v) := by
  induction k using Nat.strong_induction_on with
  | _ k ih =>
    intro h w i hentries hblock hk
    obtain ⟨⟨largest, w'⟩, hl⟩ := fixedHeapLargest_total hentries w i
    have hl' := (fixedHeapLargest_inBlock hn hentries hblock w i).trans hl
    rw [fixedHeapHeapify_pass hentries hl, fixedHeapHeapify_pass (h := h.inBlock n hn) hblock hl']
    by_cases hne : largest ≠ i
    · obtain ⟨hlt, hin, -⟩ := fixedHeapLargest_below hl hne
      rw [if_pos hne, if_pos hne]
      exact ih (h.entries - largest) (by omega) (h := h.swapped i largest) hentries hblock rfl
    · rw [if_neg hne, if_neg hne]
      rfl

end Blocks

/-! ## The calls -/

/-- A call of `fixed_heap_push`, `fixed_heap_pop` or `fixed_heap_remove_item`; what is popped goes where
    `item` was. -/
inductive ItemCall (π : Type u) where
  | push (item : π)
  | pop (item : π)
  | removeItem (item : π)

/-- The call, with the item that it was about. -/
def ItemCall.run [VoidPtr π] [DecidableEq π] (h : FixedHeap κ π) (w : κ) :
    ItemCall π → Option (AResult × π × FixedHeap κ π × κ)
  | .push item => (fixedHeapPush h w item).map fun (ret, h, w) => (ret, item, h, w)
  | .pop item => fixedHeapPop h w item
  | .removeItem item => (fixedHeapRemoveItem h w item).map fun (ret, h, w) => (ret, item, h, w)

/-- One item came to the heap. -/
structure Gained (h h' : FixedHeap κ π) (item : π) : Prop where
  entries : h'.entries = h.entries + 1
  items : h'.items = item ::ₘ h.items

/-- What a call is to do: where there is no room, nothing to pop or no such item, it says so and leaves
    the heap alone; else its item comes or goes, once. -/
def ItemCall.Effect (h : FixedHeap κ π) (ret : AResult) (item : π) (h' : FixedHeap κ π) :
    ItemCall π → Prop
  | .push new => item = new ∧
      (h.capacity ≤ h.entries ∧ ret = aENospc ∧ h' = h ∨
        h.entries < h.capacity ∧ ret = aOk ∧ Gained h h' item)
  | .pop _ => h.entries = 0 ∧ ret = aEEmpty ∧ h' = h ∨
      0 < h.entries ∧ ret = aOk ∧ item = h.heap 0 ∧ Gained h' h item
  | .removeItem old => item = old ∧
      (old ∉ h.items ∧ ret = aENotfound ∧ h' = h ∨ old ∈ h.items ∧ ret = aOk ∧ Gained h' h item)

section Calls

theorem keepsWorld_true (compare : HeapCompare κ π) : KeepsWorld compare fun _ => True :=
  fun _ _ _ _ => trivial

variable [VoidPtr π] [DecidableEq π] {h : FixedHeap κ π}

/-- Every call ends in the array, and does what it is to do. -/
theorem ItemCall.run_spec (hwf : h.Wf) (w : κ) (c : ItemCall π) :
    ∃ ret item h' w', c.run h w = some (ret, item, h', w') ∧ SameArray h h' ∧ h'.Wf ∧
      c.Effect h ret item h' := by
  have hent := hwf.entries_le
  cases c with
  | push new =>
      rcases Nat.lt_or_ge h.entries h.capacity with hroom | hfull
      · obtain ⟨h', w', hrun, hsame, hentries, hitems, -⟩ :=
          fixedHeapPush_conserves (keepsWorld_true _) hwf hroom (w := w) trivial new
        exact ⟨aOk, new, h', w', by rw [ItemCall.run, hrun, Option.map_some], hsame,
          hsame.wf hwf (by omega), rfl, .inr ⟨hroom, rfl, hentries, hitems⟩⟩
      · exact ⟨aENospc, new, h, w, by rw [ItemCall.run, fixedHeapPush_full hfull, Option.map_some],
          ⟨rfl, rfl, rfl⟩, hwf, rfl, .inl ⟨hfull, rfl, rfl⟩⟩
  | pop item =>
      rcases Nat.eq_zero_or_pos h.entries with hzero | hne
      · exact ⟨aEEmpty, item, h, w, if_pos hzero, ⟨rfl, rfl, rfl⟩, hwf, .inl ⟨hzero, rfl, rfl⟩⟩
      · obtain ⟨h', w', hrun, hsame, hentries, hitems, -⟩ :=
          fixedHeapPop_conserves (keepsWorld_true _) hwf hne (w := w) trivial item
        exact ⟨aOk, h.heap 0, h', w', hrun, hsame, hsame.wf hwf (by omega),
          .inr ⟨hne, rfl, rfl, hentries.symm, hitems⟩⟩
  | removeItem old =>
      by_cases hold : old ∈ h.items
      · obtain ⟨h', w', hrun, hsame, hentries, hitems, -⟩ :=
          fixedHeapRemoveItem_conserves (keepsWorld_true _) hwf (w := w) trivial hold
        exact ⟨aOk, old, h', w', by rw [ItemCall.run, hrun, Option.map_some], hsame,
          hsame.wf hwf (by omega), rfl, .inr ⟨hold, rfl, hentries.symm, hitems⟩⟩
      · exact ⟨aENotfound, old, h, w, by
          rw [ItemCall.run, fixedHeapRemoveItem_absent hwf hold, Option.map_some],
          ⟨rfl, rfl, rfl⟩, hwf, rfl, .inl ⟨hold, rfl, rfl⟩⟩

/-- A call does the same in any block that has the capacity. -/
theorem ItemCall.run_inBlock (hwf : h.Wf) (w : κ) (c : ItemCall π) {n : ℕ} (hn : 8 * n < 2 ^ 64)
    (hcap : h.capacity ≤ n) :
    c.run (h.inBlock n hn) w =
      (c.run h w).map fun (ret, item, g, v) => (ret, item, g.inBlock n hn, v) := by
  have hent := hwf.entries_le
  have hwf' : (h.inBlock n hn).Wf := hwf.inBlock hn hcap
  have halloc := hwf.capacity_le
  cases c with
  | push new =>
      rcases Nat.lt_or_ge h.entries h.capacity with hroom | hfull
      · have hloop := fixedHeapInsertLoop_inBlock hn h.entries
          (h := h.appended new) (w := w) (by simp only [FixedHeap.appended]; omega)
          (by simp only [FixedHeap.appended]; omega) (Nat.lt_succ_self _)
        simp only [ItemCall.run]
        rw [fixedHeapPush_eq hwf hroom, fixedHeapPush_eq hwf' hroom]
        change ((fixedHeapInsertLoop ((h.appended new).inBlock n hn) w h.entries).map _).map _ = _
        rw [hloop]
        simp only [Option.map_map]
        rfl
      · simp only [ItemCall.run]
        rw [fixedHeapPush_full hfull, fixedHeapPush_full (h := h.inBlock n hn) hfull]
        rfl
  | pop item =>
      rcases Nat.eq_zero_or_pos h.entries with hzero | hne
      · simp only [ItemCall.run]
        rw [fixedHeapPop, fixedHeapPop, if_pos hzero,
          if_pos (show (h.inBlock n hn).entries = 0 from hzero)]
        rfl
      · have hloop := fixedHeapHeapify_inBlock hn _ (h := h.beheaded) (w := w)
          (i := 0) (by simp only [FixedHeap.beheaded]; omega)
          (by simp only [FixedHeap.beheaded]; omega) rfl
        simp only [ItemCall.run]
        rw [fixedHeapPop_eq hwf hne, fixedHeapPop_eq hwf' hne]
        change (fixedHeapHeapify (h.beheaded.inBlock n hn) w 0).map _ = _
        rw [hloop, Option.map_map, Option.map_map]
        rfl
  | removeItem old =>
      simp only [ItemCall.run]
      rcases fixedHeapFindItem_all hwf old with ⟨k, hk, -⟩ | ⟨hnot, -⟩
      · have hloop := fixedHeapHeapify_inBlock hn _ (h := h.replaced k) (w := w)
          (i := k) (FixedHeap.replaced_fits hwf) (by simp only [FixedHeap.replaced]; omega) rfl
        rw [fixedHeapRemoveItem_found hwf hk,
          fixedHeapRemoveItem_found hwf' (show (h.inBlock n hn).FirstAt old k from hk)]
        change ((fixedHeapHeapify ((h.replaced k).inBlock n hn) w k).map _).map _ = _
        rw [hloop]
        simp only [Option.map_map]
        rfl
      · rw [fixedHeapRemoveItem_absent hwf hnot,
          fixedHeapRemoveItem_absent (h := h.inBlock n hn) hwf' hnot]
        rfl

/-- One call of a sequence of calls. -/
def itemStep (s : FixedHeap κ π × κ) (c : ItemCall π) : Option (FixedHeap κ π × κ) :=
  (c.run s.1 s.2).map fun (_, _, h, w) => (h, w)

/-- Calls in any number end, each in the array, and never use more than its capacity. -/
theorem itemRun_total (calls : List (ItemCall π)) :
    ∀ {s : FixedHeap κ π × κ}, s.1.Wf →
      ∃ s', exec itemStep s calls = some s' ∧ s'.1.Wf ∧ s'.1.capacity = s.1.capacity := by
  induction calls with
  | nil => exact fun {s} hwf => ⟨s, rfl, hwf, rfl⟩
  | cons c calls ih =>
      intro s hwf
      obtain ⟨ret, item, h', w', hrun, hsame, hwf', -⟩ := ItemCall.run_spec hwf s.2 c
      have hstep : itemStep s c = some (h', w') := by rw [itemStep, hrun, Option.map_some]
      obtain ⟨s', hexec, hend, hcap⟩ := ih (s := (h', w')) hwf'
      exact ⟨s', exec_cons_eq_some.2 ⟨_, hstep, hexec⟩, hend, hcap.trans hsame.capacity⟩

/-- **A fixed heap under any callback**: every call ends, and accesses no slot beyond the capacity, as
it does the same in every block that has no more than that. What is in use fits the capacity after it,
and the items are those before it with the item that the call was about added or taken away, once. -/
theorem itemCall_conserves (hwf : h.Wf) (w : κ) (c : ItemCall π) :
    ∃ ret item h' w',
      (∀ (n : ℕ) (hn : 8 * n < 2 ^ 64), h.capacity ≤ n →
        c.run (h.inBlock n hn) w = some (ret, item, h'.inBlock n hn, w')) ∧
      c.run h w = some (ret, item, h', w') ∧ h'.capacity = h.capacity ∧
      h'.entries ≤ h'.capacity ∧ c.Effect h ret item h' := by
  obtain ⟨ret, item, h', w', hrun, hsame, hwf', heffect⟩ := ItemCall.run_spec hwf w c
  refine ⟨ret, item, h', w', fun n hn hcap => ?_, hrun, hsame.capacity, hwf'.entries_le, heffect⟩
  rw [ItemCall.run_inBlock hwf w c hn hcap, hrun, Option.map_some]

end Calls

/-- A callback that calls its items greater and less by turns. -/
def moody : HeapCompare ℕ (Option ℕ) := fun calls _ _ => (if calls % 2 = 0 then 1 else -1, calls + 1)

theorem sixSlots_fit : 8 * 6 < 2 ^ 64 := by decide

/-- Five items in an array of six, under that callback. -/
def moodyHeap : FixedHeap ℕ (Option ℕ) where
  heap := fun i => [3, 1, 4, 1, 5][i]?
  allocated := 6
  capacity := 6
  entries := 5
  compare := moody
  allocated_fits := sixSlots_fit

theorem itemCall_conserves_moody :
    ∃ ret item h' w',
      (∀ (n : ℕ) (hn : 8 * n < 2 ^ 64), 6 ≤ n →
        ItemCall.run (moodyHeap.inBlock n hn) 0 (.removeItem (some 1)) =
          some (ret, item, h'.inBlock n hn, w')) ∧
      ItemCall.run moodyHeap 0 (.removeItem (some 1)) = some (ret, item, h', w') ∧
      h'.capacity = moodyHeap.capacity ∧ h'.entries ≤ h'.capacity ∧
      ItemCall.Effect moodyHeap ret item h' (.removeItem (some 1)) :=
  itemCall_conserves (h := moodyHeap) ⟨by decide, by decide⟩ 0 (.removeItem (some 1))

end Tsl
