import Tsl.Alloc.Logalloc.Chain

set_option autoImplicit false

/-! # Live allocations of the log allocator

No two live allocations should share a cell (`LiveDisjoint`). The allocator keeps that up as long as
the header chain starts a block at every live allocation (`LiveOk`). Two steps of `logalloc_alloc` can
break the chain. A request that goes around the end turns everything from the log head on
into one free block, before it is known whether there is room elsewhere; and a request of almost
`2^64` bytes is taken for no cells, and its block says that it goes up to the end. Both are harmless
when no live allocation lies at or behind the log head (`TailClear`), which is the condition of
`liveDisjoint_of_meets`. `liveDisjoint_fails` is a run that breaks it. -/

namespace Tsl

open Lib

/-- Live allocations lie in the region and share no cell. -/
structure LiveDisjoint (s : LogallocRun) : Prop where
  inside : ∀ b ∈ s.live, b.start + b.nrCells ≤ s.heap.nrCells
  disjoint : s.live.Pairwise fun b c =>
    b.start + b.nrCells ≤ c.start ∨ c.start + c.nrCells ≤ b.start

/-- No live allocation lies at or behind the log head. -/
def TailClear (s : LogallocRun) : Prop := ∀ b ∈ s.live, b.start < s.heap.logHead

/-- The request is for more cells than there are from the log head to the end, but not for so many
    that it is refused at once. -/
def GoesAround (a : Logalloc) (size : BitVec 64) : Prop :=
  logallocReqCells a size ≤ 255 ∧ logallocReqCells a size ≤ a.nrCells ∧
    a.nrCells - a.logHead < logallocReqCells a size

/-- The condition on a call: where an allocation finds the log head free, and its request goes around
    the end, or is for no cells because its size wrapped, the tail is clear. -/
def TailClearIfNeeded (s : LogallocRun) : LogallocCall → Prop
  | .alloc size =>
      size ≠ 0 → s.heap.loadRefcnt (s.heap.logHead * s.heap.cellSize) = some 0 →
        (logallocReqCells s.heap size = 0 ∨ GoesAround s.heap size) → TailClear s
  | _ => True

instance (s : LogallocRun) : Decidable (TailClear s) :=
  inferInstanceAs (Decidable (∀ b ∈ s.live, b.start < s.heap.logHead))

instance (a : Logalloc) (size : BitVec 64) : Decidable (GoesAround a size) :=
  inferInstanceAs (Decidable (_ ∧ _ ∧ _))

instance (s : LogallocRun) : (c : LogallocCall) → Decidable (TailClearIfNeeded s c)
  | .alloc _ => inferInstanceAs (Decidable (_ → _ → _ → TailClear s))
  | .reference _ => inferInstanceAs (Decidable True)
  | .free _ => inferInstanceAs (Decidable True)
  | .write _ _ => inferInstanceAs (Decidable True)

/-- The live allocations are the blocks of the chain that are referenced, with the references held
    on them. -/
structure LiveOk (a : Logalloc) (starts : Set ℕ) (live : List LiveBlock) : Prop where
  start_mem : ∀ b ∈ live, b.start ∈ starts
  nr_eq : ∀ b ∈ live, a.nrAt b.start = b.nrCells
  ref_eq : ∀ b ∈ live, a.refAt b.start = b.refs ∧ 0 < b.refs
  free : ∀ c ∈ starts, (∀ b ∈ live, b.start ≠ c) → a.refAt c = 0
  nodup : (live.map LiveBlock.start).Nodup

/-- The invariant of a run. -/
def LogallocRun.Inv (s : LogallocRun) : Prop :=
  ∃ starts, s.heap.Chain starts ∧ LiveOk s.heap starts s.live

theorem LogallocRun.Inv.liveDisjoint {s : LogallocRun} (h : s.Inv) : LiveDisjoint s := by
  obtain ⟨starts, hC, hL⟩ := h
  have hlen : ∀ b ∈ s.live, b.nrCells ≤ s.heap.lenAt b.start := by
    intro b hb
    have := hL.nr_eq b hb
    unfold Logalloc.lenAt
    split <;> omega
  constructor
  · intro b hb
    have := hC.tiling.end_le (hL.start_mem b hb)
    have := hlen b hb
    omega
  · have hne : s.live.Pairwise fun b c => b.start ≠ c.start := List.pairwise_map.1 hL.nodup
    refine hne.imp_of_mem ?_
    intro b c hb hc hbc
    have hb' := hlen b hb
    have hc' := hlen c hc
    rcases Nat.lt_or_gt_of_ne hbc with hlt | hgt
    · have := hC.tiling.gap _ (hL.start_mem b hb) _ (hL.start_mem c hc) hlt
      omega
    · have := hC.tiling.gap _ (hL.start_mem c hc) _ (hL.start_mem b hb) hgt
      omega

/-- No header of the chain is in a payload: it would be of a block that starts inside this one. -/
theorem LiveOk.header_ne {a : Logalloc} {starts : Set ℕ} {live : List LiveBlock}
    (hL : LiveOk a starts live) (hC : a.Chain starts) {b : LiveBlock} (hb : b ∈ live) {addr : ℕ}
    (howns : b.owns a addr) {c r : ℕ} (hc : c ∈ starts) (hr : r < 2) : c * a.cellSize + r ≠ addr := by
  obtain ⟨hlo, hhi⟩ := howns
  have hlen : b.nrCells ≤ a.lenAt b.start := by
    rw [Logalloc.lenAt, hL.nr_eq b hb]
    split <;> omega
  have hcell := hC.shape.cell
  intro heq
  rw [Logalloc.ptrOf] at hlo
  have hlt : b.start < c := by
    by_contra hle
    have := Nat.mul_le_mul_right a.cellSize (Nat.le_of_not_lt hle)
    omega
  have hgap := hC.tiling.gap _ (hL.start_mem b hb) c hc hlt
  have := Nat.mul_le_mul_right a.cellSize (show b.start + b.nrCells ≤ c by omega)
  omega

/-! ## Allocations -/

section Alloc

variable {a a' : Logalloc} {starts : Set ℕ} {live : List LiveBlock} {w e r ref : ℕ}

/-- Blocks that were gathered are not live. -/
theorem LiveOk.clear_of_gathered {i : ℕ} (hL : LiveOk a starts live)
    (hG : Gathered a starts w i) : ∀ b ∈ live, ¬ (w ≤ b.start ∧ b.start < w + i) := by
  rintro b hb ⟨hle, hlt⟩
  have hzero := hG.free _ (hL.start_mem b hb) hle hlt
  have := hL.ref_eq b hb
  omega

/-- Rewriting blocks none of which is live keeps the live ones, and leaves nothing else referenced
    but the block that is written. -/
theorem LiveOk.rewritten (hL : LiveOk a starts live) (hR : Rewritten a a' w e r ref)
    (hclear : ∀ b ∈ live, ¬ (w ≤ b.start ∧ b.start < e)) :
    (∀ b ∈ live, b.start ∈ resplit starts w e r ∧ a'.nrAt b.start = b.nrCells ∧
      a'.refAt b.start = b.refs ∧ 0 < b.refs) ∧
    ∀ c ∈ resplit starts w e r, c ≠ w → (∀ b ∈ live, b.start ≠ c) → a'.refAt c = 0 := by
  constructor
  · intro b hb
    have hout := hclear b hb
    obtain ⟨hnr, href⟩ := hR.frame b.start hout
    refine ⟨mem_resplit_of_outside (hL.start_mem b hb) (by omega), ?_⟩
    rw [hnr, href]
    exact ⟨hL.nr_eq b hb, hL.ref_eq b hb⟩
  · rintro c (⟨hc, hout⟩ | ⟨rfl, hlt⟩) hne hnot
    · rw [(hR.frame c (by omega)).2]
      exact hL.free c hc hnot
    · exact (hR.rest hlt).1

theorem LiveOk.merge (hL : LiveOk a starts live) (hR : Rewritten a a' w e r 0)
    (hclear : ∀ b ∈ live, ¬ (w ≤ b.start ∧ b.start < e)) :
    LiveOk a' (resplit starts w e r) live := by
  obtain ⟨hold, hfree⟩ := hL.rewritten hR hclear
  refine ⟨fun b hb => (hold b hb).1, fun b hb => (hold b hb).2.1, fun b hb => (hold b hb).2.2, ?_,
    hL.nodup⟩
  intro c hc hnot
  by_cases hcw : c = w
  · exact hcw ▸ hR.ref_eq
  · exact hfree c hc hcw hnot

/-- The block that is handed out goes live. -/
theorem LiveOk.handOut (hL : LiveOk a starts live) (hR : Rewritten a a' w e r 1)
    (hw : w ∈ starts) (hwe : w < e) (hclear : ∀ b ∈ live, ¬ (w ≤ b.start ∧ b.start < e)) :
    LiveOk a' (resplit starts w e r) ({ start := w, nrCells := a'.nrAt w, refs := 1 } :: live) := by
  obtain ⟨hold, hfree⟩ := hL.rewritten hR hclear
  have hw' : w ∈ resplit starts w e r := mem_resplit_of_outside hw (by omega)
  constructor
  · exact List.forall_mem_cons.2 ⟨hw', fun b hb => (hold b hb).1⟩
  · exact List.forall_mem_cons.2 ⟨rfl, fun b hb => (hold b hb).2.1⟩
  · exact List.forall_mem_cons.2 ⟨⟨hR.ref_eq, Nat.one_pos⟩, fun b hb => (hold b hb).2.2⟩
  · intro c hc hnot
    obtain ⟨hcw, hnot'⟩ := List.forall_mem_cons.1 hnot
    exact hfree c hc (Ne.symm hcw) hnot'
  · refine List.nodup_cons.2 ⟨fun hmem => ?_, hL.nodup⟩
    obtain ⟨b, hb, hbw⟩ := List.mem_map.1 hmem
    have hstart : b.start = w := hbw
    exact hclear b hb (by omega)

theorem inv_handOut (hC : a.Chain starts) (hL : LiveOk a starts live)
    (hR : Rewritten a a' w e r 1) (hw : w ∈ starts) (he : e = a.nrCells ∨ e ∈ starts) (hr : 0 < r)
    (hre : w + r ≤ e) (hclear : ∀ b ∈ live, ¬ (w ≤ b.start ∧ b.start < e))
    (hhead : a'.logHead = w ∨ a'.logHead = (w + r) % a.nrCells) :
    LogallocRun.Inv
      { heap := a', live := { start := w, nrCells := a'.nrAt w, refs := 1 } :: live } := by
  have hT := hR.tiling hC.tiling hw he hr hre
  refine ⟨resplit starts w e r, ⟨hR.same.shape hC.shape, hT, ?_⟩,
    hL.handOut hR hw (by omega) hclear⟩
  rcases hhead with hhead | hhead
  · rw [hhead]
    exact mem_resplit_of_outside hw (by omega)
  · rw [hhead]
    exact head_mem_resplit hC.tiling he hre

/-- What `logallocCarve` hands out is a block of the state after. -/
theorem inv_carve (hC : a.Chain starts) (hL : LiveOk a starts live) (hw : w ∈ starts) (req : ℕ)
    (hreq : w + req ≤ a.nrCells) (hmax : req ≤ 255)
    (hclear : req = 0 → w = a.logHead ∧ ∀ b ∈ live, b.start < w) :
    ∃ ret pptr a', logallocCarve a a.nrCells w req = some (ret, pptr, a') ∧
      a.SameCells a' ∧
      ((pptr = none ∧ a' = a) ∨ (pptr = some (a.ptrOf w) ∧ LogallocRun.Inv
        { heap := a', live := { start := w, nrCells := a'.nrAt w, refs := 1 } :: live })) := by
  have hwlt := hC.tiling.lt w hw
  rcases Nat.eq_zero_or_pos req with rfl | hpos
  · obtain ⟨a', hcarve, hR, -, hhead⟩ := logallocCarve_zero hC.shape hwlt
    refine ⟨_, _, a', hcarve, hR.same, .inr ⟨rfl, ?_⟩⟩
    refine inv_handOut hC hL hR hw (.inl rfl) (by omega) (by omega) ?_ (.inl hhead)
    intro b hb
    have := (hclear rfl).2 b hb
    omega
  · rcases logallocCarve_spec hC.shape hC.tiling hw hreq hpos hmax with
      ⟨hfail, -⟩ | ⟨i, a', hcarve, hG, hle, hR, -, hhead⟩
    · exact ⟨_, _, a, hfail, ⟨rfl, rfl⟩, .inl ⟨rfl, rfl⟩⟩
    · refine ⟨_, _, a', hcarve, hR.same, .inr ⟨rfl, ?_⟩⟩
      exact inv_handOut hC hL hR hw hG.boundary hpos (by omega) (hL.clear_of_gathered hG)
        (.inr hhead)

/-- An allocation whose tail is clear if it needs it: it fails, or hands out a block. -/
theorem logallocAlloc_spec {s : LogallocRun} (hI : s.Inv) (size : BitVec 64)
    (hclear : TailClearIfNeeded s (.alloc size)) :
    ∃ ret pptr a', logallocAlloc s.heap size none = some (ret, pptr, a') ∧
      s.heap.SameCells a' ∧
      ((pptr = none ∧ LogallocRun.Inv { heap := a', live := s.live }) ∨
        ∃ w, w < s.heap.nrCells ∧ pptr = some (s.heap.ptrOf w) ∧ LogallocRun.Inv
          { heap := a', live := { start := w, nrCells := a'.nrAt w, refs := 1 } :: s.live }) := by
  obtain ⟨starts, hC, hL⟩ := hI
  set a := s.heap
  have hhead := hC.tiling.lt _ hC.head
  have hunchanged : LogallocRun.Inv { heap := a, live := s.live } := ⟨starts, hC, hL⟩
  have hsame : a.SameCells a := ⟨rfl, rfl⟩
  unfold logallocAlloc
  split
  · exact ⟨_, _, a, rfl, hsame, .inl ⟨rfl, hunchanged⟩⟩
  · next hsize =>
    simp only
    split
    · exact ⟨_, _, a, rfl, hsame, .inl ⟨rfl, hunchanged⟩⟩
    · next hbig =>
      rw [not_or, Nat.not_lt, Nat.not_lt] at hbig
      simp only [loadRefcnt_eq hC.shape hhead, Option.bind_eq_bind, Option.bind_some]
      split
      · exact ⟨_, _, a, rfl, hsame, .inl ⟨rfl, hunchanged⟩⟩
      · next href =>
        have hload : a.loadRefcnt (a.logHead * a.cellSize) = some 0 := by
          rw [loadRefcnt_eq hC.shape hhead]
          simpa using href
        have htail := hclear hsize hload
        split
        · next hwrap =>
          have hbehind : ∀ b ∈ s.live, b.start < a.logHead := htail (.inr ⟨hbig.1, hbig.2, hwrap⟩)
          obtain ⟨a₁, hset, hhead₁, hR⟩ := setHeader_tail hC.shape hhead (by omega)
          have hT₁ := hR.tiling hC.tiling hC.head (.inl rfl) (by omega) (by omega)
          have hC₁ : a₁.Chain (resplit starts a.logHead a.nrCells (a.nrCells - a.logHead)) :=
            ⟨hR.same.shape hC.shape, hT₁,
              by rw [hhead₁]; exact mem_resplit_of_outside hC.head (by omega)⟩
          have hL₁ := hL.merge hR (fun b hb => by have := hbehind b hb; omega)
          obtain ⟨ret, pptr, a', hcarve, hsame', hcase⟩ := inv_carve hC₁ hL₁ hT₁.zero_mem
            (logallocReqCells a size) (by rw [hR.same.nrCells]; omega) hbig.1
            (fun h0 => absurd hwrap (by omega))
          rw [hR.same.nrCells] at hcarve
          refine ⟨ret, pptr, a', by rw [hset, Option.bind_some]; exact hcarve,
            hR.same.trans hsame', ?_⟩
          rcases hcase with ⟨hnone, rfl⟩ | ⟨hsome, hI'⟩
          · exact .inl ⟨hnone, _, hC₁, hL₁⟩
          · refine .inr ⟨0, hC.shape.pos, ?_, hI'⟩
            rw [hsome, Logalloc.ptrOf, Logalloc.ptrOf, hR.same.cellSize]
        · next hfits =>
          obtain ⟨ret, pptr, a', hcarve, hsame', hcase⟩ := inv_carve hC hL hC.head
            (logallocReqCells a size) (by omega) hbig.1
            (fun h0 => ⟨rfl, htail (.inl h0)⟩)
          refine ⟨ret, pptr, a', hcarve, hsame', ?_⟩
          rcases hcase with ⟨hnone, rfl⟩ | ⟨hsome, hI'⟩
          · exact .inl ⟨hnone, hunchanged⟩
          · exact .inr ⟨a.logHead, hhead, hsome, hI'⟩

end Alloc

/-! ## The other calls -/

section Steps

variable {a a' : Logalloc} {starts : Set ℕ} {live : List LiveBlock} {cell : ℕ}

/-- The live allocations after the count of references on one cell became `f` of what it was: those
    without references are live no longer. -/
def adjust (live : List LiveBlock) (cell : ℕ) (f : ℕ → ℕ) : List LiveBlock :=
  (live.map fun b => if b.start = cell then { b with refs := f b.refs } else b).filter
    fun b => b.refs ≠ 0

theorem mem_adjust {f : ℕ → ℕ} {b' : LiveBlock} :
    b' ∈ adjust live cell f ↔
      (∃ b ∈ live, b.start = cell ∧ { b with refs := f b.refs } = b' ∧ f b.refs ≠ 0) ∨
        (b' ∈ live ∧ b'.start ≠ cell ∧ b'.refs ≠ 0) := by
  simp only [adjust, List.mem_filter, List.mem_map, decide_eq_true_eq]
  constructor
  · rintro ⟨⟨b, hb, rfl⟩, hrefs⟩
    split at hrefs
    · next hcell => exact .inl ⟨b, hb, hcell, by rw [if_pos hcell], hrefs⟩
    · next hcell =>
      rw [if_neg hcell]
      exact .inr ⟨hb, hcell, hrefs⟩
  · rintro (⟨b, hb, hcell, rfl, hrefs⟩ | ⟨hb, hcell, hrefs⟩)
    · exact ⟨⟨b, hb, if_pos hcell⟩, hrefs⟩
    · exact ⟨⟨b', hb, if_neg hcell⟩, hrefs⟩

/-- Changing the reference count of a cell, and of the live allocation there. -/
theorem LiveOk.adjust (hL : LiveOk a starts live) (f : ℕ → ℕ) (hnr : ∀ c, a'.nrAt c = a.nrAt c)
    (href : ∀ c, c ≠ cell → a'.refAt c = a.refAt c)
    (hcell : ∀ b ∈ live, b.start = cell → a'.refAt cell = f b.refs)
    (hlive : cell ∈ starts → ∃ b ∈ live, b.start = cell) :
    LiveOk a' starts (Tsl.adjust live cell f) := by
  constructor
  · intro b' hb'
    rcases mem_adjust.1 hb' with ⟨b, hb, -, rfl, -⟩ | ⟨hb, -⟩
    · exact hL.start_mem b hb
    · exact hL.start_mem b' hb
  · intro b' hb'
    rw [hnr]
    rcases mem_adjust.1 hb' with ⟨b, hb, -, rfl, -⟩ | ⟨hb, -⟩
    · exact hL.nr_eq b hb
    · exact hL.nr_eq b' hb
  · intro b' hb'
    rcases mem_adjust.1 hb' with ⟨b, hb, rfl, rfl, hrefs⟩ | ⟨hb, hne, -⟩
    · exact ⟨hcell b hb rfl, Nat.pos_of_ne_zero hrefs⟩
    · rw [href _ hne]
      exact hL.ref_eq b' hb
  · intro c hc hnot
    by_cases hcc : c = cell
    · subst hcc
      obtain ⟨b, hb, rfl⟩ := hlive hc
      rw [hcell b hb rfl]
      by_contra hrefs
      exact hnot _ (mem_adjust.2 (.inl ⟨b, hb, rfl, rfl, hrefs⟩)) rfl
    · rw [href c hcc]
      refine hL.free c hc fun b hb hbc => ?_
      have hrefs := (hL.ref_eq b hb).2
      exact hnot b (mem_adjust.2 (.inr ⟨hb, by omega, by omega⟩)) hbc
  · refine List.Nodup.sublist (List.Sublist.map _ List.filter_sublist) ?_
    rw [List.map_map]
    refine (List.map_congr_left fun b _ => ?_) ▸ hL.nodup
    simp only [Function.comp_apply]
    split <;> rfl

/-- A step that only changes the reference count of a cell. -/
theorem inv_adjust {s : LogallocRun} (hC : s.heap.Chain starts) (hL : LiveOk s.heap starts s.live)
    (hcell : cell < s.heap.nrCells) (val : BitVec 8) (f : ℕ → ℕ)
    (hval : ∀ b ∈ s.live, b.start = cell → val.toNat = f b.refs)
    (hlive : cell ∈ starts → ∃ b ∈ s.live, b.start = cell) :
    ∃ a', s.heap.store (cell * s.heap.cellSize + 1) val = some a' ∧
      LogallocRun.Inv { heap := a', live := adjust s.live cell f } := by
  obtain ⟨a', hstore, hsame, hhead, hnr, href, hbyte⟩ :=
    store_spec (hC.shape.header_lt hcell) val
  have hc := hC.shape.cell
  have hnr' : ∀ c, a'.nrAt c = s.heap.nrAt c := by
    intro c
    refine hnr c fun heq => ?_
    have := ((cell_byte_inj 0 1 (by omega) (by omega)).1 heq).2
    omega
  have href' : ∀ c, c ≠ cell → a'.refAt c = s.heap.refAt c := by
    intro c hne
    refine href c fun heq => hne ?_
    exact ((cell_byte_inj 1 1 (by omega) (by omega)).1 heq).1
  have hrefcell : a'.refAt cell = val.toNat := by
    rw [Logalloc.refAt, hsame.cellSize, hbyte]
  refine ⟨a', hstore, starts, ⟨hsame.shape hC.shape, ?_, hhead ▸ hC.head⟩, ?_⟩
  · rw [hsame.nrCells]
    exact hC.tiling.congr fun b _ => hsame.lenAt (hnr' b)
  · exact hL.adjust f hnr' href' (fun b hb hbc => hrefcell.trans (hval b hb hbc)) hlive

/-- An allocation keeps the invariant, if the tail is clear where it has to be, and hands out nothing or
    one block. -/
theorem alloc_spec {s s' : LogallocRun} (hI : s.Inv) {size : BitVec 64}
    (hG : TailClearIfNeeded s (.alloc size)) (hstep : logallocStep s (.alloc size) = some s') :
    s'.Inv ∧ (s'.live = s.live ∨ ∃ b, s'.live = b :: s.live) ∧
      ∃ ret pptr, logallocAlloc s.heap size none = some (ret, pptr, s'.heap) := by
  obtain ⟨ret, pptr, a', halloc, hsame, hcase⟩ := logallocAlloc_spec hI size hG
  simp only [logallocStep, halloc, Option.bind_eq_bind, Option.bind_some] at hstep
  rcases hcase with ⟨rfl, hI'⟩ | ⟨w, hw, rfl, hI'⟩
  · simp only [Option.some.injEq] at hstep
    rw [← hstep]
    exact ⟨hI', .inl rfl, _, _, halloc⟩
  · obtain ⟨starts, hC, -⟩ := id hI'
    have hchdr : s.heap.ptrOf w - 2 = w * a'.cellSize := by
      rw [Logalloc.ptrOf, Nat.add_sub_cancel, hsame.cellSize]
    have hcell : 2 ≤ a'.cellSize := hC.shape.cell
    simp only [hchdr] at hstep
    rw [loadNrCells_eq (a := a') hC.shape (hsame.nrCells.symm ▸ hw), Option.bind_some,
      Nat.mul_div_cancel _ (by omega), Option.some.injEq] at hstep
    rw [← hstep]
    exact ⟨hI', .inr ⟨_, rfl⟩, _, _, halloc⟩

/-- A reference is refused, or one more is held on the allocation there, if there is one. -/
theorem reference_spec {s s' : LogallocRun} (hI : s.Inv)
    (hstep : logallocStep s (.reference cell) = some s') :
    s'.Inv ∧ (s'.live = s.live ∨ s'.live = adjust s.live cell (· + 1)) ∧
      ∃ ret, logallocReference s.heap (s.heap.ptrOf cell) = some (ret, s'.heap) := by
  obtain ⟨starts, hC, hL⟩ := id hI
  have hbusy : aEBusy ≠ aOk := aresultError_ne_aOk _ _
  simp only [logallocStep] at hstep
  split at hstep
  · next hcell =>
    have hcall : ∀ out, logallocReference s.heap (s.heap.ptrOf cell) = some out ↔
        (if s.heap.rgn (cell * s.heap.cellSize + 1) = 255 ∨ s.heap.rgn (cell * s.heap.cellSize + 1) = 0
        then some (aEBusy, s.heap)
        else (s.heap.store (cell * s.heap.cellSize + 1)
          (s.heap.rgn (cell * s.heap.cellSize + 1) + 1)).bind fun a => some (aOk, a)) = some out := by
      intro out
      simp only [logallocReference, Logalloc.ptrOf, Nat.add_sub_cancel, loadRefcnt_eq hC.shape hcell,
        Option.bind_eq_bind, Option.bind_some]
    simp only [logallocReference, Logalloc.ptrOf, Nat.add_sub_cancel, loadRefcnt_eq hC.shape hcell,
      Option.bind_eq_bind, Option.bind_some] at hstep
    split at hstep
    · next hcount =>
      simp only [Option.bind_some, hbusy, and_false, if_false, List.map_id_fun', id_eq,
        Option.some.injEq] at hstep
      exact hstep ▸ ⟨hI, .inl rfl, _, (hcall _).2 (if_pos hcount)⟩
    · next hcount =>
      rw [not_or] at hcount
      set refcnt := s.heap.rgn (cell * s.heap.cellSize + 1) with hrefcnt
      have hval : (refcnt + 1).toNat = refcnt.toNat + 1 := by
        have hne : refcnt.toNat ≠ 255 := fun h => hcount.1 (BitVec.eq_of_toNat_eq h)
        rw [BitVec.toNat_add]
        have := refcnt.isLt
        simp only [BitVec.reduceToNat]
        omega
      -- a block that is referenced is live
      have hlive : cell ∈ starts → ∃ b ∈ s.live, b.start = cell := by
        intro hmem
        by_contra hnone
        refine hcount.2 (BitVec.eq_of_toNat_eq ?_)
        exact hL.free cell hmem fun b hb hbc => hnone ⟨b, hb, hbc⟩
      obtain ⟨a', hstore, hI'⟩ := inv_adjust hC hL hcell (refcnt + 1) (· + 1)
        (fun b hb hbc => by rw [hval, hrefcnt, ← (hL.ref_eq b hb).1, hbc]; rfl) hlive
      have hall : adjust s.live cell (· + 1) = s.live.map fun b =>
          if b.start = cell then { b with refs := b.refs + 1 } else b := by
        refine List.filter_eq_self.2 fun b' hb' => ?_
        obtain ⟨b, hb, rfl⟩ := List.mem_map.1 hb'
        have hrefs := (hL.ref_eq b hb).2
        split
        · exact decide_eq_true (Nat.succ_ne_zero _)
        · exact decide_eq_true (Nat.ne_of_gt hrefs)
      simp only [hstore, Option.bind_some, and_true, Option.some.injEq] at hstep
      rw [← hstep, ← hall]
      refine ⟨hI', .inr rfl, aOk, (hcall _).2 ?_⟩
      rw [if_neg (by rwa [not_or]), hstore, Option.bind_some]
  · simp at hstep

theorem free_spec {s s' : LogallocRun} (hI : s.Inv)
    (hstep : logallocStep s (.free cell) = some s') :
    s'.Inv ∧ s'.live = adjust s.live cell (· - 1) ∧ (∃ b ∈ s.live, b.start = cell) ∧
      ∃ ret, logallocFree s.heap (s.heap.ptrOf cell) = some (ret, s'.heap) := by
  obtain ⟨starts, hC, hL⟩ := hI
  simp only [logallocStep] at hstep
  split at hstep
  · next hheld =>
    obtain ⟨b₀, hb₀, hstart⟩ := hheld
    have hmem : cell ∈ starts := hstart ▸ hL.start_mem b₀ hb₀
    have hcell := hC.tiling.lt _ hmem
    obtain ⟨href, hrefs⟩ := hL.ref_eq b₀ hb₀
    rw [hstart] at href
    set refcnt := s.heap.rgn (cell * s.heap.cellSize + 1) with hrefcnt
    have hnat : s.heap.refAt cell = refcnt.toNat := rfl
    have hne : refcnt ≠ 0 := by
      intro h0
      rw [h0] at hnat
      simp only [BitVec.reduceToNat] at hnat
      omega
    have hval : (refcnt - 1).toNat = refcnt.toNat - 1 := by
      rw [BitVec.toNat_sub]
      have := refcnt.isLt
      simp only [BitVec.reduceToNat]
      omega
    obtain ⟨a', hstore, hI'⟩ := inv_adjust hC hL hcell (refcnt - 1) (· - 1)
      (fun b hb hbc => by rw [hval, hrefcnt, ← (hL.ref_eq b hb).1, hbc]; rfl)
      (fun _ => ⟨b₀, hb₀, hstart⟩)
    have hcall : logallocFree s.heap (s.heap.ptrOf cell) = some (aOk, a') := by
      simp only [logallocFree, Logalloc.ptrOf, Nat.add_sub_cancel, loadRefcnt_eq hC.shape hcell,
        ← hrefcnt, Option.bind_eq_bind, Option.bind_some, if_neg hne, hstore]
    simp only [hcall, Option.bind_eq_bind, Option.bind_some, and_true, Option.some.injEq] at hstep
    rw [← hstep]
    exact ⟨hI', rfl, ⟨b₀, hb₀, hstart⟩, aOk, hcall⟩
  · simp at hstep

/-- A client's write is in a payload, so it changes no header of the chain. -/
theorem inv_write {s s' : LogallocRun} (hI : s.Inv) {addr : ℕ} {val : BitVec 8}
    (hstep : logallocStep s (.write addr val) = some s') : s'.Inv := by
  obtain ⟨starts, hC, hL⟩ := hI
  simp only [logallocStep] at hstep
  split at hstep
  · next howns =>
    obtain ⟨b, hb, hlo, hhi⟩ := howns
    have hlen : b.nrCells ≤ s.heap.lenAt b.start := by
      rw [Logalloc.lenAt, hL.nr_eq b hb]
      split <;> omega
    have hend := hC.tiling.end_le (hL.start_mem b hb)
    have haddr : addr < s.heap.regionSize := by
      rw [hC.shape.region]
      exact Nat.lt_of_lt_of_le hhi (Nat.mul_le_mul_right _ (by omega))
    have houtside : ∀ c ∈ starts, ∀ r < 2, c * s.heap.cellSize + r ≠ addr := fun c hc r hr =>
      hL.header_ne hC hb ⟨hlo, hhi⟩ hc hr
    obtain ⟨a', hstore, hsame, hhead, hnr, href, -⟩ := store_spec haddr val
    have hnr' : ∀ c ∈ starts, a'.nrAt c = s.heap.nrAt c := fun c hc =>
      hnr c (houtside c hc 0 (by omega))
    have href' : ∀ c ∈ starts, a'.refAt c = s.heap.refAt c := fun c hc =>
      href c (houtside c hc 1 (by omega))
    simp only [hstore, Option.bind_eq_bind, Option.bind_some, Option.some.injEq] at hstep
    rw [← hstep]
    refine ⟨starts, ⟨hsame.shape hC.shape, ?_, hhead ▸ hC.head⟩, hL.start_mem, ?_, ?_, ?_, hL.nodup⟩
    · rw [hsame.nrCells]
      exact hC.tiling.congr fun c hc => hsame.lenAt (hnr' c hc)
    · exact fun b hb => (hnr' _ (hL.start_mem b hb)).trans (hL.nr_eq b hb)
    · intro b hb
      rw [href' _ (hL.start_mem b hb)]
      exact hL.ref_eq b hb
    · exact fun c hc hnot => (href' c hc).trans (hL.free c hc hnot)
  · simp at hstep

theorem logallocStep_inv (s : LogallocRun) (c : LogallocCall) (s' : LogallocRun) (hI : s.Inv)
    (hG : TailClearIfNeeded s c) (hstep : logallocStep s c = some s') : s'.Inv := by
  cases c with
  | alloc size => exact (alloc_spec hI hG hstep).1
  | reference cell => exact (reference_spec hI hstep).1
  | free cell => exact (free_spec hI hstep).1
  | write addr val => exact inv_write hI hstep

end Steps

/-! ## Runs -/

/-- **Live allocations share no cell**, in every run on a new allocator in which no call that needs
    a clear tail finds a live allocation there. -/
theorem liveDisjoint_of_meets {cellSize nrCells : BitVec 64} {calloc : Bool}
    {alloc : BitVec 64 → AResult × (ℕ → BitVec 8)} {ret : AResult} {a : Logalloc}
    (hnew : logallocNew cellSize nrCells calloc alloc = some (ret, some a))
    (hcell : cellSize ≠ BitVec.allOnes 64) (run : List LogallocCall)
    (hrun : Meets logallocStep TailClearIfNeeded { heap := a, live := [] } run) :
    Throughout logallocStep LiveDisjoint { heap := a, live := [] } run := by
  obtain ⟨hC, href, -⟩ := logallocNew_spec hnew hcell
  refine throughout_of_meets (I := LogallocRun.Inv) logallocStep_inv
    (fun s hI => hI.liveDisjoint) run _ ⟨{0}, hC, ?_⟩ hrun
  refine ⟨by simp, by simp, by simp, fun c hc _ => ?_, List.nodup_nil⟩
  rw [show c = 0 from hc]
  exact href

/-! ## A marker over live allocations -/

/-- Four cells of 128 bytes. -/
def fourCells : Option (AResult × Option Logalloc) :=
  logallocNew 126 4 true (logallocDefaultAlloc true)

/-- The request for all four cells fails, but the marker it leaves at cell 1 says that cells 2 and 3,
    which are live, are free. -/
def markedOver : List LogallocCall :=
  [.alloc 256, .alloc 128, .alloc 128, .free 0, .alloc 128, .alloc 512, .alloc 256]

/-- The run that starts with `logalloc_new`, and what is live at its end. -/
def liveAfter (new : Option (AResult × Option Logalloc)) (run : List LogallocCall) :
    Option (List LiveBlock) :=
  match new with
  | some (_, some a) => (exec logallocStep { heap := a, live := [] } run).map LogallocRun.live
  | _ => none

/-- Cell 2 is handed out while it is live. -/
theorem liveDisjoint_fails :
    ∃ ret a s, fourCells = some (ret, some a) ∧
      exec logallocStep { heap := a, live := [] } markedOver = some s ∧
      ({ start := 1, nrCells := 2, refs := 1 } : LiveBlock) ∈ s.live ∧
      ({ start := 2, nrCells := 1, refs := 1 } : LiveBlock) ∈ s.live ∧ ¬ LiveDisjoint s := by
  have hlive : liveAfter fourCells markedOver =
      some [⟨1, 2, 1⟩, ⟨0, 1, 1⟩, ⟨3, 1, 1⟩, ⟨2, 1, 1⟩] := by decide +kernel
  unfold liveAfter at hlive
  split at hlive
  · next ret a hnew =>
    obtain ⟨s, hexec, hs⟩ := Option.map_eq_some_iff.1 hlive
    refine ⟨ret, a, s, hnew, hexec, by simp [hs], by simp [hs], fun hdisjoint => ?_⟩
    have hpair := hdisjoint.disjoint
    rw [hs] at hpair
    exact absurd hpair (by decide)
  · cases hlive

/-- Until the request that marks cells over, the same run is fine. -/
theorem liveDisjoint_of_meets_five :
    ∃ ret a, fourCells = some (ret, some a) ∧
      Throughout logallocStep LiveDisjoint { heap := a, live := [] } (markedOver.take 5) := by
  have hmeets : (match fourCells with
      | some (_, some a) =>
          decide (Meets logallocStep TailClearIfNeeded { heap := a, live := [] } (markedOver.take 5))
      | _ => false) = true := by decide +kernel
  split at hmeets
  · next ret a hnew =>
    exact ⟨ret, a, hnew, liveDisjoint_of_meets hnew (by decide) _ (of_decide_eq_true hmeets)⟩
  · cases hmeets

end Tsl
