import Mathlib.Data.List.Nodup
import Mathlib.Data.List.Pairwise
import Tsl.Alloc.Logalloc.Live
import Tsl.Lib.BlockStore

set_option autoImplicit false

/-! # What clients keep in the blocks of the log allocator

The headers of the log allocator lie between the payloads of its clients, in the same region. Where it
is sound to allocate (`TailClearIfNeeded`), it writes to headers at which a block of the chain starts,
before the call or after it, and none of these is in the payload of a block that is live; so what a
client has in a payload stays there (`byte_kept_of_run`). A reference to a cell is one more on whatever
byte is there: a client that still has a pointer into what has become somebody's payload must not
use it (`OutsidePayloads`). -/

namespace Tsl

open Lib

/-- The payload of a block, by offset. -/
def Logalloc.payload (a : Logalloc) (b : LiveBlock) : ℕ → Option (BitVec 8) := fun offset =>
  if b.owns a (a.ptrOf b.start + offset) then some (a.rgn (a.ptrOf b.start + offset)) else none

/-- The payloads clients have, by the cell at which they start. -/
def LogallocRun.blocks (s : LogallocRun) : Blocks ℕ ℕ (BitVec 8) := fun cell =>
  (s.live.find? fun b => b.start = cell).map s.heap.payload

/-- What a call is to the store of blocks: taking the block that is new after it, releasing the one that
    is gone, or a write to the one that has the byte. -/
def LogallocRun.label (s : LogallocRun) : LogallocCall → List (BlockOp ℕ ℕ (BitVec 8))
  | .alloc size =>
      match logallocStep s (.alloc size) with
      | none => []
      | some s' => (s'.live.find? fun b => b.start ∉ s.live.map LiveBlock.start).toList.map fun b =>
          .take b.start (s'.heap.payload b)
  | .reference _ => []
  | .free cell =>
      match logallocStep s (.free cell) with
      | none => []
      | some s' => if cell ∈ s'.live.map LiveBlock.start then [] else [.release cell]
  | .write addr val => (s.live.find? fun b => b.owns s.heap addr).toList.map fun b =>
      .write b.start (addr - s.heap.ptrOf b.start) val

/-- The condition on a reference: the cell is not one inside a live allocation. -/
def OutsidePayloads (s : LogallocRun) : LogallocCall → Prop
  | .reference cell => ∀ b ∈ s.live, ¬ (b.start < cell ∧ cell < b.start + b.nrCells)
  | _ => True

instance (s : LogallocRun) : (c : LogallocCall) → Decidable (OutsidePayloads s c)
  | .alloc _ => inferInstanceAs (Decidable True)
  | .reference cell =>
      inferInstanceAs (Decidable (∀ b ∈ s.live, ¬ (b.start < cell ∧ cell < b.start + b.nrCells)))
  | .free _ => inferInstanceAs (Decidable True)
  | .write _ _ => inferInstanceAs (Decidable True)

/-- What a call has to meet for the payloads to be left alone. -/
def KeepsPayloads (s : LogallocRun) (c : LogallocCall) : Prop :=
  TailClearIfNeeded s c ∧ OutsidePayloads s c

instance (s : LogallocRun) (c : LogallocCall) : Decidable (KeepsPayloads s c) :=
  inferInstanceAs (Decidable (_ ∧ _))

/-! ## What the allocator writes -/

section Writes

variable {a a' : Logalloc} {i : ℕ}

/-- The byte is in the header of none of the cells. -/
def OffHeaders (cellSize : ℕ) (cells : List ℕ) (i : ℕ) : Prop :=
  ∀ c ∈ cells, ∀ r < 2, c * cellSize + r ≠ i

theorem OffHeaders.mono {cellSize : ℕ} {cells cells' : List ℕ} (h : OffHeaders cellSize cells' i)
    (hsub : cells ⊆ cells') : OffHeaders cellSize cells i :=
  fun c hc => h c (hsub hc)

theorem store_rgn {addr : ℕ} {val : BitVec 8} (h : a.store addr val = some a') :
    a'.cellSize = a.cellSize ∧ a'.logHead = a.logHead ∧ (i ≠ addr → a'.rgn i = a.rgn i) := by
  obtain ⟨-, hs⟩ := Option.ite_none_right_eq_some.1 h
  rw [← Option.some.inj hs]
  exact ⟨rfl, rfl, fun hne => Function.update_of_ne hne _ _⟩

theorem setHeader_rgn {cell refcnt nr : ℕ}
    (h : a.setHeader (cell * a.cellSize) refcnt nr = some a') :
    a'.cellSize = a.cellSize ∧ a'.logHead = a.logHead ∧
      (OffHeaders a.cellSize [cell] i → a'.rgn i = a.rgn i) := by
  simp only [Logalloc.setHeader, Option.bind_eq_bind, Option.bind_eq_some_iff] at h
  obtain ⟨a₁, h₁, h₂⟩ := h
  obtain ⟨hcell₁, hhead₁, hbyte₁⟩ := store_rgn (i := i) h₁
  obtain ⟨hcell₂, hhead₂, hbyte₂⟩ := store_rgn (i := i) h₂
  refine ⟨hcell₂.trans hcell₁, hhead₂.trans hhead₁, fun hout => ?_⟩
  have h0 := hout cell List.mem_cons_self 0 (by omega)
  have h1 := hout cell List.mem_cons_self 1 (by omega)
  exact (hbyte₂ (fun heq => h0 heq.symm)).trans (hbyte₁ (fun heq => h1 heq.symm))

/-- The loop that marks the rest writes the header at the log head, over and over. -/
theorem logallocMarkRest_rgn {rem : ℕ} (h : logallocMarkRest a rem = some a') :
    a'.cellSize = a.cellSize ∧ a'.logHead = a.logHead ∧
      (OffHeaders a.cellSize [a.logHead] i → a'.rgn i = a.rgn i) := by
  induction rem using Nat.strong_induction_on generalizing a with
  | _ rem ih =>
      rw [logallocMarkRest] at h
      obtain ⟨a₁, hset, hrest⟩ := Option.bind_eq_some_iff.1 h
      obtain ⟨hcell, hhead, hbyte⟩ := setHeader_rgn (i := i) hset
      have hpos : 0 < rem → 0 < if rem > 255 then 255 else rem := fun hrem => by
        split
        · decide
        · exact hrem
      revert hrest hpos
      generalize (if rem > 255 then 255 else rem) = val
      intro hrest hpos
      by_cases hmore : rem - val > 0
      · rw [dif_pos hmore] at hrest
        obtain ⟨hcell', hhead', hbyte'⟩ := ih (rem - val) (by omega) hrest
        refine ⟨hcell'.trans hcell, hhead'.trans hhead, fun hout => ?_⟩
        rw [hbyte' (by rwa [hcell, hhead]), hbyte hout]
      · rw [dif_neg hmore] at hrest
        rw [← Option.some.inj hrest]
        exact ⟨hcell, hhead, hbyte⟩

/-- From the working log head on: its header, and that at the new log head. -/
theorem logallocCarve_rgn {n w req : ℕ} {ret : AResult} {pptr : Option ℕ}
    (h : logallocCarve a n w req = some (ret, pptr, a')) :
    a'.cellSize = a.cellSize ∧
      (OffHeaders a.cellSize [w, a'.logHead] i → a'.rgn i = a.rgn i) := by
  obtain ⟨⟨found, last⟩, -, h⟩ := Option.bind_eq_some_iff.1 h
  simp only at h
  split at h
  · simp only [Option.some.injEq, Prod.mk.injEq] at h
    obtain ⟨-, -, rfl⟩ := h
    exact ⟨rfl, fun _ => rfl⟩
  · obtain ⟨a₁, hset, h⟩ := Option.bind_eq_some_iff.1 h
    obtain ⟨hcell, -, hbyte⟩ := setHeader_rgn (i := i) hset
    split at h
    · obtain ⟨a₂, hmark, h⟩ := Option.bind_eq_some_iff.1 h
      obtain ⟨hcell', hhead', hbyte'⟩ := logallocMarkRest_rgn (i := i) hmark
      simp only [Option.some.injEq, Prod.mk.injEq] at h
      obtain ⟨-, -, rfl⟩ := h
      refine ⟨hcell'.trans hcell, fun hout => ?_⟩
      rw [hbyte' (by rw [hcell, ← hhead']; exact hout.mono (by simp)), hbyte (hout.mono (by simp))]
    · simp only [Option.some.injEq, Prod.mk.injEq] at h
      obtain ⟨-, -, rfl⟩ := h
      exact ⟨hcell, fun hout => hbyte (hout.mono (by simp))⟩

/-- `logalloc_alloc` writes headers at the log head, at cell 0 and at the new log head. -/
theorem logallocAlloc_rgn {size : BitVec 64} {ret : AResult} {pptr : Option ℕ}
    (h : logallocAlloc a size none = some (ret, pptr, a')) :
    a'.cellSize = a.cellSize ∧
      (OffHeaders a.cellSize [0, a.logHead, a'.logHead] i → a'.rgn i = a.rgn i) := by
  have hsame : ∀ code out, some (code, out, a) = some (ret, pptr, a') → a'.cellSize = a.cellSize ∧
        (OffHeaders a.cellSize [0, a.logHead, a'.logHead] i → a'.rgn i = a.rgn i) := by
    intro code out heq
    simp only [Option.some.injEq, Prod.mk.injEq] at heq
    obtain ⟨-, -, rfl⟩ := heq
    exact ⟨rfl, fun _ => rfl⟩
  unfold logallocAlloc at h
  split at h
  · exact hsame _ _ h
  simp only at h
  split at h
  · exact hsame _ _ h
  obtain ⟨refcnt, -, h⟩ := Option.bind_eq_some_iff.1 h
  split at h
  · exact hsame _ _ h
  split at h
  · obtain ⟨a₁, hset, h⟩ := Option.bind_eq_some_iff.1 h
    obtain ⟨hcell, -, hbyte⟩ := setHeader_rgn (i := i) hset
    obtain ⟨hcell', hbyte'⟩ := logallocCarve_rgn (i := i) h
    refine ⟨hcell'.trans hcell, fun hout => ?_⟩
    rw [hbyte' (by rw [hcell]; exact hout.mono (by simp)), hbyte (hout.mono (by simp))]
  · obtain ⟨hcell, hbyte⟩ := logallocCarve_rgn (i := i) h
    exact ⟨hcell, fun hout => hbyte (hout.mono (by simp))⟩

/-- A call that stores another reference count, or refuses to, writes one byte of the header. -/
theorem recount_rgn {load : Option (BitVec 8)} {refused : BitVec 8 → Prop} [DecidablePred refused]
    {addr : ℕ} {recount : BitVec 8 → BitVec 8} {err ret : AResult} (h : (do
      let refcnt ← load
      if refused refcnt then some (err, a)
      else do
        let a ← a.store addr (recount refcnt)
        some (aOk, a)) = some (ret, a')) :
    a'.cellSize = a.cellSize ∧ (i ≠ addr → a'.rgn i = a.rgn i) := by
  obtain ⟨refcnt, -, h⟩ := Option.bind_eq_some_iff.1 h
  split at h
  · cases h
    exact ⟨rfl, fun _ => rfl⟩
  · obtain ⟨b, hb, h⟩ := Option.bind_eq_some_iff.1 h
    cases h
    exact ⟨(store_rgn (i := i) hb).1, (store_rgn hb).2.2⟩

theorem logallocReference_rgn {cell : ℕ} {ret : AResult}
    (h : logallocReference a (a.ptrOf cell) = some (ret, a')) :
    a'.cellSize = a.cellSize ∧ (i ≠ cell * a.cellSize + 1 → a'.rgn i = a.rgn i) := recount_rgn h

theorem logallocFree_rgn {cell : ℕ} {ret : AResult}
    (h : logallocFree a (a.ptrOf cell) = some (ret, a')) :
    a'.cellSize = a.cellSize ∧ (i ≠ cell * a.cellSize + 1 → a'.rgn i = a.rgn i) := recount_rgn h

end Writes

/-! ## The payloads after a call -/

section Payloads

variable {s s' : LogallocRun} {b : LiveBlock} {cell addr : ℕ}

/-- The bytes in the payloads of live blocks are what they were. -/
structure KeepsBytes (s s' : LogallocRun) : Prop where
  cellSize : s'.heap.cellSize = s.heap.cellSize
  rgn : ∀ b ∈ s.live, ∀ addr, b.owns s.heap addr → s'.heap.rgn addr = s.heap.rgn addr

theorem LiveBlock.owns_congr {a a' : Logalloc} {b b' : LiveBlock} (hcell : a'.cellSize = a.cellSize)
    (hstart : b'.start = b.start) (hnr : b'.nrCells = b.nrCells) : b'.owns a' addr ↔ b.owns a addr := by
  rw [LiveBlock.owns, LiveBlock.owns, Logalloc.ptrOf, Logalloc.ptrOf, hcell, hstart, hnr]

/-- A payload, by the offsets it has where cells are as large. -/
theorem Logalloc.payload_eq {a a' : Logalloc} (hcell : a'.cellSize = a.cellSize) {b' : LiveBlock}
    (hstart : b'.start = b.start) (hnr : b'.nrCells = b.nrCells) (offset : ℕ) :
    a'.payload b' offset = if b.owns a (a.ptrOf b.start + offset) then
      some (a'.rgn (a.ptrOf b.start + offset)) else none := by
  have hptr : a'.ptrOf b'.start = a.ptrOf b.start := by
    rw [Logalloc.ptrOf, Logalloc.ptrOf, hcell, hstart]
  simp only [Logalloc.payload, hptr, LiveBlock.owns_congr hcell hstart hnr]

theorem KeepsBytes.payload (h : KeepsBytes s s') (hb : b ∈ s.live) {b' : LiveBlock}
    (hstart : b'.start = b.start) (hnr : b'.nrCells = b.nrCells) :
    s'.heap.payload b' = s.heap.payload b := by
  funext offset
  rw [Logalloc.payload_eq h.cellSize hstart hnr, Logalloc.payload]
  split
  · next howns => rw [h.rgn b hb _ howns]
  · rfl

/-- What is at a cell, where no two live blocks start at one. -/
theorem LogallocRun.blocks_eq_some (hnd : (s.live.map LiveBlock.start).Nodup)
    {content : ℕ → Option (BitVec 8)} :
    s.blocks cell = some content ↔ ∃ b ∈ s.live, b.start = cell ∧ s.heap.payload b = content := by
  rw [LogallocRun.blocks, Option.map_eq_some_iff]
  constructor
  · rintro ⟨b, hfind, hcontent⟩
    exact ⟨b, List.mem_of_find?_eq_some hfind, by simpa using List.find?_some hfind, hcontent⟩
  · rintro ⟨b, hb, hstart, hcontent⟩
    obtain ⟨b', hfind⟩ := Option.isSome_iff_exists.1 (List.find?_isSome.2
      ⟨b, hb, decide_eq_true hstart⟩ : (s.live.find? fun b => b.start = cell).isSome)
    have hstart' : b'.start = cell := by simpa using List.find?_some hfind
    obtain rfl := List.inj_on_of_nodup_map hnd (List.mem_of_find?_eq_some hfind) hb
      (hstart'.trans hstart.symm)
    exact ⟨b', hfind, hcontent⟩

theorem LogallocRun.blocks_eq_none (hfree : ∀ b ∈ s.live, b.start ≠ cell) : s.blocks cell = none := by
  rw [LogallocRun.blocks, Option.map_eq_none_iff, List.find?_eq_none]
  exact fun b hb heq => hfree b hb (of_decide_eq_true heq)

theorem KeepsBytes.blocks (h : KeepsBytes s s') (hnd : (s.live.map LiveBlock.start).Nodup)
    (hnd' : (s'.live.map LiveBlock.start).Nodup)
    (hsame : ∀ nr, (∃ b ∈ s'.live, b.start = cell ∧ b.nrCells = nr) ↔
      ∃ b ∈ s.live, b.start = cell ∧ b.nrCells = nr) : s'.blocks cell = s.blocks cell := by
  refine Option.ext fun content => ?_
  rw [LogallocRun.blocks_eq_some hnd, LogallocRun.blocks_eq_some hnd']
  constructor
  · rintro ⟨b', hb', hstart, rfl⟩
    obtain ⟨b, hb, hstart', hnr⟩ := (hsame _).1 ⟨b', hb', hstart, rfl⟩
    exact ⟨b, hb, hstart', (h.payload hb (hstart.trans hstart'.symm) hnr.symm).symm⟩
  · rintro ⟨b, hb, hstart, rfl⟩
    obtain ⟨b', hb', hstart', hnr⟩ := (hsame _).2 ⟨b, hb, hstart, rfl⟩
    exact ⟨b', hb', hstart', h.payload hb (hstart'.trans hstart.symm) hnr⟩

/-! ## One step -/

theorem LogallocRun.Inv.nodup (hI : s.Inv) : (s.live.map LiveBlock.start).Nodup := by
  obtain ⟨starts, -, hL⟩ := hI
  exact hL.nodup

theorem keepsBytes_alloc (hI : s.Inv) (hI' : s'.Inv) (hlive : ∀ b ∈ s.live, b ∈ s'.live)
    {size : BitVec 64} {ret : AResult} {pptr : Option ℕ}
    (hcall : logallocAlloc s.heap size none = some (ret, pptr, s'.heap)) : KeepsBytes s s' := by
  refine ⟨(logallocAlloc_rgn (i := 0) hcall).1, fun b hb addr howns => ?_⟩
  obtain ⟨hcell, hbyte⟩ := logallocAlloc_rgn (i := addr) hcall
  obtain ⟨starts, hC, hL⟩ := hI
  obtain ⟨starts', hC', hL'⟩ := hI'
  have howns' : b.owns s'.heap addr := (LiveBlock.owns_congr hcell rfl rfl).2 howns
  refine hbyte fun c hc r hr => ?_
  simp only [List.mem_cons, List.not_mem_nil, or_false] at hc
  rcases hc with rfl | rfl | rfl
  · exact hL.header_ne hC hb howns hC.tiling.zero_mem hr
  · exact hL.header_ne hC hb howns hC.head hr
  · -- the new log head is at a header of the chain after the call
    rw [← hcell]
    exact hL'.header_ne hC' (hlive b hb) howns' hC'.head hr

theorem keepsBytes_reference (hI : s.Inv) (hout : OutsidePayloads s (.reference cell)) {ret : AResult}
    (hcall : logallocReference s.heap (s.heap.ptrOf cell) = some (ret, s'.heap)) : KeepsBytes s s' := by
  refine ⟨(logallocReference_rgn (i := 0) hcall).1, fun b hb addr howns => ?_⟩
  refine (logallocReference_rgn hcall).2 fun heq => ?_
  obtain ⟨starts, hC, -⟩ := hI
  obtain ⟨hlo, hhi⟩ := howns
  have hcell := hC.shape.cell
  rw [Logalloc.ptrOf] at hlo
  have hin := hout b hb
  rcases Nat.lt_or_ge b.start cell with hlt | hle
  · have := Nat.mul_le_mul_right s.heap.cellSize (show b.start + b.nrCells ≤ cell by omega)
    omega
  · have := Nat.mul_le_mul_right s.heap.cellSize hle
    omega

theorem keepsBytes_free (hI : s.Inv) (hheld : ∃ b ∈ s.live, b.start = cell) {ret : AResult}
    (hcall : logallocFree s.heap (s.heap.ptrOf cell) = some (ret, s'.heap)) : KeepsBytes s s' := by
  refine ⟨(logallocFree_rgn (i := 0) hcall).1, fun b hb addr howns => ?_⟩
  refine (logallocFree_rgn hcall).2 fun heq => ?_
  obtain ⟨starts, hC, hL⟩ := hI
  obtain ⟨b₀, hb₀, rfl⟩ := hheld
  exact hL.header_ne hC hb howns (hL.start_mem b₀ hb₀) (show 1 < 2 by decide) heq.symm

theorem exists_mem_adjust {live : List LiveBlock} {f : ℕ → ℕ} {c nr : ℕ}
    (hrefs : ∀ b ∈ live, 0 < b.refs) (hf : c = cell → ∀ b ∈ live, b.start = cell → f b.refs ≠ 0) :
    (∃ b ∈ adjust live cell f, b.start = c ∧ b.nrCells = nr) ↔
      ∃ b ∈ live, b.start = c ∧ b.nrCells = nr := by
  constructor
  · rintro ⟨b', hb', rfl, rfl⟩
    rcases mem_adjust.1 hb' with ⟨b, hb, -, rfl, -⟩ | ⟨hb, -⟩
    · exact ⟨b, hb, rfl, rfl⟩
    · exact ⟨b', hb, rfl, rfl⟩
  · rintro ⟨b, hb, rfl, rfl⟩
    by_cases hbc : b.start = cell
    · exact ⟨_, mem_adjust.2 (.inl ⟨b, hb, hbc, rfl, hf hbc b hb hbc⟩), rfl, rfl⟩
    · exact ⟨b, mem_adjust.2 (.inr ⟨hb, hbc, Nat.ne_of_gt (hrefs b hb)⟩), rfl, rfl⟩

theorem LogallocRun.Inv.refs_pos (hI : s.Inv) : ∀ b ∈ s.live, 0 < b.refs := by
  obtain ⟨starts, -, hL⟩ := hI
  exact fun b hb => (hL.ref_eq b hb).2

theorem blocks_alloc (hI : s.Inv) {size : BitVec 64} (hG : TailClearIfNeeded s (.alloc size))
    (hstep : logallocStep s (.alloc size) = some s') :
    exec blockStep s.blocks (s.label (.alloc size)) = some s'.blocks := by
  obtain ⟨hI', hlive, ret, pptr, hcall⟩ := alloc_spec hI hG hstep
  have hsub : ∀ b ∈ s.live, b ∈ s'.live := by
    rcases hlive with hlive | ⟨b, hlive⟩
    · exact fun b hb => hlive ▸ hb
    · exact fun b hb => hlive ▸ List.mem_cons_of_mem _ hb
  have hkeep := keepsBytes_alloc hI hI' hsub hcall
  simp only [LogallocRun.label, hstep]
  rcases hlive with hlive | ⟨b, hlive⟩
  · have hnone : s'.live.find? (fun b => b.start ∉ s.live.map LiveBlock.start) = none :=
      List.find?_eq_none.2 fun b hb => by simpa using ⟨b, hlive ▸ hb, rfl⟩
    rw [hnone]
    refine congrArg some (funext fun c => (hkeep.blocks hI.nodup hI'.nodup fun nr => ?_).symm)
    rw [hlive]
  · have hnd := hI'.nodup
    rw [hlive, List.map_cons, List.nodup_cons] at hnd
    have hfind : s'.live.find? (fun b => b.start ∉ s.live.map LiveBlock.start) = some b := by
      rw [hlive]
      exact List.find?_cons_of_pos (by simpa using hnd.1)
    have hfree : s.blocks b.start = none :=
      LogallocRun.blocks_eq_none fun b' hb' heq => hnd.1 (List.mem_map.2 ⟨b', hb', heq⟩)
    rw [hfind, Option.toList_some, List.map_singleton, exec, blockStep_take hfree]
    refine congrArg some (funext fun c => ?_)
    by_cases hc : c = b.start
    · subst hc
      rw [Function.update_self]
      exact ((LogallocRun.blocks_eq_some hI'.nodup).2
        ⟨b, by rw [hlive]; exact List.mem_cons_self, rfl, rfl⟩).symm
    · rw [Function.update_of_ne hc]
      refine (hkeep.blocks hI.nodup hI'.nodup fun nr => ?_).symm
      simp [hlive, Ne.symm hc]

theorem blocks_reference (hI : s.Inv) (hG : OutsidePayloads s (.reference cell))
    (hstep : logallocStep s (.reference cell) = some s') : s'.blocks = s.blocks := by
  obtain ⟨hI', hlive, ret, hcall⟩ := reference_spec hI hstep
  have hkeep := keepsBytes_reference hI hG hcall
  refine funext fun c => hkeep.blocks hI.nodup hI'.nodup fun nr => ?_
  rcases hlive with hlive | hlive
  · rw [hlive]
  · rw [hlive]
    exact exists_mem_adjust hI.refs_pos fun _ b _ _ => Nat.succ_ne_zero _

theorem blocks_free (hI : s.Inv) (hstep : logallocStep s (.free cell) = some s') :
    exec blockStep s.blocks (s.label (.free cell)) = some s'.blocks := by
  obtain ⟨hI', hlive, hheld, ret, hcall⟩ := free_spec hI hstep
  have hkeep := keepsBytes_free hI hheld hcall
  simp only [LogallocRun.label, hstep]
  split
  · next hmem =>
    obtain ⟨b', hb', hstart⟩ := List.mem_map.1 hmem
    refine congrArg some (funext fun c => (hkeep.blocks hI.nodup hI'.nodup fun nr => ?_).symm)
    rw [hlive]
    refine exists_mem_adjust hI.refs_pos fun _ b hb hbc => ?_
    -- the block that is still there is the one that was
    rw [hlive] at hb'
    rcases mem_adjust.1 hb' with ⟨b₁, hb₁, hstart₁, rfl, hrefs⟩ | ⟨-, hne, -⟩
    · rwa [List.inj_on_of_nodup_map hI.nodup hb hb₁ (hbc.trans hstart₁.symm)]
    · exact absurd hstart hne
  · next hmem =>
    obtain ⟨b, hb, rfl⟩ := hheld
    rw [exec, blockStep_release ((LogallocRun.blocks_eq_some hI.nodup).2 ⟨b, hb, rfl, rfl⟩)]
    refine congrArg some (funext fun c => ?_)
    by_cases hc : c = b.start
    · subst hc
      rw [Function.update_self]
      exact (LogallocRun.blocks_eq_none fun b' hb' heq => hmem (List.mem_map.2 ⟨b', hb', heq⟩)).symm
    · rw [Function.update_of_ne hc]
      refine (hkeep.blocks hI.nodup hI'.nodup fun nr => ?_).symm
      rw [hlive]
      exact exists_mem_adjust hI.refs_pos fun heq => absurd heq hc

theorem LiveDisjoint.owner_unique (hD : LiveDisjoint s) {b b' : LiveBlock} (hb : b ∈ s.live)
    (hb' : b' ∈ s.live) (howns : b.owns s.heap addr) (howns' : b'.owns s.heap addr) : b = b' := by
  by_contra hne
  have : Std.Symm fun b c : LiveBlock =>
      b.start + b.nrCells ≤ c.start ∨ c.start + c.nrCells ≤ b.start := ⟨fun _ _ h => h.symm⟩
  obtain ⟨hlo, hhi⟩ := howns
  obtain ⟨hlo', hhi'⟩ := howns'
  rw [Logalloc.ptrOf] at hlo hlo'
  rcases hD.disjoint.forall hb hb' hne with hle | hle
  · have := Nat.mul_le_mul_right s.heap.cellSize hle
    omega
  · have := Nat.mul_le_mul_right s.heap.cellSize hle
    omega

theorem blocks_write (hI : s.Inv) {val : BitVec 8}
    (hstep : logallocStep s (.write addr val) = some s') :
    exec blockStep s.blocks (s.label (.write addr val)) = some s'.blocks := by
  have hnd' := (inv_write hI hstep).nodup
  have hown := hstep
  simp only [logallocStep] at hown
  split at hown
  · next hex =>
    obtain ⟨heap, hstore, hs'⟩ := Option.bind_eq_some_iff.1 hown
    obtain rfl := Option.some.inj hs'
    have hpos : ∀ i, i ≠ addr → heap.rgn i = s.heap.rgn i := fun i => (store_rgn hstore).2.2
    have hcell : heap.cellSize = s.heap.cellSize := (store_rgn (i := 0) hstore).1
    have hval : heap.rgn addr = val := by
      obtain ⟨-, hs⟩ := Option.ite_none_right_eq_some.1 hstore
      rw [← Option.some.inj hs]
      exact Function.update_self _ _ _
    obtain ⟨b, hfind⟩ := Option.isSome_iff_exists.1 (List.find?_isSome.2
      (hex.imp fun b h => ⟨h.1, decide_eq_true h.2⟩) : (s.live.find? fun b => b.owns s.heap addr).isSome)
    have hb := List.mem_of_find?_eq_some hfind
    have howns : b.owns s.heap addr := by simpa using List.find?_some hfind
    have haddr : s.heap.ptrOf b.start + (addr - s.heap.ptrOf b.start) = addr :=
      Nat.add_sub_cancel' howns.1
    have hoffset : (s.heap.payload b (addr - s.heap.ptrOf b.start)).isSome := by
      rw [Logalloc.payload, haddr, if_pos howns]
      rfl
    simp only [LogallocRun.label, hfind, Option.toList_some, List.map_singleton]
    rw [exec, blockStep_write ((LogallocRun.blocks_eq_some hI.nodup).2 ⟨b, hb, rfl, rfl⟩) hoffset]
    refine congrArg some (funext fun c => ?_)
    by_cases hc : c = b.start
    · subst hc
      rw [Function.update_self]
      refine ((LogallocRun.blocks_eq_some hnd').2 ⟨b, hb, rfl, ?_⟩).symm
      funext offset
      rw [Logalloc.payload_eq hcell rfl rfl]
      by_cases hoff : offset = addr - s.heap.ptrOf b.start
      · rw [hoff, haddr, if_pos howns, Function.update_self, hval]
      · rw [Function.update_of_ne hoff, Logalloc.payload, hpos _ (by omega)]
    · rw [Function.update_of_ne hc]
      refine Option.ext fun content => ?_
      rw [LogallocRun.blocks_eq_some hI.nodup, LogallocRun.blocks_eq_some hnd']
      -- the byte is in no other payload
      have hsame : ∀ b' ∈ s.live, b'.start = c → heap.payload b' = s.heap.payload b' := by
        intro b' hb' hstart
        funext offset
        rw [Logalloc.payload_eq hcell rfl rfl, Logalloc.payload]
        split
        · next howns' =>
          refine congrArg some (hpos _ fun heq => hc ?_)
          rw [← hstart, hI.liveDisjoint.owner_unique hb' hb howns' (heq ▸ howns)]
        · rfl
      constructor
      · rintro ⟨b', hb', hstart, rfl⟩
        exact ⟨b', hb', hstart, hsame b' hb' hstart⟩
      · rintro ⟨b', hb', hstart, rfl⟩
        exact ⟨b', hb', hstart, (hsame b' hb' hstart).symm⟩
  · cases hown

/-- The log allocator, where it is sound to use it, is a store of blocks. -/
theorem simulates_blockStep_logalloc : Simulates (guarded logallocStep KeepsPayloads) blockStep
    LogallocRun.Inv LogallocRun.blocks LogallocRun.label where
  inv := by
    intro s c s' hI hstep
    obtain ⟨⟨hG, -⟩, hstep⟩ := Option.ite_none_right_eq_some.1 hstep
    exact logallocStep_inv s c s' hI hG hstep
  sim := by
    intro s c s' hI hstep
    obtain ⟨⟨hG, hout⟩, hstep⟩ := Option.ite_none_right_eq_some.1 hstep
    cases c with
    | alloc size => exact blocks_alloc hI hG hstep
    | reference cell => exact congrArg some (blocks_reference hI hout hstep).symm
    | free cell => exact blocks_free hI hstep
    | write addr val => exact blocks_write hI hstep

end Payloads

/-! ## Runs -/

/-- A reference to the block at the cell is given up. -/
def LogallocCall.givesUp (cell : ℕ) : LogallocCall → Bool
  | .free c => c = cell
  | _ => false

section Runs

variable {s s' : LogallocRun} {b : LiveBlock} {addr : ℕ}

/-- A block from which not the last reference is taken is still there after a call. -/
theorem live_step (hI : s.Inv) {c : LogallocCall} (hG : TailClearIfNeeded s c)
    (hstep : logallocStep s c = some s') (hb : b ∈ s.live)
    (hheld : c.givesUp b.start = true → 1 < b.refs) :
    s'.heap.cellSize = s.heap.cellSize ∧ ∃ b' ∈ s'.live, b'.start = b.start ∧
      b'.nrCells = b.nrCells ∧ b.refs ≤ b'.refs + if c.givesUp b.start then 1 else 0 := by
  have hrefs := hI.refs_pos b hb
  cases c with
  | alloc size =>
      obtain ⟨-, hlive, ret, pptr, hcall⟩ := alloc_spec hI hG hstep
      refine ⟨(logallocAlloc_rgn (i := 0) hcall).1, b, ?_, rfl, rfl, Nat.le_add_right _ _⟩
      rcases hlive with hlive | ⟨b₁, hlive⟩
      · exact hlive ▸ hb
      · exact hlive ▸ List.mem_cons_of_mem _ hb
  | reference cell =>
      obtain ⟨-, hlive, ret, hcall⟩ := reference_spec hI hstep
      refine ⟨(logallocReference_rgn (i := 0) hcall).1, ?_⟩
      rcases hlive with hlive | hlive
      · exact ⟨b, hlive ▸ hb, rfl, rfl, Nat.le_add_right _ _⟩
      · rw [hlive]
        by_cases hbc : b.start = cell
        · refine ⟨_, mem_adjust.2 (.inl ⟨b, hb, hbc, rfl, Nat.succ_ne_zero _⟩), rfl, rfl, ?_⟩
          exact Nat.le_succ _
        · exact ⟨b, mem_adjust.2 (.inr ⟨hb, hbc, Nat.ne_of_gt hrefs⟩), rfl, rfl, Nat.le_add_right _ _⟩
  | free cell =>
      obtain ⟨-, hlive, -, ret, hcall⟩ := free_spec hI hstep
      refine ⟨(logallocFree_rgn (i := 0) hcall).1, ?_⟩
      rw [hlive]
      by_cases hbc : b.start = cell
      · have hgives : (LogallocCall.free cell).givesUp b.start = true := decide_eq_true hbc.symm
        have hmore := hheld hgives
        refine ⟨_, mem_adjust.2 (.inl ⟨b, hb, hbc, rfl, by omega⟩), rfl, rfl, ?_⟩
        rw [if_pos hgives]
        change b.refs ≤ b.refs - 1 + 1
        omega
      · exact ⟨b, mem_adjust.2 (.inr ⟨hb, hbc, Nat.ne_of_gt hrefs⟩), rfl, rfl, Nat.le_add_right _ _⟩
  | write a val =>
      simp only [logallocStep, Option.bind_eq_bind] at hstep
      split at hstep
      · obtain ⟨heap, hstore, hs'⟩ := Option.bind_eq_some_iff.1 hstep
        obtain rfl := Option.some.inj hs'
        exact ⟨(store_rgn (i := 0) hstore).1, b, hb, rfl, rfl, Nat.le_add_right _ _⟩
      · cases hstep

theorem LogallocRun.holds_iff (hI : s.Inv) (hb : b ∈ s.live) (hlo : s.heap.ptrOf b.start ≤ addr)
    {val : BitVec 8} : s.blocks.Holds b.start (addr - s.heap.ptrOf b.start) val ↔
      b.owns s.heap addr ∧ s.heap.rgn addr = val := by
  have hcontent : s.heap.payload b (addr - s.heap.ptrOf b.start) = some val ↔
      b.owns s.heap addr ∧ s.heap.rgn addr = val := by
    rw [Logalloc.payload, Nat.add_sub_cancel' hlo, Option.ite_none_right_eq_some, Option.some.injEq]
  rw [← hcontent]
  have hblock := (LogallocRun.blocks_eq_some hI.nodup).2 ⟨b, hb, rfl, rfl⟩
  constructor
  · rintro ⟨content, hcontent, hval⟩
    rwa [Option.some.inj (hblock.symm.trans hcontent)]
  · exact fun hval => ⟨_, hblock, hval⟩

/-- A call touches the byte if it takes the last reference, or writes there. -/
theorem not_touches (hlo : s.heap.ptrOf b.start ≤ addr) {c : LogallocCall}
    (hstep : logallocStep s c = some s') (hlive : b.start ∈ s'.live.map LiveBlock.start)
    (hc : ∀ val, c ≠ .write addr val) :
    ∀ op ∈ s.label c, ¬ op.Touches b.start (addr - s.heap.ptrOf b.start) := by
  intro op hop htouch
  cases c with
  | alloc size =>
      simp only [LogallocRun.label, hstep, List.mem_map] at hop
      obtain ⟨taken, -, rfl⟩ := hop
      exact htouch
  | reference cell => cases hop
  | free cell =>
      simp only [LogallocRun.label, hstep] at hop
      split at hop
      · cases hop
      · next hgone =>
        rw [List.mem_singleton.1 hop] at htouch
        obtain rfl : cell = b.start := htouch
        exact hgone hlive
  | write a val =>
      simp only [LogallocRun.label, List.mem_map, Option.mem_toList] at hop
      obtain ⟨b₁, hfind, rfl⟩ := hop
      obtain ⟨hstart, hoffset⟩ := htouch
      have howns : b₁.owns s.heap a := by simpa using List.find?_some hfind
      have hlo₁ := howns.1
      rw [hstart] at hlo₁ hoffset
      exact hc val (by rw [show a = addr by omega])

theorem byte_kept {after : List LogallocCall} (hI : s.Inv)
    (hsound : Meets logallocStep KeepsPayloads s after)
    (hafter : exec logallocStep s after = some s') (hb : b ∈ s.live) (howns : b.owns s.heap addr)
    (hheld : after.countP (·.givesUp b.start) < b.refs) (hwrites : ∀ val, .write addr val ∉ after) :
    ∃ b' ∈ s'.live, b'.start = b.start ∧ b'.nrCells = b.nrCells ∧
      s'.heap.rgn addr = s.heap.rgn addr := by
  induction after generalizing s b with
  | nil =>
      simp only [exec_nil, Option.some.injEq] at hafter
      subst hafter
      exact ⟨b, hb, rfl, rfl, rfl⟩
  | cons c after ih =>
      obtain ⟨t, ht, hrest⟩ := exec_cons_eq_some.1 hafter
      simp only [Meets, ht] at hsound
      obtain ⟨hG, hsound⟩ := hsound
      rw [List.countP_cons] at hheld
      obtain ⟨hcell, b₁, hb₁, hstart, hnr, hrefs⟩ := live_step hI hG.1 ht hb fun hgives => by
        rw [if_pos hgives] at hheld
        omega
      have hlive : b.start ∈ t.live.map LiveBlock.start := List.mem_map.2 ⟨b₁, hb₁, hstart⟩
      have hstep : guarded logallocStep KeepsPayloads s c = some t := (if_pos hG).trans ht
      have hIt := simulates_blockStep_logalloc.inv s c t hI hstep
      -- what the store of blocks has at the offset is what it had
      have hholds := (((LogallocRun.holds_iff hI hb howns.1).2 ⟨howns, rfl⟩).exec
        (not_touches howns.1 ht hlive fun val heq => hwrites val (heq ▸ List.mem_cons_self))
        (simulates_blockStep_logalloc.sim s c t hI hstep))
      have hptr : s.heap.ptrOf b.start = t.heap.ptrOf b₁.start := by
        rw [Logalloc.ptrOf, Logalloc.ptrOf, hcell, hstart]
      rw [hptr, ← hstart, LogallocRun.holds_iff hIt hb₁ (hptr ▸ howns.1)] at hholds
      obtain ⟨b', hb', hstart', hnr', hbyte⟩ := ih hIt hsound hrest hb₁ hholds.1
        (by rw [hstart]; omega) fun val hmem => hwrites val (List.mem_cons_of_mem _ hmem)
      exact ⟨b', hb', hstart'.trans hstart, hnr'.trans hnr, hbyte.trans hholds.2⟩

end Runs

/-- **What a client has in a payload stays there.** Take any run on a new allocator in which every
allocation that needs a clear tail finds one, and a byte in the payload of a block that is live after
it. However the run goes on from there, with further allocations under that condition, references other
than to a cell inside a live block, and writes to other bytes: as long as fewer references to the
block are given up than were held on it, the block stays live and the byte what it was. -/
theorem byte_kept_of_run {cellSize nrCells : BitVec 64} {calloc : Bool}
    {alloc : BitVec 64 → AResult × (ℕ → BitVec 8)} {ret : AResult} {a : Logalloc}
    (hnew : logallocNew cellSize nrCells calloc alloc = some (ret, some a))
    (hcell : cellSize ≠ BitVec.allOnes 64) (before after : List LogallocCall) {s s' : LogallocRun}
    (hbefore : exec logallocStep { heap := a, live := [] } before = some s)
    (hclear : Meets logallocStep TailClearIfNeeded { heap := a, live := [] } before)
    (hafter : exec logallocStep s after = some s') (hsound : Meets logallocStep KeepsPayloads s after)
    {b : LiveBlock} (hb : b ∈ s.live) {addr : ℕ} (howns : b.owns s.heap addr)
    (hheld : after.countP (·.givesUp b.start) < b.refs) (hwrites : ∀ val, .write addr val ∉ after) :
    ∃ b' ∈ s'.live, b'.start = b.start ∧ b'.nrCells = b.nrCells ∧
      s'.heap.rgn addr = s.heap.rgn addr := by
  have hI : LogallocRun.Inv { heap := a, live := [] } := by
    obtain ⟨hC, href, -⟩ := logallocNew_spec hnew hcell
    refine ⟨{0}, hC, by simp, by simp, by simp, fun c hc _ => ?_, List.nodup_nil⟩
    rw [show c = 0 from hc]
    exact href
  exact byte_kept (exec_invariant_of_meets logallocStep_inv hI hclear hbefore) hsound hafter hb howns
    hheld hwrites

/-- A client writes a byte of the block at cell 2, on which it holds two references. -/
def writesByte : List LogallocCall :=
  [.alloc 256, .alloc 128, .write (2 * 128 + 5) 7, .reference 2]

/-- The block before it is freed, and one of its cells used again; one reference is given up. -/
def goesRound : List LogallocCall :=
  [.alloc 128, .free 0, .alloc 128, .free 2, .write (3 * 128 + 4) 9]

theorem byte_kept_of_run_goesRound : ∃ ret a s s', fourCells = some (ret, some a) ∧
    exec logallocStep { heap := a, live := [] } writesByte = some s ∧
    exec logallocStep s goesRound = some s' ∧ s.heap.rgn (2 * 128 + 5) = 7 ∧
    ∃ b' ∈ s'.live, b'.start = 2 ∧ b'.nrCells = 1 ∧
      s'.heap.rgn (2 * 128 + 5) = s.heap.rgn (2 * 128 + 5) := by
  have hruns : ((fourCells.bind Prod.snd).bind fun a =>
      (exec logallocStep { heap := a, live := [] } writesByte).bind fun s =>
        if Meets logallocStep TailClearIfNeeded { heap := a, live := [] } writesByte ∧
            Meets logallocStep KeepsPayloads s goesRound ∧ ⟨2, 1, 2⟩ ∈ s.live ∧
            LiveBlock.owns s.heap ⟨2, 1, 2⟩ (2 * 128 + 5) ∧ s.heap.rgn (2 * 128 + 5) = 7 then
          (exec logallocStep s goesRound).map fun _ => ()
        else none) = some () := by decide +kernel
  obtain ⟨a, hnew, hruns⟩ := Option.bind_eq_some_iff.1 hruns
  obtain ⟨⟨ret, _⟩, hnew, rfl⟩ := Option.bind_eq_some_iff.1 hnew
  obtain ⟨s, hs, hrest⟩ := Option.bind_eq_some_iff.1 hruns
  obtain ⟨⟨hclear, hsound, hb, howns, hval⟩, hrest⟩ := Option.ite_none_right_eq_some.1 hrest
  obtain ⟨s', hs', -⟩ := Option.map_eq_some_iff.1 hrest
  exact ⟨ret, a, s, s', hnew, hs, hs', hval,
    byte_kept_of_run hnew (by decide) writesByte goesRound hs hclear hs' hsound hb howns (by decide)
      (by simp [goesRound])⟩

end Tsl
