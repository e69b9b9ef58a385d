import Mathlib.Tactic.Set
import Tsl.Alloc.Logalloc

set_option autoImplicit false

/-! # The header chain of the log allocator

Seen as cells, the region is tiled by blocks whose headers say how long they are and how often they
are referenced. This module proves what `logalloc_alloc` does to that tiling: it merges blocks from a
working log head on, all of them free, and splits the result into the block it hands out and a free
rest (`Rewritten`). -/

namespace Tsl

open Lib

namespace Logalloc

/-- The two header fields of a cell. -/
def nrAt (a : Logalloc) (cell : ℕ) : ℕ := (a.rgn (cell * a.cellSize)).toNat

def refAt (a : Logalloc) (cell : ℕ) : ℕ := (a.rgn (cell * a.cellSize + 1)).toNat

/-- The length of the block at a cell: 0 stands for all cells up to the end. -/
def lenAt (a : Logalloc) (cell : ℕ) : ℕ :=
  if a.nrAt cell = 0 then a.nrCells - cell else a.nrAt cell

/-- The region is a whole number of cells, and a cell has room for a header. -/
structure Shape (a : Logalloc) : Prop where
  cell : 2 ≤ a.cellSize
  region : a.regionSize = a.nrCells * a.cellSize
  pos : 0 < a.nrCells

/-- Following the headers from cell 0 tiles the region, and the log head is at a header. -/
structure Chain (a : Logalloc) (starts : Set ℕ) : Prop where
  shape : a.Shape
  tiling : Tiling a.nrCells starts a.lenAt
  head : a.logHead ∈ starts

/-- `a'` has the cells of `a`. -/
structure SameCells (a a' : Logalloc) : Prop where
  cellSize : a'.cellSize = a.cellSize
  regionSize : a'.regionSize = a.regionSize

theorem SameCells.nrCells {a a' : Logalloc} (h : SameCells a a') : a'.nrCells = a.nrCells := by
  rw [Logalloc.nrCells, Logalloc.nrCells, h.cellSize, h.regionSize]

theorem SameCells.shape {a a' : Logalloc} (h : SameCells a a') (hS : a.Shape) : a'.Shape where
  cell := h.cellSize ▸ hS.cell
  region := by
    rw [h.regionSize, h.nrCells, h.cellSize]
    exact hS.region
  pos := h.nrCells ▸ hS.pos

theorem SameCells.trans {a a' a'' : Logalloc} (h : SameCells a a') (h' : SameCells a' a'') :
    SameCells a a'' :=
  ⟨h'.cellSize.trans h.cellSize, h'.regionSize.trans h.regionSize⟩

end Logalloc

section Headers

variable {a a' : Logalloc}

/-- Byte `r` of cell `i` is byte `r'` of cell `j` only if both are the same. -/
theorem cell_byte_inj {c i j : ℕ} (r r' : ℕ) (hr : r < c) (hr' : r' < c) :
    i * c + r = j * c + r' ↔ i = j ∧ r = r' := by
  constructor
  · intro h
    have hi : (i * c + r) / c = i := by
      rw [Nat.mul_comm, Nat.mul_add_div (by omega), Nat.div_eq_of_lt hr, Nat.add_zero]
    have hj : (j * c + r') / c = j := by
      rw [Nat.mul_comm, Nat.mul_add_div (by omega), Nat.div_eq_of_lt hr', Nat.add_zero]
    have hij : i = j := by rw [← hi, h, hj]
    subst hij
    exact ⟨rfl, by omega⟩
  · rintro ⟨rfl, rfl⟩
    rfl

theorem Logalloc.Shape.header_lt (hS : a.Shape) {cell : ℕ} (hcell : cell < a.nrCells) :
    cell * a.cellSize + 1 < a.regionSize := by
  have hmul : (cell + 1) * a.cellSize ≤ a.nrCells * a.cellSize :=
    Nat.mul_le_mul_right _ hcell
  have hc := hS.cell
  rw [hS.region]
  rw [Nat.add_mul, Nat.one_mul] at hmul
  omega

theorem loadRefcnt_eq (hS : a.Shape) {cell : ℕ} (hcell : cell < a.nrCells) :
    a.loadRefcnt (cell * a.cellSize) = some (a.rgn (cell * a.cellSize + 1)) :=
  if_pos (hS.header_lt hcell)

theorem loadNrCells_eq (hS : a.Shape) {cell : ℕ} (hcell : cell < a.nrCells) :
    a.loadNrCells (cell * a.cellSize) = some (a.rgn (cell * a.cellSize)) :=
  if_pos (Nat.lt_of_succ_lt (hS.header_lt hcell))

/-- Writing a byte that is in no header of the cells `P` keeps the headers of `P`. -/
theorem store_spec {addr : ℕ} (haddr : addr < a.regionSize) (val : BitVec 8) :
    ∃ a', a.store addr val = some a' ∧ a.SameCells a' ∧ a'.logHead = a.logHead ∧
      (∀ c, c * a.cellSize ≠ addr → a'.nrAt c = a.nrAt c) ∧
      (∀ c, c * a.cellSize + 1 ≠ addr → a'.refAt c = a.refAt c) ∧ a'.rgn addr = val := by
  refine ⟨_, if_pos haddr, ⟨rfl, rfl⟩, rfl, ?_, ?_, Function.update_self _ _ _⟩
  · intro c hc
    simp [Logalloc.nrAt, hc]
  · intro c hc
    simp [Logalloc.refAt, hc]

/-- Writing a header changes that header only. -/
theorem setHeader_spec (hS : a.Shape) {cell : ℕ} (hcell : cell < a.nrCells) (refcnt nr : ℕ)
    (hrefcnt : refcnt < 256) (hnr : nr < 256) :
    ∃ a', a.setHeader (cell * a.cellSize) refcnt nr = some a' ∧ a.SameCells a' ∧
      a'.logHead = a.logHead ∧ a'.nrAt cell = nr ∧ a'.refAt cell = refcnt ∧
      ∀ c, c ≠ cell → a'.nrAt c = a.nrAt c ∧ a'.refAt c = a.refAt c := by
  have hc := hS.cell
  have hlt := hS.header_lt hcell
  obtain ⟨a₁, hstore₁, hsame₁, hhead₁, hnr₁, href₁, hval₁⟩ :=
    store_spec hlt (BitVec.ofNat 8 refcnt)
  obtain ⟨a₂, hstore₂, hsame₂, hhead₂, hnr₂, href₂, hval₂⟩ :=
    store_spec (show cell * a.cellSize < a₁.regionSize by rw [hsame₁.regionSize]; omega)
      (BitVec.ofNat 8 nr)
  rw [hsame₁.cellSize] at hnr₂ href₂
  have hsame := hsame₁.trans hsame₂
  have hbyte : ∀ {i j : ℕ} (r r' : ℕ), r < 2 → r' < 2 →
      (i * a.cellSize + r = j * a.cellSize + r' ↔ i = j ∧ r = r') := fun r r' hr hr' =>
    cell_byte_inj r r' (by omega) (by omega)
  refine ⟨a₂, ?_, hsame, hhead₂.trans hhead₁, ?_, ?_, ?_⟩
  · simp only [Logalloc.setHeader, Option.bind_eq_bind, hstore₁, Option.bind_some]
    exact hstore₂
  · rw [Logalloc.nrAt, hsame.cellSize, hval₂, BitVec.toNat_ofNat]
    exact Nat.mod_eq_of_lt hnr
  · have hne : cell * a.cellSize + 1 ≠ cell * a.cellSize := by omega
    rw [href₂ cell hne, Logalloc.refAt, hsame₁.cellSize, hval₁, BitVec.toNat_ofNat]
    exact Nat.mod_eq_of_lt hrefcnt
  · intro c hne
    have h00 : c * a.cellSize ≠ cell * a.cellSize := fun h =>
      hne ((hbyte 0 0 (by omega) (by omega)).1 h).1
    have h01 : c * a.cellSize ≠ cell * a.cellSize + 1 := fun h =>
      hne ((hbyte 0 1 (by omega) (by omega)).1 h).1
    have h10 : c * a.cellSize + 1 ≠ cell * a.cellSize := fun h =>
      hne ((hbyte 1 0 (by omega) (by omega)).1 h).1
    have h11 : c * a.cellSize + 1 ≠ cell * a.cellSize + 1 := fun h =>
      hne ((hbyte 1 1 (by omega) (by omega)).1 h).1
    exact ⟨(hnr₂ c h00).trans (hnr₁ c h01), (href₂ c h10).trans (href₁ c h11)⟩

end Headers

/-! ## Gathering free blocks -/

/-- The blocks from `w` on have been gathered up to `w + i`: it is a boundary, and all are free. -/
structure Gathered (a : Logalloc) (starts : Set ℕ) (w i : ℕ) : Prop where
  boundary : w + i = a.nrCells ∨ w + i ∈ starts
  free : ∀ c ∈ starts, w ≤ c → c < w + i → a.refAt c = 0

/-- What the last header looked at tells about the rest: it is the end of the region, or less than
    the length of the last block. -/
def RestOk (a : Logalloc) (w req i last : ℕ) : Prop :=
  req < i → (last = 0 ∧ w + i = a.nrCells) ∨ (0 < last ∧ last ≤ 255 ∧ i < req + last)

section Gather

variable {a : Logalloc} {starts : Set ℕ} {w req : ℕ}

/-- Gathering stays in the region and ends, at an occupied block or with enough cells. -/
theorem logallocGather_spec (hS : a.Shape) (hT : Tiling a.nrCells starts a.lenAt)
    (hreq : w + req ≤ a.nrCells) (i last : ℕ) (hi : Gathered a starts w i)
    (hlast : RestOk a w req i last) :
    ∃ i' last', logallocGather a a.nrCells w req i last = some (i', last') ∧
      (i' < req → w + i' ∈ starts ∧ a.refAt (w + i') ≠ 0) ∧
      (req ≤ i' → Gathered a starts w i' ∧ RestOk a w req i' last') := by
  obtain ⟨n, hn⟩ : ∃ n, req - i = n := ⟨_, rfl⟩
  induction n using Nat.strong_induction_on generalizing i last with
  | _ n ih =>
    rw [logallocGather]
    by_cases hlt : i < req
    · have hmem : w + i ∈ starts := hi.boundary.resolve_left (by omega)
      have hcell := hT.lt _ hmem
      simp only [if_pos hlt, loadRefcnt_eq hS hcell, loadNrCells_eq hS hcell,
        Option.bind_eq_bind, Option.bind_some]
      by_cases href : a.rgn ((w + i) * a.cellSize + 1) = 0
      · have hzero : a.refAt (w + i) = 0 := by
          rw [Logalloc.refAt, href]
          rfl
        have hfree : ∀ j, i < j → j ≤ i + a.lenAt (w + i) →
            ∀ c ∈ starts, w ≤ c → c < w + j → a.refAt c = 0 := by
          intro j hij hj c hc hwc hcj
          rcases Nat.lt_trichotomy c (w + i) with hlt' | rfl | hgt
          · exact hi.free c hc hwc hlt'
          · exact hzero
          · have := hT.gap _ hmem c hc hgt
            omega
        rw [if_neg (by simpa using href)]
        by_cases hnr : (a.rgn ((w + i) * a.cellSize)).toNat = 0
        · -- free up to the end of the region
          rw [dif_pos hnr]
          have hlen : a.lenAt (w + i) = a.nrCells - (w + i) := if_pos hnr
          refine ⟨_, _, rfl, fun hle => absurd hle (by omega),
            fun _ => ⟨⟨.inl (by omega), hfree _ (by omega) (by omega)⟩,
              fun _ => .inl ⟨rfl, by omega⟩⟩⟩
        · rw [dif_neg hnr]
          have hlen : a.lenAt (w + i) = (a.rgn ((w + i) * a.cellSize)).toNat := if_neg hnr
          have hnext := hT.next _ hmem
          rw [hlen, Nat.add_assoc] at hnext
          have hbyte := (a.rgn ((w + i) * a.cellSize)).isLt
          refine ih (req - (i + (a.rgn ((w + i) * a.cellSize)).toNat)) (by omega) _ _
            ⟨hnext, hfree _ (by omega) (by omega)⟩ ?_ rfl
          exact fun _ => .inr ⟨by omega, by omega, by omega⟩
      · -- an occupied block
        rw [if_pos (by simpa using href)]
        exact ⟨_, _, rfl, fun _ => ⟨hmem, fun hzero => href (BitVec.eq_of_toNat_eq hzero)⟩,
          fun hle => absurd hle (by omega)⟩
    · rw [if_neg hlt]
      exact ⟨i, last, rfl, fun hlt' => absurd hlt' hlt, fun _ => ⟨hi, hlast⟩⟩

end Gather

/-! ## Rewriting the headers of some blocks -/

/-- The blocks between `w` and `e` became one of length `r`, with `ref` references, and a free
    rest. -/
structure Rewritten (a a' : Logalloc) (w e r ref : ℕ) : Prop where
  same : a.SameCells a'
  len_eq : a'.lenAt w = r
  ref_eq : a'.refAt w = ref
  rest : w + r < e → a'.refAt (w + r) = 0 ∧ a'.lenAt (w + r) = e - (w + r)
  frame : ∀ c, ¬ (w ≤ c ∧ c < e) → a'.nrAt c = a.nrAt c ∧ a'.refAt c = a.refAt c

section Rewrite

variable {a a' : Logalloc} {starts : Set ℕ} {w e r ref req : ℕ}

theorem Logalloc.SameCells.lenAt (h : a.SameCells a') {c : ℕ} (hnr : a'.nrAt c = a.nrAt c) :
    a'.lenAt c = a.lenAt c := by
  rw [Logalloc.lenAt, Logalloc.lenAt, hnr, h.nrCells]

theorem Logalloc.Chain.store {starts : Set ℕ} (hC : a.Chain starts) {addr : ℕ} {val : BitVec 8}
    (hnr : ∀ c ∈ starts, c * a.cellSize ≠ addr) (h : a.store addr val = some a') :
    a'.Chain starts := by
  by_cases haddr : addr < a.regionSize
  · obtain ⟨b, hstore, hsame, hhead, hnr', -⟩ := store_spec haddr val
    obtain rfl := Option.some.inj (hstore.symm.trans h)
    refine ⟨hsame.shape hC.shape, ?_, hhead ▸ hC.head⟩
    rw [hsame.nrCells]
    exact hC.tiling.congr fun c hc => hsame.lenAt (hnr' c (hnr c hc))
  · rw [Logalloc.store, if_neg haddr] at h
    cases h

theorem Rewritten.tiling (h : Rewritten a a' w e r ref) (hT : Tiling a.nrCells starts a.lenAt)
    (hw : w ∈ starts) (he : e = a.nrCells ∨ e ∈ starts) (hr : 0 < r) (hre : w + r ≤ e) :
    Tiling a'.nrCells (resplit starts w e r) a'.lenAt := by
  rw [h.same.nrCells]
  refine hT.resplit hw he hr hre ?_ h.len_eq (fun hlt => (h.rest hlt).2)
  intro b _ hout
  exact h.same.lenAt (h.frame b hout).1

/-- The chain after blocks became one block and a free rest. -/
theorem Rewritten.chain (h : Rewritten a a' w e r ref) (hC : a.Chain starts) (hw : w ∈ starts)
    (he : e = a.nrCells ∨ e ∈ starts) (hr : 0 < r) (hre : w + r ≤ e)
    (hhead : a'.logHead ∈ resplit starts w e r) : a'.Chain (resplit starts w e r) where
  shape := h.same.shape hC.shape
  tiling := h.tiling hC.tiling hw he hr hre
  head := hhead

/-- Where the log head goes after a block of length `r` was handed out is a boundary. -/
theorem head_mem_resplit (hT : Tiling a.nrCells starts a.lenAt) (he : e = a.nrCells ∨ e ∈ starts)
    (hre : w + r ≤ e) : (w + r) % a.nrCells ∈ resplit starts w e r := by
  have hend : e ≤ a.nrCells := by
    rcases he with rfl | he
    · exact Nat.le_refl _
    · exact Nat.le_of_lt (hT.lt _ he)
  rcases Nat.lt_or_ge (w + r) a.nrCells with hlt | hge
  · rw [Nat.mod_eq_of_lt hlt]
    rcases Nat.lt_or_ge (w + r) e with hlt' | hge'
    · exact .inr ⟨rfl, hlt'⟩
    · obtain rfl : e = w + r := by omega
      exact mem_resplit_of_outside (he.resolve_left (by omega)) (by omega)
  · obtain rfl : e = a.nrCells := by omega
    rw [show w + r = a.nrCells by omega, Nat.mod_self]
    exact mem_resplit_of_outside hT.zero_mem (by omega)

/-- `logallocMarkRest` writes one header: the rest is always less than one block can be. -/
theorem logallocMarkRest_eq {rem : ℕ} (hrem : rem ≤ 255) :
    logallocMarkRest a rem = a.setHeader (a.logHead * a.cellSize) 0 rem := by
  rw [logallocMarkRest]
  have hval : (if rem > 255 then 255 else rem) = rem := if_neg (by omega)
  simp [hval]

/-- The blocks from the log head to the end become one free block. -/
theorem setHeader_tail (hS : a.Shape) (hw : w < a.nrCells) (hlen : a.nrCells - w < 256) :
    ∃ a', a.setHeader (w * a.cellSize) 0 (a.nrCells - w) = some a' ∧ a'.logHead = a.logHead ∧
      Rewritten a a' w a.nrCells (a.nrCells - w) 0 := by
  obtain ⟨a', hset, hsame, hhead, hnr, href, hframe⟩ :=
    setHeader_spec hS hw 0 (a.nrCells - w) (by omega) hlen
  refine ⟨a', hset, hhead, hsame, ?_, href, fun hlt => by omega, ?_⟩
  · rw [Logalloc.lenAt, hnr, if_neg (by omega)]
  · intro c hc
    exact hframe c (by rintro rfl; omega)

/-- `logallocCarve` for at least one cell: it fails at an occupied block and changes nothing, or hands
    out the first `req` cells of the free blocks it gathered. -/
theorem logallocCarve_spec (hS : a.Shape) (hT : Tiling a.nrCells starts a.lenAt) (hw : w ∈ starts)
    (hreq : w + req ≤ a.nrCells) (hpos : 0 < req) (hmax : req ≤ 255) :
    (logallocCarve a a.nrCells w req = some (aENomem, none, a) ∧ ∃ c ∈ starts, a.refAt c ≠ 0) ∨
      ∃ i a', logallocCarve a a.nrCells w req = some (aOk, some (w * a.cellSize + 2), a') ∧
        Gathered a starts w i ∧ req ≤ i ∧ Rewritten a a' w (w + i) req 1 ∧ a'.nrAt w = req ∧
        a'.logHead = (w + req) % a.nrCells := by
  have hwlt := hT.lt w hw
  obtain ⟨i, last, hgather, hstop, hdone⟩ := logallocGather_spec hS hT hreq 0 0
    ⟨.inr hw, fun c _ _ hlt => absurd hlt (by omega)⟩ (fun hlt => absurd hlt (by omega))
  by_cases hlt : i < req
  · refine .inl ⟨?_, w + i, hstop hlt⟩
    simp [logallocCarve, hgather, hlt]
  · right
    obtain ⟨hgathered, hrest⟩ := hdone (by omega)
    have hend : w + i ≤ a.nrCells := by
      rcases hgathered.boundary with heq | hmem
      · omega
      · exact Nat.le_of_lt (hT.lt _ hmem)
    obtain ⟨a₁, hset, hsame, -, hnr, href, hframe⟩ :=
      setHeader_spec hS hwlt 1 req (by omega) (by omega)
    have hlen₁ : a₁.lenAt w = req := by
      rw [Logalloc.lenAt, hnr, if_neg (by omega)]
    set a₂ : Logalloc := { a₁ with logHead := (w + req) % a.nrCells } with ha₂
    have hsame₂ : a.SameCells a₂ := ⟨hsame.cellSize, hsame.regionSize⟩
    refine ⟨i, ?_⟩
    by_cases hri : req < i
    · -- the rest is marked: as everything up to the end, or by its length
      have hhead : a₂.logHead = w + req := Nat.mod_eq_of_lt (by omega)
      set rem := if last = 0 then 0 else i - req with hrem
      have hrem_le : rem ≤ 255 := by
        rw [hrem]
        rcases hrest hri with ⟨h0, -⟩ | ⟨-, h255, hlt'⟩
        · simp [h0]
        · split <;> omega
      obtain ⟨a₃, hmark, hsame₃, hhead₃, hnr₃, href₃, hframe₃⟩ := setHeader_spec
        (hsame₂.shape hS) (show w + req < a₂.nrCells by rw [hsame₂.nrCells]; omega) 0 rem
        (by omega) (by omega)
      have hsame₁₃ := hsame₂.trans hsame₃
      have hw₃ := hframe₃ w (by omega)
      refine ⟨a₃, ?_, hgathered, by omega, ⟨hsame₁₃, ?_, ?_, ?_, ?_⟩, ?_, ?_⟩
      · simp only [logallocCarve, hgather, Option.bind_eq_bind, Option.bind_some, if_neg hlt, hset,
          if_pos hri]
        rw [logallocMarkRest_eq hrem_le, ← ha₂, hhead, hmark]
        rfl
      · rw [hsame₃.lenAt hw₃.1]
        exact hlen₁
      · exact hw₃.2.trans href
      · intro _
        refine ⟨href₃, ?_⟩
        rw [Logalloc.lenAt, hnr₃, hsame₁₃.nrCells]
        rcases hrest hri with ⟨h0, hlast⟩ | ⟨h0, -, hlt'⟩
        · have hrem₀ : rem = 0 := if_pos h0
          rw [if_pos hrem₀]
          omega
        · have hrem₁ : rem = i - req := if_neg (by omega)
          rw [if_neg (by omega), hrem₁]
          omega
      · intro c hc
        have h₃ := hframe₃ c (by omega)
        have h₁ := hframe c (by omega)
        exact ⟨h₃.1.trans h₁.1, h₃.2.trans h₁.2⟩
      · exact hw₃.1.trans hnr
      · rw [hhead₃]
    · refine ⟨a₂, ?_, hgathered, by omega, ⟨hsame₂, hlen₁, href, fun h => by omega, ?_⟩, hnr, rfl⟩
      · simp [logallocCarve, hgather, hlt, hset, hri, ← ha₂]
      · intro c hc
        exact hframe c (by omega)

/-- `logallocCarve` for no cells at all: the block it hands out says that it goes up to the end. -/
theorem logallocCarve_zero (hS : a.Shape) (hw : w < a.nrCells) :
    ∃ a', logallocCarve a a.nrCells w 0 = some (aOk, some (w * a.cellSize + 2), a') ∧
      Rewritten a a' w a.nrCells (a.nrCells - w) 1 ∧ a'.nrAt w = 0 ∧ a'.logHead = w := by
  obtain ⟨a₁, hset, hsame, -, hnr, href, hframe⟩ :=
    setHeader_spec hS hw 1 0 (by omega) (by omega)
  have hgather : logallocGather a a.nrCells w 0 0 0 = some (0, 0) := by
    rw [logallocGather, if_neg (Nat.lt_irrefl 0)]
  set a₂ : Logalloc := { a₁ with logHead := (w + 0) % a.nrCells } with ha₂
  have hsame₂ : a.SameCells a₂ := ⟨hsame.cellSize, hsame.regionSize⟩
  refine ⟨a₂, ?_, ⟨hsame₂, ?_, href, fun h => by omega, ?_⟩, hnr, Nat.mod_eq_of_lt hw⟩
  · simp [logallocCarve, hgather, hset, ha₂]
  · have h0 : a₂.nrAt w = 0 := hnr
    rw [Logalloc.lenAt, if_pos h0, hsame₂.nrCells]
  · intro c hc
    exact hframe c (by rintro rfl; omega)

end Rewrite

/-! ## A new allocator -/

/-- The cells of a new allocator are a power of two, and have room for a header unless
    `cell_size + 2` wrapped to 1. -/
theorem celSize_eq {cellSize : BitVec 64} (hcell : cellSize ≠ BitVec.allOnes 64)
    (hpos : 0 < (tslRoundUp2_64 (cellSize + 2)).toNat) :
    ∃ k, 1 ≤ k ∧ k < 64 ∧ (tslRoundUp2_64 (cellSize + 2)).toNat = 2 ^ k := by
  have hsub : cellSize + 2 - 1 = cellSize + 1 := by
    rw [show (2 : BitVec 64) = 1 + 1 from rfl, ← BitVec.add_assoc, BitVec.add_sub_cancel]
  have hround := tslRoundUp2_64_toNat (cellSize + 2)
  rw [hsub] at hround
  refine ⟨Nat.size (cellSize + 1).toNat, ?_, ?_, ?_⟩
  · -- the size is 0 only where the sum wraps to 1
    rw [Nat.one_le_iff_ne_zero, Ne, Nat.size_eq_zero]
    intro hzero
    refine hcell (BitVec.eq_of_toNat_eq ?_)
    rw [BitVec.toNat_add] at hzero
    rw [BitVec.toNat_allOnes]
    have := cellSize.isLt
    simp only [BitVec.reduceToNat] at hzero
    omega
  · by_contra hge
    rw [hround, Nat.mod_eq_zero_of_dvd (Nat.pow_dvd_pow 2 (Nat.le_of_not_lt hge))] at hpos
    exact Nat.lt_irrefl 0 hpos
  · rw [hround]
    by_contra hne
    have hge : 64 ≤ Nat.size (cellSize + 1).toNat := by
      by_contra hlt
      exact hne (Nat.mod_eq_of_lt (Nat.pow_lt_pow_right (by decide) (Nat.lt_of_not_le hlt)))
    rw [hround, Nat.mod_eq_zero_of_dvd (Nat.pow_dvd_pow 2 hge)] at hpos
    exact Nat.lt_irrefl 0 hpos

theorem logallocNew_inv {cellSize nrCells : BitVec 64} {calloc : Bool}
    {alloc : BitVec 64 → AResult × (ℕ → BitVec 8)} {ret : AResult} {a : Logalloc}
    (hnew : logallocNew cellSize nrCells calloc alloc = some (ret, some a)) :
    cellSize ≠ 0 ∧ nrCells ≠ 0 ∧ ∃ rgn a₁,
      Logalloc.store
        { rgn := rgn, logHead := 0, cellSize := (tslRoundUp2_64 (cellSize + 2)).toNat,
          regionSize := (tslRoundUp2_64 (cellSize + 2) * nrCells).toNat } 0 0 = some a₁ ∧
      a₁.store 1 0 = some a := by
  simp only [logallocNew] at hnew
  split at hnew
  · simp at hnew
  split at hnew
  · simp at hnew
  split at hnew
  · simp at hnew
  split at hnew
  · simp at hnew
  next hsize hcells _ _ =>
  simp only [Option.bind_eq_bind, Option.bind_eq_some_iff, Option.some.injEq, Prod.mk.injEq] at hnew
  obtain ⟨a₁, h₁, a₂, h₂, -, rfl⟩ := hnew
  exact ⟨hsize, hcells, _, a₁, h₁, h₂⟩

/-- The cell size is the one `logalloc_new` computed. -/
theorem logallocNew_cellSize {cellSize nrCells : BitVec 64} {calloc : Bool}
    {alloc : BitVec 64 → AResult × (ℕ → BitVec 8)} {ret : AResult} {a : Logalloc}
    (hnew : logallocNew cellSize nrCells calloc alloc = some (ret, some a)) :
    a.cellSize = (tslRoundUp2_64 (cellSize + 2)).toNat := by
  obtain ⟨-, -, rgn, a₁, h₁, h₂⟩ := logallocNew_inv hnew
  simp only [Logalloc.store, Option.ite_none_right_eq_some, Option.some.injEq] at h₁ h₂
  obtain ⟨-, rfl⟩ := h₁
  obtain ⟨-, rfl⟩ := h₂
  rfl

theorem celSize_isRoundUp2 {cellSize : BitVec 64} (hle : cellSize.toNat ≤ 2 ^ 63 - 2) :
    IsRoundUp2 (cellSize.toNat + 2) (tslRoundUp2_64 (cellSize + 2)).toNat := by
  have hsum : (cellSize + 2).toNat = cellSize.toNat + 2 := by
    rw [BitVec.toNat_add]
    exact Nat.mod_eq_of_lt (by simp only [BitVec.reduceToNat]; omega)
  rw [← hsum]
  exact tslRoundUp2_64_isLeast (by omega) (by omega)

/-- **Rounding up to a power of two** in 64 bits gives the least one that is not below the value, up to
the greatest there is; so the cells of an allocator are a power of two, and have room for what was
asked for and the header. -/
theorem roundUp2_cells :
    (∀ value : BitVec 64, 1 ≤ value.toNat → value.toNat ≤ 2 ^ 63 →
      IsRoundUp2 value.toNat (tslRoundUp2_64 value).toNat) ∧
    ∀ cellSize : BitVec 64, cellSize.toNat ≤ 2 ^ 63 - 2 →
      IsRoundUp2 (cellSize.toNat + 2) (tslRoundUp2_64 (cellSize + 2)).toNat ∧
      ∀ (nrCells : BitVec 64) (calloc : Bool) (alloc : BitVec 64 → AResult × (ℕ → BitVec 8))
        (ret : AResult) (a : Logalloc),
        logallocNew cellSize nrCells calloc alloc = some (ret, some a) →
        IsRoundUp2 (cellSize.toNat + 2) a.cellSize := by
  refine ⟨fun value hpos hle => tslRoundUp2_64_isLeast hpos hle, fun cellSize hle =>
    ⟨celSize_isRoundUp2 hle, fun nrCells calloc alloc ret a hnew => ?_⟩⟩
  rw [logallocNew_cellSize hnew]
  exact celSize_isRoundUp2 hle

theorem roundUp2_cells_hundred :
    IsRoundUp2 (2 ^ 63) (tslRoundUp2_64 (BitVec.ofNat 64 (2 ^ 63))).toNat ∧
    ∃ a, logallocNew 100 4 true (logallocDefaultAlloc true) = some (aOk, some a) ∧
      IsRoundUp2 102 a.cellSize := by
  have hsome : ((logallocNew 100 4 true (logallocDefaultAlloc true)).map fun (ret, a) =>
      (ret, a.isSome)) = some (aOk, true) := by decide +kernel
  obtain ⟨⟨ret, a⟩, hnew, hfacts⟩ := Option.map_eq_some_iff.1 hsome
  obtain ⟨rfl, ha⟩ := Prod.mk.inj hfacts
  obtain ⟨a, rfl⟩ := Option.isSome_iff_exists.1 ha
  exact ⟨roundUp2_cells.1 _ (by decide) (by decide), a, hnew,
    (roundUp2_cells.2 100 (by decide)).2 4 true _ aOk a hnew⟩

/-- A new allocator is one free block. -/
theorem logallocNew_spec {cellSize nrCells : BitVec 64} {calloc : Bool}
    {alloc : BitVec 64 → AResult × (ℕ → BitVec 8)} {ret : AResult} {a : Logalloc}
    (hnew : logallocNew cellSize nrCells calloc alloc = some (ret, some a))
    (hcell : cellSize ≠ BitVec.allOnes 64) :
    a.Chain {0} ∧ a.refAt 0 = 0 ∧ a.regionSize < 2 ^ 64 ∧ a.cellSize ∣ 2 ^ 64 := by
  obtain ⟨-, -, rgn, a₁, h₁, h₂⟩ := logallocNew_inv hnew
  set celSize := tslRoundUp2_64 (cellSize + 2) with hcel
  have hrgn : 0 < (celSize * nrCells).toNat := by
    by_contra hle
    rw [Logalloc.store, if_neg hle] at h₁
    cases h₁
  have hcelpos : 0 < celSize.toNat := by
    by_contra hle
    rw [BitVec.toNat_mul, show celSize.toNat = 0 by omega, Nat.zero_mul] at hrgn
    exact absurd hrgn (by decide)
  obtain ⟨k, hk, hk64, hpow⟩ := celSize_eq hcell hcelpos
  -- the region is a whole number of cells also where its size wrapped
  have hdvd : celSize.toNat ∣ (celSize * nrCells).toNat := by
    rw [BitVec.toNat_mul, Nat.dvd_mod_iff (by rw [hpow]; exact Nat.pow_dvd_pow 2 (by omega))]
    exact Nat.dvd_mul_right _ _
  have hcel2 : 2 ≤ celSize.toNat := by
    rw [hpow]
    exact Nat.pow_le_pow_right (n := 2) (by decide) hk
  obtain ⟨a₁', hs₁, hsame₁, hhead₁, -, -, hval₁⟩ := store_spec (a :=
    { rgn := rgn, logHead := 0, cellSize := celSize.toNat,
      regionSize := (celSize * nrCells).toNat }) hrgn 0
  obtain rfl : a₁ = a₁' := Option.some.inj (h₁.symm.trans hs₁)
  have hrgn₁ : 1 < a₁.regionSize := by
    rw [hsame₁.regionSize]
    exact Nat.lt_of_lt_of_le hcel2 (Nat.le_of_dvd hrgn hdvd)
  obtain ⟨a₂', hs₂, hsame₂, hhead₂, hnr₂, -, hval₂⟩ := store_spec hrgn₁ 0
  obtain rfl : a = a₂' := Option.some.inj (h₂.symm.trans hs₂)
  have hsame := hsame₁.trans hsame₂
  have hnr : a.nrAt 0 = 0 := by
    rw [hnr₂ 0 (by omega), Logalloc.nrAt, Nat.zero_mul, hval₁]
    rfl
  have href : a.refAt 0 = 0 := by
    rw [Logalloc.refAt, Nat.zero_mul, Nat.zero_add, hval₂]
    rfl
  have hshape : a.Shape := by
    constructor
    · rw [hsame.cellSize]
      exact hcel2
    · rw [Logalloc.nrCells, hsame.cellSize, hsame.regionSize]
      exact (Nat.div_mul_cancel hdvd).symm
    · rw [Logalloc.nrCells, hsame.cellSize, hsame.regionSize]
      exact Nat.div_pos (Nat.le_of_dvd hrgn hdvd) hcelpos
  refine ⟨⟨hshape, tiling_single hshape.pos ?_, ?_⟩, href, ?_, ?_⟩
  · rw [Logalloc.lenAt, if_pos hnr, Nat.sub_zero]
  · rw [hhead₂, hhead₁]
    rfl
  · rw [hsame.regionSize]
    exact (celSize * nrCells).isLt
  · rw [hsame.cellSize]
    exact hpow ▸ Nat.pow_dvd_pow 2 (Nat.le_of_lt hk64)

end Tsl
