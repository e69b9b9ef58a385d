import Tsl.Alloc.Logalloc.Headers
import Tsl.Alloc.Logalloc.Region

set_option autoImplicit false

/-! # What the log allocator prepares

`logalloc_prepare_region` looks for free blocks from the log head on, and goes on looking once it has
found more than it needs: up to an occupied block, or one that goes up to the end. Where there is
neither it looks at headers behind the last cell. `logallocPrepareRegion_cases` says, for a region that
is tiled by its blocks, when a call refuses, when it leaves the region, and when it takes cells. -/

namespace Tsl

open Lib

namespace Logalloc

/-- `avail_cells - virt_log_head`, as a `size_t`, is no less than the cells asked for. -/
def TailCounts (a : Logalloc) (n : ℕ) : Prop :=
  a.nrCells < 2 * a.logHead ∨ n + 2 * a.logHead ≤ a.nrCells

/-- The first free block at the log head has more cells than asked for, and all blocks behind it are
    free, but none says that it goes up to the end; or the first one does, and all its cells are
    asked for, so that there is no cell left for its marker. -/
def Overruns (a : Logalloc) (n : ℕ) : Prop :=
  (n < a.nrAt a.logHead ∧
    ∀ c ∈ a.positions, a.logHead ≤ c → a.refAt c = 0 ∧ a.nrAt c ≠ 0) ∨
  (a.refAt a.logHead = 0 ∧ a.nrAt a.logHead = 0 ∧ n = a.nrCells - a.logHead ∧ a.TailCounts n)

/-- The first block at the log head has just the cells asked for; or it has more, and the blocks behind
    it end in one that goes up to the end, unless the log head is at a place where too few of its cells
    are counted. -/
def Serves (a : Logalloc) (n : ℕ) : Prop :=
  a.nrAt a.logHead = n ∨
    n < a.lenAt a.logHead ∧ (∃ c ∈ a.positions, a.nrAt c = 0) ∧ a.TailCounts n

instance (a : Logalloc) (n : ℕ) : Decidable (a.TailCounts n) := inferInstanceAs (Decidable (_ ∨ _))

instance (a : Logalloc) (n : ℕ) : Decidable (a.Overruns n) := inferInstanceAs (Decidable (_ ∨ _))

instance (a : Logalloc) (n : ℕ) : Decidable (a.Serves n) := inferInstanceAs (Decidable (_ ∨ _))

end Logalloc

section Scan

variable {a a' : Logalloc} {starts : Set ℕ} {w n found avail : ℕ}

theorem refAt_eq_zero_iff {cell : ℕ} : a.rgn (cell * a.cellSize + 1) = 0 ↔ a.refAt cell = 0 :=
  ⟨fun h => by rw [Logalloc.refAt, h]; rfl, fun h => BitVec.eq_of_toNat_eq h⟩

/-- One pass of the loop that looks for free blocks. -/
theorem logallocScan_eq (hS : a.Shape) (hcell : w + found < a.nrCells) (n avail : ℕ) :
    logallocScan a n avail w found =
      if a.refAt (w + found) ≠ 0 then some (found, false)
      else if a.nrAt (w + found) = 0 then
        some ((BitVec.ofNat 64 avail - BitVec.ofNat 64 w).toNat, true)
      else if n < found + a.nrAt (w + found) then
        logallocScan a n avail w (found + a.nrAt (w + found))
      else some (found + a.nrAt (w + found), false) := by
  have hpos : 0 < a.cellSize := Nat.lt_of_lt_of_le (by decide) hS.cell
  rw [logallocScan, dif_pos hpos]
  split
  · next h =>
    rw [loadRefcnt_eq hS hcell] at h
    cases h
  · next refcnt h =>
    rw [loadRefcnt_eq hS hcell] at h
    obtain rfl := Option.some.inj h
    simp only [loadNrCells_eq hS hcell, ne_eq, refAt_eq_zero_iff]
    have htail : BitVec.ofNat 64 found + (BitVec.ofNat 64 avail - BitVec.ofNat 64 w -
        BitVec.ofNat 64 found) = BitVec.ofNat 64 avail - BitVec.ofNat 64 w := by
      rw [BitVec.add_comm, BitVec.sub_add_cancel]
    rw [htail]
    rfl

theorem logallocScan_end (hS : a.Shape) (hend : w + found = a.nrCells) :
    logallocScan a n avail w found = none := by
  have hpos : 0 < a.cellSize := Nat.lt_of_lt_of_le (by decide) hS.cell
  have hout : a.loadRefcnt ((w + found) * a.cellSize) = none := by
    rw [hend, ← hS.region]
    exact if_neg (by omega)
  rw [logallocScan, dif_pos hpos]
  split
  · rfl
  · next h =>
    rw [hout] at h
    cases h

theorem Gathered.snoc (hT : Tiling a.nrCells starts a.lenAt) (hG : Gathered a starts w found)
    (hmem : w + found ∈ starts) (href : a.refAt (w + found) = 0) :
    Gathered a starts w (found + a.lenAt (w + found)) where
  boundary := by
    rw [← Nat.add_assoc]
    exact hT.next _ hmem
  free := by
    intro c hc hwc hlt
    rcases Nat.lt_trichotomy c (w + found) with hlt' | rfl | hgt
    · exact hG.free c hc hwc hlt'
    · exact href
    · have := hT.gap _ hmem c hc hgt
      omega

/-- **Once it has found more than it needs** the loop goes on. It stops at an occupied block, or
    where the rest is free up to the end. If there is neither it runs out of the region. -/
theorem logallocScan_beyond (hS : a.Shape) (hT : Tiling a.nrCells starts a.lenAt) (hn : n < found)
    (hG : Gathered a starts w found) (avail : ℕ) :
    ((∀ c ∈ starts, w + found ≤ c → a.refAt c = 0 ∧ a.nrAt c ≠ 0) ∧
      logallocScan a n avail w found = none) ∨
    ((∀ c ∈ starts, w ≤ c → a.refAt c = 0) ∧ (∃ c ∈ starts, w + found ≤ c ∧ a.nrAt c = 0) ∧
      logallocScan a n avail w found =
        some ((BitVec.ofNat 64 avail - BitVec.ofNat 64 w).toNat, true)) ∨
    ∃ i, found ≤ i ∧ Gathered a starts w i ∧ w + i ∈ starts ∧ a.refAt (w + i) ≠ 0 ∧
      logallocScan a n avail w found = some (i, false) := by
  obtain ⟨m, hm⟩ : ∃ m, a.nrCells - found = m := ⟨_, rfl⟩
  induction m using Nat.strong_induction_on generalizing found with
  | _ m ih =>
      rcases hG.boundary with hend | hmem
      · refine .inl ⟨fun c hc hle => ?_, logallocScan_end hS hend⟩
        have := hT.lt c hc
        omega
      · have hcell := hT.lt _ hmem
        rw [logallocScan_eq hS hcell n avail]
        by_cases href : a.refAt (w + found) = 0
        · rw [if_neg (not_not.2 href)]
          have hG' := hG.snoc hT hmem href
          by_cases hnr : a.nrAt (w + found) = 0
          · -- the last block, which goes up to the end
            have hlen : a.lenAt (w + found) = a.nrCells - (w + found) := if_pos hnr
            refine .inr (.inl ⟨fun c hc hwc => ?_, ⟨_, hmem, Nat.le_refl _, hnr⟩, if_pos hnr⟩)
            have := hT.lt c hc
            exact hG'.free c hc hwc (by omega)
          · have hlen : a.lenAt (w + found) = a.nrAt (w + found) := if_neg hnr
            rw [hlen] at hG'
            rw [if_neg hnr, if_pos (by omega)]
            have hbeyond : ∀ c ∈ starts, w + found ≤ c → c ≠ w + found →
                w + (found + a.nrAt (w + found)) ≤ c := by
              intro c hc hle hne
              have := hT.gap _ hmem c hc (by omega)
              omega
            rcases ih _ (by omega) (by omega) hG' rfl with
              ⟨hall, hscan⟩ | ⟨hfree, ⟨c, hc, hle, hzero⟩, hscan⟩ | ⟨i, hi, hGi, hmi, hri, hscan⟩
            · refine .inl ⟨fun c hc hle => ?_, hscan⟩
              by_cases hcw : c = w + found
              · subst hcw
                exact ⟨href, hnr⟩
              · exact hall c hc (hbeyond c hc hle hcw)
            · exact .inr (.inl ⟨hfree, ⟨c, hc, by omega, hzero⟩, hscan⟩)
            · exact .inr (.inr ⟨i, by omega, hGi, hmi, hri, hscan⟩)
        · rw [if_pos href]
          exact .inr (.inr ⟨found, Nat.le_refl _, hG, hmem, href, rfl⟩)

/-! ## Where the region is put -/

/-- The headers `logalloc_prepare_region` writes: that of the region, and those of the rest. -/
def logallocPlaceRegion (a : Logalloc) (nrCells foundCells : ℕ) (remainder : Bool) :
    Option Logalloc := do
  let b ← a.setHeader (a.logHead * a.cellSize) 0 nrCells
  if remainder then b.setHeader ((a.logHead + nrCells) * b.cellSize) 0 0
  else logallocMarkCells b a.logHead nrCells (foundCells - nrCells)

theorem logallocPrepareRegion_eq (hS : a.Shape) (hhead : a.logHead < a.nrCells)
    {sizeHint : BitVec 64} (hsize : sizeHint ≠ 0) (pptr : Option ℕ) (psize : ℕ)
    (hroom : logallocHintCells a sizeHint ≤ a.nrCells - a.logHead) (href : a.refAt a.logHead = 0) :
    logallocPrepareRegion a sizeHint pptr psize =
      (logallocScan a (logallocHintCells a sizeHint) (a.nrCells - a.logHead) a.logHead 0).bind
        fun found =>
          if found.1 < logallocHintCells a sizeHint then some (aENomem, pptr, psize, a)
          else (logallocPlaceRegion a (logallocHintCells a sizeHint) found.1 found.2).map fun b =>
            (aOk, some (a.logHead * b.cellSize + 2),
              logallocHintCells a sizeHint * b.cellSize % 2 ^ 64, b) := by
  have hnot : ¬ a.nrCells - a.logHead < logallocHintCells a sizeHint := Nat.not_lt.2 hroom
  have hload : a.rgn (a.logHead * a.cellSize + 1) = 0 := refAt_eq_zero_iff.2 href
  simp only [logallocPrepareRegion, if_neg hsize, if_neg hnot, loadRefcnt_eq hS hhead, hload,
    Option.bind_eq_bind, Option.bind_some, ne_eq, not_true_eq_false, if_false]
  refine Option.bind_congr fun found _ => ?_
  by_cases hfew : found.1 < logallocHintCells a sizeHint
  · simp only [if_pos hfew]
  · simp only [if_neg hfew, logallocPlaceRegion, Option.bind_eq_bind]
    cases hset : a.setHeader (a.logHead * a.cellSize) 0 (logallocHintCells a sizeHint) with
    | none => rfl
    | some b =>
        simp only [Option.bind_some]
        cases found.2 with
        | true => cases b.setHeader ((a.logHead + logallocHintCells a sizeHint) * b.cellSize) 0 0 <;> rfl
        | false =>
            cases logallocMarkCells b a.logHead (logallocHintCells a sizeHint)
              (found.1 - logallocHintCells a sizeHint) <;> rfl

theorem logallocPrepareRegion_refused (hS : a.Shape) (hhead : a.logHead < a.nrCells)
    {sizeHint : BitVec 64} (hsize : sizeHint ≠ 0) (pptr : Option ℕ) (psize : ℕ)
    (hfew : a.nrCells - a.logHead < logallocHintCells a sizeHint ∨ a.refAt a.logHead ≠ 0) :
    logallocPrepareRegion a sizeHint pptr psize = some (aENomem, pptr, psize, a) := by
  by_cases hroom : a.nrCells - a.logHead < logallocHintCells a sizeHint
  · simp only [logallocPrepareRegion, if_neg hsize, if_pos hroom]
  · have href : ¬ a.rgn (a.logHead * a.cellSize + 1) = 0 := fun h =>
      hfew.resolve_left hroom (refAt_eq_zero_iff.1 h)
    simp only [logallocPrepareRegion, if_neg hsize, if_neg hroom, loadRefcnt_eq hS hhead,
      Option.bind_eq_bind, Option.bind_some, ne_eq, href, not_false_eq_true, if_true]

/-- Headers are written for the cells that are left over. Before that, `len` says how long the blocks
    are to be. -/
theorem logallocMarkCells_spec {len : ℕ → ℕ} {virt cur rem : ℕ} (hS : a.Shape)
    (hT : Tiling a.nrCells starts len)
    (hrest : 0 < rem → virt + cur ∈ starts ∧ len (virt + cur) = rem)
    (hlen : ∀ c ∈ starts, ¬ (0 < rem ∧ c = virt + cur) → a.lenAt c = len c) :
    ∃ a' starts', logallocMarkCells a virt cur rem = some a' ∧ a.SameCells a' ∧
      a'.logHead = a.logHead ∧ Tiling a'.nrCells starts' a'.lenAt ∧ ∀ c ∈ starts, c ∈ starts' := by
  induction rem using Nat.strong_induction_on generalizing a starts len cur with
  | _ rem ih =>
      rw [logallocMarkCells]
      by_cases hrem : rem > 0
      · obtain ⟨hmem, hlenw⟩ := hrest hrem
        have hcell := hT.lt _ hmem
        set nr := if rem > 255 then 255 else rem with hnr
        have hnr' : 0 < nr ∧ nr ≤ 255 ∧ nr ≤ rem := by
          rw [hnr]
          split <;> omega
        obtain ⟨a₁, hset, hsame, hhead, hnr₁, -, hframe⟩ :=
          setHeader_spec hS hcell 0 nr (by omega) (by omega)
        -- the block to be written is split where it is longer than one header can say
        set len' : ℕ → ℕ := fun c => if c = virt + cur then nr
          else if c = virt + (cur + nr) ∧ nr < rem then rem - nr else len c with hlen'
        have hT' : Tiling a₁.nrCells (resplit starts (virt + cur) (virt + cur + rem) nr) len' := by
          rw [hsame.nrCells]
          refine hT.resplit hmem ?_ hnr'.1 (by omega) ?_ (if_pos rfl) ?_
          · rw [← hlenw]
            exact hT.next _ hmem
          · intro c hc hout
            simp only [hlen']
            rw [if_neg (by omega), if_neg (by omega)]
          · intro hlt
            simp only [hlen']
            rw [if_neg (by omega), if_pos (by omega)]
            omega
        have hrest' : 0 < rem - nr →
            virt + (cur + nr) ∈ resplit starts (virt + cur) (virt + cur + rem) nr ∧
              len' (virt + (cur + nr)) = rem - nr := by
          intro hpos
          refine ⟨.inr ⟨by omega, by omega⟩, ?_⟩
          simp only [hlen']
          rw [if_neg (by omega), if_pos ⟨trivial, by omega⟩]
        have hwritten : ∀ c ∈ resplit starts (virt + cur) (virt + cur + rem) nr,
            ¬ (0 < rem - nr ∧ c = virt + (cur + nr)) → a₁.lenAt c = len' c := by
          rintro c (⟨hc, hout⟩ | ⟨rfl, hlt⟩) hne
          · simp only [hlen']
            by_cases hcw : c = virt + cur
            · rw [if_pos hcw, hcw, Logalloc.lenAt, hnr₁, if_neg (by omega)]
            · rw [if_neg hcw, if_neg (by omega), hsame.lenAt (hframe c hcw).1]
              exact hlen c hc (by omega)
          · omega
        rw [dif_pos hrem]
        simp only [hset, Option.bind_eq_bind, Option.bind_some]
        obtain ⟨a', starts', hmark, hsame', hhead', htile, hsub⟩ :=
          ih (rem - nr) (by omega) (hsame.shape hS) hT' hrest' hwritten
        refine ⟨a', starts', hmark, hsame.trans hsame', hhead'.trans hhead, htile, ?_⟩
        intro c hc
        refine hsub c (mem_resplit_of_outside hc ?_)
        rintro ⟨hlt, hlt'⟩
        have := hT.gap _ hmem c hc hlt
        omega
      · rw [dif_neg hrem]
        exact ⟨a, starts, rfl, ⟨rfl, rfl⟩, rfl, hT.congr fun c hc => hlen c hc (by omega),
          fun c hc => hc⟩

/-- The headers of blocks found without looking up to the end tile the region again. -/
theorem logallocPlaceRegion_blocks (hC : a.Chain starts) (hG : Gathered a starts a.logHead found)
    (hfound : 0 < found) (hle : n ≤ found) (hmax : n ≤ 255) :
    ∃ a', logallocPlaceRegion a n found false = some a' ∧ a.SameCells a' ∧
      a'.logHead = a.logHead ∧ ∃ starts', a'.Chain starts' := by
  have hhead := hC.tiling.lt _ hC.head
  obtain ⟨b, hset, hsame, hlog, hnr, -, hframe⟩ :=
    setHeader_spec hC.shape hhead 0 n (by omega) (by omega)
  -- a size that wraps asks for no cell; what is marked as free then starts at the log head
  obtain ⟨r, hr⟩ : ∃ r, r = if n = 0 then found else n := ⟨_, rfl⟩
  have hrpos : 0 < r ∧ r ≤ found ∧ (n ≠ 0 → r = n) ∧ (n = 0 → r = found) := by
    rw [hr]
    split <;> omega
  set len : ℕ → ℕ := fun c => if c = a.logHead then r
    else if c = a.logHead + r ∧ r < found then found - r else a.lenAt c with hlen
  have hT : Tiling b.nrCells (resplit starts a.logHead (a.logHead + found) r) len := by
    rw [hsame.nrCells]
    refine hC.tiling.resplit hC.head hG.boundary hrpos.1 (by omega) ?_ (if_pos rfl) ?_
    · intro c _ hout
      simp only [hlen]
      rw [if_neg (by omega), if_neg (by omega)]
    · intro hlt
      simp only [hlen]
      rw [if_neg (by omega), if_pos ⟨trivial, by omega⟩]
      omega
  have hfirst : a.logHead ∈ resplit starts a.logHead (a.logHead + found) r :=
    mem_resplit_of_outside hC.head (by omega)
  have hrest : 0 < found - n → a.logHead + n ∈ resplit starts a.logHead (a.logHead + found) r ∧
      len (a.logHead + n) = found - n := by
    intro hpos
    by_cases hzero : n = 0
    · have hr' := hrpos.2.2.2 hzero
      subst hzero
      refine ⟨hfirst, ?_⟩
      simp only [hlen]
      rw [if_pos (Nat.add_zero _)]
      omega
    · have hr' := hrpos.2.2.1 hzero
      refine ⟨.inr ⟨by omega, by omega⟩, ?_⟩
      simp only [hlen]
      rw [if_neg (by omega), if_pos (by omega)]
      omega
  have hwritten : ∀ c ∈ resplit starts a.logHead (a.logHead + found) r,
      ¬ (0 < found - n ∧ c = a.logHead + n) → b.lenAt c = len c := by
    intro c _ hne
    simp only [hlen]
    by_cases hcw : c = a.logHead
    · have hzero : n ≠ 0 := by omega
      rw [if_pos hcw, hcw, Logalloc.lenAt, hnr, if_neg hzero]
      exact (hrpos.2.2.1 hzero).symm
    · rw [if_neg hcw, if_neg (by omega)]
      exact hsame.lenAt (hframe c hcw).1
  obtain ⟨a', starts', hmark, hsame', hlog', hT', hsub⟩ :=
    logallocMarkCells_spec (hsame.shape hC.shape) hT hrest hwritten
  refine ⟨a', ?_, hsame.trans hsame', hlog'.trans hlog, starts',
    (hsame.trans hsame').shape hC.shape, hT', ?_⟩
  · simp only [logallocPlaceRegion, hset, Option.bind_eq_bind, Option.bind_some]
    exact hmark
  · rw [hlog', hlog]
    exact hsub _ hfirst

/-- The marker for the rest moves behind the region, unless that is the end of all cells. -/
theorem logallocPlaceRegion_tail (hC : a.Chain starts) (hroom : n ≤ a.nrCells - a.logHead)
    (hmax : n ≤ 255) (found : ℕ) :
    (a.logHead + n = a.nrCells ∧ logallocPlaceRegion a n found true = none) ∨
      ∃ a', a.logHead + n < a.nrCells ∧ logallocPlaceRegion a n found true = some a' ∧
        a.SameCells a' ∧ a'.logHead = a.logHead ∧ ∃ starts', a'.Chain starts' := by
  have hhead := hC.tiling.lt _ hC.head
  obtain ⟨b, hset, hsame, hlog, hnr, href, hframe⟩ :=
    setHeader_spec hC.shape hhead 0 n (by omega) (by omega)
  have hplace : logallocPlaceRegion a n found true =
      b.setHeader ((a.logHead + n) * b.cellSize) 0 0 := by
    simp only [logallocPlaceRegion, hset, Option.bind_eq_bind, Option.bind_some, if_true]
  rcases Nat.eq_or_lt_of_le (show a.logHead + n ≤ a.nrCells by omega) with hend | hlt
  · refine .inl ⟨hend, ?_⟩
    have hout : b.store ((a.logHead + n) * b.cellSize + 1) (BitVec.ofNat 8 0) = none := by
      refine if_neg ?_
      rw [hend, hsame.cellSize, hsame.regionSize, ← hC.shape.region]
      omega
    rw [hplace, Logalloc.setHeader, hout]
    rfl
  · refine .inr ?_
    obtain ⟨a', hset', hsame', hlog', hnr', href', hframe'⟩ := setHeader_spec
      (hsame.shape hC.shape) (show a.logHead + n < b.nrCells by rw [hsame.nrCells]; exact hlt) 0 0
      (by omega) (by omega)
    have hboth := hsame.trans hsame'
    refine ⟨a', hlt, hplace.trans hset', hboth, hlog'.trans hlog, ?_⟩
    have hframes : ∀ c, ¬ (a.logHead ≤ c ∧ c < a.nrCells) →
        a'.nrAt c = a.nrAt c ∧ a'.refAt c = a.refAt c := by
      intro c hc
      have h' := hframe' c (by omega)
      have h := hframe c (by omega)
      exact ⟨h'.1.trans h.1, h'.2.trans h.2⟩
    have hlast : a'.lenAt (a.logHead + n) = a.nrCells - (a.logHead + n) := by
      rw [Logalloc.lenAt, hnr', if_pos rfl, hboth.nrCells]
    by_cases hzero : n = 0
    · subst hzero
      have hR : Rewritten a a' a.logHead a.nrCells (a.nrCells - a.logHead) 0 :=
        ⟨hboth, hlast, href', fun h => by omega, hframes⟩
      refine ⟨_, hR.chain hC hC.head (.inl rfl) (by omega) (by omega) ?_⟩
      rw [hlog', hlog]
      exact mem_resplit_of_outside hC.head (by omega)
    · have hw := hframe' a.logHead (by omega)
      have hR : Rewritten a a' a.logHead a.nrCells n 0 := by
        refine ⟨hboth, ?_, hw.2.trans href, fun _ => ⟨href', hlast⟩, hframes⟩
        rw [Logalloc.lenAt, hw.1, hnr, if_neg hzero]
      refine ⟨_, hR.chain hC hC.head (.inl rfl) (by omega) (by omega) ?_⟩
      rw [hlog', hlog]
      exact mem_resplit_of_outside hC.head (by omega)

/-! ## What a call does -/

theorem tailCounts_iff (hlt : a.nrCells < 2 ^ 64) (hhead : a.logHead < a.nrCells)
    (hroom : n ≤ a.nrCells - a.logHead) :
    a.TailCounts n ↔
      n ≤ (BitVec.ofNat 64 (a.nrCells - a.logHead) - BitVec.ofNat 64 a.logHead).toNat := by
  rw [BitVec.toNat_sub, BitVec.toNat_ofNat, BitVec.toNat_ofNat,
    Nat.mod_eq_of_lt (show a.logHead < 2 ^ 64 by omega),
    Nat.mod_eq_of_lt (show a.nrCells - a.logHead < 2 ^ 64 by omega), Logalloc.TailCounts]
  omega

/-- A block that goes up to the end is the last one. -/
theorem Logalloc.Chain.head_le_of_zero (hC : a.Chain starts) {c : ℕ} (hc : c ∈ starts)
    (hnr : a.nrAt c = 0) : a.logHead ≤ c := by
  by_contra hlt
  have hgap := hC.tiling.gap c hc _ hC.head (by omega)
  have hlen : a.lenAt c = a.nrCells - c := if_pos hnr
  have hhead := hC.tiling.lt _ hC.head
  omega

/-- What a call that finds enough cells at the log head answers. -/
def Prepared (a : Logalloc) (n : ℕ) (answer : Option (AResult × Option ℕ × ℕ × Logalloc)) : Prop :=
  ∃ a', answer = some (aOk, some (a.ptrOf a.logHead), n * a.cellSize % 2 ^ 64, a') ∧
    ∃ starts', a'.Chain starts'

/-- **What the loop finds** from the log head on: the end of the region, the end of the chain, or some
    number of free blocks. -/
theorem logallocScan_cases (hC : a.Chain starts) (href : a.refAt a.logHead = 0) (n avail : ℕ) :
    (logallocScan a n avail a.logHead 0 = none ∧ n < a.nrAt a.logHead ∧
      ∀ c ∈ starts, a.logHead ≤ c → a.refAt c = 0 ∧ a.nrAt c ≠ 0) ∨
    (logallocScan a n avail a.logHead 0 =
        some ((BitVec.ofNat 64 avail - BitVec.ofNat 64 a.logHead).toNat, true) ∧
      (∃ c ∈ starts, a.nrAt c = 0) ∧ (a.nrAt a.logHead = 0 ∨ n < a.nrAt a.logHead)) ∨
    ∃ found, logallocScan a n avail a.logHead 0 = some (found, false) ∧ 0 < found ∧
      Gathered a starts a.logHead found ∧
      ((found = a.nrAt a.logHead ∧ found ≤ n) ∨ (n < a.nrAt a.logHead ∧ n < found ∧
        ∃ c ∈ starts, a.logHead ≤ c ∧ a.refAt c ≠ 0)) := by
  have hfirst : Gathered a starts a.logHead 0 := ⟨.inr hC.head, fun c _ _ hc => absurd hc (by omega)⟩
  have hG := hfirst.snoc hC.tiling hC.head href
  rw [Nat.add_zero, Nat.zero_add] at hG
  have hpass := logallocScan_eq hC.shape
    (show a.logHead + 0 < a.nrCells from hC.tiling.lt _ hC.head) n avail
  simp only [Nat.add_zero, Nat.zero_add, href, ne_eq, not_true_eq_false, if_false] at hpass
  by_cases hnr : a.nrAt a.logHead = 0
  · rw [if_pos hnr] at hpass
    exact .inr (.inl ⟨hpass, ⟨_, hC.head, hnr⟩, .inl hnr⟩)
  · have hlen : a.lenAt a.logHead = a.nrAt a.logHead := if_neg hnr
    rw [hlen] at hG
    rw [if_neg hnr] at hpass
    by_cases hmore : n < a.nrAt a.logHead
    · rw [if_pos hmore] at hpass
      rcases logallocScan_beyond hC.shape hC.tiling hmore hG avail with
        ⟨hall, hscan⟩ | ⟨-, ⟨c, hc, -, hzero⟩, hscan⟩ | ⟨i, hi, hGi, hmi, hri, hscan⟩
      · refine .inl ⟨hpass.trans hscan, hmore, fun c hc hle => ?_⟩
        rcases Nat.eq_or_lt_of_le hle with heq | hgt
        · exact heq ▸ ⟨href, hnr⟩
        · have := hC.tiling.gap _ hC.head c hc hgt
          exact hall c hc (by omega)
      · exact .inr (.inl ⟨hpass.trans hscan, ⟨c, hc, hzero⟩, .inr hmore⟩)
      · exact .inr (.inr ⟨i, hpass.trans hscan, by omega, hGi,
          .inr ⟨hmore, by omega, _, hmi, by omega, hri⟩⟩)
    · rw [if_neg hmore] at hpass
      exact .inr (.inr ⟨_, hpass, Nat.pos_of_ne_zero hnr, hG, .inl ⟨rfl, by omega⟩⟩)

/-- **A call of `logalloc_prepare_region`**: it refuses, leaves the region, or takes cells from the log
    head on; and when it does which. -/
theorem logallocPrepareRegion_cases (hC : a.Chain starts) (hlt : a.nrCells < 2 ^ 64)
    {sizeHint : BitVec 64} (hsize : sizeHint ≠ 0) (hn : n = logallocHintCells a sizeHint)
    (pptr : Option ℕ) (psize : ℕ) :
    (logallocPrepareRegion a sizeHint pptr psize = some (aENomem, pptr, psize, a) ∧
      (a.nrCells - a.logHead < n ∨ a.refAt a.logHead ≠ 0 ∨
        (0 < a.nrAt a.logHead ∧ a.nrAt a.logHead < n) ∨
        ((∃ c ∈ starts, a.nrAt c = 0) ∧ ¬ a.TailCounts n ∧
          (a.nrAt a.logHead = 0 ∨ n < a.nrAt a.logHead)))) ∨
    (logallocPrepareRegion a sizeHint pptr psize = none ∧ a.Overruns n) ∨
    (Prepared a n (logallocPrepareRegion a sizeHint pptr psize) ∧
      ((0 < a.nrAt a.logHead ∧ a.nrAt a.logHead = n) ∨ (n < a.lenAt a.logHead ∧
        ((∃ c ∈ starts, a.nrAt c = 0) ∧ a.TailCounts n ∨
          ∃ c ∈ starts, a.logHead ≤ c ∧ a.refAt c ≠ 0)))) := by
  have hhead := hC.tiling.lt _ hC.head
  by_cases hfew : a.nrCells - a.logHead < n ∨ a.refAt a.logHead ≠ 0
  · refine .inl ⟨?_, hfew.imp_right .inl⟩
    rw [hn] at hfew
    exact logallocPrepareRegion_refused hC.shape hhead hsize pptr psize hfew
  rw [not_or, Nat.not_lt, not_not] at hfew
  obtain ⟨hroom, href⟩ := hfew
  have hmax : n ≤ 255 := by
    rw [hn, logallocHintCells]
    split <;> omega
  have hcall := logallocPrepareRegion_eq hC.shape hhead hsize pptr psize (hn ▸ hroom) href
  rw [← hn] at hcall
  have hprepared : ∀ found remainder a', logallocPlaceRegion a n found remainder = some a' →
      a.SameCells a' → (∃ starts', a'.Chain starts') →
      Prepared a n ((logallocPlaceRegion a n found remainder).map fun b =>
        (aOk, some (a.logHead * b.cellSize + 2), n * b.cellSize % 2 ^ 64, b)) := by
    intro found remainder a' hput hsame hC'
    refine ⟨a', ?_, hC'⟩
    rw [hput, Option.map_some, hsame.cellSize]
    rfl
  rcases logallocScan_cases hC href n (a.nrCells - a.logHead) with
    ⟨hscan, hmore, hall⟩ | ⟨hscan, hzero, hfirst⟩ | ⟨found, hscan, hpos, hG, hwhy⟩
  · rw [hscan, Option.bind_none] at hcall
    exact .inr (.inl ⟨hcall, .inl ⟨hmore, fun c hc => hall c (hC.mem_positions.1 hc)⟩⟩)
  · have htail := tailCounts_iff hlt hhead hroom
    rw [hscan, Option.bind_some] at hcall
    by_cases hcounts : a.TailCounts n
    · rw [if_neg (Nat.not_lt.2 (htail.1 hcounts))] at hcall
      rcases logallocPlaceRegion_tail hC hroom hmax
          (BitVec.ofNat 64 (a.nrCells - a.logHead) - BitVec.ofNat 64 a.logHead).toNat with
        ⟨hend, hput⟩ | ⟨a', hbehind, hput, hsame, -, hC'⟩
      · -- no cell is left for the marker, so the block is the last one
        rw [hput, Option.map_none] at hcall
        have hle := hC.tiling.end_le hC.head
        refine .inr (.inl ⟨hcall, .inr ⟨href, hfirst.resolve_right fun hmore => ?_, by omega, hcounts⟩⟩)
        rw [Logalloc.lenAt, if_neg (by omega)] at hle
        omega
      · refine .inr (.inr ⟨hcall ▸ hprepared _ _ a' hput hsame hC', .inr ⟨?_, .inl ⟨hzero, hcounts⟩⟩⟩)
        rw [Logalloc.lenAt]
        split <;> omega
    · rw [if_pos (Nat.lt_of_not_le fun hle => hcounts (htail.2 hle))] at hcall
      exact .inl ⟨hcall, .inr (.inr (.inr ⟨hzero, hcounts, hfirst⟩))⟩
  · rw [hscan, Option.bind_some] at hcall
    by_cases hless : found < n
    · rw [if_pos hless] at hcall
      exact .inl ⟨hcall, .inr (.inr (.inl (by omega)))⟩
    · rw [if_neg hless] at hcall
      obtain ⟨a', hput, hsame, -, hC'⟩ :=
        logallocPlaceRegion_blocks hC hG hpos (Nat.le_of_not_lt hless) hmax
      refine .inr (.inr ⟨hcall ▸ hprepared _ _ a' hput hsame hC', ?_⟩)
      rcases hwhy with ⟨heq, hle⟩ | ⟨hmore, -, hoccupied⟩
      · exact .inl ⟨by omega, by omega⟩
      · refine .inr ⟨?_, .inr hoccupied⟩
        rw [Logalloc.lenAt, if_neg (by omega)]
        exact hmore

end Scan

end Tsl
