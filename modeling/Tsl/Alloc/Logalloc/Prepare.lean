import Tsl.Alloc.Logalloc.Scan

set_option autoImplicit false

/-! # Which regions the log allocator prepares

Every call on an allocator keeps the tiling of its region by blocks, whatever sizes are asked for, as
long as clients write to no header. So what `logalloc_prepare_region` does in a reachable state is a
matter of the layout: whether it stays in the region (`preparesInside_iff`), and, where nothing is
live, whether it finds the cells it should find (`hintServed_iff`). -/

namespace Tsl

open Lib

section Prepare

variable {a a' : Logalloc} {starts : Set ℕ} {w : ℕ}

/-! ## The other calls keep the chain -/

theorem Logalloc.Chain.carve (hC : a.Chain starts) (hw : w ∈ starts) {req : ℕ}
    (hreq : w + req ≤ a.nrCells) (hmax : req ≤ 255) {answer : AResult × Option ℕ × Logalloc}
    (h : logallocCarve a a.nrCells w req = some answer) : ∃ starts', answer.2.2.Chain starts' := by
  have hwlt := hC.tiling.lt w hw
  rcases Nat.eq_zero_or_pos req with rfl | hpos
  · obtain ⟨a', hcarve, hR, -, hhead⟩ := logallocCarve_zero hC.shape hwlt
    rw [hcarve, Option.some.injEq] at h
    subst h
    refine ⟨_, hR.chain hC hw (.inl rfl) (by omega) (by omega) ?_⟩
    rw [hhead]
    exact mem_resplit_of_outside hw (by omega)
  · rcases logallocCarve_spec hC.shape hC.tiling hw hreq hpos hmax with
      ⟨hfail, -⟩ | ⟨i, a', hcarve, hG, hle, hR, -, hhead⟩
    · rw [hfail, Option.some.injEq] at h
      exact h ▸ ⟨starts, hC⟩
    · rw [hcarve, Option.some.injEq] at h
      subst h
      refine ⟨_, hR.chain hC hw hG.boundary hpos (by omega) ?_⟩
      rw [hhead]
      exact head_mem_resplit hC.tiling hG.boundary (by omega)

/-- `logalloc_alloc`, for every size. -/
theorem Logalloc.Chain.alloc (hC : a.Chain starts) {size : BitVec 64} {pptr : Option ℕ}
    {answer : AResult × Option ℕ × Logalloc} (h : logallocAlloc a size pptr = some answer) :
    ∃ starts', answer.2.2.Chain starts' := by
  have hhead := hC.tiling.lt _ hC.head
  have hkept : ∀ {ret : AResult} {p : Option ℕ}, some (ret, p, a) = some answer →
      ∃ starts', answer.2.2.Chain starts' := by
    intro ret p heq
    exact Option.some.inj heq ▸ ⟨starts, hC⟩
  unfold logallocAlloc at h
  split at h
  · exact hkept h
  · simp only at h
    split at h
    · exact hkept h
    · next hbig =>
        rw [not_or, Nat.not_lt, Nat.not_lt] at hbig
        obtain ⟨refcnt, -, h⟩ := Option.bind_eq_some_iff.1 h
        split at h
        · exact hkept h
        · split at h
          · obtain ⟨a₁, hset, hlog, hR⟩ := setHeader_tail hC.shape hhead (by omega)
            rw [hset, Option.bind_eq_bind, Option.bind_some, ← hR.same.nrCells] at h
            have hC₁ := hR.chain hC hC.head (.inl rfl) (by omega) (by omega) (by
              rw [hlog]
              exact mem_resplit_of_outside hC.head (by omega))
            exact hC₁.carve hC₁.tiling.zero_mem (by rw [hR.same.nrCells]; omega) hbig.1 h
          · exact hC.carve hC.head (by omega) hbig.1 h

/-- `logalloc_finalize_region` of fewer cells than the header at the log head counts: they become a block,
    and the others are free at the new log head. -/
theorem logallocFinalizeRegion_split (hS : a.Shape) (hhead : a.logHead < a.nrCells) {size : BitVec 64}
    (hsize : size ≠ 0) {used : ℕ} (hreq : logallocReqCells a size = used)
    (hused : used < a.nrAt a.logHead) (hroom : a.logHead + a.nrAt a.logHead ≤ a.nrCells) :
    ∃ a', logallocFinalizeRegion a size = some (aOk, a') ∧ a.SameCells a' ∧
      a'.logHead = a.logHead + used ∧ a'.nrAt (a.logHead + used) = a.nrAt a.logHead - used ∧
      a'.refAt (a.logHead + used) = 0 ∧
      (0 < used → a'.nrAt a.logHead = used ∧ a'.refAt a.logHead = 1) ∧
      ∀ c, c ≠ a.logHead → c ≠ a.logHead + used →
        a'.nrAt c = a.nrAt c ∧ a'.refAt c = a.refAt c := by
  have hlen : (a.rgn (a.logHead * a.cellSize)).toNat = a.nrAt a.logHead := rfl
  have hbyte := (a.rgn (a.logHead * a.cellSize)).isLt
  rw [hlen] at hbyte
  have hmod : (a.logHead + used) % a.nrCells = a.logHead + used := Nat.mod_eq_of_lt (by omega)
  set a₀ : Logalloc := { a with logHead := a.logHead + used }
  have hS₀ : a₀.Shape := ⟨hS.cell, hS.region, hS.pos⟩
  obtain ⟨b, hset, hsame, hlog, hnr₁, href₁, hframe₁⟩ := setHeader_spec hS₀
    (show a.logHead < a₀.nrCells from hhead) 1 used (by omega) (by omega)
  have hcell : a.logHead + used < b.nrCells := by
    rw [hsame.nrCells]
    change a.logHead + used < a.nrCells
    omega
  obtain ⟨b', hset', hsame', hlog', hnr₂, href₂, hframe₂⟩ :=
    setHeader_spec (hsame.shape hS₀) hcell 0 (a.nrAt a.logHead - used) (by omega) (by omega)
  have hcells : a₀.cellSize = a.cellSize := rfl
  rw [hcells] at hset
  refine ⟨b', ?_, ⟨(hsame.trans hsame').cellSize, (hsame.trans hsame').regionSize⟩, hlog'.trans hlog,
    hnr₂, href₂, fun hpos => ?_, fun c hc hc' => ?_⟩
  · simp only [logallocFinalizeRegion, if_neg hsize, hreq, loadNrCells_eq hS hhead, hlen,
      Option.bind_eq_bind, Option.bind_some]
    rw [if_neg (by omega), if_neg (by omega), if_neg (by omega), hmod, hset, Option.bind_some, hlog,
      hset', Option.bind_some]
  · have hw := hframe₂ a.logHead (by omega)
    exact ⟨hw.1.trans hnr₁, hw.2.trans href₁⟩
  · have h₁ := hframe₁ c hc
    have h₂ := hframe₂ c hc'
    exact ⟨h₂.1.trans h₁.1, h₂.2.trans h₁.2⟩

theorem Logalloc.Chain.usedUp (hC : a.Chain starts) {used : ℕ} (hused : a.nrAt a.logHead = used) :
    Logalloc.Chain { a with logHead := (a.logHead + used) % a.nrCells } starts where
  shape := ⟨hC.shape.cell, hC.shape.region, hC.shape.pos⟩
  tiling := hC.tiling
  head := by
    change (a.logHead + used) % a.nrCells ∈ starts
    rcases Nat.eq_zero_or_pos used with hzero | hpos
    · rw [hzero, Nat.add_zero, Nat.mod_eq_of_lt (hC.tiling.lt _ hC.head)]
      exact hC.head
    · have hnext := hC.tiling.next _ hC.head
      rw [Logalloc.lenAt, if_neg (by omega), hused] at hnext
      rcases hnext with hlast | hmem
      · rw [hlast, Nat.mod_self]
        exact hC.tiling.zero_mem
      · rw [Nat.mod_eq_of_lt (hC.tiling.lt _ hmem)]
        exact hmem

/-- A block is split at the log head; of 0 cells, its header is just written again. -/
theorem Logalloc.Chain.finalizeSplit (hC : a.Chain starts) {size : BitVec 64} (hsize : size ≠ 0)
    (hused : logallocReqCells a size < a.nrAt a.logHead) :
    ∃ a' starts', logallocFinalizeRegion a size = some (aOk, a') ∧ a'.Chain starts' := by
  have hhead := hC.tiling.lt _ hC.head
  have hend := hC.tiling.end_le hC.head
  have hnext := hC.tiling.next _ hC.head
  have hlen : a.lenAt a.logHead = a.nrAt a.logHead := if_neg (by omega)
  rw [hlen] at hend hnext
  obtain ⟨used, hreq⟩ : ∃ used, logallocReqCells a size = used := ⟨_, rfl⟩
  rw [hreq] at hused
  obtain ⟨a', hfinal, hsame, hlog, hnr, href, hblock, hframe⟩ :=
    logallocFinalizeRegion_split hC.shape hhead hsize hreq hused hend
  have hframe' : ∀ c, ¬ (a.logHead ≤ c ∧ c < a.logHead + a.nrAt a.logHead) →
      a'.nrAt c = a.nrAt c ∧ a'.refAt c = a.refAt c := fun c hc =>
    hframe c (by omega) (by omega)
  have hrest : a'.lenAt (a.logHead + used) = a.nrAt a.logHead - used := by
    rw [Logalloc.lenAt, hnr, if_neg (by omega)]
  rcases Nat.eq_zero_or_pos used with rfl | hpos
  · rw [Nat.add_zero] at hrest href hlog
    have hR : Rewritten a a' a.logHead (a.logHead + a.nrAt a.logHead) (a.nrAt a.logHead) 0 :=
      ⟨hsame, hrest, href, fun hlt => by omega, hframe'⟩
    refine ⟨a', _, hfinal, hR.chain hC hC.head hnext (by omega) (by omega) ?_⟩
    rw [hlog]
    exact mem_resplit_of_outside hC.head (by omega)
  · obtain ⟨hcount, hone⟩ := hblock hpos
    have hR : Rewritten a a' a.logHead (a.logHead + a.nrAt a.logHead) used 1 := by
      refine ⟨hsame, ?_, hone, fun _ => ⟨href, ?_⟩, hframe'⟩
      · rw [Logalloc.lenAt, hcount, if_neg (by omega)]
      · rw [hrest]
        omega
    refine ⟨a', _, hfinal, hR.chain hC hC.head hnext hpos (by omega) ?_⟩
    rw [hlog]
    exact .inr ⟨rfl, by omega⟩

theorem Logalloc.Chain.finalize (hC : a.Chain starts) {size : BitVec 64} {answer : AResult × Logalloc}
    (h : logallocFinalizeRegion a size = some answer) : ∃ starts', answer.2.Chain starts' := by
  have hhead := hC.tiling.lt _ hC.head
  by_cases hsplit : size ≠ 0 ∧ logallocReqCells a size < a.nrAt a.logHead
  · obtain ⟨a', starts', hfinal, hC'⟩ := hC.finalizeSplit hsplit.1 hsplit.2
    exact ⟨starts', Option.some.inj (hfinal.symm.trans h) ▸ hC'⟩
  have hkept : ∀ {ret : AResult}, some (ret, a) = some answer →
      ∃ starts', answer.2.Chain starts' := by
    intro ret heq
    exact Option.some.inj heq ▸ ⟨starts, hC⟩
  have hnr : (a.rgn (a.logHead * a.cellSize)).toNat = a.nrAt a.logHead := rfl
  unfold logallocFinalizeRegion at h
  split at h
  · exact hkept h
  · next hsize =>
    simp only [loadNrCells_eq hC.shape hhead, Option.bind_eq_bind, Option.bind_some, hnr] at h
    split at h
    · exact hkept h
    · split at h
      · exact hkept h
      · next hmore =>
        have heq : a.nrAt a.logHead = logallocReqCells a size :=
          Nat.le_antisymm (Nat.not_lt.1 fun hlt => hsplit ⟨hsize, hlt⟩) (Nat.not_lt.1 hmore)
        rw [if_pos heq] at h
        exact Option.some.inj h ▸ ⟨starts, hC.usedUp heq⟩

/-- `logalloc_reference` and `logalloc_free` of any pointer to a cell. -/
theorem Logalloc.Chain.recount (hC : a.Chain starts) {cell : ℕ} {refused : BitVec 8 → Prop}
    [DecidablePred refused] {recount : BitVec 8 → BitVec 8} {err : AResult}
    {answer : AResult × Logalloc}
    (h : (do
      let refcnt ← a.loadRefcnt (a.ptrOf cell - 2)
      if refused refcnt then some (err, a)
      else do
        let a ← a.store (a.ptrOf cell - 2 + 1) (recount refcnt)
        some (aOk, a)) = some answer) : answer.2.Chain starts := by
  have hc := hC.shape.cell
  obtain ⟨refcnt, -, h⟩ := Option.bind_eq_some_iff.1 h
  split at h
  · exact Option.some.inj h ▸ hC
  · obtain ⟨b, hb, h⟩ := Option.bind_eq_some_iff.1 h
    refine Option.some.inj h ▸ hC.store (fun c _ heq => ?_) hb
    rw [Logalloc.ptrOf, Nat.add_sub_cancel] at heq
    have hbyte := ((cell_byte_inj 0 1 (by omega) (by omega)).1 heq).2
    omega

/-! ## Runs -/

/-- Clients take and give up references through pointers to cells, and write to payloads. -/
def SparesHeaders (a : Logalloc) : RegionCall → Prop
  | .reference ptr | .free ptr => ∃ cell < a.nrCells, ptr = a.ptrOf cell
  | .write addr _ => a.OutsideHeaders addr
  | _ => True

instance (a : Logalloc) : (call : RegionCall) → Decidable (SparesHeaders a call)
  | .reference _ | .free _ => inferInstanceAs (Decidable (∃ cell < a.nrCells, _))
  | .write addr _ => inferInstanceAs (Decidable (a.OutsideHeaders addr))
  | .alloc _ | .prepare _ | .finalize _ => inferInstanceAs (Decidable True)

/-- One call of such a client. -/
def sparingStep (a : Logalloc) (call : RegionCall) : Option Logalloc :=
  if SparesHeaders a call then regionStep a call else none

/-- The headers from cell 0 on tile the region, whose size is that of a `logalloc_new`. -/
structure Logalloc.Laid (a : Logalloc) : Prop where
  sized : a.Sized
  chain : ∃ starts, a.Chain starts

theorem Logalloc.Laid.nrCells_lt (h : a.Laid) : a.nrCells < 2 ^ 64 := by
  have hregion := h.sized.region_lt
  have hle := Nat.le_mul_of_pos_right a.nrCells h.sized.cell_pos
  rw [h.sized.region] at hregion
  omega

/-- **Every call** keeps the chain. -/
theorem sparingStep_laid (a : Logalloc) (call : RegionCall) (a' : Logalloc) (h : a.Laid)
    (hstep : sparingStep a call = some a') : a'.Laid := by
  obtain ⟨hspares, hstep⟩ := Option.ite_none_right_eq_some.1 hstep
  refine ⟨regionStep_sized a call a' h.sized hstep, ?_⟩
  obtain ⟨starts, hC⟩ := h.chain
  cases call with
  | alloc size =>
      obtain ⟨answer, hcall, rfl⟩ := Option.map_eq_some_iff.1 hstep
      exact hC.alloc hcall
  | reference ptr =>
      obtain ⟨cell, -, rfl⟩ := hspares
      obtain ⟨answer, hcall, rfl⟩ := Option.map_eq_some_iff.1 hstep
      exact ⟨starts, hC.recount hcall⟩
  | free ptr =>
      obtain ⟨cell, -, rfl⟩ := hspares
      obtain ⟨answer, hcall, rfl⟩ := Option.map_eq_some_iff.1 hstep
      exact ⟨starts, hC.recount hcall⟩
  | prepare sizeHint =>
      obtain ⟨answer, hcall, rfl⟩ := Option.map_eq_some_iff.1 hstep
      by_cases hsize : sizeHint = 0
      · rw [logallocPrepareRegion, if_pos hsize, Option.some.injEq] at hcall
        exact hcall ▸ ⟨starts, hC⟩
      · rcases logallocPrepareRegion_cases hC h.nrCells_lt hsize rfl none 0 with
          ⟨hrefused, -⟩ | ⟨hout, -⟩ | ⟨⟨b, hprepared, hC'⟩, -⟩
        · rw [hrefused, Option.some.injEq] at hcall
          exact hcall ▸ ⟨starts, hC⟩
        · rw [hout] at hcall
          cases hcall
        · rw [hprepared, Option.some.injEq] at hcall
          exact hcall ▸ hC'
  | finalize size =>
      obtain ⟨answer, hcall, rfl⟩ := Option.map_eq_some_iff.1 hstep
      exact hC.finalize hcall
  | write addr val =>
      refine ⟨starts, hC.store (fun c hc => ?_) hstep⟩
      exact (hspares c (hC.mem_positions.2 hc)).1.symm

theorem laid_of_run {cellSize nrCells : BitVec 64} {calloc : Bool}
    {alloc : BitVec 64 → AResult × (ℕ → BitVec 8)} {ret : AResult} {a₀ : Logalloc}
    (hnew : logallocNew cellSize nrCells calloc alloc = some (ret, some a₀))
    (hcell : cellSize ≠ BitVec.allOnes 64) (calls : List RegionCall)
    (hrun : exec sparingStep a₀ calls = some a) : a.Laid :=
  exec_invariant sparingStep_laid ⟨logallocNew_sized hnew, {0}, (logallocNew_spec hnew hcell).1⟩ hrun

theorem header_isSome_iff (hS : a.Shape) (cell : ℕ) :
    ((a.loadRefcnt (cell * a.cellSize)).isSome = true ↔ cell < a.nrCells) ∧
      ∀ refcnt nr, (a.setHeader (cell * a.cellSize) refcnt nr).isSome = true ↔ cell < a.nrCells := by
  have hout : ¬ cell < a.nrCells → ¬ cell * a.cellSize + 1 < a.regionSize := by
    intro hge
    have hmul := Nat.mul_le_mul_right a.cellSize (Nat.le_of_not_lt hge)
    rw [hS.region]
    omega
  refine ⟨⟨fun hsome => ?_, fun hlt => ?_⟩, fun refcnt nr => ⟨fun hsome => ?_, fun hlt => ?_⟩⟩
  · by_contra hge
    rw [Logalloc.loadRefcnt, Logalloc.load, if_neg (hout hge)] at hsome
    cases hsome
  · rw [loadRefcnt_eq hS hlt]
    rfl
  · by_contra hge
    rw [Logalloc.setHeader, Logalloc.store, if_neg (hout hge)] at hsome
    cases hsome
  · have hheader := hS.header_lt hlt
    simp only [Logalloc.setHeader, Logalloc.store, if_pos hheader, Option.bind_eq_bind,
      Option.bind_some]
    rw [if_pos (by omega)]
    rfl

/-- **Leaving the region** is a matter of the layout. -/
theorem logallocPrepareRegion_eq_none_iff (hC : a.Chain starts) (hlt : a.nrCells < 2 ^ 64)
    {sizeHint : BitVec 64} (hsize : sizeHint ≠ 0) (pptr : Option ℕ) (psize : ℕ) :
    logallocPrepareRegion a sizeHint pptr psize = none ↔
      a.Overruns (logallocHintCells a sizeHint) := by
  have hhead := hC.tiling.lt _ hC.head
  have hend := hC.tiling.end_le hC.head
  have hlen : a.nrAt a.logHead ≠ 0 → a.lenAt a.logHead = a.nrAt a.logHead := fun h => if_neg h
  have hlast : a.nrAt a.logHead = 0 → a.lenAt a.logHead = a.nrCells - a.logHead := fun h => if_pos h
  constructor
  · intro hnone
    rcases logallocPrepareRegion_cases hC hlt hsize rfl pptr psize with
      ⟨hrefused, -⟩ | ⟨-, hoverruns⟩ | ⟨⟨a', hprepared, -⟩, -⟩
    · rw [hrefused] at hnone
      cases hnone
    · exact hoverruns
    · rw [hprepared] at hnone
      cases hnone
  · intro hoverruns
    rcases logallocPrepareRegion_cases hC hlt hsize rfl pptr psize with
      ⟨-, hwhy⟩ | ⟨hnone, -⟩ | ⟨-, hwhy⟩
    · exfalso
      rcases hoverruns with ⟨hmore, hall⟩ | ⟨href, hnr, hn, hcounts⟩
      · obtain ⟨href, hnr⟩ := hall _ (hC.mem_positions.2 hC.head) (Nat.le_refl _)
        have hlen := hlen hnr
        rcases hwhy with hfew | hoccupied | hless | ⟨⟨c, hc, hzero⟩, -⟩
        · omega
        · exact hoccupied href
        · omega
        · exact (hall c (hC.mem_positions.2 hc) (hC.head_le_of_zero hc hzero)).2 hzero
      · rcases hwhy with hfew | hoccupied | hless | ⟨-, hnot, -⟩
        · omega
        · exact hoccupied href
        · omega
        · exact hnot hcounts
    · exact hnone
    · exfalso
      rcases hoverruns with ⟨hmore, hall⟩ | ⟨href, hnr, hn, hcounts⟩
      · rcases hwhy with ⟨-, heq⟩ | ⟨-, ⟨⟨c, hc, hzero⟩, -⟩ | ⟨c, hc, hle, hoccupied⟩⟩
        · omega
        · exact (hall c (hC.mem_positions.2 hc) (hC.head_le_of_zero hc hzero)).2 hzero
        · exact hoccupied (hall c (hC.mem_positions.2 hc) hle).1
      · have hlast := hlast hnr
        omega

/-- A call of `logalloc_prepare_region` ends, and looks at and writes only headers in the region. -/
def PreparesInside (a : Logalloc) (sizeHint : BitVec 64) : Prop :=
  ∀ pptr psize, (logallocPrepareRegion a sizeHint pptr psize).isSome = true

/-- **Where `logalloc_prepare_region` stays in the region**, in every state of every run: exactly where
    the layout does not let it overrun. -/
theorem preparesInside_iff {cellSize nrCells : BitVec 64} {calloc : Bool}
    {alloc : BitVec 64 → AResult × (ℕ → BitVec 8)} {ret : AResult} {a₀ a : Logalloc}
    (hnew : logallocNew cellSize nrCells calloc alloc = some (ret, some a₀))
    (hcell : cellSize ≠ BitVec.allOnes 64) (calls : List RegionCall)
    (hrun : exec sparingStep a₀ calls = some a) :
    (∀ cell, ((a.loadRefcnt (cell * a.cellSize)).isSome = true ↔ cell < a.nrCells) ∧
      ∀ refcnt nr, (a.setHeader (cell * a.cellSize) refcnt nr).isSome = true ↔ cell < a.nrCells) ∧
    ∀ sizeHint : BitVec 64, sizeHint ≠ 0 →
      (PreparesInside a sizeHint ↔ ¬ a.Overruns (logallocHintCells a sizeHint)) := by
  have hL := laid_of_run hnew hcell calls hrun
  obtain ⟨starts, hC⟩ := hL.chain
  refine ⟨header_isSome_iff hC.shape, fun sizeHint hsize => ?_⟩
  have hnone := logallocPrepareRegion_eq_none_iff hC hL.nrCells_lt hsize
  constructor
  · intro hinside hoverruns
    have hsome := hinside none 0
    rw [(hnone none 0).2 hoverruns] at hsome
    cases hsome
  · intro hnot pptr psize
    rw [Option.isSome_iff_ne_none]
    exact fun hout => hnot ((hnone pptr psize).1 hout)

/-! ## A region that is free -/

/-- A call of `logalloc_prepare_region` gives out the cells at the log head if there are enough of them
    up to the end, and otherwise those from cell 0 on. -/
def HintServed (a : Logalloc) (sizeHint : BitVec 64) : Prop :=
  ∀ pptr psize, ∃ psize' a', logallocPrepareRegion a sizeHint pptr psize = some (aOk,
    some (a.ptrOf (if (sizeHint.toNat + a.cellSize - 1) / a.cellSize ≤ a.nrCells - a.logHead
      then a.logHead else 0)), psize', a')

theorem not_hintServed_of_refused {sizeHint : BitVec 64}
    (h : (logallocPrepareRegion a sizeHint none 0).map Prod.fst = some aENomem) :
    ¬ HintServed a sizeHint := by
  intro hserved
  obtain ⟨psize', a', heq⟩ := hserved none 0
  rw [heq, Option.map_some, Option.some.injEq] at h
  exact absurd (show aOk = aENomem from h) (by decide)

/-- Where nothing is live, whether a hint is served is a matter of the layout as well. -/
theorem hintServed_iff_serves (h : HeaderChain a starts) (hfree : ∀ c ∈ starts, a.refAt c = 0)
    {sizeHint : BitVec 64} (hsize : sizeHint ≠ 0)
    (hcells : (sizeHint.toNat + a.cellSize - 1) / a.cellSize ≤ min 255 a.nrCells)
    (hlt : a.nrCells < 2 ^ 64) :
    HintServed a sizeHint ↔ a.Serves ((sizeHint.toNat + a.cellSize - 1) / a.cellSize) := by
  have hC := h.chain
  have hhead := hC.tiling.lt _ hC.head
  have hend := hC.tiling.end_le hC.head
  have href := hfree _ hC.head
  have hfits := h.sizeFits (Nat.le_trans hcells (Nat.min_le_right _ _))
  obtain ⟨hpos, hreq⟩ := reqCells_pos hC.shape hsize hfits
  obtain ⟨n, hn⟩ : ∃ n, (sizeHint.toNat + a.cellSize - 1) / a.cellSize = n := ⟨_, rfl⟩
  have hhint : n = logallocHintCells a sizeHint := by
    rw [logallocHintCells, hreq, hn, if_neg (by omega)]
  rw [HintServed, hn]
  rw [hreq, hn] at hpos
  have hlen : a.nrAt a.logHead ≠ 0 → a.lenAt a.logHead = a.nrAt a.logHead := fun h => if_neg h
  have hlast : a.nrAt a.logHead = 0 → a.lenAt a.logHead = a.nrCells - a.logHead := fun h => if_pos h
  constructor
  · intro hserved
    obtain ⟨psize', a', heq⟩ := hserved none 0
    rcases logallocPrepareRegion_cases hC hlt hsize hhint none 0 with
      ⟨hrefused, -⟩ | ⟨hnone, -⟩ | ⟨-, ⟨-, hnr⟩ | ⟨hmore, ⟨⟨c, hc, hzero⟩, hcounts⟩ | ⟨c, hc, -, hoccupied⟩⟩⟩
    · rw [hrefused, Option.some.injEq, Prod.mk.injEq] at heq
      exact absurd heq.1 (by decide)
    · rw [hnone] at heq
      cases heq
    · exact .inl hnr
    · exact .inr ⟨hmore, ⟨c, hC.mem_positions.2 hc, hzero⟩, hcounts⟩
    · exact absurd (hfree c hc) hoccupied
  · intro hserves pptr psize
    have hroom : n ≤ a.nrCells - a.logHead := by
      rcases hserves with hnr | ⟨hmore, -⟩
      · have := hlen (by omega)
        omega
      · omega
    rw [if_pos hroom]
    rcases logallocPrepareRegion_cases hC hlt hsize hhint pptr psize with
      ⟨-, hwhy⟩ | ⟨-, hoverruns⟩ | ⟨⟨a', hprepared, -⟩, -⟩
    · exfalso
      rcases hwhy with hfew | hoccupied | hless | ⟨-, hnot, hfirst⟩
      · omega
      · exact hoccupied href
      · have := hlen (by omega)
        rcases hserves with hnr | ⟨hmore, -⟩ <;> omega
      · rcases hserves with hnr | ⟨-, -, hcounts⟩
        · omega
        · exact hnot hcounts
    · exfalso
      rcases hserves with hnr | ⟨hmore, ⟨c, hc, hzero⟩, -⟩
      · rcases hoverruns with ⟨hmore, -⟩ | ⟨-, hnr', -⟩ <;> omega
      · rcases hoverruns with ⟨-, hall⟩ | ⟨-, hnr, hn', -⟩
        · exact (hall c hc (hC.head_le_of_zero (hC.mem_positions.1 hc) hzero)).2 hzero
        · have := hlast hnr
          omega
    · exact ⟨_, a', hprepared⟩

/-- **Which hints are served where nothing is live**, in every state of every run. -/
theorem hintServed_iff {cellSize nrCells : BitVec 64} {calloc : Bool}
    {alloc : BitVec 64 → AResult × (ℕ → BitVec 8)} {ret : AResult} {a₀ a : Logalloc}
    (hnew : logallocNew cellSize nrCells calloc alloc = some (ret, some a₀))
    (hcell : cellSize ≠ BitVec.allOnes 64) (calls : List RegionCall)
    (hrun : exec sparingStep a₀ calls = some a) (hfree : ∀ c ∈ a.positions, a.refAt c = 0)
    (sizeHint : BitVec 64)
    (hcells : (sizeHint.toNat + a.cellSize - 1) / a.cellSize ≤ min 255 a.nrCells) :
    HintServed a sizeHint ↔
      sizeHint ≠ 0 ∧ a.Serves ((sizeHint.toNat + a.cellSize - 1) / a.cellSize) := by
  have hL := laid_of_run hnew hcell calls hrun
  obtain ⟨starts, hC⟩ := hL.chain
  have hfree' : ∀ c ∈ starts, a.refAt c = 0 := fun c hc => hfree c (hC.mem_positions.2 hc)
  by_cases hsize : sizeHint = 0
  · refine iff_of_false (fun hserved => ?_) fun h => h.1 hsize
    obtain ⟨psize', a', heq⟩ := hserved none 0
    rw [logallocPrepareRegion, if_pos hsize, Option.some.injEq, Prod.mk.injEq] at heq
    exact absurd heq.1 (by decide)
  · rw [hintServed_iff_serves ⟨hC, fun c hc _ => hfree' c hc, hL.sized.region_lt, hL.sized.cell_dvd⟩
      hfree' hsize hcells hL.nrCells_lt]
    exact (and_iff_right hsize).symm

end Prepare

/-! ## Six small cells -/

/-- A run on six small cells, and what is true of the state it ends in. -/
theorem sixSmallCells_run (calls : List RegionCall) {β : Type} (f : Logalloc → β) (x : β)
    (h : ((sixSmallCells.bind Prod.snd).bind fun a₀ => (exec sparingStep a₀ calls).map f) = some x) :
    ∃ ret a₀ a, sixSmallCells = some (ret, some a₀) ∧ exec sparingStep a₀ calls = some a ∧
      f a = x := by
  obtain ⟨a₀, ha₀, hrun⟩ := Option.bind_eq_some_iff.1 h
  obtain ⟨⟨ret, _⟩, hnew, rfl⟩ := Option.bind_eq_some_iff.1 ha₀
  obtain ⟨a, ha, heq⟩ := Option.map_eq_some_iff.1 hrun
  exact ⟨ret, a₀, a, hnew, ha, heq⟩

/-- Behind a block of two cells and a region of which one cell was used, two more cells. -/
theorem preparesInside_iff_eight :
    ∃ ret a₀ a, sixSmallCells = some (ret, some a₀) ∧
      exec sparingStep a₀ [.alloc 8, .prepare 8, .finalize 4, .free 2] = some a ∧
      PreparesInside a 8 := by
  obtain ⟨ret, a₀, a, hnew, hrun, hlayout⟩ := sixSmallCells_run
    [.alloc 8, .prepare 8, .finalize 4, .free 2]
    (fun a => decide (a.Overruns (logallocHintCells a 8))) false (by decide +kernel)
  refine ⟨ret, a₀, a, hnew, hrun, ?_⟩
  exact ((preparesInside_iff hnew (by decide) _ hrun).2 8 (by decide)).2 (of_decide_eq_false hlayout)

/-- All six cells were one block, which is free again: for one cell, and for six of a new allocator,
    the header behind the last cell is looked at or written. -/
theorem prepare_leaves_region :
    ∃ ret a₀ a, sixSmallCells = some (ret, some a₀) ∧
      exec sparingStep a₀ [.alloc 24, .free 2] = some a ∧ ¬ PreparesInside a 4 ∧
      ¬ PreparesInside a₀ 24 := by
  obtain ⟨ret, a₀, a, hnew, hrun, hsome⟩ := sixSmallCells_run [.alloc 24, .free 2]
    (fun a => (logallocPrepareRegion a 4 none 0).isSome) false (by decide +kernel)
  obtain ⟨ret', a₀', _, hnew', hrun', hsome'⟩ := sixSmallCells_run []
    (fun a => (logallocPrepareRegion a 24 none 0).isSome) false (by decide +kernel)
  rw [hnew] at hnew'
  cases hnew'
  cases hrun'
  refine ⟨ret, a₀, a, hnew, hrun, fun hinside => ?_, fun hinside => ?_⟩
  · exact Bool.false_ne_true (hsome.symm.trans (hinside none 0))
  · exact Bool.false_ne_true (hsome'.symm.trans (hinside none 0))

/-- Behind a block that is free again, two cells. -/
theorem hintServed_iff_eight :
    ∃ ret a₀ a, sixSmallCells = some (ret, some a₀) ∧
      exec sparingStep a₀ [.alloc 4, .free 2] = some a ∧ HintServed a 8 := by
  obtain ⟨ret, a₀, a, hnew, hrun, hlayout⟩ := sixSmallCells_run [.alloc 4, .free 2]
    (fun a => decide ((∀ c ∈ a.positions, a.refAt c = 0) ∧
      (8 + a.cellSize - 1) / a.cellSize ≤ min 255 a.nrCells ∧
        a.Serves ((8 + a.cellSize - 1) / a.cellSize))) true (by decide +kernel)
  obtain ⟨hfree, hcells, hserves⟩ := of_decide_eq_true hlayout
  exact ⟨ret, a₀, a, hnew, hrun,
    (hintServed_iff hnew (by decide) _ hrun hfree 8 hcells).2 ⟨by decide, hserves⟩⟩

/-- Nothing is live, but the log head is at cell 4 and three cells are asked for; or the cells are six
    blocks and two are asked for. -/
theorem free_region_refuses :
    (∃ ret a₀ a, sixSmallCells = some (ret, some a₀) ∧
      exec sparingStep a₀ [.alloc 16, .free 2] = some a ∧ (∀ c ∈ a.positions, a.refAt c = 0) ∧
      (12 + a.cellSize - 1) / a.cellSize ≤ min 255 a.nrCells ∧ ¬ HintServed a 12) ∧
    ∃ ret a₀ a, sixSmallCells = some (ret, some a₀) ∧
      exec sparingStep a₀ [.alloc 4, .alloc 4, .alloc 4, .alloc 4, .alloc 4, .alloc 4,
        .free 2, .free 6, .free 10, .free 14, .free 18, .free 22] = some a ∧
      (∀ c ∈ a.positions, a.refAt c = 0) ∧
      (8 + a.cellSize - 1) / a.cellSize ≤ min 255 a.nrCells ∧ ¬ HintServed a 8 := by
  constructor
  · obtain ⟨ret, a₀, a, hnew, hrun, hstate⟩ := sixSmallCells_run [.alloc 16, .free 2]
      (fun a => (decide ((∀ c ∈ a.positions, a.refAt c = 0) ∧
        (12 + a.cellSize - 1) / a.cellSize ≤ min 255 a.nrCells),
          (logallocPrepareRegion a 12 none 0).map Prod.fst)) (true, some aENomem) (by decide +kernel)
    obtain ⟨hlayout, hrefused⟩ := Prod.mk.inj hstate
    obtain ⟨hfree, hcells⟩ := of_decide_eq_true hlayout
    exact ⟨ret, a₀, a, hnew, hrun, hfree, hcells, not_hintServed_of_refused hrefused⟩
  · obtain ⟨ret, a₀, a, hnew, hrun, hstate⟩ := sixSmallCells_run
      [.alloc 4, .alloc 4, .alloc 4, .alloc 4, .alloc 4, .alloc 4,
        .free 2, .free 6, .free 10, .free 14, .free 18, .free 22]
      (fun a => (decide ((∀ c ∈ a.positions, a.refAt c = 0) ∧
        (8 + a.cellSize - 1) / a.cellSize ≤ min 255 a.nrCells),
          (logallocPrepareRegion a 8 none 0).map Prod.fst)) (true, some aENomem) (by decide +kernel)
    obtain ⟨hlayout, hrefused⟩ := Prod.mk.inj hstate
    obtain ⟨hfree, hcells⟩ := of_decide_eq_true hlayout
    exact ⟨ret, a₀, a, hnew, hrun, hfree, hcells, not_hintServed_of_refused hrefused⟩

end Tsl
