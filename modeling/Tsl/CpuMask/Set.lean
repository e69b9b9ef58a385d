import Tsl.CpuMask
import Tsl.Lib.Machine

set_option autoImplicit false

/-! # CPU masks as sets

`tsl/cpumask.c`: cores are put into a mask and taken out of it, and `cpu_mask_test` should report the
cores that were put in last. The macros of glibc that do the work ignore an id beyond the size of the
mask, and `cpu_mask_set` answers `A_OK` for it all the same. So a run is told the truth exactly if it
sets only ids that the mask holds (`actsAsSet_iff`). -/

namespace Tsl

open Lib

/-! ## The code -/

/-- `cpu_mask_clear`. `CPU_CLR_S` ignores an id outside the set. -/
def cpuMaskClear (mask : CpuMask) (cpuId : ℕ) : AResult × CpuMask :=
  if cpuId < 8 * mask.size then
    (aOk, { mask with
      mask := mask.mask.erase cpuId
      mask_fits := fun c hc => mask.mask_fits c (Finset.mem_of_mem_erase hc) })
  else (aOk, mask)

/-- `cpu_mask_clear_all`. -/
def cpuMaskClearAll (mask : CpuMask) : AResult × CpuMask :=
  (aOk, { mask with mask := ∅, mask_fits := fun c hc => absurd hc (Finset.notMem_empty c) })

/-- `cpu_mask_test`: the result and `*value`. `CPU_ISSET_S` reports 0 for an id outside the set. -/
def cpuMaskTest (mask : CpuMask) (cpuId : ℕ) : AResult × ℕ :=
  if cpuId < 8 * mask.size then (aOk, if cpuId ∈ mask.mask then 1 else 0) else (aOk, 0)

/-! ## Runs on a mask -/

/-- A call that changes a mask. -/
inductive MaskCall where
  | set (cpuId : ℕ)
  | clear (cpuId : ℕ)
  | clearAll
deriving DecidableEq

namespace MaskCall

def run (mask : CpuMask) : MaskCall → AResult × CpuMask
  | .set cpuId => cpuMaskSet mask cpuId
  | .clear cpuId => cpuMaskClear mask cpuId
  | .clearAll => cpuMaskClearAll mask

/-- The call is about the id. -/
def affects (cpuId : ℕ) : MaskCall → Bool
  | .set c => c = cpuId
  | .clear c => c = cpuId
  | .clearAll => true

end MaskCall

/-- A mask, and the calls on it with what they returned, latest first. -/
structure MaskRun where
  mask : CpuMask
  calls : List (MaskCall × AResult)

/-- One call. -/
def maskStep (s : MaskRun) (call : MaskCall) : Option MaskRun :=
  let (ret, mask) := call.run s.mask
  some { mask := mask, calls := (call, ret) :: s.calls }

/-- The last call about the id that returned `A_OK` put it in. -/
def LastSet (cpuId : ℕ) (calls : List (MaskCall × AResult)) : Prop :=
  (calls.find? fun c => c.1.affects cpuId && c.2 = aOk).map Prod.fst = some (.set cpuId)

instance (cpuId : ℕ) (calls : List (MaskCall × AResult)) : Decidable (LastSet cpuId calls) :=
  inferInstanceAs (Decidable (_ = _))

/-- The mask is the set that the calls say, and no id that it cannot hold was accepted. -/
structure ActsAsSet (s : MaskRun) : Prop where
  test : ∀ cpuId, cpuMaskTest s.mask cpuId = (aOk, if LastSet cpuId s.calls then 1 else 0)
  refused : ∀ cpuId ret, (.set cpuId, ret) ∈ s.calls → 8 * s.mask.size ≤ cpuId → afailed ret = true

/-- The condition on a call: what it sets is an id that the mask holds. -/
def SetsHeld (s : MaskRun) : MaskCall → Prop
  | .set cpuId => cpuId < 8 * s.mask.size
  | _ => True

section Calls

variable {mask : CpuMask} {s s' : MaskRun} {call : MaskCall} {c : ℕ}

@[simp] theorem maskCall_ret (mask : CpuMask) (call : MaskCall) : (call.run mask).1 = aOk := by
  cases call with
  | set cpuId => exact cpuMaskSet_ret mask cpuId
  | clear cpuId =>
      simp only [MaskCall.run, cpuMaskClear]
      split <;> rfl
  | clearAll => rfl

@[simp] theorem maskCall_size (mask : CpuMask) (call : MaskCall) :
    (call.run mask).2.size = mask.size := by
  cases call with
  | set cpuId => exact cpuMaskSet_size mask cpuId
  | clear cpuId =>
      simp only [MaskCall.run, cpuMaskClear]
      split <;> rfl
  | clearAll => rfl

theorem cpuMaskClear_mem (mask : CpuMask) (cpuId c : ℕ) :
    c ∈ (cpuMaskClear mask cpuId).2.mask ↔ c ∈ mask.mask ∧ c ≠ cpuId := by
  unfold cpuMaskClear
  split
  · rw [Finset.mem_erase, and_comm]
  · next hout =>
    refine ⟨fun hc => ⟨hc, ?_⟩, And.left⟩
    rintro rfl
    exact hout (mask.mask_fits c hc)

theorem cpuMaskTest_eq (mask : CpuMask) (c : ℕ) :
    cpuMaskTest mask c = (aOk, if c ∈ mask.mask then 1 else 0) := by
  unfold cpuMaskTest
  split
  · rfl
  · next hout => rw [if_neg fun hc => hout (mask.mask_fits c hc)]

/-- A call that returned `A_OK` decides for the ids it is about. -/
theorem lastSet_cons (call : MaskCall) (calls : List (MaskCall × AResult)) :
    LastSet c ((call, aOk) :: calls) ↔
      if call.affects c = true then call = .set c else LastSet c calls := by
  unfold LastSet
  cases haffects : call.affects c <;> simp [haffects]

theorem maskStep_eq (s : MaskRun) (call : MaskCall) :
    maskStep s call = some ⟨(call.run s.mask).2, (call, aOk) :: s.calls⟩ := by
  rw [← maskCall_ret s.mask call]
  rfl

theorem maskCall_mem (mask : CpuMask) (call : MaskCall) (c : ℕ) :
    c ∈ (call.run mask).2.mask ↔
      if call.affects c = true then call = .set c ∧ c < 8 * mask.size else c ∈ mask.mask := by
  cases call with
  | set cpuId =>
      simp only [MaskCall.run, cpuMaskSet_mem, MaskCall.affects, decide_eq_true_eq,
        MaskCall.set.injEq]
      by_cases heq : cpuId = c
      · subst heq
        have hfits := mask.mask_fits cpuId
        simp only [if_true, true_and]
        exact ⟨fun h => h.elim hfits id, .inr⟩
      · simp [heq, Ne.symm heq]
  | clear cpuId =>
      simp only [MaskCall.run, cpuMaskClear_mem, MaskCall.affects, decide_eq_true_eq]
      by_cases heq : cpuId = c
      · simp [heq]
      · simp [heq, Ne.symm heq]
  | clearAll => simp [MaskCall.run, cpuMaskClearAll, MaskCall.affects]

/-- **One call** keeps the mask the set that the calls say exactly if it sets no id beyond the mask. -/
theorem actsAsSet_maskStep (h : ActsAsSet s) (hstep : maskStep s call = some s') :
    ActsAsSet s' ↔ SetsHeld s call := by
  rw [maskStep_eq, Option.some.injEq] at hstep
  subst hstep
  constructor
  · intro h'
    cases call with
    | set cpuId =>
        -- an id that the mask cannot hold was accepted
        by_contra hout
        have hret := h'.refused cpuId aOk List.mem_cons_self (by
          rw [maskCall_size]
          exact Nat.le_of_not_lt hout)
        cases hret
    | clear cpuId => trivial
    | clearAll => trivial
  · intro hheld
    constructor
    · intro c
      have hold := h.test c
      rw [cpuMaskTest_eq] at hold ⊢
      simp only [maskCall_mem, lastSet_cons]
      split
      · next haffects =>
        have hiff : (call = .set c ∧ c < 8 * s.mask.size) ↔ call = .set c := by
          refine ⟨And.left, ?_⟩
          rintro rfl
          exact ⟨rfl, hheld⟩
        simp only [hiff]
      · exact hold
    · intro cpuId ret hmem hout
      rw [maskCall_size] at hout
      rcases List.mem_cons.1 hmem with heq | hmem
      · obtain ⟨rfl, -⟩ := Prod.mk.inj heq
        exact absurd hheld (Nat.not_lt.2 hout)
      · exact h.refused cpuId ret hmem hout

end Calls

/-! ## Every run -/

theorem meets_setsHeld_iff (s : MaskRun) (calls : List MaskCall) :
    Meets maskStep SetsHeld s calls ↔ ∀ cpuId, .set cpuId ∈ calls → cpuId < 8 * s.mask.size := by
  induction calls generalizing s with
  | nil => simp [Meets]
  | cons call calls ih =>
      simp only [Meets, maskStep_eq, ih, maskCall_size, List.mem_cons]
      cases call with
      | set cpuId => simp [SetsHeld, or_imp, forall_and]
      | clear cpuId => simp [SetsHeld]
      | clearAll => simp [SetsHeld]

/-- **A mask acts as a set** in exactly the runs that set only ids it can hold. -/
theorem actsAsSet_iff {env : MaskEnv} {mask : CpuMask} (hcreate : cpuMaskCreate env = .ok mask)
    (calls : List MaskCall) :
    Throughout maskStep ActsAsSet ⟨mask, []⟩ calls ↔
      ∀ cpuId, .set cpuId ∈ calls → cpuId < 8 * mask.size := by
  have hempty : mask.mask = ∅ := by
    unfold cpuMaskCreate at hcreate
    split at hcreate
    · cases hcreate
    split at hcreate
    · cases hcreate
    cases hcreate
    rfl
  have hinit : ActsAsSet ⟨mask, []⟩ := by
    refine ⟨fun c => ?_, fun _ _ hmem => absurd hmem List.not_mem_nil⟩
    rw [cpuMaskTest_eq, hempty]
    rfl
  rw [← meets_setsHeld_iff ⟨mask, []⟩ calls]
  refine throughout_iff_meets (I := fun _ => True) (fun _ _ _ _ _ => trivial)
    (fun s call s' _ h hstep => actsAsSet_maskStep h hstep) (fun s call _ _ hnone => ?_)
    calls _ trivial hinit
  rw [maskStep_eq] at hnone
  cases hnone

/-- Two cores are set and one of them is cleared, on a machine with four CPUs. -/
theorem actsAsSet_iff_fourCpus :
    ∃ mask, cpuMaskCreate fourCpus = .ok mask ∧
      Throughout maskStep ActsAsSet ⟨mask, []⟩ [.set 1, .set 2, .clear 1] := by
  have hcreate : cpuMaskCreate fourCpus = .ok ⟨∅, 4, 8, fun _ hc => by cases hc⟩ := rfl
  refine ⟨_, hcreate, (actsAsSet_iff hcreate _).2 fun cpuId hmem => ?_⟩
  simp only [List.mem_cons, MaskCall.set.injEq, reduceCtorEq, List.not_mem_nil, or_false] at hmem
  have hsize : cpuId < 8 * 8 := by omega
  exact hsize

/-- The id 64 is beyond the mask of that machine: setting it returns `A_OK`, and it is not set. -/
theorem setBeyond_not_set :
    ∃ mask, cpuMaskCreate fourCpus = .ok mask ∧ (cpuMaskSet mask 64).1 = aOk ∧
      cpuMaskTest (cpuMaskSet mask 64).2 64 = (aOk, 0) ∧
      ¬ Throughout maskStep ActsAsSet ⟨mask, []⟩ [.set 64] := by
  refine ⟨_, rfl, by decide, by decide, fun h => ?_⟩
  have hrun : exec maskStep ⟨⟨∅, 4, 8, fun _ hc => by cases hc⟩, []⟩ [.set 64] =
      some ⟨⟨∅, 4, 8, fun _ hc => by cases hc⟩, [(.set 64, aOk)]⟩ := rfl
  have hlast := (h.last hrun).refused 64 aOk List.mem_cons_self (by decide)
  cases hlast

end Tsl
