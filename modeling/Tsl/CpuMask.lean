import Mathlib.Algebra.Group.Nat.Defs
import Mathlib.Data.Finset.Basic
import Mathlib.Data.Finset.Image
import Tsl.Config

set_option autoImplicit false

/-! # CPU masks from the configuration

`tsl/cpumask.c`: a field that is a core id, or an array of core ids, is made a CPU mask.

The two encodings are told apart by whether `config_get_integer` fails, and that does not fail for a
field that is no integer. So the array is never looked at, unless the memory for the path ran out the
first time; `cpuMaskFromConfig_iff` says for which fields the mask is the one listed. -/

namespace Tsl

/-! ## The code -/

/-- `struct cpu_mask`: the cores in the set, and the size of the set in bytes. A set holds no core
    beyond its size. -/
structure CpuMask where
  mask : Finset ℕ
  numCpus : ℕ
  size : ℕ
  mask_fits : ∀ c ∈ mask, c < 8 * size

/-- `CPU_ALLOC_SIZE`: whole words of 64 bits, in bytes. -/
def cpuAllocSize (count : ℕ) : ℕ := (count + 63) / 64 * 8

/-- The machine a mask is made on: the number of CPUs and which of the allocations succeed, those of
    the mask and of its set and the two copies of the field's name. -/
structure MaskEnv where
  numCpus : ℕ
  calloc : Bool
  cpuAlloc : Bool
  strdup : Bool
  strdupAgain : Bool

/-- `cpu_mask_create`. -/
def cpuMaskCreate (env : MaskEnv) : Except AResult CpuMask :=
  if env.calloc = false then .error aENomem
  else if env.cpuAlloc = false then .error aENomem
  else .ok { mask := ∅, numCpus := env.numCpus, size := cpuAllocSize env.numCpus,
             mask_fits := fun c hc => absurd hc (Finset.notMem_empty c) }

/-- `cpu_mask_set`. `CPU_SET_S` ignores an id outside the set. -/
def cpuMaskSet (mask : CpuMask) (cpuId : ℕ) : AResult × CpuMask :=
  if hin : cpuId < 8 * mask.size then
    (aOk, { mask with
      mask := insert cpuId mask.mask
      mask_fits := fun c hc => by
        rcases Finset.mem_insert.1 hc with rfl | hc
        · exact hin
        · exact mask.mask_fits c hc })
  else (aOk, mask)

/-- The variables of the loop over the array. -/
structure CoreScan where
  ret : AResult
  msk : CpuMask
  failed : Bool
  numSet : ℕ

/-- The variables before the loop. -/
def CoreScan.start (msk : CpuMask) : CoreScan :=
  { ret := aOk, msk := msk, failed := false, numSet := 0 }

/-- One pass of the loop, from what `config_array_at_integer` answered. -/
def CoreScan.entry (s : CoreScan) (found : AResult × BitVec 32) : CoreScan :=
  if afailed found.1 then { s with ret := found.1, failed := true }
  else if found.2.toInt < 0 then { s with ret := found.1, failed := true }
  else
    let (ret, msk) := cpuMaskSet s.msk found.2.toNat
    if afailed ret then { s with ret := ret, msk := msk, failed := true }
    else { s with ret := ret, msk := msk, numSet := s.numSet + 1 }

/-- The loop over the array, with `n` entries from `i` on to go. -/
def coreScan (coreArr : Config) : ℕ → ℕ → CoreScan → CoreScan
  | 0, _, s => s
  | n + 1, i, s => coreScan coreArr n (i + 1) (s.entry (configArrayAtInteger coreArr i))

/-- The branch of `cpu_mask_from_config` for an array. -/
def cpuMaskFromArray (msk : CpuMask) (coreArr : Config) : AResult × CpuMask :=
  match configArrayLength coreArr with
  | .error ret => (ret, msk)
  | .ok nrEntries =>
      if nrEntries = 0 then (aOk, msk)
      else
        let s := coreScan coreArr nrEntries 0 (.start msk)
        if s.failed = true ∨ s.numSet = 0 then (aEInval, s.msk) else (s.ret, s.msk)

/-- The end of `cpu_mask_from_config`, where a mask that was not filled is destroyed: the result and
    `*pmask`. -/
def cpuMaskDone (pmask : Option CpuMask) (filled : AResult × CpuMask) : AResult × Option CpuMask :=
  if afailed filled.1 then (filled.1, pmask) else (filled.1, some filled.2)

/-- `cpu_mask_from_config`: the result and `*pmask`. -/
def cpuMaskFromConfig (j : Jansson) (env : MaskEnv) (pmask : Option CpuMask) (cfg : Json)
    (fieldName : List Char) : AResult × Option CpuMask :=
  match cpuMaskCreate env with
  | .error ret => (ret, pmask)
  | .ok msk =>
      let (ret, coreId) := configGetInteger j cfg (-1#32) fieldName env.strdup
      cpuMaskDone pmask <|
        if afailed ret = false then
          if coreId.toInt < 0 then (ret, msk) else cpuMaskSet msk coreId.toNat
        else
          match configGet j cfg fieldName env.strdupAgain with
          | .ok coreArr => cpuMaskFromArray msk coreArr
          | .error _ => (aENoent, msk)

/-! ## What it should do -/

/-- The core that a value names in a set of `limit` cores. -/
def Json.core? (limit : ℕ) : Json → Option ℕ
  | .integer value =>
      if 0 ≤ value.toInt ∧ value.toInt < limit then some value.toNat else none
  | _ => none

/-- The cores that a field lists: one, or those of an array that is not empty. -/
def Json.cores? (limit : ℕ) : Json → Option (List ℕ)
  | .array [] => none
  | .array elems => elems.mapM (Json.core? limit)
  | json => (json.core? limit).map fun c => [c]

/-- The mask is made of the listed cores; if there is no list, the call fails and `*pmask` stays. -/
def MaskMatches (listed : Option (List ℕ)) (pmask : Option CpuMask)
    (r : AResult × Option CpuMask) : Prop :=
  match listed with
  | some cores => ∃ msk, r = (aOk, some msk) ∧ msk.mask = cores.toFinset
  | none => afailed r.1 = true ∧ r.2 = pmask

/-- The call does what the field says, or fails if there is no such field. -/
structure FollowsField (limit : ℕ) (cfg : Json) (fieldName : List Char) (pmask : Option CpuMask)
    (r : AResult × Option CpuMask) : Prop where
  present : ∀ item, fieldName ≠ [] → cfg.Addressed fieldName item →
    MaskMatches (item.cores? limit) pmask r
  missing : (∀ item, fieldName ≠ [] → ¬ cfg.Addressed fieldName item) → MaskMatches none pmask r

/-- The number of cores in a set on this machine. -/
def MaskEnv.limit (env : MaskEnv) : ℕ := 8 * cpuAllocSize env.numCpus

/-- There is memory for the mask. -/
def MaskEnv.Creates (env : MaskEnv) : Prop := env.calloc = true ∧ env.cpuAlloc = true

instance (env : MaskEnv) : Decidable env.Creates :=
  inferInstanceAs (Decidable (env.calloc = true ∧ env.cpuAlloc = true))

/-- The entry is an integer that a conversion to `int` makes negative. -/
def Json.TurnsNegative (json : Json) : Prop :=
  ∃ value, json = .integer value ∧ (value.setWidth 32).toInt < 0

/-- The array branch does what the field says: the array has entries, and either they list cores that
    fit an `int`, or they do not and one of them turns negative. -/
def Json.ArrayHonest (limit : ℕ) (json : Json) : Prop :=
  match json with
  | .array elems => elems ≠ [] ∧
      match json.cores? limit with
      | some cores => ∀ c ∈ cores, c < 2 ^ 31
      | none => ∃ item ∈ elems, item.TurnsNegative
  | _ => json.cores? limit = none

/-- The field is one for which the call does what the field says. With enough memory that is a core of
    the set whose number fits an `int`; without, it is a field that lists no cores. Where the memory
    was short only for the first copy of the name, it depends on the array. -/
def Json.Honest (env : MaskEnv) (json : Json) : Prop :=
  if env.Creates ∧ env.strdup = Bool.true then
    ∃ value, json = .integer value ∧ 0 ≤ value.toInt ∧ value.toInt < env.limit ∧ value.toInt < 2 ^ 31
  else if env.Creates ∧ env.strdupAgain = Bool.true then json.ArrayHonest env.limit
  else json.cores? env.limit = none

/-! ## The array branch -/

section Scan

variable {limit : ℕ} {elems : List Json} {s : CoreScan} {msk : CpuMask}

/-- What an entry is read as: an integer, cut to 32 bits, and 0 for anything else. -/
def Json.entryCore (json : Json) : BitVec 32 := (configFromJson json).asInteger.getD 0#32

theorem configArrayAtInteger_entry {i : ℕ} {item : Json} (hitem : elems[i]? = some item) :
    configArrayAtInteger (.array (.array elems)) i = (aOk, item.entryCore) := by
  have hat := (finds_configArrayAt (.array (.array elems)) i).ok item trivial ⟨elems, rfl, hitem⟩
  rw [configArrayAtInteger, hat, configTyped_ok]
  rfl

theorem Json.entryCore_neg_iff (json : Json) : json.entryCore.toInt < 0 ↔ json.TurnsNegative := by
  cases json with
  | integer value =>
      constructor
      · exact fun hneg => ⟨value, rfl, hneg⟩
      · rintro ⟨_, heq, hneg⟩
        cases heq
        exact hneg
  | _ =>
      refine iff_of_false (show ¬ (0#32).toInt < 0 by decide) ?_
      rintro ⟨_, heq, -⟩
      cases heq

theorem cpuMaskSet_mem (msk : CpuMask) (cpuId c : ℕ) :
    c ∈ (cpuMaskSet msk cpuId).2.mask ↔ c ∈ msk.mask ∨ c = cpuId ∧ cpuId < 8 * msk.size := by
  unfold cpuMaskSet
  by_cases hin : cpuId < 8 * msk.size
  · simp only [dif_pos hin, Finset.mem_insert]
    grind
  · simp only [dif_neg hin]
    grind

@[simp] theorem cpuMaskSet_ret (msk : CpuMask) (cpuId : ℕ) : (cpuMaskSet msk cpuId).1 = aOk := by
  unfold cpuMaskSet
  split <;> rfl

@[simp] theorem cpuMaskSet_size (msk : CpuMask) (cpuId : ℕ) :
    (cpuMaskSet msk cpuId).2.size = msk.size := by
  unfold cpuMaskSet
  split <;> rfl

theorem CoreScan.entry_ok (s : CoreScan) (core : BitVec 32) :
    s.entry (aOk, core) =
      if core.toInt < 0 then { s with ret := aOk, failed := true }
      else { s with ret := aOk, msk := (cpuMaskSet s.msk core.toNat).2, numSet := s.numSet + 1 } := by
  simp only [CoreScan.entry, afailed_aOk, cpuMaskSet_ret]
  rfl

/-- What the loop has done at its end, from pass `i` on. -/
structure Scanned (elems : List Json) (s s' : CoreScan) : Prop where
  ret : s'.ret = aOk
  failed : s'.failed = true ↔ s.failed = true ∨ ∃ item ∈ elems, item.TurnsNegative
  size : s'.msk.size = s.msk.size
  numSet : (∀ item ∈ elems, ¬ item.TurnsNegative) → s'.numSet = s.numSet + elems.length
  mask : (∀ item ∈ elems, ¬ item.TurnsNegative) → ∀ c, c ∈ s'.msk.mask ↔ c ∈ s.msk.mask ∨
    ∃ item ∈ elems, c = item.entryCore.toNat ∧ item.entryCore.toNat < 8 * s.msk.size

theorem scanned_nil (hret : s.ret = aOk) : Scanned [] s s where
  ret := hret
  failed := by simp
  size := rfl
  numSet := fun _ => rfl
  mask := by simp

theorem scanned_cons {item : Json} {s' : CoreScan}
    (h : Scanned elems (s.entry (aOk, item.entryCore)) s') : Scanned (item :: elems) s s' := by
  rw [CoreScan.entry_ok] at h
  by_cases hneg : item.entryCore.toInt < 0
  · rw [if_pos hneg] at h
    have hturns := item.entryCore_neg_iff.1 hneg
    refine ⟨h.ret, ?_, h.size, fun hall => ?_, fun hall => ?_⟩
    · rw [h.failed]
      exact iff_of_true (.inl rfl) (.inr ⟨item, List.mem_cons_self, hturns⟩)
    · exact absurd hturns (hall item List.mem_cons_self)
    · exact absurd hturns (hall item List.mem_cons_self)
  · rw [if_neg hneg] at h
    have hturns : ¬ item.TurnsNegative := fun ht => hneg (item.entryCore_neg_iff.2 ht)
    refine ⟨h.ret, ?_, ?_, fun hall => ?_, fun hall c => ?_⟩
    · rw [h.failed]
      simp [hturns]
    · rw [h.size, cpuMaskSet_size]
    · rw [h.numSet fun x hx => hall x (List.mem_cons_of_mem _ hx), List.length_cons]
      simp only
      omega
    · rw [h.mask (fun x hx => hall x (List.mem_cons_of_mem _ hx)) c]
      simp only [cpuMaskSet_mem, cpuMaskSet_size, List.mem_cons, exists_eq_or_imp]
      grind

/-- **The loop** over the rest of the array. -/
theorem coreScan_spec (n i : ℕ) (hn : i + n = elems.length) (hret : s.ret = aOk) :
    Scanned (elems.drop i) s (coreScan (.array (.array elems)) n i s) := by
  induction n generalizing i s with
  | zero =>
      rw [List.drop_eq_nil_of_le (by omega)]
      exact scanned_nil hret
  | succ n ih =>
      have hi : i < elems.length := by omega
      rw [List.drop_eq_getElem_cons hi, coreScan,
        configArrayAtInteger_entry (List.getElem?_eq_getElem hi)]
      refine scanned_cons (ih (i + 1) (by omega) ?_)
      rw [CoreScan.entry_ok]
      split <;> rfl

theorem cpuMaskFromArray_array (msk : CpuMask) (hempty : msk.mask = ∅) (hne : elems ≠ []) :
    ((∃ item ∈ elems, item.TurnsNegative) ∧
        afailed (cpuMaskFromArray msk (.array (.array elems))).1 = true) ∨
      (∀ item ∈ elems, ¬ item.TurnsNegative) ∧
        (cpuMaskFromArray msk (.array (.array elems))).1 = aOk ∧
        ∀ c, c ∈ (cpuMaskFromArray msk (.array (.array elems))).2.mask ↔
          ∃ item ∈ elems, c = item.entryCore.toNat ∧ item.entryCore.toNat < 8 * msk.size := by
  have hlen := List.length_pos_of_ne_nil hne
  have h : Scanned (elems.drop 0) (.start msk)
      (coreScan (.array (.array elems)) elems.length 0 (.start msk)) :=
    coreScan_spec elems.length 0 (by omega) rfl
  rw [List.drop_zero] at h
  have hrun : cpuMaskFromArray msk (.array (.array elems)) =
      let s := coreScan (.array (.array elems)) elems.length 0 (.start msk)
      if s.failed = true ∨ s.numSet = 0 then (aEInval, s.msk) else (s.ret, s.msk) := by
    simp only [cpuMaskFromArray, configArrayLength]
    rw [if_neg (by omega)]
  rw [hrun]
  by_cases hneg : ∃ item ∈ elems, item.TurnsNegative
  · refine .inl ⟨hneg, ?_⟩
    simp only
    rw [if_pos (.inl (h.failed.2 (.inr hneg)))]
    exact afailed_aresultError _ _
  · have hall : ∀ item ∈ elems, ¬ item.TurnsNegative := fun item hi ht => hneg ⟨item, hi, ht⟩
    have hnotfailed : ¬ (coreScan (.array (.array elems)) elems.length 0 (.start msk)).failed =
        true := by
      rw [h.failed]
      simpa [CoreScan.start] using hall
    have hset : (coreScan (.array (.array elems)) elems.length 0 (.start msk)).numSet =
        0 + elems.length := h.numSet hall
    simp only
    rw [if_neg (not_or.2 ⟨hnotfailed, by omega⟩)]
    refine .inr ⟨hall, h.ret, fun c => ?_⟩
    rw [h.mask hall c]
    simp [CoreScan.start, hempty]

end Scan

/-! ## What the fields list -/

section Listed

variable {limit : ℕ} {item : Json} {elems : List Json} {cores : List ℕ} {c : ℕ}

theorem Json.core?_eq_some : item.core? limit = some c ↔
    ∃ value, item = .integer value ∧ 0 ≤ value.toInt ∧ value.toInt < limit ∧ c = value.toNat := by
  cases item with
  | integer value =>
      simp only [Json.core?, Option.ite_none_right_eq_some, Option.some.injEq, Json.integer.injEq]
      constructor
      · rintro ⟨⟨hpos, hlt⟩, rfl⟩
        exact ⟨value, rfl, hpos, hlt, rfl⟩
      · rintro ⟨_, rfl, hpos, hlt, rfl⟩
        exact ⟨⟨hpos, hlt⟩, rfl⟩
  | _ => simp [Json.core?]

theorem mapM_core?_eq_some (h : elems.mapM (Json.core? limit) = some cores) :
    (∀ item ∈ elems, ∃ c, item.core? limit = some c) ∧
      ∀ c, c ∈ cores ↔ ∃ item ∈ elems, item.core? limit = some c := by
  induction elems generalizing cores with
  | nil =>
      rw [List.mapM_nil, Option.pure_def, Option.some.injEq] at h
      subst h
      simp
  | cons item elems ih =>
      simp only [List.mapM_cons, Option.bind_eq_bind, Option.bind_eq_some_iff, Option.pure_def,
        Option.some.injEq] at h
      obtain ⟨core, hcore, rest, hrest, rfl⟩ := h
      obtain ⟨hall, hmem⟩ := ih hrest
      refine ⟨?_, fun c => ?_⟩
      · simp only [List.mem_cons, forall_eq_or_imp]
        exact ⟨⟨core, hcore⟩, hall⟩
      · simp only [List.mem_cons, exists_eq_or_imp, hcore, Option.some.injEq, hmem c]
        rw [eq_comm]

/-- A core number that fits an `int` is read as it is. -/
theorem setWidth_of_fits {value : BitVec 64} (hpos : 0 ≤ value.toInt) (hlt : value.toInt < 2 ^ 31) :
    ¬ (value.setWidth 32).toInt < 0 ∧ (value.setWidth 32).toNat = value.toNat := by
  have hkept := (toInt_setWidth_iff value).2 ⟨by omega, hlt⟩
  rw [BitVec.toInt_eq_toNat_cond] at hpos hlt
  rw [BitVec.toInt_eq_toNat_cond, BitVec.toInt_eq_toNat_cond, BitVec.toNat_setWidth] at hkept
  rw [BitVec.toInt_eq_toNat_cond, BitVec.toNat_setWidth]
  have := value.isLt
  split at hpos <;> split at hkept <;> split <;> omega

theorem setWidth_of_not_fits {value : BitVec 64} (hbig : 2 ^ 31 ≤ value.toInt) :
    (value.setWidth 32).toInt < 0 ∨ (value.setWidth 32).toNat ≠ value.toNat := by
  rw [BitVec.toInt_eq_toNat_cond] at hbig
  rw [BitVec.toInt_eq_toNat_cond, BitVec.toNat_setWidth]
  have := value.isLt
  split at hbig <;> split <;> omega

theorem Json.cores?_array (hne : elems ≠ []) :
    (Json.array elems).cores? limit = elems.mapM (Json.core? limit) := by
  cases elems with
  | nil => exact absurd rfl hne
  | cons => rfl

theorem Json.cores?_ne_nil (h : item.cores? limit = some cores) : cores ≠ [] := by
  unfold Json.cores? at h
  split at h
  · cases h
  · next elems hne =>
      obtain ⟨x, xs, rfl⟩ := List.exists_cons_of_ne_nil fun heq => hne heq
      rw [List.mapM_cons] at h
      simp only [Option.bind_eq_bind, Option.bind_eq_some_iff, Option.pure_def,
        Option.some.injEq] at h
      obtain ⟨_, _, _, _, rfl⟩ := h
      exact List.cons_ne_nil _ _
  · rw [Option.map_eq_some_iff] at h
    obtain ⟨_, _, rfl⟩ := h
    exact List.cons_ne_nil _ _

theorem maskMatches_ok_iff {listed : Option (List ℕ)} {pmask : Option CpuMask} {msk : CpuMask} :
    MaskMatches listed pmask (aOk, some msk) ↔
      ∃ cores, listed = some cores ∧ msk.mask = cores.toFinset := by
  cases listed with
  | none => simp [MaskMatches]
  | some cores => simp [MaskMatches]

theorem maskMatches_failed_iff {listed : Option (List ℕ)} {pmask : Option CpuMask} {ret : AResult}
    (hret : afailed ret = true) : MaskMatches listed pmask (ret, pmask) ↔ listed = none := by
  cases listed with
  | none => simp [MaskMatches, hret]
  | some cores => simp [MaskMatches, ne_aOk_of_afailed hret]

end Listed

/-! ## The two encodings -/

section Encodings

variable {limit : ℕ} {item : Json} {elems : List Json} {msk : CpuMask} {pmask : Option CpuMask}

/-- The mask that a single number gives. -/
def maskOfInteger (msk : CpuMask) (coreId : BitVec 32) : CpuMask :=
  if coreId.toInt < 0 then msk else (cpuMaskSet msk coreId.toNat).2

theorem mem_maskOfInteger (hempty : msk.mask = ∅) {coreId : BitVec 32} {c : ℕ} :
    c ∈ (maskOfInteger msk coreId).mask ↔
      ¬ coreId.toInt < 0 ∧ c = coreId.toNat ∧ coreId.toNat < 8 * msk.size := by
  unfold maskOfInteger
  by_cases hneg : coreId.toInt < 0
  · simp [hneg, hempty]
  · simp [hneg, cpuMaskSet_mem, hempty]

theorem maskMatches_single (hempty : msk.mask = ∅) :
    MaskMatches (item.cores? (8 * msk.size)) pmask
        (aOk, some (maskOfInteger msk ((configFromJson item).asInteger.getD (-1#32)))) ↔
      ∃ value, item = .integer value ∧ 0 ≤ value.toInt ∧ value.toInt < (8 * msk.size : ℕ) ∧
        value.toInt < 2 ^ 31 := by
  rw [maskMatches_ok_iff]
  constructor
  · rintro ⟨cores, hcores, hmask⟩
    obtain ⟨c, hc⟩ := List.exists_mem_of_ne_nil _ (Json.cores?_ne_nil hcores)
    have hin := List.mem_toFinset.2 hc
    rw [← hmask, mem_maskOfInteger hempty] at hin
    obtain ⟨hnonneg, hread, hsize⟩ := hin
    cases item with
    | integer value =>
        obtain ⟨core, hcore, rfl⟩ := Option.map_eq_some_iff.1 hcores
        obtain ⟨_, heq, hpos, hlt, rfl⟩ := Json.core?_eq_some.1 hcore
        cases heq
        rw [List.mem_singleton] at hc
        refine ⟨value, rfl, hpos, hlt, ?_⟩
        -- a number that does not fit is read as another one
        by_contra hbig
        rcases setWidth_of_not_fits (not_lt.1 hbig) with hneg | hother
        · exact hnonneg hneg
        · exact hother (hread.symm.trans hc)
    | _ => exact absurd (show (-1#32 : BitVec 32).toInt < 0 by decide) hnonneg
  · rintro ⟨value, rfl, hpos, hlt, hfits⟩
    obtain ⟨hnonneg, hread⟩ := setWidth_of_fits hpos hfits
    refine ⟨[value.toNat], ?_, ?_⟩
    · have hcore : (Json.integer value).core? (8 * msk.size) = some value.toNat :=
        Json.core?_eq_some.2 ⟨value, rfl, hpos, hlt, rfl⟩
      change (Json.core? _ _).map _ = _
      rw [hcore, Option.map_some]
    · ext c
      simp only [configFromJson, Config.asInteger, Option.getD_some, mem_maskOfInteger hempty, hread]
      have hsize : value.toNat < 8 * msk.size := by
        rw [BitVec.toInt_eq_toNat_cond] at hpos hlt
        split at hpos <;> omega
      rw [List.mem_toFinset, List.mem_singleton]
      exact ⟨fun h => h.2.1, fun h => ⟨hnonneg, h, hsize⟩⟩

theorem maskMatches_done_failed {ret : AResult} (hret : afailed ret = true)
    {listed : Option (List ℕ)} :
    MaskMatches listed pmask (cpuMaskDone pmask (ret, msk)) ↔ listed = none := by
  rw [cpuMaskDone, if_pos hret]
  exact maskMatches_failed_iff hret

theorem entryCore_of_core? {c : ℕ} (hcore : item.core? limit = some c) (hfits : c < 2 ^ 31) :
    ¬ item.TurnsNegative ∧ item.entryCore.toNat = c ∧ c < limit := by
  obtain ⟨value, rfl, hpos, hlt, rfl⟩ := Json.core?_eq_some.1 hcore
  have hnat : value.toInt = value.toNat := by
    rw [BitVec.toInt_eq_toNat_cond] at hpos ⊢
    split at hpos <;> omega
  have hentry : (Json.integer value).entryCore = value.setWidth 32 := rfl
  have hint : value.toInt < 2 ^ 31 := by omega
  obtain ⟨hnonneg, hread⟩ := setWidth_of_fits hpos hint
  rw [← Json.entryCore_neg_iff, hentry]
  exact ⟨hnonneg, hread, by omega⟩

theorem maskMatches_entries (hempty : msk.mask = ∅) (hne : elems ≠ []) :
    MaskMatches ((Json.array elems).cores? (8 * msk.size)) pmask
        (cpuMaskDone pmask (cpuMaskFromArray msk (.array (.array elems)))) ↔
      (Json.array elems).ArrayHonest (8 * msk.size) := by
  simp only [Json.ArrayHonest, hne, ne_eq, not_false_eq_true, true_and]
  rcases cpuMaskFromArray_array msk hempty hne with ⟨hneg, hfailed⟩ | ⟨hall, hok, hmem⟩
  · rw [← Prod.eta (cpuMaskFromArray msk _), maskMatches_done_failed hfailed]
    cases hlist : (Json.array elems).cores? (8 * msk.size) with
    | none => exact iff_of_true rfl hneg
    | some cores =>
        refine iff_of_false (Option.some_ne_none cores) fun hfits => ?_
        obtain ⟨item, hitem, hturns⟩ := hneg
        rw [Json.cores?_array hne] at hlist
        obtain ⟨hnamed, hcores⟩ := mapM_core?_eq_some hlist
        obtain ⟨c, hc⟩ := hnamed item hitem
        exact (entryCore_of_core? hc (hfits c ((hcores c).2 ⟨item, hitem, hc⟩))).1 hturns
  · rw [cpuMaskDone, hok, if_neg (by simp), maskMatches_ok_iff]
    cases hlist : (Json.array elems).cores? (8 * msk.size) with
    | none =>
        refine iff_of_false (by simp) fun hneg => ?_
        obtain ⟨item, hitem, hturns⟩ := hneg
        exact hall item hitem hturns
    | some cores =>
        rw [Json.cores?_array hne] at hlist
        obtain ⟨hnamed, hcores⟩ := mapM_core?_eq_some hlist
        simp only [Option.some.injEq, exists_eq_left']
        constructor
        · intro hmask c hc
          have hin := List.mem_toFinset.2 hc
          rw [← hmask, hmem] at hin
          obtain ⟨item, hitem, rfl, -⟩ := hin
          have hnonneg : ¬ item.entryCore.toInt < 0 := fun hneg =>
            hall item hitem (item.entryCore_neg_iff.1 hneg)
          rw [BitVec.toInt_eq_toNat_cond] at hnonneg
          split at hnonneg <;> omega
        · intro hfits
          ext c
          rw [hmem, List.mem_toFinset, hcores]
          constructor
          · rintro ⟨item, hitem, rfl, -⟩
            obtain ⟨c, hc⟩ := hnamed item hitem
            obtain ⟨-, hread, -⟩ :=
              entryCore_of_core? hc (hfits c ((hcores c).2 ⟨item, hitem, hc⟩))
            exact ⟨item, hitem, hread ▸ hc⟩
          · rintro ⟨item, hitem, hc⟩
            obtain ⟨-, hread, hlt⟩ :=
              entryCore_of_core? hc (hfits c ((hcores c).2 ⟨item, hitem, hc⟩))
            exact ⟨item, hitem, hread.symm, hread ▸ hlt⟩

theorem maskMatches_array (hempty : msk.mask = ∅) :
    MaskMatches (item.cores? (8 * msk.size)) pmask
        (cpuMaskDone pmask (cpuMaskFromArray msk (configFromJson item))) ↔
      item.ArrayHonest (8 * msk.size) := by
  cases item with
  | array elems =>
      by_cases hne : elems = []
      · subst hne
        refine iff_of_false ?_ fun h => h.1 rfl
        simp [MaskMatches, Json.cores?, cpuMaskDone, cpuMaskFromArray, configFromJson,
          configArrayLength]
      · exact maskMatches_entries hempty hne
  | _ => exact maskMatches_done_failed (afailed_aresultError _ _)

end Encodings

/-! ## The call -/

section Call

variable {j : Jansson} {env : MaskEnv} {cfg item : Json} {fieldName : List Char} {pmask : Option CpuMask}

theorem cpuMaskCreate_ok (h : env.Creates) : ∃ msk, cpuMaskCreate env = .ok msk ∧ msk.mask = ∅ ∧
    8 * msk.size = env.limit := by
  obtain ⟨hcalloc, halloc⟩ := h
  rw [cpuMaskCreate, if_neg (by simp [hcalloc]), if_neg (by simp [halloc])]
  exact ⟨_, rfl, rfl, rfl⟩

theorem cpuMaskFromConfig_noMemory (h : ¬ env.Creates) :
    cpuMaskFromConfig j env pmask cfg fieldName = (aENomem, pmask) := by
  have hcreate : cpuMaskCreate env = .error aENomem := by
    unfold cpuMaskCreate
    split
    · rfl
    · next hcalloc =>
        rw [if_pos]
        by_contra halloc
        exact h ⟨by simpa using hcalloc, by simpa using halloc⟩
  rw [cpuMaskFromConfig, hcreate]

/-- A field that is found at once is read as one number. -/
theorem cpuMaskFromConfig_single (hj : j.GetsMembers) {msk : CpuMask} (hcreate : cpuMaskCreate env = .ok msk)
    (hdup : env.strdup = true) (hname : fieldName ≠ []) (hitem : cfg.Addressed fieldName item) :
    cpuMaskFromConfig j env pmask cfg fieldName =
      (aOk, some (maskOfInteger msk ((configFromJson item).asInteger.getD (-1#32)))) := by
  have hget := (finds_configGet hj cfg fieldName env.strdup).ok item ⟨hname, hdup⟩ hitem
  have hread : configGetInteger j cfg (-1#32) fieldName env.strdup =
      (aOk, (configFromJson item).asInteger.getD (-1#32)) := by
    rw [configGetInteger, hget, configTyped_ok]
  simp only [cpuMaskFromConfig, hcreate, hread, afailed_aOk, if_true, maskOfInteger]
  by_cases hneg : ((configFromJson item).asInteger.getD (-1#32)).toInt < 0
  · rw [if_pos hneg, if_pos hneg, cpuMaskDone, if_neg (by simp)]
  · rw [if_neg hneg, if_neg hneg, cpuMaskDone, cpuMaskSet_ret, if_neg (by simp)]

/-- One that is not is looked up once more. -/
theorem cpuMaskFromConfig_retry (hj : j.GetsMembers) {msk : CpuMask} (hcreate : cpuMaskCreate env = .ok msk)
    (hnot : ∀ item, fieldName ≠ [] ∧ env.strdup = true → ¬ cfg.Addressed fieldName item) :
    cpuMaskFromConfig j env pmask cfg fieldName = cpuMaskDone pmask
      (match configGet j cfg fieldName env.strdupAgain with
        | .ok coreArr => cpuMaskFromArray msk coreArr
        | .error _ => (aENoent, msk)) := by
  obtain ⟨ret, hfailed, hget⟩ := (finds_configGet hj cfg fieldName env.strdup).error hnot
  have hread : configGetInteger j cfg (-1#32) fieldName env.strdup = (ret, -1#32) := by
    rw [configGetInteger, hget, configTyped]
  simp only [cpuMaskFromConfig, hcreate, hread]
  rw [if_neg (by simp [hfailed])]

theorem cpuMaskFromConfig_noent (hj : j.GetsMembers) {msk : CpuMask} (hcreate : cpuMaskCreate env = .ok msk)
    (hnot : ∀ item, fieldName ≠ [] ∧ env.strdup = true → ¬ cfg.Addressed fieldName item)
    (hagain : ∀ item, fieldName ≠ [] ∧ env.strdupAgain = true → ¬ cfg.Addressed fieldName item) :
    cpuMaskFromConfig j env pmask cfg fieldName = (aENoent, pmask) := by
  obtain ⟨ret, -, hget⟩ := (finds_configGet hj cfg fieldName env.strdupAgain).error hagain
  rw [cpuMaskFromConfig_retry hj hcreate hnot, hget]
  exact if_pos (afailed_aresultError _ _)

/-- The call on a field that is there. -/
theorem maskMatches_iff (hj : j.GetsMembers) (hname : fieldName ≠ []) (hitem : cfg.Addressed fieldName item) :
    MaskMatches (item.cores? env.limit) pmask (cpuMaskFromConfig j env pmask cfg fieldName) ↔
      item.Honest env := by
  unfold Json.Honest
  by_cases hmem : env.Creates
  · obtain ⟨msk, hcreate, hempty, hsize⟩ := cpuMaskCreate_ok hmem
    simp only [hmem, true_and]
    by_cases hdup : env.strdup = true
    · rw [if_pos hdup, cpuMaskFromConfig_single hj hcreate hdup hname hitem, ← hsize]
      exact maskMatches_single hempty
    · have hnot : ∀ item, fieldName ≠ [] ∧ env.strdup = true → ¬ cfg.Addressed fieldName item :=
        fun _ h => absurd h.2 hdup
      rw [if_neg hdup]
      by_cases hagain : env.strdupAgain = true
      · rw [if_pos hagain, cpuMaskFromConfig_retry hj hcreate hnot,
          (finds_configGet hj cfg fieldName env.strdupAgain).ok item ⟨hname, hagain⟩ hitem, ← hsize]
        exact maskMatches_array hempty
      · rw [if_neg hagain, cpuMaskFromConfig_noent hj hcreate hnot fun _ h => absurd h.2 hagain]
        exact maskMatches_failed_iff (afailed_aresultError _ _)
  · simp only [hmem, false_and, if_false]
    rw [cpuMaskFromConfig_noMemory hmem]
    exact maskMatches_failed_iff (afailed_aresultError _ _)

theorem maskMatches_missing (hj : j.GetsMembers)
    (hnone : ∀ item, fieldName ≠ [] → ¬ cfg.Addressed fieldName item) :
    MaskMatches none pmask (cpuMaskFromConfig j env pmask cfg fieldName) := by
  by_cases hmem : env.Creates
  · obtain ⟨msk, hcreate, -, -⟩ := cpuMaskCreate_ok hmem
    rw [cpuMaskFromConfig_noent hj hcreate (fun item h => hnone item h.1)
      (fun item h => hnone item h.1)]
    exact ⟨afailed_aresultError _ _, rfl⟩
  · rw [cpuMaskFromConfig_noMemory hmem]
    exact ⟨afailed_aresultError _ _, rfl⟩

end Call

/-- **`cpu_mask_from_config` follows the field** exactly if the field is missing or is one of those it
reads honestly. -/
theorem cpuMaskFromConfig_iff {j : Jansson} (hj : j.GetsMembers) (env : MaskEnv)
    (pmask : Option CpuMask) (cfg : Json) (fieldName : List Char) :
    FollowsField env.limit cfg fieldName pmask (cpuMaskFromConfig j env pmask cfg fieldName) ↔
      ∀ item, fieldName ≠ [] → cfg.Addressed fieldName item → item.Honest env := by
  constructor
  · exact fun h item hname hitem => (maskMatches_iff hj hname hitem).1 (h.present item hname hitem)
  · exact fun h => ⟨fun item hname hitem => (maskMatches_iff hj hname hitem).2 (h item hname hitem),
      maskMatches_missing hj⟩

/-- A machine of four CPUs, with enough memory. -/
def fourCpus : MaskEnv where
  numCpus := 4
  calloc := true
  cpuAlloc := true
  strdup := true
  strdupAgain := true

/-- A configuration that asks for the core 2. -/
def oneCore : Json := .object [("core".toList, .integer 2#64)]

theorem cpuMaskFromConfig_iff_oneCore :
    FollowsField fourCpus.limit oneCore "core".toList none
      (cpuMaskFromConfig membersOnly fourCpus none oneCore "core".toList) := by
  have hcore : oneCore.Addressed "core".toList (.integer 2#64) :=
    .last (by decide) (by decide) rfl
  refine (cpuMaskFromConfig_iff membersOnly_getsMembers fourCpus none oneCore "core".toList).2
    fun item _ hitem => ?_
  rw [hitem.unique hcore]
  exact ⟨2#64, rfl, by decide⟩

/-- A configuration that asks for the cores 1 and 2, for the core -3, and for a core by a name. -/
def coreConfig : Json :=
  .object [("cores".toList, .array [.integer 1#64, .integer 2#64]),
    ("negative".toList, .integer (-3#64)), ("named".toList, .string "first".toList)]

/-- The field gives an empty mask, which is not what it says. -/
def GivesEmpty (fieldName : List Char) : Prop :=
  (∃ msk, cpuMaskFromConfig membersOnly fourCpus none coreConfig fieldName = (aOk, some msk) ∧ msk.mask = ∅) ∧
    ¬ FollowsField fourCpus.limit coreConfig fieldName none
      (cpuMaskFromConfig membersOnly fourCpus none coreConfig fieldName)

theorem givesEmpty_of_negative {fieldName : List Char} {item : Json} (hname : fieldName ≠ [])
    (hitem : coreConfig.Addressed fieldName item)
    (hneg : ((configFromJson item).asInteger.getD (-1#32)).toInt < 0)
    (hnot : ¬ item.Honest fourCpus) : GivesEmpty fieldName := by
  have hmem : fourCpus.Creates := ⟨rfl, rfl⟩
  obtain ⟨msk, hcreate, hempty, -⟩ := cpuMaskCreate_ok hmem
  refine ⟨⟨_, cpuMaskFromConfig_single membersOnly_getsMembers hcreate rfl hname hitem, ?_⟩, fun h => ?_⟩
  · rw [maskOfInteger, if_pos hneg, hempty]
  · exact hnot ((maskMatches_iff membersOnly_getsMembers hname hitem).1 (h.present item hname hitem))

/-- An array of two cores, a negative core and a name all give an empty mask. -/
theorem coreArray_gives_empty :
    GivesEmpty "cores".toList ∧ GivesEmpty "negative".toList ∧ GivesEmpty "named".toList := by
  have honest : ∀ item : Json, item.Honest fourCpus →
      ∃ value, item = .integer value ∧ 0 ≤ value.toInt := by
    rintro item ⟨value, heq, hpos, -⟩
    exact ⟨value, heq, hpos⟩
  refine ⟨?array, ?negative, ?name⟩
  case array =>
    refine givesEmpty_of_negative (by decide) (.last (by decide) (by decide) rfl) (by decide) ?_
    intro h
    obtain ⟨_, heq, -⟩ := honest _ h
    cases heq
  case negative =>
    refine givesEmpty_of_negative (by decide) (.last (by decide) (by decide) rfl) (by decide) ?_
    intro h
    obtain ⟨_, heq, hpos⟩ := honest _ h
    cases heq
    revert hpos
    decide
  case name =>
    refine givesEmpty_of_negative (by decide) (.last (by decide) (by decide) rfl) (by decide) ?_
    intro h
    obtain ⟨_, heq, -⟩ := honest _ h
    cases heq

end Tsl
