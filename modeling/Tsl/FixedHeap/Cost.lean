import Tsl.FixedHeap.AnyCallback

set_option autoImplicit false

/-! # What a fixed heap costs

The expensive part of a fixed heap is the client's callback. A push compares once for each level that
its item rises, a pop or a removal twice for each level that the last item sinks, so a call that leaves
`n` items makes at most `log₂ n`, or twice `log₂ n`, comparisons (`compares_of_run`). That needs nothing
of the callback, which may answer no order at all, and another one each time.

The callback counts its calls in the world it runs in. -/

namespace Tsl

open Lib

universe u

variable {κ π : Type u}

/-- A call of the callback counts for one at most. -/
def CountsOne (compare : HeapCompare κ π) (count : κ → ℕ) : Prop :=
  ∀ w x y, count (compare w x y).2 ≤ count w + 1

/-- The comparisons that a call may make if it leaves so many items. -/
def ItemCall.mostCompares (entries : ℕ) : ItemCall π → ℕ
  | .push _ => Nat.log 2 entries
  | .pop _ | .removeItem _ => 2 * Nat.log 2 entries

/-! ## The sifts -/

section Sifts

variable {h : FixedHeap κ π} {count : κ → ℕ} {w w' : κ}

theorem fixedHeapInsertLoop_count (hcount : CountsOne h.compare count)
    (hbound : h.entries ≤ h.allocated) {i : ℕ} (hi : i < h.entries) :
    ∃ h' w', fixedHeapInsertLoop h w i = some (h', w') ∧ Sifted h h' ∧
      count w' ≤ count w + level i := by
  have hone : ∀ g v j, Sifted h g → count (insertCompare g v j).2 ≤ count v + 1 := by
    intro g v j hg
    rw [insertCompare, hg.compare]
    exact hcount v _ _
  refine fixedHeapInsertLoop_rule
    (I := fun g v j => j < h.entries ∧ Sifted h g ∧ count v + level j ≤ count w + level i)
    (Q := fun g v => Sifted h g ∧ count v ≤ count w + level i) ?bound ?top ?stop ?pass i h w
    ⟨hi, Sifted.refl h, Nat.le_refl _⟩
  case bound =>
    rintro g v j ⟨hj, hg, -⟩
    rw [hg.allocated]
    exact hj.trans_le hbound
  case top =>
    rintro g v ⟨-, hg, hv⟩
    exact ⟨hg, (Nat.le_add_right _ _).trans hv⟩
  case stop =>
    rintro g v j ⟨hj, hg, hv⟩ hpos -
    have hnext := hone g v j hg
    have hup := level_parent hpos
    exact ⟨hg, by omega⟩
  case pass =>
    rintro g v j ⟨hj, hg, hv⟩ hpos -
    have hnext := hone g v j hg
    have hup := level_parent hpos
    have hp := (parent_lt hpos).trans hj
    exact ⟨hp, hg.swapped hj hp, by omega⟩

theorem fixedHeapPick_count (hcount : CountsOne h.compare count) {child i largest : ℕ}
    (hpick : fixedHeapPick h w child i = some (largest, w')) :
    count w' ≤ count w + 1 ∧ (h.entries ≤ child → w' = w) := by
  unfold fixedHeapPick at hpick
  split at hpick
  · next hchild =>
      simp only [Option.bind_eq_bind, Option.bind_eq_some_iff, Option.some.injEq,
        Prod.mk.injEq] at hpick
      obtain ⟨x, -, y, -, -, rfl⟩ := hpick
      exact ⟨hcount w x y, fun hout => absurd hchild (Nat.not_lt.2 hout)⟩
  · simp only [Option.some.injEq, Prod.mk.injEq] at hpick
    obtain ⟨-, rfl⟩ := hpick
    exact ⟨Nat.le_succ _, fun _ => rfl⟩

/-- A pass makes two comparisons at most, and none at a slot with nothing below it. -/
theorem fixedHeapLargest_count (hcount : CountsOne h.compare count) {i largest : ℕ}
    (hlargest : fixedHeapLargest h w i = some (largest, w')) :
    count w' ≤ count w + 2 ∧ (h.entries ≤ 2 * i + 1 → w' = w) := by
  simp only [fixedHeapLargest, Option.bind_eq_bind, Option.bind_eq_some_iff, Prod.exists] at hlargest
  obtain ⟨first, v, hfirst, hsecond⟩ := hlargest
  obtain ⟨hleft, hnoLeft⟩ := fixedHeapPick_count hcount hfirst
  obtain ⟨hright, hnoRight⟩ := fixedHeapPick_count hcount hsecond
  rw [fixedHeapLeft_eq] at hnoLeft
  rw [fixedHeapRight_eq] at hnoRight
  refine ⟨by omega, fun hout => ?_⟩
  rw [hnoRight (hout.trans (Nat.le_succ _)), hnoLeft hout]

theorem fixedHeapHeapify_count (hcount : CountsOne h.compare count)
    (hbound : h.entries ≤ h.allocated) (i : ℕ) :
    ∃ h' w', fixedHeapHeapify h w i = some (h', w') ∧ Sifted h h' ∧
      count w' ≤ count w + 2 * Nat.log 2 h.entries := by
  refine fixedHeapHeapify_rule
    (I := fun g v j => Sifted h g ∧
      count v + 2 * (Nat.log 2 h.entries - level j) ≤ count w + 2 * Nat.log 2 h.entries)
    (Q := fun g v => Sifted h g ∧ count v ≤ count w + 2 * Nat.log 2 h.entries) ?bound ?stop ?pass
    h w i ⟨Sifted.refl h, by omega⟩
  case bound =>
    rintro g v j ⟨hg, -⟩
    rw [hg.allocated, hg.entries]
    exact hbound
  case stop =>
    rintro g v j v' ⟨hg, hv⟩ hlargest
    obtain ⟨htwo, hnone⟩ := fixedHeapLargest_count (hg.compare ▸ hcount) hlargest
    rw [hg.entries] at hnone
    refine ⟨hg, ?_⟩
    rcases Nat.lt_or_ge (2 * j + 1) h.entries with hin | hout
    · -- the slot below is in use, so there is a level further down
      have hbelow := level_le_log hin
      rw [level_parent (Nat.succ_pos _), (parent_eq_iff (Nat.succ_pos _)).2 (.inl rfl)] at hbelow
      omega
    · rw [hnone hout]
      omega
  case pass =>
    rintro g v j largest v' ⟨hg, hv⟩ hlargest hlt hin hparent
    obtain ⟨htwo, -⟩ := fixedHeapLargest_count (hg.compare ▸ hcount) hlargest
    rw [hg.entries] at hin
    have hbelow := level_le_log hin
    have hdown := level_parent (Nat.zero_lt_of_lt hlt)
    rw [hparent] at hdown
    exact ⟨hg.swapped (hlt.trans hin) hin, by omega⟩

end Sifts

/-! ## The calls -/

theorem ItemCall.mostCompares_mono (c : ItemCall π) {m n : ℕ} (h : m ≤ n) :
    c.mostCompares m ≤ c.mostCompares n := by
  cases c with
  | push item => exact Nat.log_mono_right h
  | pop item => exact Nat.mul_le_mul_left 2 (Nat.log_mono_right h)
  | removeItem item => exact Nat.mul_le_mul_left 2 (Nat.log_mono_right h)

section Calls

variable [VoidPtr π] [DecidableEq π] {h : FixedHeap κ π} {count : κ → ℕ}

/-- **A call** makes so many comparisons at most, for the items it leaves. A call that is refused makes
none. -/
theorem ItemCall.run_count (hcount : CountsOne h.compare count) (hwf : h.Wf) (w : κ) (c : ItemCall π) :
    ∃ ret item h' w', c.run h w = some (ret, item, h', w') ∧
      count w' ≤ count w + c.mostCompares h'.entries := by
  have hcap := hwf.capacity_le
  have hent := hwf.entries_le
  cases c with
  | push new =>
      rcases Nat.lt_or_ge h.entries h.capacity with hroom | hfull
      · obtain ⟨h', w', hloop, hsift, hw'⟩ := fixedHeapInsertLoop_count (h := h.appended new) hcount
          (w := w) (hroom.trans_le hcap) (Nat.lt_succ_self h.entries)
        refine ⟨aOk, new, h', w', by rw [run, fixedHeapPush_eq hwf hroom, hloop]; rfl, ?_⟩
        rw [hsift.entries]
        exact hw'
      · exact ⟨aENospc, new, h, w, by rw [run, fixedHeapPush_full hfull, Option.map_some],
          Nat.le_add_right _ _⟩
  | pop item =>
      rcases Nat.eq_zero_or_pos h.entries with hzero | hne
      · exact ⟨aEEmpty, item, h, w, if_pos hzero, Nat.le_add_right _ _⟩
      · obtain ⟨h', w', hloop, hsift, hw'⟩ := fixedHeapHeapify_count (h := h.beheaded) hcount (w := w)
          ((Nat.sub_le _ _).trans (hent.trans hcap)) 0
        refine ⟨aOk, h.heap 0, h', w', by rw [run, fixedHeapPop_eq hwf hne, hloop]; rfl, ?_⟩
        rw [hsift.entries]
        exact hw'
  | removeItem old =>
      rcases fixedHeapFindItem_all hwf old with ⟨k, hk, -⟩ | ⟨hnot, -⟩
      · obtain ⟨h', w', hloop, hsift, hw'⟩ := fixedHeapHeapify_count (h := h.replaced k) hcount
          (w := w) (FixedHeap.replaced_fits hwf) k
        refine ⟨aOk, old, h', w',
          by rw [run, fixedHeapRemoveItem_found hwf hk, hloop]; rfl, ?_⟩
        rw [hsift.entries]
        exact hw'
      · exact ⟨aENotfound, old, h, w,
          by rw [run, fixedHeapRemoveItem_absent hwf hnot, Option.map_some],
          Nat.le_add_right _ _⟩

/-- One call of a run: what it leaves, and what it has cost. -/
theorem itemStep_count (hcount : CountsOne h.compare count) (hwf : h.Wf) (w : κ) (c : ItemCall π) :
    ∃ h' w', itemStep (h, w) c = some (h', w') ∧ SameArray h h' ∧ h'.Wf ∧
      count w' ≤ count w + c.mostCompares h'.entries := by
  obtain ⟨ret, item, h', w', hrun, hsame, hwf', -⟩ := ItemCall.run_spec hwf w c
  obtain ⟨ret₁, item₁, h₁, w₁, hrun₁, hw₁⟩ := ItemCall.run_count hcount hwf w c
  rw [hrun] at hrun₁
  cases hrun₁
  exact ⟨h', w', by rw [itemStep, hrun, Option.map_some], hsame, hwf', hw₁⟩

/-- **A run** costs no more than its calls would in a full heap. -/
theorem itemRun_count (calls : List (ItemCall π)) :
    ∀ {h : FixedHeap κ π} {w : κ}, CountsOne h.compare count → h.Wf →
      ∃ h' w', exec itemStep (h, w) calls = some (h', w') ∧ SameArray h h' ∧ h'.Wf ∧
        count w' ≤ count w + (calls.map (ItemCall.mostCompares h.capacity)).sum := by
  induction calls with
  | nil => exact fun {h w} _ hwf => ⟨h, w, rfl, ⟨rfl, rfl, rfl⟩, hwf, Nat.le_refl _⟩
  | cons c calls ih =>
      intro h w hcount hwf
      obtain ⟨h₁, w₁, hstep, hsame₁, hwf₁, hw₁⟩ := itemStep_count hcount hwf w c
      have hcount₁ : CountsOne h₁.compare count := hsame₁.compare ▸ hcount
      obtain ⟨h₂, w₂, hexec, hsame₂, hwf₂, hw₂⟩ := ih (w := w₁) hcount₁ hwf₁
      have hfull : c.mostCompares h₁.entries ≤ c.mostCompares h.capacity :=
        c.mostCompares_mono (hwf₁.entries_le.trans hsame₁.capacity.le)
      refine ⟨h₂, w₂, exec_cons_eq_some.2 ⟨_, hstep, hexec⟩, ?_, hwf₂, ?_⟩
      · exact ⟨hsame₂.allocated.trans hsame₁.allocated, hsame₂.capacity.trans hsame₁.capacity,
          hsame₂.compare.trans hsame₁.compare⟩
      · rw [hsame₁.capacity] at hw₂
        rw [List.map_cons, List.sum_cons]
        omega

/-- **After every run** under any callback: what the run has cost, and what another call costs. -/
theorem compares_of_run {compare : HeapCompare κ π} (hcount : CountsOne compare count) {maxItems : ℕ}
    {calloc : Bool} (hnew : fixedHeapNew maxItems compare calloc = (aOk, some h)) (w : κ)
    (calls : List (ItemCall π)) :
    ∃ h' w', exec itemStep (h, w) calls = some (h', w') ∧
      count w' ≤ count w + (calls.map (ItemCall.mostCompares maxItems)).sum ∧
      ∀ c : ItemCall π, ∃ h'' w'', itemStep (h', w') c = some (h'', w'') ∧
        count w'' ≤ count w' + c.mostCompares h''.entries := by
  obtain ⟨hcompare, hcapacity, hwf⟩ : h.compare = compare ∧ h.capacity = maxItems ∧ h.Wf := by
    unfold fixedHeapNew at hnew
    split at hnew
    · cases hnew
    · split at hnew
      · cases hnew
        exact ⟨rfl, rfl, Nat.zero_le _, Nat.le_refl _⟩
      · cases hnew
  subst hcompare
  obtain ⟨h', w', hexec, hsame, hwf', hw'⟩ := itemRun_count calls (w := w) hcount hwf
  rw [hcapacity] at hw'
  refine ⟨h', w', hexec, hw', fun c => ?_⟩
  obtain ⟨h'', w'', hstep, -, -, hw''⟩ := itemStep_count (hsame.compare ▸ hcount) hwf' w' c
  exact ⟨h'', w'', hstep, hw''⟩

end Calls

/-- Under the callback that answers by turns, which does nothing but count. -/
theorem compares_of_run_moody :
    ∃ h h' calls, fixedHeapNew 6 moody true = (aOk, some h) ∧
      exec itemStep (h, 0) [.push (some 3), .push (some 1), .push (some 4), .pop none,
        .removeItem (some 1)] = some (h', calls) ∧ calls ≤ 14 := by
  have hone : CountsOne moody id := fun calls _ _ => Nat.le_refl (calls + 1)
  obtain ⟨h, hnew⟩ : ∃ h, fixedHeapNew 6 moody true = (aOk, some h) := ⟨_, rfl⟩
  obtain ⟨h', calls, hrun, hcalls, -⟩ := compares_of_run hone hnew 0
    [.push (some 3), .push (some 1), .push (some 4), .pop none, .removeItem (some 1)]
  exact ⟨h, h', calls, hnew, hrun, hcalls⟩

end Tsl
