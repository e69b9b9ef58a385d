import Tsl.Timer

set_option autoImplicit false

/-! # The order in which timers fire

A manager should fire the armed timer with the earliest deadline, never early, and leave the
earliest remaining deadline in `*pnext` (`FireEvent.InOrder`). It compares deadlines by their
difference narrowed to an `int`, which has the right sign only for deadlines that are close to each
other (`ComparesRight`). `firesInOrder_of_meets` is the result: in every run in which a timer is only
armed while its deadline compares right with those of all armed timers, every call is in order.
`firesInOrder_fails` is a run of two timers that lie four seconds apart. -/

namespace Tsl

open Lib

variable {ν : Type} [DecidableEq ν]

/-- What a call of `timer_manager_fire_next` should do. -/
structure FireEvent.InOrder (e : FireEvent) : Prop where
  /-- The timer fired is due, and no armed timer is earlier. -/
  fired : ∀ d, e.fired = some d → d ≤ e.now ∧ ∀ d' ∈ e.before, d ≤ d'
  /-- `*pnext` is the earliest deadline left. -/
  pnext : e.after ≠ [] → e.pnext ∈ e.after ∧ ∀ d' ∈ e.after, e.pnext ≤ d'

/-- Every call so far was in order. -/
def FiresInOrder (s : TimerRun ν) : Prop := ∀ e ∈ s.history, e.InOrder

/-! ## Deadlines the callback compares right -/

/-- The narrowed difference of two deadlines has the sign of the difference, either way round. -/
def ComparesRight (d d' : BitVec 64) : Prop :=
  (sortDeadlines d d' < 0 ↔ d' < d) ∧ (0 < sortDeadlines d d' ↔ d < d') ∧
    (sortDeadlines d' d < 0 ↔ d < d') ∧ (0 < sortDeadlines d' d ↔ d' < d)

instance (d d' : BitVec 64) : Decidable (ComparesRight d d') :=
  inferInstanceAs (Decidable (_ ∧ _))

theorem comparesRight_self (d : BitVec 64) : ComparesRight d d := by
  simp [ComparesRight, sortDeadlines]

theorem ComparesRight.symm {d d' : BitVec 64} (h : ComparesRight d d') : ComparesRight d' d :=
  ⟨h.2.2.1, h.2.2.2, h.1, h.2.1⟩

/-- Less than `2^31` nanoseconds, about two seconds, is close enough. -/
theorem comparesRight_of_close {d d' : BitVec 64} (h : d.toNat < d'.toNat + 2 ^ 31)
    (h' : d'.toNat < d.toNat + 2 ^ 31) : ComparesRight d d' := by
  have hd := d.isLt
  have hd' := d'.isLt
  have hnarrow : ∀ a b : BitVec 64, a.toNat < b.toNat + 2 ^ 31 → b.toNat < a.toNat + 2 ^ 31 →
      sortDeadlines a b = (b.toNat : ℤ) - a.toNat := by
    intro a b hab hba
    have ha := a.isLt
    have hb := b.isLt
    rw [sortDeadlines, BitVec.toInt_eq_toNat_cond, BitVec.toNat_setWidth, BitVec.toNat_sub]
    split <;> omega
  simp only [ComparesRight, hnarrow d d' h h', hnarrow d' d h' h, BitVec.lt_def]
  omega

/-- The deadlines a list of arm calls sets compare right with those of the timers armed by then. -/
def ArmsCompareRight (nextFiring : Deadlines ν) : List ν → List (ArmCall ν) → Prop
  | _, [] => True
  | armed, c :: cs =>
      (∀ tmr ∈ armed, ComparesRight (nextFiring tmr) c.deadline) ∧
        ArmsCompareRight (Function.update nextFiring c.timer c.deadline) (c.timer :: armed) cs

instance ArmsCompareRight.decidable : ∀ (nextFiring : Deadlines ν) (armed : List ν)
    (cs : List (ArmCall ν)), Decidable (ArmsCompareRight nextFiring armed cs)
  | _, _, [] => inferInstanceAs (Decidable True)
  | nextFiring, armed, c :: cs =>
      have := ArmsCompareRight.decidable (Function.update nextFiring c.timer c.deadline)
        (c.timer :: armed) cs
      inferInstanceAs (Decidable (_ ∧ _))

/-- The condition on a call: what it arms compares right with what is armed then. A callback runs
    when the first timer of the heap is due, and after that timer has been taken out. -/
def CallComparesRight (s : TimerRun ν) : TimerCall ν → Prop
  | .arm c => ArmsCompareRight s.state.nextFiring s.armed [c]
  | .fireNext now callback =>
      ∀ tmr ∈ s.state.armedTimers.heap 0, s.state.nextFiring tmr ≤ now →
        ArmsCompareRight s.state.nextFiring (s.armed.erase tmr) callback

instance (s : TimerRun ν) : (c : TimerCall ν) → Decidable (CallComparesRight s c)
  | .arm c => inferInstanceAs (Decidable (ArmsCompareRight s.state.nextFiring s.armed [c]))
  | .fireNext now callback => inferInstanceAs (Decidable
      (∀ tmr ∈ s.state.armedTimers.heap 0, s.state.nextFiring tmr ≤ now →
        ArmsCompareRight s.state.nextFiring (s.armed.erase tmr) callback))

/-! ## The order of the heap -/

/-- When a pointer to a timer fires. -/
def firingOf (nextFiring : Deadlines ν) : Option ν → ℕ
  | some tmr => (nextFiring tmr).toNat
  | none => 0

/-- The order of the heap: what fires later is below. -/
def FiresLater (nextFiring : Deadlines ν) (x y : Option ν) : Prop :=
  firingOf nextFiring y ≤ firingOf nextFiring x

omit [DecidableEq ν] in
theorem totalPreorder_firesLater (nextFiring : Deadlines ν) :
    TotalPreorder (FiresLater nextFiring) where
  trans := fun hab hbc => le_trans hbc hab
  total := fun _ _ => le_total _ _

omit [DecidableEq ν] in
/-- Among timers that compare right, the callback answers like that order. -/
theorem answers_firesLater {nextFiring : Deadlines ν} {armed : List ν}
    (hright : ∀ t ∈ armed, ∀ t' ∈ armed, ComparesRight (nextFiring t) (nextFiring t')) :
    Answers timerManagerSortTimers (fun w => w = nextFiring) (fun x => x ∈ armed.map some)
      (FiresLater nextFiring) := by
  constructor
  · rintro w x y rfl - -
    cases x <;> cases y <;> rfl
  · rintro w x y rfl hx hy
    obtain ⟨t, ht, rfl⟩ := List.mem_map.1 hx
    obtain ⟨t', ht', rfl⟩ := List.mem_map.1 hy
    have := (hright t ht t' ht').1
    simpa [timerManagerSortTimers, FiresLater, firingOf, BitVec.lt_def] using this
  · rintro w x y rfl hx hy
    obtain ⟨t, ht, rfl⟩ := List.mem_map.1 hx
    obtain ⟨t', ht', rfl⟩ := List.mem_map.1 hy
    have := (hright t ht t' ht').2.1
    simpa [timerManagerSortTimers, FiresLater, firingOf, BitVec.lt_def] using this

/-- The heap holds the armed timers, in order, and they compare right. -/
structure TimerState.Inv (s : TimerState ν) (armed : List ν) : Prop where
  compare_eq : s.armedTimers.compare = timerManagerSortTimers
  wf : s.armedTimers.Wf
  items : s.armedTimers.items = (armed.map some : List (Option ν))
  nodup : armed.Nodup
  comparesRight : ∀ t ∈ armed, ∀ t' ∈ armed,
    ComparesRight (s.nextFiring t) (s.nextFiring t')
  ordered : HeapOrdered (FiresLater s.nextFiring) s.armedTimers.heap s.armedTimers.entries

section Steps

variable {s : TimerState ν} {armed : List ν}

omit [DecidableEq ν] in
theorem TimerState.Inv.entries_eq (hI : s.Inv armed) :
    s.armedTimers.entries = armed.length := by
  have := congrArg Multiset.card hI.items
  simpa [FixedHeap.items] using this

theorem timerManagerAddTimer_spec (hI : s.Inv armed) {tmr : ν} {deadline : BitVec 64}
    (hnew : tmr ∉ armed) (hroom : s.armedTimers.entries < s.armedTimers.capacity)
    (hright : ∀ t ∈ armed, ComparesRight (s.nextFiring t) deadline) :
    ∃ s', timerManagerAddTimer
        { s with nextFiring := Function.update s.nextFiring tmr deadline } tmr = some (aOk, s') ∧
      s'.nextFiring = Function.update s.nextFiring tmr deadline ∧ s'.Inv (tmr :: armed) := by
  set w := Function.update s.nextFiring tmr deadline with hw
  have hold : ∀ t ∈ armed, w t = s.nextFiring t := by
    intro t ht
    have hne : t ≠ tmr := by
      rintro rfl
      exact hnew ht
    exact Function.update_of_ne hne _ _
  have hself : w tmr = deadline := Function.update_self _ _ _
  have hright' : ∀ t ∈ tmr :: armed, ∀ t' ∈ tmr :: armed, ComparesRight (w t) (w t') := by
    intro t ht t' ht'
    rcases List.mem_cons.1 ht with he | ht <;> rcases List.mem_cons.1 ht' with he' | ht'
    · rw [he, he']
      exact comparesRight_self _
    · rw [he, hself, hold t' ht']
      exact (hright t' ht').symm
    · rw [he', hself, hold t ht]
      exact hright t ht
    · rw [hold t ht, hold t' ht']
      exact hI.comparesRight t ht t' ht'
  have hitem : ∀ x ∈ s.armedTimers.items, firingOf w x = firingOf s.nextFiring x := by
    intro x hx
    rw [hI.items, Multiset.mem_coe] at hx
    obtain ⟨t, ht, rfl⟩ := List.mem_map.1 hx
    simp only [firingOf, hold t ht]
  have hordered : HeapOrdered (FiresLater w) s.armedTimers.heap s.armedTimers.entries := by
    intro j hpos hj
    have hp := parent_lt hpos
    have := hI.ordered j hpos hj
    unfold FiresLater at this ⊢
    rwa [hitem _ (FixedHeap.heap_mem_items hj),
      hitem _ (FixedHeap.heap_mem_items (by omega))]
  obtain ⟨h', w', hpush, hsame, hent, hitems, rfl, ho⟩ := fixedHeapPush_ordered
    (h := s.armedTimers) (W := fun v => v = w) (S := fun x => x ∈ (tmr :: armed).map some)
    (totalPreorder_firesLater w)
    (by rw [hI.compare_eq]; exact answers_firesLater hright') hI.wf hroom
    (by
      intro x hx
      rw [hI.items, Multiset.mem_coe] at hx
      exact List.mem_cons_of_mem _ hx)
    rfl hordered (List.mem_cons_self)
  refine ⟨⟨h', w, listAppend s.entries .liveTimers (.tnode tmr)⟩, ?_, rfl, ?_⟩
  · rw [timerManagerAddTimer_eq hpush, afailed_aOk, if_neg Bool.false_ne_true]
  · refine ⟨hsame.compare.trans hI.compare_eq, hsame.wf hI.wf (by omega), ?_, ?_, hright', ho⟩
    · rw [hitems, hI.items, Multiset.cons_coe, List.map_cons]
    · exact List.nodup_cons.2 ⟨hnew, hI.nodup⟩

/-- A step that arms keeps the invariant. -/
theorem armStep_spec (hI : s.Inv armed) {c : ArmCall ν} {s' : TimerState ν}
    (hright : ∀ t ∈ armed, ComparesRight (s.nextFiring t) c.deadline)
    (hstep : armStep s c = some s') :
    s'.nextFiring = Function.update s.nextFiring c.timer c.deadline ∧ s'.Inv (c.timer :: armed) := by
  unfold armStep at hstep
  split at hstep
  · next hok =>
    have hnew : c.timer ∉ armed := by
      intro hmem
      apply hok.1
      rw [hI.items, Multiset.mem_coe]
      exact List.mem_map_of_mem hmem
    obtain ⟨t, hadd, hw, ht⟩ := timerManagerAddTimer_spec hI hnew hok.2.2 hright
    rw [ArmCall.run_eq, hadd] at hstep
    obtain rfl : t = s' := by simpa using hstep
    exact ⟨hw, ht⟩
  · cases hstep

theorem exec_armStep_spec (callback : List (ArmCall ν)) :
    ∀ (s : TimerState ν) (armed : List ν) (s' : TimerState ν), s.Inv armed →
      ArmsCompareRight s.nextFiring armed callback → exec armStep s callback = some s' →
      s'.Inv (armedAfter armed callback) := by
  induction callback with
  | nil =>
      intro s armed s' hI _ hrun
      obtain rfl : s = s' := by simpa using hrun
      exact hI
  | cons c cs ih =>
      intro s armed s' hI hright hrun
      obtain ⟨t, hstep, hrest⟩ := exec_cons_eq_some.1 hrun
      obtain ⟨hw, ht⟩ := armStep_spec hI hright.1 hstep
      exact ih t (c.timer :: armed) s' ht (by rw [hw]; exact hright.2) hrest

omit [DecidableEq ν] in
theorem TimerState.Inv.peek (hI : s.Inv armed) (x : Option ν) :
    (armed = [] ∧ fixedHeapPeekHead s.armedTimers x = some (aEEmpty, x)) ∨
      ∃ tmr ∈ armed, s.armedTimers.heap 0 = some tmr ∧
        fixedHeapPeekHead s.armedTimers x = some (aOk, some tmr) ∧
        ∀ t ∈ armed, s.nextFiring tmr ≤ s.nextFiring t := by
  have hent := hI.entries_eq
  by_cases hempty : armed = []
  · subst hempty
    exact .inl ⟨rfl, if_pos hent⟩
  · have hne : 0 < s.armedTimers.entries := by
      rw [hent]
      exact List.length_pos_of_ne_nil hempty
    have hmem := FixedHeap.heap_mem_items hne
    rw [hI.items, Multiset.mem_coe] at hmem
    obtain ⟨tmr, htmr, hhead⟩ := List.mem_map.1 hmem
    refine .inr ⟨tmr, htmr, hhead.symm, ?_, ?_⟩
    · rw [fixedHeapPeekHead_eq hI.wf hne, hhead]
    · intro t ht
      have hle := le_heap_zero (totalPreorder_firesLater s.nextFiring) hI.ordered (some t)
        (by rw [hI.items, Multiset.mem_coe]; exact List.mem_map_of_mem ht)
      rw [← hhead] at hle
      exact hle

/-- Popping takes that timer out. -/
theorem TimerState.Inv.pop (hI : s.Inv armed) {tmr : ν} (htmr : tmr ∈ armed)
    (hhead : s.armedTimers.heap 0 = some tmr) (x : Option ν) (entries : ListMem (TimerPtr ν)) :
    ∃ heap, fixedHeapPop s.armedTimers s.nextFiring x = some (aOk, some tmr, heap, s.nextFiring) ∧
      TimerState.Inv ⟨heap, s.nextFiring, entries⟩ (armed.erase tmr) := by
  have hne : 0 < s.armedTimers.entries := by
    rw [hI.entries_eq]
    exact List.length_pos_of_mem htmr
  obtain ⟨h', w', hpop, hsame, hent, hitems, rfl, ho⟩ := fixedHeapPop_ordered
    (h := s.armedTimers) (W := fun v => v = s.nextFiring) (S := fun x => x ∈ armed.map some)
    (totalPreorder_firesLater s.nextFiring)
    (by rw [hI.compare_eq]; exact answers_firesLater hI.comparesRight) hI.wf hne
    (by
      intro x hx
      rwa [hI.items, Multiset.mem_coe] at hx)
    rfl hI.ordered x
  have hwf : h'.Wf := hsame.wf hI.wf (by have := hI.wf.entries_le; omega)
  refine ⟨h', by rw [hpop, hhead], hsame.compare.trans hI.compare_eq, hwf, ?_,
    hI.nodup.erase tmr, ?_, ho⟩
  · have hperm : (armed.map some : Multiset (Option ν)) =
        some tmr ::ₘ ((armed.erase tmr).map some : List (Option ν)) := by
      rw [Multiset.cons_coe, Multiset.coe_eq_coe]
      exact (List.perm_cons_erase htmr).map some
    rw [hI.items, hhead, hperm, Multiset.cons_inj_right] at hitems
    exact hitems.symm
  · intro t ht t' ht'
    exact hI.comparesRight t (List.mem_of_mem_erase ht) t' (List.mem_of_mem_erase ht')

end Steps

/-! ## Runs -/

theorem fireNext_inOrder {s s' : TimerRun ν} {now : BitVec 64} {callback : List (ArmCall ν)}
    (hI : s.state.Inv s.armed) (hright : CallComparesRight s (.fireNext now callback))
    (hstep : timerStep s (.fireNext now callback) = some s') :
    s'.state.Inv s'.armed ∧ ∃ e, s'.history = e :: s.history ∧ e.InOrder := by
  simp only [timerStep, Option.bind_eq_bind, Option.bind_eq_some_iff, Option.some.injEq,
    Prod.exists] at hstep
  obtain ⟨ret, pnext, fired, state, hfire, rfl⟩ := hstep
  rcases hI.peek none with ⟨hnil, hpeek⟩ | ⟨tmr, htmr, hhead, hpeek, hmin⟩
  · rw [timerManagerFireNext_empty hpeek] at hfire
    simp only [Option.some.injEq, Prod.mk.injEq] at hfire
    obtain ⟨-, rfl, rfl, rfl⟩ := hfire
    exact ⟨hI, _, rfl, (fun d hd => by cases hd), fun hne => absurd (by simp [hnil]) hne⟩
  · by_cases hnow : s.state.nextFiring tmr ≤ now
    · obtain ⟨heap, hpop, hI₁⟩ := hI.pop htmr hhead (some tmr)
        (listDel s.state.entries (.tnode tmr))
      rw [timerManagerFireNext_due hpeek hnow hpop] at hfire
      simp only [Option.bind_eq_some_iff, Prod.exists] at hfire
      obtain ⟨s₂, hcallback, ret₂, next, hpeek₂, hfire⟩ := hfire
      have hI₂ := exec_armStep_spec callback _ _ s₂ hI₁ (hright tmr hhead hnow) hcallback
      have hfired : ∀ d, some (s.state.nextFiring tmr) = some d →
          d ≤ now ∧ ∀ d' ∈ s.armed.map s.state.nextFiring, d ≤ d' := by
        rintro d hd
        obtain rfl := Option.some.inj hd
        refine ⟨hnow, fun d' hd' => ?_⟩
        obtain ⟨t, ht, rfl⟩ := List.mem_map.1 hd'
        exact hmin t ht
      rcases hI₂.peek (some tmr) with ⟨hnil, hpeek'⟩ | ⟨t₂, ht₂, -, hpeek', hmin₂⟩
      · rw [hpeek', Option.some.injEq, Prod.mk.injEq] at hpeek₂
        obtain ⟨rfl, -⟩ := hpeek₂
        have hfail : afailed aEEmpty = true := afailed_aresultError _ _
        rw [if_pos hfail, Option.some.injEq] at hfire
        simp only [Prod.mk.injEq] at hfire
        obtain ⟨-, rfl, rfl, rfl⟩ := hfire
        exact ⟨hI₂, _, rfl, hfired, fun hne => absurd (by simp [hnil]) hne⟩
      · rw [hpeek', Option.some.injEq, Prod.mk.injEq] at hpeek₂
        obtain ⟨rfl, rfl⟩ := hpeek₂
        simp only [afailed_aOk, Bool.false_eq_true, if_false, Option.bind_some, Option.some.injEq,
          Prod.mk.injEq] at hfire
        obtain ⟨-, rfl, rfl, rfl⟩ := hfire
        refine ⟨hI₂, _, rfl, hfired, fun _ => ⟨List.mem_map_of_mem ht₂, fun d' hd' => ?_⟩⟩
        obtain ⟨t, ht, rfl⟩ := List.mem_map.1 hd'
        exact hmin₂ t ht
    · rw [timerManagerFireNext_not_due hpeek hnow] at hfire
      simp only [Option.some.injEq, Prod.mk.injEq] at hfire
      obtain ⟨-, rfl, rfl, rfl⟩ := hfire
      refine ⟨hI, _, rfl, (fun d hd => by cases hd),
        fun _ => ⟨List.mem_map_of_mem htmr, fun d' hd' => ?_⟩⟩
      obtain ⟨t, ht, rfl⟩ := List.mem_map.1 hd'
      exact hmin t ht

theorem inOrder_timerStep (s : TimerRun ν) (call : TimerCall ν) (s' : TimerRun ν)
    (hs : s.state.Inv s.armed ∧ FiresInOrder s) (hright : CallComparesRight s call)
    (hstep : timerStep s call = some s') : s'.state.Inv s'.armed ∧ FiresInOrder s' := by
  obtain ⟨hI, horder⟩ := hs
  cases call with
  | arm c =>
      simp only [timerStep, Option.bind_eq_bind, Option.bind_eq_some_iff,
        Option.some.injEq] at hstep
      obtain ⟨state, harm, rfl⟩ := hstep
      exact ⟨(armStep_spec hI hright.1 harm).2, horder⟩
  | fireNext now callback =>
      obtain ⟨hI', e, hhist, he⟩ := fireNext_inOrder hI hright hstep
      refine ⟨hI', fun e' he' => ?_⟩
      rw [hhist] at he'
      rcases List.mem_cons.1 he' with rfl | he'
      · exact he
      · exact horder e' he'

omit [DecidableEq ν] in
theorem inv_timerManagerNew [DecidableEq ν] {maxTimers : ℕ} {calloc : Bool × Bool}
    {nextFiring : Deadlines ν} {entries : ListMem (TimerPtr ν)} {s₀ : TimerState ν}
    (hnew : timerManagerNew maxTimers calloc nextFiring entries = (aOk, some s₀)) :
    s₀.Inv [] := by
  unfold timerManagerNew at hnew
  split at hnew
  · simp at hnew
  · split at hnew
    · simp at hnew
    · split at hnew
      · simp at hnew
      · next heap hheap =>
        simp only [Prod.mk.injEq, Option.some.injEq, true_and] at hnew
        subst hnew
        unfold fixedHeapNew at hheap
        split at hheap
        · simp at hheap
        · split at hheap
          · simp only [Prod.mk.injEq, Option.some.injEq] at hheap
            obtain ⟨-, rfl⟩ := hheap
            exact ⟨rfl, ⟨Nat.zero_le _, le_refl _⟩, rfl, List.nodup_nil, by simp,
              fun j _ hj => absurd hj (Nat.not_lt_zero j)⟩
          · simp at hheap

/-- **Timers fire in order** in every run in which what is armed compares right with what is armed
    already: the timer fired is due and has the earliest deadline, and `*pnext` is the earliest
    deadline left. -/
theorem firesInOrder_of_meets {maxTimers : ℕ} {calloc : Bool × Bool} {nextFiring : Deadlines ν}
    {entries : ListMem (TimerPtr ν)} {s₀ : TimerState ν}
    (hnew : timerManagerNew maxTimers calloc nextFiring entries = (aOk, some s₀))
    (calls : List (TimerCall ν)) (hright : Meets timerStep CallComparesRight ⟨s₀, [], []⟩ calls)
    {s : TimerRun ν} (hrun : exec timerStep ⟨s₀, [], []⟩ calls = some s) : FiresInOrder s := by
  have hinit : (TimerRun.mk s₀ [] []).state.Inv [] ∧ FiresInOrder (TimerRun.mk s₀ [] []) :=
    ⟨inv_timerManagerNew hnew, fun e he => absurd he (List.not_mem_nil)⟩
  exact (exec_invariant_of_meets (I := fun s => s.state.Inv s.armed ∧ FiresInOrder s)
    inOrder_timerStep hinit hright hrun).2

/-- A manager of four timers, before anything is armed. -/
def fourTimers : AResult × Option (TimerState ℕ) :=
  timerManagerNew 4 (true, true) (fun _ => 0) fun a => ⟨a, a⟩

/-- Two timers a second apart, the second of which arms itself again. -/
theorem firesInOrder_of_meets_two :
    ∃ s₀ s, fourTimers = (aOk, some s₀) ∧
      exec timerStep ⟨s₀, [], []⟩ [.arm (.armAt 0 1000000009), .arm (.armAt 1 9),
        .fireNext 10 [.arm 1 10 700000]] = some s ∧
      FiresInOrder s := by
  have hnew : fourTimers = (aOk, some (fourTimers.2.get rfl)) := rfl
  obtain ⟨s, hs⟩ := Option.isSome_iff_exists.1 (show (exec timerStep
    ⟨fourTimers.2.get rfl, [], []⟩ [.arm (.armAt 0 1000000009), .arm (.armAt 1 9),
      .fireNext 10 [.arm 1 10 700000]]).isSome = true by decide +kernel)
  exact ⟨_, s, hnew, hs, firesInOrder_of_meets hnew _ (by decide +kernel) hs⟩

/-- Two timers whose deadlines differ by `2^32` nanoseconds compare equal. The later one was armed
    first, stays first, and is the one that fires. -/
theorem firesInOrder_fails :
    ∃ s₀ s, fourTimers = (aOk, some s₀) ∧
      exec timerStep ⟨s₀, [], []⟩ [.arm (.armAt 0 4294967297), .arm (.armAt 1 1),
        .fireNext 8589934592 []] = some s ∧
      ¬ FiresInOrder s := by
  have hnew : fourTimers = (aOk, some (fourTimers.2.get rfl)) := rfl
  have hhist : (exec timerStep ⟨fourTimers.2.get rfl, [], []⟩ [.arm (.armAt 0 4294967297),
      .arm (.armAt 1 1), .fireNext 8589934592 []]).map TimerRun.history =
      some [{ now := 8589934592, fired := some 4294967297, before := [1, 4294967297],
              after := [1], pnext := 1 }] := by decide +kernel
  obtain ⟨s, hs, hhist⟩ := Option.map_eq_some_iff.1 hhist
  refine ⟨_, s, hnew, hs, fun h => ?_⟩
  have hfired := (h _ (hhist ▸ List.mem_singleton_self _)).fired 4294967297 rfl
  exact absurd (hfired.2 1 (by simp)) (by decide)

end Tsl
