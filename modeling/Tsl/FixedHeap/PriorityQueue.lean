import Tsl.FixedHeap

set_option autoImplicit false

/-! # A fixed heap is a priority queue

Runs of a heap from `fixed_heap_new` on, under a callback that answers like a total preorder. The
state carries the items pushed and popped so far, so that `IsPriorityQueue` can say what the heap
holds; `isPriorityQueue_of_run` is the result for every run. -/

namespace Tsl

open Lib

universe u

variable {κ π : Type u}

/-- A call on a heap. -/
inductive HeapCall (π : Type u) where
  | push (item : π)
  | pop
  | peekHead
  /-- A resize that is granted, with what the new slots hold. -/
  | resize (newMaxItems : ℕ) (fresh : ℕ → π)

/-- A heap in its world, and the items that went in and out of it so far, latest first. -/
structure HeapRun (κ π : Type u) where
  heap : FixedHeap κ π
  world : κ
  pushed : List π
  popped : List π

/-- One call. Resizes are to at least the current number of entries, and to an array that is not
    empty and fits the address space, so that its allocation can succeed. -/
def heapStep [VoidPtr π] (s : HeapRun κ π) : HeapCall π → Option (HeapRun κ π)
  | .push item => do
      let (ret, heap, world) ← fixedHeapPush s.heap s.world item
      some { s with
        heap := heap
        world := world
        pushed := if ret = aOk then item :: s.pushed else s.pushed }
  | .pop => do
      let (ret, item, heap, world) ← fixedHeapPop s.heap s.world VoidPtr.null
      some { s with
        heap := heap
        world := world
        popped := if ret = aOk then item :: s.popped else s.popped }
  | .peekHead => do
      let _ ← fixedHeapPeekHead s.heap VoidPtr.null
      some s
  | .resize newMaxItems fresh =>
      if s.heap.entries ≤ newMaxItems ∧ newMaxItems ≠ 0 ∧ 8 * newMaxItems < 2 ^ 64 then
        some { s with heap := (fixedHeapResize s.heap newMaxItems true fresh).2 }
      else none

/-- What a client of a priority queue relies on, in one state of it. -/
structure IsPriorityQueue [VoidPtr π] (cmp : π → π → ℤ) (s : HeapRun κ π) : Prop where
  /-- The array is in heap order. -/
  ordered : HeapOrdered (fun x y => cmp x y ≤ 0) s.heap.heap s.heap.entries
  /-- The items are those pushed less those popped. -/
  contents : (s.pushed : Multiset π) = s.popped + s.heap.items
  /-- A push fails exactly at capacity, and then changes nothing. -/
  push_full : ∀ item, s.heap.capacity ≤ s.heap.entries →
    fixedHeapPush s.heap s.world item = some (aENospc, s.heap, s.world)
  push_room : ∀ item, s.heap.entries < s.heap.capacity →
    ∃ h' w', fixedHeapPush s.heap s.world item = some (aOk, h', w') ∧
      h'.items = item ::ₘ s.heap.items
  /-- A pop takes a greatest item, a peek shows it. -/
  pop_max : 0 < s.heap.entries → ∃ item h' w',
    fixedHeapPop s.heap s.world VoidPtr.null = some (aOk, item, h', w') ∧
      fixedHeapPeekHead s.heap VoidPtr.null = some (aOk, item) ∧
      s.heap.items = item ::ₘ h'.items ∧ ∀ x ∈ s.heap.items, 0 ≤ cmp item x
  pop_empty : s.heap.entries = 0 →
    fixedHeapPop s.heap s.world VoidPtr.null = some (aEEmpty, VoidPtr.null, s.heap, s.world) ∧
      fixedHeapPeekHead s.heap VoidPtr.null = some (aEEmpty, VoidPtr.null)
  /-- Popping all items yields them in non-increasing order. -/
  drain : ∃ xs h' w', fixedHeapDrain s.heap s.world s.heap.entries = some (xs, h', w') ∧
    (xs : Multiset π) = s.heap.items ∧ xs.Pairwise (fun x y => 0 ≤ cmp x y) ∧ h'.entries = 0

/-! ## What every call keeps -/

/-- The invariant of a run. -/
structure HeapRun.Inv (compare : HeapCompare κ π) (cmp : π → π → ℤ) (s : HeapRun κ π) : Prop where
  compare_eq : s.heap.compare = compare
  wf : s.heap.Wf
  ordered : HeapOrdered (fun x y => cmp x y ≤ 0) s.heap.heap s.heap.entries
  contents : (s.pushed : Multiset π) = s.popped + s.heap.items

/-- The callback answers by `cmp`, whatever it reads or changes in its world. -/
def AnswersBy (compare : HeapCompare κ π) (cmp : π → π → ℤ) : Prop :=
  ∀ w x y, (compare w x y).1 = cmp x y

theorem AnswersBy.answers {compare : HeapCompare κ π} {cmp : π → π → ℤ}
    (h : AnswersBy compare cmp) (hcmp : IsTotalPreorder cmp) :
    Answers compare (fun _ => True) (fun _ => True) fun x y => cmp x y ≤ 0 where
  world := fun _ _ _ _ _ _ => trivial
  neg := fun w x y _ _ _ => by rw [h w x y]; exact hcmp.neg_iff x y
  pos := fun w x y _ _ _ => by rw [h w x y]; omega

section Runs

variable [VoidPtr π] {compare : HeapCompare κ π} {cmp : π → π → ℤ} {s : HeapRun κ π}

omit [VoidPtr π] in
theorem HeapRun.Inv.pushes (hI : s.Inv compare cmp) (hby : AnswersBy compare cmp)
    (hcmp : IsTotalPreorder cmp) (item : π) (hroom : s.heap.entries < s.heap.capacity) :
    ∃ h' w', fixedHeapPush s.heap s.world item = some (aOk, h', w') ∧ SameArray s.heap h' ∧
      h'.entries = s.heap.entries + 1 ∧ h'.items = item ::ₘ s.heap.items ∧
      HeapOrdered (fun x y => cmp x y ≤ 0) h'.heap h'.entries := by
  obtain ⟨h', w', hpush, hsame, hent, hitems, -, ho⟩ := fixedHeapPush_ordered
    hcmp.totalPreorder (by rw [hI.compare_eq]; exact hby.answers hcmp) hI.wf hroom
    (fun _ _ => trivial) (w := s.world) trivial hI.ordered (show (fun _ => True) item from trivial)
  exact ⟨h', w', hpush, hsame, hent, hitems, ho⟩

theorem HeapRun.Inv.pops (hI : s.Inv compare cmp) (hby : AnswersBy compare cmp)
    (hcmp : IsTotalPreorder cmp) (item : π) (hne : 0 < s.heap.entries) :
    ∃ h' w', fixedHeapPop s.heap s.world item = some (aOk, s.heap.heap 0, h', w') ∧
      SameArray s.heap h' ∧ h'.entries + 1 = s.heap.entries ∧
      s.heap.items = s.heap.heap 0 ::ₘ h'.items ∧
      HeapOrdered (fun x y => cmp x y ≤ 0) h'.heap h'.entries := by
  obtain ⟨h', w', hpop, hsame, hent, hitems, -, ho⟩ := fixedHeapPop_ordered
    hcmp.totalPreorder (by rw [hI.compare_eq]; exact hby.answers hcmp) hI.wf hne
    (fun _ _ => trivial) (w := s.world) trivial hI.ordered item
  exact ⟨h', w', hpop, hsame, hent, hitems, ho⟩

omit [VoidPtr π] in
theorem fixedHeapResize_granted {h : FixedHeap κ π} (hwf : h.Wf) {newMaxItems : ℕ}
    (hmin : h.entries ≤ newMaxItems) (hpos : newMaxItems ≠ 0) (hfit : 8 * newMaxItems < 2 ^ 64)
    (fresh : ℕ → π) :
    ∃ h', fixedHeapResize h newMaxItems true fresh = (aOk, h') ∧ h'.Wf ∧
      h'.entries = h.entries ∧ h'.compare = h.compare ∧ h'.capacity = newMaxItems ∧
      ∀ i < h.entries, h'.heap i = h.heap i := by
  have hcap := hwf.capacity_le
  have hent := hwf.entries_le
  have hmod : 8 * newMaxItems % 2 ^ 64 = 8 * newMaxItems := Nat.mod_eq_of_lt hfit
  have hbytes : ¬ 8 * newMaxItems % 2 ^ 64 = 0 := by omega
  simp only [fixedHeapResize, ge_iff_le, hmin, not_true_eq_false, if_false, if_neg hbytes,
    Bool.true_eq_false]
  refine ⟨_, rfl, ⟨hmin, ?_⟩, rfl, rfl, rfl, ?_⟩
  · simp only
    omega
  · intro i hi
    exact if_pos (by omega)

theorem HeapRun.Inv.step (hby : AnswersBy compare cmp) (hcmp : IsTotalPreorder cmp)
    (s : HeapRun κ π) (call : HeapCall π) (s' : HeapRun κ π) (hI : s.Inv compare cmp)
    (hstep : heapStep s call = some s') : s'.Inv compare cmp := by
  have hent := hI.wf.entries_le
  cases call with
  | push item =>
      by_cases hfull : s.heap.capacity ≤ s.heap.entries
      · simp only [heapStep, fixedHeapPush_full hfull, Option.bind_eq_bind, Option.bind_some,
          if_neg (ne_aOk_of_afailed (afailed_aresultError _ _) : aENospc ≠ aOk),
          Option.some.injEq] at hstep
        subst hstep
        exact hI
      · obtain ⟨h', w', hpush, hsame, hent', hitems, ho⟩ :=
          hI.pushes hby hcmp item (Nat.lt_of_not_le hfull)
        simp only [heapStep, hpush, Option.bind_eq_bind, Option.bind_some, if_true,
          Option.some.injEq] at hstep
        subst hstep
        refine ⟨hsame.compare.trans hI.compare_eq, hsame.wf hI.wf (by omega), ho, ?_⟩
        simp only [hitems, ← Multiset.cons_coe, hI.contents, Multiset.add_cons]
  | pop =>
      by_cases hempty : s.heap.entries = 0
      · simp only [heapStep, fixedHeapPop, if_pos hempty, Option.bind_eq_bind, Option.bind_some,
          if_neg (ne_aOk_of_afailed (afailed_aresultError _ _) : aEEmpty ≠ aOk),
          Option.some.injEq] at hstep
        subst hstep
        exact hI
      · obtain ⟨h', w', hpop, hsame, hent', hitems, ho⟩ :=
          hI.pops hby hcmp VoidPtr.null (Nat.pos_of_ne_zero hempty)
        simp only [heapStep, hpop, Option.bind_eq_bind, Option.bind_some, if_true,
          Option.some.injEq] at hstep
        subst hstep
        refine ⟨hsame.compare.trans hI.compare_eq, hsame.wf hI.wf (by omega), ho, ?_⟩
        simp only [← Multiset.cons_coe, hI.contents, hitems, Multiset.add_cons, Multiset.cons_add]
  | peekHead =>
      simp only [heapStep, Option.bind_eq_bind, Option.bind_eq_some_iff] at hstep
      obtain ⟨_, -, hs⟩ := hstep
      exact Option.some.inj hs ▸ hI
  | resize newMaxItems fresh =>
      simp only [heapStep] at hstep
      split at hstep
      · next hok =>
        obtain ⟨h', heq, hwf, hent', hcompare, -, hkeep⟩ :=
          fixedHeapResize_granted hI.wf hok.1 hok.2.1 hok.2.2 fresh
        rw [heq] at hstep
        obtain rfl := Option.some.inj hstep
        refine ⟨hcompare.trans hI.compare_eq, hwf, ?_, ?_⟩
        · intro j hpos hj
          simp only [hent'] at hj ⊢
          have hp := parent_lt hpos
          rw [hkeep j hj, hkeep _ (by omega)]
          exact hI.ordered j hpos hj
        · rw [hI.contents]
          simp only [FixedHeap.items, hent']
          rw [itemsBelow_congr hkeep]
      · cases hstep

theorem HeapRun.Inv.isPriorityQueue (hby : AnswersBy compare cmp) (hcmp : IsTotalPreorder cmp)
    (hI : s.Inv compare cmp) : IsPriorityQueue cmp s where
  ordered := hI.ordered
  contents := hI.contents
  push_full := fun item hfull => fixedHeapPush_full hfull s.world item
  push_room := by
    intro item hroom
    obtain ⟨h', w', hpush, -, -, hitems, -⟩ := hI.pushes hby hcmp item hroom
    exact ⟨h', w', hpush, hitems⟩
  pop_max := by
    intro hne
    obtain ⟨h', w', hpop, -, -, hitems, -⟩ := hI.pops hby hcmp VoidPtr.null hne
    refine ⟨_, h', w', hpop, fixedHeapPeekHead_eq hI.wf hne _, hitems, ?_⟩
    intro x hx
    have hmax := le_heap_zero hcmp.totalPreorder hI.ordered x hx
    have := hcmp.swap (s.heap.heap 0) x
    omega
  pop_empty := fun hempty => ⟨if_pos hempty, if_pos hempty⟩
  drain := by
    obtain ⟨xs, h', w', hdrain, hxs, hsorted, hend⟩ := fixedHeapDrain_ordered hcmp.totalPreorder
      s.heap.entries s.heap s.world (by rw [hI.compare_eq]; exact hby.answers hcmp) hI.wf
      (fun _ _ => trivial) trivial hI.ordered rfl
    refine ⟨xs, h', w', hdrain, hxs, hsorted.imp ?_, hend⟩
    intro x y hxy
    have := hcmp.swap x y
    omega

/-- **A fixed heap is a priority queue** in every state of every run from `fixed_heap_new` on. -/
theorem isPriorityQueue_of_run (hcmp : IsTotalPreorder cmp) (hby : AnswersBy compare cmp)
    {maxItems : ℕ} {calloc : Bool} {h₀ : FixedHeap κ π}
    (hnew : fixedHeapNew maxItems compare calloc = (aOk, some h₀)) (w₀ : κ)
    (calls : List (HeapCall π)) {s : HeapRun κ π}
    (hrun : exec heapStep { heap := h₀, world := w₀, pushed := [], popped := [] } calls = some s) :
    IsPriorityQueue cmp s := by
  have hinit : (HeapRun.mk h₀ w₀ [] []).Inv compare cmp := by
    unfold fixedHeapNew at hnew
    split at hnew
    · simp at hnew
    · split at hnew
      · simp only [Prod.mk.injEq, Option.some.injEq, true_and] at hnew
        subst hnew
        exact ⟨rfl, ⟨Nat.zero_le _, le_refl _⟩, fun j hpos hj => absurd hj (by simp), rfl⟩
      · simp at hnew
  have hI := exec_invariant (I := fun s => s.Inv compare cmp) (HeapRun.Inv.step hby hcmp) hinit hrun
  exact hI.isPriorityQueue hby hcmp

end Runs

/-- The difference of two numbers behind pointers, as a comparison. -/
def compareNumbers (x y : Option ℕ) : ℤ := x.getD 0 - y.getD 0

/-- A callback that needs no world. -/
def numbersCallback : HeapCompare Unit (Option ℕ) := fun w x y => (compareNumbers x y, w)

/-- Three items through a heap of two slots: the third push fails, the greater of two is popped. -/
theorem isPriorityQueue_of_run_three :
    ∃ h₀ s, fixedHeapNew 2 numbersCallback true = (aOk, some h₀) ∧
      exec heapStep { heap := h₀, world := (), pushed := [], popped := [] }
        [.push (some 3), .push (some 9), .push (some 5), .resize 3 (fun _ => none), .pop] =
        some s ∧
      IsPriorityQueue compareNumbers s := by
  have hnew : fixedHeapNew 2 numbersCallback true =
      (aOk, some ((fixedHeapNew 2 numbersCallback true).2.get rfl)) := rfl
  obtain ⟨s, hs⟩ := Option.isSome_iff_exists.1 (show (exec heapStep
    (HeapRun.mk ((fixedHeapNew 2 numbersCallback true).2.get rfl) () [] [])
    [.push (some 3), .push (some 9), .push (some 5), .resize 3 (fun _ => none), .pop]).isSome = true
    by decide +kernel)
  have hcmp : IsTotalPreorder compareNumbers :=
    ⟨fun x y => by unfold compareNumbers; omega, fun {x y z} hxy hyz => by
      unfold compareNumbers at *; omega⟩
  exact ⟨_, s, hnew, hs, isPriorityQueue_of_run hcmp (fun _ _ _ => rfl) hnew _ _ hs⟩

end Tsl
