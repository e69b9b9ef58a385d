import Mathlib.Data.Option.Basic
import Mathlib.Tactic.ByContra

set_option autoImplicit false

/-! # Runs of a machine

A machine is a partial step function `step : σ → ι → Option σ`. The label carries every choice the
environment makes (which call, which argument, which thread moves, what a client writes), and
`none` says that the environment may not take that step in that state. A run is the list of labels
it takes, so it can be evaluated on a concrete list and reasoned about for every list.

`exec_invariant` is the induction over runs, stated once: what every step preserves, every run
preserves. `exec_invariant_of_meets` is the same rule for the runs whose steps all meet a condition
on the state before the step and its label. -/

namespace Tsl.Lib

variable {σ ι : Type*}

/-- The state a run ends in; `none` as soon as one of its steps may not be taken. -/
def exec (step : σ → ι → Option σ) : σ → List ι → Option σ
  | s, [] => some s
  | s, i :: is => (step s i).bind fun s' => exec step s' is

/-- Every step of the run, as far as it gets, meets `G`, judged in the state before the step. -/
def Meets (step : σ → ι → Option σ) (G : σ → ι → Prop) : σ → List ι → Prop
  | _, [] => True
  | s, i :: is => G s i ∧
      match step s i with
      | some s' => Meets step G s' is
      | none => True

instance Meets.decidable (step : σ → ι → Option σ) (G : σ → ι → Prop)
    [∀ s i, Decidable (G s i)] : ∀ s is, Decidable (Meets step G s is)
  | _, [] => inferInstanceAs (Decidable True)
  | s, i :: is =>
      have : Decidable (match step s i with
          | some s' => Meets step G s' is
          | none => True) :=
        match step s i with
        | some s' => Meets.decidable step G s' is
        | none => inferInstanceAs (Decidable True)
      inferInstanceAs (Decidable (G s i ∧ _))

/-- `P` holds in every state the run goes through, its first and last included. -/
def Throughout (step : σ → ι → Option σ) (P : σ → Prop) : σ → List ι → Prop
  | s, [] => P s
  | s, i :: is => P s ∧
      match step s i with
      | some s' => Throughout step P s' is
      | none => True

theorem meets_of_forall {step : σ → ι → Option σ} {G : ι → Prop} {is : List ι} (h : ∀ i ∈ is, G i) :
    ∀ s, Meets step (fun _ => G) s is := by
  induction is with
  | nil => exact fun _ => trivial
  | cons i is ih =>
      intro s
      refine ⟨h i List.mem_cons_self, ?_⟩
      cases step s i with
      | none => trivial
      | some t => exact ih (fun j hj => h j (List.mem_cons_of_mem _ hj)) t

/-! ## Composing runs -/

@[simp] theorem exec_nil (step : σ → ι → Option σ) (s : σ) : exec step s [] = some s := rfl

theorem exec_cons_eq_some {step : σ → ι → Option σ} {s s'' : σ} {i : ι} {is : List ι} :
    exec step s (i :: is) = some s'' ↔ ∃ s', step s i = some s' ∧ exec step s' is = some s'' := by
  simp only [exec, Option.bind_eq_some_iff]

theorem exec_append {step : σ → ι → Option σ} {s s' : σ} {is js : List ι}
    (h : exec step s is = some s') : exec step s (is ++ js) = exec step s' js := by
  induction is generalizing s with
  | nil =>
      simp only [exec_nil, Option.some.injEq] at h
      rw [List.nil_append, h]
  | cons i is ih =>
      obtain ⟨t, ht, hrest⟩ := exec_cons_eq_some.1 h
      rw [List.cons_append, exec, ht, Option.bind_some]
      exact ih hrest

/-! ## Invariants -/

/-- What every step that meets `G` preserves, every run whose steps all meet `G` preserves. -/
theorem exec_invariant_of_meets {step : σ → ι → Option σ} {G : σ → ι → Prop} {I : σ → Prop}
    (hstep : ∀ s i s', I s → G s i → step s i = some s' → I s') {s s' : σ} {is : List ι}
    (hs : I s) (hG : Meets step G s is) (hrun : exec step s is = some s') : I s' := by
  induction is generalizing s with
  | nil =>
      simp only [exec_nil, Option.some.injEq] at hrun
      exact hrun ▸ hs
  | cons i is ih =>
      obtain ⟨t, ht, hrest⟩ := exec_cons_eq_some.1 hrun
      simp only [Meets, ht] at hG
      exact ih (hstep s i t hs hG.1 ht) hG.2 hrest

/-- What every step preserves, every run preserves. -/
theorem exec_invariant {step : σ → ι → Option σ} {I : σ → Prop}
    (hstep : ∀ s i s', I s → step s i = some s' → I s') {s s' : σ} {is : List ι}
    (hs : I s) (hrun : exec step s is = some s') : I s' := by
  induction is generalizing s with
  | nil =>
      simp only [exec_nil, Option.some.injEq] at hrun
      exact hrun ▸ hs
  | cons i is ih =>
      obtain ⟨t, ht, hrest⟩ := exec_cons_eq_some.1 hrun
      exact ih (hstep s i t hs ht) hrest

/-- A run that ends in a state without `B` meets `G`, where a step that does not meet `G` leads to `B`,
and every step keeps `B`. -/
theorem meets_of_exec {step : σ → ι → Option σ} {G : σ → ι → Prop} {I B : σ → Prop}
    (hI : ∀ s i s', I s → step s i = some s' → I s')
    (hleave : ∀ s i s', I s → ¬ G s i → step s i = some s' → B s')
    (hkeep : ∀ s i s', I s → B s → step s i = some s' → B s') {s' : σ} (is : List ι) :
    ∀ s, I s → exec step s is = some s' → ¬ B s' → Meets step G s is := by
  induction is with
  | nil => exact fun _ _ _ _ => trivial
  | cons i is ih =>
      intro s hs hrun hB
      obtain ⟨t, ht, hrest⟩ := exec_cons_eq_some.1 hrun
      have hIt := hI s i t hs ht
      have hrun' : B t → B s' := fun hBt =>
        (exec_invariant (I := fun u => I u ∧ B u)
          (fun u j u' hu hstep => ⟨hI u j u' hu.1 hstep, hkeep u j u' hu.1 hu.2 hstep⟩)
          ⟨hIt, hBt⟩ hrest).2
      simp only [Meets, ht]
      refine ⟨?_, ih t hIt hrest hB⟩
      by_contra hG
      exact hB (hrun' (hleave s i t hs hG ht))

theorem Throughout.head {step : σ → ι → Option σ} {P : σ → Prop} {s : σ} {is : List ι}
    (h : Throughout step P s is) : P s := by
  cases is with
  | nil => exact h
  | cons i is => exact h.1

theorem Throughout.last {step : σ → ι → Option σ} {P : σ → Prop} {s s' : σ} {is : List ι}
    (h : Throughout step P s is) (hrun : exec step s is = some s') : P s' := by
  induction is generalizing s with
  | nil =>
      simp only [exec_nil, Option.some.injEq] at hrun
      exact hrun ▸ h
  | cons i is ih =>
      obtain ⟨t, ht, hrest⟩ := exec_cons_eq_some.1 hrun
      simp only [Throughout, ht] at h
      exact ih h.2 hrest

/-- A run whose steps all meet `G` goes only through states with `P`, where `P` follows from what
every such step preserves. -/
theorem throughout_of_meets {step : σ → ι → Option σ} {G : σ → ι → Prop} {I P : σ → Prop}
    (hstep : ∀ s i s', I s → G s i → step s i = some s' → I s') (hP : ∀ s, I s → P s)
    (is : List ι) : ∀ s, I s → Meets step G s is → Throughout step P s is := by
  induction is with
  | nil => exact fun s hs _ => hP s hs
  | cons i is ih =>
      intro s hs hG
      simp only [Throughout, Meets] at hG ⊢
      refine ⟨hP s hs, ?_⟩
      cases ht : step s i with
      | none => trivial
      | some t =>
          rw [ht] at hG
          exact ih t (hstep s i t hs hG.1 ht) hG.2

/-- A run goes only through states with `P`, where `P` follows from what every step preserves. -/
theorem throughout_of_invariant {step : σ → ι → Option σ} {I P : σ → Prop}
    (hstep : ∀ s i s', I s → step s i = some s' → I s') (hP : ∀ s, I s → P s) (is : List ι) :
    ∀ s, I s → Throughout step P s is := by
  induction is with
  | nil => exact fun s hs => hP s hs
  | cons i is ih =>
      intro s hs
      refine ⟨hP s hs, ?_⟩
      cases ht : step s i with
      | none => trivial
      | some t => exact ih t (hstep s i t hs ht)

/-- Where one step keeps `P` exactly when it meets `G`, a run goes only through states with `P`
exactly when its steps all meet `G`. `I` is what every step preserves anyway. -/
theorem throughout_iff_meets {step : σ → ι → Option σ} {G : σ → ι → Prop} {I P : σ → Prop}
    (hI : ∀ s i s', I s → step s i = some s' → I s')
    (hstep : ∀ s i s', I s → P s → step s i = some s' → (P s' ↔ G s i))
    (hnone : ∀ s i, I s → P s → step s i = none → G s i) (is : List ι) :
    ∀ s, I s → P s → (Throughout step P s is ↔ Meets step G s is) := by
  induction is with
  | nil => intro s _ hP; simp [Throughout, Meets, hP]
  | cons i is ih =>
      intro s hs hP
      simp only [Throughout, Meets, hP, true_and]
      cases ht : step s i with
      | none => simp [hnone s i hs hP ht]
      | some t =>
          have hiff := hstep s i t hs hP ht
          have hIt := hI s i t hs ht
          constructor
          · intro h
            exact ⟨hiff.1 h.head, (ih t hIt h.head).1 h⟩
          · rintro ⟨hG, hrest⟩
            exact (ih t hIt (hiff.2 hG)).2 hrest

end Tsl.Lib
