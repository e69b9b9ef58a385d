import Tsl.Lib.Machine

set_option autoImplicit false

/-! # Simulation

One machine simulates another through a view of its states: what it does in a step, the other does
in the run that `label` gives for the step, which is empty for a step the other does not see. The
other machine then goes through the views of the states of any run (`Simulates.exec`), so what holds
of all its runs holds of the views.

The step of the simulating machine may rely on an invariant, and that may speak of the view: what
the other machine preserves is preserved on this side too (`Simulates.of_view`). -/

namespace Tsl.Lib

variable {σ τ ι κ : Type*} {step : σ → ι → Option σ} {step' : τ → κ → Option τ} {I : σ → Prop}
  {view : σ → τ} {label : σ → ι → List κ}

/-- A step from a state with `I` leads to a state with `I`, and is the run `label` of `step'`. -/
structure Simulates (step : σ → ι → Option σ) (step' : τ → κ → Option τ) (I : σ → Prop)
    (view : σ → τ) (label : σ → ι → List κ) : Prop where
  inv : ∀ s i s', I s → step s i = some s' → I s'
  sim : ∀ s i s', I s → step s i = some s' → exec step' (view s) (label s i) = some (view s')

/-- The run of the other machine. -/
def trace (step : σ → ι → Option σ) (label : σ → ι → List κ) : σ → List ι → List κ
  | _, [] => []
  | s, i :: is => label s i ++
      match step s i with
      | some s' => trace step label s' is
      | none => []

/-- A run of one machine is a run of the other. -/
theorem Simulates.exec (h : Simulates step step' I view label) {s s' : σ} {is : List ι} (hs : I s)
    (hrun : exec step s is = some s') :
    I s' ∧ Lib.exec step' (view s) (trace step label s is) = some (view s') := by
  induction is generalizing s with
  | nil =>
      simp only [exec_nil, Option.some.injEq] at hrun
      subst hrun
      exact ⟨hs, rfl⟩
  | cons i is ih =>
      obtain ⟨t, ht, hrest⟩ := exec_cons_eq_some.1 hrun
      obtain ⟨hI, hview⟩ := ih (h.inv s i t hs ht) hrest
      refine ⟨hI, ?_⟩
      simp only [trace, ht]
      rw [exec_append (h.sim s i t hs ht)]
      exact hview

/-- A simulation that relies on `J` of the view, which the other machine preserves. -/
theorem Simulates.of_view {J : τ → Prop} (hJ : ∀ t k t', J t → step' t k = some t' → J t')
    (hinv : ∀ s i s', I s → J (view s) → step s i = some s' → I s')
    (hsim : ∀ s i s', I s → J (view s) → step s i = some s' →
      Lib.exec step' (view s) (label s i) = some (view s')) :
    Simulates step step' (fun s => I s ∧ J (view s)) view label where
  inv := fun s i s' hs hstep => ⟨hinv s i s' hs.1 hs.2 hstep,
    exec_invariant hJ hs.2 (hsim s i s' hs.1 hs.2 hstep)⟩
  sim := fun s i s' hs hstep => hsim s i s' hs.1 hs.2 hstep

/-! ## Under a condition -/

/-- The machine that takes only the steps that meet `G`. -/
def guarded (step : σ → ι → Option σ) (G : σ → ι → Prop) [∀ s i, Decidable (G s i)] (s : σ) (i : ι) :
    Option σ :=
  if G s i then step s i else none

end Tsl.Lib
