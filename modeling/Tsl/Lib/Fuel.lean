import Mathlib.Data.Nat.Notation

set_option autoImplicit false

/-! # Loops with fuel

A loop that may not end is a function of the rounds it is given, with no answer when they do not
suffice. `Extends` compares the answers for different fuel: where the shorter loop has one, the longer
one has the same. It is preserved by whatever a program is put together from, so a loop is monotone in
its fuel if its body is built from monotone parts. -/

namespace Tsl.Lib

universe u v

variable {α : Type u} {β : Type v}

/-- Where the first has an answer the second has the same. -/
def Extends (a b : Option α) : Prop := ∀ r, a = some r → b = some r

namespace Extends

variable {a b c a' b' : Option α}

@[refl] theorem refl (a : Option α) : Extends a a := fun _ h => h

theorem trans (h : Extends a b) (h' : Extends b c) : Extends a c := fun r hr => h' r (h r hr)

theorem of_none (b : Option α) : Extends none b := fun _ h => by cases h

theorem bind {g g' : α → Option β} (h : Extends a b) (hg : ∀ x, Extends (g x) (g' x)) :
    Extends (a.bind g) (b.bind g') := by
  intro r hr
  obtain ⟨x, hx, hgx⟩ := Option.bind_eq_some_iff.1 hr
  rw [h x hx, Option.bind_some]
  exact hg x r hgx

theorem map (f : α → β) (h : Extends a b) : Extends (a.map f) (b.map f) := by
  rw [Option.map_eq_bind, Option.map_eq_bind]
  exact h.bind fun _ => refl _

theorem ite (p : Prop) [Decidable p] (h : Extends a b) (h' : Extends a' b') :
    Extends (if p then a else a') (if p then b else b') := by
  by_cases hp : p
  · rwa [if_pos hp, if_pos hp]
  · rwa [if_neg hp, if_neg hp]

end Extends

/-- One more round changes no answer. -/
def Monotonic (f : ℕ → Option α) : Prop := ∀ fuel, Extends (f fuel) (f (fuel + 1))

/-- The answer is there after so many rounds, and is the same with any more. -/
def EndsWithin (f : ℕ → Option α) (rounds : ℕ) : Prop :=
  ∃ r, ∀ fuel, rounds ≤ fuel → f fuel = some r

section Rounds

variable {f : ℕ → Option α} {rounds fuel fuel' : ℕ} {r : α}

theorem Monotonic.extends (h : Monotonic f) (hle : fuel ≤ fuel') : Extends (f fuel) (f fuel') := by
  induction hle with
  | refl => exact Extends.refl _
  | step _ ih => exact ih.trans (h _)

theorem Monotonic.endsWithin (h : Monotonic f) (hr : f rounds = some r) : EndsWithin f rounds :=
  ⟨r, fun _ hle => h.extends hle r hr⟩

end Rounds

end Tsl.Lib
