import Mathlib.Data.List.Infix
import Mathlib.Data.List.Count

set_option autoImplicit false

/-! # Logs

A log lists what a machine has done, the oldest entry first. `Logged P log` says that every entry met
a condition on what was logged before it; it is kept by logging an entry that meets it. -/

namespace Tsl.Lib

variable {α : Type*} {P Q : List α → α → Prop} {log : List α} {a : α}

/-- Every entry of the log met `P`, judged by the entries before it. -/
def Logged (P : List α → α → Prop) (log : List α) : Prop :=
  ∀ before a, before ++ [a] <+: log → P before a

theorem logged_nil : Logged P [] := by
  intro before a hpre
  have hnil := List.prefix_nil.1 hpre
  simp at hnil

theorem Logged.concat (h : Logged P log) (ha : P log a) : Logged P (log ++ [a]) := by
  intro before b hpre
  rcases List.prefix_concat_iff.1 hpre with heq | hold
  · obtain ⟨rfl, hab⟩ := List.append_inj' heq rfl
    cases hab
    exact ha
  · exact h before b hold

theorem Logged.of_mem (h : Logged P log) (ha : a ∈ log) :
    ∃ before, before ++ [a] <+: log ∧ P before a := by
  obtain ⟨before, after, rfl⟩ := List.append_of_mem ha
  have hpre : before ++ [a] <+: before ++ a :: after := ⟨after, by simp⟩
  exact ⟨before, hpre, h before a hpre⟩

theorem Logged.count_le_one [DecidableEq α] (h : Logged P log)
    (hnew : ∀ before, P before a → a ∉ before) : log.count a ≤ 1 := by
  induction log using List.reverseRecOn with
  | nil => exact Nat.zero_le 1
  | append_singleton log b ih =>
      have hold : log.count a ≤ 1 := ih fun before c hpre =>
        h before c (hpre.trans (List.prefix_append _ _))
      rw [List.count_append]
      by_cases hb : b = a
      · subst hb
        have hnot := hnew log (h log b List.prefix_rfl)
        rw [List.count_eq_zero_of_not_mem hnot, List.count_singleton_self]
      · rw [List.count_eq_zero_of_not_mem (show a ∉ [b] by simpa using Ne.symm hb)]
        exact hold

end Tsl.Lib
