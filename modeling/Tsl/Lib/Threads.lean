import Mathlib.Data.List.Nodup
import Mathlib.Logic.Function.Basic

set_option autoImplicit false

/-! # Threads at program points

A machine with any number of threads keeps a program counter for each. `Marks pc P xs` says that `xs`
lists the threads whose program counter has `P`, each once, so that they can be counted; the lemmas say
how the list changes when one thread moves. -/

namespace Tsl.Lib

variable {τ π : Type*}

/-- The threads at a program point with `P`. -/
structure Marks (pc : τ → π) (P : π → Bool) (xs : List τ) : Prop where
  nodup : xs.Nodup
  mem_iff : ∀ t, t ∈ xs ↔ P (pc t) = true

section Moves

variable {pc : τ → π} {P : π → Bool} {xs : List τ} {t : τ} {p : π}

theorem Marks.nil (h : ∀ t, P (pc t) = false) : Marks pc P [] where
  nodup := List.nodup_nil
  mem_iff := by
    intro t
    simp [h t]

theorem Marks.eq_nil (h : Marks pc P xs) (hP : ∀ t, P (pc t) = false) : xs = [] := by
  refine List.eq_nil_iff_forall_not_mem.2 fun t ht => ?_
  have hPt := (h.mem_iff t).1 ht
  rw [hP t] at hPt
  cases hPt

theorem Marks.length_pos (h : Marks pc P xs) (ht : P (pc t) = true) : 0 < xs.length :=
  List.length_pos_of_mem ((h.mem_iff t).2 ht)

variable [DecidableEq τ]

theorem Marks.keep (h : Marks pc P xs) (hp : P p = P (pc t)) : Marks (Function.update pc t p) P xs where
  nodup := h.nodup
  mem_iff := by
    intro u
    rw [h.mem_iff]
    by_cases hu : u = t
    · subst hu
      rw [Function.update_self, hp]
    · rw [Function.update_of_ne hu]

theorem Marks.enter (h : Marks pc P xs) (ht : P (pc t) = false) (hp : P p = true) :
    Marks (Function.update pc t p) P (t :: xs) where
  nodup := by
    refine List.nodup_cons.2 ⟨fun hmem => ?_, h.nodup⟩
    have hPt := (h.mem_iff t).1 hmem
    rw [ht] at hPt
    cases hPt
  mem_iff := by
    intro u
    rw [List.mem_cons, h.mem_iff]
    by_cases hu : u = t
    · subst hu
      simp [hp]
    · simp [hu]

theorem Marks.leave (h : Marks pc P xs) (ht : P (pc t) = true) (hp : P p = false) :
    Marks (Function.update pc t p) P (xs.erase t) ∧ xs.length = (xs.erase t).length + 1 := by
  have hmem := (h.mem_iff t).2 ht
  refine ⟨⟨h.nodup.erase t, fun u => ?_⟩, ?_⟩
  · rw [h.nodup.mem_erase_iff, h.mem_iff]
    by_cases hu : u = t
    · subst hu
      simp [hp]
    · simp [hu]
  · rw [List.length_erase_of_mem hmem]
    have hpos := List.length_pos_of_mem hmem
    omega

end Moves

end Tsl.Lib
