import Mathlib.Algebra.Group.Nat.Defs
import Mathlib.Data.List.Basic
import Mathlib.Logic.Function.Basic

set_option autoImplicit false

/-! # Mixing words

Hash functions mix a word by steps that lose nothing: multiplication by a word that has an inverse
(`mul_injective`), and adding its own upper bits to the lower ones (`xorShift_injective`). What is put
together from pieces that do not overlap can be added as well as xored (`toNat_shiftLeft_xor`). A hash
that takes in one word after another, and loses nothing at any, tells sequences apart that differ in one
word (`foldl_range_injective`). -/

namespace Tsl.Lib

variable {w : ℕ}

theorem mul_injective {m inv : BitVec w} (hinv : m * inv = 1#w) :
    Function.Injective fun x : BitVec w => x * m := by
  intro x y hxy
  have h : x * m * inv = y * m * inv := congrArg (· * inv) hxy
  rwa [BitVec.mul_assoc, BitVec.mul_assoc, hinv, BitVec.mul_one, BitVec.mul_one] at h

/-- The difference of two words with one image is its own shift, and so zero. -/
theorem xorShift_injective {r : ℕ} (hr : 0 < r) :
    Function.Injective fun x : BitVec w => x ^^^ x >>> r := by
  intro x y hxy
  have hdiff : (x ^^^ y) = (x ^^^ y) >>> r := by
    have h : x ^^^ x >>> r ^^^ (y ^^^ y >>> r) = 0#w := by
      rw [show x ^^^ x >>> r = y ^^^ y >>> r from hxy, BitVec.xor_self]
    rw [BitVec.ushiftRight_xor_distrib, ← BitVec.xor_eq_zero_iff, ← h]
    ac_rfl
  have hnat : (x ^^^ y).toNat = (x ^^^ y).toNat / 2 ^ r := by
    rw [← Nat.shiftRight_eq_div_pow, ← BitVec.toNat_ushiftRight, ← hdiff]
  have hzero : (x ^^^ y).toNat = 0 := by
    by_contra hne
    have hlt := Nat.div_lt_self (Nat.pos_of_ne_zero hne) (Nat.one_lt_two_pow (Nat.pos_iff_ne_zero.1 hr))
    omega
  exact BitVec.xor_eq_zero_iff.1 (BitVec.eq_of_toNat_eq (by simpa using hzero))

theorem toNat_shiftLeft_xor {x : BitVec w} {n k : ℕ} (y : BitVec n) (hk : n + k ≤ w)
    (hx : x.toNat < 2 ^ k) : (y.setWidth w <<< k ^^^ x).toNat = 2 ^ k * y.toNat + x.toNat := by
  have hy : y.toNat < 2 ^ n := y.isLt
  have hwide : (y.setWidth w).toNat = y.toNat := by
    rw [BitVec.toNat_setWidth, Nat.mod_eq_of_lt]
    exact Nat.lt_of_lt_of_le hy (Nat.pow_le_pow_right (by decide) (by omega))
  have hfits : y.toNat * 2 ^ k < 2 ^ w := by
    calc y.toNat * 2 ^ k < 2 ^ n * 2 ^ k := Nat.mul_lt_mul_of_pos_right hy (Nat.two_pow_pos k)
      _ = 2 ^ (n + k) := (Nat.pow_add 2 n k).symm
      _ ≤ 2 ^ w := Nat.pow_le_pow_right (by decide) hk
  rw [BitVec.toNat_xor, BitVec.toNat_shiftLeft, hwide, Nat.shiftLeft_eq, Nat.mod_eq_of_lt hfits]
  apply Nat.eq_of_testBit_eq
  intro i
  rw [Nat.testBit_two_pow_mul_add _ hx, Nat.testBit_xor, Nat.mul_comm, Nat.testBit_two_pow_mul]
  by_cases hi : i < k
  · simp [hi, Nat.not_le.2 hi]
  · have hzero : x.toNat.testBit i = false :=
      Nat.testBit_lt_two_pow (Nat.lt_of_lt_of_le hx (Nat.pow_le_pow_right (by decide) (by omega)))
    simp [hi, hzero, Nat.le_of_not_lt hi]

/-! ## One word after another -/

section Words

variable {α β : Type*} {f : α → β → α} {u v : ℕ → β} {n : ℕ}

theorem foldl_range_congr (h : ∀ i < n, u i = v i) (a : α) :
    (List.range n).foldl (fun a i => f a (u i)) a = (List.range n).foldl (fun a i => f a (v i)) a := by
  induction n with
  | zero => rfl
  | succ n ih =>
      simp only [List.range_succ, List.foldl_append, List.foldl_cons, List.foldl_nil]
      rw [ih fun i hi => h i (Nat.lt_succ_of_lt hi), h n (Nat.lt_succ_self n)]

theorem foldl_range_injective (hstate : ∀ x, Function.Injective fun a => f a x)
    (hword : ∀ a, Function.Injective (f a)) {s : ℕ} (hs : s < n) (hother : ∀ i < n, i ≠ s → u i = v i)
    {a : α} (h : (List.range n).foldl (fun a i => f a (u i)) a =
      (List.range n).foldl (fun a i => f a (v i)) a) : u s = v s := by
  induction n with
  | zero => cases hs
  | succ n ih =>
      simp only [List.range_succ, List.foldl_append, List.foldl_cons, List.foldl_nil] at h
      rcases Nat.lt_succ_iff_lt_or_eq.1 hs with hlt | rfl
      · -- the last word is the same, and undone
        rw [hother n (Nat.lt_succ_self n) (Nat.ne_of_gt hlt)] at h
        exact ih hlt (fun i hi => hother i (Nat.lt_succ_of_lt hi)) (hstate _ h)
      · have hbefore := foldl_range_congr (f := f)
          (fun i hi => hother i (Nat.lt_succ_of_lt hi) (Nat.ne_of_lt hi)) a
        rw [hbefore] at h
        exact hword _ h

end Words

end Tsl.Lib
