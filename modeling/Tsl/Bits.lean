import Mathlib.Algebra.Group.Nat.Defs
import Mathlib.Data.Nat.Size
import Mathlib.Order.Bounds.Basic

set_option autoImplicit false

/-! # Bit operations

`tsl/bits.h`: rounding up to a power of two. The code copies the highest set bit of `value - 1` into
every position below it, each time doubling how far a bit has been copied (`Smeared.double`), and
adds one. What comes out in 64 bits is the least power of two that is not below `value`
(`tslRoundUp2_64_isLeast`). In 32 bits the last step is missing (`tslRoundUp2_32_succ`). Rounding down
to a multiple of a power of two, which the code does in place, is masking (`toNat_and_not_mask`). -/

namespace Tsl

/-- `tsl_round_up_2_64`. -/
def tslRoundUp2_64 (value : BitVec 64) : BitVec 64 :=
  let v := value - 1
  let v := v ||| v >>> 1
  let v := v ||| v >>> 2
  let v := v ||| v >>> 4
  let v := v ||| v >>> 8
  let v := v ||| v >>> 16
  let v := v ||| v >>> 32
  v + 1

/-- `tsl_round_up_2_32`. It does not add one at the end. -/
def tslRoundUp2_32 (value : BitVec 32) : BitVec 32 :=
  let v := value - 1
  let v := v ||| v >>> 1
  let v := v ||| v >>> 2
  let v := v ||| v >>> 4
  let v := v ||| v >>> 8
  v ||| v >>> 16

section Smearing

variable {w : ℕ} {x y : BitVec w} {n : ℕ}

/-- Every bit of `x` has been copied into the `n - 1` positions below it. -/
def Smeared (x y : BitVec w) (n : ℕ) : Prop :=
  ∀ i, y.getLsbD i = true ↔ ∃ j < n, x.getLsbD (i + j) = true

theorem smeared_one (x : BitVec w) : Smeared x x 1 := by
  intro i
  simp

/-- `v |= v >> n` doubles how far bits have been copied. -/
theorem Smeared.double (h : Smeared x y n) : Smeared x (y ||| y >>> n) (n + n) := by
  intro i
  rw [BitVec.getLsbD_or, Bool.or_eq_true, BitVec.getLsbD_ushiftRight, h i, h (n + i)]
  constructor
  · rintro (⟨j, hj, hx⟩ | ⟨j, hj, hx⟩)
    · exact ⟨j, by omega, hx⟩
    · exact ⟨n + j, by omega, by rwa [show i + (n + j) = n + i + j by omega]⟩
  · rintro ⟨j, hj, hx⟩
    by_cases hjn : j < n
    · exact .inl ⟨j, hjn, hx⟩
    · exact .inr ⟨j - n, by omega, by rwa [show n + i + (j - n) = i + j by omega]⟩

/-- With every bit copied all the way down, the word is one below a power of two. -/
theorem Smeared.toNat (h : Smeared x y n) (hn : w ≤ n) : y.toNat = 2 ^ Nat.size x.toNat - 1 := by
  apply Nat.eq_of_testBit_eq
  intro i
  rw [Nat.testBit_two_pow_sub_one, BitVec.testBit_toNat, Bool.eq_iff_iff, h i, decide_eq_true_eq,
    Nat.lt_size]
  constructor
  · rintro ⟨j, -, hx⟩
    rw [← BitVec.testBit_toNat] at hx
    have hpow : 2 ^ i ≤ 2 ^ (i + j) := Nat.pow_le_pow_right (by decide) (Nat.le_add_right i j)
    exact Nat.le_trans hpow (Nat.ge_two_pow_of_testBit hx)
  · intro hle
    obtain ⟨k, hk, hx⟩ := Nat.exists_ge_and_testBit_of_ge_two_pow hle
    rw [BitVec.testBit_toNat] at hx
    have hkw := BitVec.lt_of_getLsbD hx
    exact ⟨k - i, by omega, by rwa [Nat.add_sub_cancel' hk]⟩

end Smearing

theorem tslRoundUp2_64_toNat (value : BitVec 64) :
    (tslRoundUp2_64 value).toNat = 2 ^ Nat.size (value - 1).toNat % 2 ^ 64 := by
  have h := ((((((smeared_one (value - 1)).double).double).double).double).double).double.toNat
    (show 64 ≤ 64 from Nat.le_refl _)
  have hpos := Nat.pow_pos (n := Nat.size (value - 1).toNat) (show 0 < 2 by decide)
  unfold tslRoundUp2_64
  rw [BitVec.toNat_add, h]
  simp only [BitVec.reduceToNat]
  rw [Nat.sub_add_cancel hpos]

theorem tslRoundUp2_32_toNat (value : BitVec 32) :
    (tslRoundUp2_32 value).toNat = 2 ^ Nat.size (value - 1).toNat - 1 :=
  (((((smeared_one (value - 1)).double).double).double).double).double.toNat
    (show 32 ≤ 32 from Nat.le_refl _)

/-! ## The least power of two -/

/-- The power of two that `n` is to be rounded up to. -/
def IsRoundUp2 (n r : ℕ) : Prop := IsLeast {p | p.isPowerOfTwo ∧ n ≤ p} r

/-- The numbers up to `2 ^ k` are those whose predecessor has at most `k` bits. -/
theorem le_two_pow_iff {n : ℕ} (hn : 0 < n) (k : ℕ) : n ≤ 2 ^ k ↔ Nat.size (n - 1) ≤ k := by
  rw [Nat.size_le]
  omega

theorem isRoundUp2_size {n : ℕ} (hn : 0 < n) : IsRoundUp2 n (2 ^ Nat.size (n - 1)) := by
  refine ⟨⟨⟨_, rfl⟩, (le_two_pow_iff hn _).2 (Nat.le_refl _)⟩, ?_⟩
  rintro p ⟨⟨k, rfl⟩, hle⟩
  exact Nat.pow_le_pow_right (by decide) ((le_two_pow_iff hn k).1 hle)

theorem toNat_sub_one {w : ℕ} {value : BitVec w} (hpos : 0 < value.toNat) :
    (value - 1).toNat = value.toNat - 1 := by
  have hone : (1 : BitVec w).toNat = 1 := BitVec.toNat_one (by
    by_contra hw
    obtain rfl : w = 0 := by omega
    have hlt := value.isLt
    omega)
  rw [BitVec.toNat_sub_of_le (by rw [BitVec.le_def, hone]; exact hpos), hone]

/-- In 64 bits, any value up to the greatest power of two there is. -/
theorem tslRoundUp2_64_isLeast {value : BitVec 64} (hpos : 0 < value.toNat)
    (hle : value.toNat ≤ 2 ^ 63) : IsRoundUp2 value.toNat (tslRoundUp2_64 value).toNat := by
  have hsize : Nat.size (value.toNat - 1) ≤ 63 := (le_two_pow_iff hpos 63).1 hle
  have hfits : 2 ^ Nat.size (value.toNat - 1) < 2 ^ 64 :=
    Nat.pow_lt_pow_right (by decide) (by omega)
  rw [tslRoundUp2_64_toNat, toNat_sub_one hpos, Nat.mod_eq_of_lt hfits]
  exact isRoundUp2_size hpos

/-! ## The two widths -/

/-- `tsl_round_up_2_32` agrees with `tsl_round_up_2_64`, and is right. -/
structure WidthsAgree (value : BitVec 32) : Prop where
  same : (tslRoundUp2_32 value).toNat = (tslRoundUp2_64 (value.setWidth 64)).toNat
  least : IsRoundUp2 value.toNat (tslRoundUp2_32 value).toNat

/-- What `tsl_round_up_2_32` lacks. -/
theorem tslRoundUp2_32_succ {value : BitVec 32} (hpos : 0 < value.toNat) :
    IsRoundUp2 value.toNat ((tslRoundUp2_32 value).toNat + 1) := by
  have hone := Nat.one_le_two_pow (n := Nat.size (value.toNat - 1))
  rw [tslRoundUp2_32_toNat, toNat_sub_one hpos, Nat.sub_add_cancel hone]
  exact isRoundUp2_size hpos

/-- **Rounding up in 32 bits** is never right: for every value that can be rounded up it answers one
less than in 64 bits. -/
theorem roundUp2_widths_differ {value : BitVec 32} (hpos : 0 < value.toNat)
    (hle : value.toNat ≤ 2 ^ 31) :
    (tslRoundUp2_32 value).toNat + 1 = (tslRoundUp2_64 (value.setWidth 64)).toNat ∧
      ¬ WidthsAgree value := by
  have hwide : (value.setWidth 64).toNat = value.toNat := by
    rw [BitVec.toNat_setWidth]
    omega
  have hright : IsRoundUp2 (value.setWidth 64).toNat (tslRoundUp2_64 (value.setWidth 64)).toNat :=
    tslRoundUp2_64_isLeast (by omega) (by omega)
  rw [hwide] at hright
  have hsucc := (tslRoundUp2_32_succ hpos).unique hright
  refine ⟨hsucc, fun hagree => ?_⟩
  have hsame := hagree.same
  omega

theorem roundUp2_widths_differ_three :
    (tslRoundUp2_32 3#32).toNat + 1 = (tslRoundUp2_64 ((3#32).setWidth 64)).toNat ∧
      ¬ WidthsAgree 3#32 :=
  roundUp2_widths_differ (by decide) (by decide)

/-- 3 is rounded up to 4 in 64 bits, and to 3 in 32. -/
theorem roundUp2_three : tslRoundUp2_64 3#64 = 4#64 ∧ tslRoundUp2_32 3#32 = 3#32 ∧
    ¬ WidthsAgree 3#32 := by
  refine ⟨by decide, by decide, fun hagree => ?_⟩
  have hsame := hagree.same
  revert hsame
  decide

/-! ## Masks -/

/-- The complement of `bytes - 1`, in 64 bits, keeps the bits from `bytes` on. -/
theorem and_mask_eq {k x : ℕ} (hk : k ≤ 64) (hx : x < 2 ^ 64) :
    x &&& (2 ^ 64 - 1 - (2 ^ k - 1)) = x / 2 ^ k * 2 ^ k := by
  have hmask : 2 ^ 64 - 1 - (2 ^ k - 1) = (2 ^ (64 - k) - 1) * 2 ^ k := by
    rw [Nat.sub_mul, Nat.one_mul, ← Nat.pow_add, Nat.sub_add_cancel hk]
    have := Nat.one_le_two_pow (n := k)
    omega
  apply Nat.eq_of_testBit_eq
  intro b
  rw [Nat.testBit_and, hmask, Nat.testBit_mul_two_pow, Nat.testBit_mul_two_pow,
    Nat.testBit_two_pow_sub_one, Nat.testBit_div_two_pow]
  by_cases hb : k ≤ b
  · rw [Nat.sub_add_cancel hb]
    by_cases hlt : b < 64
    · simp [hb, show b - k < 64 - k by omega]
    · have hzero : x.testBit b = false :=
        Nat.testBit_lt_two_pow (Nat.lt_of_lt_of_le hx (Nat.pow_le_pow_right (by decide) (by omega)))
      simp [hzero]
  · simp [hb]

theorem toNat_and_not_mask {size : BitVec 64} {k : ℕ} (hsize : size.toNat = 2 ^ k) (x : BitVec 64) :
    (x &&& ~~~(size - 1)).toNat = x.toNat / size.toNat * size.toNat := by
  have hk : k ≤ 64 := by
    have hlt := size.isLt
    rw [hsize] at hlt
    exact Nat.le_of_lt ((Nat.pow_lt_pow_iff_right (by decide)).1 hlt)
  have hone : 1 ≤ size.toNat := hsize ▸ Nat.one_le_two_pow
  have hmask : (size - 1).toNat = 2 ^ k - 1 := by
    rw [BitVec.toNat_sub_of_le (by simpa [BitVec.le_def] using hone), hsize]
    rfl
  rw [BitVec.toNat_and, BitVec.toNat_not, hmask, hsize, and_mask_eq hk x.isLt]

end Tsl
