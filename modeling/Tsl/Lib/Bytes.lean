import Mathlib.Algebra.Group.Nat.Defs

set_option autoImplicit false

/-! # Byte memory

Memory is a byte for every offset. A word of `n` bytes is stored least significant byte first; a
load gives back what was stored there (`load_store_same`), and a store elsewhere does not change it
(`load_store_disjoint`). -/

namespace Tsl.Lib

/-- A byte for every offset. -/
abbrev Bytes := ℕ → BitVec 8

/-- The word of `n` bytes at `off`. -/
def Bytes.load (mem : Bytes) (off : ℕ) : ℕ → ℕ
  | 0 => 0
  | n + 1 => (mem off).toNat + 256 * mem.load (off + 1) n

/-- `value`, cut to `n` bytes, is stored at `off`. -/
def Bytes.store (mem : Bytes) (off n value : ℕ) : Bytes := fun i =>
  if off ≤ i ∧ i < off + n then BitVec.ofNat 8 (value / 256 ^ (i - off)) else mem i

/-! ## Loads -/

theorem Bytes.load_congr {mem mem' : Bytes} {off n : ℕ}
    (h : ∀ i, off ≤ i → i < off + n → mem i = mem' i) : mem.load off n = mem'.load off n := by
  induction n generalizing off with
  | zero => rfl
  | succ n ih =>
      rw [load, load, h off (Nat.le_refl _) (by omega),
        ih fun i hlo hhi => h i (by omega) (by omega)]

theorem Bytes.load_eq_zero_iff {mem : Bytes} {off n : ℕ} :
    mem.load off n = 0 ↔ ∀ i, off ≤ i → i < off + n → mem i = 0 := by
  induction n generalizing off with
  | zero => exact iff_of_true rfl fun i hlo hhi => absurd hhi (by omega)
  | succ n ih =>
      have hhead : (mem off).toNat = 0 ↔ mem off = 0 := by simp [BitVec.toNat_eq]
      rw [load, Nat.add_eq_zero_iff, Nat.mul_eq_zero, ih, hhead]
      constructor
      · intro h i hlo hhi
        rcases Nat.eq_or_lt_of_le hlo with rfl | hlt
        · exact h.1
        · exact (h.2.resolve_left (by decide)) i hlt (by omega)
      · intro h
        exact ⟨h off (Nat.le_refl _) (by omega), .inr fun i hlo hhi => h i (by omega) (by omega)⟩

theorem Bytes.load_lt (mem : Bytes) (off n : ℕ) : mem.load off n < 256 ^ n := by
  induction n generalizing off with
  | zero => exact Nat.one_pos
  | succ n ih =>
      have hbyte := (mem off).isLt
      have hrest := ih (off + 1)
      rw [load, Nat.pow_succ']
      omega

/-- The most significant byte comes last. -/
theorem Bytes.load_succ_last (mem : Bytes) (off n : ℕ) :
    mem.load off (n + 1) = mem.load off n + 256 ^ n * (mem (off + n)).toNat := by
  induction n generalizing off with
  | zero => simp [load]
  | succ n ih =>
      rw [load, ih, load, Nat.mul_add, ← Nat.mul_assoc, ← Nat.pow_succ', ← Nat.add_assoc,
        Nat.add_right_comm off 1 n, Nat.add_assoc off n 1]

theorem Bytes.load_inj {mem mem' : Bytes} {off n : ℕ} (h : mem.load off n = mem'.load off n) {i : ℕ}
    (hi : i < n) : mem (off + i) = mem' (off + i) := by
  induction n with
  | zero => cases hi
  | succ n ih =>
      rw [load_succ_last, load_succ_last] at h
      have hlow := mem.load_lt off n
      have hlow' := mem'.load_lt off n
      have hbyte : (mem (off + n)).toNat = (mem' (off + n)).toNat := by
        have hpos : 0 < 256 ^ n := Nat.pow_pos (by decide)
        have hdiv := congrArg (· / 256 ^ n) h
        simpa only [Nat.add_mul_div_left _ _ hpos, Nat.div_eq_of_lt hlow, Nat.div_eq_of_lt hlow',
          Nat.zero_add] using hdiv
      by_cases hin : i = n
      · rw [hin]
        exact BitVec.eq_of_toNat_eq hbyte
      · rw [hbyte] at h
        exact ih (Nat.add_right_cancel h) (by omega)

/-! ## Stores -/

theorem Bytes.store_outside {mem : Bytes} {off n value i : ℕ} (h : i < off ∨ off + n ≤ i) :
    mem.store off n value i = mem i :=
  if_neg (by omega)

theorem Bytes.load_store_same (mem : Bytes) (off n value : ℕ) :
    (mem.store off n value).load off n = value % 256 ^ n := by
  induction n generalizing off value mem with
  | zero => rw [load, Nat.pow_zero, Nat.mod_one]
  | succ n ih =>
      have hfirst : (mem.store off (n + 1) value off).toNat = value % 256 := by
        simp [store]
      have hrest : (mem.store off (n + 1) value).load (off + 1) n =
          (mem.store (off + 1) n (value / 256)).load (off + 1) n := by
        apply load_congr
        intro i hlo hhi
        rw [store, store, if_pos (by omega), if_pos (by omega), Nat.div_div_eq_div_mul,
          ← Nat.pow_succ', show (i - (off + 1)).succ = i - off by omega]
      rw [load, hfirst, hrest, ih, Nat.pow_succ', Nat.mod_mul]

theorem Bytes.load_store_disjoint {mem : Bytes} {off n value off' n' : ℕ}
    (h : off' + n' ≤ off ∨ off + n ≤ off') :
    (mem.store off n value).load off' n' = mem.load off' n' :=
  load_congr fun i hlo hhi => store_outside (by omega)

end Tsl.Lib
