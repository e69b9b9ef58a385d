import Tsl.HashTable
import Tsl.Lib.Bytes
import Tsl.Lib.Mixing

set_option autoImplicit false

/-! # The Murmur hash functions

`ht_murmur_hash_word` and `ht_murmur_hash_byte_string` of `tsl/hash_table.c`. A key of one word, or of
one to eight bytes, goes through steps that lose nothing, so that keys of one length with the same hash
are the same (`htMurmurHash_injective`). The length itself is mixed in before the key. -/

namespace Tsl

open Lib

/-! ## The code -/

/-- The constants `m` and `r`. -/
def murmurM : BitVec 64 := 0xc6a4a7935bd1e995#64

def murmurR : ℕ := 47

/-- What is done to a word of the key before it goes into the hash. -/
def murmurWord (k : BitVec 64) : BitVec 64 :=
  let k := k * murmurM
  let k := k ^^^ k >>> murmurR
  k * murmurM

/-- What is done to the hash at the end. -/
def murmurFinish (h : BitVec 64) : BitVec 64 :=
  let h := h ^^^ h >>> murmurR
  let h := h * murmurM
  h ^^^ h >>> murmurR

/-- `ht_murmur_hash_word`. The key is the pointer itself; its length is only looked at in debug
    builds. -/
def htMurmurHashWord : HashFunc (BitVec 64) := fun key _ =>
  let seed := 0xbebafeca#64
  let h := seed ^^^ 8 * murmurM
  let h := h ^^^ murmurWord key
  let h := h * murmurM
  (aOk, murmurFinish h)

/-- A pass of the loop of `ht_murmur_hash_byte_string`. -/
def murmurPass (key : Bytes) (data : ℕ) (h : BitVec 64) : BitVec 64 :=
  let k := BitVec.ofNat 64 (key.load data 8)
  let h := h ^^^ murmurWord k
  h * murmurM

/-- That loop, over the `n` whole words of the key. -/
def murmurWords (key : Bytes) (n : ℕ) (h : BitVec 64) : BitVec 64 :=
  (List.range n).foldl (fun h i => murmurPass key (8 * i) h) h

/-- The cases of the `switch`, from `case n` on, each of which falls through to the next. -/
def murmurCases (key : Bytes) (data2 : ℕ) : ℕ → BitVec 64 → BitVec 64
  | 0, h => h
  | n + 1, h => murmurCases key data2 n (h ^^^ (key (data2 + n)).setWidth 64 <<< (8 * n))

/-- `ht_murmur_hash_byte_string`. -/
def htMurmurHashByteString : HashFunc Bytes := fun key keyLen =>
  let seed := 0xdeadbeef#64
  let h := seed ^^^ BitVec.ofNat 64 keyLen * murmurM
  let h := murmurWords key (keyLen / 8) h
  let data2 := 8 * (keyLen / 8)
  let h := if keyLen % 8 = 0 then h else murmurCases key data2 (keyLen % 8) h * murmurM
  (aOk, murmurFinish h)

/-! ## Nothing is lost -/

theorem murmurM_injective : Function.Injective fun x : BitVec 64 => x * murmurM :=
  mul_injective (show murmurM * 0x5f7a0ea7e59b19bd#64 = 1#64 by decide)

theorem murmurR_injective : Function.Injective fun x : BitVec 64 => x ^^^ x >>> murmurR :=
  xorShift_injective (by decide)

theorem murmurWord_injective : Function.Injective murmurWord :=
  murmurM_injective.comp (murmurR_injective.comp murmurM_injective)

theorem murmurFinish_injective : Function.Injective murmurFinish :=
  murmurR_injective.comp (murmurM_injective.comp murmurR_injective)

/-- The cases put the bytes of the tail together, least significant first. -/
theorem murmurCases_eq (key : Bytes) (data2 : ℕ) {n : ℕ} (hn : n ≤ 8) (h : BitVec 64) :
    murmurCases key data2 n h = h ^^^ BitVec.ofNat 64 (key.load data2 n) := by
  induction n generalizing h with
  | zero => simp [murmurCases, Bytes.load]
  | succ n ih =>
      have hlow : (BitVec.ofNat 64 (key.load data2 n)).toNat = key.load data2 n := by
        rw [BitVec.toNat_ofNat, Nat.mod_eq_of_lt]
        calc key.load data2 n < 256 ^ n := key.load_lt data2 n
          _ ≤ 256 ^ 8 := Nat.pow_le_pow_right (by decide) (by omega)
      have hjoin : (key (data2 + n)).setWidth 64 <<< (8 * n) ^^^
          BitVec.ofNat 64 (key.load data2 n) = BitVec.ofNat 64 (key.load data2 (n + 1)) := by
        have hpow : 2 ^ (8 * n) = 256 ^ n := by rw [Nat.pow_mul]
        apply BitVec.eq_of_toNat_eq
        rw [toNat_shiftLeft_xor _ (by omega) (by rw [hlow, hpow]; exact key.load_lt data2 n), hlow,
          hpow, BitVec.toNat_ofNat, Nat.mod_eq_of_lt, Bytes.load_succ_last, Nat.add_comm]
        calc key.load data2 (n + 1) < 256 ^ (n + 1) := key.load_lt data2 (n + 1)
          _ ≤ 256 ^ 8 := Nat.pow_le_pow_right (by decide) hn
      rw [murmurCases, ih (by omega), BitVec.xor_assoc, hjoin]

theorem htMurmurHashByteString_eq (key : Bytes) {keyLen : ℕ} (hpos : 0 < keyLen) (hlen : keyLen ≤ 8) :
    (htMurmurHashByteString key keyLen).2 =
      let k := BitVec.ofNat 64 (key.load 0 keyLen)
      murmurFinish ((0xdeadbeef#64 ^^^ BitVec.ofNat 64 keyLen * murmurM ^^^
        if keyLen = 8 then murmurWord k else k) * murmurM) := by
  by_cases height : keyLen = 8
  · subst height
    have hone : ∀ h, murmurWords key 1 h = murmurPass key 0 h := fun h => rfl
    simp only [htMurmurHashByteString, Nat.reduceDiv, Nat.reduceMod, hone, murmurPass, if_true]
  · have hdiv : keyLen / 8 = 0 := by omega
    have hmod : keyLen % 8 = keyLen := by omega
    have hne : keyLen ≠ 0 := by omega
    have hnone : ∀ h, murmurWords key 0 h = h := fun h => rfl
    simp only [htMurmurHashByteString, hdiv, hmod, hnone, Nat.mul_zero, if_neg hne, if_neg height,
      murmurCases_eq key 0 hlen]

theorem htMurmurHashWord_injective (keyLen : ℕ) :
    Function.Injective fun key => (htMurmurHashWord key keyLen).2 := by
  intro key key' h
  have hmixed := murmurM_injective (murmurFinish_injective h)
  exact murmurWord_injective ((BitVec.xor_right_inj _).1 hmixed)

theorem htMurmurHashByteString_injective {key key' : Bytes} {keyLen : ℕ} (hpos : 0 < keyLen)
    (hlen : keyLen ≤ 8)
    (h : (htMurmurHashByteString key keyLen).2 = (htMurmurHashByteString key' keyLen).2) :
    ∀ i < keyLen, key i = key' i := by
  rw [htMurmurHashByteString_eq key hpos hlen, htMurmurHashByteString_eq key' hpos hlen] at h
  have hmixed := (BitVec.xor_right_inj _).1 (murmurM_injective (murmurFinish_injective h))
  have hword : BitVec.ofNat 64 (key.load 0 keyLen) = BitVec.ofNat 64 (key'.load 0 keyLen) := by
    split at hmixed
    · exact murmurWord_injective hmixed
    · exact hmixed
  have hfits : ∀ mem : Bytes, mem.load 0 keyLen < 2 ^ 64 := fun mem =>
    calc mem.load 0 keyLen < 256 ^ keyLen := mem.load_lt 0 keyLen
      _ ≤ 256 ^ 8 := Nat.pow_le_pow_right (by decide) hlen
  have hload : key.load 0 keyLen = key'.load 0 keyLen := by
    have hnat := congrArg BitVec.toNat hword
    rwa [BitVec.toNat_ofNat, BitVec.toNat_ofNat, Nat.mod_eq_of_lt (hfits key),
      Nat.mod_eq_of_lt (hfits key')] at hnat
  intro i hi
  have hbyte := Bytes.load_inj hload hi
  rwa [Nat.zero_add] at hbyte

/-! ## Cached hashes -/

/-- Keys are told apart by their hash, in tables that hash with `hfunc`: a node in the table whose
    cached hash is that of a key was inserted under that key. -/
def CacheDecides (ν π : Type*) [DecidableEq ν] {κ : Type*} (hfunc : HashFunc κ)
    (same : κ × ℕ → κ × ℕ → Prop) : Prop :=
  ∀ (table : HashTable π κ) (carried : π → κ × ℕ) (m : HtMem ν π) (log : Log ν κ),
    table.hfunc = hfunc → Represents table carried m log →
    ∀ e ∈ log, ∀ k, m.hash e.1 = (hfunc k.1 k.2).2 → same e.2 k

/-- Equal bytes, if both keys are as long, and not longer than a word. -/
def SameShort (k k' : Bytes × ℕ) : Prop :=
  k.2 = k'.2 → 1 ≤ k.2 → k.2 ≤ 8 → ∀ i < k.2, k.1 i = k'.1 i

/-- **Short keys of one length do not collide**: words have their own hashes, and so have strings of
one to eight bytes. In a table, the cached hash decides. -/
theorem htMurmurHash_injective (ν π : Type*) [DecidableEq ν] :
    (∀ keyLen, Function.Injective fun key => (htMurmurHashWord key keyLen).2) ∧
    (∀ keyLen, 1 ≤ keyLen → keyLen ≤ 8 → ∀ key key',
      (htMurmurHashByteString key keyLen).2 = (htMurmurHashByteString key' keyLen).2 →
      ∀ i < keyLen, key i = key' i) ∧
    CacheDecides ν π htMurmurHashWord (fun k k' => k.1 = k'.1) ∧
    CacheDecides ν π htMurmurHashByteString SameShort := by
  refine ⟨htMurmurHashWord_injective, fun keyLen hpos hlen key key' h =>
    htMurmurHashByteString_injective hpos hlen h, ?_, ?_⟩
  · rintro table carried m log hfunc hR e he k hcached
    have hhash := hR.hash e he
    rw [hfunc, hcached] at hhash
    exact htMurmurHashWord_injective k.2 hhash.symm
  · rintro table carried m log hfunc hR e he ⟨key, keyLen⟩ hcached rfl hpos hlen
    have hhash := hR.hash e he
    rw [hfunc, hcached] at hhash
    exact htMurmurHashByteString_injective hpos hlen hhash.symm

end Tsl
