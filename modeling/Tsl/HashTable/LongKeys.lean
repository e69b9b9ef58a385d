import Mathlib.Data.Fintype.EquivFin
import Mathlib.Data.List.Find
import Tsl.HashTable.Murmur

set_option autoImplicit false

/-! # Long keys

A key of any length goes through `ht_murmur_hash_byte_string` word by word, and no word is lost, so two
keys of one length that differ in the bytes of one word have different hashes, and every hash is reached
by exactly one content of a whole word, whatever the rest of the key is
(`htMurmurHashByteString_balanced`). Two words are enough for a collision, then: a change of one can be
undone by the other.

`ht_find` asks the compare callback about a node only if the cached hash is that of the key. What the
callback would say about a node that is told apart by its hash does not matter
(`htFind_asks_of_run`). -/

namespace Tsl

open Lib

/-! ## Keys that differ in one word -/

/-- The keys agree outside the bytes of one word. The last word of a key can be short. -/
def AgreeButWord (key key' : Bytes) (keyLen word : ℕ) : Prop :=
  ∀ i < keyLen, i / 8 ≠ word → key i = key' i

/-- The key with other bytes in one word. -/
def withWord (key : Bytes) (word : ℕ) (k : BitVec 64) : Bytes := key.store (8 * word) 8 k.toNat

/-- What the hash takes in at a word. -/
def wordAt (key : Bytes) (word : ℕ) : BitVec 64 := BitVec.ofNat 64 (key.load (8 * word) 8)

section Words

variable {key key' : Bytes} {keyLen word : ℕ}

theorem agreeButWord_withWord (k k' : BitVec 64) :
    AgreeButWord (withWord key word k) (withWord key word k') keyLen word := by
  intro i _ hi
  have hout : i < 8 * word ∨ 8 * word + 8 ≤ i := by omega
  rw [withWord, withWord, Bytes.store_outside hout, Bytes.store_outside hout]

theorem wordAt_withWord (k : BitVec 64) : wordAt (withWord key word k) word = k := by
  have hfits : k.toNat < 256 ^ 8 := k.isLt
  rw [wordAt, withWord, Bytes.load_store_same, Nat.mod_eq_of_lt hfits, BitVec.ofNat_toNat,
    BitVec.setWidth_eq]

theorem bytes_of_wordAt (h : wordAt key word = wordAt key' word) {i : ℕ} (hi : i / 8 = word) :
    key i = key' i := by
  have hfits : ∀ mem : Bytes, mem.load (8 * word) 8 < 2 ^ 64 := fun mem => mem.load_lt _ 8
  have hload : key.load (8 * word) 8 = key'.load (8 * word) 8 := by
    have hnat := congrArg BitVec.toNat h
    rwa [wordAt, wordAt, BitVec.toNat_ofNat, BitVec.toNat_ofNat, Nat.mod_eq_of_lt (hfits key),
      Nat.mod_eq_of_lt (hfits key')] at hnat
  have hbyte := Bytes.load_inj hload (i := i - 8 * word) (by omega)
  rwa [show 8 * word + (i - 8 * word) = i by omega] at hbyte

theorem AgreeButWord.wordAt_eq (h : AgreeButWord key key' keyLen word) {i : ℕ} (hi : i < keyLen / 8)
    (hne : i ≠ word) : wordAt key i = wordAt key' i := by
  refine congrArg (BitVec.ofNat 64) (Bytes.load_congr fun j hlo hhi => h j ?_ ?_)
  · omega
  · omega

theorem AgreeButWord.tail_eq (h : AgreeButWord key key' keyLen word) (hword : word < keyLen / 8) :
    key.load (8 * (keyLen / 8)) (keyLen % 8) = key'.load (8 * (keyLen / 8)) (keyLen % 8) := by
  refine Bytes.load_congr fun j hlo hhi => h j ?_ ?_
  · omega
  · omega

end Words

/-! ## The hash -/

/-- What the loop does with a word. -/
def murmurAbsorb (h k : BitVec 64) : BitVec 64 := (h ^^^ murmurWord k) * murmurM

theorem murmurAbsorb_injective_left (k : BitVec 64) : Function.Injective fun h => murmurAbsorb h k := by
  intro h h' heq
  exact (BitVec.xor_left_inj _).1 (murmurM_injective heq)

theorem murmurAbsorb_injective (h : BitVec 64) : Function.Injective (murmurAbsorb h) := by
  intro k k' heq
  exact murmurWord_injective ((BitVec.xor_right_inj _).1 (murmurM_injective heq))

theorem murmurWords_eq (key : Bytes) (n : ℕ) (h : BitVec 64) :
    murmurWords key n h = (List.range n).foldl (fun h i => murmurAbsorb h (wordAt key i)) h := rfl

/-- What is done at the end with the bytes that are left. -/
def murmurTail (keyLen : ℕ) (h : BitVec 64) (tail : ℕ) : BitVec 64 :=
  if keyLen % 8 = 0 then h else (h ^^^ BitVec.ofNat 64 tail) * murmurM

theorem murmurTail_injective_left {keyLen tail : ℕ} :
    Function.Injective fun h => murmurTail keyLen h tail := by
  intro h h' heq
  simp only [murmurTail] at heq
  split at heq
  · exact heq
  · exact (BitVec.xor_left_inj _).1 (murmurM_injective heq)

/-- The hash, by the words of the key and what is behind them. -/
theorem htMurmurHashByteString_words (key : Bytes) (keyLen : ℕ) :
    (htMurmurHashByteString key keyLen).2 =
      murmurFinish (murmurTail keyLen
        (murmurWords key (keyLen / 8) (0xdeadbeef#64 ^^^ BitVec.ofNat 64 keyLen * murmurM))
        (key.load (8 * (keyLen / 8)) (keyLen % 8))) := by
  have htail := fun h => murmurCases_eq key (8 * (keyLen / 8)) (n := keyLen % 8) (by omega) h
  simp only [htMurmurHashByteString, murmurTail, htail]

section Hash

variable {key key' : Bytes} {keyLen word : ℕ}

/-- **No word is lost.** Keys of one length with one hash that differ in one word at most are the same. -/
theorem AgreeButWord.eq_of_hash (hagree : AgreeButWord key key' keyLen word)
    (h : (htMurmurHashByteString key keyLen).2 = (htMurmurHashByteString key' keyLen).2) :
    ∀ i < keyLen, key i = key' i := by
  rw [htMurmurHashByteString_words, htMurmurHashByteString_words] at h
  have htail := murmurFinish_injective h
  intro i hi
  by_cases hother : i / 8 ≠ word
  · exact hagree i hi hother
  · rw [ne_eq, not_not] at hother
    rcases Nat.lt_or_ge word (keyLen / 8) with hin | hlast
    · -- the loop takes the word in, and what comes after it is the same
      rw [hagree.tail_eq hin] at htail
      have hwords := murmurTail_injective_left htail
      rw [murmurWords_eq, murmurWords_eq] at hwords
      have hword : wordAt key word = wordAt key' word :=
        foldl_range_injective murmurAbsorb_injective_left murmurAbsorb_injective hin
          (fun j hj hne => hagree.wordAt_eq hj hne) hwords
      exact bytes_of_wordAt hword hother
    · -- the last bytes come after the loop
      have hmod : keyLen % 8 ≠ 0 := by omega
      have hwords : murmurWords key (keyLen / 8) = murmurWords key' (keyLen / 8) := by
        funext a
        rw [murmurWords_eq, murmurWords_eq]
        exact foldl_range_congr (fun j hj => hagree.wordAt_eq hj (by omega)) a
      rw [hwords, murmurTail, murmurTail, if_neg hmod, if_neg hmod] at htail
      have hload := (BitVec.xor_right_inj _).1 (murmurM_injective htail)
      have hfits : ∀ mem : Bytes, mem.load (8 * (keyLen / 8)) (keyLen % 8) < 2 ^ 64 := fun mem =>
        calc mem.load (8 * (keyLen / 8)) (keyLen % 8) < 256 ^ (keyLen % 8) := mem.load_lt _ _
          _ ≤ 256 ^ 8 := Nat.pow_le_pow_right (by decide) (by omega)
      have hbytes := congrArg BitVec.toNat hload
      rw [BitVec.toNat_ofNat, BitVec.toNat_ofNat, Nat.mod_eq_of_lt (hfits key),
        Nat.mod_eq_of_lt (hfits key')] at hbytes
      have hbyte := Bytes.load_inj hbytes (i := i - 8 * (keyLen / 8)) (by omega)
      rwa [show 8 * (keyLen / 8) + (i - 8 * (keyLen / 8)) = i by omega] at hbyte

end Hash

/-- **Every hash is reached by exactly one content of a word**, whatever is in the rest of the key; and
no two keys of one length that differ in one word only, be it the short one at the end, collide. -/
theorem htMurmurHashByteString_balanced (key : Bytes) (keyLen : ℕ) :
    (∀ word < keyLen / 8, ∀ hash, ∃! k, (htMurmurHashByteString (withWord key word k) keyLen).2 = hash) ∧
    ∀ key' word, AgreeButWord key key' keyLen word →
      (htMurmurHashByteString key keyLen).2 = (htMurmurHashByteString key' keyLen).2 →
      ∀ i < keyLen, key i = key' i := by
  refine ⟨fun word hword hash => ?_, fun key' word hagree h => hagree.eq_of_hash h⟩
  have hinj : Function.Injective fun k : BitVec 64 =>
      (htMurmurHashByteString (withWord key word k) keyLen).2 := by
    intro k k' hk
    have hbytes := (agreeButWord_withWord k k').eq_of_hash hk
    have hword' : wordAt (withWord key word k) word = wordAt (withWord key word k') word :=
      congrArg (BitVec.ofNat 64) (Bytes.load_congr fun i hlo hhi => hbytes i (by omega))
    rwa [wordAt_withWord, wordAt_withWord] at hword'
  have hfinite : Finite (BitVec 64) :=
    Finite.of_injective BitVec.toFin fun _ _ heq => BitVec.eq_of_toFin_eq heq
  have hbij := Finite.injective_iff_bijective.1 hinj
  exact hbij.existsUnique hash

/-! ## What the callback is asked -/

/-- The keys are different, but of one length, and only in the bytes of one word. `bytes` is what a key
    points to. -/
def ToldApart {κ : Type*} (bytes : κ → Bytes) (k k' : κ × ℕ) : Prop :=
  k.2 = k'.2 ∧ (∃ word, AgreeButWord (bytes k.1) (bytes k'.1) k.2 word) ∧
    ∃ i < k.2, bytes k.1 i ≠ bytes k'.1 i

theorem ToldApart.hash_ne {κ : Type*} {bytes : κ → Bytes} {k k' : κ × ℕ} (h : ToldApart bytes k k') :
    (htMurmurHashByteString (bytes k.1) k.2).2 ≠ (htMurmurHashByteString (bytes k'.1) k'.2).2 := by
  obtain ⟨key, keyLen⟩ := k
  obtain ⟨key', keyLen'⟩ := k'
  obtain ⟨rfl, ⟨word, hagree⟩, i, hi, hne⟩ := h
  exact fun hsame => hne (hagree.eq_of_hash hsame i hi)

section Tables

variable {ν κ π : Type*} [DecidableEq ν] {table : HashTable π κ} {carried : π → κ × ℕ} {m : HtMem ν π}
  {log : Log ν κ}

/-- **A lookup asks the callback about the nodes with the hash of the key**, and about no other. -/
theorem htFind_congr (hR : Represents table carried m log) {compare : CompareFunc π κ} {key : κ}
    {keySize : ℕ} (hagree : ∀ e ∈ log, (table.hfunc e.2.1 e.2.2).2 = (table.hfunc key keySize).2 →
      compare (m.container e.1) key keySize = table.compare (m.container e.1) key keySize)
    (found : Option ν) {fuel : ℕ} (hfuel : log.length < fuel) :
    htFind { table with compare := compare } m key keySize found fuel =
      htFind table m key keySize found fuel := by
  by_cases hsize : keySize = 0
  · rw [htFind, htFind, if_pos hsize, if_pos hsize]
  cases hhash : afailed (table.hfunc key keySize).1 with
  | true =>
      have hbucket : htGetBucket ν { table with compare := compare } key keySize =
          htGetBucket ν table key keySize := rfl
      rw [htFind, htFind, if_neg hsize, if_neg hsize, hbucket, htGetBucket_of_failed hhash]
  | false =>
      set nodes := (log.filter fun e => bucketOf ν table e.2 = bucketOf ν table (key, keySize)).map
        Prod.fst with hnodes
      have hlist : IsList m.entries (bucketOf ν table (key, keySize)) (nodes.map HtPtr.node) :=
        hR.isList_bucket (key, keySize)
      have hlen : nodes.length < fuel := by
        rw [hnodes, List.length_map]
        exact lt_of_le_of_lt (List.length_filter_le _ _) hfuel
      -- the two lookups stop at the same node
      have hdecides : ∀ n ∈ nodes, (table.hfunc key keySize).2 = m.hash n →
          compare (m.container n) key keySize = table.compare (m.container n) key keySize := by
        intro n hn hsame
        obtain ⟨e, he, rfl⟩ := List.mem_map.1 hn
        have hlogged := List.mem_of_mem_filter he
        exact hagree e hlogged ((hR.hash e hlogged).symm.trans hsame.symm)
      have hfind : (nodes.find? fun n => (table.hfunc key keySize).2 = m.hash n ∧
            HashTable.decides { table with compare := compare } m key keySize n) =
          nodes.find? fun n => (table.hfunc key keySize).2 = m.hash n ∧
            table.decides m key keySize n := by
        refine List.find?_congr fun n hn => ?_
        rw [decide_eq_decide]
        refine and_congr_right fun hsame => ?_
        simp only [HashTable.decides, hdecides n hn hsame]
      have hlist' : IsList m.entries (bucketOf ν { table with compare := compare } (key, keySize))
          (nodes.map HtPtr.node) := hlist
      rw [htFind_of_isList hlist' hsize hhash found hlen, htFind_of_isList hlist hsize hhash found hlen,
        hfind]
      cases hstop : nodes.find? fun n => (table.hfunc key keySize).2 = m.hash n ∧
          table.decides m key keySize n with
      | none => rfl
      | some n =>
          have hn := List.mem_of_find?_eq_some hstop
          have hsame := List.find?_some hstop
          rw [decide_eq_true_iff] at hsame
          simp only [hdecides n hn hsame.1]

variable [DecidableEq κ]

/-- After every run a lookup answers the same with any other callback that answers alike about the nodes
whose keys are not told apart from the one looked up, where keys that are told apart have different
hashes. -/
theorem htFind_unasked_of_run {hfunc : HashFunc κ} {told : κ × ℕ → κ × ℕ → Prop}
    (htold : ∀ k k', told k k' → (hfunc k.1 k.2).2 ≠ (hfunc k'.1 k'.2).2) {nrBuckets : BitVec 64}
    {compare compare' : CompareFunc π κ} {entries entries' : ListMem (HtPtr ν)}
    (hinit : htInit none entries nrBuckets (some hfunc) (some compare) true =
      (aOk, some table, entries'))
    (hash : ν → BitVec 64) (container : ν → π) (calls : List (HtCall ν κ π)) {s : HtState ν κ π}
    (hrun : exec (htStep table carried)
      { mem := { entries := entries', hash := hash, container := container }, log := [] } calls =
      some s)
    (hagree : ∀ p key keySize, ¬ told (carried p) (key, keySize) →
      compare' p key keySize = compare p key keySize)
    (key : κ) (keySize : ℕ) (found : Option ν) {fuel : ℕ} (hfuel : s.log.length < fuel) :
    htFind { table with compare := compare' } s.mem key keySize found fuel =
      htFind table s.mem key keySize found fuel := by
  obtain ⟨rfl, rfl, rfl, hempty⟩ := represents_htInit carried hash container hinit
  have hR : Represents table carried s.mem s.log :=
    exec_invariant (I := fun s => Represents table carried s.mem s.log) represents_htStep hempty hrun
  refine htFind_congr hR (fun e he hhash => hagree _ key keySize fun hapart => ?_) found hfuel
  rw [hR.carries e he] at hapart
  exact htold _ _ hapart hhash

/-- **Where the hash decides.** After every run of insertions and deletions in a table that hashes byte
strings, what the callback says about a node whose key differs from the one looked up in one word does
not matter: with a callback that is right about all other nodes, and says anything about those, a lookup
answers the oldest node under the key. -/
theorem htFind_asks_of_run {bytes : κ → Bytes} {nrBuckets : BitVec 64}
    {compare compare' : CompareFunc π κ} (hcmp : AnswersCarried compare carried)
    {entries entries' : ListMem (HtPtr ν)}
    (hinit : htInit none entries nrBuckets
      (some fun key keyLen => htMurmurHashByteString (bytes key) keyLen) (some compare) true =
      (aOk, some table, entries'))
    (hash : ν → BitVec 64) (container : ν → π) (calls : List (HtCall ν κ π)) {s : HtState ν κ π}
    (hrun : exec (htStep table carried)
      { mem := { entries := entries', hash := hash, container := container }, log := [] } calls =
      some s)
    (hagree : ∀ p key keyLen, ¬ ToldApart bytes (carried p) (key, keyLen) →
      compare' p key keyLen = compare p key keyLen)
    (key : κ) {keyLen : ℕ} (hlen : keyLen ≠ 0) (found : Option ν) {fuel : ℕ}
    (hfuel : s.log.length < fuel) :
    htFind { table with compare := compare' } s.mem key keyLen found fuel =
      some (match earliest s.log (key, keyLen) with
        | some n => (aOk, some n)
        | none => (aENotfound, none)) := by
  have hok : afailed aOk = false := by decide
  have hright := (htFind_of_run hcmp hinit hash container calls hrun key hlen hok found hfuel).1
  have hsame := htFind_unasked_of_run (fun _ _ htold => ToldApart.hash_ne htold) hinit hash container
    calls hrun hagree key keyLen found hfuel
  exact hsame.trans hright

end Tables

/-- Keys that are a byte, and nothing but zeros behind it. -/
def firstByte (key : BitVec 8) : Bytes := fun i => if i = 0 then key else 0

/-- A table of eight buckets for structures that are just their key. -/
def byteTable : HashTable (BitVec 8 × ℕ) (BitVec 8) where
  nrBuckets := 8
  hfunc := fun key keyLen => htMurmurHashByteString (firstByte key) keyLen
  compare := fun p key keyLen => (aOk, decide (p = (key, keyLen)))
  nrBuckets_ne := by decide

theorem toldApart_firstByte {p : BitVec 8 × ℕ} {key : BitVec 8} {keyLen : ℕ} (hlen : p.2 = keyLen)
    (hpos : 0 < keyLen) (hne : p.1 ≠ key) : ToldApart firstByte p (key, keyLen) := by
  refine ⟨hlen, ⟨0, fun i _ hi => ?_⟩, 0, hlen ▸ hpos, hne⟩
  have hi' : i ≠ 0 := by
    rintro rfl
    exact hi rfl
  rw [firstByte, firstByte, if_neg hi', if_neg hi']

/-- That table after `ht_init`, over nodes whose structures carry keys of 20 bytes. -/
def byteStart : HtState ℕ (BitVec 8) (BitVec 8 × ℕ) where
  mem :=
    { entries := (htInit none (fun a => ⟨a, a⟩) 8 (some byteTable.hfunc)
        (some byteTable.compare) true).2.2
      hash := fun _ => 0
      container := fun n => (BitVec.ofNat 8 n, 20) }
  log := []

/-- A callback that looks at the length alone, if it is not zero. -/
def sameLength : CompareFunc (BitVec 8 × ℕ) (BitVec 8) := fun p key keyLen =>
  (aOk, decide (p.2 = keyLen ∧ (0 < keyLen ∨ p.1 = key)))

/-- It is right enough there. -/
theorem htFind_asks_of_run_sameLength :
    ∃ s : HtState ℕ (BitVec 8) (BitVec 8 × ℕ), exec (htStep byteTable id) byteStart
        [.insert 3 20 3, .insert 4 20 4, .insert 5 20 5, .delete 4] = some s ∧
      htFind { byteTable with compare := sameLength } s.mem 5 20 none 3 = some (aOk, some 5) := by
  obtain ⟨s, hrun, hlog⟩ : ∃ s, exec (htStep byteTable id) byteStart
      [.insert 3 20 3, .insert 4 20 4, .insert 5 20 5, .delete 4] = some s ∧
      s.log = [(3, 3, 20), (5, 5, 20)] := ⟨_, rfl, rfl⟩
  have hinit : htInit none (fun a => ⟨a, a⟩) 8 (some byteTable.hfunc) (some byteTable.compare)
      true = (aOk, some byteTable, byteStart.mem.entries) := rfl
  have hagree : ∀ p key keyLen, ¬ ToldApart firstByte (id p) (key, keyLen) →
      sameLength p key keyLen = byteTable.compare p key keyLen := by
    intro p key keyLen hsame
    refine congrArg (Prod.mk aOk) (decide_eq_decide.2 ⟨?_, ?_⟩)
    · rintro ⟨hlen, hpos | hkey⟩
      · have hkey : p.1 = key := by
          by_contra hne
          exact hsame (toldApart_firstByte hlen hpos hne)
        exact Prod.ext hkey hlen
      · exact Prod.ext hkey hlen
    · rintro rfl
      exact ⟨rfl, .inr rfl⟩
  have hfind := htFind_asks_of_run (fun _ _ _ => rfl) hinit _ _ _ hrun hagree 5
    (show 20 ≠ 0 by decide) none (show s.log.length < 3 by simp [hlog])
  rw [hlog] at hfind
  exact ⟨s, hrun, hfind⟩

end Tsl
