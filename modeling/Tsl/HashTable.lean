import Tsl.Lib.Machine
import Tsl.List
import Tsl.Result

set_option autoImplicit false

/-! # Hash tables

`tsl/hash_table.h` and `hash_table.c`: chained hashing with intrusive nodes. A node carries its
cached hash and its list entry; the structure it is embedded in belongs to the client, and only the
client's compare callback looks at it.

A table is meant to be an insertion-ordered multimap. The abstract state is the `log` of the nodes
in the table, oldest first, each with the key it was inserted under; `earliest` is what a lookup
should find. `Represents` ties the bucket chains to the log, `htFind_eq` reads a lookup off it, and
`htFind_of_run` is the result for every history of insertions and deletions. -/

namespace Tsl

open Lib

/-- The addresses a list entry of a hash table can hold. -/
inductive HtPtr (ν : Type*) where
  /-- `&table->buckets[i].entries`. -/
  | bucket (i : ℕ)
  /-- `&n->h_node`. -/
  | node (n : ν)
  /-- A constant that is no entry's address. -/
  | raw (v : ℕ)
deriving DecidableEq

instance {ν : Type*} : ListPtr (HtPtr ν) where
  poisonNext := .raw 0xc1c1c1c1
  poisonPrev := .raw 0x81818181

/-- The memory the table works on. A node is named by `ν`; `π` is what the structure around a node
    holds. -/
structure HtMem (ν π : Type*) where
  entries : ListMem (HtPtr ν)
  hash : ν → BitVec 64
  container : ν → π

variable {ν κ π : Type*}

/-- `hash_table_hash_func_t`, answering the result code and `*presult`. -/
abbrev HashFunc (κ : Type*) := κ → ℕ → AResult × BitVec 64

/-- `hash_table_compare_func_t`, answering the result code and `*result`. -/
abbrev CompareFunc (π κ : Type*) := π → κ → ℕ → AResult × Bool

/-- `struct hash_table` with its buckets allocated. -/
structure HashTable (π κ : Type*) where
  nrBuckets : BitVec 64
  hfunc : HashFunc κ
  compare : CompareFunc π κ
  nrBuckets_ne : nrBuckets ≠ 0

section Code

variable [DecidableEq ν]

/-- `ht_init`. A table whose `buckets` is `NULL` is `none`; `calloc` is whether the buckets could be
    allocated. -/
def htInit (table : Option (HashTable π κ)) (entries : ListMem (HtPtr ν)) (nrBuckets : BitVec 64)
    (hashFunc : Option (HashFunc κ)) (compare : Option (CompareFunc π κ)) (calloc : Bool) :
    AResult × Option (HashTable π κ) × ListMem (HtPtr ν) :=
  if hnr : nrBuckets = 0 then (aEBadargs, table, entries)
  else
    match hashFunc, compare with
    | some hashFunc, some compare =>
        if table.isSome then (aEBusy, table, entries)
        else if calloc = false then (aEInval, table, entries)
        else
          (aOk,
            some { nrBuckets := nrBuckets, hfunc := hashFunc, compare := compare,
                   nrBuckets_ne := hnr },
            (List.range nrBuckets.toNat).foldl (fun m i => listInit m (.bucket i)) entries)
    | _, _ => (aEBadargs, table, entries)

/-- `_ht_get_bucket`: the result code, `*bkt` and `*hash`. -/
def htGetBucket (ν : Type*) (table : HashTable π κ) (key : κ) (keySize : ℕ) :
    AResult × Option (HtPtr ν) × BitVec 64 :=
  match table.hfunc key keySize with
  | (ret, hashVal) =>
    if afailed ret then (ret, none, 0)
    else
      let offset := hashVal &&& (table.nrBuckets - 1)
      (ret, some (.bucket offset.toNat), hashVal)

/-- `ht_insert`. -/
def htInsert (table : HashTable π κ) (m : HtMem ν π) (key : κ) (keySize : ℕ) (entry : Option ν) :
    AResult × HtMem ν π :=
  if keySize = 0 then (aEBadargs, m)
  else
    match entry with
    | none => (aEBadargs, m)
    | some entry =>
        match htGetBucket ν table key keySize with
        | (ret, none, _) => (ret, m)
        | (ret, some bkt, hashVal) =>
            (ret, { m with
              hash := Function.update m.hash entry hashVal
              entries := listAppend m.entries bkt (.node entry) })

/-- The loop of `ht_find`, with the iterator at `it`. `none` when the fuel runs out or when the
    chain leaves the nodes, where the code would read a node that is none. -/
def htFindLoop (table : HashTable π κ) (m : HtMem ν π) (bkt : HtPtr ν) (hashVal : BitVec 64)
    (key : κ) (keySize : ℕ) : ℕ → HtPtr ν → Option (AResult × Option ν)
  | 0, _ => none
  | fuel + 1, it =>
      if it = bkt then some (aENotfound, none)
      else
        match it with
        | .node hnode =>
            if hashVal = m.hash hnode then
              match table.compare (m.container hnode) key keySize with
              | (ret, res) =>
                -- the `break` ends at the assignment of `A_E_NOTFOUND`
                if afailed ret then some (aENotfound, none)
                else if res then some (ret, some hnode)
                else htFindLoop table m bkt hashVal key keySize fuel (m.entries it).next
            else htFindLoop table m bkt hashVal key keySize fuel (m.entries it).next
        | _ => none

/-- `ht_find`: the result code and `*pfound`, which `found` is the value of before the call. -/
def htFind (table : HashTable π κ) (m : HtMem ν π) (key : κ) (keySize : ℕ) (found : Option ν)
    (fuel : ℕ) : Option (AResult × Option ν) :=
  if keySize = 0 then some (aEBadargs, found)
  else
    match htGetBucket ν table key keySize with
    | (ret, none, _) => some (ret, none)
    | (_, some bkt, hashVal) =>
        htFindLoop table m bkt hashVal key keySize fuel (m.entries bkt).next

/-- `ht_delete`. -/
def htDelete (m : HtMem ν π) (node : Option ν) : AResult × HtMem ν π :=
  match node with
  | none => (aEBadargs, m)
  | some node =>
      (aOk, { m with
        entries := listDel m.entries (.node node)
        hash := Function.update m.hash node 0 })

end Code

/-! ## Buckets -/

/-- The bucket of a key. -/
def bucketOf (ν : Type*) (table : HashTable π κ) (k : κ × ℕ) : HtPtr ν :=
  .bucket ((table.hfunc k.1 k.2).2 &&& (table.nrBuckets - 1)).toNat

/-- The heads of the bucket chains. -/
def bucketHeads (ν : Type*) (table : HashTable π κ) : Set (HtPtr ν) :=
  { a | ∃ i < table.nrBuckets.toNat, a = .bucket i }

/-- The assertion of `_ht_get_bucket`: masking with `nr_buckets - 1` stays below `nr_buckets`,
whether or not it is a power of two. -/
theorem offset_lt (table : HashTable π κ) (hashVal : BitVec 64) :
    (hashVal &&& (table.nrBuckets - 1)).toNat < table.nrBuckets.toNat := by
  have hne : table.nrBuckets.toNat ≠ 0 := by
    intro h
    exact table.nrBuckets_ne (BitVec.eq_of_toNat_eq (by simpa using h))
  have hle : (hashVal &&& (table.nrBuckets - 1)).toNat ≤ (table.nrBuckets - 1).toNat := by
    rw [BitVec.toNat_and]
    exact Nat.and_le_right
  have hpred : (table.nrBuckets - 1).toNat = table.nrBuckets.toNat - 1 := by
    have := table.nrBuckets.isLt
    have hone : (1 : BitVec 64).toNat = 1 := rfl
    rw [BitVec.toNat_sub, hone]
    omega
  omega

theorem bucketOf_mem (table : HashTable π κ) (k : κ × ℕ) :
    bucketOf ν table k ∈ bucketHeads ν table :=
  ⟨_, offset_lt table _, rfl⟩

theorem htGetBucket_of_hash {table : HashTable π κ} {key : κ} {keySize : ℕ}
    (h : afailed (table.hfunc key keySize).1 = false) :
    htGetBucket ν table key keySize =
      ((table.hfunc key keySize).1, some (bucketOf ν table (key, keySize)),
        (table.hfunc key keySize).2) := by
  simp [htGetBucket, bucketOf, h]

theorem htGetBucket_of_failed {table : HashTable π κ} {key : κ} {keySize : ℕ}
    (h : afailed (table.hfunc key keySize).1 = true) :
    htGetBucket ν table key keySize = ((table.hfunc key keySize).1, none, 0) := by
  simp [htGetBucket, h]

/-! ## The multimap a table stands for -/

/-- The nodes in a table, oldest first, with the keys they were inserted under. -/
abbrev Log (ν κ : Type*) := List (ν × (κ × ℕ))

/-- What a lookup should find: the oldest node under the key. -/
def earliest [DecidableEq κ] (log : Log ν κ) (k : κ × ℕ) : Option ν :=
  (log.find? fun e => e.2 = k).map Prod.fst

/-- The nodes of one bucket, oldest first. -/
def chain [DecidableEq ν] (table : HashTable π κ) (log : Log ν κ) (bkt : HtPtr ν) :
    List (HtPtr ν) :=
  (log.filter fun e => bucketOf ν table e.2 = bkt).map fun e => .node e.1

/-- The bucket chains hold exactly the logged nodes, bucket by bucket in the order of the log, and
    the structure around each carries the key the node was inserted under. -/
structure Represents [DecidableEq ν] (table : HashTable π κ) (carried : π → κ × ℕ)
    (m : HtMem ν π) (log : Log ν κ) : Prop where
  lists : Lists m.entries (bucketHeads ν table) (chain table log)
  nodup : (log.map Prod.fst).Nodup
  hash : ∀ e ∈ log, m.hash e.1 = (table.hfunc e.2.1 e.2.2).2
  carries : ∀ e ∈ log, carried (m.container e.1) = e.2

section Chains

variable [DecidableEq ν] {table : HashTable π κ} {log : Log ν κ}

theorem chain_append (e : ν × (κ × ℕ)) :
    chain table (log ++ [e]) =
      Function.update (chain table log) (bucketOf ν table e.2)
        (chain table log (bucketOf ν table e.2) ++ [.node e.1]) := by
  funext a
  by_cases ha : a = bucketOf ν table e.2
  · subst ha
    simp [chain]
  · rw [Function.update_of_ne ha]
    simp [chain, Ne.symm ha]

/-- A node that is not logged is in no chain. -/
theorem outside_of_not_logged {n : ν} (hn : n ∉ log.map Prod.fst) :
    Outside (bucketHeads ν table) (chain table log) (.node n) := by
  rintro - ⟨i, -, rfl⟩ hmem
  simp only [chain, List.mem_cons, reduceCtorEq, List.mem_map, List.mem_filter, false_or,
    HtPtr.node.injEq] at hmem
  obtain ⟨e, ⟨he, -⟩, rfl⟩ := hmem
  exact hn (List.mem_map_of_mem he)

/-- Dropping a node from the log drops it from the chain of its bucket. -/
theorem chain_filter {e : ν × (κ × ℕ)} (hnd : (log.map Prod.fst).Nodup) (he : e ∈ log) :
    chain table (log.filter fun d => d.1 ≠ e.1) =
      Function.update (chain table log) (bucketOf ν table e.2)
        ((chain table log (bucketOf ν table e.2)).erase (.node e.1)) := by
  have hkey : ∀ d ∈ log, d.1 = e.1 → d = e := fun d hd h => List.inj_on_of_nodup_map hnd hd he h
  funext a
  have hswap : chain table (log.filter fun d => d.1 ≠ e.1) a =
      (chain table log a).filter fun x => x ≠ .node e.1 := by
    simp only [chain, List.filter_map, List.filter_filter]
    congr 1
    apply List.filter_congr
    intro d _
    simp [Bool.and_comm]
  rw [hswap]
  by_cases ha : a = bucketOf ν table e.2
  · subst ha
    have hndc : (chain table log (bucketOf ν table e.2)).Nodup := by
      have hsub : (log.filter fun d => bucketOf ν table d.2 = bucketOf ν table e.2).map Prod.fst
          |>.Nodup := (List.filter_sublist.map Prod.fst).nodup hnd
      have := hsub.map (f := HtPtr.node) (fun x y h => by simpa using h)
      simpa [chain, List.map_map, Function.comp_def] using this
    rw [Function.update_self, hndc.erase_eq_filter]
    apply List.filter_congr
    intro x _
    simp [bne, BEq.beq]
  · rw [Function.update_of_ne ha, List.filter_eq_self]
    intro x hx
    simp only [chain, List.mem_map, List.mem_filter, decide_eq_true_eq] at hx
    obtain ⟨d, ⟨hd, hda⟩, rfl⟩ := hx
    simp only [ne_eq, HtPtr.node.injEq, decide_not, Bool.not_eq_eq_eq_not, Bool.not_true,
      decide_eq_false_iff_not]
    intro hde
    exact ha (by rw [← hda, hkey d hd hde])

end Chains

/-! ## What each operation does to the multimap -/

section Operations

variable [DecidableEq ν] {table : HashTable π κ} {carried : π → κ × ℕ} {m : HtMem ν π}
  {log : Log ν κ}

theorem htInsert_spec {key : κ} {keySize : ℕ} {n : ν} (hR : Represents table carried m log)
    (hn : n ∉ log.map Prod.fst) (hc : carried (m.container n) = (key, keySize))
    (hsize : keySize ≠ 0) (hhash : afailed (table.hfunc key keySize).1 = false) :
    (htInsert table m key keySize (some n)).1 = (table.hfunc key keySize).1 ∧
      Represents table carried (htInsert table m key keySize (some n)).2
        (log ++ [(n, key, keySize)]) := by
  simp only [htInsert, if_neg hsize, htGetBucket_of_hash hhash, true_and]
  constructor
  · rw [chain_append]
    exact lists_listAppend hR.lists (bucketOf_mem table _) (outside_of_not_logged hn)
  · have : (log.map Prod.fst ++ [n]).Nodup :=
      List.nodup_append.2 ⟨hR.nodup, by simp, fun a ha b hb he => hn (by simp_all)⟩
    simpa using this
  · intro e he
    rcases List.mem_append.1 he with he | he
    · have hne : e.1 ≠ n := fun h => hn (h ▸ List.mem_map_of_mem he)
      simpa [hne] using hR.hash e he
    · rw [List.mem_singleton.1 he]
      simp
  · intro e he
    rcases List.mem_append.1 he with he | he
    · exact hR.carries e he
    · rw [List.mem_singleton.1 he]
      exact hc

theorem htInsert_of_failed {key : κ} {keySize : ℕ} {n : Option ν}
    (hhash : afailed (table.hfunc key keySize).1 = true) :
    (htInsert table m key keySize n).2 = m := by
  unfold htInsert
  split
  · rfl
  · cases n with
    | none => rfl
    | some n => simp [htGetBucket_of_failed hhash]

/-- `ht_delete` of a linked node drops it from the log, whichever bucket it is in. -/
theorem htDelete_spec {e : ν × (κ × ℕ)} (hR : Represents table carried m log) (he : e ∈ log) :
    (htDelete m (some e.1)).1 = aOk ∧
      Represents table carried (htDelete m (some e.1)).2 (log.filter fun d => d.1 ≠ e.1) := by
  refine ⟨rfl, ?_, ?_, ?_, ?_⟩
  · rw [chain_filter hR.nodup he]
    refine lists_listDel hR.lists (bucketOf_mem table _) ?_
    exact List.mem_map.2 ⟨e, List.mem_filter.2 ⟨he, by simp⟩, rfl⟩
  · exact (List.filter_sublist.map Prod.fst).nodup hR.nodup
  · intro d hd
    simp only [ne_eq, decide_not, List.mem_filter, Bool.not_eq_eq_eq_not, Bool.not_true,
      decide_eq_false_iff_not] at hd
    simpa [htDelete, hd.2] using hR.hash d hd.1
  · intro d hd
    exact hR.carries d (List.mem_of_mem_filter hd)

/-- The compare callback decides about a node: it fails, or it says that the node matches. -/
def HashTable.decides (table : HashTable π κ) (m : HtMem ν π) (key : κ) (keySize : ℕ) (n : ν) : Bool :=
  afailed (table.compare (m.container n) key keySize).1 ||
    (table.compare (m.container n) key keySize).2

/-- The loop of `ht_find` over the rest of a chain, up to the first node with the hash about which the
callback decides. -/
theorem htFindLoop_eq {bkt : HtPtr ν} {hashVal : BitVec 64} {key : κ} {keySize : ℕ}
    (hbkt : ∀ n, bkt ≠ .node n) :
    ∀ (ns : List ν) (it : HtPtr ν) (fuel : ℕ), ns.length < fuel →
      List.IsChain (fun a b => (m.entries a).next = b) (ns.map HtPtr.node ++ [bkt]) →
      (ns.map HtPtr.node ++ [bkt]).head? = some it →
      htFindLoop table m bkt hashVal key keySize fuel it =
        some (match ns.find? fun n => hashVal = m.hash n ∧ table.decides m key keySize n with
          | some n =>
              if afailed (table.compare (m.container n) key keySize).1 then (aENotfound, none)
              else ((table.compare (m.container n) key keySize).1, some n)
          | none => (aENotfound, none)) := by
  intro ns
  induction ns with
  | nil =>
      intro it fuel hfuel _ hit
      obtain ⟨fuel, rfl⟩ := Nat.exists_eq_add_one.2 hfuel
      simp only [List.map_nil, List.nil_append, List.head?_cons, Option.some.injEq] at hit
      simp [htFindLoop, hit]
  | cons n ns ih =>
      intro it fuel hfuel hlinks hit
      obtain ⟨fuel, rfl⟩ := Nat.exists_eq_add_one.2 (Nat.zero_lt_of_lt hfuel)
      simp only [List.map_cons, List.cons_append, List.head?_cons, Option.some.injEq] at hit
      subst hit
      rw [List.map_cons, List.cons_append, List.isChain_cons] at hlinks
      have hrest := ih (m.entries (.node n)).next fuel (by simpa using hfuel) hlinks.2 (by
        cases hh : (ns.map HtPtr.node ++ [bkt]).head? with
        | none => simp at hh
        | some b => rw [hlinks.1 b (by simpa using hh)])
      rw [htFindLoop, if_neg (hbkt n).symm, List.find?_cons]
      by_cases hhash : hashVal = m.hash n
      · rcases hcmp : table.compare (m.container n) key keySize with ⟨ret, res⟩
        cases hfailed : afailed ret with
        | true => simp [hhash, HashTable.decides, hcmp, hfailed]
        | false =>
            cases res with
            | true => simp [hhash, HashTable.decides, hcmp, hfailed]
            | false => simp [← hhash, HashTable.decides, hcmp, hfailed, hrest]
      · simp [hhash, hrest]

/-- A lookup in a bucket whose chain holds `nodes`. -/
theorem htFind_of_isList {key : κ} {keySize : ℕ} {nodes : List ν}
    (hlist : IsList m.entries (bucketOf ν table (key, keySize)) (nodes.map HtPtr.node))
    (hsize : keySize ≠ 0) (hhash : afailed (table.hfunc key keySize).1 = false) (found : Option ν)
    {fuel : ℕ} (hfuel : nodes.length < fuel) :
    htFind table m key keySize found fuel =
      some (match nodes.find? fun n => (table.hfunc key keySize).2 = m.hash n ∧
          table.decides m key keySize n with
        | some n =>
            if afailed (table.compare (m.container n) key keySize).1 then (aENotfound, none)
            else ((table.compare (m.container n) key keySize).1, some n)
        | none => (aENotfound, none)) := by
  set bkt := bucketOf ν table (key, keySize) with hbkt
  have hlinks := hlist.linked.imp (S := fun a b => (m.entries a).next = b) fun a b h => h.1
  rw [List.isChain_cons] at hlinks
  have hfirst : (nodes.map HtPtr.node ++ [bkt]).head? = some (m.entries bkt).next := by
    cases hh : (nodes.map HtPtr.node ++ [bkt]).head? with
    | none => simp at hh
    | some b => rw [hlinks.1 b (by simpa using hh)]
  have hne : ∀ n, bkt ≠ .node n := by simp [hbkt, bucketOf]
  rw [htFind, if_neg hsize, htGetBucket_of_hash hhash]
  exact htFindLoop_eq hne nodes _ fuel hfuel hlinks.2 hfirst

/-- The compare callback succeeds and answers `true` exactly for the key that is carried. -/
def AnswersCarried [DecidableEq κ] (compare : CompareFunc π κ) (carried : π → κ × ℕ) : Prop :=
  ∀ p key keySize, compare p key keySize = (aOk, decide (carried p = (key, keySize)))

variable [DecidableEq κ]

omit [DecidableEq κ] in
/-- The chain of a bucket holds the nodes that were inserted under its keys. -/
theorem Represents.isList_bucket (hR : Represents table carried m log) (k : κ × ℕ) :
    IsList m.entries (bucketOf ν table k)
      (((log.filter fun e => bucketOf ν table e.2 = bucketOf ν table k).map Prod.fst).map
        HtPtr.node) := by
  have hlist := hR.lists.isList (bucketOf_mem table k)
  rwa [List.map_map]

/-- **A lookup reads off the multimap**: the oldest node under the key, or `A_E_NOTFOUND`. -/
theorem htFind_eq (hcmp : AnswersCarried table.compare carried)
    (hR : Represents table carried m log) {key : κ} {keySize : ℕ} (hsize : keySize ≠ 0)
    (hhash : afailed (table.hfunc key keySize).1 = false) (found : Option ν) {fuel : ℕ}
    (hfuel : log.length < fuel) :
    htFind table m key keySize found fuel =
      some (match earliest log (key, keySize) with
        | some n => (aOk, some n)
        | none => (aENotfound, none)) := by
  set bkt := bucketOf ν table (key, keySize) with hbkt
  set nodes := (log.filter fun e => bucketOf ν table e.2 = bkt).map Prod.fst with hnodes
  have hlist : IsList m.entries bkt (nodes.map HtPtr.node) := hR.isList_bucket (key, keySize)
  have hlen : nodes.length < fuel := by
    rw [hnodes, List.length_map]
    exact lt_of_le_of_lt (List.length_filter_le _ _) hfuel
  -- within the log, the key decides the bucket and the cached hash
  have hfind : (nodes.find? fun n => (table.hfunc key keySize).2 = m.hash n ∧
      table.decides m key keySize n) = earliest log (key, keySize) := by
    rw [hnodes, List.find?_map, List.find?_filter, earliest, ← List.head?_filter,
      ← List.head?_filter]
    congr 2
    apply List.filter_congr
    intro e he
    have hcarried := hcmp (m.container e.1) key keySize
    rw [hR.carries e he] at hcarried
    by_cases hk : e.2 = (key, keySize)
    · simp [HashTable.decides, hcarried, hR.hash e he, hk, hbkt]
    · simp [HashTable.decides, hcarried, hk]
  rw [htFind_of_isList hlist hsize hhash found hlen, hfind]
  cases earliest log (key, keySize) with
  | none => rfl
  | some n => simp [hcmp (m.container n) key keySize]

end Operations

/-! ## A table is empty after `ht_init` -/

section Init

variable [DecidableEq ν] {hfunc : HashFunc κ} {compare : CompareFunc π κ}
  {entries entries' : ListMem (HtPtr ν)} {nrBuckets : BitVec 64} {table : HashTable π κ}

theorem htInit_ok (hnr : nrBuckets ≠ 0) :
    htInit none entries nrBuckets (some hfunc) (some compare) true =
      (aOk, some ⟨nrBuckets, hfunc, compare, hnr⟩,
        (List.range nrBuckets.toNat).foldl (fun m i => listInit m (.bucket i)) entries) := by
  rw [htInit, dif_neg hnr]
  rfl

theorem isList_foldl_listInit (entries : ListMem (HtPtr ν)) (n : ℕ) :
    ∀ i < n, IsList ((List.range n).foldl (fun m i => listInit m (.bucket i)) entries)
      (.bucket i) [] := by
  induction n with
  | zero => simp
  | succ n ih =>
      intro i hi
      rw [List.range_succ, List.foldl_append]
      by_cases hin : i = n
      · rw [hin]
        exact isList_listInit _ _
      · obtain ⟨hn, hp⟩ := isRing_nil.1 (ih i (by omega))
        refine isRing_nil.2 ⟨?_, ?_⟩
        · simpa [listInit, setNext_next, setPrev_next, hin] using hn
        · simpa [listInit, setNext_prev, setPrev_prev, hin] using hp

theorem represents_htInit (carried : π → κ × ℕ) (hash : ν → BitVec 64) (container : ν → π)
    (hinit : htInit none entries nrBuckets (some hfunc) (some compare) true =
      (aOk, some table, entries')) :
    table.nrBuckets = nrBuckets ∧ table.hfunc = hfunc ∧ table.compare = compare ∧
      Represents table carried { entries := entries', hash := hash, container := container } [] := by
  have hnr : nrBuckets ≠ 0 := by
    rintro rfl
    simp [htInit] at hinit
  rw [htInit_ok hnr, Prod.mk.injEq, Prod.mk.injEq, Option.some.injEq] at hinit
  obtain ⟨-, rfl, rfl⟩ := hinit
  refine ⟨rfl, rfl, rfl, ⟨?_, ?_⟩, ?_, ?_, ?_⟩
  · rintro - ⟨i, hi, rfl⟩
    exact isList_foldl_listInit entries _ i hi
  · rintro - ⟨i, -, rfl⟩ - ⟨j, -, rfl⟩ hne
    simpa [chain] using Ne.symm hne
  · simp
  · simp
  · simp

end Init

/-! ## Histories of a table -/

/-- What can happen to a table and its nodes. -/
inductive HtCall (ν κ π : Type*) where
  | insert (key : κ) (keySize : ℕ) (n : ν)
  | delete (n : ν)
  /-- The client writes the structure around a node. -/
  | write (n : ν) (content : π)

/-- The memory, and the log of the insertions that succeeded and were not undone. -/
structure HtState (ν κ π : Type*) where
  mem : HtMem ν π
  log : Log ν κ

/-- One step of a history. Only nodes in no table are inserted, under the key they carry; only nodes
    in the table are deleted; a node in the table keeps its key. -/
def htStep [DecidableEq ν] [DecidableEq κ] (table : HashTable π κ) (carried : π → κ × ℕ)
    (s : HtState ν κ π) : HtCall ν κ π → Option (HtState ν κ π)
  | .insert key keySize n =>
      if n ∉ s.log.map Prod.fst ∧ carried (s.mem.container n) = (key, keySize) then
        match htInsert table s.mem key keySize (some n) with
        | (ret, mem) =>
          some { mem := mem
                 log := if afailed ret then s.log else s.log ++ [(n, key, keySize)] }
      else none
  | .delete n =>
      if n ∈ s.log.map Prod.fst then
        some { mem := (htDelete s.mem (some n)).2, log := s.log.filter fun e => e.1 ≠ n }
      else none
  | .write n content =>
      if n ∈ s.log.map Prod.fst → carried content = carried (s.mem.container n) then
        some { s with
          mem := { s.mem with container := Function.update s.mem.container n content } }
      else none

section Histories

variable [DecidableEq ν] [DecidableEq κ] {table : HashTable π κ} {carried : π → κ × ℕ}

theorem represents_htStep (s : HtState ν κ π) (call : HtCall ν κ π) (s' : HtState ν κ π)
    (hR : Represents table carried s.mem s.log) (hstep : htStep table carried s call = some s') :
    Represents table carried s'.mem s'.log := by
  cases call with
  | insert key keySize n =>
      simp only [htStep] at hstep
      split at hstep
      · rename_i hok
        obtain rfl := Option.some.inj hstep
        by_cases hsize : keySize = 0
        · simpa [htInsert, hsize, aEBadargs, afailed_aresultError] using hR
        · cases hhash : afailed (table.hfunc key keySize).1 with
          | false =>
              obtain ⟨hret, hR'⟩ := htInsert_spec hR hok.1 hok.2 hsize hhash
              simpa [hret, hhash] using hR'
          | true =>
              have hret : (htInsert table s.mem key keySize (some n)).1 =
                  (table.hfunc key keySize).1 := by
                simp [htInsert, hsize, htGetBucket_of_failed hhash]
              simpa [hret, hhash, htInsert_of_failed hhash] using hR
      · cases hstep
  | delete n =>
      simp only [htStep] at hstep
      split at hstep
      · rename_i hmem
        obtain rfl := Option.some.inj hstep
        obtain ⟨e, he, rfl⟩ := List.mem_map.1 hmem
        exact (htDelete_spec hR he).2
      · cases hstep
  | write n content =>
      simp only [htStep] at hstep
      split at hstep
      · rename_i hkeep
        obtain rfl := Option.some.inj hstep
        refine ⟨hR.lists, hR.nodup, hR.hash, ?_⟩
        intro e he
        by_cases hen : e.1 = n
        · have hmem : n ∈ s.log.map Prod.fst := hen ▸ List.mem_map_of_mem he
          have hcar := hR.carries e he
          rw [hen] at hcar
          simp only [hen, Function.update_self]
          exact (hkeep hmem).trans hcar
        · simpa [hen] using hR.carries e he
      · cases hstep

/-- **A hash table is an insertion-ordered multimap**: after any history from `ht_init` on, a lookup
    answers the oldest node still in the table under the key, or `A_E_NOTFOUND` with `*pfound`
    `NULL`, and it only ever indexes the buckets below `nr_buckets`. -/
theorem htFind_of_run {nrBuckets : BitVec 64} {hfunc : HashFunc κ} {compare : CompareFunc π κ}
    (hcmp : AnswersCarried compare carried) {entries entries' : ListMem (HtPtr ν)}
    (hinit : htInit none entries nrBuckets (some hfunc) (some compare) true =
      (aOk, some table, entries'))
    (hash : ν → BitVec 64) (container : ν → π) (calls : List (HtCall ν κ π))
    {s : HtState ν κ π}
    (hrun : exec (htStep table carried)
      { mem := { entries := entries', hash := hash, container := container }, log := [] } calls =
      some s)
    (key : κ) {keySize : ℕ} (hsize : keySize ≠ 0)
    (hhash : afailed (hfunc key keySize).1 = false) (found : Option ν) {fuel : ℕ}
    (hfuel : s.log.length < fuel) :
    htFind table s.mem key keySize found fuel =
        some (match earliest s.log (key, keySize) with
          | some n => (aOk, some n)
          | none => (aENotfound, none)) ∧
      ∃ i < nrBuckets.toNat, (htGetBucket ν table key keySize).2.1 = some (.bucket i) := by
  obtain ⟨rfl, rfl, rfl, hempty⟩ := represents_htInit carried hash container hinit
  have hR : Represents table carried s.mem s.log :=
    exec_invariant (I := fun s => Represents table carried s.mem s.log) represents_htStep hempty
      hrun
  refine ⟨htFind_eq hcmp hR hsize hhash found hfuel, _,
    offset_lt table (table.hfunc key keySize).2, ?_⟩
  rw [htGetBucket_of_hash hhash]
  rfl

end Histories

/-- A hash function under which all keys collide. -/
def collidingHash : HashFunc ℕ := fun _ _ => (aOk, 0)

/-- A table of three buckets for structures that are just their key. -/
def collidingTable : HashTable (ℕ × ℕ) ℕ where
  nrBuckets := 3
  hfunc := collidingHash
  compare := fun p key keySize => (aOk, decide (p = (key, keySize)))
  nrBuckets_ne := by decide

/-- That table after `ht_init`, over three nodes whose structures carry two keys. -/
def collidingStart : HtState ℕ ℕ (ℕ × ℕ) where
  mem :=
    { entries := (htInit none (fun a => ⟨a, a⟩) 3 (some collidingHash)
        (some collidingTable.compare) true).2.2
      hash := fun _ => 0
      container := fun n => if n = 3 then (6, 8) else (7, 8) }
  log := []

/-- Of two nodes under one key the older one is found until it is deleted. -/
theorem htFind_of_run_collisions :
    ∃ s : HtState ℕ ℕ (ℕ × ℕ), exec (htStep collidingTable id) collidingStart
        [.insert 6 8 3, .insert 7 8 1, .insert 7 8 2, .delete 1] = some s ∧
      htFind collidingTable s.mem 7 8 none 4 = some (aOk, some 2) := by
  obtain ⟨s, hrun, hlog⟩ : ∃ s, exec (htStep collidingTable id) collidingStart
      [.insert 6 8 3, .insert 7 8 1, .insert 7 8 2, .delete 1] = some s ∧
      s.log = [(3, 6, 8), (2, 7, 8)] := ⟨_, rfl, rfl⟩
  have hinit : htInit none (fun a => ⟨a, a⟩) 3 (some collidingHash) (some collidingTable.compare)
      true = (aOk, some collidingTable, collidingStart.mem.entries) := rfl
  have hfind := (htFind_of_run (fun _ _ _ => rfl) hinit _ _ _ hrun 7
    (show 8 ≠ 0 by decide) rfl none (show s.log.length < 4 by simp [hlog])).1
  rw [hlog] at hfind
  exact ⟨s, hrun, hfind⟩

end Tsl
