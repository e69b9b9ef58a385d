import Tsl.HashTable

set_option autoImplicit false

/-! # Lookups whose comparison fails

A compare callback may fail. `ht_find` then leaves its loop, but behind the loop it stores
`A_E_NOTFOUND` over what the callback returned: a failure and a missing key look the same, also where
the key is further down the chain. The callback is reported exactly if it does not fail before a match
(`reportsCompare_iff`). -/

namespace Tsl

open Lib

variable {ν κ π : Type*} [DecidableEq ν]

/-- The nodes that a lookup compares with the key, in the order of the chain `nodes` of the bucket:
those with the hash of the key, if it can be hashed. -/
def candidates (table : HashTable π κ) (m : HtMem ν π) (key : κ) (keySize : ℕ) (nodes : List ν) :
    List ν :=
  if keySize = 0 ∨ afailed (table.hfunc key keySize).1 = true then []
  else nodes.filter fun n => (table.hfunc key keySize).2 = m.hash n

/-- The first candidate for which the comparison fails or matches. -/
def firstDecided (table : HashTable π κ) (m : HtMem ν π) (key : κ) (keySize : ℕ) (nodes : List ν) :
    Option ν :=
  (candidates table m key keySize nodes).find? (table.decides m key keySize)

/-- A lookup reports the comparisons: a failure before a match is what it returns, and if it returns
`A_E_NOTFOUND` all candidates were compared, and none matched. -/
structure ReportsCompare (table : HashTable π κ) (m : HtMem ν π) (key : κ) (keySize : ℕ)
    (nodes : List ν) (r : AResult × Option ν) : Prop where
  failure : ∀ n, firstDecided table m key keySize nodes = some n →
    afailed (table.compare (m.container n) key keySize).1 = true →
    r.1 = (table.compare (m.container n) key keySize).1
  notFound : r.1 = aENotfound → ∀ n ∈ candidates table m key keySize nodes,
    afailed (table.compare (m.container n) key keySize).1 = false ∧
      (table.compare (m.container n) key keySize).2 = false

/-- No comparison fails before a match. -/
def NoFailureFirst (table : HashTable π κ) (m : HtMem ν π) (key : κ) (keySize : ℕ) (nodes : List ν) :
    Prop :=
  ∀ n, firstDecided table m key keySize nodes = some n →
    afailed (table.compare (m.container n) key keySize).1 = false

section Lookup

variable {table : HashTable π κ} {m : HtMem ν π} {key : κ} {keySize : ℕ} {nodes : List ν}
  {r : AResult × Option ν}

omit [DecidableEq ν] in
theorem decides_eq_false_iff {n : ν} : table.decides m key keySize n = false ↔
    afailed (table.compare (m.container n) key keySize).1 = false ∧
      (table.compare (m.container n) key keySize).2 = false := by
  rw [HashTable.decides, Bool.or_eq_false_iff]

omit [DecidableEq ν] in
/-- Where every comparison is a success without a match, there is no failure to report. -/
theorem reportsCompare_of_none (hnone : firstDecided table m key keySize nodes = none) :
    ReportsCompare table m key keySize nodes r ∧ NoFailureFirst table m key keySize nodes := by
  have hall := List.find?_eq_none.1 hnone
  refine ⟨⟨fun n hn => ?_, fun _ n hn => ?_⟩, fun n hn => ?_⟩
  · rw [hnone] at hn
    cases hn
  · exact decides_eq_false_iff.1 (by simpa using hall n hn)
  · rw [hnone] at hn
    cases hn

omit [DecidableEq ν] in
theorem firstDecided_of_nil (hnil : candidates table m key keySize nodes = []) :
    firstDecided table m key keySize nodes = none := by
  rw [firstDecided, hnil, List.find?_nil]

omit [DecidableEq ν] in
theorem noFailureFirst_iff {n : ν} (hfirst : firstDecided table m key keySize nodes = some n) :
    NoFailureFirst table m key keySize nodes ↔
      afailed (table.compare (m.container n) key keySize).1 = false := by
  refine ⟨fun h => h n hfirst, fun hok c hc => ?_⟩
  obtain rfl := Option.some.inj (hfirst.symm.trans hc)
  exact hok

omit [DecidableEq ν] in
theorem not_reportsCompare_of_failed {n : ν} {found : Option ν}
    (hfirst : firstDecided table m key keySize nodes = some n) :
    ¬ ReportsCompare table m key keySize nodes (aENotfound, found) := by
  intro h
  have hdecides := List.find?_some hfirst
  have hnot := decides_eq_false_iff.2 (h.notFound rfl n (List.mem_of_find?_eq_some hfirst))
  rw [hdecides] at hnot
  cases hnot

omit [DecidableEq ν] in
theorem reportsCompare_of_match {n : ν} {found : Option ν}
    (hfirst : firstDecided table m key keySize nodes = some n)
    (hok : afailed (table.compare (m.container n) key keySize).1 = false) :
    ReportsCompare table m key keySize nodes
      ((table.compare (m.container n) key keySize).1, found) := by
  refine ⟨fun c hc hfail => ?_, fun hret => ?_⟩
  · obtain rfl := Option.some.inj (hfirst.symm.trans hc)
    exact absurd hfail (by simp [hok])
  · have hnot : afailed aENotfound = false := by
      rw [← hret]
      exact hok
    cases hnot

theorem htFind_firstDecided
    (hlist : IsList m.entries (bucketOf ν table (key, keySize)) (nodes.map HtPtr.node))
    (hsize : keySize ≠ 0) (hhash : afailed (table.hfunc key keySize).1 = false) (found : Option ν)
    {fuel : ℕ} (hfuel : nodes.length < fuel) :
    htFind table m key keySize found fuel =
      some (match firstDecided table m key keySize nodes with
        | some n =>
            if afailed (table.compare (m.container n) key keySize).1 then (aENotfound, none)
            else ((table.compare (m.container n) key keySize).1, some n)
        | none => (aENotfound, none)) := by
  have hcandidates : candidates table m key keySize nodes =
      nodes.filter fun n => (table.hfunc key keySize).2 = m.hash n :=
    if_neg (by simp [hsize, hhash])
  have hfind : firstDecided table m key keySize nodes =
      nodes.find? fun n => (table.hfunc key keySize).2 = m.hash n ∧
        table.decides m key keySize n := by
    rw [firstDecided, hcandidates, List.find?_filter]
    congr 1
    funext n
    simp
  rw [hfind]
  exact htFind_of_isList hlist hsize hhash found hfuel

/-- **A lookup reports the comparisons** exactly if none of them fails before a match. -/
theorem reportsCompare_iff
    (hlist : IsList m.entries (bucketOf ν table (key, keySize)) (nodes.map HtPtr.node))
    (found : Option ν) {fuel : ℕ} (hfuel : nodes.length < fuel) :
    (∃ r, htFind table m key keySize found fuel = some r ∧
        ReportsCompare table m key keySize nodes r) ↔
      NoFailureFirst table m key keySize nodes := by
  by_cases hsize : keySize = 0
  · have hnil : candidates table m key keySize nodes = [] := if_pos (.inl hsize)
    have hnone := firstDecided_of_nil hnil
    exact iff_of_true ⟨_, if_pos hsize, (reportsCompare_of_none hnone).1⟩
      (reportsCompare_of_none (r := (aOk, none)) hnone).2
  cases hhash : afailed (table.hfunc key keySize).1 with
  | true =>
      have hnil : candidates table m key keySize nodes = [] := if_pos (.inr hhash)
      have hnone := firstDecided_of_nil hnil
      refine iff_of_true ⟨((table.hfunc key keySize).1, none), ?_, (reportsCompare_of_none hnone).1⟩
        (reportsCompare_of_none (r := (aOk, none)) hnone).2
      rw [htFind, if_neg hsize, htGetBucket_of_failed hhash]
  | false =>
      rw [htFind_firstDecided hlist hsize hhash found hfuel]
      simp only [Option.some.injEq, exists_eq_left']
      cases hfirst : firstDecided table m key keySize nodes with
      | none =>
          exact iff_of_true (reportsCompare_of_none hfirst).1
            (reportsCompare_of_none (r := (aOk, none)) hfirst).2
      | some n =>
          rw [noFailureFirst_iff hfirst]
          cases hfailed : afailed (table.compare (m.container n) key keySize).1 with
          | true =>
              simp only [hfailed, if_true]
              exact iff_of_false (not_reportsCompare_of_failed hfirst) (by simp)
          | false =>
              simp only [hfailed, Bool.false_eq_true, if_false]
              exact iff_of_true (reportsCompare_of_match hfirst hfailed) trivial

end Lookup

/-- `collidingTable`, with a callback that fails on the structures of the key 6. -/
def failingTable : HashTable (ℕ × ℕ) ℕ :=
  { collidingTable with
    compare := fun p key keySize =>
      if p.1 = 6 then (aEInval, false) else (aOk, decide (p = (key, keySize))) }

/-- The node 3 under the key 6, and behind it the node 1 under the key 7. -/
def twoNodes : Option (HtState ℕ ℕ (ℕ × ℕ)) :=
  exec (htStep collidingTable id) collidingStart [.insert 6 8 3, .insert 7 8 1]

/-- Where no comparison fails, the node is found. -/
theorem reportsCompare_iff_twoNodes :
    ∃ s, twoNodes = some s ∧ ∃ r, htFind collidingTable s.mem 7 8 none 3 = some r ∧
      ReportsCompare collidingTable s.mem 7 8 [3, 1] r := by
  obtain ⟨s, hrun, hlog⟩ : ∃ s, twoNodes = some s ∧ s.log = [(3, 6, 8), (1, 7, 8)] := ⟨_, rfl, rfl⟩
  have hempty : htInit none (fun a => ⟨a, a⟩) 3 (some collidingHash) (some collidingTable.compare)
      true = (aOk, some collidingTable, collidingStart.mem.entries) := rfl
  have hinit : Represents collidingTable id collidingStart.mem collidingStart.log :=
    (represents_htInit id _ _ hempty).2.2.2
  have hR : Represents collidingTable id s.mem s.log :=
    exec_invariant (I := fun s => Represents collidingTable id s.mem s.log) represents_htStep hinit
      hrun
  have hlist := hR.isList_bucket (7, 8)
  rw [hlog] at hlist
  exact ⟨s, hrun, (reportsCompare_iff hlist none (by decide)).2 fun n _ => afailed_aOk⟩

/-- The comparison with the node 3 fails, and the key 7 is reported missing; it is in the table. -/
theorem failedCompare_reads_missing :
    ∃ s, twoNodes = some s ∧ htFind failingTable s.mem 7 8 none 3 = some (aENotfound, none) ∧
      failingTable.compare (s.mem.container 3) 7 8 = (aEInval, false) ∧
      failingTable.compare (s.mem.container 1) 7 8 = (aOk, true) ∧
      ¬ ReportsCompare failingTable s.mem 7 8 [3, 1] (aENotfound, none) := by
  refine ⟨_, rfl, rfl, rfl, rfl, fun h => ?_⟩
  have hfailed := (h.notFound rfl 3 (by decide)).1
  cases hfailed

end Tsl
