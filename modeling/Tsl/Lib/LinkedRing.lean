import Mathlib.Data.List.Chain
import Mathlib.Data.List.Nodup

set_option autoImplicit false

/-! # Doubly linked rings

A store gives every cell `a : α` a successor `next a` and a predecessor `prev a`. `IsRing next prev
h xs` says that following the successors from `h` runs through `xs` and returns to `h`, that the
predecessors run the same way back, and that no cell occurs twice.

A ring has no distinguished cell: `IsRing.rotate` makes any cell of it the first one. Inserting and
removing are therefore stated only just behind the first cell, with the link updates they need as
hypotheses; whatever cells an operation names, and whichever of them coincide, the ring can be
turned so that the rule applies.

`Rings` is a store with any number of disjoint rings; `Rings.update` is its frame rule. -/

namespace Tsl.Lib

variable {α : Type*}

/-- `b` follows `a` in the store. -/
def Linked (next prev : α → α) (a b : α) : Prop := next a = b ∧ prev b = a

/-- The cells `h :: xs` form one closed ring, in this order. -/
structure IsRing (next prev : α → α) (h : α) (xs : List α) : Prop where
  nodup : (h :: xs).Nodup
  linked : List.IsChain (Linked next prev) (h :: (xs ++ [h]))

section Rings

variable {next prev next' prev' : α → α} {h x d : α} {xs ys : List α}

/-- Any cell of a ring can be taken as its first. -/
theorem IsRing.rotate (hr : IsRing next prev h (xs ++ x :: ys)) :
    IsRing next prev x (ys ++ h :: xs) := by
  constructor
  · have hperm : (h :: (xs ++ x :: ys)).Perm (x :: (ys ++ h :: xs)) := by
      have : (h :: xs ++ x :: ys).Perm (x :: ys ++ h :: xs) := List.perm_append_comm
      simpa using this
    exact hperm.nodup_iff.1 hr.nodup
  · have hl := hr.linked
    rw [List.append_assoc, List.cons_append, List.isChain_cons_split] at hl
    rw [List.append_assoc, List.cons_append, List.isChain_cons_split]
    exact ⟨hl.2, hl.1⟩

/-- Links of other cells do not matter. -/
theorem IsRing.congr (hr : IsRing next prev h xs)
    (hn : ∀ a ∈ h :: xs, next' a = next a) (hp : ∀ a ∈ h :: xs, prev' a = prev a) :
    IsRing next' prev' h xs := by
  refine ⟨hr.nodup, hr.linked.imp_of_mem_imp ?_⟩
  have hmem : ∀ a ∈ h :: (xs ++ [h]), a ∈ h :: xs := by
    intro a ha
    simp only [List.mem_cons, List.mem_append, List.not_mem_nil, or_false] at ha ⊢
    tauto
  intro a b ha hb hab
  exact ⟨(hn a (hmem a ha)).trans hab.1, (hp b (hmem b hb)).trans hab.2⟩

theorem IsRing.next_first (hr : IsRing next prev h (x :: xs)) : next h = x ∧ prev x = h := by
  have hl := hr.linked
  rw [List.cons_append, List.isChain_cons_cons] at hl
  exact hl.1

/-- The successor of the cell the ring is seen from: the first of the others, if there are any. -/
theorem IsRing.next_eq_headD (hr : IsRing next prev h xs) : next h = xs.headD h := by
  cases xs with
  | nil =>
      have hl := hr.linked
      rw [List.nil_append, List.isChain_cons_cons] at hl
      exact hl.1.1
  | cons x xs => exact hr.next_first.1

/-- The successor of any other cell: the one behind it, or the first of all. -/
theorem IsRing.next_eq_headD_split (hr : IsRing next prev h (xs ++ x :: ys)) : next x = ys.headD h := by
  have hx := hr.rotate.next_eq_headD
  cases ys with
  | nil => exact hx
  | cons y ys => exact hx

theorem IsRing.prev_first (hr : IsRing next prev h (xs ++ [x])) : next x = h ∧ prev h = x :=
  hr.rotate.next_first

theorem IsRing.prev_eq_getLast (hr : IsRing next prev h xs) (hne : xs ≠ []) :
    prev h = xs.getLast hne := by
  cases xs using List.reverseRecOn with
  | nil => exact absurd rfl hne
  | append_singleton xs x _ => rw [List.getLast_append_singleton, hr.prev_first.2]

theorem ne_getLast_of_mem_dropLast {a : α} (hnd : xs.Nodup) (hne : xs ≠ []) (ha : a ∈ xs.dropLast) :
    a ≠ xs.getLast hne := by
  rintro rfl
  rw [← List.dropLast_append_getLast hne, List.nodup_append] at hnd
  exact hnd.2.2 _ ha _ (List.mem_singleton_self _) rfl

theorem isRing_nil : IsRing next prev h [] ↔ next h = h ∧ prev h = h := by
  constructor
  · intro hr
    simpa [Linked] using hr.linked
  · intro hl
    exact ⟨by simp, by simpa [Linked] using hl⟩

theorem IsRing.next_eq_iff (hr : IsRing next prev h xs) : next h = h ↔ xs = [] := by
  cases xs with
  | nil => simp [(isRing_nil.1 hr).1]
  | cons x xs =>
      have hne : x ≠ h := by
        have := hr.nodup
        simp only [List.nodup_cons, List.mem_cons, not_or] at this
        exact fun he => this.1.1 he.symm
      simp [hr.next_first.1, hne]

theorem IsRing.eq_singleton (hr : IsRing next prev h xs) (hx : x ∈ xs) (hne : next h = prev h) :
    xs = [x] := by
  cases xs using List.reverseRecOn with
  | nil => cases hx
  | append_singleton ys y _ =>
      cases ys with
      | nil =>
          rw [List.nil_append, List.mem_singleton] at hx
          rw [hx, List.nil_append]
      | cons z zs =>
          -- the first and the last cell are the same, which then is there twice
          have hfirst : next h = z := hr.next_first.1
          have hlast : prev h = y := hr.prev_first.2
          have hzy : z = y := hfirst.symm.trans (hne.trans hlast)
          have hnd := hr.nodup.of_cons
          rw [List.cons_append, List.nodup_cons] at hnd
          exact absurd (List.mem_append_right zs (List.mem_singleton.2 hzy)) hnd.1

theorem IsRing.next_eq_prev_iff (hr : IsRing next prev h xs) (hx : x ∈ xs) :
    next h = prev h ↔ ∀ y ∈ xs, y = x := by
  constructor
  · intro heq y hy
    rw [hr.eq_singleton hx heq] at hy
    exact List.mem_singleton.1 hy
  · intro hone
    have hsingle : xs = [x] :=
      List.perm_singleton.1 ((List.perm_ext_iff_of_nodup hr.nodup.of_cons
        (List.nodup_singleton x)).2 fun y =>
          ⟨fun hy => List.mem_singleton.2 (hone y hy), fun hy => List.mem_singleton.1 hy ▸ hx⟩)
    rw [hsingle] at hr
    have hlast : prev h = x := (IsRing.prev_first (show IsRing _ _ _ ([] ++ [x]) from hr)).2
    exact hr.next_first.1.trans hlast.symm

theorem chain_unique {a : α} (ha : List.IsChain (Linked next prev) (a :: (xs ++ [h]))) (hxs : h ∉ xs)
    (hb : List.IsChain (Linked next prev) (a :: (ys ++ [h]))) (hys : h ∉ ys) : xs = ys := by
  induction xs generalizing a ys with
  | nil =>
      rw [List.nil_append, List.isChain_pair] at ha
      cases ys with
      | nil => rfl
      | cons y ys =>
          rw [List.cons_append, List.isChain_cons_cons] at hb
          exact absurd (List.mem_cons.2 (.inl (ha.1.symm.trans hb.1.1))) hys
  | cons x xs ih =>
      rw [List.cons_append, List.isChain_cons_cons] at ha
      cases ys with
      | nil =>
          rw [List.nil_append, List.isChain_pair] at hb
          exact absurd (List.mem_cons.2 (.inl (hb.1.symm.trans ha.1.1))) hxs
      | cons y ys =>
          rw [List.cons_append, List.isChain_cons_cons] at hb
          obtain rfl : x = y := ha.1.1.symm.trans hb.1.1
          rw [ih ha.2 (fun hm => hxs (List.mem_cons_of_mem _ hm)) hb.2
            (fun hm => hys (List.mem_cons_of_mem _ hm))]

/-- The links determine the ring. -/
theorem IsRing.unique (hx : IsRing next prev h xs) (hy : IsRing next prev h ys) : xs = ys :=
  chain_unique hx.linked (List.nodup_cons.1 hx.nodup).1 hy.linked (List.nodup_cons.1 hy.nodup).1

/-- A chain from `y` to `z` only uses the successors before `z` and the predecessors after `y`. -/
theorem isChain_linked_congr {y z : α} {ys : List α}
    (hc : List.IsChain (Linked next prev) (y :: (ys ++ [z])))
    (hn : ∀ a ∈ y :: ys, next' a = next a) (hp : ∀ b ∈ ys ++ [z], prev' b = prev b) :
    List.IsChain (Linked next' prev') (y :: (ys ++ [z])) := by
  induction ys generalizing y with
  | nil =>
      simp only [List.nil_append, List.isChain_pair] at hc ⊢
      exact ⟨(hn y (by simp)).trans hc.1, (hp z (by simp)).trans hc.2⟩
  | cons w ws ih =>
      rw [List.cons_append, List.isChain_cons_cons] at hc ⊢
      refine ⟨⟨(hn y (by simp)).trans hc.1.1, (hp w (by simp)).trans hc.1.2⟩, ?_⟩
      exact ih hc.2 (fun a ha => hn a (List.mem_cons_of_mem _ ha))
        (fun b hb => hp b (List.mem_cons_of_mem _ hb))

/-- **Insertion** behind the first cell: four links change. -/
theorem IsRing.insert (hr : IsRing next prev h xs) (hx : x ∉ h :: xs)
    (hhx : next' h = x) (hxh : prev' x = h) (hxn : next' x = next h) (hnx : prev' (next h) = x)
    (hn : ∀ a, a ≠ h → a ≠ x → next' a = next a)
    (hp : ∀ a, a ≠ next h → a ≠ x → prev' a = prev a) :
    IsRing next' prev' h (x :: xs) := by
  have hnd := hr.nodup
  simp only [List.nodup_cons, List.mem_cons, not_or] at hx hnd
  refine ⟨by simp only [List.nodup_cons, List.mem_cons, not_or]; tauto, ?_⟩
  rw [List.cons_append, List.isChain_cons_cons]
  refine ⟨⟨hhx, hxh⟩, ?_⟩
  cases xs with
  | nil =>
      rw [(isRing_nil.1 hr).1] at hxn hnx
      simpa [Linked] using And.intro hxn hnx
  | cons y ys =>
      obtain ⟨hny, -⟩ := hr.next_first
      have hl := hr.linked
      rw [List.cons_append, List.isChain_cons_cons] at hl ⊢
      rw [hny] at hxn hnx hp
      simp only [List.nodup_cons, List.mem_cons, not_or] at hx hnd
      refine ⟨⟨hxn, hnx⟩, isChain_linked_congr hl.2 ?_ ?_⟩
      · intro a ha
        exact hn a (by rintro rfl; simp at ha; tauto) (by rintro rfl; simp at ha; tauto)
      · intro b hb
        exact hp b (by rintro rfl; simp at hb; tauto) (by rintro rfl; simp at hb; tauto)

/-- **Removal** of the cell behind the first: two links change. -/
theorem IsRing.remove (hr : IsRing next prev h (d :: xs))
    (hhd : next' h = next d) (hnd : prev' (next d) = h)
    (hn : ∀ a, a ≠ h → a ≠ d → next' a = next a)
    (hp : ∀ a, a ≠ next d → a ≠ d → prev' a = prev a) :
    IsRing next' prev' h xs := by
  have hnodup := hr.nodup
  simp only [List.nodup_cons, List.mem_cons, not_or] at hnodup
  refine ⟨by simp only [List.nodup_cons]; tauto, ?_⟩
  have hl := hr.linked
  rw [List.cons_append, List.isChain_cons_cons] at hl
  cases xs with
  | nil =>
      have hdh : next d = h := by simpa [Linked] using (List.isChain_pair.1 hl.2).1
      rw [hdh] at hhd hnd
      simpa [Linked] using And.intro hhd hnd
  | cons y ys =>
      have hl2 := hl.2
      rw [List.cons_append, List.isChain_cons_cons] at hl2 ⊢
      have hdy : next d = y := hl2.1.1
      rw [hdy] at hhd hnd hp
      simp only [List.nodup_cons, List.mem_cons, not_or] at hnodup
      refine ⟨⟨hhd, hnd⟩, isChain_linked_congr hl2.2 ?_ ?_⟩
      · intro a ha
        exact hn a (by rintro rfl; simp at ha; tauto) (by rintro rfl; simp at ha; tauto)
      · intro b hb
        exact hp b (by rintro rfl; simp at hb; tauto) (by rintro rfl; simp at hb; tauto)

theorem IsRing.segment (hr : IsRing next prev h xs) : List.IsChain (Linked next prev) xs := by
  have hl := hr.linked
  rw [← List.cons_append] at hl
  exact hl.left_of_append.tail

/-- Cells in a row only use the successors of all but the last, and the predecessors of all but the
first. -/
theorem segment_congr (hc : List.IsChain (Linked next prev) xs)
    (hn : ∀ a ∈ xs.dropLast, next' a = next a) (hp : ∀ b ∈ xs.tail, prev' b = prev b) :
    List.IsChain (Linked next' prev') xs := by
  cases xs with
  | nil => exact List.isChain_nil
  | cons x xs =>
      cases xs using List.reverseRecOn with
      | nil => exact List.isChain_singleton x
      | append_singleton xs y _ =>
          have hdrop : (x :: (xs ++ [y])).dropLast = x :: xs := by
            rw [← List.cons_append, List.dropLast_concat]
          rw [hdrop] at hn
          exact isChain_linked_congr hc hn hp

theorem IsRing.next_mem (hr : IsRing next prev h xs) : next h ∈ h :: xs := by
  cases xs with
  | nil => simp [(isRing_nil.1 hr).1]
  | cons x xs => simp [hr.next_first.1]

theorem IsRing.prev_mem (hr : IsRing next prev h xs) : prev h ∈ h :: xs := by
  cases xs using List.reverseRecOn with
  | nil => simp [(isRing_nil.1 hr).2]
  | append_singleton xs x _ => simp [hr.prev_first.2]

theorem IsRing.next_mem_of_mem {a : α} (hr : IsRing next prev h xs) (ha : a ∈ h :: xs) :
    next a ∈ h :: xs := by
  rcases List.mem_cons.1 ha with rfl | ha
  · exact hr.next_mem
  · obtain ⟨ps, qs, rfl⟩ := List.append_of_mem ha
    have hmem := hr.rotate.next_mem
    simp only [List.mem_cons, List.mem_append] at hmem ⊢
    tauto

theorem IsRing.next_mem_of_ne_nil (hr : IsRing next prev h xs) (hne : xs ≠ []) : next h ∈ xs := by
  obtain ⟨x, xs, rfl⟩ := List.exists_cons_of_ne_nil hne
  exact hr.next_first.1 ▸ List.mem_cons_self

theorem IsRing.prev_mem_of_ne_nil (hr : IsRing next prev h xs) (hne : xs ≠ []) : prev h ∈ xs :=
  hr.prev_eq_getLast hne ▸ List.getLast_mem hne

theorem IsRing.segment_frame (hr : IsRing next prev h xs)
    (hn : ∀ a ∈ xs, a ≠ prev h → next' a = next a) (hp : ∀ a ∈ xs, a ≠ next h → prev' a = prev a) :
    List.IsChain (Linked next' prev') xs := by
  cases xs with
  | nil => exact List.isChain_nil
  | cons x xs =>
      have hfirst : next h = x := hr.next_first.1
      have hlast : prev h = (x :: xs).getLast (List.cons_ne_nil x xs) := hr.prev_eq_getLast _
      refine segment_congr hr.segment (fun a ha => hn a (List.dropLast_subset _ ha) ?_)
        (fun a ha => hp a (List.mem_cons_of_mem _ ha) ?_)
      · rw [hlast]
        exact ne_getLast_of_mem_dropLast hr.nodup.of_cons _ ha
      · rintro rfl
        exact (List.nodup_cons.1 hr.nodup.of_cons).1 (hfirst ▸ ha)

/-- A chain that leads from the first cell to the last is a ring with a cell that closes it. -/
theorem isRing_of_isChain {t : α} (hnd : (t :: xs).Nodup) (hne : xs ≠ [])
    (hc : List.IsChain (Linked next prev) xs) (hfirst : Linked next prev t (xs.head hne))
    (hlast : Linked next prev (xs.getLast hne) t) : IsRing next prev t xs := by
  refine ⟨hnd, ?_⟩
  obtain ⟨x, xs, rfl⟩ := List.exists_cons_of_ne_nil hne
  rw [← List.cons_append]
  refine List.isChain_append.2 ⟨List.isChain_cons_cons.2 ⟨hfirst, hc⟩, List.isChain_singleton t,
    fun a ha b hb => ?_⟩
  rw [List.getLast?_cons_cons, List.getLast?_eq_getLast_of_ne_nil hne, Option.mem_def,
    Option.some.injEq] at ha
  rw [List.head?_cons, Option.mem_def, Option.some.injEq] at hb
  rw [← ha, ← hb]
  exact hlast

/-- **Splicing** two rings, each of which has cells besides the one it is seen from: the last of `xs`
is linked to the first of `ys`, and the ring is closed through `t`. -/
theorem IsRing.splice {k t : α} (hx : IsRing next prev h xs) (hy : IsRing next prev k ys)
    (hdisj : List.Disjoint xs ys) (ht : t ∉ xs ++ ys) (hxs : xs ≠ []) (hys : ys ≠ [])
    (hfirst : Linked next' prev' t (next h)) (hmid : Linked next' prev' (prev h) (next k))
    (hlast : Linked next' prev' (prev k) t)
    (hn : ∀ a, a ≠ t → a ≠ prev h → a ≠ prev k → next' a = next a)
    (hp : ∀ a, a ≠ t → a ≠ next h → a ≠ next k → prev' a = prev a) :
    IsRing next' prev' t (xs ++ ys) := by
  have hne : ∀ a ∈ xs ++ ys, a ≠ t := fun a ha he => ht (he ▸ ha)
  have hfar : ∀ a ∈ xs, ∀ b ∈ ys, a ≠ b := fun a ha b hb he => hdisj ha (he ▸ hb)
  -- each segment keeps its links, as only its end points are linked anew
  have hcx : List.IsChain (Linked next' prev') xs := by
    refine hx.segment_frame (fun a ha hend => ?_) (fun a ha hend => ?_)
    · exact hn a (hne a (List.mem_append_left _ ha)) hend (hfar a ha _ (hy.prev_mem_of_ne_nil hys))
    · exact hp a (hne a (List.mem_append_left _ ha)) hend (hfar a ha _ (hy.next_mem_of_ne_nil hys))
  have hcy : List.IsChain (Linked next' prev') ys := by
    refine hy.segment_frame (fun a ha hend => ?_) (fun a ha hend => ?_)
    · exact hn a (hne a (List.mem_append_right _ ha)) (hfar _ (hx.prev_mem_of_ne_nil hxs) a ha).symm hend
    · exact hp a (hne a (List.mem_append_right _ ha)) (hfar _ (hx.next_mem_of_ne_nil hxs) a ha).symm hend
  have hhead : xs.head hxs = next h := by
    obtain ⟨x, xs, rfl⟩ := List.exists_cons_of_ne_nil hxs
    exact hx.next_first.1.symm
  have hjoin : List.IsChain (Linked next' prev') (xs ++ ys) := by
    refine List.isChain_append.2 ⟨hcx, hcy, fun a ha b hb => ?_⟩
    obtain ⟨y, ys, rfl⟩ := List.exists_cons_of_ne_nil hys
    rw [List.getLast?_eq_getLast_of_ne_nil hxs, Option.mem_def, Option.some.injEq] at ha
    rw [List.head?_cons, Option.mem_def, Option.some.injEq] at hb
    rw [← ha, ← hb, ← hx.prev_eq_getLast hxs, ← hy.next_first.1]
    exact hmid
  have hnd : (xs ++ ys).Nodup := hx.nodup.of_cons.append hy.nodup.of_cons hdisj
  refine isRing_of_isChain (List.nodup_cons.2 ⟨ht, hnd⟩) (by simp [hxs]) hjoin ?_ ?_
  · rw [List.head_append_of_ne_nil hxs, hhead]
    exact hfirst
  · rw [List.getLast_append_of_ne_nil _ hys, ← hy.prev_eq_getLast hys]
    exact hlast

end Rings

/-! ## Several rings in one store -/

/-- Every cell of `heads` is the first cell of a ring through `seq h`, and no cell is in two. -/
structure Rings (next prev : α → α) (heads : Set α) (seq : α → List α) : Prop where
  ring : ∀ h ∈ heads, IsRing next prev h (seq h)
  disjoint : ∀ h ∈ heads, ∀ h' ∈ heads, h ≠ h' → List.Disjoint (h :: seq h) (h' :: seq h')

section SeveralRings

variable {next prev next' prev' : α → α} {heads : Set α} {seq : α → List α} {h : α} {xs : List α}

theorem Rings.mono {heads' : Set α} (hR : Rings next prev heads seq) (hsub : heads' ⊆ heads) :
    Rings next prev heads' seq :=
  ⟨fun h hh => hR.ring h (hsub hh), fun h hh h' hh' => hR.disjoint h (hsub hh) h' (hsub hh')⟩

/-- `a` is in none of the rings. -/
def Outside (heads : Set α) (seq : α → List α) (a : α) : Prop := ∀ h ∈ heads, a ∉ h :: seq h

/-- **Frame rule**: a change to one ring that leaves the links of all others alone. The new ring
may use cells of the old one and cells outside every ring. -/
theorem Rings.update [DecidableEq α] (hR : Rings next prev heads seq) (hh : h ∈ heads)
    (hring : IsRing next' prev' h xs)
    (hcells : ∀ a ∈ xs, a ∈ seq h ∨ Outside heads seq a)
    (hframe : ∀ h' ∈ heads, h' ≠ h → ∀ a ∈ h' :: seq h', next' a = next a ∧ prev' a = prev a) :
    Rings next' prev' heads (Function.update seq h xs) := by
  have hfresh : ∀ h' ∈ heads, h' ≠ h → List.Disjoint (h :: xs) (h' :: seq h') := by
    intro h' hh' hne a ha ha'
    rcases List.mem_cons.1 ha with rfl | ha
    · exact hR.disjoint a hh h' hh' hne.symm (by simp) ha'
    · rcases hcells a ha with hold | hout
      · exact hR.disjoint h hh h' hh' hne.symm (List.mem_cons_of_mem _ hold) ha'
      · exact hout h' hh' ha'
  constructor
  · intro h' hh'
    by_cases hne : h' = h
    · subst hne
      simpa using hring
    · rw [Function.update_of_ne hne]
      exact (hR.ring h' hh').congr (fun a ha => (hframe h' hh' hne a ha).1)
        (fun a ha => (hframe h' hh' hne a ha).2)
  · intro h₁ hh₁ h₂ hh₂ hne
    by_cases h1 : h₁ = h
    · subst h1
      rw [Function.update_self, Function.update_of_ne hne.symm]
      exact hfresh h₂ hh₂ hne.symm
    · by_cases h2 : h₂ = h
      · subst h2
        rw [Function.update_self, Function.update_of_ne hne]
        exact List.disjoint_symm (hfresh h₁ hh₁ hne)
      · rw [Function.update_of_ne h1, Function.update_of_ne h2]
        exact hR.disjoint h₁ hh₁ h₂ hh₂ hne

/-- A cell of one ring is in no other. -/
theorem Rings.eq_of_mem (hR : Rings next prev heads seq) {h₁ h₂ a : α} (hh₁ : h₁ ∈ heads)
    (hh₂ : h₂ ∈ heads) (h1 : a ∈ h₁ :: seq h₁) (h2 : a ∈ h₂ :: seq h₂) : h₁ = h₂ := by
  by_contra hne
  exact hR.disjoint h₁ hh₁ h₂ hh₂ hne h1 h2

end SeveralRings

section Numbered

variable {k n : ℕ}

/-- The numbers of the cells from one on. -/
theorem range'_eq_cons (hk : k < n) :
    List.range' k (n - k) = k :: List.range' (k + 1) (n - (k + 1)) :=
  List.range'_eq_cons_iff.2 ⟨rfl, Nat.sub_pos_of_lt hk, rfl⟩

/-- The numbers of all cells, split at one of them. -/
theorem range_eq_append_cons (hk : k < n) :
    List.range n = List.range' 0 k ++ k :: List.range' (k + 1) (n - (k + 1)) := by
  have happend : List.range' 0 k ++ List.range' (0 + k) (n - k) = List.range' 0 (k + (n - k)) :=
    List.range'_append_1
  rw [Nat.zero_add, Nat.add_sub_cancel' (Nat.le_of_lt hk)] at happend
  rw [List.range_eq_range', ← range'_eq_cons hk, happend]

end Numbered

end Tsl.Lib
