import Tsl.List

set_option autoImplicit false

/-! # Splicing lists

`list_splice` of `tsl/list.h` makes one list of two, on a head that may be one of the two. It samples
the first and the last entry of both lists and then writes six links.

The first entry of an empty list is its head, and so is the last. The code does not look for that, and
links the head of the empty list where an entry of the list should be: the result is the list it is
meant to be exactly if neither list is empty (`isList_listSplice_iff`). -/

namespace Tsl

open Lib

variable {α : Type*} [DecidableEq α]

/-- `__list_splice`. -/
def _listSplice (m : ListMem α) (targetHead firstPrev firstNext secondPrev secondNext : α) :
    ListMem α :=
  let m := m.setNext firstPrev secondNext
  let m := m.setPrev secondNext firstPrev
  -- the new head and tail
  let m := m.setNext secondPrev targetHead
  let m := m.setPrev firstNext targetHead
  let m := m.setPrev targetHead secondPrev
  m.setNext targetHead firstNext

/-- `list_splice`. -/
def listSplice (m : ListMem α) (target first second : α) : ListMem α :=
  _listSplice m target (m first).prev (m first).next (m second).prev (m second).next

section Links

variable (m : ListMem α) (target first second a : α)

/-- The links after `list_splice`; its last write to a field wins. -/
theorem listSplice_next :
    (listSplice m target first second a).next =
      if a = target then (m first).next
      else if a = (m second).prev then target
      else if a = (m first).prev then (m second).next else (m a).next := by
  simp only [listSplice, _listSplice, setNext_next, setPrev_next]

theorem listSplice_prev :
    (listSplice m target first second a).prev =
      if a = target then (m second).prev
      else if a = (m first).next then target
      else if a = (m second).next then (m first).prev else (m a).prev := by
  simp only [listSplice, _listSplice, setNext_prev, setPrev_prev]

end Links

section Splice

variable {m : ListMem α} {target first second : α} {xs ys : List α}

theorem isList_listSplice (hx : IsList m first xs) (hy : IsList m second ys)
    (hdisj : List.Disjoint (first :: xs) (second :: ys)) (ht : target ∉ xs ++ ys)
    (hxs : xs ≠ []) (hys : ys ≠ []) :
    IsList (listSplice m target first second) target (xs ++ ys) := by
  have hxy : List.Disjoint xs ys := fun a ha hb =>
    hdisj (List.mem_cons_of_mem _ ha) (List.mem_cons_of_mem _ hb)
  -- the four entries that are sampled
  have hfirst : (m first).next ∈ xs := hx.next_mem_of_ne_nil hxs
  have hflast : (m first).prev ∈ xs := hx.prev_mem_of_ne_nil hxs
  have hsecond : (m second).next ∈ ys := hy.next_mem_of_ne_nil hys
  have hslast : (m second).prev ∈ ys := hy.prev_mem_of_ne_nil hys
  have hnex : ∀ a ∈ xs, a ≠ target := fun a ha he => ht (List.mem_append_left _ (he ▸ ha))
  have hney : ∀ a ∈ ys, a ≠ target := fun a ha he => ht (List.mem_append_right _ (he ▸ ha))
  have hfar : ∀ a ∈ xs, ∀ b ∈ ys, a ≠ b := fun a ha b hb he => hxy ha (he ▸ hb)
  refine IsRing.splice hx hy hxy ht hxs hys ⟨?_, ?_⟩ ⟨?_, ?_⟩ ⟨?_, ?_⟩ ?_ ?_
  · simp [listSplice_next]
  · simp [listSplice_prev, hnex _ hfirst]
  · simp [listSplice_next, hnex _ hflast, hfar _ hflast _ hslast]
  · simp [listSplice_prev, hney _ hsecond, (hfar _ hfirst _ hsecond).symm]
  · simp [listSplice_next, hney _ hslast]
  · simp [listSplice_prev]
  · intro a hat hap has
    simp [listSplice_next, hat, show a ≠ (m first).prev from hap, show a ≠ (m second).prev from has]
  · intro a hat han has
    simp [listSplice_prev, hat, show a ≠ (m first).next from han, show a ≠ (m second).next from has]

/-- An empty first list leaves its head behind the target. -/
theorem not_isList_listSplice_nil (hx : IsList m first []) (hy : IsList m second ys)
    (hdisj : List.Disjoint [first] (second :: ys)) :
    ¬ IsList (listSplice m target first second) target ys := by
  intro h
  have hfirst : (m first).next = first := (isRing_nil.1 hx).1
  have hne : first ∉ second :: ys := hdisj List.mem_cons_self
  have hnext : first = ys.headD target := by
    have hhead := h.next_eq_headD
    simpa only [listSplice_next, if_true, hfirst] using hhead
  cases ys with
  | cons y ys => exact hne (List.mem_cons_of_mem _ (hnext ▸ List.mem_cons_self))
  | nil =>
      -- both are empty, and the head of the second one is where the last entry should be
      obtain rfl : first = target := hnext
      have hprev := (isRing_nil.1 h).2
      simp only [listSplice_prev, if_true] at hprev
      have hsecond : (m second).prev = second := (isRing_nil.1 hy).2
      exact hne (List.mem_cons.2 (.inl (hprev.symm.trans hsecond)))

theorem not_isList_listSplice_append_nil (hxs : xs ≠ []) (hy : IsList m second [])
    (hdisj : List.Disjoint (first :: xs) [second]) :
    ¬ IsList (listSplice m target first second) target xs := by
  intro h
  have hsecond : (m second).prev = second := (isRing_nil.1 hy).2
  have hprev := h.prev_mem_of_ne_nil hxs
  simp only [listSplice_prev, if_true, hsecond] at hprev
  exact hdisj (List.mem_cons_of_mem _ hprev) List.mem_cons_self

/-- **Splicing** gives one list with the entries of both exactly if both have entries, whether the
target is the head of the first, the head of the second or another. -/
theorem isList_listSplice_iff (hx : IsList m first xs) (hy : IsList m second ys)
    (hdisj : List.Disjoint (first :: xs) (second :: ys)) (ht : target ∉ xs ++ ys) :
    IsList (listSplice m target first second) target (xs ++ ys) ↔ xs ≠ [] ∧ ys ≠ [] := by
  constructor
  · intro h
    have hxs : xs ≠ [] := by
      rintro rfl
      exact not_isList_listSplice_nil hx hy hdisj h
    refine ⟨hxs, ?_⟩
    rintro rfl
    rw [List.append_nil] at h
    exact not_isList_listSplice_append_nil hxs hy hdisj h
  · rintro ⟨hxs, hys⟩
    exact isList_listSplice hx hy hdisj ht hxs hys

end Splice

/-- The entries 1 and 2 on the list of 0, and the entry 11 on the list of 10. -/
def twoLists : ListMem ℕ := fun a =>
  match a with
  | 0 => ⟨2, 1⟩
  | 1 => ⟨0, 2⟩
  | 2 => ⟨1, 0⟩
  | 10 => ⟨11, 11⟩
  | 11 => ⟨10, 10⟩
  | _ => ⟨a, a⟩

theorem isList_listSplice_twoLists :
    IsList (listSplice twoLists 0 0 10) 0 ([1, 2] ++ [11]) := by
  have hx : IsList twoLists 0 [1, 2] := ⟨by decide, by simp [Linked, twoLists]⟩
  have hy : IsList twoLists 10 [11] := ⟨by decide, by simp [Linked, twoLists]⟩
  exact (isList_listSplice_iff hx hy (by simp) (by decide)).2 ⟨by decide, by decide⟩

/-- The list of 5 is empty. It gets the entries of the list of 10, and is empty. -/
theorem listSplice_loses_second :
    IsList twoLists 5 [] ∧ IsList twoLists 10 [11] ∧ List.Disjoint [5] [10, 11] ∧
      listEmpty (listSplice twoLists 5 5 10) 5 = true ∧
      ¬ IsList (listSplice twoLists 5 5 10) 5 ([] ++ [11]) := by
  have hx : IsList twoLists 5 [] := isRing_nil.2 ⟨rfl, rfl⟩
  have hy : IsList twoLists 10 [11] := ⟨by decide, by simp [Linked, twoLists]⟩
  have hempty : listEmpty (listSplice twoLists 5 5 10) 5 = true := by decide
  refine ⟨hx, hy, by simp, hempty, fun h => ?_⟩
  have hnil := (listEmpty_iff h).1 hempty
  cases hnil

end Tsl
