import Mathlib.Data.List.Basic
import Mathlib.Logic.Function.Basic
import Tsl.Lib.LinkedRing

set_option autoImplicit false

/-! # Intrusive linked lists

`tsl/list.h`: circular doubly linked lists whose links are embedded in the listed structures. A
list head is a `struct list_entry` like any other; an empty list is a head linked to itself.

The address space `α` is a parameter. What the code does to a list is a few writes to
`ListMem α`, done in the order of the source so that aliasing (an empty list, the neighbour that
is the head) is what it is there. `IsList m head xs` says which entries, in which order, are on the
list of `head`; every operation is specified by what it does to `xs`, for one list and for any
number of disjoint lists (`Lists`). -/

namespace Tsl

open Lib

/-- An address space in which the two poison values of `list_del` can be stored. -/
class ListPtr (α : Type*) where
  /-- `LIST_POISON_NEXT`. -/
  poisonNext : α
  /-- `LIST_POISON_PREV`. -/
  poisonPrev : α

/-- `struct list_entry`. -/
structure ListEntry (α : Type*) where
  prev : α
  next : α

/-- The list entries of a program, by address. -/
abbrev ListMem (α : Type*) := α → ListEntry α

variable {α : Type*}

theorem ListEntry.eq_of_links {e f : ListEntry α} (hp : e.prev = f.prev) (hn : e.next = f.next) :
    e = f := by
  cases e
  cases f
  simp_all

variable [DecidableEq α]

namespace ListMem

/-- `a->next = v`. -/
def setNext (m : ListMem α) (a v : α) : ListMem α :=
  Function.update m a { m a with next := v }

/-- `a->prev = v`. -/
def setPrev (m : ListMem α) (a v : α) : ListMem α :=
  Function.update m a { m a with prev := v }

end ListMem

/-- `list_init`. -/
def listInit (m : ListMem α) (new : α) : ListMem α := (m.setPrev new new).setNext new new

/-- `__list_add`. -/
def _listAdd (m : ListMem α) (new prev next : α) : ListMem α :=
  (((m.setNext prev new).setPrev new prev).setPrev next new).setNext new next

/-- `list_insert_at`. -/
def listInsertAt (m : ListMem α) (pos new : α) : ListMem α := _listAdd m new pos (m pos).next

/-- `list_append`. -/
def listAppend (m : ListMem α) (head new : α) : ListMem α := _listAdd m new (m head).prev head

/-- `list_prepend`. -/
def listPrepend (m : ListMem α) (head new : α) : ListMem α := _listAdd m new head (m head).next

/-- `__list_del`. -/
def _listDel (m : ListMem α) (prev next : α) : ListMem α := (m.setNext prev next).setPrev next prev

/-- `list_del`. -/
def listDel [ListPtr α] (m : ListMem α) (del : α) : ListMem α :=
  ((_listDel m (m del).prev (m del).next).setNext del ListPtr.poisonNext).setPrev del
    ListPtr.poisonPrev

/-- `list_empty`. -/
def listEmpty (m : ListMem α) (head : α) : Bool := (m head).next = head

/-- `list_is_last`. -/
def listIsLast (m : ListMem α) (head item : α) : Bool := (m item).next = head

/-! ## One field of one entry at a time -/

section Fields

variable (m : ListMem α) (a v b : α)

theorem setNext_next : (m.setNext a v b).next = if b = a then v else (m b).next := by
  unfold ListMem.setNext
  split <;> simp_all

theorem setNext_prev : (m.setNext a v b).prev = (m b).prev := by
  unfold ListMem.setNext
  by_cases hb : b = a <;> simp_all

theorem setPrev_prev : (m.setPrev a v b).prev = if b = a then v else (m b).prev := by
  unfold ListMem.setPrev
  split <;> simp_all

theorem setPrev_next : (m.setPrev a v b).next = (m b).next := by
  unfold ListMem.setPrev
  by_cases hb : b = a <;> simp_all

/-- The links after `__list_add`; its last write to a field wins. -/
theorem _listAdd_next (new prev next : α) :
    (_listAdd m new prev next b).next =
      if b = new then next else if b = prev then new else (m b).next := by
  simp only [_listAdd, setNext_next, setPrev_next]

theorem _listAdd_prev (new prev next : α) :
    (_listAdd m new prev next b).prev =
      if b = next then new else if b = new then prev else (m b).prev := by
  simp only [_listAdd, setNext_prev, setPrev_prev]

theorem listDel_next [ListPtr α] (del : α) :
    (listDel m del b).next =
      if b = del then ListPtr.poisonNext
      else if b = (m del).prev then (m del).next else (m b).next := by
  simp only [listDel, _listDel, setNext_next, setPrev_next]

theorem listDel_prev [ListPtr α] (del : α) :
    (listDel m del b).prev =
      if b = del then ListPtr.poisonPrev
      else if b = (m del).next then (m del).prev else (m b).prev := by
  simp only [listDel, _listDel, setNext_prev, setPrev_prev]

end Fields

/-! ## One list -/

/-- The entries `xs`, in this order, are on the list of `head`. -/
def IsList (m : ListMem α) (head : α) (xs : List α) : Prop :=
  IsRing (fun a => (m a).next) (fun a => (m a).prev) head xs

section OneList

variable {m m' : ListMem α} {head new : α} {xs ys : List α}

omit [DecidableEq α] in
/-- Other entries do not matter. -/
theorem IsList.congr (h : IsList m head xs) (hm : ∀ a ∈ head :: xs, m' a = m a) :
    IsList m' head xs :=
  IsRing.congr h (fun a ha => by rw [hm a ha]) (fun a ha => by rw [hm a ha])

omit [DecidableEq α] in
theorem IsList.next_of_first (h : IsList m head (new :: xs)) : (m new).next = xs.headD head := by
  have hfirst : IsList m head ([] ++ new :: xs) := h
  exact hfirst.next_eq_headD_split

theorem isList_listInit (m : ListMem α) (head : α) : IsList (listInit m head) head [] := by
  refine isRing_nil.2 ⟨?_, ?_⟩
  · simp [listInit, setNext_next]
  · simp [listInit, setNext_prev, setPrev_prev]

theorem listEmpty_iff (h : IsList m head xs) : listEmpty m head = true ↔ xs = [] := by
  simpa [listEmpty] using h.next_eq_iff

/-- `__list_add` behind the first entry of a ring. -/
theorem isList_listAdd (h : IsList m head xs) (hx : new ∉ head :: xs) :
    IsList (_listAdd m new head (m head).next) head (new :: xs) := by
  have hne : new ≠ head := fun he => hx (by simp [he])
  have hnext : new ≠ (m head).next := by
    intro he
    exact hx (he ▸ h.next_mem)
  refine IsRing.insert h hx ?_ ?_ ?_ ?_ ?_ ?_
  · simp [_listAdd_next, hne.symm]
  · simp [_listAdd_prev, hnext]
  · simp [_listAdd_next]
  · simp [_listAdd_prev]
  · intro a ha hax
    simp [_listAdd_next, ha, hax]
  · intro a ha hax
    simp [_listAdd_prev, show a ≠ (m head).next from ha, hax]

theorem isList_listPrepend (h : IsList m head xs) (hx : new ∉ head :: xs) :
    IsList (listPrepend m head new) head (new :: xs) :=
  isList_listAdd h hx

/-- Appending is inserting behind the last entry, which is the head when the list is empty. -/
theorem isList_listAppend (h : IsList m head xs) (hx : new ∉ head :: xs) :
    IsList (listAppend m head new) head (xs ++ [new]) := by
  cases xs using List.reverseRecOn with
  | nil =>
      obtain ⟨hn, hp⟩ := isRing_nil.1 h
      have := isList_listAdd h hx
      rw [show (m head).next = head from hn] at this
      rw [listAppend, show (m head).prev = head from hp]
      exact this
  | append_singleton xs last _ =>
      obtain ⟨hn, hp⟩ := h.prev_first
      have hlast : IsList m last (head :: xs) := by simpa [IsList] using h.rotate
      have hmem : new ∉ last :: head :: xs := by
        simp only [List.mem_cons, List.mem_append, List.not_mem_nil, or_false, not_or] at hx ⊢
        tauto
      have hins := isList_listAdd hlast hmem
      rw [show (m last).next = head from hn] at hins
      have hrot : IsList (_listAdd m new last head) head (xs ++ last :: [new]) :=
        IsRing.rotate (show IsRing _ _ last ([new] ++ head :: xs) from hins)
      rw [listAppend, show (m head).prev = last from hp, List.append_assoc]
      exact hrot

theorem isList_listInsertAt {pos : α} (h : IsList m head (xs ++ pos :: ys))
    (hx : new ∉ head :: (xs ++ pos :: ys)) :
    IsList (listInsertAt m pos new) head (xs ++ pos :: new :: ys) := by
  have hrot : IsList m pos (ys ++ head :: xs) := IsRing.rotate h
  have hmem : new ∉ pos :: (ys ++ head :: xs) := by
    simp only [List.mem_cons, List.mem_append, not_or] at hx ⊢
    tauto
  have hins : IsList (listInsertAt m pos new) pos ((new :: ys) ++ head :: xs) :=
    isList_listAdd hrot hmem
  exact IsRing.rotate hins

theorem listIsLast_iff {item : α} (h : IsList m head xs) (hx : item ∈ xs) :
    listIsLast m head item = true ↔ xs.getLast? = some item := by
  obtain ⟨ps, qs, rfl⟩ := List.append_of_mem hx
  have hnext : (m item).next = qs.headD head := h.next_eq_headD_split
  rw [listIsLast, decide_eq_true_eq, hnext, List.getLast?_append, List.getLast?_cons,
    Option.some_or, Option.some.injEq]
  have hnd := h.nodup
  cases qs with
  | nil => simp
  | cons q qs =>
      simp only [List.nodup_cons, List.mem_append, List.mem_cons, not_or, List.nodup_append] at hnd
      refine iff_of_false (fun he => hnd.1.2.2.1 he.symm) fun he => ?_
      have hlast : item ∈ q :: qs := by
        rw [← he, List.getLast?_eq_getLast_of_ne_nil (List.cons_ne_nil q qs), Option.getD_some]
        exact List.getLast_mem _
      rcases List.mem_cons.1 hlast with heq | hmem
      · exact hnd.2.2.1.1.1 heq
      · exact hnd.2.2.1.1.2 hmem

theorem isList_listDel_first [ListPtr α] (h : IsList m head (new :: xs)) :
    IsList (listDel m new) head xs := by
  have hnd := h.nodup
  simp only [List.nodup_cons, List.mem_cons, not_or] at hnd
  obtain ⟨hn, hp⟩ := h.next_first
  have hp' : (m new).prev = head := hp
  have hne : head ≠ new := hnd.1.1
  have hnn : (m new).next ≠ new := by
    have hrot : IsRing _ _ new (xs ++ [head]) :=
      IsRing.rotate (show IsRing _ _ head ([] ++ new :: xs) from h)
    intro he
    have := hrot.next_eq_iff.1 he
    simp at this
  refine IsRing.remove h ?_ ?_ ?_ ?_
  · simp [listDel_next, hp', hne]
  · simp [listDel_prev, hp', hnn]
  · intro a ha had
    simp [listDel_next, hp', ha, had]
  · intro a ha had
    simp [listDel_prev, show a ≠ (m new).next from ha, had]

/-- `list_del` removes its entry, wherever in the list it is, and keeps the order of the others. -/
theorem isList_listDel [ListPtr α] {d : α} (h : IsList m head (xs ++ d :: ys)) :
    IsList (listDel m d) head (xs ++ ys) := by
  cases xs using List.reverseRecOn with
  | nil => exact isList_listDel_first h
  | append_singleton xs p _ =>
      have hrot : IsList m p (d :: (ys ++ head :: xs)) := by
        have : IsRing _ _ p ((d :: ys) ++ head :: xs) :=
          IsRing.rotate (by simpa [IsList] using h)
        simpa [IsList] using this
      have hdel := isList_listDel_first hrot
      have hback : IsList (listDel m d) head (xs ++ p :: ys) := IsRing.rotate hdel
      simpa using hback

theorem listAppend_frame (h : IsList m head xs) {a : α} (hne : a ≠ new) (ha : a ∉ head :: xs) :
    listAppend m head new a = m a := by
  have hhead : a ≠ head := fun he => ha (by simp [he])
  have hprev : a ≠ (m head).prev := fun he => ha (he ▸ h.prev_mem)
  apply ListEntry.eq_of_links
  · simp [listAppend, _listAdd_prev, hne, hhead]
  · simp [listAppend, _listAdd_next, hne, hprev]

theorem listPrepend_frame (h : IsList m head xs) {a : α} (hne : a ≠ new) (ha : a ∉ head :: xs) :
    listPrepend m head new a = m a := by
  have hhead : a ≠ head := fun he => ha (by simp [he])
  have hnext : a ≠ (m head).next := fun he => ha (he ▸ h.next_mem)
  apply ListEntry.eq_of_links
  · simp [listPrepend, _listAdd_prev, hne, hnext]
  · simp [listPrepend, _listAdd_next, hne, hhead]

theorem listInsertAt_frame {pos : α} (h : IsList m head xs) (hpos : pos ∈ head :: xs) {a : α}
    (hne : a ≠ new) (ha : a ∉ head :: xs) : listInsertAt m pos new a = m a := by
  have hat : a ≠ pos := fun he => ha (he ▸ hpos)
  have hnext : a ≠ (m pos).next := fun he => ha (he ▸ h.next_mem_of_mem hpos)
  apply ListEntry.eq_of_links
  · simp [listInsertAt, _listAdd_prev, hne, hnext]
  · simp [listInsertAt, _listAdd_next, hne, hat]

theorem listDel_frame [ListPtr α] {d : α} (h : IsList m head xs) (hd : d ∈ xs) {a : α}
    (ha : a ∉ head :: xs) : listDel m d a = m a := by
  obtain ⟨ps, qs, rfl⟩ := List.append_of_mem hd
  have hrot : IsRing _ _ d (qs ++ head :: ps) := IsRing.rotate h
  have hcells : ∀ b ∈ d :: (qs ++ head :: ps), a ≠ b := by
    rintro b hb rfl
    apply ha
    simp only [List.mem_cons, List.mem_append] at hb ⊢
    tauto
  have hne : a ≠ d := hcells d (by simp)
  have hprev : a ≠ (m d).prev := hcells _ hrot.prev_mem
  have hnext : a ≠ (m d).next := hcells _ hrot.next_mem
  apply ListEntry.eq_of_links
  · simp [listDel_prev, hne, hnext]
  · simp [listDel_next, hne, hprev]

end OneList

/-! ## Any number of disjoint lists -/

/-- Every entry of `heads` heads the list `seq head`, and the lists share no entry. -/
def Lists (m : ListMem α) (heads : Set α) (seq : α → List α) : Prop :=
  Rings (fun a => (m a).next) (fun a => (m a).prev) heads seq

section ManyLists

variable {m : ListMem α} {heads : Set α} {seq : α → List α} {head new : α}

omit [DecidableEq α] in
theorem Lists.isList (h : Lists m heads seq) (hh : head ∈ heads) : IsList m head (seq head) :=
  h.ring head hh

omit [DecidableEq α] in
theorem Lists.congr {m' : ListMem α} (h : Lists m heads seq)
    (hm : ∀ a, ¬ Outside heads seq a → m' a = m a) : Lists m' heads seq := by
  refine ⟨fun hd hh => ?_, h.disjoint⟩
  exact (h.isList hh).congr fun a ha => hm a fun hout => hout hd hh ha

theorem listInit_frame {a : α} (hne : a ≠ new) : listInit m new a = m a := by
  apply ListEntry.eq_of_links
  · simp [listInit, setNext_prev, setPrev_prev, hne]
  · simp [listInit, setNext_next, setPrev_next, hne]

theorem lists_listInit (h : Lists m heads seq) (hnew : Outside heads seq new) :
    Lists (listInit m new) heads seq :=
  h.congr fun _ ha => listInit_frame fun he => ha (he ▸ hnew)

theorem lists_listInit_head (new : α) (h : Lists m heads seq) (hnew : Outside heads seq new) :
    Lists (listInit m new) (insert new heads) (Function.update seq new []) := by
  have hne : ∀ hd ∈ heads, hd ≠ new := by
    rintro hd hh rfl
    exact hnew hd hh List.mem_cons_self
  have h' := lists_listInit h hnew
  constructor
  · rintro hd (rfl | hh)
    · rw [Function.update_self]
      exact isList_listInit m hd
    · rw [Function.update_of_ne (hne hd hh)]
      exact h'.ring hd hh
  · have hsep : ∀ hd ∈ heads, List.Disjoint [new] (hd :: seq hd) := by
      intro hd hh a ha ha'
      rw [List.mem_singleton.1 ha] at ha'
      exact hnew hd hh ha'
    rintro h₁ (rfl | hh₁) h₂ (rfl | hh₂) hne₁₂
    · exact absurd rfl hne₁₂
    · rw [Function.update_self, Function.update_of_ne (hne h₂ hh₂)]
      exact hsep h₂ hh₂
    · rw [Function.update_self, Function.update_of_ne (hne h₁ hh₁)]
      exact List.disjoint_symm (hsep h₁ hh₁)
    · rw [Function.update_of_ne (hne h₁ hh₁), Function.update_of_ne (hne h₂ hh₂)]
      exact h.disjoint h₁ hh₁ h₂ hh₂ hne₁₂

/-- An update of one list, given by its frame in the entries. -/
theorem Lists.update {m' : ListMem α} {xs : List α} (h : Lists m heads seq) (hh : head ∈ heads)
    (hlist : IsList m' head xs) (hcells : ∀ a ∈ xs, a ∈ seq head ∨ Outside heads seq a)
    (hframe : ∀ a, a ∉ head :: seq head → ¬ Outside heads seq a → m' a = m a) :
    Lists m' heads (Function.update seq head xs) := by
  refine Rings.update h hh hlist hcells ?_
  intro h' hh' hne a ha
  have ha' : a ∉ head :: seq head := fun hmem => hne (h.eq_of_mem hh' hh ha hmem)
  have := hframe a ha' (fun hout => hout h' hh' ha)
  simp only [this, and_self]

theorem lists_listAppend (h : Lists m heads seq) (hh : head ∈ heads)
    (hnew : Outside heads seq new) :
    Lists (listAppend m head new) heads (Function.update seq head (seq head ++ [new])) := by
  refine h.update hh (isList_listAppend (h.isList hh) (hnew head hh)) ?_ ?_
  · intro a ha
    rcases List.mem_append.1 ha with ha | ha
    · exact .inl ha
    · rw [List.mem_singleton.1 ha]
      exact .inr hnew
  · intro a ha hin
    exact listAppend_frame (h.isList hh) (fun he => hin (he ▸ hnew)) ha

theorem lists_listPrepend (h : Lists m heads seq) (hh : head ∈ heads)
    (hnew : Outside heads seq new) :
    Lists (listPrepend m head new) heads (Function.update seq head (new :: seq head)) := by
  refine h.update hh (isList_listPrepend (h.isList hh) (hnew head hh)) ?_ ?_
  · intro a ha
    rcases List.mem_cons.1 ha with rfl | ha
    · exact .inr hnew
    · exact .inl ha
  · intro a ha hin
    exact listPrepend_frame (h.isList hh) (fun he => hin (he ▸ hnew)) ha

/-- `list_del` does not name the list; it is the one the entry is on. -/
theorem lists_listDel [ListPtr α] (h : Lists m heads seq) (hh : head ∈ heads)
    (hnew : new ∈ seq head) :
    Lists (listDel m new) heads (Function.update seq head ((seq head).erase new)) := by
  have hlist := h.isList hh
  have hdel : IsList (listDel m new) head ((seq head).erase new) := by
    have hnd : (seq head).Nodup := hlist.nodup.of_cons
    obtain ⟨xs, ys, hsplit⟩ := List.append_of_mem hnew
    rw [hsplit] at hlist hnd ⊢
    have hxs : new ∉ xs := by
      intro hmem
      exact (List.nodup_append.1 hnd).2.2 new hmem new (by simp) rfl
    rw [List.erase_append_right _ hxs, List.erase_cons_head]
    exact isList_listDel hlist
  refine h.update hh hdel (fun a ha => .inl (List.mem_of_mem_erase ha)) ?_
  intro a ha _
  exact listDel_frame hlist hnew ha

theorem Lists.outside_erase (h : Lists m heads seq) (hh : head ∈ heads) (hnew : new ∈ seq head) :
    Outside heads (Function.update seq head ((seq head).erase new)) new := by
  intro hd hh' hmem
  by_cases hne : hd = head
  · subst hne
    rw [Function.update_self] at hmem
    have hnd := (h.isList hh).nodup
    rcases List.mem_cons.1 hmem with rfl | hmem
    · exact (List.nodup_cons.1 hnd).1 hnew
    · exact (List.Nodup.not_mem_erase (List.nodup_cons.1 hnd).2) hmem
  · rw [Function.update_of_ne hne] at hmem
    exact hne (h.eq_of_mem hh' hh hmem (List.mem_cons_of_mem _ hnew))

/-- `list_del` and `list_append`: the entry becomes the last of its list. -/
theorem lists_moveLast [ListPtr α] (h : Lists m heads seq) (hh : head ∈ heads)
    (hnew : new ∈ seq head) :
    Lists (listAppend (listDel m new) head new) heads
      (Function.update seq head ((seq head).erase new ++ [new])) := by
  have happ := lists_listAppend (lists_listDel h hh hnew) hh (h.outside_erase hh hnew)
  rwa [Function.update_self, Function.update_idem] at happ

theorem lists_moveFirst [ListPtr α] (h : Lists m heads seq) (hh : head ∈ heads)
    (hnew : new ∈ seq head) :
    Lists (listPrepend (listDel m new) head new) heads
      (Function.update seq head (new :: (seq head).erase new)) := by
  have hpre := lists_listPrepend (lists_listDel h hh hnew) hh (h.outside_erase hh hnew)
  rwa [Function.update_self, Function.update_idem] at hpre

end ManyLists

end Tsl
