import Tsl.Lib.Machine
import Tsl.List

set_option autoImplicit false

/-! # Lists as sequences

What `tsl/list.h` is for: any number of sequences, to which entries are added and from which they are
taken. `Sequences` says so without links. A call of `list_init`, `list_append`, `list_prepend`,
`list_insert_at` or `list_del` changes one of the sequences (`Sequences.step`), where only entries that
are on no list are added and only entries that are on one are deleted; on the links it is what the code
does (`ListCall.run`), which knows neither the list of an entry nor which entries are heads.

The links refine the sequences: in every run they are the closed lists that the sequences say
(`listRun_refines`). -/

namespace Tsl

open Lib

variable {α : Type*}

/-- A call on lists. -/
inductive ListCall (α : Type*) where
  | init (new : α)
  | append (head new : α)
  | prepend (head new : α)
  | insertAt (pos new : α)
  | del (entry : α)

/-! ## Sequences -/

/-- The heads there are, and the entries of each. -/
structure Sequences (α : Type*) where
  heads : List α
  seq : α → List α

section Code

variable [DecidableEq α]

/-- The call on the links. -/
def ListCall.run [ListPtr α] (m : ListMem α) : ListCall α → ListMem α
  | .init new => listInit m new
  | .append head new => listAppend m head new
  | .prepend head new => listPrepend m head new
  | .insertAt pos new => listInsertAt m pos new
  | .del entry => listDel m entry

/-- `new` goes behind `pos`. -/
def insertAfter (pos new : α) : List α → List α
  | [] => []
  | x :: xs => if x = pos then x :: new :: xs else x :: insertAfter pos new xs

namespace Sequences

/-- No heads. -/
def empty : Sequences α := ⟨[], fun _ => []⟩

/-- The entry is on a list. -/
def Linked (s : Sequences α) (x : α) : Prop := ∃ h ∈ s.heads, x ∈ s.seq h

instance (s : Sequences α) (x : α) : Decidable (s.Linked x) :=
  inferInstanceAs (Decidable (∃ h ∈ s.heads, x ∈ s.seq h))

/-- The entry can be added to a list: it is on none, and it heads none but an empty one. -/
def Unlinked (s : Sequences α) (x : α) : Prop := ¬ s.Linked x ∧ (x ∈ s.heads → s.seq x = [])

instance (s : Sequences α) (x : α) : Decidable (s.Unlinked x) :=
  inferInstanceAs (Decidable (_ ∧ (_ → _)))

/-- The entry heads no list any more. -/
def drop (s : Sequences α) (x : α) : Sequences α := { s with heads := s.heads.filter (· ≠ x) }

/-- The sequence of one head, and no other, becomes `xs`. -/
def set (s : Sequences α) (head : α) (xs : List α) : Sequences α :=
  { s with seq := Function.update s.seq head xs }

/-- An unlinked entry is added to the list of `head`. -/
def add (s : Sequences α) (head new : α) (f : List α → List α) : Option (Sequences α) :=
  if s.Unlinked new ∧ head ∈ (s.drop new).heads then some ((s.drop new).set head (f (s.seq head)))
  else none

/-- One call. -/
def step (s : Sequences α) : ListCall α → Option (Sequences α)
  | .init new =>
      if s.Linked new then none
      else some ({ s.drop new with heads := new :: (s.drop new).heads }.set new [])
  | .append head new => s.add head new fun xs => xs ++ [new]
  | .prepend head new => s.add head new fun xs => new :: xs
  | .insertAt pos new =>
      -- the list that `pos` is on, or the head of
      match (s.drop new).heads.find? fun h => pos ∈ h :: s.seq h with
      | none => none
      | some head => s.add head new fun xs => (insertAfter pos new (head :: xs)).tail
  | .del entry =>
      match s.heads.find? fun h => entry ∈ s.seq h with
      | none => none
      | some head => some (s.set head ((s.seq head).erase entry))

end Sequences

end Code

/-! ## The links refine the sequences -/

/-- The lists in memory are the sequences. -/
def Sequences.InMemory (s : Sequences α) (m : ListMem α) : Prop := Lists m {h | h ∈ s.heads} s.seq

section Refines

variable [DecidableEq α] {m : ListMem α} {s s' : Sequences α} {head new pos x : α} {xs ys : List α}

@[simp] theorem mem_heads_drop : head ∈ (s.drop x).heads ↔ head ∈ s.heads ∧ head ≠ x := by
  simp [Sequences.drop]

theorem Sequences.InMemory.drop (h : s.InMemory m) (x : α) : (s.drop x).InMemory m :=
  Rings.mono h fun _ hh => (mem_heads_drop.1 hh).1

/-- An entry that is on no list is, once it heads none, in none of the rings. -/
theorem outside_drop (hx : ¬ s.Linked x) : Outside {h | h ∈ (s.drop x).heads} s.seq x := by
  intro h hh hmem
  obtain ⟨hh, hne⟩ := mem_heads_drop.1 hh
  rcases List.mem_cons.1 hmem with rfl | hmem
  · exact hne rfl
  · exact hx ⟨h, hh, hmem⟩

theorem insertAfter_append (hpos : pos ∉ xs) :
    insertAfter pos new (xs ++ pos :: ys) = xs ++ pos :: new :: ys := by
  induction xs with
  | nil => simp [insertAfter]
  | cons x xs ih =>
      simp only [List.mem_cons, not_or] at hpos
      rw [List.cons_append, insertAfter, if_neg (Ne.symm hpos.1), ih hpos.2, List.cons_append]

theorem mem_of_mem_insertAfter (hx : x ∈ insertAfter pos new xs) : x ∈ xs ∨ x = new := by
  induction xs with
  | nil => exact .inl hx
  | cons y xs ih =>
      rw [insertAfter] at hx
      split at hx
      · simp only [List.mem_cons] at hx ⊢
        tauto
      · rcases List.mem_cons.1 hx with rfl | hx
        · exact .inl List.mem_cons_self
        · exact (ih hx).imp_left (List.mem_cons_of_mem _)

theorem isList_insertAfter (h : IsList m head xs) (hpos : pos ∈ head :: xs)
    (hnew : new ∉ head :: xs) :
    IsList (listInsertAt m pos new) head (insertAfter pos new (head :: xs)).tail := by
  rw [insertAfter]
  by_cases hhead : head = pos
  · subst hhead
    rw [if_pos rfl]
    exact isList_listAdd h hnew
  · rw [if_neg hhead, List.tail_cons]
    obtain ⟨ps, qs, rfl⟩ :=
      List.append_of_mem ((List.mem_cons.1 hpos).resolve_left (Ne.symm hhead))
    have hps : pos ∉ ps := fun hmem =>
      (List.nodup_append.1 h.nodup.of_cons).2.2 pos hmem pos List.mem_cons_self rfl
    rw [insertAfter_append hps]
    exact isList_listInsertAt h hnew

/-! ### One call -/

/-- An entry is added: the code changes the list of `head`, and writes to nothing else. -/
theorem Sequences.InMemory.add {m' : ListMem α} {f : List α → List α} (h : s.InMemory m)
    (hadd : s.add head new f = some s')
    (hlist : IsList m head (s.seq head) → new ∉ head :: s.seq head →
      IsList m' head (f (s.seq head)))
    (hcells : ∀ a ∈ f (s.seq head), a ∈ s.seq head ∨ a = new)
    (hframe : IsList m head (s.seq head) → ∀ a, a ≠ new → a ∉ head :: s.seq head → m' a = m a) :
    s'.InMemory m' := by
  unfold Sequences.add at hadd
  split at hadd
  · next hlegal =>
    obtain ⟨⟨hnew, -⟩, hhead⟩ := hlegal
    obtain rfl := Option.some.inj hadd
    have hout := outside_drop hnew
    have hold := (h.drop new).isList hhead
    refine Lists.update (h.drop new) hhead (hlist hold (hout head hhead)) ?_ ?_
    · rintro a ha
      rcases hcells a ha with hmem | rfl
      · exact .inl hmem
      · exact .inr hout
    · exact fun a ha hin => hframe hold a (fun he => hin (he ▸ hout)) ha
  · cases hadd

theorem inMemory_step [ListPtr α] {c : ListCall α} (h : s.InMemory m) (hstep : s.step c = some s') :
    s'.InMemory (c.run m) := by
  cases c with
  | init new =>
      simp only [Sequences.step] at hstep
      split at hstep
      · cases hstep
      · next hnew =>
        obtain rfl := Option.some.inj hstep
        refine Rings.mono (lists_listInit_head new (h.drop new) (outside_drop hnew)) ?_
        exact fun hd hh => List.mem_cons.1 hh
  | append head new =>
      have hadd : s.add head new (fun xs => xs ++ [new]) = some s' := hstep
      refine h.add hadd isList_listAppend (fun a ha => ?_) fun hold a hne ha => ?_
      · simpa using ha
      · exact listAppend_frame hold hne ha
  | prepend head new =>
      refine h.add hstep isList_listPrepend (fun a ha => ?_) fun hold a hne ha => ?_
      · exact (List.mem_cons.1 ha).symm
      · exact listPrepend_frame hold hne ha
  | insertAt pos new =>
      simp only [Sequences.step] at hstep
      split at hstep
      · cases hstep
      · next head hfind =>
        have hpos : pos ∈ head :: s.seq head := by simpa using List.find?_some hfind
        refine h.add hstep (fun hold hnew => isList_insertAfter hold hpos hnew) (fun a ha => ?_)
          fun hold a hne ha => listInsertAt_frame hold hpos hne ha
        rw [insertAfter] at ha
        split at ha
        · exact (List.mem_cons.1 ha).symm
        · exact mem_of_mem_insertAfter ha
  | del entry =>
      simp only [Sequences.step] at hstep
      split at hstep
      · cases hstep
      · next head hfind =>
        obtain rfl := Option.some.inj hstep
        have hentry : entry ∈ s.seq head := by simpa using List.find?_some hfind
        exact lists_listDel h (List.mem_of_find?_eq_some hfind) hentry

/-! ### Runs -/

/-- What the links and the tests on them say is what the sequences say. -/
structure Represent (m : ListMem α) (s : Sequences α) : Prop where
  /-- Closed lists, linked both ways, with the entries in order. -/
  list : ∀ h ∈ s.heads, IsList m h (s.seq h)
  /-- No entry is in two lists, or a head in one. -/
  disjoint : ∀ h ∈ s.heads, ∀ h' ∈ s.heads, h ≠ h' → List.Disjoint (h :: s.seq h) (h' :: s.seq h')
  empty : ∀ h ∈ s.heads, listEmpty m h = true ↔ s.seq h = []
  isLast : ∀ h ∈ s.heads, ∀ x, s.Linked x → (listIsLast m h x = true ↔ (s.seq h).getLast? = some x)

theorem Sequences.InMemory.represent (h : s.InMemory m) : Represent m s where
  list := fun hd hh => h.isList hh
  disjoint := fun hd hh hd' hh' hne => h.disjoint hd hh hd' hh' hne
  empty := fun hd hh => listEmpty_iff (h.isList hh)
  isLast := by
    rintro hd hh x ⟨hd', hh', hx⟩
    by_cases heq : hd' = hd
    · subst heq
      exact listIsLast_iff (h.isList hh) hx
    · -- an entry of another list is followed by one of that list
      refine iff_of_false (fun hlast => ?_) fun hlast => ?_
      · have hnext := (h.isList hh').next_mem_of_mem (List.mem_cons_of_mem _ hx)
        rw [listIsLast, decide_eq_true_eq] at hlast
        rw [hlast] at hnext
        exact heq (h.eq_of_mem hh' hh hnext List.mem_cons_self)
      · have hmem := List.mem_of_getLast? hlast
        exact heq (h.eq_of_mem hh' hh (List.mem_cons_of_mem _ hx) (List.mem_cons_of_mem _ hmem))

theorem inMemory_run [ListPtr α] (calls : List (ListCall α)) (h : s.InMemory m)
    (hrun : exec Sequences.step s calls = some s') : s'.InMemory (calls.foldl ListCall.run m) := by
  induction calls generalizing s m with
  | nil =>
      rw [exec_nil, Option.some.injEq] at hrun
      exact hrun ▸ h
  | cons c calls ih =>
      obtain ⟨t, hstep, hrest⟩ := exec_cons_eq_some.1 hrun
      exact ih (inMemory_step h hstep) hrest

/-- **The links refine the sequences** in every run, from whatever is in memory at first. -/
theorem listRun_refines [ListPtr α] (m : ListMem α) (calls : List (ListCall α))
    (hrun : exec Sequences.step .empty calls = some s) :
    Represent (calls.foldl ListCall.run m) s := by
  have hempty : (Sequences.empty : Sequences α).InMemory m :=
    ⟨fun h hh => absurd hh List.not_mem_nil, fun h hh => absurd hh List.not_mem_nil⟩
  exact (inMemory_run calls hempty hrun).represent

end Refines

/-- Addresses as numbers, with the poison values of `tsl/list.h`. -/
instance : ListPtr ℕ := ⟨0xc1c1c1c1, 0x81818181⟩

/-- The entry 1 goes from the list of 0 to that of 10. -/
def movedEntry : List (ListCall ℕ) :=
  [.init 0, .init 10, .append 0 1, .prepend 0 2, .insertAt 2 3, .append 10 11, .del 1, .append 10 1]

theorem listRun_refines_movedEntry :
    ∃ s, exec Sequences.step .empty movedEntry = some s ∧ s.seq 0 = [2, 3] ∧ s.seq 10 = [11, 1] ∧
      Represent (movedEntry.foldl ListCall.run fun a => ⟨a, a⟩) s :=
  ⟨_, rfl, rfl, rfl, listRun_refines _ _ rfl⟩

end Tsl
