import Tsl.List.Sequences

set_option autoImplicit false

/-! # Iterating while deleting

`list_for_each_type_safe` of `tsl/list.h` walks a list whose entries may be taken off it on the way. It
reads the successor of an entry before the body runs on that entry, and that of the look-ahead after
it. The head is read like any other entry.

The body is arbitrary code, in a world `σ` and the memory of the lists. `SafeBody` says what it may do
to the list: take its own entry off it, and overwrite that. Then the iteration runs on every entry
once, in order, and what is left is the list of those that were kept (`listForEachTypeSafe_visits`). -/

namespace Tsl

open Lib

variable {α σ : Type*}

/-! ## The code -/

/-- The body of an iteration: whether it deleted the entry it ran on, and what it leaves behind. -/
abbrev ListBody (σ α : Type*) := σ → ListMem α → α → Bool × σ × ListMem α

/-- An entry the body ran on, with whether it was deleted. -/
abbrev Visit (α : Type*) := α × Bool

/-- The entries that were not deleted. -/
def keptOf (visits : List (Visit α)) : List α :=
  (visits.filter fun v => !v.2).map Prod.fst

theorem keptOf_cons (v : Visit α) (visits : List (Visit α)) :
    keptOf (v :: visits) = keptOf [v] ++ keptOf visits := by
  rw [keptOf, keptOf, keptOf, ← List.map_append, ← List.filter_append, List.singleton_append]

theorem keptOf_sublist (x : α) (deleted : Bool) : (keptOf [(x, deleted)]).Sublist [x] := by
  cases deleted with
  | false => exact List.Sublist.refl _
  | true => exact List.nil_sublist _

variable [DecidableEq α]

/-- The loop of `list_for_each_type_safe`, with at most `n` tests to go: the entries it ran on, and what
    is left behind. -/
def listForEachTypeSafeLoop (body : ListBody σ α) (head : α) :
    ℕ → α → α → σ → ListMem α → Option (List (Visit α) × σ × ListMem α)
  | 0, _, _, _, _ => none
  | n + 1, iterator, temp, s, m =>
      if iterator = head then some ([], s, m)
      else do
        let (deleted, s, m) := body s m iterator
        -- the look-ahead was read before the body, its own successor is read now
        let (visits, s, m) ← listForEachTypeSafeLoop body head n temp (m temp).next s m
        some ((iterator, deleted) :: visits, s, m)

/-- `list_for_each_type_safe`. -/
def listForEachTypeSafe (body : ListBody σ α) (head : α) (n : ℕ) (s : σ) (m : ListMem α) :
    Option (List (Visit α) × σ × ListMem α) :=
  let iterator := (m head).next
  listForEachTypeSafeLoop body head n iterator (m iterator).next s m

/-! ## What the body may do -/

section Safe

variable [ListPtr α]

/-- Of the entries `cells`, the body left all alone; or it deleted `x`, and left all but that alone
    otherwise. -/
def TouchesOnly (m m' : ListMem α) (cells : List α) (x : α) : Bool → Prop
  | false => ∀ a ∈ cells, m' a = m a
  | true => ∀ a ∈ cells, a ≠ x → m' a = listDel m x a

/-- Whatever is left of the list `xs` when the body runs on one of its entries, it touches no other. The
    worlds it runs in are those of `inv`, which it keeps. -/
structure SafeBody (inv : σ → ListMem α → Prop) (body : ListBody σ α) (head : α) (xs : List α) :
    Prop where
  touches : ∀ s m ys x, inv s m → ys.Sublist xs → IsList m head ys → x ∈ ys →
    TouchesOnly m (body s m x).2.2 (head :: ys) x (body s m x).1
  keeps : ∀ s m ys x, inv s m → ys.Sublist xs → IsList m head ys → x ∈ ys →
    inv (body s m x).2.1 (body s m x).2.2

variable {inv : σ → ListMem α → Prop} {body : ListBody σ α} {m m' : ListMem α} {head x : α} {xs kept rest : List α}

theorem TouchesOnly.isList {deleted : Bool} (h : IsList m head (kept ++ x :: rest))
    (ht : TouchesOnly m m' (head :: (kept ++ x :: rest)) x deleted) :
    IsList m' head (kept ++ keptOf [(x, deleted)] ++ rest) := by
  cases deleted with
  | false =>
      rw [show keptOf [(x, false)] = [x] from rfl, List.append_assoc]
      exact h.congr ht
  | true =>
      rw [show keptOf [(x, true)] = [] from rfl, List.append_nil]
      have hx : x ∉ head :: (kept ++ rest) := by
        have hnd := List.nodup_middle.1 (show ((head :: kept) ++ x :: rest).Nodup from h.nodup)
        exact (List.nodup_cons.1 hnd).1
      refine (isList_listDel h).congr fun a ha => ht a ?_ fun heq => hx (heq ▸ ha)
      simp only [List.mem_cons, List.mem_append] at ha ⊢
      tauto

/-! ## The cursor -/

/-- The cursor of an iteration that has `rest` before it. At the end of the list it is on the head, and
    the look-ahead does not matter. -/
def CursorOn (head : α) (rest : List α) (iterator temp : α) : Prop :=
  match rest with
  | [] => iterator = head
  | x :: rest => iterator = x ∧ temp = rest.headD head

omit [DecidableEq α] [ListPtr α] in
/-- The look-ahead and its successor make the next cursor. -/
theorem cursorOn_next (h : IsList m head (kept ++ rest)) :
    CursorOn head rest (rest.headD head) (m (rest.headD head)).next := by
  cases rest with
  | nil => rfl
  | cons x rest => exact ⟨rfl, IsRing.next_eq_headD_split h⟩

omit [DecidableEq α] [ListPtr α] in
theorem cursorOn_first (h : IsList m head xs) :
    CursorOn head xs (m head).next (m (m head).next).next := by
  have hfirst : (m head).next = xs.headD head := IsRing.next_eq_headD h
  rw [hfirst]
  have hnil : IsList m head ([] ++ xs) := h
  exact cursorOn_next hnil

/-! ## The iteration -/

/-- From a cursor with `rest` before it the loop runs on `rest`. Behind it are the entries `kept`. -/
theorem listForEachTypeSafeLoop_visits (hbody : SafeBody inv body head xs) (rest : List α) :
    ∀ {kept m s iterator temp}, IsList m head (kept ++ rest) → (kept ++ rest).Sublist xs →
      inv s m → CursorOn head rest iterator temp →
      ∃ visits s' m',
        (∀ n, rest.length < n → listForEachTypeSafeLoop body head n iterator temp s m =
          some (visits, s', m')) ∧
        visits.map Prod.fst = rest ∧ IsList m' head (kept ++ keptOf visits) := by
  induction rest with
  | nil =>
      intro kept m s iterator temp h _ _ hcur
      refine ⟨[], s, m, fun n hn => ?_, rfl, h⟩
      obtain ⟨n, rfl⟩ : ∃ k, n = k + 1 := ⟨n - 1, by omega⟩
      have hcur : iterator = head := hcur
      rw [listForEachTypeSafeLoop, if_pos hcur]
  | cons x rest ih =>
      intro kept m s iterator temp h hsub hinv hcur
      obtain ⟨rfl, rfl⟩ := hcur
      have hmem : iterator ∈ kept ++ iterator :: rest := by simp
      have hne : iterator ≠ head := by
        rintro rfl
        exact (List.nodup_cons.1 h.nodup).1 hmem
      obtain ⟨visit, hvisit⟩ : ∃ v : Visit α, v = (iterator, (body s m iterator).1) := ⟨_, rfl⟩
      -- the body keeps what is before the cursor, and so the look-ahead is on the list still
      have hturn : IsList (body s m iterator).2.2 head ((kept ++ keptOf [visit]) ++ rest) :=
        hvisit ▸ TouchesOnly.isList h (hbody.touches s m _ iterator hinv hsub h hmem)
      have hsub' : ((kept ++ keptOf [visit]) ++ rest).Sublist xs := by
        refine List.Sublist.trans ?_ hsub
        rw [List.append_assoc, hvisit]
        exact ((keptOf_sublist iterator _).append_right rest).append_left kept
      obtain ⟨visits, s', m', hloop, hvisits, hlist⟩ :=
        ih (s := (body s m iterator).2.1) hturn hsub' (hbody.keeps s m _ iterator hinv hsub h hmem)
          (cursorOn_next hturn)
      refine ⟨visit :: visits, s', m', fun n hn => ?_, ?_, ?_⟩
      · obtain ⟨n, rfl⟩ : ∃ k, n = k + 1 := ⟨n - 1, by omega⟩
        rw [listForEachTypeSafeLoop, if_neg hne]
        simp only [hloop n (Nat.lt_of_succ_lt_succ hn), hvisit, Option.bind_eq_bind,
          Option.bind_some]
      · rw [List.map_cons, hvisits, hvisit]
      · rw [keptOf_cons, ← List.append_assoc]
        exact hlist

/-- **Safe iteration**: whatever entries of a list the body takes off it, and whatever it does to them
then, `list_for_each_type_safe` ends, has run on every entry once and in order, and leaves the list of
those that were kept, in their order. -/
theorem listForEachTypeSafe_visits (h : IsList m head xs) (hbody : SafeBody inv body head xs) {s : σ}
    (hinv : inv s m) :
    ∃ visits s' m',
      (∀ n, xs.length < n → listForEachTypeSafe body head n s m = some (visits, s', m')) ∧
      visits.map Prod.fst = xs ∧ (visits.map Prod.fst).Nodup ∧ IsList m' head (keptOf visits) := by
  have hnil : IsList m head ([] ++ xs) := h
  obtain ⟨visits, s', m', hloop, hvisits, hlist⟩ :=
    listForEachTypeSafeLoop_visits hbody xs hnil (List.Sublist.refl _) hinv (cursorOn_first h)
  exact ⟨visits, s', m', hloop, hvisits, hvisits ▸ (List.nodup_cons.1 h.nodup).2, hlist⟩

end Safe

/-- The entries 1, 2 and 3 on the list of 0. -/
def threeEntries : ListMem ℕ := fun a =>
  match a with
  | 0 => ⟨3, 1⟩
  | 1 => ⟨0, 2⟩
  | 2 => ⟨1, 3⟩
  | 3 => ⟨2, 0⟩
  | _ => ⟨a, a⟩

/-- A body that counts the entries, and deletes the odd ones and clears them. -/
def deleteOdd : ListBody ℕ ℕ := fun count m x =>
  if x % 2 = 1 then (true, count + 1, Function.update (listDel m x) x ⟨0, 0⟩) else (false, count + 1, m)

theorem deleteOdd_safe (head : ℕ) (xs : List ℕ) : SafeBody (fun _ _ => True) deleteOdd head xs where
  touches := by
    intro s m ys x _ _ _ _
    unfold deleteOdd
    split
    · exact fun a _ hne => Function.update_of_ne hne _ _
    · exact fun a _ => rfl
  keeps := fun _ _ _ _ _ _ _ _ => trivial

/-- The first and the last entry go, and all three were run on. -/
theorem listForEachTypeSafe_deleteOdd :
    ∃ visits s' m', listForEachTypeSafe deleteOdd 0 4 0 threeEntries = some (visits, s', m') ∧
      visits.map Prod.fst = [1, 2, 3] ∧ IsList m' 0 (keptOf visits) ∧ keptOf visits = [2] := by
  have hlist : IsList threeEntries 0 [1, 2, 3] := ⟨by decide, by simp [Linked, threeEntries]⟩
  obtain ⟨visits, s', m', hrun, hvisits, -, hkept⟩ :=
    listForEachTypeSafe_visits hlist (deleteOdd_safe 0 [1, 2, 3]) (s := 0) trivial
  have hrun := hrun 4 (by decide)
  refine ⟨visits, s', m', hrun, hvisits, hkept, ?_⟩
  have heval : (listForEachTypeSafe deleteOdd 0 4 0 threeEntries).map (fun r => keptOf r.1) =
      some [2] := by decide
  rwa [hrun, Option.map_some, Option.some.injEq] at heval

end Tsl
