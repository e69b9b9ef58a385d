import Mathlib.Data.List.TakeDrop
import Mathlib.Data.Nat.ModEq
import Tsl.Lib.Machine

set_option autoImplicit false

/-! # Megaqueue

`tsl/megaqueue/megaqueue_priv.h`: a ring of `object_count` slots in shared memory, with three
offsets that different parties store to. The producer fills the slot at `head` and advances `head`;
the reader reads the slot at `tail` and advances it; `_delete`, up to which slots may be filled
again, is advanced by the reader (`megaqueue_read_advance`, here `lockstep`) or by a deleter.

Every atomic load and store is a step of its own, and a run is any interleaving of the steps. The
program counter of a party says which access of which function comes next and holds the local
variables that are still needed. The state also keeps what was published and observed so far, and
how often `tail` and `_delete` were advanced; no step reads these. -/

namespace Tsl

open Lib

variable {β : Type*}

/-- Where the producer is: `megaqueue_next_slot`, filling the slot, `megaqueue_advance`. -/
inductive ProducerPc where
  /-- Before the load of `head` in `megaqueue_next_slot`. -/
  | idle
  /-- In its `__megaqueue_is_full`, before the load of `head`. -/
  | nextSlotHead (headOffset : ℕ)
  /-- Before the load of `_delete`. -/
  | nextSlotDelete (headOffset fullHead : ℕ)
  /-- The slot at `headOffset` was handed out and is being filled. -/
  | filling (headOffset : ℕ)
  /-- In `__megaqueue_is_full` of `megaqueue_advance`, before the load of `_delete`. -/
  | advanceDelete (headOffset fullHead : ℕ)
  /-- Before the load of `head` that is advanced. -/
  | advanceHead (headOffset : ℕ)
  /-- Before the store to `head`. -/
  | advanceStore (headOffset offset : ℕ)
deriving DecidableEq, Repr

/-- Where the reader is: `megaqueue_read_next_slot`, reading the slot, `megaqueue_read_advance` or
    `megaqueue_read_only_advance`. -/
inductive ReaderPc where
  /-- Before the load of `tail` in `megaqueue_read_next_slot`. -/
  | idle
  /-- In its `__megaqueue_is_empty`, before the load of `head`. -/
  | nextSlotHead (tailOffset : ℕ)
  /-- Before the load of `tail`. -/
  | nextSlotTail (tailOffset emptyHead : ℕ)
  /-- The slot at `tailOffset` was handed out and is about to be read. -/
  | reading (tailOffset : ℕ)
  /-- The slot was read; next is `__megaqueue_is_empty` of the advance, the load of `head`. -/
  | advanceHead
  /-- Before the load of `tail`. -/
  | advanceTail (emptyHead : ℕ)
  /-- Before the load of `tail` that is advanced. -/
  | advanceLoad
  /-- Before the store to `tail`. -/
  | advanceStore (offset : ℕ)
  /-- In `megaqueue_read_advance`, before the store to `_delete`. -/
  | storeDelete (offset : ℕ)
deriving DecidableEq, Repr

/-- Where the deleter is, in `megaqueue_delete_advance`. -/
inductive DeleterPc where
  /-- In `__megaqueue_can_delete`, before the load of `tail`. -/
  | idle
  /-- Before the load of `_delete`. -/
  | checkDelete (tailOffset : ℕ)
  /-- Before the load of `_delete` that is advanced. -/
  | advanceLoad
  /-- Before the store to `_delete`. -/
  | advanceStore (offset : ℕ)
deriving DecidableEq, Repr

/-- A megaqueue with its parties. -/
structure Megaqueue (β : Type*) where
  head : ℕ
  tail : ℕ
  delete : ℕ
  slots : ℕ → β
  producer : ProducerPc
  reader : ReaderPc
  deleter : DeleterPc
  /-- The contents of the slots advanced over by the producer. -/
  published : List β
  /-- What the reader read. -/
  observed : List β
  /-- How many slots the reader and `_delete` advanced over. -/
  advanced : ℕ
  deleted : ℕ

/-- A fresh queue. -/
def Megaqueue.initial (slots : ℕ → β) : Megaqueue β where
  head := 0
  tail := 0
  delete := 0
  slots := slots
  producer := .idle
  reader := .idle
  deleter := .idle
  published := []
  observed := []
  advanced := 0
  deleted := 0

/-- The next access of the producer. A call that answers `A_E_NOSPC` starts over. -/
def stepProducer (objectCount : ℕ) (s : Megaqueue β) : Megaqueue β :=
  match s.producer with
  | .idle => { s with producer := .nextSlotHead s.head }
  | .nextSlotHead headOffset => { s with producer := .nextSlotDelete headOffset s.head }
  | .nextSlotDelete headOffset fullHead =>
      if s.delete = (fullHead + 1) % objectCount then { s with producer := .idle }
      else { s with producer := .filling headOffset }
  | .filling headOffset => { s with producer := .advanceDelete headOffset s.head }
  | .advanceDelete headOffset fullHead =>
      if s.delete = (fullHead + 1) % objectCount then { s with producer := .idle }
      else { s with producer := .advanceHead headOffset }
  | .advanceHead headOffset => { s with producer := .advanceStore headOffset s.head }
  | .advanceStore headOffset offset =>
      { s with
        head := (offset + 1) % objectCount
        producer := .idle
        published := s.published ++ [s.slots headOffset] }

/-- The next access of the reader. A call that answers `A_E_EMPTY` starts over. -/
def stepReader (lockstep : Bool) (objectCount : ℕ) (s : Megaqueue β) : Megaqueue β :=
  match s.reader with
  | .idle => { s with reader := .nextSlotHead s.tail }
  | .nextSlotHead tailOffset => { s with reader := .nextSlotTail tailOffset s.head }
  | .nextSlotTail tailOffset emptyHead =>
      if s.tail = emptyHead then { s with reader := .idle }
      else { s with reader := .reading tailOffset }
  | .reading tailOffset =>
      { s with reader := .advanceHead, observed := s.observed ++ [s.slots tailOffset] }
  | .advanceHead => { s with reader := .advanceTail s.head }
  | .advanceTail emptyHead =>
      if s.tail = emptyHead then { s with reader := .idle }
      else { s with reader := .advanceLoad }
  | .advanceLoad => { s with reader := .advanceStore s.tail }
  | .advanceStore offset =>
      { s with
        tail := (offset + 1) % objectCount
        advanced := s.advanced + 1
        reader := if lockstep then .storeDelete ((offset + 1) % objectCount) else .idle }
  | .storeDelete offset =>
      { s with delete := offset, deleted := s.deleted + 1, reader := .idle }

/-- The next access of the deleter. -/
def stepDeleter (objectCount : ℕ) (s : Megaqueue β) : Megaqueue β :=
  match s.deleter with
  | .idle => { s with deleter := .checkDelete s.tail }
  | .checkDelete tailOffset =>
      if tailOffset = s.delete then { s with deleter := .idle }
      else { s with deleter := .advanceLoad }
  | .advanceLoad => { s with deleter := .advanceStore s.delete }
  | .advanceStore offset =>
      { s with
        delete := (offset + 1) % objectCount
        deleted := s.deleted + 1
        deleter := .idle }

/-- Who moves. Besides its accesses to the offsets, a producer that fills a slot may store to it. -/
inductive MegaqueueMove (β : Type*) where
  | producer
  | write (content : β)
  | reader
  | deleter

/-- One step of an interleaving. There is a deleter only when the reader does not advance `_delete`
    itself. -/
def megaqueueStep (lockstep : Bool) (objectCount : ℕ) (s : Megaqueue β) :
    MegaqueueMove β → Option (Megaqueue β)
  | .producer => some (stepProducer objectCount s)
  | .write content =>
      match s.producer with
      | .filling headOffset =>
          some { s with slots := Function.update s.slots headOffset content }
      | _ => none
  | .reader => some (stepReader lockstep objectCount s)
  | .deleter => if lockstep then none else some (stepDeleter objectCount s)

/-! ## What the parties rely on -/

/-- The slot the producer was handed and has not advanced over yet. -/
def ProducerPc.handed : ProducerPc → Option ℕ
  | .filling headOffset => some headOffset
  | .advanceDelete headOffset _ => some headOffset
  | .advanceHead headOffset => some headOffset
  | .advanceStore headOffset _ => some headOffset
  | _ => none

/-- A megaqueue is a FIFO of at most `objectCount - 1` entries. Entry `i` is the `i`-th one
    published; the entries outstanding are those from `deleted` on. -/
structure IsFifo (objectCount : ℕ) (s : Megaqueue β) : Prop where
  /-- What was read is what was published, in order. -/
  in_order : s.observed <+: s.published
  /-- An entry outstanding is still in its slot. -/
  intact : ∀ i, s.deleted ≤ i → i < s.published.length →
    s.published[i]? = some (s.slots (i % objectCount))
  /-- A slot handed to the producer is not one of an entry outstanding. -/
  handed_free : ∀ off, s.producer.handed = some off →
    ∀ i, s.deleted ≤ i → i < s.published.length → i % objectCount ≠ off
  /-- The entries outstanding. -/
  outstanding : s.published.length - s.deleted ≤ objectCount - 1
  /-- The offsets count what was published, read and deleted, and go round in this order. -/
  offsets : s.head = s.published.length % objectCount ∧ s.tail = s.advanced % objectCount ∧
    s.delete = s.deleted % objectCount
  cyclic : s.deleted ≤ s.advanced ∧ s.advanced ≤ s.published.length ∧
    (s.tail + objectCount - s.delete) % objectCount = s.advanced - s.deleted ∧
    (s.head + objectCount - s.delete) % objectCount = s.published.length - s.deleted

/-! ## Offsets that go round -/

theorem mod_eq_iff_of_lt_round {a b n : ℕ} (hab : a ≤ b) (hlt : b < a + n) :
    a % n = b % n ↔ a = b := by
  constructor
  · intro h
    have hdvd : n ∣ b - a := (Nat.modEq_iff_dvd' hab).1 h
    have := Nat.eq_zero_of_dvd_of_lt hdvd (by omega)
    omega
  · rintro rfl
    rfl

/-- The way from one offset round to another. -/
theorem mod_distance {a b n : ℕ} (hab : a ≤ b) (hlt : b < a + n) :
    (b % n + n - a % n) % n = b - a := by
  have hn : 0 < n := by omega
  have ha := Nat.mod_lt a hn
  have hmod : (b % n + n - a % n) % n = (b - a) % n := by
    have hsum : (b % n + n - a % n + a) % n = (b - a + a) % n := by
      have h1 : b % n + n - a % n + a = b % n + n * (a / n + 1) := by
        have := Nat.mod_add_div a n
        rw [Nat.mul_add, Nat.mul_one]
        omega
      rw [h1, Nat.add_mul_mod_self_left, Nat.mod_mod, Nat.sub_add_cancel hab]
    exact Nat.ModEq.add_right_cancel' a hsum
  rw [hmod, Nat.mod_eq_of_lt (by omega)]

/-! ## The invariant -/

/-- What the producer knows, `published` and `deleted` entries into the run. Once it saw room there
    is room until it publishes, for only it publishes. -/
def ProducerOk (n published deleted : ℕ) : ProducerPc → Prop
  | .idle => True
  | .nextSlotHead headOffset => headOffset = published % n
  | .nextSlotDelete headOffset fullHead =>
      headOffset = published % n ∧ fullHead = published % n
  | .filling headOffset => headOffset = published % n ∧ published + 1 < deleted + n
  | .advanceDelete headOffset fullHead =>
      headOffset = published % n ∧ published + 1 < deleted + n ∧ fullHead = published % n
  | .advanceHead headOffset => headOffset = published % n ∧ published + 1 < deleted + n
  | .advanceStore headOffset offset =>
      headOffset = published % n ∧ published + 1 < deleted + n ∧ offset = published % n

/-- An offset of `head` that was loaded when `head` was at least at `low`. -/
def SeenHead (n low advanced published offset : ℕ) : Prop :=
  ∃ h, low ≤ h ∧ h ≤ published ∧ h < advanced + n ∧ offset = h % n

/-- What the reader knows. Once it saw an entry there is one until it advances. -/
def ReaderOk (n published advanced : ℕ) : ReaderPc → Prop
  | .idle => True
  | .nextSlotHead tailOffset => tailOffset = advanced % n
  | .nextSlotTail tailOffset emptyHead =>
      tailOffset = advanced % n ∧ SeenHead n advanced advanced published emptyHead
  | .reading tailOffset => tailOffset = advanced % n ∧ advanced < published
  | .advanceHead => advanced < published
  | .advanceTail emptyHead =>
      advanced < published ∧ SeenHead n (advanced + 1) advanced published emptyHead
  | .advanceLoad => advanced < published
  | .advanceStore offset => advanced < published ∧ offset = advanced % n
  | .storeDelete offset => offset = advanced % n

/-- Whether the entry at `tail` has been read already. -/
def ReaderPc.seen : ReaderPc → ℕ
  | .advanceHead | .advanceTail _ | .advanceLoad | .advanceStore _ => 1
  | _ => 0

/-- Whether `_delete` is due to follow `tail`. -/
def ReaderPc.behind : ReaderPc → ℕ
  | .storeDelete _ => 1
  | _ => 0

/-- What the deleter knows. An entry that was read stays to be deleted until it deletes it. -/
def DeleterOk (n advanced deleted : ℕ) : DeleterPc → Prop
  | .idle => True
  | .checkDelete tailOffset => ∃ t, deleted ≤ t ∧ t ≤ advanced ∧ tailOffset = t % n
  | .advanceLoad => deleted < advanced
  | .advanceStore offset => deleted < advanced ∧ offset = deleted % n

/-- The invariant of a megaqueue. -/
structure Megaqueue.Inv (lockstep : Bool) (n : ℕ) (s : Megaqueue β) : Prop where
  head_eq : s.head = s.published.length % n
  tail_eq : s.tail = s.advanced % n
  delete_eq : s.delete = s.deleted % n
  deleted_le : s.deleted ≤ s.advanced
  advanced_le : s.advanced ≤ s.published.length
  room : s.published.length < s.deleted + n
  intact : ∀ i, s.deleted ≤ i → i < s.published.length →
    s.published[i]? = some (s.slots (i % n))
  observed_eq : s.observed = s.published.take (s.advanced + s.reader.seen)
  producer : ProducerOk n s.published.length s.deleted s.producer
  reader : ReaderOk n s.published.length s.advanced s.reader
  deleter : DeleterOk n s.advanced s.deleted s.deleter
  /-- A reader in lockstep deletes what it read; otherwise only the deleter does. -/
  lockstep_eq : lockstep = true → s.advanced = s.deleted + s.reader.behind ∧ s.deleter = .idle
  not_behind : lockstep = false → s.reader.behind = 0

section Steps

variable {lockstep : Bool} {n : ℕ} {s : Megaqueue β}

theorem inv_initial (hn : 0 < n) (slots : ℕ → β) : (Megaqueue.initial slots).Inv lockstep n where
  head_eq := (Nat.zero_mod n).symm
  tail_eq := (Nat.zero_mod n).symm
  delete_eq := (Nat.zero_mod n).symm
  deleted_le := le_refl _
  advanced_le := le_refl _
  room := by simpa [Megaqueue.initial] using hn
  intact := fun i _ hi => absurd hi (Nat.not_lt_zero i)
  observed_eq := rfl
  producer := trivial
  reader := trivial
  deleter := trivial
  lockstep_eq := fun _ => ⟨rfl, rfl⟩
  not_behind := fun _ => rfl

/-- The test of `__megaqueue_is_full` is exact when `_delete` is loaded. -/
theorem Megaqueue.Inv.full_iff (hI : s.Inv lockstep n) {fullHead : ℕ}
    (hhead : fullHead = s.published.length % n) :
    s.delete = (fullHead + 1) % n ↔ s.published.length + 1 = s.deleted + n := by
  have hroom := hI.room
  have hdel := hI.deleted_le
  have hadv := hI.advanced_le
  rw [hI.delete_eq, hhead, Nat.mod_add_mod]
  constructor
  · intro heq
    by_contra hne
    have := (mod_eq_iff_of_lt_round (n := n) (by omega) (by omega)).1 heq
    omega
  · intro heq
    rw [heq, Nat.add_mod_right]

/-- The slot behind the last entry holds none of the entries outstanding. -/
theorem Megaqueue.Inv.mod_ne (hI : s.Inv lockstep n) {i : ℕ} (hi : s.deleted ≤ i)
    (hlt : i < s.published.length) : i % n ≠ s.published.length % n := by
  have hroom := hI.room
  intro heq
  have := (mod_eq_iff_of_lt_round (n := n) (by omega) (by omega)).1 heq
  omega

/-! ### The producer -/

theorem ProducerOk.mono_deleted {published deleted deleted' : ℕ} (h : deleted ≤ deleted')
    {pc : ProducerPc} (hp : ProducerOk n published deleted pc) :
    ProducerOk n published deleted' pc := by
  cases pc with
  | idle => trivial
  | nextSlotHead _ => exact hp
  | nextSlotDelete _ _ => exact hp
  | filling _ => exact ⟨hp.1, by have := hp.2; omega⟩
  | advanceDelete _ _ => exact ⟨hp.1, by have := hp.2.1; omega, hp.2.2⟩
  | advanceHead _ => exact ⟨hp.1, by have := hp.2; omega⟩
  | advanceStore _ _ => exact ⟨hp.1, by have := hp.2.1; omega, hp.2.2⟩

theorem Megaqueue.Inv.withProducer (hI : s.Inv lockstep n) {pc : ProducerPc}
    (hp : ProducerOk n s.published.length s.deleted pc) :
    Megaqueue.Inv lockstep n { s with producer := pc } :=
  { hI with producer := hp }

theorem ReaderOk.mono_published {published published' advanced : ℕ} (h : published ≤ published')
    {pc : ReaderPc} (hr : ReaderOk n published advanced pc) : ReaderOk n published' advanced pc := by
  have hseen : ∀ low off, SeenHead n low advanced published off →
      SeenHead n low advanced published' off := by
    rintro low off ⟨k, hlow, hk, hround, rfl⟩
    exact ⟨k, hlow, hk.trans h, hround, rfl⟩
  cases pc with
  | idle => trivial
  | nextSlotHead _ => exact hr
  | nextSlotTail _ _ => exact ⟨hr.1, hseen _ _ hr.2⟩
  | reading _ => exact ⟨hr.1, hr.2.trans_le h⟩
  | advanceHead => exact Nat.lt_of_lt_of_le hr h
  | advanceTail _ => exact ⟨hr.1.trans_le h, hseen _ _ hr.2⟩
  | advanceLoad => exact Nat.lt_of_lt_of_le hr h
  | advanceStore _ => exact ⟨hr.1.trans_le h, hr.2⟩
  | storeDelete _ => exact hr

theorem ReaderOk.seen_le {published advanced : ℕ} (hle : advanced ≤ published) {pc : ReaderPc}
    (hr : ReaderOk n published advanced pc) : advanced + pc.seen ≤ published := by
  cases pc with
  | advanceHead => exact hr
  | advanceTail _ => exact hr.1
  | advanceLoad => exact hr
  | advanceStore _ => exact hr.1
  | _ => exact hle

/-- Publishing: the slot that was filled becomes the youngest entry. -/
theorem Megaqueue.Inv.publish (hI : s.Inv lockstep n) {off : ℕ}
    (hoff : off = s.published.length % n) (hroom : s.published.length + 1 < s.deleted + n) :
    Megaqueue.Inv lockstep n
      { s with
        head := (off + 1) % n
        producer := .idle
        published := s.published ++ [s.slots off] } := by
  have hadv := hI.advanced_le
  refine { hI with
    head_eq := ?_, advanced_le := ?_, room := ?_, intact := ?_, observed_eq := ?_,
    producer := trivial, reader := ?_ }
  · simp only [List.length_append, List.length_singleton]
    rw [hoff, Nat.mod_add_mod]
  · simp only [List.length_append, List.length_singleton]
    omega
  · simp only [List.length_append, List.length_singleton]
    exact hroom
  · intro i hi hlt
    simp only [List.length_append, List.length_singleton] at hlt
    by_cases hlast : i = s.published.length
    · subst hlast
      rw [List.getElem?_concat_length, hoff]
    · rw [List.getElem?_append_left (by omega)]
      exact hI.intact i hi (by omega)
  · have hseen := hI.reader.seen_le hadv
    rw [List.take_append_of_le_length hseen]
    exact hI.observed_eq
  · have hlen : s.published.length ≤ (s.published ++ [s.slots off]).length := by simp
    exact hI.reader.mono_published hlen

theorem Megaqueue.Inv.stepProducer (hI : s.Inv lockstep n) :
    (stepProducer n s).Inv lockstep n := by
  have hp := hI.producer
  have hhead := hI.head_eq
  unfold Tsl.stepProducer
  split <;> rename_i heq <;> rw [heq] at hp
  · exact hI.withProducer hhead
  · exact hI.withProducer ⟨hp, hhead⟩
  · split
    · exact hI.withProducer trivial
    · next hfull =>
      have hroom := hI.room
      rw [hI.full_iff hp.2] at hfull
      exact hI.withProducer ⟨hp.1, by omega⟩
  · exact hI.withProducer ⟨hp.1, hp.2, hhead⟩
  · split
    · exact hI.withProducer trivial
    · exact hI.withProducer ⟨hp.1, hp.2.1⟩
  · exact hI.withProducer ⟨hp.1, hp.2, hhead⟩
  · obtain ⟨rfl, hroom, rfl⟩ := hp
    exact hI.publish rfl hroom

theorem Megaqueue.Inv.write (hI : s.Inv lockstep n) {off : ℕ} (hpc : s.producer = .filling off)
    (content : β) :
    Megaqueue.Inv lockstep n { s with slots := Function.update s.slots off content } := by
  have hp := hI.producer
  rw [hpc] at hp
  refine { hI with intact := ?_ }
  intro i hi hlt
  have hne : i % n ≠ off := hp.1 ▸ hI.mod_ne hi hlt
  simp only [Function.update_of_ne hne]
  exact hI.intact i hi hlt

/-! ### The reader -/

theorem Megaqueue.Inv.withReader (hI : s.Inv lockstep n) {pc : ReaderPc}
    (hr : ReaderOk n s.published.length s.advanced pc) (hseen : pc.seen = s.reader.seen)
    (hbehind : pc.behind = s.reader.behind) :
    Megaqueue.Inv lockstep n { s with reader := pc } :=
  { hI with
    observed_eq := by simpa only [hseen] using hI.observed_eq
    reader := hr
    lockstep_eq := by simpa only [hbehind] using hI.lockstep_eq
    not_behind := by simpa only [hbehind] using hI.not_behind }

theorem Megaqueue.Inv.seenHead (hI : s.Inv lockstep n) {low : ℕ} (hlow : low ≤ s.published.length) :
    SeenHead n low s.advanced s.published.length s.head := by
  have hroom := hI.room
  have hdel := hI.deleted_le
  exact ⟨_, hlow, le_refl _, by omega, hI.head_eq⟩

theorem DeleterOk.mono_advanced {advanced advanced' deleted : ℕ} (h : advanced ≤ advanced')
    {pc : DeleterPc} (hd : DeleterOk n advanced deleted pc) : DeleterOk n advanced' deleted pc := by
  cases pc with
  | idle => trivial
  | checkDelete _ =>
      obtain ⟨t, hlow, hhigh, heq⟩ := hd
      exact ⟨t, hlow, hhigh.trans h, heq⟩
  | advanceLoad => exact Nat.lt_of_lt_of_le hd h
  | advanceStore _ => exact ⟨hd.1.trans_le h, hd.2⟩

theorem Megaqueue.Inv.read (hI : s.Inv lockstep n) {off : ℕ} (hpc : s.reader = .reading off) :
    Megaqueue.Inv lockstep n
      { s with reader := .advanceHead, observed := s.observed ++ [s.slots off] } := by
  have hr := hI.reader
  have hobs := hI.observed_eq
  rw [hpc] at hr hobs
  obtain ⟨rfl, hlt⟩ := hr
  refine { hI with observed_eq := ?_, reader := hlt, lockstep_eq := ?_, not_behind := ?_ }
  · have hentry := hI.intact s.advanced hI.deleted_le hlt
    simp only [ReaderPc.seen, Nat.add_zero] at hobs ⊢
    rw [List.take_add_one, hentry, hobs]
    rfl
  · have := hI.lockstep_eq
    rw [hpc] at this
    exact this
  · exact fun _ => rfl

/-- Advancing `tail` over an entry that was read. -/
theorem Megaqueue.Inv.advance (hI : s.Inv lockstep n) {off : ℕ}
    (hpc : s.reader = .advanceStore off) :
    Megaqueue.Inv lockstep n
      { s with
        tail := (off + 1) % n
        advanced := s.advanced + 1
        reader := if lockstep then .storeDelete ((off + 1) % n) else .idle } := by
  have hr := hI.reader
  have hobs := hI.observed_eq
  have hlock := hI.lockstep_eq
  rw [hpc] at hr hobs hlock
  obtain ⟨hlt, rfl⟩ := hr
  have hdel := hI.deleted_le
  have hmod : (s.advanced % n + 1) % n = (s.advanced + 1) % n := Nat.mod_add_mod _ _ _
  refine { hI with
    tail_eq := hmod, deleted_le := hdel.trans (Nat.le_succ _), advanced_le := hlt,
    observed_eq := ?_, reader := ?_, deleter := hI.deleter.mono_advanced (Nat.le_succ _),
    lockstep_eq := ?_, not_behind := ?_ }
  · simp only [ReaderPc.seen] at hobs
    cases lockstep <;> exact hobs
  · cases lockstep
    · exact trivial
    · exact hmod
  · rintro rfl
    obtain ⟨heq, hidle⟩ := hlock rfl
    simp only [ReaderPc.behind] at heq
    exact ⟨by simp only [if_true, ReaderPc.behind]; omega, hidle⟩
  · rintro rfl
    rfl

theorem Megaqueue.Inv.stepReader (hI : s.Inv lockstep n) :
    (stepReader lockstep n s).Inv lockstep n := by
  have hr := hI.reader
  have hadv := hI.advanced_le
  unfold Tsl.stepReader
  split <;> rename_i hpc
  · exact hI.withReader hI.tail_eq (by rw [hpc]; rfl) (by rw [hpc]; rfl)
  · rw [hpc] at hr
    exact hI.withReader ⟨hr, hI.seenHead hadv⟩ (by rw [hpc]; rfl) (by rw [hpc]; rfl)
  · rw [hpc] at hr
    split
    · exact hI.withReader trivial (by rw [hpc]; rfl) (by rw [hpc]; rfl)
    · next hne =>
      obtain ⟨hoff, h, hlow, hle, -, rfl⟩ := hr
      have hlt : s.advanced < h := by
        refine Nat.lt_of_le_of_ne hlow fun heq => hne ?_
        rw [hI.tail_eq, heq]
      exact hI.withReader ⟨hoff, hlt.trans_le hle⟩ (by rw [hpc]; rfl) (by rw [hpc]; rfl)
  · exact hI.read hpc
  · rw [hpc] at hr
    exact hI.withReader ⟨hr, hI.seenHead hr⟩ (by rw [hpc]; rfl) (by rw [hpc]; rfl)
  · rw [hpc] at hr
    obtain ⟨hlt, h, hlow, hle, hround, rfl⟩ := hr
    -- the entry that was read is still there, whenever `head` was loaded
    have hne : ¬ s.tail = h % n := by
      rw [hI.tail_eq]
      intro heq
      have := (mod_eq_iff_of_lt_round (n := n) (by omega) hround).1 heq
      omega
    rw [if_neg hne]
    exact hI.withReader hlt (by rw [hpc]; rfl) (by rw [hpc]; rfl)
  · rw [hpc] at hr
    exact hI.withReader ⟨hr, hI.tail_eq⟩ (by rw [hpc]; rfl) (by rw [hpc]; rfl)
  · exact hI.advance hpc
  · next off =>
    -- only a reader in lockstep gets here
    have hlock : lockstep = true := by
      by_contra hfalse
      have := hI.not_behind (by simpa using hfalse)
      rw [hpc] at this
      cases this
    obtain ⟨heq, hidle⟩ := hI.lockstep_eq hlock
    have hobs := hI.observed_eq
    rw [hpc] at hr heq hobs
    simp only [ReaderPc.behind] at heq
    have hroom := hI.room
    refine { hI with
      delete_eq := ?_, deleted_le := ?_, room := ?_, intact := ?_, observed_eq := hobs,
      producer := hI.producer.mono_deleted (Nat.le_succ _), reader := trivial, deleter := ?_,
      lockstep_eq := ?_, not_behind := fun _ => rfl }
    · rw [← heq]
      exact hr
    · simp only
      omega
    · simp only
      omega
    · intro i hi hlt
      exact hI.intact i (Nat.le_of_succ_le hi) hlt
    · simp only [hidle]
      trivial
    · exact fun _ => ⟨heq, hidle⟩

/-! ### The deleter -/

/-- Without lockstep, `_delete` may follow `tail`. -/
theorem Megaqueue.Inv.deleteOne (hI : s.Inv false n) {off : ℕ}
    (hpc : s.deleter = .advanceStore off) :
    Megaqueue.Inv false n
      { s with delete := (off + 1) % n, deleted := s.deleted + 1, deleter := .idle } := by
  have hd := hI.deleter
  rw [hpc] at hd
  obtain ⟨hlt, rfl⟩ := hd
  have hroom := hI.room
  refine { hI with
    delete_eq := Nat.mod_add_mod _ _ _, deleted_le := hlt, room := ?_, intact := ?_,
    producer := hI.producer.mono_deleted (Nat.le_succ _), deleter := trivial, lockstep_eq := ?_ }
  · simp only
    omega
  · intro i hi hi'
    exact hI.intact i (Nat.le_of_succ_le hi) hi'
  · exact fun h => absurd h (by decide)

theorem Megaqueue.Inv.stepDeleter (hI : s.Inv false n) : (stepDeleter n s).Inv false n := by
  have hd := hI.deleter
  have hwith : ∀ pc, DeleterOk n s.advanced s.deleted pc →
      Megaqueue.Inv false n { s with deleter := pc } := fun pc hpc =>
    { hI with deleter := hpc, lockstep_eq := fun h => absurd h (by decide) }
  unfold Tsl.stepDeleter
  split <;> rename_i hpc
  · exact hwith _ ⟨s.advanced, hI.deleted_le, le_refl _, hI.tail_eq⟩
  · rw [hpc] at hd
    split
    · exact hwith _ trivial
    · next hne =>
      obtain ⟨t, hlow, hhigh, rfl⟩ := hd
      have hlt : s.deleted < t := by
        refine Nat.lt_of_le_of_ne hlow fun heq => hne ?_
        rw [hI.delete_eq, heq]
      exact hwith _ (hlt.trans_le hhigh)
  · rw [hpc] at hd
    exact hwith _ ⟨hd, hI.delete_eq⟩
  · exact hI.deleteOne hpc

theorem inv_megaqueueStep (s : Megaqueue β) (move : MegaqueueMove β) (s' : Megaqueue β)
    (hI : s.Inv lockstep n) (hstep : megaqueueStep lockstep n s move = some s') :
    s'.Inv lockstep n := by
  cases move with
  | producer => exact Option.some.inj hstep ▸ hI.stepProducer
  | write content =>
      simp only [megaqueueStep] at hstep
      split at hstep
      · next off hpc => exact Option.some.inj hstep ▸ hI.write hpc content
      · cases hstep
  | reader => exact Option.some.inj hstep ▸ hI.stepReader
  | deleter =>
      cases lockstep with
      | true => cases hstep
      | false => exact Option.some.inj hstep ▸ hI.stepDeleter

/-- The invariant is all the parties need. -/
theorem Megaqueue.Inv.isFifo (hI : s.Inv lockstep n) : IsFifo n s where
  in_order := by
    rw [hI.observed_eq]
    exact List.take_prefix _ _
  intact := hI.intact
  handed_free := by
    intro off hoff i hi hlt heq
    have hp := hI.producer
    refine hI.mod_ne hi hlt (heq.trans ?_)
    cases hpc : s.producer with
    | idle | nextSlotHead _ | nextSlotDelete _ _ =>
        rw [hpc] at hoff
        cases hoff
    | filling _ | advanceDelete _ _ | advanceHead _ | advanceStore _ _ =>
        rw [hpc] at hoff hp
        rw [← Option.some.inj hoff]
        exact hp.1
  outstanding := by
    have := hI.room
    omega
  offsets := ⟨hI.head_eq, hI.tail_eq, hI.delete_eq⟩
  cyclic := by
    have hroom := hI.room
    have hdel := hI.deleted_le
    have hadv := hI.advanced_le
    refine ⟨hdel, hadv, ?_, ?_⟩
    · rw [hI.tail_eq, hI.delete_eq]
      exact mod_distance hdel (by omega)
    · rw [hI.head_eq, hI.delete_eq]
      exact mod_distance (hdel.trans hadv) hroom

end Steps

/-- **A megaqueue is a FIFO** after every interleaving of the accesses of a producer with those of a
    reader in lockstep, or of a reader and a deleter, for every number of slots. -/
theorem isFifo_of_run {objectCount : ℕ} (hcount : 1 ≤ objectCount) (lockstep : Bool)
    (slots : ℕ → β) (moves : List (MegaqueueMove β)) {s : Megaqueue β}
    (hrun : exec (megaqueueStep lockstep objectCount) (.initial slots) moves = some s) :
    IsFifo objectCount s :=
  (exec_invariant (I := Megaqueue.Inv lockstep objectCount) inv_megaqueueStep
    (inv_initial hcount slots) hrun).isFifo

/-- Two slots, one message: the reader looks before it is published, and finds it after. -/
theorem isFifo_of_run_one :
    ∃ s : Megaqueue ℕ, exec (megaqueueStep true 2) (.initial fun _ => 0)
        [.reader, .producer, .producer, .producer, .write 7, .reader, .producer, .reader, .producer,
          .producer, .producer, .reader, .reader, .reader, .reader] = some s ∧
      s.observed = [7] ∧ IsFifo 2 s := by
  obtain ⟨s, hs, hobs⟩ := Option.map_eq_some_iff.1 (show (exec (megaqueueStep true 2)
    (.initial fun _ => 0)
    [.reader, .producer, .producer, .producer, .write 7, .reader, .producer, .reader, .producer,
      .producer, .producer, .reader, .reader, .reader, .reader]).map Megaqueue.observed = some [7]
    by decide +kernel)
  exact ⟨s, hs, hobs, isFifo_of_run (by decide) true _ _ hs⟩

end Tsl
