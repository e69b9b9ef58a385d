import Mathlib.Algebra.Group.Nat.Defs
import Mathlib.Data.List.Basic
import Tsl.Lib.Machine
import Tsl.Result

set_option autoImplicit false

/-! # Work queues

`tsl/work_queue.h`: a FIFO of message pointers between threads, wrapped around the ring buffer of
`ck_ring.h`. There are two wrapper families over one ring, for a single consumer
(`work_queue_push`, `work_queue_pop`) and for several (`work_queue_spmc_push`,
`work_queue_spmc_pop`).

The ring itself is not part of this library, so it is a parameter: `CkRing` is the part of its
interface the wrappers call, `CkRing.BoundedFifo` its documented behaviour. A message pointer is an
`Option μ` with `none` for `NULL`. -/

namespace Tsl

variable {ρ μ : Type*}

/-- The operations of `ck_ring.h` the wrappers use, over a ring with its buffer (`ρ`). Every
    operation answers its `bool`; a dequeue is given what `*data` holds and answers what it leaves
    there. -/
structure CkRing (ρ μ : Type*) where
  /-- `ck_ring_init`; its size is an `unsigned int`. -/
  init : ℕ → ρ
  enqueueSpsc : ρ → Option μ → Bool × ρ
  dequeueSpsc : ρ → Option μ → Bool × Option μ × ρ
  enqueueSpmc : ρ → Option μ → Bool × ρ
  dequeueSpmc : ρ → Option μ → Bool × Option μ × ρ

/-- An enqueue appends and answers `true` while there is room, and otherwise answers `false` and
    changes nothing. -/
structure IsEnqueue (contents : ρ → List (Option μ)) (room : ρ → ℕ)
    (enq : ρ → Option μ → Bool × ρ) : Prop where
  flag : ∀ r x, (enq r x).1 = decide ((contents r).length < room r)
  appends : ∀ r x, (contents r).length < room r → contents (enq r x).2 = contents r ++ [x]
  full : ∀ r x, ¬ (contents r).length < room r → contents (enq r x).2 = contents r
  room_eq : ∀ r x, room (enq r x).2 = room r

/-- A dequeue takes the oldest entry and answers `true`, and on an empty ring answers `false` and
    leaves `*data` alone. -/
structure IsDequeue (contents : ρ → List (Option μ)) (room : ρ → ℕ)
    (deq : ρ → Option μ → Bool × Option μ × ρ) : Prop where
  empty : ∀ r p, contents r = [] → (deq r p).1 = false ∧ (deq r p).2.1 = p ∧
    contents (deq r p).2.2 = []
  takes : ∀ r p x xs, contents r = x :: xs → (deq r p).1 = true ∧ (deq r p).2.1 = x ∧
    contents (deq r p).2.2 = xs
  room_eq : ∀ r p, room (deq r p).2.2 = room r

/-- What the wrappers rely on: both families of operations act on one bounded FIFO. -/
structure CkRing.BoundedFifo (ck : CkRing ρ μ) (contents : ρ → List (Option μ)) (room : ρ → ℕ) :
    Prop where
  init : ∀ n, contents (ck.init n) = []
  enqueueSpsc : IsEnqueue contents room ck.enqueueSpsc
  dequeueSpsc : IsDequeue contents room ck.dequeueSpsc
  enqueueSpmc : IsEnqueue contents room ck.enqueueSpmc
  dequeueSpmc : IsDequeue contents room ck.dequeueSpmc

/-! ## The wrappers -/

/-- `struct work_queue`; `buffer` says that its buffer pointer is not `NULL`. -/
structure WorkQueue (ρ : Type*) where
  fifo : ρ
  maxItems : ℕ
  buffer : Bool

/-- `work_queue_new`; `calloc` is whether the buffer could be allocated. -/
def workQueueNew (ck : CkRing ρ μ) (maxItems : ℕ) (calloc : Bool) : AResult × Option (WorkQueue ρ) :=
  if ¬ maxItems > 4 then (aEBadargs, none)
  else if ¬ maxItems &&& (maxItems - 1) = 0 then (aEBadargs, none)
  else if calloc = false then (aENomem, none)
  else (aOk, some { fifo := ck.init (maxItems % 2 ^ 32), maxItems := maxItems, buffer := true })

/-- `work_queue_push`. -/
def workQueuePush (ck : CkRing ρ μ) (q : WorkQueue ρ) (ptr : Option μ) : AResult × WorkQueue ρ :=
  if ptr = none then (aEBadargs, q)
  else if q.buffer = false then (aEBadargs, q)
  else
    match ck.enqueueSpsc q.fifo ptr with
    | (false, fifo) => (aEBusy, { q with fifo := fifo })
    | (true, fifo) => (aOk, { q with fifo := fifo })

/-- `work_queue_pop`; `ptr` is what `*ptr` holds before the call, the second answer what it holds
    after. -/
def workQueuePop (ck : CkRing ρ μ) (q : WorkQueue ρ) (ptr : Option μ) :
    AResult × Option μ × WorkQueue ρ :=
  if q.buffer = false then (aEBadargs, ptr, q)
  else
    match ck.dequeueSpsc q.fifo ptr with
    | (false, _, fifo) => (aOk, none, { q with fifo := fifo })
    | (true, ptr, fifo) => (aOk, ptr, { q with fifo := fifo })

/-- `work_queue_fill`, with `ck_ring_size`; the second answer is what `*fill` holds after the call. -/
def workQueueFill (ckRingSize : ρ → ℕ) (q : WorkQueue ρ) (fill : ℕ) : AResult × ℕ :=
  if q.buffer = false then (aEBadargs, fill) else (aOk, ckRingSize q.fifo)

/-- `struct work_queue_spmc`. -/
structure WorkQueueSpmc (ρ : Type*) where
  q : WorkQueue ρ

/-- `work_queue_spmc_new`. -/
def workQueueSpmcNew (ck : CkRing ρ μ) (nrItems : ℕ) (calloc : Bool) :
    AResult × Option (WorkQueueSpmc ρ) :=
  let (ret, q) := workQueueNew ck nrItems calloc
  (ret, q.map WorkQueueSpmc.mk)

/-- `work_queue_spmc_push`: a ring that took the message is reported as busy. -/
def workQueueSpmcPush (ck : CkRing ρ μ) (q : WorkQueueSpmc ρ) (message : Option μ) :
    AResult × WorkQueueSpmc ρ :=
  match ck.enqueueSpmc q.q.fifo message with
  | (true, fifo) => (aEBusy, { q := { q.q with fifo := fifo } })
  | (false, fifo) => (aOk, { q := { q.q with fifo := fifo } })

/-- `work_queue_spmc_pop`: a ring that gave a message is reported as empty. -/
def workQueueSpmcPop (ck : CkRing ρ μ) (q : WorkQueueSpmc ρ) (message : Option μ) :
    AResult × Option μ × WorkQueueSpmc ρ :=
  match ck.dequeueSpmc q.q.fifo message with
  | (true, message, fifo) => (aEEmpty, message, { q := { q.q with fifo := fifo } })
  | (false, message, fifo) => (aOk, message, { q := { q.q with fifo := fifo } })

/-! ## Runs of either family and what an observer sees -/

/-- One call on a queue. A push is given a non-`NULL` message, a pop what `*data` holds before. -/
inductive QueueCall (μ : Type*)
  | push (m : μ)
  | pop (data : Option μ)

/-- One call of a run: the ring before, the result code, what a pop leaves in `*data` (`none` for a
    push), the ring after. -/
structure QueueEvent (μ : Type*) where
  call : QueueCall μ
  before : List (Option μ)
  room : ℕ
  result : AResult
  data : Option μ
  after : List (Option μ)

/-- The part the two families share: a queue with its ring, a push and a pop. -/
structure QueueApi (σ ρ μ : Type*) where
  ring : σ → ρ
  push : σ → Option μ → AResult × σ
  pop : σ → Option μ → AResult × Option μ × σ

/-- `work_queue_push` and `work_queue_pop`. -/
def spscApi (ck : CkRing ρ μ) : QueueApi (WorkQueue ρ) ρ μ :=
  ⟨WorkQueue.fifo, workQueuePush ck, workQueuePop ck⟩

/-- `work_queue_spmc_push` and `work_queue_spmc_pop`. -/
def spmcApi (ck : CkRing ρ μ) : QueueApi (WorkQueueSpmc ρ) ρ μ :=
  ⟨fun q => q.q.fifo, workQueueSpmcPush ck, workQueueSpmcPop ck⟩

section Runs

variable {σ : Type*} (api : QueueApi σ ρ μ) (contents : ρ → List (Option μ)) (room : ρ → ℕ)

/-- The queue a call leaves. -/
def QueueApi.next (s : σ) : QueueCall μ → σ
  | .push m => (api.push s (some m)).2
  | .pop data => (api.pop s data).2.2

/-- The event of one call. -/
def QueueApi.event (s : σ) (c : QueueCall μ) : QueueEvent μ where
  call := c
  before := contents (api.ring s)
  room := room (api.ring s)
  result := match c with
    | .push m => (api.push s (some m)).1
    | .pop data => (api.pop s data).1
  data := match c with
    | .push _ => none
    | .pop data => (api.pop s data).2.1
  after := contents (api.ring (api.next s c))

/-- The events of a run of calls. -/
def QueueApi.trace : σ → List (QueueCall μ) → List (QueueEvent μ)
  | _, [] => []
  | s, c :: cs => api.event contents room s c :: QueueApi.trace (api.next s c) cs

/-- The queue a run of calls leaves. -/
def QueueApi.final (s : σ) (cs : List (QueueCall μ)) : σ := cs.foldl api.next s

end Runs

/-- The message of a push that answered `A_OK`. -/
def QueueEvent.accepted (e : QueueEvent μ) : Option μ :=
  match e.call with
  | .push m => if e.result = aOk then some m else none
  | .pop _ => none

/-- What a pop that answered `A_OK` left in `*data`. -/
def QueueEvent.delivered (e : QueueEvent μ) : Option (Option μ) :=
  match e.call with
  | .push _ => none
  | .pop _ => if e.result = aOk then some e.data else none

/-- The message a pop brought, for the family that answers `NULL` when there is none. -/
def QueueEvent.brought (e : QueueEvent μ) : Option (Option μ) :=
  match e.call with
  | .push _ => none
  | .pop _ => e.data.map some

/-- What a client sees of a call: whether a push was accepted, which message a pop brought. -/
inductive QueueObservation (μ : Type*)
  | pushed (accepted : Bool)
  | popped (message : Option μ)

/-- The observation of a single-consumer call: emptiness is a `NULL` message. -/
def QueueEvent.observedSpsc (e : QueueEvent μ) : QueueObservation μ :=
  match e.call with
  | .push _ => .pushed (decide (e.result = aOk))
  | .pop _ => .popped e.data

/-- The observation of a multi-consumer call: emptiness is a result other than `A_OK`. -/
def QueueEvent.observedSpmc (e : QueueEvent μ) : QueueObservation μ :=
  match e.call with
  | .push _ => .pushed (decide (e.result = aOk))
  | .pop _ => .popped (if e.result = aOk then e.data else none)

/-- `A_OK` exactly for the pushes that put their message into the ring. -/
def PushesReported (es : List (QueueEvent μ)) : Prop :=
  ∀ e ∈ es, ∀ m, e.call = .push m → (e.result = aOk ↔ e.after = e.before ++ [some m])

/-- A push at capacity fails. -/
def FullFails (es : List (QueueEvent μ)) : Prop :=
  ∀ e ∈ es, ∀ m, e.call = .push m → e.room ≤ e.before.length → afailed e.result = true

/-- A pop on an empty ring fails. -/
def EmptyFails (es : List (QueueEvent μ)) : Prop :=
  ∀ e ∈ es, ∀ data, e.call = .pop data → e.before = [] → afailed e.result = true

/-- A pop on an empty ring brings no message. -/
def EmptyBringsNone (es : List (QueueEvent μ)) : Prop :=
  ∀ e ∈ es, ∀ data, e.call = .pop data → e.before = [] → e.data = none

/-- What the single-consumer wrappers promise of a run on the queue `q`: results report what
    happened, and the messages the pops brought followed by what is left are the messages the pushes
    accepted. -/
structure SpscContract (ck : CkRing ρ μ) (contents : ρ → List (Option μ)) (room : ρ → ℕ)
    (q : WorkQueue ρ) (calls : List (QueueCall μ)) : Prop where
  pushes : PushesReported ((spscApi ck).trace contents room q calls)
  fifo : (((spscApi ck).trace contents room q calls).filterMap QueueEvent.accepted).map some =
    ((spscApi ck).trace contents room q calls).filterMap QueueEvent.brought ++
      contents ((spscApi ck).final q calls).fifo
  full : FullFails ((spscApi ck).trace contents room q calls)
  empty : EmptyBringsNone ((spscApi ck).trace contents room q calls)

/-- What the multi-consumer wrappers promise of a run on the queue `q`: results report what
    happened, what the pops delivered followed by what is left is what the pushes accepted, and an
    observer sees the run the single-consumer wrappers give on `q1`. -/
structure SpmcContract (ck : CkRing ρ μ) (contents : ρ → List (Option μ)) (room : ρ → ℕ)
    (q : WorkQueueSpmc ρ) (q1 : WorkQueue ρ) (calls : List (QueueCall μ)) : Prop where
  pushes : PushesReported ((spmcApi ck).trace contents room q calls)
  fifo : (((spmcApi ck).trace contents room q calls).filterMap QueueEvent.accepted).map some =
    ((spmcApi ck).trace contents room q calls).filterMap QueueEvent.delivered ++
      contents ((spmcApi ck).final q calls).q.fifo
  full : FullFails ((spmcApi ck).trace contents room q calls)
  empty : EmptyFails ((spmcApi ck).trace contents room q calls)
  as_spsc : ((spmcApi ck).trace contents room q calls).map QueueEvent.observedSpmc =
    ((spscApi ck).trace contents room q1 calls).map QueueEvent.observedSpsc

/-! ## What one call does -/

section Calls

variable {ck : CkRing ρ μ} {contents : ρ → List (Option μ)} {room : ρ → ℕ}

/-- The queue `work_queue_new` makes is empty and has a buffer. -/
theorem workQueueNew_ok (h : ck.BoundedFifo contents room) {n : ℕ} {calloc : Bool}
    {q : WorkQueue ρ} (hq : workQueueNew ck n calloc = (aOk, some q)) :
    q.buffer = true ∧ contents q.fifo = [] := by
  unfold workQueueNew at hq
  split_ifs at hq with h4 hpow hc
  all_goals simp only [Prod.mk.injEq, Option.some.injEq, reduceCtorEq, and_false] at hq
  obtain ⟨-, rfl⟩ := hq
  exact ⟨rfl, h.init _⟩

theorem workQueueSpmcNew_ok (h : ck.BoundedFifo contents room) {n : ℕ} {calloc : Bool}
    {q : WorkQueueSpmc ρ} (hq : workQueueSpmcNew ck n calloc = (aOk, some q)) :
    q.q.buffer = true ∧ contents q.q.fifo = [] := by
  simp only [workQueueSpmcNew, Prod.mk.injEq, Option.map_eq_some_iff] at hq
  obtain ⟨hret, q1, hq1, rfl⟩ := hq
  exact workQueueNew_ok h (Prod.ext hret hq1)

/-- A push of a message either appends it and answers `A_OK`, or finds no room, changes nothing and
    answers `A_E_BUSY`. -/
theorem workQueuePush_cases (h : ck.BoundedFifo contents room) {q : WorkQueue ρ}
    (hb : q.buffer = true) (m : μ) :
    ∃ fifo, room fifo = room q.fifo ∧
      (((contents q.fifo).length < room q.fifo ∧ contents fifo = contents q.fifo ++ [some m] ∧
          workQueuePush ck q (some m) = (aOk, { q with fifo := fifo })) ∨
        (room q.fifo ≤ (contents q.fifo).length ∧ contents fifo = contents q.fifo ∧
          workQueuePush ck q (some m) = (aEBusy, { q with fifo := fifo }))) := by
  have hflag := h.enqueueSpsc.flag q.fifo (some m)
  have hroom := h.enqueueSpsc.room_eq q.fifo (some m)
  have happ := h.enqueueSpsc.appends q.fifo (some m)
  have hfull := h.enqueueSpsc.full q.fifo (some m)
  refine ⟨(ck.enqueueSpsc q.fifo (some m)).2, hroom, ?_⟩
  by_cases hlt : (contents q.fifo).length < room q.fifo
  · refine Or.inl ⟨hlt, happ hlt, ?_⟩
    simp only [workQueuePush, reduceCtorEq, if_false, hb, Bool.true_eq_false]
    rw [decide_eq_true hlt] at hflag
    split <;> simp_all
  · refine Or.inr ⟨Nat.le_of_not_lt hlt, hfull hlt, ?_⟩
    simp only [workQueuePush, reduceCtorEq, if_false, hb, Bool.true_eq_false]
    rw [decide_eq_false hlt] at hflag
    split <;> simp_all

/-- A pop answers `A_OK` either way: with the oldest entry, or with `NULL` on an empty ring. -/
theorem workQueuePop_cases (h : ck.BoundedFifo contents room) {q : WorkQueue ρ}
    (hb : q.buffer = true) (data : Option μ) :
    ∃ fifo, room fifo = room q.fifo ∧
      ((contents q.fifo = [] ∧ contents fifo = [] ∧
          workQueuePop ck q data = (aOk, none, { q with fifo := fifo })) ∨
        (∃ x, contents q.fifo = x :: contents fifo ∧
          workQueuePop ck q data = (aOk, x, { q with fifo := fifo }))) := by
  have hroom := h.dequeueSpsc.room_eq q.fifo data
  refine ⟨(ck.dequeueSpsc q.fifo data).2.2, hroom, ?_⟩
  cases hc : contents q.fifo with
  | nil =>
      obtain ⟨hflag, -, hnil⟩ := h.dequeueSpsc.empty q.fifo data hc
      refine Or.inl ⟨rfl, hnil, ?_⟩
      simp only [workQueuePop, hb, Bool.true_eq_false, if_false]
      split <;> simp_all
  | cons x xs =>
      obtain ⟨hflag, hdata, hxs⟩ := h.dequeueSpsc.takes q.fifo data x xs hc
      refine Or.inr ⟨x, by rw [hxs], ?_⟩
      simp only [workQueuePop, hb, Bool.true_eq_false, if_false]
      split <;> simp_all

/-- What `work_queue_spmc_push` answers is the opposite of what the ring did. -/
theorem workQueueSpmcPush_result (h : ck.BoundedFifo contents room) (q : WorkQueueSpmc ρ) (m : μ) :
    ((contents q.q.fifo).length < room q.q.fifo ∧ (workQueueSpmcPush ck q (some m)).1 = aEBusy ∧
        contents (workQueueSpmcPush ck q (some m)).2.q.fifo = contents q.q.fifo ++ [some m]) ∨
      (room q.q.fifo ≤ (contents q.q.fifo).length ∧
        (workQueueSpmcPush ck q (some m)).1 = aOk ∧
        contents (workQueueSpmcPush ck q (some m)).2.q.fifo = contents q.q.fifo) := by
  have hflag := h.enqueueSpmc.flag q.q.fifo (some m)
  have happ := h.enqueueSpmc.appends q.q.fifo (some m)
  have hfull := h.enqueueSpmc.full q.q.fifo (some m)
  unfold workQueueSpmcPush
  by_cases hlt : (contents q.q.fifo).length < room q.q.fifo
  · rw [decide_eq_true hlt] at hflag
    refine Or.inl ⟨hlt, ?_⟩
    split <;> simp_all
  · rw [decide_eq_false hlt] at hflag
    refine Or.inr ⟨Nat.le_of_not_lt hlt, ?_⟩
    split <;> simp_all

theorem workQueueSpmcPop_empty (h : ck.BoundedFifo contents room) (q : WorkQueueSpmc ρ)
    (data : Option μ) (hc : contents q.q.fifo = []) : (workQueueSpmcPop ck q data).1 = aOk := by
  obtain ⟨hflag, -, -⟩ := h.dequeueSpmc.empty q.q.fifo data hc
  unfold workQueueSpmcPop
  split <;> simp_all

end Calls

/-! ## Runs -/

section Contracts

variable {ck : CkRing ρ μ} {contents : ρ → List (Option μ)} {room : ρ → ℕ}

/-- What a single-consumer call promises: its result reports what happened, and what was in the ring
    with the message it took is what it brought with what is left. -/
structure SpscEvent (e : QueueEvent μ) : Prop where
  pushes : ∀ m, e.call = .push m → (e.result = aOk ↔ e.after = e.before ++ [some m])
  full : ∀ m, e.call = .push m → e.room ≤ e.before.length → afailed e.result = true
  empty : ∀ data, e.call = .pop data → e.before = [] → e.data = none
  fifo : e.before ++ e.accepted.toList.map some = e.brought.toList ++ e.after

theorem spsc_push (h : ck.BoundedFifo contents room) {q : WorkQueue ρ} (hb : q.buffer = true)
    (hnull : none ∉ contents q.fifo) (m : μ) :
    SpscEvent ((spscApi ck).event contents room q (.push m)) ∧
      ((spscApi ck).next q (.push m)).buffer = true ∧
      none ∉ contents ((spscApi ck).next q (.push m)).fifo := by
  obtain ⟨fifo, -, ⟨hlt, happ, hcall⟩ | ⟨hge, hsame, hcall⟩⟩ := workQueuePush_cases h hb m
  · have hnext : (spscApi ck).next q (.push m) = { q with fifo := fifo } := by
      simp [QueueApi.next, spscApi, hcall]
    have hev : (spscApi ck).event contents room q (.push m) =
        ⟨.push m, contents q.fifo, room q.fifo, aOk, none, contents q.fifo ++ [some m]⟩ := by
      simp [QueueApi.event, QueueApi.next, spscApi, hcall, happ]
    rw [hnext, hev]
    refine ⟨⟨?_, ?_, by simp, ?_⟩, hb, by simp [happ, hnull]⟩
    · simp
    · intro _ _ hle
      exact absurd hlt (Nat.not_lt.2 hle)
    · simp [QueueEvent.accepted, QueueEvent.brought]
  · have hnext : (spscApi ck).next q (.push m) = { q with fifo := fifo } := by
      simp [QueueApi.next, spscApi, hcall]
    have hev : (spscApi ck).event contents room q (.push m) =
        ⟨.push m, contents q.fifo, room q.fifo, aEBusy, none, contents q.fifo⟩ := by
      simp [QueueApi.event, QueueApi.next, spscApi, hcall, hsame]
    have hbusy : aEBusy ≠ aOk := aresultError_ne_aOk _ _
    rw [hnext, hev]
    refine ⟨⟨?_, fun _ _ _ => afailed_aresultError _ _, by simp, ?_⟩, hb, by simp [hsame, hnull]⟩
    · simp [hbusy]
    · simp [QueueEvent.accepted, QueueEvent.brought, hbusy]

theorem spsc_pop (h : ck.BoundedFifo contents room) {q : WorkQueue ρ} (hb : q.buffer = true)
    (hnull : none ∉ contents q.fifo) (data : Option μ) :
    SpscEvent ((spscApi ck).event contents room q (.pop data)) ∧
      ((spscApi ck).next q (.pop data)).buffer = true ∧
      none ∉ contents ((spscApi ck).next q (.pop data)).fifo := by
  obtain ⟨fifo, -, ⟨hnil, hnil', hcall⟩ | ⟨x, hcons, hcall⟩⟩ := workQueuePop_cases h hb data
  · have hnext : (spscApi ck).next q (.pop data) = { q with fifo := fifo } := by
      simp [QueueApi.next, spscApi, hcall]
    have hev : (spscApi ck).event contents room q (.pop data) =
        ⟨.pop data, [], room q.fifo, aOk, none, []⟩ := by
      simp [QueueApi.event, QueueApi.next, spscApi, hcall, hnil, hnil']
    rw [hnext, hev]
    refine ⟨⟨by simp, by simp, by simp, ?_⟩, hb, by simp [hnil']⟩
    simp [QueueEvent.accepted, QueueEvent.brought]
  · -- the oldest entry is a message
    rw [hcons, List.mem_cons, not_or] at hnull
    obtain ⟨y, rfl⟩ := Option.ne_none_iff_exists'.1 (Ne.symm hnull.1)
    have hnext : (spscApi ck).next q (.pop data) = { q with fifo := fifo } := by
      simp [QueueApi.next, spscApi, hcall]
    have hev : (spscApi ck).event contents room q (.pop data) =
        ⟨.pop data, some y :: contents fifo, room q.fifo, aOk, some y, contents fifo⟩ := by
      simp [QueueApi.event, QueueApi.next, spscApi, hcall, hcons]
    rw [hnext, hev]
    refine ⟨⟨by simp, by simp, by simp, ?_⟩, hb, hnull.2⟩
    simp [QueueEvent.accepted, QueueEvent.brought]

/-- **One call** on a queue that holds no `NULL`, which stays so. -/
theorem spsc_step (h : ck.BoundedFifo contents room) {q : WorkQueue ρ} (hb : q.buffer = true)
    (hnull : none ∉ contents q.fifo) (c : QueueCall μ) :
    SpscEvent ((spscApi ck).event contents room q c) ∧
      ((spscApi ck).next q c).buffer = true ∧ none ∉ contents ((spscApi ck).next q c).fifo := by
  cases c with
  | push m => exact spsc_push h hb hnull m
  | pop data => exact spsc_pop h hb hnull data

theorem filterMap_cons_toList {α β : Type*} (f : α → Option β) (x : α) (xs : List α) :
    (x :: xs).filterMap f = (f x).toList ++ xs.filterMap f := by
  cases hx : f x <;> simp [hx]

/-- The single-consumer run from any queue that holds no `NULL`: what it held, followed by what the
    pushes accepted, is what the pops brought followed by what is left. -/
theorem spsc_run (h : ck.BoundedFifo contents room) (calls : List (QueueCall μ)) :
    ∀ q : WorkQueue ρ, q.buffer = true → none ∉ contents q.fifo →
      (∀ e ∈ (spscApi ck).trace contents room q calls, SpscEvent e) ∧
      contents q.fifo ++
          (((spscApi ck).trace contents room q calls).filterMap QueueEvent.accepted).map some =
        ((spscApi ck).trace contents room q calls).filterMap QueueEvent.brought ++
          contents ((spscApi ck).final q calls).fifo := by
  induction calls with
  | nil =>
      intro q _ _
      simp [QueueApi.trace, QueueApi.final]
  | cons c cs ih =>
      intro q hb hnull
      obtain ⟨hevent, hb', hnull'⟩ := spsc_step h hb hnull c
      obtain ⟨hevents, hseq⟩ := ih _ hb' hnull'
      refine ⟨List.forall_mem_cons.2 ⟨hevent, hevents⟩, ?_⟩
      have hfinal : (spscApi ck).final q (c :: cs) =
        (spscApi ck).final ((spscApi ck).next q c) cs := rfl
      have hfifo : contents q.fifo ++ _ = _ ++ contents ((spscApi ck).next q c).fifo := hevent.fifo
      rw [hfinal, QueueApi.trace, filterMap_cons_toList, filterMap_cons_toList, List.map_append,
        ← List.append_assoc, hfifo, List.append_assoc, hseq, List.append_assoc]

/-- **The single-consumer wrappers are a bounded FIFO** for every run on a new queue. -/
theorem spsc_contract (h : ck.BoundedFifo contents room) {n : ℕ} {calloc : Bool} {q : WorkQueue ρ}
    (hq : workQueueNew ck n calloc = (aOk, some q)) (calls : List (QueueCall μ)) :
    SpscContract ck contents room q calls := by
  obtain ⟨hb, hnil⟩ := workQueueNew_ok h hq
  obtain ⟨hevents, hseq⟩ := spsc_run h calls q hb (by simp [hnil])
  exact ⟨fun e he => (hevents e he).pushes, by rw [← hseq, hnil, List.nil_append],
    fun e he => (hevents e he).full, fun e he => (hevents e he).empty⟩

/-- **The multi-consumer wrappers keep their contract on no run that calls them.** The first call
    already misreports: a push answers `A_OK` only when it did not enqueue, and a pop answers `A_OK`
    on the empty ring. -/
theorem spmc_contract_iff (h : ck.BoundedFifo contents room) {n : ℕ} {calloc : Bool}
    {q : WorkQueueSpmc ρ} {q1 : WorkQueue ρ} (hq : workQueueSpmcNew ck n calloc = (aOk, some q))
    (hq1 : workQueueNew ck n calloc = (aOk, some q1)) (calls : List (QueueCall μ)) :
    SpmcContract ck contents room q q1 calls ↔ calls = [] := by
  obtain ⟨-, hnil⟩ := workQueueSpmcNew_ok h hq
  obtain ⟨-, hnil1⟩ := workQueueNew_ok h hq1
  constructor
  · intro hc
    cases calls with
    | nil => rfl
    | cons c cs =>
        exfalso
        cases c with
        | push m =>
            have hrep := hc.pushes _ List.mem_cons_self m rfl
            simp only [QueueApi.event, QueueApi.next, spmcApi] at hrep
            obtain ⟨-, hret, happ⟩ | ⟨-, hret, hsame⟩ := workQueueSpmcPush_result h q m
            · rw [hret, happ] at hrep
              exact aresultError_ne_aOk _ _ (hrep.2 rfl)
            · have := hrep.1 hret
              rw [hsame] at this
              simp at this
        | pop data =>
            have hfail := hc.empty _ List.mem_cons_self data rfl hnil
            have hok : (workQueueSpmcPop ck q data).1 = aOk := workQueueSpmcPop_empty h q data hnil
            simp only [QueueApi.event, spmcApi, hok, afailed_aOk, Bool.false_eq_true] at hfail
  · rintro rfl
    constructor <;>
      simp [QueueApi.trace, QueueApi.final, PushesReported, FullFails, EmptyFails, hnil]

end Contracts

/-! ## A concrete ring -/

/-- A ring as a list and the number of entries it can hold; a `ck_ring` of size `n` holds `n - 1`. -/
def listRing : CkRing (List (Option μ) × ℕ) μ where
  init n := ([], n - 1)
  enqueueSpsc r x := if r.1.length < r.2 then (true, r.1 ++ [x], r.2) else (false, r)
  dequeueSpsc r p := match r with
    | ([], k) => (false, p, [], k)
    | (x :: xs, k) => (true, x, xs, k)
  enqueueSpmc r x := if r.1.length < r.2 then (true, r.1 ++ [x], r.2) else (false, r)
  dequeueSpmc r p := match r with
    | ([], k) => (false, p, [], k)
    | (x :: xs, k) => (true, x, xs, k)

theorem listRing_boundedFifo : (listRing (μ := μ)).BoundedFifo Prod.fst Prod.snd := by
  have henq : IsEnqueue Prod.fst Prod.snd (listRing (μ := μ)).enqueueSpsc := by
    constructor <;> intro r x <;> simp only [listRing] <;> split <;> simp_all
  have hdeq : IsDequeue Prod.fst Prod.snd (listRing (μ := μ)).dequeueSpsc := by
    constructor
    · rintro ⟨_, k⟩ p rfl
      exact ⟨rfl, rfl, rfl⟩
    · rintro ⟨_, k⟩ p x xs rfl
      exact ⟨rfl, rfl, rfl⟩
    · rintro ⟨_ | ⟨x, xs⟩, k⟩ p <;> rfl
  exact ⟨fun _ => rfl, henq, hdeq, henq, hdeq⟩

/-- On an eight-entry queue the first multi-consumer push enqueues its message and answers
    `A_E_BUSY`. -/
theorem spmc_contract_push_fails :
    ∃ (q : WorkQueueSpmc (List (Option ℕ) × ℕ)) (q1 : WorkQueue (List (Option ℕ) × ℕ)),
      workQueueSpmcNew listRing 8 true = (aOk, some q) ∧
      workQueueNew listRing 8 true = (aOk, some q1) ∧
      (workQueueSpmcPush listRing q (some 7)).1 = aEBusy ∧
      (workQueueSpmcPush listRing q (some 7)).2.q.fifo.1 = [some 7] ∧
      ¬ SpmcContract listRing Prod.fst Prod.snd q q1 [.push 7] := by
  refine ⟨⟨⟨([], 7), 8, true⟩⟩, ⟨([], 7), 8, true⟩, rfl, rfl, rfl, rfl, fun hc => ?_⟩
  have hrep := hc.pushes _ List.mem_cons_self 7 rfl
  exact absurd (hrep.2 rfl) (by decide)

theorem spmc_contract_iff_push :
    SpmcContract listRing Prod.fst Prod.snd ⟨⟨([], 7), 8, true⟩⟩ ⟨([], 7), 8, true⟩
      [.push 7, .pop none] ↔ [.push 7, .pop none] = ([] : List (QueueCall ℕ)) :=
  spmc_contract_iff listRing_boundedFifo (show workQueueSpmcNew listRing 8 true = _ from rfl)
    (show workQueueNew listRing 8 true = _ from rfl) _

end Tsl
