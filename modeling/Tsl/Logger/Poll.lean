import Tsl.Logger

set_option autoImplicit false

/-! # Polling a logger

`logger_endpoint_poll_func` of `tsl/logger/logger.c`: a poll takes a message from `out_queue`, has its
handler emit it, and returns it to the application through `in_queue`. The application pushes and pops
at the other ends while the function runs, so one step of the machine here is what the function does
between two accesses to the queues, or one call of the application.

All exits of the function go to one label, which returns `lmsg` unless it is `NULL`. Two of them are
before `lmsg` is initialized, and then it holds what is there in memory. -/

namespace Tsl

open Lib

variable {ρ η ε φ π μ : Type}

/-! ## The code -/

/-- `struct logger_message`, without the fields a poll does not read. -/
structure LoggerMessage (π : Type) where
  payload : π
  messageType : BitVec 32

/-- Where the poll function is: not called, before the pop, before the lookup of the handler, or at
    its label `done`. -/
inductive PollPlace (μ : Type)
  | idle
  | pop
  | handle (lmsg : Option μ)
  | done (lmsg : Option μ)
deriving DecidableEq

/-- A call of the poll function: the fill it has read, the messages it has taken from `out_queue`, the
    values it has put into `in_queue`, and what it returns. -/
structure PollCall (μ : Type) where
  fill : ℕ
  popped : List μ
  pushed : List μ
  ret : AResult
deriving DecidableEq

/-- A call that has not accessed a queue. -/
def PollCall.new : PollCall μ := ⟨0, [], [], aOk⟩

/-- A logger endpoint that is polled, with the memory of the messages. `calls` are the calls that have
    returned, and `emitted` the calls of the handlers. `sent` and `received` are the messages the
    application has put into `out_queue` and taken from `in_queue`. -/
structure PolledLogger (ρ η ε φ π μ : Type) where
  lep : LoggerEndpoint ρ η ε φ
  message : μ → LoggerMessage π
  pc : PollPlace μ
  call : PollCall μ
  calls : List (PollCall μ)
  emitted : List (φ × Option ε × π)
  sent : List μ
  received : List μ

namespace PolledLogger

/-- From the call to the first access to a queue; `lmsg` is what is in memory where the variable
    will be. -/
def checkFill (ckRingSize : ρ → ℕ) (s : PolledLogger ρ η ε φ π μ) (lmsg : Option μ) :
    PolledLogger ρ η ε φ π μ :=
  let (ret, fill) := workQueueFill ckRingSize s.lep.outQueue 0
  let s := { s with call := { PollCall.new with fill := fill } }
  if afailed ret then { s with pc := .done lmsg, call := { s.call with ret := aEInval } }
  else if fill = 0 then { s with pc := .done lmsg }
  else { s with pc := .pop }

/-- `work_queue_pop` from `out_queue`. -/
def popMessage (ck : CkRing ρ μ) (s : PolledLogger ρ η ε φ π μ) : PolledLogger ρ η ε φ π μ :=
  let (ret, lmsg, q) := workQueuePop ck s.lep.outQueue none
  let s := { s with lep := { s.lep with outQueue := q } }
  if afailed ret then { s with pc := .done lmsg }
  else { s with pc := .handle lmsg, call := { s.call with popped := s.call.popped ++ lmsg.toList } }

/-- The lookup of the handler, and its call. Reading a `NULL` message or calling `NULL` answers `none`. -/
def emit [DecidableEq η] (fuel : ℕ) (s : PolledLogger ρ η ε φ π μ) (lmsg : Option μ) :
    Option (PolledLogger ρ η ε φ π μ) := do
  let m ← lmsg
  let hdlr ← loggerGetHandler fuel s.lep (s.message m).messageType
  match hdlr with
  | none => some { s with pc := .done lmsg }
  | some hdlr => do
      let dispatch ← (s.lep.handler hdlr).dispatch
      let state := (s.lep.handler hdlr).state
      some { s with
        pc := .done lmsg
        emitted := s.emitted ++ [(dispatch, state, (s.message m).payload)] }

/-- The label `done`: `work_queue_push` to `in_queue`, and the return. -/
def finish (ck : CkRing ρ μ) (s : PolledLogger ρ η ε φ π μ) (lmsg : Option μ) :
    PolledLogger ρ η ε φ π μ :=
  match lmsg with
  | none => { s with pc := .idle, call := .new, calls := s.calls ++ [s.call] }
  | some m =>
      let (ret, q) := workQueuePush ck s.lep.inQueue (some m)
      let call := if afailed ret then s.call else { s.call with pushed := s.call.pushed ++ [m] }
      { s with
        lep := { s.lep with inQueue := q }
        pc := .idle
        call := .new
        calls := s.calls ++ [call] }

/-- One step of `logger_endpoint_poll_func`. -/
def poll [DecidableEq η] (ck : CkRing ρ μ) (fuel : ℕ) (s : PolledLogger ρ η ε φ π μ) :
    Option (PolledLogger ρ η ε φ π μ) :=
  match s.pc with
  | .idle => none
  | .pop => some (s.popMessage ck)
  | .handle lmsg => s.emit fuel lmsg
  | .done lmsg => some (s.finish ck lmsg)

end PolledLogger

/-- What can happen: the application writes a message, sends it or receives one, the poll function is
    called, the poll function goes on. -/
inductive PollInput (π μ : Type)
  | write (m : μ) (msg : LoggerMessage π)
  | send (m : μ)
  | receive (data : Option μ)
  | call (lmsg : Option μ)
  | run

/-- One step of the machine. -/
def PolledLogger.step [DecidableEq η] [DecidableEq μ] (ck : CkRing ρ μ) (ckRingSize : ρ → ℕ)
    (fuel : ℕ) (s : PolledLogger ρ η ε φ π μ) : PollInput π μ → Option (PolledLogger ρ η ε φ π μ)
  | .write m msg => some { s with message := Function.update s.message m msg }
  | .send m =>
      let (ret, q) := workQueuePush ck s.lep.outQueue (some m)
      some { s with
        lep := { s.lep with outQueue := q }
        sent := if afailed ret then s.sent else s.sent ++ [m] }
  | .receive data =>
      let (_, data, q) := workQueuePop ck s.lep.inQueue data
      some { s with lep := { s.lep with inQueue := q }, received := s.received ++ data.toList }
  | .call lmsg => if s.pc = .idle then some (s.checkFill ckRingSize lmsg) else none
  | .run => s.poll ck fuel

/-- A logger before its first poll. -/
def PolledLogger.new (lep : LoggerEndpoint ρ η ε φ) (message : μ → LoggerMessage π) :
    PolledLogger ρ η ε φ π μ where
  lep := lep
  message := message
  pc := .idle
  call := .new
  calls := []
  emitted := []
  sent := []
  received := []

/-! ## Messages are returned -/

/-- The messages that polls have taken, in order. -/
def PolledLogger.popped (s : PolledLogger ρ η ε φ π μ) : List μ :=
  s.calls.flatMap PollCall.popped ++ s.call.popped

/-- The values that polls have put into `in_queue`, in order. -/
def PolledLogger.pushed (s : PolledLogger ρ η ε φ π μ) : List μ := s.calls.flatMap PollCall.pushed

/-- A call has returned what it has taken, once, and nothing else, and it has left the queues alone if
    it has found `out_queue` empty. -/
structure PollCall.Returned (c : PollCall μ) : Prop where
  once : c.pushed = c.popped
  untouched : c.fill = 0 → c.popped = [] ∧ c.pushed = []

/-- What was taken from the queues and put into them is what the application and the polls have done,
    in order. -/
structure QueuesBalance (contents : ρ → List (Option μ)) (s : PolledLogger ρ η ε φ π μ) : Prop where
  outQueue : s.sent.map some = s.popped.map some ++ contents s.lep.outQueue.fifo
  inQueue : s.pushed.map some = s.received.map some ++ contents s.lep.inQueue.fifo

/-- The messages belong to where they should: every call of the poll function that has returned has
    returned its message, and the queues have changed by what the calls did. -/
structure MessagesReturned (contents : ρ → List (Option μ)) (s : PolledLogger ρ η ε φ π μ) : Prop where
  calls : ∀ c ∈ s.calls, c.Returned
  balance : QueuesBalance contents s

/-- The push at the end of a poll does what it should: a poll that has taken a message finds room in
    `in_queue`, and in one that has not `lmsg` holds `NULL`, unless there is no room. -/
def ReturnOk (contents : ρ → List (Option μ)) (room : ρ → ℕ) (s : PolledLogger ρ η ε φ π μ) :
    PollInput π μ → Prop
  | .run =>
      match s.pc with
      | .done lmsg =>
          let inQueue := s.lep.inQueue.fifo
          if s.call.popped = [] then lmsg = none ∨ room inQueue ≤ (contents inQueue).length
          else (contents inQueue).length < room inQueue
      | _ => True
  | _ => True

instance ReturnOk.decidable (contents : ρ → List (Option μ)) (room : ρ → ℕ)
    (s : PolledLogger ρ η ε φ π μ) (i : PollInput π μ) : Decidable (ReturnOk contents room s i) := by
  unfold ReturnOk
  cases i with
  | run =>
      cases s.pc with
      | done lmsg => infer_instance
      | _ => infer_instance
  | _ => infer_instance

/-! ## What every step keeps -/

/-- What a call has done at each place. -/
def PollPlaceOk (contents : ρ → List (Option μ)) (s : PolledLogger ρ η ε φ π μ) : Prop :=
  match s.pc with
  | .idle => s.call = .new
  | .pop => contents s.lep.outQueue.fifo ≠ [] ∧ ∃ n, s.call = ⟨n + 1, [], [], aOk⟩
  | .handle lmsg => ∃ n m, lmsg = some m ∧ s.call = ⟨n + 1, [m], [], aOk⟩
  | .done lmsg => s.call = .new ∨ ∃ n m, lmsg = some m ∧ s.call = ⟨n + 1, [m], [], aOk⟩

structure PollOk (contents : ρ → List (Option μ)) (s : PolledLogger ρ η ε φ π μ) : Prop where
  outBuffer : s.lep.outQueue.buffer = true
  inBuffer : s.lep.inQueue.buffer = true
  balance : QueuesBalance contents s
  place : PollPlaceOk contents s

section Steps

variable {ck : CkRing ρ μ} {ckRingSize : ρ → ℕ} {contents : ρ → List (Option μ)} {room : ρ → ℕ}
  {s s' : PolledLogger ρ η ε φ π μ} {fuel : ℕ}

theorem exists_of_suffix {xs ys : List μ} {x : Option μ} {rest : List (Option μ)}
    (h : xs.map some = ys.map some ++ x :: rest) : ∃ m, x = some m := by
  have hx : x ∈ xs.map some := h ▸ List.mem_append_right _ List.mem_cons_self
  obtain ⟨m, -, rfl⟩ := List.mem_map.1 hx
  exact ⟨m, rfl⟩

theorem PollPlaceOk.congr (h : PollPlaceOk contents s) (hpc : s'.pc = s.pc) (hcall : s'.call = s.call)
    (hout : contents s.lep.outQueue.fifo ≠ [] → contents s'.lep.outQueue.fifo ≠ []) :
    PollPlaceOk contents s' := by
  unfold PollPlaceOk at h ⊢
  rw [hpc, hcall]
  cases hs : s.pc with
  | idle => simpa [hs] using h
  | pop =>
      rw [hs] at h
      exact ⟨hout h.1, h.2⟩
  | handle lmsg => simpa [hs] using h
  | done lmsg => simpa [hs] using h

section App

variable [DecidableEq η] [DecidableEq μ]

theorem PollOk.send (hck : ck.BoundedFifo contents room) (h : PollOk contents s) {m : μ}
    (hstep : s.step ck ckRingSize fuel (.send m) = some s') :
    PollOk contents s' ∧ s'.calls = s.calls := by
  obtain ⟨fifo, -, hcases⟩ := workQueuePush_cases hck h.outBuffer m
  rcases hcases with ⟨-, happ, hrun⟩ | ⟨-, hsame, hrun⟩
  · simp only [PolledLogger.step, hrun, afailed_aOk, Bool.false_eq_true, if_false,
      Option.some.injEq] at hstep
    subst hstep
    refine ⟨⟨h.outBuffer, h.inBuffer, ⟨?_, h.balance.inQueue⟩, h.place.congr rfl rfl ?_⟩, rfl⟩
    · rw [List.map_append, h.balance.outQueue, happ, List.append_assoc]
      rfl
    · intro _ hnil
      rw [happ] at hnil
      exact absurd hnil (by simp)
  · have hfailed : afailed aEBusy = true := rfl
    simp only [PolledLogger.step, hrun, hfailed, if_true, Option.some.injEq] at hstep
    subst hstep
    refine ⟨⟨h.outBuffer, h.inBuffer, ⟨?_, h.balance.inQueue⟩, h.place.congr rfl rfl ?_⟩, rfl⟩
    · rw [hsame]
      exact h.balance.outQueue
    · rw [hsame]
      exact id

theorem PollOk.receive (hck : ck.BoundedFifo contents room) (h : PollOk contents s)
    {data : Option μ} (hstep : s.step ck ckRingSize fuel (.receive data) = some s') :
    PollOk contents s' ∧ s'.calls = s.calls := by
  obtain ⟨fifo, -, hcases⟩ := workQueuePop_cases hck h.inBuffer data
  have hbalance := h.balance.inQueue
  rcases hcases with ⟨hnil, hnil', hrun⟩ | ⟨x, hx, hrun⟩
  · simp only [PolledLogger.step, hrun, Option.toList_none, List.append_nil,
      Option.some.injEq] at hstep
    subst hstep
    refine ⟨⟨h.outBuffer, h.inBuffer, ⟨h.balance.outQueue, ?_⟩, h.place.congr rfl rfl id⟩, rfl⟩
    rw [hnil, ← hnil'] at hbalance
    exact hbalance
  · rw [hx] at hbalance
    obtain ⟨m, rfl⟩ := exists_of_suffix hbalance
    simp only [PolledLogger.step, hrun, Option.toList_some, Option.some.injEq] at hstep
    subst hstep
    refine ⟨⟨h.outBuffer, h.inBuffer, ⟨h.balance.outQueue, ?_⟩, h.place.congr rfl rfl id⟩, rfl⟩
    rw [List.map_append, List.append_assoc]
    exact hbalance

theorem PollOk.call (hsize : ∀ r, ckRingSize r = (contents r).length) (h : PollOk contents s)
    {lmsg : Option μ} (hstep : s.step ck ckRingSize fuel (.call lmsg) = some s') :
    PollOk contents s' ∧ s'.calls = s.calls := by
  simp only [PolledLogger.step] at hstep
  split at hstep
  · next hidle =>
      have hplace := h.place
      rw [PollPlaceOk, hidle] at hplace
      have hcall : s.call = .new := hplace
      have hfill : workQueueFill ckRingSize s.lep.outQueue 0 =
          (aOk, (contents s.lep.outQueue.fifo).length) := by
        rw [workQueueFill, h.outBuffer, if_neg (by decide), hsize]
      have hbalance : ∀ fill pc, QueuesBalance contents
          { s with call := { PollCall.new with fill := fill }, pc := pc } := by
        intro fill pc
        have hpopped : s.popped = s.calls.flatMap PollCall.popped ++ (PollCall.new : PollCall μ).popped := by
          rw [← hcall]
          rfl
        have hout := h.balance.outQueue
        rw [hpopped] at hout
        exact ⟨hout, h.balance.inQueue⟩
      simp only [PolledLogger.checkFill, hfill, afailed_aOk, Bool.false_eq_true, if_false,
        Option.some.injEq] at hstep
      split at hstep
      · next hzero =>
          subst hstep
          refine ⟨⟨h.outBuffer, h.inBuffer, hbalance _ _, .inl ?_⟩, rfl⟩
          rw [hzero]
          rfl
      · next hne =>
          subst hstep
          refine ⟨⟨h.outBuffer, h.inBuffer, hbalance _ _, fun hnil => hne ?_, ?_⟩, rfl⟩
          · exact congrArg List.length hnil
          · obtain ⟨n, hn⟩ := Nat.exists_eq_succ_of_ne_zero hne
            exact ⟨n, by rw [hn]; rfl⟩
  · cases hstep

end App

theorem PollOk.popMessage (hck : ck.BoundedFifo contents room) (h : PollOk contents s)
    (hpc : s.pc = .pop) :
    PollOk contents (s.popMessage ck) ∧ (s.popMessage ck).calls = s.calls := by
  have hplace := h.place
  rw [PollPlaceOk, hpc] at hplace
  obtain ⟨hne, n, hcall⟩ := hplace
  have hbalance := h.balance.outQueue
  obtain ⟨fifo, -, ⟨hnil, -, -⟩ | ⟨x, hx, hrun⟩⟩ := workQueuePop_cases hck h.outBuffer none
  · exact absurd hnil hne
  · rw [hx] at hbalance
    obtain ⟨m, rfl⟩ := exists_of_suffix hbalance
    simp only [PolledLogger.popMessage, hrun, afailed_aOk, Bool.false_eq_true, if_false, hcall,
      Option.toList_some, List.nil_append]
    refine ⟨⟨h.outBuffer, h.inBuffer, ⟨?_, h.balance.inQueue⟩, n, m, rfl, rfl⟩, trivial⟩
    have hpopped : s.popped = s.calls.flatMap PollCall.popped := by
      rw [PolledLogger.popped, hcall, List.append_nil]
    rw [hpopped] at hbalance
    simp only [PolledLogger.popped, List.map_append, List.append_assoc]
    exact hbalance

theorem PollOk.emit [DecidableEq η] (h : PollOk contents s) {lmsg : Option μ}
    (hpc : s.pc = .handle lmsg) (hrun : s.emit fuel lmsg = some s') :
    PollOk contents s' ∧ s'.calls = s.calls := by
  have hplace := h.place
  rw [PollPlaceOk, hpc] at hplace
  have hok : ∀ emitted, PollOk contents { s with pc := .done lmsg, emitted := emitted } :=
    fun _ => ⟨h.outBuffer, h.inBuffer, ⟨h.balance.outQueue, h.balance.inQueue⟩, .inr hplace⟩
  simp only [PolledLogger.emit, Option.bind_eq_bind, Option.bind_eq_some_iff] at hrun
  obtain ⟨m, -, hdlr, -, hrun⟩ := hrun
  cases hdlr with
  | none =>
      cases hrun
      exact ⟨hok s.emitted, rfl⟩
  | some hdlr =>
      simp only [Option.bind_eq_some_iff, Option.some.injEq] at hrun
      obtain ⟨dispatch, -, rfl⟩ := hrun
      exact ⟨hok _, rfl⟩

/-- What a call leaves at its end, when it has done nothing to `in_queue`. -/
theorem PollOk.ret (h : PollOk contents s) {fifo : ρ} (hpushed : s.call.pushed = [])
    (hsame : contents fifo = contents s.lep.inQueue.fifo) :
    PollOk contents { s with
      lep := { s.lep with inQueue := { s.lep.inQueue with fifo := fifo } }
      pc := .idle
      call := .new
      calls := s.calls ++ [s.call] } where
  outBuffer := h.outBuffer
  inBuffer := h.inBuffer
  balance := by
    have hout := h.balance.outQueue
    have hin := h.balance.inQueue
    constructor
    · simpa [PolledLogger.popped, PollCall.new] using hout
    · simpa [PolledLogger.pushed, hpushed, hsame] using hin
  place := rfl

/-- And when it has put a message there. -/
theorem PollOk.retPushed (h : PollOk contents s) {fifo : ρ} {m : μ} (hpushed : s.call.pushed = [])
    (happ : contents fifo = contents s.lep.inQueue.fifo ++ [some m]) :
    PollOk contents { s with
      lep := { s.lep with inQueue := { s.lep.inQueue with fifo := fifo } }
      pc := .idle
      call := .new
      calls := s.calls ++ [{ s.call with pushed := s.call.pushed ++ [m] }] } where
  outBuffer := h.outBuffer
  inBuffer := h.inBuffer
  balance := by
    have hout := h.balance.outQueue
    have hin := h.balance.inQueue
    constructor
    · simpa [PolledLogger.popped, PollCall.new] using hout
    · simp only [PolledLogger.pushed] at hin
      simp [PolledLogger.pushed, hpushed, happ, hin]
  place := rfl

/-- **A poll returns** what it should exactly if its push does what it should. -/
theorem PollOk.finish (hck : ck.BoundedFifo contents room) (h : PollOk contents s) {lmsg : Option μ}
    (hpc : s.pc = .done lmsg) :
    PollOk contents (s.finish ck lmsg) ∧ ∃ c, (s.finish ck lmsg).calls = s.calls ++ [c] ∧
      (c.Returned ↔ ReturnOk contents room s .run) := by
  have hplace := h.place
  rw [PollPlaceOk, hpc] at hplace
  have hpushed : s.call.pushed = [] := by
    rcases hplace with hcall | ⟨n, m, -, hcall⟩
    · rw [hcall]
      rfl
    · rw [hcall]
  simp only [ReturnOk, hpc]
  cases lmsg with
  | none =>
      rcases hplace with hcall | ⟨n, m, hm, -⟩
      · refine ⟨h.ret hpushed rfl, s.call, rfl, ?_⟩
        rw [hcall]
        exact iff_of_true ⟨rfl, fun _ => ⟨rfl, rfl⟩⟩ (.inl rfl)
      · cases hm
  | some v =>
      obtain ⟨fifo, -, ⟨hroom, happ, hrun⟩ | ⟨hfull, hsame, hrun⟩⟩ :=
        workQueuePush_cases hck h.inBuffer v
      · simp only [PolledLogger.finish, hrun, afailed_aOk, Bool.false_eq_true, if_false]
        refine ⟨h.retPushed hpushed happ, _, rfl, ?_⟩
        rcases hplace with hcall | ⟨n, m, hm, hcall⟩
        · -- what is pushed was not taken from `out_queue`
          rw [hcall]
          refine iff_of_false (fun hc => ?_) ?_
          · have honce := hc.once
            cases honce
          · rintro (hnull | hfull)
            · cases hnull
            · omega
        · cases hm
          rw [hcall]
          exact iff_of_true ⟨rfl, fun hzero => by cases hzero⟩ hroom
      · have hfailed : afailed aEBusy = true := rfl
        simp only [PolledLogger.finish, hrun, hfailed, if_true]
        refine ⟨h.ret hpushed hsame, _, rfl, ?_⟩
        rcases hplace with hcall | ⟨n, m, hm, hcall⟩
        · rw [hcall]
          exact iff_of_true ⟨rfl, fun _ => ⟨rfl, rfl⟩⟩ (.inr hfull)
        · -- the message that was taken is lost
          rw [hcall]
          refine iff_of_false (fun hc => ?_) ?_
          · have honce := hc.once
            cases honce
          · intro hroom
            simp only [List.cons_ne_self, if_false] at hroom
            omega

/-- **Every step** keeps the queues in balance, and finishes a call at most, which has returned what it
should exactly if its push does what it should. -/
theorem PollOk.step [DecidableEq η] [DecidableEq μ] (hck : ck.BoundedFifo contents room)
    (hsize : ∀ r, ckRingSize r = (contents r).length) (h : PollOk contents s) {i : PollInput π μ}
    (hstep : s.step ck ckRingSize fuel i = some s') :
    PollOk contents s' ∧ (s'.calls = s.calls ∧ ReturnOk contents room s i ∨
      ∃ c, s'.calls = s.calls ++ [c] ∧ (c.Returned ↔ ReturnOk contents room s i)) := by
  cases i with
  | write m msg =>
      cases hstep
      exact ⟨⟨h.outBuffer, h.inBuffer, ⟨h.balance.outQueue, h.balance.inQueue⟩,
        h.place.congr rfl rfl id⟩, .inl ⟨rfl, trivial⟩⟩
  | send m =>
      obtain ⟨hok, hcalls⟩ := h.send hck hstep
      exact ⟨hok, .inl ⟨hcalls, trivial⟩⟩
  | receive data =>
      obtain ⟨hok, hcalls⟩ := h.receive hck hstep
      exact ⟨hok, .inl ⟨hcalls, trivial⟩⟩
  | call lmsg =>
      obtain ⟨hok, hcalls⟩ := h.call hsize hstep
      exact ⟨hok, .inl ⟨hcalls, trivial⟩⟩
  | run =>
      simp only [PolledLogger.step, PolledLogger.poll] at hstep
      cases hpc : s.pc with
      | idle => rw [hpc] at hstep; cases hstep
      | pop =>
          rw [hpc] at hstep
          cases hstep
          obtain ⟨hok, hcalls⟩ := h.popMessage hck hpc
          exact ⟨hok, .inl ⟨hcalls, by simp only [ReturnOk, hpc]⟩⟩
      | handle lmsg =>
          rw [hpc] at hstep
          obtain ⟨hok, hcalls⟩ := h.emit hpc hstep
          exact ⟨hok, .inl ⟨hcalls, by simp only [ReturnOk, hpc]⟩⟩
      | done lmsg =>
          rw [hpc] at hstep
          cases hstep
          obtain ⟨hok, hfinish⟩ := h.finish hck hpc
          exact ⟨hok, .inr hfinish⟩

theorem messagesReturned_iff (h : PollOk contents s) :
    MessagesReturned contents s ↔ ∀ c ∈ s.calls, c.Returned :=
  ⟨fun hr => hr.calls, fun hr => ⟨hr, h.balance⟩⟩

theorem pollOk_new (hck : ck.BoundedFifo contents room) {lep : LoggerEndpoint ρ η ε φ}
    {depth : ℕ} {bufferOut bufferIn : Bool}
    (hout : workQueueNew ck depth bufferOut = (aOk, some lep.outQueue))
    (hin : workQueueNew ck depth bufferIn = (aOk, some lep.inQueue))
    (message : μ → LoggerMessage π) : PollOk contents (.new lep message) := by
  obtain ⟨hbuffer, hempty⟩ := workQueueNew_ok hck hout
  obtain ⟨hbuffer', hempty'⟩ := workQueueNew_ok hck hin
  refine ⟨hbuffer, hbuffer', ⟨?_, ?_⟩, rfl⟩
  · simp [PolledLogger.new, PolledLogger.popped, PollCall.new, hempty]
  · simp [PolledLogger.new, PolledLogger.pushed, hempty']

/-- **In a run all messages are returned**, and nothing else, exactly if every push at the end of a poll
does what it should. -/
theorem messagesReturned_throughout_iff [DecidableEq η] [DecidableEq μ]
    (hck : ck.BoundedFifo contents room) (hsize : ∀ r, ckRingSize r = (contents r).length)
    {lep : LoggerEndpoint ρ η ε φ} {depth : ℕ} {bufferOut bufferIn : Bool}
    (hout : workQueueNew ck depth bufferOut = (aOk, some lep.outQueue))
    (hin : workQueueNew ck depth bufferIn = (aOk, some lep.inQueue))
    (message : μ → LoggerMessage π) (fuel : ℕ) (inputs : List (PollInput π μ)) :
    Throughout (PolledLogger.step ck ckRingSize fuel) (MessagesReturned contents) (.new lep message)
        inputs ↔
      Meets (PolledLogger.step ck ckRingSize fuel) (ReturnOk contents room) (.new lep message)
        inputs := by
  have hnew := pollOk_new hck hout hin message
  have hnone : ∀ c ∈ (PolledLogger.new lep message).calls, c.Returned := fun c hc => by cases hc
  refine throughout_iff_meets (I := PollOk contents) (fun s i s' h hstep => (h.step hck hsize hstep).1)
    (fun s i s' h hr hstep => ?_) (fun s i h _ hstep => ?_) inputs _ hnew
    ((messagesReturned_iff hnew).2 hnone)
  · obtain ⟨hok, ⟨hcalls, hret⟩ | ⟨c, hcalls, hiff⟩⟩ := h.step hck hsize hstep
    · rw [messagesReturned_iff hok, hcalls]
      exact iff_of_true hr.calls hret
    · rw [messagesReturned_iff hok, hcalls, ← hiff, List.forall_mem_append]
      simp only [List.mem_singleton, forall_eq]
      exact ⟨fun hboth => hboth.2, fun hc => ⟨hr.calls, hc⟩⟩
  · cases i with
    | write m msg => trivial
    | send m => trivial
    | receive data => trivial
    | call lmsg => trivial
    | run =>
        simp only [PolledLogger.step, PolledLogger.poll] at hstep
        cases hpc : s.pc with
        | done lmsg => rw [hpc] at hstep; cases hstep
        | _ => simp only [ReturnOk, hpc]

/-- **Messages are conserved**: what the application has sent, it has received, or it is in `in_queue`,
with the poll function, or in `out_queue`, in this order. -/
theorem MessagesReturned.conserved (h : MessagesReturned contents s) :
    s.sent.map some = s.received.map some ++ contents s.lep.inQueue.fifo ++
      s.call.popped.map some ++ contents s.lep.outQueue.fifo := by
  have hpopped : s.popped = s.pushed ++ s.call.popped := by
    have hcalls : s.calls.flatMap PollCall.popped = s.calls.flatMap PollCall.pushed :=
      List.flatMap_congr fun c hc => (h.calls c hc).once.symm
    rw [PolledLogger.popped, PolledLogger.pushed, hcalls]
  rw [h.balance.outQueue, hpopped, List.map_append, h.balance.inQueue]

end Steps

/-! ## Both ways to go wrong -/

/-- A message of type 1 at every address. -/
def someMessages : ℕ → LoggerMessage ℕ := fun m => ⟨m, 1#32⟩

/-- A new logger with queues of eight entries. -/
def newPolledLogger : PolledLogger (List (Option ℕ) × ℕ) ℕ ℕ ℕ ℕ ℕ := .new newLogger someMessages

/-- The application sends a message, which is polled. -/
def sendAndPoll (m : ℕ) : List (PollInput ℕ ℕ) := [.send m, .call none, .run, .run, .run]

/-- A poll of an empty queue puts what is in memory into `in_queue`, and a poll that finds `in_queue`
    full loses its message. -/
theorem uninitialized_pushed_and_message_lost :
    (∃ s, exec (PolledLogger.step listRing (fun r => r.1.length) 8) newPolledLogger
        [.call (some 9), .run] = some s ∧
      s.sent = [] ∧ s.lep.inQueue.fifo.1 = [some 9] ∧ ¬ MessagesReturned Prod.fst s) ∧
    (∃ s, exec (PolledLogger.step listRing (fun r => r.1.length) 8) newPolledLogger
        ((List.range 8).flatMap sendAndPoll) = some s ∧
      s.sent = [0, 1, 2, 3, 4, 5, 6, 7] ∧ s.received = [] ∧ s.lep.outQueue.fifo.1 = [] ∧
      s.lep.inQueue.fifo.1 = [some 0, some 1, some 2, some 3, some 4, some 5, some 6] ∧
      ¬ MessagesReturned Prod.fst s) := by
  refine ⟨⟨_, rfl, rfl, rfl, fun h => ?_⟩, ⟨_, rfl, rfl, rfl, rfl, rfl, fun h => ?_⟩⟩
  · have honce := (h.calls _ List.mem_cons_self).once
    cases honce
  · have hconserved := h.conserved
    revert hconserved
    decide

/-- A message that comes back to the application, and a poll after it that finds `NULL` in memory. -/
theorem messagesReturned_throughout_sendAndPoll :
    Throughout (PolledLogger.step listRing (fun r => r.1.length) 8) (MessagesReturned Prod.fst)
      newPolledLogger (sendAndPoll 5 ++ [.receive none, .call none, .run]) :=
  (messagesReturned_throughout_iff listRing_boundedFifo (fun _ => rfl)
    (show workQueueNew listRing 8 true = (aOk, some newLogger.outQueue) from rfl)
    (show workQueueNew listRing 8 true = (aOk, some newLogger.inQueue) from rfl) someMessages 8 _).2
    (by decide)

end Tsl
