import Tsl.Logger.Poll

set_option autoImplicit false

/-! # What a logger does for the application

`tsl/logger/logger.c` as a whole: handlers are registered, the endpoint is handed to a work thread,
which polls it, and the application sends messages and receives them back meanwhile. What it may rely
on is that the handler of its type is called for each message, in the order in which they were sent and
with what was in the message then, and that the messages come back in this order.

For that the application leaves a message alone until it has come back, and it has no more messages
under way than `in_queue` has room for. -/

namespace Tsl

open Lib

variable {ρ η ε φ π μ : Type}

/-! ## A logger and its application -/

/-- A logger in use: its endpoint, the handlers that are registered, and what was in each message when
    it was sent. -/
structure LoggerService (ρ η ε φ π μ : Type) where
  polled : PolledLogger ρ η ε φ π μ
  registered : List (Registration η φ)
  posted : List (LoggerMessage π)

/-- What can happen: a call that manages the endpoint, or one that has to do with messages. -/
inductive ServiceInput (η φ π μ : Type)
  | manage (call : LoggerCall η φ)
  | poll (input : PollInput π μ)

namespace LoggerService

def new (lep : LoggerEndpoint ρ η ε φ) (message : μ → LoggerMessage π) :
    LoggerService ρ η ε φ π μ := ⟨.new lep message, [], []⟩

/-- The endpoint with its handlers. -/
def endpoint (s : LoggerService ρ η ε φ π μ) : LoggerRun ρ η ε φ := ⟨s.polled.lep, s.registered⟩

/-- The work thread starts an endpoint that was handed to it, polls it as long as it is running, and
    shuts it down between two polls. -/
def Due (s : LoggerService ρ η ε φ π μ) : ServiceInput η φ π μ → Prop
  | .manage .startup => s.polled.lep.state = .starting
  | .manage .shutdown => s.polled.lep.state = .running ∧ s.polled.pc = .idle
  | .poll (.call _) => s.polled.lep.state = .running
  | _ => True

instance Due.decidable [DecidableEq μ] (s : LoggerService ρ η ε φ π μ) (i : ServiceInput η φ π μ) :
    Decidable (s.Due i) := by
  unfold Due
  split <;> infer_instance

/-- One step of the machine. -/
def step [DecidableEq η] [DecidableEq μ] (ck : CkRing ρ μ) (ckRingSize : ρ → ℕ) (ep : ε)
    (s : LoggerService ρ η ε φ π μ) (i : ServiceInput η φ π μ) :
    Option (LoggerService ρ η ε φ π μ) :=
  if s.Due i then
    match i with
    | .manage call =>
        (s.endpoint.step ep call).map fun r =>
          { s with polled := { s.polled with lep := r.lep }, registered := r.registered }
    | .poll input =>
        (s.polled.step ck ckRingSize (s.registered.length + 1) input).map fun p =>
          { s with
            polled := p
            posted := s.posted ++ (p.sent.drop s.polled.sent.length).map p.message }
  else none

end LoggerService

/-- The messages whose handlers have been looked up, in order. -/
def PolledLogger.handled (s : PolledLogger ρ η ε φ π μ) : List μ :=
  match s.pc with
  | .handle _ => s.calls.flatMap PollCall.popped
  | _ => s.popped

/-- The messages that the application has sent and not received. -/
def PolledLogger.underWay (s : PolledLogger ρ η ε φ π μ) : List μ := s.sent.drop s.received.length

/-- The call that a message is to lead to, if there is a handler for its type. -/
def dispatchFor (ep : ε) (registered : List (Registration η φ)) (msg : LoggerMessage π) :
    Option (φ × Option ε × π) :=
  (registered.find? fun r => r.messageType = msg.messageType).map fun r =>
    (r.func, some ep, msg.payload)

/-- What the application may rely on. The messages handled are the first that were sent, and the calls
    were those that they were to lead to; a poll that finds a message takes one and returns it; none is
    lost; and the poll function never gets stuck. -/
structure ServesMessages [DecidableEq η] [DecidableEq μ] (ck : CkRing ρ μ) (ckRingSize : ρ → ℕ)
    (contents : ρ → List (Option μ)) (ep : ε) (s : LoggerService ρ η ε φ π μ) : Prop where
  inOrder : s.polled.handled <+: s.polled.sent
  dispatched : s.polled.emitted =
    (s.posted.take s.polled.handled.length).filterMap (dispatchFor ep s.registered)
  polls : ∀ c ∈ s.polled.calls, c.popped.length = min c.fill 1 ∧ c.pushed = c.popped
  conserved : s.polled.sent.map some =
    s.polled.received.map some ++ contents s.polled.lep.inQueue.fifo ++
      s.polled.call.popped.map some ++ contents s.polled.lep.outQueue.fifo
  goesOn : s.polled.pc ≠ .idle → (s.step ck ckRingSize ep (.poll .run)).isSome

/-- The terms. Types are registered from one half window, messages under way are left alone, and
    `in_queue` has room for them all. A poll that finds no message finds `NULL` in memory. -/
def KeepsTerms (contents : ρ → List (Option μ)) (room : ρ → ℕ) (base : BitVec 32)
    (s : LoggerService ρ η ε φ π μ) : ServiceInput η φ π μ → Prop
  | .manage (.addMessageHandler messageType (some _) (some _)) =>
      0#32 < messageType → s.polled.lep.state = .inactive → (messageType - base).toNat < 2 ^ 31
  | .poll (.write m _) => m ∉ s.polled.underWay
  | .poll (.send _) => s.polled.underWay.length < room s.polled.lep.inQueue.fifo
  | .poll (.call lmsg) => lmsg = none ∨ contents s.polled.lep.outQueue.fifo ≠ []
  | _ => True

instance KeepsTerms.decidable [DecidableEq μ] (contents : ρ → List (Option μ)) (room : ρ → ℕ)
    (base : BitVec 32) (s : LoggerService ρ η ε φ π μ) (i : ServiceInput η φ π μ) :
    Decidable (KeepsTerms contents room base s i) := by
  unfold KeepsTerms
  split <;> infer_instance

/-! ## What a step does -/

/-- What a step does to the messages: `added` are sent, `got` are received, `found` are handled, and
    the handlers have been called `made` times. Of the endpoint only the queues change. -/
structure PolledLogger.Effect (room : ρ → ℕ) (s s' : PolledLogger ρ η ε φ π μ)
    (added got found : List μ) (made : List (φ × Option ε × π)) : Prop where
  sent : s'.sent = s.sent ++ added
  received : s'.received = s.received ++ got
  handled : s'.handled = s.handled ++ found
  emitted : s'.emitted = s.emitted ++ made
  lep : s'.lep = { s.lep with outQueue := s'.lep.outQueue, inQueue := s'.lep.inQueue }
  room : room s'.lep.inQueue.fifo = room s.lep.inQueue.fifo

section Effects

variable {ck : CkRing ρ μ} {ckRingSize : ρ → ℕ} {contents : ρ → List (Option μ)} {room : ρ → ℕ}
  {s s' : PolledLogger ρ η ε φ π μ} {fuel : ℕ} {added got found : List μ}
  {made : List (φ × Option ε × π)}

theorem handled_append (h : PollOk contents s) :
    s.popped = s.handled ∨ ∃ m, s.pc = .handle (some m) ∧ s.popped = s.handled ++ [m] := by
  have hplace := h.place
  unfold PolledLogger.handled
  unfold PollPlaceOk at hplace
  split
  · next lmsg hpc =>
      rw [hpc] at hplace
      obtain ⟨n, m, rfl, hcall⟩ := hplace
      exact .inr ⟨m, hpc, by rw [PolledLogger.popped, hcall]⟩
  · exact .inl rfl

theorem handled_prefix_popped (h : PollOk contents s) : s.handled <+: s.popped := by
  rcases handled_append h with heq | ⟨m, -, heq⟩
  · exact heq ▸ List.prefix_rfl
  · exact ⟨[m], heq.symm⟩

theorem popped_prefix_sent (h : PollOk contents s) : s.popped <+: s.sent := by
  have hpre : s.popped.map some <+: s.sent.map some := ⟨_, h.balance.outQueue.symm⟩
  rw [List.prefix_iff_eq_take, List.length_map, ← List.map_take] at hpre
  rw [List.prefix_iff_eq_take]
  exact List.map_injective_iff.2 (Option.some_injective _) hpre

theorem handled_prefix_sent (h : PollOk contents s) : s.handled <+: s.sent :=
  (handled_prefix_popped h).trans (popped_prefix_sent h)

/-- A call puts what it has taken and may be put into `in_queue` on record. -/
theorem finish_calls (ck : CkRing ρ μ) (s : PolledLogger ρ η ε φ π μ) (lmsg : Option μ) :
    ∃ c, (s.finish ck lmsg).calls = s.calls ++ [c] ∧ c.fill = s.call.fill ∧
      c.popped = s.call.popped := by
  cases lmsg with
  | none => exact ⟨s.call, rfl, rfl, rfl⟩
  | some m =>
      simp only [PolledLogger.finish]
      split
      · exact ⟨s.call, rfl, rfl, rfl⟩
      · exact ⟨_, rfl, rfl, rfl⟩

variable [DecidableEq η] [DecidableEq μ]

omit [DecidableEq η] [DecidableEq μ] in
theorem effect_write (message : μ → LoggerMessage π) :
    s.Effect room { s with message := message } [] [] [] [] := by
  refine ⟨?_, ?_, ?_, ?_, rfl, rfl⟩ <;> simp [PolledLogger.handled, PolledLogger.popped]

theorem effect_send (hck : ck.BoundedFifo contents room) (h : PollOk contents s) {m : μ}
    (hstep : s.step ck ckRingSize fuel (.send m) = some s') :
    s'.message = s.message ∧ s'.pc = s.pc ∧ s'.call = s.call ∧
      (s.Effect room s' [m] [] [] [] ∨ s.Effect room s' [] [] [] []) := by
  obtain ⟨fifo, -, ⟨-, -, hrun⟩ | ⟨-, -, hrun⟩⟩ := workQueuePush_cases hck h.outBuffer m
  · simp only [PolledLogger.step, hrun, afailed_aOk, Bool.false_eq_true, if_false,
      Option.some.injEq] at hstep
    subst hstep
    refine ⟨rfl, rfl, rfl, .inl ⟨rfl, ?_, ?_, ?_, rfl, rfl⟩⟩ <;> simp [PolledLogger.handled,
      PolledLogger.popped]
  · have hfailed : afailed aEBusy = true := rfl
    simp only [PolledLogger.step, hrun, hfailed, if_true, Option.some.injEq] at hstep
    subst hstep
    refine ⟨rfl, rfl, rfl, .inr ⟨?_, ?_, ?_, ?_, rfl, rfl⟩⟩ <;> simp [PolledLogger.handled,
      PolledLogger.popped]

theorem effect_receive (hck : ck.BoundedFifo contents room) (h : PollOk contents s) {data : Option μ}
    (hstep : s.step ck ckRingSize fuel (.receive data) = some s') :
    s'.message = s.message ∧ s'.pc = s.pc ∧ s'.call = s.call ∧
      ∃ got, s.Effect room s' [] got [] [] := by
  obtain ⟨fifo, hroom, ⟨-, -, hrun⟩ | ⟨x, -, hrun⟩⟩ := workQueuePop_cases hck h.inBuffer data
  all_goals
    simp only [PolledLogger.step, hrun, Option.some.injEq] at hstep
    subst hstep
    refine ⟨rfl, rfl, rfl, _, ⟨?_, rfl, ?_, ?_, rfl, hroom⟩⟩ <;> simp [PolledLogger.handled,
      PolledLogger.popped]

/-- A poll begins. The variable is `NULL` unless there is no message. -/
theorem effect_call (hsize : ∀ r, ckRingSize r = (contents r).length) (h : PollOk contents s)
    {lmsg : Option μ} (hstep : s.step ck ckRingSize fuel (.call lmsg) = some s') :
    s'.message = s.message ∧ s.Effect room s' [] [] [] [] ∧
      ∀ lmsg', s'.pc = .done lmsg' → lmsg' = lmsg ∧ contents s.lep.outQueue.fifo = [] := by
  have hplace := h.place
  simp only [PolledLogger.step] at hstep
  split at hstep
  · next hidle =>
      rw [PollPlaceOk, hidle] at hplace
      have hcall : s.call = .new := hplace
      have hfill : workQueueFill ckRingSize s.lep.outQueue 0 =
          (aOk, (contents s.lep.outQueue.fifo).length) := by
        rw [workQueueFill, h.outBuffer, if_neg (by decide), hsize]
      simp only [PolledLogger.checkFill, hfill, afailed_aOk, Bool.false_eq_true, if_false,
        Option.some.injEq] at hstep
      split at hstep
      · next hzero =>
          subst hstep
          refine ⟨rfl, ⟨?_, ?_, ?_, ?_, rfl, rfl⟩, fun lmsg' hpc => ?_⟩
          · simp
          · simp
          · simp [PolledLogger.handled, hidle, PolledLogger.popped, hcall, PollCall.new]
          · simp
          · cases hpc
            exact ⟨rfl, List.length_eq_zero_iff.1 hzero⟩
      · subst hstep
        refine ⟨rfl, ⟨?_, ?_, ?_, ?_, rfl, rfl⟩, fun lmsg' hpc => ?_⟩
        · simp
        · simp
        · simp [PolledLogger.handled, hidle, PolledLogger.popped, hcall, PollCall.new]
        · simp
        · cases hpc
  · cases hstep

omit [DecidableEq η] [DecidableEq μ] in
theorem effect_popMessage (hck : ck.BoundedFifo contents room) (h : PollOk contents s)
    (hpc : s.pc = .pop) :
    (s.popMessage ck).message = s.message ∧ (∃ lmsg, (s.popMessage ck).pc = .handle lmsg) ∧
      s.Effect room (s.popMessage ck) [] [] [] [] := by
  have hplace := h.place
  rw [PollPlaceOk, hpc] at hplace
  obtain ⟨-, n, hcall⟩ := hplace
  obtain ⟨fifo, -, ⟨-, -, hrun⟩ | ⟨x, -, hrun⟩⟩ := workQueuePop_cases hck h.outBuffer none
  all_goals
    simp only [PolledLogger.popMessage, hrun, afailed_aOk, Bool.false_eq_true, if_false]
    refine ⟨trivial, ⟨_, rfl⟩, ⟨?_, ?_, ?_, ?_, rfl, rfl⟩⟩ <;>
      simp [PolledLogger.handled, hpc, PolledLogger.popped, hcall]

omit [DecidableEq η] [DecidableEq μ] in
theorem effect_finish (hck : ck.BoundedFifo contents room) (h : PollOk contents s) {lmsg : Option μ}
    (hpc : s.pc = .done lmsg) :
    (s.finish ck lmsg).message = s.message ∧ (s.finish ck lmsg).pc = .idle ∧
      s.Effect room (s.finish ck lmsg) [] [] [] [] := by
  obtain ⟨c, hcalls, -, hpopped⟩ := finish_calls ck s lmsg
  have hidle : (s.finish ck lmsg).pc = .idle ∧ (s.finish ck lmsg).call = .new := by
    cases lmsg <;> exact ⟨rfl, rfl⟩
  have hhandled : (s.finish ck lmsg).handled = s.handled ++ [] := by
    simp [PolledLogger.handled, hidle, hpc, PolledLogger.popped, hcalls, hpopped, PollCall.new]
  cases lmsg with
  | none => exact ⟨rfl, rfl, ⟨by simp [PolledLogger.finish], by simp [PolledLogger.finish], hhandled,
      by simp [PolledLogger.finish], rfl, rfl⟩⟩
  | some m =>
      refine ⟨rfl, rfl, ⟨by simp [PolledLogger.finish], by simp [PolledLogger.finish], hhandled,
        by simp [PolledLogger.finish], rfl, ?_⟩⟩
      obtain ⟨fifo, hroom, ⟨-, -, hrun⟩ | ⟨-, -, hrun⟩⟩ := workQueuePush_cases hck h.inBuffer m
      all_goals
        simp only [PolledLogger.finish, hrun]
        exact hroom

omit [DecidableEq μ] in
/-- **The handler of its type** is called with the message that was popped, if there is one. -/
theorem emit_eq {ep : ε} {registered : List (Registration η φ)}
    (hd : Dispatches ep ⟨s.lep, registered⟩) (m : μ) :
    s.emit (registered.length + 1) (some m) = some { s with
      pc := .done (some m)
      emitted := s.emitted ++ (dispatchFor ep registered (s.message m)).toList } := by
  cases hfind : registered.find? fun r => r.messageType = (s.message m).messageType with
  | none =>
      have hmissing : (s.message m).messageType ∉ LoggerRun.types ⟨s.lep, registered⟩ := by
        intro hmem
        obtain ⟨r, hr, htype⟩ := List.mem_map.1 hmem
        exact List.find?_eq_none.1 hfind r hr (decide_eq_true htype)
      have hrun := hd.missing _ hmissing (registered.length + 1) (Nat.le_succ _)
      simp only [PolledLogger.emit, dispatchFor, hfind, hrun, Option.bind_eq_bind, Option.bind_some,
        Option.map_none, Option.toList_none, List.append_nil]
  | some r =>
      have htype : r.messageType = (s.message m).messageType := by simpa using List.find?_some hfind
      obtain ⟨hrun, hhandler⟩ := hd.found r (List.mem_of_find?_eq_some hfind) (registered.length + 1)
        (Nat.le_succ _)
      rw [htype] at hrun
      change s.lep.handler r.hdlr = _ at hhandler
      simp only [PolledLogger.emit, dispatchFor, hfind, hrun, hhandler, Option.bind_eq_bind,
        Option.bind_some, Option.map_some, Option.toList_some]

omit [DecidableEq μ] in
theorem effect_emit (h : PollOk contents s) {ep : ε} {registered : List (Registration η φ)}
    (hd : Dispatches ep ⟨s.lep, registered⟩) {m : μ} (hpc : s.pc = .handle (some m))
    (hrun : s.emit (registered.length + 1) (some m) = some s') :
    s'.message = s.message ∧ s'.call = s.call ∧ s.Effect room s' [] [] [m]
      ([m].filterMap fun m => dispatchFor ep registered (s.message m)) := by
  have hplace := h.place
  rw [PollPlaceOk, hpc] at hplace
  obtain ⟨n, m', hm, hcall⟩ := hplace
  cases hm
  obtain rfl := Option.some.inj ((emit_eq hd m).symm.trans hrun)
  refine ⟨rfl, rfl, ⟨?_, ?_, ?_, ?_, rfl, rfl⟩⟩
  · simp
  · simp
  · simp only [PolledLogger.handled, hpc, PolledLogger.popped, hcall]
  · simp only [List.filterMap_cons, List.filterMap_nil]
    cases dispatchFor ep registered (s.message m) <;> rfl

end Effects

/-! ## What every step keeps -/

/-- The messages sent are those that were handled and then `rest`. The ones were dispatched with what
    was in them when they were sent, and the others are still what they were. -/
structure Served (ep : ε) (s : LoggerService ρ η ε φ π μ) (old : List (LoggerMessage π))
    (rest : List μ) : Prop where
  sent : s.polled.sent = s.polled.handled ++ rest
  posted : s.posted = old ++ rest.map s.polled.message
  length : old.length = s.polled.handled.length
  emitted : s.polled.emitted = old.filterMap (dispatchFor ep s.registered)

/-- The invariant. -/
structure ServiceOk [DecidableEq η] (contents : ρ → List (Option μ)) (room : ρ → ℕ)
    (base : BitVec 32) (ep : ε) (s : LoggerService ρ η ε φ π μ) : Prop where
  poll : PollOk contents s.polled
  calls : ∀ c ∈ s.polled.calls, c.popped.length = min c.fill 1 ∧ c.pushed = c.popped
  tree : ∃ T, LoggerOk ep s.endpoint T
  window : ∀ t ∈ s.endpoint.types, (t - base).toNat < 2 ^ 31
  fresh : s.polled.lep.state = .inactive → s.polled.pc = .idle ∧ s.polled.handled = []
  served : ∃ old rest, Served ep s old rest
  room : s.polled.underWay.length ≤ room s.polled.lep.inQueue.fifo
  initialized : ∀ lmsg, s.polled.pc = .done lmsg → s.polled.call.popped = [] → lmsg = none

section Keeps

variable [DecidableEq η] {ck : CkRing ρ μ} {ckRingSize : ρ → ℕ} {contents : ρ → List (Option μ)}
  {room : ρ → ℕ} {base : BitVec 32} {ep : ε} {s s' : LoggerService ρ η ε φ π μ}
  {p : PolledLogger ρ η ε φ π μ}

theorem ServiceOk.returned (h : ServiceOk contents room base ep s) :
    MessagesReturned contents s.polled := by
  refine ⟨fun c hc => ⟨(h.calls c hc).2, fun hzero => ?_⟩, h.poll.balance⟩
  obtain ⟨hlength, hpushed⟩ := h.calls c hc
  rw [hzero, Nat.zero_min] at hlength
  have hpopped := List.length_eq_zero_iff.1 hlength
  exact ⟨hpopped, hpushed.trans hpopped⟩

/-- The messages under way are in `in_queue`, with the poll function, and in `out_queue`. -/
theorem ServiceOk.underWay_eq (h : ServiceOk contents room base ep s) :
    s.polled.underWay.map some = contents s.polled.lep.inQueue.fifo ++
      s.polled.call.popped.map some ++ contents s.polled.lep.outQueue.fifo := by
  have hlength : s.polled.received.length = (s.polled.received.map some).length :=
    (List.length_map _).symm
  rw [PolledLogger.underWay, List.map_drop, h.returned.conserved, List.append_assoc,
    List.append_assoc, hlength, List.drop_left, List.append_assoc]

theorem ServiceOk.received_le_handled (h : ServiceOk contents room base ep s) :
    s.polled.received.length ≤ s.polled.handled.length := by
  have hpushed : s.polled.calls.flatMap PollCall.pushed = s.polled.calls.flatMap PollCall.popped :=
    List.flatMap_congr fun c hc => (h.calls c hc).2
  have hin := congrArg List.length h.poll.balance.inQueue
  rw [PolledLogger.pushed, hpushed, List.length_append, List.length_map, List.length_map] at hin
  have hhandled : (s.polled.calls.flatMap PollCall.popped).length ≤ s.polled.handled.length := by
    unfold PolledLogger.handled
    split
    · exact le_rfl
    · rw [PolledLogger.popped, List.length_append]
      exact Nat.le_add_right _ _
  omega

theorem ServiceOk.rest_subset (h : ServiceOk contents room base ep s) {old : List (LoggerMessage π)}
    {rest : List μ} (hserved : Served ep s old rest) : rest ⊆ s.polled.underWay := by
  have hdrop : rest = s.polled.sent.drop s.polled.handled.length := by
    rw [hserved.sent, List.drop_left]
  rw [hdrop]
  exact List.drop_subset_drop_left _ h.received_le_handled

/-- **The push at the end of a poll** does what it should. -/
theorem ServiceOk.returnOk (h : ServiceOk contents room base ep s) :
    ReturnOk contents room s.polled .run := by
  cases hpc : s.polled.pc with
  | done lmsg =>
      simp only [ReturnOk, hpc]
      split
      · next hnil => exact .inl (h.initialized lmsg hpc hnil)
      · next hne =>
          have hlength := congrArg List.length h.underWay_eq
          simp only [List.length_append, List.length_map] at hlength
          have hpos := List.length_pos_iff.2 hne
          have hroom := h.room
          omega
  | _ => simp only [ReturnOk, hpc]

omit [DecidableEq η] in
theorem LoggerOk.setQueues {r : LoggerRun ρ η ε φ} {T : Lib.RBTree η} (h : LoggerOk ep r T)
    (outQueue inQueue : WorkQueue ρ) :
    LoggerOk ep { r with lep := { r.lep with outQueue := outQueue, inQueue := inQueue } } T :=
  ⟨h.tree, h.perm, h.window, h.distinct, h.positive, h.key, h.handler⟩

/-- **A step that has to do with messages** keeps the invariant, if what it handles are the next
messages, and it leaves those alone that are under way. -/
theorem ServiceOk.of_effect (h : ServiceOk contents room base ep s) {added got found : List μ}
    (hok : PollOk contents p)
    (hcalls : ∀ c ∈ p.calls, c.popped.length = min c.fill 1 ∧ c.pushed = c.popped)
    (heff : s.polled.Effect room p added got found
      (found.filterMap fun m => dispatchFor ep s.registered (s.polled.message m)))
    (hfound : s.polled.handled ++ found <+: s.polled.sent)
    (hmsg : ∀ m ∈ s.polled.underWay, p.message m = s.polled.message m)
    (hroom : s.polled.underWay.length + added.length ≤ room s.polled.lep.inQueue.fifo)
    (hfresh : p.lep.state = .inactive → p.pc = .idle ∧ p.handled = [])
    (hinit : ∀ lmsg, p.pc = .done lmsg → p.call.popped = [] → lmsg = none) :
    ServiceOk contents room base ep { s with
      polled := p
      posted := s.posted ++ (p.sent.drop s.polled.sent.length).map p.message } where
  poll := hok
  calls := hcalls
  tree := by
    obtain ⟨T, htree⟩ := h.tree
    refine ⟨T, ?_⟩
    rw [LoggerService.endpoint, heff.lep]
    exact htree.setQueues _ _
  window := h.window
  fresh := hfresh
  served := by
    obtain ⟨old, rest, hserved⟩ := h.served
    obtain ⟨rest', hsent⟩ := hfound
    have hrest : rest = found ++ rest' := by
      rw [hserved.sent, List.append_assoc] at hsent
      exact (List.append_cancel_left hsent).symm
    have hkept : rest'.map p.message = rest'.map s.polled.message :=
      List.map_congr_left fun m hm =>
        hmsg m (h.rest_subset hserved (hrest ▸ List.mem_append_right _ hm))
    refine ⟨old ++ found.map s.polled.message, rest' ++ added, ?_, ?_, ?_, ?_⟩
    · rw [heff.sent, heff.handled, hserved.sent, hrest]
      simp only [List.append_assoc]
    · rw [heff.sent, List.drop_left, hserved.posted, hrest, List.map_append, List.map_append,
        ← hkept]
      simp only [List.append_assoc]
    · rw [heff.handled, List.length_append, List.length_append, List.length_map, hserved.length]
    · rw [heff.emitted, hserved.emitted, List.filterMap_append, List.filterMap_map]
      rfl
  room := by
    rw [heff.room, PolledLogger.underWay, heff.sent, heff.received]
    rw [PolledLogger.underWay] at hroom
    simp only [List.length_drop, List.length_append] at hroom ⊢
    omega
  initialized := hinit

theorem ServiceOk.app (h : ServiceOk contents room base ep s) {added got : List μ}
    (hok : PollOk contents p) (hcalls : p.calls = s.polled.calls)
    (heff : s.polled.Effect room p added got [] [])
    (hmsg : ∀ m ∈ s.polled.underWay, p.message m = s.polled.message m)
    (hpc : p.pc = s.polled.pc) (hcall : p.call = s.polled.call)
    (hroom : s.polled.underWay.length + added.length ≤ room s.polled.lep.inQueue.fifo) :
    ServiceOk contents room base ep { s with
      polled := p
      posted := s.posted ++ (p.sent.drop s.polled.sent.length).map p.message } := by
  refine h.of_effect hok (hcalls ▸ h.calls) heff ?_ hmsg hroom ?_ (hpc ▸ hcall ▸ h.initialized)
  · rw [List.append_nil]
    exact handled_prefix_sent h.poll
  · intro hinactive
    rw [heff.lep] at hinactive
    rw [hpc, heff.handled, List.append_nil]
    exact h.fresh hinactive

theorem ServiceOk.polling (h : ServiceOk contents room base ep s) {found : List μ}
    (hok : PollOk contents p)
    (hcalls : ∀ c ∈ p.calls, c.popped.length = min c.fill 1 ∧ c.pushed = c.popped)
    (heff : s.polled.Effect room p [] [] found
      (found.filterMap fun m => dispatchFor ep s.registered (s.polled.message m)))
    (hfound : s.polled.handled ++ found <+: s.polled.sent) (hmsg : p.message = s.polled.message)
    (hactive : s.polled.lep.state ≠ .inactive)
    (hinit : ∀ lmsg, p.pc = .done lmsg → p.call.popped = [] → lmsg = none) :
    ServiceOk contents room base ep { s with
      polled := p
      posted := s.posted ++ (p.sent.drop s.polled.sent.length).map p.message } := by
  refine h.of_effect hok hcalls heff hfound (fun m _ => by rw [hmsg]) h.room ?_ hinit
  intro hinactive
  rw [heff.lep] at hinactive
  exact absurd hinactive hactive

/-- **The next step of a poll.** -/
theorem ServiceOk.run [DecidableEq μ] (hck : ck.BoundedFifo contents room)
    (h : ServiceOk contents room base ep s)
    (hstep : s.polled.step ck ckRingSize (s.registered.length + 1) .run = some p) :
    ServiceOk contents room base ep { s with
      polled := p
      posted := s.posted ++ (p.sent.drop s.polled.sent.length).map p.message } := by
  have hplace := h.poll.place
  have hprefix : s.polled.handled ++ [] <+: s.polled.sent := by
    rw [List.append_nil]
    exact handled_prefix_sent h.poll
  have hactive : s.polled.pc ≠ .idle → s.polled.lep.state ≠ .inactive :=
    fun hpc hinactive => hpc (h.fresh hinactive).1
  simp only [PolledLogger.step, PolledLogger.poll] at hstep
  cases hpc : s.polled.pc with
  | idle => rw [hpc] at hstep; cases hstep
  | pop =>
      rw [hpc] at hstep
      cases hstep
      obtain ⟨hok, hcalls⟩ := h.poll.popMessage hck hpc
      obtain ⟨hmsg, ⟨lmsg, hnext⟩, heff⟩ := effect_popMessage hck h.poll hpc
      refine h.polling hok (hcalls ▸ h.calls) heff hprefix hmsg (hactive (by rw [hpc]; simp)) ?_
      intro lmsg' hdone
      rw [hnext] at hdone
      cases hdone
  | handle lmsg =>
      rw [hpc] at hstep
      rw [PollPlaceOk, hpc] at hplace
      obtain ⟨n, m, rfl, hcall⟩ := hplace
      obtain ⟨T, htree⟩ := h.tree
      obtain ⟨hok, hcalls⟩ := h.poll.emit hpc hstep
      obtain ⟨hmsg, hsame, heff⟩ := effect_emit h.poll htree.dispatches hpc hstep
      refine h.polling hok (hcalls ▸ h.calls) heff ?_ hmsg (hactive (by rw [hpc]; simp)) ?_
      · rw [← heff.handled, ← List.append_nil s.polled.sent, ← heff.sent]
        exact handled_prefix_sent hok
      · intro lmsg _ hnil
        rw [hsame, hcall] at hnil
        cases hnil
  | done lmsg =>
      rw [hpc] at hstep
      cases hstep
      rw [PollPlaceOk, hpc] at hplace
      obtain ⟨hok, c, hcalls, hreturned⟩ := h.poll.finish hck hpc
      obtain ⟨hmsg, hidle, heff⟩ := effect_finish hck h.poll hpc
      refine h.polling hok ?_ heff hprefix hmsg (hactive (by rw [hpc]; simp)) ?_
      · rw [hcalls, List.forall_mem_append]
        refine ⟨h.calls, fun c' hc' => ?_⟩
        obtain rfl := List.mem_singleton.1 hc'
        refine ⟨?_, (hreturned.2 h.returnOk).once⟩
        obtain ⟨c'', hcalls', hfill, hpopped⟩ := finish_calls ck s.polled lmsg
        obtain rfl := List.singleton_inj.1 (List.append_cancel_left (hcalls.symm.trans hcalls'))
        rw [hfill, hpopped]
        rcases hplace with hcall | ⟨n, m, -, hcall⟩
        · rw [hcall]
          rfl
        · rw [hcall]
          simp
      · intro lmsg' hdone
        rw [hidle] at hdone
        cases hdone

/-- **A step that has to do with messages** keeps the invariant. -/
theorem ServiceOk.pollStep [DecidableEq μ] (hck : ck.BoundedFifo contents room)
    (hsize : ∀ r, ckRingSize r = (contents r).length) (h : ServiceOk contents room base ep s)
    {input : PollInput π μ} (hdue : s.Due (.poll input))
    (hterms : KeepsTerms contents room base s (.poll input))
    (hstep : s.polled.step ck ckRingSize (s.registered.length + 1) input = some p) :
    ServiceOk contents room base ep { s with
      polled := p
      posted := s.posted ++ (p.sent.drop s.polled.sent.length).map p.message } := by
  cases input with
  | write m msg =>
      obtain ⟨hok, -⟩ := h.poll.step hck hsize hstep
      cases hstep
      refine h.app hok rfl (effect_write _) ?_ rfl rfl h.room
      intro m' hm'
      have hne : m' ≠ m := fun heq => hterms (heq ▸ hm')
      exact Function.update_of_ne hne _ _
  | send m =>
      obtain ⟨hok, hcalls⟩ := h.poll.send hck hstep
      obtain ⟨hmsg, hpc, hcall, heff | heff⟩ := effect_send hck h.poll hstep
      · exact h.app hok hcalls heff (fun m' _ => by rw [hmsg]) hpc hcall hterms
      · exact h.app hok hcalls heff (fun m' _ => by rw [hmsg]) hpc hcall h.room
  | receive data =>
      obtain ⟨hok, hcalls⟩ := h.poll.receive hck hstep
      obtain ⟨hmsg, hpc, hcall, got, heff⟩ := effect_receive hck h.poll hstep
      exact h.app hok hcalls heff (fun m' _ => by rw [hmsg]) hpc hcall h.room
  | call lmsg =>
      obtain ⟨hok, hcalls⟩ := h.poll.call hsize hstep
      obtain ⟨hmsg, heff, hdone⟩ := effect_call hsize h.poll hstep
      have hrunning : s.polled.lep.state = .running := hdue
      refine h.polling hok (hcalls ▸ h.calls) heff ?_ hmsg (by rw [hrunning]; simp) ?_
      · rw [List.append_nil]
        exact handled_prefix_sent h.poll
      · intro lmsg' hpc _
        obtain ⟨rfl, hempty⟩ := hdone lmsg' hpc
        exact hterms.resolve_right (not_not.2 hempty)
  | run => exact h.run hck hstep

/-! ### Managing the endpoint -/

/-- A registration leaves the queues and the state alone. It succeeds only in an inactive logger. -/
theorem loggerAddMessageHandler_frame {fuel : ℕ} {owner : Option ε} {lep lep' : LoggerEndpoint ρ η ε φ}
    {messageType : BitVec 32} {func : Option φ} {calloc : Option η} {ret : AResult}
    (hrun : loggerAddMessageHandler fuel owner lep messageType func calloc = some (ret, lep')) :
    lep'.outQueue = lep.outQueue ∧ lep'.inQueue = lep.inQueue ∧ lep'.state = lep.state ∧
      (ret = aOk → 0#32 < messageType ∧ lep.state = .inactive) := by
  have hrefused : ∀ code, code ≠ aOk → some (code, lep) = some (ret, lep') →
      lep'.outQueue = lep.outQueue ∧ lep'.inQueue = lep.inQueue ∧ lep'.state = lep.state ∧
        (ret = aOk → 0#32 < messageType ∧ lep.state = .inactive) := by
    intro code hcode heq
    cases heq
    exact ⟨rfl, rfl, rfl, fun hok => absurd hok hcode⟩
  unfold loggerAddMessageHandler at hrun
  split at hrun
  · exact hrefused _ (by decide) hrun
  split at hrun
  · exact hrefused _ (by decide) hrun
  next hpos =>
  split at hrun
  · exact hrefused _ (by decide) hrun
  split at hrun
  · exact hrefused _ (by decide) hrun
  next hstate =>
  have hallowed : 0#32 < messageType ∧ lep.state = .inactive := ⟨not_not.1 hpos, not_not.1 hstate⟩
  simp only [Option.bind_eq_bind, Option.bind_eq_some_iff] at hrun
  obtain ⟨⟨found, value⟩, -, hrun⟩ := hrun
  split at hrun
  · exact hrefused _ (by decide) hrun
  cases calloc with
  | none => exact hrefused _ (by decide) hrun
  | some nhdlr =>
      simp only [Option.bind_eq_some_iff] at hrun
      obtain ⟨⟨code, tree⟩, -, hrun⟩ := hrun
      simp only at hrun
      split at hrun <;> cases hrun <;> exact ⟨rfl, rfl, rfl, fun _ => hallowed⟩

/-- What a call does besides: handlers are registered in an inactive logger only, and a logger does not
become inactive. -/
theorem LoggerRun.step_frame {r r' : LoggerRun ρ η ε φ} {call : LoggerCall η φ}
    (hstep : r.step ep call = some r') :
    r'.lep.outQueue = r.lep.outQueue ∧ r'.lep.inQueue = r.lep.inQueue ∧
      (r'.lep.state = .inactive → r.lep.state = .inactive) ∧
      (r'.registered = r.registered ∨ r.lep.state = .inactive ∧ ∃ messageType func nhdlr,
        call = .addMessageHandler messageType (some func) (some nhdlr) ∧ 0#32 < messageType ∧
          r'.types = messageType :: r.types) := by
  cases call with
  | addMessageHandler messageType func calloc =>
      simp only [LoggerRun.step] at hstep
      split_ifs at hstep
      obtain ⟨⟨ret, lep⟩, hrun, rfl⟩ := Option.map_eq_some_iff.1 hstep
      obtain ⟨hout, hin, hstate, hok⟩ := loggerAddMessageHandler_frame hrun
      cases func with
      | none => exact ⟨hout, hin, fun h => hstate ▸ h, .inl rfl⟩
      | some func =>
          cases calloc with
          | none => exact ⟨hout, hin, fun h => hstate ▸ h, .inl rfl⟩
          | some nhdlr =>
              refine ⟨hout, hin, fun h => hstate ▸ h, ?_⟩
              by_cases hret : ret = aOk
              · obtain ⟨hpos, hinactive⟩ := hok hret
                refine .inr ⟨hinactive, messageType, func, nhdlr, rfl, hpos, ?_⟩
                simp [LoggerRun.register, LoggerRun.types, hret]
              · exact .inl (if_neg hret)
  | start ret =>
      cases hstep
      simp only [loggerStart]
      split
      · exact ⟨rfl, rfl, id, .inl trivial⟩
      · next hinactive => exact ⟨rfl, rfl, fun _ => not_not.1 hinactive, .inl trivial⟩
  | startup =>
      cases hstep
      exact ⟨rfl, rfl, fun h => LoggerState.noConfusion h, .inl rfl⟩
  | shutdown =>
      cases hstep
      exact ⟨rfl, rfl, fun h => LoggerState.noConfusion h, .inl rfl⟩

/-- **A call that manages the endpoint** keeps the invariant. -/
theorem ServiceOk.manage (h : ServiceOk contents room base ep s) {call : LoggerCall η φ}
    {r : LoggerRun ρ η ε φ} (hterms : KeepsTerms contents room base s (.manage call))
    (hstep : s.endpoint.step ep call = some r) :
    ServiceOk contents room base ep { s with
      polled := { s.polled with lep := r.lep }
      registered := r.registered } := by
  obtain ⟨hout, hin, hstate, hregistered⟩ := LoggerRun.step_frame hstep
  change r.lep.outQueue = s.polled.lep.outQueue at hout
  change r.lep.inQueue = s.polled.lep.inQueue at hin
  have hwindow : WindowKept s.endpoint call := by
    cases call with
    | addMessageHandler messageType func calloc =>
        intro hpos hfunc hinactive hcalloc
        cases func with
        | none => exact absurd rfl hfunc
        | some func =>
            cases calloc with
            | none => exact absurd rfl hcalloc
            | some nhdlr =>
                exact ⟨base, List.forall_mem_cons.2 ⟨hterms hpos hinactive, h.window⟩⟩
    | _ => trivial
  obtain ⟨T, htree⟩ := h.tree
  obtain ⟨old, rest, hserved⟩ := h.served
  refine ⟨⟨?_, ?_, ⟨?_, ?_⟩, ?_⟩, h.calls, loggerOk_step htree hwindow hstep, ?_, ?_, ?_, ?_,
    h.initialized⟩
  · rw [hout]
    exact h.poll.outBuffer
  · rw [hin]
    exact h.poll.inBuffer
  · rw [hout]
    exact h.poll.balance.outQueue
  · rw [hin]
    exact h.poll.balance.inQueue
  · exact h.poll.place.congr rfl rfl fun hne => hout ▸ hne
  · rcases hregistered with heq | ⟨hinactive, messageType, func, nhdlr, rfl, hpos, htypes⟩
    · have htypes : r.types = s.endpoint.types := by rw [LoggerRun.types, heq]; rfl
      exact htypes ▸ h.window
    · change ∀ t ∈ r.types, _
      rw [htypes]
      exact List.forall_mem_cons.2 ⟨hterms hpos hinactive, h.window⟩
  · exact fun hinactive => h.fresh (hstate hinactive)
  · refine ⟨old, rest, hserved.sent, hserved.posted, hserved.length, ?_⟩
    rcases hregistered with heq | ⟨hinactive, -⟩
    · change s.polled.emitted = old.filterMap (dispatchFor ep r.registered)
      rw [heq]
      exact hserved.emitted
    · -- nothing was handled before
      have hold : old = [] := by
        have hlength := hserved.length
        rw [(h.fresh hinactive).2] at hlength
        exact List.length_eq_zero_iff.1 hlength
      subst hold
      exact hserved.emitted
  · rw [hin]
    exact h.room

/-- **Every step** keeps the invariant. -/
theorem serviceOk_step [DecidableEq μ] (hck : ck.BoundedFifo contents room)
    (hsize : ∀ r, ckRingSize r = (contents r).length) (h : ServiceOk contents room base ep s)
    {i : ServiceInput η φ π μ} (hterms : KeepsTerms contents room base s i)
    (hstep : s.step ck ckRingSize ep i = some s') : ServiceOk contents room base ep s' := by
  unfold LoggerService.step at hstep
  split at hstep
  · next hdue =>
      cases i with
      | manage call =>
          obtain ⟨r, hrun, rfl⟩ := Option.map_eq_some_iff.1 hstep
          exact h.manage hterms hrun
      | poll input =>
          obtain ⟨p, hrun, rfl⟩ := Option.map_eq_some_iff.1 hstep
          exact h.pollStep hck hsize hdue hterms hrun
  · cases hstep

/-- **The application is served.** -/
theorem ServiceOk.serves [DecidableEq μ] (h : ServiceOk contents room base ep s) :
    ServesMessages ck ckRingSize contents ep s where
  inOrder := handled_prefix_sent h.poll
  dispatched := by
    obtain ⟨old, rest, hserved⟩ := h.served
    rw [hserved.emitted, hserved.posted, ← hserved.length, List.take_left]
  polls := h.calls
  conserved := h.returned.conserved
  goesOn := by
    intro hpc
    have hplace := h.poll.place
    have hdue : s.Due (.poll .run) := trivial
    rw [LoggerService.step, if_pos hdue, Option.isSome_map]
    simp only [PolledLogger.step, PolledLogger.poll]
    cases hcase : s.polled.pc with
    | idle => exact absurd hcase hpc
    | pop => rfl
    | handle lmsg =>
        rw [PollPlaceOk, hcase] at hplace
        obtain ⟨n, m, rfl, -⟩ := hplace
        obtain ⟨T, htree⟩ := h.tree
        simp only [emit_eq htree.dispatches m, Option.isSome_some]
    | done lmsg => rfl

end Keeps

/-! ## Runs -/

section Runs

variable [DecidableEq η] [DecidableEq μ] {ck : CkRing ρ μ} {ckRingSize : ρ → ℕ}
  {contents : ρ → List (Option μ)} {room : ρ → ℕ} {lep : LoggerEndpoint ρ η ε φ}
  {queueDepth : BitVec 32} {calloc bufferOut bufferIn : Bool}
  {node : η → RbTreeNode η (BitVec 64)} {list : ListMem (LoggerListNode η)}
  {handler : η → LoggerMessageHandler ε φ}

omit [DecidableEq μ] in
theorem serviceOk_new (hck : ck.BoundedFifo contents room) (base : BitVec 32) (ep : ε)
    (hnew : loggerInitialize ck queueDepth calloc bufferOut bufferIn node list handler =
      (aOk, some lep)) (message : μ → LoggerMessage π) :
    ServiceOk contents room base ep (.new lep message) := by
  obtain ⟨⟨ret, hout⟩, hin, -⟩ := loggerInitialize_ok hnew
  have hret : ret = aOk := by
    unfold workQueueNew at hout
    split_ifs at hout
    all_goals simp_all
  subst hret
  exact {
    poll := pollOk_new hck hout hin message
    calls := fun _ hc => by cases hc
    tree := ⟨.nil, loggerOk_new ep hnew⟩
    window := fun _ ht => by cases ht
    fresh := fun _ => ⟨rfl, rfl⟩
    served := ⟨[], [], rfl, rfl, rfl, rfl⟩
    room := Nat.zero_le _
    initialized := fun _ hpc => by cases hpc }

/-- **In a run on the terms** the application is served: each message is handled once, in order, and
comes back. -/
theorem servesMessages_of_meets (hck : ck.BoundedFifo contents room)
    (hsize : ∀ r, ckRingSize r = (contents r).length) (base : BitVec 32) (ep : ε)
    (hnew : loggerInitialize ck queueDepth calloc bufferOut bufferIn node list handler =
      (aOk, some lep)) (message : μ → LoggerMessage π) (inputs : List (ServiceInput η φ π μ))
    (hterms : Meets (LoggerService.step ck ckRingSize ep) (KeepsTerms contents room base)
      (.new lep message) inputs) :
    Throughout (LoggerService.step ck ckRingSize ep) (ServesMessages ck ckRingSize contents ep)
      (.new lep message) inputs :=
  throughout_of_meets (I := ServiceOk contents room base ep)
    (fun _ _ _ h hmeets hstep => serviceOk_step hck hsize h hmeets hstep) (fun _ h => h.serves) inputs _
    (serviceOk_new hck base ep hnew message) hterms

end Runs

/-- A poll that finds a message. -/
def pollOnce : List (ServiceInput ℕ ℕ ℕ ℕ) :=
  [.poll (.call none), .poll .run, .poll .run, .poll .run]

/-- Handlers for two types are registered. Three messages are sent, the last one of another type, and
    the first one is used again when it has come back. -/
def threeMessages : List (ServiceInput ℕ ℕ ℕ ℕ) :=
  [.manage (.addMessageHandler 5#32 (some 50) (some 1)),
    .manage (.addMessageHandler 0xfffffffe#32 (some 60) (some 2)), .manage (.start aOk),
    .poll (.write 0 ⟨7, 0xfffffffe#32⟩), .poll (.send 0), .manage .startup,
    .poll (.write 1 ⟨8, 5#32⟩), .poll (.send 1)] ++ pollOnce ++
    [.poll (.receive none), .poll (.write 0 ⟨9, 77#32⟩), .poll (.send 0)] ++ pollOnce ++ pollOnce ++
    [.poll (.call none), .poll .run, .manage .shutdown]

theorem servesMessages_of_meets_three :
    (exec (LoggerService.step listRing (fun r => r.1.length) 0) (.new newLogger someMessages)
        threeMessages).map (fun s => (s.polled.emitted, s.polled.handled)) =
      some ([(60, some 0, 7), (50, some 0, 8)], [0, 1, 0]) ∧
    Throughout (LoggerService.step listRing (fun r => r.1.length) 0)
      (ServesMessages listRing (fun r => r.1.length) Prod.fst 0) (.new newLogger someMessages)
      threeMessages :=
  ⟨by decide +kernel, servesMessages_of_meets listRing_boundedFifo (fun _ => rfl) 0xfffffff0#32 0
    newLogger_eq someMessages threeMessages (by decide +kernel)⟩

end Tsl
