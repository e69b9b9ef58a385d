import Tsl.Lib.Log
import Tsl.List.Iterate
import Tsl.Offload.Thread

set_option autoImplicit false

/-! # The poll loop of a work thread

`__work_thread_worker_func` of `tsl/offload/thread.c`: until it is signalled to die, a work thread
collects new endpoints, polls those whose time has come and drops those whose poll failed; then it
shuts the rest down. The endpoints are on the list `work_endpoints`, through their `wnode`, and are
taken off it while it is walked.

A step of the machine is a test of the loop, a turn of the loop that collects endpoints, or one
endpoint of a walk. Other threads add endpoints and write `signal_death` in between. How long the
thread sleeps between two passes is left out. -/

namespace Tsl

open Lib

variable {ρ ε : Type*}

/-! ## The code -/

/-- The list entries of a work thread: `work_endpoints` and the `wnode` of every endpoint. -/
inductive WorkNode (ε : Type*)
  | head
  | wnode (ep : ε)
  | poisonNext
  | poisonPrev
deriving DecidableEq

instance : ListPtr (WorkNode ε) := ⟨.poisonNext, .poisonPrev⟩

/-- A call of `work_endpoint_startup`, `work_endpoint_poll` or `work_endpoint_shutdown`. -/
inductive EndpointEvent (ε : Type*)
  | startup (ep : ε)
  | poll (ep : ε)
  | shutdown (ep : ε)
deriving DecidableEq

/-- Where the worker function is: at the test of its loop, at a turn of the loop that collects, at the
    cursor `ep`, `temp` of one of its two walks, or at its end. -/
inductive WorkerPlace (ε : Type*)
  | test
  | collect (i : ℕ) (ep : Option ε)
  | poll (ep temp : WorkNode ε)
  | teardown (ep temp : WorkNode ε)
  | returned
deriving DecidableEq

/-- A work thread that runs its worker function. `events` logs the calls on its endpoints, and
    `arrived` holds the endpoints that were ever queued. -/
structure Worker (ρ ε : Type*) where
  signalDeath : BitVec 32
  epQueue : WorkQueue ρ
  list : ListMem (WorkNode ε)
  nextPoll : ε → BitVec 64
  pc : WorkerPlace ε
  events : List (EndpointEvent ε)
  arrived : List ε

/-- What the worker function is told when it polls: the time, what the poll function answers and asks
    to wait, and the time after it. -/
structure PollEnv where
  now : BitVec 64
  ret : AResult
  wait : BitVec 32
  later : BitVec 64

namespace Worker

/-- `list_for_each_type_safe`, at its start. -/
def first (w : Worker ρ ε) (walk : WorkNode ε → WorkNode ε → WorkerPlace ε) : Worker ρ ε :=
  { w with pc := walk (w.list .head).next (w.list (w.list .head).next).next }

/-- `list_for_each_type_safe`, from one endpoint to the next. -/
def advance (w : Worker ρ ε) (walk : WorkNode ε → WorkNode ε → WorkerPlace ε) (temp : WorkNode ε) :
    Worker ρ ε :=
  { w with pc := walk temp (w.list temp).next }

variable [DecidableEq ε]

/-- `work_endpoint_startup` and `list_append`. -/
def start (w : Worker ρ ε) (ep : ε) : Worker ρ ε :=
  { w with
    events := w.events ++ [.startup ep]
    list := listAppend w.list .head (.wnode ep) }

/-- `work_endpoint_poll`: an endpoint without a poll function answers `A_OK`. The time to wait is
    multiplied in 32 bits. -/
def pollEndpoint (hasPoll : ε → Bool) (w : Worker ρ ε) (ep : ε) (env : PollEnv) :
    AResult × Worker ρ ε :=
  let w := { w with events := w.events ++ [.poll ep] }
  if hasPoll ep then
    let nextPoll := env.later + (env.wait * 1000000#32).setWidth 64
    (env.ret, { w with nextPoll := Function.update w.nextPoll ep nextPoll })
  else (aOk, w)

/-- `work_endpoint_shutdown` and `list_del`. -/
def stop (w : Worker ρ ε) (ep : ε) : Worker ρ ε :=
  { w with
    events := w.events ++ [.shutdown ep]
    list := listDel w.list (.wnode ep) }

/-- A turn of the loop of `__work_thread_check_new_endpoints`. At its end the endpoints are polled. -/
def collect (ck : CkRing ρ ε) (w : Worker ρ ε) (i : ℕ) (ep : Option ε) : Worker ρ ε :=
  let (_, ep, q) := workQueuePop ck w.epQueue ep
  let w := { w with epQueue := q }
  match ep with
  | none => w.first .poll
  | some e =>
      if i - 1 > 0 then { w.start e with pc := .collect (i - 1) (some e) } else w.first .poll

/-- One step of `__work_thread_worker_func`. There is none at a cursor that is no endpoint. -/
def work (ck : CkRing ρ ε) (hasPoll : ε → Bool) (w : Worker ρ ε) (env : PollEnv) :
    Option (Worker ρ ε) :=
  match w.pc with
  | .test =>
      if w.signalDeath = workThreadAlive then
        some { w with pc := .collect (workThreadMaxQueuedEndpoints / 2) none }
      else some (w.first .teardown)
  | .collect i ep => some (w.collect ck i ep)
  | .poll ep temp =>
      match ep with
      | .head => some { w with pc := .test }
      | .wnode e =>
          if w.nextPoll e > env.now then some (w.advance .poll temp)
          else
            let (ret, w) := w.pollEndpoint hasPoll e env
            let w := if afailed ret then w.stop e else w
            some (w.advance .poll temp)
      | _ => none
  | .teardown ep temp =>
      match ep with
      | .head => some { w with pc := .returned }
      | .wnode e => some ((w.stop e).advance .teardown temp)
      | _ => none
  | .returned => none

end Worker

/-- What can happen: an endpoint that has not come before is queued, `signal_death` is written, the
    worker function makes a step. -/
inductive WorkerInput (ε : Type*)
  | add (ep : ε)
  | signal (val : BitVec 32)
  | work (env : PollEnv)

variable [DecidableEq ε]

/-- One step of the machine. -/
def Worker.step (ck : CkRing ρ ε) (hasPoll : ε → Bool) (w : Worker ρ ε) :
    WorkerInput ε → Option (Worker ρ ε)
  | .add ep =>
      if ep ∈ w.arrived then none
      else
        let (ret, q) := workQueuePush ck w.epQueue (some ep)
        some { w with epQueue := q, arrived := if ret = aOk then ep :: w.arrived else w.arrived }
  | .signal val => some { w with signalDeath := val }
  | .work env => w.work ck hasPoll env

/-- A work thread as `work_thread_new` leaves it, before its worker function runs. -/
def Worker.new (q : WorkQueue ρ) (list : ListMem (WorkNode ε)) (nextPoll : ε → BitVec 64) :
    Worker ρ ε where
  signalDeath := workThreadAlive
  epQueue := q
  list := listInit list .head
  nextPoll := nextPoll
  pc := .test
  events := []
  arrived := []

/-! ## The life of an endpoint -/

/-- What may be called on an endpoint after the calls `before`: it is started once, and polled and
    shut down only while it is started. -/
def EndpointAllowed (before : List (EndpointEvent ε)) : EndpointEvent ε → Prop
  | .startup ep => .startup ep ∉ before
  | .poll ep => .startup ep ∈ before ∧ .shutdown ep ∉ before
  | .shutdown ep => .startup ep ∈ before ∧ .shutdown ep ∉ before

/-- The lifecycle of the endpoints. -/
structure Lifecycle (w : Worker ρ ε) : Prop where
  /-- Started before polled. -/
  startup_first : ∀ ep before, before ++ [.poll ep] <+: w.events → .startup ep ∈ before
  /-- Shut down at most once, and not polled after it. -/
  shutdown_once : ∀ ep, w.events.count (.shutdown ep) ≤ 1
  no_poll_after : ∀ ep before, before ++ [.poll ep] <+: w.events → .shutdown ep ∉ before
  /-- At the end all that were started have been shut down, and the list is empty. -/
  all_stopped : w.pc = .returned →
    (∀ ep, .startup ep ∈ w.events → w.events.count (.shutdown ep) = 1) ∧ IsList w.list .head []

/-! ## What every step keeps -/

/-- The cursor of a walk that has `rest` before it. -/
def CursorAt (rest : List ε) (ep temp : WorkNode ε) : Prop :=
  match rest with
  | [] => ep = .head
  | e :: rest => ep = .wnode e ∧ temp = (rest.map .wnode).headD .head

/-- The place of the worker function, with the endpoints `eps` on the list. -/
def PlaceOk (eps : List ε) : WorkerPlace ε → Prop
  | .poll ep temp => ∃ walked rest, eps = walked ++ rest ∧ CursorAt rest ep temp
  | .teardown ep temp => CursorAt eps ep temp
  | .returned => eps = []
  | _ => True

/-- The endpoints `eps` are on the list, and are those started and not shut down; `queued` are in the
    queue, and have not been started. -/
structure WorkerOk (contents : ρ → List (Option ε)) (w : Worker ρ ε) (eps queued : List ε) : Prop where
  buffer : w.epQueue.buffer = true
  listed : IsList w.list .head (eps.map .wnode)
  active : ∀ ep, ep ∈ eps ↔ .startup ep ∈ w.events ∧ .shutdown ep ∉ w.events
  queue : contents w.epQueue.fifo = queued.map some
  distinct : queued.Nodup
  fresh : ∀ ep ∈ queued, .startup ep ∉ w.events ∧ ep ∈ w.arrived
  started : ∀ ep, .startup ep ∈ w.events → ep ∈ w.arrived
  allowed : Logged EndpointAllowed w.events

section Walks

variable {m : ListMem (WorkNode ε)} {eps walked rest : List ε}

omit [DecidableEq ε] in
/-- The cursor of a walk is that of `list_for_each_type_safe`. -/
theorem CursorOn.cursorAt {ep temp : WorkNode ε} (h : CursorOn .head (rest.map .wnode) ep temp) :
    CursorAt rest ep temp := by
  cases rest with
  | nil => exact h
  | cons e rest => exact h

omit [DecidableEq ε] in
theorem cursorAt_next (h : IsList m .head ((walked ++ rest).map .wnode)) :
    CursorAt rest ((rest.map .wnode).headD .head) (m ((rest.map .wnode).headD .head)).next := by
  rw [List.map_append] at h
  exact (cursorOn_next h).cursorAt

omit [DecidableEq ε] in
theorem cursorAt_first (h : IsList m .head (eps.map .wnode)) :
    CursorAt eps (m .head).next (m (m .head).next).next :=
  (cursorOn_first h).cursorAt

end Walks

section Keeps

variable {contents : ρ → List (Option ε)} {w : Worker ρ ε} {eps queued : List ε} {e : ε}

omit [DecidableEq ε] in
theorem WorkerOk.goto (h : WorkerOk contents w eps queued) (pc : WorkerPlace ε) :
    WorkerOk contents { w with pc := pc } eps queued :=
  ⟨h.buffer, h.listed, h.active, h.queue, h.distinct, h.fresh, h.started, h.allowed⟩

omit [DecidableEq ε] in
theorem WorkerOk.startup_of_shutdown (h : WorkerOk contents w eps queued)
    (hstop : .shutdown e ∈ w.events) : .startup e ∈ w.events := by
  obtain ⟨before, hpre, hstart, -⟩ := h.allowed.of_mem hstop
  exact hpre.subset (List.mem_append_left _ hstart)

omit [DecidableEq ε] in
theorem WorkerOk.nodup (h : WorkerOk contents w eps queued) : eps.Nodup :=
  List.Nodup.of_map _ (List.nodup_cons.1 h.listed.nodup).2

theorem WorkerOk.start (h : WorkerOk contents w eps queued) (hnew : .startup e ∉ w.events)
    (harrived : e ∈ w.arrived) (hqueued : e ∉ queued) :
    WorkerOk contents (w.start e) (eps ++ [e]) queued where
  buffer := h.buffer
  listed := by
    have hout : WorkNode.wnode e ∉ WorkNode.head :: eps.map .wnode := by
      intro hmem
      simp only [List.mem_cons, reduceCtorEq, false_or, List.mem_map, WorkNode.wnode.injEq,
        exists_eq_right] at hmem
      exact hnew ((h.active e).1 hmem).1
    rw [List.map_append]
    exact isList_listAppend h.listed hout
  active := by
    intro ep
    have hstop : .shutdown e ∉ w.events := fun hmem => hnew (h.startup_of_shutdown hmem)
    by_cases heq : ep = e
    · subst heq
      simp [Worker.start, hstop]
    · simp [Worker.start, heq, h.active ep]
  queue := h.queue
  distinct := h.distinct
  fresh := by
    intro ep hep
    have hne : ep ≠ e := fun heq => hqueued (heq ▸ hep)
    simpa [Worker.start, hne] using h.fresh ep hep
  started := by
    intro ep hep
    simp only [Worker.start, List.mem_append, List.mem_singleton, EndpointEvent.startup.injEq] at hep
    rcases hep with hep | rfl
    · exact h.started ep hep
    · exact harrived
  allowed := h.allowed.concat hnew

theorem WorkerOk.pollEndpoint (h : WorkerOk contents w eps queued) (he : e ∈ eps)
    (hasPoll : ε → Bool) (env : PollEnv) :
    WorkerOk contents (w.pollEndpoint hasPoll e env).2 eps queued := by
  have hevents : (w.pollEndpoint hasPoll e env).2.events = w.events ++ [.poll e] := by
    unfold Worker.pollEndpoint
    split <;> rfl
  have hsame : (w.pollEndpoint hasPoll e env).2.epQueue = w.epQueue ∧
      (w.pollEndpoint hasPoll e env).2.list = w.list ∧
      (w.pollEndpoint hasPoll e env).2.arrived = w.arrived := by
    unfold Worker.pollEndpoint
    split <;> exact ⟨rfl, rfl, rfl⟩
  obtain ⟨hqueue, hlist, harrived⟩ := hsame
  refine ⟨?_, ?_, ?_, ?_, h.distinct, ?_, ?_, ?_⟩
  · rw [hqueue]
    exact h.buffer
  · rw [hlist]
    exact h.listed
  · intro ep
    rw [hevents]
    simpa using h.active ep
  · rw [hqueue]
    exact h.queue
  · intro ep hep
    rw [hevents, harrived]
    simpa using h.fresh ep hep
  · intro ep hep
    rw [hevents] at hep
    rw [harrived]
    exact h.started ep (by simpa using hep)
  · rw [hevents]
    exact h.allowed.concat ((h.active e).1 he)

theorem WorkerOk.stop {walked rest : List ε} (h : WorkerOk contents w (walked ++ e :: rest) queued) :
    WorkerOk contents (w.stop e) (walked ++ rest) queued where
  buffer := h.buffer
  listed := by
    have hlist := h.listed
    rw [List.map_append, List.map_cons] at hlist
    rw [List.map_append]
    exact isList_listDel hlist
  active := by
    intro ep
    have hactive := h.active ep
    have hnot : e ∉ walked ++ rest := by
      have hnd := h.nodup
      rw [List.nodup_middle] at hnd
      exact (List.nodup_cons.1 hnd).1
    by_cases heq : ep = e
    · subst heq
      refine iff_of_false hnot fun hmem => hmem.2 ?_
      simp [Worker.stop]
    · simp only [List.mem_append, List.mem_cons, heq, false_or] at hactive
      simp [Worker.stop, heq, ← hactive]
  queue := h.queue
  distinct := h.distinct
  fresh := by
    intro ep hep
    simpa [Worker.stop] using h.fresh ep hep
  started := by
    intro ep hep
    exact h.started ep (by simpa [Worker.stop] using hep)
  allowed := h.allowed.concat ((h.active e).1 (by simp))

omit [DecidableEq ε] in
theorem WorkerOk.setQueue {fifo : ρ} {queued' : List ε} (h : WorkerOk contents w eps queued)
    (hfifo : contents fifo = queued'.map some) (hsub : queued'.Sublist queued) :
    WorkerOk contents { w with epQueue := { w.epQueue with fifo := fifo } } eps queued' :=
  ⟨h.buffer, h.listed, h.active, hfifo, h.distinct.sublist hsub,
    fun ep hep => h.fresh ep (hsub.subset hep), h.started, h.allowed⟩

end Keeps

/-! ## One step -/

/-- The invariant of the machine. -/
def WorkerInv (contents : ρ → List (Option ε)) (w : Worker ρ ε) : Prop :=
  ∃ eps queued, WorkerOk contents w eps queued ∧ PlaceOk eps w.pc

section Steps

variable {ck : CkRing ρ ε} {contents : ρ → List (Option ε)} {room : ρ → ℕ} {w w' : Worker ρ ε}
  {eps queued : List ε}

omit [DecidableEq ε] in
theorem WorkerOk.first_poll (h : WorkerOk contents w eps queued) :
    WorkerInv contents (w.first .poll) :=
  ⟨eps, queued, h.goto _, [], eps, rfl, cursorAt_first h.listed⟩

omit [DecidableEq ε] in
theorem WorkerOk.first_teardown (h : WorkerOk contents w eps queued) :
    WorkerInv contents (w.first .teardown) :=
  ⟨eps, queued, h.goto _, cursorAt_first h.listed⟩

omit [DecidableEq ε] in
/-- The walk goes on with the look-ahead it had, whether or not the endpoint was taken off the list. -/
theorem WorkerOk.advance_poll {walked rest : List ε}
    (h : WorkerOk contents w (walked ++ rest) queued) :
    WorkerInv contents (w.advance .poll ((rest.map .wnode).headD .head)) :=
  ⟨walked ++ rest, queued, h.goto _, walked, rest, rfl, cursorAt_next h.listed⟩

omit [DecidableEq ε] in
theorem WorkerOk.advance_teardown (h : WorkerOk contents w eps queued) :
    WorkerInv contents (w.advance .teardown ((eps.map .wnode).headD .head)) := by
  have hlist : IsList w.list .head (([] ++ eps).map .wnode) := h.listed
  exact ⟨eps, queued, h.goto _, cursorAt_next hlist⟩

/-- A turn that collects. The endpoint popped when the counter runs out is dropped: it was never
    started. -/
theorem WorkerOk.collect (hck : ck.BoundedFifo contents room) (h : WorkerOk contents w eps queued)
    (i : ℕ) (ep : Option ε) : WorkerInv contents (w.collect ck i ep) := by
  obtain ⟨fifo, -, ⟨-, hnil, hpop⟩ | ⟨x, hcons, hpop⟩⟩ := workQueuePop_cases hck h.buffer ep
  · have hempty : WorkerOk contents { w with epQueue := { w.epQueue with fifo := fifo } } eps [] :=
      h.setQueue hnil (List.nil_sublist _)
    simp only [Worker.collect, hpop]
    exact hempty.first_poll
  · cases queued with
    | nil =>
        rw [h.queue] at hcons
        cases hcons
    | cons e queued =>
        rw [h.queue, List.map_cons, List.cons.injEq] at hcons
        obtain ⟨rfl, hrest⟩ := hcons
        have hpopped := h.setQueue hrest.symm (List.sublist_cons_self e queued)
        obtain ⟨hnew, harrived⟩ := h.fresh e List.mem_cons_self
        have hnot := (List.nodup_cons.1 h.distinct).1
        simp only [Worker.collect, hpop]
        split
        · exact ⟨eps ++ [e], queued, (hpopped.start hnew harrived hnot).goto _, trivial⟩
        · exact hpopped.first_poll

/-- The endpoint of a start. -/
def EndpointEvent.startupOf : EndpointEvent ε → Option ε
  | .startup ep => some ep
  | _ => none

/-- A work thread with its endpoints as a plain list. -/
def Worker.view (w : Worker ρ ε) (eps : List ε) : WorkThread ρ ε where
  epQueue := w.epQueue
  workEndpoints := eps
  started := w.events.filterMap EndpointEvent.startupOf

/-- A turn that collects is `checkNewEndpointsTurn` on the endpoints of the list. -/
theorem WorkerOk.collect_view (hck : ck.BoundedFifo contents room)
    (h : WorkerOk contents w eps queued) (i : ℕ) (ep : Option ε) :
    ∃ eps', (checkNewEndpointsTurn ck i ep (w.view eps)).2 = (w.collect ck i ep).view eps' ∧
      IsList (w.collect ck i ep).list .head (eps'.map .wnode) := by
  obtain ⟨fifo, -, ⟨-, -, hpop⟩ | ⟨x, hcons, hpop⟩⟩ := workQueuePop_cases hck h.buffer ep
  · refine ⟨eps, ?_, ?_⟩
    · simp [checkNewEndpointsTurn, Worker.collect, Worker.view, Worker.first, hpop]
    · simp only [Worker.collect, hpop]
      exact h.listed
  · cases queued with
    | nil =>
        rw [h.queue] at hcons
        cases hcons
    | cons e queued =>
        rw [h.queue, List.map_cons, List.cons.injEq] at hcons
        obtain ⟨rfl, hrest⟩ := hcons
        obtain ⟨hnew, harrived⟩ := h.fresh e List.mem_cons_self
        have hstart := (h.setQueue hrest.symm (List.sublist_cons_self e queued)).start hnew harrived
          (List.nodup_cons.1 h.distinct).1
        by_cases hi : i - 1 > 0
        · refine ⟨eps ++ [e], ?_, ?_⟩
          · simp [checkNewEndpointsTurn, Worker.collect, Worker.view, Worker.start, hpop, hi,
              listAppendEndpoint, workEndpointStartup, EndpointEvent.startupOf]
          · simp only [Worker.collect, hpop, if_pos hi]
            exact hstart.listed
        · refine ⟨eps, ?_, ?_⟩
          · simp [checkNewEndpointsTurn, Worker.collect, Worker.view, Worker.first, hpop, hi]
          · simp only [Worker.collect, hpop, if_neg hi]
            exact h.listed

/-- **One step of the worker function.** -/
theorem work_inv (hck : ck.BoundedFifo contents room) {hasPoll : ε → Bool} {env : PollEnv}
    (hI : WorkerInv contents w) (hwork : w.work ck hasPoll env = some w') : WorkerInv contents w' := by
  obtain ⟨eps, queued, h, hplace⟩ := hI
  unfold Worker.work at hwork
  cases hpc : w.pc with
  | test =>
      simp only [hpc] at hwork
      split at hwork
      · cases hwork
        exact ⟨eps, queued, h.goto _, trivial⟩
      · cases hwork
        exact h.first_teardown
  | collect i ep =>
      simp only [hpc] at hwork
      cases hwork
      exact h.collect hck i ep
  | poll ep temp =>
      simp only [hpc] at hwork
      rw [hpc] at hplace
      obtain ⟨walked, rest, rfl, hcursor⟩ := hplace
      cases rest with
      | nil =>
          have hep : ep = .head := hcursor
          subst hep
          cases hwork
          exact ⟨walked ++ [], queued, h.goto _, trivial⟩
      | cons e rest =>
          obtain ⟨rfl, rfl⟩ := hcursor
          -- past the endpoint, where it stays on the list
          have hpast : walked ++ e :: rest = (walked ++ [e]) ++ rest := by simp
          simp only at hwork
          split at hwork
          · cases hwork
            rw [hpast] at h
            exact h.advance_poll
          · cases hwork
            have hpolled := h.pollEndpoint (e := e) (by simp) hasPoll env
            split
            · exact hpolled.stop.advance_poll
            · rw [hpast] at hpolled
              exact hpolled.advance_poll
  | teardown ep temp =>
      simp only [hpc] at hwork
      rw [hpc] at hplace
      cases eps with
      | nil =>
          have hep : ep = .head := hplace
          subst hep
          cases hwork
          exact ⟨[], queued, h.goto _, rfl⟩
      | cons e eps =>
          obtain ⟨rfl, rfl⟩ := hplace
          cases hwork
          have hfirst : WorkerOk contents w ([] ++ e :: eps) queued := h
          exact hfirst.stop.advance_teardown
  | returned =>
      simp only [hpc] at hwork
      cases hwork

/-- The worker function is never at a cursor that is no endpoint. -/
theorem work_isSome (hI : WorkerInv contents w) (hpc : w.pc ≠ .returned) (hasPoll : ε → Bool)
    (env : PollEnv) : (w.work ck hasPoll env).isSome = true := by
  obtain ⟨eps, queued, -, hplace⟩ := hI
  unfold Worker.work
  cases hw : w.pc with
  | test =>
      simp only
      split <;> rfl
  | collect i ep => rfl
  | poll ep temp =>
      rw [hw] at hplace
      obtain ⟨walked, rest, -, hcursor⟩ := hplace
      cases rest with
      | nil =>
          have hep : ep = .head := hcursor
          subst hep
          rfl
      | cons e rest =>
          obtain ⟨rfl, -⟩ := hcursor
          simp only
          split <;> rfl
  | teardown ep temp =>
      rw [hw] at hplace
      cases eps with
      | nil =>
          have hep : ep = .head := hplace
          subst hep
          rfl
      | cons e eps =>
          obtain ⟨rfl, -⟩ := hplace
          rfl
  | returned => exact absurd hw hpc

theorem WorkerOk.add (hck : ck.BoundedFifo contents room) (h : WorkerOk contents w eps queued)
    {ep : ε} (hnew : ep ∉ w.arrived) {hasPoll : ε → Bool}
    (hstep : w.step ck hasPoll (.add ep) = some w') :
    w'.pc = w.pc ∧ ∃ queued', WorkerOk contents w' eps queued' := by
  rw [Worker.step, if_neg hnew] at hstep
  obtain ⟨fifo, -, ⟨-, happ, hpush⟩ | ⟨-, hsame, hpush⟩⟩ := workQueuePush_cases hck h.buffer ep
  · simp only [hpush, if_true, Option.some.injEq] at hstep
    subst hstep
    have hnot : ep ∉ queued := fun hmem => hnew (h.fresh ep hmem).2
    refine ⟨rfl, queued ++ [ep], h.buffer, h.listed, h.active, ?_, ?_, ?_, ?_, h.allowed⟩
    · change contents fifo = _
      rw [happ, h.queue, List.map_append, List.map_singleton]
    · exact List.nodup_append.2 ⟨h.distinct, List.nodup_singleton ep, fun a ha b hb heq =>
        hnot (List.mem_singleton.1 hb ▸ heq ▸ ha)⟩
    · intro e he
      rcases List.mem_append.1 he with he | he
      · exact ⟨(h.fresh e he).1, List.mem_cons_of_mem _ (h.fresh e he).2⟩
      · rw [List.mem_singleton.1 he]
        exact ⟨fun hstart => hnew (h.started ep hstart), List.mem_cons_self⟩
    · exact fun e he => List.mem_cons_of_mem _ (h.started e he)
  · have hbusy : aEBusy ≠ aOk := aresultError_ne_aOk _ _
    simp only [hpush, if_neg hbusy, Option.some.injEq] at hstep
    subst hstep
    exact ⟨rfl, queued, h.setQueue (hsame.trans h.queue) (List.Sublist.refl _)⟩

theorem step_inv (hck : ck.BoundedFifo contents room) (hasPoll : ε → Bool) (w : Worker ρ ε)
    (input : WorkerInput ε) (w' : Worker ρ ε) (hI : WorkerInv contents w)
    (hstep : w.step ck hasPoll input = some w') : WorkerInv contents w' := by
  cases input with
  | add ep =>
      obtain ⟨eps, queued, h, hplace⟩ := hI
      by_cases hold : ep ∈ w.arrived
      · rw [Worker.step, if_pos hold] at hstep
        cases hstep
      · obtain ⟨hpc, queued', h'⟩ := h.add hck hold hstep
        exact ⟨eps, queued', h', hpc ▸ hplace⟩
  | signal val =>
      obtain ⟨eps, queued, h, hplace⟩ := hI
      cases hstep
      exact ⟨eps, queued, ⟨h.buffer, h.listed, h.active, h.queue, h.distinct, h.fresh, h.started,
        h.allowed⟩, hplace⟩
  | work env => exact work_inv hck hI hstep

theorem WorkerInv.lifecycle (hI : WorkerInv contents w) : Lifecycle w := by
  obtain ⟨eps, queued, h, hplace⟩ := hI
  have honce : ∀ ep, w.events.count (.shutdown ep) ≤ 1 := fun ep =>
    h.allowed.count_le_one fun _ hallowed => hallowed.2
  refine ⟨fun ep before hpre => (h.allowed before _ hpre).1, honce,
    fun ep before hpre => (h.allowed before _ hpre).2, fun hpc => ?_⟩
  rw [hpc] at hplace
  have hnil : eps = [] := hplace
  subst hnil
  refine ⟨fun ep hstart => ?_, h.listed⟩
  have hstop : .shutdown ep ∈ w.events := by
    by_contra hnot
    exact List.not_mem_nil ((h.active ep).2 ⟨hstart, hnot⟩)
  exact Nat.le_antisymm (honce ep) (List.count_pos_iff.2 hstop)

end Steps

/-- **The endpoints live as they should** in every run of the worker function, and until it has returned
it can go on. -/
theorem lifecycle_of_run {ck : CkRing ρ ε} {contents : ρ → List (Option ε)} {room : ρ → ℕ}
    (hck : ck.BoundedFifo contents room) {q : WorkQueue ρ}
    (hq : workQueueNew ck workThreadMaxQueuedEndpoints true = (aOk, some q))
    (list : ListMem (WorkNode ε)) (nextPoll : ε → BitVec 64) (hasPoll : ε → Bool)
    (run : List (WorkerInput ε)) {w : Worker ρ ε}
    (hrun : exec (Worker.step ck hasPoll) (.new q list nextPoll) run = some w) :
    Lifecycle w ∧ (w.pc ≠ .returned → ∀ env, (w.work ck hasPoll env).isSome = true) := by
  obtain ⟨hbuffer, hempty⟩ := workQueueNew_ok hck hq
  have hinit : WorkerInv contents (Worker.new q list nextPoll) := by
    refine ⟨[], [], ⟨hbuffer, isList_listInit _ _, ?_, hempty, List.nodup_nil, ?_, ?_, logged_nil⟩,
      trivial⟩
    · simp [Worker.new]
    · simp
    · simp [Worker.new]
  have hI := exec_invariant (step_inv hck hasPoll) hinit hrun
  exact ⟨hI.lifecycle, fun hpc env => work_isSome hI hpc hasPoll env⟩

/-- Two endpoints come, the first one fails its poll, and the thread is signalled to die. -/
def twoEndpoints : List (WorkerInput ℕ) :=
  [.add 4, .add 7] ++ List.replicate 4 (.work ⟨0, 0, 0, 0⟩) ++
    [.work ⟨0, aEInval, 0, 0⟩, .work ⟨0, 0, 5, 9⟩, .signal 1] ++ List.replicate 4 (.work ⟨0, 0, 0, 0⟩)

/-- The list entries before `list_init`. -/
def noList : ListMem (WorkNode ℕ) := fun _ => ⟨.head, .head⟩

theorem lifecycle_of_run_twoEndpoints :
    ∃ w, exec (Worker.step listRing fun _ => true)
        (.new ⟨([], 31), 32, true⟩ noList fun _ => 0) twoEndpoints = some w ∧
      w.events = [.startup 4, .startup 7, .poll 4, .shutdown 4, .poll 7, .shutdown 7] ∧
      w.pc = .returned ∧ Lifecycle w := by
  have hrun : (exec (Worker.step listRing fun _ => true)
      (.new ⟨([], 31), 32, true⟩ noList fun _ => 0) twoEndpoints).map (fun w => (w.events, w.pc)) =
      some ([.startup 4, .startup 7, .poll 4, .shutdown 4, .poll 7, .shutdown 7], .returned) := by
    decide +kernel
  obtain ⟨w, hw, heq⟩ := Option.map_eq_some_iff.1 hrun
  obtain ⟨hevents, hpc⟩ := Prod.mk.injEq .. ▸ heq
  have hlife := lifecycle_of_run listRing_boundedFifo rfl noList (fun _ => 0) (fun _ => true) _ hw
  exact ⟨w, hw, hevents, hpc, hlife.1⟩

end Tsl
