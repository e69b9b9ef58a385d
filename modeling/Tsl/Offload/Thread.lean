import Tsl.WorkQueue

set_option autoImplicit false

/-! # Handing endpoints to a work thread

`tsl/offload/thread.c`: any thread hands a new endpoint to a work thread by pushing it onto the
thread's `ep_queue` (`work_thread_add_endpoint`). The work thread collects the queued endpoints
between polls: `__work_thread_check_new_endpoints` pops them, starts each one and appends it to
`work_endpoints`.

The pop and the per-pass limit share one loop condition. The machine below takes one evaluation of
that condition, with the loop body when it holds, as one step, so that endpoints may be added
between any two turns of the loop. -/

namespace Tsl

open Tsl.Lib

variable {ρ ε : Type*}

/-- `WORK_THREAD_MAX_QUEUED_ENDPOINTS`. -/
def workThreadMaxQueuedEndpoints : ℕ := 32

/-- `WORK_THREAD_ALIVE`, the value of `signal_death` until the thread is told to die. -/
def workThreadAlive : BitVec 32 := 0

/-- The fields of `struct work_thread` the hand-off uses. `started` records the endpoints
    `work_endpoint_startup` was called on, in order. -/
structure WorkThread (ρ ε : Type*) where
  epQueue : WorkQueue ρ
  workEndpoints : List ε
  started : List ε

/-- `work_thread_add_endpoint`. -/
def workThreadAddEndpoint (ck : CkRing ρ ε) (thread : WorkThread ρ ε) (endpoint : ε) :
    AResult × WorkThread ρ ε :=
  let (ret, q) := workQueuePush ck thread.epQueue (some endpoint)
  (ret, { thread with epQueue := q })

/-- `work_endpoint_startup`; its result is not looked at. -/
def workEndpointStartup (thread : WorkThread ρ ε) (ep : ε) : WorkThread ρ ε :=
  { thread with started := thread.started ++ [ep] }

/-- `list_append(&thread->work_endpoints, &ep->wnode)`. -/
def listAppendEndpoint (thread : WorkThread ρ ε) (ep : ε) : WorkThread ρ ε :=
  { thread with workEndpoints := thread.workEndpoints ++ [ep] }

/-- One turn of the loop of `__work_thread_check_new_endpoints`, with the counter `i` and the
    cursor `ep` as the turn finds them. The condition pops first and tests `ep != NULL && --i > 0`
    afterwards, so the endpoint popped when the counter runs out is dropped. `none` ends the loop. -/
def checkNewEndpointsTurn (ck : CkRing ρ ε) (i : ℕ) (ep : Option ε) (thread : WorkThread ρ ε) :
    Option (ℕ × Option ε) × WorkThread ρ ε :=
  let (_, ep, q) := workQueuePop ck thread.epQueue ep
  let thread := { thread with epQueue := q }
  match ep with
  | none => (none, thread)
  | some e =>
      if i - 1 > 0 then (some (i - 1, some e), listAppendEndpoint (workEndpointStartup thread e) e)
      else (none, thread)

/-- The loop, undisturbed: `fuel` bounds its turns. -/
def checkNewEndpointsLoop (ck : CkRing ρ ε) :
    ℕ → ℕ → Option ε → WorkThread ρ ε → Option (WorkThread ρ ε)
  | 0, _, _, _ => none
  | fuel + 1, i, ep, thread =>
      match checkNewEndpointsTurn ck i ep thread with
      | (none, thread) => some thread
      | (some (i, ep), thread) => checkNewEndpointsLoop ck fuel i ep thread

/-- `__work_thread_check_new_endpoints`; sixteen turns are always enough. -/
def workThreadCheckNewEndpoints (ck : CkRing ρ ε) (thread : WorkThread ρ ε) :
    Option (WorkThread ρ ε) :=
  checkNewEndpointsLoop ck (workThreadMaxQueuedEndpoints / 2) (workThreadMaxQueuedEndpoints / 2)
    none thread

/-! ## The machine -/

/-- Where the work thread is: outside the loop, or before a turn with counter `i`. -/
inductive PassState (ε : Type*)
  | idle
  | turning (i : ℕ) (ep : Option ε)

/-- A work thread, its place in the loop, and the endpoints whose hand-off answered `A_OK`. -/
structure HandOff (ρ ε : Type*) where
  thread : WorkThread ρ ε
  pass : PassState ε
  added : List ε

/-- What can happen: a hand-off by any thread, the start of a pass, a turn of its loop. -/
inductive HandOffStep (ε : Type*)
  | add (ep : ε)
  | begin
  | turn

/-- One step of the machine. -/
def handOffStep (ck : CkRing ρ ε) (s : HandOff ρ ε) : HandOffStep ε → Option (HandOff ρ ε)
  | .add ep =>
      let (ret, thread) := workThreadAddEndpoint ck s.thread ep
      some { s with thread := thread, added := if ret = aOk then s.added ++ [ep] else s.added }
  | .begin =>
      match s.pass with
      | .idle => some { s with pass := .turning (workThreadMaxQueuedEndpoints / 2) none }
      | .turning _ _ => none
  | .turn =>
      match s.pass with
      | .idle => none
      | .turning i ep =>
          match checkNewEndpointsTurn ck i ep s.thread with
          | (none, thread) => some { s with thread := thread, pass := .idle }
          | (some (i, ep), thread) => some { s with thread := thread, pass := .turning i ep }

/-- A new work thread over the queue `q`, before any endpoint is added. -/
def HandOff.initial (q : WorkQueue ρ) : HandOff ρ ε :=
  { thread := { epQueue := q, workEndpoints := [], started := [] }, pass := .idle, added := [] }

/-- Nothing is lost: the endpoints added are those started followed by those still queued, each in
    its place, and the endpoints started are those listed. -/
structure HandedOff (contents : ρ → List (Option ε)) (s : HandOff ρ ε) : Prop where
  added : s.added.map some = s.thread.started.map some ++ contents s.thread.epQueue.fifo
  listed : s.thread.workEndpoints = s.thread.started

/-- A turn that runs out of its counter finds the queue empty. -/
def LastPopEmpty (contents : ρ → List (Option ε)) (s : HandOff ρ ε) : HandOffStep ε → Prop
  | .turn => ∀ ep, s.pass = .turning 1 ep → contents s.thread.epQueue.fifo = []
  | _ => True

/-! ## One turn -/

section Turns

variable {ck : CkRing ρ ε} {contents : ρ → List (Option ε)} {room : ρ → ℕ}

/-- On an empty queue the turn ends the loop and changes nothing that is observed. -/
theorem checkNewEndpointsTurn_empty (h : ck.BoundedFifo contents room) {thread : WorkThread ρ ε}
    (hb : thread.epQueue.buffer = true) (hnil : contents thread.epQueue.fifo = []) (i : ℕ)
    (ep : Option ε) :
    ∃ fifo, contents fifo = [] ∧
      checkNewEndpointsTurn ck i ep thread =
        (none, { thread with epQueue := { thread.epQueue with fifo := fifo } }) := by
  obtain ⟨fifo, -, ⟨-, hnil', hpop⟩ | ⟨x, hcons, -⟩⟩ := workQueuePop_cases h hb ep
  · exact ⟨fifo, hnil', by simp [checkNewEndpointsTurn, hpop]⟩
  · rw [hnil] at hcons
    simp at hcons

/-- With an endpoint queued, the turn pops it; it starts and lists it unless its counter is at one,
    and then drops it and ends the loop. -/
theorem checkNewEndpointsTurn_cons (h : ck.BoundedFifo contents room) {thread : WorkThread ρ ε}
    (hb : thread.epQueue.buffer = true) {e : ε} {rest : List (Option ε)}
    (hcons : contents thread.epQueue.fifo = some e :: rest) (i : ℕ) (ep : Option ε) :
    ∃ fifo, contents fifo = rest ∧
      checkNewEndpointsTurn ck i ep thread =
        if 1 < i then
          (some (i - 1, some e),
            { epQueue := { thread.epQueue with fifo := fifo }
              workEndpoints := thread.workEndpoints ++ [e]
              started := thread.started ++ [e] })
        else (none, { thread with epQueue := { thread.epQueue with fifo := fifo } }) := by
  obtain ⟨fifo, -, ⟨hnil, -, -⟩ | ⟨x, hcons', hpop⟩⟩ := workQueuePop_cases h hb ep
  · rw [hcons] at hnil
    simp at hnil
  · rw [hcons, List.cons.injEq] at hcons'
    obtain ⟨rfl, hrest⟩ := hcons'
    refine ⟨fifo, hrest.symm, ?_⟩
    have hpos : i - 1 > 0 ↔ 1 < i := by omega
    simp only [checkNewEndpointsTurn, hpop, hpos, listAppendEndpoint, workEndpointStartup]

/-- A whole pass over a queue that holds `es`: the first fifteen endpoints are started and listed,
    the sixteenth is dropped, the others stay queued. -/
theorem workThreadCheckNewEndpoints_spec (h : ck.BoundedFifo contents room)
    {thread : WorkThread ρ ε} (hb : thread.epQueue.buffer = true) {es : List ε}
    (hes : contents thread.epQueue.fifo = es.map some) :
    ∃ thread', workThreadCheckNewEndpoints ck thread = some thread' ∧
      thread'.started = thread.started ++ es.take 15 ∧
      thread'.workEndpoints = thread.workEndpoints ++ es.take 15 ∧
      contents thread'.epQueue.fifo = (es.drop 16).map some := by
  -- The counter is the fuel: a turn that goes on lowers both by one.
  have hloop : ∀ (i : ℕ) (ep : Option ε) (thread : WorkThread ρ ε) (es : List ε),
      thread.epQueue.buffer = true → contents thread.epQueue.fifo = es.map some →
      ∃ thread', checkNewEndpointsLoop ck (i + 1) (i + 1) ep thread = some thread' ∧
        thread'.started = thread.started ++ es.take i ∧
        thread'.workEndpoints = thread.workEndpoints ++ es.take i ∧
        contents thread'.epQueue.fifo = (es.drop (i + 1)).map some := by
    intro i
    induction i with
    | zero =>
        intro ep thread es hb hes
        cases es with
        | nil =>
            obtain ⟨fifo, hnil, hturn⟩ := checkNewEndpointsTurn_empty h hb hes 1 ep
            refine ⟨_, by rw [checkNewEndpointsLoop, hturn], by simp, by simp, by simpa using hnil⟩
        | cons e es =>
            obtain ⟨fifo, hrest, hturn⟩ := checkNewEndpointsTurn_cons h hb hes 1 ep
            refine ⟨_, by rw [checkNewEndpointsLoop, hturn]; rfl, by simp, by simp, by simpa using hrest⟩
    | succ i ih =>
        intro ep thread es hb hes
        cases es with
        | nil =>
            obtain ⟨fifo, hnil, hturn⟩ := checkNewEndpointsTurn_empty h hb hes (i + 1 + 1) ep
            refine ⟨_, by rw [checkNewEndpointsLoop, hturn], by simp, by simp, by simpa using hnil⟩
        | cons e es =>
            obtain ⟨fifo, hrest, hturn⟩ := checkNewEndpointsTurn_cons h hb hes (i + 1 + 1) ep
            rw [if_pos (by omega)] at hturn
            obtain ⟨thread', hrun, hstart, hlist, hleft⟩ := ih (some e)
              { epQueue := { thread.epQueue with fifo := fifo }
                workEndpoints := thread.workEndpoints ++ [e]
                started := thread.started ++ [e] } es hb hrest
            refine ⟨thread', ?_, by simpa using hstart, by simpa using hlist, by simpa using hleft⟩
            rw [checkNewEndpointsLoop, hturn]
            exact hrun
  exact hloop 15 none thread es hb hes

/-- The function is the machine's pass with nothing added between its turns. -/
theorem workThreadCheckNewEndpoints_exec {thread thread' : WorkThread ρ ε} (added : List ε)
    (hpass : workThreadCheckNewEndpoints ck thread = some thread') :
    ∃ n, exec (handOffStep ck) { thread := thread, pass := .idle, added := added }
      (.begin :: List.replicate n .turn) =
        some { thread := thread', pass := .idle, added := added } := by
  have hloop : ∀ (fuel i : ℕ) (ep : Option ε) (thread : WorkThread ρ ε),
      checkNewEndpointsLoop ck fuel i ep thread = some thread' →
      ∃ n, exec (handOffStep ck) { thread := thread, pass := .turning i ep, added := added }
        (List.replicate n .turn) =
          some { thread := thread', pass := .idle, added := added } := by
    intro fuel
    induction fuel with
    | zero => intro i ep thread hrun; simp [checkNewEndpointsLoop] at hrun
    | succ fuel ih =>
        intro i ep thread hrun
        rw [checkNewEndpointsLoop] at hrun
        split at hrun
        · rename_i t hturn
          simp only [Option.some.injEq] at hrun
          subst hrun
          exact ⟨1, by simp [exec, handOffStep, hturn]⟩
        · rename_i i' ep' t hturn
          obtain ⟨n, hn⟩ := ih i' ep' t hrun
          exact ⟨n + 1, by simpa [List.replicate_succ, exec, handOffStep, hturn] using hn⟩
  obtain ⟨n, hn⟩ := hloop _ _ none thread hpass
  exact ⟨n, by simpa [exec, handOffStep] using hn⟩

end Turns

/-! ## Every run -/

section Runs

variable {ck : CkRing ρ ε} {contents : ρ → List (Option ε)} {room : ρ → ℕ}

/-- What every step keeps: the queue has its buffer and holds no `NULL`, and the counter of a pass
    under way is not yet zero. -/
structure HandOffOk (contents : ρ → List (Option ε)) (s : HandOff ρ ε) : Prop where
  buffer : s.thread.epQueue.buffer = true
  queued : ∃ es : List ε, contents s.thread.epQueue.fifo = es.map some
  counter : ∀ i ep, s.pass = .turning i ep → 0 < i

theorem handOffStep_ok (h : ck.BoundedFifo contents room) (s : HandOff ρ ε) (l : HandOffStep ε)
    (s' : HandOff ρ ε) (hs : HandOffOk contents s) (hstep : handOffStep ck s l = some s') :
    HandOffOk contents s' := by
  obtain ⟨es, hes⟩ := hs.queued
  cases l with
  | add ep =>
      obtain ⟨fifo, -, ⟨-, happ, hpush⟩ | ⟨-, hsame, hpush⟩⟩ := workQueuePush_cases h hs.buffer ep
      all_goals
        simp only [handOffStep, workThreadAddEndpoint, hpush, Option.some.injEq] at hstep
        subst hstep
      · exact ⟨hs.buffer, ⟨es ++ [ep], by simp [happ, hes]⟩, hs.counter⟩
      · exact ⟨hs.buffer, ⟨es, by rw [hsame, hes]⟩, hs.counter⟩
  | begin =>
      cases hp : s.pass with
      | turning i ep => simp [handOffStep, hp] at hstep
      | idle =>
          simp only [handOffStep, hp, Option.some.injEq] at hstep
          subst hstep
          refine ⟨hs.buffer, ⟨es, hes⟩, ?_⟩
          rintro i ep ⟨⟩
          decide
  | turn =>
      cases hp : s.pass with
      | idle => simp [handOffStep, hp] at hstep
      | turning i ep =>
          cases es with
          | nil =>
              obtain ⟨fifo, hnil, hturn⟩ := checkNewEndpointsTurn_empty h hs.buffer hes i ep
              simp only [handOffStep, hp, hturn, Option.some.injEq] at hstep
              subst hstep
              exact ⟨hs.buffer, ⟨[], by simpa using hnil⟩, by simp⟩
          | cons e es =>
              obtain ⟨fifo, hrest, hturn⟩ := checkNewEndpointsTurn_cons h hs.buffer hes i ep
              by_cases hi : 1 < i
              · simp only [handOffStep, hp, hturn, if_pos hi, Option.some.injEq] at hstep
                subst hstep
                refine ⟨hs.buffer, ⟨es, hrest⟩, ?_⟩
                rintro i' ep' heq
                simp only [PassState.turning.injEq] at heq
                omega
              · simp only [handOffStep, hp, hturn, if_neg hi, Option.some.injEq] at hstep
                subst hstep
                exact ⟨hs.buffer, ⟨es, hrest⟩, by simp⟩

/-- From a state where nothing is lost, a step loses nothing exactly when it is not the turn that
    pops an endpoint with its counter at one. -/
theorem handOffStep_handedOff_iff (h : ck.BoundedFifo contents room) (s : HandOff ρ ε)
    (l : HandOffStep ε) (s' : HandOff ρ ε) (hs : HandOffOk contents s) (hP : HandedOff contents s)
    (hstep : handOffStep ck s l = some s') :
    HandedOff contents s' ↔ LastPopEmpty contents s l := by
  obtain ⟨es, hes⟩ := hs.queued
  have hadded := hP.added
  cases l with
  | add ep =>
      obtain ⟨fifo, -, ⟨-, happ, hpush⟩ | ⟨-, hsame, hpush⟩⟩ := workQueuePush_cases h hs.buffer ep
      all_goals
        simp only [handOffStep, workThreadAddEndpoint, hpush, Option.some.injEq] at hstep
        subst hstep
        simp only [LastPopEmpty, iff_true]
      · exact ⟨by simp [happ, hadded], hP.listed⟩
      · have hne : aEBusy ≠ aOk := aresultError_ne_aOk _ _
        exact ⟨by simp [hsame, hne, hadded], hP.listed⟩
  | begin =>
      cases hp : s.pass with
      | turning i ep => simp [handOffStep, hp] at hstep
      | idle =>
          simp only [handOffStep, hp, Option.some.injEq] at hstep
          subst hstep
          simp only [LastPopEmpty, iff_true]
          exact ⟨hadded, hP.listed⟩
  | turn =>
      cases hp : s.pass with
      | idle => simp [handOffStep, hp] at hstep
      | turning i ep =>
          have hi0 := hs.counter i ep hp
          cases es with
          | nil =>
              obtain ⟨fifo, hnil, hturn⟩ := checkNewEndpointsTurn_empty h hs.buffer hes i ep
              simp only [handOffStep, hp, hturn, Option.some.injEq] at hstep
              subst hstep
              rw [List.map_nil] at hes
              refine ⟨fun _ _ _ => hes, fun _ => ⟨?_, hP.listed⟩⟩
              rw [hadded, hes, hnil]
          | cons e es =>
              obtain ⟨fifo, hrest, hturn⟩ := checkNewEndpointsTurn_cons h hs.buffer hes i ep
              by_cases hi : 1 < i
              · simp only [handOffStep, hp, hturn, if_pos hi, Option.some.injEq] at hstep
                subst hstep
                refine iff_of_true ⟨?_, by simp [hP.listed]⟩ ?_
                · simp [hadded, hes, hrest]
                · intro ep' heq
                  rw [hp, PassState.turning.injEq] at heq
                  omega
              · have hone : i = 1 := by omega
                simp only [handOffStep, hp, hturn, if_neg hi, Option.some.injEq] at hstep
                subst hstep
                refine iff_of_false (fun hP' => ?_) (fun hG => ?_)
                · -- The dropped endpoint is missing on the right.
                  have := hP'.added
                  simp only [hadded, hes, hrest] at this
                  simpa using congrArg List.length this
                · have := hG ep (by rw [hp, hone])
                  simp [hes] at this

/-- **Nothing is lost in a run exactly as long as no turn pops an endpoint with its counter at
    one**, whatever is added between the turns. -/
theorem handedOff_throughout_iff (h : ck.BoundedFifo contents room) {q : WorkQueue ρ}
    (hq : workQueueNew ck workThreadMaxQueuedEndpoints true = (aOk, some q))
    (run : List (HandOffStep ε)) :
    Throughout (handOffStep ck) (HandedOff contents) (HandOff.initial q) run ↔
      Meets (handOffStep ck) (LastPopEmpty contents) (HandOff.initial q) run := by
  obtain ⟨hb, hnil⟩ := workQueueNew_ok h hq
  refine throughout_iff_meets (I := HandOffOk contents) (handOffStep_ok h)
    (handOffStep_handedOff_iff h) ?_ run _ ?_ ?_
  · intro s l hs _ hnone
    cases l with
    | add ep => trivial
    | begin => trivial
    | turn =>
        intro ep hp
        simp only [handOffStep, hp] at hnone
        split at hnone <;> simp at hnone
  · exact ⟨hb, ⟨[], hnil⟩, by simp [HandOff.initial]⟩
  · exact ⟨by simp [HandOff.initial, hnil], rfl⟩

end Runs

/-! ## Sixteen endpoints queued between two passes -/

/-- Sixteen endpoints are added, then one pass runs to its end. -/
def sixteenQueued : List (HandOffStep ℕ) :=
  (List.range 16).map .add ++ .begin :: List.replicate 16 .turn

/-- The pass pops all sixteen and starts fifteen: the sixteenth is in no queue and in no list. -/
theorem sixteenQueued_loses_one :
    ∃ s, exec (handOffStep listRing) (HandOff.initial ⟨([], 31), 32, true⟩) sixteenQueued = some s ∧
      s.added = List.range 16 ∧ s.thread.started = List.range 15 ∧ s.thread.epQueue.fifo.1 = [] ∧
      ¬ HandedOff Prod.fst s := by
  refine ⟨_, rfl, rfl, rfl, rfl, fun hP => ?_⟩
  exact absurd (congrArg List.length hP.added) (by decide)

theorem handedOff_throughout_one :
    Throughout (handOffStep listRing) (HandedOff Prod.fst)
      (HandOff.initial (ε := ℕ) ⟨([], 31), 32, true⟩) [.add 4, .begin, .turn, .turn] := by
  refine (handedOff_throughout_iff listRing_boundedFifo rfl _).2 ⟨trivial, trivial, ?_, ?_, trivial⟩
  · rintro _ ⟨⟩
  · rintro _ ⟨⟩

end Tsl
