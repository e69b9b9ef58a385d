import Tsl.Offload.Worker

set_option autoImplicit false

/-! # The passes of a work thread

`__work_thread_worker_func` makes one pass over its endpoints after the other. Here it is without its
pointers: the cursor of a walk stands for the endpoints it is past and those it has before it
(`Pass.At`), and a step makes of a list of endpoints another one (`PassStep`). The worker function does
what this machine does (`work_pass`), so that what is said about passes can be said about lists. -/

namespace Tsl

open Lib

variable {ρ ε : Type*}

/-- A place in a pass: at the test of the loop, at a turn that collects, in the walk that polls, with
    the endpoints it is past and those before it, in the walk that shuts down, or at the end. -/
inductive Pass (ε : Type*)
  | test (eps : List ε)
  | collect (i : ℕ) (eps : List ε)
  | poll (walked rest : List ε)
  | teardown (eps : List ε)
  | returned

/-- The endpoints on the list. -/
def Pass.endpoints : Pass ε → List ε
  | .test eps => eps
  | .collect _ eps => eps
  | .poll walked rest => walked ++ rest
  | .teardown eps => eps
  | .returned => []

/-- The place as it is in memory. -/
def Pass.At : Pass ε → WorkerPlace ε → Prop
  | .test _, .test => True
  | .collect i _, .collect i' _ => i = i'
  | .poll _ rest, .poll ep temp => CursorAt rest ep temp
  | .teardown eps, .teardown ep temp => CursorAt eps ep temp
  | .returned, .returned => True
  | _, _ => False

/-- A step, where `alive` is what the test of the loop finds. An endpoint that is polled stays on the
    list or is taken off it. -/
inductive PassStep (alive : Prop) : Pass ε → Pass ε → Prop
  | begin {eps} : alive → PassStep alive (.test eps) (.collect (workThreadMaxQueuedEndpoints / 2) eps)
  | stop {eps} : ¬ alive → PassStep alive (.test eps) (.teardown eps)
  | start {i eps} (e : ε) : i - 1 > 0 → PassStep alive (.collect i eps) (.collect (i - 1) (eps ++ [e]))
  | walk {i eps} : PassStep alive (.collect i eps) (.poll [] eps)
  | keep {walked e rest} : PassStep alive (.poll walked (e :: rest)) (.poll (walked ++ [e]) rest)
  | drop {walked e rest} : PassStep alive (.poll walked (e :: rest)) (.poll walked rest)
  | again {walked} : PassStep alive (.poll walked []) (.test walked)
  | teardown {e rest} : PassStep alive (.teardown (e :: rest)) (.teardown rest)
  | done : PassStep alive (.teardown []) .returned

section Steps

variable [DecidableEq ε] {ck : CkRing ρ ε} {contents : ρ → List (Option ε)} {room : ρ → ℕ}
  {hasPoll : ε → Bool} {w w' : Worker ρ ε} {queued : List ε} {p : Pass ε}

theorem workerOk_new (hck : ck.BoundedFifo contents room) {q : WorkQueue ρ}
    (hq : workQueueNew ck workThreadMaxQueuedEndpoints true = (aOk, some q))
    (list : ListMem (WorkNode ε)) (nextPoll : ε → BitVec 64) :
    WorkerOk contents (.new q list nextPoll) [] [] := by
  obtain ⟨hbuffer, hempty⟩ := workQueueNew_ok hck hq
  refine ⟨hbuffer, isList_listInit _ _, ?_, hempty, List.nodup_nil, ?_, ?_, logged_nil⟩
  · simp [Worker.new]
  · simp
  · simp [Worker.new]

/-- What a step of the worker function leads to. -/
def PassedTo (contents : ρ → List (Option ε)) (alive : Prop) (p : Pass ε) (w' : Worker ρ ε) : Prop :=
  ∃ p' queued', PassStep alive p p' ∧ WorkerOk contents w' p'.endpoints queued' ∧ p'.At w'.pc

theorem collect_pass (hck : ck.BoundedFifo contents room) {eps : List ε}
    (h : WorkerOk contents w eps queued) (alive : Prop) (i : ℕ) (ep : Option ε) :
    PassedTo contents alive (.collect i eps) (w.collect ck i ep) := by
  have hwalk : ∀ {w : Worker ρ ε} {queued}, WorkerOk contents w eps queued →
      PassedTo contents alive (.collect i eps) (w.first .poll) := fun h =>
    ⟨.poll [] eps, _, .walk, h.goto _, cursorAt_first h.listed⟩
  obtain ⟨fifo, -, ⟨-, hnil, hpop⟩ | ⟨x, hcons, hpop⟩⟩ := workQueuePop_cases hck h.buffer ep
  · simp only [Worker.collect, hpop]
    have hempty : WorkerOk contents { w with epQueue := { w.epQueue with fifo := fifo } } eps [] :=
      h.setQueue hnil (List.nil_sublist _)
    exact hwalk hempty
  · cases queued with
    | nil =>
        rw [h.queue] at hcons
        cases hcons
    | cons e queued =>
        rw [h.queue, List.map_cons, List.cons.injEq] at hcons
        obtain ⟨rfl, hrest⟩ := hcons
        have hpopped := h.setQueue hrest.symm (List.sublist_cons_self e queued)
        obtain ⟨hnew, harrived⟩ := h.fresh e List.mem_cons_self
        have hnot := (List.nodup_cons.1 h.distinct).1
        simp only [Worker.collect, hpop]
        split
        · next hmore =>
            exact ⟨.collect (i - 1) (eps ++ [e]), queued, .start e hmore,
              (hpopped.start hnew harrived hnot).goto _, rfl⟩
        · exact hwalk hpopped

theorem test_pass {eps : List ε} {env : PollEnv} (h : WorkerOk contents w eps queued)
    (hpc : w.pc = .test) (hwork : w.work ck hasPoll env = some w') :
    PassedTo contents (w.signalDeath = workThreadAlive) (.test eps) w' := by
  simp only [Worker.work, hpc] at hwork
  split at hwork
  · next halive =>
    cases hwork
    exact ⟨_, queued, .begin halive, h.goto _, rfl⟩
  · next hdead =>
    cases hwork
    exact ⟨.teardown eps, queued, .stop hdead, h.goto _, cursorAt_first h.listed⟩

theorem poll_endpoint_pass {walked rest : List ε} {e : ε} {env : PollEnv} (alive : Prop)
    (h : WorkerOk contents w (walked ++ e :: rest) queued)
    (hpc : w.pc = .poll (.wnode e) ((rest.map .wnode).headD .head))
    (hwork : w.work ck hasPoll env = some w') :
    PassedTo contents alive (.poll walked (e :: rest)) w' := by
  have hpast : walked ++ e :: rest = (walked ++ [e]) ++ rest := by simp
  -- past the endpoint, where it stays on the list
  have hkeep : ∀ {u : Worker ρ ε}, WorkerOk contents u (walked ++ e :: rest) queued →
      PassedTo contents alive (.poll walked (e :: rest))
        (u.advance .poll ((rest.map .wnode).headD .head)) := by
    intro u h
    rw [hpast] at h
    exact ⟨.poll (walked ++ [e]) rest, queued, .keep, h.goto _, cursorAt_next h.listed⟩
  simp only [Worker.work, hpc] at hwork
  split at hwork
  · cases hwork
    exact hkeep h
  · cases hwork
    have hpolled := h.pollEndpoint (e := e) (by simp) hasPoll env
    split
    · have hstop := hpolled.stop
      exact ⟨.poll walked rest, queued, .drop, hstop.goto _, cursorAt_next hstop.listed⟩
    · exact hkeep hpolled

theorem poll_pass {walked rest : List ε} {ep temp : WorkNode ε} {env : PollEnv} (alive : Prop)
    (h : WorkerOk contents w (walked ++ rest) queued) (hpc : w.pc = .poll ep temp)
    (hat : CursorAt rest ep temp) (hwork : w.work ck hasPoll env = some w') :
    PassedTo contents alive (.poll walked rest) w' := by
  cases rest with
  | nil =>
      obtain rfl : ep = .head := hat
      simp only [Worker.work, hpc, Option.some.injEq] at hwork
      subst hwork
      rw [List.append_nil] at h
      exact ⟨.test walked, queued, .again, h.goto _, trivial⟩
  | cons e rest =>
      obtain ⟨rfl, rfl⟩ := hat
      exact poll_endpoint_pass alive h hpc hwork

theorem teardown_pass {eps : List ε} {ep temp : WorkNode ε} {env : PollEnv} (alive : Prop)
    (h : WorkerOk contents w eps queued) (hpc : w.pc = .teardown ep temp) (hat : CursorAt eps ep temp)
    (hwork : w.work ck hasPoll env = some w') : PassedTo contents alive (.teardown eps) w' := by
  cases eps with
  | nil =>
      obtain rfl : ep = .head := hat
      simp only [Worker.work, hpc, Option.some.injEq] at hwork
      subst hwork
      exact ⟨.returned, queued, .done, h.goto _, trivial⟩
  | cons e rest =>
      obtain ⟨rfl, rfl⟩ := hat
      simp only [Worker.work, hpc, Option.some.injEq] at hwork
      subst hwork
      have hfirst : WorkerOk contents w ([] ++ e :: rest) queued := h
      have hstop := hfirst.stop
      have hlist : IsList (w.stop e).list .head (([] ++ rest).map .wnode) := hstop.listed
      exact ⟨.teardown rest, queued, .teardown, hstop.goto _, cursorAt_next hlist⟩

/-- **A step of the worker function** is one of its pass. -/
theorem work_pass (hck : ck.BoundedFifo contents room) {env : PollEnv}
    (h : WorkerOk contents w p.endpoints queued) (hat : p.At w.pc)
    (hwork : w.work ck hasPoll env = some w') :
    PassedTo contents (w.signalDeath = workThreadAlive) p w' := by
  cases hpc : w.pc <;> rw [hpc] at hat <;> cases p <;> try exact hat.elim
  case test => exact test_pass h hpc hwork
  case collect i ep i' eps =>
      obtain rfl : i' = i := hat
      simp only [Worker.work, hpc, Option.some.injEq] at hwork
      exact hwork ▸ collect_pass hck h _ i' ep
  case poll ep temp walked rest => exact poll_pass _ h hpc hat hwork
  case teardown ep temp eps => exact teardown_pass _ h hpc hat hwork
  case returned =>
      simp only [Worker.work, hpc] at hwork
      cases hwork

end Steps

end Tsl
