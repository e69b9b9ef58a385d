import Mathlib.Logic.Function.Basic
import Tsl.Lib.Machine
import Tsl.Result

set_option autoImplicit false

/-! # Worker threads

`tsl/worker_thread.c`: a thread around a work function, with a state field that the thread itself and
those who ask it to stop write. The thread makes one compare-and-swap when it starts and one store when
it ends; `worker_thread_request_shutdown` loads the state and, if the thread has not been stopped yet,
stores a request.

The machine below starts where `worker_thread_new_mask` has kicked the thread off, and runs any number
of threads that request a shutdown. One step is one access to the state, or the work function from its
call to its return. A request returns with its last access to the state.

A stop sticks (`stopSticks_of_run`). The transitions listed for `enum worker_thread_state` are kept
exactly by the runs in which no request stores over the final state (`followsTable_throughout_iff`). -/

namespace Tsl

open Lib

/-- `enum worker_thread_state`. -/
inductive WorkerThreadState where
  | idle
  | startingUp
  | running
  | shutdownRequested
  | shutdown
deriving DecidableEq, Repr

/-- The transitions that are listed for a state. -/
def WorkerThreadState.transitions : WorkerThreadState → List WorkerThreadState
  | .idle => [.startingUp, .running, .shutdownRequested, .shutdown]
  | .startingUp => [.running, .shutdownRequested, .shutdown]
  | .running => [.shutdownRequested, .shutdown]
  | .shutdownRequested => [.shutdown]
  | .shutdown => []

/-- The compare-and-swap of `ck_pr.h` that the thread uses. It is given what the target holds, and
    answers its `bool` and what the target holds then. -/
structure CkPrInt where
  casInt : WorkerThreadState → WorkerThreadState → WorkerThreadState → Bool × WorkerThreadState

/-- What it is documented to do. -/
structure CkPrInt.Documented (ck : CkPrInt) : Prop where
  swaps : ∀ target set, ck.casInt target target set = (true, set)
  refuses : ∀ target compare set, target ≠ compare → ck.casInt target compare set = (false, target)

/-- `worker_thread_is_running`. -/
def workerThreadIsRunning (st : WorkerThreadState) : Bool := st = .running

/-! ## The machine -/

/-- Where the worker is in `__worker_thread_function`. -/
inductive WorkerPc where
  /-- `ck_pr_cas_int(&wt->st, STARTING_UP, RUNNING)`. -/
  | start
  /-- In `wt->work_func(params)`. -/
  | work
  /-- `ck_pr_store_int(&wt->st, SHUTDOWN)`, with `ret` as it is then. -/
  | exit (ret : AResult)
  | done (ret : AResult)
deriving DecidableEq, Repr

/-- Where a thread is in `worker_thread_request_shutdown`. -/
inductive RequestPc where
  | idle
  /-- `state = ck_pr_load_int(&thr->st)`. -/
  | load
  /-- `ck_pr_store_int(&thr->st, SHUTDOWN_REQUESTED)`. -/
  | store
deriving DecidableEq, Repr

/-- A worker and those who ask it to stop. `changes` has the changes of the state, latest first;
    `returned` has an entry for each request that has returned, saying where the worker was then;
    `called` is whether `work_func` has been called. -/
structure WorkerRun (τ : Type*) where
  st : WorkerThreadState
  worker : WorkerPc
  pc : τ → RequestPc
  changes : List (WorkerThreadState × WorkerThreadState)
  returned : List WorkerPc
  called : Bool

/-- What can happen: the worker makes its next step, where `work_func` returns `ret` if it is that; a
    thread calls `worker_thread_request_shutdown`, or makes the next step in it. -/
inductive WorkerStep (τ : Type*) where
  | worker (ret : AResult)
  | request (t : τ)
  | run (t : τ)

namespace WorkerRun

variable {τ : Type*}

/-- A worker that was kicked off. -/
def new : WorkerRun τ where
  st := .startingUp
  worker := .start
  pc := fun _ => .idle
  changes := []
  returned := []
  called := false

/-- The state field is written. -/
def write (s : WorkerRun τ) (st : WorkerThreadState) : WorkerRun τ :=
  { s with st := st, changes := if st = s.st then s.changes else (s.st, st) :: s.changes }

/-- The next step of `__worker_thread_function`. -/
def work (ck : CkPrInt) (s : WorkerRun τ) (ret : AResult) : Option (WorkerRun τ) :=
  match s.worker with
  | .start =>
      let (swapped, st) := ck.casInt s.st .startingUp .running
      if swapped = false then some { s.write st with worker := .exit aOk }
      else some { s.write st with worker := .work, called := true }
  | .work => some { s with worker := .exit ret }
  | .exit ret => some { s.write .shutdown with worker := .done ret }
  | .done _ => none

variable [DecidableEq τ]

def goto (s : WorkerRun τ) (t : τ) (pc : RequestPc) : WorkerRun τ :=
  { s with pc := Function.update s.pc t pc }

/-- A request returns `A_OK`. -/
def ret (s : WorkerRun τ) (t : τ) : WorkerRun τ :=
  { s with pc := Function.update s.pc t .idle, returned := s.worker :: s.returned }

/-- The next step of a thread in `worker_thread_request_shutdown`. -/
def requestShutdown (s : WorkerRun τ) (t : τ) : Option (WorkerRun τ) :=
  match s.pc t with
  | .idle => none
  | .load => some (if s.st = .running ∨ s.st = .startingUp then s.goto t .store else s.ret t)
  | .store => some ((s.write .shutdownRequested).ret t)

/-- One step of the machine. -/
def step (ck : CkPrInt) (s : WorkerRun τ) : WorkerStep τ → Option (WorkerRun τ)
  | .worker ret => s.work ck ret
  | .request t => if s.pc t = .idle then some (s.goto t .load) else none
  | .run t => s.requestShutdown t

end WorkerRun

/-! ## What a step does -/

variable {τ : Type*} [DecidableEq τ]

/-- What each step does, one constructor for each way through the code. -/
inductive WorkerMove (s : WorkerRun τ) : WorkerStep τ → WorkerRun τ → Prop
  | start {r : AResult} : s.worker = .start → s.st = .startingUp →
      WorkerMove s (.worker r) { s.write .running with worker := .work, called := true }
  | refuse {r : AResult} : s.worker = .start → s.st ≠ .startingUp →
      WorkerMove s (.worker r) { s with worker := .exit aOk }
  | finish {r : AResult} : s.worker = .work → WorkerMove s (.worker r) { s with worker := .exit r }
  | exit {r ret : AResult} : s.worker = .exit ret →
      WorkerMove s (.worker r) { s.write .shutdown with worker := .done ret }
  | request {t : τ} : s.pc t = .idle → WorkerMove s (.request t) (s.goto t .load)
  | load {t : τ} : s.pc t = .load → s.st = .running ∨ s.st = .startingUp →
      WorkerMove s (.run t) (s.goto t .store)
  | late {t : τ} : s.pc t = .load → ¬ (s.st = .running ∨ s.st = .startingUp) →
      WorkerMove s (.run t) (s.ret t)
  | store {t : τ} : s.pc t = .store →
      WorkerMove s (.run t) ((s.write .shutdownRequested).ret t)

section Moves

variable {ck : CkPrInt} {s s' : WorkerRun τ} {i : WorkerStep τ}

omit [DecidableEq τ] in
theorem write_same (s : WorkerRun τ) : s.write s.st = s := by
  unfold WorkerRun.write
  rw [if_pos rfl]

omit [DecidableEq τ] in
theorem write_changes {st : WorkerThreadState} (hne : st ≠ s.st) :
    (s.write st).changes = (s.st, st) :: s.changes := if_neg hne

/-- **Every step** is one of the moves. -/
theorem workerMove_of_step (hck : ck.Documented) (hstep : s.step ck i = some s') :
    WorkerMove s i s' := by
  cases i with
  | worker r =>
      simp only [WorkerRun.step] at hstep
      cases hw : s.worker with
      | start =>
          by_cases hst : s.st = .startingUp
          · simp only [WorkerRun.work, hw, hst, hck.swaps, Bool.true_eq_false, if_false,
              Option.some.injEq] at hstep
            subst hstep
            exact .start hw hst
          · simp only [WorkerRun.work, hw, hck.refuses _ _ _ hst, if_true, Option.some.injEq,
              write_same] at hstep
            subst hstep
            exact .refuse hw hst
      | work =>
          simp only [WorkerRun.work, hw, Option.some.injEq] at hstep
          subst hstep
          exact .finish hw
      | exit ret =>
          simp only [WorkerRun.work, hw, Option.some.injEq] at hstep
          subst hstep
          exact .exit hw
      | done ret => simp only [WorkerRun.work, hw, reduceCtorEq] at hstep
  | request t =>
      simp only [WorkerRun.step] at hstep
      split at hstep
      · next hidle =>
          cases hstep
          exact .request hidle
      · cases hstep
  | run t =>
      simp only [WorkerRun.step] at hstep
      cases hpc : s.pc t with
      | idle => simp only [WorkerRun.requestShutdown, hpc, reduceCtorEq] at hstep
      | load =>
          simp only [WorkerRun.requestShutdown, hpc, Option.some.injEq] at hstep
          subst hstep
          split
          · next hst => exact .load hpc hst
          · next hst => exact .late hpc hst
      | store =>
          simp only [WorkerRun.requestShutdown, hpc, Option.some.injEq] at hstep
          subst hstep
          exact .store hpc

end Moves

/-! ## A stop sticks -/

/-- Once a request has returned the worker is not running; if the worker had not made its
    compare-and-swap then, the work function is not called. -/
structure StopSticks (s : WorkerRun τ) : Prop where
  notRunning : s.returned ≠ [] → workerThreadIsRunning s.st = false
  neverCalled : .start ∈ s.returned → s.called = false

/-- What every step keeps. -/
structure Stopping (s : WorkerRun τ) : Prop where
  notIdle : s.st ≠ .idle
  stopped : s.returned ≠ [] → s.st = .shutdownRequested ∨ s.st = .shutdown
  notCalled : s.worker = .start → s.called = false
  neverCalled : .start ∈ s.returned → s.called = false

section Stops

variable {ck : CkPrInt} {s s' : WorkerRun τ} {i : WorkerStep τ}

theorem Stopping.ret (h : Stopping s) (t : τ) (hst : s.st = .shutdownRequested ∨ s.st = .shutdown) :
    Stopping (s.ret t) where
  notIdle := h.notIdle
  stopped := fun _ => hst
  notCalled := h.notCalled
  neverCalled := by
    intro hmem
    rcases List.mem_cons.1 hmem with heq | hmem
    · exact h.notCalled heq.symm
    · exact h.neverCalled hmem

theorem stopping_step (hck : ck.Documented) (h : Stopping s) (hstep : s.step ck i = some s') :
    Stopping s' := by
  cases workerMove_of_step hck hstep with
  | start _ hst =>
      -- the state is as the thread left it, so no request has returned
      have hnone : s.returned = [] := by
        by_contra hne
        rcases h.stopped hne with hreq | hend
        · rw [hst] at hreq
          cases hreq
        · rw [hst] at hend
          cases hend
      refine ⟨by simp [WorkerRun.write], fun hne => absurd hnone hne, fun hw => (by cases hw), ?_⟩
      intro hmem
      have hmem' : WorkerPc.start ∈ s.returned := hmem
      rw [hnone] at hmem'
      cases hmem'
  | refuse hw _ => exact ⟨h.notIdle, h.stopped, fun _ => h.notCalled hw, h.neverCalled⟩
  | finish _ => exact ⟨h.notIdle, h.stopped, fun hw => (by cases hw), h.neverCalled⟩
  | exit _ =>
      exact ⟨by simp [WorkerRun.write], fun _ => .inr rfl, fun hw => (by cases hw), h.neverCalled⟩
  | request _ => exact ⟨h.notIdle, h.stopped, h.notCalled, h.neverCalled⟩
  | load _ _ => exact ⟨h.notIdle, h.stopped, h.notCalled, h.neverCalled⟩
  | @late t _ hst =>
      refine h.ret t ?_
      have hidle := h.notIdle
      cases hs : s.st <;> simp_all
  | @store t _ =>
      have hwritten : Stopping (s.write .shutdownRequested) :=
        ⟨by simp [WorkerRun.write], fun _ => .inl rfl, h.notCalled, h.neverCalled⟩
      exact hwritten.ret t (.inl rfl)

omit [DecidableEq τ] in
theorem stopping_new : Stopping (.new : WorkerRun τ) where
  notIdle := by
    intro h
    cases h
  stopped := fun hne => absurd rfl hne
  notCalled := fun _ => rfl
  neverCalled := fun _ => rfl

/-- **A stop sticks** in every state of every run. -/
theorem stopSticks_of_run (hck : ck.Documented) (steps : List (WorkerStep τ))
    (hrun : exec (WorkerRun.step ck) .new steps = some s) : StopSticks s := by
  have h : Stopping s :=
    exec_invariant (fun _ _ _ h hstep => stopping_step hck h hstep) stopping_new hrun
  refine ⟨fun hne => ?_, h.neverCalled⟩
  rcases h.stopped hne with hst | hst <;> rw [hst] <;> rfl

end Stops

/-- A compare-and-swap as documented. -/
def compareAndSwapInt : CkPrInt where
  casInt := fun target compare set => if target = compare then (true, set) else (false, target)

theorem compareAndSwapInt_documented : compareAndSwapInt.Documented where
  swaps := fun _ _ => if_pos rfl
  refuses := fun _ _ _ hne => if_neg hne

/-- Two requests, of which one returns before the worker has started. -/
def twoRequests : List (WorkerStep ℕ) :=
  [.request 0, .run 0, .run 0, .worker aOk, .request 1, .run 1, .worker aOk]

theorem stopSticks_of_run_twoRequests :
    ∃ s, exec (WorkerRun.step compareAndSwapInt) .new twoRequests = some s ∧ StopSticks s := by
  obtain ⟨s, hs⟩ := Option.isSome_iff_exists.1
    (show (exec (WorkerRun.step compareAndSwapInt) .new twoRequests).isSome = true by decide)
  exact ⟨s, hs, stopSticks_of_run compareAndSwapInt_documented twoRequests hs⟩

/-! ## The listed transitions -/

/-- The state has changed only as is listed for its values, and the final state has not been left. -/
structure FollowsTable (s : WorkerRun τ) : Prop where
  listed : ∀ c ∈ s.changes, c.2 ∈ c.1.transitions
  final : .shutdown ∈ s.changes.map Prod.snd → s.st = .shutdown

/-- No request stores over the final state. -/
def KeepsFinal (s : WorkerRun τ) : WorkerStep τ → Prop
  | .run t => s.pc t = .store → s.st ≠ .shutdown
  | _ => True

section Table

variable {ck : CkPrInt} {s s' : WorkerRun τ} {i : WorkerStep τ} {st : WorkerThreadState}

omit [DecidableEq τ] in
/-- A write that the table lists. -/
theorem FollowsTable.write (h : FollowsTable s) (hst : st ∈ s.st.transitions) :
    FollowsTable (s.write st) := by
  have hne : st ≠ s.st := by
    rintro rfl
    cases hs : s.st <;> rw [hs] at hst <;> revert hst <;> decide
  have hopen : s.st ≠ .shutdown := by
    intro heq
    rw [heq] at hst
    cases hst
  constructor
  · intro c hc
    rw [write_changes hne] at hc
    rcases List.mem_cons.1 hc with rfl | hc
    · exact hst
    · exact h.listed c hc
  · intro hmem
    rw [write_changes hne, List.map_cons, List.mem_cons] at hmem
    rcases hmem with heq | hmem
    · exact heq.symm
    · exact absurd (h.final hmem) hopen

omit [DecidableEq τ] in
theorem FollowsTable.congr (h : FollowsTable s) (hst : s'.st = s.st)
    (hchanges : s'.changes = s.changes) : FollowsTable s' := by
  refine ⟨?_, ?_⟩
  · rw [hchanges]
    exact h.listed
  · rw [hchanges, hst]
    exact h.final

omit [DecidableEq τ] in
theorem FollowsTable.request (h : FollowsTable s) (hopen : s.st ≠ .shutdown) :
    FollowsTable (s.write .shutdownRequested) := by
  by_cases hsame : s.st = .shutdownRequested
  · rw [← hsame, write_same]
    exact h
  · refine h.write ?_
    cases hs : s.st <;> simp_all [WorkerThreadState.transitions]

/-- What the table needs of the other fields: the worker stores the final state last. -/
def Ending (s : WorkerRun τ) : Prop :=
  s.st = .shutdown → ∃ ret, s.worker = .done ret

theorem ending_step (hck : ck.Documented) (h : Ending s) (hstep : s.step ck i = some s') :
    Ending s' := by
  unfold Ending at h ⊢
  cases workerMove_of_step hck hstep with
  | start _ _ => exact fun hst => by cases hst
  | refuse hw _ =>
      intro hst
      obtain ⟨ret, hdone⟩ := h hst
      rw [hw] at hdone
      cases hdone
  | finish hw =>
      intro hst
      obtain ⟨ret, hdone⟩ := h hst
      rw [hw] at hdone
      cases hdone
  | exit _ => exact fun _ => ⟨_, rfl⟩
  | request _ => exact h
  | load _ _ => exact h
  | late _ _ => exact h
  | store _ => exact fun hst => by cases hst

/-- **One step** follows the table exactly if it does not store over the final state. -/
theorem followsTable_step_iff (hck : ck.Documented) (hend : Ending s) (h : FollowsTable s)
    (hstep : s.step ck i = some s') : FollowsTable s' ↔ KeepsFinal s i := by
  cases workerMove_of_step hck hstep with
  | start _ hst =>
      have hnext : WorkerThreadState.running ∈ s.st.transitions := by
        rw [hst]
        decide
      exact iff_of_true ((h.write hnext).congr rfl rfl) trivial
  | refuse _ _ => exact iff_of_true (h.congr rfl rfl) trivial
  | finish _ => exact iff_of_true (h.congr rfl rfl) trivial
  | exit hw =>
      -- the worker has not stored the final state yet
      have hopen : s.st ≠ .shutdown := by
        intro hst
        obtain ⟨ret, hdone⟩ := hend hst
        rw [hw] at hdone
        cases hdone
      have hnext : WorkerThreadState.shutdown ∈ s.st.transitions := by
        cases hs : s.st <;> simp_all [WorkerThreadState.transitions]
      exact iff_of_true ((h.write hnext).congr rfl rfl) trivial
  | request _ => exact iff_of_true (h.congr rfl rfl) trivial
  | load hpc _ => exact iff_of_true (h.congr rfl rfl) (by simp [KeepsFinal, hpc])
  | late hpc _ => exact iff_of_true (h.congr rfl rfl) (by simp [KeepsFinal, hpc])
  | store hpc =>
      simp only [KeepsFinal, hpc, forall_const]
      constructor
      · intro h' hst
        have hchange : (s.st, .shutdownRequested) ∈ (s.write .shutdownRequested).changes := by
          rw [write_changes (by rw [hst]; decide)]
          exact List.mem_cons_self
        have hlisted := h'.listed _ hchange
        rw [hst] at hlisted
        cases hlisted
      · exact fun hopen => (h.request hopen).congr rfl rfl

omit [DecidableEq τ] in
theorem followsTable_new : FollowsTable (.new : WorkerRun τ) where
  listed := fun _ hc => by cases hc
  final := fun hmem => by cases hmem

/-- **A run follows the table** exactly if none of its requests stores over the final state. -/
theorem followsTable_throughout_iff (hck : ck.Documented) (steps : List (WorkerStep τ)) :
    Throughout (WorkerRun.step ck) FollowsTable .new steps ↔
      Meets (WorkerRun.step ck) KeepsFinal .new steps := by
  refine throughout_iff_meets (fun _ _ _ hend hstep => ending_step hck hend hstep)
    (fun _ _ _ hend h hstep => followsTable_step_iff hck hend h hstep) (fun s i _ _ hnone => ?_)
    steps _ (fun hst => by cases hst) followsTable_new
  cases i with
  | worker ret => trivial
  | request t => trivial
  | run t =>
      intro hpc
      simp only [WorkerRun.step, WorkerRun.requestShutdown, hpc, reduceCtorEq] at hnone

end Table

/-- The worker ends between the load and the store of a request. -/
def lateRequest : List (WorkerStep ℕ) :=
  [.worker aOk, .request 0, .run 0, .worker aOk, .worker aOk, .run 0]

/-- The final state is left for `WORKER_THREAD_STATE_SHUTDOWN_REQUESTED`. -/
theorem lateRequest_leaves_shutdown :
    ∃ s, exec (WorkerRun.step compareAndSwapInt) .new lateRequest = some s ∧
      s.worker = .done aOk ∧ (.shutdown, .shutdownRequested) ∈ s.changes ∧
      s.st = .shutdownRequested ∧ ¬ FollowsTable s := by
  refine ⟨_, rfl, rfl, List.mem_cons_self, rfl, fun h => ?_⟩
  have hlisted := h.listed _ List.mem_cons_self
  cases hlisted

/-- A request that is in time. -/
theorem followsTable_throughout_request :
    Throughout (WorkerRun.step compareAndSwapInt) FollowsTable .new
      [.worker aOk, .request 0, .run 0, .run (0 : ℕ), .worker aOk, .worker aOk] := by
  refine (followsTable_throughout_iff compareAndSwapInt_documented _).2
    ⟨trivial, trivial, ?_, ?_, trivial, trivial, trivial⟩
  · exact fun hpc => by cases hpc
  · exact fun _ hst => by cases hst

end Tsl
