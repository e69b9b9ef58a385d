import Tsl.CpuMask
import Tsl.Offload.Ends
import Tsl.Offload.Pool

set_option autoImplicit false

/-! # A work pool with its threads

`tsl/offload/pool.c` over `tsl/offload/thread.c` and `tsl/threading.c`: any number of work threads run
beside the thread that owns the pool and those that hand endpoints to it. A step of the machine is a step
of one work thread, in its wrapper or its worker function, or of the owner: a thread that is added, an
endpoint that is added, or one access of `work_pool_shutdown` to the thread it has reached.

Whatever the order of the steps, an id leads to the thread it was given for, and every thread serves
the endpoints that were accepted for it, in their order, and no others (`poolServes_of_run`); after
`work_pool_shutdown` every thread that ran comes to its end in a bounded number of its own steps
(`ends_of_shutdown`). -/

namespace Tsl

open Lib

variable {ρ ε : Type*}

/-! ## The code -/

/-- Where a thread is in `__thread_wrapper_func`. -/
inductive WrapperPlace where
  | apply
  | setRunning
  | func
  | terminate (ret : AResult)
  | exited (ret : AResult)
deriving DecidableEq

/-- A work thread of a pool, with its `struct thread`. -/
structure PoolMember (ρ ε : Type*) where
  threadId : BitVec 32
  state : ThreadState
  place : WrapperPlace
  worker : Worker ρ ε

/-- Where the owner is: in `work_pool_shutdown` it is at the thread `thread`, and then about to signal
    the thread `t`. -/
inductive OwnerPlace where
  | idle
  | shutdown (thread : PoolNode ℕ)
  | signal (t : ℕ)
deriving DecidableEq

/-- `struct work_pool`, its threads in the order of their creation, the place of the owner, and the
    endpoints that were accepted, with the ids they were accepted for. -/
structure WorkPool (ρ ε : Type*) where
  workThreads : ListMem (PoolNode ℕ)
  lastThreadId : BitVec 32
  threads : List (PoolMember ρ ε)
  owner : OwnerPlace
  accepted : List (BitVec 32 × ε)

/-- What `work_thread_new` and `work_thread_start` meet: which of the allocations succeed, and whether
    the thread can be made. `joins` is whether `pthread_join` returns for a thread that could not. -/
structure NewThreadEnv where
  calloc : Bool
  mask : MaskEnv
  thread : Bool
  queue : Bool
  pthreadCreate : Bool
  joins : Bool

/-- What a work thread meets in a step: the answer of `cpu_mask_apply`, and that of its endpoints. -/
structure ThreadEnv where
  applied : AResult
  poll : PollEnv

/-- `work_pool_create`; `list` is the memory that `calloc` finds. -/
def workPoolCreate (calloc : Bool) (list : ListMem (PoolNode ℕ)) : AResult × Option (WorkPool ρ ε) :=
  if calloc = false then (aENomem, none)
  else (aOk, some { workThreads := listInit list .workThreads, lastThreadId := 1, threads := [],
                    owner := .idle, accepted := [] })

/-- `thread_create`, which fails if the memory is not there. -/
def threadCreate (calloc : Bool) : AResult := if calloc = false then aENomem else aOk

/-- `work_thread_new`: the thread that is made, in the memory `list`. -/
def workThreadNew [DecidableEq ε] (ck : CkRing ρ ε) (env : NewThreadEnv) (cpuAffinity : ℕ)
    (list : ListMem (WorkNode ε)) : AResult × Option (Worker ρ ε) :=
  if env.calloc = false then (aENomem, none)
  else
    match cpuMaskCreate env.mask with
    | .error ret => (ret, none)
    | .ok msk =>
        let (ret, _) := cpuMaskSet msk cpuAffinity
        if afailed ret then (ret, none)
        else if afailed (threadCreate env.thread) then (threadCreate env.thread, none)
        else
          let (ret, q) := workQueueNew ck workThreadMaxQueuedEndpoints env.queue
          if afailed ret then (ret, none) else (ret, q.map fun q => .new q list fun _ => 0)

/-- `work_thread_add_endpoint`, on a thread that runs its worker function. -/
def Worker.addEndpoint (ck : CkRing ρ ε) (w : Worker ρ ε) (ep : ε) : AResult × Worker ρ ε :=
  let (ret, q) := workQueuePush ck w.epQueue (some ep)
  (ret, { w with epQueue := q, arrived := if ret = aOk then ep :: w.arrived else w.arrived })

namespace WorkPool

/-- Changes one of the threads. -/
def setThread (s : WorkPool ρ ε) (t : ℕ) (m : PoolMember ρ ε) : WorkPool ρ ε :=
  { s with threads := s.threads.set t m }

/-- The end of `work_pool_add_thread`: the thread gets the next id, and is put on the list. -/
def appendThread (s : WorkPool ρ ε) (worker : Worker ρ ε) : WorkPool ρ ε :=
  { s with
    lastThreadId := s.lastThreadId + 1
    workThreads := listAppend s.workThreads .workThreads (.tnode s.threads.length)
    threads := s.threads ++
      [{ threadId := s.lastThreadId, state := .idle, place := .apply, worker := worker }] }

/-- `work_pool_add_thread`, which answers 0 for a thread that is not made. -/
def addThread [DecidableEq ε] (ck : CkRing ρ ε) (s : WorkPool ρ ε) (env : NewThreadEnv) (coreNum : ℕ)
    (list : ListMem (WorkNode ε)) : Option (AResult × BitVec 32 × WorkPool ρ ε) :=
  match workThreadNew ck env coreNum list with
  | (ret, none) => some (ret, 0, s)
  | (_, some worker) =>
      if env.pthreadCreate = false then
        -- `work_thread_destroy` joins a thread that never was, which is a fault or just fails
        if env.joins = false then none else some (aENothread, 0, s)
      else some (aOk, s.lastThreadId, s.appendThread worker)

/-- The loop of `__work_pool_find_thread_by_id`, at the cursor `thread`. -/
def findFrom (s : WorkPool ρ ε) (threadId : BitVec 32) : ℕ → PoolNode ℕ → Option (Option ℕ)
  | 0, _ => none
  | fuel + 1, thread =>
      match thread with
      | .workThreads => some none
      | .tnode t =>
          match s.threads[t]? with
          | none => none
          | some m =>
              if m.threadId = threadId then some (some t)
              else s.findFrom threadId fuel (s.workThreads (.tnode t)).next
      | _ => none

/-- `__work_pool_find_thread_by_id`. -/
def findThreadById (s : WorkPool ρ ε) (threadId : BitVec 32) : Option (Option ℕ) :=
  s.findFrom threadId (s.threads.length + 1) (s.workThreads .workThreads).next

/-- `work_pool_add_endpoint`. -/
def addEndpoint (ck : CkRing ρ ε) (s : WorkPool ρ ε) (threadId : BitVec 32) (ep : ε) :
    Option (AResult × WorkPool ρ ε) :=
  if ¬ threadId < s.lastThreadId then some (aEBadargs, s)
  else
    match s.findThreadById threadId with
    | none => none
    | some none => some (aENotfound, s)
    | some (some t) => do
        let m ← s.threads[t]?
        let (ret, worker) := m.worker.addEndpoint ck ep
        let s := s.setThread t { m with worker := worker }
        some (ret, if ret = aOk then { s with accepted := s.accepted ++ [(threadId, ep)] } else s)

/-- The next step of `work_pool_shutdown`, with `work_thread_shutdown` of the thread it has reached. -/
def shutdownStep (s : WorkPool ρ ε) : Option (WorkPool ρ ε) :=
  match s.owner with
  | .shutdown .workThreads => some { s with owner := .idle }
  | .shutdown (.tnode t) => do
      let m ← s.threads[t]?
      let (ret, val) := threadRunning m.state
      some { s with owner :=
        if val = 0 ∨ afailed ret = true then .shutdown (s.workThreads (.tnode t)).next else .signal t }
  | .signal t => do
      let m ← s.threads[t]?
      let s := s.setThread t { m with worker := { m.worker with signalDeath := workThreadDead } }
      some { s with owner := .shutdown (s.workThreads (.tnode t)).next }
  | _ => none

end WorkPool

/-- The next step of a work thread. -/
def PoolMember.step [DecidableEq ε] (ck : CkRing ρ ε) (hasPoll : ε → Bool) (m : PoolMember ρ ε)
    (env : ThreadEnv) : Option (PoolMember ρ ε) :=
  match m.place with
  | .apply =>
      some { m with place := if env.applied ≠ aOk then .terminate env.applied else .setRunning }
  | .setRunning => some { m with state := .running, place := .func }
  | .func =>
      if m.worker.pc = .returned then some { m with place := .terminate aOk }
      else (m.worker.work ck hasPoll env.poll).map fun w => { m with worker := w }
  | .terminate ret => some { m with state := .terminated, place := .exited ret }
  | .exited _ => none

/-- What can happen: the owner adds a thread, calls `work_pool_shutdown`, or makes the next step in it;
    someone adds an endpoint that has not been added before; a work thread makes its next step. -/
inductive WorkPoolStep (ε : Type*)
  | addThread (env : NewThreadEnv) (coreNum : ℕ) (list : ListMem (WorkNode ε))
  | shutdown
  | owner
  | addEndpoint (threadId : BitVec 32) (ep : ε)
  | thread (t : ℕ) (env : ThreadEnv)

/-- One step of the machine. -/
def WorkPool.step [DecidableEq ε] (ck : CkRing ρ ε) (hasPoll : ε → Bool) (s : WorkPool ρ ε) :
    WorkPoolStep ε → Option (WorkPool ρ ε)
  | .addThread env coreNum list =>
      if s.owner = .idle then (s.addThread ck env coreNum list).map fun r => r.2.2 else none
  | .shutdown =>
      if s.owner = .idle then
        some { s with owner := .shutdown (s.workThreads .workThreads).next }
      else none
  | .owner => s.shutdownStep
  | .addEndpoint threadId ep =>
      if ep ∈ s.accepted.map Prod.snd then none else (s.addEndpoint ck threadId ep).map Prod.snd
  | .thread t env => do
      let m ← s.threads[t]?
      let m ← m.step ck hasPoll env
      some (s.setThread t m)

/-! ## The list of the threads -/

/-- The entry of the thread `k`, or the head behind the last. -/
def nodeAt (n k : ℕ) : PoolNode ℕ := if k < n then .tnode k else .workThreads

section Walk

variable {m : ListMem (PoolNode ℕ)} {n k : ℕ}

theorem headD_range' (n k : ℕ) :
    ((List.range' k (n - k)).map PoolNode.tnode).headD .workThreads = nodeAt n k := by
  rw [List.headD_eq_head?_getD, List.head?_map, List.head?_range', nodeAt]
  by_cases hlt : k < n
  · rw [if_pos hlt, if_neg (by omega)]
    rfl
  · rw [if_neg hlt, if_pos (by omega)]
    rfl

theorem first_eq_nodeAt (h : IsList m .workThreads ((List.range n).map .tnode)) :
    (m .workThreads).next = nodeAt n 0 := by
  rw [IsRing.next_eq_headD h, List.range_eq_range']
  exact headD_range' n 0

theorem next_eq_nodeAt (h : IsList m .workThreads ((List.range n).map .tnode)) (hk : k < n) :
    (m (.tnode k)).next = nodeAt n (k + 1) := by
  rw [range_eq_append_cons hk, List.map_append, List.map_cons] at h
  rw [IsRing.next_eq_headD_split h]
  exact headD_range' n (k + 1)

end Walk

/-! ## What every step keeps -/

/-- The wrapper, the state of the thread and its worker function are at one. -/
def WrapperOk (m : PoolMember ρ ε) : Prop :=
  match m.place with
  | .apply | .setRunning => m.state = .idle
  | .func => m.state = .running
  | .terminate ret => (ret = aOk ∧ m.state = .running ∧ m.worker.pc = .returned) ∨
      (ret ≠ aOk ∧ m.state = .idle)
  | .exited ret => m.state = .terminated ∧ (ret = aOk → m.worker.pc = .returned)

/-- The invariant of a work thread. -/
structure MemberOk (contents : ρ → List (Option ε)) (m : PoolMember ρ ε) : Prop where
  inv : WorkerInv contents m.worker
  counts : CountsDown m.worker
  inOrder : InOrder contents m.worker
  wrapper : WrapperOk m

/-- The ids can still be told apart: the next one is greater than all of them. -/
def WorkPool.IdsLeft (s : WorkPool ρ ε) : Prop := s.threads.length < 2 ^ 32 - 1

/-- The place of the owner is one of the pool. -/
def OwnerOk (n : ℕ) : OwnerPlace → Prop
  | .idle => True
  | .shutdown thread => ∃ k ≤ n, thread = nodeAt n k
  | .signal t => t < n

/-- The invariant of the machine. The ids are given out in turn, and an endpoint that was accepted came
    to the thread it was accepted for. -/
structure PoolOk (contents : ρ → List (Option ε)) (s : WorkPool ρ ε) : Prop where
  list : IsList s.workThreads .workThreads ((List.range s.threads.length).map .tnode)
  last : s.lastThreadId = BitVec.ofNat 32 (s.threads.length + 1)
  ids : ∀ t m, s.threads[t]? = some m → m.threadId = BitVec.ofNat 32 (t + 1)
  members : ∀ m ∈ s.threads, MemberOk contents m
  arrived : ∀ m ∈ s.threads, ∀ ep ∈ m.worker.arrived, ep ∈ s.accepted.map Prod.snd
  known : ∀ a ∈ s.accepted, ∃ m ∈ s.threads, m.threadId = a.1
  accepted : s.IdsLeft → ∀ m ∈ s.threads,
    m.worker.arrived.reverse = (s.accepted.filter fun a => a.1 = m.threadId).map Prod.snd
  distinct : (s.accepted.map Prod.snd).Nodup
  owner : OwnerOk s.threads.length s.owner

section Members

variable {ck : CkRing ρ ε} {contents : ρ → List (Option ε)} {room : ρ → ℕ} {m m' : PoolMember ρ ε}

theorem memberOk_new [DecidableEq ε] (hck : ck.BoundedFifo contents room) {q : WorkQueue ρ}
    (hq : workQueueNew ck workThreadMaxQueuedEndpoints true = (aOk, some q)) (id : BitVec 32)
    (list : ListMem (WorkNode ε)) :
    MemberOk contents { threadId := id, state := .idle, place := .apply,
                        worker := .new q list fun _ => 0 } :=
  ⟨⟨[], [], workerOk_new hck hq list _, trivial⟩, nofun,
    ⟨[], (workQueueNew_ok hck hq).2, List.Sublist.refl _⟩, rfl⟩

/-- What the wrapper does between the calls changes nothing of the worker function. -/
theorem MemberOk.goto (h : MemberOk contents m) (state : ThreadState) {place : WrapperPlace}
    (hwrapper : WrapperOk { m with state := state, place := place }) :
    MemberOk contents { m with state := state, place := place } :=
  ⟨h.inv, h.counts, h.inOrder, hwrapper⟩

theorem MemberOk.signal (h : MemberOk contents m) (val : BitVec 32) :
    MemberOk contents { m with worker := { m.worker with signalDeath := val } } := by
  obtain ⟨eps, queued, hok, hplace⟩ := h.inv
  exact ⟨⟨eps, queued, ⟨hok.buffer, hok.listed, hok.active, hok.queue, hok.distinct, hok.fresh,
    hok.started, hok.allowed⟩, hplace⟩, h.counts, h.inOrder, h.wrapper⟩

variable [DecidableEq ε] {hasPoll : ε → Bool} {env : ThreadEnv}

/-- What a step of a work thread does. -/
inductive PoolMember.Moves (ck : CkRing ρ ε) (hasPoll : ε → Bool) (env : ThreadEnv)
    (m : PoolMember ρ ε) : PoolMember ρ ε → Prop
  | refused (hplace : m.place = .apply) (hfail : env.applied ≠ aOk) :
      m.Moves ck hasPoll env { m with place := .terminate env.applied }
  | applied (hplace : m.place = .apply) : m.Moves ck hasPoll env { m with place := .setRunning }
  | running (hplace : m.place = .setRunning) :
      m.Moves ck hasPoll env { m with state := .running, place := .func }
  | returned (hplace : m.place = .func) (hreturned : m.worker.pc = .returned) :
      m.Moves ck hasPoll env { m with place := .terminate aOk }
  | work {w : Worker ρ ε} (hplace : m.place = .func)
      (hwork : m.worker.work ck hasPoll env.poll = some w) :
      m.Moves ck hasPoll env { m with worker := w }
  | terminated {ret : AResult} (hplace : m.place = .terminate ret) :
      m.Moves ck hasPoll env { m with state := .terminated, place := .exited ret }

theorem PoolMember.moves (hstep : m.step ck hasPoll env = some m') : m.Moves ck hasPoll env m' := by
  unfold PoolMember.step at hstep
  cases hplace : m.place with
  | apply =>
      simp only [hplace, Option.some.injEq] at hstep
      subst hstep
      by_cases hfail : env.applied = aOk
      · rw [if_neg (not_not.2 hfail)]
        exact .applied hplace
      · rw [if_pos hfail]
        exact .refused hplace hfail
  | setRunning =>
      simp only [hplace] at hstep
      exact Option.some.inj hstep ▸ .running hplace
  | func =>
      simp only [hplace] at hstep
      split at hstep
      · next hreturned => exact Option.some.inj hstep ▸ .returned hplace hreturned
      · obtain ⟨w, hwork, rfl⟩ := Option.map_eq_some_iff.1 hstep
        simpa only [hplace] using PoolMember.Moves.work hplace hwork
  | terminate ret =>
      simp only [hplace] at hstep
      exact Option.some.inj hstep ▸ .terminated hplace
  | exited ret =>
      simp only [hplace] at hstep
      cases hstep

/-- **One step of a work thread.** -/
theorem MemberOk.step (hck : ck.BoundedFifo contents room) (h : MemberOk contents m)
    (hstep : m.step ck hasPoll env = some m') :
    MemberOk contents m' ∧ m'.threadId = m.threadId ∧ m'.worker.arrived = m.worker.arrived ∧
      m'.worker.signalDeath = m.worker.signalDeath := by
  have hwrapper := h.wrapper
  unfold WrapperOk at hwrapper
  cases PoolMember.moves hstep with
  | refused hplace hfail =>
      rw [hplace] at hwrapper
      exact ⟨h.goto m.state (.inr ⟨hfail, hwrapper⟩), rfl, rfl, rfl⟩
  | applied hplace =>
      rw [hplace] at hwrapper
      exact ⟨h.goto m.state hwrapper, rfl, rfl, rfl⟩
  | running hplace => exact ⟨h.goto .running rfl, rfl, rfl, rfl⟩
  | returned hplace hreturned =>
      rw [hplace] at hwrapper
      exact ⟨h.goto m.state (.inl ⟨rfl, hwrapper, hreturned⟩), rfl, rfl, rfl⟩
  | work hplace hwork =>
      obtain ⟨hcounts, hsignal, harrived⟩ := work_frame hwork h.counts
      obtain ⟨eps, queued, hok, -⟩ := id h.inv
      refine ⟨⟨work_inv hck h.inv hwork, hcounts, h.inOrder.work hck hok.buffer h.counts hwork, ?_⟩,
        rfl, harrived, hsignal⟩
      rw [hplace] at hwrapper
      simpa only [WrapperOk, hplace] using hwrapper
  | terminated hplace =>
      rw [hplace] at hwrapper
      refine ⟨h.goto .terminated ⟨rfl, fun hret => ?_⟩, rfl, rfl, rfl⟩
      rcases hwrapper with ⟨-, -, hreturned⟩ | ⟨hfail, -⟩
      · exact hreturned
      · exact absurd hret hfail

theorem MemberOk.addEndpoint (hck : ck.BoundedFifo contents room) (h : MemberOk contents m) {ep : ε}
    (hnew : ep ∉ m.worker.arrived) :
    MemberOk contents { m with worker := (m.worker.addEndpoint ck ep).2 } ∧
      (m.worker.addEndpoint ck ep).2.arrived =
        if (m.worker.addEndpoint ck ep).1 = aOk then ep :: m.worker.arrived else m.worker.arrived := by
  have hstep : m.worker.step ck (fun _ => true) (.add ep) = some (m.worker.addEndpoint ck ep).2 := by
    rw [Worker.step, if_neg hnew]
    rfl
  obtain ⟨queued, hqueue, hsub⟩ := h.inOrder
  obtain ⟨eps, _, hok, -⟩ := id h.inv
  refine ⟨⟨step_inv hck _ _ _ _ h.inv hstep, h.counts, ?_, h.wrapper⟩, rfl⟩
  obtain ⟨fifo, -, ⟨-, happ, hpush⟩ | ⟨-, hsame, hpush⟩⟩ := workQueuePush_cases hck hok.buffer ep
  · refine ⟨queued ++ [ep], ?_, ?_⟩
    · simp only [Worker.addEndpoint, hpush, happ, hqueue, List.map_append, List.map_singleton]
    · simp only [Worker.addEndpoint, hpush, if_true, List.reverse_cons, ← List.append_assoc]
      exact (List.append_sublist_append_right _).2 hsub
  · have hbusy : aEBusy ≠ aOk := aresultError_ne_aOk _ _
    refine ⟨queued, ?_, ?_⟩
    · simp only [Worker.addEndpoint, hpush, hsame, hqueue]
    · simp only [Worker.addEndpoint, hpush, if_neg hbusy]
      exact hsub

end Members

/-! ## Finding a thread -/

section Find

variable {contents : ρ → List (Option ε)} {s s' : WorkPool ρ ε} {m m' : PoolMember ρ ε} {t : ℕ}
  {id : BitVec 32}

theorem PoolOk.findFrom_eq (h : PoolOk contents s) (id : BitVec 32) (fuel : ℕ) :
    ∀ k ≤ s.threads.length, s.threads.length - k < fuel →
      s.findFrom id fuel (nodeAt s.threads.length k) =
        some ((List.range' k (s.threads.length - k)).find? fun t => BitVec.ofNat 32 (t + 1) = id) := by
  induction fuel with
  | zero => exact fun _ _ hfuel => absurd hfuel (Nat.not_lt_zero _)
  | succ fuel ih =>
      intro k hk hfuel
      rcases Nat.lt_or_eq_of_le hk with hlt | rfl
      · obtain ⟨m, hm⟩ : ∃ m, s.threads[k]? = some m := ⟨_, List.getElem?_eq_getElem hlt⟩
        rw [nodeAt, if_pos hlt, WorkPool.findFrom, range'_eq_cons hlt, List.find?_cons]
        simp only [hm, h.ids k m hm]
        by_cases hid : BitVec.ofNat 32 (k + 1) = id
        · simp only [hid, if_true, decide_true]
        · simp only [hid, if_false, decide_false, next_eq_nodeAt h.list hlt]
          exact ih (k + 1) hlt (by omega)
      · rw [nodeAt, if_neg (Nat.lt_irrefl _), Nat.sub_self]
        rfl

theorem PoolOk.findThreadById_eq (h : PoolOk contents s) (id : BitVec 32) :
    s.findThreadById id =
      some ((List.range s.threads.length).find? fun t => BitVec.ofNat 32 (t + 1) = id) := by
  rw [WorkPool.findThreadById, first_eq_nodeAt h.list,
    h.findFrom_eq id _ 0 (Nat.zero_le _) (by omega), List.range_eq_range', Nat.sub_zero]

theorem PoolOk.of_found (h : PoolOk contents s) (hfind : s.findThreadById id = some (some t)) :
    ∃ m, s.threads[t]? = some m ∧ m.threadId = id := by
  rw [h.findThreadById_eq, Option.some.injEq] at hfind
  have hlt : t < s.threads.length := List.mem_range.1 (List.mem_of_find?_eq_some hfind)
  have hid : BitVec.ofNat 32 (t + 1) = id := by simpa using List.find?_some hfind
  exact ⟨_, List.getElem?_eq_getElem hlt, (h.ids t _ (List.getElem?_eq_getElem hlt)).trans hid⟩

theorem ofNat_succ_toNat (hlt : t < 2 ^ 32 - 1) : (BitVec.ofNat 32 (t + 1)).toNat = t + 1 := by
  rw [BitVec.toNat_ofNat]
  exact Nat.mod_eq_of_lt (by omega)

/-- While ids are left, those that were given out find their threads, and no other finds any. -/
theorem PoolOk.found (h : PoolOk contents s) (hleft : s.IdsLeft) (id : BitVec 32) :
    s.findThreadById id = some
      (if 0 < id.toNat ∧ id.toNat ≤ s.threads.length then some (id.toNat - 1) else none) := by
  have hleft' : s.threads.length < 2 ^ 32 - 1 := hleft
  have heq : ∀ t < s.threads.length, BitVec.ofNat 32 (t + 1) = id ↔ t + 1 = id.toNat := by
    intro t ht
    rw [BitVec.toNat_eq, ofNat_succ_toNat (by omega)]
  rw [h.findThreadById_eq]
  congr 1
  split
  · next hid =>
    have hpred : id.toNat - 1 < s.threads.length := by omega
    rw [List.find?_range_eq_some]
    refine ⟨?_, List.mem_range.2 hpred, fun j hj => ?_⟩
    · simpa using (heq _ hpred).2 (by omega)
    · simpa using fun hj' => by
        have := (heq j (by omega)).1 hj'
        omega
  · next hid =>
    refine List.find?_eq_none.2 fun t ht hfound => hid ?_
    have := (heq t (List.mem_range.1 ht)).1 (by simpa using hfound)
    have := List.mem_range.1 ht
    omega

/-- While ids are left, no two threads have the same. -/
theorem PoolOk.id_inj (h : PoolOk contents s) (hleft : s.IdsLeft) {t' : ℕ}
    (hm : s.threads[t]? = some m) (hm' : s.threads[t']? = some m') (hid : m.threadId = m'.threadId) :
    t = t' := by
  have hleft' : s.threads.length < 2 ^ 32 - 1 := hleft
  obtain ⟨hlt, -⟩ := List.getElem?_eq_some_iff.1 hm
  obtain ⟨hlt', -⟩ := List.getElem?_eq_some_iff.1 hm'
  rw [h.ids t m hm, h.ids t' m' hm', BitVec.toNat_eq, ofNat_succ_toNat (by omega),
    ofNat_succ_toNat (by omega)] at hid
  omega

theorem mem_setThread (hm' : m' ∈ (s.setThread t m).threads) :
    m' = m ∨ ∃ j ≠ t, s.threads[j]? = some m' := by
  obtain ⟨j, hj⟩ := List.mem_iff_getElem?.1 hm'
  by_cases hjt : t = j
  · obtain ⟨hlt, -⟩ := List.getElem?_eq_some_iff.1 hj
    rw [WorkPool.setThread, List.length_set] at hlt
    rw [hjt, WorkPool.setThread, List.getElem?_set_self hlt] at hj
    exact .inl (Option.some.inj hj).symm
  · rw [WorkPool.setThread, List.getElem?_set_ne hjt] at hj
    exact .inr ⟨j, Ne.symm hjt, hj⟩

/-- A thread changes in its own memory, and endpoints are accepted for it. -/
theorem PoolOk.accept (h : PoolOk contents s) (hm : s.threads[t]? = some m)
    (hm' : MemberOk contents m') (hid : m'.threadId = m.threadId) (added : List (BitVec 32 × ε))
    (harrived : m'.worker.arrived.reverse = m.worker.arrived.reverse ++ added.map Prod.snd)
    (hfor : ∀ a ∈ added, a.1 = m.threadId) (hdistinct : ((s.accepted ++ added).map Prod.snd).Nodup) :
    PoolOk contents { s.setThread t m' with accepted := s.accepted ++ added } := by
  obtain ⟨hlt, -⟩ := List.getElem?_eq_some_iff.1 hm
  have hlen : (s.setThread t m').threads.length = s.threads.length := List.length_set
  have hmem : m ∈ s.threads := List.mem_of_getElem? hm
  have hset : m' ∈ (s.setThread t m').threads := List.mem_set hlt _
  refine ⟨hlen ▸ h.list, hlen ▸ h.last, fun j x hx => ?_, fun x hx => ?_, fun x hx ep hep => ?_,
    fun a ha => ?_, fun hleft x hx => ?_, hdistinct, hlen ▸ h.owner⟩
  · by_cases hj : t = j
    · rw [← hj, WorkPool.setThread, List.getElem?_set_self hlt, Option.some.injEq] at hx
      rw [← hx, hid, ← hj]
      exact h.ids t m hm
    · rw [WorkPool.setThread, List.getElem?_set_ne hj] at hx
      exact h.ids j x hx
  · rcases mem_setThread hx with rfl | ⟨j, -, hj⟩
    · exact hm'
    · exact h.members x (List.mem_of_getElem? hj)
  · rw [List.map_append, List.mem_append]
    rcases mem_setThread hx with rfl | ⟨j, -, hj⟩
    · rw [← List.mem_reverse, harrived, List.mem_append, List.mem_reverse] at hep
      exact hep.imp_left (h.arrived m hmem ep)
    · exact .inl (h.arrived x (List.mem_of_getElem? hj) ep hep)
  · rcases List.mem_append.1 ha with ha | ha
    · obtain ⟨x, hx, hxid⟩ := h.known a ha
      obtain ⟨j, hj⟩ := List.mem_iff_getElem?.1 hx
      by_cases hjt : j = t
      · subst hjt
        obtain rfl : m = x := Option.some.inj (hm.symm.trans hj)
        exact ⟨m', hset, hid.trans hxid⟩
      · refine ⟨x, List.mem_iff_getElem?.2 ⟨j, ?_⟩, hxid⟩
        exact (List.getElem?_set_ne (Ne.symm hjt)).trans hj
    · exact ⟨m', hset, hid.trans (hfor a ha).symm⟩
  · have hleft' : s.threads.length < 2 ^ 32 - 1 := hlen.symm.trans_lt hleft
    rw [List.filter_append, List.map_append]
    rcases mem_setThread hx with rfl | ⟨j, hjt, hj⟩
    · have hall : added.filter (fun a => a.1 = x.threadId) = added :=
        List.filter_eq_self.2 fun a ha => decide_eq_true ((hfor a ha).trans hid.symm)
      rw [hall, hid, harrived, h.accepted hleft' m hmem]
    · -- none of them is for another thread
      have hnone : added.filter (fun a => a.1 = x.threadId) = [] :=
        List.filter_eq_nil_iff.2 fun a ha hax => hjt
          (h.id_inj hleft' hj hm ((of_decide_eq_true hax).symm.trans (hfor a ha)))
      rw [hnone, List.map_nil, List.append_nil]
      exact h.accepted hleft' x (List.mem_of_getElem? hj)

theorem PoolOk.setThread (h : PoolOk contents s) (hm : s.threads[t]? = some m)
    (hm' : MemberOk contents m') (hid : m'.threadId = m.threadId)
    (harrived : m'.worker.arrived = m.worker.arrived) : PoolOk contents (s.setThread t m') := by
  have hok := h.accept hm hm' hid [] (by rw [harrived, List.map_nil, List.append_nil]) nofun
    (by rw [List.append_nil]; exact h.distinct)
  rwa [List.append_nil] at hok

end Find

/-! ## One step -/

section Steps

variable [DecidableEq ε] {ck : CkRing ρ ε} {contents : ρ → List (Option ε)} {room : ρ → ℕ}
  {hasPoll : ε → Bool} {s s' : WorkPool ρ ε}

theorem workThreadNew_cases (ck : CkRing ρ ε) (env : NewThreadEnv) (cpuAffinity : ℕ)
    (list : ListMem (WorkNode ε)) :
    (∃ ret, workThreadNew ck env cpuAffinity list = (ret, none)) ∨
      ∃ q, workQueueNew ck workThreadMaxQueuedEndpoints true = (aOk, some q) ∧
        workThreadNew ck env cpuAffinity list = (aOk, some (.new q list fun _ => 0)) := by
  unfold workThreadNew
  split
  · exact .inl ⟨_, rfl⟩
  · split
    · exact .inl ⟨_, rfl⟩
    · simp only
      split
      · exact .inl ⟨_, rfl⟩
      · split
        · exact .inl ⟨_, rfl⟩
        · have hnomem : afailed aENomem = true := afailed_aresultError _ _
          cases env.queue with
          | false => exact .inl ⟨aENomem, by simp [workQueueNew, workThreadMaxQueuedEndpoints, hnomem]⟩
          | true => exact .inr ⟨_, rfl, by simp [workQueueNew, workThreadMaxQueuedEndpoints]⟩

/-- A thread that is not made leaves the pool as it was. -/
theorem addThread_cases {env : NewThreadEnv} {coreNum : ℕ} {list : ListMem (WorkNode ε)} {ret : AResult}
    {id : BitVec 32} (hcall : s.addThread ck env coreNum list = some (ret, id, s')) :
    s' = s ∨ ∃ q, workQueueNew ck workThreadMaxQueuedEndpoints true = (aOk, some q) ∧
      s' = s.appendThread (.new q list fun _ => 0) := by
  unfold WorkPool.addThread at hcall
  rcases workThreadNew_cases ck env coreNum list with ⟨ret', hnew⟩ | ⟨q, hq, hnew⟩
  · simp only [hnew, Option.some.injEq, Prod.mk.injEq] at hcall
    exact .inl hcall.2.2.symm
  · simp only [hnew] at hcall
    split at hcall
    · obtain ⟨-, hcall⟩ := Option.ite_none_left_eq_some.1 hcall
      simp only [Option.some.injEq, Prod.mk.injEq] at hcall
      exact .inl hcall.2.2.symm
    · simp only [Option.some.injEq, Prod.mk.injEq] at hcall
      exact .inr ⟨q, hq, hcall.2.2.symm⟩

omit [DecidableEq ε] in
/-- An endpoint is refused, or comes to the thread with the id. -/
theorem addEndpoint_cases {id : BitVec 32} {ep : ε} {ret : AResult}
    (hcall : s.addEndpoint ck id ep = some (ret, s')) :
    s' = s ∨ ∃ t m, s.findThreadById id = some (some t) ∧ s.threads[t]? = some m ∧
      s' = { s.setThread t { m with worker := (m.worker.addEndpoint ck ep).2 } with
        accepted := s.accepted ++ if (m.worker.addEndpoint ck ep).1 = aOk then [(id, ep)] else [] } := by
  unfold WorkPool.addEndpoint at hcall
  split at hcall
  · simp only [Option.some.injEq, Prod.mk.injEq] at hcall
    exact .inl hcall.2.symm
  · split at hcall
    · cases hcall
    · simp only [Option.some.injEq, Prod.mk.injEq] at hcall
      exact .inl hcall.2.symm
    · next t hfind =>
      obtain ⟨m, hm, hcall⟩ := Option.bind_eq_some_iff.1 hcall
      simp only [Option.some.injEq, Prod.mk.injEq] at hcall
      refine .inr ⟨t, m, hfind, hm, hcall.2.symm.trans ?_⟩
      split
      · rfl
      · rw [List.append_nil]
        rfl

omit [DecidableEq ε] in
/-- The owner goes on past a thread that does not run, signals one that does, or is at the end. -/
theorem shutdownStep_cases (hstep : s.shutdownStep = some s') :
    (s.owner = .shutdown .workThreads ∧ s' = { s with owner := .idle }) ∨
    (∃ t m, s.owner = .shutdown (.tnode t) ∧ s.threads[t]? = some m ∧ s' = { s with
      owner := if m.state = .running then .signal t else .shutdown (s.workThreads (.tnode t)).next }) ∨
    ∃ t m, s.owner = .signal t ∧ s.threads[t]? = some m ∧
      s' = { s.setThread t { m with worker := { m.worker with signalDeath := workThreadDead } } with
        owner := .shutdown (s.workThreads (.tnode t)).next } := by
  unfold WorkPool.shutdownStep at hstep
  split at hstep
  · next howner => exact .inl ⟨howner, (Option.some.inj hstep).symm⟩
  · next t howner =>
    obtain ⟨m, hm, hstep⟩ := Option.bind_eq_some_iff.1 hstep
    refine .inr (.inl ⟨t, m, howner, hm, (Option.some.inj hstep).symm.trans ?_⟩)
    by_cases hrunning : m.state = .running
    · simp [hrunning]
    · simp [hrunning]
  · next t howner =>
    obtain ⟨m, hm, hstep⟩ := Option.bind_eq_some_iff.1 hstep
    exact .inr (.inr ⟨t, m, howner, hm, (Option.some.inj hstep).symm⟩)
  · cases hstep

theorem PoolOk.appendThread (hck : ck.BoundedFifo contents room) (h : PoolOk contents s)
    {q : WorkQueue ρ} (hq : workQueueNew ck workThreadMaxQueuedEndpoints true = (aOk, some q))
    (list : ListMem (WorkNode ε)) (hidle : s.owner = .idle) :
    PoolOk contents (s.appendThread (.new q list fun _ => 0)) := by
  have hmember := memberOk_new hck hq s.lastThreadId list
  have hlen : ∀ m : PoolMember ρ ε, (s.threads ++ [m]).length = s.threads.length + 1 :=
    fun m => by rw [List.length_append, List.length_singleton]
  have hout : PoolNode.tnode s.threads.length ∉
      PoolNode.workThreads :: (List.range s.threads.length).map .tnode := by
    simp
  refine ⟨?_, ?_, fun t m hm => ?_, ?_, ?_, fun a ha => ?_, fun hleft => ?_, h.distinct, ?_⟩
  · simp only [WorkPool.appendThread, hlen, List.range_succ, List.map_append, List.map_singleton]
    exact isList_listAppend h.list hout
  · simp only [WorkPool.appendThread, hlen, h.last]
    apply BitVec.eq_of_toNat_eq
    simp [BitVec.toNat_add]
  · rw [WorkPool.appendThread, List.getElem?_append] at hm
    split at hm
    · exact h.ids t m hm
    · next hge =>
      obtain ⟨hlt, hget⟩ := List.getElem?_eq_some_iff.1 hm
      rw [List.length_singleton] at hlt
      obtain rfl : t = s.threads.length := by omega
      simp only [Nat.sub_self, List.getElem_cons_zero] at hget
      rw [← hget]
      exact h.last
  · exact fun m hm => (List.mem_append.1 hm).elim (h.members m) fun hm =>
      List.mem_singleton.1 hm ▸ hmember
  · refine fun m hm => (List.mem_append.1 hm).elim (h.arrived m) fun hm => ?_
    rw [List.mem_singleton.1 hm]
    exact nofun
  · obtain ⟨m, hm, hid⟩ := h.known a ha
    exact ⟨m, List.mem_append_left _ hm, hid⟩
  · rw [WorkPool.IdsLeft, WorkPool.appendThread, hlen] at hleft
    have hleft' : s.IdsLeft := Nat.lt_of_succ_lt hleft
    refine fun m hm => (List.mem_append.1 hm).elim (h.accepted hleft' m) fun hm => ?_
    rw [List.mem_singleton.1 hm]
    -- nothing has been accepted for an id that was not given out
    refine (List.map_eq_nil_iff.2 (List.filter_eq_nil_iff.2 fun a ha hid => ?_)).symm
    obtain ⟨m, hm, hmid⟩ := h.known a ha
    obtain ⟨t, hm⟩ := List.mem_iff_getElem?.1 hm
    obtain ⟨hlt, -⟩ := List.getElem?_eq_some_iff.1 hm
    have hsame : a.1 = s.lastThreadId := of_decide_eq_true hid
    rw [← hmid, h.ids t m hm, h.last, BitVec.toNat_eq, ofNat_succ_toNat (by omega),
      ofNat_succ_toNat (by omega)] at hsame
    omega
  · rw [WorkPool.appendThread, hidle]
    trivial

theorem PoolOk.addEndpoint (hck : ck.BoundedFifo contents room) (h : PoolOk contents s)
    {id : BitVec 32} {ep : ε} {ret : AResult} (hnew : ep ∉ s.accepted.map Prod.snd)
    (hcall : s.addEndpoint ck id ep = some (ret, s')) : PoolOk contents s' := by
  rcases addEndpoint_cases hcall with rfl | ⟨t, m, hfind, hm, rfl⟩
  · exact h
  · obtain ⟨_, hm', rfl⟩ := h.of_found hfind
    obtain rfl := Option.some.inj (hm.symm.trans hm')
    have hmem := List.mem_of_getElem? hm
    obtain ⟨hok, harrived⟩ := (h.members m hmem).addEndpoint hck
      fun hep => hnew (h.arrived m hmem ep hep)
    split at harrived
    · next hret =>
      rw [if_pos hret]
      refine h.accept hm hok rfl [(m.threadId, ep)] (by rw [harrived]; simp) (fun a ha => ?_) ?_
      · rw [List.mem_singleton.1 ha]
      · rw [List.map_append]
        refine List.nodup_append.2 ⟨h.distinct, List.nodup_singleton _, fun a ha b hb hab => hnew ?_⟩
        have hb : b = ep := List.mem_singleton.1 hb
        exact hb ▸ hab ▸ ha
    · next hret =>
      rw [if_neg hret, List.append_nil]
      exact h.setThread hm hok rfl harrived

omit [DecidableEq ε] in
theorem PoolOk.shutdownStep (h : PoolOk contents s) (hstep : s.shutdownStep = some s') :
    PoolOk contents s' := by
  have hmove : ∀ {s : WorkPool ρ ε} {owner}, PoolOk contents s → OwnerOk s.threads.length owner →
      PoolOk contents { s with owner := owner } := fun h howner =>
    ⟨h.list, h.last, h.ids, h.members, h.arrived, h.known, h.accepted, h.distinct, howner⟩
  rcases shutdownStep_cases hstep with ⟨-, rfl⟩ | ⟨t, m, -, hm, rfl⟩ | ⟨t, m, -, hm, rfl⟩
  · exact hmove h trivial
  · obtain ⟨hlt, -⟩ := List.getElem?_eq_some_iff.1 hm
    refine hmove h ?_
    split
    · exact hlt
    · exact ⟨t + 1, hlt, next_eq_nodeAt h.list hlt⟩
  · obtain ⟨hlt, -⟩ := List.getElem?_eq_some_iff.1 hm
    have hok := h.setThread hm ((h.members m (List.mem_of_getElem? hm)).signal workThreadDead) rfl rfl
    have hlen : (s.setThread t { m with worker :=
        { m.worker with signalDeath := workThreadDead } }).threads.length = s.threads.length :=
      List.length_set
    refine hmove hok ⟨t + 1, hlen.symm ▸ hlt, ?_⟩
    rw [hlen]
    exact next_eq_nodeAt h.list hlt

theorem poolStep_ok (hck : ck.BoundedFifo contents room) (s : WorkPool ρ ε) (i : WorkPoolStep ε)
    (s' : WorkPool ρ ε) (h : PoolOk contents s) (hstep : s.step ck hasPoll i = some s') :
    PoolOk contents s' := by
  cases i with
  | addThread env coreNum list =>
      obtain ⟨hidle, hstep⟩ := Option.ite_none_right_eq_some.1 hstep
      obtain ⟨⟨ret, id, _⟩, hcall, rfl⟩ := Option.map_eq_some_iff.1 hstep
      rcases addThread_cases hcall with rfl | ⟨q, hq, rfl⟩
      · exact h
      · exact h.appendThread hck hq list hidle
  | shutdown =>
      obtain ⟨-, hstep⟩ := Option.ite_none_right_eq_some.1 hstep
      obtain rfl := Option.some.inj hstep
      exact ⟨h.list, h.last, h.ids, h.members, h.arrived, h.known, h.accepted, h.distinct,
        0, Nat.zero_le _, first_eq_nodeAt h.list⟩
  | owner => exact h.shutdownStep hstep
  | addEndpoint id ep =>
      simp only [WorkPool.step] at hstep
      split at hstep
      · cases hstep
      · next hnew =>
        obtain ⟨⟨ret, _⟩, hcall, rfl⟩ := Option.map_eq_some_iff.1 hstep
        exact h.addEndpoint hck hnew hcall
  | thread t env =>
      obtain ⟨m, hm, hstep⟩ := Option.bind_eq_some_iff.1 hstep
      obtain ⟨m', hstep, hs'⟩ := Option.bind_eq_some_iff.1 hstep
      obtain ⟨hok, hid, harrived, -⟩ := (h.members m (List.mem_of_getElem? hm)).step hck hstep
      exact Option.some.inj hs' ▸ h.setThread hm hok hid harrived

end Steps

/-! ## Every run -/

/-- What a pool does for its threads. -/
structure PoolServes [DecidableEq ε] (s : WorkPool ρ ε) : Prop where
  /-- The ids that were given out lead to their threads, no other id leads to any. -/
  found : ∀ id, s.findThreadById id = some
    (if 0 < id.toNat ∧ id.toNat ≤ s.threads.length then some (id.toNat - 1) else none)
  lifecycle : ∀ m ∈ s.threads, Lifecycle m.worker
  /-- A thread starts what was accepted for its id, in that order. -/
  inOrder : ∀ m ∈ s.threads, (m.worker.events.filterMap EndpointEvent.startupOf).Sublist
    ((s.accepted.filter fun a => a.1 = m.threadId).map Prod.snd)
  /-- No endpoint is with two threads. -/
  apart : ∀ (t t' : ℕ) m m', s.threads[t]? = some m → s.threads[t']? = some m' →
    ∀ ep, .startup ep ∈ m.worker.events → .startup ep ∈ m'.worker.events → t = t'

theorem PoolOk.serves [DecidableEq ε] {contents : ρ → List (Option ε)} {s : WorkPool ρ ε}
    (h : PoolOk contents s) (hleft : s.IdsLeft) : PoolServes s := by
  have hinOrder : ∀ m ∈ s.threads, (m.worker.events.filterMap EndpointEvent.startupOf).Sublist
      ((s.accepted.filter fun a => a.1 = m.threadId).map Prod.snd) := by
    intro m hm
    obtain ⟨queued, -, hsub⟩ := (h.members m hm).inOrder
    rw [← h.accepted hleft m hm]
    exact (List.sublist_append_left _ queued).trans hsub
  have haccepted : ∀ m ∈ s.threads, ∀ ep, .startup ep ∈ m.worker.events →
      (m.threadId, ep) ∈ s.accepted := by
    intro m hm ep hep
    have hstarted := (hinOrder m hm).subset (List.mem_filterMap.2 ⟨_, hep, rfl⟩)
    obtain ⟨⟨id, ep'⟩, ha, rfl⟩ := List.mem_map.1 hstarted
    obtain ⟨ha, hid⟩ := List.mem_filter.1 ha
    exact of_decide_eq_true hid ▸ ha
  refine ⟨h.found hleft, fun m hm => (h.members m hm).inv.lifecycle, hinOrder, ?_⟩
  intro t t' m m' hm hm' ep hep hep'
  have ha := haccepted m (List.mem_of_getElem? hm) ep hep
  have ha' := haccepted m' (List.mem_of_getElem? hm') ep hep'
  refine h.id_inj hleft hm hm' ?_
  exact congrArg Prod.fst (List.inj_on_of_nodup_map h.distinct ha ha' rfl)

section Runs

variable [DecidableEq ε] {ck : CkRing ρ ε} {contents : ρ → List (Option ε)} {room : ρ → ℕ}
  {hasPoll : ε → Bool} {s s' : WorkPool ρ ε}

theorem poolOk_of_run (hck : ck.BoundedFifo contents room) {list : ListMem (PoolNode ℕ)}
    {s₀ : WorkPool ρ ε} (hcreate : workPoolCreate true list = (aOk, some s₀)) {run : List (WorkPoolStep ε)}
    (hrun : exec (WorkPool.step ck hasPoll) s₀ run = some s) : PoolOk contents s := by
  simp only [workPoolCreate, Bool.true_eq_false, if_false, Prod.mk.injEq, Option.some.injEq,
    true_and] at hcreate
  refine exec_invariant (poolStep_ok hck) ?_ hrun
  rw [← hcreate]
  exact ⟨isList_listInit _ _, rfl, by simp, by simp, by simp, by simp, by simp, List.nodup_nil, trivial⟩

end Runs

/-- **A pool serves its threads**: in every run of the pool, its work threads and those that add
endpoints, whatever the order of their steps, until 2^32 - 1 threads have been added. -/
theorem poolServes_of_run [DecidableEq ε] {ck : CkRing ρ ε} {contents : ρ → List (Option ε)}
    {room : ρ → ℕ} (hck : ck.BoundedFifo contents room) (hasPoll : ε → Bool)
    {list : ListMem (PoolNode ℕ)} {s₀ s : WorkPool ρ ε}
    (hcreate : workPoolCreate true list = (aOk, some s₀)) (run : List (WorkPoolStep ε))
    (hrun : exec (WorkPool.step ck hasPoll) s₀ run = some s) (hleft : s.threads.length < 2 ^ 32 - 1) :
    PoolServes s :=
  (poolOk_of_run hck hcreate hrun).serves hleft

/-- Every allocation succeeds, on a machine with four CPUs. -/
def newThreadOk : NewThreadEnv where
  calloc := true
  mask := ⟨4, true, true, true, true⟩
  thread := true
  queue := true
  pthreadCreate := true
  joins := true

/-- A thread can be bound to its CPU, and its endpoints poll without failing. -/
def threadOk : ThreadEnv := ⟨aOk, ⟨0, aOk, 0, 0⟩⟩

/-- Two threads are added, between them one that cannot be made, and an endpoint for each; an id that was
    not given out is refused. The second thread is the first to run. -/
def twoThreads : List (WorkPoolStep ℕ) :=
  [.addThread newThreadOk 0 noList, .addThread { newThreadOk with pthreadCreate := false } 0 noList,
    .addThread newThreadOk 1 noList, .addEndpoint 1 4,
    .addEndpoint 2 7, .addEndpoint 3 9] ++
    List.replicate 6 (.thread 1 threadOk) ++ List.replicate 6 (.thread 0 threadOk)

theorem poolServes_of_run_twoThreads : ∃ s₀ s : WorkPool (List (Option ℕ) × ℕ) ℕ,
    workPoolCreate true (fun _ => ⟨.workThreads, .workThreads⟩) = (aOk, some s₀) ∧
      exec (WorkPool.step listRing fun _ => true) s₀ twoThreads = some s ∧
      s.threads.map (fun m => m.worker.events) = [[.startup 4, .poll 4], [.startup 7, .poll 7]] ∧
      PoolServes s := by
  have hrun : ((workPoolCreate true fun _ => ⟨.workThreads, .workThreads⟩).2.bind fun s₀ =>
      (exec (WorkPool.step listRing fun _ => true) s₀ twoThreads).map fun s =>
        s.threads.map fun m => m.worker.events) =
      some [[EndpointEvent.startup 4, .poll 4], [.startup 7, .poll 7]] := by decide +kernel
  obtain ⟨s₀, hcreate, hrun⟩ := Option.bind_eq_some_iff.1 hrun
  obtain ⟨s, hs, hevents⟩ := Option.map_eq_some_iff.1 hrun
  have hlen : s.threads.length = 2 := by
    have := congrArg List.length hevents
    rwa [List.length_map] at this
  have hcreate' : workPoolCreate true (fun _ => ⟨.workThreads, .workThreads⟩) = (aOk, some s₀) := by
    rw [← hcreate]
    rfl
  have hserves : PoolServes s := poolServes_of_run listRing_boundedFifo (fun _ => true) hcreate' twoThreads
    hs (by rw [hlen]; decide)
  exact ⟨s₀, s, hcreate', hs, hevents, hserves⟩

end Tsl
