import Tsl.Offload.System

set_option autoImplicit false

/-! # Shutting a pool down

`work_pool_shutdown` signals the threads that it finds running, one after the other, while they run on
and endpoints are still added. A thread that was running when it was called is at its end, or signalled,
when it returns (`signalled_of_shutdown`), and then comes to its end in a bounded number of its own
steps, all its endpoints shut down; what `work_pool_destroy` meets in it then has finished without a
failure (`ends_of_shutdown`). -/

namespace Tsl

open Lib

variable {ρ ε : Type*}

/-- What the function of the thread has returned, once the thread is at its end. -/
def WrapperPlace.exit : WrapperPlace → Option AResult
  | .exited ret => some ret
  | _ => none

/-- The thread has come to its worker function. -/
def PoolMember.Ran (m : PoolMember ρ ε) : Prop :=
  m.place = .func ∨ m.place = .terminate aOk ∨ m.place = .exited aOk

/-- The worker function has returned, or is to die. -/
def PoolMember.Ending (m : PoolMember ρ ε) : Prop :=
  m.place = .func → m.worker.signalDeath ≠ workThreadAlive

/-- The steps that are left to a thread that is to die. -/
def MemberLeft (contents : ρ → List (Option ε)) (m : PoolMember ρ ε) (n : ℕ) : Prop :=
  match m.place with
  | .func => m.worker.signalDeath ≠ workThreadAlive ∧ ∃ eps queued k,
      WorkerOk contents m.worker eps queued ∧ StepsLeft eps k m.worker.pc ∧ n = k + 2
  | .terminate ret => ret = aOk ∧ n = 1
  | .exited ret => ret = aOk ∧ n = 0
  | _ => False

section Members

variable {ck : CkRing ρ ε} {contents : ρ → List (Option ε)} {room : ρ → ℕ} {m m' : PoolMember ρ ε}
  {n : ℕ}

theorem MemberOk.ran (h : MemberOk contents m) (hrunning : m.state = .running) : m.Ran := by
  have hwrapper := h.wrapper
  unfold WrapperOk at hwrapper
  cases hplace : m.place with
  | apply =>
      rw [hplace] at hwrapper
      cases hwrapper.symm.trans hrunning
  | setRunning =>
      rw [hplace] at hwrapper
      cases hwrapper.symm.trans hrunning
  | func => exact .inl hplace
  | terminate ret =>
      rw [hplace] at hwrapper
      rcases hwrapper with ⟨rfl, -, -⟩ | ⟨-, hidle⟩
      · exact .inr (.inl hplace)
      · cases hidle.symm.trans hrunning
  | exited ret =>
      rw [hplace] at hwrapper
      cases hwrapper.1.symm.trans hrunning

theorem MemberOk.ending (h : MemberOk contents m) (hstate : m.state ≠ .running) : m.Ending := by
  intro hplace
  have hwrapper := h.wrapper
  rw [WrapperOk, hplace] at hwrapper
  exact absurd hwrapper hstate

/-- How many steps are left at most. -/
theorem MemberOk.left (h : MemberOk contents m) (hran : m.Ran) (hending : m.Ending) {eps : List ε}
    (hlist : IsList m.worker.list .head (eps.map .wnode)) :
    ∃ n ≤ 2 * eps.length + 54, MemberLeft contents m n := by
  rcases hran with hplace | hplace | hplace
  · obtain ⟨eps', queued, hok, hpc⟩ := h.inv
    obtain ⟨k, hk⟩ := hpc.stepsLeft
    have heps : eps' = eps := List.map_injective_iff.2 (fun a b hab => WorkNode.wnode.inj hab)
      (IsRing.unique hok.listed hlist)
    subst heps
    have hle := hk.le h.counts
    refine ⟨k + 2, by omega, ?_⟩
    rw [MemberLeft, hplace]
    exact ⟨hending hplace, eps', queued, k, hok, hk, rfl⟩
  · refine ⟨1, by omega, ?_⟩
    rw [MemberLeft, hplace]
    exact ⟨rfl, rfl⟩
  · refine ⟨0, Nat.zero_le _, ?_⟩
    rw [MemberLeft, hplace]
    exact ⟨rfl, rfl⟩

theorem MemberLeft.signal (h : MemberLeft contents m n) :
    MemberLeft contents { m with worker := { m.worker with signalDeath := workThreadDead } } n := by
  unfold MemberLeft at h ⊢
  cases hplace : m.place with
  | func =>
      simp only [hplace] at h ⊢
      obtain ⟨-, eps, queued, k, hok, hk, hn⟩ := h
      exact ⟨by decide, eps, queued, k, ⟨hok.buffer, hok.listed, hok.active, hok.queue, hok.distinct,
        hok.fresh, hok.started, hok.allowed⟩, hk, hn⟩
  | terminate ret => simpa only [hplace] using h
  | exited ret => simpa only [hplace] using h
  | apply => simp only [hplace] at h
  | setRunning => simp only [hplace] at h

variable [DecidableEq ε] {hasPoll : ε → Bool} {env : ThreadEnv}

theorem MemberLeft.addEndpoint (hck : ck.BoundedFifo contents room) (h : MemberLeft contents m n) {ep : ε}
    (hnew : ep ∉ m.worker.arrived) :
    MemberLeft contents { m with worker := (m.worker.addEndpoint ck ep).2 } n := by
  unfold MemberLeft at h ⊢
  cases hplace : m.place with
  | func =>
      simp only [hplace] at h ⊢
      obtain ⟨hdead, eps, queued, k, hok, hk, hn⟩ := h
      have hstep : m.worker.step ck (fun _ => true) (.add ep) = some (m.worker.addEndpoint ck ep).2 := by
        rw [Worker.step, if_neg hnew]
        rfl
      obtain ⟨hpc, queued', hok'⟩ := hok.add hck hnew hstep
      rw [← hpc] at hk
      -- the list is the one it was, so its endpoints are
      exact ⟨hdead, eps, queued', k, hok', hk, hn⟩
  | terminate ret => simpa only [hplace] using h
  | exited ret => simpa only [hplace] using h
  | apply => simp only [hplace] at h
  | setRunning => simp only [hplace] at h

/-- **A step of its own** leaves less. -/
theorem MemberLeft.step (hck : ck.BoundedFifo contents room) (hm : MemberOk contents m)
    (h : MemberLeft contents m n) (hstep : m.step ck hasPoll env = some m') : ∃ n' < n, MemberLeft contents m' n' := by
  unfold MemberLeft at h
  cases PoolMember.moves hstep with
  | refused hplace => simp only [hplace] at h
  | applied hplace => simp only [hplace] at h
  | running hplace => simp only [hplace] at h
  | returned hplace =>
      simp only [hplace] at h
      obtain ⟨-, eps, queued, k, -, -, rfl⟩ := h
      exact ⟨1, by omega, rfl, rfl⟩
  | work hplace hwork =>
      simp only [hplace] at h
      obtain ⟨hdead, eps, queued, k, hok, hk, rfl⟩ := h
      obtain ⟨eps', queued', hok', k', hlt, hk'⟩ := work_left hck hok hk hdead hwork
      refine ⟨k' + 2, by omega, ?_⟩
      simp only [MemberLeft, hplace]
      exact ⟨(work_frame hwork hm.counts).2.1.trans_ne hdead, eps', queued', k', hok', hk', rfl⟩
  | terminated hplace =>
      simp only [hplace] at h
      exact ⟨0, by omega, h.1, rfl⟩

end Members

/-! ## What one step does to a thread -/

section Changes

variable [DecidableEq ε] {ck : CkRing ρ ε} {contents : ρ → List (Option ε)} {room : ρ → ℕ}
  {hasPoll : ε → Bool} {s s' : WorkPool ρ ε} {m : PoolMember ρ ε} {t n : ℕ}

/-- What can happen to a thread in a step: nothing, a step of its own, an endpoint is added to it, or it
    is signalled to die. -/
inductive MemberChange (ck : CkRing ρ ε) (hasPoll : ε → Bool) (m : PoolMember ρ ε) :
    Bool → PoolMember ρ ε → Prop
  | same : MemberChange ck hasPoll m false m
  | step {env : ThreadEnv} {m' : PoolMember ρ ε} (hstep : m.step ck hasPoll env = some m') :
      MemberChange ck hasPoll m true m'
  | add {ep : ε} (hnew : ep ∉ m.worker.arrived) :
      MemberChange ck hasPoll m false { m with worker := (m.worker.addEndpoint ck ep).2 }
  | signal : MemberChange ck hasPoll m false
      { m with worker := { m.worker with signalDeath := workThreadDead } }

/-- The step is one of the thread. -/
def WorkPoolStep.isOf (t : ℕ) : WorkPoolStep ε → Bool
  | .thread u _ => u = t
  | _ => false

omit [DecidableEq ε] in
theorem getElem?_setThread (u : ℕ) (m' : PoolMember ρ ε) (hm : s.threads[t]? = some m) :
    (s.setThread u m').threads[t]? = if u = t then some m' else some m := by
  obtain ⟨hlt, -⟩ := List.getElem?_eq_some_iff.1 hm
  split
  · next heq =>
    subst heq
    exact List.getElem?_set_self hlt
  · next hne => exact (List.getElem?_set_ne hne).trans hm

/-- A change of the thread `u`, seen from the thread `t`. -/
theorem memberChange_setThread {u : ℕ} {mu m' : PoolMember ρ ε} {own : Bool} (hm : s.threads[t]? = some m)
    (hmu : s.threads[u]? = some mu) (hself : u = t → MemberChange ck hasPoll mu own m')
    (hother : u ≠ t → own = false) :
    ∃ m₁, (s.setThread u m').threads[t]? = some m₁ ∧ MemberChange ck hasPoll m own m₁ := by
  have hget := getElem?_setThread u m' hm
  split at hget
  · next heq =>
    subst heq
    obtain rfl := Option.some.inj (hm.symm.trans hmu)
    exact ⟨m', hget, hself rfl⟩
  · next hne => exact ⟨m, hget, hother hne ▸ .same⟩

theorem memberChange_addThread {env : NewThreadEnv} {coreNum : ℕ} {list : ListMem (WorkNode ε)}
    {ret : AResult} {id : BitVec 32} (hm : s.threads[t]? = some m)
    (hcall : s.addThread ck env coreNum list = some (ret, id, s')) : s'.threads[t]? = some m := by
  obtain ⟨hlt, -⟩ := List.getElem?_eq_some_iff.1 hm
  rcases addThread_cases hcall with rfl | ⟨q, -, rfl⟩
  · exact hm
  · exact (List.getElem?_append_left hlt).trans hm

theorem memberChange_owner (hm : s.threads[t]? = some m) (hstep : s.shutdownStep = some s') :
    ∃ m', s'.threads[t]? = some m' ∧ MemberChange ck hasPoll m false m' := by
  rcases shutdownStep_cases hstep with ⟨-, rfl⟩ | ⟨u, mu, -, -, rfl⟩ | ⟨u, mu, -, hmu, rfl⟩
  · exact ⟨m, hm, .same⟩
  · exact ⟨m, hm, .same⟩
  · exact memberChange_setThread hm hmu (fun _ => .signal) fun _ => rfl

theorem memberChange_addEndpoint (h : PoolOk contents s) {id : BitVec 32} {ep : ε} {ret : AResult}
    (hm : s.threads[t]? = some m) (hnew : ep ∉ s.accepted.map Prod.snd)
    (hcall : s.addEndpoint ck id ep = some (ret, s')) :
    ∃ m', s'.threads[t]? = some m' ∧ MemberChange ck hasPoll m false m' := by
  rcases addEndpoint_cases hcall with rfl | ⟨u, mu, -, hmu, rfl⟩
  · exact ⟨m, hm, .same⟩
  · exact memberChange_setThread hm hmu
      (fun _ => .add fun hep => hnew (h.arrived mu (List.mem_of_getElem? hmu) ep hep)) fun _ => rfl

theorem memberChange_thread {u : ℕ} {env : ThreadEnv} {mu mu' : PoolMember ρ ε}
    (hm : s.threads[t]? = some m) (hmu : s.threads[u]? = some mu)
    (hstep : mu.step ck hasPoll env = some mu') :
    ∃ m', (s.setThread u mu').threads[t]? = some m' ∧
      MemberChange ck hasPoll m ((WorkPoolStep.thread u env : WorkPoolStep ε).isOf t) m' := by
  refine memberChange_setThread hm hmu (fun heq => ?_) fun hne => decide_eq_false hne
  rw [WorkPoolStep.isOf, decide_eq_true heq]
  exact .step hstep

/-- **What a step of the machine does to one of its threads.** -/
theorem memberChange_of_step (h : PoolOk contents s)
    {i : WorkPoolStep ε} (hstep : s.step ck hasPoll i = some s') (hm : s.threads[t]? = some m) :
    ∃ m', s'.threads[t]? = some m' ∧ MemberChange ck hasPoll m (i.isOf t) m' := by
  cases i with
  | addThread env coreNum list =>
      obtain ⟨-, hstep⟩ := Option.ite_none_right_eq_some.1 hstep
      obtain ⟨⟨ret, id, _⟩, hcall, rfl⟩ := Option.map_eq_some_iff.1 hstep
      exact ⟨m, memberChange_addThread hm hcall, .same⟩
  | shutdown =>
      obtain ⟨-, hstep⟩ := Option.ite_none_right_eq_some.1 hstep
      obtain rfl := Option.some.inj hstep
      exact ⟨m, hm, .same⟩
  | owner => exact memberChange_owner hm hstep
  | addEndpoint id ep =>
      obtain ⟨hnew, hstep⟩ := Option.ite_none_left_eq_some.1 hstep
      obtain ⟨⟨ret, _⟩, hcall, rfl⟩ := Option.map_eq_some_iff.1 hstep
      exact memberChange_addEndpoint h hm hnew hcall
  | thread u env =>
      obtain ⟨mu, hmu, hstep⟩ := Option.bind_eq_some_iff.1 hstep
      obtain ⟨mu', hmember, hs'⟩ := Option.bind_eq_some_iff.1 hstep
      obtain rfl := Option.some.inj hs'
      exact memberChange_thread hm hmu hmember

section Kept

variable {m' : PoolMember ρ ε} {own : Bool}

/-- A thread that has come to its worker function does not leave it but at its end. -/
theorem MemberChange.ran (h : MemberChange ck hasPoll m own m') (hran : m.Ran) : m'.Ran := by
  cases h with
  | same => exact hran
  | add hnew => exact hran
  | signal => exact hran
  | step hstep =>
      unfold PoolMember.Ran at hran
      cases PoolMember.moves hstep with
      | refused hplace => simp [hplace] at hran
      | applied hplace => simp [hplace] at hran
      | running hplace => exact .inl rfl
      | returned hplace => exact .inr (.inl rfl)
      | work hplace hwork => exact .inl hplace
      | terminated hplace =>
          rw [hplace] at hran
          obtain rfl : _ = aOk := by simpa using hran
          exact .inr (.inr rfl)

theorem MemberChange.ending (h : MemberChange ck hasPoll m own m') (hm : MemberOk contents m)
    (hran : m.Ran) (hending : m.Ending) : m'.Ending := by
  cases h with
  | same => exact hending
  | add hnew => exact hending
  | signal => exact fun _ => show workThreadDead ≠ workThreadAlive by decide
  | step hstep =>
      cases PoolMember.moves hstep with
      | work hplace hwork =>
          exact fun _ => (work_frame hwork hm.counts).2.1.trans_ne (hending hplace)
      | running hplace => simp [PoolMember.Ran, hplace] at hran
      | refused | applied | returned | terminated => exact nofun

/-- What is left to a thread gets less with its own steps, and not more with others. -/
theorem MemberChange.left (hck : ck.BoundedFifo contents room) (h : MemberChange ck hasPoll m own m')
    (hm : MemberOk contents m) (hleft : MemberLeft contents m n) :
    ∃ n', n' + (if own then 1 else 0) ≤ n ∧ MemberLeft contents m' n' := by
  cases h with
  | same => exact ⟨n, Nat.le_refl _, hleft⟩
  | add hnew => exact ⟨n, Nat.le_refl _, hleft.addEndpoint hck hnew⟩
  | signal => exact ⟨n, Nat.le_refl _, hleft.signal⟩
  | step hstep =>
      obtain ⟨n', hlt, hleft'⟩ := hleft.step hck hm hstep
      exact ⟨n', hlt, hleft'⟩

end Kept

theorem memberLeft_of_run (hck : ck.BoundedFifo contents room) {run : List (WorkPoolStep ε)}
    (h : PoolOk contents s) (hrun : exec (WorkPool.step ck hasPoll) s run = some s')
    (hm : s.threads[t]? = some m) (hleft : MemberLeft contents m n) :
    ∃ m' n', s'.threads[t]? = some m' ∧ MemberLeft contents m' n' ∧
      run.countP (·.isOf t) + n' ≤ n := by
  induction run generalizing s m n with
  | nil =>
      simp only [exec_nil, Option.some.injEq] at hrun
      subst hrun
      exact ⟨m, n, hm, hleft, by simp⟩
  | cons i run ih =>
      obtain ⟨u, hu, hrest⟩ := exec_cons_eq_some.1 hrun
      obtain ⟨m₁, hm₁, hchange⟩ := memberChange_of_step h hu hm
      obtain ⟨n₁, hle, hleft₁⟩ := hchange.left hck (h.members m (List.mem_of_getElem? hm)) hleft
      obtain ⟨m', n', hm', hleft', hcount⟩ := ih (poolStep_ok hck s i u h hu) hrest hm₁ hleft₁
      refine ⟨m', n', hm', hleft', ?_⟩
      rw [List.countP_cons]
      omega

/-! ## The walk of the owner -/

/-- The owner has been at the thread `t`. -/
def Reached (t : ℕ) : OwnerPlace → Prop
  | .idle => True
  | .shutdown (.tnode u) => t < u
  | .shutdown .workThreads => True
  | .shutdown _ => False
  | .signal u => t < u

omit [DecidableEq ε] in
theorem reached_nodeAt {n k : ℕ} (ht : t < n) : Reached t (.shutdown (nodeAt n k)) ↔ t < k := by
  unfold nodeAt
  split
  · exact Iff.rfl
  · next hle => exact iff_of_true trivial (by omega)

/-- A thread that was running, and is at its end or signalled once the owner has been at it. -/
def Walked (t : ℕ) (s : WorkPool ρ ε) : Prop :=
  ∃ m, s.threads[t]? = some m ∧ m.Ran ∧ (Reached t s.owner → m.Ending)

omit [DecidableEq ε] in
theorem addEndpoint_owner {id : BitVec 32} {ep : ε} {ret : AResult}
    (hcall : s.addEndpoint ck id ep = some (ret, s')) : s'.owner = s.owner := by
  rcases addEndpoint_cases hcall with rfl | ⟨u, mu, -, -, rfl⟩
  · rfl
  · rfl

theorem addThread_owner {env : NewThreadEnv} {coreNum : ℕ} {list : ListMem (WorkNode ε)} {ret : AResult}
    {id : BitVec 32} (hcall : s.addThread ck env coreNum list = some (ret, id, s')) :
    s'.owner = s.owner := by
  rcases addThread_cases hcall with rfl | ⟨q, -, rfl⟩
  · rfl
  · rfl

omit [DecidableEq ε] in
/-- What the owner has come past by a step in `work_pool_shutdown` it has found not to run, or
    signalled. -/
theorem reached_shutdownStep {m' : PoolMember ρ ε} (h : PoolOk contents s) (hstep : s.shutdownStep = some s')
    (hm : s.threads[t]? = some m) (hm' : s'.threads[t]? = some m') (hreach : Reached t s'.owner) :
    Reached t s.owner ∨ m.state ≠ .running ∨ m'.worker.signalDeath = workThreadDead := by
  obtain ⟨hlt, -⟩ := List.getElem?_eq_some_iff.1 hm
  rcases shutdownStep_cases hstep with ⟨howner, rfl⟩ | ⟨u, mu, howner, hmu, rfl⟩ | ⟨u, mu, howner, hmu, rfl⟩
  · exact .inl (by rw [howner]; trivial)
  · obtain ⟨hu, -⟩ := List.getElem?_eq_some_iff.1 hmu
    rw [howner]
    by_cases hrunning : mu.state = .running
    · simp only [hrunning, if_true] at hreach
      exact .inl hreach
    · simp only [hrunning, if_false, next_eq_nodeAt h.list hu, reached_nodeAt hlt] at hreach
      rcases Nat.lt_succ_iff_lt_or_eq.1 hreach with hlt' | rfl
      · exact .inl hlt'
      · obtain rfl := Option.some.inj (hm.symm.trans hmu)
        exact .inr (.inl hrunning)
  · obtain ⟨hu, -⟩ := List.getElem?_eq_some_iff.1 hmu
    rw [howner]
    simp only [next_eq_nodeAt h.list hu, reached_nodeAt hlt] at hreach
    rcases Nat.lt_succ_iff_lt_or_eq.1 hreach with hlt' | rfl
    · exact .inl hlt'
    · have hsignalled := (getElem?_setThread t
        { mu with worker := { mu.worker with signalDeath := workThreadDead } } hm).symm.trans hm'
      rw [if_pos rfl, Option.some.injEq] at hsignalled
      exact .inr (.inr (hsignalled ▸ rfl))

/-- **One step of the machine**, while the owner walks over the threads or not. -/
theorem walked_step (h : PoolOk contents s) {i : WorkPoolStep ε}
    (hstep : s.step ck hasPoll i = some s') (hw : Walked t s) : Walked t s' := by
  obtain ⟨m, hm, hran, hreached⟩ := hw
  obtain ⟨hlt, -⟩ := List.getElem?_eq_some_iff.1 hm
  have hok := h.members m (List.mem_of_getElem? hm)
  obtain ⟨m', hm', hchange⟩ := memberChange_of_step h hstep hm
  refine ⟨m', hm', hchange.ran hran, fun hreach => ?_⟩
  have hkept : Reached t s.owner → m'.Ending := fun hr => hchange.ending hok hran (hreached hr)
  cases i with
  | addThread env coreNum list =>
      obtain ⟨-, hstep⟩ := Option.ite_none_right_eq_some.1 hstep
      obtain ⟨⟨ret, id, _⟩, hcall, rfl⟩ := Option.map_eq_some_iff.1 hstep
      exact hkept (addThread_owner hcall ▸ hreach)
  | shutdown =>
      obtain ⟨-, hstep⟩ := Option.ite_none_right_eq_some.1 hstep
      obtain rfl := Option.some.inj hstep
      simp only [first_eq_nodeAt h.list, reached_nodeAt hlt, Nat.not_lt_zero] at hreach
  | addEndpoint id ep =>
      simp only [WorkPool.step] at hstep
      split at hstep
      · cases hstep
      · obtain ⟨⟨ret, _⟩, hcall, rfl⟩ := Option.map_eq_some_iff.1 hstep
        exact hkept (addEndpoint_owner hcall ▸ hreach)
  | thread u env =>
      obtain ⟨mu, -, hstep⟩ := Option.bind_eq_some_iff.1 hstep
      obtain ⟨mu', -, hs'⟩ := Option.bind_eq_some_iff.1 hstep
      obtain rfl := Option.some.inj hs'
      exact hkept hreach
  | owner =>
      rcases reached_shutdownStep h hstep hm hm' hreach with hr | hstopped | hdead
      · exact hkept hr
      · exact hchange.ending hok hran (hok.ending hstopped)
      · exact fun _ => hdead.trans_ne (show workThreadDead ≠ workThreadAlive by decide)

/-- **A call of `work_pool_shutdown` that has returned** has every thread that was running at its end, or
signalled to die. -/
theorem signalled_of_shutdown (hck : ck.BoundedFifo contents room) (h : PoolOk contents s)
    {run : List (WorkPoolStep ε)} (hrun : exec (WorkPool.step ck hasPoll) s (.shutdown :: run) = some s')
    (hreturned : s'.owner = .idle) (hm : s.threads[t]? = some m) (hrunning : m.state = .running) :
    ∃ m', s'.threads[t]? = some m' ∧ m'.Ran ∧ m'.Ending := by
  obtain ⟨u, hu, hrest⟩ := exec_cons_eq_some.1 hrun
  have hwalked : Walked t u := by
    obtain ⟨hlt, -⟩ := List.getElem?_eq_some_iff.1 hm
    obtain ⟨-, hu⟩ := Option.ite_none_right_eq_some.1 hu
    obtain rfl := Option.some.inj hu
    refine ⟨m, hm, (h.members m (List.mem_of_getElem? hm)).ran hrunning, fun hreach => ?_⟩
    simp only [first_eq_nodeAt h.list, reached_nodeAt hlt, Nat.not_lt_zero] at hreach
  obtain ⟨-, m', hm', hran, hending⟩ := exec_invariant (I := fun s => PoolOk contents s ∧ Walked t s)
    (fun s i s' hI hstep => ⟨poolStep_ok hck s i s' hI.1 hstep, walked_step hI.1 hstep hI.2⟩)
    ⟨poolStep_ok hck s _ u h hu, hwalked⟩ hrest
  exact ⟨m', hm', hran, hending (by rw [hreturned]; trivial)⟩

/-- A thread that is at its end: its function has returned `A_OK`, and every endpoint that was started has
    been shut down once. -/
structure CleanEnd (m : PoolMember ρ ε) : Prop where
  returned : m.place = .exited aOk
  terminated : m.state = .terminated
  /-- So it is one of those that `work_pool_destroy` should meet. -/
  finished : PoolThread.Finished ⟨m.state, m.place.exit⟩
  stopped : ∀ ep, .startup ep ∈ m.worker.events → m.worker.events.count (.shutdown ep) = 1
  empty : IsList m.worker.list .head []

theorem MemberOk.cleanEnd (hm : MemberOk contents m) (hleft : MemberLeft contents m n) :
    (∀ env, (m.step ck hasPoll env).isSome = true) ∨ CleanEnd m := by
  unfold MemberLeft at hleft
  cases hplace : m.place with
  | func =>
      refine .inl fun env => ?_
      rw [PoolMember.step, hplace]
      simp only
      split
      · rfl
      · next hpc =>
        rw [Option.isSome_map]
        exact work_isSome hm.inv hpc hasPoll env.poll
  | terminate ret =>
      refine .inl fun env => ?_
      rw [PoolMember.step, hplace]
      rfl
  | exited ret =>
      simp only [hplace] at hleft
      obtain ⟨rfl, -⟩ := hleft
      have hwrapper := hm.wrapper
      rw [WrapperOk, hplace] at hwrapper
      obtain ⟨hstate, hreturned⟩ := hwrapper
      obtain ⟨hstopped, hempty⟩ := hm.inv.lifecycle.all_stopped (hreturned rfl)
      refine .inr ⟨hplace, hstate, ⟨?_, aOk, ?_, afailed_aOk⟩, hstopped, hempty⟩
      · exact hstate.trans_ne (by decide)
      · rw [hplace]
        rfl
  | apply => simp only [hplace] at hleft
  | setRunning => simp only [hplace] at hleft

end Changes

/-- **A pool that is shut down comes to its end.** Take any run of a pool up to a call of
`work_pool_shutdown`, any steps of the threads, the owner and others up to its return, and any that
follow. A thread that was running when it was called makes, after the return, at most 54 steps of its
own and two for every endpoint it has on its list then; until it is at its end it can make one; and at
its end its function has returned `A_OK`, and every endpoint that it started has been shut down once. -/
theorem ends_of_shutdown [DecidableEq ε] {ck : CkRing ρ ε} {contents : ρ → List (Option ε)} {room : ρ → ℕ}
    (hck : ck.BoundedFifo contents room) (hasPoll : ε → Bool) {list : ListMem (PoolNode ℕ)}
    {s₀ s s₁ s₂ : WorkPool ρ ε} (hcreate : workPoolCreate true list = (aOk, some s₀))
    (before call after : List (WorkPoolStep ε))
    (hbefore : exec (WorkPool.step ck hasPoll) s₀ before = some s)
    (hcall : exec (WorkPool.step ck hasPoll) s (.shutdown :: call) = some s₁)
    (hreturned : s₁.owner = .idle) (hafter : exec (WorkPool.step ck hasPoll) s₁ after = some s₂)
    {t : ℕ} {m : PoolMember ρ ε} (hm : s.threads[t]? = some m) (hrunning : m.state = .running) :
    ∃ m₁ m₂, ∃ eps : List ε, s₁.threads[t]? = some m₁ ∧ s₂.threads[t]? = some m₂ ∧
      IsList m₁.worker.list .head (eps.map .wnode) ∧ after.countP (·.isOf t) ≤ 2 * eps.length + 54 ∧
      ((∀ env, (m₂.step ck hasPoll env).isSome = true) ∨ CleanEnd m₂) := by
  have hok := poolOk_of_run hck hcreate hbefore
  have hok₁ := exec_invariant (poolStep_ok hck) hok hcall
  have hok₂ := exec_invariant (poolStep_ok hck) hok₁ hafter
  obtain ⟨m₁, hm₁, hran, hending⟩ := signalled_of_shutdown hck hok hcall hreturned hm hrunning
  have hmember := hok₁.members m₁ (List.mem_of_getElem? hm₁)
  obtain ⟨eps, queued, hworker, -⟩ := id hmember.inv
  obtain ⟨n, hn, hleft⟩ := hmember.left hran hending hworker.listed
  obtain ⟨m₂, n₂, hm₂, hleft₂, hcount⟩ := memberLeft_of_run hck hok₁ hafter hm₁ hleft
  exact ⟨m₁, m₂, eps, hm₁, hm₂, hworker.listed, by omega,
    (hok₂.members m₂ (List.mem_of_getElem? hm₂)).cleanEnd hleft₂⟩

/-- A thread with an endpoint, up to its first poll. -/
def oneThread : List (WorkPoolStep ℕ) :=
  [.addThread newThreadOk 0 noList, .addEndpoint 1 4] ++ List.replicate 6 (.thread 0 threadOk)

/-- The call finds it running, signals it, and returns; another endpoint comes meanwhile. -/
def shutdownCall : List (WorkPoolStep ℕ) := [.owner, .addEndpoint 1 7, .owner, .owner]

theorem ends_of_shutdown_oneThread : ∃ s₀ s s₁ s₂ : WorkPool (List (Option ℕ) × ℕ) ℕ, ∃ m₂,
    workPoolCreate true (fun _ => ⟨.workThreads, .workThreads⟩) = (aOk, some s₀) ∧
      exec (WorkPool.step listRing fun _ => true) s₀ oneThread = some s ∧
      exec (WorkPool.step listRing fun _ => true) s (.shutdown :: shutdownCall) = some s₁ ∧
      exec (WorkPool.step listRing fun _ => true) s₁ (List.replicate 6 (.thread 0 threadOk)) = some s₂ ∧
      s₂.threads[0]? = some m₂ ∧ m₂.worker.events = [.startup 4, .poll 4, .shutdown 4] ∧
      CleanEnd m₂ := by
  have hruns : ((workPoolCreate true fun _ => ⟨.workThreads, .workThreads⟩).2.bind fun s₀ =>
      (exec (WorkPool.step listRing fun _ => true) s₀ oneThread).bind fun s =>
        (exec (WorkPool.step listRing fun _ => true) s (.shutdown :: shutdownCall)).bind fun s₁ =>
          if s.threads.map PoolMember.state = [.running] ∧ s₁.owner = .idle then
            (exec (WorkPool.step listRing fun _ => true) s₁
              (List.replicate 6 (.thread 0 threadOk))).map fun s₂ =>
                s₂.threads.map fun m => (m.place, m.worker.events)
          else none) =
      some [(.exited aOk, [EndpointEvent.startup 4, .poll 4, .shutdown 4])] := by
    decide +kernel
  obtain ⟨s₀, hcreate, hruns⟩ := Option.bind_eq_some_iff.1 hruns
  obtain ⟨s, hs, hruns⟩ := Option.bind_eq_some_iff.1 hruns
  obtain ⟨s₁, hs₁, hruns⟩ := Option.bind_eq_some_iff.1 hruns
  obtain ⟨⟨hstates, howner⟩, hruns⟩ := Option.ite_none_right_eq_some.1 hruns
  obtain ⟨s₂, hs₂, hends⟩ := Option.map_eq_some_iff.1 hruns
  obtain ⟨m, hm, hrunning⟩ := List.map_eq_singleton_iff.1 hstates
  obtain ⟨m₂, hm₂, hend⟩ := List.map_eq_singleton_iff.1 hends
  obtain ⟨hplace, hevents⟩ := Prod.mk.inj hend
  have hcreate' : workPoolCreate true (fun _ => ⟨.workThreads, .workThreads⟩) = (aOk, some s₀) := by
    rw [← hcreate]
    rfl
  have hget : s.threads[0]? = some m := by rw [hm]; rfl
  have hget₂ : s₂.threads[0]? = some m₂ := by rw [hm₂]; rfl
  obtain ⟨m₁, m₂', eps, -, hm₂', -, -, hdone⟩ := ends_of_shutdown listRing_boundedFifo (fun _ => true)
    hcreate' oneThread shutdownCall (List.replicate 6 (.thread 0 threadOk)) hs hs₁ howner hs₂ hget hrunning
  obtain rfl := Option.some.inj (hget₂.symm.trans hm₂')
  refine ⟨s₀, s, s₁, s₂, m₂, hcreate', hs, hs₁, hs₂, hget₂, hevents, hdone.resolve_left fun hstep => ?_⟩
  have hsome := hstep threadOk
  rw [PoolMember.step, hplace] at hsome
  cases hsome

end Tsl
