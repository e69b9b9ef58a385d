import Tsl.List
import Tsl.Offload.Shutdown

set_option autoImplicit false

/-! # Destroying a work pool

`work_pool_destroy` of `tsl/offload/pool.c` walks the threads of the pool. It takes each of them off the
list and calls `work_thread_destroy` of `tsl/offload/thread.c`, again and again until that reports no
failure.

`work_thread_destroy` frees a thread that is not running and then reports the result code of the
thread's function; one that is running it leaves alone, and reports no failure. So the walk is right
exactly for the threads that have ended without a failure (`poolDestroyed_iff`): a running one is taken
off the list and left, and the second attempt for a failed one goes through the `NULL` that the first
has left.

An access to memory that is not there, or not there any more, answers `none`. What is released of the
queue and the endpoints of a thread is left out. -/

namespace Tsl

open Lib

variable {θ : Type*}

/-! ## The code -/

/-- The list entries of a pool: `work_threads` and the `tnode` of every thread. -/
inductive PoolNode (θ : Type*)
  | workThreads
  | tnode (thread : θ)
  | poisonNext
  | poisonPrev
deriving DecidableEq

instance : ListPtr (PoolNode θ) := ⟨.poisonNext, .poisonPrev⟩

/-- What `work_pool_destroy` meets in a thread: its state, and what `pthread_join` answers for it, the
    result code of its function unless it fails. -/
structure PoolThread where
  state : ThreadState
  exit : Option AResult

/-- What happens to a thread: it is taken off the list, it is joined, its `struct thread` is freed, and
    its `struct work_thread` is. -/
inductive PoolEvent (θ : Type*)
  | unlink (thread : θ)
  | join (thread : θ)
  | destroy (thread : θ)
  | free (thread : θ)
deriving DecidableEq

/-- The list entries and what has happened. -/
structure PoolReap (θ : Type*) where
  list : ListMem (PoolNode θ)
  events : List (PoolEvent θ)

/-- `thread_join`: the result code, `*result`, which holds `result` before the call, and the state. -/
def threadJoin (thread : PoolThread) (result : AResult) : AResult × AResult × ThreadState :=
  match thread.exit with
  | none => (aENothread, result, thread.state)
  | some res => (aOk, res, .idle)

/-- `thread_destroy`, which frees the thread where it returns `A_OK`. -/
def threadDestroy (state : ThreadState) : AResult := if state ≠ .idle then aEBusy else aOk

namespace PoolReap

variable [DecidableEq θ]

/-- The entry can be accessed. -/
def live (s : PoolReap θ) : PoolNode θ → Bool
  | .workThreads => true
  | .tnode thread => .free thread ∉ s.events
  | _ => false

/-- `next` of an entry. -/
def next (s : PoolReap θ) (entry : PoolNode θ) : Option (PoolNode θ) :=
  if s.live entry then some (s.list entry).next else none

/-- `list_del(&thread->tnode)`. -/
def unlink (s : PoolReap θ) (thread : θ) : Option (PoolReap θ) :=
  let del := PoolNode.tnode thread
  if s.live del ∧ s.live (s.list del).prev ∧ s.live (s.list del).next then
    some { list := listDel s.list del, events := s.events ++ [.unlink thread] }
  else none

end PoolReap

section Code

variable [DecidableEq θ]

/-- `work_thread_destroy`: the result code and `*thread`. -/
def workThreadDestroy (threads : θ → PoolThread) (s : PoolReap θ) (thread : Option θ) :
    Option (AResult × Option θ × PoolReap θ) :=
  match thread with
  | none => some (aEBadargs, none, s)
  | some pthread =>
      if s.live (.tnode pthread) then
        let (ret, val) := threadRunning (threads pthread).state
        if afailed ret ∨ val ≠ 0 then some (ret, some pthread, s)
        else
          let (ret, threadRet, state) := threadJoin (threads pthread) aOk
          let events := s.events ++ if ret = aOk then [.join pthread] else []
          let events := events ++ if threadDestroy state = aOk then [.destroy pthread] else []
          some (threadRet, none, { s with events := events ++ [.free pthread] })
      else none

/-- The attempts of `work_pool_destroy` at one thread, of which `attempts` are left: whether one was a
    success, and `thread`. -/
def destroyAttempts (threads : θ → PoolThread) :
    ℕ → PoolReap θ → Option θ → Option (Bool × Option θ × PoolReap θ)
  | 0, s, thread => some (false, thread, s)
  | attempts + 1, s, thread => do
      let s ← s.unlink (← thread)
      let (ret, thread, s) ← workThreadDestroy threads s thread
      if afailed ret = false then some (true, thread, s) else destroyAttempts threads attempts s thread

/-- The walk of `work_pool_destroy`, at the cursor `thread`, `temp`. -/
def workPoolReap (threads : θ → PoolThread) :
    ℕ → PoolReap θ → PoolNode θ → PoolNode θ → Option (PoolReap θ)
  | 0, _, _, _ => none
  | fuel + 1, s, thread, temp =>
      match thread with
      | .workThreads => some s
      | .tnode thread => do
          let (success, thread, s) ← destroyAttempts threads 100000 s (some thread)
          if success = false then
            -- `DIAG` prints `thread->thread_id`
            let _ ← s.next (.tnode (← thread))
          let next ← s.next temp
          workPoolReap threads fuel s temp next
      | _ => none

/-- `work_pool_destroy`. -/
def workPoolDestroy (threads : θ → PoolThread) (fuel : ℕ) (list : ListMem (PoolNode θ)) :
    Option (AResult × PoolReap θ) := do
  let s : PoolReap θ := { list := list, events := [] }
  let thread ← s.next .workThreads
  let temp ← s.next thread
  let s ← workPoolReap threads fuel s thread temp
  some (aOk, s)

end Code

/-! ## What an attempt does -/

/-- The function of the thread has ended with a failure. -/
def PoolThread.Failed (p : PoolThread) : Prop :=
  p.state ≠ .running ∧ ∃ res ∈ p.exit, afailed res = true

/-- The function of the thread has ended without one, and the thread can be joined. -/
def PoolThread.Finished (p : PoolThread) : Prop :=
  p.state ≠ .running ∧ ∃ res ∈ p.exit, afailed res = false

/-- What happens to a thread that has not failed. -/
def PoolThread.reaped (p : PoolThread) (thread : θ) : List (PoolEvent θ) :=
  if p.state = .running then [.unlink thread]
  else
    let joined := if p.exit.isSome then [.join thread] else []
    let destroyed := if p.exit.isSome ∨ p.state = .idle then [.destroy thread] else []
    .unlink thread :: (joined ++ destroyed ++ [.free thread])

/-- The thread that an event is about. -/
def PoolEvent.thread : PoolEvent θ → θ
  | .unlink thread | .join thread | .destroy thread | .free thread => thread

theorem thread_of_mem_reaped {p : PoolThread} {t : θ} {e : PoolEvent θ} (he : e ∈ p.reaped t) :
    e.thread = t := by
  unfold PoolThread.reaped at he
  split at he
  · rw [List.mem_singleton.1 he]
    rfl
  · simp only [List.mem_cons, List.mem_append, List.not_mem_nil, or_false] at he
    rcases he with rfl | (he | he) | rfl
    · rfl
    · split at he
      · rw [List.mem_singleton.1 he]
        rfl
      · cases he
    · split at he
      · rw [List.mem_singleton.1 he]
        rfl
      · cases he
    · rfl

theorem PoolThread.singleton_append_tail_reaped (p : PoolThread) (t : θ) :
    [PoolEvent.unlink t] ++ (p.reaped t).tail = p.reaped t := by
  unfold PoolThread.reaped
  split <;> rfl

/-- A thread is joined and freed if it has ended without a failure. -/
theorem PoolThread.mem_reaped_of_finished {p : PoolThread} (h : p.Finished) (t : θ) :
    .join t ∈ p.reaped t ∧ .destroy t ∈ p.reaped t ∧ .free t ∈ p.reaped t := by
  obtain ⟨hstate, res, hexit, -⟩ := h
  have hsome : p.exit.isSome = true := Option.isSome_of_mem hexit
  simp [PoolThread.reaped, hstate, hsome]

theorem PoolThread.of_join_mem_reaped {p : PoolThread} {t : θ} (h : .join t ∈ p.reaped t) :
    p.state ≠ .running ∧ p.exit.isSome = true := by
  unfold PoolThread.reaped at h
  split at h
  · simp at h
  · next hstate =>
    refine ⟨hstate, ?_⟩
    by_contra hnone
    rw [if_neg hnone] at h
    split at h <;> simp at h

section Attempts

variable [DecidableEq θ] (threads : θ → PoolThread) {s s' : PoolReap θ} {t : θ}

theorem workThreadDestroy_eq (hlive : s.live (.tnode t)) :
    workThreadDestroy threads s (some t) = some (
      if (threads t).state = .running then (aOk, some t, s)
      else ((threads t).exit.getD aOk, none,
        { s with events := s.events ++ ((threads t).reaped t).tail })) := by
  simp only [workThreadDestroy, if_pos hlive, threadRunning, afailed_aOk, Bool.false_eq_true, false_or]
  by_cases hstate : (threads t).state = .running
  · simp [hstate]
  · have hnothread : aENothread ≠ aOk := aresultError_ne_aOk _ _
    have hbusy : aEBusy ≠ aOk := aresultError_ne_aOk _ _
    cases hexit : (threads t).exit with
    | none =>
        by_cases hidle : (threads t).state = .idle
        · simp [threadJoin, threadDestroy, PoolThread.reaped, hexit, hnothread, hidle]
        · simp [hstate, threadJoin, threadDestroy, PoolThread.reaped, hexit, hnothread, hidle, hbusy]
    | some res => simp [hstate, threadJoin, threadDestroy, PoolThread.reaped, hexit]

/-- The attempts at a thread: the first one is a success, or its failure has left `NULL` to the
    second. -/
theorem destroyAttempts_eq (hunlink : s.unlink t = some s') (hlive : s'.live (.tnode t)) (n : ℕ) :
    ((threads t).Failed → destroyAttempts threads (n + 2) s (some t) = none) ∧
      (¬ (threads t).Failed → ∃ thread, destroyAttempts threads (n + 2) s (some t) =
        some (true, thread, { s' with events := s'.events ++ ((threads t).reaped t).tail })) := by
  simp only [destroyAttempts, Option.bind_eq_bind, Option.bind_some, hunlink,
    workThreadDestroy_eq threads hlive]
  by_cases hstate : (threads t).state = .running
  · refine ⟨fun h => absurd hstate h.1, fun _ => ⟨some t, ?_⟩⟩
    simp [hstate, PoolThread.reaped]
  · rw [if_neg hstate]
    cases hexit : (threads t).exit with
    | none =>
        refine ⟨fun h => ?_, fun _ => ⟨none, by simp⟩⟩
        obtain ⟨-, res, hres, -⟩ := h
        rw [hexit] at hres
        cases hres
    | some res =>
        cases hfailed : afailed res with
        | true =>
            refine ⟨fun _ => by simp [hfailed], fun h => absurd ⟨hstate, res, hexit, hfailed⟩ h⟩
        | false =>
            refine ⟨fun h => ?_, fun _ => ⟨none, by simp [hfailed]⟩⟩
            obtain ⟨-, res', hres', hfailed'⟩ := h
            obtain rfl : res = res' := Option.some.inj (hexit.symm.trans hres')
            rw [hfailed] at hfailed'
            cases hfailed'

end Attempts

/-! ## What the walk does -/

section Walk

variable [DecidableEq θ] (threads : θ → PoolThread) {s : PoolReap θ} {t : θ} {ts : List θ}

omit [DecidableEq θ] in
theorem nodup_of_isList {list : ListMem (PoolNode θ)}
    (hlist : IsList list .workThreads (ts.map .tnode)) : ts.Nodup :=
  List.Nodup.of_map _ (List.nodup_cons.1 hlist.nodup).2

theorem live_headD (hlive : ∀ u ∈ ts, .free u ∉ s.events) :
    s.live ((ts.map .tnode).headD .workThreads) = true := by
  cases ts with
  | nil => rfl
  | cons u us => simp [PoolReap.live, hlive u List.mem_cons_self]

theorem next_headD (hlive : ∀ u ∈ ts, .free u ∉ s.events) :
    s.next ((ts.map .tnode).headD .workThreads) =
      some (s.list ((ts.map .tnode).headD .workThreads)).next :=
  if_pos (live_headD hlive)

theorem unlink_first (hlist : IsList s.list .workThreads ((t :: ts).map .tnode))
    (hlive : ∀ u ∈ t :: ts, .free u ∉ s.events) :
    s.unlink t =
      some { list := listDel s.list (.tnode t), events := s.events ++ [.unlink t] } := by
  have hprev : (s.list (.tnode t)).prev = .workThreads := hlist.next_first.2
  have hnext : (s.list (.tnode t)).next = (ts.map .tnode).headD .workThreads :=
    IsList.next_of_first hlist
  have htemp : s.live ((ts.map .tnode).headD .workThreads) = true :=
    live_headD fun u hu => hlive u (List.mem_cons_of_mem _ hu)
  have hthread : s.live (.tnode t) = true := by simp [PoolReap.live, hlive t List.mem_cons_self]
  have hhead : s.live .workThreads = true := rfl
  simp only [PoolReap.unlink, hprev, hnext]
  exact if_pos ⟨hthread, hhead, htemp⟩

theorem workPoolReap_turn (hlist : IsList s.list .workThreads ((t :: ts).map .tnode))
    (hlive : ∀ u ∈ t :: ts, .free u ∉ s.events) (fuel : ℕ) :
    ((threads t).Failed → workPoolReap threads (fuel + 1) s (.tnode t)
        (s.list (.tnode t)).next = none) ∧
      (¬ (threads t).Failed → ∃ s', workPoolReap threads (fuel + 1) s (.tnode t)
            (s.list (.tnode t)).next =
          workPoolReap threads fuel s' (s'.list .workThreads).next
            (s'.list (s'.list .workThreads).next).next ∧
        IsList s'.list .workThreads (ts.map .tnode) ∧
        s'.events = s.events ++ (threads t).reaped t ∧ ∀ u ∈ ts, .free u ∉ s'.events) := by
  have htemp : (s.list (.tnode t)).next = (ts.map .tnode).headD .workThreads :=
    IsList.next_of_first hlist
  have hthere : PoolReap.live
      { list := listDel s.list (.tnode t), events := s.events ++ [.unlink t] } (.tnode t) = true := by
    simp [PoolReap.live, hlive t List.mem_cons_self]
  obtain ⟨hfailed, hdone⟩ := destroyAttempts_eq threads (unlink_first hlist hlive) hthere 99998
  rw [htemp]
  simp only [workPoolReap, Option.bind_eq_bind]
  refine ⟨fun hfail => by rw [hfailed hfail]; rfl, fun hfail => ?_⟩
  obtain ⟨thread, hattempts⟩ := hdone hfail
  set s' : PoolReap θ :=
    { list := listDel s.list (.tnode t)
      events := s.events ++ [.unlink t] ++ ((threads t).reaped t).tail } with hs'
  have hevents : s'.events = s.events ++ (threads t).reaped t := by
    simp only [hs', List.append_assoc, PoolThread.singleton_append_tail_reaped]
  have hlist' : IsList s'.list .workThreads (ts.map .tnode) := isList_listDel_first hlist
  have hlive' : ∀ u ∈ ts, .free u ∉ s'.events := by
    intro u hu hmem
    rw [hevents, List.mem_append] at hmem
    rcases hmem with hmem | hmem
    · exact hlive u (List.mem_cons_of_mem _ hu) hmem
    · obtain rfl : u = t := thread_of_mem_reaped hmem
      exact (List.nodup_cons.1 (nodup_of_isList hlist)).1 hu
  have hnext : (s'.list .workThreads).next = (ts.map .tnode).headD .workThreads :=
    IsRing.next_eq_headD hlist'
  refine ⟨s', ?_, hlist', hevents, hlive'⟩
  rw [hattempts, hnext]
  simp only [Option.bind_some, Bool.true_eq_false, if_false, next_headD hlive']

/-- **The walk** over the threads `ts`, which stops at the first one that has failed. -/
theorem workPoolReap_spec {fuel : ℕ} (hlist : IsList s.list .workThreads (ts.map .tnode))
    (hlive : ∀ u ∈ ts, .free u ∉ s.events) (hfuel : ts.length < fuel) :
    ((∃ u ∈ ts, (threads u).Failed) →
        workPoolReap threads fuel s (s.list .workThreads).next
          (s.list (s.list .workThreads).next).next = none) ∧
      ((∀ u ∈ ts, ¬ (threads u).Failed) →
        ∃ s', workPoolReap threads fuel s (s.list .workThreads).next
            (s.list (s.list .workThreads).next).next = some s' ∧
          s'.events = s.events ++ ts.flatMap fun u => (threads u).reaped u) := by
  induction ts generalizing s fuel with
  | nil =>
      obtain ⟨fuel, rfl⟩ := Nat.exists_eq_add_of_lt hfuel
      have hnext : (s.list .workThreads).next = .workThreads := IsRing.next_eq_headD hlist
      refine ⟨fun ⟨u, hu, _⟩ => absurd hu List.not_mem_nil, fun _ => ⟨s, ?_, by simp⟩⟩
      rw [hnext]
      rfl
  | cons t ts ih =>
      cases fuel with
      | zero => cases hfuel
      | succ fuel =>
          have hthread : (s.list .workThreads).next = .tnode t := IsRing.next_eq_headD hlist
          obtain ⟨hfailed, hturn⟩ := workPoolReap_turn threads hlist hlive fuel
          rw [hthread]
          by_cases hfail : (threads t).Failed
          · exact ⟨fun _ => hfailed hfail, fun h => absurd hfail (h t List.mem_cons_self)⟩
          · obtain ⟨s', hreap, hlist', hevents, hlive'⟩ := hturn hfail
            obtain ⟨hsome, hnone⟩ := ih hlist' hlive' (Nat.lt_of_succ_lt_succ hfuel)
            rw [hreap]
            refine ⟨fun ⟨u, hu, hfails⟩ => hsome ⟨u, ?_, hfails⟩, fun h => ?_⟩
            · exact (List.mem_cons.1 hu).resolve_left fun heq => hfail (heq ▸ hfails)
            · obtain ⟨s'', hrest, hreaped⟩ := hnone fun u hu => h u (List.mem_cons_of_mem _ hu)
              refine ⟨s'', hrest, ?_⟩
              rw [hreaped, hevents, List.flatMap_cons, List.append_assoc]

theorem workPoolDestroy_spec {fuel : ℕ} {list : ListMem (PoolNode θ)}
    (hlist : IsList list .workThreads (ts.map .tnode)) (hfuel : ts.length < fuel) :
    ((∃ u ∈ ts, (threads u).Failed) → workPoolDestroy threads fuel list = none) ∧
      ((∀ u ∈ ts, ¬ (threads u).Failed) →
        ∃ s, workPoolDestroy threads fuel list = some (aOk, s) ∧
          s.events = ts.flatMap fun u => (threads u).reaped u) := by
  have hlive : ∀ u ∈ ts, .free u ∉ (PoolReap.mk list []).events := fun _ _ hmem => by cases hmem
  have hfirst : (list .workThreads).next = (ts.map .tnode).headD .workThreads :=
    IsRing.next_eq_headD hlist
  have hhead : (PoolReap.mk list []).next .workThreads = some (list .workThreads).next := rfl
  have htemp : (PoolReap.mk list []).next (list .workThreads).next =
      some (list (list .workThreads).next).next := by
    rw [hfirst]
    exact next_headD hlive
  obtain ⟨hfailed, hdone⟩ := workPoolReap_spec threads (s := ⟨list, []⟩) hlist hlive hfuel
  simp only [workPoolDestroy, Option.bind_eq_bind, hhead, htemp, Option.bind_some]
  refine ⟨fun h => by rw [hfailed h]; rfl, fun h => ?_⟩
  obtain ⟨s, hreap, hevents⟩ := hdone h
  rw [hreap]
  exact ⟨s, rfl, hevents⟩

end Walk

/-! ## Destroying the pool -/

section Pools

variable [DecidableEq θ]

/-- The call returns; it has taken every thread off the list once, and if it returns `A_OK` it has
    joined and freed them. -/
structure PoolDestroyed (ts : List θ) (ret : AResult) (s : PoolReap θ) : Prop where
  unlinked : ∀ t ∈ ts, s.events.count (.unlink t) = 1
  reaped : ret = aOk → ∀ t ∈ ts,
    .join t ∈ s.events ∧ .destroy t ∈ s.events ∧ .free t ∈ s.events

theorem PoolThread.count_unlink_reaped (p : PoolThread) (t u : θ) :
    (p.reaped u).count (.unlink t) = if u = t then 1 else 0 := by
  rw [← p.singleton_append_tail_reaped u, List.singleton_append, List.count_cons]
  have htail : (p.reaped u).tail.count (.unlink t) = 0 := by
    refine List.count_eq_zero.2 fun hmem => ?_
    unfold PoolThread.reaped at hmem
    split at hmem
    · cases hmem
    · simp only [List.tail_cons, List.mem_append, List.mem_singleton, reduceCtorEq, or_false] at hmem
      rcases hmem with hmem | hmem <;> split at hmem <;> simp at hmem
  rw [htail, Nat.zero_add]
  simp

theorem count_unlink_flatMap (threads : θ → PoolThread) (ts : List θ) (t : θ) :
    (ts.flatMap fun u => (threads u).reaped u).count (.unlink t) = ts.count t := by
  induction ts with
  | nil => rfl
  | cons u us ih =>
      rw [List.flatMap_cons, List.count_append, ih, PoolThread.count_unlink_reaped, List.count_cons,
        Nat.add_comm]
      simp

/-- **A pool is destroyed as it should be** exactly if the functions of all its threads have ended
without a failure. -/
theorem poolDestroyed_iff (threads : θ → PoolThread) {ts : List θ} {list : ListMem (PoolNode θ)}
    (hlist : IsList list .workThreads (ts.map .tnode)) {fuel : ℕ} (hfuel : ts.length < fuel) :
    (∃ ret s, workPoolDestroy threads fuel list = some (ret, s) ∧ PoolDestroyed ts ret s) ↔
      ∀ t ∈ ts, (threads t).Finished := by
  obtain ⟨hfailed, hdone⟩ := workPoolDestroy_spec threads hlist hfuel
  constructor
  · rintro ⟨ret, s, hcall, hdestroyed⟩ t ht
    have hnone : ∀ u ∈ ts, ¬ (threads u).Failed := by
      intro u hu hfail
      rw [hfailed ⟨u, hu, hfail⟩] at hcall
      cases hcall
    obtain ⟨s', hcall', hevents⟩ := hdone hnone
    obtain ⟨rfl, rfl⟩ := Prod.mk.inj (Option.some.inj (hcall'.symm.trans hcall))
    have hjoin := (hdestroyed.reaped rfl t ht).1
    rw [hevents, List.mem_flatMap] at hjoin
    obtain ⟨u, hu, hmem⟩ := hjoin
    obtain rfl : t = u := thread_of_mem_reaped hmem
    obtain ⟨hstate, hsome⟩ := PoolThread.of_join_mem_reaped hmem
    obtain ⟨res, hres⟩ := Option.isSome_iff_exists.1 hsome
    refine ⟨hstate, res, hres, ?_⟩
    by_contra hfail
    exact hnone t ht ⟨hstate, res, hres, Bool.not_eq_false _ ▸ hfail⟩
  · intro hfinished
    have hnone : ∀ u ∈ ts, ¬ (threads u).Failed := by
      rintro u hu ⟨-, res, hres, hfail⟩
      obtain ⟨-, res', hres', hok⟩ := hfinished u hu
      obtain rfl : res = res' := Option.mem_unique hres hres'
      rw [hok] at hfail
      cases hfail
    obtain ⟨s, hcall, hevents⟩ := hdone hnone
    refine ⟨aOk, s, hcall, fun t ht => ?_, fun _ t ht => ?_⟩
    · rw [hevents, count_unlink_flatMap]
      exact List.count_eq_one_of_mem (nodup_of_isList hlist) ht
    · obtain ⟨hjoin, hdestroy, hfree⟩ := PoolThread.mem_reaped_of_finished (hfinished t ht) t
      rw [hevents]
      exact ⟨List.mem_flatMap.2 ⟨t, ht, hjoin⟩, List.mem_flatMap.2 ⟨t, ht, hdestroy⟩,
        List.mem_flatMap.2 ⟨t, ht, hfree⟩⟩

end Pools

/-- The list of a pool with the threads `ts`. -/
def poolOf (ts : List ℕ) : ListMem (PoolNode ℕ) :=
  ts.foldl (fun list t => listAppend list .workThreads (.tnode t))
    (listInit (fun a => ⟨a, a⟩) .workThreads)

/-- Two threads that have ended, one with a code that is no failure. -/
theorem poolDestroyed_iff_twoThreads :
    (∃ ret s, workPoolDestroy (fun t => ⟨.terminated, some (BitVec.ofNat 32 t)⟩) 3 (poolOf [0, 7]) =
        some (ret, s) ∧ PoolDestroyed [0, 7] ret s) ↔
      ∀ t ∈ [0, 7], PoolThread.Finished ⟨.terminated, some (BitVec.ofNat 32 t)⟩ := by
  have hnone := isList_listInit (fun a : PoolNode ℕ => ⟨a, a⟩) .workThreads
  have hone := isList_listAppend hnone (show PoolNode.tnode 0 ∉ [.workThreads] by simp)
  have htwo := isList_listAppend hone (show PoolNode.tnode 7 ∉ [.workThreads, .tnode 0] by simp)
  exact poolDestroyed_iff _ htwo (by simp)

/-- A thread that still runs is taken off the list, and the call returns `A_OK`. The attempts at a
    thread that could not apply its affinity mask end at `NULL`. -/
theorem workPoolDestroy_leaks_and_faults :
    (¬ ∃ ret s, workPoolDestroy (fun _ => ⟨.running, some aOk⟩) 2 (poolOf [0]) = some (ret, s) ∧
        PoolDestroyed [0] ret s) ∧
      ¬ ∃ ret s, workPoolDestroy (fun _ => ⟨.terminated, some aEInval⟩) 2 (poolOf [0]) = some (ret, s) ∧
        PoolDestroyed [0] ret s := by
  have hrunning : (workPoolDestroy (fun _ => ⟨.running, some aOk⟩) 2 (poolOf [0])).map
      (fun r => (r.1, r.2.events)) = some (aOk, [.unlink 0]) := by decide +kernel
  have hfailed : (workPoolDestroy (fun _ => ⟨.terminated, some aEInval⟩) 2 (poolOf [0])).isNone := by
    decide +kernel
  constructor
  · rintro ⟨ret, s, hcall, hdestroyed⟩
    rw [hcall, Option.map_some, Option.some.injEq, Prod.mk.injEq] at hrunning
    have hjoin := (hdestroyed.reaped hrunning.1 0 List.mem_cons_self).1
    rw [hrunning.2] at hjoin
    simp at hjoin
  · rintro ⟨ret, s, hcall, -⟩
    rw [hcall] at hfailed
    cases hfailed

end Tsl
