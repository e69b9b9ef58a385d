import Tsl.FixedHeap
import Tsl.List

set_option autoImplicit false

/-! # Timers

`tsl/timer.h` and `timer.c`: a timer manager keeps the armed timers in a fixed heap, earliest
deadline first, and in an intrusive list. `timer_manager_fire_next` fires at most one of them.

A timer is named by `ν`. The compare callback of the heap reads the deadlines from memory, so the
world of the heap is the function from timers to deadlines. The clock is an argument of every
function that reads it. What a timer's fire callback does is a parameter: any change of the state it
is called in. -/

namespace Tsl

open Lib

variable {ν : Type}

/-- The addresses a list entry of a timer manager can hold. -/
inductive TimerPtr (ν : Type) where
  /-- `&mgr->live_timers`. -/
  | liveTimers
  /-- `&tmr->tnode`. -/
  | tnode (tmr : ν)
  /-- A constant that is no entry's address. -/
  | raw (v : ℕ)
deriving DecidableEq

instance : ListPtr (TimerPtr ν) where
  poisonNext := .raw 0xc1c1c1c1
  poisonPrev := .raw 0x81818181

/-- `tmr->next_firing` of every timer. -/
abbrev Deadlines (ν : Type) := ν → BitVec 64

/-- A timer manager and the timers. -/
structure TimerState (ν : Type) where
  armedTimers : FixedHeap (Deadlines ν) (Option ν)
  nextFiring : Deadlines ν
  entries : ListMem (TimerPtr ν)

/-- The value `__timer_manager_sort_timers` returns for two deadlines: the 64-bit difference,
    narrowed to an `int`. -/
def sortDeadlines (lhs rhs : BitVec 64) : ℤ := ((rhs - lhs).setWidth 32).toInt

/-- `__timer_manager_sort_timers`. The heap never compares a `NULL`. -/
def timerManagerSortTimers : HeapCompare (Deadlines ν) (Option ν) := fun nextFiring lhs rhs =>
  match lhs, rhs with
  | some lhs, some rhs => (sortDeadlines (nextFiring lhs) (nextFiring rhs), nextFiring)
  | _, _ => (0, nextFiring)

section Code

variable [DecidableEq ν]

/-- `timer_manager_new`; `calloc` says whether the manager and its heap can be allocated. What the
    timers themselves hold is not its business. -/
def timerManagerNew (maxTimers : ℕ) (calloc : Bool × Bool) (nextFiring : Deadlines ν)
    (entries : ListMem (TimerPtr ν)) : AResult × Option (TimerState ν) :=
  if ¬ 0 < maxTimers then (aEBadargs, none)
  else if calloc.1 = false then (aENomem, none)
  else
    match fixedHeapNew maxTimers timerManagerSortTimers calloc.2 with
    | (_, none) => (aENomem, none)
    | (_, some heap) =>
        (aOk, some { armedTimers := heap, nextFiring := nextFiring,
                     entries := listInit entries .liveTimers })

/-- `__timer_manager_add_timer`. -/
def timerManagerAddTimer (s : TimerState ν) (tmr : ν) : Option (AResult × TimerState ν) := do
  let entries := listAppend s.entries .liveTimers (.tnode tmr)
  let (ret, heap, nextFiring) ← fixedHeapPush s.armedTimers s.nextFiring (some tmr)
  let s := { armedTimers := heap, nextFiring := nextFiring, entries := entries }
  some (if afailed ret then aEInval else aOk, s)

/-- `timer_arm` at the clock reading `now`. -/
def timerArm (s : TimerState ν) (tmr : ν) (now usecs : BitVec 64) :
    Option (AResult × TimerState ν) :=
  timerManagerAddTimer
    { s with nextFiring := Function.update s.nextFiring tmr (now + usecs * 1000) } tmr

/-- `timer_arm_at`. -/
def timerArmAt (s : TimerState ν) (tmr : ν) (deadline : BitVec 64) :
    Option (AResult × TimerState ν) :=
  timerManagerAddTimer { s with nextFiring := Function.update s.nextFiring tmr deadline } tmr

/-- `timer_manager_fire_next` at the clock reading `now`: the result code, `*pnext`, and the timer
    whose `fire` was called, if any. Reading a timer through `NULL` does not happen: `none`. -/
def timerManagerFireNext (s : TimerState ν) (now : BitVec 64)
    (fire : ν → TimerState ν → Option (TimerState ν)) :
    Option (AResult × BitVec 64 × Option ν × TimerState ν) := do
  let (ret, tmr) ← fixedHeapPeekHead s.armedTimers none
  if afailed ret then
    some (if ret = aEEmpty then aOk else ret, 0, none, s)
  else do
    let first ← tmr
    if now ≥ s.nextFiring first then do
      let (ret, tmr, heap, nextFiring) ← fixedHeapPop s.armedTimers s.nextFiring tmr
      let s := { s with armedTimers := heap, nextFiring := nextFiring }
      if afailed ret then
        some (ret, 0, none, s)
      else do
        let expired ← tmr
        let s := { s with entries := listDel s.entries (.tnode expired) }
        let s ← fire expired s
        let (ret, tmr) ← fixedHeapPeekHead s.armedTimers tmr
        if afailed ret then
          some (ret, 0, some expired, s)
        else do
          let next ← tmr
          some (ret, s.nextFiring next, some expired, s)
    else
      some (ret, s.nextFiring first, none, s)

theorem timerManagerAddTimer_eq {s : TimerState ν} {tmr : ν} {ret : AResult}
    {heap : FixedHeap (Deadlines ν) (Option ν)} {nextFiring : Deadlines ν}
    (hpush : fixedHeapPush s.armedTimers s.nextFiring (some tmr) = some (ret, heap, nextFiring)) :
    timerManagerAddTimer s tmr =
      some (if afailed ret then aEInval else aOk,
        ⟨heap, nextFiring, listAppend s.entries .liveTimers (.tnode tmr)⟩) := by
  simp only [timerManagerAddTimer, hpush, Option.bind_eq_bind, Option.bind_some]

/-! ## `timer_manager_fire_next`, case by case -/

variable {s : TimerState ν} {now : BitVec 64} {fire : ν → TimerState ν → Option (TimerState ν)} {tmr : ν}

theorem timerManagerFireNext_empty
    (hpeek : fixedHeapPeekHead s.armedTimers none = some (aEEmpty, none)) :
    timerManagerFireNext s now fire = some (aOk, 0, none, s) := by
  have hfail : afailed aEEmpty = true := afailed_aresultError _ _
  simp [timerManagerFireNext, hpeek, hfail]

theorem timerManagerFireNext_not_due
    (hpeek : fixedHeapPeekHead s.armedTimers none = some (aOk, some tmr))
    (hnow : ¬ s.nextFiring tmr ≤ now) :
    timerManagerFireNext s now fire = some (aOk, s.nextFiring tmr, none, s) := by
  simp [timerManagerFireNext, hpeek, hnow]

/-- A timer that is due is taken out, its callback runs, and the next timer is looked up in the
    state the callback leaves. -/
theorem timerManagerFireNext_due
    (hpeek : fixedHeapPeekHead s.armedTimers none = some (aOk, some tmr))
    (hnow : s.nextFiring tmr ≤ now) {heap : FixedHeap (Deadlines ν) (Option ν)}
    (hpop : fixedHeapPop s.armedTimers s.nextFiring (some tmr) =
      some (aOk, some tmr, heap, s.nextFiring)) :
    timerManagerFireNext s now fire =
      (fire tmr ⟨heap, s.nextFiring, listDel s.entries (.tnode tmr)⟩).bind fun s =>
        (fixedHeapPeekHead s.armedTimers (some tmr)).bind fun (ret, next) =>
          if afailed ret then some (ret, 0, some tmr, s)
          else next.bind fun next => some (ret, s.nextFiring next, some tmr, s) := by
  simp only [timerManagerFireNext, hpeek, hpop, hnow, Option.bind_eq_bind, Option.bind_some,
    afailed_aOk, Bool.false_eq_true, if_false, ge_iff_le, if_true]

end Code

/-! ## Runs of a timer manager -/

/-- Arming a timer: by `timer_arm`, at a clock reading, or by `timer_arm_at`. -/
inductive ArmCall (ν : Type) where
  | arm (tmr : ν) (now usecs : BitVec 64)
  | armAt (tmr : ν) (deadline : BitVec 64)

namespace ArmCall

/-- The timer that is armed. -/
def timer : ArmCall ν → ν
  | .arm tmr _ _ => tmr
  | .armAt tmr _ => tmr

/-- The deadline it gets. -/
def deadline : ArmCall ν → BitVec 64
  | .arm _ now usecs => now + usecs * 1000
  | .armAt _ deadline => deadline

variable [DecidableEq ν]

/-- The call itself. -/
def run (s : TimerState ν) : ArmCall ν → Option (AResult × TimerState ν)
  | .arm tmr now usecs => timerArm s tmr now usecs
  | .armAt tmr deadline => timerArmAt s tmr deadline

theorem run_eq (s : TimerState ν) (c : ArmCall ν) :
    c.run s = timerManagerAddTimer
      { s with nextFiring := Function.update s.nextFiring c.timer c.deadline } c.timer := by
  cases c <;> rfl

end ArmCall

/-- What a call of `timer_manager_fire_next` did: the clock reading, the deadline of the timer it
    fired, the deadlines of the timers armed when it was called and when it returned, and
    `*pnext`. -/
structure FireEvent where
  now : BitVec 64
  fired : Option (BitVec 64)
  before : List (BitVec 64)
  after : List (BitVec 64)
  pnext : BitVec 64
deriving DecidableEq

/-- The timer state, the timers armed and not fired since, and the history, latest first. -/
structure TimerRun (ν : Type) where
  state : TimerState ν
  armed : List ν
  history : List FireEvent

/-- A call on a timer manager. A fire callback may arm timers. -/
inductive TimerCall (ν : Type) where
  | arm (c : ArmCall ν)
  | fireNext (now : BitVec 64) (callback : List (ArmCall ν))

section Machine

variable [DecidableEq ν]

/-- Arming: only timers that are not armed, with deadlines below `2^63`, below capacity. -/
def armStep (s : TimerState ν) (c : ArmCall ν) : Option (TimerState ν) :=
  if some c.timer ∉ s.armedTimers.items ∧ c.deadline < 1#64 <<< (63 : ℕ) ∧
      s.armedTimers.entries < s.armedTimers.capacity then
    (c.run s).map Prod.snd
  else none

/-- The armed timers after a callback has armed more. -/
def armedAfter (armed : List ν) (callback : List (ArmCall ν)) : List ν :=
  callback.foldl (fun armed c => c.timer :: armed) armed

/-- One call. -/
def timerStep (s : TimerRun ν) : TimerCall ν → Option (TimerRun ν)
  | .arm c => do
      let state ← armStep s.state c
      some { s with state := state, armed := c.timer :: s.armed }
  | .fireNext now callback => do
      let (_, pnext, fired, state) ←
        timerManagerFireNext s.state now fun _ state => exec armStep state callback
      let armed :=
        match fired with
        | none => s.armed
        | some tmr => armedAfter (s.armed.erase tmr) callback
      let event : FireEvent :=
        { now := now
          fired := fired.map s.state.nextFiring
          before := s.armed.map s.state.nextFiring
          after := armed.map state.nextFiring
          pnext := pnext }
      some { state := state, armed := armed, history := event :: s.history }

end Machine

end Tsl
