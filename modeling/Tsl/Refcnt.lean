import Mathlib.Data.List.Basic
import Mathlib.Logic.Function.Basic
import Tsl.Lib.Machine
import Tsl.Result

set_option autoImplicit false

/-! # Reference counts

`tsl/refcnt.h`: a count of references, with a destructor that is called when the last one is released.
`refcnt_get` takes a reference with a compare-and-swap, `refcnt_release` gives one back with a plain
read and a plain write, and reads the count again to see whether to call the destructor.

The machine below runs any number of threads. One step is one load, compare-and-swap or store of one
thread, or the begin of a call, so calls may interleave in any way. Threads release only references
they hold: the begin of a release uses up one of them. -/

namespace Tsl

open Tsl.Lib

/-- The part of `ck_pr.h` that `refcnt_get` uses. `ck_pr_cas_32_value` is given what the target holds;
    it answers its `bool`, `*value`, and what the target holds then. -/
structure CkPr where
  cas32Value : BitVec 32 → BitVec 32 → BitVec 32 → Bool × BitVec 32 × BitVec 32

/-- What it is documented to do: `*value` is what the target held, and the target is set if that is
    what it is compared with. -/
structure CkPr.Documented (ck : CkPr) : Prop where
  swaps : ∀ target set, ck.cas32Value target target set = (true, target, set)
  refuses : ∀ target compare set, target ≠ compare →
    ck.cas32Value target compare set = (false, target, target)

/-- `struct refcnt`; `destructor` is whether there is one. -/
structure Refcnt where
  destructor : Bool
  refcnt : BitVec 32

/-- `refcnt_init`. -/
def refcntInit (destruct : Bool) : AResult × Refcnt :=
  (aOk, { refcnt := 1, destructor := destruct })

/-- `refcnt_check`: the result code and `*valid`. -/
def refcntCheck (ref : Refcnt) : AResult × ℕ :=
  (aOk, if ref.refcnt ≠ 0 then 1 else 0)

/-! ## The machine -/

/-- Where a thread is, by the next access to the count it makes. -/
inductive RefcntPc where
  | idle
  /-- `if (CAL_UNLIKELY(ref->refcnt == 0))` in `refcnt_get`. -/
  | getGuard
  /-- `initial = ref->refcnt`. -/
  | getLoad
  /-- `ck_pr_cas_32_value(&ref->refcnt, initial, targ, &val)`. -/
  | getSwap (initial : BitVec 32)
  /-- `if (CAL_UNLIKELY(ref->refcnt == 0))` in `refcnt_release`, the first time. -/
  | releaseGuard
  /-- The read of `ref->refcnt--`. -/
  | releaseLoad
  /-- The write of `ref->refcnt--`. -/
  | releaseStore (loaded : BitVec 32)
  /-- `if (CAL_UNLIKELY(ref->refcnt == 0))`, the second time; `stored` is what was written. -/
  | releaseTest (stored : BitVec 32)
  /-- `ref->destructor(ref)`. -/
  | releaseDestroy
deriving DecidableEq

/-- Inside `refcnt_get`. -/
def RefcntPc.inGet : RefcntPc → Bool
  | .getGuard | .getLoad | .getSwap _ => true
  | _ => false

inductive RefcntCall where
  | get
  | release
deriving DecidableEq

/-- What a call returned, and whether it had changed the count. -/
structure RefcntReturn where
  call : RefcntCall
  result : AResult
  changed : Bool
deriving DecidableEq

/-- An object and its threads. `held` has an entry for each reference, naming the thread that holds it;
    `dead` says that the count has been zero. -/
structure RefcntRun (τ : Type*) where
  ref : Refcnt
  pc : τ → RefcntPc
  held : List τ
  changed : τ → Bool
  returned : List RefcntReturn
  destroyed : ℕ
  dead : Bool

/-- What can happen: a thread begins a call, or makes the next step of the one it is in. -/
inductive RefcntStep (τ : Type*) where
  | get (t : τ)
  | release (t : τ)
  | run (t : τ)

variable {τ : Type*} [DecidableEq τ]

namespace RefcntRun

/-- A new object, whose one reference belongs to `owner`. -/
def new (destruct : Bool) (owner : τ) : RefcntRun τ where
  ref := (refcntInit destruct).2
  pc := fun _ => .idle
  held := [owner]
  changed := fun _ => false
  returned := []
  destroyed := 0
  dead := false

def begin (s : RefcntRun τ) (t : τ) (pc : RefcntPc) : RefcntRun τ :=
  { s with pc := Function.update s.pc t pc, changed := Function.update s.changed t false }

def goto (s : RefcntRun τ) (t : τ) (pc : RefcntPc) : RefcntRun τ :=
  { s with pc := Function.update s.pc t pc }

/-- The thread writes the count. -/
def store (s : RefcntRun τ) (t : τ) (v : BitVec 32) : RefcntRun τ :=
  { s with
    ref := { s.ref with refcnt := v }
    changed := if v = s.ref.refcnt then s.changed else Function.update s.changed t true
    dead := s.dead || v == 0 }

def ret (s : RefcntRun τ) (t : τ) (call : RefcntCall) (result : AResult) : RefcntRun τ :=
  { s with
    pc := Function.update s.pc t .idle
    returned := s.returned ++ [⟨call, result, s.changed t⟩] }

/-- The next step of a thread in `refcnt_get` or `refcnt_release`. -/
def run (ck : CkPr) (s : RefcntRun τ) (t : τ) : Option (RefcntRun τ) :=
  match s.pc t with
  | .idle => none
  | .getGuard => some (if s.ref.refcnt = 0 then s.ret t .get aEInval else s.goto t .getLoad)
  | .getLoad => some (s.goto t (.getSwap s.ref.refcnt))
  | .getSwap initial =>
      let targ := initial + 1
      let (result, val, refcnt) := ck.cas32Value s.ref.refcnt initial targ
      let s := s.store t refcnt
      -- the loop ends on a count of zero, whether or not the swap was made
      if val = 0 then some (s.ret t .get aEInval)
      else if result = false then some (s.goto t .getLoad)
      else some { s.ret t .get aOk with held := t :: s.held }
  | .releaseGuard => some (if s.ref.refcnt = 0 then s.ret t .release aEInval else s.goto t .releaseLoad)
  | .releaseLoad => some (s.goto t (.releaseStore s.ref.refcnt))
  | .releaseStore loaded => some ((s.store t (loaded - 1)).goto t (.releaseTest (loaded - 1)))
  | .releaseTest _ =>
      some (if s.ref.refcnt = 0 ∧ s.ref.destructor then s.goto t .releaseDestroy
        else s.ret t .release aOk)
  | .releaseDestroy => some { s.ret t .release aOk with destroyed := s.destroyed + 1 }

/-- One step of the machine. -/
def step (ck : CkPr) (s : RefcntRun τ) : RefcntStep τ → Option (RefcntRun τ)
  | .get t => if s.pc t = .idle then some (s.begin t .getGuard) else none
  | .release t =>
      if s.pc t = .idle ∧ t ∈ s.held then
        some { s.begin t .releaseGuard with held := s.held.erase t }
      else none
  | .run t => s.run ck t

end RefcntRun

/-! ## What a step does -/

/-- What is known of the bookkeeping in every state. -/
structure Recorded (s : RefcntRun τ) : Prop where
  dead : s.ref.refcnt = 0 → s.dead = true
  unchanged : ∀ t, (s.pc t).inGet = true → s.changed t = false

/-- What each step does, one constructor for each way through the code. -/
inductive RefcntMove (s : RefcntRun τ) : RefcntStep τ → RefcntRun τ → Prop
  | beginGet {t : τ} : s.pc t = .idle → RefcntMove s (.get t) (s.begin t .getGuard)
  | beginRelease {t : τ} : s.pc t = .idle → t ∈ s.held →
      RefcntMove s (.release t) { s.begin t .releaseGuard with held := s.held.erase t }
  | getDead {t : τ} : s.pc t = .getGuard → s.ref.refcnt = 0 →
      RefcntMove s (.run t) (s.ret t .get aEInval)
  | getAlive {t : τ} : s.pc t = .getGuard → s.ref.refcnt ≠ 0 →
      RefcntMove s (.run t) (s.goto t .getLoad)
  | getLoad {t : τ} : s.pc t = .getLoad → RefcntMove s (.run t) (s.goto t (.getSwap s.ref.refcnt))
  | swapZero {t : τ} : s.pc t = .getSwap s.ref.refcnt → s.ref.refcnt = 0 →
      RefcntMove s (.run t) ((s.store t (s.ref.refcnt + 1)).ret t .get aEInval)
  | swap {t : τ} : s.pc t = .getSwap s.ref.refcnt → s.ref.refcnt ≠ 0 →
      RefcntMove s (.run t)
        { (s.store t (s.ref.refcnt + 1)).ret t .get aOk with held := t :: s.held }
  | swapDead {t : τ} {initial : BitVec 32} : s.pc t = .getSwap initial → s.ref.refcnt ≠ initial →
      s.ref.refcnt = 0 → RefcntMove s (.run t) (s.ret t .get aEInval)
  | swapAgain {t : τ} {initial : BitVec 32} : s.pc t = .getSwap initial → s.ref.refcnt ≠ initial →
      s.ref.refcnt ≠ 0 → RefcntMove s (.run t) (s.goto t .getLoad)
  | releaseDead {t : τ} : s.pc t = .releaseGuard → s.ref.refcnt = 0 →
      RefcntMove s (.run t) (s.ret t .release aEInval)
  | releaseAlive {t : τ} : s.pc t = .releaseGuard → s.ref.refcnt ≠ 0 →
      RefcntMove s (.run t) (s.goto t .releaseLoad)
  | releaseLoad {t : τ} : s.pc t = .releaseLoad →
      RefcntMove s (.run t) (s.goto t (.releaseStore s.ref.refcnt))
  | releaseStore {t : τ} {loaded : BitVec 32} : s.pc t = .releaseStore loaded →
      RefcntMove s (.run t) ((s.store t (loaded - 1)).goto t (.releaseTest (loaded - 1)))
  | releaseLast {t : τ} {stored : BitVec 32} : s.pc t = .releaseTest stored → s.ref.refcnt = 0 →
      s.ref.destructor = true → RefcntMove s (.run t) (s.goto t .releaseDestroy)
  | releaseDone {t : τ} {stored : BitVec 32} : s.pc t = .releaseTest stored →
      ¬ (s.ref.refcnt = 0 ∧ s.ref.destructor = true) →
      RefcntMove s (.run t) (s.ret t .release aOk)
  | destroy {t : τ} : s.pc t = .releaseDestroy →
      RefcntMove s (.run t) { s.ret t .release aOk with destroyed := s.destroyed + 1 }

section Moves

variable {ck : CkPr} {s s' : RefcntRun τ} {t u : τ} {i : RefcntStep τ} {pc : RefcntPc}

@[simp] theorem begin_pc_self : (s.begin t pc).pc t = pc := Function.update_self _ _ _

@[simp] theorem goto_pc_self : (s.goto t pc).pc t = pc := Function.update_self _ _ _

@[simp] theorem ret_pc_self {call : RefcntCall} {result : AResult} :
    (s.ret t call result).pc t = .idle := Function.update_self _ _ _

theorem begin_pc_of_ne (hu : u ≠ t) : (s.begin t pc).pc u = s.pc u := Function.update_of_ne hu _ _

theorem goto_pc_of_ne (hu : u ≠ t) : (s.goto t pc).pc u = s.pc u := Function.update_of_ne hu _ _

theorem ret_pc_of_ne {call : RefcntCall} {result : AResult} (hu : u ≠ t) :
    (s.ret t call result).pc u = s.pc u := Function.update_of_ne hu _ _

theorem store_same (h : Recorded s) (t : τ) : s.store t s.ref.refcnt = s := by
  have hdead : (s.dead || s.ref.refcnt == 0) = s.dead := by
    by_cases hzero : s.ref.refcnt = 0
    · rw [h.dead hzero, Bool.true_or]
    · rw [beq_eq_false_iff_ne.2 hzero, Bool.or_false]
  unfold RefcntRun.store
  rw [hdead, if_pos rfl]

/-- The compare-and-swap of a get. -/
theorem refcntMove_getSwap (hck : ck.Documented) (h : Recorded s) {initial : BitVec 32}
    (hpc : s.pc t = .getSwap initial) (hrun : s.run ck t = some s') : RefcntMove s (.run t) s' := by
  by_cases heq : s.ref.refcnt = initial
  · subst heq
    simp only [RefcntRun.run, hpc, hck.swaps, Bool.true_eq_false, if_false] at hrun
    split at hrun
    · next hzero =>
        cases hrun
        exact .swapZero hpc hzero
    · next hzero =>
        cases hrun
        exact .swap hpc hzero
  · simp only [RefcntRun.run, hpc, hck.refuses _ _ _ heq, store_same h, if_true] at hrun
    split at hrun
    · next hzero =>
        cases hrun
        exact .swapDead hpc heq hzero
    · next hzero =>
        cases hrun
        exact .swapAgain hpc heq hzero

/-- **Every step** is one of the moves. -/
theorem refcntMove_of_step (hck : ck.Documented) (h : Recorded s) (hstep : s.step ck i = some s') :
    RefcntMove s i s' := by
  cases i with
  | get t =>
      simp only [RefcntRun.step] at hstep
      split at hstep
      · next hidle =>
          cases hstep
          exact .beginGet hidle
      · cases hstep
  | release t =>
      simp only [RefcntRun.step] at hstep
      split at hstep
      · next hidle =>
          cases hstep
          exact .beginRelease hidle.1 hidle.2
      · cases hstep
  | run t =>
      simp only [RefcntRun.step] at hstep
      cases hpc : s.pc t with
      | getSwap initial => exact refcntMove_getSwap hck h hpc hstep
      | idle => simp only [RefcntRun.run, hpc, reduceCtorEq] at hstep
      | getGuard =>
          simp only [RefcntRun.run, hpc, Option.some.injEq] at hstep
          subst hstep
          split
          · next hzero => exact .getDead hpc hzero
          · next hzero => exact .getAlive hpc hzero
      | getLoad =>
          simp only [RefcntRun.run, hpc, Option.some.injEq] at hstep
          subst hstep
          exact .getLoad hpc
      | releaseGuard =>
          simp only [RefcntRun.run, hpc, Option.some.injEq] at hstep
          subst hstep
          split
          · next hzero => exact .releaseDead hpc hzero
          · next hzero => exact .releaseAlive hpc hzero
      | releaseLoad =>
          simp only [RefcntRun.run, hpc, Option.some.injEq] at hstep
          subst hstep
          exact .releaseLoad hpc
      | releaseStore loaded =>
          simp only [RefcntRun.run, hpc, Option.some.injEq] at hstep
          subst hstep
          exact .releaseStore hpc
      | releaseTest stored =>
          simp only [RefcntRun.run, hpc, Option.some.injEq] at hstep
          subst hstep
          split
          · next hzero => exact .releaseLast hpc hzero.1 hzero.2
          · next hzero => exact .releaseDone hpc hzero
      | releaseDestroy =>
          simp only [RefcntRun.run, hpc, Option.some.injEq] at hstep
          subst hstep
          exact .destroy hpc

/-! ## The bookkeeping -/

theorem Recorded.of_update (h : Recorded s) (t : τ) (hdead : s'.ref.refcnt = 0 → s'.dead = true)
    (hother : ∀ u, u ≠ t → s'.pc u = s.pc u ∧ s'.changed u = s.changed u)
    (hself : (s'.pc t).inGet = true → s'.changed t = false) : Recorded s' where
  dead := hdead
  unchanged := by
    intro u hu
    by_cases hut : u = t
    · subst hut
      exact hself hu
    · obtain ⟨hpc, hchanged⟩ := hother u hut
      rw [hchanged]
      exact h.unchanged u (hpc ▸ hu)

theorem Recorded.begin (h : Recorded s) (t : τ) (pc : RefcntPc) : Recorded (s.begin t pc) :=
  h.of_update t h.dead (fun _ hu => ⟨begin_pc_of_ne hu, Function.update_of_ne hu _ _⟩)
    fun _ => Function.update_self _ _ _

theorem Recorded.goto (h : Recorded s) (t : τ) {pc : RefcntPc}
    (hpc : pc.inGet = true → (s.pc t).inGet = true) : Recorded (s.goto t pc) := by
  refine h.of_update t h.dead (fun u hu => ⟨goto_pc_of_ne hu, rfl⟩) fun hself => ?_
  rw [goto_pc_self] at hself
  exact h.unchanged t (hpc hself)

theorem Recorded.ret (h : Recorded s) (t : τ) (call : RefcntCall) (result : AResult) :
    Recorded (s.ret t call result) := by
  refine h.of_update t h.dead (fun u hu => ⟨ret_pc_of_ne hu, rfl⟩) fun hself => ?_
  rw [ret_pc_self] at hself
  cases hself

theorem Recorded.store (h : Recorded s) (t : τ) {v : BitVec 32}
    (hpc : ∀ u, u ≠ t → s'.pc u = s.pc u) (hself : (s'.pc t).inGet = false)
    (href : s'.ref = (s.store t v).ref) (hdead : s'.dead = (s.store t v).dead)
    (hchanged : s'.changed = (s.store t v).changed) : Recorded s' := by
  refine h.of_update t (fun hzero => ?_) (fun u hu => ⟨hpc u hu, ?_⟩) fun hget => ?_
  · rw [href] at hzero
    rw [hdead]
    simp only [RefcntRun.store] at hzero ⊢
    rw [hzero, beq_self_eq_true, Bool.or_true]
  · rw [hchanged, RefcntRun.store]
    split
    · rfl
    · exact Function.update_of_ne hu _ _
  · rw [hself] at hget
    cases hget

/-- **The bookkeeping** is right after every step. -/
theorem recorded_step (hck : ck.Documented) (h : Recorded s) (hstep : s.step ck i = some s') :
    Recorded s' := by
  cases refcntMove_of_step hck h hstep with
  | beginGet _ => exact h.begin _ _
  | @beginRelease t _ _ =>
      have hbegin := h.begin t .releaseGuard
      exact ⟨hbegin.dead, hbegin.unchanged⟩
  | getDead _ _ => exact h.ret _ _ _
  | getAlive hpc _ => exact h.goto _ fun _ => by rw [hpc]; rfl
  | getLoad hpc => exact h.goto _ fun _ => by rw [hpc]; rfl
  | swapZero _ _ => exact h.store _ (fun _ => ret_pc_of_ne) (by rw [ret_pc_self]; rfl) rfl rfl rfl
  | @swap t _ _ =>
      have hret : Recorded ((s.store t (s.ref.refcnt + 1)).ret t .get aOk) :=
        h.store t (fun _ => ret_pc_of_ne) (by rw [ret_pc_self]; rfl) rfl rfl rfl
      exact ⟨hret.dead, hret.unchanged⟩
  | swapDead _ _ _ => exact h.ret _ _ _
  | swapAgain hpc _ _ => exact h.goto _ fun _ => by rw [hpc]; rfl
  | releaseDead _ _ => exact h.ret _ _ _
  | releaseAlive _ _ => exact h.goto _ fun hget => by cases hget
  | releaseLoad _ => exact h.goto _ fun hget => by cases hget
  | releaseStore _ =>
      exact h.store _ (fun _ => goto_pc_of_ne) (by rw [goto_pc_self]; rfl) rfl rfl rfl
  | releaseLast _ _ _ => exact h.goto _ fun hget => by cases hget
  | releaseDone _ _ => exact h.ret _ _ _
  | @destroy t _ =>
      have hret := h.ret t .release aOk
      exact ⟨hret.dead, hret.unchanged⟩

end Moves

/-! ## Dead stays dead -/

/-- A count that has been zero is zero, and a get that failed has not changed the count. -/
structure StaysDead (s : RefcntRun τ) : Prop where
  refcnt : s.dead = true → s.ref.refcnt = 0
  check : s.dead = true → refcntCheck s.ref = (aOk, 0)
  get : ∀ r ∈ s.returned, r.call = .get → r.result = aEInval → r.changed = false

/-- The step does not bring a count of zero back: no get that loaded zero in its loop swaps it while it
    is still zero, and no release writes over it what it computed from another count than one. -/
def KeepsZero (s : RefcntRun τ) : RefcntStep τ → Prop
  | .run t =>
      match s.pc t with
      | .getSwap initial => ¬ (initial = 0 ∧ s.ref.refcnt = 0)
      | .releaseStore loaded => s.ref.refcnt = 0 → loaded = 1
      | _ => True
  | _ => True

instance (s : RefcntRun τ) : (i : RefcntStep τ) → Decidable (KeepsZero s i)
  | .get _ => inferInstanceAs (Decidable True)
  | .release _ => inferInstanceAs (Decidable True)
  | .run t =>
      show Decidable (match s.pc t with
        | .getSwap initial => ¬ (initial = 0 ∧ s.ref.refcnt = 0)
        | .releaseStore loaded => s.ref.refcnt = 0 → loaded = 1
        | _ => True) from
      match s.pc t with
      | .getSwap _ => inferInstanceAs (Decidable (¬ _))
      | .releaseStore _ => inferInstanceAs (Decidable (_ → _))
      | .idle | .getGuard | .getLoad | .releaseGuard | .releaseLoad | .releaseTest _ | .releaseDestroy =>
          inferInstanceAs (Decidable True)

section Dead

variable {ck : CkPr} {s s' : RefcntRun τ} {t : τ} {i : RefcntStep τ}

theorem check_of_zero {ref : Refcnt} (h : ref.refcnt = 0) : refcntCheck ref = (aOk, 0) := by
  rw [refcntCheck, if_neg (not_not_intro h)]

theorem StaysDead.ret (h : StaysDead s) {call : RefcntCall} {result : AResult}
    (hget : call = .get → result = aEInval → s.changed t = false) :
    StaysDead (s.ret t call result) where
  refcnt := h.refcnt
  check := h.check
  get := by
    intro r hr hcall hresult
    rcases List.mem_append.1 hr with hr | hr
    · exact h.get r hr hcall hresult
    · rw [List.mem_singleton] at hr
      subst hr
      exact hget hcall hresult

theorem StaysDead.store (h : StaysDead s) (hne : s.ref.refcnt ≠ 0) (t : τ) (v : BitVec 32) :
    StaysDead (s.store t v) := by
  have hdead : s.dead = false := by
    cases hd : s.dead with
    | false => rfl
    | true => exact absurd (h.refcnt hd) hne
  have hzero : (s.store t v).dead = true → (s.store t v).ref.refcnt = 0 := by
    intro hd
    simpa [RefcntRun.store, hdead] using hd
  exact ⟨hzero, fun hd => check_of_zero (hzero hd), h.get⟩

theorem sub_one_eq_zero {v : BitVec 32} : v - 1 = 0 ↔ v = 1 := by
  constructor
  · intro h
    bv_omega
  · rintro rfl
    rfl

/-- **One step** keeps the dead dead exactly if it does not bring a count of zero back. -/
theorem staysDead_step_iff (hck : ck.Documented) (hrec : Recorded s) (h : StaysDead s)
    (hstep : s.step ck i = some s') : StaysDead s' ↔ KeepsZero s i := by
  cases refcntMove_of_step hck hrec hstep with
  | beginGet _ => exact iff_of_true ⟨h.refcnt, h.check, h.get⟩ trivial
  | beginRelease _ _ => exact iff_of_true ⟨h.refcnt, h.check, h.get⟩ trivial
  | @getDead t hpc _ =>
      refine iff_of_true (h.ret fun _ _ => hrec.unchanged t (by rw [hpc]; rfl)) ?_
      simp [KeepsZero, hpc]
  | getAlive hpc _ => exact iff_of_true ⟨h.refcnt, h.check, h.get⟩ (by simp [KeepsZero, hpc])
  | getLoad hpc => exact iff_of_true ⟨h.refcnt, h.check, h.get⟩ (by simp [KeepsZero, hpc])
  | @swapZero t hpc hzero =>
      -- zero was loaded in the loop and is still there, so the swap writes one
      refine iff_of_false (fun h' => ?_) (by simp [KeepsZero, hpc, hzero])
      have hdead : ((s.store t (s.ref.refcnt + 1)).ret t .get aEInval).dead = true := by
        change (s.dead || _) = true
        rw [hrec.dead hzero, Bool.true_or]
      have hone : s.ref.refcnt + 1 = 0 := h'.refcnt hdead
      rw [hzero] at hone
      cases hone
  | @swap t hpc hne =>
      refine iff_of_true ?_ (by simpa [KeepsZero, hpc] using hne)
      have hret : StaysDead ((s.store t (s.ref.refcnt + 1)).ret t .get aOk) :=
        (h.store hne t _).ret fun _ hresult => by cases hresult
      exact ⟨hret.refcnt, hret.check, hret.get⟩
  | @swapDead t initial hpc hne hzero =>
      -- what was loaded is not zero, so nothing is written
      refine iff_of_true (h.ret fun _ _ => hrec.unchanged t (by rw [hpc]; rfl)) ?_
      simp only [KeepsZero, hpc]
      exact fun hboth => hne (hboth.2.trans hboth.1.symm)
  | swapAgain hpc _ hne =>
      refine iff_of_true ⟨h.refcnt, h.check, h.get⟩ ?_
      simp only [KeepsZero, hpc]
      exact fun hboth => hne hboth.2
  | releaseDead hpc _ =>
      exact iff_of_true (h.ret fun hcall _ => by cases hcall) (by simp [KeepsZero, hpc])
  | releaseAlive hpc _ => exact iff_of_true ⟨h.refcnt, h.check, h.get⟩ (by simp [KeepsZero, hpc])
  | releaseLoad hpc => exact iff_of_true ⟨h.refcnt, h.check, h.get⟩ (by simp [KeepsZero, hpc])
  | @releaseStore t loaded hpc =>
      -- only over a zero does it matter what was loaded before
      by_cases hzero : s.ref.refcnt = 0
      · have hdead : (s.store t (loaded - 1)).dead = true := by
          change (s.dead || _) = true
          rw [hrec.dead hzero, Bool.true_or]
        simp only [KeepsZero, hpc, hzero, forall_const]
        rw [← sub_one_eq_zero]
        constructor
        · exact fun h' => h'.refcnt hdead
        · exact fun hone => ⟨fun _ => hone, fun _ => check_of_zero hone, h.get⟩
      · have hstore := h.store hzero t (loaded - 1)
        refine iff_of_true ⟨hstore.refcnt, hstore.check, hstore.get⟩ ?_
        simp only [KeepsZero, hpc]
        exact fun hzero' => absurd hzero' hzero
  | releaseLast hpc _ _ => exact iff_of_true ⟨h.refcnt, h.check, h.get⟩ (by simp [KeepsZero, hpc])
  | releaseDone hpc _ =>
      exact iff_of_true (h.ret fun hcall _ => by cases hcall) (by simp [KeepsZero, hpc])
  | @destroy t hpc =>
      have hret : StaysDead (s.ret t .release aOk) := h.ret fun hcall _ => by cases hcall
      exact iff_of_true ⟨hret.refcnt, hret.check, hret.get⟩ (by simp [KeepsZero, hpc])

/-- Only a thread outside the two functions has no next step. -/
theorem run_eq_none (h : s.run ck t = none) : s.pc t = .idle := by
  cases hpc : s.pc t with
  | idle => rfl
  | getSwap initial =>
      simp only [RefcntRun.run, hpc] at h
      split at h
      · cases h
      · split at h <;> cases h
  | _ => simp only [RefcntRun.run, hpc, reduceCtorEq] at h

omit [DecidableEq τ] in
theorem recorded_new (destruct : Bool) (owner : τ) : Recorded (.new destruct owner) where
  dead := by
    intro h
    cases h
  unchanged := fun _ _ => rfl

omit [DecidableEq τ] in
theorem staysDead_new (destruct : Bool) (owner : τ) : StaysDead (.new destruct owner) where
  refcnt := by
    intro h
    cases h
  check := by
    intro h
    cases h
  get := fun _ hr => by cases hr

/-- **A run keeps the dead dead** exactly if none of its steps brings a count of zero back. -/
theorem staysDead_throughout_iff (hck : ck.Documented) (destruct : Bool) (owner : τ)
    (steps : List (RefcntStep τ)) :
    Throughout (RefcntRun.step ck) StaysDead (.new destruct owner) steps ↔
      Meets (RefcntRun.step ck) KeepsZero (.new destruct owner) steps := by
  refine throughout_iff_meets (fun _ _ _ hrec hstep => recorded_step hck hrec hstep)
    (fun _ _ _ hrec h hstep => staysDead_step_iff hck hrec h hstep) (fun s i hrec _ hnone => ?_)
    steps _ (recorded_new destruct owner) (staysDead_new destruct owner)
  cases i with
  | get t => trivial
  | release t => trivial
  | run t =>
      have hidle : s.pc t = .idle := run_eq_none hnone
      simp only [KeepsZero, hidle]

end Dead

/-- A compare-and-swap as documented. -/
def compareAndSwap : CkPr where
  cas32Value := fun target compare set =>
    if target = compare then (true, target, set) else (false, target, target)

theorem compareAndSwap_documented : compareAndSwap.Documented where
  swaps := fun _ _ => if_pos rfl
  refuses := fun _ _ _ hne => if_neg hne

/-- A get is past its first check when the last reference is released. -/
def lateGet : List (RefcntStep ℕ) :=
  [.get 1, .run 1, .release 0, .run 0, .run 0, .run 0, .run 0, .run 0, .run 1, .run 1]

/-- It fails, and leaves a count of one on the destroyed object. -/
theorem lateGet_revives :
    ∃ s, exec (RefcntRun.step compareAndSwap) (.new true 0) lateGet = some s ∧
      s.destroyed = 1 ∧ refcntCheck s.ref = (aOk, 1) ∧ ⟨.get, aEInval, true⟩ ∈ s.returned ∧
      ¬ StaysDead s := by
  have hrun : (exec (RefcntRun.step compareAndSwap) (.new true (0 : ℕ)) lateGet).map
      (fun s => (s.destroyed, refcntCheck s.ref, s.dead, s.returned)) =
      some (1, (aOk, 1), true, [⟨.release, aOk, true⟩, ⟨.get, aEInval, true⟩]) := by decide +kernel
  obtain ⟨s, hs, heq⟩ := Option.map_eq_some_iff.1 hrun
  simp only [Prod.mk.injEq] at heq
  obtain ⟨hdestroyed, hcheck, hdead, hreturned⟩ := heq
  refine ⟨s, hs, hdestroyed, hcheck, ?_, fun h => ?_⟩
  · rw [hreturned]
    exact List.mem_cons_of_mem _ List.mem_cons_self
  · rw [h.check hdead] at hcheck
    cases hcheck

/-- A get has loaded a count of one when the last reference is released, and tries to swap it. -/
def getAfterLast : List (RefcntStep ℕ) :=
  [.get 1, .run 1, .run 1, .release 0, .run 0, .run 0, .run 0, .run 0, .run 0, .run 1]

/-- It fails, and has changed nothing. -/
theorem staysDead_throughout_getAfterLast :
    Throughout (RefcntRun.step compareAndSwap) StaysDead (.new true 0) getAfterLast ∧
      ∃ s, exec (RefcntRun.step compareAndSwap) (.new true 0) getAfterLast = some s ∧
        s.destroyed = 1 ∧ refcntCheck s.ref = (aOk, 0) ∧
        s.returned = [⟨.release, aOk, true⟩, ⟨.get, aEInval, false⟩] := by
  have hrun : (exec (RefcntRun.step compareAndSwap) (.new true (0 : ℕ)) getAfterLast).map
      (fun s => (s.destroyed, refcntCheck s.ref, s.returned)) =
      some (1, (aOk, 0), [⟨.release, aOk, true⟩, ⟨.get, aEInval, false⟩]) := by decide +kernel
  have hmeets : Meets (RefcntRun.step compareAndSwap) KeepsZero (.new true (0 : ℕ)) getAfterLast := by
    decide +kernel
  obtain ⟨s, hs, heq⟩ := Option.map_eq_some_iff.1 hrun
  simp only [Prod.mk.injEq] at heq
  exact ⟨(staysDead_throughout_iff compareAndSwap_documented true 0 _).2 hmeets, s, hs, heq⟩

end Tsl
