import Mathlib.Algebra.Group.Int.Defs
import Mathlib.Tactic.Push
import Tsl.Lib.Threads
import Tsl.Refcnt

set_option autoImplicit false

/-! # What a reference count counts

While nobody disturbs a release between its read and its write, the count is the number of references
held, or about to be given back. Three lists count threads by where they are: releases that have not
written yet, releases that have, and releases that will call the destructor. -/

namespace Tsl

open Tsl.Lib

variable {τ : Type*} [DecidableEq τ]

/-- How many calls have returned `A_OK`. -/
def RefcntRun.successes (s : RefcntRun τ) (call : RefcntCall) : ℕ :=
  s.returned.countP fun r => r.call = call ∧ r.result = aOk

/-- How many references there are, those in a release that has not returned included. -/
def RefcntRun.references (s : RefcntRun τ) : ℤ := 1 + s.successes .get - s.successes .release

/-- A step, as long as there are fewer than `2 ^ 32` references. -/
def RefcntRun.boundedStep (ck : CkPr) (s : RefcntRun τ) (i : RefcntStep τ) : Option (RefcntRun τ) :=
  (s.step ck i).filter fun s' => s'.references < 2 ^ 32

/-- While no call is in progress, the count is the number of references, and the destructor has been
    called once if that number is zero and never otherwise. -/
def CountExact (s : RefcntRun τ) : Prop :=
  (∀ t, s.pc t = .idle) →
    (s.ref.refcnt.toNat : ℤ) = s.references ∧
      s.destroyed = if s.references = 0 ∧ s.ref.destructor then 1 else 0

/-- The step disturbs no other call: a get does not swap a count of zero, a release writes over the
    count it has read, and goes on to the destructor only if it has written the zero itself. -/
def Undisturbed (s : RefcntRun τ) : RefcntStep τ → Prop
  | .run t =>
      match s.pc t with
      | .getSwap initial => ¬ (initial = 0 ∧ s.ref.refcnt = 0)
      | .releaseStore loaded => s.ref.refcnt = loaded
      | .releaseTest stored => s.ref.refcnt = 0 → s.ref.destructor = true → stored = 0
      | _ => True
  | _ => True

instance (s : RefcntRun τ) : (i : RefcntStep τ) → Decidable (Undisturbed s i)
  | .get _ => inferInstanceAs (Decidable True)
  | .release _ => inferInstanceAs (Decidable True)
  | .run t =>
      show Decidable (match s.pc t with
        | .getSwap initial => ¬ (initial = 0 ∧ s.ref.refcnt = 0)
        | .releaseStore loaded => s.ref.refcnt = loaded
        | .releaseTest stored => s.ref.refcnt = 0 → s.ref.destructor = true → stored = 0
        | _ => True) from
      match s.pc t with
      | .getSwap _ => inferInstanceAs (Decidable (¬ _))
      | .releaseStore loaded => inferInstanceAs (Decidable (s.ref.refcnt = loaded))
      | .releaseTest _ => inferInstanceAs (Decidable (_ → _ → _))
      | .idle | .getGuard | .getLoad | .releaseGuard | .releaseLoad | .releaseDestroy =>
          inferInstanceAs (Decidable True)

/-! ## Counting threads -/

/-- In `refcnt_release`, before its write. -/
def RefcntPc.beforeStore : RefcntPc → Bool
  | .releaseGuard | .releaseLoad | .releaseStore _ => true
  | _ => false

/-- In `refcnt_release`, after its write. -/
def RefcntPc.afterStore : RefcntPc → Bool
  | .releaseTest _ | .releaseDestroy => true
  | _ => false

/-- In `refcnt_release`, after writing zero. -/
def RefcntPc.closing : RefcntPc → Bool
  | .releaseTest stored => stored == 0
  | .releaseDestroy => true
  | _ => false

/-- What holds in every state of an undisturbed run, where `releasing`, `finishing` and `closing` are
    the threads at the three kinds of program points. -/
structure Counted (s : RefcntRun τ) (releasing finishing closing : List τ) : Prop where
  releasing_marks : Marks s.pc RefcntPc.beforeStore releasing
  finishing_marks : Marks s.pc RefcntPc.afterStore finishing
  closing_marks : Marks s.pc RefcntPc.closing closing
  count : s.ref.refcnt.toNat = s.held.length + releasing.length
  calls : 1 + s.successes .get =
    s.held.length + releasing.length + finishing.length + s.successes .release
  alive : s.ref.refcnt ≠ 0 → s.destroyed = 0 ∧ closing = []
  dead : s.ref.refcnt = 0 → s.ref.destructor = true → s.destroyed + closing.length = 1
  quiet : s.ref.destructor = false → s.destroyed = 0
  destroying : ∀ t, s.pc t = .releaseDestroy → s.ref.destructor = true

/-- Some lists count the threads, and the bookkeeping is right. -/
def RefcntRun.Inv (s : RefcntRun τ) : Prop :=
  Recorded s ∧ ∃ releasing finishing closing, Counted s releasing finishing closing

section Moves

variable {ck : CkPr} {s s' : RefcntRun τ} {t : τ} {i : RefcntStep τ} {p : RefcntPc}
  {releasing finishing closing : List τ}

omit [DecidableEq τ] in
@[simp] theorem successes_with_held (s : RefcntRun τ) (held : List τ) (call : RefcntCall) :
    RefcntRun.successes { s with held := held } call = s.successes call := rfl

omit [DecidableEq τ] in
@[simp] theorem successes_with_destroyed (s : RefcntRun τ) (n : ℕ) (call : RefcntCall) :
    RefcntRun.successes { s with destroyed := n } call = s.successes call := rfl

@[simp] theorem successes_begin (s : RefcntRun τ) (t : τ) (p : RefcntPc) (call : RefcntCall) :
    (s.begin t p).successes call = s.successes call := rfl

@[simp] theorem successes_goto (s : RefcntRun τ) (t : τ) (p : RefcntPc) (call : RefcntCall) :
    (s.goto t p).successes call = s.successes call := rfl

@[simp] theorem successes_store (s : RefcntRun τ) (t : τ) (v : BitVec 32) (call : RefcntCall) :
    (s.store t v).successes call = s.successes call := rfl

@[simp] theorem successes_ret (s : RefcntRun τ) (t : τ) (call call' : RefcntCall) (result : AResult) :
    (s.ret t call result).successes call' =
      s.successes call' + if call = call' ∧ result = aOk then 1 else 0 := by
  simp [RefcntRun.successes, RefcntRun.ret, List.countP_append, List.countP_singleton]

theorem successes_ret_of_failed {result : AResult} (hfailed : afailed result = true) (s : RefcntRun τ)
    (t : τ) (call call' : RefcntCall) : (s.ret t call result).successes call' = s.successes call' := by
  rw [successes_ret, if_neg fun hok => ne_aOk_of_afailed hfailed hok.2, Nat.add_zero]

omit [DecidableEq τ] in
theorem Counted.references_eq (h : Counted s releasing finishing closing) :
    s.references = s.held.length + releasing.length + finishing.length := by
  have hcalls := h.calls
  unfold RefcntRun.references
  omega

theorem Counted.destroying_update (h : Counted s releasing finishing closing)
    (hpc : s'.pc = Function.update s.pc t p) (href : s'.ref.destructor = s.ref.destructor)
    (hp : p = .releaseDestroy → s.ref.destructor = true) :
    ∀ u, s'.pc u = .releaseDestroy → s'.ref.destructor = true := by
  intro u hu
  rw [href]
  rw [hpc] at hu
  by_cases hut : u = t
  · subst hut
    rw [Function.update_self] at hu
    exact hp hu
  · rw [Function.update_of_ne hut] at hu
    exact h.destroying u hu

theorem Counted.keep (h : Counted s releasing finishing closing) {q : RefcntPc} (hfrom : s.pc t = q)
    (hpc : s'.pc = Function.update s.pc t p) (hbefore : p.beforeStore = q.beforeStore)
    (hafter : p.afterStore = q.afterStore) (hclosing : p.closing = q.closing)
    (hdestroy : p = .releaseDestroy → s.ref.destructor = true) (href : s'.ref = s.ref)
    (hheld : s'.held = s.held) (hdestroyed : s'.destroyed = s.destroyed)
    (hsuccesses : ∀ call, s'.successes call = s.successes call) :
    Counted s' releasing finishing closing where
  releasing_marks := hpc ▸ h.releasing_marks.keep (hfrom ▸ hbefore)
  finishing_marks := hpc ▸ h.finishing_marks.keep (hfrom ▸ hafter)
  closing_marks := hpc ▸ h.closing_marks.keep (hfrom ▸ hclosing)
  count := by
    rw [href, hheld]
    exact h.count
  calls := by
    rw [hheld, hsuccesses, hsuccesses]
    exact h.calls
  alive := by
    rw [href, hdestroyed]
    exact h.alive
  dead := by
    rw [href, hdestroyed]
    exact h.dead
  quiet := by
    rw [href, hdestroyed]
    exact h.quiet
  destroying := h.destroying_update hpc (by rw [href]) hdestroy

theorem Counted.goto (h : Counted s releasing finishing closing) {q : RefcntPc} (hfrom : s.pc t = q)
    (hbefore : p.beforeStore = q.beforeStore) (hafter : p.afterStore = q.afterStore)
    (hclosing : p.closing = q.closing) (hdestroy : p = .releaseDestroy → s.ref.destructor = true) :
    Counted (s.goto t p) releasing finishing closing :=
  h.keep hfrom rfl hbefore hafter hclosing hdestroy rfl rfl rfl fun _ => rfl

/-- A release begins: its reference is no longer held, and not yet given back. -/
theorem Counted.beginRelease (h : Counted s releasing finishing closing) (hpc : s.pc t = .idle)
    (hheld : t ∈ s.held) :
    Counted { s.begin t .releaseGuard with held := s.held.erase t } (t :: releasing) finishing
      closing := by
  have hlength := List.length_erase_of_mem hheld
  have hpos := List.length_pos_of_mem hheld
  have hcount := h.count
  have hcalls := h.calls
  constructor
  case releasing_marks => exact h.releasing_marks.enter (by rw [hpc]; rfl) rfl
  case finishing_marks => exact h.finishing_marks.keep (by rw [hpc]; rfl)
  case closing_marks => exact h.closing_marks.keep (by rw [hpc]; rfl)
  case count =>
    simp only [RefcntRun.begin, List.length_cons]
    omega
  case calls =>
    simp only [successes_with_held, successes_begin, List.length_cons]
    omega
  case alive => exact h.alive
  case dead => exact h.dead
  case quiet => exact h.quiet
  case destroying => exact h.destroying_update rfl rfl fun hp => by cases hp

theorem Counted.swap (h : Counted s releasing finishing closing)
    (hpc : s.pc t = .getSwap s.ref.refcnt) (hne : s.ref.refcnt ≠ 0)
    (hbound : RefcntRun.references
      { (s.store t (s.ref.refcnt + 1)).ret t .get aOk with held := t :: s.held } < 2 ^ 32) :
    Counted { (s.store t (s.ref.refcnt + 1)).ret t .get aOk with held := t :: s.held }
      releasing finishing closing := by
  have hcount := h.count
  have hcalls := h.calls
  have halive := h.alive hne
  have hroom : s.ref.refcnt.toNat + 1 < 2 ^ 32 := by
    have href := h.references_eq
    simp only [RefcntRun.references, successes_with_held, successes_ret, successes_store, if_true,
      and_true, reduceCtorEq, if_false] at hbound href
    omega
  have hnew : (s.ref.refcnt + 1).toNat = s.ref.refcnt.toNat + 1 := by
    rw [BitVec.toNat_add]
    exact Nat.mod_eq_of_lt hroom
  have hne' : s.ref.refcnt + 1 ≠ 0 := by
    intro hzero
    rw [hzero] at hnew
    cases hnew
  constructor
  case releasing_marks => exact h.releasing_marks.keep (by rw [hpc]; rfl)
  case finishing_marks => exact h.finishing_marks.keep (by rw [hpc]; rfl)
  case closing_marks => exact h.closing_marks.keep (by rw [hpc]; rfl)
  case count =>
    change (s.ref.refcnt + 1).toNat = _
    rw [hnew, List.length_cons]
    omega
  case calls =>
    simp only [successes_with_held, successes_ret, successes_store, List.length_cons, and_self,
      if_true, reduceCtorEq, false_and, if_false]
    omega
  case alive => exact fun _ => halive
  case dead => exact fun hzero => absurd hzero hne'
  case quiet => exact h.quiet
  case destroying => exact h.destroying_update rfl rfl fun hp => by cases hp

/-- A release writes over the count it has read. -/
theorem Counted.releaseStore (h : Counted s releasing finishing closing)
    (hpc : s.pc t = .releaseStore s.ref.refcnt) :
    ∃ closing', Counted
      ((s.store t (s.ref.refcnt - 1)).goto t (.releaseTest (s.ref.refcnt - 1)))
      (releasing.erase t) (t :: finishing) closing' := by
  have hcount := h.count
  have hcalls := h.calls
  obtain ⟨hmarks, hlength⟩ := h.releasing_marks.leave (t := t)
    (p := .releaseTest (s.ref.refcnt - 1)) (by rw [hpc]; rfl) rfl
  have hfinishing := h.finishing_marks.enter (t := t) (p := .releaseTest (s.ref.refcnt - 1))
    (by rw [hpc]; rfl) rfl
  have hne : s.ref.refcnt ≠ 0 := by
    intro hzero
    have hnone : s.ref.refcnt.toNat = 0 := by rw [hzero]; rfl
    omega
  obtain ⟨hdestroyed, hnil⟩ := h.alive hne
  subst hnil
  have hnew : (s.ref.refcnt - 1).toNat = s.ref.refcnt.toNat - 1 := by bv_omega
  have hcount' : (s.ref.refcnt - 1).toNat = s.held.length + (releasing.erase t).length := by
    rw [hnew]
    omega
  have hcalls' : 1 + s.successes .get =
      s.held.length + (releasing.erase t).length + (t :: finishing).length +
        s.successes .release := by
    rw [List.length_cons]
    omega
  have hdestroying :
      ∀ u, ((s.store t (s.ref.refcnt - 1)).goto t (.releaseTest (s.ref.refcnt - 1))).pc u =
        .releaseDestroy → s.ref.destructor = true :=
    h.destroying_update rfl rfl fun hp => by cases hp
  by_cases hzero : s.ref.refcnt - 1 = 0
  · refine ⟨[t], ⟨hmarks, hfinishing, ?_, hcount', hcalls', fun hne' => absurd hzero hne', ?_,
      h.quiet, hdestroying⟩⟩
    · exact h.closing_marks.enter (by rw [hpc]; rfl) (beq_iff_eq.2 hzero)
    · intro _ _
      change s.destroyed + 1 = 1
      omega
  · refine ⟨[], ⟨hmarks, hfinishing, ?_, hcount', hcalls', fun _ => ⟨hdestroyed, rfl⟩,
      fun hzero' => absurd hzero' hzero, h.quiet, hdestroying⟩⟩
    refine h.closing_marks.keep ?_
    rw [hpc]
    exact beq_eq_false_iff_ne.2 hzero

theorem Counted.releaseDone (h : Counted s releasing finishing closing) {stored : BitVec 32}
    (hpc : s.pc t = .releaseTest stored) (hdone : ¬ (s.ref.refcnt = 0 ∧ s.ref.destructor = true)) :
    ∃ closing', Counted (s.ret t .release aOk) releasing (finishing.erase t) closing' := by
  have hcalls := h.calls
  obtain ⟨hfinishing, hlength⟩ := h.finishing_marks.leave (t := t) (p := .idle)
    (by rw [hpc]; rfl) rfl
  have hreleasing := h.releasing_marks.keep (t := t) (p := .idle) (by rw [hpc]; rfl)
  have hcalls' : 1 + (s.ret t .release aOk).successes .get =
      s.held.length + releasing.length + (finishing.erase t).length +
        (s.ret t .release aOk).successes .release := by
    simp only [successes_ret, and_self, if_true, reduceCtorEq, false_and, if_false]
    omega
  have hdead : ∀ n : ℕ, s.ref.refcnt = 0 → s.ref.destructor = true → n = 1 :=
    fun _ hzero hdestructor => absurd ⟨hzero, hdestructor⟩ hdone
  have hdestroying :
      ∀ u, (s.ret t .release aOk).pc u = .releaseDestroy → s.ref.destructor = true :=
    h.destroying_update rfl rfl fun hp => by cases hp
  by_cases hzero : stored = 0
  · have hclosing := h.closing_marks.leave (t := t) (p := .idle)
      (by rw [hpc]; exact beq_iff_eq.2 hzero) rfl
    refine ⟨closing.erase t, ⟨hreleasing, hfinishing, hclosing.1, h.count, hcalls', ?_, hdead _,
      h.quiet, hdestroying⟩⟩
    intro hne
    obtain ⟨hdestroyed, hnil⟩ := h.alive hne
    rw [hnil] at hclosing ⊢
    exact ⟨hdestroyed, rfl⟩
  · have hclosing := h.closing_marks.keep (t := t) (p := .idle)
      (by rw [hpc]; exact (beq_eq_false_iff_ne.2 hzero).symm)
    exact ⟨closing, ⟨hreleasing, hfinishing, hclosing, h.count, hcalls', h.alive, hdead _,
      h.quiet, hdestroying⟩⟩

theorem Counted.destroy (h : Counted s releasing finishing closing)
    (hpc : s.pc t = .releaseDestroy) :
    Counted { s.ret t .release aOk with destroyed := s.destroyed + 1 }
      releasing (finishing.erase t) (closing.erase t) := by
  have hcalls := h.calls
  have hdestructor := h.destroying t hpc
  obtain ⟨hfinishing, hlength⟩ := h.finishing_marks.leave (t := t) (p := .idle)
    (by rw [hpc]; rfl) rfl
  obtain ⟨hclosing, hclosing_length⟩ := h.closing_marks.leave (t := t) (p := .idle)
    (by rw [hpc]; rfl) rfl
  have hzero : s.ref.refcnt = 0 := by
    by_contra hne
    rw [(h.alive hne).2] at hclosing_length
    cases hclosing_length
  have hdead := h.dead hzero hdestructor
  constructor
  case releasing_marks => exact h.releasing_marks.keep (by rw [hpc]; rfl)
  case finishing_marks => exact hfinishing
  case closing_marks => exact hclosing
  case count => exact h.count
  case calls =>
    change 1 + (s.ret t .release aOk).successes .get = s.held.length + releasing.length +
      (finishing.erase t).length + (s.ret t .release aOk).successes .release
    simp only [successes_ret, and_self, if_true, reduceCtorEq, false_and, if_false]
    omega
  case alive => exact fun hne => absurd hzero hne
  case dead =>
    intro _ _
    change s.destroyed + 1 + (closing.erase t).length = 1
    omega
  case quiet =>
    intro hfalse
    rw [show s.ref.destructor = false from hfalse] at hdestructor
    cases hdestructor
  case destroying => exact h.destroying_update rfl rfl fun hp => by cases hp

/-! ## Undisturbed runs -/

/-- **An undisturbed step** keeps the counting exact. -/
theorem counted_step (hck : ck.Documented) (h : s.Inv) (hG : Undisturbed s i)
    (hstep : s.boundedStep ck i = some s') : s'.Inv := by
  obtain ⟨hrec, releasing, finishing, closing, hcounted⟩ := h
  obtain ⟨hstep, hbound⟩ := Option.filter_eq_some_iff.1 hstep
  rw [decide_eq_true_iff] at hbound
  refine ⟨recorded_step hck hrec hstep, ?_⟩
  -- a thread that is about to give a reference back has one
  have hpos : ∀ {t}, (s.pc t).beforeStore = true → s.ref.refcnt ≠ 0 := by
    intro t hbefore hzero
    have hcount := hcounted.count
    have hlength := hcounted.releasing_marks.length_pos hbefore
    have hnone : s.ref.refcnt.toNat = 0 := by rw [hzero]; rfl
    omega
  cases refcntMove_of_step hck hrec hstep with
  | beginGet hpc =>
      exact ⟨_, _, _, hcounted.keep (p := .getGuard) hpc rfl rfl rfl rfl (fun hp => by cases hp) rfl rfl
        rfl fun _ => rfl⟩
  | beginRelease hpc hheld => exact ⟨_, _, _, hcounted.beginRelease hpc hheld⟩
  | getDead hpc _ =>
      exact ⟨_, _, _, hcounted.keep (p := .idle) hpc rfl rfl rfl rfl (fun hp => by cases hp) rfl rfl rfl
        (successes_ret_of_failed (afailed_aresultError _ _) s _ .get)⟩
  | getAlive hpc _ =>
      exact ⟨_, _, _, hcounted.goto hpc rfl rfl rfl fun hp => by cases hp⟩
  | getLoad hpc =>
      exact ⟨_, _, _, hcounted.goto hpc rfl rfl rfl fun hp => by cases hp⟩
  | swapZero hpc hzero =>
      simp only [Undisturbed, hpc] at hG
      exact absurd ⟨hzero, hzero⟩ hG
  | swap hpc hne => exact ⟨_, _, _, hcounted.swap hpc hne hbound⟩
  | swapDead hpc _ _ =>
      exact ⟨_, _, _, hcounted.keep (p := .idle) hpc rfl rfl rfl rfl (fun hp => by cases hp) rfl rfl rfl
        (successes_ret_of_failed (afailed_aresultError _ _) s _ .get)⟩
  | swapAgain hpc _ _ =>
      exact ⟨_, _, _, hcounted.goto hpc rfl rfl rfl fun hp => by cases hp⟩
  | releaseDead hpc hzero => exact absurd hzero (hpos (by rw [hpc]; rfl))
  | releaseAlive hpc _ =>
      exact ⟨_, _, _, hcounted.goto hpc rfl rfl rfl fun hp => by cases hp⟩
  | releaseLoad hpc =>
      exact ⟨_, _, _, hcounted.goto hpc rfl rfl rfl fun hp => by cases hp⟩
  | releaseStore hpc =>
      simp only [Undisturbed, hpc] at hG
      subst hG
      obtain ⟨closing', hcounted'⟩ := hcounted.releaseStore hpc
      exact ⟨_, _, _, hcounted'⟩
  | releaseLast hpc hzero hdestructor =>
      simp only [Undisturbed, hpc] at hG
      have hstored := hG hzero hdestructor
      subst hstored
      exact ⟨_, _, _, hcounted.goto hpc rfl rfl rfl fun _ => hdestructor⟩
  | releaseDone hpc hdone =>
      obtain ⟨closing', hcounted'⟩ := hcounted.releaseDone hpc hdone
      exact ⟨_, _, _, hcounted'⟩
  | destroy hpc => exact ⟨_, _, _, hcounted.destroy hpc⟩

omit [DecidableEq τ] in
/-- While no call is in progress, there is nobody to count. -/
theorem countExact_of_inv (h : s.Inv) : CountExact s := by
  obtain ⟨_, releasing, finishing, closing, hcounted⟩ := h
  intro hidle
  have hreleasing : releasing = [] := hcounted.releasing_marks.eq_nil fun t => by rw [hidle t]; rfl
  have hfinishing : finishing = [] := hcounted.finishing_marks.eq_nil fun t => by rw [hidle t]; rfl
  have hclosing : closing = [] := hcounted.closing_marks.eq_nil fun t => by rw [hidle t]; rfl
  subst hreleasing hfinishing hclosing
  have hcount : (s.ref.refcnt.toNat : ℤ) = s.references := by
    rw [hcounted.references_eq, hcounted.count]
    simp
  refine ⟨hcount, ?_⟩
  rw [← hcount]
  by_cases hzero : s.ref.refcnt = 0
  · cases hdestructor : s.ref.destructor with
    | false => simpa using hcounted.quiet hdestructor
    | true => simpa [hzero] using hcounted.dead hzero hdestructor
  · have hne : ¬ ((s.ref.refcnt.toNat : ℤ) = 0 ∧ s.ref.destructor = true) := by
      rintro ⟨htoNat, _⟩
      exact hzero (BitVec.eq_of_toNat_eq (by simpa using htoNat))
    rw [if_neg hne]
    exact (hcounted.alive hzero).1

omit [DecidableEq τ] in
theorem refcntInv_new (destruct : Bool) (owner : τ) : (RefcntRun.new destruct owner).Inv := by
  refine ⟨recorded_new destruct owner, [], [], [], ?_⟩
  constructor
  case releasing_marks => exact .nil fun _ => rfl
  case finishing_marks => exact .nil fun _ => rfl
  case closing_marks => exact .nil fun _ => rfl
  case count => rfl
  case calls => rfl
  case alive => exact fun _ => ⟨rfl, rfl⟩
  case dead => exact fun hzero => by cases hzero
  case quiet => exact fun _ => rfl
  case destroying => exact fun _ hpc => by cases hpc

/-- **Every undisturbed run** counts its references. -/
theorem countExact_throughout (hck : ck.Documented) (destruct : Bool) (owner : τ)
    (steps : List (RefcntStep τ))
    (hG : Meets (RefcntRun.boundedStep ck) Undisturbed (.new destruct owner) steps) :
    Throughout (RefcntRun.boundedStep ck) CountExact (.new destruct owner) steps :=
  throughout_of_meets (fun _ _ _ hinv hundisturbed hstep => counted_step hck hinv hundisturbed hstep)
    (fun _ => countExact_of_inv) steps _ (refcntInv_new destruct owner) hG

end Moves

/-- Two threads get a reference each, one of them at its second try, and release what they hold; the
    last release comes in the middle of one more get. -/
def interleavedCalls : List (RefcntStep Bool) :=
  [.get false, .run false, .run false, .get true, .run true, .run true, .run false, .run true,
    .run true, .run true, .release false, .run false, .release true, .run true, .run false, .run false,
    .run true, .run true, .run false, .run true, .get false, .run false, .run false,
    .release true, .run true, .run true, .run true, .run true, .run true, .run false]

theorem countExact_throughout_interleavedCalls :
    Throughout (RefcntRun.boundedStep compareAndSwap) CountExact (.new true true) interleavedCalls ∧
      ∃ s, exec (RefcntRun.boundedStep compareAndSwap) (.new true true) interleavedCalls = some s ∧
        (s.pc true, s.pc false) = (.idle, .idle) ∧ s.successes .get = 2 ∧ s.successes .release = 3 ∧
        s.ref.refcnt = 0 ∧ s.destroyed = 1 := by
  have hrun : (exec (RefcntRun.boundedStep compareAndSwap) (.new true true) interleavedCalls).map
      (fun s => ((s.pc true, s.pc false), s.successes .get, s.successes .release, s.ref.refcnt,
        s.destroyed)) = some ((.idle, .idle), 2, 3, 0, 1) := by decide +kernel
  have hmeets : Meets (RefcntRun.boundedStep compareAndSwap) Undisturbed (.new true true)
      interleavedCalls := by decide +kernel
  obtain ⟨s, hs, heq⟩ := Option.map_eq_some_iff.1 hrun
  simp only [Prod.mk.injEq] at heq ⊢
  exact ⟨countExact_throughout compareAndSwap_documented true true _ hmeets, s, hs, heq⟩

/-- A get is made between the read and the write of another thread's release. -/
def getDuringRelease : List (RefcntStep Bool) :=
  [.get false, .run false, .run false, .run false, .release false, .run false, .run false,
    .get true, .run true, .run true, .run true, .run false, .run false]

/-- A release is made between the write of another thread's release and its last read. -/
def releaseDuringRelease : List (RefcntStep Bool) :=
  [.get false, .run false, .run false, .run false, .release true, .run true, .run true, .run true,
    .release false, .run false, .run false, .run false, .run false, .run false, .run true, .run true]

/-- One loses the get, the other calls the destructor twice. -/
theorem getDuringRelease_lost :
    (∃ s, exec (RefcntRun.boundedStep compareAndSwap) (.new true true) getDuringRelease = some s ∧
      (∀ t, s.pc t = .idle) ∧ s.ref.refcnt = 1 ∧ s.references = 2 ∧ ¬ CountExact s) ∧
    ∃ s, exec (RefcntRun.boundedStep compareAndSwap) (.new true true) releaseDuringRelease = some s ∧
      (∀ t, s.pc t = .idle) ∧ s.references = 0 ∧ s.destroyed = 2 ∧ ¬ CountExact s := by
  have hget : (exec (RefcntRun.boundedStep compareAndSwap) (.new true true) getDuringRelease).map
      (fun s => (s.pc true, s.pc false, s.ref.refcnt, s.references)) =
      some (.idle, .idle, 1, 2) := by decide +kernel
  have hrelease : (exec (RefcntRun.boundedStep compareAndSwap) (.new true true)
      releaseDuringRelease).map (fun s => (s.pc true, s.pc false, s.references, s.destroyed)) =
      some (.idle, .idle, 0, 2) := by decide +kernel
  obtain ⟨s, hs, hs_eq⟩ := Option.map_eq_some_iff.1 hget
  obtain ⟨u, hu, hu_eq⟩ := Option.map_eq_some_iff.1 hrelease
  simp only [Prod.mk.injEq] at hs_eq hu_eq
  obtain ⟨hs_true, hs_false, hs_count, hs_references⟩ := hs_eq
  obtain ⟨hu_true, hu_false, hu_references, hu_destroyed⟩ := hu_eq
  have hs_idle : ∀ t, s.pc t = .idle := Bool.forall_bool.2 ⟨hs_false, hs_true⟩
  have hu_idle : ∀ t, u.pc t = .idle := Bool.forall_bool.2 ⟨hu_false, hu_true⟩
  refine ⟨⟨s, hs, hs_idle, hs_count, hs_references, fun h => ?_⟩,
    u, hu, hu_idle, hu_references, hu_destroyed, fun h => ?_⟩
  · have hcount := (h hs_idle).1
    rw [hs_count, hs_references] at hcount
    exact absurd hcount (by decide)
  · have hdestroyed := (h hu_idle).2
    rw [hu_destroyed] at hdestroyed
    split at hdestroyed <;> omega

end Tsl
