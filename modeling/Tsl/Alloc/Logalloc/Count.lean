import Tsl.Alloc.Logalloc

set_option autoImplicit false

/-! # The reference count of a block

`logalloc_reference` and `logalloc_free` look at the count of a block and then change it, each with an
atomic operation of its own. The machine below runs any number of threads on one block, with one step
for each of the two; in between the others may do what they like. A thread calls `logalloc_reference`
while it holds a reference, and `logalloc_free` for one that it holds; references are handed on freely.

The count has 8 bits. It is the number of references held exactly in the runs in which nobody
increments a count of 255, which the check before does not prevent
(`countsHeld_throughout_iff`). -/

namespace Tsl

open Lib

variable {τ : Type*}

/-- The part of `ck_pr.h` that counts, from what the target holds to what it holds then. -/
structure CkPrChar where
  incChar : BitVec 8 → BitVec 8
  decChar : BitVec 8 → BitVec 8

/-- What it is documented to do. -/
structure CkPrChar.Documented (ck : CkPrChar) : Prop where
  inc : ∀ target, ck.incChar target = target + 1
  dec : ∀ target, ck.decChar target = target - 1

/-- The compiler's built-in atomic operations. -/
def builtinCkPrChar : CkPrChar where
  incChar := fun target => target + 1
  decChar := fun target => target - 1

theorem documented_builtinCkPrChar : builtinCkPrChar.Documented where
  inc := fun _ => rfl
  dec := fun _ => rfl

/-! ## The machine -/

/-- Where a thread is. -/
inductive HolderPc where
  | idle
  /-- `ch->refcnt == 255 || ch->refcnt == 0`. -/
  | referenceCheck
  /-- `ck_pr_inc_char((char *)&ch->refcnt)`. -/
  | referenceInc
  /-- `ch->refcnt == 0`. -/
  | freeCheck
  /-- `ck_pr_dec_char((char *)&ch->refcnt)`. -/
  | freeDec
deriving DecidableEq

/-- A block and the threads that use it. `held` has an entry for each reference, from its increment to
    its decrement, naming the thread that holds it; `returned` has what the calls returned, latest
    first. -/
structure BlockRun (τ : Type*) where
  refcnt : BitVec 8
  pc : τ → HolderPc
  held : List τ
  returned : List AResult

/-- What can happen: a thread begins a call, hands a reference to another, or makes the next step of
    the call it is in. -/
inductive BlockStep (τ : Type*) where
  | reference (t : τ)
  | free (t : τ)
  | give (t u : τ)
  | run (t : τ)

namespace BlockRun

/-- A block that `logalloc_alloc` has handed to `owner`. -/
def new (owner : τ) : BlockRun τ where
  refcnt := 1
  pc := fun _ => .idle
  held := [owner]
  returned := []

variable [DecidableEq τ]

def goto (s : BlockRun τ) (t : τ) (pc : HolderPc) : BlockRun τ :=
  { s with pc := Function.update s.pc t pc }

def ret (s : BlockRun τ) (t : τ) (result : AResult) : BlockRun τ :=
  { s with pc := Function.update s.pc t .idle, returned := result :: s.returned }

/-- The next step of a thread in `logalloc_reference` or `logalloc_free`. -/
def run (ck : CkPrChar) (s : BlockRun τ) (t : τ) : Option (BlockRun τ) :=
  match s.pc t with
  | .idle => none
  | .referenceCheck =>
      some (if s.refcnt = 255 ∨ s.refcnt = 0 then s.ret t aEBusy else s.goto t .referenceInc)
  | .referenceInc =>
      some { s.ret t aOk with refcnt := ck.incChar s.refcnt, held := t :: s.held }
  | .freeCheck => some (if s.refcnt = 0 then s.ret t aEInval else s.goto t .freeDec)
  | .freeDec =>
      some { s.ret t aOk with refcnt := ck.decChar s.refcnt, held := s.held.erase t }

/-- One step of the machine. -/
def step (ck : CkPrChar) (s : BlockRun τ) : BlockStep τ → Option (BlockRun τ)
  | .reference t => if s.pc t = .idle ∧ t ∈ s.held then some (s.goto t .referenceCheck) else none
  | .free t => if s.pc t = .idle ∧ t ∈ s.held then some (s.goto t .freeCheck) else none
  | .give t u =>
      if s.pc t = .idle ∧ t ∈ s.held then some { s with held := u :: s.held.erase t } else none
  | .run t => s.run ck t

end BlockRun

/-- The count is the number of references held, so it is not zero while there is one. -/
structure CountsHeld (s : BlockRun τ) : Prop where
  count : s.refcnt.toNat = s.held.length
  pos : s.held ≠ [] → s.refcnt ≠ 0

/-- The step increments no count of 255. -/
def IncBelowLimit (s : BlockRun τ) : BlockStep τ → Prop
  | .run t => s.pc t = .referenceInc → s.refcnt ≠ 255
  | _ => True

/-- A thread in a call holds a reference. -/
def CallersHold (s : BlockRun τ) : Prop := ∀ t, s.pc t ≠ .idle → t ∈ s.held

section Steps

variable {ck : CkPrChar} {s s' : BlockRun τ} {i : BlockStep τ} {t : τ} {pc : HolderPc}

theorem countsHeld_of_count (hcount : s.refcnt.toNat = s.held.length) : CountsHeld s where
  count := hcount
  pos := by
    intro hne hzero
    rw [hzero] at hcount
    exact hne (List.length_eq_zero_iff.1 hcount.symm)

theorem countsHeld_inc (hcount : s.refcnt.toNat = s.held.length) :
    (s.refcnt + 1).toNat = s.held.length + 1 ↔ s.refcnt ≠ 255 := by
  have hlt := s.refcnt.isLt
  have hlimit : s.refcnt = 255 ↔ s.refcnt.toNat = 255 := by
    rw [← BitVec.toNat_inj]
    rfl
  rw [BitVec.toNat_add, ← hcount, ne_eq, hlimit]
  simp only [BitVec.reduceToNat]
  omega

variable [DecidableEq τ]

theorem CallersHold.goto (h : CallersHold s) (ht : t ∈ s.held) : CallersHold (s.goto t pc) := by
  intro u hu
  by_cases hut : u = t
  · rw [hut]
    exact ht
  · simp only [BlockRun.goto, Function.update_of_ne hut] at hu
    exact h u hu

theorem CallersHold.ret {result : AResult} {refcnt : BitVec 8} {held : List τ} (h : CallersHold s)
    (hheld : ∀ u ∈ s.held, u ≠ t → u ∈ held) :
    CallersHold { s.ret t result with refcnt := refcnt, held := held } := by
  intro u hu
  by_cases hut : u = t
  · subst hut
    simp [BlockRun.ret] at hu
  · simp only [BlockRun.ret, Function.update_of_ne hut] at hu
    exact hheld u (h u hu) hut

/-- The steps, by what they do. Only an increment and a decrement change the count. -/
inductive BlockStepped (ck : CkPrChar) : BlockRun τ → BlockStep τ → BlockRun τ → Prop where
  /-- A thread that holds a reference begins a call. -/
  | begins {s : BlockRun τ} {i : BlockStep τ} {t : τ} {pc : HolderPc} (hheld : t ∈ s.held)
      (hlimit : IncBelowLimit s i) : BlockStepped ck s i (s.goto t pc)
  | gives {s : BlockRun τ} {t u : τ} (hidle : s.pc t = .idle) (hheld : t ∈ s.held) :
      BlockStepped ck s (.give t u) { s with held := u :: s.held.erase t }
  /-- A check that fails. -/
  | refuses {s : BlockRun τ} {t : τ} {result : AResult} (hlimit : IncBelowLimit s (.run t)) :
      BlockStepped ck s (.run t) (s.ret t result)
  /-- A check that succeeds. -/
  | passes {s : BlockRun τ} {t : τ} {pc : HolderPc} (hpc : s.pc t ≠ .idle)
      (hlimit : IncBelowLimit s (.run t)) : BlockStepped ck s (.run t) (s.goto t pc)
  | increments {s : BlockRun τ} {t : τ} (hpc : s.pc t = .referenceInc) :
      BlockStepped ck s (.run t)
        { s.ret t aOk with refcnt := ck.incChar s.refcnt, held := t :: s.held }
  | decrements {s : BlockRun τ} {t : τ} (hpc : s.pc t = .freeDec) :
      BlockStepped ck s (.run t)
        { s.ret t aOk with refcnt := ck.decChar s.refcnt, held := s.held.erase t }

theorem blockStepped (hstep : s.step ck i = some s') : BlockStepped ck s i s' := by
  cases i with
  | reference t | free t =>
      simp only [BlockRun.step, Option.ite_none_right_eq_some, Option.some.injEq] at hstep
      obtain ⟨⟨-, ht⟩, rfl⟩ := hstep
      exact .begins ht trivial
  | give t u =>
      simp only [BlockRun.step, Option.ite_none_right_eq_some, Option.some.injEq] at hstep
      obtain ⟨⟨hidle, ht⟩, rfl⟩ := hstep
      exact .gives hidle ht
  | run t =>
      simp only [BlockRun.step, BlockRun.run] at hstep
      cases hpc : s.pc t with
      | idle => simp [hpc] at hstep
      | referenceCheck | freeCheck =>
          simp only [hpc, Option.some.injEq] at hstep
          subst hstep
          have hlimit : IncBelowLimit s (.run t) := by simp [IncBelowLimit, hpc]
          split
          · exact .refuses hlimit
          · exact .passes (by simp [hpc]) hlimit
      | referenceInc =>
          simp only [hpc, Option.some.injEq] at hstep
          subst hstep
          exact .increments hpc
      | freeDec =>
          simp only [hpc, Option.some.injEq] at hstep
          subst hstep
          exact .decrements hpc

theorem callersHold_step (h : CallersHold s) (hstep : s.step ck i = some s') : CallersHold s' := by
  cases blockStepped hstep with
  | begins hheld hlimit => exact h.goto hheld
  | @gives t u hidle hheld =>
      intro v hv
      have hvt : v ≠ t := fun heq => hv (heq ▸ hidle)
      exact List.mem_cons_of_mem _ ((List.mem_erase_of_ne hvt).2 (h v hv))
  | refuses hlimit => exact h.ret fun u hu _ => hu
  | @passes t pc hpc hlimit => exact h.goto (h t hpc)
  | increments hpc => exact h.ret fun u hu _ => List.mem_cons_of_mem _ hu
  | decrements hpc => exact h.ret fun u hu hut => (List.mem_erase_of_ne hut).2 hu

/-- **One step** keeps the count exactly if it does not increment a count of 255. -/
theorem countsHeld_step_iff (hck : ck.Documented) (hcallers : CallersHold s) (h : CountsHeld s)
    (hstep : s.step ck i = some s') : CountsHeld s' ↔ IncBelowLimit s i := by
  have hcount := h.count
  cases blockStepped hstep with
  | begins hheld hlimit => exact iff_of_true (countsHeld_of_count hcount) hlimit
  | gives hidle hheld =>
      refine iff_of_true (countsHeld_of_count ?_) trivial
      have hpos := List.length_pos_of_mem hheld
      simp only [List.length_cons, List.length_erase_of_mem hheld]
      omega
  | refuses hlimit => exact iff_of_true (countsHeld_of_count hcount) hlimit
  | passes hpc hlimit => exact iff_of_true (countsHeld_of_count hcount) hlimit
  | increments hpc =>
      simp only [IncBelowLimit, hpc, forall_const, hck.inc]
      rw [← countsHeld_inc hcount]
      exact ⟨CountsHeld.count, fun hcount => countsHeld_of_count hcount⟩
  | @decrements t hpc =>
      refine iff_of_true (countsHeld_of_count ?_) (by simp [IncBelowLimit, hpc])
      -- the thread still holds the reference it gives up
      have ht := hcallers t (by simp [hpc])
      have hpos := List.length_pos_of_mem ht
      have hlt := s.refcnt.isLt
      simp only [hck.dec, List.length_erase_of_mem ht, BitVec.toNat_sub, BitVec.reduceToNat]
      omega

/-- **The count is the number of references** in exactly the runs in which nobody increments a count of
255. -/
theorem countsHeld_throughout_iff (hck : ck.Documented) (owner : τ) (steps : List (BlockStep τ)) :
    Throughout (BlockRun.step ck) CountsHeld (.new owner) steps ↔
      Meets (BlockRun.step ck) IncBelowLimit (.new owner) steps := by
  refine throughout_iff_meets (fun _ _ _ hcallers hstep => callersHold_step hcallers hstep)
    (fun _ _ _ hcallers h hstep => countsHeld_step_iff hck hcallers h hstep)
    (fun s i _ _ hnone => ?_) steps _ (fun _ hpc => absurd rfl hpc) (countsHeld_of_count rfl)
  cases i with
  | run t =>
      intro hpc
      simp [BlockRun.step, BlockRun.run, hpc] at hnone
  | reference t => trivial
  | free t => trivial
  | give t u => trivial

/-- A block that one thread takes a second reference to and hands it on. -/
theorem countsHeld_throughout_iff_handedOn :
    Throughout (BlockRun.step builtinCkPrChar) CountsHeld (.new 0)
        [.reference 0, .run 0, .run 0, .give 0 1, .free 1, .run 1, .run 1] ↔
      Meets (BlockRun.step builtinCkPrChar) IncBelowLimit (.new 0)
        [.reference 0, .run 0, .run 0, .give 0 1, .free 1, .run 1, .run 1] :=
  countsHeld_throughout_iff documented_builtinCkPrChar 0 _

/-- A thread calls `logalloc_reference`, uninterrupted. -/
def referenceAlone (t : Bool) : List (BlockStep Bool) := [.reference t, .run t, .run t]

/-- One thread takes references until the count is 254 and hands one to a second thread; both look at
the count, and then both increment it. -/
def racedReferences : List (BlockStep Bool) :=
  (List.replicate 253 (referenceAlone false)).flatten ++
    [.give false true, .reference false, .reference true, .run false, .run true, .run false, .run true]

/-- The count is 0, and 256 references are held. -/
theorem racedReferences_wraps :
    ((exec (BlockRun.step builtinCkPrChar) (.new false) racedReferences).map fun s =>
      (s.refcnt, s.held.length)) = some (0, 256) := by
  decide +kernel

/-- The count of a block with 256 holders is 0. -/
theorem countsHeld_fails_at_limit :
    ¬ Throughout (BlockRun.step builtinCkPrChar) CountsHeld (.new false) racedReferences := by
  intro h
  have hrun := racedReferences_wraps
  rw [Option.map_eq_some_iff] at hrun
  obtain ⟨s, hexec, hs⟩ := hrun
  rw [Prod.mk.injEq] at hs
  have hcount := (h.last hexec).count
  rw [hs.1, hs.2] at hcount
  simp at hcount

end Steps

/-! ## A call that nobody interrupts -/

section Alone

variable {ck : CkPrChar} {s : BlockRun τ} {t : τ} {a a' : Logalloc} {ptr : ℕ} {ret : AResult}
variable [DecidableEq τ]

theorem loadRefcnt_store {ch : ℕ} {val : BitVec 8} (hstore : a.store (ch + 1) val = some a') :
    a'.loadRefcnt ch = some val := by
  simp only [Logalloc.store, Option.ite_none_right_eq_some, Option.some.injEq] at hstore
  obtain ⟨hlt, rfl⟩ := hstore
  simp [Logalloc.loadRefcnt, Logalloc.load, hlt]

/-- `logalloc_reference`, as the thread's steps in the machine. -/
theorem logallocReference_steps (hck : ck.Documented) (hidle : s.pc t = .idle) (ht : t ∈ s.held)
    (hrefcnt : a.loadRefcnt (ptr - 2) = some s.refcnt)
    (hcall : logallocReference a ptr = some (ret, a')) :
    ∃ steps s', exec (BlockRun.step ck) s (.reference t :: steps) = some s' ∧
      s'.returned = ret :: s.returned ∧ a'.loadRefcnt (ptr - 2) = some s'.refcnt := by
  simp only [logallocReference, hrefcnt, Option.bind_eq_bind, Option.bind_some,
    BitVec.ofNat_eq_ofNat] at hcall
  by_cases hlimit : s.refcnt = 255#8 ∨ s.refcnt = 0#8
  · rw [if_pos hlimit] at hcall
    cases hcall
    refine ⟨[.run t], (s.goto t .referenceCheck).ret t aEBusy, ?_, rfl, hrefcnt⟩
    simp [exec, BlockRun.step, BlockRun.run, hidle, ht, if_pos hlimit, BlockRun.goto, BlockRun.ret]
  · rw [if_neg hlimit, Option.bind_eq_some_iff] at hcall
    obtain ⟨a₁, hstore, hcall⟩ := hcall
    cases hcall
    refine ⟨[.run t, .run t], { s.ret t aOk with refcnt := s.refcnt + 1, held := t :: s.held },
      ?_, rfl, loadRefcnt_store hstore⟩
    simp [exec, BlockRun.step, BlockRun.run, hidle, ht, if_neg hlimit, BlockRun.goto, BlockRun.ret,
      hck.inc]

theorem logallocFree_steps (hck : ck.Documented) (hidle : s.pc t = .idle) (ht : t ∈ s.held)
    (hrefcnt : a.loadRefcnt (ptr - 2) = some s.refcnt)
    (hcall : logallocFree a ptr = some (ret, a')) :
    ∃ steps s', exec (BlockRun.step ck) s (.free t :: steps) = some s' ∧
      s'.returned = ret :: s.returned ∧ a'.loadRefcnt (ptr - 2) = some s'.refcnt := by
  simp only [logallocFree, hrefcnt, Option.bind_eq_bind, Option.bind_some,
    BitVec.ofNat_eq_ofNat] at hcall
  by_cases hzero : s.refcnt = 0#8
  · rw [if_pos hzero] at hcall
    cases hcall
    refine ⟨[.run t], (s.goto t .freeCheck).ret t aEInval, ?_, rfl, hrefcnt⟩
    simp [exec, BlockRun.step, BlockRun.run, hidle, ht, hzero, BlockRun.goto, BlockRun.ret]
  · rw [if_neg hzero, Option.bind_eq_some_iff] at hcall
    obtain ⟨a₁, hstore, hcall⟩ := hcall
    cases hcall
    refine ⟨[.run t, .run t],
      { s.ret t aOk with refcnt := s.refcnt - 1, held := s.held.erase t }, ?_, rfl,
      loadRefcnt_store hstore⟩
    simp [exec, BlockRun.step, BlockRun.run, hidle, ht, if_neg hzero, BlockRun.goto, BlockRun.ret,
      hck.dec]

end Alone

end Tsl
