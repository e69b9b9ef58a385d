import Mathlib.Logic.Function.Basic
import Tsl.Lib.Simulation

set_option autoImplicit false

/-! # Stores of blocks

What an allocator is for. A block is taken with whatever is in it, its owner writes to it, and it is
released. Blocks have their contents to themselves: what was written to one, or what it was taken with,
stays there whatever is done to the others (`Blocks.Holds.exec`).

An allocator that simulates `blockStep` keeps the blocks of its clients intact: it hands out nothing
that is live, none of its calls changes what is in a live block, and no write to one block is one to
another (`Simulates.holds`). -/

namespace Tsl.Lib

variable {β κ ω : Type*}

/-- The blocks that are there, each with what is at its offsets. -/
abbrev Blocks (β κ ω : Type*) := β → Option (κ → Option ω)

/-- The block is there, with `val` at the offset. -/
def Blocks.Holds (s : Blocks β κ ω) (block : β) (offset : κ) (val : ω) : Prop :=
  ∃ content, s block = some content ∧ content offset = some val

/-- What can happen to a store. -/
inductive BlockOp (β κ ω : Type*) where
  | take (block : β) (content : κ → Option ω)
  | write (block : β) (offset : κ) (val : ω)
  | release (block : β)

/-- The owner of the block gives it up, or writes to the offset. -/
def BlockOp.Touches (block : β) (offset : κ) : BlockOp β κ ω → Prop
  | .take _ _ => False
  | .write b off _ => b = block ∧ off = offset
  | .release b => b = block

variable [DecidableEq β] [DecidableEq κ]

/-- One operation. A block is taken when it is not there, and written to where it has something. -/
def blockStep (s : Blocks β κ ω) : BlockOp β κ ω → Option (Blocks β κ ω)
  | .take block content =>
      match s block with
      | none => some (Function.update s block (some content))
      | some _ => none
  | .write block offset val =>
      match s block with
      | none => none
      | some content =>
          if (content offset).isSome then
            some (Function.update s block (some (Function.update content offset (some val))))
          else none
  | .release block =>
      match s block with
      | none => none
      | some _ => some (Function.update s block none)

variable {s s' : Blocks β κ ω} {block : β} {offset : κ} {val : ω}

theorem blockStep_take {content : κ → Option ω} (h : s block = none) :
    blockStep s (.take block content) = some (Function.update s block (some content)) := by
  simp only [blockStep, h]

theorem blockStep_write {content : κ → Option ω} (h : s block = some content)
    (hoffset : (content offset).isSome) : blockStep s (.write block offset val) =
      some (Function.update s block (some (Function.update content offset (some val)))) := by
  simp only [blockStep, h, hoffset, if_true]

theorem blockStep_release {content : κ → Option ω} (h : s block = some content) :
    blockStep s (.release block) = some (Function.update s block none) := by
  simp only [blockStep, h]

/-- What is there stays there while others are at work; nobody is handed the block meanwhile. -/
theorem Blocks.Holds.step {op : BlockOp β κ ω} (hs : s.Holds block offset val)
    (hop : ¬ op.Touches block offset) (h : blockStep s op = some s') : s'.Holds block offset val := by
  obtain ⟨content, hblock, hval⟩ := hs
  cases op with
  | take b taken =>
      simp only [blockStep] at h
      split at h
      · next hfree =>
        obtain rfl := Option.some.inj h
        have hne : block ≠ b := by
          rintro rfl
          cases hblock.symm.trans hfree
        exact ⟨content, (Function.update_of_ne hne _ _).trans hblock, hval⟩
      · cases h
  | write b off v =>
      simp only [blockStep] at h
      split at h
      · cases h
      · next old hold =>
        simp only [Option.ite_none_right_eq_some, Option.some.injEq] at h
        obtain ⟨-, rfl⟩ := h
        by_cases hsame : block = b
        · subst hsame
          obtain rfl := Option.some.inj (hblock.symm.trans hold)
          have hne : offset ≠ off := fun heq => hop ⟨rfl, heq.symm⟩
          exact ⟨_, Function.update_self _ _ _, (Function.update_of_ne hne _ _).trans hval⟩
        · exact ⟨content, (Function.update_of_ne hsame _ _).trans hblock, hval⟩
  | release b =>
      simp only [blockStep] at h
      split at h
      · cases h
      · obtain rfl := Option.some.inj h
        have hne : block ≠ b := fun heq => hop heq.symm
        exact ⟨content, (Function.update_of_ne hne _ _).trans hblock, hval⟩

/-- So it does in a run. -/
theorem Blocks.Holds.exec {ops : List (BlockOp β κ ω)} (hs : s.Holds block offset val)
    (hops : ∀ op ∈ ops, ¬ op.Touches block offset) (h : exec blockStep s ops = some s') :
    s'.Holds block offset val := by
  induction ops generalizing s with
  | nil =>
      simp only [exec_nil, Option.some.injEq] at h
      exact h ▸ hs
  | cons op ops ih =>
      obtain ⟨t, ht, hrest⟩ := exec_cons_eq_some.1 h
      exact ih (hs.step (hops op List.mem_cons_self) ht)
        (fun o ho => hops o (List.mem_cons_of_mem _ ho)) hrest

/-- **What a client keeps in a block** is kept by every machine that simulates a store of blocks: as long
as none of the steps it takes is the client's, to give the block up or to write there. -/
theorem Simulates.holds {σ ι : Type*} {step : σ → ι → Option σ} {I : σ → Prop}
    {view : σ → Blocks β κ ω} {label : σ → ι → List (BlockOp β κ ω)}
    (h : Simulates step blockStep I view label) {G : σ → ι → Prop}
    (hG : ∀ s i s', I s → step s i = some s' → G s i →
      ∀ op ∈ label s i, ¬ op.Touches block offset)
    {t t' : σ} {is : List ι} (ht : I t) (hold : (view t).Holds block offset val)
    (his : Meets step G t is) (hrun : Lib.exec step t is = some t') :
    (view t').Holds block offset val := by
  refine (exec_invariant_of_meets (I := fun s => I s ∧ (view s).Holds block offset val) ?_ ⟨ht, hold⟩
    his hrun).2
  rintro s i s' ⟨hs, hold⟩ hGs hstep
  exact ⟨h.inv s i s' hs hstep, hold.exec (hG s i s' hs hstep hGs) (h.sim s i s' hs hstep)⟩

end Tsl.Lib
