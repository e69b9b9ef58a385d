import Mathlib.Data.Set.Basic

set_option autoImplicit false

/-! # Tilings of an interval

A list of blocks in memory, each of which says how long it is, tiles `[0, n)`: `starts` are the cells
at which a block starts, `len` says how long the block at a start is. Following the lengths from 0
visits exactly the starts and ends at `n`.

`walk` lists what is visited. Allocators in the memory they allocate from merge neighbouring blocks and split the result;
`Tiling.resplit` is the rule for that. -/

namespace Tsl.Lib

/-- The blocks at `starts`, with the lengths `len`, tile `[0, n)`. -/
structure Tiling (n : ℕ) (starts : Set ℕ) (len : ℕ → ℕ) : Prop where
  zero_mem : 0 ∈ starts
  lt : ∀ b ∈ starts, b < n
  pos : ∀ b ∈ starts, 0 < len b
  next : ∀ b ∈ starts, b + len b = n ∨ b + len b ∈ starts
  gap : ∀ b ∈ starts, ∀ c ∈ starts, b < c → b + len b ≤ c

section Tilings

variable {n : ℕ} {starts : Set ℕ} {len len' : ℕ → ℕ} {w e r : ℕ}

theorem Tiling.end_le (h : Tiling n starts len) {b : ℕ} (hb : b ∈ starts) : b + len b ≤ n := by
  rcases h.next b hb with heq | hmem
  · exact Nat.le_of_eq heq
  · exact Nat.le_of_lt (h.lt _ hmem)

theorem Tiling.congr (h : Tiling n starts len) (hlen : ∀ b ∈ starts, len' b = len b) :
    Tiling n starts len' where
  zero_mem := h.zero_mem
  lt := h.lt
  pos := fun b hb => hlen b hb ▸ h.pos b hb
  next := fun b hb => hlen b hb ▸ h.next b hb
  gap := fun b hb => hlen b hb ▸ h.gap b hb

theorem tiling_single {n : ℕ} (hn : 0 < n) {len : ℕ → ℕ} (hlen : len 0 = n) :
    Tiling n {0} len where
  zero_mem := rfl
  lt := fun b hb => hb ▸ hn
  pos := fun b hb => by rw [show b = 0 from hb, hlen]; exact hn
  next := fun b hb => .inl (by rw [show b = 0 from hb, hlen, Nat.zero_add])
  gap := fun b hb c hc hlt => absurd hlt (by rw [show b = 0 from hb, show c = 0 from hc]; exact Nat.lt_irrefl 0)

/-- The starts after the blocks between the starts `w` and `e` became one of length `r` and the
    rest. -/
def resplit (starts : Set ℕ) (w e r : ℕ) : Set ℕ :=
  { b | (b ∈ starts ∧ ¬ (w < b ∧ b < e)) ∨ (b = w + r ∧ w + r < e) }

theorem mem_resplit_of_outside {b : ℕ} (hb : b ∈ starts) (hout : ¬ (w < b ∧ b < e)) :
    b ∈ resplit starts w e r := .inl ⟨hb, hout⟩

/-- **Merging and splitting**: the blocks from the start `w` up to the end `e` become a block of
    length `r` and, if anything is left, a second one. Blocks elsewhere keep their lengths. -/
theorem Tiling.resplit (h : Tiling n starts len) (hw : w ∈ starts) (he : e = n ∨ e ∈ starts)
    (hr : 0 < r) (hre : w + r ≤ e) (hlen : ∀ b ∈ starts, ¬ (w ≤ b ∧ b < e) → len' b = len b)
    (hlen_w : len' w = r) (hlen_rest : w + r < e → len' (w + r) = e - (w + r)) :
    Tiling n (resplit starts w e r) len' := by
  have hen : e ≤ n := by
    rcases he with rfl | he
    · exact Nat.le_refl _
    · exact Nat.le_of_lt (h.lt _ he)
  -- a start beyond `w` is not before `e` unless it was merged away
  have hend : e = n ∨ e ∈ Tsl.Lib.resplit starts w e r := by
    rcases he with he | he
    · exact .inl he
    · exact .inr (mem_resplit_of_outside he (by omega))
  have hcase : ∀ b ∈ Tsl.Lib.resplit starts w e r,
      (b ∈ starts ∧ b < w ∧ len' b = len b ∧ b + len b ≤ w) ∨ (b = w ∧ len' b = r) ∨
        (b = w + r ∧ w + r < e ∧ b + len' b = e) ∨
        (b ∈ starts ∧ e ≤ b ∧ len' b = len b) := by
    rintro b (⟨hb, hout⟩ | ⟨rfl, hlt⟩)
    · rcases Nat.lt_trichotomy b w with hbw | rfl | hbw
      · exact .inl ⟨hb, hbw, hlen b hb (by omega), h.gap b hb w hw hbw⟩
      · exact .inr (.inl ⟨rfl, hlen_w⟩)
      · exact .inr (.inr (.inr ⟨hb, by omega, hlen b hb (by omega)⟩))
    · have := hlen_rest hlt
      exact .inr (.inr (.inl ⟨rfl, hlt, by omega⟩))
  constructor
  · exact mem_resplit_of_outside h.zero_mem (by omega)
  · intro b hb
    rcases hcase b hb with ⟨hb, -⟩ | ⟨rfl, -⟩ | ⟨rfl, hlt, -⟩ | ⟨hb, -⟩
    · exact h.lt b hb
    · exact h.lt b hw
    · omega
    · exact h.lt b hb
  · intro b hb
    rcases hcase b hb with ⟨hb, -, heq, -⟩ | ⟨rfl, heq⟩ | ⟨rfl, hlt, heq⟩ | ⟨hb, -, heq⟩
    · exact heq ▸ h.pos b hb
    · exact heq ▸ hr
    · omega
    · exact heq ▸ h.pos b hb
  · intro b hb
    rcases hcase b hb with ⟨hb, -, heq, hle⟩ | ⟨rfl, heq⟩ | ⟨rfl, hlt, heq⟩ | ⟨hb, hle, heq⟩
    · rw [heq]
      exact (h.next b hb).imp_right fun hm => mem_resplit_of_outside hm (by omega)
    · rw [heq]
      by_cases hlt : b + r < e
      · exact .inr (.inr ⟨rfl, hlt⟩)
      · rw [show b + r = e by omega]
        exact hend
    · rw [heq]
      exact hend
    · rw [heq]
      have hpos := h.pos b hb
      exact (h.next b hb).imp_right fun hm => mem_resplit_of_outside hm (by omega)
  · intro b hb c hc hbc
    rcases hcase b hb with ⟨hb, hbw, heq, hle⟩ | ⟨rfl, heq⟩ | ⟨rfl, hlt, heq⟩ | ⟨hb, hle, heq⟩
    · rcases hcase c hc with ⟨hc, -⟩ | ⟨rfl, -⟩ | ⟨rfl, -⟩ | ⟨hc, hec, -⟩
      · exact heq ▸ h.gap b hb c hc hbc
      all_goals omega
    · rcases hcase c hc with ⟨hc, hcw, -⟩ | ⟨rfl, -⟩ | ⟨rfl, -⟩ | ⟨hc, hec, -⟩ <;> omega
    · rcases hcase c hc with ⟨hc, hcw, -⟩ | ⟨rfl, -⟩ | ⟨rfl, -⟩ | ⟨hc, hec, -⟩ <;> omega
    · rcases hcase c hc with ⟨hc, hcw, -⟩ | ⟨rfl, -⟩ | ⟨rfl, -⟩ | ⟨hc, hec, -⟩
      · omega
      · omega
      · omega
      · exact heq ▸ h.gap b hb c hc hbc

/-- Every cell is in exactly one block. -/
theorem Tiling.existsUnique_block (h : Tiling n starts len) {x : ℕ} (hx : x < n) :
    ∃! b, b ∈ starts ∧ b ≤ x ∧ x < b + len b := by
  have hcover : ∃ b ∈ starts, b ≤ x ∧ x < b + len b := by
    induction x with
    | zero => exact ⟨0, h.zero_mem, Nat.le_refl 0, by have := h.pos 0 h.zero_mem; omega⟩
    | succ x ih =>
        obtain ⟨b, hb, hbx, hxb⟩ := ih (Nat.lt_of_succ_lt hx)
        rcases Nat.lt_or_ge (x + 1) (b + len b) with hlt | hge
        · exact ⟨b, hb, by omega, hlt⟩
        · have hend : b + len b = x + 1 := by omega
          have hmem : x + 1 ∈ starts := hend ▸ (h.next b hb).resolve_left (by omega)
          exact ⟨x + 1, hmem, Nat.le_refl _, by have := h.pos _ hmem; omega⟩
  obtain ⟨b, hb, hbx, hxb⟩ := hcover
  refine ⟨b, ⟨hb, hbx, hxb⟩, ?_⟩
  rintro c ⟨hc, hcx, hxc⟩
  rcases Nat.lt_trichotomy b c with hlt | heq | hgt
  · have := h.gap b hb c hc hlt
    omega
  · exact heq.symm
  · have := h.gap c hc b hb hgt
    omega

/-! ## Following the lengths -/

/-- The cells visited from `b` on by adding the length of the block at each; at most `fuel` cells. -/
def walk (n : ℕ) (len : ℕ → ℕ) : ℕ → ℕ → List ℕ
  | 0, _ => []
  | fuel + 1, b => if b < n then b :: walk n len fuel (b + len b) else []

theorem Tiling.mem_starts_of_walk (h : Tiling n starts len) {x : ℕ} (fuel : ℕ) :
    ∀ b, b = n ∨ b ∈ starts → x ∈ walk n len fuel b → x ∈ starts := by
  induction fuel with
  | zero => exact fun _ _ hx => absurd hx (List.not_mem_nil)
  | succ fuel ih =>
      intro b hb hx
      rw [walk] at hx
      split at hx
      · next hlt =>
          have hmem : b ∈ starts := hb.resolve_left (by omega)
          rcases List.mem_cons.1 hx with rfl | hx
          · exact hmem
          · exact ih _ (h.next b hmem) hx
      · cases hx

theorem Tiling.mem_walk_of_starts (h : Tiling n starts len) {x : ℕ} (hx : x ∈ starts) (fuel : ℕ) :
    ∀ b ∈ starts, b ≤ x → x < b + fuel → x ∈ walk n len fuel b := by
  induction fuel with
  | zero => exact fun b _ hbx hlt => absurd hbx (by omega)
  | succ fuel ih =>
      intro b hb hbx hlt
      rw [walk, if_pos (h.lt b hb)]
      rcases Nat.eq_or_lt_of_le hbx with rfl | hbx
      · exact List.mem_cons_self
      · have hgap := h.gap b hb x hx hbx
        have hpos := h.pos b hb
        have hlast := h.lt x hx
        exact List.mem_cons_of_mem _
          (ih _ ((h.next b hb).resolve_left (by omega)) hgap (by omega))

/-- **Following the lengths from 0** visits exactly the starts. -/
theorem Tiling.mem_walk (h : Tiling n starts len) {x : ℕ} : x ∈ walk n len n 0 ↔ x ∈ starts := by
  constructor
  · exact h.mem_starts_of_walk n 0 (.inr h.zero_mem)
  · intro hx
    have hlt := h.lt x hx
    exact h.mem_walk_of_starts hx n 0 h.zero_mem (Nat.zero_le x) (by omega)

end Tilings

end Tsl.Lib
