import Mathlib.Data.Multiset.MapFold
import Mathlib.Data.Multiset.Range
import Mathlib.Data.Nat.Log
import Mathlib.Logic.Equiv.Basic
import Tsl.Lib.Compare

set_option autoImplicit false

/-! # Binary heaps in an array

An array is a function `f : ℕ → α` of which the first `n` slots are in use. `HeapOrdered` is the
order of a max-heap over the usual index tree. A sift exchanges a slot with a neighbour in that tree
until the order holds again; `UpOrder` and `DownOrder` are what holds while the slot `i` is still
out of place, each with the step that moves the slot on (`UpOrder.swap`, `DownOrder.swap`) and the
condition under which the sift is done (`UpOrder.finish`, `DownOrder.finish`).

What a sift does to the items is independent of any order: it exchanges slots, so the array
afterwards is `Shuffled`, and the multiset of its items is the same. Nor does it depend on the order how
many slots a sift can go through: it changes the `level` at each (`level_parent`). -/

namespace Tsl.Lib

variable {α : Type*}

/-! ## Exchanging slots -/

/-- `g` is `f` with the first `n` slots permuted. -/
def Shuffled (n : ℕ) (f g : ℕ → α) : Prop :=
  ∃ σ : Equiv.Perm ℕ, (∀ k, n ≤ k → σ k = k) ∧ g = f ∘ σ

/-- The items in the first `n` slots. -/
def itemsBelow (n : ℕ) (f : ℕ → α) : Multiset α := (Multiset.range n).map f

section Shuffles

variable {n : ℕ} {f g h : ℕ → α}

theorem Shuffled.refl (n : ℕ) (f : ℕ → α) : Shuffled n f f := ⟨Equiv.refl ℕ, fun _ _ => rfl, rfl⟩

theorem Shuffled.trans (hfg : Shuffled n f g) (hgh : Shuffled n g h) : Shuffled n f h := by
  obtain ⟨σ, hσ, rfl⟩ := hfg
  obtain ⟨τ, hτ, rfl⟩ := hgh
  refine ⟨τ.trans σ, fun k hk => ?_, rfl⟩
  rw [Equiv.trans_apply, hτ k hk, hσ k hk]

theorem shuffled_swap (f : ℕ → α) {a b : ℕ} (ha : a < n) (hb : b < n) :
    Shuffled n f (f ∘ Equiv.swap a b) :=
  ⟨Equiv.swap a b, fun _ hk => Equiv.swap_apply_of_ne_of_ne (by omega) (by omega), rfl⟩

theorem Shuffled.itemsBelow_eq (h : Shuffled n f g) : itemsBelow n g = itemsBelow n f := by
  obtain ⟨σ, hσ, rfl⟩ := h
  have hlt : ∀ k, σ k < n ↔ k < n := by
    intro k
    constructor
    · intro hk
      by_contra hkn
      rw [hσ k (by omega)] at hk
      exact hkn hk
    · intro hk
      by_contra hkn
      have : σ (σ k) = σ k := hσ _ (by omega)
      rw [σ.injective this] at hkn
      exact hkn hk
  have hrange : (Multiset.range n).map σ = Multiset.range n := by
    refine (Multiset.Nodup.ext ?_ (Multiset.nodup_range n)).2 ?_
    · exact (Multiset.nodup_range n).map σ.injective
    · intro k
      simp only [Multiset.mem_map, Multiset.mem_range]
      constructor
      · rintro ⟨j, hj, rfl⟩
        exact (hlt j).2 hj
      · intro hk
        exact ⟨σ.symm k, by rw [← hlt]; simpa using hk, by simp⟩
  rw [itemsBelow, itemsBelow, ← Multiset.map_map, hrange]

@[simp] theorem itemsBelow_zero (f : ℕ → α) : itemsBelow 0 f = 0 := rfl

theorem itemsBelow_succ (n : ℕ) (f : ℕ → α) : itemsBelow (n + 1) f = f n ::ₘ itemsBelow n f := by
  simp [itemsBelow, Multiset.range_succ]

theorem itemsBelow_congr (h : ∀ k < n, f k = g k) : itemsBelow n f = itemsBelow n g :=
  Multiset.map_congr rfl fun k hk => h k (Multiset.mem_range.1 hk)

theorem itemsBelow_append (n : ℕ) (f : ℕ → α) (x : α) :
    itemsBelow (n + 1) (Function.update f n x) = x ::ₘ itemsBelow n f := by
  rw [itemsBelow_succ, Function.update_self]
  congr 1
  exact itemsBelow_congr fun k hk => Function.update_of_ne (by omega) _ _

/-- Moving the last item into slot `k` removes the item there. -/
theorem itemsBelow_replace {k : ℕ} (hk : k ≤ n)
    (hg : ∀ j < n, g j = Function.update f k (f n) j) :
    f k ::ₘ itemsBelow n g = itemsBelow (n + 1) f := by
  have hswap : ∀ j < n, g j = (f ∘ Equiv.swap k n) j := by
    intro j hj
    rw [hg j hj, Function.comp_apply]
    by_cases hjk : j = k
    · subst hjk
      rw [Function.update_self, Equiv.swap_apply_left]
    · rw [Function.update_of_ne hjk, Equiv.swap_apply_of_ne_of_ne hjk (by omega)]
  have hshuffled := shuffled_swap f (n := n + 1) (a := k) (b := n) (by omega) (by omega)
  rw [← hshuffled.itemsBelow_eq, itemsBelow_succ, itemsBelow_congr hswap, Function.comp_apply,
    Equiv.swap_apply_right]

theorem mem_itemsBelow {x : α} : x ∈ itemsBelow n f ↔ ∃ k < n, f k = x := by
  simp [itemsBelow]

@[simp] theorem card_itemsBelow (n : ℕ) (f : ℕ → α) : (itemsBelow n f).card = n := by
  simp [itemsBelow]

end Shuffles

/-! ## The order -/

/-- The index above `i` in the heap. -/
def parent (i : ℕ) : ℕ := (i - 1) / 2

theorem parent_lt {i : ℕ} (h : 0 < i) : parent i < i := by
  unfold parent
  omega

theorem parent_eq_iff {i j : ℕ} (hj : 0 < j) : parent j = i ↔ j = 2 * i + 1 ∨ j = 2 * i + 2 := by
  unfold parent
  omega

/-- How far a slot is from the top of the index tree. -/
def level (i : ℕ) : ℕ := Nat.log 2 (i + 1)

theorem level_parent {i : ℕ} (h : 0 < i) : level i = level (parent i) + 1 := by
  have hhalf : (i + 1) / 2 = parent i + 1 := by
    unfold parent
    omega
  rw [level, level, Nat.log_of_one_lt_of_le (by decide) (by omega), hhalf]

theorem level_le_log {i n : ℕ} (h : i < n) : level i ≤ Nat.log 2 n := Nat.log_mono_right h

/-- Every slot in use is at most the one above it. -/
def HeapOrdered (le : α → α → Prop) (f : ℕ → α) (n : ℕ) : Prop :=
  ∀ j, 0 < j → j < n → le (f j) (f (parent j))

/-- The heap order but for slot `i`, which may be greater than the one above it. -/
structure UpOrder (le : α → α → Prop) (f : ℕ → α) (n i : ℕ) : Prop where
  except : ∀ j, 0 < j → j < n → j ≠ i → le (f j) (f (parent j))
  grand : 0 < i → ∀ j, 0 < j → j < n → parent j = i → le (f j) (f (parent i))

/-- The heap order but for slot `i`, which may be less than those below it. -/
structure DownOrder (le : α → α → Prop) (f : ℕ → α) (n i : ℕ) : Prop where
  except : ∀ j, 0 < j → j < n → parent j ≠ i → le (f j) (f (parent j))
  grand : 0 < i → ∀ j, 0 < j → j < n → parent j = i → le (f j) (f (parent i))

section Order

variable {le : α → α → Prop} {f : ℕ → α} {n i c : ℕ}

/-- The first slot of a heap holds a greatest item. -/
theorem HeapOrdered.le_root (hle : TotalPreorder le) (h : HeapOrdered le f n) :
    ∀ j < n, le (f j) (f 0) := by
  intro j
  induction j using Nat.strong_induction_on with
  | _ j ih =>
    intro hj
    rcases Nat.eq_zero_or_pos j with rfl | hpos
    · exact hle.refl _
    · have hp := parent_lt hpos
      exact hle.trans (h j hpos hj) (ih (parent j) hp (by omega))

theorem HeapOrdered.upOrder_append (h : HeapOrdered le f n) (x : α) :
    UpOrder le (Function.update f n x) (n + 1) n where
  except := by
    intro j hpos hj hne
    have hp := parent_lt hpos
    rw [Function.update_of_ne hne, Function.update_of_ne (by omega)]
    exact h j hpos (by omega)
  grand := by
    intro _ j hpos hj hp
    have := parent_lt hpos
    omega

/-- Whatever replaces the first item is out of order at most with those below it. -/
theorem HeapOrdered.downOrder_root (h : HeapOrdered le f n) {m : ℕ} (hm : m ≤ n) (x : α) :
    DownOrder le (Function.update f 0 x) m 0 where
  except := by
    intro j hpos hj hp
    rw [Function.update_of_ne (by omega), Function.update_of_ne hp]
    exact h j hpos (by omega)
  grand := by
    intro h0
    omega

theorem HeapOrdered.downOrder_replace (hle : TotalPreorder le) (h : HeapOrdered le f n) {m : ℕ}
    (hm : m ≤ n) {x : α} (hx : 0 < i → le x (f (parent i))) :
    DownOrder le (Function.update f i x) m i where
  except := by
    intro j hpos hj hp
    rw [Function.update_of_ne hp]
    by_cases hji : j = i
    · subst hji
      rw [Function.update_self]
      exact hx hpos
    · rw [Function.update_of_ne hji]
      exact h j hpos (by omega)
  grand := by
    intro hi j hpos hj hp
    have hij : i < j := hp ▸ parent_lt hpos
    have hparent := parent_lt hi
    rw [Function.update_of_ne (by omega), Function.update_of_ne (by omega)]
    have hbelow := h j hpos (by omega)
    rw [hp] at hbelow
    exact hle.trans hbelow (h i hi (by omega))

theorem UpOrder.finish (h : UpOrder le f n i) (hstop : 0 < i → le (f i) (f (parent i))) :
    HeapOrdered le f n := by
  intro j hpos hj
  by_cases hji : j = i
  · subst hji
    exact hstop hpos
  · exact h.except j hpos hj hji

/-- One step up: `i` changes places with the slot above it. -/
theorem UpOrder.swap (hle : TotalPreorder le) (h : UpOrder le f n i) (hi : 0 < i) (hin : i < n)
    (hup : le (f (parent i)) (f i)) :
    UpOrder le (f ∘ Equiv.swap i (parent i)) n (parent i) := by
  have hp : parent i < i := parent_lt hi
  have hkeep : ∀ k, k ≠ i → k ≠ parent i → (f ∘ Equiv.swap i (parent i)) k = f k := by
    intro k hki hkp
    rw [Function.comp_apply, Equiv.swap_apply_of_ne_of_ne hki hkp]
  have hati : (f ∘ Equiv.swap i (parent i)) i = f (parent i) := by simp
  have hatp : (f ∘ Equiv.swap i (parent i)) (parent i) = f i := by simp
  constructor
  · intro j hpos hj hne
    by_cases hji : j = i
    · subst hji
      rw [hati, hatp]
      exact hup
    · rw [hkeep j hji hne]
      by_cases hpi : parent j = i
      · rw [hpi, hati]
        exact h.grand hi j hpos hj hpi
      · by_cases hpp : parent j = parent i
        · have := h.except j hpos hj hji
          rw [hpp] at this ⊢
          rw [hatp]
          exact hle.trans this hup
        · rw [hkeep _ hpi hpp]
          exact h.except j hpos hj hji
  · intro hppos j hpos hj hpj
    have hpp : parent (parent i) < parent i := parent_lt hppos
    have hgrand : le (f (parent i)) (f (parent (parent i))) :=
      h.except (parent i) hppos (by omega) (by omega)
    rw [hkeep (parent (parent i)) (by omega) (by omega)]
    by_cases hji : j = i
    · subst hji
      rw [hati]
      exact hgrand
    · have := h.except j hpos hj hji
      rw [hpj] at this
      have hjp : j ≠ parent i := by
        rintro rfl
        omega
      rw [hkeep j hji hjp]
      exact hle.trans this hgrand

theorem DownOrder.finish (h : DownOrder le f n i)
    (hstop : ∀ j, 0 < j → j < n → parent j = i → le (f j) (f i)) : HeapOrdered le f n := by
  intro j hpos hj
  by_cases hp : parent j = i
  · rw [hp]
    exact hstop j hpos hj hp
  · exact h.except j hpos hj hp

/-- One step down: `i` changes places with the greatest slot below it. -/
theorem DownOrder.swap (h : DownOrder le f n i) (hc : 0 < c) (hcn : c < n) (hci : parent c = i)
    (hdown : le (f i) (f c)) (hmax : ∀ j, 0 < j → j < n → parent j = i → le (f j) (f c)) :
    DownOrder le (f ∘ Equiv.swap i c) n c := by
  have hic : i < c := hci ▸ parent_lt hc
  have hkeep : ∀ k, k ≠ i → k ≠ c → (f ∘ Equiv.swap i c) k = f k := by
    intro k hki hkc
    rw [Function.comp_apply, Equiv.swap_apply_of_ne_of_ne hki hkc]
  have hati : (f ∘ Equiv.swap i c) i = f c := by simp
  have hatc : (f ∘ Equiv.swap i c) c = f i := by simp
  constructor
  · intro j hpos hj hne
    have hpj := parent_lt hpos
    by_cases hjc : j = c
    · subst hjc
      rw [hci, hatc, hati]
      exact hdown
    · by_cases hpi : parent j = i
      · rw [hkeep j (by omega) hjc, hpi, hati]
        exact hmax j hpos hj hpi
      · rw [hkeep (parent j) hpi hne]
        by_cases hji : j = i
        · subst hji
          rw [hati]
          exact h.grand hpos c hc hcn hci
        · rw [hkeep j hji hjc]
          exact h.except j hpos hj hpi
  · intro _ j hpos hj hpj
    have := parent_lt hpos
    have hold := h.except j hpos hj (by omega)
    rw [hpj] at hold
    rw [hkeep j (by omega) (by omega), hci, hati]
    exact hold

end Order

end Tsl.Lib
