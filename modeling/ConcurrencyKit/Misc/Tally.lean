import Mathlib.Data.Finset.Card
import Mathlib.Data.Finset.Range
import Mathlib.Tactic

/-!
# Counting the cells of an array

`tally p f n` is the number of cells below `n` of the array `f` that satisfy `p`. Hand
maintained counters are checked against it: `tally_update` says what one store to the array
does to the count.
-/

namespace ConcurrencyKit

variable {α : Type}

/-- The number of indices below `n` whose cell satisfies `p`. -/
def tally (p : α → Bool) (f : Nat → α) (n : Nat) : Nat :=
  ((Finset.range n).filter (fun i => p (f i) = true)).card

theorem tally_le (p : α → Bool) (f : Nat → α) (n : Nat) : tally p f n ≤ n := by
  have := Finset.card_filter_le (Finset.range n) (fun i => p (f i) = true)
  rwa [Finset.card_range] at this

theorem tally_pos {p : α → Bool} {f : Nat → α} {n i : Nat} (hi : i < n) (hp : p (f i) = true) :
    0 < tally p f n :=
  Finset.card_pos.mpr ⟨i, Finset.mem_filter.mpr ⟨Finset.mem_range.mpr hi, hp⟩⟩

theorem tally_eq_zero {p : α → Bool} {f : Nat → α} {n : Nat}
    (h : ∀ i < n, p (f i) = false) : tally p f n = 0 := by
  rw [tally, Finset.card_eq_zero, Finset.filter_eq_empty_iff]
  intro i hi
  rw [h i (Finset.mem_range.mp hi)]
  simp

theorem of_tally_eq_zero {p : α → Bool} {f : Nat → α} {n i : Nat} (h : tally p f n = 0)
    (hi : i < n) : p (f i) = false := by
  by_contra hp
  have := tally_pos (f := f) hi (Bool.eq_true_of_not_eq_false hp)
  omega

theorem tally_succ (p : α → Bool) (f : Nat → α) (n : Nat) :
    tally p f (n + 1) = tally p f n + if p (f n) = true then 1 else 0 := by
  unfold tally
  rw [Finset.range_add_one, Finset.filter_insert]
  split
  · rw [Finset.card_insert_of_notMem (by simp)]
  · rfl

/-- A store to cell `i` replaces the contribution of the old word by that of the new one. -/
theorem tally_update (p : α → Bool) (f : Nat → α) {n i : Nat} (hi : i < n) (a : α) :
    tally p (Function.update f i a) n + (if p (f i) = true then 1 else 0) =
      tally p f n + if p a = true then 1 else 0 := by
  induction n with
  | zero => omega
  | succ n ih =>
    rw [tally_succ, tally_succ]
    rcases Nat.lt_succ_iff_lt_or_eq.mp hi with hlt | rfl
    · rw [Function.update_of_ne (by omega : n ≠ i)]
      have := ih hlt
      omega
    · have hsame : tally p (Function.update f i a) i = tally p f i := by
        unfold tally
        congr 1
        apply Finset.filter_congr
        intro j hj
        rw [Function.update_of_ne (by have := Finset.mem_range.mp hj; omega)]
      rw [hsame, Function.update_self]
      omega

end ConcurrencyKit
