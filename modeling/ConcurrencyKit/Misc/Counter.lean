import Mathlib.Data.Finset.Card
import Mathlib.Tactic

/-!
# Counters of threads

A machine word that is increased when a thread enters and decreased when it leaves is the number
of the threads inside, up to whole turns of the word (`Counts`). It is zero when nobody is inside;
and when it is zero nobody is inside, as long as there are fewer threads than words.
-/

namespace ConcurrencyKit.Counter

/-- One more, in a word with `W` values. -/
def inc (W n : Nat) : Nat := (n + 1) % W

/-- One less, in a word with `W` values. -/
def dec (W n : Nat) : Nat := if n = 0 then W - 1 else n - 1

theorem inc_mod (W n : Nat) : inc W (n % W) = (n + 1) % W :=
  Nat.mod_add_mod n W 1

theorem dec_mod (W n : Nat) : dec W ((n + 1) % W) = n % W := by
  rcases Nat.eq_zero_or_pos W with rfl | hW
  · simp [dec]
  have hlt := Nat.mod_lt n hW
  rw [← Nat.mod_add_mod n W 1]
  by_cases hlast : n % W + 1 = W
  · simp only [hlast, Nat.mod_self, dec, if_true]
    omega
  · rw [Nat.mod_eq_of_lt (by omega : n % W + 1 < W)]
    simp [dec]

variable {ι : Type}

/-- The word counts the members of the set. -/
def Counts (W n : Nat) (s : Finset ι) : Prop := n = s.card % W

variable {W n : Nat} {s : Finset ι} {i : ι}

theorem Counts.empty (W : Nat) : Counts W 0 (∅ : Finset ι) := by
  simp [Counts]

/-- The word is zero if nobody is counted. -/
theorem Counts.eq_zero (h : Counts W n s) (hs : s = ∅) : n = 0 := by
  simpa [Counts, hs] using h

/-- Nobody is counted if the word is zero. -/
theorem Counts.eq_empty (h : Counts W n s) (hfew : s.card < W) (hzero : n = 0) : s = ∅ := by
  rw [Counts, hzero, Nat.mod_eq_of_lt hfew] at h
  exact Finset.card_eq_zero.mp h.symm

variable [DecidableEq ι]

theorem Counts.insert (h : Counts W n s) (hi : i ∉ s) : Counts W (inc W n) (insert i s) := by
  rw [Counts, Finset.card_insert_of_notMem hi, h, inc_mod]

theorem Counts.erase (h : Counts W n s) (hi : i ∈ s) : Counts W (dec W n) (s.erase i) := by
  rw [Counts, ← Finset.card_erase_add_one hi] at h
  rw [Counts, h, dec_mod]

end ConcurrencyKit.Counter
