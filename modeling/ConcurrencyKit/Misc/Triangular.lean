import Mathlib.Data.Nat.ModEq
import Mathlib.Tactic

/-!
# Triangular numbers modulo a power of two

A walk whose strides grow by one gets to every residue of a power of two before it comes to one
for the second time.
-/

namespace ConcurrencyKit

/-- The sum of the numbers up to `n`. -/
def triangle : Nat → Nat
  | 0 => 0
  | n + 1 => triangle n + (n + 1)

theorem two_mul_triangle (n : Nat) : 2 * triangle n = n * (n + 1) := by
  induction n with
  | zero => rfl
  | succ n ih =>
    rw [triangle, Nat.mul_add, ih]
    ring

theorem triangle_add {i j : Nat} (h : i ≤ j) :
    2 * triangle j = 2 * triangle i + (j - i) * (j + i + 1) := by
  obtain ⟨d, rfl⟩ := Nat.exists_eq_add_of_le h
  rw [two_mul_triangle, two_mul_triangle, Nat.add_sub_cancel_left]
  ring

theorem not_dvd_of_odd {k a b : Nat} (ha : a % 2 = 1) (hpos : 0 < b) (hlt : b < 2 ^ k) :
    ¬ 2 ^ k ∣ a * b := by
  intro hdvd
  have hcoprime : Nat.Coprime (2 ^ k) a :=
    (Nat.coprime_two_left.mpr (Nat.odd_iff.mpr ha)).pow_left k
  exact Nat.not_dvd_of_pos_of_lt hpos hlt (hcoprime.dvd_of_dvd_mul_left hdvd)

/-- The triangular numbers below a power of two are in different residue classes. -/
theorem triangle_ne {k i j : Nat} (hij : i < j) (hj : j < 2 ^ k) :
    triangle i % 2 ^ k ≠ triangle j % 2 ^ k := by
  intro heq
  have hadd := triangle_add hij.le
  have hdvd : 2 ^ (k + 1) ∣ (j - i) * (j + i + 1) := by
    have hsub : 2 ^ k ∣ triangle j - triangle i := (Nat.modEq_iff_dvd' (by nlinarith)).mp heq
    have : (j - i) * (j + i + 1) = 2 * (triangle j - triangle i) := by omega
    rw [this, Nat.pow_succ, Nat.mul_comm]
    exact Nat.mul_dvd_mul_left 2 hsub
  rcases Nat.mod_two_eq_zero_or_one (j - i) with heven | hodd
  · rw [Nat.mul_comm] at hdvd
    exact not_dvd_of_odd (by omega) (by omega) (by omega) hdvd
  · exact not_dvd_of_odd hodd (by omega) (by omega) hdvd

/-- The triangular numbers below a power of two are pairwise incongruent. -/
theorem triangle_inj {k i j : Nat} (hi : i < 2 ^ k) (hj : j < 2 ^ k)
    (h : triangle i % 2 ^ k = triangle j % 2 ^ k) : i = j := by
  rcases Nat.lt_trichotomy i j with hlt | heq | hgt
  · exact absurd h (triangle_ne hlt hj)
  · exact heq
  · exact absurd h.symm (triangle_ne hgt hi)

end ConcurrencyKit
