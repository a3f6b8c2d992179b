import Mathlib.Data.Nat.Log
import Mathlib.Tactic

/-!
# Doubling a request until it is large enough

A loop that tries a request and, when it is too small, starts over with twice of it, in words of
64 bits. What a request leads to depends on a size that it is rounded to.
-/

namespace ConcurrencyKit

variable {μ : Type}

/-- The request `c` leads to the result `m`: at once, or after it has been doubled. -/
inductive Doubling (tries : Nat → Option μ) : Nat → μ → Prop
  | fits {c : Nat} {m : μ} (h : tries c = some m) : Doubling tries c m
  | doubles {c : Nat} {m : μ} (h : tries c = none) (rest : Doubling tries (c * 2 % 2 ^ 64) m) :
    Doubling tries c m

variable {tries : Nat → Option μ} {c : Nat} {m : μ}

/-- The result is one of a request, which for the request zero is zero as well. -/
theorem Doubling.tried (h : Doubling tries c m) : ∃ n, tries n = some m ∧ (c = 0 → n = 0) := by
  induction h with
  | fits h => exact ⟨_, h, id⟩
  | doubles h rest ih =>
    obtain ⟨n, hn, hzero⟩ := ih
    exact ⟨n, hn, fun hc => hzero (by rw [hc, Nat.zero_mul, Nat.zero_mod])⟩

/-- A multiple of `c` by a power of two lies in the upper half below a larger power of two. -/
theorem exists_double {b : Nat} (hpos : 0 < c) (hle : c ≤ 2 ^ b) :
    ∃ i, c * 2 ^ i ≤ 2 ^ b ∧ 2 ^ b < c * 2 ^ i * 2 := by
  induction b with
  | zero =>
    have hone : c = 1 := by omega
    exact ⟨0, by rw [hone]; decide, by rw [hone]; decide⟩
  | succ b ih =>
    by_cases hhalf : c ≤ 2 ^ b
    · obtain ⟨i, hi, hlt⟩ := ih hhalf
      have hi' : c * 2 ^ (i + 1) = c * 2 ^ i * 2 := by rw [Nat.pow_succ, Nat.mul_assoc]
      exact ⟨i + 1, by rw [hi', Nat.pow_succ]; omega, by rw [hi', Nat.pow_succ]; omega⟩
    · exact ⟨0, by omega, by rw [Nat.pow_succ]; omega⟩

section Sizes

variable {size : μ → Nat} {rounded : Nat → Nat} {bound : Nat}

/-- What comes of a request depends on the power of two that it is rounded to, which is at most
`2 ^ bound`. Requests up to that are rounded up, to the next power of two or to one that is the
least of all. -/
structure Rounding (tries : Nat → Option μ) (size : μ → Nat) (rounded : Nat → Nat)
    (bound : Nat) : Prop where
  word : bound < 64
  size_eq : ∀ {n m}, tries n = some m → size m = rounded n
  same : ∀ {n n'}, rounded n = rounded n' → tries n = tries n'
  pow : ∀ n, ∃ b ≤ bound, rounded n = 2 ^ b
  up : ∀ {n}, n ≤ 2 ^ bound → n ≤ rounded n
  tight : ∀ {n n' b}, rounded n' = 2 ^ b → n ≤ 2 ^ b → 2 ^ b < n * 2 → rounded n = 2 ^ b

variable (hr : Rounding tries size rounded bound)
include hr

/-- The result is large enough if a doubled request that is not too large is granted. -/
theorem Doubling.le_size (h : Doubling tries c m) {i : Nat} (hi : c * 2 ^ i ≤ 2 ^ bound)
    (hfits : (tries (c * 2 ^ i)).isSome) : c ≤ size m := by
  induction i generalizing c with
  | zero =>
    rw [Nat.pow_zero, Nat.mul_one] at hi hfits
    cases h with
    | fits h => exact hr.size_eq h ▸ hr.up hi
    | doubles h =>
      rw [h] at hfits
      cases hfits
  | succ i ih =>
    have hpow : c * 2 ^ (i + 1) = c * 2 * 2 ^ i := by rw [Nat.pow_succ', Nat.mul_assoc]
    have hle : c ≤ c * 2 ^ (i + 1) := Nat.le_mul_of_pos_right c (Nat.two_pow_pos _)
    cases h with
    | fits h => exact hr.size_eq h ▸ hr.up (hle.trans hi)
    | doubles h rest =>
      have hword : c * 2 < 2 ^ 64 :=
        calc c * 2 ≤ c * 2 * 2 ^ i := Nat.le_mul_of_pos_right _ (Nat.two_pow_pos i)
          _ ≤ 2 ^ bound := hpow ▸ hi
          _ < 2 ^ 64 := Nat.pow_lt_pow_right (by decide) hr.word
      have hmod : c * 2 % 2 ^ 64 = c * 2 := Nat.mod_eq_of_lt hword
      rw [hmod] at rest
      have hsize := ih rest (hpow ▸ hi) (hpow ▸ hfits)
      omega

/-- The result is large enough exactly if a doubled request that is not too large is granted. -/
theorem Doubling.le_size_iff (h : Doubling tries c m) :
    c ≤ size m ↔ ∃ i, c * 2 ^ i ≤ 2 ^ bound ∧ (tries (c * 2 ^ i)).isSome := by
  constructor
  · intro hle
    obtain ⟨n, hn, hzero⟩ := h.tried
    rcases Nat.eq_zero_or_pos c with hc | hc
    · refine ⟨0, by rw [hc]; exact Nat.zero_le _, ?_⟩
      have hreq : c * 2 ^ 0 = n := by rw [hzero hc, hc, Nat.zero_mul]
      rw [hreq, hn]
      rfl
    · -- the doubled request that is rounded to the size of the result
      obtain ⟨b, hb, hround⟩ := hr.pow n
      rw [hr.size_eq hn, hround] at hle
      obtain ⟨i, hi, hlt⟩ := exists_double hc hle
      refine ⟨i, hi.trans (Nat.pow_le_pow_right (by decide) hb), ?_⟩
      rw [hr.same ((hr.tight hround hi hlt).trans hround.symm), hn]
      rfl
  · rintro ⟨i, hi, hfits⟩
    exact h.le_size hr hi hfits

end Sizes

end ConcurrencyKit
