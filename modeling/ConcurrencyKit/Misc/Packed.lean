import Mathlib.Data.Nat.Bitwise
import Mathlib.Tactic

/-!
# Packed words

A machine word with two fields: `k` bits for the low one, and the bits above them for the high one.
Masking such a word works on each field alone, and so does adding to a field while the low one does
not overflow.
-/

namespace ConcurrencyKit.Packed

/-- The word with the fields `hi` and `lo`. -/
def pack (k hi lo : Nat) : Nat := 2 ^ k * hi + lo

variable {k hi lo hi' lo' : Nat}

theorem pack_testBit (hlo : lo < 2 ^ k) (i : Nat) :
    (pack k hi lo).testBit i = if i < k then lo.testBit i else hi.testBit (i - k) :=
  Nat.testBit_two_pow_mul_add hi hlo i

theorem pack_and (hlo : lo < 2 ^ k) (hlo' : lo' < 2 ^ k) :
    pack k hi lo &&& pack k hi' lo' = pack k (hi &&& hi') (lo &&& lo') := by
  have hand : lo &&& lo' < 2 ^ k := Nat.and_lt_two_pow _ hlo'
  apply Nat.eq_of_testBit_eq
  intro i
  rw [Nat.testBit_and, pack_testBit hlo, pack_testBit hlo', pack_testBit hand]
  split
  · rw [Nat.testBit_and]
  · rw [Nat.testBit_and]

theorem pack_or (hlo : lo < 2 ^ k) (hlo' : lo' < 2 ^ k) :
    pack k hi lo ||| pack k hi' lo' = pack k (hi ||| hi') (lo ||| lo') := by
  have hor : lo ||| lo' < 2 ^ k := Nat.or_lt_two_pow hlo hlo'
  apply Nat.eq_of_testBit_eq
  intro i
  rw [Nat.testBit_or, pack_testBit hlo, pack_testBit hlo', pack_testBit hor]
  split
  · rw [Nat.testBit_or]
  · rw [Nat.testBit_or]

theorem pack_inj (hlo : lo < 2 ^ k) (hlo' : lo' < 2 ^ k) :
    pack k hi lo = pack k hi' lo' ↔ hi = hi' ∧ lo = lo' := by
  constructor
  · intro h
    unfold pack at h
    have hhi : hi = hi' := by
      have hdiv := congrArg (· / 2 ^ k) h
      simpa [Nat.mul_add_div (Nat.two_pow_pos k), Nat.div_eq_of_lt hlo, Nat.div_eq_of_lt hlo']
        using hdiv
    subst hhi
    exact ⟨rfl, by omega⟩
  · rintro ⟨rfl, rfl⟩
    rfl

theorem pack_lt {n : Nat} (hlo : lo < 2 ^ k) (hhi : hi < 2 ^ n) : pack k hi lo < 2 ^ (k + n) := by
  have hle : 2 ^ k * (hi + 1) ≤ 2 ^ k * 2 ^ n := Nat.mul_le_mul_left _ hhi
  rw [← Nat.pow_add, Nat.mul_add] at hle
  unfold pack
  omega

theorem pack_add_low (n : Nat) : pack k hi lo + n = pack k hi (lo + n) := Nat.add_assoc _ _ _

theorem pack_add_high (n : Nat) : pack k hi lo + 2 ^ k * n = pack k (hi + n) lo := by
  unfold pack
  ring

/-! ## The fields of a bit vector -/

section Words

variable {w : Nat} {a b c : BitVec w}

theorem getLsbD_mask (w k i : Nat) :
    (BitVec.ofNat w (2 ^ k - 1)).getLsbD i = (decide (i < w) && decide (i < k)) := by
  simp [BitVec.getLsbD_ofNat, Nat.testBit_two_pow_sub_one]

theorem toNat_and_mask (a : BitVec w) (hk : k ≤ w) :
    (a &&& BitVec.ofNat w (2 ^ k - 1)).toNat = a.toNat % 2 ^ k := by
  have hpos : 0 < 2 ^ k := Nat.two_pow_pos k
  have hpow : 2 ^ k ≤ 2 ^ w := Nat.pow_le_pow_right (by decide) hk
  have hmask : (2 ^ k - 1) % 2 ^ w = 2 ^ k - 1 := Nat.mod_eq_of_lt (by omega)
  rw [BitVec.toNat_and, BitVec.toNat_ofNat, hmask, Nat.and_two_pow_sub_one_eq_mod]

/-- A word is its low field when the bits above are free. -/
theorem and_mask_eq_self (hk : k ≤ w) : a &&& BitVec.ofNat w (2 ^ k - 1) = a ↔ a.toNat < 2 ^ k := by
  rw [← BitVec.toNat_inj, toNat_and_mask a hk]
  exact Nat.mod_eq_iff_lt (Nat.two_pow_pos k).ne'

theorem ushiftRight_of_lt (ha : a.toNat < 2 ^ k) : a >>> k = 0#w := by
  rw [← BitVec.toNat_inj, BitVec.toNat_ushiftRight, Nat.shiftRight_eq_div_pow,
    Nat.div_eq_of_lt ha]
  rfl

/-- The low field does not see the high one. -/
theorem or_shiftLeft_and_mask (a b : BitVec w) (k : Nat) :
    (a ||| b <<< k) &&& BitVec.ofNat w (2 ^ k - 1) = a &&& BitVec.ofNat w (2 ^ k - 1) := by
  apply BitVec.eq_of_getLsbD_eq
  intro i hi
  rw [BitVec.getLsbD_and, BitVec.getLsbD_and, BitVec.getLsbD_or, BitVec.getLsbD_shiftLeft,
    getLsbD_mask]
  by_cases h : i < k <;> simp [h]

/-- The high field has the bits that the low one leaves. -/
theorem shiftLeft_ushiftRight (b : BitVec w) (k : Nat) :
    b <<< k >>> k = b &&& BitVec.ofNat w (2 ^ (w - k) - 1) := by
  apply BitVec.eq_of_getLsbD_eq
  intro i hi
  rw [BitVec.getLsbD_and, BitVec.getLsbD_ushiftRight, BitVec.getLsbD_shiftLeft, getLsbD_mask]
  have hin : k + i < w ↔ i < w - k := by omega
  simp only [hi, decide_true, Bool.true_and]
  by_cases h : i < w - k <;> simp [hin, h]

/-- The high field does not see a low one that fits. -/
theorem or_shiftLeft_ushiftRight (b : BitVec w) (ha : a.toNat < 2 ^ k) :
    (a ||| b <<< k) >>> k = b &&& BitVec.ofNat w (2 ^ (w - k) - 1) := by
  rw [BitVec.ushiftRight_or_distrib, ushiftRight_of_lt ha, shiftLeft_ushiftRight, BitVec.zero_or]

/-- A word whose bits above the low field are free has an empty high one. -/
theorem or_shiftLeft_eq (hk : k ≤ w) (ha : a.toNat < 2 ^ k) (hb : b.toNat < 2 ^ (w - k))
    (hc : c.toNat < 2 ^ k) : a ||| b <<< k = c ↔ a = c ∧ b = 0#w := by
  constructor
  · intro h
    have hlow := or_shiftLeft_and_mask a b k
    have hhigh := or_shiftLeft_ushiftRight b ha
    rw [h, (and_mask_eq_self hk).mpr hc, (and_mask_eq_self hk).mpr ha] at hlow
    rw [h, (and_mask_eq_self (Nat.sub_le ..)).mpr hb, ushiftRight_of_lt hc] at hhigh
    exact ⟨hlow.symm, hhigh.symm⟩
  · rintro ⟨rfl, rfl⟩
    rw [BitVec.zero_shiftLeft, BitVec.or_zero]

end Words

end ConcurrencyKit.Packed
