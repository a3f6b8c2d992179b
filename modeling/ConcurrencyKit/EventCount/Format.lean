import Mathlib.Data.Nat.Bitwise
import Mathlib.Tactic

/-!
# The words of an event count

An event count is one word that holds a counter and a flag for waiters: in a `struct ck_ec32`
the flag is the highest bit, in a `struct ck_ec64` it is the lowest one. A `Format` is what the
code knows about the word, together with the facts that the operations rest on: the flag is no
part of the value, and an addition acts on the value alone, whatever carries out of it.
-/

namespace ConcurrencyKit.EventCount

/-- The layout of the word, and what the operations do with it. -/
structure Format where
  bits : Nat
  /-- The number of values. -/
  modulus : Nat
  flag : BitVec bits
  /-- The word that the initialization stores. -/
  init : BitVec bits → BitVec bits
  /-- The value of a word, without the flag. -/
  value : BitVec bits → BitVec bits
  /-- The word for a value, without the flag. -/
  word : BitVec bits → BitVec bits
  /-- What is added to the word to add to the value. -/
  amount : BitVec bits → BitVec bits
  /-- Whether an addition calls for a wake-up, from the word before. -/
  addWakes : BitVec bits → Bool
  /-- Whether an increment calls for a wake-up, from the word before. -/
  incWakes : BitVec bits → Bool
  /-- Whether a waiter compares the whole word itself before it sleeps. -/
  rereads : Bool
  value_lt : ∀ w, (value w).toNat < modulus
  value_init : ∀ v, (value (init v)).toNat = v.toNat % modulus
  value_add : ∀ w d, (value (w + amount d)).toNat = ((value w).toNat + d.toNat) % modulus
  value_clear : ∀ w, value (w &&& ~~~flag) = value w
  value_flag : ∀ w, value (w ||| flag) = value w
  value_word : ∀ v, v.toNat < modulus → value (word v) = v
  word_value : ∀ w, w &&& flag = 0 → word (value w) = w
  word_value_flag : ∀ w, w &&& flag ≠ 0 → word (value w) ||| flag = w
  word_unflagged : ∀ v, v.toNat < modulus → word v &&& flag = 0
  flag_ne_zero : flag ≠ 0
  addWakes_of_flagged : ∀ w, w &&& flag ≠ 0 → addWakes w = true
  incWakes_of_flagged : ∀ w, w &&& flag ≠ 0 → incWakes w = true

namespace Format

/-- The flag for waiters is set. -/
def Flagged (f : Format) (w : BitVec f.bits) : Prop := w &&& f.flag ≠ 0

instance (f : Format) (w : BitVec f.bits) : Decidable (f.Flagged w) :=
  inferInstanceAs (Decidable (_ ≠ _))

/-- The flagged word for a value. -/
def flaggedWord (f : Format) (v : BitVec f.bits) : BitVec f.bits := f.word v ||| f.flag

end Format

/-! ## The 32-bit word -/

theorem toNat_and_not_top (w : BitVec 32) : (w &&& ~~~(1#32 <<< 31)).toNat = w.toNat % 2 ^ 31 := by
  rw [BitVec.toNat_and, show (~~~(1#32 <<< 31)).toNat = 2 ^ 31 - 1 by decide,
    Nat.and_two_pow_sub_one_eq_mod]

theorem and_top_eq_zero_iff (w : BitVec 32) : w &&& 1#32 <<< 31 = 0 ↔ w.toNat < 2 ^ 31 := by
  have hlt := w.isLt
  rw [← BitVec.toNat_inj, BitVec.toNat_and, show (1#32 <<< 31).toNat = 2 ^ 31 by decide,
    Nat.and_two_pow, Nat.testBit_eq_decide_div_mod_eq]
  simp
  omega

theorem toNat_or_top {w : BitVec 32} (h : w.toNat < 2 ^ 31) :
    (w ||| 1#32 <<< 31).toNat = w.toNat + 2 ^ 31 := by
  rw [← BitVec.add_eq_or_of_and_eq_zero _ _ ((and_top_eq_zero_iff w).mpr h), BitVec.toNat_add,
    show (1#32 <<< 31).toNat = 2 ^ 31 by decide]
  omega

/-- The signed comparison after `incl`: zero, or a sign that is no overflow
(`ck_ec.h:631-652`). -/
def incLe (old : BitVec 32) : Bool :=
  decide (old + 1#32 = 0#32) || ((old + 1#32).msb != BitVec.saddOverflow old 1#32)

theorem incLe_of_top {w : BitVec 32} (h : w &&& 1#32 <<< 31 ≠ 0) : incLe w = true := by
  rw [ne_eq, and_top_eq_zero_iff] at h
  have hlt := w.isLt
  by_cases hzero : w + 1#32 = 0#32
  · simp [incLe, hzero]
  · have hne : w.toNat ≠ 2 ^ 32 - 1 := by
      intro heq
      apply hzero
      apply BitVec.eq_of_toNat_eq
      rw [BitVec.toNat_add, heq]
      decide
    have hmsb : (w + 1#32).msb = true := by
      rw [BitVec.msb_eq_decide, BitVec.toNat_add, show (1#32).toNat = 1 from rfl]
      simp only [Nat.add_one_sub_one, decide_eq_true_eq]
      omega
    have hover : BitVec.saddOverflow w 1#32 = false := by
      have hneg : w.toInt < 0 := by
        rw [BitVec.toInt_eq_toNat_cond]
        split <;> omega
      have hone : (1#32).toInt = 1 := by decide
      simp only [BitVec.saddOverflow, hone, Bool.or_eq_false_iff, decide_eq_false_iff_not]
      have hge := BitVec.le_toInt (x := w)
      constructor <;> omega
    simp [incLe, hmsb, hover]

/-- `struct ck_ec32` (`ck_ec.h:602-722`). -/
def ec32 : Format where
  bits := 32
  modulus := 2 ^ 31
  flag := 1#32 <<< 31
  init v := v &&& ~~~(1#32 <<< 31)
  value w := w &&& ~~~(1#32 <<< 31)
  word v := v
  amount d := d
  addWakes old := old != (old &&& ~~~(1#32 <<< 31))
  incWakes := incLe
  rereads := false
  value_lt := by
    intro w
    rw [toNat_and_not_top]
    omega
  value_init := by
    intro v
    rw [BitVec.and_assoc, BitVec.and_self, toNat_and_not_top]
  value_add := by
    intro w d
    rw [toNat_and_not_top, toNat_and_not_top, BitVec.toNat_add]
    omega
  value_clear := by
    intro w
    rw [BitVec.and_assoc, BitVec.and_self]
  value_flag := by
    intro w
    rw [BitVec.and_or_distrib_right, show 1#32 <<< 31 &&& ~~~(1#32 <<< 31) = 0#32 by decide,
      BitVec.or_zero]
  value_word := by
    intro v hv
    apply BitVec.eq_of_toNat_eq
    rw [toNat_and_not_top, Nat.mod_eq_of_lt hv]
  word_value := by
    intro w hw
    apply BitVec.eq_of_toNat_eq
    rw [toNat_and_not_top, Nat.mod_eq_of_lt ((and_top_eq_zero_iff w).mp hw)]
  word_value_flag := by
    intro w hw
    rw [ne_eq, and_top_eq_zero_iff] at hw
    have hlt := w.isLt
    apply BitVec.eq_of_toNat_eq
    rw [toNat_or_top (by rw [toNat_and_not_top]; omega), toNat_and_not_top]
    omega
  word_unflagged := by
    intro v hv
    exact (and_top_eq_zero_iff v).mpr hv
  flag_ne_zero := by decide
  addWakes_of_flagged := by
    intro w hw
    rw [ne_eq, and_top_eq_zero_iff] at hw
    apply bne_iff_ne.mpr
    intro heq
    have := congrArg BitVec.toNat heq
    rw [toNat_and_not_top] at this
    omega
  incWakes_of_flagged := fun _ => incLe_of_top

/-! ## The 64-bit word -/

theorem toNat_ushiftRight_one (w : BitVec 64) : (w >>> 1).toNat = w.toNat / 2 := by
  rw [BitVec.toNat_ushiftRight, Nat.shiftRight_eq_div_pow]

theorem toNat_shiftLeft_one (v : BitVec 64) : (v <<< 1).toNat = 2 * v.toNat % 2 ^ 64 := by
  rw [BitVec.toNat_shiftLeft, Nat.shiftLeft_eq]
  omega

theorem toNat_and_one (w : BitVec 64) : (w &&& 1#64).toNat = w.toNat % 2 := by
  rw [BitVec.toNat_and, show (1#64).toNat = 1 from rfl, Nat.and_one_is_mod]

theorem and_one_eq_zero_iff (w : BitVec 64) : w &&& 1#64 = 0 ↔ w.toNat % 2 = 0 := by
  rw [← BitVec.toNat_inj, toNat_and_one]
  rfl

theorem toNat_or_one {w : BitVec 64} (h : w.toNat % 2 = 0) :
    (w ||| 1#64).toNat = w.toNat + 1 := by
  have hlt := w.isLt
  rw [← BitVec.add_eq_or_of_and_eq_zero _ _ ((and_one_eq_zero_iff w).mpr h), BitVec.toNat_add,
    show (1#64).toNat = 1 from rfl]
  omega

/-- `struct ck_ec64` (`ck_ec.h:777-876`). -/
def ec64 : Format where
  bits := 64
  modulus := 2 ^ 63
  flag := 1#64
  init v := v <<< 1
  value w := w >>> 1
  word v := v <<< 1
  amount d := 2#64 * d
  addWakes old := (old &&& 1#64) != 0
  incWakes old := (old &&& 1#64) != 0
  rereads := true
  value_lt := by
    intro w
    have hlt := w.isLt
    rw [toNat_ushiftRight_one]
    omega
  value_init := by
    intro v
    rw [toNat_ushiftRight_one, toNat_shiftLeft_one]
    omega
  value_add := by
    intro w d
    have hlt := w.isLt
    rw [toNat_ushiftRight_one, toNat_ushiftRight_one, BitVec.toNat_add, BitVec.toNat_mul,
      show (2#64).toNat = 2 from rfl]
    omega
  value_clear := by
    intro w
    rw [BitVec.ushiftRight_and_distrib]
    apply BitVec.eq_of_toNat_eq
    have hlt := w.isLt
    rw [BitVec.toNat_and, show (~~~1#64 >>> 1).toNat = 2 ^ 63 - 1 by decide,
      Nat.and_two_pow_sub_one_eq_mod, toNat_ushiftRight_one]
    omega
  value_flag := by
    intro w
    rw [BitVec.ushiftRight_or_distrib, show 1#64 >>> 1 = 0#64 by decide, BitVec.or_zero]
  value_word := by
    intro v hv
    apply BitVec.eq_of_toNat_eq
    rw [toNat_ushiftRight_one, toNat_shiftLeft_one]
    omega
  word_value := by
    intro w hw
    have hlt := w.isLt
    rw [and_one_eq_zero_iff] at hw
    apply BitVec.eq_of_toNat_eq
    rw [toNat_shiftLeft_one, toNat_ushiftRight_one]
    omega
  word_value_flag := by
    intro w hw
    have hlt := w.isLt
    rw [ne_eq, and_one_eq_zero_iff] at hw
    apply BitVec.eq_of_toNat_eq
    rw [toNat_or_one (by rw [toNat_shiftLeft_one]; omega), toNat_shiftLeft_one,
      toNat_ushiftRight_one]
    omega
  word_unflagged := by
    intro v _
    rw [and_one_eq_zero_iff, toNat_shiftLeft_one]
    omega
  flag_ne_zero := by decide
  addWakes_of_flagged := fun _ => bne_iff_ne.mpr
  incWakes_of_flagged := fun _ => bne_iff_ne.mpr

end ConcurrencyKit.EventCount
