import Mathlib.Data.Nat.Bitwise
import Mathlib.Tactic

/-!
# Integer helpers shared by the containers

`ck_internal_power_2` from `src/ck_internal.h` rounds a 32-bit word up to a power of two
by smearing its highest set bit, and `ck_cc_ffsl` is the one-based index of the lowest
set bit. Every hash table of the library sizes its maps with the former, so the fact that
matters is `slotsFor_pow` and
`le_slotsFor`: the slot count is a power of two, and no smaller than the request unless
the request does not fit.
-/

namespace ConcurrencyKit

/-- Decrement of a `w`-bit counter. -/
def dec (w n : Nat) : Nat := (n + (2 ^ w - 1)) % 2 ^ w

theorem dec_of_pos {w n : Nat} (h0 : 0 < n) (hn : n ≤ 2 ^ w) : dec w n = n - 1 := by
  have : n + (2 ^ w - 1) = (n - 1) + 2 ^ w := by omega
  rw [dec, this, Nat.add_mod_right, Nat.mod_eq_of_lt (by omega)]

/-- Increment of a `w`-bit counter. -/
def inc (w n : Nat) : Nat := (n + 1) % 2 ^ w

/-- One smearing step `v |= v >> w` (`ck_internal.h:63-67`). -/
def smear (v : BitVec 32) (w : Nat) : BitVec 32 := v ||| v >>> w

/-- `ck_internal_power_2` (`ck_internal.h:58-69`). -/
def ckInternalPower2 (v : BitVec 32) : BitVec 32 :=
  smear (smear (smear (smear (smear (v - 1) 1) 2) 4) 8) 16 + 1

/-- `ck_cc_ffsl`: one plus the index of the lowest set bit, zero for a zero word. -/
def ckCcFfsl (x : Nat) : Nat :=
  match (List.range 64).find? (fun i => x.testBit i) with
  | some i => i + 1
  | none => 0

theorem ckCcFfsl_pow : ∀ k < 64, ckCcFfsl (2 ^ k) = k + 1 := by decide +kernel

/-- All bits of `x` in the window of `w` bits that ends at `k` are set. -/
def WindowSet (x : BitVec 32) (k w : Nat) : Prop :=
  ∀ i, i ≤ k → k < i + w → x.toNat.testBit i = true

/-- No bit of `x` above `k` is set. -/
def ClearAbove (x : BitVec 32) (k : Nat) : Prop :=
  ∀ i, k < i → x.toNat.testBit i = false

theorem smear_window {x : BitVec 32} {k w : Nat} (h : WindowSet x k w) :
    WindowSet (smear x w) k (2 * w) := by
  intro i hi hk
  rw [smear, BitVec.toNat_or, BitVec.toNat_ushiftRight, Nat.testBit_or, Nat.testBit_shiftRight]
  by_cases hw : k < i + w
  · rw [h i hi hw, Bool.true_or]
  · rw [h (w + i) (by omega) (by omega), Bool.or_true]

theorem smear_clear {x : BitVec 32} {k w : Nat} (h : ClearAbove x k) :
    ClearAbove (smear x w) k := by
  intro i hi
  rw [smear, BitVec.toNat_or, BitVec.toNat_ushiftRight, Nat.testBit_or, Nat.testBit_shiftRight,
    h i hi, h (w + i) (by omega), Bool.or_false]

/-- A word whose low `k + 1` bits are exactly its set bits is `2 ^ (k + 1) - 1`. -/
theorem toNat_of_window {x : BitVec 32} {k : Nat} (hk : k < 32) (hw : WindowSet x k 32)
    (hc : ClearAbove x k) : x.toNat = 2 ^ (k + 1) - 1 := by
  apply Nat.eq_of_testBit_eq
  intro i
  rw [Nat.testBit_two_pow_sub_one]
  by_cases hi : i ≤ k
  · rw [hw i hi (by omega)]
    simp; omega
  · rw [hc i (by omega)]
    simp; omega

/-- The five smearing steps turn a non-zero word into all ones up to its highest bit. -/
theorem smear_all {x : BitVec 32} (hx : x.toNat ≠ 0) :
    (smear (smear (smear (smear (smear x 1) 2) 4) 8) 16).toNat =
      2 ^ (x.toNat.log2 + 1) - 1 := by
  have hk : x.toNat.log2 < 32 := (Nat.log2_lt hx).mpr x.isLt
  have hw : WindowSet x x.toNat.log2 1 := by
    intro i hi hki
    have : i = x.toNat.log2 := by omega
    subst this
    exact Nat.testBit_log2 hx
  have hc : ClearAbove x x.toNat.log2 := by
    intro i hi
    apply Nat.testBit_lt_two_pow
    exact (Nat.log2_lt hx).mp hi
  apply toNat_of_window hk
  · exact smear_window (smear_window (smear_window (smear_window (smear_window hw))))
  · exact smear_clear (smear_clear (smear_clear (smear_clear (smear_clear hc))))

theorem ckInternalPower2_one : ckInternalPower2 1 = 1 := by decide

theorem ckInternalPower2_zero : ckInternalPower2 0 = 0 := by decide

theorem ckInternalPower2_toNat {v : BitVec 32} (hv : 2 ≤ v.toNat) :
    (ckInternalPower2 v).toNat = 2 ^ ((v.toNat - 1).log2 + 1) % 2 ^ 32 := by
  have hsub : (v - 1).toNat = v.toNat - 1 := by
    have hlt := v.isLt
    have h1 : (1 : BitVec 32).toNat = 1 := rfl
    rw [BitVec.toNat_sub, h1]
    omega
  have hne : (v - 1).toNat ≠ 0 := by omega
  rw [ckInternalPower2, BitVec.toNat_add, smear_all hne, hsub]
  have hpos : 0 < 2 ^ ((v.toNat - 1).log2 + 1) := by positivity
  have h1 : (1 : BitVec 32).toNat = 1 := rfl
  rw [h1, Nat.sub_add_cancel hpos]

/-- The rounded value is zero or a power of two. -/
theorem ckInternalPower2_shape (v : BitVec 32) :
    (ckInternalPower2 v).toNat = 0 ∨ ∃ k, (ckInternalPower2 v).toNat = 2 ^ k := by
  by_cases hv : 2 ≤ v.toNat
  · rw [ckInternalPower2_toNat hv]
    by_cases hk : (v.toNat - 1).log2 + 1 < 32
    · right
      exact ⟨_, Nat.mod_eq_of_lt (Nat.pow_lt_pow_right (by omega) hk)⟩
    · left
      have : 2 ^ 32 ∣ 2 ^ ((v.toNat - 1).log2 + 1) := Nat.pow_dvd_pow 2 (by omega)
      exact Nat.mod_eq_zero_of_dvd this
  · have h01 : v = 0 ∨ v = 1 := by
      rcases (by omega : v.toNat = 0 ∨ v.toNat = 1) with h | h
      · left; exact BitVec.eq_of_toNat_eq h
      · right; exact BitVec.eq_of_toNat_eq h
    rcases h01 with rfl | rfl
    · left; rw [ckInternalPower2_zero]; rfl
    · right; exact ⟨0, by rw [ckInternalPower2_one]; rfl⟩

/-- A request of at most `2 ^ 31` is rounded up, never down. -/
theorem le_ckInternalPower2 {v : BitVec 32} (hv : v.toNat ≤ 2 ^ 31) :
    v.toNat ≤ (ckInternalPower2 v).toNat := by
  by_cases h2 : 2 ≤ v.toNat
  · rw [ckInternalPower2_toNat h2]
    have hne : v.toNat - 1 ≠ 0 := by omega
    have hlog : (v.toNat - 1).log2 < 31 := (Nat.log2_lt hne).mpr (by omega)
    have hlt : v.toNat - 1 < 2 ^ ((v.toNat - 1).log2 + 1) := Nat.lt_log2_self
    rw [Nat.mod_eq_of_lt (Nat.pow_lt_pow_right (by omega) (by omega))]
    omega
  · rcases (by omega : v.toNat = 0 ∨ v.toNat = 1) with h | h
    · omega
    · have : v = 1 := BitVec.eq_of_toNat_eq h
      subst this
      rw [ckInternalPower2_one]

/-- The next power of two, if it fits into the word. -/
theorem ckInternalPower2_eq {v : BitVec 32} {b : Nat} (hb : b ≤ 31) (hle : v.toNat ≤ 2 ^ b)
    (hlt : 2 ^ b < v.toNat * 2) : (ckInternalPower2 v).toNat = 2 ^ b := by
  have hpow : 2 ^ b < 2 ^ 32 := Nat.pow_lt_pow_right (by omega) (by omega)
  by_cases h2 : 2 ≤ v.toNat
  · obtain ⟨a, rfl⟩ : ∃ a, b = a + 1 := by
      refine Nat.exists_eq_add_of_le' (Nat.one_le_iff_ne_zero.mpr fun hzero => ?_)
      rw [hzero] at hle
      omega
    have hlog : (v.toNat - 1).log2 = a := by
      rw [Nat.log2_eq_iff (by omega)]
      rw [Nat.pow_succ] at hle hlt ⊢
      omega
    rw [ckInternalPower2_toNat h2, hlog, Nat.mod_eq_of_lt hpow]
  · have hone : v = 1 := BitVec.eq_of_toNat_eq (by
      have hpos := Nat.two_pow_pos b
      show v.toNat = 1
      omega)
    subst hone
    have hone : (1 : BitVec 32).toNat = 1 := rfl
    rw [ckInternalPower2_one]
    have hpos := Nat.two_pow_pos b
    omega

/-- Slot count of a map created for `entries` keys: `ck_internal_power_2(entries)`, with
the argument truncated to `uint32_t`, and at least the eight slots of one probe bucket
(`ck_hs.c:226-228`, `ck_rhs.c:325-331`). -/
def mapSlots (entries : Nat) : Nat := max 8 (ckInternalPower2 (BitVec.ofNat 32 entries)).toNat

/-- Slot count of a map created for `entries` keys that has at least `least` slots
(`ck_ht.c:146-148`). -/
def slotsFor (least entries : Nat) : Nat :=
  max least (ckInternalPower2 (BitVec.ofNat 32 entries)).toNat

theorem slotsFor_pow (i entries : Nat) : ∃ k, i ≤ k ∧ slotsFor (2 ^ i) entries = 2 ^ k := by
  unfold slotsFor
  rcases ckInternalPower2_shape (BitVec.ofNat 32 entries) with h | ⟨k, h⟩
  · exact ⟨i, le_refl _, by rw [h, Nat.max_zero]⟩
  · rw [h]
    by_cases hk : i ≤ k
    · exact ⟨k, hk, max_eq_right (Nat.pow_le_pow_right (by omega) hk)⟩
    · exact ⟨i, le_refl _, max_eq_left (Nat.pow_le_pow_right (by omega) (by omega))⟩

theorem le_slotsFor {least entries : Nat} (h : entries ≤ 2 ^ 31) :
    entries ≤ slotsFor least entries := by
  have hnat : (BitVec.ofNat 32 entries).toNat = entries := by
    rw [BitVec.toNat_ofNat, Nat.mod_eq_of_lt (by omega)]
  have := le_ckInternalPower2 (v := BitVec.ofNat 32 entries) (by omega)
  rw [hnat] at this
  exact le_trans this (le_max_right _ _)

theorem slotsFor_le {least : Nat} (hleast : least ≤ 2 ^ 31) (entries : Nat) :
    slotsFor least entries ≤ 2 ^ 31 := by
  unfold slotsFor
  have hlt := (ckInternalPower2 (BitVec.ofNat 32 entries)).isLt
  rcases ckInternalPower2_shape (BitVec.ofNat 32 entries) with h | ⟨k, h⟩
  · rw [h]; omega
  · rw [h] at hlt ⊢
    have hk : k < 32 := (Nat.pow_lt_pow_iff_right (by omega)).mp hlt
    have : 2 ^ k ≤ 2 ^ 31 := Nat.pow_le_pow_right (by omega) (by omega)
    omega

/-- A request is rounded up to the next power of two that is large enough for a map. -/
theorem slotsFor_eq {least entries b : Nat} (hb : b ≤ 31) (hleast : least ≤ 2 ^ b)
    (hle : entries ≤ 2 ^ b) (hlt : 2 ^ b < entries * 2) : slotsFor least entries = 2 ^ b := by
  have hpow : 2 ^ b < 2 ^ 32 := Nat.pow_lt_pow_right (by omega) (by omega)
  have hnat : (BitVec.ofNat 32 entries).toNat = entries := by
    rw [BitVec.toNat_ofNat, Nat.mod_eq_of_lt (by omega)]
  have hround : (ckInternalPower2 (BitVec.ofNat 32 entries)).toNat = 2 ^ b := by
    apply ckInternalPower2_eq hb
    · rwa [hnat]
    · rwa [hnat]
  rw [slotsFor, hround]
  exact max_eq_right hleast

theorem mapSlots_pow (entries : Nat) : ∃ k, 3 ≤ k ∧ mapSlots entries = 2 ^ k :=
  slotsFor_pow 3 entries

theorem le_mapSlots {entries : Nat} (h : entries ≤ 2 ^ 31) : entries ≤ mapSlots entries :=
  le_slotsFor h

theorem mapSlots_le (entries : Nat) : mapSlots entries ≤ 2 ^ 31 := slotsFor_le (by omega) entries

/-! ## Logarithms -/

/-- `(v & mask) != 0` as a word. -/
def anyBit (v mask : BitVec 32) : BitVec 32 := if v &&& mask ≠ 0 then 1 else 0

/-- `ck_internal_log` (`ck_internal.h:32-48`). -/
def ckInternalLog (v : BitVec 32) : BitVec 32 :=
  anyBit v 0xAAAAAAAA ||| anyBit v 0xFFFF0000 <<< 4 ||| anyBit v 0xFF00FF00 <<< 3 |||
    anyBit v 0xF0F0F0F0 <<< 2 ||| anyBit v 0xCCCCCCCC <<< 1

theorem ckInternalLog_pow : ∀ k < 32, (ckInternalLog (BitVec.ofNat 32 (2 ^ k))).toNat = k := by
  decide

/-- The logarithm of a number of threads, rounded up. -/
def logUp (nthr : Nat) : Nat :=
  (ckInternalLog (ckInternalPower2 (BitVec.ofNat 32 nthr))).toNat

/-- Up to `2 ^ 31` threads the logarithm is the number of doublings that reach all of them. -/
theorem logUp_spec {nthr : Nat} (h2 : 2 ≤ nthr) (hn : nthr ≤ 2 ^ 31) :
    logUp nthr ≤ 31 ∧ nthr ≤ 2 ^ logUp nthr ∧ 0 < logUp nthr ∧ 2 ^ (logUp nthr - 1) < nthr := by
  have hnat : (BitVec.ofNat 32 nthr).toNat = nthr := by
    rw [BitVec.toNat_ofNat, Nat.mod_eq_of_lt (by omega)]
  have hne : nthr - 1 ≠ 0 := by omega
  have hlog : (nthr - 1).log2 < 31 := (Nat.log2_lt hne).mpr (by omega)
  have hpow : ckInternalPower2 (BitVec.ofNat 32 nthr) =
      BitVec.ofNat 32 (2 ^ ((nthr - 1).log2 + 1)) := by
    apply BitVec.eq_of_toNat_eq
    rw [ckInternalPower2_toNat (by omega), hnat, BitVec.toNat_ofNat]
  have hup : logUp nthr = (nthr - 1).log2 + 1 := by
    rw [logUp, hpow, ckInternalLog_pow _ (by omega)]
  have hlt : nthr - 1 < 2 ^ ((nthr - 1).log2 + 1) := Nat.lt_log2_self
  have hle : 2 ^ (nthr - 1).log2 ≤ nthr - 1 := Nat.log2_self_le hne
  rw [hup]
  refine ⟨by omega, by omega, by omega, ?_⟩
  rw [Nat.add_sub_cancel]
  omega

/-- Beyond that the power of two does not fit into a word. -/
theorem logUp_large {nthr : Nat} (hn : 2 ^ 31 < nthr) (h32 : nthr < 2 ^ 32) : logUp nthr = 0 := by
  have hnat : (BitVec.ofNat 32 nthr).toNat = nthr := by
    rw [BitVec.toNat_ofNat, Nat.mod_eq_of_lt h32]
  have hne : nthr - 1 ≠ 0 := by omega
  have hlog : 31 ≤ (nthr - 1).log2 := (Nat.le_log2 hne).mpr (by omega)
  have hpow : ckInternalPower2 (BitVec.ofNat 32 nthr) = 0 := by
    apply BitVec.eq_of_toNat_eq
    rw [ckInternalPower2_toNat (by omega), hnat]
    exact Nat.mod_eq_zero_of_dvd (Nat.pow_dvd_pow 2 (by omega))
  rw [logUp, hpow]
  decide

end ConcurrencyKit
