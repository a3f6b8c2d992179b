import Mathlib.Tactic

/-!
# Time arithmetic of the event count

The functions of `src/ck_ec_timeutil.h` on a target with 64-bit `time_t` and `long`. A sum of two
times is cut off at the last one that can be represented, and so is a wait that is scaled.

A signed operation whose result is out of range is undefined, and then there is no result
(`signed`).
-/

namespace ConcurrencyKit.EventCount

/-- `TIME_MAX`. -/
def timeMax : Int := 2 ^ 63 - 1

/-- `NSEC_MAX`. -/
def nsecMax : Int := 1000 * 1000 * 1000 - 1

/-- The result of an operation on `time_t` or `long`. -/
def signed (n : Int) : Option Int := if -2 ^ 63 ≤ n ∧ n < 2 ^ 63 then some n else none

/-- `struct timespec`. -/
structure Timespec where
  tvSec : Int
  tvNsec : Int
  deriving DecidableEq, Repr

/-- The time to which the functions clamp. -/
def farFuture : Timespec := ⟨timeMax, nsecMax⟩

/-- `wait_time_scale` (`ck_ec_timeutil.h:16-29`). -/
def waitTimeScale (nsec multiplier : BitVec 32) (shift : Nat) : BitVec 32 :=
  let temp : BitVec 64 := nsec.setWidth 64 * multiplier.setWidth 64
  let max : BitVec 64 := (BitVec.allOnes 32).setWidth 64 <<< shift
  if max ≤ temp then BitVec.allOnes 32 else (temp >>> shift).setWidth 32

/-- `timespec_add_ns` (`ck_ec_timeutil.h:37-72`). -/
def timespecAddNs (ts : Timespec) (ns : BitVec 32) : Option Timespec :=
  if (ns.toNat : Int) > nsecMax then
    if ts.tvSec ≥ timeMax then some farFuture
    else do
      let sec ← signed (ts.tvSec + 1)
      return ⟨sec, ts.tvNsec⟩
  else do
    let sum ← signed (ns.toNat + ts.tvNsec)
    -- `sum_ns` is an `uint32_t`
    let sumNs := sum % 2 ^ 32
    if sumNs > nsecMax then
      if ts.tvSec ≥ timeMax then return farFuture
      else
        let sec ← signed (ts.tvSec + 1)
        return ⟨sec, (sumNs - (nsecMax + 1)) % 2 ^ 32⟩
    else return ⟨ts.tvSec, sumNs⟩

/-- `timespec_add` (`ck_ec_timeutil.h:79-115`). -/
def timespecAdd (ts inc : Timespec) : Option Timespec :=
  if inc.tvSec < 0 ∨ inc.tvNsec < 0 ∨ inc.tvNsec > nsecMax then some ts
  else do
    let room ← signed (timeMax - ts.tvSec)
    if inc.tvSec > room then return farFuture
    else
      let sec ← signed (ts.tvSec + inc.tvSec)
      -- `nsec` is an `unsigned long`
      let nsec := (ts.tvNsec + inc.tvNsec) % 2 ^ 64
      if nsec > nsecMax then
        if sec ≥ timeMax then return farFuture
        else
          let sec ← signed (sec + 1)
          return ⟨sec, (nsec - (nsecMax + 1)) % 2 ^ 64⟩
      else return ⟨sec, nsec⟩

/-- `timespec_cmp` (`ck_ec_timeutil.h:118-130`). -/
def timespecCmp (x y : Timespec) : Int :=
  if x.tvSec ≠ y.tvSec then (if x.tvSec < y.tvSec then -1 else 1)
  else if x.tvNsec ≠ y.tvNsec then (if x.tvNsec < y.tvNsec then -1 else 1)
  else 0

theorem signed_eq {n : Int} (hlo : -2 ^ 63 ≤ n) (hhi : n < 2 ^ 63) : signed n = some n :=
  if_pos ⟨hlo, hhi⟩

namespace Timespec

/-- A time that is not negative and whose nanoseconds are less than a second. -/
structure Normal (t : Timespec) : Prop where
  sec : 0 ≤ t.tvSec
  secMax : t.tvSec ≤ timeMax
  nsec : 0 ≤ t.tvNsec
  nsecMax : t.tvNsec ≤ nsecMax

/-- The time in nanoseconds. -/
def nanos (t : Timespec) : Int := t.tvSec * (EventCount.nsecMax + 1) + t.tvNsec

variable {a b r : Timespec}

theorem nsecMax_eq : EventCount.nsecMax = 999999999 := by decide

theorem timeMax_eq : timeMax = 9223372036854775807 := by decide

theorem farFuture_normal : farFuture.Normal := by
  constructor <;> decide

theorem Normal.nanos_le (h : a.Normal) : a.nanos ≤ farFuture.nanos := by
  have h₁ := h.secMax
  have h₂ := h.nsecMax
  simp only [nanos, farFuture, nsecMax_eq, timeMax_eq] at *
  omega

theorem farFuture_nanos : farFuture.nanos = 9223372036854775807999999999 := by decide

/-- A sum that does not come before the last time. -/
theorem cutOff_far {n : Int} (h : farFuture.nanos ≤ n) :
    farFuture.Normal ∧ farFuture.nanos = min n farFuture.nanos :=
  ⟨farFuture_normal, (min_eq_right h).symm⟩

/-- A sum that is exact. -/
theorem cutOff_exact {n : Int} (hr : r.Normal) (h : r.nanos = n) :
    r.Normal ∧ r.nanos = min n farFuture.nanos :=
  ⟨hr, by rw [← h, min_eq_left hr.nanos_le]⟩

/-- `timespec_cmp` compares the nanoseconds. -/
theorem Normal.cmp (ha : a.Normal) (hb : b.Normal) :
    (timespecCmp a b < 0 ↔ a.nanos < b.nanos) ∧ (timespecCmp a b ≤ 0 ↔ a.nanos ≤ b.nanos) := by
  have h₁ := ha.nsec
  have h₂ := ha.nsecMax
  have h₃ := hb.nsec
  have h₄ := hb.nsecMax
  simp only [timespecCmp, nanos, nsecMax_eq] at *
  split_ifs <;> omega

end Timespec

open Timespec

variable {a b : Timespec}

/-- The sum of two times, cut off at the last one. -/
theorem timespecAdd_eq (ha : a.Normal) (hb : b.Normal) :
    ∃ r, timespecAdd a b = some r ∧ r.Normal ∧
      r.nanos = min (a.nanos + b.nanos) farFuture.nanos := by
  obtain ⟨ha₁, ha₂, ha₃, ha₄⟩ := ha
  obtain ⟨hb₁, hb₂, hb₃, hb₄⟩ := hb
  have hmax := timeMax_eq
  have hnmax := nsecMax_eq
  have hfar := farFuture_nanos
  have hroom : signed (timeMax - a.tvSec) = some (timeMax - a.tvSec) :=
    signed_eq (by omega) (by omega)
  unfold timespecAdd
  rw [if_neg (by omega), hroom, Option.bind_eq_bind, Option.bind_some]
  by_cases hlarge : b.tvSec > timeMax - a.tvSec
  · refine ⟨farFuture, if_pos hlarge, cutOff_far ?_⟩
    rw [hfar, nanos, nanos, hnmax]
    omega
  · have hsec : signed (a.tvSec + b.tvSec) = some (a.tvSec + b.tvSec) :=
      signed_eq (by omega) (by omega)
    have hnsec : (a.tvNsec + b.tvNsec) % 2 ^ 64 = a.tvNsec + b.tvNsec := by omega
    rw [if_neg hlarge, hsec, Option.bind_some, hnsec]
    by_cases hcarry : a.tvNsec + b.tvNsec > nsecMax
    · rw [if_pos hcarry]
      by_cases hlast : a.tvSec + b.tvSec ≥ timeMax
      · -- the seconds are the last ones because of the nanoseconds
        refine ⟨farFuture, if_pos hlast, cutOff_far ?_⟩
        rw [hfar, nanos, nanos, hnmax]
        omega
      · have hsec' : signed (a.tvSec + b.tvSec + 1) = some (a.tvSec + b.tvSec + 1) :=
          signed_eq (by omega) (by omega)
        have hwrap : (a.tvNsec + b.tvNsec - (nsecMax + 1)) % 2 ^ 64 =
            a.tvNsec + b.tvNsec - (nsecMax + 1) := by omega
        rw [if_neg hlast, hsec', Option.bind_some, hwrap]
        refine ⟨_, rfl, cutOff_exact ?_ ?_⟩
        · constructor <;> dsimp only <;> omega
        · simp only [nanos]
          rw [hnmax]
          omega
    · rw [if_neg hcarry]
      refine ⟨_, rfl, cutOff_exact ?_ ?_⟩
      · constructor <;> dsimp only <;> omega
      · simp only [nanos]
        rw [hnmax]
        omega

/-- A time and at most a second more, cut off at the last one. -/
theorem timespecAddNs_eq (ha : a.Normal) (ns : BitVec 32) :
    ∃ r, timespecAddNs a ns = some r ∧ r.Normal ∧
      r.nanos = min (a.nanos + min ns.toNat (10 ^ 9)) farFuture.nanos := by
  obtain ⟨ha₁, ha₂, ha₃, ha₄⟩ := ha
  have hns := ns.isLt
  have hmax := timeMax_eq
  have hnmax := nsecMax_eq
  have hfar := farFuture_nanos
  unfold timespecAddNs
  by_cases hlarge : (ns.toNat : Int) > nsecMax
  · have hsecond : ((min ns.toNat (10 ^ 9) : Nat) : Int) = nsecMax + 1 := by omega
    rw [if_pos hlarge, hsecond]
    by_cases hlast : a.tvSec ≥ timeMax
    · refine ⟨farFuture, if_pos hlast, cutOff_far ?_⟩
      rw [hfar, nanos, hnmax]
      omega
    · have hsec : signed (a.tvSec + 1) = some (a.tvSec + 1) := signed_eq (by omega) (by omega)
      rw [if_neg hlast, hsec]
      refine ⟨_, rfl, cutOff_exact ?_ ?_⟩
      · constructor <;> dsimp only <;> omega
      · simp only [nanos]
        rw [hnmax]
        omega
  · have hless : ((min ns.toNat (10 ^ 9) : Nat) : Int) = ns.toNat := by omega
    have hsum : signed (ns.toNat + a.tvNsec) = some (ns.toNat + a.tvNsec) :=
      signed_eq (by omega) (by omega)
    have hword : ((ns.toNat : Int) + a.tvNsec) % 2 ^ 32 = ns.toNat + a.tvNsec := by omega
    rw [if_neg hlarge, hless, hsum, Option.bind_eq_bind, Option.bind_some, hword]
    by_cases hcarry : (ns.toNat : Int) + a.tvNsec > nsecMax
    · rw [if_pos hcarry]
      by_cases hlast : a.tvSec ≥ timeMax
      · refine ⟨farFuture, if_pos hlast, cutOff_far ?_⟩
        rw [hfar, nanos, hnmax]
        omega
      · have hsec : signed (a.tvSec + 1) = some (a.tvSec + 1) := signed_eq (by omega) (by omega)
        have hwrap : ((ns.toNat : Int) + a.tvNsec - (nsecMax + 1)) % 2 ^ 32 =
            ns.toNat + a.tvNsec - (nsecMax + 1) := by omega
        rw [if_neg hlast, hsec, Option.bind_some, hwrap]
        refine ⟨_, rfl, cutOff_exact ?_ ?_⟩
        · constructor <;> dsimp only <;> omega
        · simp only [nanos]
          rw [hnmax]
          omega
    · rw [if_neg hcarry]
      refine ⟨_, rfl, cutOff_exact ?_ ?_⟩
      · constructor <;> dsimp only <;> omega
      · simp only [nanos]
        rw [hnmax]
        omega

/-- A scaled wait, cut off at the largest word. -/
theorem toNat_waitTimeScale (nsec multiplier : BitVec 32) {shift : Nat} (hs : shift < 32) :
    (waitTimeScale nsec multiplier shift).toNat =
      min (2 ^ 32 - 1) (nsec.toNat * multiplier.toNat / 2 ^ shift) := by
  have hn := nsec.isLt
  have hm := multiplier.isLt
  have hprod : nsec.toNat * multiplier.toNat ≤ (2 ^ 32 - 1) * (2 ^ 32 - 1) :=
    Nat.mul_le_mul (by omega) (by omega)
  have hpow : 2 ^ shift ≤ 2 ^ 31 := Nat.pow_le_pow_right (by omega) (by omega)
  have hpos : 0 < 2 ^ shift := Nat.two_pow_pos shift
  have htemp : (nsec.setWidth 64 * multiplier.setWidth 64 : BitVec 64).toNat =
      nsec.toNat * multiplier.toNat := by
    rw [BitVec.toNat_mul, BitVec.toNat_setWidth, BitVec.toNat_setWidth]
    rw [Nat.mod_eq_of_lt (by omega : nsec.toNat < 2 ^ 64),
      Nat.mod_eq_of_lt (by omega : multiplier.toNat < 2 ^ 64), Nat.mod_eq_of_lt (by omega)]
  have hmax : ((BitVec.allOnes 32).setWidth 64 <<< shift : BitVec 64).toNat =
      (2 ^ 32 - 1) * 2 ^ shift := by
    have hshift : (2 ^ 32 - 1) * 2 ^ shift < 2 ^ 64 := by omega
    rw [BitVec.toNat_shiftLeft, BitVec.toNat_setWidth, BitVec.toNat_allOnes, Nat.shiftLeft_eq]
    exact Nat.mod_eq_of_lt hshift
  unfold waitTimeScale
  simp only [BitVec.le_def, htemp, hmax]
  split
  · rename_i hle
    rw [BitVec.toNat_allOnes, min_eq_left ((Nat.le_div_iff_mul_le hpos).mpr hle)]
  · rename_i hlt
    have hdiv : nsec.toNat * multiplier.toNat / 2 ^ shift < 2 ^ 32 - 1 :=
      (Nat.div_lt_iff_lt_mul hpos).mpr (Nat.lt_of_not_le hlt)
    rw [BitVec.toNat_setWidth, BitVec.toNat_ushiftRight, htemp, Nat.shiftRight_eq_div_pow,
      min_eq_right hdiv.le]
    exact Nat.mod_eq_of_lt (by omega)

/-- Sums of normal times are exact or cut off at the last time, no signed operation overflows, and
neither sum decreases when an argument does not. -/
theorem time_arithmetic :
    (∀ a b : Timespec, a.Normal → b.Normal → ∃ r, timespecAdd a b = some r ∧ r.Normal ∧
      r.nanos = min (a.nanos + b.nanos) farFuture.nanos) ∧
    (∀ (a : Timespec) (ns : BitVec 32), a.Normal → ∃ r, timespecAddNs a ns = some r ∧ r.Normal ∧
      r.nanos = min (a.nanos + min ns.toNat (10 ^ 9)) farFuture.nanos) ∧
    (∀ a b a' b' r r' : Timespec, a.Normal → b.Normal → a'.Normal → b'.Normal →
      a.nanos ≤ a'.nanos → b.nanos ≤ b'.nanos → timespecAdd a b = some r →
        timespecAdd a' b' = some r' → r.nanos ≤ r'.nanos) ∧
    (∀ (a a' r r' : Timespec) (ns ns' : BitVec 32), a.Normal → a'.Normal → a.nanos ≤ a'.nanos →
      ns ≤ ns' → timespecAddNs a ns = some r → timespecAddNs a' ns' = some r' →
        r.nanos ≤ r'.nanos) ∧
    ∀ (nsec multiplier : BitVec 32) (shift : Nat), shift < 32 →
      (waitTimeScale nsec multiplier shift).toNat =
        min (2 ^ 32 - 1) (nsec.toNat * multiplier.toNat / 2 ^ shift) := by
  refine ⟨fun a b => timespecAdd_eq, fun a ns ha => timespecAddNs_eq ha ns, ?_, ?_,
    fun nsec multiplier shift => toNat_waitTimeScale nsec multiplier⟩
  · intro a b a' b' r r' ha hb ha' hb' hle hle' h h'
    obtain ⟨s, hs, -, hnanos⟩ := timespecAdd_eq ha hb
    obtain ⟨s', hs', -, hnanos'⟩ := timespecAdd_eq ha' hb'
    cases h.symm.trans hs
    cases h'.symm.trans hs'
    rw [hnanos, hnanos']
    exact min_le_min (Int.add_le_add hle hle') le_rfl
  · intro a a' r r' ns ns' ha ha' hle hns h h'
    obtain ⟨s, hs, -, hnanos⟩ := timespecAddNs_eq ha ns
    obtain ⟨s', hs', -, hnanos'⟩ := timespecAddNs_eq ha' ns'
    cases h.symm.trans hs
    cases h'.symm.trans hs'
    rw [BitVec.le_def] at hns
    rw [hnanos, hnanos']
    omega

/-- The nanoseconds carry into the last second. -/
theorem time_arithmetic_carry :
    ∃ r, timespecAdd ⟨timeMax, 999999999⟩ ⟨0, 1⟩ = some r ∧ r.Normal ∧
      r.nanos = farFuture.nanos := by
  obtain ⟨r, hr, hnormal, hnanos⟩ := time_arithmetic.1 ⟨timeMax, 999999999⟩ ⟨0, 1⟩
    (by constructor <;> decide) (by constructor <;> decide)
  exact ⟨r, hr, hnormal, hnanos.trans (by decide)⟩

end ConcurrencyKit.EventCount
