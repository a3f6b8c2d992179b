import ConcurrencyKit.Barrier.Tournament.Model
import Mathlib.NumberTheory.Padics.PadicVal.Basic

/-!
# The roles of the tournament barrier

A thread other than the first one loses in the round of its lowest bit, against the thread without
that bit. In the rounds before it wins or has a bye. The first thread wins in all rounds but the
last one, where it is the champion.
-/

namespace ConcurrencyKit.Barrier.Tournament

/-- The round in which a thread stops to climb. -/
def stop (nthr i : Nat) : Nat := if i = 0 then logUp nthr else padicValNat 2 i + 1

variable {junk : Nat → Nat → Round} {nthr i c k : Nat}

theorem stop_zero (nthr : Nat) : stop nthr 0 = logUp nthr := if_pos rfl

theorem stop_of_ne (hi : i ≠ 0) : stop nthr i = padicValNat 2 i + 1 := if_neg hi

theorem one_le_stop (h2 : 2 ≤ nthr) (hn : nthr ≤ 2 ^ 31) : 1 ≤ stop nthr i := by
  unfold stop
  split
  · exact (logUp_spec h2 hn).2.2.1
  · omega

/-- The bits below the round in which a thread stops are not set. -/
theorem mod_pow_eq_zero_iff (nthr : Nat) (hi : i ≠ 0) : i % 2 ^ k = 0 ↔ k < stop nthr i := by
  have hprime : Fact (Nat.Prime 2) := ⟨Nat.prime_two⟩
  rw [stop_of_ne hi, ← Nat.dvd_iff_mod_eq_zero, padicValNat_dvd_iff_le hi]
  omega

theorem mod_pow_of_lt_stop (h : k < stop nthr i) : i % 2 ^ k = 0 := by
  by_cases hi : i = 0
  · rw [hi, Nat.zero_mod]
  · exact (mod_pow_eq_zero_iff _ hi).mpr h

theorem mod_double (i p : Nat) : i % (2 * p) = i % p ∨ i % (2 * p) = i % p + p := by
  rcases Nat.mod_two_eq_zero_or_one (i / p) with h | h
  · left
    rw [Nat.mul_comm, Nat.mod_mul, h, Nat.mul_zero, Nat.add_zero]
  · right
    rw [Nat.mul_comm, Nat.mod_mul, h, Nat.mul_one]

/-- The round in which a thread stops is the one after its lowest bit. -/
theorem mod_pow_eq_half_iff (nthr : Nat) (hc : c ≠ 0) (hk : 1 ≤ k) :
    c % 2 ^ k = 2 ^ (k - 1) ↔ stop nthr c = k := by
  obtain ⟨k, rfl⟩ : ∃ j, k = j + 1 := ⟨k - 1, by omega⟩
  have hpos : 0 < 2 ^ k := by positivity
  have hlow := mod_pow_eq_zero_iff nthr (k := k) hc
  have hhigh := mod_pow_eq_zero_iff nthr (k := k + 1) hc
  have hdouble := mod_double c (2 ^ k)
  rw [← Nat.pow_succ', Nat.succ_eq_add_one] at hdouble
  have hlt := Nat.mod_lt c hpos
  rw [Nat.add_sub_cancel]
  omega

theorem stop_le (h2 : 2 ≤ nthr) (hn : nthr ≤ 2 ^ 31) (hi : i < nthr) :
    stop nthr i ≤ logUp nthr := by
  by_cases h0 : i = 0
  · rw [h0, stop_zero]
  · have hhalf := (mod_pow_eq_half_iff nthr h0 (one_le_stop h2 hn)).mpr rfl
    have hle : 2 ^ (stop nthr i - 1) < 2 ^ logUp nthr :=
      (hhalf.ge.trans (Nat.mod_le _ _)).trans_lt (hi.trans_le (logUp_spec h2 hn).2.1)
    have := (Nat.pow_lt_pow_iff_right (by omega)).mp hle
    omega

/-- The thread that a loser loses against. -/
def above (nthr c : Nat) : Nat := c - 2 ^ (stop nthr c - 1)

/-- A thread is one of the threads above it, with one lower bit more. -/
theorem above_add (h2 : 2 ≤ nthr) (hn : nthr ≤ 2 ^ 31) (hc : c ≠ 0) :
    above nthr c + 2 ^ (stop nthr c - 1) = c := by
  have hhalf := (mod_pow_eq_half_iff nthr hc (one_le_stop h2 hn)).mpr rfl
  have hle := Nat.mod_le c (2 ^ stop nthr c)
  unfold above
  omega

theorem above_lt (h2 : 2 ≤ nthr) (hn : nthr ≤ 2 ^ 31) (hc : c ≠ 0) : above nthr c < c := by
  have := above_add h2 hn hc
  have hpos : 0 < 2 ^ (stop nthr c - 1) := by positivity
  omega

/-- A thread that wins climbs further than the one that loses. -/
theorem stop_lt_above (h2 : 2 ≤ nthr) (hn : nthr ≤ 2 ^ 31) (hc : c ≠ 0) (h0 : above nthr c ≠ 0) :
    stop nthr c < stop nthr (above nthr c) := by
  rw [← mod_pow_eq_zero_iff _ h0]
  have hone := one_le_stop (i := c) h2 hn
  have hhalf := (mod_pow_eq_half_iff nthr hc hone).mpr rfl
  have hpow : 2 ^ stop nthr c = 2 * 2 ^ (stop nthr c - 1) := by
    rw [← Nat.pow_succ']
    congr 1
    omega
  have hdiv := Nat.div_add_mod c (2 ^ stop nthr c)
  have habove : above nthr c = 2 ^ stop nthr c * (c / 2 ^ stop nthr c) := by
    unfold above
    omega
  rw [habove, Nat.mul_mod_right]

/-- The opponent that is below a thread in a round loses there against it. -/
theorem stop_below (nthr : Nat) (hk : 1 ≤ k) (hi : k < stop nthr i ∨ i = 0) :
    stop nthr (i + 2 ^ (k - 1)) = k ∧ above nthr (i + 2 ^ (k - 1)) = i := by
  have hpos : 0 < 2 ^ (k - 1) := by positivity
  have hmod : i % 2 ^ k = 0 := by
    rcases hi with hi | rfl
    · exact mod_pow_of_lt_stop hi
    · exact Nat.zero_mod _
  have hlt : 2 ^ (k - 1) < 2 ^ k := Nat.pow_lt_pow_right (by omega) (by omega)
  have hstop : stop nthr (i + 2 ^ (k - 1)) = k := by
    rw [← mod_pow_eq_half_iff _ (by omega) hk, Nat.add_mod, hmod, Nat.zero_add, Nat.mod_mod,
      Nat.mod_eq_of_lt hlt]
  exact ⟨hstop, by rw [above, hstop, Nat.add_sub_cancel]⟩

/-! ## What `ck_barrier_tournament_init` stores -/

/-- The arithmetic of the rounds that there are does not overflow. -/
theorem role_eq (h2 : 2 ≤ nthr) (hn : nthr ≤ 2 ^ 31) (hi : i < nthr) (hk : 1 ≤ k)
    (hkn : k ≤ logUp nthr) :
    role junk nthr i k =
      if i % 2 ^ k = 2 ^ (k - 1) then .loser
      else if i = 0 ∧ 2 ^ k ≥ nthr then .champion
      else if i % 2 ^ k = 0 then
        if i + 2 ^ (k - 1) < nthr ∧ 2 ^ k < nthr then .winner
        else if i + 2 ^ (k - 1) ≥ nthr then .bye else (junk i k).role
      else (junk i k).role := by
  have h31 := (logUp_spec h2 hn).1
  have htwok : 2 ^ k % 2 ^ 32 = 2 ^ k :=
    Nat.mod_eq_of_lt (Nat.pow_lt_pow_right (by omega) (by omega))
  have hhalf : 2 ^ (k - 1) < 2 ^ 31 := Nat.pow_lt_pow_right (by omega) (by omega)
  have htwokm1 : 2 ^ (k - 1) % 2 ^ 32 = 2 ^ (k - 1) := Nat.mod_eq_of_lt (by omega)
  have hsum : (i + 2 ^ (k - 1)) % 2 ^ 32 = i + 2 ^ (k - 1) := Nat.mod_eq_of_lt (by omega)
  simp only [role, htwok, htwokm1, hsum, Nat.and_two_pow_sub_one_eq_mod]
  rw [if_neg (by omega)]

/-- In the rounds before it stops, a thread wins where it has an opponent. -/
theorem role_of_lt (junk : Nat → Nat → Round) (h2 : 2 ≤ nthr) (hn : nthr ≤ 2 ^ 31) (hi : i < nthr)
    (hk : 1 ≤ k)
    (hks : k < stop nthr i) :
    role junk nthr i k = if i + 2 ^ (k - 1) < nthr then .winner else .bye := by
  have hstop := stop_le h2 hn hi
  have hmod := mod_pow_of_lt_stop hks
  have hpos : 0 < 2 ^ (k - 1) := by positivity
  have hlt : 2 ^ k < nthr := by
    by_cases h0 : i = 0
    · rw [h0, stop_zero] at hks
      have hpow : 2 ^ k ≤ 2 ^ (logUp nthr - 1) := Nat.pow_le_pow_right (by omega) (by omega)
      exact hpow.trans_lt (logUp_spec h2 hn).2.2.2
    · have hdvd : 2 ^ k ∣ i := Nat.dvd_of_mod_eq_zero hmod
      exact (Nat.le_of_dvd (by omega) hdvd).trans_lt hi
  rw [role_eq h2 hn hi hk (by omega), hmod, if_neg (by omega), if_neg (by omega), if_pos rfl]
  by_cases hsum : i + 2 ^ (k - 1) < nthr
  · rw [if_pos ⟨hsum, hlt⟩, if_pos hsum]
  · rw [if_neg (fun h => hsum h.1), if_neg hsum, if_pos (by omega)]

theorem role_stop (junk : Nat → Nat → Round) (h2 : 2 ≤ nthr) (hn : nthr ≤ 2 ^ 31) (hi : i < nthr)
    (h0 : i ≠ 0) :
    role junk nthr i (stop nthr i) = .loser := by
  have hone := one_le_stop (i := i) h2 hn
  rw [role_eq h2 hn hi hone (stop_le h2 hn hi), if_pos]
  exact (mod_pow_eq_half_iff nthr h0 hone).mpr rfl

theorem role_champion (junk : Nat → Nat → Round) (h2 : 2 ≤ nthr) (hn : nthr ≤ 2 ^ 31) :
    role junk nthr 0 (stop nthr 0) = .champion := by
  have hone := one_le_stop (i := 0) h2 hn
  have hpos : 0 < 2 ^ (stop nthr 0 - 1) := by positivity
  rw [role_eq h2 hn (by omega) hone (stop_le h2 hn (by omega)), Nat.zero_mod, if_neg (by omega),
    if_pos]
  exact ⟨rfl, stop_zero nthr ▸ (logUp_spec h2 hn).2.1⟩

/-- A loser sets the flag of the thread above it. -/
theorem opponent_stop (junk : Nat → Nat → Round) (h2 : 2 ≤ nthr) (hn : nthr ≤ 2 ^ 31)
    (hi : i < nthr) (h0 : i ≠ 0) :
    opponent junk nthr i (stop nthr i) = (above nthr i, stop nthr i) := by
  have h31 := (logUp_spec h2 hn).1
  have hstop := stop_le h2 hn hi
  have hone := one_le_stop (i := i) h2 hn
  have habove := above_add h2 hn h0
  have hhalf : 2 ^ (stop nthr i - 1) < 2 ^ 31 := Nat.pow_lt_pow_right (by omega) (by omega)
  have hmod : 2 ^ (stop nthr i - 1) % 2 ^ 32 = 2 ^ (stop nthr i - 1) :=
    Nat.mod_eq_of_lt (by omega)
  rw [opponent, if_pos (role_stop _ h2 hn hi h0), hmod, Prod.mk.injEq]
  exact ⟨by omega, rfl⟩

/-- A winner, and the champion, sets the flag of the thread below it. -/
theorem opponent_below (junk : Nat → Nat → Round) (h2 : 2 ≤ nthr) (hn : nthr ≤ 2 ^ 31)
    (hi : i < nthr) (hk : 1 ≤ k)
    (hkn : k ≤ logUp nthr)
    (hrole : role junk nthr i k = .winner ∨ role junk nthr i k = .champion) :
    opponent junk nthr i k = (i + 2 ^ (k - 1), k) := by
  have h31 := (logUp_spec h2 hn).1
  have hhalf : 2 ^ (k - 1) < 2 ^ 31 := Nat.pow_lt_pow_right (by omega) (by omega)
  have hmod : 2 ^ (k - 1) % 2 ^ 32 = 2 ^ (k - 1) := Nat.mod_eq_of_lt (by omega)
  have hnot : role junk nthr i k ≠ .loser := by
    rcases hrole with h | h <;> rw [h] <;> decide
  rw [opponent, if_neg hnot, if_pos hrole, hmod, Nat.mod_eq_of_lt (by omega)]

/-! ## Where a thread stops -/

/-- The first round of thread `t` in which it is the champion or a loser is `r`. Its opponent has
the matching role there, and has it as its opponent. -/
structure Stops (junk : Nat → Nat → Round) (nthr t r : Nat) : Prop where
  one_le : 1 ≤ r
  lt_size : r < size nthr
  before : ∀ k, 1 ≤ k → k < r → role junk nthr t k = .winner ∨ role junk nthr t k = .bye
  matching : ∃ o < nthr, opponent junk nthr t r = (o, r) ∧ opponent junk nthr o r = (t, r) ∧
    (role junk nthr t r = .champion ∧ role junk nthr o r = .loser ∨
      role junk nthr t r = .loser ∧
        (role junk nthr o r = .winner ∨ role junk nthr o r = .champion))

variable {t r r' : Nat}

theorem Stops.le (h : Stops junk nthr t r) (h' : Stops junk nthr t r') : r ≤ r' := by
  by_contra hlt
  obtain ⟨o, -, -, -, hrole⟩ := h'.matching
  rcases h.before r' h'.one_le (not_le.mp hlt) with hbefore | hbefore <;>
    rw [hbefore] at hrole <;> simp at hrole

theorem Stops.unique (h : Stops junk nthr t r) (h' : Stops junk nthr t r') : r = r' :=
  le_antisymm (h.le h') (h'.le h)

/-- The thread above a loser wins against it, or is the champion. -/
theorem role_above (junk : Nat → Nat → Round) (h2 : 2 ≤ nthr) (hn : nthr ≤ 2 ^ 31) (ht : t < nthr)
    (h0 : t ≠ 0) :
    role junk nthr (above nthr t) (stop nthr t) = .winner ∨
      role junk nthr (above nthr t) (stop nthr t) = .champion := by
  have hone := one_le_stop (i := t) h2 hn
  have hadd := above_add h2 hn h0
  have hlt := above_lt h2 hn h0
  have hwin : stop nthr t < stop nthr (above nthr t) →
      role junk nthr (above nthr t) (stop nthr t) = .winner := by
    intro hstop
    rw [role_of_lt _ h2 hn (hlt.trans ht) hone hstop, if_pos (hadd.symm ▸ ht)]
  by_cases ha : above nthr t = 0
  · rcases (stop_le h2 hn ht).lt_or_eq with hstop | hstop
    · exact .inl (hwin (by rwa [ha, stop_zero]))
    · right
      rw [ha, hstop, ← stop_zero]
      exact role_champion _ h2 hn
  · exact .inl (hwin (stop_lt_above h2 hn h0 ha))

theorem stops (junk : Nat → Nat → Round) (h2 : 2 ≤ nthr) (hn : nthr ≤ 2 ^ 31) (ht : t < nthr) :
    Stops junk nthr t (stop nthr t) where
  one_le := one_le_stop h2 hn
  lt_size := Nat.lt_succ_of_le (stop_le h2 hn ht)
  before k hk hlt := by
    rw [role_of_lt _ h2 hn ht hk hlt]
    split
    case isTrue => exact .inl rfl
    case isFalse => exact .inr rfl
  matching := by
    have hone := one_le_stop (i := t) h2 hn
    have hle := stop_le h2 hn ht
    by_cases h0 : t = 0
    · subst h0
      obtain ⟨hstop, habove⟩ := stop_below nthr (i := 0) hone (.inr rfl)
      have hpos : 0 < 2 ^ (stop nthr 0 - 1) := by positivity
      have hlt : 0 + 2 ^ (stop nthr 0 - 1) < nthr := by
        rw [stop_zero, Nat.zero_add]
        exact (logUp_spec h2 hn).2.2.2
      have hback := opponent_stop junk h2 hn hlt (by omega)
      have hrole := role_stop junk h2 hn hlt (by omega)
      rw [hstop] at hback hrole
      rw [habove] at hback
      have hchampion := role_champion junk h2 hn
      exact ⟨_, hlt, opponent_below _ h2 hn ht hone hle (.inr hchampion), hback,
        .inl ⟨hchampion, hrole⟩⟩
    · have hlt := above_lt h2 hn h0
      have hrole := role_above junk h2 hn ht h0
      have hback := opponent_below _ h2 hn (hlt.trans ht) hone hle hrole
      rw [above_add h2 hn h0] at hback
      exact ⟨_, hlt.trans ht, opponent_stop _ h2 hn ht h0, hback,
        .inr ⟨role_stop _ h2 hn ht h0, hrole⟩⟩

end ConcurrencyKit.Barrier.Tournament
