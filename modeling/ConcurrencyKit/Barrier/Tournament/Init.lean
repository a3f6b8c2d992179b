import ConcurrencyKit.Barrier.Tournament.Roles

/-!
# The initialization of the tournament barrier

`ck_barrier_tournament_init` gives a thread no role in the rounds after the one in which it loses,
and then reads back what it has stored. Where the memory has held the number of a role, it computes
an opponent for that role, and this may be no thread at all.

The barrier does not look at these rounds. What it looks at does not depend on the memory.
-/

namespace ConcurrencyKit.Barrier.Tournament

/-- The role has an opponent. -/
def Role.Matched (r : Role) : Prop := r = .loser ∨ r = .winner ∨ r = .champion

/-- The rounds of thread `i` that the two loops of `ck_barrier_tournament` look at
(`ck_barrier_tournament.c:109-184`). -/
inductive Looks (junk : Nat → Nat → Round) (nthr i : Nat) : Nat → Prop
  | first (h : size nthr ≠ 1) : Looks junk nthr i 1
  | climb {k : Nat} (h : Looks junk nthr i k) (hl : role junk nthr i k ≠ .loser)
      (hc : role junk nthr i k ≠ .champion) : Looks junk nthr i (k + 1)
  | descend {k : Nat} (h : Looks junk nthr i (k + 1)) : Looks junk nthr i k

/-- Every opponent whose flag is stored is one of the threads. -/
def InBounds (junk : Nat → Nat → Round) (nthr : Nat) : Prop :=
  ∀ i < nthr, ∀ k, 1 ≤ k → k < size nthr → (role junk nthr i k).Matched →
    (opponent junk nthr i k).1 < nthr

/-- The roles that the barrier looks at, and their opponents, are the same for all contents of the
memory. -/
def Determined (junk : Nat → Nat → Round) (nthr : Nat) : Prop :=
  ∀ junk' : Nat → Nat → Round, ∀ i < nthr, ∀ k, Looks junk nthr i k →
    role junk' nthr i k = role junk nthr i k ∧
      ((role junk nthr i k).Matched → opponent junk' nthr i k = opponent junk nthr i k)

/-- What the memory has held in the rounds without a role is no role whose opponent would be
none of the threads. -/
def Harmless (junk : Nat → Nat → Round) (nthr : Nat) : Prop :=
  ∀ i < nthr, ∀ k, 1 ≤ k → k < size nthr → i % 2 ^ k ≠ 0 → i % 2 ^ k ≠ 2 ^ (k - 1) →
    ((junk i k).role = .loser → 2 ^ (k - 1) ≤ i) ∧
      ((junk i k).role = .winner ∨ (junk i k).role = .champion → i + 2 ^ (k - 1) < nthr)

variable {junk : Nat → Nat → Round} {nthr i k : Nat}

/-- There are rounds besides the first one for two threads up to `2 ^ 31` of them. -/
theorem two_le_of_size (h32 : nthr < 2 ^ 32) (h : 1 < size nthr) : 2 ≤ nthr ∧ nthr ≤ 2 ^ 31 := by
  unfold size at h
  constructor
  · by_contra hlt
    have hzero : logUp nthr = 0 := by
      rcases (by omega : nthr = 0 ∨ nthr = 1) with rfl | rfl <;> decide
    omega
  · by_contra hlt
    have hzero := logUp_large (by omega) h32
    omega

theorem size_pos (nthr : Nat) : 1 ≤ size nthr := Nat.succ_pos _

/-! ## The rounds that the barrier looks at -/

theorem role_at_stop (junk : Nat → Nat → Round) (h2 : 2 ≤ nthr) (hn : nthr ≤ 2 ^ 31)
    (hi : i < nthr) :
    role junk nthr i (stop nthr i) = if i = 0 then .champion else .loser := by
  split
  case isTrue h0 => rw [h0, role_champion junk h2 hn]
  case isFalse h0 => exact role_stop junk h2 hn hi h0

/-- The climb ends in the round in which the thread stops. -/
theorem Looks.le_stop (h2 : 2 ≤ nthr) (hn : nthr ≤ 2 ^ 31) (hi : i < nthr)
    (h : Looks junk nthr i k) : k ≤ stop nthr i := by
  induction h with
  | first => exact one_le_stop h2 hn
  | @climb k _ hl hc ih =>
    have hne : k ≠ stop nthr i := by
      rintro rfl
      have hrole := role_at_stop junk h2 hn hi
      by_cases h0 : i = 0
      · exact hc (by rw [hrole, if_pos h0])
      · exact hl (by rw [hrole, if_neg h0])
    omega
  | descend _ ih => omega

theorem Looks.size (h : Looks junk nthr i k) : 1 < size nthr := by
  induction h with
  | first h =>
    have := size_pos nthr
    omega
  | climb _ _ _ ih => exact ih
  | descend _ ih => exact ih

/-- Up to the round in which the thread stops, its roles are given. -/
theorem role_le_stop (junk junk' : Nat → Nat → Round) (h2 : 2 ≤ nthr) (hn : nthr ≤ 2 ^ 31)
    (hi : i < nthr) (hk : k ≤ stop nthr i) : role junk' nthr i k = role junk nthr i k := by
  by_cases h0 : k = 0
  · rw [h0]
    rfl
  · rcases hk.lt_or_eq with hlt | rfl
    · rw [role_of_lt _ h2 hn hi (by omega) hlt, role_of_lt _ h2 hn hi (by omega) hlt]
    · rw [role_at_stop _ h2 hn hi, role_at_stop _ h2 hn hi]

/-- A role that is given has a given opponent. -/
theorem opponent_congr {junk' : Nat → Nat → Round}
    (h : role junk' nthr i k = role junk nthr i k) (hm : (role junk nthr i k).Matched) :
    opponent junk' nthr i k = opponent junk nthr i k := by
  simp only [opponent, h]
  rcases hm with hm | hm | hm <;> simp [hm]

theorem determined (junk : Nat → Nat → Round) (h32 : nthr < 2 ^ 32) : Determined junk nthr := by
  intro junk' i hi k hk
  obtain ⟨h2, hn⟩ := two_le_of_size h32 hk.size
  have hrole := role_le_stop junk junk' h2 hn hi (hk.le_stop h2 hn hi)
  exact ⟨hrole, opponent_congr hrole⟩

/-! ## The opponents that are computed -/

/-- The opponent of a loser is a thread if no word is overrun. -/
theorem opponent_loser (h2 : 2 ≤ nthr) (hn : nthr ≤ 2 ^ 31) (hi : i < nthr) (hk : 1 ≤ k)
    (hkn : k ≤ logUp nthr) (hrole : role junk nthr i k = .loser) :
    (opponent junk nthr i k).1 < nthr ↔ 2 ^ (k - 1) ≤ i := by
  obtain ⟨h31, -, -, hlast⟩ := logUp_spec h2 hn
  have hhalf : 2 ^ (k - 1) ≤ 2 ^ (logUp nthr - 1) := Nat.pow_le_pow_right (by omega) (by omega)
  have hmod : 2 ^ (k - 1) % 2 ^ 32 = 2 ^ (k - 1) := Nat.mod_eq_of_lt (by omega)
  rw [opponent, if_pos hrole, hmod]
  dsimp only
  omega

/-- The opponent of a winner, or of the champion, is a thread if it is one of the last ones. -/
theorem opponent_winner (h2 : 2 ≤ nthr) (hn : nthr ≤ 2 ^ 31) (hi : i < nthr) (hk : 1 ≤ k)
    (hkn : k ≤ logUp nthr)
    (hrole : role junk nthr i k = .winner ∨ role junk nthr i k = .champion) :
    (opponent junk nthr i k).1 < nthr ↔ i + 2 ^ (k - 1) < nthr := by
  rw [opponent_below _ h2 hn hi hk hkn hrole]

/-- In the rounds after the one in which it loses, a thread keeps what the memory has held. -/
theorem role_left_out (h2 : 2 ≤ nthr) (hn : nthr ≤ 2 ^ 31) (hi : i < nthr) (hk : 1 ≤ k)
    (hkn : k ≤ logUp nthr) (hzero : i % 2 ^ k ≠ 0) (hhalf : i % 2 ^ k ≠ 2 ^ (k - 1)) :
    role junk nthr i k = (junk i k).role := by
  have hi0 : i ≠ 0 := by
    rintro rfl
    exact hzero (Nat.zero_mod _)
  rw [role_eq h2 hn hi hk hkn, if_neg hhalf, if_neg fun h => hi0 h.1, if_neg hzero]

/-- The roles that are given have threads as opponents. -/
theorem opponent_given (h2 : 2 ≤ nthr) (hn : nthr ≤ 2 ^ 31) (hi : i < nthr) (hk : 1 ≤ k)
    (hkn : k ≤ logUp nthr) (hmod : i % 2 ^ k = 0 ∨ i % 2 ^ k = 2 ^ (k - 1))
    (hm : (role junk nthr i k).Matched) : (opponent junk nthr i k).1 < nthr := by
  have hrole : role junk nthr i k = _ := role_eq h2 hn hi hk hkn
  by_cases hhalf : i % 2 ^ k = 2 ^ (k - 1)
  · rw [if_pos hhalf] at hrole
    have hle := Nat.mod_le i (2 ^ k)
    exact (opponent_loser h2 hn hi hk hkn hrole).mpr (by omega)
  have hzero := hmod.resolve_right hhalf
  rw [if_neg hhalf, if_pos hzero] at hrole
  by_cases hchampion : i = 0 ∧ 2 ^ k ≥ nthr
  · rw [if_pos hchampion] at hrole
    obtain ⟨-, -, -, hlast⟩ := logUp_spec h2 hn
    have hpow : 2 ^ (k - 1) ≤ 2 ^ (logUp nthr - 1) := Nat.pow_le_pow_right (by omega) (by omega)
    exact (opponent_winner h2 hn hi hk hkn (.inr hrole)).mpr (by omega)
  rw [if_neg hchampion] at hrole
  by_cases hsum : i + 2 ^ (k - 1) < nthr
  · -- a later thread than the first one has fewer than `nthr` threads before it
    have hlt : 2 ^ k < nthr := by
      by_contra hge
      have hi0 : i = 0 := by rwa [Nat.mod_eq_of_lt (by omega)] at hzero
      exact hchampion ⟨hi0, by omega⟩
    rw [if_pos ⟨hsum, hlt⟩] at hrole
    exact (opponent_winner h2 hn hi hk hkn (.inl hrole)).mpr hsum
  · rw [if_neg fun h => hsum h.1, if_pos (by omega)] at hrole
    rw [hrole] at hm
    rcases hm with hm | hm | hm <;> cases hm

/-- All opponents are threads exactly if the memory has held nothing harmful. -/
theorem inBounds_iff (h32 : nthr < 2 ^ 32) : InBounds junk nthr ↔ Harmless junk nthr := by
  constructor
  · intro h i hi k hk hks hzero hhalf
    obtain ⟨h2, hn⟩ := two_le_of_size h32 (Nat.lt_of_le_of_lt hk hks)
    have hkn : k ≤ logUp nthr := Nat.le_of_lt_succ hks
    have hrole : role junk nthr i k = (junk i k).role :=
      role_left_out h2 hn hi hk hkn hzero hhalf
    have hbound := h i hi k hk hks
    rw [← hrole]
    exact ⟨fun hl => (opponent_loser h2 hn hi hk hkn hl).mp (hbound (.inl hl)),
      fun hw => (opponent_winner h2 hn hi hk hkn hw).mp (hbound (.inr hw))⟩
  · intro h i hi k hk hks hm
    obtain ⟨h2, hn⟩ := two_le_of_size h32 (Nat.lt_of_le_of_lt hk hks)
    have hkn : k ≤ logUp nthr := Nat.le_of_lt_succ hks
    by_cases hmod : i % 2 ^ k = 0 ∨ i % 2 ^ k = 2 ^ (k - 1)
    · exact opponent_given h2 hn hi hk hkn hmod hm
    · obtain ⟨hzero, hhalf⟩ := not_or.mp hmod
      obtain ⟨hloser, hwinner⟩ := h i hi k hk hks hzero hhalf
      have hrole : role junk nthr i k = (junk i k).role :=
        role_left_out h2 hn hi hk hkn hzero hhalf
      rw [← hrole] at hloser hwinner
      rcases hm with hm | hm
      · exact (opponent_loser h2 hn hi hk hkn hm).mpr (hloser hm)
      · exact (opponent_winner h2 hn hi hk hkn hm).mpr (hwinner hm)

/-- `ck_barrier_tournament_init` is well defined exactly for memory that has held nothing
harmful. -/
theorem init_well_defined_iff (junk : Nat → Nat → Round) (h32 : nthr < 2 ^ 32) :
    InBounds junk nthr ∧ Determined junk nthr ↔ Harmless junk nthr :=
  (and_iff_left (determined junk h32)).trans (inBounds_iff h32)

/-- Memory that has been cleared holds the number of a bye. -/
theorem init_well_defined_zeroed :
    InBounds (fun _ _ => ⟨.bye, (0, 0)⟩) 3 ∧ Determined (fun _ _ => ⟨.bye, (0, 0)⟩) 3 := by
  refine (init_well_defined_iff _ (by decide)).mpr fun i _ k _ _ _ _ => ⟨nofun, ?_⟩
  rintro (h | h) <;> cases h

/-- Thread 1 of 3 has lost in the first round. If the memory for its second round has held the
number of a loser, its opponent there is the thread before the first one. -/
theorem init_not_in_bounds :
    ¬ (InBounds (fun _ _ => ⟨.loser, (0, 0)⟩) 3 ∧ Determined (fun _ _ => ⟨.loser, (0, 0)⟩) 3) := by
  rintro ⟨h, -⟩
  have hbound := h 1 (by decide) 2 (by decide) (by decide) (.inl (by decide +kernel))
  revert hbound
  decide +kernel

end ConcurrencyKit.Barrier.Tournament
