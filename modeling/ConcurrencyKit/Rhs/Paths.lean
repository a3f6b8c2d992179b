import ConcurrencyKit.Rhs.Sequence
import ConcurrencyKit.Misc.Tally

/-!
# Probe paths and their counters

An entry is stored some way along the probe sequence of its home slot, and it passes the slots
before. `passing` is the number of entries that pass a slot, which the `wanted` counters of the
slots are to follow; a counter that has got to its maximum stays there.
-/

namespace ConcurrencyKit.Rhs

/-- Where an entry is: its home slot and the number of probes that find it. -/
structure Place where
  home : Nat
  probes : Nat
  deriving DecidableEq, Repr

/-- What the slots of a map hold. -/
abbrev Placement := Nat → Option Place

section Paths

variable (line capacity : Nat)

/-- The slot is read by one of the probes from number `a` to before number `b`. -/
def Along (home a b s : Nat) : Prop := ∃ k < b, a ≤ k ∧ cursor line capacity home k = s

instance (home a b s : Nat) : Decidable (Along line capacity home a b s) :=
  inferInstanceAs (Decidable (∃ k < b, a ≤ k ∧ cursor line capacity home k = s))

/-- The path of the entry leads over a slot. -/
abbrev Place.Passes (p : Place) (s : Nat) : Prop := Along line capacity p.home 0 (p.probes - 1) s

/-- Whether the entry in a slot passes slot `s`. -/
def through (s : Nat) (o : Option Place) : Bool :=
  o.any fun p => decide (p.Passes line capacity s)

/-- The number of entries that pass slot `s`. -/
def passing (P : Placement) (s : Nat) : Nat := tally (through line capacity s) P capacity

/-- Every entry is where its number of probes says, and no slot before is empty, but for one that
is being vacated. -/
structure Placed (P : Placement) (vacant : Option Nat) : Prop where
  stands : ∀ t p, P t = some p → p.home < capacity ∧ 0 < p.probes ∧ p.probes ≤ capacity ∧
    cursor line capacity p.home (p.probes - 1) = t
  filled : ∀ t p, P t = some p → ∀ k < p.probes - 1,
    vacant = some (cursor line capacity p.home k) ∨ P (cursor line capacity p.home k) ≠ none

/-- The counters of passing entries, which stop at their maximum. -/
def Counts (P : Placement) (wanted : Nat → Nat) : Prop :=
  ∀ s < capacity, wanted s ≤ maxWanted ∧
    (wanted s < maxWanted → wanted s = passing line capacity P s)

end Paths

/-- The increment of `ck_rhs_add_wanted`. -/
def countUp (n : Nat) : Nat := if n < maxWanted then n + 1 else n

/-- The decrement of `ck_rhs_remove_wanted`. -/
def countDown (n : Nat) : Nat := if n ≠ maxWanted then dec 16 n else n

variable {line capacity : Nat} {vacant : Option Nat} {P P' : Placement} {wanted wanted' : Nat → Nat}

/-- One store to the placement. -/
theorem passing_update (line : Nat) (P : Placement) {t : Nat} (ht : t < capacity)
    (o : Option Place) (s : Nat) :
    passing line capacity (Function.update P t o) s +
        (if through line capacity s (P t) = true then 1 else 0) =
      passing line capacity P s + if through line capacity s o = true then 1 else 0 :=
  tally_update (through line capacity s) P ht o

theorem through_some {s : Nat} {x : Place} :
    through line capacity s (some x) = true ↔ x.Passes line capacity s := by
  simp [through]

/-- An entry is put into an empty slot. -/
theorem passing_insert {t : Nat} {x : Place} (ht : t < capacity) (hempty : P t = none) (s : Nat) :
    passing line capacity (Function.update P t (some x)) s =
      passing line capacity P s + if x.Passes line capacity s then 1 else 0 := by
  have h := passing_update line P ht (some x) s
  simp only [hempty, through_some] at h
  exact h

/-- An entry is taken out of its slot. -/
theorem passing_remove {t : Nat} {x : Place} (ht : t < capacity) (hx : P t = some x) (s : Nat) :
    passing line capacity P s =
      passing line capacity (Function.update P t none) s +
        if x.Passes line capacity s then 1 else 0 := by
  have h := passing_update line P ht none s
  simp only [hx, through_some] at h
  exact h.symm

/-- An entry is moved from one slot to an empty one. -/
theorem passing_move (line : Nat) {c t : Nat} {x y : Place} (hc : c < capacity) (ht : t < capacity)
    (htc : t ≠ c) (hempty : P t = none) (hx : P c = some x) (s : Nat) :
    passing line capacity (Function.update (Function.update P c none) t (some y)) s +
        (if x.Passes line capacity s then 1 else 0) =
      passing line capacity P s + if y.Passes line capacity s then 1 else 0 := by
  have hempty' : Function.update P c none t = none := by rw [Function.update_of_ne htc, hempty]
  rw [passing_insert ht hempty', passing_remove hc hx]
  omega

theorem Counts.up (h : Counts line capacity P wanted) {A : Nat → Prop} [DecidablePred A]
    (hP : ∀ s < capacity, passing line capacity P' s =
      passing line capacity P s + if A s then 1 else 0)
    (hw : ∀ s < capacity, wanted' s = if A s then countUp (wanted s) else wanted s) :
    Counts line capacity P' wanted' := by
  intro s hs
  obtain ⟨hle, heq⟩ := h s hs
  rw [hw s hs, hP s hs]
  unfold countUp
  split_ifs with hA hlt
  · exact ⟨hlt, fun _ => by rw [heq hlt]⟩
  · exact ⟨hle, fun hlt' => absurd hlt' hlt⟩
  · exact ⟨hle, heq⟩

theorem Counts.down (h : Counts line capacity P wanted) {A : Nat → Prop} [DecidablePred A]
    (hP : ∀ s < capacity, passing line capacity P s =
      passing line capacity P' s + if A s then 1 else 0)
    (hw : ∀ s < capacity, wanted' s = if A s then countDown (wanted s) else wanted s) :
    Counts line capacity P' wanted' := by
  intro s hs
  obtain ⟨hle, heq⟩ := h s hs
  rw [hw s hs]
  unfold countDown
  split_ifs with hA hne
  · have hlt : wanted s < maxWanted := Nat.lt_of_le_of_ne hle hne
    have hpass := heq hlt
    rw [hP s hs, if_pos hA] at hpass
    have hmax : maxWanted = 65535 := rfl
    rw [dec_of_pos (by omega) (by omega)]
    exact ⟨by omega, fun _ => by omega⟩
  · rw [not_not] at hne
    exact ⟨hle, fun hlt => absurd hne hlt.ne⟩
  · refine ⟨hle, fun hlt => ?_⟩
    rw [heq hlt, hP s hs, if_neg hA, Nat.add_zero]

/-- A path consists of its two parts, which have no slot in common. -/
theorem along_split (hl : Lines line capacity) {home a b m s : Nat} (hh : home < capacity)
    (ham : a ≤ m) (hmb : m ≤ b) (hb : b ≤ capacity) :
    (if Along line capacity home a b s then 1 else 0) =
      (if Along line capacity home a m s then 1 else 0) +
        if Along line capacity home m b s then 1 else 0 := by
  by_cases h₁ : Along line capacity home a m s
  · have h : Along line capacity home a b s := by
      obtain ⟨k, hk, hak, he⟩ := h₁
      exact ⟨k, hk.trans_le hmb, hak, he⟩
    have h₂ : ¬ Along line capacity home m b s := by
      rintro ⟨j, hj, hmj, he⟩
      obtain ⟨k, hk, hak, he'⟩ := h₁
      have := cursor_inj hl hh (by omega) (by omega) (he'.trans he.symm)
      omega
    rw [if_pos h, if_pos h₁, if_neg h₂]
  · rw [if_neg h₁, Nat.zero_add]
    refine if_congr ⟨?_, ?_⟩ rfl rfl
    · rintro ⟨k, hk, hak, he⟩
      by_cases hkm : k < m
      · exact absurd ⟨k, hkm, hak, he⟩ h₁
      · exact ⟨k, hk, Nat.le_of_not_lt hkm, he⟩
    · rintro ⟨k, hk, hmk, he⟩
      exact ⟨k, hk, ham.trans hmk, he⟩

/-- An entry is put into an empty slot and counted. -/
theorem Counts.insert (h : Counts line capacity P wanted) {t : Nat} {x : Place} (ht : t < capacity)
    (hempty : P t = none) (hw : ∀ s < capacity, wanted' s =
      if x.Passes line capacity s then countUp (wanted s) else wanted s) :
    Counts line capacity (Function.update P t (some x)) wanted' :=
  h.up (fun s _ => passing_insert ht hempty s) hw

/-- An entry is taken out of its slot and no longer counted. -/
theorem Counts.remove (h : Counts line capacity P wanted) {t : Nat} {x : Place} (ht : t < capacity)
    (hx : P t = some x) (hw : ∀ s < capacity, wanted' s =
      if x.Passes line capacity s then countDown (wanted s) else wanted s) :
    Counts line capacity (Function.update P t none) wanted' :=
  h.down (fun s _ => passing_remove ht hx s) hw

section Moves

variable (hl : Lines line capacity) {c t home p q : Nat}

include hl

/-- An entry is moved along its path and counted by the slots it passes in addition. -/
theorem Counts.advance (h : Counts line capacity P wanted) (hh : home < capacity)
    (hc : c < capacity) (ht : t < capacity) (htc : t ≠ c) (hpq : p ≤ q) (hq : q ≤ capacity)
    (hempty : P t = none) (hx : P c = some ⟨home, p⟩) (hw : ∀ s < capacity, wanted' s =
      if Along line capacity home (p - 1) (q - 1) s then countUp (wanted s) else wanted s) :
    Counts line capacity (Function.update (Function.update P c none) t (some ⟨home, q⟩))
      wanted' := by
  refine h.up (fun s _ => ?_) hw
  have hsplit := along_split hl (s := s) hh (Nat.zero_le (p - 1)) (by omega : p - 1 ≤ q - 1)
    (by omega)
  have hmove := passing_move line (y := ⟨home, q⟩) hc ht htc hempty hx s
  simp only [Place.Passes, hsplit] at hmove
  omega

/-- An entry is moved back along its path. -/
theorem Counts.retreat (h : Counts line capacity P wanted) (hh : home < capacity)
    (hc : c < capacity) (ht : t < capacity) (htc : t ≠ c) (hpq : p ≤ q) (hq : q ≤ capacity)
    (hempty : P t = none) (hx : P c = some ⟨home, q⟩) (hw : ∀ s < capacity, wanted' s =
      if Along line capacity home (p - 1) (q - 1) s then countDown (wanted s) else wanted s) :
    Counts line capacity (Function.update (Function.update P c none) t (some ⟨home, p⟩))
      wanted' := by
  refine h.down (fun s _ => ?_) hw
  have hsplit := along_split hl (s := s) hh (Nat.zero_le (p - 1)) (by omega : p - 1 ≤ q - 1)
    (by omega)
  have hmove := passing_move line (y := ⟨home, p⟩) hc ht htc hempty hx s
  simp only [Place.Passes, hsplit] at hmove
  omega

end Moves

/-- A slot that no entry passes. -/
theorem not_passes {s t : Nat} {x : Place} (h : passing line capacity P s = 0) (ht : t < capacity)
    (hx : P t = some x) : ¬ x.Passes line capacity s := by
  have hnot := of_tally_eq_zero h ht
  rw [hx] at hnot
  rw [← through_some, hnot]
  exact Bool.false_ne_true

namespace Placed

variable {v : Nat}

theorem weaken (h : Placed line capacity P none) (v : Nat) : Placed line capacity P (some v) where
  stands := h.stands
  filled t p hp k hk := (h.filled t p hp k hk).imp_left nofun

theorem lt (h : Placed line capacity P vacant) (hl : Lines line capacity) {t : Nat} {x : Place}
    (hx : P t = some x) : t < capacity := by
  obtain ⟨hh, -, -, he⟩ := h.stands t x hx
  rw [← he]
  exact cursor_lt hl hh _

/-- The vacant slot is filled. -/
theorem fill (h : Placed line capacity P (some v)) {x : Place}
    (hh : x.home < capacity) (hpos : 0 < x.probes) (hle : x.probes ≤ capacity)
    (he : cursor line capacity x.home (x.probes - 1) = v)
    (hpath : ∀ k < x.probes - 1, P (cursor line capacity x.home k) ≠ none) :
    Placed line capacity (Function.update P v (some x)) none := by
  have hfilled : ∀ t, P t ≠ none → Function.update P v (some x) t ≠ none := by
    intro t ht
    by_cases htv : t = v
    · rw [htv, Function.update_self]
      exact nofun
    · rwa [Function.update_of_ne htv]
  constructor
  · intro t p hp
    by_cases htv : t = v
    · rw [htv, Function.update_self] at hp
      cases hp
      exact ⟨hh, hpos, hle, he.trans htv.symm⟩
    · rw [Function.update_of_ne htv] at hp
      exact h.stands t p hp
  · intro t p hp k hk
    right
    by_cases htv : t = v
    · rw [htv, Function.update_self] at hp
      cases hp
      exact hfilled _ (hpath k hk)
    · rw [Function.update_of_ne htv] at hp
      rcases h.filled t p hp k hk with hv | hne
      · rw [← Option.some.inj hv, Function.update_self]
        exact nofun
      · exact hfilled _ hne

/-- An entry is moved to the vacant slot, and its own is vacant then. -/
theorem move (h : Placed line capacity P (some v)) {c home p q : Nat} (hempty : P v = none)
    (hx : P c = some ⟨home, p⟩) (hpos : 0 < q) (hle : q ≤ capacity)
    (he : cursor line capacity home (q - 1) = v)
    (hpath : ∀ k < q - 1,
      cursor line capacity home k = c ∨ P (cursor line capacity home k) ≠ none) :
    Placed line capacity (Function.update (Function.update P c none) v (some ⟨home, q⟩))
      (some c) := by
  obtain ⟨hh, -⟩ := h.stands c _ hx
  have hcv : c ≠ v := by
    rintro rfl
    rw [hempty] at hx
    cases hx
  have hfilled : ∀ t, t = c ∨ P t ≠ none →
      some c = some t ∨ Function.update (Function.update P c none) v (some ⟨home, q⟩) t ≠ none := by
    intro t ht
    by_cases htv : t = v
    · rw [htv, Function.update_self]
      exact .inr nofun
    · rw [Function.update_of_ne htv]
      by_cases htc : t = c
      · exact .inl (congrArg some htc.symm)
      · rw [Function.update_of_ne htc]
        exact .inr (ht.resolve_left htc)
  constructor
  · intro t x ht
    by_cases htv : t = v
    · rw [htv, Function.update_self] at ht
      cases ht
      exact ⟨hh, hpos, hle, he.trans htv.symm⟩
    · rw [Function.update_of_ne htv] at ht
      by_cases htc : t = c
      · rw [htc, Function.update_self] at ht
        cases ht
      · rw [Function.update_of_ne htc] at ht
        exact h.stands t x ht
  · intro t x ht k hk
    by_cases htv : t = v
    · rw [htv, Function.update_self] at ht
      cases ht
      exact hfilled _ (hpath k hk)
    · rw [Function.update_of_ne htv] at ht
      by_cases htc : t = c
      · rw [htc, Function.update_self] at ht
        cases ht
      · rw [Function.update_of_ne htc] at ht
        rcases h.filled t x ht k hk with hv | hne
        · rw [← Option.some.inj hv, Function.update_self]
          exact .inr nofun
        · exact hfilled _ (.inr hne)

/-- An entry is taken out of its slot. -/
theorem remove (h : Placed line capacity P none) (v : Nat) :
    Placed line capacity (Function.update P v none) (some v) := by
  have hsome : ∀ {t x}, Function.update P v none t = some x → P t = some x := by
    intro t x ht
    by_cases htv : t = v
    · rw [htv, Function.update_self] at ht
      cases ht
    · rwa [Function.update_of_ne htv] at ht
  constructor
  · intro t x ht
    exact h.stands t x (hsome ht)
  · intro t x ht k hk
    by_cases hv : cursor line capacity x.home k = v
    · exact .inl (congrArg some hv.symm)
    · rw [Function.update_of_ne hv]
      exact .inr ((h.filled t x (hsome ht) k hk).resolve_left nofun)

/-- The vacant slot may stay empty when no entry passes it. -/
theorem settle (h : Placed line capacity P (some v)) (hl : Lines line capacity)
    (hpass : passing line capacity P v = 0) : Placed line capacity P none where
  stands := h.stands
  filled t x ht k hk := by
    refine (h.filled t x ht k hk).imp_left fun hv => ?_
    exact absurd ⟨k, hk, Nat.zero_le k, (Option.some.inj hv).symm⟩
      (not_passes hpass (h.lt hl ht) ht)

end Placed

/-- In a map with an empty slot, a probe that has read only slots in use has not read all. -/
theorem probes_lt (hl : Lines line capacity) {home n e : Nat} (hh : home < capacity)
    (hlt : e < capacity) (hempty : P e = none)
    (hpath : ∀ k < n, P (cursor line capacity home k) ≠ none) : n < capacity := by
  obtain ⟨k, hk, rfl⟩ := cursor_surj hl hh hlt
  by_contra hle
  exact hpath k (by omega) hempty

end ConcurrencyKit.Rhs
