import ConcurrencyKit.Rhs.Stores
import ConcurrencyKit.Rhs.Paths

/-!
# The counters of passing entries

`ck_rhs_add_wanted` and `ck_rhs_remove_wanted` walk along a probe sequence and count up, or down,
at the slots of a part of it.
-/

namespace ConcurrencyKit.Rhs

variable {V : Type}

section Along

variable {line capacity home a b k s : Nat}

theorem not_along_self : ¬ Along line capacity home a a s :=
  fun ⟨_, hk, hak, _⟩ => absurd hak (Nat.not_le.mpr hk)

theorem along_first (hab : a < b) :
    Along line capacity home a b s ↔
      cursor line capacity home a = s ∨ Along line capacity home (a + 1) b s := by
  constructor
  · rintro ⟨k, hk, hak, rfl⟩
    rcases Nat.eq_or_lt_of_le hak with rfl | hlt
    · exact .inl rfl
    · exact .inr ⟨k, hk, hlt, rfl⟩
  · rintro (rfl | ⟨k, hk, hak, rfl⟩)
    · exact ⟨a, hab, le_rfl, rfl⟩
    · exact ⟨k, hk, Nat.le_of_succ_le hak, rfl⟩

theorem along_last (hab : a ≤ b) :
    Along line capacity home a (b + 1) s ↔
      cursor line capacity home b = s ∨ Along line capacity home a b s := by
  constructor
  · rintro ⟨k, hk, hak, rfl⟩
    rcases Nat.eq_or_lt_of_le (Nat.le_of_lt_succ hk) with rfl | hlt
    · exact .inl rfl
    · exact .inr ⟨k, hlt, hak, rfl⟩
  · rintro (rfl | ⟨k, hk, hak, rfl⟩)
    · exact ⟨b, Nat.lt_succ_self b, hab, rfl⟩
    · exact ⟨k, Nat.lt_succ_of_lt hk, hak, rfl⟩

/-- A slot is not read again. -/
theorem not_along_cursor (hl : Lines line capacity) (hh : home < capacity) (hk : k < capacity)
    (hb : b ≤ capacity) (hout : k < a ∨ b ≤ k) :
    ¬ Along line capacity home a b (cursor line capacity home k) := by
  rintro ⟨j, hj, haj, he⟩
  have := cursor_inj hl hh (by omega) hk he
  omega

end Along

namespace State

variable {cfg : Config V} {home : Nat}

/-- One store of `ck_rhs_add_wanted`. -/
theorem countUp_wanted (hs : State V) (offset s : Nat) :
    (if hs.map.wanted offset < maxWanted then
        hs.exec [.wanted offset (hs.map.wanted offset + 1)] else hs).map.wanted s =
      if offset = s then countUp (hs.map.wanted s) else hs.map.wanted s := by
  unfold countUp
  by_cases hlt : hs.map.wanted offset < maxWanted
  · rw [if_pos hlt]
    by_cases hs : offset = s
    · subst hs
      rw [if_pos rfl, if_pos hlt]
      exact Function.update_self ..
    · rw [if_neg hs]
      exact Function.update_of_ne (Ne.symm hs) _ _
  · rw [if_neg hlt]
    by_cases hs : offset = s
    · subst hs
      rw [if_pos rfl, if_neg hlt]
    · rw [if_neg hs]

theorem countUp_capacity (hs : State V) (offset : Nat) :
    (if hs.map.wanted offset < maxWanted then
        hs.exec [.wanted offset (hs.map.wanted offset + 1)] else hs).map.capacity =
      hs.map.capacity := by
  split <;> rfl

/-- The loop of `ck_rhs_add_wanted` counts up from probe number `a` on, and until it is at the
slot with number `e`. -/
theorem addWantedLoop_wanted {capacity a e : Nat} {old : Option Nat}
    (hl : Lines cfg.line capacity) (hh : home < capacity) (he : e < capacity) {fuel j : Nat}
    {found : Bool} {hs : State V} (hc : hs.map.capacity = capacity) (hj : j ≤ e)
    (hfuel : e ≤ j + fuel)
    (hfound : found = true ∧ a ≤ j ∨ found = false ∧ j ≤ a ∧ a ≤ e ∧
      old = some (cursor cfg.line capacity home a)) (s : Nat) :
    (addWantedLoop cfg (cursor cfg.line capacity home e) old fuel
        (cursor cfg.line capacity home j) (j + 1) found hs).map.wanted s =
      if Along cfg.line capacity home (max a j) e s then countUp (hs.map.wanted s)
      else hs.map.wanted s := by
  induction fuel generalizing j found hs with
  | zero =>
    have : j = e := by omega
    subst this
    rw [addWantedLoop, if_neg]
    rcases hfound with ⟨-, haj⟩ | ⟨-, -, hae, -⟩
    · rw [max_eq_right haj]
      exact not_along_self
    · rw [max_eq_right hae]
      exact not_along_self
  | succ fuel ih =>
    rw [addWantedLoop]
    split
    · rename_i hend
      have : j = e := cursor_inj hl hh (by omega) he hend
      subst this
      rw [if_neg]
      rcases hfound with ⟨-, haj⟩ | ⟨-, -, hae, -⟩
      · rw [max_eq_right haj]
        exact not_along_self
      · rw [max_eq_right hae]
        exact not_along_self
    rename_i hend
    have hje : j < e := Nat.lt_of_le_of_ne hj fun h => hend (by rw [h])
    -- the slot is counted up from number `a` on
    by_cases haj : a ≤ j
    · have hnow : (found || decide (old = some (cursor cfg.line capacity home j))) = true := by
        rcases hfound with ⟨hf, -⟩ | ⟨-, hja, -, hold⟩
        · rw [hf, Bool.true_or]
        · rw [hold, Nat.le_antisymm haj hja, decide_eq_true rfl, Bool.or_true]
      have hstep := hs.countUp_wanted (cursor cfg.line capacity home j)
      have hcap := hs.countUp_capacity (cursor cfg.line capacity home j)
      simp only [hnow, true_and]
      generalize (if hs.map.wanted (cursor cfg.line capacity home j) < maxWanted then
        hs.exec [.wanted (cursor cfg.line capacity home j)
          (hs.map.wanted (cursor cfg.line capacity home j) + 1)] else hs) = hs' at hstep hcap ⊢
      rw [hcap, hc]
      have hrest := ih (hcap.trans hc) hje (by omega)
        (.inl ⟨rfl, Nat.le_succ_of_le haj⟩)
      rw [max_eq_right (Nat.le_succ_of_le haj)] at hrest
      refine hrest.trans ?_
      rw [hstep, max_eq_right haj]
      by_cases hs : cursor cfg.line capacity home j = s
      · subst hs
        rw [if_neg (not_along_cursor hl hh (by omega) (by omega) (.inl (Nat.lt_succ_self j))),
          if_pos rfl, if_pos ⟨j, hje, le_rfl, rfl⟩]
      · rw [if_neg hs]
        refine if_congr ?_ rfl rfl
        rw [along_first hje, or_iff_right hs]
    · obtain ⟨hf, -, hae, hold⟩ := hfound.resolve_left fun h => haj h.2
      have hnow : (found || decide (old = some (cursor cfg.line capacity home j))) = false := by
        rw [hf, Bool.false_or, decide_eq_false_iff_not, hold]
        intro he
        exact haj (cursor_inj hl hh (by omega) (by omega) (Option.some.inj he)).le
      simp only [hnow, Bool.false_eq_true, false_and, if_false]
      rw [hc]
      have hrest := ih hc hje (by omega)
        (.inr ⟨rfl, Nat.succ_le_of_lt (Nat.lt_of_not_le haj), hae, hold⟩)
      rw [max_eq_left (Nat.succ_le_of_lt (Nat.lt_of_not_le haj))] at hrest
      rw [max_eq_left (Nat.le_of_not_le haj)]
      exact hrest

/-- `ck_rhs_add_wanted` counts an entry that is stored from its home slot on. -/
theorem addWanted_insert {capacity e : Nat} (hl : Lines cfg.line capacity) (hh : home < capacity)
    (he : e < capacity) {hs : State V} (hc : hs.map.capacity = capacity) (s : Nat) :
    (hs.addWanted cfg (cursor cfg.line capacity home e) none home).map.wanted s =
      if Along cfg.line capacity home 0 e s then countUp (hs.map.wanted s)
      else hs.map.wanted s := by
  have hfuel : e ≤ 0 + hs.map.capacity := by omega
  exact addWantedLoop_wanted hl hh he hc (Nat.zero_le e) hfuel (.inl ⟨rfl, le_rfl⟩) s

/-- `ck_rhs_add_wanted` counts an entry that is moved on, from its old slot on. -/
theorem addWanted_move {capacity a e : Nat} (hl : Lines cfg.line capacity) (hh : home < capacity)
    (hae : a ≤ e) (he : e < capacity) {hs : State V} (hc : hs.map.capacity = capacity) (s : Nat) :
    (hs.addWanted cfg (cursor cfg.line capacity home e)
        (some (cursor cfg.line capacity home a)) home).map.wanted s =
      if Along cfg.line capacity home a e s then countUp (hs.map.wanted s)
      else hs.map.wanted s := by
  have hfuel : e ≤ 0 + hs.map.capacity := by omega
  refine (addWantedLoop_wanted hl hh he hc (Nat.zero_le e) hfuel
    (.inr ⟨rfl, Nat.zero_le a, hae, rfl⟩) s).trans ?_
  rw [max_eq_left (Nat.zero_le a)]

/-- One store of `ck_rhs_remove_wanted`. -/
theorem countDown_wanted (hs : State V) (offset s : Nat) :
    (if hs.map.wanted offset ≠ maxWanted then
        hs.exec [.wanted offset (dec 16 (hs.map.wanted offset))] else hs).map.wanted s =
      if offset = s then countDown (hs.map.wanted s) else hs.map.wanted s := by
  unfold countDown
  by_cases hne : hs.map.wanted offset ≠ maxWanted
  · rw [if_pos hne]
    by_cases hs : offset = s
    · subst hs
      rw [if_pos rfl, if_pos hne]
      exact Function.update_self ..
    · rw [if_neg hs]
      exact Function.update_of_ne (Ne.symm hs) _ _
  · rw [if_neg hne]
    by_cases hs : offset = s
    · subst hs
      rw [if_pos rfl, if_neg hne]
    · rw [if_neg hs]

theorem countDown_capacity (hs : State V) (offset : Nat) :
    (if hs.map.wanted offset ≠ maxWanted then
        hs.exec [.wanted offset (dec 16 (hs.map.wanted offset))] else hs).map.capacity =
      hs.map.capacity := by
  split <;> rfl

/-- The walk back ends at the home slot. -/
theorem removeWantedLoop_home {capacity : Nat} {limit : Option Nat} (hl : Lines cfg.line capacity)
    (hh : home < capacity) {p : Nat} (hp : p < capacity) {doRemove : Bool} {hs : State V}
    (hc : hs.map.capacity = capacity) :
    (removeWantedLoop cfg limit p (cursor cfg.line capacity home p) doRemove hs).1 = home := by
  induction p generalizing doRemove hs with
  | zero => rfl
  | succ p ih =>
    have hword : capacity ≤ 2 ^ 64 := Nat.le_of_dvd (Nat.two_pow_pos 64) hl.word
    rw [removeWantedLoop]
    rw [hc, probePrev_cursor hl hh (by omega)]
    refine ih (by omega) ?_
    split
    · exact hc
    · exact hc

/-- A walk back that has passed its limit changes nothing. -/
theorem removeWantedLoop_false {limit : Option Nat} {p offset : Nat} {hs : State V} :
    (removeWantedLoop cfg limit p offset false hs).2 = hs := by
  induction p generalizing offset with
  | zero => rfl
  | succ p ih =>
    rw [removeWantedLoop]
    simp only [Bool.false_and, Bool.false_eq_true, false_and, if_false]
    exact ih

/-- The loop of `ck_rhs_remove_wanted` counts down until it is at the slot before number `b`. -/
theorem removeWantedLoop_wanted {capacity b : Nat} {limit : Option Nat}
    (hl : Lines cfg.line capacity) (hh : home < capacity) {p : Nat} (hp : p < capacity)
    {hs : State V} (hc : hs.map.capacity = capacity) (hbp : b ≤ p)
    (hlimit : limit = none ∧ b = 0 ∨ 0 < b ∧ limit = some (cursor cfg.line capacity home (b - 1)))
    (s : Nat) :
    (removeWantedLoop cfg limit p (cursor cfg.line capacity home p) true hs).2.map.wanted s =
      if Along cfg.line capacity home b p s then countDown (hs.map.wanted s)
      else hs.map.wanted s := by
  induction p generalizing hs with
  | zero =>
    have hb : b = 0 := by omega
    subst hb
    rw [if_neg not_along_self]
    rfl
  | succ p ih =>
    have hword : capacity ≤ 2 ^ 64 := Nat.le_of_dvd (Nat.two_pow_pos 64) hl.word
    rw [removeWantedLoop]
    rw [hc, probePrev_cursor hl hh (by omega), Bool.true_and]
    by_cases hb : b = p + 1
    · -- the slot is the limit
      have hstop : decide (limit ≠ some (cursor cfg.line capacity home p)) = false := by
        obtain ⟨-, hsome⟩ := hlimit.resolve_left fun h => by omega
        rw [hsome, hb, Nat.add_sub_cancel]
        exact decide_eq_false fun h => h rfl
      rw [hstop, hb, if_neg not_along_self, removeWantedLoop_false]
      rfl
    · have hgo : decide (limit ≠ some (cursor cfg.line capacity home p)) = true := by
        refine decide_eq_true fun h => ?_
        rcases hlimit with ⟨hnone, -⟩ | ⟨hpos, hsome⟩
        · rw [hnone] at h
          cases h
        · rw [hsome] at h
          have := cursor_inj hl hh (by omega) (by omega) (Option.some.inj h)
          omega
      have hstep := hs.countDown_wanted (cursor cfg.line capacity home p)
      have hcap := hs.countDown_capacity (cursor cfg.line capacity home p)
      simp only [hgo, true_and]
      generalize (if hs.map.wanted (cursor cfg.line capacity home p) ≠ maxWanted then
        hs.exec [.wanted (cursor cfg.line capacity home p)
          (dec 16 (hs.map.wanted (cursor cfg.line capacity home p)))] else hs) = hs' at hstep hcap ⊢
      refine (ih (by omega) (hcap.trans hc) (by omega)).trans ?_
      rw [hstep]
      by_cases hs : cursor cfg.line capacity home p = s
      · subst hs
        rw [if_neg (not_along_cursor hl hh (by omega) (by omega) (.inr le_rfl)), if_pos rfl,
          if_pos ⟨p, Nat.lt_succ_self p, by omega, rfl⟩]
      · rw [if_neg hs]
        refine if_congr ?_ rfl rfl
        rw [along_last (by omega), or_iff_right hs]

/-- `ck_rhs_remove_wanted` finds the home slot of an entry and counts down at the slots that the
entry passes, from slot `limit` on if there is one. -/
theorem removeWanted_spec {capacity : Nat} (b q : Nat) (limit : Option Nat)
    (hl : Lines cfg.line capacity) (hh : home < capacity) (hpos : 0 < q) (hq : q ≤ capacity)
    {hs : State V}
    (hc : hs.map.capacity = capacity) {offset : Nat}
    (hoffset : cursor cfg.line capacity home (q - 1) = offset) (hprobes : hs.map.probes offset = q)
    (hbq : b ≤ q - 1)
    (hlimit : limit = none ∧ b = 0 ∨
      0 < b ∧ limit = some (cursor cfg.line capacity home (b - 1))) :
    (hs.removeWanted cfg offset limit).1 = home ∧
      ∀ s, (hs.removeWanted cfg offset limit).2.map.wanted s =
        if Along cfg.line capacity home b (q - 1) s then countDown (hs.map.wanted s)
        else hs.map.wanted s := by
  unfold removeWanted
  rw [hprobes, ← hoffset]
  exact ⟨removeWantedLoop_home hl hh (by omega) hc,
    removeWantedLoop_wanted hl hh (by omega) hc hbq hlimit⟩

end State

end ConcurrencyKit.Rhs
