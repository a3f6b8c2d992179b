import ConcurrencyKit.Rhs.Valid

/-!
# Backward-shift deletion

`ck_rhs_do_backward_shift_delete` moves an entry back to the slot that has become vacant as long as
an entry passes it. The search for such an entry misses none, and the counters tell when there is
none left.
-/

namespace ConcurrencyKit.Rhs

variable {V : Type}

namespace Map

variable {cfg : Config V} {m : Map V} {home slot : Nat}

/-- An entry that the inner search finds has come that far from the home slot. -/
theorem successorFrom_some {remaining probe probe' offset' : Nat}
    (h : m.successorFrom cfg remaining probe (cursor cfg.line m.capacity home probe) =
      some (probe', offset')) :
    probe ≤ probe' ∧ probe' < probe + remaining ∧
      offset' = cursor cfg.line m.capacity home probe' ∧ m.probes offset' = probe' + 1 := by
  induction remaining generalizing probe with
  | zero => cases h
  | succ remaining ih =>
    rw [successorFrom] at h
    split at h
    · rename_i hp
      cases h
      exact ⟨le_rfl, by omega, rfl, hp⟩
    · obtain ⟨hle, hlt, ho, hp⟩ := ih h
      exact ⟨by omega, by omega, ho, hp⟩

theorem successorFrom_none {remaining probe : Nat}
    (h : m.successorFrom cfg remaining probe (cursor cfg.line m.capacity home probe) = none) :
    ∀ j, probe ≤ j → j < probe + remaining →
      m.probes (cursor cfg.line m.capacity home j) ≠ j + 1 := by
  induction remaining generalizing probe with
  | zero => exact fun j hle hlt => absurd hlt (by omega)
  | succ remaining ih =>
    rw [successorFrom] at h
    split at h
    · cases h
    · rename_i hp
      intro j hle hlt
      rcases Nat.eq_or_lt_of_le hle with rfl | hlt'
      · exact hp
      · exact ih h j hlt' (by omega)

/-- The walk on from a slot that is read with a given number of probes. -/
theorem probeNext_of_cursor {n : Nat} (hpos : 0 < n)
    (hslot : cursor cfg.line m.capacity home (n - 1) = slot) :
    probeNext cfg.line m.capacity slot n = cursor cfg.line m.capacity home n := by
  obtain ⟨k, rfl⟩ := Nat.exists_eq_add_of_le' hpos
  rw [← hslot]
  rfl

/-- The successor of a slot is an entry that passes it. -/
theorem successorLoop_some {remaining wantedProbes wp probe offset : Nat}
    (hl : Lines cfg.line m.capacity) (hlt : slot < m.capacity) (hpos : 0 < wantedProbes)
    (h : m.successorLoop cfg slot remaining wantedProbes = some (wp, probe, offset)) :
    0 < wp ∧ wp ≤ probe ∧ probe < m.probeMaximum ∧ ∃ home < m.capacity,
      cursor cfg.line m.capacity home (wp - 1) = slot ∧
        offset = cursor cfg.line m.capacity home probe ∧ m.probes offset = probe + 1 := by
  induction remaining generalizing wantedProbes with
  | zero => cases h
  | succ remaining ih =>
    rw [successorLoop] at h
    split at h
    · rename_i probe' offset' hfrom
      cases h
      obtain ⟨home, hh, hslot⟩ := exists_home hl hlt (wp - 1)
      rw [probeNext_of_cursor hpos hslot] at hfrom
      obtain ⟨hle, hlt', ho, hp⟩ := successorFrom_some hfrom
      exact ⟨hpos, hle, by omega, home, hh, hslot, ho, hp⟩
    · exact ih (Nat.succ_pos _) h

/-- A slot without a successor is passed by no entry. -/
theorem successorLoop_none {remaining wantedProbes : Nat} (hpos : 0 < wantedProbes)
    (h : m.successorLoop cfg slot remaining wantedProbes = none) (home wp j : Nat)
    (hwp : wantedProbes ≤ wp) (hlt : wp < wantedProbes + remaining)
    (hslot : cursor cfg.line m.capacity home (wp - 1) = slot) (hj : wp ≤ j)
    (hmax : j < m.probeMaximum) : m.probes (cursor cfg.line m.capacity home j) ≠ j + 1 := by
  induction remaining generalizing wantedProbes with
  | zero => omega
  | succ remaining ih =>
    rw [successorLoop] at h
    split at h
    · cases h
    · rename_i hfrom
      rcases Nat.eq_or_lt_of_le hwp with rfl | hlt'
      · rw [probeNext_of_cursor hpos hslot] at hfrom
        exact successorFrom_none hfrom j hj (by omega)
      · exact ih (Nat.succ_pos _) h hlt' (by omega)

variable {P : Placement}

/-- Without a successor the vacant slot is not passed. -/
theorem Vacant.passing_of_successor (h : m.Vacant cfg slot P)
    (hnone : m.successor cfg slot = none) :
    passing cfg.line m.capacity P slot = 0 := by
  refine tally_eq_zero fun t ht => ?_
  cases hx : P t with
  | none => rfl
  | some x =>
    have hts : t ≠ slot := by
      rintro rfl
      rw [h.slot] at hx
      cases hx
    refine Bool.eq_false_of_not_eq_true fun hthrough => ?_
    obtain ⟨k, hk, -, hcursor⟩ := through_some.mp hthrough
    obtain ⟨hh, hpos, hle, hstand⟩ := h.placed.stands t x hx
    have hprobes := probes_of_place ((h.place t hts).trans hx)
    have hbound := h.bound t
    refine successorLoop_none Nat.one_pos hnone x.home (k + 1) (x.probes - 1) (by omega) (by omega)
      (by rw [Nat.add_sub_cancel, hcursor]) (by omega) (by omega) ?_
    rw [hstand, hprobes]
    omega

end Map

/-- The number of probes that find all entries. -/
def load (capacity : Nat) (P : Placement) : Nat :=
  ∑ t ∈ Finset.range capacity, (P t).elim 0 Place.probes

theorem load_update {capacity t : Nat} {P : Placement} (ht : t < capacity) (o : Option Place) :
    load capacity (Function.update P t o) + (P t).elim 0 Place.probes =
      load capacity P + o.elim 0 Place.probes := by
  unfold load
  rw [← Finset.add_sum_erase _ _ (Finset.mem_range.mpr ht),
    ← Finset.add_sum_erase (Finset.range capacity) (fun t => (P t).elim 0 Place.probes)
      (Finset.mem_range.mpr ht), Function.update_self]
  have hrest : ∑ x ∈ (Finset.range capacity).erase t,
      (Function.update P t o x).elim 0 Place.probes =
        ∑ x ∈ (Finset.range capacity).erase t, (P x).elim 0 Place.probes := by
    refine Finset.sum_congr rfl fun x hx => ?_
    rw [Function.update_of_ne (Finset.ne_of_mem_erase hx)]
  rw [hrest]
  omega

namespace State

variable {cfg : Config V} {hs : State V} {slot : Nat} {P : Placement}

/-- Lowering the probe bound of a home slot changes nothing else. -/
theorem lowerBound_keep (cfg : Config V) (hs : State V) (h offset probe wp : Nat) :
    let hs' := hs.exec (hs.map.lowerBound cfg h offset probe wp)
    hs'.map.capacity = hs.map.capacity ∧ hs'.map.entries = hs.map.entries ∧
      hs'.map.probes = hs.map.probes ∧ hs'.map.probeMaximum = hs.map.probeMaximum ∧
      hs'.map.wanted = hs.map.wanted := by
  have hlower : Makes (fun s => ∃ n, s = .probeBound h n) hs
      (hs.exec (hs.map.lowerBound cfg h offset probe wp)) :=
    .exec (lowerBound_kind cfg hs.map h offset probe wp)
  refine ⟨?_, ?_, ?_, ?_, ?_⟩
  all_goals
    refine hlower.keeps _ fun m s hs => ?_
    obtain ⟨n, rfl⟩ := hs
    rfl

/-- The last store of a move, to the counter of the slot that the entry is moved to. -/
theorem countDown_last {hs : State V} {slot : Nat} (hmax : hs.map.wanted slot ≤ maxWanted) :
    (if hs.map.wanted slot < maxWanted then
        hs.exec [.wanted slot (dec 16 (hs.map.wanted slot))] else hs).map =
      { hs.map with
        wanted := Function.update hs.map.wanted slot (countDown (hs.map.wanted slot)) } := by
  unfold countDown
  split
  · rename_i hlt
    rw [if_pos hlt.ne]
    rfl
  · rename_i hlt
    rw [if_neg (not_not.mpr (Nat.le_antisymm hmax (Nat.le_of_not_lt hlt))),
      Function.update_eq_self]

/-- What the move of an entry from `offset` back to `slot` does to the map. -/
theorem shiftMove_map {home wp probe offset : Nat} (hl : Lines cfg.line hs.map.capacity)
    (hh : home < hs.map.capacity) (hpos : 0 < wp) (hle : wp ≤ probe) (hlt : probe < hs.map.capacity)
    (hslot : cursor cfg.line hs.map.capacity home (wp - 1) = slot)
    (hoffset : cursor cfg.line hs.map.capacity home probe = offset)
    (hprobes : hs.map.probes offset = probe + 1) (hmax : hs.map.wanted slot ≤ maxWanted) :
    let m := (hs.shiftMove cfg slot wp probe offset).2.map
    m.capacity = hs.map.capacity ∧
      m.entries = Function.update hs.map.entries slot (hs.map.entries offset) ∧
      m.probes = Function.update hs.map.probes slot wp ∧
      m.probeMaximum = hs.map.probeMaximum ∧
      ∀ s, m.wanted s = if Along cfg.line hs.map.capacity home (wp - 1) probe s then
        countDown (hs.map.wanted s) else hs.map.wanted s := by
  have hne : offset ≠ slot := by
    rw [← hslot, ← hoffset]
    intro he
    have := cursor_inj hl hh hlt (by omega) he
    omega
  unfold shiftMove
  dsimp only
  generalize h₁ : hs.exec [.probes slot wp] = hs₁
  have hc₁ : hs₁.map.capacity = hs.map.capacity := by rw [← h₁]; rfl
  have hp₁ : hs₁.map.probes offset = probe + 1 := by
    rw [← h₁]
    exact (Function.update_of_ne hne _ _).trans hprobes
  have hspec := removeWanted_spec wp (probe + 1) (some slot) hl hh (Nat.succ_pos _) hlt hc₁ hoffset
    hp₁ hle (.inr ⟨hpos, by rw [hslot]⟩)
  have hkeep := (removeWanted_makes cfg hs₁ offset (some slot)).wanted_keep
  generalize hs₁.removeWanted cfg offset (some slot) = r at hspec hkeep ⊢
  obtain ⟨h, hs₂⟩ := r
  obtain ⟨-, hw₂⟩ := hspec
  obtain ⟨hc₂, he₂, hp₂, hm₂⟩ := hkeep
  dsimp only at hw₂ hc₂ he₂ hp₂ hm₂ ⊢
  -- the entry is stored, and the bound of its home slot may be lowered
  generalize h₃ : hs₂.exec [.entry slot (hs₂.map.entries offset), hs₂.map.signal h] = hs₃
  have hlower := hs₃.lowerBound_keep cfg h offset probe wp
  generalize hs₃.exec (hs₃.map.lowerBound cfg h offset probe wp) = hs₄ at hlower ⊢
  obtain ⟨hc₄, he₄, hp₄, hm₄, hw₄⟩ := hlower
  have hw₄' : ∀ s, hs₄.map.wanted s =
      if Along cfg.line hs.map.capacity home wp probe s then countDown (hs.map.wanted s)
      else hs.map.wanted s := by
    intro s
    have h := hw₂ s
    rw [← h₁] at h
    rw [hw₄, ← h₃]
    exact h
  have hsame : hs₄.map.wanted slot = hs.map.wanted slot := by
    rw [hw₄', if_neg]
    rw [← hslot]
    exact not_along_cursor hl hh (by omega) hlt.le (.inl (by omega))
  rw [countDown_last (hsame ▸ hmax)]
  dsimp only
  refine ⟨?_, ?_, ?_, ?_, fun s => ?_⟩
  · rw [hc₄, ← h₃]
    exact hc₂.trans hc₁
  · rw [he₄, ← h₃]
    change Function.update hs₂.map.entries slot (hs₂.map.entries offset) = _
    rw [he₂, ← h₁]
    rfl
  · rw [hp₄, ← h₃]
    exact hp₂.trans (h₁ ▸ rfl)
  · rw [hm₄, ← h₃]
    exact hm₂.trans (h₁ ▸ rfl)
  · have hfirst : Along cfg.line hs.map.capacity home (wp - 1) probe s ↔
        cursor cfg.line hs.map.capacity home (wp - 1) = s ∨
          Along cfg.line hs.map.capacity home (wp - 1 + 1) probe s := along_first (by omega)
    rw [Nat.sub_add_cancel hpos, hslot] at hfirst
    by_cases hs : s = slot
    · rw [hs, Function.update_self, hsame, if_pos (hs ▸ hfirst.mpr (.inl hs.symm))]
    · rw [Function.update_of_ne hs, hw₄']
      refine if_congr ?_ rfl rfl
      rw [hfirst, or_iff_right (Ne.symm hs)]

/-- An entry that passes the vacant slot is moved back to it. -/
theorem shiftMove_vacant (h : hs.map.Vacant cfg slot P)
    (hstale : hs.map.probes slot ≤ hs.map.capacity) {wp probe offset : Nat}
    (hsucc : hs.map.successor cfg slot = some (wp, probe, offset)) :
    let m := (hs.shiftMove cfg slot wp probe offset).2.map
    ∃ P', m.Vacant cfg offset P' ∧ m.probes offset ≤ m.capacity ∧
      load m.capacity P' < load hs.map.capacity P := by
  have hl := h.lines
  obtain ⟨hpos, hle, hbound, home, hh, hslot, hoffset, hprobes⟩ :=
    Map.successorLoop_some hl h.inside Nat.one_pos hsucc
  have hlt : probe < hs.map.capacity := by
    by_cases hos : offset = slot
    · rw [hos] at hprobes
      omega
    · obtain ⟨home', hx⟩ := h.used hos (by omega)
      obtain ⟨-, -, hle', -⟩ := h.placed.stands offset _ hx
      dsimp only at hle'
      omega
  have hne : offset ≠ slot := by
    rw [← hslot, hoffset]
    intro he
    have := cursor_inj hl hh hlt (by omega) he
    omega
  -- the entry has the home slot from which the search has come
  have hx : P offset = some ⟨home, probe + 1⟩ := by
    obtain ⟨home', hx⟩ := h.used hne (by omega)
    obtain ⟨hh', -, -, hstand⟩ := h.placed.stands offset _ hx
    rw [hprobes] at hx hstand
    have hhome : home' = home := cursor_home_inj hl hh' hh (hstand.trans hoffset)
    rw [hx, hhome]
  have hoff : offset < hs.map.capacity := h.placed.lt hl hx
  obtain ⟨hc, he, hp, hm, hw⟩ := shiftMove_map hl hh hpos hle hlt hslot hoffset.symm hprobes
    (h.counts slot h.inside).1
  generalize (hs.shiftMove cfg slot wp probe offset).2.map = m at hc he hp hm hw
  refine ⟨Function.update (Function.update P offset none) slot (some ⟨home, wp⟩), ?_, ?_, ?_⟩
  · constructor
    · exact hc ▸ h.capacity
    · exact hc ▸ hoff
    · rw [Function.update_of_ne hne, Function.update_self]
    · intro t ht
      by_cases hts : t = slot
      · subst hts
        have hplace := (h.place offset hne).trans hx
        obtain ⟨w, hentry, hxw⟩ := Option.map_eq_some_iff.mp hplace
        have hhome : hs.map.home (cfg.hf w.obj) = home := congrArg Place.home hxw
        rw [Function.update_self, Map.place_of_entry (by rw [he, Function.update_self, hentry]), hp,
          Function.update_self, ← hhome]
        simp only [Map.home, hc]
      · rw [Function.update_of_ne hts, Function.update_of_ne ht, ← h.place t hts]
        simp only [Map.place, he, hp, Function.update_of_ne hts, Map.home, hc]
    · rw [hc]
      refine h.placed.move h.slot hx hpos (by omega) hslot fun k hk => ?_
      refine (h.placed.filled offset _ hx k (by dsimp only; omega)).imp_left fun hv => ?_
      have := cursor_inj hl hh (by omega) (by omega) (hslot.trans (Option.some.inj hv))
      omega
    · rw [hc]
      exact h.counts.retreat hl hh hoff h.inside hne.symm (by omega) (by omega) h.slot hx
        fun s _ => hw s
    · intro t ht hempty
      by_cases hts : t = slot
      · rw [hts, he, Function.update_self, ← Map.place_eq_none, h.place offset hne, hx] at hempty
        cases hempty
      · rw [he, Function.update_of_ne hts] at hempty
        rw [hp, Function.update_of_ne hts]
        exact h.empty t hts hempty
    · intro t
      rw [hp, hm]
      by_cases hts : t = slot
      · rw [hts, Function.update_self]
        omega
      · rw [Function.update_of_ne hts]
        exact h.bound t
  · rw [hp, hc, Function.update_of_ne hne, hprobes]
    exact hlt
  · have h₁ := load_update (P := P) hoff none
    have h₂ := load_update (P := Function.update P offset none) h.inside (some ⟨home, wp⟩)
    rw [hx] at h₁
    rw [Function.update_of_ne hne.symm, h.slot] at h₂
    simp only [Option.elim_some, Option.elim_none] at h₁ h₂
    rw [hc]
    omega

/-- The loop ends with a vacant slot that no entry passes. -/
theorem shiftLoop_vacant {fuel h : Nat} (hv : hs.map.Vacant cfg slot P)
    (hstale : hs.map.probes slot ≤ hs.map.capacity) (hfuel : load hs.map.capacity P < fuel) :
    let r := shiftLoop cfg fuel slot h hs
    ∃ P', r.2.2.map.Vacant cfg r.1 P' ∧ passing cfg.line r.2.2.map.capacity P' r.1 = 0 := by
  induction fuel generalizing slot h hs P with
  | zero => omega
  | succ fuel ih =>
    rw [shiftLoop_succ]
    split
    · rename_i hzero
      have hlt : hs.map.wanted slot < maxWanted := by
        rw [hzero]
        decide
      exact ⟨P, hv, ((hv.counts slot hv.inside).2 hlt).symm.trans hzero⟩
    split
    · -- no entry passes the slot, whatever its counter says
      rename_i hnone
      have hpass := hv.passing_of_successor hnone
      refine ⟨P, ⟨hv.capacity, hv.inside, hv.slot, hv.place, hv.placed, ?_, hv.empty, hv.bound⟩,
        hpass⟩
      intro s hs'
      simp only [exec_map, Map.applyAll_cons, Map.applyAll_nil, Map.apply]
      by_cases hss : s = slot
      · subst hss
        rw [Function.update_self]
        exact ⟨Nat.zero_le _, fun _ => hpass.symm⟩
      · rw [Function.update_of_ne hss]
        exact hv.counts s hs'
    · rename_i wp probe offset hsucc
      obtain ⟨P', hv', hstale', hload⟩ := shiftMove_vacant hv hstale hsucc
      exact ih hv' hstale' (by omega)

theorem load_le_shiftFuel {m : Map V} {P : Placement}
    (h : ∀ t x, P t = some x → x.probes ≤ m.probes t) : load m.capacity P < m.shiftFuel := by
  have hsum : ((List.range m.capacity).map m.probes).sum =
      ∑ t ∈ Finset.range m.capacity, m.probes t := rfl
  unfold Map.shiftFuel load
  rw [hsum, Nat.lt_succ_iff]
  refine Finset.sum_le_sum fun t _ => ?_
  cases hx : P t with
  | none => exact Nat.zero_le _
  | some x => exact h t x hx

/-- A deletion leaves a valid map. -/
theorem doBackwardShiftDelete_valid (hv : hs.map.Valid cfg)
    (hused : hs.map.entries slot ≠ none) : (hs.doBackwardShiftDelete cfg slot).map.Valid cfg := by
  obtain ⟨w, hw⟩ := Option.ne_none_iff_exists'.mp hused
  have hx : hs.map.place cfg slot = some ⟨hs.map.home (cfg.hf w.obj), hs.map.probes slot⟩ :=
    Map.place_of_entry hw
  obtain ⟨hh, hpos, hle, hstand⟩ := hv.placed.stands slot _ hx
  dsimp only at hh hpos hle hstand
  have hspec := removeWanted_spec 0 _ none hv.lines hh hpos hle rfl hstand rfl (Nat.zero_le _)
    (.inl ⟨rfl, rfl⟩)
  have hkeep := (removeWanted_makes cfg hs slot none).wanted_keep
  unfold doBackwardShiftDelete
  generalize hs.removeWanted cfg slot none = r at hspec hkeep ⊢
  obtain ⟨h, hs₁⟩ := r
  obtain ⟨-, hwanted⟩ := hspec
  obtain ⟨hc, he, hp, hm⟩ := hkeep
  dsimp only at hwanted hc he hp hm ⊢
  have hvacant := hv.vacate hx hc he hp hm hwanted
  have hload := load_le_shiftFuel (m := hs₁.map)
    (P := Function.update (hs.map.place cfg) slot none) (fun t x ht => by
      by_cases hts : t = slot
      · rw [hts, Function.update_self] at ht
        cases ht
      · rw [Function.update_of_ne hts] at ht
        rw [hp, Map.probes_of_place ht])
  obtain ⟨P', hv', hpass⟩ := shiftLoop_vacant (h := h) hvacant (by rw [hp, hc]; exact hle) hload
  generalize shiftLoop cfg hs₁.map.shiftFuel slot h hs₁ = r at hv' hpass ⊢
  obtain ⟨slot', h', hs₂⟩ := r
  dsimp only at hv' hpass ⊢
  split
  · exact hv'.clear hpass rfl rfl rfl rfl rfl
  · exact hv'.clear hpass rfl rfl rfl rfl rfl

end State

end ConcurrencyKit.Rhs
