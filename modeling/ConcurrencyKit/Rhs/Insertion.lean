import ConcurrencyKit.Rhs.Chain
import ConcurrencyKit.Rhs.Filling
import ConcurrencyKit.Rhs.Slots

/-!
# Insertion into a map

A Robin Hood insertion that finds an empty slot leaves the slot vacant for which it has been called.
The new entry is stored there, and the map is as a call finds it again.
-/

namespace ConcurrencyKit.Rhs

variable {V : Type}

namespace Map

variable {cfg : Config V} {m m' : Map V} {P : Placement} {home s v n k : Nat} {w w' : Word V}

/-- A map with the same entries and counters, and a probe maximum that is not smaller. -/
theorem Valid.congr (h : m.Valid cfg) (hc : m'.capacity = m.capacity)
    (he : m'.entries = m.entries) (hp : m'.probes = m.probes) (hw : m'.wanted = m.wanted)
    (hmax : m.probeMaximum ≤ m'.probeMaximum) : m'.Valid cfg := by
  have hplace : m'.place cfg = m.place cfg := by
    funext t
    simp only [Map.place, he, hp, Map.home, hc]
  refine ⟨hc ▸ h.capacity, ?_, ?_, ?_, fun t => ?_⟩
  · rw [hplace, hc]
    exact h.placed
  · rw [hplace, hc, hw]
    exact h.counts
  · rw [he, hp]
    exact h.empty
  · rw [hp]
    exact (h.bound t).trans hmax

/-- An entry gives way to another one with the same home slot. -/
theorem Valid.replace (h : m.Valid cfg) (hw : m.entries s = some w)
    (hhome : m.home (cfg.hf w'.obj) = m.home (cfg.hf w.obj)) (hn : n = m.probes s)
    (hc : m'.capacity = m.capacity) (he : m'.entries = Function.update m.entries s (some w'))
    (hp : m'.probes = Function.update m.probes s n) (hwanted : m'.wanted = m.wanted)
    (hmax : m'.probeMaximum = m.probeMaximum) : m'.Valid cfg := by
  rw [hn, Function.update_eq_self] at hp
  have hplace : m'.place cfg = m.place cfg := by
    funext t
    by_cases hts : t = s
    · rw [hts, place_of_entry hw, place_of_entry (by rw [he, Function.update_self]), hp, ← hhome]
      simp only [Map.home, hc]
    · simp only [Map.place, he, hp, Function.update_of_ne hts, Map.home, hc]
  refine ⟨hc ▸ h.capacity, ?_, ?_, fun t ht => ?_, fun t => ?_⟩
  · rw [hplace, hc]
    exact h.placed
  · rw [hplace, hc, hwanted]
    exact h.counts
  · by_cases hts : t = s
    · rw [he, hts, Function.update_self] at ht
      cases ht
    · rw [he, Function.update_of_ne hts] at ht
      rw [hp]
      exact h.empty t ht
  · rw [hp, hmax]
    exact h.bound t

/-- A walk over slots in use. -/
theorem Busy.used {hit : Word V → Bool} (h : m.Busy cfg hit home 0 k) :
    ∀ j < k, m.entries (cursor cfg.line m.capacity home j) ≠ none := by
  intro j hj
  obtain ⟨w, hw, -⟩ := h j (Nat.zero_le j) hj
  exact (congrArg (· ≠ none) hw).mpr (Option.some_ne_none w)

/-- The walk from the home slot of an entry finds it where its number of probes says. -/
theorem Valid.probes_of_found (h : m.Valid cfg) {hit : Word V → Bool} (hw : m.entries s = some w)
    (hhit : hit w = true) (hslot : m.slotAt cfg (m.home (cfg.hf w.obj)) k = s)
    (hbusy : m.Busy cfg hit (m.home (cfg.hf w.obj)) 0 k) : m.probes s = k + 1 := by
  obtain ⟨hh, hpos, hle, hstand⟩ := h.placed.stands s _ (place_of_entry hw)
  dsimp only at hh hpos hle hstand
  have hk : k < m.capacity := by
    by_contra hge
    obtain ⟨j, hj, hjs⟩ := cursor_surj h.lines hh (h.placed.lt h.lines (place_of_entry hw))
    obtain ⟨w', hw', hnot⟩ := hbusy j (Nat.zero_le j) (by omega)
    rw [slotAt, hjs, hw] at hw'
    cases hw'
    exact Bool.noConfusion (hhit.symm.trans hnot)
  have := cursor_inj h.lines hh (by omega) hk (hstand.trans hslot.symm)
  omega

/-- An entry is stored in the vacant slot and counted. -/
theorem Vacant.insert (h : m.Vacant cfg v P) (hs : State V) (hc : hs.map.capacity = m.capacity)
    (he : hs.map.entries = Function.update m.entries v (some w))
    (hp : hs.map.probes = Function.update m.probes v (k + 1))
    (hmax : hs.map.probeMaximum = m.probeMaximum) (hw : hs.map.wanted = m.wanted)
    (hk : k < m.capacity) (hn : k < m.probeMaximum)
    (hcursor : cursor cfg.line m.capacity (m.home (cfg.hf w.obj)) k = v)
    (hpath : ∀ j < k, P (cursor cfg.line m.capacity (m.home (cfg.hf w.obj)) j) ≠ none) :
    (hs.addWanted cfg v none (m.home (cfg.hf w.obj))).map.Valid cfg := by
  have hh : m.home (cfg.hf w.obj) < m.capacity := home_lt h.lines.capacity_pos _
  obtain ⟨hc', he', hp', hmax'⟩ :=
    (State.addWanted_makes cfg hs v none (m.home (cfg.hf w.obj))).wanted_keep
  refine h.fill (hc'.trans hc) (he'.trans he) (hp'.trans hp) (hmax'.trans hmax) (fun s => ?_)
    (Nat.succ_pos k) hk hn hcursor hpath
  rw [← hcursor, State.addWanted_insert h.lines hh hk hc, hw]
  rfl

end Map

namespace State

variable {cfg : Config V} {hs hs₀ : State V} {slot e n k : Nat} {prevs : List (Nat × Nat)}

/-! ## The probe maximum -/

theorem addWanted_maximum (cfg : Config V) (hs : State V) (e : Nat) (old : Option Nat)
    (home : Nat) : (hs.addWanted cfg e old home).map.probeMaximum = hs.map.probeMaximum :=
  (addWanted_makes cfg hs e old home).wanted_keep.2.2.2

theorem boundSet_maximum (cfg : Config V) (hs : State V) (home n : Nat) :
    (hs.exec (hs.map.boundSet cfg home n)).map.probeMaximum = max hs.map.probeMaximum n := by
  rw [exec_map, Map.applyAll_boundSet]

theorem shiftChain_maximum :
    (shiftChain cfg prevs slot hs).map.probeMaximum = hs.map.probeMaximum := by
  induction prevs generalizing slot hs with
  | nil => rfl
  | cons p prevs ih =>
    obtain ⟨prev, k⟩ := p
    rw [shiftChain, ih]
    exact addWanted_maximum cfg (hs.exec [.entry slot (hs.map.entries prev)]) slot (some prev) _

theorem relocationMove_maximum :
    (hs.relocationMove cfg slot e n prevs).map.probeMaximum = max hs.map.probeMaximum n := by
  unfold relocationMove
  dsimp only
  rw [shiftChain_maximum, addWanted_maximum]
  exact boundSet_maximum cfg hs _ n

theorem restoreStores_maximum (m : Map V) :
    (m.applyAll (.inRh slot false :: restoreStores slot none prevs.reverse)).probeMaximum =
      m.probeMaximum := by
  refine Map.applyAll_keeps (P := fun s => (∃ t b, s = .inRh t b) ∨ ∃ t k, s = .probes t k)
    Map.probeMaximum (fun m s hs => ?_) (fun s hs => ?_) m
  · rcases hs with ⟨t, b, rfl⟩ | ⟨t, k, rfl⟩ <;> rfl
  · rcases List.mem_cons.mp hs with rfl | hs
    · exact .inl ⟨_, _, rfl⟩
    · rcases mem_restoreStores.mp hs with ⟨t, -, rfl⟩ | ⟨t, k, -, rfl⟩
      · exact .inl ⟨_, _, rfl⟩
      · exact .inr ⟨_, _, rfl⟩

theorem choose_maximum (cfg : Config V) (hs : State V) (slot first home n : Nat) :
    (hs.choose cfg slot first home n).map.probeMaximum = max hs.map.probeMaximum n := by
  rw [choose_map]
  dsimp only
  rw [Map.applyAll_boundSet]
  rfl

/-- Unless the map is replaced the probe maximum does not get smaller. -/
theorem putRobinHoodLoop_maximum (left : Nat) :
    (putRobinHoodLoop cfg left slot n prevs hs).1 = .grown ∨
      hs.map.probeMaximum ≤ (putRobinHoodLoop cfg left slot n prevs hs).2.map.probeMaximum := by
  have hgrow : ∀ (hs : State V) {slot prevs}, (hs.relocationGrow cfg slot prevs).1 = .grown ∨
      hs.map.probeMaximum ≤ (hs.relocationGrow cfg slot prevs).2.map.probeMaximum := by
    intro hs slot prevs
    unfold relocationGrow
    have hgrown := grow_grown cfg hs (hs.map.capacity * 2)
    generalize hs.grow cfg (hs.map.capacity * 2) = r at hgrown ⊢
    cases hgrown with
    | failed hs' map =>
      right
      rw [exec_map, restoreStores_maximum, map]
    | filled => exact .inl rfl
  have hmove : ∀ (hs : State V) {slot e n prevs},
      hs.map.probeMaximum ≤ (hs.relocationMove cfg slot e n prevs).map.probeMaximum := by
    intro hs slot e n prevs
    rw [relocationMove_maximum]
    exact le_max_left _ _
  induction left generalizing slot n prevs hs with
  | zero =>
    rw [putRobinHoodLoop]
    split
    · exact hgrow (hs.exec [.inRh slot true])
    · exact .inr (hmove (hs.exec [.inRh slot true]))
  | succ left ih =>
    rw [putRobinHoodLoop]
    split
    · refine ih.imp_right fun hle => le_trans ?_ hle
      exact (le_max_left _ _).trans (choose_maximum cfg hs slot _ _ _).ge
    · exact hgrow (hs.exec [.inRh slot true])
    · exact .inr (hmove (hs.exec [.inRh slot true]))

/-! ## Making room -/

/-- The chain is about to be moved: its last entry to the empty slot `e`, and each of the others to
the slot of the next one. -/
theorem Chosen.moving (h : Chosen cfg hs₀ slot prevs hs) (hv : hs₀.map.Valid cfg)
    (hlast : hs₀.map.entries ((prevs.map Prod.fst).getLastD slot) ≠ none)
    (he : e < hs₀.map.capacity) (hempty : hs₀.map.entries e = none)
    (hleads : hs₀.map.Leads cfg slot e n) {m : Map V} (hc : m.capacity = hs₀.map.capacity)
    (hentries : m.entries = hs₀.map.entries) (hwanted : m.wanted = hs₀.map.wanted)
    (hprobes : m.probes = Function.update hs.map.probes e n)
    (hmax : m.probeMaximum = max hs.map.probeMaximum n) :
    Moving cfg hs₀.map m e ((slot, k) :: prevs) (hs₀.map.place cfg) := by
  have hused : ∀ s ∈ slot :: prevs.map Prod.fst, hs₀.map.entries s ≠ none := by
    intro s hs
    rcases h.used s hs with rfl | hne
    · exact hlast
    · exact hne
  have hne : e ∉ slot :: prevs.map Prod.fst := fun hmem => hused e hmem hempty
  -- no other probe count has changed
  have hold : ∀ t, t ≠ e → t ∉ slot :: prevs.map Prod.fst → m.probes t = hs₀.map.probes t := by
    intro t hte hnot
    rw [hprobes, Function.update_of_ne hte]
    refine h.probes t fun k hk => hnot ?_
    rw [List.mem_cons]
    exact olds_fst hk
  constructor
  · exact hc
  · exact hc ▸ he
  · exact Map.place_eq_none.mpr hempty
  · intro t _
    simp only [Map.place, Map.home, hc, hentries, Option.map_map]
    rfl
  · intro t hte hnot x hx
    rw [hold t hte hnot]
    exact Map.probes_of_place hx
  · exact hc ▸ hv.placed.weaken e
  · exact hc ▸ hwanted ▸ hv.counts
  · intro t hte hnone
    rw [hentries] at hnone
    rw [hold t hte fun hmem => hused t hmem hnone]
    exact hv.empty t hnone
  · intro t
    rw [hprobes, hmax]
    by_cases hte : t = e
    · rw [hte, Function.update_self]
      exact le_max_right _ _
    · rw [Function.update_of_ne hte]
      exact (h.bound hv.bound t).trans (le_max_left _ _)
  · exact List.nodup_cons.mpr ⟨hne, h.nodup⟩
  · exact fun t ht => hentries ▸ ht
  · exact fun t ht => ⟨rfl, hused t ht⟩
  · refine ⟨?_, h.linked.congr fun t ht => ?_⟩
    · rw [hprobes, Function.update_self]
      exact hleads
    · rw [hprobes, Function.update_of_ne]
      rintro rfl
      exact hne ht

/-- The entries of the chain are moved. -/
theorem Chosen.moved (h : Chosen cfg hs₀ slot prevs hs) (hv : hs₀.map.Valid cfg)
    (hlast : hs₀.map.entries ((prevs.map Prod.fst).getLastD slot) ≠ none)
    (he : e < hs₀.map.capacity) (hempty : hs₀.map.entries e = none)
    (hleads : hs₀.map.Leads cfg slot e n) :
    ∃ P, Moving cfg hs₀.map ((hs.exec [.inRh slot true]).relocationMove cfg slot e n prevs).map
      ((prevs.map Prod.fst).getLastD slot) [] P := by
  obtain ⟨hc, -, hentries, hwanted⟩ := h.mark.chooses_keep
  unfold relocationMove
  dsimp only
  have hbound := Map.applyAll_boundSet cfg (hs.exec [.inRh slot true]).map
    (firstOffset cfg.line (hs.exec [.inRh slot true]).map.capacity e n) n
  generalize h₁ : (hs.exec [.inRh slot true]).exec ((hs.exec [.inRh slot true]).map.boundSet cfg
    (firstOffset cfg.line (hs.exec [.inRh slot true]).map.capacity e n) n) = hs₁
  have hmap : hs₁.map = _ := (congrArg State.map h₁).symm.trans hbound
  have hmoving := h.moving (k := 0) hv hlast he hempty hleads
    (m := { hs₁.map with probes := Function.update hs₁.map.probes e n })
    (by rw [hmap]; exact hc) (by rw [hmap]; exact hentries) (by rw [hmap]; exact hwanted)
    (by rw [hmap]; rfl) (by rw [hmap]; rfl)
  have hinsert : (hs.exec [.inRh slot true]).map.entries slot = hs₁.map.entries slot := by
    rw [hmap]
  have hcap : (hs.exec [.inRh slot true]).map.capacity = hs₁.map.capacity := by rw [hmap]
  rw [hinsert, hcap]
  obtain ⟨P, hnext⟩ := hmoving.addWanted hv he hempty
    (hs₁.exec [.entry e (hs₁.map.entries slot), hs₁.map.signal
      (firstOffset cfg.line hs₁.map.capacity e n), .probes e n, .inRh slot false])
    rfl rfl rfl rfl rfl
  dsimp only at hnext
  rw [Function.update_self] at hnext
  exact hnext.shiftChain hv he hempty

end State

/-- A new entry is stored in the slot for which room has been made. -/
theorem Moving.insert {cfg : Config V} {m₀ m : Map V} {v k : Nat} {P : Placement} {w : Word V}
    (h : Moving cfg m₀ m v [] P) (hv : m₀.Valid cfg) (hs : State V)
    (hc : hs.map.capacity = m.capacity)
    (he : hs.map.entries = Function.update m.entries v (some w))
    (hp : hs.map.probes = Function.update m.probes v (k + 1))
    (hmax : hs.map.probeMaximum = m.probeMaximum) (hw : hs.map.wanted = m.wanted)
    (hroom : ∃ e < m₀.capacity, m₀.entries e = none) (hn : k < m.probeMaximum)
    (hslot : cursor cfg.line m₀.capacity (m₀.home (cfg.hf w.obj)) k = v)
    (hbusy : ∀ j < k,
      m₀.entries (cursor cfg.line m₀.capacity (m₀.home (cfg.hf w.obj)) j) ≠ none) :
    let m' := (hs.addWanted cfg v none (m₀.home (cfg.hf w.obj))).map
    m'.Valid cfg ∧ ∀ t, m₀.entries t ≠ none → m'.entries t ≠ none := by
  have hvac := h.vacant hv
  have hhome : m.home (cfg.hf w.obj) = m₀.home (cfg.hf w.obj) := by
    rw [Map.home, Map.home, h.same]
  have hh : m₀.home (cfg.hf w.obj) < m₀.capacity := Map.home_lt hv.lines.capacity_pos _
  have hk : k < m₀.capacity := by
    obtain ⟨e, hlt, hempty⟩ := hroom
    exact probes_lt (P := m₀.place cfg) hv.lines hh hlt (Map.place_eq_none.mpr hempty)
      fun j hj hnone => hbusy j hj (Map.place_eq_none.mp hnone)
  dsimp only
  constructor
  · rw [← hhome]
    refine hvac.insert hs hc he hp hmax hw (h.same ▸ hk) hn ?_ fun j hj hnone => ?_
    · rw [hhome, h.same]
      exact hslot
    · rw [hhome, h.same] at hnone
      have hne : cursor cfg.line m₀.capacity (m₀.home (cfg.hf w.obj)) j ≠ v := by
        intro hjv
        have := cursor_inj hv.lines hh (by omega) hk (hjv.trans hslot.symm)
        omega
      have hplace := h.homes _ hne
      rw [hnone, Option.map_none, Option.map_eq_none_iff] at hplace
      exact h.used _ (hbusy j hj) hplace
  · intro t ht
    rw [(State.addWanted_makes cfg hs v none _).wanted_keep.2.1, he]
    by_cases htv : t = v
    · rw [htv, Function.update_self]
      exact Option.some_ne_none w
    · rw [Function.update_of_ne htv]
      exact h.used t ht

end ConcurrencyKit.Rhs
