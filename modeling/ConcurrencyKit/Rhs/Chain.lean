import ConcurrencyKit.Rhs.Relocation
import ConcurrencyKit.Rhs.Valid

/-!
# Moving a chain of entries

When `ck_rhs_put_robin_hood` has found an empty slot it moves the entries of the chain, the last
one first, each to the slot that has just become vacant. In the end the slot at the start of the
chain is vacant.
-/

namespace ConcurrencyKit.Rhs

variable {V : Type}

/-- The map while a chain is moved that has been chosen in map `m₀`: slot `v` is vacant, `P` says
where the entries are, and those in `prevs` are still to be moved. -/
structure Moving (cfg : Config V) (m₀ m : Map V) (v : Nat) (prevs : List (Nat × Nat))
    (P : Placement) : Prop where
  same : m.capacity = m₀.capacity
  inside : v < m.capacity
  slot : P v = none
  homes : ∀ t, t ≠ v → (m.entries t).map (fun w => m.home (cfg.hf w.obj)) = (P t).map Place.home
  probes : ∀ t, t ≠ v → t ∉ prevs.map Prod.fst → ∀ x, P t = some x → m.probes t = x.probes
  placed : Placed cfg.line m.capacity P (some v)
  counts : Counts cfg.line m.capacity P m.wanted
  empty : ∀ t, t ≠ v → m.entries t = none → m.probes t = 0
  bound : ∀ t, m.probes t ≤ m.probeMaximum
  nodup : (v :: prevs.map Prod.fst).Nodup
  used : ∀ t, m₀.entries t ≠ none → m.entries t ≠ none
  old : ∀ t ∈ prevs.map Prod.fst, P t = m₀.place cfg t ∧ m₀.entries t ≠ none
  linked : State.Linked cfg m₀ m.probes v prevs

namespace Moving

variable {cfg : Config V} {m₀ m m' : Map V} {v prev n : Nat} {prevs : List (Nat × Nat)}
  {P : Placement}

/-- When the chain has been moved its first slot is vacant. -/
theorem vacant (h : Moving cfg m₀ m v [] P) (hv : m₀.Valid cfg) : m.Vacant cfg v P where
  capacity := h.same ▸ hv.capacity
  inside := h.inside
  slot := h.slot
  place t ht := by
    have hhome := h.homes t ht
    cases hx : P t with
    | none =>
      rw [hx, Option.map_none, Option.map_eq_none_iff] at hhome
      exact Map.place_eq_none.mpr hhome
    | some x =>
      rw [hx, Option.map_some] at hhome
      obtain ⟨w, hw, hxw⟩ := Option.map_eq_some_iff.mp hhome
      rw [Map.place_of_entry hw, hxw, h.probes t ht List.not_mem_nil x hx]
  placed := h.placed
  counts := h.counts
  empty := h.empty
  bound := h.bound

/-- The entry in `prev` goes to the vacant slot: its home slot, and the number of probes it has
before. -/
theorem next (h : Moving cfg m₀ m v ((prev, n) :: prevs) P) (hv : m₀.Valid cfg) {e : Nat}
    (he : e < m₀.capacity) (hempty : m₀.entries e = none) :
    ∃ home p, home < m.capacity ∧ P prev = some ⟨home, p⟩ ∧ 0 < p ∧ p < m.probes v ∧
      m.probes v ≤ m.capacity ∧ cursor cfg.line m.capacity home (p - 1) = prev ∧
      cursor cfg.line m.capacity home (m.probes v - 1) = v ∧
      ∀ j, p ≤ j → j < m.probes v - 1 →
        m₀.entries (cursor cfg.line m.capacity home j) ≠ none := by
  obtain ⟨hold, hused⟩ := h.old prev (by simp)
  obtain ⟨w, hw⟩ := Option.ne_none_iff_exists'.mp hused
  have hx : m₀.place cfg prev = some ⟨m₀.home (cfg.hf w.obj), m₀.probes prev⟩ :=
    Map.place_of_entry hw
  obtain ⟨hh, hpos, hle, hstand⟩ := hv.placed.stands prev _ hx
  dsimp only at hh hpos hle hstand
  obtain ⟨k, hn, hpk, hslot, hbusy⟩ := h.linked.1 _ hpos hstand
  -- all slots before are in use, so that the empty one comes later
  have hk : k < m₀.capacity := by
    have hnone : m₀.place cfg e = none := Map.place_eq_none.mpr hempty
    refine probes_lt hv.lines hh he hnone fun j hj => ?_
    rw [Ne, Map.place_eq_none]
    rcases Nat.lt_trichotomy j (m₀.probes prev - 1) with hlt | heq | hgt
    · exact fun hnone => (hv.placed.filled prev _ hx j hlt).resolve_left nofun
        (Map.place_eq_none.mpr hnone)
    · rw [heq, hstand]
      exact hused
    · exact hbusy j (by omega) hj
  refine ⟨m₀.home (cfg.hf w.obj), m₀.probes prev, ?_, hold.trans hx, hpos, by omega, ?_, ?_, ?_, ?_⟩
  · rw [h.same]
    exact hh
  · rw [hn, h.same]
    exact hk
  · rw [h.same]
    exact hstand
  · rw [hn, h.same]
    exact hslot
  · intro j hpj hjk
    rw [h.same]
    exact hbusy j hpj (by omega)

/-- Stores that keep the slots and the counters. -/
theorem congr (h : Moving cfg m₀ m v prevs P) (hc : m'.capacity = m.capacity)
    (he : m'.entries = m.entries) (hp : m'.probes = m.probes)
    (hmax : m'.probeMaximum = m.probeMaximum)
    (hw : m'.wanted = m.wanted) : Moving cfg m₀ m' v prevs P where
  same := hc.trans h.same
  inside := hc ▸ h.inside
  slot := h.slot
  homes := by simpa only [Map.home, hc, he] using h.homes
  probes := hp ▸ h.probes
  placed := hc ▸ h.placed
  counts := hc ▸ hw ▸ h.counts
  empty := by simpa only [he, hp] using h.empty
  bound := by simpa only [hp, hmax] using h.bound
  nodup := h.nodup
  used := he ▸ h.used
  old := h.old
  linked := hp ▸ h.linked

/-- One entry is moved, and the slots it passes in addition have counted it. -/
theorem step (h : Moving cfg m₀ m v ((prev, n) :: prevs) P) (hv : m₀.Valid cfg) {home p : Nat}
    (hh : home < m.capacity) (hx : P prev = some ⟨home, p⟩) (hpos : 0 < p)
    (hlt : p < m.probes v) (hle : m.probes v ≤ m.capacity)
    (hstand : cursor cfg.line m.capacity home (p - 1) = prev)
    (hslot : cursor cfg.line m.capacity home (m.probes v - 1) = v)
    (hbusy : ∀ j, p ≤ j → j < m.probes v - 1 →
      m₀.entries (cursor cfg.line m.capacity home j) ≠ none)
    (hc : m'.capacity = m.capacity)
    (he : m'.entries = Function.update m.entries v (m.entries prev)) (hp : m'.probes = m.probes)
    (hmax : m'.probeMaximum = m.probeMaximum)
    (hw : ∀ s, m'.wanted s = if Along cfg.line m.capacity home (p - 1) (m.probes v - 1) s then
      countUp (m.wanted s) else m.wanted s) :
    Moving cfg m₀ m' prev prevs
      (Function.update (Function.update P prev none) v (some ⟨home, m.probes v⟩)) := by
  have hl : Lines cfg.line m.capacity := h.same ▸ hv.lines
  have hnd := h.nodup
  simp only [List.map_cons, List.nodup_cons, List.mem_cons, not_or] at hnd
  obtain ⟨⟨hvp, hvprevs⟩, hprevs, hnodup⟩ := hnd
  obtain ⟨hold, hused⟩ := h.old prev (by simp)
  have hin : prev < m.capacity := by
    rw [← hstand]
    exact cursor_lt hl hh _
  -- a slot in use is one of the placement
  have hfull : ∀ t, t ≠ v → m.entries t ≠ none → P t ≠ none := by
    intro t ht hne hnone
    have hhome := h.homes t ht
    rw [hnone, Option.map_none, Option.map_eq_none_iff] at hhome
    exact hne hhome
  constructor
  · exact hc.trans h.same
  · exact hc ▸ hin
  · rw [Function.update_of_ne (Ne.symm hvp), Function.update_self]
  · intro t ht
    simp only [he, Map.home, hc]
    by_cases htv : t = v
    · rw [htv, Function.update_self, Function.update_self]
      exact (h.homes prev (Ne.symm hvp)).trans (by rw [hx]; rfl)
    · rw [Function.update_of_ne htv, Function.update_of_ne htv, Function.update_of_ne ht]
      exact h.homes t htv
  · intro t ht hts x hxt
    rw [hp]
    by_cases htv : t = v
    · rw [htv, Function.update_self] at hxt
      cases hxt
      rw [htv]
    · rw [Function.update_of_ne htv, Function.update_of_ne ht] at hxt
      refine h.probes t htv ?_ x hxt
      rw [List.map_cons, List.mem_cons, not_or]
      exact ⟨ht, hts⟩
  · rw [hc]
    refine h.placed.move h.slot hx (by omega) hle hslot fun k hk => ?_
    rcases Nat.lt_trichotomy k (p - 1) with hkp | hkp | hkp
    · refine .inr ((h.placed.filled prev _ hx k hkp).resolve_left fun hvk => ?_)
      have := cursor_inj hl hh (by omega) (by omega) (hslot.trans (Option.some.inj hvk))
      omega
    · exact .inl (by rw [hkp, hstand])
    · refine .inr (hfull _ (fun hkv => ?_) (h.used _ (hbusy k (by omega) hk)))
      have := cursor_inj hl hh (by omega) (by omega) (hslot.trans hkv.symm)
      omega
  · rw [hc]
    exact h.counts.advance hl hh hin h.inside hvp hlt.le hle h.slot hx fun s _ => hw s
  · intro t ht hnone
    rw [he] at hnone
    by_cases htv : t = v
    · rw [htv, Function.update_self] at hnone
      exact absurd hnone (h.used prev hused)
    · rw [Function.update_of_ne htv] at hnone
      rw [hp]
      exact h.empty t htv hnone
  · intro t
    rw [hp, hmax]
    exact h.bound t
  · exact List.nodup_cons.mpr ⟨hprevs, hnodup⟩
  · intro t ht
    rw [he]
    by_cases htv : t = v
    · rw [htv, Function.update_self]
      exact h.used prev hused
    · rw [Function.update_of_ne htv]
      exact h.used t ht
  · intro t ht
    obtain ⟨holdt, husedt⟩ := h.old t (by simp [ht])
    refine ⟨?_, husedt⟩
    rw [Function.update_of_ne (by rintro rfl; exact hvprevs ht),
      Function.update_of_ne (by rintro rfl; exact hprevs ht), holdt]
  · rw [hp]
    exact h.linked.2

/-- The entry has been stored in the vacant slot, and `ck_rhs_add_wanted` counts it. -/
theorem addWanted (h : Moving cfg m₀ m v ((prev, n) :: prevs) P) (hv : m₀.Valid cfg) {e : Nat}
    (hlt : e < m₀.capacity) (hempty : m₀.entries e = none) (hs : State V)
    (hc : hs.map.capacity = m.capacity)
    (he : hs.map.entries = Function.update m.entries v (m.entries prev))
    (hp : hs.map.probes = m.probes) (hmax : hs.map.probeMaximum = m.probeMaximum)
    (hw : hs.map.wanted = m.wanted) :
    ∃ P', Moving cfg m₀ (hs.addWanted cfg v (some prev)
      (firstOffset cfg.line m.capacity v (m.probes v))).map prev prevs P' := by
  obtain ⟨home, p, hh, hx, hpos, hpv, hle, hstand, hslot, hbusy⟩ := h.next hv hlt hempty
  have hl : Lines cfg.line m.capacity := h.same ▸ hv.lines
  have hword : m.capacity ≤ 2 ^ 64 := Nat.le_of_dvd (Nat.two_pow_pos 64) hl.word
  -- the walk starts at the home slot of the entry
  have hfirst : firstOffset cfg.line m.capacity v (m.probes v) = home := by
    have hback := firstOffset_cursor (n := m.probes v - 1) hl hh (by omega)
    rwa [hslot, Nat.sub_add_cancel (by omega)] at hback
  have hcount := State.addWanted_move (a := p - 1) (e := m.probes v - 1) hl hh (by omega)
    (by omega) hc
  rw [hstand, hslot] at hcount
  have hkeep := (State.addWanted_makes cfg hs v (some prev) home).wanted_keep
  rw [hfirst]
  obtain ⟨hc', he', hp', hmax'⟩ := hkeep
  refine ⟨_, h.step hv hh hx hpos hpv hle hstand hslot hbusy (hc'.trans hc) (he'.trans he)
    (hp'.trans hp) (hmax'.trans hmax) fun s => ?_⟩
  rw [hcount, hw]

/-- The chain is moved. -/
theorem shiftChain {hs : State V} (h : Moving cfg m₀ hs.map v prevs P) (hv : m₀.Valid cfg)
    {e : Nat} (hlt : e < m₀.capacity) (hempty : m₀.entries e = none) :
    ∃ P', Moving cfg m₀ (State.shiftChain cfg prevs v hs).map
      ((prevs.map Prod.fst).getLastD v) [] P' := by
  induction prevs generalizing v P hs with
  | nil => exact ⟨P, h.congr rfl rfl rfl rfl rfl⟩
  | cons p prevs ih =>
    obtain ⟨prev, n⟩ := p
    rw [State.shiftChain, List.map_cons, List.getLastD_cons]
    obtain ⟨P', h'⟩ := h.addWanted hv hlt hempty (hs.exec [.entry v (hs.map.entries prev)])
      rfl rfl rfl rfl rfl
    exact ih (h'.congr rfl rfl rfl rfl rfl)

end Moving

end ConcurrencyKit.Rhs
