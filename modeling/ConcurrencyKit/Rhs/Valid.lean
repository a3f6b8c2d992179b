import ConcurrencyKit.Rhs.Wanted

/-!
# What holds of a map between two calls

Every entry is where its number of probes says, no slot on its path is empty, and the counters of
passing entries are right. While entries are moved one slot is vacant: the word in it does not
count.
-/

namespace ConcurrencyKit.Rhs

variable {V : Type}

namespace Map

variable (cfg : Config V) (m : Map V)

/-- Where the entries of a map are. -/
def place : Placement := fun t =>
  (m.entries t).map fun w => ⟨m.home (cfg.hf w.obj), m.probes t⟩

/-- A map as it is found by a call. -/
structure Valid : Prop where
  capacity : ∃ k, 3 ≤ k ∧ k ≤ 64 ∧ m.capacity = 2 ^ k
  placed : Placed cfg.line m.capacity (m.place cfg) none
  counts : Counts cfg.line m.capacity (m.place cfg) m.wanted
  empty : ∀ t, m.entries t = none → m.probes t = 0
  bound : ∀ t, m.probes t ≤ m.probeMaximum

/-- A map with a vacant slot `v` and the entries of `P` in the others. -/
structure Vacant (v : Nat) (P : Placement) : Prop where
  capacity : ∃ k, 3 ≤ k ∧ k ≤ 64 ∧ m.capacity = 2 ^ k
  inside : v < m.capacity
  slot : P v = none
  place : ∀ t, t ≠ v → m.place cfg t = P t
  placed : Placed cfg.line m.capacity P (some v)
  counts : Counts cfg.line m.capacity P m.wanted
  empty : ∀ t, t ≠ v → m.entries t = none → m.probes t = 0
  bound : ∀ t, m.probes t ≤ m.probeMaximum

variable {cfg m} {v : Nat} {P : Placement}

theorem Valid.lines (h : m.Valid cfg) : Lines cfg.line m.capacity := by
  obtain ⟨k, h3, h64, hc⟩ := h.capacity
  exact hc ▸ cfg.lines h3 h64

theorem Vacant.lines (h : m.Vacant cfg v P) : Lines cfg.line m.capacity := by
  obtain ⟨k, h3, h64, hc⟩ := h.capacity
  exact hc ▸ cfg.lines h3 h64

theorem place_eq_none {t : Nat} : m.place cfg t = none ↔ m.entries t = none := by
  simp [Map.place]

theorem place_of_entry {t : Nat} {w : Word V} (hw : m.entries t = some w) :
    m.place cfg t = some ⟨m.home (cfg.hf w.obj), m.probes t⟩ := by
  simp [Map.place, hw]

/-- The number of probes of a stored entry. -/
theorem probes_of_place {t : Nat} {x : Place} (hx : m.place cfg t = some x) :
    m.probes t = x.probes := by
  obtain ⟨w, -, rfl⟩ := Option.map_eq_some_iff.mp hx
  rfl

/-- A slot with a number of probes is in use. -/
theorem Vacant.used (h : m.Vacant cfg v P) {t : Nat} (ht : t ≠ v) (hpos : 0 < m.probes t) :
    ∃ home, P t = some ⟨home, m.probes t⟩ := by
  cases hx : P t with
  | none =>
    rw [← h.place t ht, place_eq_none] at hx
    exact absurd (h.empty t ht hx) hpos.ne'
  | some x =>
    have hp := probes_of_place ((h.place t ht).trans hx)
    exact ⟨x.home, by rw [hp]⟩

/-- The map in which the vacant slot has been cleared. -/
theorem Vacant.clear (h : m.Vacant cfg v P) (hpass : passing cfg.line m.capacity P v = 0)
    {m' : Map V} (hc : m'.capacity = m.capacity)
    (he : m'.entries = Function.update m.entries v none)
    (hp : m'.probes = Function.update m.probes v 0) (hw : m'.wanted = m.wanted)
    (hmax : m'.probeMaximum = m.probeMaximum) : m'.Valid cfg := by
  have hplace : m'.place cfg = P := by
    funext t
    by_cases ht : t = v
    · rw [ht, h.slot, place_eq_none, he, Function.update_self]
    · rw [← h.place t ht]
      simp only [Map.place, he, hp, Function.update_of_ne ht, home, hc]
  refine ⟨hc ▸ h.capacity, ?_, ?_, ?_, ?_⟩
  · rw [hplace, hc]
    exact h.placed.settle h.lines hpass
  · rw [hplace, hc, hw]
    exact h.counts
  · intro t ht
    rw [hp]
    by_cases htv : t = v
    · rw [htv, Function.update_self]
    · rw [he, Function.update_of_ne htv] at ht
      rw [Function.update_of_ne htv]
      exact h.empty t htv ht
  · intro t
    rw [hp, hmax]
    by_cases htv : t = v
    · rw [htv, Function.update_self]
      exact Nat.zero_le _
    · rw [Function.update_of_ne htv]
      exact h.bound t

/-- The map in which an entry has been stored in the vacant slot. -/
theorem Vacant.fill (h : m.Vacant cfg v P) {w : Word V} {n : Nat} {m' : Map V}
    (hc : m'.capacity = m.capacity) (he : m'.entries = Function.update m.entries v (some w))
    (hp : m'.probes = Function.update m.probes v n) (hmax : m'.probeMaximum = m.probeMaximum)
    (hw : ∀ s, m'.wanted s = if Along cfg.line m.capacity (m.home (cfg.hf w.obj)) 0 (n - 1) s then
      countUp (m.wanted s) else m.wanted s)
    (hpos : 0 < n) (hle : n ≤ m.capacity) (hn : n ≤ m.probeMaximum)
    (hcursor : cursor cfg.line m.capacity (m.home (cfg.hf w.obj)) (n - 1) = v)
    (hpath : ∀ k < n - 1,
      P (cursor cfg.line m.capacity (m.home (cfg.hf w.obj)) k) ≠ none) : m'.Valid cfg := by
  have hhome : m.home (cfg.hf w.obj) < m.capacity :=
    Nat.mod_lt _ (Nat.lt_of_le_of_lt (Nat.zero_le v) h.inside)
  have hplace : m'.place cfg = Function.update P v (some ⟨m.home (cfg.hf w.obj), n⟩) := by
    funext t
    by_cases ht : t = v
    · subst ht
      rw [Function.update_self, place_of_entry (by rw [he, Function.update_self]), hp,
        Function.update_self, home, hc]
      rfl
    · rw [Function.update_of_ne ht, ← h.place t ht]
      simp only [Map.place, he, hp, Function.update_of_ne ht, home, hc]
  refine ⟨hc ▸ h.capacity, ?_, ?_, ?_, ?_⟩
  · rw [hplace, hc]
    exact h.placed.fill hhome hpos hle hcursor hpath
  · rw [hplace, hc]
    exact h.counts.insert h.inside h.slot fun s _ => hw s
  · intro t ht
    by_cases htv : t = v
    · rw [he, htv, Function.update_self] at ht
      cases ht
    · rw [he, Function.update_of_ne htv] at ht
      rw [hp, Function.update_of_ne htv]
      exact h.empty t htv ht
  · intro t
    rw [hp, hmax]
    by_cases htv : t = v
    · rw [htv, Function.update_self]
      exact hn
    · rw [Function.update_of_ne htv]
      exact h.bound t

/-- An empty slot is vacant. -/
theorem Valid.vacant (h : m.Valid cfg) (hv : v < m.capacity) (hempty : m.entries v = none) :
    m.Vacant cfg v (m.place cfg) where
  capacity := h.capacity
  inside := hv
  slot := place_eq_none.mpr hempty
  place _ _ := rfl
  placed := h.placed.weaken v
  counts := h.counts
  empty t _ := h.empty t
  bound := h.bound

/-- A slot is vacant when its entry is no longer counted. -/
theorem Valid.vacate (h : m.Valid cfg) {x : Place} (hx : m.place cfg v = some x) {m' : Map V}
    (hc : m'.capacity = m.capacity) (he : m'.entries = m.entries) (hp : m'.probes = m.probes)
    (hmax : m'.probeMaximum = m.probeMaximum)
    (hw : ∀ s, m'.wanted s = if x.Passes cfg.line m.capacity s then countDown (m.wanted s)
      else m.wanted s) : m'.Vacant cfg v (Function.update (m.place cfg) v none) := by
  have hlt : v < m.capacity := h.placed.lt h.lines hx
  have hplace : m'.place cfg = m.place cfg := by
    funext t
    simp only [Map.place, he, hp, home, hc]
  constructor
  · exact hc ▸ h.capacity
  · exact hc ▸ hlt
  · exact Function.update_self _ _ _
  · intro t ht
    rw [hplace, Function.update_of_ne ht]
  · exact hc ▸ h.placed.remove v
  · exact hc ▸ h.counts.remove hlt hx fun s _ => hw s
  · intro t _ ht
    rw [hp]
    exact h.empty t (he ▸ ht)
  · intro t
    rw [hp, hmax]
    exact h.bound t

end Map

end ConcurrencyKit.Rhs
