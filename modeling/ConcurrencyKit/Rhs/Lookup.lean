import ConcurrencyKit.Misc.KeyedSet
import ConcurrencyKit.Rhs.Exchange

/-!
# What a probe for a key returns

A map represents a set if it holds one word for each member and no others. A probe that may go as
far as the bound of the home slot of its key then returns the member for the key.
-/

namespace ConcurrencyKit.Rhs

variable {V : Type} [DecidableEq V]

namespace Map

section Loop

variable {cfg : Config V} {m : Map V} {hit : Word V → Bool} {home : Nat}

omit [DecidableEq V] in
/-- A walk does not end before the word that it looks for. -/
theorem probeLoop_hits {k opl fuel a limit : Nat} {behavior : ProbeBehavior} {w : Word V}
    {pr : Option (Nat × Nat)} (hstops : behavior.stops = false) (ha : a ≤ k) (hk : k < limit)
    (hfuel : k < a + fuel) (hw : m.entries (m.slotAt cfg home k) = some w)
    (hhit : hit w = true) (hused : ∀ j < k, m.entries (m.slotAt cfg home j) ≠ none) :
    (probeLoop cfg m hit opl behavior fuel (m.slotAt cfg home a) a limit pr).object ≠ none := by
  induction fuel generalizing a pr with
  | zero => omega
  | succ fuel ih =>
    have hne : a ≠ limit := by omega
    have hk_le : a + 1 ≤ limit := by omega
    rw [probeLoop, if_neg fun h => hne h.1, if_neg hne]
    have hleave : ∀ (u : Word V) (pr' : Option (Nat × Nat)),
        (probeLeave (a + 1) limit (m.slotAt cfg home a) (some u.obj) pr').object ≠ none := by
      intro u pr'
      unfold probeLeave
      simp only [if_neg (Nat.not_lt.mpr hk_le), ne_eq, reduceCtorEq, not_false_iff]
    rcases Nat.eq_or_lt_of_le ha with rfl | hlt
    · rw [hw]
      simp only [hstops, Bool.false_eq_true, and_false, if_false, hhit, if_true]
      exact hleave w _
    · obtain ⟨u, hu⟩ := Option.ne_none_iff_exists'.mp (hused a hlt)
      rw [hu]
      simp only [hstops, Bool.false_eq_true, and_false, if_false]
      split
      · exact hleave u _
      · exact ih hlt (by omega)

end Loop

section Probes

variable {cfg : Config V} {m : Map V} {key : V} {behavior : ProbeBehavior}

omit [DecidableEq V] in
/-- The bound of the home slot of an entry is as large as its probe count. -/
theorem Valid.le_boundGet (hv : m.Valid cfg) (hb : m.Bounded cfg none) {s : Nat} {w : Word V}
    (hw : m.entries s = some w) : m.probes s ≤ m.boundGet cfg (m.home (cfg.hf w.obj)) := by
  obtain ⟨hh, hpos, hle, hstand⟩ := hv.placed.stands s _ (place_of_entry hw)
  dsimp only at hh hpos hle hstand
  unfold boundGet
  split
  · exact hb.below s
  · rename_i hrm
    split
    · exact hb.below s
    · rename_i hmax
      have hadmits := hb.admits (Bool.eq_false_of_not_eq_true hrm) s
        (Option.some_ne_none s).symm hpos
      rw [firstOffset_stands hv.lines hh hpos hle hstand] at hadmits
      exact hadmits.resolve_right hmax

/-- A probe finds a stored word for its key. -/
theorem probe_hits (hl : cfg.Lawful) (hv : m.Valid cfg) (hb : m.Bounded cfg none) {s limit : Nat}
    {w : Word V} (hw : m.entries s = some w) (hhit : cfg.hit (cfg.hf key) key w = true)
    (hstops : behavior.stops = false)
    (hstart : m.boundGet cfg (m.home (cfg.hf key)) ≤ m.startLimit cfg (cfg.hf key) limit behavior) :
    (m.probe cfg (cfg.hf key) key limit behavior).object ≠ none := by
  have hhash := hl.hf_eq (State.keyMatch_of_hit hhit)
  have hplace : m.place cfg s = some ⟨m.home (cfg.hf w.obj), m.probes s⟩ := place_of_entry hw
  obtain ⟨hh, hpos, hle, hstand⟩ := hv.placed.stands s _ hplace
  have hfilled := hv.placed.filled s _ hplace
  have hbound := hv.le_boundGet hb hw
  dsimp only at hh hpos hle hstand hfilled
  rw [hhash] at hh hstand hfilled hbound
  unfold probe
  dsimp only
  have hword : m.entries (m.slotAt cfg (m.home (cfg.hf key)) (m.probes s - 1)) = some w := by
    rw [slotAt, hstand, hw]
  refine probeLoop_hits hstops (Nat.zero_le _) (by omega) (by omega) hword hhit
    fun j hj => ?_
  exact fun hnone => (hfilled j hj).elim (fun h => by cases h) fun h => h (place_eq_none.mpr hnone)

end Probes

end Map

/-! ## The set a map represents -/

/-- The words in the map are those of the members. -/
def Represents {cfg : Config V} (hl : cfg.Lawful) (m : Map V) (S : KeyedSet V hl.keys) : Prop :=
  m.stored = S.carrier.val.map fun v => some (cfg.marshal v (cfg.hf v))

section Represents

variable {cfg : Config V} {hl : cfg.Lawful} {m : Map V} {S : KeyedSet V hl.keys} {key v : V}

theorem Represents.mem (h : Represents hl m S) (hv : v ∈ S) :
    ∃ s < m.capacity, m.entries s = some (cfg.marshal v (cfg.hf v)) := by
  have hstored : some (cfg.marshal v (cfg.hf v)) ∈ m.stored := by
    rw [h]
    exact Multiset.mem_map_of_mem _ hv
  exact (mem_contents.mp hstored).2

theorem Represents.word (h : Represents hl m S) {s : Nat} {w : Word V} (hs : s < m.capacity)
    (hw : m.entries s = some w) : w.obj ∈ S ∧ w = cfg.marshal w.obj (cfg.hf w.obj) := by
  have hstored : some w ∈ m.stored := mem_contents.mpr ⟨rfl, s, hs, hw⟩
  rw [h, Multiset.mem_map] at hstored
  obtain ⟨v, hv, he⟩ := hstored
  cases he
  exact ⟨hv, rfl⟩

theorem hit_marshal (hl : cfg.Lawful) (h : cfg.keyMatch v key = true) :
    cfg.hit (cfg.hf key) key (cfg.marshal v (cfg.hf v)) = true := by
  unfold Config.hit Config.marshal
  rw [hl.hf_eq h, h]
  simp

theorem Represents.congr {m' : Map V} (h : Represents hl m S) (he : m'.stored = m.stored) :
    Represents hl m' S := he.trans h

/-- A probe returns the member for its key. -/
theorem Represents.probed (h : Represents hl m S) (hv : m.Valid cfg) (hb : m.Bounded cfg none)
    {limit : Nat} {behavior : ProbeBehavior} (hstops : behavior.stops = false)
    (hstart : m.boundGet cfg (m.home (cfg.hf key)) ≤ m.startLimit cfg (cfg.hf key) limit behavior) :
    (m.probe cfg (cfg.hf key) key limit behavior).object = S.lookup key := by
  have hstored : ∀ object, (m.probe cfg (cfg.hf key) key limit behavior).object = some object →
      m.Stored cfg key object := fun _ => Map.probe_stored hv.lines
  cases hobject : (m.probe cfg (cfg.hf key) key limit behavior).object with
  | some object =>
    obtain ⟨w, ⟨s, hs, hw⟩, hhit, rfl⟩ := hstored object hobject
    exact (KeyedSet.lookup_eq_some.mpr ⟨(h.word hs hw).1, State.keyMatch_of_hit hhit⟩).symm
  | none =>
    refine (KeyedSet.lookup_eq_none.mpr fun v hmem hkey => ?_).symm
    obtain ⟨s, -, hw⟩ := h.mem hmem
    exact Map.probe_hits hl hv hb hw (hit_marshal hl hkey) hstops hstart hobject

/-- The word of a key that is not stored is added. -/
theorem Represents.insert {m' : Map V} (h : Represents hl m S) (hkey : cfg.keyMatch v key = true)
    (hnone : S.lookup key = none)
    (hs : m'.stored = some (cfg.marshal v (cfg.hf key)) ::ₘ m.stored) :
    Represents hl m' (S.assign v) := by
  unfold Represents
  rw [hs, h, KeyedSet.assign_val, KeyedSet.erase_congr hkey, KeyedSet.erase_of_lookup_none hnone,
    Multiset.map_cons, hl.hf_eq hkey]

/-- The word of a key is taken out. -/
theorem Represents.erase {m' : Map V} {u : V} (h : Represents hl m S)
    (hsome : S.lookup key = some u)
    (hs : some (cfg.marshal u (cfg.hf u)) ::ₘ m'.stored = m.stored) :
    Represents hl m' (S.erase key) := by
  rw [h, KeyedSet.val_of_lookup_some hsome, Multiset.map_cons] at hs
  exact (Multiset.cons_inj_right _).mp hs

/-- The word of a key is replaced. -/
theorem Represents.replace {m' : Map V} {u : V} (h : Represents hl m S)
    (hkey : cfg.keyMatch v key = true) (hsome : S.lookup key = some u)
    (hs : {some (cfg.marshal u (cfg.hf u))} + m'.stored =
      some (cfg.marshal v (cfg.hf key)) ::ₘ m.stored) :
    Represents hl m' (S.assign v) := by
  rw [h, KeyedSet.val_of_lookup_some hsome, Multiset.map_cons, Multiset.singleton_add,
    Multiset.cons_swap] at hs
  have herase : S.erase v = S.erase key := KeyedSet.erase_congr hkey
  unfold Represents
  rw [(Multiset.cons_inj_right _).mp hs, KeyedSet.assign_val, herase, Multiset.map_cons,
    hl.hf_eq hkey]

end Represents

end ConcurrencyKit.Rhs
