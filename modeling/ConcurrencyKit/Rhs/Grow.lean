import ConcurrencyKit.Rhs.Stores
import Mathlib.Data.Set.Lattice

/-!
# Growing

`ck_rhs_grow` fills a new map with the entries of the old one and publishes it, or leaves the set
as it is. The new map has the words of the old one, and no slot of it is marked for a Robin Hood
insertion.
-/

namespace ConcurrencyKit.Rhs

variable {V : Type}

theorem Config.line_pos (cfg : Config V) : 0 < cfg.line := by
  unfold line
  split <;> decide

/-- A cache line is a whole part of every map. -/
theorem Config.line_dvd (cfg : Config V) (entries : Nat) : cfg.line ∣ mapSlots entries := by
  obtain ⟨k, hk, he⟩ := mapSlots_pow entries
  have hdvd : 2 ^ 3 ∣ 2 ^ k := Nat.pow_dvd_pow 2 hk
  rw [he]
  unfold line
  split
  · exact hdvd
  · exact Dvd.dvd.trans (by decide) hdvd

/-- The probe sequence does not leave the map. -/
theorem probeNext_lt {line capacity offset : Nat} (hpos : 0 < line) (hdvd : line ∣ capacity)
    (hlt : offset < capacity) (probes : Nat) :
    probeNext line capacity offset probes < capacity := by
  unfold probeNext
  split
  · exact Nat.mod_lt _ (by omega)
  · obtain ⟨n, rfl⟩ := hdvd
    have hdiv : offset / line < n := Nat.div_lt_of_lt_mul hlt
    have hmod := Nat.mod_lt (offset + 1) hpos
    calc offset / line * line + (offset + 1) % line < offset / line * line + line := by omega
      _ = line * (offset / line + 1) := by ring
      _ ≤ line * n := Nat.mul_le_mul_left line hdiv

namespace Map

/-- The words in the slots of a map. -/
def words (m : Map V) : Set (Word V) := {w | ∃ s < m.capacity, m.entries s = some w}

/-- The stored objects. -/
def objects (m : Map V) : Set V := Word.obj '' m.words

variable {cfg : Config V} {m u u' : Map V}

theorem words_congr (he : u'.entries = u.entries) (hc : u'.capacity = u.capacity) :
    u'.words = u.words := by
  unfold words
  rw [he, hc]

/-- The map with the word of home slot `home` in a slot, found with `probes` slots read. -/
def file (cfg : Config V) (m : Map V) (home slot probes : Nat) (w : Word V) : Map V :=
  { m with
    entries := Function.update m.entries slot (some w)
    probes := Function.update m.probes slot probes
    probeMaximum := max m.probeMaximum probes
    probeBound := if cfg.readMostly = false ∧ m.probeBound home < probes then
        Function.update m.probeBound home (min probes wordMax)
      else m.probeBound }

/-- The map with one more passing entry counted. -/
def passBy (m : Map V) (slot : Nat) : Map V := m.apply (.wanted slot (inc 16 (m.wanted slot)))

theorem growInsert_succ (fuel offset probes : Nat) (w : Word V) (h : BitVec 64) :
    u.growInsert cfg (fuel + 1) w h offset probes =
      if probes = u.probeLimit then none
      else
        match u.entries offset with
        | none => some { u.file cfg (u.home h) offset (probes + 1) w with
            nEntries := u.nEntries + 1 }
        | some x =>
          if u.probes offset < probes + 1 then
            (u.file cfg (u.home h) offset (probes + 1) w).growInsert cfg fuel x (cfg.hf x.obj)
              offset (u.probes offset - 1)
          else
            (u.passBy offset).growInsert cfg fuel w h
              (probeNext cfg.line u.capacity offset (probes + 1)) (probes + 1) := by
  rw [growInsert]
  simp only [applyAll_boundSet]
  rfl

/-- A word is put into a slot, in the place of another one or not. -/
theorem words_update (w : Word V) {s : Nat} (hs : s < u.capacity)
    (hc : u'.capacity = u.capacity) (he : u'.entries = Function.update u.entries s (some w)) :
    u'.words ∪ {x | u.entries s = some x} = insert w u.words := by
  ext x
  simp only [words, hc, he, Set.mem_union, Set.mem_ofPred_eq, Set.mem_insert_iff]
  constructor
  · rintro (⟨t, ht, hx⟩ | hx)
    · by_cases hts : t = s
      · subst hts
        rw [Function.update_self] at hx
        exact .inl (Option.some.inj hx).symm
      · rw [Function.update_of_ne hts] at hx
        exact .inr ⟨t, ht, hx⟩
    · exact .inr ⟨s, hs, hx⟩
  · rintro (rfl | ⟨t, ht, hx⟩)
    · exact .inl ⟨s, hs, Function.update_self _ _ _⟩
    · by_cases hts : t = s
      · subst hts
        exact .inr hx
      · exact .inl ⟨t, ht, (Function.update_of_ne hts _ _).trans hx⟩

/-- What a new map is filled with. -/
theorem growInsert_words {fuel offset probes : Nat} {w : Word V} {h : BitVec 64}
    (hdvd : cfg.line ∣ u.capacity) (hlt : offset < u.capacity)
    (hg : u.growInsert cfg fuel w h offset probes = some u') :
    u'.words = insert w u.words ∧ u'.capacity = u.capacity ∧ u'.inRh = u.inRh := by
  induction fuel generalizing w h offset probes u with
  | zero => cases hg
  | succ fuel ih =>
    rw [growInsert_succ] at hg
    split at hg
    · cases hg
    split at hg
    · rename_i hempty
      cases hg
      refine ⟨?_, rfl, rfl⟩
      have hword : ({ u.file cfg (u.home h) offset (probes + 1) w with
          nEntries := u.nEntries + 1 } : Map V).words ∪ {x | u.entries offset = some x} =
            insert w u.words := words_update w hlt rfl rfl
      simpa [hempty] using hword
    · rename_i x hx
      split at hg
      · -- the word that was there is put aside
        obtain ⟨hw, hc, hr⟩ := ih (u := u.file cfg (u.home h) offset (probes + 1) w) hdvd hlt hg
        refine ⟨?_, hc, hr⟩
        have hword : (u.file cfg (u.home h) offset (probes + 1) w).words ∪
            {x | u.entries offset = some x} = insert w u.words := words_update w hlt rfl rfl
        rw [hw, ← hword, hx]
        ext y
        simp [eq_comm]
      · exact ih (u := u.passBy offset) hdvd (probeNext_lt cfg.line_pos hdvd hlt _) hg

/-- The copy loop of `ck_rhs_grow`. -/
def fill (cfg : Config V) (m u : Map V) (ks : List Nat) : Option (Map V) :=
  ks.foldlM (m.growCopy cfg) u

theorem fill_cons (k : Nat) (ks : List Nat) :
    m.fill cfg u (k :: ks) = (m.growCopy cfg u k).bind fun u' => m.fill cfg u' ks := rfl

theorem home_lt (hpos : 0 < u.capacity) (h : BitVec 64) : u.home h < u.capacity :=
  Nat.mod_lt _ hpos

theorem fill_words {ks : List Nat} (hdvd : cfg.line ∣ u.capacity) (hpos : 0 < u.capacity)
    (hf : m.fill cfg u ks = some u') :
    u'.words = {w | ∃ k ∈ ks, m.entries k = some w} ∪ u.words ∧ u'.capacity = u.capacity ∧
      u'.inRh = u.inRh := by
  induction ks generalizing u with
  | nil =>
    cases hf
    simp
  | cons k ks ih =>
    rw [fill_cons] at hf
    obtain ⟨u₁, hk, hf⟩ := Option.bind_eq_some_iff.mp hf
    unfold growCopy at hk
    split at hk
    · rename_i hempty
      cases hk
      obtain ⟨hw, hc, hr⟩ := ih hdvd hpos hf
      exact ⟨by simp [hw, hempty], hc, hr⟩
    · rename_i w hsome
      obtain ⟨hw₁, hc₁, hr₁⟩ := growInsert_words hdvd (home_lt hpos _) hk
      obtain ⟨hw, hc, hr⟩ := ih (hc₁ ▸ hdvd) (hc₁ ▸ hpos) hf
      refine ⟨?_, hc.trans hc₁, hr.trans hr₁⟩
      rw [hw, hw₁]
      ext x
      simp only [Set.mem_union, Set.mem_ofPred_eq, Set.mem_insert_iff, List.exists_mem_cons_iff,
        hsome, Option.some.injEq]
      rw [eq_comm, or_left_comm, or_assoc]

end Map

namespace State

variable {cfg : Config V} {hs : State V}

/-- A growth that has failed leaves the set as it is; one that has not publishes a map that has
been filled with the entries of the old one. -/
inductive Grown (cfg : Config V) (hs : State V) : Bool × State V → Prop
  | failed (hs' : State V) (map : hs'.map = hs.map) (stores : hs'.stores = hs.stores)
      (loadFactor : hs'.loadFactor = hs.loadFactor) : Grown cfg hs (false, hs')
  | filled (capacity : Nat) (m : Map V) (hs' : State V)
      (fill : hs.map.fill cfg (Map.create hs.loadFactor capacity) (List.range hs.map.capacity) =
        some m)
      (map : hs'.map = m) (stores : hs'.stores = hs.stores ++ [.map m])
      (loadFactor : hs'.loadFactor = hs.loadFactor) : Grown cfg hs (true, hs')

theorem grow_grown (cfg : Config V) (hs : State V) (capacity : Nat) :
    Grown cfg hs (hs.grow cfg capacity) := by
  unfold grow
  generalize (65 : Nat) = fuel
  -- the attempts before have changed the allocator only
  suffices h : ∀ hs' : State V, hs'.map = hs.map → hs'.stores = hs.stores →
      hs'.loadFactor = hs.loadFactor → Grown cfg hs (growLoop cfg fuel capacity hs') from
    h hs rfl rfl rfl
  intro hs' hm hst hl
  induction fuel generalizing capacity hs' with
  | zero => exact .failed hs' hm hst hl
  | succ fuel ih =>
    rw [growLoop]
    split
    · exact .failed hs' hm hst hl
    · unfold create
      by_cases hmalloc : cfg.malloc hs'.allocs = true
      · simp only [hmalloc, if_true]
        split
        · rename_i filled hfill
          refine .filled capacity filled _ ?_ rfl (by rw [exec_stores, hst]) hl
          rw [hm, hl] at hfill
          exact hfill
        · exact ih _ _ hm hst hl
      · simp only [hmalloc, Bool.false_eq_true, if_false]
        exact .failed _ hm hst hl

/-- What the map is that a growth publishes. -/
theorem filled_words {capacity loadFactor : Nat} {m m' : Map V}
    (hfill : m.fill cfg (Map.create loadFactor capacity) (List.range m.capacity) = some m') :
    m'.words = m.words ∧ m'.capacity = mapSlots capacity ∧ ∀ s, m'.inRh s = false := by
  have hpos : 0 < mapSlots capacity := by
    obtain ⟨k, -, he⟩ := mapSlots_pow capacity
    rw [he]
    exact Nat.two_pow_pos k
  obtain ⟨hw, hc, hr⟩ := Map.fill_words (cfg.line_dvd capacity) hpos hfill
  refine ⟨?_, hc, fun s => by rw [hr]; rfl⟩
  rw [hw]
  ext w
  simp [Map.words, Map.create]

variable {r : Bool × State V}

/-- A growth keeps the stored objects, whether it succeeds or not. -/
theorem Grown.words (h : Grown cfg hs r) : r.2.map.words = hs.map.words := by
  cases h with
  | failed hs' map => rw [map]
  | filled capacity m hs' fill map => rw [map, (filled_words fill).1]

theorem Grown.inRh (h : Grown cfg hs r) (hr : r.1 = false → ∀ s, hs.map.inRh s = false) :
    ∀ s, r.2.map.inRh s = false := by
  cases h with
  | failed hs' map =>
    rw [map]
    exact hr rfl
  | filled capacity m hs' fill map =>
    rw [map]
    exact (filled_words fill).2.2

end State

end ConcurrencyKit.Rhs
