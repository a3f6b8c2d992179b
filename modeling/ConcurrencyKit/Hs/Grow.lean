import ConcurrencyKit.Hs.Stores

/-!
# Growing a map

`ck_hs_grow` copies every live slot of the map into a larger one that it builds in private,
starts over with twice the capacity when a copy finds no slot within the probe limit, and
publishes the result by one store. The new map stores the same objects.
-/

namespace ConcurrencyKit.Hs

variable {V : Type} [DecidableEq V]

namespace Map

/-! ## A fresh map -/

section Create

variable (cfg : Config V) (entries : Nat)

theorem create_valid : (create cfg entries).Valid cfg .idle where
  shape := mapSlots_pow entries
  capacity_le := mapSlots_le entries
  outside _ _ := rfl
  generation_lt _ := by simp [create]
  maximum_le := Nat.zero_le _
  bound_le b hb i := by
    simp only [create] at hb
    split at hb
    · cases hb; exact Nat.zero_le _
    · cases hb
  tag_eq _ _ _ h := by cases h
  reaches _ _ _ h := by cases h
  unique _ _ _ _ _ _ h := by cases h
  copies _ _ h := by rcases h with h | h <;> cases h

omit [DecidableEq V] in
theorem create_objects : (create cfg entries).objects = ∅ := by
  ext v
  constructor
  · rintro ⟨s, t, h⟩; cases h
  · exact False.elim

omit [DecidableEq V] in
theorem create_accounts : (create cfg entries).Accounts 0 where
  live := (tally_eq_zero fun _ _ => rfl).symm
  dead := (tally_eq_zero fun _ _ => rfl).symm

end Create

/-! ## Copying the entries -/

section Copy

variable {cfg : Config V}

/-- What is kept of a map under construction that stores the objects `objs`. -/
structure Stores (cfg : Config V) (m : Map V) (capacity : Nat) (objs : Set V) : Prop where
  valid : m.Valid cfg .idle
  objects : m.objects = objs
  accounts : m.Accounts 0
  capacity : m.capacity = capacity

/-- One entry is copied into the first empty slot of its probe sequence. -/
theorem growPlace_stores (hl : cfg.Lawful) {v : V} {capacity remaining : Nat} {objs : Set V}
    {update filled : Map V} (hst : update.Stores cfg capacity objs)
    (hab : update.Absent cfg v) (hrem : remaining ≤ update.probeLimit)
    (hopen : update.Open cfg (cfg.hf v) (update.probeLimit - remaining))
    (h : growPlace cfg (cfg.hf v) (cfg.marshal v (cfg.hf v)) remaining update = some filled) :
    filled.Stores cfg capacity (assigned cfg objs v) := by
  induction remaining with
  | zero => cases h
  | succ remaining ih =>
    rw [growPlace] at h
    set n := update.probeLimit - (remaining + 1) with hn
    dsimp only at h
    split at h
    · rename_i hempty
      have hlt : n + 1 ≤ update.probeLimit := by omega
      have hpath := boundSet_path hl hst.valid (cfg.hf v) hlt
      have hv := hpath.valid hl hst.valid
      have hc := (change_fill_empty (v := v) hv (s := cfg.cursor update.capacity (cfg.hf v) n)
        (by rw [boundSet_entries]; exact hempty)
        ⟨n, by rw [boundSet_capacity], covers_boundSet update _ n, hopen.boundSet⟩
        (by unfold Absent; rw [boundSet_entries]; exact hab)).after_boundSet hl hst.valid hlt
      have hv' := hc.path.valid hl hst.valid
      have hobj := hc.objects
      have hacc := hc.accounts hst.accounts
      have hcap := hc.capacity
      rw [objects_congr (boundSet_entries _ _)] at hobj
      -- the order of the stores to private memory does not matter
      have heq : filled = (update.applyAll (update.boundSet (cfg.hf v) (n + 1) ++
          [.entry (cfg.cursor update.capacity (cfg.hf v) n) (cfg.marshal v (cfg.hf v))])).apply
          (.nEntries (update.nEntries + 1)) := by
        rw [← Option.some.inj h, applyAll_boundSet, applyAll_append, applyAll_boundSet]
        rfl
      have hne : (update.applyAll (update.boundSet (cfg.hf v) (n + 1) ++
          [.entry (cfg.cursor update.capacity (cfg.hf v) n)
            (cfg.marshal v (cfg.hf v))])).nEntries = update.nEntries := by
        rw [applyAll_append, applyAll_boundSet]
        rfl
      rw [heq, ← hne, ← hst.objects]
      exact ⟨hv'.frame rfl rfl rfl rfl rfl, hobj, hacc.counted, hcap.trans hst.capacity⟩
    · rename_i hempty
      refine ih (by omega) ?_ h
      intro k hk
      by_cases hkn : k < n
      · exact hopen k hkn
      · have : k = n := by omega
        rw [this]
        exact hempty

/-- The objects in the first `k` slots. -/
def objectsBelow (m : Map V) (k : Nat) : Set V := {v | ∃ s < k, ∃ t, m.entries s = .entry t v}

theorem growCopy_stores (hl : cfg.Lawful) {m : Map V} (hv : m.Valid cfg .idle)
    {capacity k : Nat} {update filled : Map V}
    (hst : update.Stores cfg capacity (m.objectsBelow k))
    (h : m.growCopy cfg update k = some filled) :
    filled.Stores cfg capacity (m.objectsBelow (k + 1)) := by
  have hskip : (∀ t v, m.entries k ≠ .entry t v) → m.objectsBelow (k + 1) = m.objectsBelow k := by
    intro hno
    ext v
    constructor
    · rintro ⟨s, hs, t, ht⟩
      rcases Nat.lt_succ_iff_lt_or_eq.mp hs with hlt | rfl
      · exact ⟨s, hlt, t, ht⟩
      · exact absurd ht (hno t v)
    · rintro ⟨s, hs, t, ht⟩
      exact ⟨s, by omega, t, ht⟩
  cases hk : m.entries k with
  | empty =>
    rw [growCopy, hk] at h
    rw [hskip (by rw [hk]; exact nofun), ← Option.some.inj h]
    exact hst
  | tombstone =>
    rw [growCopy, hk] at h
    rw [hskip (by rw [hk]; exact nofun), ← Option.some.inj h]
    exact hst
  | entry t v =>
    rw [growCopy, hk] at h
    have htag := hv.tag_eq k t v hk
    -- earlier slots hold other keys
    have hother : ∀ u ∈ m.objectsBelow k, cfg.keyMatch u v = false := by
      rintro u ⟨s, hs, t', ht'⟩
      by_contra hm
      rw [Bool.not_eq_false] at hm
      have := hv.unique s k t' t u v ht' hk nofun nofun hm
      omega
    have hab : update.Absent cfg v := by
      intro s t' u hs
      refine hother u ?_
      rw [← hst.objects]
      exact ⟨s, t', hs⟩
    dsimp only at h
    rw [htag] at h
    have hfin := growPlace_stores hl hst hab le_rfl (by
      intro j hj; rw [Nat.sub_self] at hj; exact absurd hj (Nat.not_lt_zero j)) h
    have hobjs : assigned cfg (m.objectsBelow k) v = m.objectsBelow (k + 1) := by
      ext u
      constructor
      · rintro (rfl | ⟨⟨s, hs, t', ht'⟩, -⟩)
        · exact ⟨k, Nat.lt_succ_self k, t, hk⟩
        · exact ⟨s, by omega, t', ht'⟩
      · rintro ⟨s, hs, t', ht'⟩
        rcases Nat.lt_succ_iff_lt_or_eq.mp hs with hlt | rfl
        · exact .inr ⟨⟨s, hlt, t', ht'⟩, hother u ⟨s, hlt, t', ht'⟩⟩
        · rw [hk] at ht'
          cases ht'
          exact .inl rfl
    rw [← hobjs]
    exact hfin

/-- The copy loop. -/
theorem growCopies_stores (hl : cfg.Lawful) {m : Map V} (hv : m.Valid cfg .idle)
    {capacity : Nat} {update filled : Map V} (hst : update.Stores cfg capacity ∅) {n : Nat}
    (h : (List.range n).foldlM (m.growCopy cfg) update = some filled) :
    filled.Stores cfg capacity (m.objectsBelow n) := by
  induction n generalizing filled with
  | zero =>
    have hzero : m.objectsBelow 0 = ∅ := by
      ext v
      constructor
      · rintro ⟨s, hs, -⟩; exact absurd hs (Nat.not_lt_zero s)
      · exact False.elim
    rw [hzero, ← Option.some.inj h]
    exact hst
  | succ n ih =>
    rw [List.range_succ, List.foldlM_append] at h
    obtain ⟨mid, hmid, hlast⟩ := Option.bind_eq_some_iff.mp h
    refine growCopy_stores hl hv (ih hmid) ?_
    simpa using hlast

theorem Valid.objectsBelow_capacity {ph : Phase} {m : Map V} (hv : m.Valid cfg ph) :
    m.objectsBelow m.capacity = m.objects := by
  ext v
  constructor
  · rintro ⟨s, -, t, ht⟩; exact ⟨s, t, ht⟩
  · rintro ⟨s, t, ht⟩; exact ⟨s, hv.live_lt ht, t, ht⟩

end Copy

end Map

/-! ## How a call changes the state -/

/-- The state after some allocations and some allowed stores. -/
structure Evolves (cfg : Config V) (hs hs' : State V) : Prop where
  wrote : ∃ sts, hs'.stores = hs.stores ++ sts ∧ hs'.map = hs.map.applyAll sts ∧
    Map.Path cfg hs.map .idle sts .idle
  allocs : hs.allocs ≤ hs'.allocs
  peak : hs.peak ≤ hs'.peak
  capacity : hs.map.capacity ≤ hs.peak → hs'.map.capacity ≤ hs'.peak

/-- An allocation between the two states failed. -/
def Failed (cfg : Config V) (hs hs' : State V) : Prop :=
  ∃ n, hs.allocs ≤ n ∧ n < hs'.allocs ∧ cfg.malloc n = false

section Evolves

variable {cfg : Config V} {hs hs' hs'' : State V}

theorem Evolves.of_map_eq (hmap : hs'.map = hs.map) (hst : hs'.stores = hs.stores)
    (ha : hs.allocs ≤ hs'.allocs) (hp : hs.peak ≤ hs'.peak) : Evolves cfg hs hs' where
  wrote := ⟨[], by rw [hst, List.append_nil], hmap, .nil _ _⟩
  allocs := ha
  peak := hp
  capacity h := by rw [hmap]; omega

theorem Evolves.refl (hs : State V) : Evolves cfg hs hs := .of_map_eq rfl rfl le_rfl le_rfl

theorem Evolves.trans (h : Evolves cfg hs hs') (h' : Evolves cfg hs' hs'') :
    Evolves cfg hs hs'' where
  wrote := by
    obtain ⟨xs, hx, hmx, hpx⟩ := h.wrote
    obtain ⟨ys, hy, hmy, hpy⟩ := h'.wrote
    refine ⟨xs ++ ys, by rw [hy, hx, List.append_assoc], ?_, hpx.append (hmx ▸ hpy)⟩
    rw [hmy, hmx, applyAll_append]
  allocs := h.allocs.trans h'.allocs
  peak := h.peak.trans h'.peak
  capacity hc := h'.capacity (h.capacity hc)

theorem Evolves.exec {sts : List (Store V)} (hp : Map.Path cfg hs.map .idle sts .idle)
    (hc : (hs.map.applyAll sts).capacity ≤ max hs.map.capacity hs.peak) :
    Evolves cfg hs (hs.exec sts) where
  wrote := ⟨sts, rfl, rfl, hp⟩
  allocs := le_rfl
  peak := le_rfl
  capacity h := by
    show (hs.map.applyAll sts).capacity ≤ hs.peak
    omega

theorem Evolves.valid (hl : cfg.Lawful) (h : Evolves cfg hs hs') (hv : hs.map.Valid cfg .idle) :
    hs'.map.Valid cfg .idle := by
  obtain ⟨sts, -, hm, hp⟩ := h.wrote
  rw [hm]
  exact hp.valid hl hv

theorem Failed.mono_left (hf : Failed cfg hs' hs'') (h : Evolves cfg hs hs') :
    Failed cfg hs hs'' := by
  obtain ⟨n, hn, hn', hm⟩ := hf
  exact ⟨n, h.allocs.trans hn, hn', hm⟩

end Evolves

/-! ## `ck_hs_grow` -/

namespace State

section Grow

variable {cfg : Config V}

/-- What `ck_hs_grow` with the given capacity does, whatever it returns. -/
structure Grown (cfg : Config V) (hs : State V) (capacity : Nat) (ok : Bool) (hs' : State V) :
    Prop where
  evolves : Evolves cfg hs hs'
  objects : hs'.map.objects = hs.map.objects
  accounts : hs.map.Accounts 0 → hs'.map.Accounts 0
  le : ok = true → hs.map.capacity ≤ capacity
  capacity_le : ok = true → capacity ≤ hs'.map.capacity ∨ 2 ^ 31 ≤ hs'.peak
  failed : ok = false →
    Failed cfg hs hs' ∨ capacity < hs.map.capacity ∨ 2 ^ 31 ≤ hs'.peak

/-- The state after an allocation. -/
theorem create_evolves (hs : State V) (capacity : Nat) :
    Evolves cfg hs (hs.create cfg capacity).2 :=
  .of_map_eq rfl rfl (Nat.le_succ _) (le_max_left _ _)

theorem growLoop_grown (hl : cfg.Lawful) {fuel capacity : Nat} {hs : State V}
    (hv : hs.map.Valid cfg .idle)
    (hfuel : 2 ^ 31 ≤ hs.peak ∨ (0 < fuel ∧ (0 < capacity → 2 ^ 31 ≤ capacity * 2 ^ (fuel - 1)))) :
    Grown cfg hs capacity (growLoop cfg fuel capacity hs).1 (growLoop cfg fuel capacity hs).2 := by
  induction fuel generalizing capacity hs with
  | zero =>
    refine ⟨.refl _, rfl, id, nofun, nofun, fun _ => .inr (.inr ?_)⟩
    rcases hfuel with h | h
    · exact h
    · exact absurd h.1 (Nat.lt_irrefl 0)
  | succ fuel ih =>
    rw [growLoop]
    split
    · rename_i hlt
      exact ⟨.refl _, rfl, id, nofun, nofun, fun _ => .inr (.inl hlt)⟩
    · rename_i hge
      have hev : Evolves cfg hs (hs.create cfg capacity).2 := create_evolves hs capacity
      have hpeak : capacity ≤ (hs.create cfg capacity).2.peak ∧
          mapSlots capacity ≤ (hs.create cfg capacity).2.peak := by
        constructor
        · exact le_trans (le_max_left _ _) (le_max_right _ _)
        · exact le_trans (le_max_right _ _) (le_max_right _ _)
      have hmap : (hs.create cfg capacity).2.map = hs.map := rfl
      cases hm : cfg.malloc hs.allocs with
      | false =>
        have hcr : hs.create cfg capacity = (none, (hs.create cfg capacity).2) := by
          simp [create, hm]
        rw [hcr]
        refine ⟨hev, rfl, id, nofun, nofun, fun _ => .inl ?_⟩
        exact ⟨hs.allocs, le_rfl, Nat.lt_succ_self _, hm⟩
      | true =>
        have hcr : hs.create cfg capacity =
            (some (Map.create cfg capacity), (hs.create cfg capacity).2) := by
          simp [create, hm]
        rw [hcr]
        dsimp only
        revert hev hpeak hmap
        generalize (hs.create cfg capacity).2 = hs₁
        intro hev hpeak hmap
        split
        · -- all entries fit
          rename_i filled hfold
          have hst := Map.growCopies_stores hl hv
            ⟨Map.create_valid cfg capacity, Map.create_objects cfg capacity,
              Map.create_accounts cfg capacity, rfl⟩ hfold
          rw [hv.objectsBelow_capacity] at hst
          have hcap : filled.capacity = mapSlots capacity := hst.capacity
          refine ⟨hev.trans (.exec (.one (.publish hst.valid)) ?_), hst.objects,
            fun _ => hst.accounts, fun _ => by omega, fun _ => ?_, nofun⟩
          · show filled.capacity ≤ _
            omega
          · show capacity ≤ filled.capacity ∨ _
            by_cases hbig : capacity < 2 ^ 31
            · exact .inl (hcap ▸ le_mapSlots hbig.le)
            · exact .inr (le_trans (by omega) hpeak.1)
        · -- an entry found no slot: try twice the capacity
          have hpos := hv.pos
          have hdouble : capacity < 2 ^ 31 → capacity * 2 % 2 ^ 64 = capacity * 2 := by omega
          have hg := @ih (capacity * 2 % 2 ^ 64) hs₁ (hmap ▸ hv) (by
            rcases hfuel with hf | ⟨-, hf⟩
            · exact .inl (le_trans hf hev.peak)
            · by_cases hbig : capacity < 2 ^ 31
              · have hf' := hf (by omega)
                rw [Nat.add_sub_cancel] at hf'
                cases fuel with
                | zero => omega
                | succ fuel =>
                  refine .inr ⟨Nat.succ_pos _, fun _ => ?_⟩
                  rw [hdouble hbig, Nat.add_sub_cancel, Nat.mul_assoc, ← Nat.pow_succ']
                  exact hf'
              · exact .inl (by omega))
          have hp' := hg.evolves.peak
          refine ⟨hev.trans hg.evolves, hg.objects.trans (by rw [hmap]),
            fun ha => hg.accounts (hmap ▸ ha), fun _ => by omega, fun hok => ?_, fun hok => ?_⟩
          · rcases hg.capacity_le hok with h | h
            · by_cases hbig : capacity < 2 ^ 31
              · have := hdouble hbig
                exact .inl (by omega)
              · exact .inr (by omega)
            · exact .inr h
          · rcases hg.failed hok with h | h | h
            · exact .inl (h.mono_left hev)
            · rw [hmap] at h
              by_cases hbig : capacity < 2 ^ 31
              · rw [hdouble hbig] at h
                exact absurd h (by omega)
              · exact .inr (.inr (by omega))
            · exact .inr (.inr h)

theorem grow_grown (hl : cfg.Lawful) {hs : State V} (hv : hs.map.Valid cfg .idle)
    (capacity : Nat) :
    Grown cfg hs capacity (hs.grow cfg capacity).1 (hs.grow cfg capacity).2 := by
  refine growLoop_grown hl hv (.inr ⟨by omega, fun hpos => ?_⟩)
  show 2 ^ 31 ≤ capacity * 2 ^ 64
  omega

/-- `ck_hs_map_postinsert` counts the entry and may grow the map. -/
theorem postinsert_evolves (hl : cfg.Lawful) {hs : State V} (hv : hs.map.Valid cfg .idle) :
    Evolves cfg hs (hs.postinsert cfg) ∧ (hs.postinsert cfg).map.objects = hs.map.objects ∧
      (hs.map.Accounts 1 → (hs.postinsert cfg).map.Accounts 0) := by
  have hpath : Map.Path cfg hs.map .idle [.nEntries (hs.map.nEntries + 1)] .idle :=
    .one (.nEntries _ _)
  have hev : Evolves cfg hs (hs.exec [.nEntries (hs.map.nEntries + 1)]) :=
    .exec hpath (le_max_left _ _)
  have hv' := hev.valid hl hv
  unfold postinsert
  dsimp only
  split
  · have hg := grow_grown hl hv' ((hs.exec [.nEntries (hs.map.nEntries + 1)]).map.capacity * 2)
    exact ⟨hev.trans hg.evolves, hg.objects, fun ha => hg.accounts ha.counted⟩
  · exact ⟨hev, rfl, fun ha => ha.counted⟩

/-! ## The restart loop -/

/-- What the `restart` loop hands to the operation. -/
structure Probing (cfg : Config V) (hs : State V) (key : V) (behavior : ProbeBehavior)
    (r : Option (ProbeResult V)) (hs' : State V) : Prop where
  evolves : Evolves cfg hs hs'
  objects : hs'.map.objects = hs.map.objects
  accounts : hs.map.Accounts 0 → hs'.map.Accounts 0
  probed : ∀ p, r = some p →
    hs'.map.Probed cfg (cfg.hf key) key
      (hs'.map.startBound (cfg.hf key) hs'.map.probeLimit behavior) hs'.map.probeLimit behavior p ∧
    ¬ (p.cursor = none ∧ p.priority = none)
  failed : r = none → Failed cfg hs hs' ∨ 2 ^ 31 ≤ hs'.peak

theorem findSlot_probing (hl : cfg.Lawful) {key : V} {behavior : ProbeBehavior} {fuel : Nat}
    {hs : State V} (hv : hs.map.Valid cfg .idle) (hcap : hs.map.capacity ≤ hs.peak) :
    match hs.findSlot cfg (cfg.hf key) key behavior fuel with
    | .ok (r, hs') => Probing cfg hs key behavior r hs'
    | .error hs' => Evolves cfg hs hs' ∧ hs'.map.objects = hs.map.objects ∧
        (hs.map.Accounts 0 → hs'.map.Accounts 0) ∧
        (hs.map.capacity * 2 ^ fuel ≤ hs'.peak ∨ 2 ^ 31 ≤ hs'.peak) := by
  induction fuel generalizing hs with
  | zero => exact ⟨.refl _, rfl, id, .inl (by omega)⟩
  | succ fuel ih =>
    rw [findSlot]
    have hg := grow_grown hl hv (hs.map.capacity * 2)
    set r := hs.map.probe cfg (cfg.hf key) key hs.map.probeLimit behavior with hr
    by_cases hslot : r.cursor = none ∧ r.priority = none
    · rw [if_pos hslot]
      revert hg
      generalize hs.grow cfg (hs.map.capacity * 2) = g
      obtain ⟨ok, hs₁⟩ := g
      intro hg
      cases ok with
      | false =>
        refine ⟨hg.evolves, hg.objects, hg.accounts, nofun, fun _ => ?_⟩
        rcases hg.failed rfl with h | h | h
        · exact .inl h
        · exact absurd h (by omega)
        · exact .inr h
      | true =>
        have hv₁ := hg.evolves.valid hl hv
        have hrec := @ih hs₁ hv₁ (hg.evolves.capacity hcap)
        dsimp only
        revert hrec
        cases hs₁.findSlot cfg (cfg.hf key) key behavior fuel with
        | ok res =>
          intro hrec
          refine ⟨hg.evolves.trans hrec.evolves, hrec.objects.trans hg.objects,
            fun ha => hrec.accounts (hg.accounts ha), hrec.probed, fun hr => ?_⟩
          rcases hrec.failed hr with h | h
          · exact .inl (h.mono_left hg.evolves)
          · exact .inr h
        | error hs' =>
          rintro ⟨hev, hobj, hacc, hpeak⟩
          refine ⟨hg.evolves.trans hev, hobj.trans hg.objects, fun ha => hacc (hg.accounts ha), ?_⟩
          rcases hg.capacity_le rfl with h | h
          · rcases hpeak with hp | hp
            · left
              calc hs.map.capacity * 2 ^ (fuel + 1) = hs.map.capacity * 2 * 2 ^ fuel := by ring
                _ ≤ hs₁.map.capacity * 2 ^ fuel := Nat.mul_le_mul_right _ h
                _ ≤ hs'.peak := hp
            · exact .inr hp
          · exact .inr (le_trans h hev.peak)
    · rw [if_neg hslot]
      refine ⟨.refl _, rfl, id, fun p hp => ?_, nofun⟩
      cases hp
      refine ⟨Map.probe_probed cfg hs.map (cfg.hf key) key _ behavior ?_, hslot⟩
      unfold Map.startBound
      split
      · exact hv.boundGet_le _
      · exact le_rfl

end Grow

end State

end ConcurrencyKit.Hs
