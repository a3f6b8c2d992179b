import ConcurrencyKit.Ht.Changes

/-!
# Growing a map

`ck_ht_grow_spmc` copies every live slot of the map into a larger one that it builds in private,
starts over with twice the capacity when a copy finds no slot within the probe limit, and
publishes the result by one store. The new map holds the same associations.
-/

namespace ConcurrencyKit.Ht

namespace Map

/-! ## A fresh map -/

section Create

variable (cfg : Config) (entries : Nat)

theorem create_live (s : Nat) : ((create cfg entries).entries s).live = false := rfl

theorem bucketLength_cases : cfg.bucketLength = 2 ∨ cfg.bucketLength = 4 := by
  unfold Config.bucketLength Config.bucketShift
  split
  · exact .inr rfl
  · exact .inl rfl

theorem create_valid : (create cfg entries).Valid cfg .idle where
  shape := slotsFor_pow cfg.bucketShift entries
  capacity_le := slotsFor_le (by rcases bucketLength_cases cfg with h | h <;> rw [h] <;> decide) _
  outside _ _ := rfl
  deletions_lt := Nat.two_pow_pos 64
  packed _ _ := ⟨rfl, rfl⟩
  sound s h := by rw [create_live] at h; cases h
  unaliased s s' h := by rw [create_live] at h; cases h
  reaches s h := by rw [create_live] at h; cases h
  unique s s' h := by rw [create_live] at h; cases h
  copies _ _ h := by rcases h with h | h <;> cases h
  reusing _ h := by cases h
  unbound _ _ h := by cases h

theorem create_objects : (create cfg entries).objects = ∅ := by
  ext e
  constructor
  · rintro ⟨hl, s, rfl⟩
    rw [create_live] at hl
    cases hl
  · exact False.elim

theorem create_accounts : (create cfg entries).Accounts :=
  (tally_eq_zero fun _ _ => rfl).symm

end Create

/-! ## Copying the entries -/

section Copy

variable {cfg : Config}

/-- What is kept of a map under construction that holds the associations `objs`. -/
structure Holds (cfg : Config) (m : Map) (capacity : Nat) (objs : Set Entry) : Prop where
  valid : m.Valid cfg .idle
  objects : m.objects = objs
  accounts : m.Accounts
  capacity : m.capacity = capacity

/-- One entry is copied into the first empty slot of its probe sequence. -/
theorem growPlace_holds {e : Entry} {capacity remaining : Nat} {objs : Set Entry}
    {update filled : Map} (hst : update.Holds cfg capacity objs) (proper : e.Proper cfg)
    (absent : update.Absent cfg e) (fits : update.Fits cfg e)
    (hrem : remaining ≤ update.probeSlots cfg)
    (hopen : update.Open cfg (cfg.hashOf e) (update.probeSlots cfg - remaining))
    (h : growPlace cfg (cfg.hashOf e) e remaining update = some filled) :
    filled.Holds cfg capacity (assigned cfg objs e) := by
  induction remaining with
  | zero => cases h
  | succ remaining ih =>
    rw [growPlace] at h
    set n := update.probeSlots cfg - (remaining + 1) with hn
    dsimp only at h
    split at h
    · rename_i hempty
      have hvac : update.Vacancy cfg e n := ⟨by omega, hopen, proper, absent, fits⟩
      have hc := change_set_empty hst.valid hvac hempty
      -- in private memory the entry is written at once
      have heq : filled = update.applyAll (update.countedStores cfg (update.spot cfg e n) e ++
          update.boundSet (cfg.hashOf e) (n + 1)) := by
        rw [← Option.some.inj h, applyAll_append, applyAll_counted hst.valid proper.packed]
        rfl
      rw [heq, ← hst.objects]
      exact ⟨hc.path.valid hst.valid, hc.objects, hc.accounts hst.accounts,
        hc.capacity.trans hst.capacity⟩
    · rename_i hempty
      refine ih (by omega) ?_ h
      intro k hk
      by_cases hkn : k < n
      · exact hopen k hkn
      · have : k = n := by omega
        rw [this]
        exact hempty

/-- The associations in the first `k` slots. -/
def objectsBelow (m : Map) (k : Nat) : Set Entry :=
  {e | e.live = true ∧ ∃ s < k, m.entries s = e}

theorem growCopy_holds {m : Map} (hv : m.Valid cfg .idle) {capacity k : Nat}
    {update filled : Map} (hst : update.Holds cfg capacity (m.objectsBelow k))
    (h : m.growCopy cfg update k = some filled) :
    filled.Holds cfg capacity (m.objectsBelow (k + 1)) := by
  unfold growCopy at h
  split at h
  · rename_i hk
    -- earlier slots hold other keys
    have hother : ∀ u ∈ m.objectsBelow k, cfg.ident u ≠ cfg.ident (m.entries k) := by
      rintro u ⟨hl, s, hs, rfl⟩ hid
      have := hv.unique s k hl hk nofun nofun hid
      omega
    have hmem : ∀ s, (update.entries s).live = true → update.entries s ∈ m.objectsBelow k := by
      intro s hs
      rw [← hst.objects]
      exact ⟨hs, s, rfl⟩
    have hfits : update.Fits cfg (m.entries k) := by
      intro s hs
      obtain ⟨hl, i, -, hi⟩ := hmem s hs
      rw [← hi] at hl ⊢
      exact hv.unaliased k i hk hl
    rw [show cfg.entryHash (m.entries k) = cfg.hashOf (m.entries k) from hv.sound k hk] at h
    have hfin := growPlace_holds hst (hv.proper hk) (fun s hs => hother _ (hmem s hs)) hfits
      le_rfl (by
        intro j hj
        rw [Nat.sub_self] at hj
        exact absurd hj (Nat.not_lt_zero j)) h
    have hobjs : assigned cfg (m.objectsBelow k) (m.entries k) = m.objectsBelow (k + 1) := by
      ext u
      constructor
      · rintro (rfl | ⟨⟨hl, s, hs, rfl⟩, -⟩)
        · exact ⟨hk, k, Nat.lt_succ_self k, rfl⟩
        · exact ⟨hl, s, by omega, rfl⟩
      · rintro ⟨hl, s, hs, rfl⟩
        rcases Nat.lt_succ_iff_lt_or_eq.mp hs with hlt | rfl
        · exact .inr ⟨⟨hl, s, hlt, rfl⟩, hother _ ⟨hl, s, hlt, rfl⟩⟩
        · exact .inl rfl
    rw [← hobjs]
    exact hfin
  · rename_i hk
    have hskip : m.objectsBelow (k + 1) = m.objectsBelow k := by
      ext u
      constructor
      · rintro ⟨hl, s, hs, rfl⟩
        rcases Nat.lt_succ_iff_lt_or_eq.mp hs with hlt | rfl
        · exact ⟨hl, s, hlt, rfl⟩
        · exact absurd hl hk
      · rintro ⟨hl, s, hs, rfl⟩
        exact ⟨hl, s, by omega, rfl⟩
    rw [hskip, ← Option.some.inj h]
    exact hst

/-- The copy loop. -/
theorem growCopies_holds {m : Map} (hv : m.Valid cfg .idle) {capacity : Nat}
    {update filled : Map} (hst : update.Holds cfg capacity ∅) {n : Nat}
    (h : (List.range n).foldlM (m.growCopy cfg) update = some filled) :
    filled.Holds cfg capacity (m.objectsBelow n) := by
  induction n generalizing filled with
  | zero =>
    have hzero : m.objectsBelow 0 = ∅ := by
      ext u
      constructor
      · rintro ⟨-, s, hs, -⟩
        exact absurd hs (Nat.not_lt_zero s)
      · exact False.elim
    rw [hzero, ← Option.some.inj h]
    exact hst
  | succ n ih =>
    rw [List.range_succ, List.foldlM_append] at h
    obtain ⟨mid, hmid, hlast⟩ := Option.bind_eq_some_iff.mp h
    refine growCopy_holds hv (ih hmid) ?_
    simpa using hlast

theorem Valid.objectsBelow_capacity {ph : Phase} {m : Map} (hv : m.Valid cfg ph) :
    m.objectsBelow m.capacity = m.objects := by
  ext u
  constructor
  · rintro ⟨hl, s, -, hs⟩
    exact ⟨hl, s, hs⟩
  · rintro ⟨hl, s, rfl⟩
    exact ⟨hl, s, hv.live_lt hl, rfl⟩

end Copy

end Map

/-! ## How a call changes the state -/

/-- The state after some allocations and some allowed stores. -/
structure Evolves (cfg : Config) (k : Kind) (ht ht' : State) : Prop where
  wrote : ∃ sts, ht'.stores = ht.stores ++ sts ∧ ht'.map = ht.map.applyAll sts ∧
    Map.Path cfg ht.map .idle sts .idle k
  allocs : ht.allocs ≤ ht'.allocs
  peak : ht.peak ≤ ht'.peak
  capacity : ht.map.capacity ≤ ht.peak → ht'.map.capacity ≤ ht'.peak

/-- An allocation between the two states failed. -/
def Failed (cfg : Config) (ht ht' : State) : Prop :=
  ∃ n, ht.allocs ≤ n ∧ n < ht'.allocs ∧ cfg.malloc n = false

section Evolves

variable {cfg : Config} {k k' : Kind} {ht ht' ht'' : State}

theorem Evolves.of_map_eq (hmap : ht'.map = ht.map) (hst : ht'.stores = ht.stores)
    (ha : ht.allocs ≤ ht'.allocs) (hp : ht.peak ≤ ht'.peak) : Evolves cfg .quiet ht ht' where
  wrote := ⟨[], by rw [hst, List.append_nil], hmap, .nil _ _⟩
  allocs := ha
  peak := hp
  capacity h := by
    rw [hmap]
    omega

theorem Evolves.refl (ht : State) : Evolves cfg .quiet ht ht := .of_map_eq rfl rfl le_rfl le_rfl

theorem Evolves.trans (h : Evolves cfg k ht ht') (h' : Evolves cfg k' ht' ht'') :
    Evolves cfg (k.join k') ht ht'' where
  wrote := by
    obtain ⟨xs, hx, hmx, hpx⟩ := h.wrote
    obtain ⟨ys, hy, hmy, hpy⟩ := h'.wrote
    refine ⟨xs ++ ys, by rw [hy, hx, List.append_assoc], ?_, hpx.append (hmx ▸ hpy)⟩
    rw [hmy, hmx, applyAll_append]
  allocs := h.allocs.trans h'.allocs
  peak := h.peak.trans h'.peak
  capacity hc := h'.capacity (h.capacity hc)

/-- Quiet stores after a call do not change its kind. -/
theorem Evolves.trans_quiet (h : Evolves cfg k ht ht') (h' : Evolves cfg .quiet ht' ht'') :
    Evolves cfg k ht ht'' := by
  have := h.trans h'
  rwa [Kind.join_quiet] at this

theorem Evolves.exec {sts : List Store} (hp : Map.Path cfg ht.map .idle sts .idle k)
    (hc : (ht.map.applyAll sts).capacity ≤ max ht.map.capacity ht.peak) :
    Evolves cfg k ht (ht.exec sts) where
  wrote := ⟨sts, rfl, rfl, hp⟩
  allocs := le_rfl
  peak := le_rfl
  capacity h := by
    show (ht.map.applyAll sts).capacity ≤ ht.peak
    omega

theorem Evolves.valid (h : Evolves cfg k ht ht') (hv : ht.map.Valid cfg .idle) :
    ht'.map.Valid cfg .idle := by
  obtain ⟨sts, -, hm, hp⟩ := h.wrote
  rw [hm]
  exact hp.valid hv

theorem Failed.mono_left (hf : Failed cfg ht' ht'') (h : Evolves cfg k ht ht') :
    Failed cfg ht ht'' := by
  obtain ⟨n, hn, hn', hm⟩ := hf
  exact ⟨n, h.allocs.trans hn, hn', hm⟩

end Evolves

/-! ## `ck_ht_grow_spmc` -/

namespace State

section Grow

variable {cfg : Config} {ht : State}

/-- A call that leaves the associations as they were. -/
structure Keeps (cfg : Config) (ht ht' : State) : Prop where
  evolves : Evolves cfg .quiet ht ht'
  objects : ht'.map.objects = ht.map.objects
  accounts : ht.map.Accounts → ht'.map.Accounts

theorem Keeps.refl (ht : State) : Keeps cfg ht ht := ⟨.refl _, rfl, id⟩

theorem Keeps.trans {ht' ht'' : State} (h : Keeps cfg ht ht') (h' : Keeps cfg ht' ht'') :
    Keeps cfg ht ht'' :=
  ⟨h.evolves.trans h'.evolves, h'.objects.trans h.objects, fun ha => h'.accounts (h.accounts ha)⟩

/-- What `ck_ht_grow_spmc` with the given capacity does, whatever it returns. -/
structure Grown (cfg : Config) (ht : State) (capacity : Nat) (ok : Bool) (ht' : State) :
    Prop extends Keeps cfg ht ht' where
  lt : ok = true → ht.map.capacity < capacity
  capacity_le : ok = true → capacity ≤ ht'.map.capacity ∨ 2 ^ 31 ≤ ht'.peak
  failed : ok = false →
    Failed cfg ht ht' ∨ capacity ≤ ht.map.capacity ∨ 2 ^ 31 ≤ ht'.peak

/-- The state after an allocation. -/
theorem create_keeps (ht : State) (capacity : Nat) : Keeps cfg ht (ht.create cfg capacity).2 :=
  ⟨.of_map_eq rfl rfl (Nat.le_succ _) (le_max_left _ _), rfl, id⟩

theorem growLoop_grown {fuel capacity : Nat} (hv : ht.map.Valid cfg .idle)
    (hfuel : 2 ^ 31 ≤ ht.peak ∨ (0 < fuel ∧ (0 < capacity → 2 ^ 31 ≤ capacity * 2 ^ (fuel - 1)))) :
    Grown cfg ht capacity (growLoop cfg fuel capacity ht).1 (growLoop cfg fuel capacity ht).2 := by
  induction fuel generalizing capacity ht with
  | zero =>
    refine ⟨.refl _, nofun, nofun, fun _ => .inr (.inr ?_)⟩
    rcases hfuel with h | h
    · exact h
    · exact absurd h.1 (Nat.lt_irrefl 0)
  | succ fuel ih =>
    rw [growLoop]
    split
    · rename_i hle
      exact ⟨.refl _, nofun, nofun, fun _ => .inr (.inl hle)⟩
    · rename_i hgt
      have hkeep : Keeps cfg ht (ht.create cfg capacity).2 := create_keeps ht capacity
      have hpeak : capacity ≤ (ht.create cfg capacity).2.peak ∧
          slotsFor cfg.bucketLength capacity ≤ (ht.create cfg capacity).2.peak := by
        constructor
        · exact le_trans (le_max_left _ _) (le_max_right _ _)
        · exact le_trans (le_max_right _ _) (le_max_right _ _)
      have hmap : (ht.create cfg capacity).2.map = ht.map := rfl
      cases hm : cfg.malloc ht.allocs with
      | false =>
        have hcr : ht.create cfg capacity = (none, (ht.create cfg capacity).2) := by
          simp [create, hm]
        rw [hcr]
        refine ⟨hkeep, nofun, nofun, fun _ => .inl ?_⟩
        exact ⟨ht.allocs, le_rfl, Nat.lt_succ_self _, hm⟩
      | true =>
        have hcr : ht.create cfg capacity =
            (some (Map.create cfg capacity), (ht.create cfg capacity).2) := by
          simp [create, hm]
        rw [hcr]
        dsimp only
        revert hkeep hpeak hmap
        generalize (ht.create cfg capacity).2 = ht₁
        intro hkeep hpeak hmap
        split
        · -- all entries fit
          rename_i filled hfold
          have hst := Map.growCopies_holds hv
            ⟨Map.create_valid cfg capacity, Map.create_objects cfg capacity,
              Map.create_accounts cfg capacity, rfl⟩ hfold
          rw [hv.objectsBelow_capacity] at hst
          have hcap : filled.capacity = slotsFor cfg.bucketLength capacity := hst.capacity
          have hpub : ht₁.map.Allowed cfg .idle (.map filled) .idle .quiet :=
            .publish hst.valid (by rw [hmap]; exact hst.objects)
          refine ⟨⟨hkeep.evolves.trans (.exec (.one hpub) ?_), hst.objects,
            fun _ => hst.accounts⟩, fun _ => by omega, fun _ => ?_, nofun⟩
          · show filled.capacity ≤ _
            omega
          · show capacity ≤ filled.capacity ∨ _
            by_cases hbig : capacity < 2 ^ 31
            · exact .inl (hcap ▸ le_slotsFor hbig.le)
            · exact .inr (le_trans (by omega) hpeak.1)
        · -- an entry found no slot: try twice the capacity
          have hpos := hv.pos
          have hdouble : capacity < 2 ^ 31 → capacity * 2 % 2 ^ 64 = capacity * 2 := by omega
          have hg := @ih ht₁ (capacity * 2 % 2 ^ 64) (hmap ▸ hv) (by
            rcases hfuel with hf | ⟨-, hf⟩
            · exact .inl (le_trans hf hkeep.evolves.peak)
            · by_cases hbig : capacity < 2 ^ 31
              · have hf' := hf (by omega)
                rw [Nat.add_sub_cancel] at hf'
                cases fuel with
                | zero => omega
                | succ fuel =>
                  refine .inr ⟨Nat.succ_pos _, fun _ => ?_⟩
                  rw [hdouble hbig, Nat.add_sub_cancel, Nat.mul_assoc, ← Nat.pow_succ']
                  exact hf'
              · exact .inl (by omega))
          have hp' := hg.evolves.peak
          refine ⟨hkeep.trans hg.toKeeps, fun _ => by omega, fun hok => ?_, fun hok => ?_⟩
          · rcases hg.capacity_le hok with h | h
            · by_cases hbig : capacity < 2 ^ 31
              · have := hdouble hbig
                exact .inl (by omega)
              · exact .inr (by omega)
            · exact .inr h
          · rcases hg.failed hok with h | h | h
            · exact .inl (h.mono_left hkeep.evolves)
            · rw [hmap] at h
              by_cases hbig : capacity < 2 ^ 31
              · rw [hdouble hbig] at h
                exact absurd h (by omega)
              · exact .inr (.inr (by omega))
            · exact .inr (.inr h)

theorem grow_grown (hv : ht.map.Valid cfg .idle) (capacity : Nat) :
    Grown cfg ht capacity (ht.grow cfg capacity).1 (ht.grow cfg capacity).2 := by
  refine growLoop_grown hv (.inr ⟨by omega, fun hpos => ?_⟩)
  show 2 ^ 31 ≤ capacity * 2 ^ 64
  omega

/-- Enforcing the load factor keeps the associations. -/
theorem enforceLoad_keeps (hv : ht.map.Valid cfg .idle) : Keeps cfg ht (ht.enforceLoad cfg) := by
  unfold enforceLoad
  split
  · exact (grow_grown hv _).toKeeps
  · exact .refl _

/-! ## The probe loop of the writer -/

/-- What the loop hands to the operation. -/
structure Probing (cfg : Config) (ht : State) (x : Entry) (r : Option ProbeResult)
    (ht' : State) : Prop extends Keeps cfg ht ht' where
  walked : ∀ p, r = some p → ht'.map.Walked cfg (cfg.hashOf x) x typeMax p ∧
    ¬ (p.cursor = none ∧ p.available = none)
  failed : r = none → Failed cfg ht ht' ∨ 2 ^ 31 ≤ ht'.peak
  /-- A key that is there is found without a change. -/
  same : ¬ (ht.map.probeWr cfg (cfg.hashOf x) x typeMax).cursor = none → ht' = ht

theorem findSlot_probing {x : Entry} {fuel : Nat} (hv : ht.map.Valid cfg .idle)
    (hcap : ht.map.capacity ≤ ht.peak) :
    match ht.findSlot cfg (cfg.hashOf x) x fuel with
    | .ok (r, ht') => Probing cfg ht x r ht'
    | .error ht' => Keeps cfg ht ht' ∧
        (ht.map.capacity * 2 ^ fuel ≤ ht'.peak ∨ 2 ^ 31 ≤ ht'.peak) := by
  induction fuel generalizing ht with
  | zero => exact ⟨.refl _, .inl (by omega)⟩
  | succ fuel ih =>
    rw [findSlot]
    have hg := grow_grown hv (ht.map.capacity * 2)
    set r := ht.map.probeWr cfg (cfg.hashOf x) x typeMax with hr
    have hpos := hv.pos
    by_cases hslot : r.cursor = none ∧ r.available = none
    · rw [if_pos hslot]
      revert hg
      generalize ht.grow cfg (ht.map.capacity * 2) = g
      obtain ⟨ok, ht₁⟩ := g
      intro hg
      cases ok with
      | false =>
        refine ⟨hg.toKeeps, nofun, fun _ => ?_, fun h => absurd hslot.1 h⟩
        rcases hg.failed rfl with h | h | h
        · exact .inl h
        · exact absurd h (by omega)
        · exact .inr h
      | true =>
        have hv₁ := hg.evolves.valid hv
        have hrec := @ih ht₁ hv₁ (hg.evolves.capacity hcap)
        dsimp only
        revert hrec
        cases ht₁.findSlot cfg (cfg.hashOf x) x fuel with
        | ok res =>
          intro hrec
          refine ⟨hg.toKeeps.trans hrec.toKeeps, hrec.walked, fun hr => ?_,
            fun h => absurd hslot.1 h⟩
          rcases hrec.failed hr with h | h
          · exact .inl (h.mono_left hg.evolves)
          · exact .inr h
        | error ht' =>
          rintro ⟨hkeep, hpeak⟩
          refine ⟨hg.toKeeps.trans hkeep, ?_⟩
          rcases hg.capacity_le rfl with h | h
          · rcases hpeak with hp | hp
            · left
              calc ht.map.capacity * 2 ^ (fuel + 1) = ht.map.capacity * 2 * 2 ^ fuel := by ring
                _ ≤ ht₁.map.capacity * 2 ^ fuel := Nat.mul_le_mul_right _ h
                _ ≤ ht'.peak := hp
            · exact .inr hp
          · exact .inr (le_trans h hkeep.evolves.peak)
    · rw [if_neg hslot]
      refine ⟨.refl _, fun p hp => ?_, nofun, fun _ => rfl⟩
      cases hp
      exact ⟨Map.probeWr_walked cfg ht.map (cfg.hashOf x) x typeMax, hslot⟩

end Grow

end State

end ConcurrencyKit.Ht
