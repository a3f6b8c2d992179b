import ConcurrencyKit.Ht.Gc
import Mathlib.Data.Finmap

/-!
# `ck_ht` is a finite map

Every sequence of calls from `ck_ht_init` returns what a finite map returns, and leaves the live
slots equal to that map. In direct mode the map is keyed by machine words. In byte-string mode it
is keyed by strings, as long as no call names a string that starts where a stored one does and
has another length: the probe functions take equal pointers for equal keys.

The exceptions are part of the statement: a call that reports failure because an allocation
failed leaves the map as it was, and `ck_ht_grow_spmc` refuses a capacity that is not larger than
the present one.
-/

namespace ConcurrencyKit.Ht

/-! ## The map a table represents -/

section Represents

variable {K : Type} [DecidableEq K]

/-- The live slots are the associations, no key is in two slots, and `ck_ht_count` is the number
of keys. -/
structure Represents (key : Entry → K) (ht : State) (F : Finmap fun _ : K => Entry) : Prop where
  lookup : ∀ k e, F.lookup k = some e ↔ key e = k ∧ e.live = true ∧ ∃ s, ht.map.entries s = e
  once : ∀ s s', (ht.map.entries s).live = true → (ht.map.entries s').live = true →
    key (ht.map.entries s) = key (ht.map.entries s') → s = s'
  count : ht.count = F.keys.card

/-- The key by which the abstract map is indexed is what names an entry. -/
def Names (cfg : Config) (key : Entry → K) : Prop :=
  ∀ a b, key a = key b ↔ cfg.ident a = cfg.ident b

/-- The invariant between calls. -/
structure State.Ok (cfg : Config) (ht : State) : Prop where
  valid : ht.map.Valid cfg .idle
  accounts : ht.map.Accounts
  capacity : ht.map.capacity ≤ ht.peak

variable {cfg : Config} {key : Entry → K} {ht ht' : State} {F : Finmap fun _ : K => Entry}

theorem Represents.of_objects (hkey : Names cfg key) (hv : ht.map.Valid cfg .idle)
    (ha : ht.map.Accounts)
    (h : ∀ k e, F.lookup k = some e ↔ key e = k ∧ e ∈ ht.map.objects) :
    Represents key ht F where
  lookup := h
  once s s' hs hs' hid := hv.unique s s' hs hs' nofun nofun ((hkey _ _).mp hid)
  count := by
    have hkeys : F.keys = ((Finset.range ht.map.capacity).filter fun s =>
        (ht.map.entries s).live = true).image fun s => key (ht.map.entries s) := by
      ext k
      rw [Finmap.mem_keys, Finmap.mem_iff, Finset.mem_image]
      constructor
      · rintro ⟨e, he⟩
        obtain ⟨hk, hl, s, rfl⟩ := (h k e).mp he
        refine ⟨s, Finset.mem_filter.mpr ⟨Finset.mem_range.mpr (hv.live_lt hl), hl⟩, hk⟩
      · rintro ⟨s, hs, hk⟩
        obtain ⟨-, hl⟩ := Finset.mem_filter.mp hs
        exact ⟨_, (h k _).mpr ⟨hk, hl, s, rfl⟩⟩
    rw [hkeys, Finset.card_image_of_injOn, State.count, ha, tally]
    intro s hs s' hs' hid
    obtain ⟨-, hl⟩ := Finset.mem_filter.mp hs
    obtain ⟨-, hl'⟩ := Finset.mem_filter.mp hs'
    exact hv.unique s s' hl hl' nofun nofun ((hkey _ _).mp hid)

theorem Represents.lookup_eq_some (hr : Represents key ht F) (hkey : Names cfg key) {s : Nat}
    {x : Entry} (hs : (ht.map.entries s).live = true)
    (hid : cfg.ident (ht.map.entries s) = cfg.ident x) :
    F.lookup (key x) = some (ht.map.entries s) :=
  (hr.lookup _ _).mpr ⟨(hkey _ _).mpr hid, hs, s, rfl⟩

theorem Represents.lookup_eq_none (hr : Represents key ht F) (hkey : Names cfg key) {x : Entry}
    (ha : ht.map.Absent cfg x) : F.lookup (key x) = none := by
  cases hl : F.lookup (key x) with
  | none => rfl
  | some e =>
    obtain ⟨hk, hlive, s, rfl⟩ := (hr.lookup _ _).mp hl
    exact absurd ((hkey _ _).mp hk) (ha s hlive)

theorem Represents.congr (hr : Represents key ht F) (hkey : Names cfg key)
    (hv : ht'.map.Valid cfg .idle) (ha : ht'.map.Accounts)
    (ho : ht'.map.objects = ht.map.objects) : Represents key ht' F := by
  refine .of_objects hkey hv ha fun k e => ?_
  rw [ho]
  exact hr.lookup k e

theorem Represents.insert (hr : Represents key ht F) (hkey : Names cfg key)
    (hv : ht'.map.Valid cfg .idle) (ha : ht'.map.Accounts) {e : Entry} (live : e.live = true)
    (ho : ht'.map.objects = Map.assigned cfg ht.map.objects e) :
    Represents key ht' (F.insert (key e) e) := by
  refine .of_objects hkey hv ha fun k w => ?_
  rw [ho]
  by_cases hk : k = key e
  · rw [hk, Finmap.lookup_insert, Option.some.injEq]
    constructor
    · rintro rfl
      exact ⟨rfl, .inl rfl⟩
    · rintro ⟨hw, rfl | ⟨-, hne⟩⟩
      · rfl
      · exact absurd ((hkey _ _).mp hw) hne
  · rw [Finmap.lookup_insert_of_ne _ hk, hr.lookup]
    constructor
    · rintro ⟨rfl, hmem⟩
      exact ⟨rfl, .inr ⟨hmem, fun hid => hk ((hkey _ _).mpr hid)⟩⟩
    · rintro ⟨rfl, rfl | ⟨hmem, -⟩⟩
      · exact absurd rfl hk
      · exact ⟨rfl, hmem⟩

theorem Represents.erase (hr : Represents key ht F) (hkey : Names cfg key)
    (hv : ht'.map.Valid cfg .idle) (ha : ht'.map.Accounts) {x : Entry}
    (ho : ht'.map.objects = Map.erased cfg ht.map.objects x) :
    Represents key ht' (F.erase (key x)) := by
  refine .of_objects hkey hv ha fun k w => ?_
  rw [ho]
  by_cases hk : k = key x
  · rw [hk, Finmap.lookup_erase]
    constructor
    · exact nofun
    · rintro ⟨hw, -, hne⟩
      exact absurd ((hkey _ _).mp hw) hne
  · rw [Finmap.lookup_erase_ne hk, hr.lookup]
    constructor
    · rintro ⟨rfl, hmem⟩
      exact ⟨rfl, hmem, fun hid => hk ((hkey _ _).mpr hid)⟩
    · rintro ⟨rfl, hmem, -⟩
      exact ⟨rfl, hmem⟩

theorem Represents.empty (hkey : Names cfg key) (hv : ht.map.Valid cfg .idle)
    (ha : ht.map.Accounts) (ho : ht.map.objects = ∅) :
    Represents key ht (∅ : Finmap fun _ : K => Entry) := by
  refine .of_objects hkey hv ha fun k e => ?_
  rw [ho, Finmap.lookup_empty]
  constructor
  · exact nofun
  · rintro ⟨-, h⟩
    exact h.elim

/-- Every valid table represents some map. -/
theorem Represents.exists (hkey : Names cfg key) (hv : ht.map.Valid cfg .idle)
    (ha : ht.map.Accounts) : ∃ F : Finmap fun _ : K => Entry, Represents key ht F := by
  -- insert the live slots one after the other
  have hfill : ∀ n, ∃ F : Finmap fun _ : K => Entry,
      ∀ k e, F.lookup k = some e ↔ key e = k ∧ e ∈ ht.map.objectsBelow n := by
    intro n
    induction n with
    | zero =>
      refine ⟨∅, fun k e => ?_⟩
      rw [Finmap.lookup_empty]
      constructor
      · exact nofun
      · rintro ⟨-, -, s, hs, -⟩
        exact absurd hs (Nat.not_lt_zero s)
    | succ n ih =>
      obtain ⟨F, hF⟩ := ih
      by_cases hl : (ht.map.entries n).live = true
      · refine ⟨F.insert (key (ht.map.entries n)) (ht.map.entries n), fun k e => ?_⟩
        by_cases hk : k = key (ht.map.entries n)
        · rw [hk, Finmap.lookup_insert, Option.some.injEq]
          constructor
          · rintro rfl
            exact ⟨rfl, hl, n, Nat.lt_succ_self n, rfl⟩
          · rintro ⟨hid, hl', s, -, rfl⟩
            rw [hv.unique s n hl' hl nofun nofun ((hkey _ _).mp hid)]
        · rw [Finmap.lookup_insert_of_ne _ hk, hF]
          constructor
          · rintro ⟨hid, hl', s, hs, rfl⟩
            exact ⟨hid, hl', s, by omega, rfl⟩
          · rintro ⟨hid, hl', s, hs, rfl⟩
            rcases Nat.lt_succ_iff_lt_or_eq.mp hs with hlt | rfl
            · exact ⟨hid, hl', s, hlt, rfl⟩
            · exact absurd hid.symm hk
      · refine ⟨F, fun k e => ?_⟩
        rw [hF]
        constructor
        · rintro ⟨hid, hl', s, hs, rfl⟩
          exact ⟨hid, hl', s, by omega, rfl⟩
        · rintro ⟨hid, hl', s, hs, rfl⟩
          rcases Nat.lt_succ_iff_lt_or_eq.mp hs with hlt | rfl
          · exact ⟨hid, hl', s, hlt, rfl⟩
          · exact absurd hl' hl
  obtain ⟨F, hF⟩ := hfill ht.map.capacity
  rw [hv.objectsBelow_capacity] at hF
  exact ⟨F, .of_objects hkey hv ha hF⟩

end Represents

/-! ## The abstract map -/

section Spec

variable {K : Type} [DecidableEq K]

/-- What a call does to, and returns from, a finite map. `capacity` is that of the present
map of slots: `ck_ht_grow_spmc` refuses one that is not larger. -/
def abstractStep (cfg : Config) (key : Entry → K) (capacity : Nat)
    (F : Finmap fun _ : K => Entry) : Op → Result × Finmap fun _ : K => Entry
  | .put r =>
    match F.lookup (key (cfg.entryOf r)) with
    | some _ => (⟨false, none⟩, F)
    | none => (⟨true, none⟩, F.insert (key (cfg.entryOf r)) (cfg.entryOf r))
  | .set r =>
    (⟨true, F.lookup (key (cfg.entryOf r))⟩, F.insert (key (cfg.entryOf r)) (cfg.entryOf r))
  | .get r =>
    (⟨(F.lookup (key (cfg.entryOf r))).isSome, F.lookup (key (cfg.entryOf r))⟩, F)
  | .remove r =>
    (⟨(F.lookup (key (cfg.entryOf r))).isSome, F.lookup (key (cfg.entryOf r))⟩,
      F.erase (key (cfg.entryOf r)))
  | .gc _ _ => (⟨true, none⟩, F)
  | .grow requested => (⟨decide (capacity < requested), none⟩, F)
  | .reset => (⟨true, none⟩, ∅)

/-- The key of a call is neither `CK_HT_KEY_EMPTY` nor `CK_HT_KEY_TOMBSTONE`. -/
def Request.Valid (r : Request) : Prop := r.key ≠ keyEmpty ∧ r.key ≠ keyTombstone

/-- What a call passes. -/
def Op.request : Op → Option Request
  | .put r | .set r | .get r | .remove r => some r
  | _ => none

/-- The contract of a call: its key is valid, and in byte-string mode no stored key has its
pointer and another length. -/
def Op.Proper (cfg : Config) (m : Map) (op : Op) : Prop :=
  ∀ r, op.request = some r → r.Valid ∧ m.Fits cfg (cfg.entryOf r)

/-- Every call of a run from `ht` is proper. -/
def ProperRun (cfg : Config) : State → List Op → Prop
  | _, [] => True
  | ht, op :: ops => op.Proper cfg ht.map ∧
      ∀ r ht', step cfg ht op = .ok (r, ht') → ProperRun cfg ht' ops

/-- A call behaves like the map, or fails with an allocation and changes nothing. -/
def Agrees (cfg : Config) (key : Entry → K) (ht : State) (F : Finmap fun _ : K => Entry) (op : Op)
    (r : Result) (ht' : State) (F' : Finmap fun _ : K => Entry) : Prop :=
  (r, F') = abstractStep cfg key ht.map.capacity F op ∨
    (r.ok = false ∧ r.entry = none ∧ Failed cfg ht ht' ∧ F' = F)

/-- A run whose every call agrees with the map and leaves the table representing it. -/
inductive Refined (cfg : Config) (key : Entry → K) :
    State → (Finmap fun _ : K => Entry) → List Op → List Result → State → Prop
  | nil {ht : State} {F : Finmap fun _ : K => Entry} (rep : Represents key ht F) :
      Refined cfg key ht F [] [] ht
  | cons {ht ht₁ ht' : State} {F F₁ : Finmap fun _ : K => Entry} {op : Op} {ops : List Op}
      {r : Result} {rs : List Result} (rep : Represents key ht F)
      (call : step cfg ht op = .ok (r, ht₁)) (agrees : Agrees cfg key ht F op r ht₁ F₁)
      (rest : Refined cfg key ht₁ F₁ ops rs ht') : Refined cfg key ht F (op :: ops) (r :: rs) ht'

/-- The calls that change an association by at most one store: all but `ck_ht_reset_spmc` and a
`ck_ht_set_spmc` that moves an entry or gives it another key or key length word. -/
def Op.Calm (cfg : Config) (m : Map) : Op → Prop
  | .set r => m.Settled cfg (cfg.entryOf r)
  | .reset => False
  | _ => True

end Spec

/-! ## One call -/

section Calls

variable {K : Type} [DecidableEq K] {cfg : Config} {key : Entry → K} {ht : State}
  {F : Finmap fun _ : K => Entry}

/-- What a call that returned has done. -/
structure Stepped (cfg : Config) (key : Entry → K) (ht : State) (F : Finmap fun _ : K => Entry)
    (op : Op) (r : Result) (ht' : State) : Prop where
  evolves : ∃ k, Evolves cfg k ht ht' ∧ (op.Calm cfg ht.map → k ≠ .rough)
  accounts : ht'.map.Accounts
  agrees : 2 ^ 31 ≤ ht'.peak ∨ ∃ F', Agrees cfg key ht F op r ht' F' ∧ Represents key ht' F'

/-- What a call that ran out of restarts has done. -/
structure Stuck (cfg : Config) (ht ht' : State) : Prop where
  evolves : Evolves cfg .quiet ht ht'
  accounts : ht'.map.Accounts
  peak : 30 ≤ cfg.restarts → 2 ^ 31 ≤ ht'.peak

theorem State.Ok.of_evolves {k : Kind} {ht' : State} (hok : ht.Ok cfg)
    (hev : Evolves cfg k ht ht') (ha : ht'.map.Accounts) : ht'.Ok cfg :=
  ⟨hev.valid hok.valid, ha, hev.capacity hok.capacity⟩

theorem entryOf_key (hcov : cfg.Covered) (r : Request) : (cfg.entryOf r).key = r.key := by
  unfold Config.entryOf
  cases hm : cfg.mode with
  | direct =>
    simp only [Config.entrySetDirect]
    split <;> rfl
  | bytestring => simp only [Config.entrySet, hcov hm]

/-- The entry of a call can be stored. -/
theorem entryOf_proper (hcov : cfg.Covered) {r : Request} (hr : r.Valid) :
    (cfg.entryOf r).Proper cfg := by
  have hkey := entryOf_key hcov r
  refine ⟨Map.live_of_ne (hkey ▸ hr.1) (hkey ▸ hr.2), ?_, ?_⟩
  · unfold Config.Sound Config.entryHash
    split
    · rename_i hpp
      unfold Config.hashOf Config.ident
      cases hm : cfg.mode with
      | direct => simp only [Config.entryOf, hm, Config.entrySetDirect, hpp]
      | bytestring =>
        simp only [Config.entryOf, hm, Config.entrySet, hpp, Config.entryKey,
          Config.entryKeyLength]
        simp
    · rfl
  · intro hpp
    obtain ⟨bits, hbits⟩ := Option.isSome_iff_exists.mp hpp
    cases hm : cfg.mode with
    | direct => simp only [Config.entryOf, hm, Config.entrySetDirect, hbits, and_self]
    | bytestring =>
      rw [hcov hm] at hpp
      cases hpp

theorem Map.Valid.two_le {m : Map} {ph : Phase} (hv : m.Valid cfg ph) : 2 ≤ m.capacity := by
  obtain ⟨k, hk, hcap⟩ := hv.shape
  have h1 : 1 ≤ k := by
    refine le_trans ?_ hk
    unfold Config.bucketShift
    split <;> decide
  rw [hcap]
  calc 2 = 2 ^ 1 := rfl
    _ ≤ 2 ^ k := Nat.pow_le_pow_right (by decide) h1

/-- The probe loop ends with a slot, with a failed allocation, or beyond the capacities. -/
theorem findSlot_cases (hok : ht.Ok cfg) (x : Entry) :
    (∃ r ht', ht.findSlot cfg (cfg.hashOf x) x cfg.restarts = .ok (r, ht') ∧
      State.Probing cfg ht x r ht') ∨
    ∃ ht', ht.findSlot cfg (cfg.hashOf x) x cfg.restarts = .error ht' ∧ Stuck cfg ht ht' := by
  have hf := @State.findSlot_probing cfg ht x cfg.restarts hok.valid hok.capacity
  revert hf
  cases ht.findSlot cfg (cfg.hashOf x) x cfg.restarts with
  | ok res => exact fun hp => .inl ⟨res.1, res.2, rfl, hp⟩
  | error ht' =>
    rintro ⟨hkeep, hpeak⟩
    refine .inr ⟨ht', rfl, hkeep.evolves, hkeep.accounts hok.accounts, fun h30 => ?_⟩
    rcases hpeak with hp | hp
    · have h2 := hok.valid.two_le
      have hpow : 2 ^ 30 ≤ 2 ^ cfg.restarts := Nat.pow_le_pow_right (by omega) h30
      calc 2 ^ 31 = 2 * 2 ^ 30 := by norm_num
        _ ≤ ht.map.capacity * 2 ^ cfg.restarts := Nat.mul_le_mul h2 hpow
        _ ≤ ht'.peak := hp
    · exact hp

/-- The map could not grow, so the call fails. -/
theorem Stepped.of_failed {op : Op} {r : Result} {ht' : State} {x : Entry} (hkey : Names cfg key)
    (hok : ht.Ok cfg) (rep : Represents key ht F) (hp : State.Probing cfg ht x none ht')
    (hr : r.ok = false) (he : r.entry = none) : Stepped cfg key ht F op r ht' := by
  have hacc := hp.accounts hok.accounts
  refine ⟨⟨_, hp.evolves, fun _ => nofun⟩, hacc, ?_⟩
  rcases hp.failed rfl with hf | hbig
  · exact .inr ⟨F, .inr ⟨hr, he, hf, rfl⟩,
      rep.congr hkey (hp.evolves.valid hok.valid) hacc hp.objects⟩
  · exact .inl hbig

/-- The state after a change and the load factor check. -/
theorem changed_evolves {ht₁ : State} {sts : List Store} {objs : Set Entry} {k : Kind}
    (hok : ht₁.Ok cfg) (hc : Map.Change cfg ht₁.map sts objs k) :
    Evolves cfg k ht₁ ((ht₁.exec sts).enforceLoad cfg) ∧
      ((ht₁.exec sts).enforceLoad cfg).map.Accounts ∧
      ((ht₁.exec sts).enforceLoad cfg).map.objects = objs := by
  have hev : Evolves cfg k ht₁ (ht₁.exec sts) :=
    .exec hc.path (hc.capacity.le.trans (le_max_left _ _))
  have hkeep := State.enforceLoad_keeps (hev.valid hok.valid)
  exact ⟨hev.trans_quiet hkeep.evolves, hkeep.accounts (hc.accounts hok.accounts),
    hkeep.objects.trans hc.objects⟩

theorem fits_congr {m m' : Map} {x : Entry} (ho : m'.objects = m.objects) (hf : m.Fits cfg x) :
    m'.Fits cfg x := by
  intro s hs
  have hmem : m'.entries s ∈ m.objects := by
    rw [← ho]
    exact ⟨hs, s, rfl⟩
  obtain ⟨hl, i, hi⟩ := hmem
  rw [← hi] at hl ⊢
  exact hf i hl

/-- `ck_ht_put_spmc`. -/
theorem put_cases (hkey : Names cfg key) (hcov : cfg.Covered) (hok : ht.Ok cfg)
    (rep : Represents key ht F) {r : Request} (hr : r.Valid)
    (fits : ht.map.Fits cfg (cfg.entryOf r)) :
    (∃ ok ht', ht.put cfg (cfg.hashOf (cfg.entryOf r)) (cfg.entryOf r) = .ok (ok, ht') ∧
      Stepped cfg key ht F (.put r) ⟨ok, none⟩ ht') ∨
    ∃ ht', ht.put cfg (cfg.hashOf (cfg.entryOf r)) (cfg.entryOf r) = .error ht' ∧
      Stuck cfg ht ht' := by
  unfold State.put
  rcases findSlot_cases hok (cfg.entryOf r) with ⟨res, ht₁, hfs, hp⟩ | ⟨ht₁, hfs, hst⟩
  · left
    rw [hfs]
    have hok₁ := hok.of_evolves hp.evolves (hp.accounts hok.accounts)
    have rep₁ := rep.congr hkey hok₁.valid hok₁.accounts hp.objects
    have fits₁ := fits_congr hp.objects fits
    cases res with
    | none => exact ⟨_, _, rfl, .of_failed hkey hok rep hp rfl rfl⟩
    | some p =>
      obtain ⟨hw, hslot⟩ := hp.walked p rfl
      simp only [bind, Except.bind]
      by_cases hf : Map.Finds p
      · obtain ⟨s, -, -, hl, hid⟩ := hw.present hok₁.valid hcov fits₁ hf
        have hlk := rep₁.lookup_eq_some hkey hl hid
        refine ⟨false, ht₁, if_pos hf, ⟨_, hp.evolves, fun _ => nofun⟩,
          hok₁.accounts, .inr ⟨F, .inl ?_, rep₁⟩⟩
        simp only [abstractStep, hlk]
      · have habs := hw.absent hok₁.valid hcov fits₁ (.inl rfl) hf
        have hlk := rep₁.lookup_eq_none hkey habs
        have hproper := entryOf_proper hcov hr
        have hc := Map.change_put hok₁.valid hcov ⟨hproper, fits₁⟩ hw hf hslot
        obtain ⟨hev, hacc, hobj⟩ := changed_evolves hok₁ hc
        refine ⟨true, _, if_neg hf, ⟨_, hp.evolves.trans hev, fun _ => nofun⟩, hacc,
          .inr ⟨_, .inl ?_, rep₁.insert hkey (hev.valid hok₁.valid) hacc hproper.live hobj⟩⟩
        simp only [abstractStep, hlk]
  · exact .inr ⟨ht₁, by rw [hfs]; rfl, hst⟩

/-- A key that is settled stays so when the probe loop grows the map for it. -/
theorem State.Probing.settled {x : Entry} {res : Option ProbeResult} {ht₁ : State}
    (hp : State.Probing cfg ht x res ht₁) (hcov : cfg.Covered) (hv : ht.map.Valid cfg .idle)
    (hv₁ : ht₁.map.Valid cfg .idle) (fits : ht.map.Fits cfg x) (hs : ht.map.Settled cfg x) :
    ht₁.map.Settled cfg x := by
  by_cases hnone : (ht.map.probeWr cfg (cfg.hashOf x) x typeMax).cursor = none
  · have habs := (Map.probeWr_walked cfg ht.map (cfg.hashOf x) x typeMax).absent hv hcov fits
      (.inl rfl) fun hf => hf.1 hnone
    intro n _ hit
    have hl := Map.hit_live hit
    have hid := (hv₁.hit_iff hcov (fits_congr hp.objects fits) hl).mp hit
    have hmem : ht₁.map.word cfg (cfg.hashOf x) n ∈ ht.map.objects := by
      rw [← hp.objects]
      exact ⟨hl, _, rfl⟩
    obtain ⟨hl', i, hi⟩ := hmem
    rw [← hi] at hl'
    refine absurd ?_ (habs i hl')
    rw [hi]
    exact hid
  · rw [hp.same hnone]
    exact hs

/-- What `ck_ht_set_spmc` leaves in `*entry`. -/
theorem set_entry {ht₁ : State} {e : Entry} {p : ProbeResult} (hkey : Names cfg key)
    (hcov : cfg.Covered) (hv : ht₁.map.Valid cfg .idle) (rep₁ : Represents key ht₁ F)
    (fits₁ : ht₁.map.Fits cfg e) (hw : ht₁.map.Walked cfg (cfg.hashOf e) e typeMax p) :
    (if p.cursor = none then { e with key := keyEmpty } else p.snapshot).nonempty =
      F.lookup (key e) := by
  by_cases hf : Map.Finds p
  · obtain ⟨s, -, hsnap, hl, hid⟩ := hw.present hv hcov fits₁ hf
    rw [if_neg hf.1, Entry.nonempty, if_neg hf.2, hsnap, rep₁.lookup_eq_some hkey hl hid]
  · rw [rep₁.lookup_eq_none hkey (hw.absent hv hcov fits₁ (.inl rfl) hf), Entry.nonempty]
    split
    · exact if_pos rfl
    · rename_i hcur
      exact if_pos (not_not.mp fun hne => hf ⟨hcur, hne⟩)

/-- `ck_ht_set_spmc`. -/
theorem set_cases (hkey : Names cfg key) (hcov : cfg.Covered) (hok : ht.Ok cfg)
    (rep : Represents key ht F) {r : Request} (hr : r.Valid)
    (fits : ht.map.Fits cfg (cfg.entryOf r)) :
    (∃ ok entry ht', ht.set cfg (cfg.hashOf (cfg.entryOf r)) (cfg.entryOf r) =
        .ok ((ok, entry), ht') ∧
      Stepped cfg key ht F (.set r) ⟨ok, if ok then entry.nonempty else none⟩ ht') ∨
    ∃ ht', ht.set cfg (cfg.hashOf (cfg.entryOf r)) (cfg.entryOf r) = .error ht' ∧
      Stuck cfg ht ht' := by
  unfold State.set
  rcases findSlot_cases hok (cfg.entryOf r) with ⟨res, ht₁, hfs, hp⟩ | ⟨ht₁, hfs, hst⟩
  · left
    rw [hfs]
    have hok₁ := hok.of_evolves hp.evolves (hp.accounts hok.accounts)
    have rep₁ := rep.congr hkey hok₁.valid hok₁.accounts hp.objects
    have fits₁ := fits_congr hp.objects fits
    cases res with
    | none => exact ⟨_, _, _, rfl, .of_failed hkey hok rep hp rfl rfl⟩
    | some p =>
      obtain ⟨hw, hslot⟩ := hp.walked p rfl
      have hproper := entryOf_proper hcov hr
      obtain ⟨k, hc, hkind⟩ := Map.change_set hok₁.valid hcov ⟨hproper, fits₁⟩ hw hslot
      obtain ⟨hev, hacc, hobj⟩ := changed_evolves hok₁ hc
      refine ⟨true, _, _, rfl, ⟨_, hp.evolves.trans hev, fun hs => ?_⟩, hacc,
        .inr ⟨_, .inl ?_, rep₁.insert hkey (hev.valid hok₁.valid) hacc hproper.live hobj⟩⟩
      · rw [hkind (hp.settled hcov hok.valid hok₁.valid fits hs)]
        exact nofun
      · rw [abstractStep, if_pos rfl, set_entry hkey hcov hok₁.valid rep₁ fits₁ hw]
  · exact .inr ⟨ht₁, by rw [hfs]; rfl, hst⟩

/-- A lookup finds the association of the key, or none. -/
theorem probeRd_cases (hcov : cfg.Covered) (hv : ht.map.Valid cfg .idle) {x : Entry}
    (fits : ht.map.Fits cfg x) :
    (∃ s, ht.map.probeRd cfg (cfg.hashOf x) x = some (s, ht.map.entries s) ∧
      (ht.map.entries s).live = true ∧ cfg.ident (ht.map.entries s) = cfg.ident x) ∨
    (ht.map.Absent cfg x ∧ ∀ s e, ht.map.probeRd cfg (cfg.hashOf x) x = some (s, e) →
      e.key = keyEmpty) := by
  have hw := Map.probeWr_walked cfg ht.map (cfg.hashOf x) x (ht.map.boundGet (cfg.hashOf x))
  rw [Map.probeRd_eq]
  by_cases hf : Map.Finds (ht.map.probeWr cfg (cfg.hashOf x) x (ht.map.boundGet (cfg.hashOf x)))
  · obtain ⟨s, hc, -, hl, hid⟩ := hw.present hv hcov fits hf
    exact .inl ⟨s, by rw [hc]; rfl, hl, hid⟩
  · refine .inr ⟨hw.absent hv hcov fits (.inr rfl) hf, fun s e he => ?_⟩
    obtain ⟨c, hc, hce⟩ := Option.map_eq_some_iff.mp he
    cases hce
    rw [← hw.snapshot_eq hc]
    by_contra hne
    exact hf ⟨by rw [hc]; exact nofun, hne⟩

/-- `ck_ht_get_spmc`. -/
theorem get_eq (hkey : Names cfg key) (hcov : cfg.Covered) (hv : ht.map.Valid cfg .idle)
    (rep : Represents key ht F) {x : Entry} (fits : ht.map.Fits cfg x) :
    ht.get cfg (cfg.hashOf x) x = F.lookup (key x) := by
  unfold State.get
  rcases probeRd_cases hcov hv fits with ⟨s, hs, hl, hid⟩ | ⟨habs, hempty⟩
  · rw [hs, rep.lookup_eq_some hkey hl hid]
    exact if_neg (Map.ne_of_live hl).1
  · rw [rep.lookup_eq_none hkey habs]
    cases hrd : ht.map.probeRd cfg (cfg.hashOf x) x with
    | none => rfl
    | some p => exact if_pos (hempty p.1 p.2 hrd)

theorem erase_of_lookup_none {k : K} (h : F.lookup k = none) : F.erase k = F := by
  apply Finmap.ext_lookup
  intro x
  by_cases hx : x = k
  · rw [hx, Finmap.lookup_erase, h]
  · exact Finmap.lookup_erase_ne hx

/-- `ck_ht_remove_spmc`. -/
theorem remove_stepped (hkey : Names cfg key) (hcov : cfg.Covered) (hok : ht.Ok cfg)
    (rep : Represents key ht F) {r : Request} (fits : ht.map.Fits cfg (cfg.entryOf r)) :
    Stepped cfg key ht F (.remove r)
      ⟨(ht.remove cfg (cfg.hashOf (cfg.entryOf r)) (cfg.entryOf r)).1.isSome,
        (ht.remove cfg (cfg.hashOf (cfg.entryOf r)) (cfg.entryOf r)).1⟩
      (ht.remove cfg (cfg.hashOf (cfg.entryOf r)) (cfg.entryOf r)).2 := by
  unfold State.remove
  rcases probeRd_cases hcov hok.valid fits with ⟨s, hs, hl, hid⟩ | ⟨habs, hempty⟩
  · rw [hs]
    dsimp only
    rw [if_neg (Map.ne_of_live hl).1]
    have hc := Map.change_remove hok.valid hl hid fun ha => ha.dec_nEntries hok.valid hl
    have hev : Evolves cfg .commit ht (ht.exec [.key s keyTombstone,
        .nEntries (dec 64 ht.map.nEntries)]) :=
      .exec hc.path (hc.capacity.le.trans (le_max_left _ _))
    have hacc := hc.accounts hok.accounts
    refine ⟨⟨_, hev, fun _ => nofun⟩, hacc, .inr ⟨F.erase (key (cfg.entryOf r)), .inl ?_,
      rep.erase hkey (hev.valid hok.valid) hacc hc.objects⟩⟩
    rw [abstractStep, rep.lookup_eq_some hkey hl hid]
  · have hlk := rep.lookup_eq_none hkey habs
    have hsame : Stepped cfg key ht F (.remove r) ⟨false, none⟩ ht := by
      refine ⟨⟨_, .refl _, fun _ => nofun⟩, hok.accounts, .inr ⟨F, .inl ?_, rep⟩⟩
      rw [abstractStep, hlk, erase_of_lookup_none hlk]
      rfl
    cases hrd : ht.map.probeRd cfg (cfg.hashOf (cfg.entryOf r)) (cfg.entryOf r) with
    | none => exact hsame
    | some p =>
      dsimp only
      rw [if_pos (hempty p.1 p.2 hrd)]
      exact hsame

/-- `ck_ht_grow_spmc`. -/
theorem grow_stepped (hkey : Names cfg key) (hok : ht.Ok cfg) (rep : Represents key ht F)
    (capacity : Nat) :
    Stepped cfg key ht F (.grow capacity) ⟨(ht.grow cfg capacity).1, none⟩
      (ht.grow cfg capacity).2 := by
  have hg := State.grow_grown hok.valid capacity
  have hacc := hg.accounts hok.accounts
  have rep' := rep.congr hkey (hg.evolves.valid hok.valid) hacc hg.objects
  refine ⟨⟨_, hg.evolves, fun _ => nofun⟩, hacc, ?_⟩
  cases hres : (ht.grow cfg capacity).1 with
  | true =>
    refine .inr ⟨F, .inl ?_, rep'⟩
    rw [abstractStep, decide_eq_true (hg.lt hres)]
  | false =>
    rcases hg.failed hres with hf | hle | hbig
    · exact .inr ⟨F, .inr ⟨rfl, rfl, hf, rfl⟩, rep'⟩
    · refine .inr ⟨F, .inl ?_, rep'⟩
      rw [abstractStep, decide_eq_false (by omega)]
    · exact .inl hbig

/-- `ck_ht_gc`. -/
theorem gc_stepped (hkey : Names cfg key) (hcov : cfg.Covered) (hok : ht.Ok cfg)
    (rep : Represents key ht F) (cycles seed : Nat) :
    Stepped cfg key ht F (.gc cycles seed) ⟨(ht.gc cfg cycles seed).1, none⟩
      (ht.gc cfg cycles seed).2 := by
  obtain ⟨hkeep, hfail⟩ := State.gc_keeps hcov hok.valid hok.accounts cycles seed
  have hacc := hkeep.accounts hok.accounts
  have rep' := rep.congr hkey (hkeep.evolves.valid hok.valid) hacc hkeep.objects
  refine ⟨⟨_, hkeep.evolves, fun _ => nofun⟩, hacc, .inr ⟨F, ?_, rep'⟩⟩
  cases hres : (ht.gc cfg cycles seed).1 with
  | true => exact .inl rfl
  | false => exact .inr ⟨rfl, rfl, hfail hres, rfl⟩

/-- `ck_ht_reset_spmc`. -/
theorem reset_stepped (hkey : Names cfg key) (hok : ht.Ok cfg) (rep : Represents key ht F) :
    Stepped cfg key ht F .reset ⟨(ht.reset cfg).1, none⟩ (ht.reset cfg).2 := by
  have hkeep : State.Keeps cfg ht (ht.create cfg ht.map.capacity).2 := State.create_keeps ht _
  unfold State.reset
  cases hm : cfg.malloc ht.allocs with
  | false =>
    have hcr : ht.create cfg ht.map.capacity = (none, (ht.create cfg ht.map.capacity).2) := by
      simp [State.create, hm]
    rw [hcr]
    refine ⟨⟨_, hkeep.evolves, False.elim⟩, hok.accounts, .inr ⟨F, .inr ⟨rfl, rfl, ?_, rfl⟩,
      rep.congr hkey hok.valid hok.accounts rfl⟩⟩
    exact ⟨ht.allocs, le_rfl, Nat.lt_succ_self _, hm⟩
  | true =>
    have hcr : ht.create cfg ht.map.capacity =
        (some (Map.create cfg ht.map.capacity), (ht.create cfg ht.map.capacity).2) := by
      simp [State.create, hm]
    rw [hcr]
    have hv := Map.create_valid cfg ht.map.capacity
    have hacc := Map.create_accounts cfg ht.map.capacity
    refine ⟨⟨_, hkeep.evolves.trans (.exec (.one (.reset hv)) ?_), False.elim⟩, hacc,
      .inr ⟨∅, .inl rfl, .empty hkey hv hacc (Map.create_objects cfg _)⟩⟩
    exact le_trans (le_trans (le_max_right _ _) (le_max_right _ _)) (le_max_right _ _)

/-- Every proper call from a good state. -/
theorem step_cases (hkey : Names cfg key) (hcov : cfg.Covered) (hok : ht.Ok cfg)
    (rep : Represents key ht F) {op : Op} (hop : op.Proper cfg ht.map) :
    (∃ r ht', step cfg ht op = .ok (r, ht') ∧ Stepped cfg key ht F op r ht') ∨
      ∃ ht', step cfg ht op = .error ht' ∧ Stuck cfg ht ht' := by
  cases op with
  | put r =>
    obtain ⟨hr, fits⟩ := hop r rfl
    rcases put_cases hkey hcov hok rep hr fits with ⟨ok, ht', he, hst⟩ | ⟨ht', he, hst⟩
    · exact .inl ⟨_, ht', by simp only [step, he]; rfl, hst⟩
    · exact .inr ⟨ht', by simp only [step, he]; rfl, hst⟩
  | set r =>
    obtain ⟨hr, fits⟩ := hop r rfl
    rcases set_cases hkey hcov hok rep hr fits with ⟨ok, entry, ht', he, hst⟩ | ⟨ht', he, hst⟩
    · exact .inl ⟨_, ht', by simp only [step, he]; rfl, hst⟩
    · exact .inr ⟨ht', by simp only [step, he]; rfl, hst⟩
  | get r =>
    obtain ⟨-, fits⟩ := hop r rfl
    refine .inl ⟨_, _, rfl, ⟨_, .refl _, fun _ => nofun⟩, hok.accounts, .inr ⟨F, .inl ?_, rep⟩⟩
    rw [abstractStep, get_eq hkey hcov hok.valid rep fits]
  | remove r =>
    obtain ⟨-, fits⟩ := hop r rfl
    exact .inl ⟨_, _, rfl, remove_stepped hkey hcov hok rep fits⟩
  | gc cycles seed => exact .inl ⟨_, _, rfl, gc_stepped hkey hcov hok rep cycles seed⟩
  | grow capacity => exact .inl ⟨_, _, rfl, grow_stepped hkey hok rep capacity⟩
  | reset => exact .inl ⟨_, _, rfl, reset_stepped hkey hok rep⟩

end Calls

/-! ## Runs -/

section Runs

variable {K : Type} [DecidableEq K] {cfg : Config} {key : Entry → K}

theorem init_ok {entries : Nat} {ht : State} (h : init cfg entries = some ht) : ht.Ok cfg := by
  unfold init at h
  split at h
  · cases h
    exact ⟨Map.create_valid cfg entries, Map.create_accounts cfg entries, le_max_right _ _⟩
  · cases h

theorem init_represents (hkey : Names cfg key) {entries : Nat} {ht : State}
    (h : init cfg entries = some ht) : Represents key ht ∅ := by
  have hok := init_ok h
  refine .empty hkey hok.valid hok.accounts ?_
  unfold init at h
  split at h
  · cases h
    exact Map.create_objects cfg entries
  · cases h

/-- What a run from a good state does. -/
theorem run_cases (hkey : Names cfg key) (hcov : cfg.Covered) {ht : State}
    {F : Finmap fun _ : K => Entry} {ops : List Op} (hok : ht.Ok cfg) (rep : Represents key ht F)
    (hproper : ProperRun cfg ht ops) :
    (∃ rs ht', run cfg ht ops = .ok (rs, ht') ∧ ht'.Ok cfg ∧ ht.peak ≤ ht'.peak ∧
      (ht'.peak < 2 ^ 31 → Refined cfg key ht F ops rs ht')) ∨
    ∃ ht', run cfg ht ops = .error ht' ∧ (30 ≤ cfg.restarts → 2 ^ 31 ≤ ht'.peak) := by
  induction ops generalizing ht F with
  | nil => exact .inl ⟨[], ht, rfl, hok, le_rfl, fun _ => .nil rep⟩
  | cons op ops ih =>
    obtain ⟨hop, hrest⟩ := hproper
    rcases step_cases hkey hcov hok rep hop with ⟨r, ht₁, hstep, hst⟩ | ⟨ht₁, hstep, hst⟩
    · obtain ⟨k, hev, -⟩ := hst.evolves
      have hok₁ := hok.of_evolves hev hst.accounts
      have hproper₁ := hrest r ht₁ hstep
      -- beyond the capacities the run goes on, but represents no map we know
      have hrun : ∀ {F₁ : Finmap fun _ : K => Entry}, Represents key ht₁ F₁ →
          (ht₁.peak < 2 ^ 31 → Agrees cfg key ht F op r ht₁ F₁) →
          (∃ rs ht', run cfg ht (op :: ops) = .ok (rs, ht') ∧ ht'.Ok cfg ∧ ht.peak ≤ ht'.peak ∧
            (ht'.peak < 2 ^ 31 → Refined cfg key ht F (op :: ops) rs ht')) ∨
          ∃ ht', run cfg ht (op :: ops) = .error ht' ∧
            (30 ≤ cfg.restarts → 2 ^ 31 ≤ ht'.peak) := by
        intro F₁ rep₁ hag
        rcases ih hok₁ rep₁ hproper₁ with ⟨rs, ht', hr, hok', hpeak, href⟩ | ⟨ht', hr, hp⟩
        · refine .inl ⟨r :: rs, ht', ?_, hok', hev.peak.trans hpeak, fun hlt => ?_⟩
          · rw [run, hstep]
            simp only [bind, Except.bind, hr]
            rfl
          · exact .cons rep hstep (hag (lt_of_le_of_lt hpeak hlt)) (href hlt)
        · refine .inr ⟨ht', ?_, hp⟩
          rw [run, hstep]
          simp only [bind, Except.bind, hr]
      rcases hst.agrees with hbig | ⟨F₁, hag, rep₁⟩
      · obtain ⟨F₁, rep₁⟩ := Represents.exists hkey hok₁.valid hok₁.accounts
        exact hrun rep₁ fun hlt => absurd hbig (by omega)
      · exact hrun rep₁ fun _ => hag
    · refine .inr ⟨ht₁, ?_, hst.peak⟩
      rw [run, hstep]
      rfl

/-- The run returns and refines the map, unless a capacity reaches `2 ^ 31`. -/
def RefinesMap (cfg : Config) (key : Entry → K) (ht : State) (ops : List Op) : Prop :=
  match run cfg ht ops with
  | .ok (rs, ht') => ht'.peak < 2 ^ 31 → Refined cfg key ht ∅ ops rs ht'
  | .error ht' => 2 ^ 31 ≤ ht'.peak

theorem refinesMap_of_proper (hkey : Names cfg key) (hcov : cfg.Covered)
    (hrestarts : 30 ≤ cfg.restarts) {entries : Nat} {ht : State}
    (hinit : init cfg entries = some ht) {ops : List Op} (hproper : ProperRun cfg ht ops) :
    RefinesMap cfg key ht ops := by
  unfold RefinesMap
  rcases run_cases hkey hcov (init_ok hinit) (init_represents hkey hinit) hproper with
    ⟨rs, ht', hr, -, -, href⟩ | ⟨ht', hr, hp⟩
  · rw [hr]
    exact href
  · rw [hr]
    exact hp hrestarts

/-- In direct mode every call with a valid key is proper. -/
theorem properRun_direct (hmode : cfg.mode = .direct) {ht : State} {ops : List Op}
    (hkeys : ∀ op ∈ ops, ∀ r, op.request = some r → r.Valid) : ProperRun cfg ht ops := by
  induction ops generalizing ht with
  | nil => trivial
  | cons op ops ih =>
    refine ⟨fun r hr => ⟨hkeys op List.mem_cons_self r hr, fun s _ hm => ?_⟩, fun r ht' _ => ?_⟩
    · rw [hmode] at hm
      cases hm
    · exact ih fun op' hop' => hkeys op' (List.mem_cons_of_mem op hop')

/-- In direct mode every run from `ck_ht_init` with valid keys refines a finite map of machine
words. -/
theorem run_refines_words (hmode : cfg.mode = .direct) (hrestarts : 30 ≤ cfg.restarts)
    {entries : Nat} {ht : State} (hinit : init cfg entries = some ht) {ops : List Op}
    (hkeys : ∀ op ∈ ops, ∀ r, op.request = some r → r.Valid) :
    RefinesMap cfg Entry.key ht ops :=
  refinesMap_of_proper (fun _ _ => (Config.ident_direct hmode).symm)
    (fun hm => by rw [hmode] at hm; cases hm) hrestarts hinit (properRun_direct hmode hkeys)

/-- A table of machine words whose hash value is their lowest byte. -/
def words : Config where
  mode := .direct
  workloadDelete := true
  vmaBits := none
  h bytes := (bytes.headD 0).setWidth 64
  memory _ := 0
  malloc _ := true
  wideShift _ _ := 0
  restarts := 30

/-- A call's key and value in direct mode. -/
def wordRequest (key value : Word) : Request := ⟨key, 0, value, 0⟩

/-- Calls that insert, replace, delete and collect. -/
def wordCalls : List Op :=
  [.put (wordRequest 17 1), .put (wordRequest 1 2), .set (wordRequest 9 3),
    .remove (wordRequest 17 0), .set (wordRequest 1 4), .gc 0 3, .get (wordRequest 9 0)]

theorem run_refines_words_wordCalls :
    ∃ ht, init words 8 = some ht ∧ RefinesMap words Entry.key ht wordCalls := by
  obtain ⟨ht, hinit⟩ : ∃ ht, init words 8 = some ht := ⟨_, rfl⟩
  refine ⟨ht, hinit, run_refines_words rfl (by decide) hinit fun op hop r hr => ?_⟩
  fin_cases hop <;> cases hr <;> exact ⟨by decide, by decide⟩

/-- The string that the key of an entry points to, without pointer packing. -/
def Config.stringOf (cfg : Config) (e : Entry) : List Byte :=
  cfg.string e.key (cfg.entryKeyLength e).toNat

theorem names_stringOf (hmode : cfg.mode = .bytestring) (hpack : cfg.vmaBits = none) :
    Names cfg cfg.stringOf := by
  intro a b
  simp only [Config.ident, hmode, Config.entryKey, hpack, Config.stringOf]

/-- In byte-string mode every run of proper calls from `ck_ht_init` refines a finite map of
strings. -/
theorem run_refines_strings (hmode : cfg.mode = .bytestring) (hpack : cfg.vmaBits = none)
    (hrestarts : 30 ≤ cfg.restarts) {entries : Nat} {ht : State}
    (hinit : init cfg entries = some ht) {ops : List Op} (hproper : ProperRun cfg ht ops) :
    RefinesMap cfg cfg.stringOf ht ops :=
  refinesMap_of_proper (names_stringOf hmode hpack) (fun _ => hpack) hrestarts hinit hproper

/-- A table of strings that are hashed to their first byte. The byte at an address is the lowest
digit of the address, so that equal strings are found ten bytes apart. -/
def strings : Config where
  mode := .bytestring
  workloadDelete := false
  vmaBits := none
  h bytes := (bytes.headD 0).setWidth 64
  memory p := BitVec.ofNat 8 (p.toNat % 10)
  malloc _ := true
  wideShift _ _ := 0
  restarts := 30

/-- A call's key, length and value in byte-string mode. -/
def stringRequest (key : Word) (length : BitVec 16) (value : Word) : Request :=
  ⟨key, length, value, 0⟩

/-- A string is stored and looked up at another address. -/
def stringCalls : List Op := [.put (stringRequest 101 2 7), .get (stringRequest 111 2 0)]

theorem fits_of_below {m : Map} {ph : Phase} {x : Entry} (hv : m.Valid cfg ph)
    (h : ∀ s < m.capacity, (m.entries s).live = true → (m.entries s).key ≠ x.key) :
    m.Fits cfg x :=
  fun s hs _ hk => absurd hk (h s (hv.live_lt hs) hs)

theorem init_fits {entries : Nat} {ht : State} (h : init cfg entries = some ht) (x : Entry) :
    ht.map.Fits cfg x := by
  intro s hs
  unfold init at h
  split at h
  · cases h
    rw [Map.create_live] at hs
    cases hs
  · cases h

theorem stringCalls_proper {ht : State} (hinit : init strings 8 = some ht) :
    ProperRun strings ht stringCalls := by
  have hfirst : Op.Proper strings ht.map (.put (stringRequest 101 2 7)) := by
    intro r hr
    cases hr
    exact ⟨⟨by decide, by decide⟩, init_fits hinit _⟩
  refine ⟨hfirst, fun r ht₁ hstep => ⟨fun r' hr' => ?_, fun _ _ _ => trivial⟩⟩
  cases hr'
  have hkey := @names_stringOf strings rfl rfl
  obtain ⟨r₀, ht₀, h₀, hst⟩ | ⟨ht₀, h₀, -⟩ := step_cases hkey (fun _ => rfl) (init_ok hinit)
    (init_represents hkey hinit) hfirst
  · rw [hstep] at h₀
    cases h₀
    obtain ⟨k, hev, -⟩ := hst.evolves
    refine ⟨⟨by decide, by decide⟩, fits_of_below (hev.valid (init_ok hinit).valid) ?_⟩
    have heval : ((init strings 8).bind fun ht =>
        (step strings ht (.put (stringRequest 101 2 7))).toOption.map fun p =>
          decide (∀ s < p.2.map.capacity, (p.2.map.entries s).live = true →
            (p.2.map.entries s).key ≠ (strings.entryOf (stringRequest 111 2 0)).key)) =
        some true := by decide +kernel
    rw [hinit, Option.bind_some, hstep] at heval
    exact of_decide_eq_true (Option.some.inj heval)
  · rw [hstep] at h₀
    cases h₀

theorem run_refines_strings_stringCalls :
    ∃ ht, init strings 8 = some ht ∧ RefinesMap strings strings.stringOf ht stringCalls := by
  obtain ⟨ht, hinit⟩ : ∃ ht, init strings 8 = some ht := ⟨_, rfl⟩
  exact ⟨ht, hinit, run_refines_strings rfl rfl (by decide) hinit (stringCalls_proper hinit)⟩

/-- A string is stored, and a longer one at the same address is looked up. -/
def aliasCalls : List Op := [.put (stringRequest 101 1 7), .get (stringRequest 101 2 0)]

/-- The lookup of a string at the address of a stored prefix of it succeeds. -/
theorem run_strings_aliasCalls :
    ∃ ht ht', init strings 8 = some ht ∧
      run strings ht aliasCalls = .ok ([⟨true, none⟩, ⟨true, some ⟨101, 7, 1, 1⟩⟩], ht') ∧
      strings.string 101 1 ≠ strings.string 101 2 ∧
      ¬ RefinesMap strings strings.stringOf ht aliasCalls := by
  have heval : ((init strings 8).bind fun ht => (run strings ht aliasCalls).toOption.map fun p =>
      (p.1, decide (p.2.peak < 2 ^ 31))) =
      some ([⟨true, none⟩, ⟨true, some ⟨101, 7, 1, 1⟩⟩], true) := by decide +kernel
  obtain ⟨ht, hinit, hsome⟩ := Option.bind_eq_some_iff.mp heval
  cases hrun : run strings ht aliasCalls with
  | error e => rw [hrun] at hsome; cases hsome
  | ok p =>
    rw [hrun] at hsome
    obtain ⟨hrs, hpeak⟩ := Prod.mk.inj (Option.some.inj hsome)
    refine ⟨ht, p.2, hinit, ?_, by decide, fun href => ?_⟩
    · rw [hrun, ← hrs]
    · unfold RefinesMap at href
      rw [hrun] at href
      have href' := href (of_decide_eq_true hpeak)
      rw [show p.1 = [⟨true, none⟩, ⟨true, some ⟨101, 7, 1, 1⟩⟩] from hrs] at href'
      -- the abstract map holds the shorter string only
      cases href' with
      | cons rep call agrees rest =>
        rcases agrees with h | ⟨h, -⟩
        · obtain ⟨-, hF⟩ := Prod.mk.inj h
          subst hF
          cases rest with
          | cons rep call agrees rest =>
            rcases agrees with h | ⟨h, -⟩
            · obtain ⟨hres, -⟩ := Prod.mk.inj h
              have hentry := congrArg Result.entry hres
              dsimp only [abstractStep] at hentry
              rw [Finmap.lookup_insert_of_ne _ (by decide)] at hentry
              cases hentry
            · cases h
        · cases h

end Runs

end ConcurrencyKit.Ht
