import ConcurrencyKit.Hs.Gc
import ConcurrencyKit.Misc.KeyedSet

/-!
# `ck_hs` is a set of keyed objects

Every sequence of calls from `ck_hs_init` returns what a finite set keyed by the comparison
returns, and leaves the live slots equal to that set. The exceptions are part of the
statement: a call that reports failure because an allocation failed leaves the set as it
was, and `ck_hs_grow` refuses a capacity below the present one.
-/

namespace ConcurrencyKit.Hs

variable {V : Type} [DecidableEq V]

/-! ## The set a map represents -/

section Represents

variable {cfg : Config V} {hl : cfg.Lawful}

/-- The live slots are the members of the set, and no key is in two slots. -/
structure Represents (hl : cfg.Lawful) (m : Map V) (S : KeyedSet V hl.keys) : Prop where
  mem : ∀ v, v ∈ S ↔ ∃ s t, m.entries s = .entry t v
  once : ∀ s s' t t' v v', m.entries s = .entry t v → m.entries s' = .entry t' v' →
    cfg.keyMatch v v' = true → s = s'

theorem Represents.of_objects {m : Map V} {S : KeyedSet V hl.keys} (hv : m.Valid cfg .idle)
    (h : ∀ v, v ∈ S ↔ v ∈ m.objects) : Represents hl m S :=
  ⟨h, fun s s' t t' v v' hs hs' hm => hv.unique s s' t t' v v' hs hs' nofun nofun hm⟩

/-- Every valid map represents some set. -/
theorem Represents.exists (hl : cfg.Lawful) {m : Map V} (hv : m.Valid cfg .idle) :
    ∃ S : KeyedSet V hl.keys, Represents hl m S := by
  have hfin : m.objects.Finite := by
    refine Set.Finite.subset (Set.finite_range (fun i : Fin m.capacity => m.entries i)
      |>.image Slot.obj? |>.preimage (Option.some_injective V).injOn) ?_
    rintro v ⟨s, t, hs⟩
    exact ⟨.entry t v, ⟨⟨s, hv.live_lt hs⟩, hs⟩, rfl⟩
  refine ⟨⟨hfin.toFinset, fun a ha b hb hab => ?_⟩, .of_objects hv fun v => hfin.mem_toFinset⟩
  obtain ⟨s, t, hs⟩ := hfin.mem_toFinset.mp ha
  obtain ⟨s', t', hs'⟩ := hfin.mem_toFinset.mp hb
  have he := hv.unique s s' t t' a b hs hs' nofun nofun hab
  rw [he, hs'] at hs
  cases hs
  rfl

theorem Represents.lookup_eq_some {m : Map V} {S : KeyedSet V hl.keys} {s t : Nat} {key u : V}
    (hr : Represents hl m S) (hs : m.entries s = .entry t u) (hm : cfg.keyMatch u key = true) :
    S.lookup key = some u :=
  KeyedSet.lookup_eq_some.mpr ⟨(hr.mem u).mpr ⟨s, t, hs⟩, hm⟩

theorem Represents.lookup_eq_none {m : Map V} {S : KeyedSet V hl.keys} {key : V}
    (hr : Represents hl m S) (ha : m.Absent cfg key) : S.lookup key = none := by
  refine KeyedSet.lookup_eq_none.mpr fun v hv hm => ?_
  obtain ⟨s, t, hs⟩ := (hr.mem v).mp hv
  have := ha s t v hs
  rw [show cfg.keyMatch v key = true from hm] at this
  cases this

theorem Represents.absent {m : Map V} {S : KeyedSet V hl.keys} {key : V}
    (hr : Represents hl m S) (h : S.lookup key = none) : m.Absent cfg key := by
  intro s t u hs
  by_contra hm
  rw [Bool.not_eq_false] at hm
  rw [hr.lookup_eq_some hs hm] at h
  cases h

/-- A probe for a key that looks as far as the bound finds the member for the key. -/
theorem Represents.probed {m : Map V} {S : KeyedSet V hl.keys} {key : V} {limit : Nat}
    {behavior : ProbeBehavior} {r : ProbeResult V} (hr : Represents hl m S)
    (hv : m.Valid cfg .idle) (hb : behavior ≠ .tombstone)
    (hp : m.Probed cfg (cfg.hf key) key (m.boundGet (cfg.hf key)) limit behavior r) :
    r.object = S.lookup key := by
  cases hp with
  | found lt path at_cursor hit first =>
    exact (hr.lookup_eq_some at_cursor ((hv.hit_iff hl at_cursor).mp hit)).symm
  | vacant lt path at_cursor first =>
    exact (hr.lookup_eq_none (hv.absent_of_clear hl path (.inr at_cursor))).symm
  | tombstone lt path at_priority absent =>
    rcases absent with h | h
    · exact absurd h hb
    · exact (hr.lookup_eq_none (hv.absent_of_clear hl h (.inl le_rfl))).symm
  | full absent => exact (hr.lookup_eq_none (hv.absent_of_clear hl absent (.inl le_rfl))).symm

theorem Represents.congr {m m' : Map V} {S : KeyedSet V hl.keys} (hr : Represents hl m S)
    (hv : m'.Valid cfg .idle) (ho : m'.objects = m.objects) : Represents hl m' S :=
  .of_objects hv fun v => (hr.mem v).trans (by rw [ho]; rfl)

theorem Represents.assign {m m' : Map V} {S : KeyedSet V hl.keys} (hr : Represents hl m S)
    (hv : m'.Valid cfg .idle) {v : V} (ho : m'.objects = Map.assigned cfg m.objects v) :
    Represents hl m' (S.assign v) := by
  refine .of_objects hv fun w => ?_
  rw [KeyedSet.mem_assign, ho, hr.mem]
  show _ ∨ _ ∧ ¬ cfg.keyMatch w v = true ↔ _ ∨ _ ∧ cfg.keyMatch w v = false
  rw [Bool.not_eq_true]
  rfl

theorem Represents.erase {m m' : Map V} {S : KeyedSet V hl.keys} (hr : Represents hl m S)
    (hv : m'.Valid cfg .idle) {key : V} (ho : m'.objects = Map.erased cfg m.objects key) :
    Represents hl m' (S.erase key) := by
  refine .of_objects hv fun w => ?_
  rw [KeyedSet.mem_erase, ho, hr.mem]
  show _ ∧ ¬ cfg.keyMatch w key = true ↔ _ ∧ cfg.keyMatch w key = false
  rw [Bool.not_eq_true]
  rfl

end Represents

/-! ## The abstract set -/

/-- What a call does to, and returns from, a set of keyed objects. `capacity` is that of the
present map: `ck_hs_grow` refuses a smaller one. -/
noncomputable def abstractStep {r : Setoid V} (capacity : Nat) (S : KeyedSet V r) :
    Op V → Result V × KeyedSet V r
  | .put val =>
    match S.lookup val with
    | some _ => (⟨false, none⟩, S)
    | none => (⟨true, none⟩, S.assign val)
  | .putUnique val => (⟨true, none⟩, S.assign val)
  | .set val => (⟨true, S.lookup val⟩, S.assign val)
  | .fas val =>
    match S.lookup val with
    | some object => (⟨true, some object⟩, S.assign val)
    | none => (⟨false, none⟩, S)
  | .apply key fn =>
    match fn (S.lookup key) with
    | none => (⟨true, none⟩, S.erase key)
    | some delta => (⟨true, none⟩, if S.lookup key = some delta then S else S.assign delta)
  | .remove key => (⟨true, S.lookup key⟩, S.erase key)
  | .get key => (⟨true, S.lookup key⟩, S)
  | .grow requested => (⟨decide (capacity ≤ requested), none⟩, S)
  | .rebuild => (⟨true, none⟩, S)
  | .gc _ _ => (⟨true, none⟩, S)
  | .reset => (⟨true, none⟩, KeyedSet.empty)

/-- The contract of a call: `ck_hs_put_unique` only with an absent key, and an apply function
that returns `NULL`, the object it was given, or an object equal to the key. -/
def Op.Proper (cfg : Config V) (m : Map V) : Op V → Prop
  | .putUnique val => m.Absent cfg val
  | .apply key fn => ∀ object delta, fn object = some delta →
      object = some delta ∨ cfg.keyMatch delta key = true
  | _ => True

/-- Every call of a run from `hs` is proper. -/
def ProperRun (cfg : Config V) : State V → List (Op V) → Prop
  | _, [] => True
  | hs, op :: ops => op.Proper cfg hs.map ∧
      ∀ r hs', step cfg hs op = .ok (r, hs') → ProperRun cfg hs' ops

/-- A call behaves like the set, or fails with an allocation and changes nothing. -/
def Agrees {cfg : Config V} (hl : cfg.Lawful) (hs : State V) (S : KeyedSet V hl.keys) (op : Op V)
    (r : Result V) (hs' : State V) (S' : KeyedSet V hl.keys) : Prop :=
  (r, S') = abstractStep hs.map.capacity S op ∨ (r.ok = false ∧ Failed cfg hs hs' ∧ S' = S)

/-- A run whose every call agrees with the set and leaves the map representing it. -/
inductive Refined {cfg : Config V} (hl : cfg.Lawful) :
    State V → KeyedSet V hl.keys → List (Op V) → List (Result V) → State V → Prop
  | nil {hs : State V} {S : KeyedSet V hl.keys} (rep : Represents hl hs.map S) :
      Refined hl hs S [] [] hs
  | cons {hs hs₁ hs' : State V} {S S₁ : KeyedSet V hl.keys} {op : Op V} {ops : List (Op V)}
      {r : Result V} {rs : List (Result V)} (rep : Represents hl hs.map S)
      (call : step cfg hs op = .ok (r, hs₁)) (agrees : Agrees hl hs S op r hs₁ S₁)
      (rest : Refined hl hs₁ S₁ ops rs hs') : Refined hl hs S (op :: ops) (r :: rs) hs'

/-! ## One call -/

/-- The invariant between calls. -/
structure State.Ok (cfg : Config V) (hs : State V) : Prop where
  valid : hs.map.Valid cfg .idle
  accounts : hs.map.Accounts 0
  capacity : hs.map.capacity ≤ hs.peak

/-- What a call that returned has done. -/
structure Stepped {cfg : Config V} (hl : cfg.Lawful) (hs : State V) (S : KeyedSet V hl.keys)
    (op : Op V) (r : Result V) (hs' : State V) : Prop where
  evolves : Evolves cfg hs hs'
  accounts : hs'.map.Accounts 0
  agrees : 2 ^ 31 ≤ hs'.peak ∨ ∃ S', Agrees hl hs S op r hs' S' ∧ Represents hl hs'.map S'

/-- What a call that ran out of restarts has done. -/
structure Stuck (cfg : Config V) (hs hs' : State V) : Prop where
  evolves : Evolves cfg hs hs'
  accounts : hs'.map.Accounts 0
  peak : 28 ≤ cfg.restarts → 2 ^ 31 ≤ hs'.peak

section Calls

variable {cfg : Config V} {hl : cfg.Lawful} {hs : State V} {S : KeyedSet V hl.keys}

theorem State.Ok.of_evolves {hs' : State V} (hl : cfg.Lawful) (hok : hs.Ok cfg)
    (hev : Evolves cfg hs hs') (ha : hs'.map.Accounts 0) : hs'.Ok cfg :=
  ⟨hev.valid hl hok.valid, ha, hev.capacity hok.capacity⟩

theorem Map.Valid.eight_le {m : Map V} {ph : Phase} (hv : m.Valid cfg ph) : 8 ≤ m.capacity :=
  Nat.le_of_dvd hv.pos hv.eight_dvd

/-- The restart loop ends with a slot, with a failed allocation, or beyond the capacities. -/
theorem findSlot_cases (hl : cfg.Lawful) (hok : hs.Ok cfg) (key : V)
    (behavior : ProbeBehavior) :
    (∃ r hs', hs.findSlot cfg (cfg.hf key) key behavior cfg.restarts = .ok (r, hs') ∧
      State.Probing cfg hs key behavior r hs') ∨
    ∃ hs', hs.findSlot cfg (cfg.hf key) key behavior cfg.restarts = .error hs' ∧
      Stuck cfg hs hs' := by
  have hf := @State.findSlot_probing _ _ cfg hl key behavior cfg.restarts hs hok.valid
    hok.capacity
  revert hf
  cases hs.findSlot cfg (cfg.hf key) key behavior cfg.restarts with
  | ok res => exact fun hp => .inl ⟨res.1, res.2, rfl, hp⟩
  | error hs' =>
    rintro ⟨hev, -, hacc, hpeak⟩
    refine .inr ⟨hs', rfl, hev, hacc hok.accounts, fun h28 => ?_⟩
    rcases hpeak with hp | hp
    · have h8 := hok.valid.eight_le
      have hpow : 2 ^ 28 ≤ 2 ^ cfg.restarts := Nat.pow_le_pow_right (by omega) h28
      calc 2 ^ 31 = 8 * 2 ^ 28 := by norm_num
        _ ≤ hs.map.capacity * 2 ^ cfg.restarts := Nat.mul_le_mul h8 hpow
        _ ≤ hs'.peak := hp
    · exact hp

/-- The map could not grow, so the call fails. -/
theorem Stepped.of_failed {op : Op V} {r : Result V} {hs' : State V} {key : V}
    {behavior : ProbeBehavior} (hok : hs.Ok cfg) (rep : Represents hl hs.map S)
    (hp : State.Probing cfg hs key behavior none hs') (hr : r.ok = false) :
    Stepped hl hs S op r hs' := by
  refine ⟨hp.evolves, hp.accounts hok.accounts, ?_⟩
  rcases hp.failed rfl with hf | hbig
  · exact .inr ⟨S, .inr ⟨hr, hf, rfl⟩, rep.congr (hp.evolves.valid hl hok.valid) hp.objects⟩
  · exact .inl hbig

/-- The state after an absent key has been installed and counted. -/
theorem install_new (hl : cfg.Lawful) (hok : hs.Ok cfg) {v key : V} {bound : Nat}
    {behavior : ProbeBehavior} {p : ProbeResult V} (eq : cfg.keyMatch v key = true)
    (hp : hs.map.Probed cfg (cfg.hf key) key bound hs.map.probeLimit behavior p)
    (hobj : p.object = none) (hslot : ¬ (p.cursor = none ∧ p.priority = none))
    (habs : hs.map.Absent cfg key) {hs' : State V}
    (hs'_eq : hs' = (hs.exec (hs.map.install (cfg.hf key) p
      (cfg.marshal v (cfg.hf key)))).postinsert cfg) :
    Evolves cfg hs hs' ∧ hs'.map.Accounts 0 ∧
      hs'.map.objects = Map.assigned cfg hs.map.objects v := by
  have hc := Map.change_install_new hl hok.valid (hl.hf_eq eq).symm hp hobj hslot
    (habs.congr hl eq)
  have hev : Evolves cfg hs (hs.exec (hs.map.install (cfg.hf key) p
      (cfg.marshal v (cfg.hf key)))) :=
    .exec hc.path (hc.capacity.le.trans (le_max_left _ _))
  obtain ⟨hev', hobj', hacc⟩ := State.postinsert_evolves hl (hev.valid hl hok.valid)
  subst hs'_eq
  exact ⟨hev.trans hev', hacc (hc.accounts hok.accounts), hobj'.trans hc.objects⟩

/-- The state after the object of a present key has been replaced. -/
theorem install_old (hl : cfg.Lawful) (hok : hs.Ok cfg) {v key u : V} {bound : Nat}
    {behavior : ProbeBehavior} {p : ProbeResult V} (eq : cfg.keyMatch v key = true)
    (hp : hs.map.Probed cfg (cfg.hf key) key bound hs.map.probeLimit behavior p)
    (hobj : p.object = some u) {hs' : State V}
    (hs'_eq : hs' = hs.exec (hs.map.install (cfg.hf key) p (cfg.marshal v (cfg.hf key)))) :
    Evolves cfg hs hs' ∧ hs'.map.Accounts 0 ∧
      hs'.map.objects = Map.assigned cfg hs.map.objects v := by
  have hc := Map.change_install_old hl hok.valid eq hp hobj
  subst hs'_eq
  exact ⟨.exec hc.path (hc.capacity.le.trans (le_max_left _ _)), hc.accounts hok.accounts,
    hc.objects⟩

/-- The calls that go through `ck_hs_put_internal`. -/
def IsPut (cfg : Config V) (m : Map V) (val : V) (behavior : ProbeBehavior) (op : Op V) : Prop :=
  (behavior = .insert ∧ op = .put val) ∨
    (behavior = .tombstone ∧ op = .putUnique val ∧ m.Absent cfg val)

theorem IsPut.lookup_of_found {behavior : ProbeBehavior} {op : Op V} {val u : V}
    {hs₁ : State V} {p : ProbeResult V} (hput : IsPut cfg hs.map val behavior op)
    (rep : Represents hl hs.map S) (rep₁ : Represents hl hs₁.map S)
    (hv : hs₁.map.Valid cfg .idle)
    (hp : hs₁.map.Probed cfg (cfg.hf val) val
      (hs₁.map.startBound (cfg.hf val) hs₁.map.probeLimit behavior) hs₁.map.probeLimit behavior p)
    (hobj : p.object = some u) : op = .put val ∧ S.lookup val = some u := by
  cases hp with
  | @found n tag w priority nProbes lt path at_cursor hit first =>
    cases hobj
    have hlk := rep₁.lookup_eq_some at_cursor ((hv.hit_iff hl at_cursor).mp hit)
    rcases hput with ⟨-, rfl⟩ | ⟨-, -, habs⟩
    · exact ⟨rfl, hlk⟩
    · rw [rep.lookup_eq_none habs] at hlk
      cases hlk
  | vacant => cases hobj
  | tombstone => cases hobj
  | full => cases hobj

theorem IsPut.lookup_of_missing {behavior : ProbeBehavior} {op : Op V} {val : V}
    {hs₁ : State V} {p : ProbeResult V} (hput : IsPut cfg hs.map val behavior op)
    (rep : Represents hl hs.map S) (rep₁ : Represents hl hs₁.map S)
    (hv : hs₁.map.Valid cfg .idle)
    (hp : hs₁.map.Probed cfg (cfg.hf val) val
      (hs₁.map.startBound (cfg.hf val) hs₁.map.probeLimit behavior) hs₁.map.probeLimit behavior p)
    (hobj : p.object = none) : S.lookup val = none := by
  rcases hput with ⟨rfl, -⟩ | ⟨-, -, habs⟩
  · exact (rep₁.probed hv (by simp) hp).symm.trans hobj
  · exact rep.lookup_eq_none habs

theorem IsPut.abstractStep_missing {behavior : ProbeBehavior} {op : Op V} {val : V}
    (hput : IsPut cfg hs.map val behavior op) (hlk : S.lookup val = none) (capacity : Nat) :
    (⟨true, none⟩, S.assign val) = abstractStep capacity S op := by
  rcases hput with ⟨-, rfl⟩ | ⟨-, rfl, -⟩
  · simp only [abstractStep, hlk]
  · rfl

/-- `ck_hs_put_internal`. -/
theorem putInternal_cases (hok : hs.Ok cfg) (rep : Represents hl hs.map S) {val : V}
    {behavior : ProbeBehavior} {op : Op V} (hput : IsPut cfg hs.map val behavior op) :
    (∃ ok hs', hs.putInternal cfg (cfg.hf val) val behavior = .ok (ok, hs') ∧
      Stepped hl hs S op ⟨ok, none⟩ hs') ∨
    ∃ hs', hs.putInternal cfg (cfg.hf val) val behavior = .error hs' ∧ Stuck cfg hs hs' := by
  unfold State.putInternal
  rcases findSlot_cases hl hok val behavior with ⟨r, hs₁, hfs, hp⟩ | ⟨hs₁, hfs, hst⟩
  · left
    rw [hfs]
    cases r with
    | none => exact ⟨false, hs₁, rfl, .of_failed hok rep hp rfl⟩
    | some p =>
      obtain ⟨hpr, hslot⟩ := hp.probed p rfl
      have hok₁ := hok.of_evolves hl hp.evolves (hp.accounts hok.accounts)
      have rep₁ := rep.congr hok₁.valid hp.objects
      cases hobj : p.object with
      | some u =>
        obtain ⟨rfl, hlk⟩ := hput.lookup_of_found rep rep₁ hok₁.valid hpr hobj
        refine ⟨false, hs₁, by simp [bind, Except.bind, hobj]; rfl, hp.evolves, hok₁.accounts, ?_⟩
        refine .inr ⟨S, .inl ?_, rep₁⟩
        simp only [abstractStep, hlk]
      | none =>
        have hlk := hput.lookup_of_missing rep rep₁ hok₁.valid hpr hobj
        obtain ⟨hev, hacc, hobjs⟩ := install_new hl hok₁ (Callbacks.keyMatch_refl val) hpr hobj
          hslot (rep₁.absent hlk) rfl
        refine ⟨true, _, by simp [bind, Except.bind, hobj]; rfl, hp.evolves.trans hev, hacc, ?_⟩
        refine .inr ⟨S.assign val, .inl (hput.abstractStep_missing hlk _), ?_⟩
        exact rep₁.assign (hev.valid hl hok₁.valid) hobjs
  · right
    rw [hfs]
    exact ⟨hs₁, rfl, hst⟩

/-- `ck_hs_set`. -/
theorem set_cases (hok : hs.Ok cfg) (rep : Represents hl hs.map S) (val : V) :
    (∃ r hs', hs.set cfg (cfg.hf val) val = .ok (r, hs') ∧
      Stepped hl hs S (.set val) ⟨r.1, r.2⟩ hs') ∨
    ∃ hs', hs.set cfg (cfg.hf val) val = .error hs' ∧ Stuck cfg hs hs' := by
  unfold State.set
  rcases findSlot_cases hl hok val .insert with ⟨r, hs₁, hfs, hp⟩ | ⟨hs₁, hfs, hst⟩
  · left
    rw [hfs]
    cases r with
    | none => exact ⟨(false, none), hs₁, rfl, .of_failed hok rep hp rfl⟩
    | some p =>
      obtain ⟨hpr, hslot⟩ := hp.probed p rfl
      have hok₁ := hok.of_evolves hl hp.evolves (hp.accounts hok.accounts)
      have rep₁ := rep.congr hok₁.valid hp.objects
      have hlk := rep₁.probed hok₁.valid (by simp) hpr
      cases hobj : p.object with
      | some u =>
        obtain ⟨hev, hacc, hobjs⟩ := install_old hl hok₁ (Callbacks.keyMatch_refl val) hpr hobj rfl
        refine ⟨(true, some u), _, by simp [bind, Except.bind, hobj]; rfl,
          hp.evolves.trans hev, hacc, .inr ⟨S.assign val, .inl ?_, ?_⟩⟩
        · rw [abstractStep, ← hlk, hobj]
        · exact rep₁.assign (hev.valid hl hok₁.valid) hobjs
      | none =>
        obtain ⟨hev, hacc, hobjs⟩ := install_new hl hok₁ (Callbacks.keyMatch_refl val) hpr hobj
          hslot (rep₁.absent (hlk.symm.trans hobj)) rfl
        refine ⟨(true, none), _, by simp [bind, Except.bind, hobj]; rfl,
          hp.evolves.trans hev, hacc, .inr ⟨S.assign val, .inl ?_, ?_⟩⟩
        · rw [abstractStep, ← hlk, hobj]
        · exact rep₁.assign (hev.valid hl hok₁.valid) hobjs
  · right
    rw [hfs]
    exact ⟨hs₁, rfl, hst⟩

/-- Deleting the object a probe found. -/
theorem uninstall_old (hl : cfg.Lawful) (hok : hs.Ok cfg) {key u : V} {bound limit : Nat}
    {behavior : ProbeBehavior} {p : ProbeResult V}
    (hp : hs.map.Probed cfg (cfg.hf key) key bound limit behavior p) (hobj : p.object = some u)
    {hs' : State V} (hs'_eq : hs' = hs.exec (hs.map.uninstall p.cursor)) :
    Evolves cfg hs hs' ∧ hs'.map.Accounts 0 ∧
      hs'.map.objects = Map.erased cfg hs.map.objects key := by
  cases hp with
  | found lt path at_cursor hit first =>
    have hc := Map.change_uninstall hl hok.valid at_cursor
      ((hok.valid.hit_iff hl at_cursor).mp hit)
    subst hs'_eq
    exact ⟨.exec hc.path (hc.capacity.le.trans (le_max_left _ _)), hc.accounts hok.accounts,
      hc.objects⟩
  | vacant => cases hobj
  | tombstone => cases hobj
  | full => cases hobj

theorem Represents.erase_absent {m : Map V} (rep : Represents hl m S)
    (hv : m.Valid cfg .idle) {key : V} (h : S.lookup key = none) :
    Represents hl m (S.erase key) := by
  refine rep.erase hv ?_
  ext w
  constructor
  · rintro ⟨s, t, hs⟩
    exact ⟨⟨s, t, hs⟩, rep.absent h s t w hs⟩
  · exact And.left

/-- `ck_hs_apply`. -/
theorem apply_cases (hok : hs.Ok cfg) (rep : Represents hl hs.map S) {key : V}
    {fn : Option V → Option V} (hfn : (Op.apply key fn).Proper cfg hs.map) :
    (∃ ok hs', hs.apply cfg (cfg.hf key) key fn = .ok (ok, hs') ∧
      Stepped hl hs S (.apply key fn) ⟨ok, none⟩ hs') ∨
    ∃ hs', hs.apply cfg (cfg.hf key) key fn = .error hs' ∧ Stuck cfg hs hs' := by
  unfold State.apply
  rcases findSlot_cases hl hok key .insert with ⟨r, hs₁, hfs, hp⟩ | ⟨hs₁, hfs, hst⟩
  · left
    rw [hfs]
    cases r with
    | none => exact ⟨false, hs₁, rfl, .of_failed hok rep hp rfl⟩
    | some p =>
      obtain ⟨hpr, hslot⟩ := hp.probed p rfl
      have hok₁ := hok.of_evolves hl hp.evolves (hp.accounts hok.accounts)
      have rep₁ := rep.congr hok₁.valid hp.objects
      have hlk := rep₁.probed hok₁.valid (by simp) hpr
      cases hdelta : fn p.object with
      | none =>
        cases hobj : p.object with
        | none =>
          rw [hobj] at hdelta hlk
          refine ⟨true, hs₁, by simp [bind, Except.bind, hobj, hdelta]; rfl, hp.evolves,
            hok₁.accounts, .inr ⟨S.erase key, .inl ?_, ?_⟩⟩
          · simp only [abstractStep, ← hlk, hdelta]
          · exact rep₁.erase_absent hok₁.valid hlk.symm
        | some u =>
          obtain ⟨hev, hacc, hobjs⟩ := uninstall_old hl hok₁ hpr hobj rfl
          rw [hobj] at hdelta hlk
          refine ⟨true, _, by simp [bind, Except.bind, hobj, hdelta]; rfl, hp.evolves.trans hev,
            hacc, .inr ⟨S.erase key, .inl ?_, ?_⟩⟩
          · simp only [abstractStep, ← hlk, hdelta]
          · exact rep₁.erase (hev.valid hl hok₁.valid) hobjs
      | some delta =>
        have habs : abstractStep hs.map.capacity S (.apply key fn) =
            (⟨true, none⟩, if p.object = some delta then S else S.assign delta) := by
          simp only [abstractStep, ← hlk, hdelta]
        by_cases hsame : p.object = some delta
        · rw [if_pos hsame] at habs
          rw [hsame] at hdelta
          exact ⟨true, hs₁, by simp [bind, Except.bind, hdelta, hsame]; rfl, hp.evolves,
            hok₁.accounts, .inr ⟨S, .inl habs.symm, rep₁⟩⟩
        · have heq : cfg.keyMatch delta key = true := by
            rcases hfn _ _ hdelta with h | h
            · exact absurd h hsame
            · exact h
          rw [if_neg hsame] at habs
          cases hobj : p.object with
          | none =>
            obtain ⟨hev, hacc, hobjs⟩ := install_new hl hok₁ heq hpr hobj hslot
              (rep₁.absent (hlk.symm.trans hobj)) rfl
            rw [hobj] at hdelta
            refine ⟨true, _, by simp [bind, Except.bind, hobj, hdelta]; rfl,
              hp.evolves.trans hev, hacc, .inr ⟨S.assign delta, .inl habs.symm, ?_⟩⟩
            exact rep₁.assign (hev.valid hl hok₁.valid) hobjs
          | some u =>
            obtain ⟨hev, hacc, hobjs⟩ := install_old hl hok₁ heq hpr hobj rfl
            rw [hobj] at hdelta hsame
            refine ⟨true, _, by simp [bind, Except.bind, hobj, hdelta, hsame]; rfl,
              hp.evolves.trans hev, hacc, .inr ⟨S.assign delta, .inl habs.symm, ?_⟩⟩
            exact rep₁.assign (hev.valid hl hok₁.valid) hobjs
  · right
    rw [hfs]
    exact ⟨hs₁, rfl, hst⟩

/-- `ck_hs_fas`. -/
theorem fas_stepped (hok : hs.Ok cfg) (rep : Represents hl hs.map S) (val : V) :
    Stepped hl hs S (.fas val)
      ⟨(hs.fas cfg (cfg.hf val) val).1.1, (hs.fas cfg (cfg.hf val) val).1.2⟩
      (hs.fas cfg (cfg.hf val) val).2 := by
  have hpr := Map.probe_within cfg hs.map (cfg.hf val) val
  have hlk := rep.probed hok.valid (by simp) hpr
  unfold State.fas
  dsimp only
  revert hpr hlk
  generalize hs.map.probe cfg (cfg.hf val) val (hs.map.boundGet (cfg.hf val)) .probe = p
  intro hpr hlk
  have hmiss : p.object = none →
      abstractStep hs.map.capacity S (.fas val) = (⟨false, none⟩, S) := by
    intro hobj
    simp only [abstractStep, ← hlk, hobj]
  cases hpr with
  | @found n tag u priority nProbes lt path at_cursor hit first =>
    have hc := Map.change_move hl hok.valid (rfl : hs.map.generation = _)
      (Callbacks.keyMatch_refl val) path at_cursor hit first
    have hev : Evolves cfg hs (hs.exec (hs.map.moveStores (cfg.hf val)
        (cfg.cursor hs.map.capacity (cfg.hf val) n) priority (cfg.marshal val (cfg.hf val)))) :=
      .exec hc.path (hc.capacity.le.trans (le_max_left _ _))
    refine ⟨hev, hc.accounts hok.accounts, .inr ⟨S.assign val, .inl ?_, ?_⟩⟩
    · dsimp only at hlk ⊢
      simp only [abstractStep, ← hlk]
    · exact rep.assign (hev.valid hl hok.valid) hc.objects
  | vacant => exact ⟨.refl _, hok.accounts, .inr ⟨S, .inl (hmiss rfl).symm, rep⟩⟩
  | tombstone => exact ⟨.refl _, hok.accounts, .inr ⟨S, .inl (hmiss rfl).symm, rep⟩⟩
  | full => exact ⟨.refl _, hok.accounts, .inr ⟨S, .inl (hmiss rfl).symm, rep⟩⟩

/-- `ck_hs_remove`. -/
theorem remove_stepped (hok : hs.Ok cfg) (rep : Represents hl hs.map S) (key : V) :
    Stepped hl hs S (.remove key) ⟨true, (hs.remove cfg (cfg.hf key) key).1⟩
      (hs.remove cfg (cfg.hf key) key).2 := by
  have hpr := Map.probe_within cfg hs.map (cfg.hf key) key
  have hlk := rep.probed hok.valid (by simp) hpr
  unfold State.remove
  dsimp only
  revert hpr hlk
  generalize hs.map.probe cfg (cfg.hf key) key (hs.map.boundGet (cfg.hf key)) .probe = p
  intro hpr hlk
  cases hobj : p.object with
  | none =>
    refine ⟨.refl _, hok.accounts, .inr ⟨S.erase key, .inl ?_, ?_⟩⟩
    · rw [abstractStep, ← hlk, hobj]
    · exact rep.erase_absent hok.valid (hlk.symm.trans hobj)
  | some u =>
    obtain ⟨hev, hacc, hobjs⟩ := uninstall_old hl hok hpr hobj rfl
    refine ⟨hev, hacc, .inr ⟨S.erase key, .inl ?_, ?_⟩⟩
    · rw [abstractStep, ← hlk, hobj]
    · exact rep.erase (hev.valid hl hok.valid) hobjs

/-- `ck_hs_grow`, and `ck_hs_rebuild` at the present capacity. -/
theorem grow_stepped (hok : hs.Ok cfg) (rep : Represents hl hs.map S) {op : Op V}
    (capacity : Nat)
    (hop : abstractStep hs.map.capacity S op =
      (⟨decide (hs.map.capacity ≤ capacity), none⟩, S)) :
    Stepped hl hs S op ⟨(hs.grow cfg capacity).1, none⟩ (hs.grow cfg capacity).2 := by
  have hg := State.grow_grown hl hok.valid capacity
  have hv' := hg.evolves.valid hl hok.valid
  refine ⟨hg.evolves, hg.accounts hok.accounts, ?_⟩
  cases hres : (hs.grow cfg capacity).1 with
  | true =>
    refine .inr ⟨S, .inl ?_, rep.congr hv' hg.objects⟩
    rw [hop, decide_eq_true (hg.le hres)]
  | false =>
    rcases hg.failed hres with hf | hlt | hbig
    · exact .inr ⟨S, .inr ⟨rfl, hf, rfl⟩, rep.congr hv' hg.objects⟩
    · refine .inr ⟨S, .inl ?_, rep.congr hv' hg.objects⟩
      rw [hop, decide_eq_false (by omega)]
    · exact .inl hbig

/-- `ck_hs_gc`. -/
theorem gc_stepped (hok : hs.Ok cfg) (rep : Represents hl hs.map S) (cycles seed : Nat) :
    Stepped hl hs S (.gc cycles seed) ⟨(hs.gc cfg cycles seed).1, none⟩
      (hs.gc cfg cycles seed).2 := by
  obtain ⟨⟨hev, hobj, hacc⟩, hfail⟩ := State.gc_preserves hl hok.valid hok.accounts cycles seed
  have rep' := rep.congr (hev.valid hl hok.valid) hobj
  refine ⟨hev, hacc, .inr ⟨S, ?_, rep'⟩⟩
  cases hres : (hs.gc cfg cycles seed).1 with
  | true => exact .inl rfl
  | false => exact .inr ⟨rfl, hfail hres, rfl⟩

/-- `ck_hs_reset`. -/
theorem reset_stepped (hok : hs.Ok cfg) (rep : Represents hl hs.map S) :
    Stepped hl hs S .reset ⟨(hs.reset cfg).1, none⟩ (hs.reset cfg).2 := by
  have hev : Evolves cfg hs (hs.create cfg hs.map.capacity).2 := State.create_evolves hs _
  unfold State.reset
  cases hm : cfg.malloc hs.allocs with
  | false =>
    have hcr : hs.create cfg hs.map.capacity = (none, (hs.create cfg hs.map.capacity).2) := by
      simp [State.create, hm]
    rw [hcr]
    refine ⟨hev, hok.accounts, .inr ⟨S, .inr ⟨rfl, ?_, rfl⟩, rep⟩⟩
    exact ⟨hs.allocs, le_rfl, Nat.lt_succ_self _, hm⟩
  | true =>
    have hcr : hs.create cfg hs.map.capacity =
        (some (Map.create cfg hs.map.capacity), (hs.create cfg hs.map.capacity).2) := by
      simp [State.create, hm]
    rw [hcr]
    have hv := Map.create_valid cfg hs.map.capacity
    refine ⟨hev.trans (.exec (.one (.publish hv)) ?_), Map.create_accounts cfg _,
      .inr ⟨KeyedSet.empty, .inl rfl, ?_⟩⟩
    · exact le_trans (le_trans (le_max_right _ _) (le_max_right _ _)) (le_max_right _ _)
    · refine .of_objects hv fun v => ?_
      rw [show (_ : State V).map.objects = ∅ from Map.create_objects cfg hs.map.capacity]
      simp

/-- Every proper call from a good state. -/
theorem step_cases (hok : hs.Ok cfg) (rep : Represents hl hs.map S) {op : Op V}
    (hop : op.Proper cfg hs.map) :
    (∃ r hs', step cfg hs op = .ok (r, hs') ∧ Stepped hl hs S op r hs') ∨
      ∃ hs', step cfg hs op = .error hs' ∧ Stuck cfg hs hs' := by
  cases op with
  | put val =>
    rcases putInternal_cases hok rep (.inl ⟨rfl, rfl⟩) with ⟨ok, hs', he, hst⟩ | ⟨hs', he, hst⟩
    · exact .inl ⟨_, hs', by simp only [step, State.put, he]; rfl, hst⟩
    · exact .inr ⟨hs', by simp only [step, State.put, he]; rfl, hst⟩
  | putUnique val =>
    rcases putInternal_cases hok rep (.inr ⟨rfl, rfl, hop⟩) with ⟨ok, hs', he, hst⟩ | ⟨hs', he, hst⟩
    · exact .inl ⟨_, hs', by simp only [step, State.putUnique, he]; rfl, hst⟩
    · exact .inr ⟨hs', by simp only [step, State.putUnique, he]; rfl, hst⟩
  | set val =>
    rcases set_cases hok rep val with ⟨r, hs', he, hst⟩ | ⟨hs', he, hst⟩
    · exact .inl ⟨_, hs', by simp only [step, he]; rfl, hst⟩
    · exact .inr ⟨hs', by simp only [step, he]; rfl, hst⟩
  | apply key fn =>
    rcases apply_cases hok rep hop with ⟨ok, hs', he, hst⟩ | ⟨hs', he, hst⟩
    · exact .inl ⟨_, hs', by simp only [step, he]; rfl, hst⟩
    · exact .inr ⟨hs', by simp only [step, he]; rfl, hst⟩
  | fas val => exact .inl ⟨_, _, rfl, fas_stepped hok rep val⟩
  | remove key => exact .inl ⟨_, _, rfl, remove_stepped hok rep key⟩
  | get key =>
    refine .inl ⟨_, _, rfl, .refl _, hok.accounts, .inr ⟨S, .inl ?_, rep⟩⟩
    rw [abstractStep, State.get, rep.probed hok.valid (by simp)
      (Map.probe_within cfg hs.map (cfg.hf key) key)]
  | grow capacity => exact .inl ⟨_, _, rfl, grow_stepped hok rep capacity rfl⟩
  | rebuild =>
    refine .inl ⟨_, _, rfl, grow_stepped hok rep hs.map.capacity ?_⟩
    rw [abstractStep, decide_eq_true le_rfl]
  | gc cycles seed => exact .inl ⟨_, _, rfl, gc_stepped hok rep cycles seed⟩
  | reset => exact .inl ⟨_, _, rfl, reset_stepped hok rep⟩

end Calls

/-! ## Runs -/

section Runs

variable {cfg : Config V}

theorem init_ok {entries : Nat} {hs : State V} (h : init cfg entries = some hs) : hs.Ok cfg := by
  unfold init at h
  split at h
  · cases h
    exact ⟨Map.create_valid cfg entries, Map.create_accounts cfg entries, le_max_right _ _⟩
  · cases h

theorem init_represents (hl : cfg.Lawful) {entries : Nat} {hs : State V}
    (h : init cfg entries = some hs) : Represents hl hs.map KeyedSet.empty := by
  have hok := init_ok h
  unfold init at h
  split at h
  · cases h
    refine .of_objects hok.valid fun v => ?_
    rw [show (_ : State V).map.objects = ∅ from Map.create_objects cfg entries]
    simp
  · cases h

/-- What a run from a good state does. -/
theorem run_cases (hl : cfg.Lawful) {hs : State V} {S : KeyedSet V hl.keys} {ops : List (Op V)}
    (hok : hs.Ok cfg) (rep : Represents hl hs.map S) (hproper : ProperRun cfg hs ops) :
    (∃ rs hs', run cfg hs ops = .ok (rs, hs') ∧ Evolves cfg hs hs' ∧ hs'.map.Accounts 0 ∧
      (hs'.peak < 2 ^ 31 → Refined hl hs S ops rs hs')) ∨
    ∃ hs', run cfg hs ops = .error hs' ∧ Evolves cfg hs hs' ∧ hs'.map.Accounts 0 ∧
      (28 ≤ cfg.restarts → 2 ^ 31 ≤ hs'.peak) := by
  induction ops generalizing hs S with
  | nil => exact .inl ⟨[], hs, rfl, .refl _, hok.accounts, fun _ => .nil rep⟩
  | cons op ops ih =>
    obtain ⟨hop, hrest⟩ := hproper
    rcases step_cases hok rep hop with ⟨r, hs₁, hstep, hst⟩ | ⟨hs₁, hstep, hst⟩
    · have hok₁ := hok.of_evolves hl hst.evolves hst.accounts
      have hproper₁ := hrest r hs₁ hstep
      -- beyond the capacities the run goes on, but represents no set we know
      have hrun : ∀ {S₁ : KeyedSet V hl.keys}, Represents hl hs₁.map S₁ →
          (hs₁.peak < 2 ^ 31 → Agrees hl hs S op r hs₁ S₁) →
          (∃ rs hs', run cfg hs (op :: ops) = .ok (rs, hs') ∧ Evolves cfg hs hs' ∧
            hs'.map.Accounts 0 ∧ (hs'.peak < 2 ^ 31 → Refined hl hs S (op :: ops) rs hs')) ∨
          ∃ hs', run cfg hs (op :: ops) = .error hs' ∧ Evolves cfg hs hs' ∧
            hs'.map.Accounts 0 ∧ (28 ≤ cfg.restarts → 2 ^ 31 ≤ hs'.peak) := by
        intro S₁ rep₁ hag
        rcases ih hok₁ rep₁ hproper₁ with ⟨rs, hs', hr, hev, hacc, href⟩ | ⟨hs', hr, hev, hacc, hp⟩
        · refine .inl ⟨r :: rs, hs', ?_, hst.evolves.trans hev, hacc, fun hlt => ?_⟩
          · rw [run, hstep]
            simp only [bind, Except.bind, hr]
            rfl
          · exact .cons rep hstep (hag (lt_of_le_of_lt hev.peak hlt)) (href hlt)
        · refine .inr ⟨hs', ?_, hst.evolves.trans hev, hacc, hp⟩
          rw [run, hstep]
          simp only [bind, Except.bind, hr]
      rcases hst.agrees with hbig | ⟨S₁, hag, rep₁⟩
      · obtain ⟨S₁, rep₁⟩ := Represents.exists hl hok₁.valid
        exact hrun rep₁ fun hlt => absurd hbig (by omega)
      · exact hrun rep₁ fun _ => hag
    · refine .inr ⟨hs₁, ?_, hst.evolves, hst.accounts, hst.peak⟩
      rw [run, hstep]
      rfl

/-- The run returns and refines the set, unless a capacity reaches `2 ^ 31`. -/
def RefinesSet (hl : cfg.Lawful) (hs : State V) (ops : List (Op V)) : Prop :=
  match run cfg hs ops with
  | .ok (rs, hs') => hs'.peak < 2 ^ 31 → Refined hl hs KeyedSet.empty ops rs hs'
  | .error hs' => 2 ^ 31 ≤ hs'.peak

/-- Every run of proper calls from `ck_hs_init` refines the set. -/
theorem run_refines_set (hl : cfg.Lawful) (hrestarts : 28 ≤ cfg.restarts) {entries : Nat}
    {hs : State V} (hinit : init cfg entries = some hs) {ops : List (Op V)}
    (hproper : ProperRun cfg hs ops) : RefinesSet hl hs ops := by
  unfold RefinesSet
  rcases run_cases hl (init_ok hinit) (init_represents hl hinit) hproper with
    ⟨rs, hs', hr, -, -, href⟩ | ⟨hs', hr, -, -, hp⟩
  · rw [hr]
    exact href
  · rw [hr]
    exact hp hrestarts

/-- A set of numbers that hash to themselves. -/
def numbers : Config Nat where
  hf v := BitVec.ofNat 64 v
  compare := none
  modeDelete := false
  vmaBits := none
  malloc _ := true
  wideShift _ _ := 0
  restarts := 28

theorem numbers_lawful : numbers.Lawful := ⟨nofun, nofun⟩

/-- Calls that insert, replace, delete and collect. -/
def someCalls : List (Op Nat) :=
  [.putUnique 17, .put 1, .set 9, .apply 1 (fun _ => none), .gc 0 3, .get 9]

omit [DecidableEq V] in
theorem init_entries {entries : Nat} {hs : State V} (h : init cfg entries = some hs) (s : Nat) :
    hs.map.entries s = .empty := by
  unfold init at h
  split at h
  · cases h; rfl
  · cases h

theorem someCalls_proper {hs : State Nat} (h : init numbers 8 = some hs) :
    ProperRun numbers hs someCalls := by
  have habs : hs.map.Absent numbers 17 := by
    intro s t u hs'
    rw [init_entries h s] at hs'
    cases hs'
  exact ⟨habs, fun _ _ _ => ⟨trivial, fun _ _ _ => ⟨trivial, fun _ _ _ => ⟨nofun, fun _ _ _ =>
    ⟨trivial, fun _ _ _ => ⟨trivial, fun _ _ _ => trivial⟩⟩⟩⟩⟩⟩

theorem run_refines_set_someCalls :
    ∃ hs, init numbers 8 = some hs ∧ RefinesSet numbers_lawful hs someCalls := by
  obtain ⟨hs, hinit⟩ : ∃ hs, init numbers 8 = some hs := ⟨_, rfl⟩
  exact ⟨hs, hinit, run_refines_set numbers_lawful (by decide) hinit (someCalls_proper hinit)⟩

/-- In every state that proper calls reach, `n_entries` is the number of live slots and
`tombstones` that of the tombstones. -/
theorem run_counters (hl : cfg.Lawful) {entries : Nat} {hs : State V}
    (hinit : init cfg entries = some hs) {ops : List (Op V)} (hproper : ProperRun cfg hs ops)
    {hs' : State V}
    (hrun : run cfg hs ops = .error hs' ∨ ∃ rs, run cfg hs ops = .ok (rs, hs')) :
    hs'.map.nEntries = tally Slot.isLive hs'.map.entries hs'.map.capacity ∧
      hs'.map.tombstones = tally Slot.isTombstone hs'.map.entries hs'.map.capacity := by
  rcases run_cases hl (init_ok hinit) (init_represents hl hinit) hproper with
    ⟨rs, hs₁, hr, -, hacc, -⟩ | ⟨hs₁, hr, -, hacc, -⟩
  · rcases hrun with h | ⟨rs', h⟩
    · rw [hr] at h; cases h
    · rw [hr] at h
      cases h
      exact ⟨hacc.live, hacc.dead⟩
  · rcases hrun with h | ⟨rs', h⟩
    · rw [hr] at h
      cases h
      exact ⟨hacc.live, hacc.dead⟩
    · rw [hr] at h; cases h

theorem run_counters_someCalls :
    ∃ hs rs hs', init numbers 8 = some hs ∧ run numbers hs someCalls = .ok (rs, hs') ∧
      hs'.map.nEntries = tally Slot.isLive hs'.map.entries hs'.map.capacity ∧
      hs'.map.tombstones = tally Slot.isTombstone hs'.map.entries hs'.map.capacity := by
  have hret : ((init numbers 8).map fun hs => (run numbers hs someCalls).toOption.isSome) =
      some true := by decide +kernel
  obtain ⟨hs, hinit, hsome⟩ := Option.map_eq_some_iff.mp hret
  cases hrun : run numbers hs someCalls with
  | error e => rw [hrun] at hsome; cases hsome
  | ok p =>
    exact ⟨hs, p.1, p.2, hinit, hrun,
      run_counters numbers_lawful hinit (someCalls_proper hinit) (.inr ⟨p.1, hrun⟩)⟩

/-- Calls one of which files an object under another key. -/
def strayCalls : List (Op Nat) :=
  [.apply 0 (fun _ => some 5), .put 3, .put 11, .put 13, .remove 13, .gc 0 0]

/-- An apply function that returns an object with another key breaks the counters: the scan
looks the stray object up under its own key, ends at an empty slot, and buries that slot. -/
theorem run_counters_strayCalls :
    ∃ hs rs hs', init numbers 8 = some hs ∧ run numbers hs strayCalls = .ok (rs, hs') ∧
      hs'.map.nEntries = 3 ∧ tally Slot.isLive hs'.map.entries hs'.map.capacity = 4 := by
  have heval : ((init numbers 8).map fun hs => (run numbers hs strayCalls).toOption.map fun p =>
      (p.2.map.nEntries, tally Slot.isLive p.2.map.entries p.2.map.capacity)) =
      some (some (3, 4)) := by decide +kernel
  obtain ⟨hs, hinit, hsome⟩ := Option.map_eq_some_iff.mp heval
  cases hrun : run numbers hs strayCalls with
  | error e => rw [hrun] at hsome; cases hsome
  | ok p =>
    rw [hrun] at hsome
    have hpair := Prod.mk.inj (Option.some.inj hsome)
    exact ⟨hs, p.1, p.2, hinit, hrun, hpair.1, hpair.2⟩

end Runs

end ConcurrencyKit.Hs
