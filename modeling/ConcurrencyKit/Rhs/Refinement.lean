import ConcurrencyKit.Rhs.Restarts

/-!
# `ck_rhs` is a set of keyed objects

Every sequence of calls from `ck_rhs_init` returns what a finite set keyed by the comparison
returns, and leaves the words of that set in the map. The exceptions are part of the statement: a
call that gives up because an allocation failed, or because the capacity got too large, leaves the
set as it was, and `ck_rhs_grow` refuses a capacity below the present one.
-/

namespace ConcurrencyKit.Rhs

variable {V : Type} [DecidableEq V] {cfg : Config V}

/-! ## What holds between calls -/

/-- The map is as its invariants say, and represents the set. -/
structure Settled (hl : cfg.Lawful) (m : Map V) (S : KeyedSet V hl.keys) : Prop where
  valid : m.Valid cfg
  bounded : m.Bounded cfg none
  represents : Represents hl m S

/-- The map represents the set if none has been crowded. -/
def Ready (hl : cfg.Lawful) (hs : State V) (S : KeyedSet V hl.keys) : Prop :=
  Uncrowded cfg hs.stores → Settled hl hs.map S

variable {hl : cfg.Lawful} {hs hs' : State V} {S S' : KeyedSet V hl.keys} {key : V}

namespace Settled

variable {m : Map V}

/-- The probe before an installation returns the member for its key. -/
theorem probeInsert (h : Settled hl m S) (key : V) {behavior : ProbeBehavior}
    (hb : behavior = .insert ∨ S.lookup key = none) :
    (m.probeInsert cfg key behavior).object = S.lookup key := by
  rcases hb with rfl | hnone
  · refine h.represents.probed h.valid h.bounded rfl ?_
    unfold Map.startLimit
    split
    · exact le_rfl
    · exact Map.boundGet_le h.bounded.capped _
  · rw [hnone]
    refine Option.eq_none_iff_forall_ne_some.mpr fun object hobject => ?_
    obtain ⟨w, ⟨s, hs, hw⟩, hhit, -⟩ := Map.probe_stored h.valid.lines hobject
    exact KeyedSet.lookup_eq_none.mp hnone w.obj (h.represents.word hs hw).1
      (State.keyMatch_of_hit hhit)

/-- The probe within the bound of the home slot returns the member for its key. -/
theorem probeBound (h : Settled hl m S) (key : V) (behavior : ProbeBehavior)
    (hstops : behavior.stops = false) (hinsert : behavior ≠ .insert) :
    (m.probe cfg (cfg.hf key) key (m.boundGet cfg (m.home (cfg.hf key))) behavior).object =
      S.lookup key := by
  refine h.represents.probed h.valid h.bounded hstops ?_
  unfold Map.startLimit
  rw [if_neg fun hins => hinsert hins.1]

/-- The word that a probe has found. -/
theorem found (h : Settled hl m S) {r : ProbeResult V} {object : V} {slot : Nat}
    (hfound : m.Found cfg (cfg.hit (cfg.hf key) key) (m.home (cfg.hf key)) 0 none r)
    (hobject : r.object = some object) (hslot : r.slot = some slot) :
    m.entries slot = some (cfg.marshal object (cfg.hf object)) := by
  obtain ⟨w, hw, rfl, -⟩ := State.duplicate hl h.valid hfound object slot hobject hslot
  have hlt := h.valid.placed.lt h.valid.lines (Map.place_of_entry hw)
  rw [hw, ← (h.represents.word hlt hw).2]

/-- The fields that have a part in it. -/
theorem congr {m' : Map V} (h : Settled hl m S) (hb : m'.bounds = m.bounds)
    (he : m'.entries = m.entries) (hp : m'.probes = m.probes) (hw : m'.wanted = m.wanted) :
    Settled hl m' S := by
  have hr := Map.Raises.of_bounds hb
  exact ⟨h.valid.congr hr.capacity he hp hw hr.maximum, h.bounded.raise hr hp,
    h.represents.congr (Map.stored_congr he hr.capacity)⟩

end Settled

namespace Ready

open State

theorem next (h : Ready hl hs S) (hf : Follows hs hs')
    (hnext : Settled hl hs.map S → Ready hl hs' S') : Ready hl hs' S' := by
  intro hfew
  exact hnext (h fun m hm => hfew m (hf.stores.subset hm)) hfew

/-- What keeps the words keeps the set. -/
theorem keep (h : Ready hl hs S) (hf : Follows hs hs')
    (hv : hs.map.Valid cfg → Sound cfg hs')
    (hb : hs.map.Valid cfg → hs.map.Bounded cfg none → hs'.map.Bounded cfg none)
    (hs : hs'.map.stored = hs.map.stored) : Ready hl hs' S :=
  h.next hf fun hset hfew => ⟨hv hset.valid hfew, hb hset.valid hset.bounded,
    hset.represents.congr hs⟩

theorem grow (h : Ready hl hs S) (capacity : Nat) : Ready hl (hs.grow cfg capacity).2 S := by
  have hgrown := grow_grown cfg hs capacity
  exact h.keep (.of_grown hgrown) (fun hv => hgrown.sound fun _ => hv)
    (fun _ hb => hgrown.bounded fun _ => hb) hgrown.stored

theorem settled_count (n : Nat) :
    Settled hl (hs.exec [.nEntries n]).map S ↔ Settled hl hs.map S := by
  have hb : (hs.exec [.nEntries n]).map.bounds = hs.map.bounds := rfl
  have he : (hs.exec [.nEntries n]).map.entries = hs.map.entries := rfl
  have hp : (hs.exec [.nEntries n]).map.probes = hs.map.probes := rfl
  have hw : (hs.exec [.nEntries n]).map.wanted = hs.map.wanted := rfl
  exact ⟨fun hset => hset.congr hb.symm he.symm hp.symm hw.symm,
    fun hset => hset.congr hb he hp hw⟩

theorem count (h : Ready hl hs S) (n : Nat) : Ready hl (hs.exec [.nEntries n]) S :=
  h.next (.exec (by simp [Store.Local])) fun hset _ => (settled_count n).mpr hset

theorem postinsert (h : Ready hl hs S) : Ready hl (hs.postinsert cfg) S := by
  have hcount := h.count (hs.map.nEntries + 1)
  unfold State.postinsert
  dsimp only
  split
  · exact hcount.grow _
  · exact hcount

/-- An exchange of words is one of members. -/
theorem exchanged (h : Settled hl hs.map S) {r : ProbeResult V} {insert : V}
    (hfound : hs.map.Found cfg (cfg.hit (cfg.hf key) key) (hs.map.home (cfg.hf key)) 0 none r)
    (hobject : r.object = S.lookup key) (hkey : cfg.keyMatch insert key = true)
    (hstored : hs.replaced r + hs'.map.stored =
      some (cfg.marshal insert (cfg.hf key)) ::ₘ hs.map.stored) :
    Represents hl hs'.map (S.assign insert) := by
  cases hlookup : S.lookup key with
  | none =>
    rw [replaced_miss (hobject.trans hlookup), zero_add] at hstored
    exact h.represents.insert hkey hlookup hstored
  | some u =>
    rw [hlookup] at hobject
    cases hslot : r.slot with
    | none =>
      rw [hfound.missed hslot] at hobject
      cases hobject
    | some slot =>
      have hword := h.found hfound hobject hslot
      obtain ⟨s, f, o, n⟩ := r
      dsimp only at hobject hslot
      subst hobject hslot
      rw [replaced_hit, hword] at hstored
      exact h.represents.replace hkey hlookup hstored

/-- An installation puts the word into the set, unless it gives up or starts over. -/
theorem install (h : Ready hl hs S) {insert : V} {behavior : ProbeBehavior} {guard : Option Nat}
    (hkey : cfg.keyMatch insert key = true)
    (hb : Uncrowded cfg hs.stores → behavior = .insert ∨ S.lookup key = none)
    (hguard : ∀ object, (hs.map.probeInsert cfg key behavior).object = some object →
      guard = (hs.map.probeInsert cfg key behavior).slot)
    (hsome : (hs.map.probeInsert cfg key behavior).first ≠ none ∨
      (hs.map.probeInsert cfg key behavior).slot ≠ none) {r : Relocation × State V}
    (hr : hs.install cfg (cfg.hf key) (hs.map.probeInsert cfg key behavior)
      (cfg.marshal insert (cfg.hf key)) guard = r) :
    Ready hl r.2 (if r.1 = .moved then S.assign insert else S) := by
  have hf := install_follows cfg hs (cfg.hf key) (hs.map.probeInsert cfg key behavior)
    (cfg.marshal insert (cfg.hf key)) guard
  have hsound := fun hv : hs.map.Valid cfg => install_sound hl hv (hl.hf_eq hkey) behavior guard
  have hfitted := fun (hv : hs.map.Valid cfg) hbd => install_fitted hl hv hbd (hl.hf_eq hkey)
    behavior guard hguard hsome
  rw [hr] at hf hsound hfitted
  intro hfew
  have hfew₀ : Uncrowded cfg hs.stores := fun m hm => hfew m (hf.stores.subset hm)
  have hset := h hfew₀
  have hobject := hset.probeInsert key (hb hfew₀)
  have hfound := hs.map.probe_found cfg (cfg.hf key) key hs.map.probeLimit behavior
  have hfit := hfitted hset.valid hset.bounded
  have hvalid := hsound hset.valid hfew
  cases hfit with
  | grown hs' bounded stored =>
    exact ⟨hvalid, bounded, hset.represents.congr stored⟩
  | failed hs' bounded stored =>
    exact ⟨hvalid, bounded, hset.represents.congr stored⟩
  | moved hs' bounded stored =>
    exact ⟨hvalid, bounded, exchanged hset hfound hobject hkey stored⟩

/-- A replacement puts the word into the set, unless it gives up or starts over. -/
theorem relocate (h : Ready hl hs S) {r : ProbeResult V} {object : V} {slot first : Nat}
    (hr : hs.map.probe cfg (cfg.hf key) key (hs.map.boundGet cfg (hs.map.home (cfg.hf key)))
      .probe = r) (hobject : r.object = some object) (hslot : r.slot = some slot)
    (hfirst : r.first = some first) {res : Relocation × State V}
    (hres : hs.relocate cfg (cfg.hf key) key first slot r.nProbes = res) :
    Ready hl res.2 (if res.1 = .moved then S.assign key else S) := by
  have hf := relocate_follows cfg hs (cfg.hf key) key first slot r.nProbes
  rw [hres] at hf
  refine h.next hf fun hset hfew => ?_
  have hlookup := hset.probeBound key .probe rfl (by decide)
  have hfound := hs.map.probe_found cfg (cfg.hf key) key
    (hs.map.boundGet cfg (hs.map.home (cfg.hf key))) .probe
  rw [hr] at hlookup hfound
  obtain ⟨hsound, hfit⟩ :=
    relocate_fitted hl hset.valid hset.bounded hfound hobject hslot hfirst
  rw [hres] at hfit hsound
  have hvalid := hsound hfew
  cases hfit with
  | grown hs' bounded stored =>
    exact ⟨hvalid, bounded, hset.represents.congr stored⟩
  | failed hs' bounded stored =>
    exact ⟨hvalid, bounded, hset.represents.congr stored⟩
  | moved hs' bounded stored =>
    exact ⟨hvalid, bounded, exchanged hset hfound hlookup (Callbacks.keyMatch_refl key) stored⟩

/-- A deletion takes the member for the key out of the set. -/
theorem delete (h : Ready hl hs S) {object : V} {slot : Nat}
    (hfound : Settled hl hs.map S → S.lookup key = some object ∧
      hs.map.entries slot = some (cfg.marshal object (cfg.hf object))) :
    Ready hl (hs.doBackwardShiftDelete cfg slot) (S.erase key) := by
  refine h.next (.quiet (doBackwardShiftDelete_quiet cfg hs slot)) fun hset _ => ?_
  obtain ⟨hlookup, hword⟩ := hfound hset
  have hused : hs.map.entries slot ≠ none := by
    rw [hword]
    exact Option.some_ne_none _
  obtain ⟨hb, hstored⟩ := doBackwardShiftDelete_bounded hset.valid hset.bounded hused
  rw [hword] at hstored
  exact ⟨doBackwardShiftDelete_valid hset.valid hused, hb,
    hset.represents.erase hlookup hstored⟩

/-- The word takes the place of the one that has been found. -/
theorem swap (h : Ready hl hs S) {r : ProbeResult V} {object : V} {slot : Nat}
    (hfound : hs.map.Found cfg (cfg.hit (cfg.hf key) key) (hs.map.home (cfg.hf key)) 0 none r)
    (hlookup : Settled hl hs.map S → r.object = S.lookup key)
    (hobject : r.object = some object) (hslot : r.slot = some slot) (hfirst : r.first = none) :
    Ready hl (hs.exec [.entry slot (some (cfg.marshal key (cfg.hf key))), .probes slot r.nProbes])
      (S.assign key) := by
  refine h.next (.exec (by simp [Store.Local])) fun hset _ => ?_
  obtain ⟨hv, hfit⟩ := swap_fitted hl hset.valid hset.bounded hfound hobject hslot hfirst
  generalize hs.exec _ = hs' at hv hfit ⊢
  cases hfit with
  | moved _ bounded stored =>
    exact ⟨hv, bounded,
      exchanged hset hfound (hlookup hset) (Callbacks.keyMatch_refl key) stored⟩

end Ready

/-! ## The abstract set -/

/-- No word for the key is in the map. -/
def Map.Absent (cfg : Config V) (m : Map V) (key : V) : Prop :=
  ∀ s w, m.entries s = some w → cfg.keyMatch w.obj key = false

/-- What a call does to, and returns from, a set of keyed objects. `capacity` is that of the
present map: `ck_rhs_grow` refuses a smaller one. -/
noncomputable def abstractStep {r : Setoid V} (capacity : Nat) (S : KeyedSet V r) :
    Op V → Result V × KeyedSet V r
  | .put key =>
    match S.lookup key with
    | some _ => (⟨false, none⟩, S)
    | none => (⟨true, none⟩, S.assign key)
  | .putUnique key => (⟨true, none⟩, S.assign key)
  | .set key => (⟨true, S.lookup key⟩, S.assign key)
  | .fas key =>
    match S.lookup key with
    | some object => (⟨true, some object⟩, S.assign key)
    | none => (⟨false, none⟩, S)
  | .apply key fn =>
    match fn (S.lookup key) with
    | none => (⟨true, none⟩, S.erase key)
    | some insert => (⟨true, none⟩, if S.lookup key = some insert then S else S.assign insert)
  | .remove key => (⟨true, S.lookup key⟩, S.erase key)
  | .get key => (⟨true, S.lookup key⟩, S)
  | .grow requested => (⟨decide (capacity ≤ requested), none⟩, S)
  | .rebuild | .gc => (⟨true, none⟩, S)
  | .setLoadFactor loadFactor => (⟨decide (1 ≤ loadFactor ∧ loadFactor ≤ 100), none⟩, S)
  | .reset => (⟨true, none⟩, KeyedSet.empty)

/-- The contract of a call: `ck_rhs_put_unique` only with an absent key, and an apply function
that returns `NULL`, the object it was given, or an object equal to the key. -/
def Op.Proper (cfg : Config V) (m : Map V) : Op V → Prop
  | .putUnique key => m.Absent cfg key
  | .apply key fn => ∀ object insert, fn object = some insert →
      object = some insert ∨ cfg.keyMatch insert key = true
  | _ => True

/-- Every call of a run from `hs` is proper. -/
def ProperRun (cfg : Config V) : State V → List (Op V) → Prop
  | _, [] => True
  | hs, op :: ops => op.Proper cfg hs.map ∧
      ∀ r hs', step cfg hs op = .ok (r, hs') → ProperRun cfg hs' ops

/-- A call behaves like the set, or it gives up and changes nothing. -/
def Agrees (hl : cfg.Lawful) (capacity : Nat) (hs : State V) (S : KeyedSet V hl.keys) (op : Op V)
    (r : Result V) (hs' : State V) (S' : KeyedSet V hl.keys) : Prop :=
  (r, S') = abstractStep capacity S op ∨ (r.ok = false ∧ State.Exhausted cfg hs hs' ∧ S' = S)

/-- A run whose every call agrees with the set and leaves the map representing it. -/
inductive Refined (hl : cfg.Lawful) :
    State V → KeyedSet V hl.keys → List (Op V) → List (Result V) → State V → Prop
  | nil {hs : State V} {S : KeyedSet V hl.keys} (rep : Represents hl hs.map S) :
      Refined hl hs S [] [] hs
  | cons {hs hs₁ hs' : State V} {S S₁ : KeyedSet V hl.keys} {op : Op V} {ops : List (Op V)}
      {r : Result V} {rs : List (Result V)} (rep : Represents hl hs.map S)
      (call : step cfg hs op = .ok (r, hs₁)) (agrees : Agrees hl hs.map.capacity hs S op r hs₁ S₁)
      (rest : Refined hl hs₁ S₁ ops rs hs') : Refined hl hs S (op :: ops) (r :: rs) hs'

/-! ## One call -/

/-- What a call that has returned has done. -/
structure Stepped (hl : cfg.Lawful) (capacity : Nat) (hs : State V) (S : KeyedSet V hl.keys)
    (op : Op V) (r : Result V) (hs' : State V) : Prop where
  evolves : State.Evolves hs hs'
  follows : State.Follows hs hs'
  agrees : Uncrowded cfg hs'.stores →
    ∃ S', Agrees hl capacity hs S op r hs' S' ∧ Settled hl hs'.map S'

/-- What a call that was not done after some rounds has done. -/
structure Stuck (cfg : Config V) (rounds : Nat) (hs hs' : State V) : Prop where
  evolves : State.Evolves hs hs'
  follows : State.Follows hs hs'
  peak : 2 ^ 31 ≤ hs'.peak ∨ hs.map.capacity * 2 ^ rounds ≤ hs'.peak

/-- A call that has returned or was not done. -/
def Called (hl : cfg.Lawful) (capacity rounds : Nat) (hs : State V) (S : KeyedSet V hl.keys)
    (op : Op V) : Except (State V) (Result V × State V) → Prop
  | .ok (r, hs') => Stepped hl capacity hs S op r hs'
  | .error hs' => Stuck cfg rounds hs hs'

section Calls

open State

variable {capacity rounds : Nat} {op : Op V} {r : Result V}

omit [DecidableEq V] in
theorem uncrowded_of_follows (hf : Follows hs hs') (hfew : Uncrowded cfg hs'.stores) :
    Uncrowded cfg hs.stores := fun m hm => hfew m (hf.stores.subset hm)

/-- The state from which a call goes on. -/
structure Passed (hl : cfg.Lawful) (hs hs' : State V) (S : KeyedSet V hl.keys) : Prop where
  evolves : Evolves hs hs'
  follows : Follows hs hs'
  ready : Ready hl hs' S

/-- The state in which a call starts. -/
structure Open (hl : cfg.Lawful) (hs : State V) (S : KeyedSet V hl.keys) : Prop where
  ready : Ready hl hs S
  sized : hs.map.Sized
  capacity : hs.map.capacity ≤ hs.peak

theorem Open.pos (h : Open hl hs S) : 0 < hs.map.capacity := by
  obtain ⟨k, -, -, hc⟩ := h.sized
  exact hc ▸ Nat.two_pow_pos k

theorem Passed.open (h : Passed hl hs hs' S') (ho : Open hl hs S) : Open hl hs' S' :=
  ⟨h.ready, h.follows.sized ho.sized, h.evolves.capacity ho.capacity⟩

theorem Passed.refl (h : Ready hl hs S) : Passed hl hs hs S := ⟨.refl hs, .refl hs, h⟩

theorem Passed.grow (h : Open hl hs S) (requested : Nat) :
    Passed hl hs (hs.grow cfg requested).2 S :=
  ⟨(grow_asked cfg h.pos requested).evolves, .of_grown (grow_grown cfg hs requested),
    h.ready.grow requested⟩

theorem Passed.postinsert (h : Open hl hs S) : Passed hl hs (hs.postinsert cfg) S :=
  ⟨postinsert_evolves h.pos, postinsert_follows cfg hs, h.ready.postinsert⟩

theorem Passed.trans {hs₁ : State V} (h : Passed hl hs hs₁ S) (h' : Passed hl hs₁ hs' S') :
    Passed hl hs hs' S' :=
  ⟨h.evolves.trans h'.evolves, h.follows.trans h'.follows, h'.ready⟩

theorem Passed.stepped (h : Passed hl hs hs' S') (ho : Ready hl hs S)
    (hagrees : Uncrowded cfg hs.stores → Settled hl hs.map S →
      Agrees hl capacity hs S op r hs' S') : Stepped hl capacity hs S op r hs' := by
  refine ⟨h.evolves, h.follows, fun hfew => ?_⟩
  have hfew₀ := uncrowded_of_follows h.follows hfew
  exact ⟨S', hagrees hfew₀ (ho hfew₀), h.ready hfew⟩

/-- A call that gives up. -/
theorem Passed.exhausted (h : Passed hl hs hs' S) (ho : Ready hl hs S)
    (hex : Exhausted cfg hs hs') (hr : r.ok = false) : Stepped hl capacity hs S op r hs' :=
  h.stepped ho fun _ _ => .inr ⟨hr, hex, rfl⟩

/-- A call that starts over with twice the capacity. -/
theorem Called.restart {hs₁ : State V} {res : Except (State V) (Result V × State V)}
    (hd : Doubles hs hs₁) (hp : Passed hl hs hs₁ S)
    (h : Called hl capacity rounds hs₁ S op res) : Called hl capacity (rounds + 1) hs S op res := by
  cases res with
  | ok p =>
    refine ⟨hp.evolves.trans h.evolves, hp.follows.trans h.follows, fun hfew => ?_⟩
    obtain ⟨S', hag, hset⟩ := h.agrees hfew
    exact ⟨S', hag.imp_right fun hex => ⟨hex.1, hex.2.1.mono_left hp.evolves, hex.2.2⟩, hset⟩
  | error hs' =>
    refine ⟨hp.evolves.trans h.evolves, hp.follows.trans h.follows, ?_⟩
    rcases h.peak with hpeak | hpeak
    · exact .inl hpeak
    rcases hd with hd | hd
    · exact .inl (hd.trans h.evolves.peak)
    · refine .inr (le_trans ?_ hpeak)
      calc hs.map.capacity * 2 ^ (rounds + 1) = hs.map.capacity * 2 * 2 ^ rounds := by ring
        _ ≤ hs₁.map.capacity * 2 ^ rounds := Nat.mul_le_mul_right _ hd

/-- A call that goes on with the same capacity. -/
theorem Called.after {hs₁ : State V} {res : Except (State V) (Result V × State V)}
    (h : Called hl capacity rounds hs₁ S op res) (hp : Passed hl hs hs₁ S)
    (hc : hs₁.map.capacity = hs.map.capacity) : Called hl capacity rounds hs S op res := by
  cases res with
  | ok p =>
    refine ⟨hp.evolves.trans h.evolves, hp.follows.trans h.follows, fun hfew => ?_⟩
    obtain ⟨S', hag, hset⟩ := h.agrees hfew
    exact ⟨S', hag.imp_right fun hex => ⟨hex.1, hex.2.1.mono_left hp.evolves, hex.2.2⟩, hset⟩
  | error hs' =>
    exact ⟨hp.evolves.trans h.evolves, hp.follows.trans h.follows, hc ▸ h.peak⟩

/-- A call for which no round is left. -/
theorem Called.out (h : Open hl hs S) : Called hl capacity 0 hs S op (.error hs) :=
  ⟨.refl hs, .refl hs, .inr (by rw [Nat.pow_zero, Nat.mul_one]; exact h.capacity)⟩

/-- A call that has found no room. -/
theorem Called.grow {f : State V → Except (State V) (Result V × State V)} (h : Open hl hs S)
    (hr : r.ok = false)
    (hrest : ∀ hs₁, Passed hl hs hs₁ S → Called hl capacity rounds hs₁ S op (f hs₁)) :
    Called hl capacity (rounds + 1) hs S op
      (match hs.grow cfg (hs.map.capacity * 2) with
      | (false, hs) => .ok (r, hs)
      | (true, hs) => f hs) := by
  have hpassed := Passed.grow h (hs.map.capacity * 2)
  have hasked := grow_asked cfg h.pos (hs.map.capacity * 2)
  generalize hs.grow cfg (hs.map.capacity * 2) = res at hpassed hasked ⊢
  obtain ⟨_ | _, hs₁⟩ := res
  · refine hpassed.exhausted h.ready ((hasked.failed rfl).resolve_left fun hlt => ?_) hr
    have hpos := h.pos
    omega
  · exact (hrest hs₁ hpassed).restart (hasked.grown rfl) hpassed

/-- What has become of an installation, or of a replacement. -/
structure Placing (hl : cfg.Lawful) (hs : State V) (S : KeyedSet V hl.keys) (insert : V)
    (res : Relocation × State V) : Prop where
  tried : Tried cfg hs res
  passed : Passed hl hs res.2 (if res.1 = .moved then S.assign insert else S)

theorem Placing.grown {insert : V} {hs₁ : State V} (h : Placing hl hs S insert (.grown, hs₁)) :
    Doubles hs hs₁ ∧ Passed hl hs hs₁ S := ⟨h.tried.grown rfl, h.passed⟩

theorem Placing.failed {insert : V} {hs₁ : State V} (h : Placing hl hs S insert (.failed, hs₁))
    (ho : Open hl hs S) (hr : r.ok = false) : Stepped hl capacity hs S op r hs₁ :=
  Passed.exhausted h.passed ho.ready (h.tried.failed rfl) hr

theorem Placing.moved {insert : V} {hs₁ : State V} (h : Placing hl hs S insert (.moved, hs₁)) :
    Passed hl hs hs₁ (S.assign insert) := h.passed

theorem install_placing (h : Open hl hs S) {insert : V} {behavior : ProbeBehavior}
    (p : ProbeResult V) (guard : Option Nat) (hkey : cfg.keyMatch insert key = true)
    (hb : Uncrowded cfg hs.stores → behavior = .insert ∨ S.lookup key = none)
    (hp : hs.map.probe cfg (cfg.hf key) key hs.map.probeLimit behavior = p)
    (hguard : ∀ object, p.object = some object → guard = p.slot)
    (hsome : ¬ (p.slot = none ∧ p.first = none)) :
    Placing hl hs S insert
      (hs.install cfg (cfg.hf key) p (cfg.marshal insert (cfg.hf key)) guard) := by
  have hsome' : p.first ≠ none ∨ p.slot ≠ none := by
    by_contra hnone
    rw [not_or, not_not, not_not] at hnone
    exact hsome hnone.symm
  subst hp
  exact ⟨install_tried h.pos _ _ _ _ hsome', (install_tried h.pos _ _ _ _ hsome').evolves,
    install_follows cfg hs _ _ _ _, h.ready.install hkey hb hguard hsome' rfl⟩

/-- The calls of `ck_rhs_put_internal`. -/
theorem putInternal_called (h : Open hl hs S) {behavior : ProbeBehavior}
    (hb : Uncrowded cfg hs.stores → behavior = .insert ∨ S.lookup key = none)
    (hold : ∀ u, S.lookup key = some u → behavior = .insert →
      abstractStep capacity S op = (⟨false, none⟩, S))
    (hnew : S.lookup key = none → abstractStep capacity S op = (⟨true, none⟩, S.assign key)) :
    Called hl capacity rounds hs S op
      (putInternal cfg (cfg.hf key) key behavior rounds hs >>=
        fun p => .ok (⟨p.1, none⟩, p.2)) := by
  induction rounds generalizing hs with
  | zero => exact Called.out h
  | succ rounds ih =>
    rw [putInternal]
    have hrest : ∀ hs₁, Passed hl hs hs₁ S → Called hl capacity rounds hs₁ S op
        (putInternal cfg (cfg.hf key) key behavior rounds hs₁ >>=
          fun p => .ok (⟨p.1, none⟩, p.2)) := fun hs₁ hp =>
      ih (hp.open h) fun hfew => hb (uncrowded_of_follows hp.follows hfew)
    have hobject := fun hfew (hset : Settled hl hs.map S) => hset.probeInsert key (hb hfew)
    have hplacing := fun p => install_placing h p none (Callbacks.keyMatch_refl key) hb
    unfold Map.probeInsert at hobject
    generalize hs.map.probe cfg (cfg.hf key) key hs.map.probeLimit behavior = p
      at hobject hplacing ⊢
    split
    · have hgrow := Called.grow (r := ⟨false, none⟩) h rfl hrest
      generalize hs.grow cfg (hs.map.capacity * 2) = res at hgrow ⊢
      obtain ⟨_ | _, hs₁⟩ := res <;> exact hgrow
    rename_i hsome
    split
    · -- the key is present
      rename_i hfound
      obtain ⟨u, hu⟩ := Option.isSome_iff_exists.mp hfound
      refine (Passed.refl h.ready).stepped h.ready fun hfew hset => .inl ?_
      have hlookup := (hobject hfew hset).symm.trans hu
      have hins := (hb hfew).resolve_right (by rw [hlookup]; exact Option.some_ne_none u)
      exact (hold u hlookup hins).symm
    rename_i hfound
    rw [Option.not_isSome_iff_eq_none] at hfound
    have hplacing := hplacing p rfl (fun object hobj => by rw [hfound] at hobj; cases hobj) hsome
    generalize hs.install cfg _ p _ none = res at hplacing ⊢
    obtain ⟨_ | _ | _, hs₁⟩ := res
    · have hmoved := hplacing.moved
      refine (hmoved.trans (.postinsert (hmoved.open h))).stepped h.ready fun hfew hset => .inl ?_
      exact (hnew ((hobject hfew hset).symm.trans hfound)).symm
    · exact hplacing.failed h rfl
    · exact (hrest hs₁ hplacing.grown.2).restart hplacing.grown.1 hplacing.grown.2

/-- `ck_rhs_set`. -/
theorem setLoop_called (h : Open hl hs S) (key : V) :
    Called hl capacity rounds hs S (.set key)
      (setLoop cfg (cfg.hf key) key rounds hs >>= fun p => .ok (⟨p.1.1, p.1.2⟩, p.2)) := by
  induction rounds generalizing hs with
  | zero => exact Called.out h
  | succ rounds ih =>
    rw [setLoop]
    have hrest : ∀ hs₁, Passed hl hs hs₁ S → Called hl capacity rounds hs₁ S (.set key)
        (setLoop cfg (cfg.hf key) key rounds hs₁ >>= fun p => .ok (⟨p.1.1, p.1.2⟩, p.2)) :=
      fun hs₁ hp => ih (hp.open h)
    have hobject := fun hset : Settled hl hs.map S => hset.probeInsert key (.inl rfl)
    have hplacing := fun p guard =>
      install_placing h p guard (Callbacks.keyMatch_refl key) fun _ => .inl rfl
    unfold Map.probeInsert at hobject
    generalize hs.map.probe cfg (cfg.hf key) key hs.map.probeLimit .insert = p at hobject hplacing ⊢
    split
    · have hgrow := Called.grow (r := ⟨false, none⟩) h rfl hrest
      generalize hs.grow cfg (hs.map.capacity * 2) = res at hgrow ⊢
      obtain ⟨_ | _, hs₁⟩ := res <;> exact hgrow
    rename_i hsome
    have hplacing := hplacing p p.slot rfl (fun _ _ => rfl) hsome
    generalize hs.install cfg _ p _ p.slot = res at hplacing ⊢
    obtain ⟨_ | _ | _, hs₁⟩ := res
    · have hmoved := hplacing.moved
      have hend : Passed hl hs (if p.object.isSome then hs₁ else hs₁.postinsert cfg)
          (S.assign key) := by
        split
        · exact hmoved
        · exact hmoved.trans (.postinsert (hmoved.open h))
      refine hend.stepped h.ready fun _ hset => .inl ?_
      rw [abstractStep, hobject hset]
    · exact hplacing.failed h rfl
    · exact (hrest hs₁ hplacing.grown.2).restart hplacing.grown.1 hplacing.grown.2

/-- A deletion that has found nothing is one from the set as well. -/
theorem erase_missed {p : ProbeResult V}
    (hfound : hs.map.Found cfg (cfg.hit (cfg.hf key) key) (hs.map.home (cfg.hf key)) 0 none p)
    (hobject : p.object = S.lookup key)
    (hmiss : ∀ object slot, p.object = some object → p.slot = some slot → False) :
    p.object = none ∧ S.erase key = S := by
  have hnone : p.object = none := by
    cases hobj : p.object with
    | none => rfl
    | some object =>
      cases hslot : p.slot with
      | none =>
        rw [hfound.missed hslot] at hobj
        cases hobj
      | some slot => exact (hmiss object slot hobj hslot).elim
  exact ⟨hnone, KeyedSet.erase_of_lookup_none (hobject.symm.trans hnone)⟩

/-- `ck_rhs_fas`. -/
theorem fasLoop_called (h : Open hl hs S) (key : V) :
    Called hl capacity rounds hs S (.fas key)
      (fasLoop cfg (cfg.hf key) key rounds hs >>= fun p => .ok (⟨p.1.1, p.1.2⟩, p.2)) := by
  induction rounds generalizing hs with
  | zero => exact Called.out h
  | succ rounds ih =>
    rw [fasLoop]
    have hrest : ∀ hs₁, Passed hl hs hs₁ S → Called hl capacity rounds hs₁ S (.fas key)
        (fasLoop cfg (cfg.hf key) key rounds hs₁ >>= fun p => .ok (⟨p.1.1, p.1.2⟩, p.2)) :=
      fun hs₁ hp => ih (hp.open h)
    have hobject := fun hset : Settled hl hs.map S =>
      hset.probeBound key .probe rfl (by decide)
    have hfound := hs.map.probe_found cfg (cfg.hf key) key
      (hs.map.boundGet cfg (hs.map.home (cfg.hf key))) .probe
    have hplacing : ∀ p object slot first, hs.map.probe cfg (cfg.hf key) key
        (hs.map.boundGet cfg (hs.map.home (cfg.hf key))) .probe = p → p.object = some object →
        p.slot = some slot → p.first = some first →
        Placing hl hs S key (hs.relocate cfg (cfg.hf key) key first slot p.nProbes) :=
      fun p object slot first hp hobj hslot hfirst =>
        ⟨relocate_tried h.pos _ _ _ _ _, (relocate_tried h.pos _ _ _ _ _).evolves,
          relocate_follows cfg hs _ _ _ _ _, h.ready.relocate hp hobj hslot hfirst rfl⟩
    generalize hs.map.probe cfg (cfg.hf key) key _ .probe = p at hobject hfound hplacing ⊢
    dsimp only
    split
    · rename_i object slot hobj hslot
      have hfas : Settled hl hs.map S →
          abstractStep capacity S (.fas key) = (⟨true, some object⟩, S.assign key) := by
        intro hset
        rw [abstractStep, ← hobject hset, hobj]
      split
      · rename_i first hfirst
        have hplacing := hplacing p object slot first rfl hobj hslot hfirst
        unfold relocate at hplacing
        generalize (hs.markRh (some slot) true).putRobinHood cfg first = res at hplacing ⊢
        obtain ⟨_ | _ | _, hs₁⟩ := res
        · exact hplacing.moved.stepped h.ready fun _ hset => .inl (hfas hset).symm
        · exact hplacing.failed h rfl
        · exact (hrest hs₁ hplacing.grown.2).restart hplacing.grown.1 hplacing.grown.2
      · rename_i hfirst
        have hswap : Passed hl hs (hs.exec [.entry slot (some (cfg.marshal key (cfg.hf key))),
            .probes slot p.nProbes]) (S.assign key) :=
          ⟨exec_evolves (by simp [Store.Local]), .exec (by simp [Store.Local]),
            h.ready.swap hfound hobject hobj hslot hfirst⟩
        exact hswap.stepped h.ready fun _ hset => .inl (hfas hset).symm
    · rename_i hmiss
      refine (Passed.refl h.ready).stepped h.ready fun _ hset => .inl ?_
      rw [abstractStep, ← hobject hset, (erase_missed hfound (hobject hset) hmiss).1]

/-- `ck_rhs_apply`. -/
theorem applyLoop_called (h : Open hl hs S) {fn : Option V → Option V}
    (hproper : ∀ object insert, fn object = some insert →
      object = some insert ∨ cfg.keyMatch insert key = true) {delta : Option (Option V)}
    (hdelta : ∀ d, delta = some d → ∃ insert, d = some insert ∧ cfg.keyMatch insert key = true ∧
      (Uncrowded cfg hs.stores → fn (S.lookup key) = some insert)) :
    Called hl capacity rounds hs S (.apply key fn)
      (applyLoop cfg (cfg.hf key) key fn rounds delta hs >>= fun p => .ok (⟨p.1, none⟩, p.2)) := by
  induction rounds generalizing hs delta with
  | zero => exact Called.out h
  | succ rounds ih =>
    rw [applyLoop]
    have hrest : ∀ hs₁ delta, Passed hl hs hs₁ S → (∀ d, delta = some d → ∃ insert,
        d = some insert ∧ cfg.keyMatch insert key = true ∧
          (Uncrowded cfg hs.stores → fn (S.lookup key) = some insert)) →
        Called hl capacity rounds hs₁ S (.apply key fn)
          (applyLoop cfg (cfg.hf key) key fn rounds delta hs₁ >>=
            fun p => .ok (⟨p.1, none⟩, p.2)) := by
      intro hs₁ delta hp hdelta
      refine ih (hp.open h) fun d hd => ?_
      obtain ⟨insert, rfl, hkey, hfn⟩ := hdelta d hd
      exact ⟨insert, rfl, hkey, fun hfew => hfn (uncrowded_of_follows hp.follows hfew)⟩
    have hobject := fun hset : Settled hl hs.map S => hset.probeInsert key (.inl rfl)
    have hfound := hs.map.probe_found cfg (cfg.hf key) key hs.map.probeLimit .insert
    have hplacing := fun p insert guard (hkey : cfg.keyMatch insert key = true) =>
      install_placing h p guard hkey fun _ => .inl rfl
    unfold Map.probeInsert at hobject
    generalize hs.map.probe cfg (cfg.hf key) key hs.map.probeLimit .insert = p
      at hobject hfound hplacing ⊢
    dsimp only
    split
    · have hgrow := Called.grow (r := ⟨false, none⟩) h rfl fun hs₁ hp => hrest hs₁ delta hp hdelta
      generalize hs.grow cfg (hs.map.capacity * 2) = res at hgrow ⊢
      obtain ⟨_ | _, hs₁⟩ := res <;> exact hgrow
    rename_i hsome
    -- the answer of the apply function, now or in a round before
    have hanswer : Uncrowded cfg hs.stores → Settled hl hs.map S →
        fn (S.lookup key) = delta.getD (fn p.object) := by
      intro hfew hset
      cases delta with
      | none => rw [Option.getD_none, hobject hset]
      | some d =>
        obtain ⟨insert, rfl, -, hfn⟩ := hdelta d rfl
        exact hfn hfew
    have hkey : ∀ insert, delta.getD (fn p.object) = some insert → p.object ≠ some insert →
        cfg.keyMatch insert key = true := by
      intro insert hins hne
      cases delta with
      | none => exact (hproper p.object insert hins).resolve_left hne
      | some d =>
        obtain ⟨insert', rfl, hkey, -⟩ := hdelta d rfl
        cases hins
        exact hkey
    generalize delta.getD (fn p.object) = answer at hanswer hkey ⊢
    cases answer with
    | none =>
      dsimp only
      split
      · rename_i object slot hobj hslot
        have hdelete : Passed hl hs (hs.doBackwardShiftDelete cfg slot) (S.erase key) :=
          ⟨delete_evolves cfg hs slot, .quiet (doBackwardShiftDelete_quiet cfg hs slot),
            h.ready.delete fun hset =>
              ⟨(hobject hset).symm.trans hobj, hset.found hfound hobj hslot⟩⟩
        refine hdelete.stepped h.ready fun hfew hset => .inl ?_
        rw [abstractStep, hanswer hfew hset]
      · rename_i hmiss
        refine (Passed.refl h.ready).stepped h.ready fun hfew hset => .inl ?_
        rw [abstractStep, hanswer hfew hset,
          (erase_missed hfound (hobject hset) hmiss).2]
    | some insert =>
      dsimp only
      split
      · rename_i hsame
        refine (Passed.refl h.ready).stepped h.ready fun hfew hset => .inl ?_
        rw [abstractStep, hanswer hfew hset]
        dsimp only
        rw [if_pos ((hobject hset).symm.trans hsame)]
      rename_i hne
      have hkey := hkey insert rfl hne
      have hplacing := hplacing p insert p.slot hkey rfl (fun _ _ => rfl) hsome
      generalize hs.install cfg _ p _ p.slot = res at hplacing ⊢
      obtain ⟨_ | _ | _, hs₁⟩ := res
      · have hmoved := hplacing.moved
        have hend : Passed hl hs (if p.object.isSome then hs₁ else hs₁.postinsert cfg)
            (S.assign insert) := by
          split
          · exact hmoved
          · exact hmoved.trans (.postinsert (hmoved.open h))
        refine hend.stepped h.ready fun hfew hset => .inl ?_
        rw [abstractStep, hanswer hfew hset]
        dsimp only
        rw [if_neg fun hlookup => hne ((hobject hset).trans hlookup)]
      · exact hplacing.failed h rfl
      · refine (hrest hs₁ (some (some insert)) hplacing.grown.2 ?_).restart hplacing.grown.1
          hplacing.grown.2
        rintro d ⟨⟩
        exact ⟨insert, rfl, hkey, fun hfew => hanswer hfew (h.ready hfew)⟩

/-- `ck_rhs_remove`. -/
theorem remove_called (h : Open hl hs S) (key : V) :
    Stepped hl capacity hs S (.remove key) ⟨true, (hs.remove cfg (cfg.hf key) key).1⟩
      (hs.remove cfg (cfg.hf key) key).2 := by
  unfold State.remove
  have hobject := fun hset : Settled hl hs.map S =>
    hset.probeBound key .noRh rfl (by decide)
  have hfound := hs.map.probe_found cfg (cfg.hf key) key
    (hs.map.boundGet cfg (hs.map.home (cfg.hf key))) .noRh
  generalize hs.map.probe cfg (cfg.hf key) key _ .noRh = p at hobject hfound ⊢
  dsimp only
  split
  · rename_i object slot hobj hslot
    generalize dec 64 hs.map.nEntries = n
    have hcount : Passed hl hs (hs.exec [.nEntries n]) S :=
      ⟨exec_evolves (by simp [Store.Local]), .exec (by simp [Store.Local]), h.ready.count n⟩
    have hdelete : Passed hl (hs.exec [.nEntries n])
        ((hs.exec [.nEntries n]).doBackwardShiftDelete cfg slot) (S.erase key) :=
      ⟨delete_evolves cfg _ slot, .quiet (doBackwardShiftDelete_quiet cfg _ slot),
        hcount.ready.delete fun hset =>
          have hset' := (Ready.settled_count n).mp hset
          ⟨(hobject hset').symm.trans hobj, hset'.found hfound hobj hslot⟩⟩
    refine (hcount.trans hdelete).stepped h.ready fun _ hset => .inl ?_
    rw [abstractStep, ← hobject hset, hobj]
  · rename_i hmiss
    refine (Passed.refl h.ready).stepped h.ready fun _ hset => .inl ?_
    obtain ⟨hnone, herase⟩ := erase_missed hfound (hobject hset) hmiss
    rw [abstractStep, ← hobject hset, hnone, herase]

/-- `ck_rhs_grow`, and `ck_rhs_rebuild` at the present capacity. -/
theorem grow_called (h : Open hl hs S) (requested : Nat)
    (hop : abstractStep capacity S op = (⟨decide (hs.map.capacity ≤ requested), none⟩, S)) :
    Stepped hl capacity hs S op ⟨(hs.grow cfg requested).1, none⟩ (hs.grow cfg requested).2 := by
  have hpassed := Passed.grow h requested
  have hasked := grow_asked cfg h.pos requested
  generalize hs.grow cfg requested = res at hpassed hasked ⊢
  obtain ⟨_ | _, hs₁⟩ := res
  · rcases hasked.failed rfl with hlt | hex
    · refine hpassed.stepped h.ready fun _ _ => .inl ?_
      rw [hop, decide_eq_false (Nat.not_le.mpr hlt)]
    · exact hpassed.exhausted h.ready hex rfl
  · refine hpassed.stepped h.ready fun _ _ => .inl ?_
    rw [hop, decide_eq_true (hasked.le rfl)]

/-- `ck_rhs_gc`. -/
theorem gc_called (h : Open hl hs S) : Stepped hl capacity hs S .gc ⟨true, none⟩ hs.gc := by
  have hf : Follows hs hs.gc := .exec (by simp [Store.Local])
  have hstored : hs.gc.map.stored = hs.map.stored := Map.stored_congr rfl rfl
  have hgc : Passed hl hs hs.gc S := ⟨exec_evolves (by simp [Store.Local]), hf,
    h.ready.keep hf (fun hv => .of_valid (gc_valid hv)) gc_bounded hstored⟩
  exact hgc.stepped h.ready fun _ _ => .inl rfl

/-- The loop of `ck_rhs_set_load_factor`. -/
theorem loadLoop_called (h : Open hl hs S)
    (hop : abstractStep capacity S op = (⟨true, none⟩, S)) :
    Called hl capacity rounds hs S op
      (loadLoop cfg rounds hs >>= fun p => .ok (⟨p.1, none⟩, p.2)) := by
  induction rounds generalizing hs with
  | zero => exact Called.out h
  | succ rounds ih =>
    rw [loadLoop]
    split
    · have hgrow := Called.grow (r := ⟨false, none⟩) h rfl fun hs₁ hp => ih (hp.open h)
      generalize hs.grow cfg (hs.map.capacity * 2) = res at hgrow ⊢
      obtain ⟨_ | _, hs₁⟩ := res <;> exact hgrow
    · exact (Passed.refl h.ready).stepped h.ready fun _ _ => .inl hop.symm

theorem created_represents (loadFactor entries : Nat) :
    Represents hl (Map.create loadFactor entries : Map V) KeyedSet.empty := by
  unfold Represents Map.stored
  rw [contents_eq_zero fun _ _ => rfl]
  rfl

/-- `ck_rhs_reset`. -/
theorem reset_called (h : Open hl hs S) :
    Stepped hl capacity hs S .reset ⟨(hs.reset cfg).1, none⟩ (hs.reset cfg).2 := by
  have hev := create_evolves cfg hs hs.map.capacity
  have hfollows := reset_follows cfg hs
  have hsound := fun hv : hs.map.Valid cfg => reset_sound hv
  have hbounded := fun hb : hs.map.Bounded cfg none => reset_bounded hb
  unfold State.reset at hfollows hsound hbounded ⊢
  cases hmalloc : cfg.malloc hs.allocs with
  | false =>
    have hcreate : hs.create cfg hs.map.capacity = (none, (hs.create cfg hs.map.capacity).2) := by
      simp [State.create, hmalloc]
    rw [hcreate] at hfollows hsound hbounded ⊢
    have hpassed : Passed hl hs (hs.create cfg hs.map.capacity).2 S :=
      ⟨hev, hfollows, h.ready.keep hfollows hsound (fun _ => hbounded) rfl⟩
    refine hpassed.exhausted h.ready (.inl ⟨hs.allocs, le_rfl, Nat.lt_succ_self _, hmalloc⟩) rfl
  | true =>
    have hcreate : hs.create cfg hs.map.capacity =
        (some (Map.create hs.loadFactor hs.map.capacity), (hs.create cfg hs.map.capacity).2) := by
      simp [State.create, hmalloc]
    rw [hcreate] at hfollows hsound hbounded ⊢
    dsimp only at hfollows hsound hbounded ⊢
    have hev' : Evolves hs ((hs.create cfg hs.map.capacity).2.exec
        [.map (Map.create hs.loadFactor hs.map.capacity)]) :=
      ⟨hev.allocs, hev.peak, fun _ => (le_max_right _ _).trans (le_max_right _ _)⟩
    have hempty : Ready hl ((hs.create cfg hs.map.capacity).2.exec
        [.map (Map.create hs.loadFactor hs.map.capacity)]) KeyedSet.empty :=
      h.ready.next hfollows fun hset hfew =>
        ⟨hsound hset.valid hfew, hbounded hset.bounded, created_represents _ _⟩
    exact Passed.stepped ⟨hev', hfollows, hempty⟩ h.ready fun _ _ => .inl rfl

/-- Every proper call. -/
theorem step_called (h : Open hl hs S) (hop : op.Proper cfg hs.map) :
    Called hl hs.map.capacity cfg.restarts hs S op (step cfg hs op) := by
  cases op with
  | put key =>
    refine putInternal_called h (fun _ => .inl rfl) (fun u hu _ => ?_) fun hnone => ?_
    · rw [abstractStep, hu]
    · rw [abstractStep, hnone]
  | putUnique key =>
    refine putInternal_called h (fun hfew => .inr ?_) (fun _ _ h => by cases h) fun _ => rfl
    refine KeyedSet.lookup_eq_none.mpr fun v hv hkey => ?_
    obtain ⟨s, -, hw⟩ := (h.ready hfew).represents.mem hv
    exact Bool.noConfusion ((hop s _ hw).symm.trans hkey)
  | set key => exact setLoop_called h key
  | fas key => exact fasLoop_called h key
  | apply key fn => exact applyLoop_called h hop (fun _ h => by cases h)
  | remove key => exact remove_called h key
  | get key =>
    refine (Passed.refl h.ready).stepped h.ready fun _ hset => .inl ?_
    have hobject := hset.probeBound key .noRh rfl (by decide)
    rw [abstractStep, State.get, hobject]
  | grow requested => exact grow_called h requested rfl
  | rebuild => exact grow_called h hs.map.capacity (by rw [abstractStep, decide_eq_true le_rfl])
  | gc => exact gc_called h
  | setLoadFactor loadFactor =>
    rw [step, setLoadFactor]
    split
    · rename_i hout
      refine (Passed.refl h.ready).stepped h.ready fun _ _ => .inl ?_
      rw [abstractStep, decide_eq_false (by omega)]
    · have hset : Passed hl hs ({ hs with loadFactor := loadFactor }.exec
          [.maxEntries (hs.map.capacity * loadFactor / 100)]) S := by
        have hf : Follows hs ({ hs with loadFactor := loadFactor }.exec
            [.maxEntries (hs.map.capacity * loadFactor / 100)]) :=
          ⟨List.prefix_append _ _, id⟩
        exact ⟨⟨le_rfl, le_rfl, id⟩, hf, h.ready.next hf fun hset _ => hset.congr rfl rfl rfl rfl⟩
      refine (loadLoop_called (hset.open h) ?_).after hset rfl
      rw [abstractStep, decide_eq_true (by omega)]
  | reset => exact reset_called h

end Calls

/-! ## Runs -/

section Runs

open State

theorem init_open (hl : cfg.Lawful) {entries : Nat} (hinit : init cfg entries = some hs) :
    Open hl hs KeyedSet.empty := by
  have hv := init_valid hinit
  unfold init at hinit
  split at hinit
  · cases hinit
    refine ⟨fun _ => ⟨hv, ?_, created_represents _ _⟩, hv.capacity, le_max_right _ _⟩
    exact (Map.Filed.create cfg defaultLoadFactor entries).bounded (.create cfg _ _)
  · cases hinit

/-- The run returns and refines the set, unless a capacity reaches `2 ^ 31` or a map is crowded. -/
def RefinesSet (hl : cfg.Lawful) (hs : State V) (S : KeyedSet V hl.keys) (ops : List (Op V)) :
    Prop :=
  match run cfg hs ops with
  | .ok (rs, hs') => Uncrowded cfg hs'.stores → Refined hl hs S ops rs hs'
  | .error hs' => 2 ^ 31 ≤ hs'.peak

/-- The state after a call represents a set, with which the call agrees. -/
theorem Stepped.next {capacity : Nat} {op : Op V} {r : Result V} (h : Open hl hs S)
    (hstep : Stepped hl capacity hs S op r hs') :
    ∃ S', Open hl hs' S' ∧
      (Uncrowded cfg hs'.stores → Agrees hl capacity hs S op r hs' S') := by
  by_cases hfew : Uncrowded cfg hs'.stores
  · obtain ⟨S', hag, hset⟩ := hstep.agrees hfew
    have hpassed : Passed hl hs hs' S' := ⟨hstep.evolves, hstep.follows, fun _ => hset⟩
    exact ⟨S', hpassed.open h, fun _ => hag⟩
  · -- nothing is known of a map that has been crowded
    have hpassed : Passed hl hs hs' S :=
      ⟨hstep.evolves, hstep.follows, fun hfew' => absurd hfew' hfew⟩
    exact ⟨S, hpassed.open h, fun hfew' => absurd hfew' hfew⟩

/-- A call that is not done after all rounds has doubled the capacity too often. -/
theorem Stuck.large {rounds : Nat} (h : Open hl hs S) (hstuck : Stuck cfg rounds hs hs')
    (hrounds : 28 ≤ rounds) : 2 ^ 31 ≤ hs'.peak := by
  refine hstuck.peak.elim id fun hpeak => le_trans ?_ hpeak
  obtain ⟨k, h3, -, hc⟩ := h.sized
  calc 2 ^ 31 = 2 ^ 3 * 2 ^ 28 := by norm_num
    _ ≤ hs.map.capacity * 2 ^ rounds :=
      Nat.mul_le_mul (hc ▸ Nat.pow_le_pow_right (by decide) h3)
        (Nat.pow_le_pow_right (by decide) hrounds)

theorem run_refines (hrestarts : 28 ≤ cfg.restarts) {ops : List (Op V)} (h : Open hl hs S)
    (hproper : ProperRun cfg hs ops) :
    (∀ rs hs', run cfg hs ops = .ok (rs, hs') → Follows hs hs') ∧ RefinesSet hl hs S ops := by
  unfold RefinesSet
  induction ops generalizing hs S with
  | nil =>
    refine ⟨fun rs hs' hrun => ?_, fun hfew => .nil (h.ready hfew).represents⟩
    cases hrun
    exact .refl hs
  | cons op ops ih =>
    have hcall := step_called h hproper.1
    rw [run]
    cases hstep : step cfg hs op with
    | error hs₁ =>
      rw [hstep] at hcall
      exact ⟨(fun _ _ h => by cases h), hcall.large h hrestarts⟩
    | ok p =>
      obtain ⟨r, hs₁⟩ := p
      rw [hstep] at hcall
      obtain ⟨S₁, h₁, hagrees⟩ := Stepped.next h hcall
      have hih := ih h₁ (hproper.2 r hs₁ hstep)
      change (∀ rs hs', (run cfg hs₁ ops >>= fun p => .ok (r :: p.1, p.2)) = .ok (rs, hs') → _) ∧
        match run cfg hs₁ ops >>= fun p => .ok (r :: p.1, p.2) with
        | .ok (rs, hs') => Uncrowded cfg hs'.stores → Refined hl hs S (op :: ops) rs hs'
        | .error hs' => 2 ^ 31 ≤ hs'.peak
      cases hrun : run cfg hs₁ ops with
      | error hs₂ =>
        rw [hrun] at hih
        exact ⟨(fun _ _ h => by cases h), hih.2⟩
      | ok p =>
        obtain ⟨rs, hs₂⟩ := p
        rw [hrun] at hih
        have hf := hcall.follows.trans (hih.1 rs hs₂ rfl)
        refine ⟨fun rs' hs' he => ?_, fun hfew => ?_⟩
        · cases he
          exact hf
        · have hfew₁ := uncrowded_of_follows (hih.1 rs hs₂ rfl) hfew
          exact .cons (h.ready (uncrowded_of_follows hf hfew)).represents hstep (hagrees hfew₁)
            (hih.2 hfew)

/-- Every run of proper calls from `ck_rhs_init` refines the set. -/
theorem robin_hood_refines_set (hl : cfg.Lawful) (hrestarts : 28 ≤ cfg.restarts) {entries : Nat}
    (hinit : init cfg entries = some hs) {ops : List (Op V)} (hproper : ProperRun cfg hs ops) :
    RefinesSet hl hs KeyedSet.empty ops :=
  (run_refines hrestarts (init_open hl hinit) hproper).2

/-- A set of numbers that all hash alike, with a probe bound for every home slot. -/
def boundedHash : Config Nat := { oneHash with readMostly := false, restarts := 28 }

theorem boundedHash_lawful : boundedHash.Lawful := ⟨nofun, nofun⟩

/-- Calls that insert, replace, delete and grow. -/
def settingCalls : List (Op Nat) :=
  [.putUnique 3, .put 0, .put 1, .set 4, .put 5, .fas 4, .remove 0, .apply 5 (fun _ => none),
    .apply 6 (fun _ => some 6), .setLoadFactor 10, .gc, .rebuild, .get 6]

theorem settingCalls_proper {hs₀ : State Nat} (hinit : init boundedHash 8 = some hs₀) :
    ProperRun boundedHash hs₀ settingCalls := by
  have habsent : hs₀.map.Absent boundedHash 3 := by
    intro s w hw
    cases hinit
    cases hw
  exact ⟨habsent, fun _ _ _ => ⟨trivial, fun _ _ _ => ⟨trivial, fun _ _ _ => ⟨trivial, fun _ _ _ =>
    ⟨trivial, fun _ _ _ => ⟨trivial, fun _ _ _ => ⟨trivial, fun _ _ _ => ⟨nofun, fun _ _ _ =>
      ⟨fun _ _ h => .inr (by cases h; rfl), fun _ _ _ => ⟨trivial, fun _ _ _ => ⟨trivial,
        fun _ _ _ => ⟨trivial, fun _ _ _ => ⟨trivial, fun _ _ _ => trivial⟩⟩⟩⟩⟩⟩⟩⟩⟩⟩⟩⟩⟩

theorem robin_hood_refines_set_settingCalls :
    ∃ hs₀ rs hs, init boundedHash 8 = some hs₀ ∧ run boundedHash hs₀ settingCalls = .ok (rs, hs) ∧
      hs.map.capacity = 64 ∧
      Refined boundedHash_lawful hs₀ KeyedSet.empty settingCalls rs hs := by
  have heval : ((init boundedHash 8).map fun hs => (run boundedHash hs settingCalls).toOption.map
      fun p => (p.2.map.capacity, fewSlots p.2.stores)) = some (some (64, true)) := by
    decide +kernel
  obtain ⟨hs₀, hinit, hsome⟩ := Option.map_eq_some_iff.mp heval
  have hrefines := robin_hood_refines_set boundedHash_lawful (by decide) hinit
    (settingCalls_proper hinit)
  unfold RefinesSet at hrefines
  cases hrun : run boundedHash hs₀ settingCalls with
  | error e =>
    rw [hrun] at hsome
    cases hsome
  | ok p =>
    rw [hrun] at hsome hrefines
    obtain ⟨hcapacity, hfew⟩ := Prod.mk.inj (Option.some.inj hsome)
    exact ⟨hs₀, p.1, p.2, hinit, hrun, hcapacity, hrefines (fewSlots_uncrowded hfew)⟩

end Runs

end ConcurrencyKit.Rhs
