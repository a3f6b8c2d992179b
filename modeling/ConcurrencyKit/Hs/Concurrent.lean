import ConcurrencyKit.Hs.Refinement

/-!
# Concurrent lookups in `ck_hs`

The writer runs its calls store by store while any number of readers run `ck_hs_get` load
by load. A call of the writer makes the stores that the sequential operation lists; a
store to `hs->map` publishes a new map and retires the present one, which stays readable.
The readers are those of the general development on validated lookups. What is left to
prove is the writer's side: the slot that counts for a key moves only with a signal.
-/

namespace ConcurrencyKit.Hs

open Lookup (View Probe Shared Guarantee ObjectGuarantee HitChange System)

variable {V : Type} [DecidableEq V]

/-! ## One store, in the eyes of the readers of one key -/

namespace Map

section Anchor

variable (cfg : Config V)

/-- Probe index `n` is the first at which lookups of `key` meet the slot that counts for it. -/
def Anchored (m : Map V) (ph : Phase) (key : V) (n : Nat) : Prop :=
  (∃ t v, m.word cfg (cfg.hf key) n = .entry t v ∧ cfg.keyMatch v key = true) ∧
    some (cfg.cursor m.capacity (cfg.hf key) n) ≠ ph.hidden ∧
    ∀ k < n, cfg.cursor m.capacity (cfg.hf key) k ≠ cfg.cursor m.capacity (cfg.hf key) n

/-- Some slot holds the key. -/
def Holds (m : Map V) (key : V) : Prop :=
  ∃ s t v, m.entries s = .entry t v ∧ cfg.keyMatch v key = true

variable {cfg} {m : Map V} {ph ph' : Phase} {key : V}

theorem Valid.probe_hit (hv : m.Valid cfg ph) (hl : cfg.Lawful) {n : Nat} {v : V} :
    (m.view cfg key).probe n = .hit v ↔
      (∃ t, m.word cfg (cfg.hf key) n = .entry t v) ∧ cfg.keyMatch v key = true := by
  rw [view_probe_hit]
  constructor
  · rintro ⟨t, hw, hh⟩
    exact ⟨⟨t, hw⟩, (hv.hit_iff hl hw).mp hh⟩
  · rintro ⟨⟨t, hw⟩, hm⟩
    exact ⟨t, hw, (hv.hit_iff hl hw).mpr hm⟩

/-- The first index of a slot that holds the key is reached by the key's lookups. -/
theorem Valid.reached (hv : m.Valid cfg ph) (hl : cfg.Lawful) {n t : Nat} {v : V}
    (hw : m.word cfg (cfg.hf key) n = .entry t v) (hm : cfg.keyMatch v key = true)
    (hfirst : ∀ k < n, cfg.cursor m.capacity (cfg.hf key) k ≠
      cfg.cursor m.capacity (cfg.hf key) n) :
    m.Covers (cfg.hf key) n ∧ m.Open cfg (cfg.hf key) n := by
  obtain ⟨k, hk, hc, ho⟩ := hv.reaches _ t v hw
  rw [hl.hf_eq hm] at hk hc ho
  have hnk : n ≤ k := by
    by_contra hlt
    exact hfirst k (by omega) hk
  exact ⟨hc.mono hnk, ho.mono hnk⟩

theorem Anchored.good (hv : m.Valid cfg ph) (hl : cfg.Lawful) {n : Nat}
    (ha : m.Anchored cfg ph key n) : (m.view cfg key).Good wordMax n := by
  obtain ⟨⟨t, v, hw, hm⟩, -, hfirst⟩ := ha
  obtain ⟨hc, ho⟩ := hv.reached hl hw hm hfirst
  refine ⟨⟨v, (hv.probe_hit hl).mpr ⟨⟨t, hw⟩, hm⟩⟩, fun k hk => ?_, view_covers.mpr hc⟩
  rw [Ne, view_probe_vacant]
  exact ho k hk

/-- The key in a slot that counts has an anchor. -/
theorem Valid.anchored_of_slot (hv : m.Valid cfg ph) (hl : cfg.Lawful) {s t : Nat} {v : V}
    (hs : m.entries s = .entry t v) (hm : cfg.keyMatch v key = true)
    (hvis : some s ≠ ph.hidden) : ∃ n, m.Anchored cfg ph key n := by
  obtain ⟨k, hk, -, -⟩ := hv.reaches s t v hs
  rw [hl.hf_eq hm] at hk
  have hex : ∃ n, cfg.cursor m.capacity (cfg.hf key) n = s := ⟨k, hk⟩
  have hfind := Nat.find_spec hex
  refine ⟨Nat.find hex, ⟨t, v, by rw [word, hfind]; exact hs, hm⟩, by rw [hfind]; exact hvis, ?_⟩
  intro j hj
  rw [hfind]
  exact Nat.find_min hex hj

/-- A stored key has an anchor: if its copy is hidden, the other copy counts. -/
theorem Valid.anchored (hv : m.Valid cfg ph) (hl : cfg.Lawful) (hh : m.Holds cfg key) :
    ∃ n, m.Anchored cfg ph key n := by
  obtain ⟨s, t, v, hs, hm⟩ := hh
  by_cases hvis : some s = ph.hidden
  · cases hph : ph with
    | idle => rw [hph] at hvis; cases hvis
    | copied src dst =>
      obtain ⟨t₁, u, t₂, w, hsrc, hdst, huw, hb⟩ := hv.copies src dst (.inl hph)
      rw [hph] at hvis
      cases hvis
      rw [hs] at hdst
      cases hdst
      rw [hph] at hv
      exact hv.anchored_of_slot hl hsrc (hl.trans huw hm) fun h => hb.ne (Option.some.inj h)
    | signalled src dst =>
      obtain ⟨t₁, u, t₂, w, hsrc, hdst, huw, hb⟩ := hv.copies src dst (.inr hph)
      rw [hph] at hvis
      cases hvis
      rw [hs] at hsrc
      cases hsrc
      rw [hph] at hv
      refine hv.anchored_of_slot hl hdst (hl.trans (hl.symm huw) hm) fun h => ?_
      exact hb.ne (Option.some.inj h).symm
  · exact hv.anchored_of_slot hl hs hm hvis

/-- A lookup that runs alone finds the key exactly if some slot holds it. -/
theorem Valid.lookup_ne_none_iff (hv : m.Valid cfg ph) (hl : cfg.Lawful) :
    (m.view cfg key).lookup wordMax ≠ none ↔ m.Holds cfg key := by
  constructor
  · intro hne
    obtain ⟨v, hv'⟩ := Option.ne_none_iff_exists'.mp hne
    obtain ⟨n, -, -, hhit, -⟩ := (View.scan_eq_some _).mp hv'
    obtain ⟨⟨t, hw⟩, hm⟩ := (hv.probe_hit hl).mp hhit
    exact ⟨_, t, v, hw, hm⟩
  · intro hh
    obtain ⟨n, hn⟩ := hv.anchored hl hh
    exact (hn.good hv hl).lookup_ne_none

/-- A lookup that runs alone returns the object at the lowest index that holds the key. -/
theorem Valid.lookup_least (hv : m.Valid cfg ph) (hl : cfg.Lawful) {n : Nat} {v : V}
    (hn : (m.view cfg key).Least n v) : (m.view cfg key).lookup wordMax = some v := by
  obtain ⟨⟨t, hw⟩, hm⟩ := (hv.probe_hit hl).mp hn.1
  obtain ⟨hc, ho⟩ := hv.reached hl hw hm (by
    intro k hk he
    refine hn.2 k hk v ((hv.probe_hit hl).mpr ⟨⟨t, ?_⟩, hm⟩)
    rw [word, he]
    exact hw)
  refine (View.scan_eq_some _).mpr ⟨n, Nat.zero_le n, ?_, hn.1, fun k _ hk => ?_⟩
  · rw [view_limit]
    have := hc.lt_boundGet
    omega
  · rw [view_probe_other]
    refine ⟨ho k hk, ?_⟩
    by_contra hhit
    rw [Bool.not_eq_false] at hhit
    cases hwk : m.word cfg (cfg.hf key) k with
    | empty => exact ho k hk hwk
    | tombstone => rw [hwk] at hhit; cases hhit
    | entry t' u =>
      rw [hwk] at hhit
      exact hn.2 k hk u (view_probe_hit.mpr ⟨t', hwk, hhit⟩)

end Anchor

section Step

variable {cfg : Config V} {m : Map V} {ph ph' : Phase} {key : V}

omit [DecidableEq V] in
theorem word_store {h : BitVec 64} {s n : Nat} {w : Slot V} :
    (m.apply (.entry s w)).word cfg h n =
      if cfg.cursor m.capacity h n = s then w else m.word cfg h n := by
  show Function.update m.entries s w (cfg.cursor m.capacity h n) = _
  rw [Function.update_apply]
  rfl

/-- An anchor outside the written slot stays if it is not hidden now. -/
theorem Anchored.store {n s : Nat} {w : Slot V} (ha : m.Anchored cfg ph key n)
    (hne : cfg.cursor m.capacity (cfg.hf key) n ≠ s)
    (hvis : some (cfg.cursor m.capacity (cfg.hf key) n) ≠ ph'.hidden) :
    (m.apply (.entry s w)).Anchored cfg ph' key n := by
  obtain ⟨⟨t, v, hw, hm⟩, -, hfirst⟩ := ha
  exact ⟨⟨t, v, by rw [word_store, if_neg hne]; exact hw, hm⟩, hvis, hfirst⟩

/-- After a removal the key is gone. -/
theorem Valid.not_holds_bury (hv : m.Valid cfg .idle) (hl : cfg.Lawful) {s t : Nat} {u : V}
    (hs : m.entries s = .entry t u) (hm : cfg.keyMatch u key = true) :
    ¬ (m.apply (.entry s .tombstone)).Holds cfg key := by
  rintro ⟨i, t', v, hi, hv'⟩
  change Function.update m.entries s _ i = _ at hi
  rw [Function.update_apply] at hi
  split at hi
  · cases hi
  · rename_i his
    exact his (hv.unique i s t' t v u hi hs nofun nofun (hl.trans hv' (hl.symm hm)))

/-- Without a signal for the key an allowed store to the map leaves its anchor in place. -/
theorem Allowed.keep (hl : cfg.Lawful) {st : Store V} (hv : m.Valid cfg ph)
    (hst : m.Allowed cfg ph st ph') (hmap : ∀ update, st ≠ .map update)
    (hgen : ((m.apply st).view cfg key).generation = (m.view cfg key).generation)
    (hholds : (m.apply st).Holds cfg key) {n : Nat} (ha : m.Anchored cfg ph key n) :
    (m.apply st).Anchored cfg ph' key n := by
  obtain ⟨t, v, hw, hm⟩ := ha.1
  cases hst with
  | nEntries k => exact ha
  | tombstones k => exact ha
  | probeMaximum hv' => exact ha
  | probeBound hv' => exact ha
  | fill free reach absent =>
    refine ha.store ?_ nofun
    rintro rfl
    exact free t v hw
  | @replace s t' u w at_slot eq =>
    by_cases hs : cfg.cursor m.capacity (cfg.hf key) n = s
    · have he : Slot.entry t v = .entry t' u := by
        rw [← at_slot, ← hs]
        exact hw.symm
      cases he
      refine ⟨⟨_, w, by rw [word_store, if_pos hs]; rfl, hl.trans (hl.symm eq) hm⟩, nofun, ha.2.2⟩
    · exact ha.store hs nofun
  | @copy src dst t' u w at_src eq free before reach =>
    have hne : cfg.cursor m.capacity (cfg.hf key) n ≠ dst := by
      intro he
      rw [word, he, free] at hw
      cases hw
    exact ha.store hne fun he => hne (Option.some.inj he)
  | @signal src dst t' w at_dst =>
    obtain ⟨t₁, u, t₂, w', hsrc, hdst, huw, -⟩ := hv.copies src dst (.inl rfl)
    refine ⟨⟨t, v, hw, hm⟩, fun he => ?_, ha.2.2⟩
    -- the signal was for this key
    have hat : m.entries src = .entry t v := by
      rw [← Option.some.inj he]
      exact hw
    rw [hsrc] at hat
    cases hat
    rw [hdst] at at_dst
    cases at_dst
    have hcell : (cfg.hf w).toNat % generations = (cfg.hf key).toNat % generations := by
      rw [← hl.hf_eq huw, hl.hf_eq hm]
    simp only [view, apply, hcell, Function.update_self] at hgen
    have hlt := hv.generation_lt ((cfg.hf key).toNat % generations)
    rw [inc] at hgen
    omega
  | retire src dst =>
    refine ha.store (fun he => ha.2.1 ?_) nofun
    rw [he]
    rfl
  | @remove s t' u at_slot =>
    by_cases hs : cfg.cursor m.capacity (cfg.hf key) n = s
    · have he : m.entries s = .entry t v := by rw [← hs]; exact hw
      exact absurd hholds (hv.not_holds_bury hl he hm)
    · exact ha.store hs nofun
  | publish hv' => exact absurd rfl (hmap _)

/-- Only a signal changes a generation cell, by one. -/
theorem Allowed.generation {st : Store V} (hst : m.Allowed cfg ph st ph')
    (hmap : ∀ update, st ≠ .map update)
    (hgen : ((m.apply st).view cfg key).generation ≠ (m.view cfg key).generation) :
    (∃ cell value, st = .generation cell value) ∧
      ((m.apply st).view cfg key).generation = ((m.view cfg key).generation + 1) % 2 ^ 32 := by
  cases hst with
  | signal at_dst =>
    rename_i src dst t w
    refine ⟨⟨_, _, rfl⟩, ?_⟩
    simp only [view, apply, Function.update_apply] at hgen ⊢
    split
    · rename_i hc
      rw [hc]
      rfl
    · rename_i hc
      exact absurd (if_neg hc) hgen
  | publish hv' => exact absurd rfl (hmap _)
  | _ => exact absurd rfl hgen

/-- Where lookups meet the key after a store to slot `s`. -/
theorem Valid.probe_hit_store (hl : cfg.Lawful) {s n : Nat} {w : Slot V} {v : V}
    (hv : m.Valid cfg ph) (hv' : (m.apply (.entry s w)).Valid cfg ph') :
    ((m.apply (.entry s w)).view cfg key).probe n = .hit v ↔
      (cfg.cursor m.capacity (cfg.hf key) n = s ∧ (∃ t, w = .entry t v) ∧
        cfg.keyMatch v key = true) ∨
      (cfg.cursor m.capacity (cfg.hf key) n ≠ s ∧ (m.view cfg key).probe n = .hit v) := by
  rw [hv'.probe_hit hl, hv.probe_hit hl, word_store]
  by_cases hs : cfg.cursor m.capacity (cfg.hf key) n = s
  · simp [hs]
  · simp [hs]

/-- A store by which the key is neither given up nor gained anywhere. -/
theorem hitChange_other (hl : cfg.Lawful) {s : Nat} {w : Slot V} (hv : m.Valid cfg ph)
    (hv' : (m.apply (.entry s w)).Valid cfg ph')
    (hold : ∀ t u, m.entries s = .entry t u → cfg.keyMatch u key = false)
    (hnew : ∀ t u, w = .entry t u → cfg.keyMatch u key = false) :
    HitChange wordMax (m.view cfg key) ((m.apply (.entry s w)).view cfg key) := by
  refine .same fun n v => ?_
  rw [hv.probe_hit_store hl hv']
  constructor
  · rintro (⟨-, ⟨t, rfl⟩, hm⟩ | ⟨-, hp⟩)
    · rw [hnew t v rfl] at hm
      cases hm
    · exact hp
  · intro hp
    refine .inr ⟨fun hs => ?_, hp⟩
    obtain ⟨⟨t, hw⟩, hm⟩ := (hv.probe_hit hl).mp hp
    rw [word, hs] at hw
    rw [hold t v hw] at hm
    cases hm

/-- All places of a key hold one object while no entry is being moved. -/
theorem Valid.uniform (hv : m.Valid cfg .idle) (hl : cfg.Lawful) {n n' : Nat} {v v' : V}
    (hn : (m.view cfg key).probe n = .hit v) (hn' : (m.view cfg key).probe n' = .hit v') :
    v = v' := by
  obtain ⟨⟨t, hw⟩, hm⟩ := (hv.probe_hit hl).mp hn
  obtain ⟨⟨t', hw'⟩, hm'⟩ := (hv.probe_hit hl).mp hn'
  have he := hv.unique _ _ t t' v v' hw hw' nofun nofun (hl.trans hm (hl.symm hm'))
  rw [word] at hw hw'
  rw [he, hw'] at hw
  cases hw
  rfl

/-- A store of a new object for the key where lookups now find it first. -/
theorem hitChange_assign (hl : cfg.Lawful) {s : Nat} {v : V} (hv : m.Valid cfg .idle)
    (hv' : (m.apply (.entry s (cfg.marshal v (cfg.hf v)))).Valid cfg ph')
    (hm : cfg.keyMatch v key = true)
    (hfirst : ∀ n u, ((m.apply (.entry s (cfg.marshal v (cfg.hf v)))).view cfg key).Least n u →
      cfg.cursor m.capacity (cfg.hf key) n = s) :
    HitChange wordMax (m.view cfg key)
      ((m.apply (.entry s (cfg.marshal v (cfg.hf v)))).view cfg key) := by
  refine .assign v (fun n n' u u' hn hn' => hv.uniform hl hn hn') ?_ ?_
  · have hholds : (m.apply (.entry s (cfg.marshal v (cfg.hf v)))).Holds cfg key :=
      ⟨s, _, v, Function.update_self _ _ _, hm⟩
    obtain ⟨k, hk⟩ := hv'.anchored hl hholds
    obtain ⟨u, hu⟩ := (hk.good hv' hl).hit
    obtain ⟨n, w, -, hleast⟩ := View.exists_least hu
    rw [hv'.lookup_least hl hleast]
    rcases (hv.probe_hit_store hl hv').mp hleast.1 with ⟨-, ⟨t, ht⟩, -⟩ | ⟨hne, -⟩
    · rw [(marshal_eq ht).2]
    · exact absurd (hfirst n w hleast) hne
  · intro n u hu
    rcases (hv.probe_hit_store hl hv').mp hu with ⟨-, ⟨t, ht⟩, -⟩ | ⟨-, hp⟩
    · exact .inr (marshal_eq ht).2
    · exact .inl hp

/-- The key of a relocated entry is met first at its new place. -/
theorem Before.not_least (hl : cfg.Lawful) (hv : m.Valid cfg ph) {src dst t n : Nat} {v u : V}
    (hb : m.Before cfg (cfg.hf v) dst src) (hdst : m.entries dst = .entry t v)
    (hm : cfg.keyMatch v key = true) (hn : (m.view cfg key).Least n u) :
    cfg.cursor m.capacity (cfg.hf key) n ≠ src := by
  intro he
  obtain ⟨i, hi, hlt⟩ := hb
  rw [hl.hf_eq hm] at hi hlt
  refine hn.2 i (hlt n he) v ((hv.probe_hit hl).mpr ⟨⟨t, ?_⟩, hm⟩)
  rw [word, hi]
  exact hdst

/-- How an allowed store to the map changes the places of a key. -/
theorem Allowed.hitChange (hl : cfg.Lawful) {st : Store V} (hv : m.Valid cfg ph)
    (hst : m.Allowed cfg ph st ph') (hmap : ∀ update, st ≠ .map update) :
    HitChange wordMax (m.view cfg key) ((m.apply st).view cfg key) := by
  have hv' := hst.valid hl hv
  cases hst with
  | nEntries k => exact .same fun _ _ => Iff.rfl
  | tombstones k => exact .same fun _ _ => Iff.rfl
  | probeMaximum _ => exact .same fun _ _ => Iff.rfl
  | probeBound _ => exact .same fun _ _ => Iff.rfl
  | signal _ => exact .same fun _ _ => Iff.rfl
  | @fill s v free reach absent =>
    by_cases hm : cfg.keyMatch v key = true
    · refine hitChange_assign hl hv hv' hm fun n u hn => ?_
      by_contra hne
      rcases (hv.probe_hit_store hl hv').mp hn.1 with ⟨he, -, -⟩ | ⟨-, hp⟩
      · exact hne he
      · obtain ⟨⟨t, hw⟩, hu⟩ := (hv.probe_hit hl).mp hp
        have := absent _ t u hw
        rw [hl.trans hu (hl.symm hm)] at this
        cases this
    · refine hitChange_other hl hv hv' (fun t u hs => absurd hs (free t u)) fun t u he => ?_
      rw [(marshal_eq he).2]
      exact Bool.eq_false_iff.mpr hm
  | @replace s t u v at_slot eq =>
    by_cases hm : cfg.keyMatch v key = true
    · refine hitChange_assign hl hv hv' hm fun n w hn => ?_
      by_contra hne
      rcases (hv.probe_hit_store hl hv').mp hn.1 with ⟨he, -, -⟩ | ⟨-, hp⟩
      · exact hne he
      · obtain ⟨⟨t', hw⟩, hu⟩ := (hv.probe_hit hl).mp hp
        exact hne (hv.unique _ s t' t w u hw at_slot nofun nofun
          (hl.trans hu (hl.symm (hl.trans eq hm))))
    · refine hitChange_other hl hv hv' (fun t' u' hs => ?_) fun t' u' he => ?_
      · rw [at_slot] at hs
        cases hs
        exact Bool.eq_false_iff.mpr fun h => hm (hl.trans (hl.symm eq) h)
      · rw [(marshal_eq he).2]
        exact Bool.eq_false_iff.mpr hm
  | @copy src dst t u v at_src eq free before reach =>
    by_cases hm : cfg.keyMatch v key = true
    · refine hitChange_assign hl hv hv' hm fun n w hn => ?_
      by_contra hne
      rcases (hv.probe_hit_store hl hv').mp hn.1 with ⟨he, -, -⟩ | ⟨-, hp⟩
      · exact hne he
      · obtain ⟨⟨t', hw⟩, hu⟩ := (hv.probe_hit hl).mp hp
        have hsrc := hv.unique _ src t' t w u hw at_src nofun nofun
          (hl.trans hu (hl.symm (hl.trans eq hm)))
        have hdst : (m.apply (.entry dst (cfg.marshal v (cfg.hf v)))).entries dst =
            .entry (cfg.tag (cfg.hf v)) v := Function.update_self _ _ _
        exact Before.not_least hl hv' (m := m.apply _) before hdst hm hn hsrc
    · refine hitChange_other hl hv hv' (fun t' u' hs => ?_) fun t' u' he => ?_
      · rw [free] at hs
        cases hs
      · rw [(marshal_eq he).2]
        exact Bool.eq_false_iff.mpr hm
  | retire src dst =>
    obtain ⟨t, u, t', v, hsrc, hdst, huv, hb⟩ := hv.copies src dst (.inr rfl)
    refine .erase (fun n w hp => ?_) fun n w hn => .inl ?_
    · rcases (hv.probe_hit_store hl hv').mp hp with ⟨-, ⟨t₁, h⟩, -⟩ | ⟨-, h⟩
      · cases h
      · exact h
    · refine (hv.probe_hit_store hl hv').mpr (.inr ⟨fun he => ?_, hn.1⟩)
      obtain ⟨⟨t₁, hw⟩, hm⟩ := (hv.probe_hit hl).mp hn.1
      rw [word, he, hsrc] at hw
      cases hw
      exact hb.not_least hl hv hdst (hl.trans (hl.symm huv) hm) hn he
  | @remove s t u at_slot =>
    refine .erase (fun n w hp => ?_) fun n w hn => ?_
    · rcases (hv.probe_hit_store hl hv').mp hp with ⟨-, ⟨t₁, h⟩, -⟩ | ⟨-, h⟩
      · cases h
      · exact h
    · by_cases hs : cfg.cursor m.capacity (cfg.hf key) n = s
      · right
        obtain ⟨⟨t₁, hw⟩, hm⟩ := (hv.probe_hit hl).mp hn.1
        intro n' w' hp
        obtain ⟨⟨t₂, hw'⟩, hm'⟩ := (hv'.probe_hit hl).mp hp
        rw [word, hs] at hw
        exact hv.not_holds_bury hl hw hm ⟨_, t₂, w', hw', hm'⟩
      · exact .inl ((hv.probe_hit_store hl hv').mpr (.inr ⟨hs, hn.1⟩))
  | publish _ => exact absurd rfl (hmap _)

end Step

end Map

/-! ## The shared memory and the writer -/

/-- The memory of the writer and the readers. Maps are numbered in the order of their
publication and `current` is the one `hs->map` points to; retired maps are kept. `todo` lists
the stores that the writer's call in progress has still to make, and `writer` is the state in
which that call leaves the set, or `none` if it does not return. `signals` counts the stores
to generation cells; the code does not keep it. -/
structure Memory (V : Type) where
  maps : Nat → Map V
  current : Nat
  todo : List (Store V)
  writer : Option (State V)
  signals : Nat

namespace Memory

/-- The memory after `ck_hs_init`. -/
def start (hs : State V) : Memory V where
  maps := fun _ => hs.map
  current := 0
  todo := []
  writer := some hs
  signals := 0

/-- The writer makes one store. -/
def store (mem : Memory V) (rest : List (Store V)) : Store V → Memory V
  | .map update =>
    { mem with
      maps := Function.update mem.maps (mem.current + 1) update
      current := mem.current + 1
      todo := rest }
  | .generation cell value =>
    { mem with
      maps := Function.update mem.maps mem.current
        ((mem.maps mem.current).apply (.generation cell value))
      todo := rest
      signals := mem.signals + 1 }
  | st =>
    { mem with
      maps := Function.update mem.maps mem.current ((mem.maps mem.current).apply st)
      todo := rest }

/-- The writer starts a call that will end as given. -/
def begin (mem : Memory V) : Except (State V) (Result V × State V) → Memory V
  | .ok (_, hs) => { mem with todo := hs.stores, writer := some hs }
  | .error hs => { mem with todo := hs.stores, writer := none }

/-- A step of the writer: the next store of its call, or the start of a proper call. -/
inductive Write (cfg : Config V) : Memory V → Memory V → Prop
  | store {mem : Memory V} {st : Store V} {rest : List (Store V)} (h : mem.todo = st :: rest) :
      Write cfg mem (mem.store rest st)
  | call {mem : Memory V} {hs : State V} (op : Op V) (idle : mem.todo = [])
      (ready : mem.writer = some hs) (proper : op.Proper cfg (mem.maps mem.current)) :
      Write cfg mem (mem.begin (step cfg { hs with stores := [] } op))

/-- What the readers see. -/
def shared (cfg : Config V) : Shared (Memory V) V V where
  saturated := wordMax
  current := current
  view mem map key := (mem.maps map).view cfg key
  signals := signals

section Guarantees

variable (cfg : Config V)

/-- Map `map` is valid in phase `ph`: the current one with the stores to come, a retired one
for good. -/
def Standing (mem : Memory V) (map : Nat) (ph : Phase) : Prop :=
  (mem.maps map).Valid cfg ph ∧
    if map = mem.current then Map.Path cfg (mem.maps map) ph mem.todo .idle else ph = .idle

/-- The invariant of the memory. -/
structure Inv (mem : Memory V) : Prop where
  standing : ∀ map ≤ mem.current, ∃ ph, Standing cfg mem map ph
  ready : ∀ hs, mem.writer = some hs →
    hs.Ok cfg ∧ hs.map = (mem.maps mem.current).applyAll mem.todo

/-- The anchor of a key in a map. -/
def anchor (mem : Memory V) (map : Nat) (key : V) (n : Nat) : Prop :=
  ∃ ph, Standing cfg mem map ph ∧ (mem.maps map).Anchored cfg ph key n

variable {cfg} {mem : Memory V}

theorem Inv.current_standing (hi : mem.Inv cfg) :
    ∃ ph, (mem.maps mem.current).Valid cfg ph ∧
      Map.Path cfg (mem.maps mem.current) ph mem.todo .idle := by
  obtain ⟨ph, hv, hp⟩ := hi.standing mem.current le_rfl
  rw [if_pos rfl] at hp
  exact ⟨ph, hv, hp⟩

omit [DecidableEq V] in
/-- What a store of the writer does to the maps. -/
theorem store_cases (mem : Memory V) (rest : List (Store V)) (st : Store V) :
    (∃ update, st = .map update ∧ (mem.store rest st).current = mem.current + 1 ∧
      (mem.store rest st).maps (mem.current + 1) = update ∧
      (mem.store rest st).signals = mem.signals ∧
      ∀ map ≤ mem.current, (mem.store rest st).maps map = mem.maps map) ∨
    ((∀ update, st ≠ .map update) ∧ (mem.store rest st).current = mem.current ∧
      (mem.store rest st).maps mem.current = (mem.maps mem.current).apply st ∧
      mem.signals ≤ (mem.store rest st).signals ∧
      ((∃ cell value, st = .generation cell value) →
        mem.signals < (mem.store rest st).signals) ∧
      ∀ map ≠ mem.current, (mem.store rest st).maps map = mem.maps map) := by
  cases st with
  | map update =>
    refine .inl ⟨update, rfl, rfl, Function.update_self _ _ _, rfl, fun map hle => ?_⟩
    exact Function.update_of_ne (by omega) _ _
  | generation cell value =>
    refine .inr ⟨nofun, rfl, Function.update_self _ _ _, Nat.le_succ _,
      fun _ => Nat.lt_succ_self _, fun map hne => Function.update_of_ne hne _ _⟩
  | _ =>
    refine .inr ⟨nofun, rfl, Function.update_self _ _ _, le_rfl, ?_,
      fun map hne => Function.update_of_ne hne _ _⟩
    rintro ⟨cell, value, h⟩
    cases h

omit [DecidableEq V] in
theorem store_todo (rest : List (Store V)) (st : Store V) :
    (mem.store rest st).todo = rest ∧ (mem.store rest st).writer = mem.writer := by
  cases st <;> exact ⟨rfl, rfl⟩

/-- The start of a call only determines the stores to come, all of them allowed. -/
theorem begin_cases (hl : cfg.Lawful) {hs : State V} {op : Op V} (hi : mem.Inv cfg)
    (idle : mem.todo = []) (ready : mem.writer = some hs)
    (proper : op.Proper cfg (mem.maps mem.current)) :
    ∃ sts w, mem.begin (step cfg { hs with stores := [] } op) =
        { mem with todo := sts, writer := w } ∧
      Map.Path cfg (mem.maps mem.current) .idle sts .idle ∧
      ∀ hs', w = some hs' → hs'.Ok cfg ∧ hs'.map = (mem.maps mem.current).applyAll sts := by
  obtain ⟨hok, hmap⟩ := hi.ready hs ready
  rw [idle] at hmap
  have hmap' : hs.map = mem.maps mem.current := hmap
  have hok' : ({ hs with stores := [] } : State V).Ok cfg := ⟨hok.valid, hok.accounts, hok.capacity⟩
  obtain ⟨S, rep⟩ := Represents.exists hl hok.valid
  have rep' : Represents hl ({ hs with stores := [] } : State V).map S := rep
  rcases step_cases hok' rep' (hmap'.symm ▸ proper) with ⟨r, hs', hstep, hst⟩ | ⟨hs', hstep, hst⟩
  · obtain ⟨sts, hsts, hm, hp⟩ := hst.evolves.wrote
    refine ⟨hs'.stores, some hs', by rw [hstep]; rfl, ?_, fun hs'' he => ?_⟩
    · rw [hsts, ← hmap']
      exact hp
    · cases he
      refine ⟨hok'.of_evolves hl hst.evolves hst.accounts, ?_⟩
      rw [hsts, ← hmap']
      exact hm
  · obtain ⟨sts, hsts, hm, hp⟩ := hst.evolves.wrote
    refine ⟨hs'.stores, none, by rw [hstep]; rfl, ?_, nofun⟩
    rw [hsts, ← hmap']
    exact hp

theorem path_nil {m : Map V} {ph ph' : Phase} (h : Map.Path cfg m ph [] ph') :
    ph = ph' := by
  cases h
  rfl

/-- A map of the memory after a store, in whatever phase it was before. -/
theorem Standing.store (hl : cfg.Lawful) {st : Store V} {rest : List (Store V)} {map : Nat}
    {ph : Phase} (htodo : mem.todo = st :: rest) (hle : map ≤ mem.current)
    (h : Standing cfg mem map ph) :
    (map ≠ mem.current ∧ (mem.store rest st).maps map = mem.maps map ∧ ph = .idle ∧
      Standing cfg (mem.store rest st) map .idle) ∨
    (map = mem.current ∧ ∃ ph', (mem.maps map).Allowed cfg ph st ph' ∧
      ((∀ update, st ≠ .map update) → Standing cfg (mem.store rest st) map ph')) := by
  obtain ⟨hv, hp⟩ := h
  by_cases hcur : map = mem.current
  · right
    rw [if_pos hcur, htodo] at hp
    cases hp with
    | @cons _ _ ph' _ _ _ head tail =>
      refine ⟨hcur, ph', head, fun hmap => ?_⟩
      rcases store_cases mem rest st with ⟨update, he, -⟩ | ⟨-, hc, hm, -⟩
      · exact absurd he (hmap update)
      · rw [← hcur] at hm
        refine ⟨hm ▸ head.valid hl hv, ?_⟩
        rw [if_pos (hcur.trans hc.symm), hm, (store_todo rest st).1]
        exact tail
  · left
    rw [if_neg hcur] at hp
    have hsame : (mem.store rest st).maps map = mem.maps map ∧
        map ≠ (mem.store rest st).current := by
      rcases store_cases mem rest st with ⟨_, -, hc, -, -, h⟩ | ⟨-, hc, -, -, -, h⟩
      · exact ⟨h map hle, by omega⟩
      · exact ⟨h map hcur, by omega⟩
    refine ⟨hcur, hsame.1, hp, ?_, ?_⟩
    · rw [hsame.1, ← hp]
      exact hv
    · rw [if_neg hsame.2]

/-- A store keeps the invariant. -/
theorem Inv.store (hl : cfg.Lawful) {st : Store V} {rest : List (Store V)} (hi : mem.Inv cfg)
    (htodo : mem.todo = st :: rest) : (mem.store rest st).Inv cfg := by
  obtain ⟨ph₀, hv₀, hp₀⟩ := hi.current_standing
  rw [htodo] at hp₀
  cases hp₀ with
  | @cons _ _ ph' _ _ _ head tail =>
    have hready : ∀ hs, mem.writer = some hs →
        hs.Ok cfg ∧ hs.map = ((mem.maps mem.current).apply st).applyAll rest := by
      intro hs hw
      obtain ⟨hok, hm⟩ := hi.ready hs hw
      rw [htodo] at hm
      exact ⟨hok, hm⟩
    rcases store_cases mem rest st with
      ⟨update, rfl, hc, hu, -, hsame⟩ | ⟨hmap, hc, hm, -, -, hsame⟩
    · constructor
      · intro map hle
        by_cases hnew : map = mem.current + 1
        · cases head with
          | publish hv' =>
            refine ⟨.idle, ?_, ?_⟩
            · rw [hnew, hu]; exact hv'
            · rw [if_pos (hnew.trans hc.symm), hnew, hu, (store_todo rest _).1]
              exact tail
        · have hle' : map ≤ mem.current := by rw [hc] at hle; omega
          obtain ⟨ph, hst⟩ := hi.standing map hle'
          rcases hst.store hl htodo hle' with ⟨-, -, -, h⟩ | ⟨hcur, ph₁, hal, -⟩
          · exact ⟨.idle, h⟩
          · -- the map just retired
            cases hal with
            | publish hv' =>
              refine ⟨.idle, ?_, ?_⟩
              · rw [hsame map hle']; exact hst.1
              · rw [if_neg (by omega)]
      · intro hs hw
        rw [(store_todo rest _).2] at hw
        rw [hc, hu, (store_todo rest _).1]
        exact hready hs hw
    · constructor
      · intro map hle
        have hle' : map ≤ mem.current := hc ▸ hle
        obtain ⟨ph, hst⟩ := hi.standing map hle'
        rcases hst.store hl htodo hle' with ⟨-, -, -, h⟩ | ⟨-, ph₁, -, h⟩
        · exact ⟨.idle, h⟩
        · exact ⟨ph₁, h hmap⟩
      · intro hs hw
        rw [(store_todo rest _).2] at hw
        rw [hc, hm, (store_todo rest _).1]
        exact hready hs hw

/-- The start of a call keeps a map in its phase. -/
theorem Standing.begin {sts : List (Store V)} {w : Option (State V)} {map : Nat} {ph : Phase}
    (idle : mem.todo = []) (hp : Map.Path cfg (mem.maps mem.current) .idle sts .idle)
    (h : Standing cfg mem map ph) : Standing cfg { mem with todo := sts, writer := w } map ph := by
  refine ⟨h.1, ?_⟩
  have hst := h.2
  by_cases hcur : map = mem.current
  · rw [if_pos hcur, idle] at hst
    rw [if_pos (show map = mem.current from hcur), path_nil hst, hcur]
    exact hp
  · rw [if_neg hcur] at hst
    rw [if_neg (show ¬ map = mem.current from hcur)]
    exact hst

/-- Every step of the writer keeps the invariant. -/
theorem Inv.write (hl : cfg.Lawful) {mem' : Memory V} (hi : mem.Inv cfg)
    (hw : Write cfg mem mem') : mem'.Inv cfg := by
  cases hw with
  | store htodo => exact hi.store hl htodo
  | call op idle ready proper =>
    obtain ⟨sts, w, he, hp, hready⟩ := begin_cases hl hi idle ready proper
    rw [he]
    constructor
    · intro map hle
      obtain ⟨ph, hst⟩ := hi.standing map hle
      exact ⟨ph, hst.begin idle hp⟩
    · exact hready

theorem current_le {mem' : Memory V} (hl : cfg.Lawful) (hi : mem.Inv cfg)
    (hw : Write cfg mem mem') :
    mem.current ≤ mem'.current ∧ mem.signals ≤ mem'.signals := by
  cases hw with
  | @store st rest htodo =>
    rcases store_cases mem rest st with ⟨_, -, hc, -, hs, -⟩ | ⟨-, hc, -, hs, -⟩
    · exact ⟨by omega, hs.ge⟩
    · exact ⟨hc.ge, hs⟩
  | call op idle ready proper =>
    obtain ⟨sts, w, he, -, -⟩ := begin_cases hl hi idle ready proper
    rw [he]
    exact ⟨le_rfl, le_rfl⟩

/-- A map that is not the current one after a step of the writer was not changed by it. -/
theorem retired_same {mem' : Memory V} (hl : cfg.Lawful) (hi : mem.Inv cfg)
    (hw : Write cfg mem mem') {map : Nat} (hle : map ≤ mem.current) (hne : map ≠ mem'.current) :
    mem'.maps map = mem.maps map := by
  cases hw with
  | @store st rest htodo =>
    rcases store_cases mem rest st with ⟨_, -, -, -, -, h⟩ | ⟨-, hc, -, -, -, h⟩
    · exact h map hle
    · exact h map (hc ▸ hne)
  | call op idle ready proper =>
    obtain ⟨sts, w, he, -, -⟩ := begin_cases hl hi idle ready proper
    rw [he]

/-- Anchors in a map that is not the current one after a step of the writer stay. -/
theorem anchor_retired {mem' : Memory V} (hl : cfg.Lawful) (hi : mem.Inv cfg)
    (hw : Write cfg mem mem') {map n : Nat} {key : V} (hle : map ≤ mem.current)
    (hne : map ≠ mem'.current) (ha : mem.anchor cfg map key n) : mem'.anchor cfg map key n := by
  have hsame := retired_same hl hi hw hle hne
  obtain ⟨ph, hst, han⟩ := ha
  cases hw with
  | @store st rest htodo =>
    rcases hst.store hl htodo hle with ⟨-, -, rfl, h⟩ | ⟨hcur, ph', hal, -⟩
    · exact ⟨.idle, h, hsame ▸ han⟩
    · rcases store_cases mem rest st with ⟨update, rfl, hc, -⟩ | ⟨-, hc, -⟩
      · cases hal with
        | publish hv' =>
          refine ⟨.idle, ⟨hsame ▸ hst.1, ?_⟩, hsame ▸ han⟩
          rw [if_neg (by omega)]
      · exact absurd (hcur.trans hc.symm) hne
  | call op idle ready proper =>
    obtain ⟨sts, w, he, hp, -⟩ := begin_cases hl hi idle ready proper
    rw [he]
    exact ⟨ph, hst.begin idle hp, han⟩

/-- A step of the writer that stays on the map is an allowed store to it or changes nothing. -/
theorem write_current {mem' : Memory V} (hl : cfg.Lawful) (hi : mem.Inv cfg)
    (hw : Write cfg mem mem') (hcur : mem'.current = mem.current) {ph : Phase}
    (hst : Standing cfg mem mem.current ph) :
    (mem'.maps mem.current = mem.maps mem.current ∧ Standing cfg mem' mem.current ph) ∨
    ∃ st ph', (∀ update, st ≠ .map update) ∧ (mem.maps mem.current).Allowed cfg ph st ph' ∧
      mem'.maps mem.current = (mem.maps mem.current).apply st ∧
      Standing cfg mem' mem.current ph' ∧
      ((∃ cell value, st = .generation cell value) → mem.signals < mem'.signals) := by
  cases hw with
  | @store st rest htodo =>
    rcases store_cases mem rest st with ⟨_, -, hc, -⟩ | ⟨hmap, -, hm, -, hs, -⟩
    · omega
    · rcases hst.store hl htodo le_rfl with ⟨hne, -⟩ | ⟨-, ph', hal, h⟩
      · exact absurd rfl hne
      · exact .inr ⟨st, ph', hmap, hal, hm, h hmap, hs⟩
  | call op idle ready proper =>
    obtain ⟨sts, w, he, hp, -⟩ := begin_cases hl hi idle ready proper
    rw [he]
    exact .inl ⟨rfl, hst.begin idle hp⟩

/-- The writer of `ck_hs` keeps its side of the lookup protocol. -/
theorem guarantee (hl : cfg.Lawful) :
    Guarantee (shared cfg) (Inv cfg) (Write cfg) (anchor cfg) where
  inv hi hw := hi.write hl hw
  current_le hi hw := (current_le hl hi hw).1
  signals_le hi hw := (current_le hl hi hw).2
  good _ _ ha := by
    obtain ⟨ph, hst, han⟩ := ha
    exact han.good hst.1 hl
  stored {mem key} hi hne := by
    obtain ⟨ph, hst⟩ := hi.standing mem.current le_rfl
    obtain ⟨n, hn⟩ := hst.1.anchored hl ((hst.1.lookup_ne_none_iff hl).mp hne)
    exact ⟨n, ph, hst, hn⟩
  generation_lt {mem map key} hi hle := by
    obtain ⟨ph, hst⟩ := hi.standing map hle
    exact hst.1.generation_lt _
  retired {mem mem' map key} hi hw hle hne := by
    refine ⟨?_, fun n ha => anchor_retired hl hi hw hle hne ha⟩
    show ((mem'.maps map).view cfg key).generation = ((mem.maps map).view cfg key).generation
    rw [retired_same hl hi hw hle hne]
  signal {mem mem' key} hi hw hcur hgen := by
    obtain ⟨ph, hst⟩ := hi.standing mem.current le_rfl
    rcases write_current hl hi hw hcur hst with ⟨hm, -⟩ | ⟨st, ph', hmap, hal, hm, -, hs⟩
    · refine absurd ?_ hgen
      show ((mem'.maps mem.current).view cfg key).generation = _
      rw [hm]
      rfl
    · change ((mem'.maps mem.current).view cfg key).generation ≠ _ at hgen
      show ((mem'.maps mem.current).view cfg key).generation = _ ∧ _
      rw [hm] at hgen ⊢
      obtain ⟨hsig, hval⟩ := hal.generation hmap hgen
      exact ⟨hval, hs hsig⟩
  keep {mem mem' key n} hi hw hcur hgen hst' ha := by
    obtain ⟨ph, hst, han⟩ := ha
    rcases write_current hl hi hw hcur hst with ⟨hm, hstand⟩ | ⟨st, ph', hmap, hal, hm, hstand, -⟩
    · exact ⟨ph, hstand, hm ▸ han⟩
    · refine ⟨ph', hstand, ?_⟩
      show (mem'.maps mem.current).Anchored cfg ph' key n
      change ((mem'.maps mem.current).view cfg key).generation = _ at hgen
      change ((mem'.maps mem.current).view cfg key).lookup wordMax ≠ none at hst'
      rw [hm] at hgen hst' ⊢
      have hv' := hal.valid hl hst.1
      exact hal.keep hl hst.1 hmap hgen ((hv'.lookup_ne_none_iff hl).mp hst') han

/-- The objects the readers meet are those the writer stores. -/
theorem objectGuarantee (hl : cfg.Lawful) :
    ObjectGuarantee (shared cfg) (Inv cfg) (Write cfg) where
  inv hi hw := hi.write hl hw
  current_le hi hw := (current_le hl hi hw).1
  least {mem key n v} hi hn := by
    obtain ⟨ph, hst⟩ := hi.standing mem.current le_rfl
    exact hst.1.lookup_least hl hn
  retired {mem mem' map} key hi hw hle hne := by
    show ((mem'.maps map).view cfg key).probe = ((mem.maps map).view cfg key).probe
    rw [retired_same hl hi hw hle hne]
  change {mem mem'} key hi hw hcur := by
    obtain ⟨ph, hst⟩ := hi.standing mem.current le_rfl
    show HitChange wordMax ((mem.maps mem.current).view cfg key)
      ((mem'.maps mem.current).view cfg key)
    rcases write_current hl hi hw hcur hst with ⟨hm, -⟩ | ⟨st, ph', hmap, hal, hm, -, -⟩
    · rw [hm]
      exact .same fun _ _ => Iff.rfl
    · rw [hm]
      exact hal.hitChange hl hst.1 hmap

theorem start_inv {entries : Nat} {hs : State V} (hinit : init cfg entries = some hs) :
    (start hs).Inv cfg := by
  have hok := init_ok hinit
  constructor
  · intro map hle
    refine ⟨.idle, hok.valid, ?_⟩
    split
    · exact .nil _ _
    · rfl
  · intro hs' he
    cases he
    exact ⟨hok, rfl⟩

end Guarantees

/-- The object stored for the key: what a lookup that runs alone returns. -/
def stored (cfg : Config V) (mem : Memory V) (key : V) : Option V :=
  ((mem.maps mem.current).view cfg key).lookup wordMax

/-- A lookup that runs beside the writer, with fewer than `2 ^ 32` signals meanwhile, finds a
key that some slot of the current map holds throughout the call, and whatever it returns
was the stored object at some moment of the call. -/
theorem get_beside_writer {ι : Type} [DecidableEq ι] {cfg : Config V} (hl : cfg.Lawful)
    {entries : Nat} {hs : State V} (hinit : init cfg entries = some hs)
    {s : System (Memory V) V V ι}
    (hr : System.Reachable (shared cfg) (Write cfg) (start hs) s) {i : ι}
    {c : Lookup.Call (Memory V) V V} (hc : s.calls i = some c) {object : Option V}
    (hdone : c.pc = .done object)
    (hsig : ∀ mem ∈ c.moments, mem.signals < c.start.signals + 2 ^ 32) :
    ((∀ mem ∈ c.moments, (mem.maps mem.current).Holds cfg c.key) → object ≠ none) ∧
      ∀ v, object = some v → ∃ mem ∈ c.moments, mem.stored cfg c.key = some v := by
  have hi := start_inv hinit
  constructor
  · intro hholds
    refine Lookup.lookup_ne_none (guarantee hl) hi hr hc hdone hsig fun mem hmem => ?_
    have hinv :=
      ((Lookup.reachable_moments hr hi fun _ _ h hw => h.write hl hw).2 i c hc).2 mem hmem
    obtain ⟨ph, hst⟩ := hinv.standing mem.current le_rfl
    exact (hst.1.lookup_ne_none_iff hl).mpr (hholds mem hmem)
  · rintro v rfl
    exact Lookup.lookup_stored (objectGuarantee hl) hi hr hc hdone

/-- The set of numbers right after `ck_hs_init`. -/
def numbersStart : State Nat :=
  { map := Map.create numbers 8, allocs := 1, peak := 8, stores := [] }

/-- The memory once the writer has put `1`, store by store. -/
def numbersPut : Memory Nat :=
  (((start numbersStart).begin (step numbers { numbersStart with stores := [] } (.put 1))
    |>.store [.entry 1 (.entry 0 1), .nEntries 1] (.probeMaximum 1))
    |>.store [.nEntries 1] (.entry 1 (.entry 0 1)))
    |>.store [] (.nEntries 1)

theorem numbersPut_reachable :
    System.Reachable (shared numbers) (Write numbers) (start numbersStart)
      (⟨numbersPut, fun _ => none⟩ : System (Memory Nat) Nat Nat Unit) :=
  (((Relation.ReflTransGen.single (.write (.call (.put 1) rfl rfl trivial))).tail
    (.write (.store rfl))).tail (.write (.store rfl))).tail (.write (.store rfl))

theorem get_beside_writer_numbers :
    ∃ (s : System (Memory Nat) Nat Nat Unit) (c : Lookup.Call (Memory Nat) Nat Nat),
      System.Reachable (shared numbers) (Write numbers) (start numbersStart) s ∧
      s.calls () = some c ∧ c.pc = .done (some 1) ∧
      ((∀ mem ∈ c.moments, (mem.maps mem.current).Holds numbers c.key) → some 1 ≠ none) ∧
      ∀ v, some 1 = some v → ∃ mem ∈ c.moments, mem.stored numbers c.key = some v := by
  have hr := numbersPut_reachable.loads 1 (i := ()) rfl 5
  have hcall := Function.update_self ()
    (some (⟨1, (Lookup.Pc.load (shared numbers) numbersPut 1)^[5] .loadMap, numbersPut,
      [numbersPut]⟩ : Lookup.Call (Memory Nat) Nat Nat)) (fun _ => none)
  refine ⟨_, _, hr, hcall, rfl, ?_⟩
  refine get_beside_writer numbers_lawful rfl hr (i := ()) hcall rfl fun mem hmem => ?_
  rw [List.mem_singleton.mp hmem]
  decide

end Memory

end ConcurrencyKit.Hs
