import ConcurrencyKit.Hs.Grow

/-!
# Garbage collection

`ck_hs_gc` visits the slots in a rotation of their order and moves every entry to the first
tombstone of its probe sequence. A full scan also measures how far the entries are from
their homes and lowers the probe bounds to that at the end. The invariant of the scan is
that every live slot is either still to be visited or within the measured bounds; an entry
that moves forward over the scan is visited again, one that moves behind it was measured
at its new place.
-/

namespace ConcurrencyKit.Hs

variable {V : Type} [DecidableEq V]

namespace Map

section Visit

variable {cfg : Config V} {m : Map V}

theorem Valid.assigned_self (hv : m.Valid cfg .idle) {v : V} (hm : v ∈ m.objects) :
    assigned cfg m.objects v = m.objects := by
  ext w
  constructor
  · rintro (rfl | ⟨hw, -⟩)
    · exact hm
    · exact hw
  · intro hw
    by_cases hk : cfg.keyMatch w v = true
    · obtain ⟨s, t, hs⟩ := hm
      obtain ⟨s', t', hs'⟩ := hw
      have he := hv.unique s' s t' t w v hs' hs nofun nofun hk
      rw [he, hs] at hs'
      cases hs'
      exact .inl rfl
    · exact .inr ⟨hw, Bool.eq_false_iff.mpr hk⟩

/-- The probe for a stored entry ends at its own slot. -/
theorem Valid.probe_self (hv : m.Valid cfg .idle) (hl : cfg.Lawful) {s t : Nat} {v : V}
    (hs : m.entries s = .entry t v) :
    ∃ n priority nProbes, cfg.cursor m.capacity (cfg.hf v) n = s ∧
      m.Clear cfg (cfg.hf v) v n ∧ m.Covers (cfg.hf v) n ∧
      m.First cfg (cfg.hf v) n priority nProbes ∧
      m.probe cfg (cfg.hf v) v (m.boundGet (cfg.hf v)) .probe =
        ⟨some s, some v, priority, nProbes⟩ := by
  have hp := probe_within cfg m (cfg.hf v) v
  have hpresent : ¬ m.Absent cfg v := by
    intro ha
    have := ha s t v hs
    rw [Callbacks.keyMatch_refl] at this
    cases this
  revert hp
  generalize m.probe cfg (cfg.hf v) v (m.boundGet (cfg.hf v)) .probe = r
  intro hp
  cases hp with
  | @found n tag val priority nProbes lt path at_cursor hit first =>
    have hm := (hv.hit_iff hl at_cursor).mp hit
    have he := hv.unique _ s tag t val v at_cursor hs nofun nofun hm
    have hval : Slot.entry tag val = .entry t v := by
      rw [← hs, ← he]
      exact at_cursor.symm
    cases hval
    exact ⟨n, priority, nProbes, he, path, hv.covers_found hl path at_cursor hit, first,
      by rw [he]⟩
  | vacant lt path at_cursor first =>
    exact absurd (hv.absent_of_clear hl path (.inr at_cursor)) hpresent
  | tombstone lt path at_priority absent =>
    rcases absent with h | h
    · cases h
    · exact absurd (hv.absent_of_clear hl h (.inl le_rfl)) hpresent
  | full absent => exact absurd (hv.absent_of_clear hl absent (.inl le_rfl)) hpresent

end Visit

/-- Slot `s` with object `v` is within the bounds the scan has measured. -/
def Measured (cfg : Config V) (m : Map V) (l : State.GcLocals) (v : V) (s : Nat) : Prop :=
  ∃ n, cfg.cursor m.capacity (cfg.hf v) n = s ∧ m.Covers (cfg.hf v) n ∧ m.Open cfg (cfg.hf v) n ∧
    n < l.maximum ∧ ∀ b, l.bounds = some b → b (m.home (cfg.hf v)) ≠ wordMax →
      n < b (m.home (cfg.hf v))

/-- The scan visits slot `s` in one of its last `remaining` iterations. -/
def Ahead (m : Map V) (seed remaining s : Nat) : Prop :=
  ∃ i, m.capacity - remaining ≤ i ∧ i < m.capacity ∧ (i + seed) &&& (m.capacity - 1) = s

/-- The invariant of a full scan. -/
structure Scanned (cfg : Config V) (m : Map V) (seed remaining : Nat) (l : State.GcLocals) :
    Prop where
  maximum_le : l.maximum ≤ m.probeLimit
  bounds_le : ∀ b, l.bounds = some b → ∀ i, b i ≤ wordMax ∧ b i ≤ m.probeLimit
  live : ∀ s t v, m.entries s = .entry t v → m.Measured cfg l v s ∨ m.Ahead seed remaining s

section Scan

variable {cfg : Config V} {m : Map V} {l : State.GcLocals}

theorem Valid.and_mask {ph : Phase} (hv : m.Valid cfg ph) (i : Nat) :
    i &&& (m.capacity - 1) = i % m.capacity := by
  obtain ⟨k, -, hk⟩ := hv.shape
  rw [hk, Nat.and_two_pow_sub_one_eq_mod]

/-- Every slot is visited. -/
theorem Valid.ahead {ph : Phase} (hv : m.Valid cfg ph) (seed : Nat) {s : Nat}
    (hs : s < m.capacity) : m.Ahead seed m.capacity s := by
  have hpos := hv.pos
  refine ⟨(s + (m.capacity - seed % m.capacity)) % m.capacity, by omega, Nat.mod_lt _ hpos, ?_⟩
  rw [hv.and_mask, Nat.mod_add_mod]
  have hlt := Nat.mod_lt seed hpos
  have hdiv := Nat.div_add_mod seed m.capacity
  have : s + (m.capacity - seed % m.capacity) + seed =
      s + m.capacity * (1 + seed / m.capacity) := by
    rw [Nat.mul_add, Nat.mul_one]
    omega
  rw [this, Nat.add_mul_mod_self_left, Nat.mod_eq_of_lt hs]

omit [DecidableEq V] in
theorem Ahead.succ {seed remaining s : Nat} (ha : m.Ahead seed (remaining + 1) s)
    (hne : s ≠ (m.capacity - (remaining + 1) + seed) &&& (m.capacity - 1)) :
    m.Ahead seed remaining s := by
  obtain ⟨i, hi, hlt, hs⟩ := ha
  refine ⟨i, ?_, hlt, hs⟩
  have : i ≠ m.capacity - (remaining + 1) := by
    rintro rfl
    exact hne hs.symm
  omega

omit [DecidableEq V] in
/-- Measuring an entry keeps what is measured. -/
theorem Measured.record {v : V} {s home nProbes : Nat} (h : m.Measured cfg l v s) :
    m.Measured cfg (l.record home nProbes) v s := by
  obtain ⟨n, hn, hc, ho, hmax, hb⟩ := h
  refine ⟨n, hn, hc, ho, lt_of_lt_of_le hmax (le_max_left _ _), fun b hb' hne => ?_⟩
  simp only [State.GcLocals.record, Option.map_eq_some_iff] at hb'
  obtain ⟨b₀, hb₀, rfl⟩ := hb'
  have hold := hb b₀ hb₀
  by_cases hh : m.home (cfg.hf v) = home
  · rw [hh, Function.update_self] at hne ⊢
    rw [hh] at hold
    simp only [wordMax] at hne hold ⊢
    by_cases hsat : b₀ home = 255
    · exact absurd (by omega) hne
    · have := hold hsat
      omega
  · rw [Function.update_of_ne hh] at hne ⊢
    exact hold hne

omit [DecidableEq V] in
/-- Measuring an entry at probe index `n` puts it within the bounds. -/
theorem measured_record {v : V} {s n : Nat}
    (hle : ∀ b, l.bounds = some b → ∀ i, b i ≤ wordMax)
    (hn : cfg.cursor m.capacity (cfg.hf v) n = s) (hc : m.Covers (cfg.hf v) n)
    (ho : m.Open cfg (cfg.hf v) n) :
    m.Measured cfg (l.record (m.home (cfg.hf v)) (n + 1)) v s := by
  refine ⟨n, hn, hc, ho, lt_of_lt_of_le (Nat.lt_succ_self n) (le_max_right _ _), ?_⟩
  intro b hb hne
  simp only [State.GcLocals.record, Option.map_eq_some_iff] at hb
  obtain ⟨b₀, hb₀, rfl⟩ := hb
  have hle₀ := hle b₀ hb₀ (m.home (cfg.hf v))
  rw [Function.update_self] at hne ⊢
  simp only [wordMax] at hne hle₀ ⊢
  omega

end Scan

end Map

namespace State

section Loop

variable {cfg : Config V}

/-- The state after `ck_hs_gc` has visited an entry. -/
def gcVisited (cfg : Config V) (hs : State V) (entry : V) (r : ProbeResult V) : State V :=
  match r.priority with
  | some first =>
    hs.exec (hs.map.relocate (cfg.hf entry) first r.cursor (cfg.marshal entry (cfg.hf entry)))
  | none => hs

/-- What a visit to an entry does: the entry is now at probe index `n`, its slot is either
unchanged or given up, and everything else stays. -/
structure Visited (cfg : Config V) (hs : State V) (s : Nat) (v : V) (hs' : State V) (n : Nat) :
    Prop where
  evolves : Evolves cfg hs hs'
  objects : hs'.map.objects = hs.map.objects
  accounts : hs.map.Accounts 0 → hs'.map.Accounts 0
  capacity : hs'.map.capacity = hs.map.capacity
  maximum : hs'.map.probeMaximum = hs.map.probeMaximum
  bound : hs'.map.probeBound = hs.map.probeBound
  covers : hs.map.Covers (cfg.hf v) n
  path : hs'.map.Open cfg (cfg.hf v) n
  opened : ∀ h k, hs.map.Open cfg h k → hs'.map.Open cfg h k
  live : ∀ i t u, hs'.map.entries i = .entry t u →
    (u = v ∧ i = cfg.cursor hs.map.capacity (cfg.hf v) n) ∨
      (i ≠ s ∧ hs.map.entries i = .entry t u)

theorem gcVisited_visited (hl : cfg.Lawful) {hs : State V} (hv : hs.map.Valid cfg .idle)
    {s t : Nat} {v : V} (hs' : hs.map.entries s = .entry t v) :
    ∃ n, (hs.map.probe cfg (cfg.hf v) v (hs.map.boundGet (cfg.hf v)) .probe).nProbes = n + 1 ∧
      Visited cfg hs s v
        (hs.gcVisited cfg v (hs.map.probe cfg (cfg.hf v) v (hs.map.boundGet (cfg.hf v)) .probe))
        n := by
  obtain ⟨n, priority, nProbes, hn, path, hcov, first, hr⟩ := hv.probe_self hl hs'
  rw [hr]
  rcases id first with ⟨rfl, rfl⟩ | ⟨p, hp, hword, rfl, rfl⟩
  · refine ⟨n, rfl, .refl _, rfl, id, rfl, rfl, rfl, hcov, path.open_path, fun _ _ => id, ?_⟩
    intro i t' u hi
    change hs.map.entries i = _ at hi
    by_cases his : i = s
    · rw [his, hs'] at hi
      cases hi
      exact .inl ⟨rfl, his.trans hn.symm⟩
    · exact .inr ⟨his, hi⟩
  · have hcursor : hs.map.word cfg (cfg.hf v) n = .entry t v := by rw [Map.word, hn]; exact hs'
    have hc := Map.change_move hl hv (rfl : hs.map.generation = _) (Callbacks.keyMatch_refl v) path
      hcursor (hv.hit_iff hl hs' |>.mpr (Callbacks.keyMatch_refl v)) first
    rw [hv.assigned_self ⟨s, t, hs'⟩, hn] at hc
    have hentries : ∀ i, (hs.map.applyAll (hs.map.moveStores (cfg.hf v) s
        (some (cfg.cursor hs.map.capacity (cfg.hf v) p)) (cfg.marshal v (cfg.hf v)))).entries i =
        Function.update (Function.update hs.map.entries (cfg.cursor hs.map.capacity (cfg.hf v) p)
          (cfg.marshal v (cfg.hf v))) s .tombstone i := fun _ => rfl
    have hopened : ∀ h k, hs.map.Open cfg h k → (hs.map.applyAll (hs.map.moveStores (cfg.hf v) s
        (some (cfg.cursor hs.map.capacity (cfg.hf v) p))
        (cfg.marshal v (cfg.hf v)))).Open cfg h k := by
      intro h k ho j hj
      unfold Map.word
      rw [hentries, Function.update_apply, Function.update_apply]
      split
      · intro he
        cases he
      · split
        · intro he
          cases he
        · exact ho j hj
    refine ⟨p, rfl, .exec hc.path (le_trans hc.capacity.le (le_max_left _ _)), hc.objects,
      hc.accounts, rfl, rfl, rfl, hcov.mono hp.le, ?_, hopened, ?_⟩
    · exact hopened _ _ (path.open_path.mono hp.le)
    · intro i t' u hi
      have hi' := (hentries i).symm.trans hi
      rw [Function.update_apply, Function.update_apply] at hi'
      split at hi'
      · cases hi'
      · rename_i his
        split at hi'
        · rename_i hip
          obtain ⟨-, rfl⟩ := Map.marshal_eq hi'
          exact .inl ⟨rfl, hip⟩
        · exact .inr ⟨his, hi'⟩

/-- What the scan does to the set, for any cycle count. -/
structure Collected (cfg : Config V) (hs hs' : State V) : Prop where
  evolves : Evolves cfg hs hs'
  objects : hs'.map.objects = hs.map.objects
  accounts : hs.map.Accounts 0 → hs'.map.Accounts 0
  capacity : hs'.map.capacity = hs.map.capacity
  maximum : hs'.map.probeMaximum = hs.map.probeMaximum
  bound : hs'.map.probeBound = hs.map.probeBound

theorem Collected.trans {hs hs' hs'' : State V} (h : Collected cfg hs hs')
    (h' : Collected cfg hs' hs'') : Collected cfg hs hs'' :=
  ⟨h.evolves.trans h'.evolves, h'.objects.trans h.objects, fun ha => h'.accounts (h.accounts ha),
    h'.capacity.trans h.capacity, h'.maximum.trans h.maximum, h'.bound.trans h.bound⟩

theorem Visited.collected {hs hs' : State V} {s n : Nat} {v : V}
    (h : Visited cfg hs s v hs' n) : Collected cfg hs hs' :=
  ⟨h.evolves, h.objects, h.accounts, h.capacity, h.maximum, h.bound⟩

/-- A visit measures the entry and keeps the rest of the scan's invariant. -/
theorem Visited.scanned {hs hs' : State V} {seed remaining n : Nat} {v : V} {l : GcLocals}
    (hv : hs.map.Valid cfg .idle)
    (h : Visited cfg hs
      ((hs.map.capacity - (remaining + 1) + seed) &&& (hs.map.capacity - 1)) v hs' n)
    (hsc : hs.map.Scanned cfg seed (remaining + 1) l) :
    hs'.map.Scanned cfg seed remaining (l.record (hs.map.home (cfg.hf v)) (n + 1)) := by
  have hlim : hs'.map.probeLimit = hs.map.probeLimit := by
    unfold Map.probeLimit
    rw [h.capacity]
  have hcovers : ∀ {g k}, hs.map.Covers g k → hs'.map.Covers g k := by
    intro g k hc
    unfold Map.Covers Map.home
    rw [h.maximum, h.bound, h.capacity]
    exact hc
  have hhome : ∀ g, hs'.map.home g = hs.map.home g := by
    intro g
    unfold Map.home
    rw [h.capacity]
  have hn : n + 1 ≤ hs.map.probeLimit := by
    have := h.covers.1
    have := hv.maximum_le
    omega
  refine ⟨?_, ?_, ?_⟩
  · rw [hlim]
    exact max_le hsc.maximum_le hn
  · intro b hb i
    simp only [GcLocals.record, Option.map_eq_some_iff] at hb
    obtain ⟨b₀, hb₀, rfl⟩ := hb
    have hle := hsc.bounds_le b₀ hb₀
    rw [hlim, Function.update_apply]
    split
    · have := hle (hs.map.home (cfg.hf v))
      exact ⟨by omega, by omega⟩
    · exact hle i
  · intro i t u hi
    rcases h.live i t u hi with ⟨rfl, rfl⟩ | ⟨his, hold⟩
    · left
      rw [← hhome]
      refine Map.measured_record (fun b hb j => (hsc.bounds_le b hb j).1) ?_ (hcovers h.covers)
        h.path
      rw [h.capacity]
    · rcases hsc.live i t u hold with hm | ha
      · left
        obtain ⟨k, hk, hc, ho, hmax, hb⟩ := hm
        have hm' : hs'.map.Measured cfg l u i :=
          ⟨k, by rw [h.capacity]; exact hk, hcovers hc, h.opened _ _ ho, hmax,
            by rw [hhome]; exact hb⟩
        exact hm'.record
      · right
        obtain ⟨j, hj⟩ := ha.succ his
        exact ⟨j, by rw [h.capacity]; exact hj⟩

theorem gcLoop_entry {seed remaining t : Nat} {l : GcLocals} {hs : State V} {v : V}
    (hslot : hs.map.entries
      ((hs.map.capacity - (remaining + 1) + seed) &&& (hs.map.capacity - 1)) = .entry t v)
    {r : ProbeResult V}
    (hr : r = hs.map.probe cfg (cfg.hf v) v (hs.map.boundGet (cfg.hf v)) .probe) :
    gcLoop cfg seed (remaining + 1) l hs =
      if l.cycles = 0 then
        gcLoop cfg seed remaining (l.record (hs.map.home (cfg.hf v)) r.nProbes)
          (hs.gcVisited cfg v r)
      else if l.cycles = 1 then ({ l with cycles := 0 }, hs.gcVisited cfg v r)
      else gcLoop cfg seed remaining { l with cycles := l.cycles - 1 } (hs.gcVisited cfg v r) := by
  subst hr
  rw [gcLoop, hslot]
  rfl

/-- The scan moves entries and keeps the rest; a full scan leaves every live slot measured. -/
theorem gcLoop_collected (hl : cfg.Lawful) {seed remaining : Nat} {l : GcLocals} {hs : State V}
    (hv : hs.map.Valid cfg .idle) :
    Collected cfg hs (gcLoop cfg seed remaining l hs).2 ∧
      (l.cycles ≠ 0 → (gcLoop cfg seed remaining l hs).1.maximum = l.maximum ∧
        (gcLoop cfg seed remaining l hs).1.bounds = l.bounds) ∧
      (l.cycles = 0 → hs.map.Scanned cfg seed remaining l →
        (gcLoop cfg seed remaining l hs).2.map.Scanned cfg seed 0
          (gcLoop cfg seed remaining l hs).1 ∧
        (gcLoop cfg seed remaining l hs).1.bounds.isSome = l.bounds.isSome) := by
  induction remaining generalizing l hs with
  | zero =>
    exact ⟨⟨.refl _, rfl, id, rfl, rfl, rfl⟩, fun _ => ⟨rfl, rfl⟩, fun _ hsc => ⟨hsc, rfl⟩⟩
  | succ remaining ih =>
    have hskip : (∀ t v, hs.map.entries
        ((hs.map.capacity - (remaining + 1) + seed) &&& (hs.map.capacity - 1)) ≠ .entry t v) →
        hs.map.Scanned cfg seed (remaining + 1) l → hs.map.Scanned cfg seed remaining l := by
      intro hno hsc
      refine ⟨hsc.maximum_le, hsc.bounds_le, fun s t v hs' => ?_⟩
      rcases hsc.live s t v hs' with hm | ha
      · exact .inl hm
      · refine .inr (ha.succ ?_)
        rintro rfl
        exact hno t v hs'
    cases hslot : hs.map.entries
        ((hs.map.capacity - (remaining + 1) + seed) &&& (hs.map.capacity - 1)) with
    | entry t v =>
      obtain ⟨n, hprobes, hvis⟩ := gcVisited_visited hl hv hslot
      have hv' := hvis.evolves.valid hl hv
      rw [gcLoop_entry hslot rfl, hprobes]
      revert hvis hv'
      generalize hs.gcVisited cfg v _ = hs'
      intro hvis hv'
      split
      · rename_i h0
        obtain ⟨hc, -, hfull⟩ := @ih (l.record (hs.map.home (cfg.hf v)) (n + 1)) hs' hv'
        refine ⟨hvis.collected.trans hc, fun hne => absurd h0 hne, fun _ hsc => ?_⟩
        obtain ⟨hsc', hsome⟩ := hfull h0 (hvis.scanned hv hsc)
        refine ⟨hsc', hsome.trans ?_⟩
        rw [GcLocals.record, Option.isSome_map]
      · rename_i h0
        split
        · exact ⟨hvis.collected, fun _ => ⟨rfl, rfl⟩, fun h => absurd h h0⟩
        · rename_i h1
          obtain ⟨hc, hpart, -⟩ := @ih { l with cycles := l.cycles - 1 } hs' hv'
          refine ⟨hvis.collected.trans hc, fun _ => hpart ?_, fun h => absurd h h0⟩
          show l.cycles - 1 ≠ 0
          omega
    | empty =>
      rw [gcLoop, hslot]
      obtain ⟨hc, hpart, hfull⟩ := @ih l hs hv
      exact ⟨hc, hpart, fun h0 hsc => hfull h0 (hskip (by rw [hslot]; exact nofun) hsc)⟩
    | tombstone =>
      rw [gcLoop, hslot]
      obtain ⟨hc, hpart, hfull⟩ := @ih l hs hv
      exact ⟨hc, hpart, fun h0 hsc => hfull h0 (hskip (by rw [hslot]; exact nofun) hsc)⟩

/-! ## Lowering the bounds -/

/-- Storing the measured maximum is allowed. -/
theorem storeMaximum_path {m : Map V} {seed : Nat} {l : GcLocals} (hv : m.Valid cfg .idle)
    (hsc : m.Scanned cfg seed 0 l) : Map.Path cfg m .idle (m.storeMaximum l.maximum) .idle := by
  unfold Map.storeMaximum
  split
  · exact .nil _ _
  · refine .one (.probeMaximum (hv.rebound rfl rfl rfl hsc.maximum_le hv.bound_le ?_))
    intro s t v hs
    rcases hsc.live s t v hs with ⟨n, hn, hc, ho, hmax, -⟩ | ⟨i, hi, hlt, -⟩
    · exact ⟨n, hn, ⟨hmax, hc.2⟩, ho⟩
    · omega

/-- The bounds `b` leave every live slot in reach, whether a bound is stored already or not. -/
def Reachable (cfg : Config V) (m : Map V) (b : Nat → Nat) : Prop :=
  ∀ s t v, m.entries s = .entry t v →
    ∃ n, cfg.cursor m.capacity (cfg.hf v) n = s ∧ m.Covers (cfg.hf v) n ∧
      m.Open cfg (cfg.hf v) n ∧ (b (m.home (cfg.hf v)) ≠ wordMax → n < b (m.home (cfg.hf v)))

theorem bounds_path {b : Nat → Nat} (homes : List Nat) {m : Map V}
    (hv : m.Valid cfg .idle) (hle : ∀ i, b i ≤ m.probeLimit) (hr : Reachable cfg m b) :
    Map.Path cfg m .idle (homes.map (fun i => .probeBound i (b i))) .idle := by
  induction homes generalizing m with
  | nil => exact .nil _ _
  | cons i homes ih =>
    have hr' : Reachable cfg (m.apply (.probeBound i (b i))) b := by
      intro s t v hs
      obtain ⟨n, hn, hc, ho, hb⟩ := hr s t v hs
      refine ⟨n, hn, ⟨hc.1, fun c hcb hne => ?_⟩, ho, hb⟩
      simp only [Map.apply, Option.map_eq_some_iff] at hcb
      obtain ⟨old, hold, rfl⟩ := hcb
      change Function.update old i (b i) (m.home (cfg.hf v)) ≠ wordMax at hne
      show n < Function.update old i (b i) (m.home (cfg.hf v))
      by_cases hi : m.home (cfg.hf v) = i
      · rw [hi, Function.update_self] at hne ⊢
        rw [hi] at hb
        exact hb hne
      · rw [Function.update_of_ne hi] at hne ⊢
        exact hc.2 old hold hne
    have hv' : (m.apply (.probeBound i (b i))).Valid cfg .idle := by
      refine hv.rebound rfl rfl rfl hv.maximum_le ?_ fun s t v hs => ?_
      · intro c hcb j
        simp only [Map.apply, Option.map_eq_some_iff] at hcb
        obtain ⟨old, hold, rfl⟩ := hcb
        rw [Function.update_apply]
        split
        · exact hle i
        · exact hv.bound_le old hold j
      · obtain ⟨n, hn, hc, ho, -⟩ := hr' s t v hs
        exact ⟨n, hn, hc, ho⟩
    exact .cons (.probeBound hv') (ih hv' hle hr')

omit [DecidableEq V] in
theorem applyAll_bounds_frame (homes : List Nat) (b : Nat → Nat) (m : Map V) :
    (m.applyAll (homes.map (fun i => .probeBound i (b i)))).entries = m.entries ∧
      (m.applyAll (homes.map (fun i => .probeBound i (b i)))).capacity = m.capacity ∧
      (m.applyAll (homes.map (fun i => .probeBound i (b i)))).nEntries = m.nEntries ∧
      (m.applyAll (homes.map (fun i => .probeBound i (b i)))).tombstones = m.tombstones := by
  induction homes generalizing m with
  | nil => exact ⟨rfl, rfl, rfl, rfl⟩
  | cons i homes ih => exact ih (m.apply (.probeBound i (b i)))

/-- Storing measured bounds is allowed and changes only bounds. -/
theorem storeBounds_evolves {hs : State V} {bounds : Option (Nat → Nat)}
    (hv : hs.map.Valid cfg .idle) (hle : ∀ b, bounds = some b → ∀ i, b i ≤ hs.map.probeLimit)
    (hr : ∀ b, bounds = some b → Reachable cfg hs.map b) :
    Evolves cfg hs (hs.exec (hs.map.storeBounds bounds)) ∧
      (hs.exec (hs.map.storeBounds bounds)).map.objects = hs.map.objects ∧
      (hs.map.Accounts 0 → (hs.exec (hs.map.storeBounds bounds)).map.Accounts 0) := by
  cases bounds with
  | none => exact ⟨.exec (.nil _ _) (le_max_left _ _), rfl, id⟩
  | some b =>
    obtain ⟨he, hc, hn, ht⟩ := applyAll_bounds_frame (List.range hs.map.capacity) b hs.map
    refine ⟨.exec (bounds_path _ hv (hle b rfl) (hr b rfl)) ?_, Map.objects_congr he, ?_⟩
    · exact hc.le.trans (le_max_left _ _)
    · exact fun ha => ha.congr he hc hn ht

/-- The stores at the end of a full scan. -/
theorem gc_finish (hl : cfg.Lawful) {hs : State V} {seed : Nat} {l : GcLocals}
    (hv : hs.map.Valid cfg .idle) (ha : hs.map.Accounts 0)
    (hsc : hs.map.Scanned cfg seed 0 l) :
    Evolves cfg hs ((hs.exec (hs.map.storeMaximum l.maximum)).exec
        ((hs.exec (hs.map.storeMaximum l.maximum)).map.storeBounds l.bounds)) ∧
      ((hs.exec (hs.map.storeMaximum l.maximum)).exec
        ((hs.exec (hs.map.storeMaximum l.maximum)).map.storeBounds l.bounds)).map.objects =
          hs.map.objects ∧
      ((hs.exec (hs.map.storeMaximum l.maximum)).exec
        ((hs.exec (hs.map.storeMaximum l.maximum)).map.storeBounds l.bounds)).map.Accounts 0 := by
  have hpath := storeMaximum_path hv hsc
  have hmap : (hs.exec (hs.map.storeMaximum l.maximum)).map =
      { hs.map with probeMaximum := l.maximum } := by
    show hs.map.applyAll (hs.map.storeMaximum l.maximum) = _
    unfold Map.storeMaximum
    split
    · rename_i heq
      rw [heq]
      rfl
    · rfl
  have hev : Evolves cfg hs (hs.exec (hs.map.storeMaximum l.maximum)) := by
    refine .exec hpath ?_
    show (hs.exec (hs.map.storeMaximum l.maximum)).map.capacity ≤ _
    rw [hmap]
    exact le_max_left _ _
  have hv' := hev.valid hl hv
  have hle : ∀ b, l.bounds = some b →
      ∀ i, b i ≤ (hs.exec (hs.map.storeMaximum l.maximum)).map.probeLimit := by
    intro b hb i
    rw [hmap]
    exact (hsc.bounds_le b hb i).2
  have hr : ∀ b, l.bounds = some b →
      Reachable cfg (hs.exec (hs.map.storeMaximum l.maximum)).map b := by
    intro b hb s t v hs'
    rw [hmap] at hs' ⊢
    rcases hsc.live s t v hs' with ⟨n, hn, hc, ho, hmax, hbound⟩ | ⟨i, hi, hlt, -⟩
    · exact ⟨n, hn, ⟨hmax, hc.2⟩, ho, hbound b hb⟩
    · have : hs.map.capacity ≤ i := hi
      omega
  obtain ⟨hev', hobj, hacc⟩ := storeBounds_evolves hv' hle hr
  refine ⟨hev.trans hev', hobj.trans ?_, hacc ?_⟩
  · rw [hmap]; rfl
  · rw [hmap]; exact ha.congr rfl rfl rfl rfl

omit [DecidableEq V] in
theorem exec_nil (hs : State V) : hs.exec [] = hs := by
  unfold exec
  rw [List.append_nil]
  rfl

/-- What `ck_hs_gc` does to a set whose counters are right. -/
def Preserves (cfg : Config V) (hs hs' : State V) : Prop :=
  Evolves cfg hs hs' ∧ hs'.map.objects = hs.map.objects ∧ hs'.map.Accounts 0

theorem Accounts.no_live {m : Map V} (hv : m.Valid cfg .idle) (ha : m.Accounts 0)
    (h0 : m.nEntries = 0) (s t : Nat) (v : V) : m.entries s ≠ .entry t v := by
  intro hs
  have hlive := ha.live
  rw [h0] at hlive
  have := of_tally_eq_zero hlive.symm (hv.live_lt hs)
  rw [hs] at this
  cases this

/-- With no entries left all bounds may go to zero. -/
theorem gc_empty {hs : State V} (hv : hs.map.Valid cfg .idle)
    (ha : hs.map.Accounts 0) (h0 : hs.map.nEntries = 0) :
    Preserves cfg hs (hs.exec (.probeMaximum 0 ::
      hs.map.storeBounds (hs.map.probeBound.map (fun _ => fun _ => 0)))) := by
  have hno := Accounts.no_live hv ha h0
  have hmax : (hs.map.apply (.probeMaximum 0)).Valid cfg .idle :=
    hv.rebound rfl rfl rfl (Nat.zero_le _) hv.bound_le
      (fun s t v hs' => absurd hs' (hno s t v))
  have hev : Evolves cfg hs (hs.exec [.probeMaximum 0]) :=
    .exec (.one (.probeMaximum hmax)) (le_max_left _ _)
  have hb : ∀ b : Nat → Nat, hs.map.probeBound.map (fun _ => fun _ => 0) = some b →
      ∀ i, b i = 0 := by
    intro b hb i
    obtain ⟨-, -, rfl⟩ := Option.map_eq_some_iff.mp hb
    rfl
  obtain ⟨hev', hobj, hacc⟩ := @storeBounds_evolves _ _ cfg (hs.exec [.probeMaximum 0])
    (hs.map.probeBound.map (fun _ => fun _ => 0)) hmax
    (fun b hb' i => by rw [hb b hb' i]; exact Nat.zero_le _)
    (fun b _ s t v hs' => absurd hs' (hno s t v))
  have heq : (hs.exec [.probeMaximum 0]).exec
      ((hs.exec [.probeMaximum 0]).map.storeBounds (hs.map.probeBound.map (fun _ => fun _ => 0))) =
      hs.exec (.probeMaximum 0 ::
        hs.map.storeBounds (hs.map.probeBound.map (fun _ => fun _ => 0))) := by
    unfold exec
    simp only [List.append_assoc, List.singleton_append]
    rfl
  rw [← heq]
  exact ⟨hev.trans hev', hobj, hacc (ha.congr rfl rfl rfl rfl)⟩

/-- The start of a full scan. -/
theorem scanned_start {m : Map V} (hv : m.Valid cfg .idle) (seed : Nat)
    {bounds : Option (Nat → Nat)} (hb : ∀ b, bounds = some b → ∀ i, b i = 0) :
    m.Scanned cfg seed m.capacity ⟨0, 0, bounds⟩ where
  maximum_le := Nat.zero_le _
  bounds_le b hb' i := by
    rw [hb b hb' i]
    exact ⟨Nat.zero_le _, Nat.zero_le _⟩
  live s t v hs := .inr (hv.ahead seed (hv.live_lt hs))

/-- `ck_hs_gc` keeps the objects, and fails only if its allocation does. -/
theorem gc_preserves (hl : cfg.Lawful) {hs : State V} (hv : hs.map.Valid cfg .idle)
    (ha : hs.map.Accounts 0) (cycles seed : Nat) :
    Preserves cfg hs (hs.gc cfg cycles seed).2 ∧
      ((hs.gc cfg cycles seed).1 = false → Failed cfg hs (hs.gc cfg cycles seed).2) := by
  unfold gc
  split
  · exact ⟨gc_empty hv ha ‹_›, nofun⟩
  · split
    · -- a full scan that measures the bounds of the homes
      rename_i hfull
      have hev : Evolves cfg hs { hs with allocs := hs.allocs + 1 } :=
        .of_map_eq rfl rfl (Nat.le_succ _) le_rfl
      dsimp only
      split
      · obtain ⟨hc, -, hsc⟩ := @gcLoop_collected _ _ cfg hl seed hs.map.capacity
          ⟨0, 0, some (fun _ => 0)⟩ { hs with allocs := hs.allocs + 1 } hv
        obtain ⟨hsc', -⟩ := hsc rfl (scanned_start hv seed (fun b hb i => by
          rw [← Option.some.inj hb]))
        obtain ⟨hev', hobj, hacc⟩ := gc_finish hl (hc.evolves.valid hl hv) (hc.accounts ha) hsc'
        exact ⟨⟨hev.trans (hc.evolves.trans hev'), hobj.trans hc.objects, hacc⟩, nofun⟩
      · rename_i hm
        refine ⟨⟨hev, rfl, ha⟩, fun _ => ⟨hs.allocs, le_rfl, Nat.lt_succ_self _, ?_⟩⟩
        exact Bool.eq_false_iff.mpr hm
    · rename_i hpart
      obtain ⟨hc, hkeep, hsc⟩ := @gcLoop_collected _ _ cfg hl seed hs.map.capacity
        ⟨cycles, if cycles = 0 then 0 else hs.map.probeMaximum, none⟩ hs hv
      dsimp only
      by_cases h0 : cycles = 0
      · obtain ⟨hsc', hnone⟩ := hsc h0 (by
          rw [h0, if_pos rfl]
          exact scanned_start hv seed nofun)
        have hfin := gc_finish hl (hc.evolves.valid hl hv) (hc.accounts ha) hsc'
        rw [Option.isNone_iff_eq_none.mp (Option.isSome_eq_false_iff.mp hnone),
          show ∀ m : Map V, m.storeBounds none = [] from fun _ => rfl, exec_nil] at hfin
        exact ⟨⟨hc.evolves.trans hfin.1, hfin.2.1.trans hc.objects, hfin.2.2⟩, nofun⟩
      · obtain ⟨hmax, -⟩ := hkeep h0
        have hnil : ∀ (m : Map V) {n : Nat}, n = m.probeMaximum → m.storeMaximum n = [] :=
          fun m n hn => by rw [Map.storeMaximum, if_pos hn]
        rw [hnil _ (by rw [hmax, hc.maximum]; exact if_neg h0), exec_nil]
        exact ⟨⟨hc.evolves, hc.objects, hc.accounts ha⟩, nofun⟩

end Loop

end State

end ConcurrencyKit.Hs
