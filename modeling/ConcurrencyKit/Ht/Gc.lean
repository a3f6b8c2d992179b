import ConcurrencyKit.Ht.Grow

/-!
# Garbage collection

`ck_ht_gc` visits the slots in a rotation of their order and moves every entry to the first
tombstone of its probe sequence. A full scan also measures how far the entries are from
their homes and lowers the probe bounds to that at the end. The invariant of the scan is
that every live slot is either still to be visited or within the measured bounds.
-/

namespace ConcurrencyKit.Ht

namespace Map

section Visit

variable {cfg : Config} {m : Map}

/-- The probe for a stored entry ends at its own slot. -/
theorem Valid.probe_self (hv : m.Valid cfg .idle) (hcov : cfg.Covered) {s : Nat}
    (hs : (m.entries s).live = true) :
    ∃ n available probesWr, cfg.cursor m.capacity (cfg.hashOf (m.entries s)) n = s ∧
      n < m.probeSlots cfg ∧ m.Clear cfg (cfg.hashOf (m.entries s)) (m.entries s) n ∧
      m.First cfg (cfg.hashOf (m.entries s)) n available (n + 1) probesWr ∧
      m.probeWr cfg (cfg.hashOf (m.entries s)) (m.entries s)
        (m.boundGet (cfg.hashOf (m.entries s))) =
        ⟨some s, m.entries s, available, n + 1, probesWr⟩ := by
  have hw := probeWr_walked cfg m (cfg.hashOf (m.entries s)) (m.entries s)
    (m.boundGet (cfg.hashOf (m.entries s)))
  have hpresent : ¬ m.Absent cfg (m.entries s) := fun ha => ha s hs rfl
  have habs := hw.absent hv hcov (hv.fits hs) (.inr rfl)
  revert hw habs
  generalize m.probeWr cfg (cfg.hashOf (m.entries s)) (m.entries s) _ = r
  intro hw habs
  cases hw with
  | @found n probesWr available lt path hit first =>
    have hid := (hv.hit_iff hcov (hv.fits hs) (hit_live hit)).mp hit
    have he := hv.unique _ s (hit_live hit) hs nofun nofun hid
    refine ⟨n, available, probesWr, he, lt, path, first, ?_⟩
    rw [word, he]
  | vacant lt path empty first => exact absurd (habs fun hf => hf.2 empty) hpresent
  | missed path le past first => exact absurd (habs fun hf => hf.1 rfl) hpresent

end Visit

/-- Slot `s` is within the bounds the scan has measured. -/
def Measured (cfg : Config) (m : Map) (l : State.GcLocals) (e : Entry) (s : Nat) : Prop :=
  ∃ n < m.probeSlots cfg, cfg.cursor m.capacity (cfg.hashOf e) n = s ∧
    m.Covers (cfg.hashOf e) n ∧ m.Open cfg (cfg.hashOf e) n ∧ n < l.maximum ∧
    ∀ b, l.bounds = some b → b (m.home (cfg.hashOf e)) ≠ wordMax → n < b (m.home (cfg.hashOf e))

/-- The scan visits slot `s` in one of its last `remaining` iterations. -/
def Ahead (m : Map) (seed remaining s : Nat) : Prop :=
  ∃ i, m.capacity - remaining ≤ i ∧ i < m.capacity ∧ (i + seed) &&& (m.capacity - 1) = s

/-- The invariant of a full scan. -/
structure Scanned (cfg : Config) (m : Map) (seed remaining : Nat) (l : State.GcLocals) :
    Prop where
  bounds_le : ∀ b, l.bounds = some b → ∀ i, b i ≤ wordMax
  live : ∀ s, (m.entries s).live = true →
    m.Measured cfg l (m.entries s) s ∨ m.Ahead seed remaining s

section Scan

variable {cfg : Config} {m : Map} {l : State.GcLocals}

theorem Valid.and_mask {ph : Phase} (hv : m.Valid cfg ph) (i : Nat) :
    i &&& (m.capacity - 1) = i % m.capacity := by
  obtain ⟨k, -, hk⟩ := hv.shape
  rw [hk, Nat.and_two_pow_sub_one_eq_mod]

/-- Every slot is visited. -/
theorem Valid.ahead {ph : Phase} (hv : m.Valid cfg ph) (seed : Nat) {s : Nat}
    (hs : s < m.capacity) : m.Ahead seed m.capacity s := by
  have hpos := hv.pos
  refine ⟨(s + (m.capacity - seed % m.capacity)) % m.capacity, by omega, Nat.mod_lt _ hpos, ?_⟩
  rw [hv.and_mask, Nat.mod_add_mod]
  have hlt := Nat.mod_lt seed hpos
  have hdiv := Nat.div_add_mod seed m.capacity
  have : s + (m.capacity - seed % m.capacity) + seed =
      s + m.capacity * (1 + seed / m.capacity) := by
    rw [Nat.mul_add, Nat.mul_one]
    omega
  rw [this, Nat.add_mul_mod_self_left, Nat.mod_eq_of_lt hs]

theorem Ahead.succ {seed remaining s : Nat} (ha : m.Ahead seed (remaining + 1) s)
    (hne : s ≠ (m.capacity - (remaining + 1) + seed) &&& (m.capacity - 1)) :
    m.Ahead seed remaining s := by
  obtain ⟨i, hi, hlt, hs⟩ := ha
  refine ⟨i, ?_, hlt, hs⟩
  have : i ≠ m.capacity - (remaining + 1) := by
    rintro rfl
    exact hne hs.symm
  omega

/-- Measuring an entry keeps what is measured. -/
theorem Measured.record {e : Entry} {s home probes : Nat} (h : m.Measured cfg l e s) :
    m.Measured cfg (l.record home probes) e s := by
  obtain ⟨n, hlt, hn, hc, ho, hmax, hb⟩ := h
  refine ⟨n, hlt, hn, hc, ho, lt_of_lt_of_le hmax (le_max_left _ _), fun b hb' hne => ?_⟩
  simp only [State.GcLocals.record, Option.map_eq_some_iff] at hb'
  obtain ⟨b₀, hb₀, rfl⟩ := hb'
  have hold := hb b₀ hb₀
  by_cases hh : m.home (cfg.hashOf e) = home
  · rw [hh, Function.update_self] at hne ⊢
    rw [hh] at hold
    simp only [wordMax] at hne hold ⊢
    by_cases hsat : b₀ home = 255
    · exact absurd (by omega) hne
    · have := hold hsat
      omega
  · rw [Function.update_of_ne hh] at hne ⊢
    exact hold hne

/-- Measuring an entry at probe index `n` puts it within the bounds. -/
theorem measured_record {e : Entry} {s n : Nat}
    (hle : ∀ b, l.bounds = some b → ∀ i, b i ≤ wordMax) (hlt : n < m.probeSlots cfg)
    (hn : cfg.cursor m.capacity (cfg.hashOf e) n = s) (hc : m.Covers (cfg.hashOf e) n)
    (ho : m.Open cfg (cfg.hashOf e) n) :
    m.Measured cfg (l.record (m.home (cfg.hashOf e)) (n + 1)) e s := by
  refine ⟨n, hlt, hn, hc, ho, lt_of_lt_of_le (Nat.lt_succ_self n) (le_max_right _ _), ?_⟩
  intro b hb hne
  simp only [State.GcLocals.record, Option.map_eq_some_iff] at hb
  obtain ⟨b₀, hb₀, rfl⟩ := hb
  have hle₀ := hle b₀ hb₀ (m.home (cfg.hashOf e))
  rw [Function.update_self] at hne ⊢
  simp only [wordMax] at hne hle₀ ⊢
  omega

end Scan

end Map

namespace State

section Loop

variable {cfg : Config} {ht ht' : State}

/-- The state after `ck_ht_gc` has visited an entry. -/
def gcVisited (cfg : Config) (ht : State) (r : ProbeResult) : State :=
  match r.available, r.cursor with
  | some priority, some slot => ht.exec (ht.map.gcMove cfg priority slot)
  | _, _ => ht

/-- What the scan does to the table, for any cycle count. -/
structure Collected (cfg : Config) (ht ht' : State) : Prop extends Keeps cfg ht ht' where
  capacity : ht'.map.capacity = ht.map.capacity
  maximum : ht'.map.probeMaximum = ht.map.probeMaximum
  bound : ht'.map.probeBound = ht.map.probeBound

theorem Collected.refl (ht : State) : Collected cfg ht ht := ⟨.refl _, rfl, rfl, rfl⟩

theorem Collected.trans {ht'' : State} (h : Collected cfg ht ht')
    (h' : Collected cfg ht' ht'') : Collected cfg ht ht'' :=
  ⟨h.toKeeps.trans h'.toKeeps, h'.capacity.trans h.capacity, h'.maximum.trans h.maximum,
    h'.bound.trans h.bound⟩

/-- What a visit to an entry does: the entry is now at probe index `n`, its slot is either
unchanged or given up, and everything else stays. -/
structure Visited (cfg : Config) (ht : State) (s : Nat) (ht' : State) (n : Nat) :
    Prop extends Collected cfg ht ht' where
  lt : n < ht.map.probeSlots cfg
  covers : ht.map.Covers (cfg.hashOf (ht.map.entries s)) n
  path : ht'.map.Open cfg (cfg.hashOf (ht.map.entries s)) n
  opened : ∀ h k, ht.map.Open cfg h k → ht'.map.Open cfg h k
  live : ∀ i, (ht'.map.entries i).live = true →
    (ht'.map.entries i = ht.map.entries s ∧
      i = cfg.cursor ht.map.capacity (cfg.hashOf (ht.map.entries s)) n) ∨
    (i ≠ s ∧ ht'.map.entries i = ht.map.entries i)

theorem open_moved {m m' : Map} {src dst : Nat} {e : Entry} (hne : src ≠ dst)
    (live : e.live = true) (he : m'.entries = (m.moved src dst e).entries)
    (hc : m'.capacity = m.capacity) {h : Word} {k : Nat} (ho : m.Open cfg h k) :
    m'.Open cfg h k := by
  intro j hj
  unfold Map.word
  rw [he, hc, Map.moved_entries m e hne]
  split
  · exact Map.buried_key_ne src
  · split
    · exact (Map.ne_of_live live).1
    · exact ho j hj

/-- A visit that moves the entry to the tombstone at probe index `p`. -/
theorem visited_move (hv : ht.map.Valid cfg .idle) {s p : Nat}
    (hmov : ht.map.Movable cfg s (ht.map.spot cfg (ht.map.entries s) p) (ht.map.entries s))
    (lt : p < ht.map.probeSlots cfg) (hcovers : ht.map.Covers (cfg.hashOf (ht.map.entries s)) p)
    (hopen : ht.map.Open cfg (cfg.hashOf (ht.map.entries s)) p) :
    Visited cfg ht s
      (ht.exec (ht.map.gcMove cfg (ht.map.spot cfg (ht.map.entries s) p) s)) p := by
  have hc := Map.change_gcMove hv hmov
  obtain ⟨-, -, hmax, hbound⟩ := @Map.gcMove_frame cfg ht.map hv s
    (ht.map.spot cfg (ht.map.entries s) p)
  have hent := @Map.gcMove_entries cfg ht.map s (ht.map.spot cfg (ht.map.entries s) p) hv
  have hopened := fun h k =>
    @open_moved cfg ht.map _ s _ _ hmov.before.ne hmov.at_src hent hc.capacity h k
  refine ⟨⟨⟨.exec hc.path (hc.capacity.le.trans (le_max_left _ _)), hc.objects, hc.accounts⟩,
    hc.capacity, hmax, hbound⟩, lt, hcovers, hopened _ _ hopen, hopened, fun i hi => ?_⟩
  have hi' := (congrFun hent i).trans (Map.moved_entries _ _ hmov.before.ne i)
  change (ht.exec _).map.entries i = _ at hi'
  rw [hi'] at hi ⊢
  by_cases his : i = s
  · rw [if_pos his, Map.buried_dead] at hi
    cases hi
  · rw [if_neg his]
    by_cases hip : i = ht.map.spot cfg (ht.map.entries s) p
    · rw [if_pos hip]
      exact .inl ⟨rfl, hip⟩
    · rw [if_neg hip]
      exact .inr ⟨his, rfl⟩

theorem gcVisited_visited (hv : ht.map.Valid cfg .idle) (hcov : cfg.Covered) {s : Nat}
    (hs : (ht.map.entries s).live = true) {r : ProbeResult}
    (hr : r = ht.map.probeWr cfg (cfg.hashOf (ht.map.entries s)) (ht.map.entries s)
      (ht.map.boundGet (cfg.hashOf (ht.map.entries s)))) :
    ∃ n, r.probesWr = n + 1 ∧ Visited cfg ht s (ht.gcVisited cfg r) n := by
  obtain ⟨n, available, probesWr, hn, lt, path, first, heq⟩ := hv.probe_self hcov hs
  rw [heq] at hr
  subst hr
  have hword : ht.map.word cfg (cfg.hashOf (ht.map.entries s)) n = ht.map.entries s := by
    rw [Map.word, hn]
  have hhit : cfg.hit (cfg.hashOf (ht.map.entries s)) (ht.map.entries s)
      (ht.map.word cfg (cfg.hashOf (ht.map.entries s)) n) = true := by
    rw [hword]
    exact (hv.hit_iff hcov (hv.fits hs) hs).mpr rfl
  have hcovers := hv.covers_found path hhit (by rw [hword])
  rcases first with ⟨rfl, rfl⟩ | ⟨p, hp, hdead, rfl, rfl⟩
  · refine ⟨n, rfl, .refl _, lt, hcovers, path.open_path, fun _ _ => id, fun i hi => ?_⟩
    by_cases his : i = s
    · exact .inl ⟨by rw [his]; rfl, his.trans hn.symm⟩
    · exact .inr ⟨his, rfl⟩
  · have hst : ht.map.Storable cfg (ht.map.entries s) := ⟨hv.proper hs, hv.fits hs⟩
    have hmov := hst.movable hv path hhit (by rw [hword]) lt hp hdead
    rw [show ht.map.spot cfg (ht.map.entries s) n = s from hn] at hmov
    exact ⟨p, rfl, visited_move hv hmov (by omega) (hcovers.mono hp.le)
      (path.open_path.mono hp.le)⟩

/-- A visit measures the entry and keeps the rest of the scan's invariant. -/
theorem Visited.scanned {seed remaining s n : Nat} {l : GcLocals}
    (h : Visited cfg ht s ht' n)
    (hs : s = (ht.map.capacity - (remaining + 1) + seed) &&& (ht.map.capacity - 1))
    (hsc : ht.map.Scanned cfg seed (remaining + 1) l) :
    ht'.map.Scanned cfg seed remaining
      (l.record (ht.map.home (cfg.hashOf (ht.map.entries s))) (n + 1)) := by
  have hslots : ht'.map.probeSlots cfg = ht.map.probeSlots cfg := by
    unfold Map.probeSlots Map.probeLimit
    rw [h.capacity]
  have hcovers : ∀ {g k}, ht.map.Covers g k → ht'.map.Covers g k := by
    intro g k hc
    unfold Map.Covers Map.home
    rw [h.maximum, h.bound, h.capacity]
    exact hc
  have hhome : ∀ g, ht'.map.home g = ht.map.home g := by
    intro g
    unfold Map.home
    rw [h.capacity]
  constructor
  · intro b hb i
    simp only [GcLocals.record, Option.map_eq_some_iff] at hb
    obtain ⟨b₀, hb₀, rfl⟩ := hb
    have hle := hsc.bounds_le b₀ hb₀
    rw [Function.update_apply]
    split
    · have := hle (ht.map.home (cfg.hashOf (ht.map.entries s)))
      omega
    · exact hle i
  · intro i hi
    rcases h.live i hi with ⟨he, rfl⟩ | ⟨his, hold⟩
    · left
      rw [he, ← hhome]
      refine Map.measured_record hsc.bounds_le ?_ ?_ (hcovers h.covers) h.path
      · rw [hslots]
        exact h.lt
      · rw [h.capacity]
    · rw [hold] at hi ⊢
      rcases hsc.live i hi with hm | ha
      · left
        obtain ⟨k, hlt, hk, hc, ho, hmax, hb⟩ := hm
        have hm' : ht'.map.Measured cfg l (ht.map.entries i) i :=
          ⟨k, by rw [hslots]; exact hlt, by rw [h.capacity]; exact hk, hcovers hc,
            h.opened _ _ ho, hmax, by rw [hhome]; exact hb⟩
        exact hm'.record
      · right
        obtain ⟨j, hj⟩ := ha.succ (hs ▸ his)
        exact ⟨j, by rw [h.capacity]; exact hj⟩

theorem gcLoop_live {seed remaining s : Nat} {l : GcLocals} (hv : ht.map.Valid cfg .idle)
    (hs : s = (ht.map.capacity - (remaining + 1) + seed) &&& (ht.map.capacity - 1))
    (live : (ht.map.entries s).live = true) {r : ProbeResult}
    (hr : r = ht.map.probeWr cfg (cfg.hashOf (ht.map.entries s)) (ht.map.entries s)
      (ht.map.boundGet (cfg.hashOf (ht.map.entries s)))) :
    gcLoop cfg seed (remaining + 1) l ht =
      if l.cycles = 0 then
        gcLoop cfg seed remaining
          (l.record (ht.map.home (cfg.hashOf (ht.map.entries s))) r.probesWr)
          (ht.gcVisited cfg r)
      else if l.cycles = 1 then ({ l with cycles := 0 }, ht.gcVisited cfg r)
      else gcLoop cfg seed remaining { l with cycles := l.cycles - 1 } (ht.gcVisited cfg r) := by
  subst hs hr
  rw [gcLoop]
  dsimp only
  rw [if_pos live, show cfg.entryHash _ = cfg.hashOf _ from hv.sound _ live]
  rfl

/-- The scan moves entries and keeps the rest; a full scan leaves every live slot measured. -/
theorem gcLoop_collected (hcov : cfg.Covered) {seed remaining : Nat} {l : GcLocals}
    (hv : ht.map.Valid cfg .idle) :
    Collected cfg ht (gcLoop cfg seed remaining l ht).2 ∧
      (l.cycles ≠ 0 → (gcLoop cfg seed remaining l ht).1.maximum = l.maximum ∧
        (gcLoop cfg seed remaining l ht).1.bounds = l.bounds) ∧
      (l.cycles = 0 → ht.map.Scanned cfg seed remaining l →
        (gcLoop cfg seed remaining l ht).2.map.Scanned cfg seed 0
          (gcLoop cfg seed remaining l ht).1 ∧
        (gcLoop cfg seed remaining l ht).1.bounds.isSome = l.bounds.isSome) := by
  induction remaining generalizing l ht with
  | zero => exact ⟨.refl _, fun _ => ⟨rfl, rfl⟩, fun _ hsc => ⟨hsc, rfl⟩⟩
  | succ remaining ih =>
    obtain ⟨s, hs⟩ : ∃ s, s = (ht.map.capacity - (remaining + 1) + seed) &&&
      (ht.map.capacity - 1) := ⟨_, rfl⟩
    by_cases live : (ht.map.entries s).live = true
    · obtain ⟨n, hprobes, hvis⟩ := gcVisited_visited hv hcov live rfl
      have hv' := hvis.evolves.valid hv
      rw [gcLoop_live hv hs live rfl, hprobes]
      revert hvis hv'
      generalize ht.gcVisited cfg _ = ht'
      intro hvis hv'
      split
      · rename_i h0
        obtain ⟨hc, -, hfull⟩ := @ih ht'
          (l.record (ht.map.home (cfg.hashOf (ht.map.entries s))) (n + 1)) hv'
        refine ⟨hvis.toCollected.trans hc, fun hne => absurd h0 hne, fun _ hsc => ?_⟩
        obtain ⟨hsc', hsome⟩ := hfull h0 (hvis.scanned hs hsc)
        refine ⟨hsc', hsome.trans ?_⟩
        rw [GcLocals.record, Option.isSome_map]
      · rename_i h0
        split
        · exact ⟨hvis.toCollected, fun _ => ⟨rfl, rfl⟩, fun h => absurd h h0⟩
        · rename_i h1
          obtain ⟨hc, hpart, -⟩ := @ih ht' { l with cycles := l.cycles - 1 } hv'
          refine ⟨hvis.toCollected.trans hc, fun _ => hpart ?_, fun h => absurd h h0⟩
          show l.cycles - 1 ≠ 0
          omega
    · have hstep : gcLoop cfg seed (remaining + 1) l ht = gcLoop cfg seed remaining l ht := by
        rw [gcLoop]
        dsimp only
        rw [← hs, if_neg live]
      rw [hstep]
      obtain ⟨hc, hpart, hfull⟩ := @ih ht l hv
      refine ⟨hc, hpart, fun h0 hsc => hfull h0 ⟨hsc.bounds_le, fun i hi => ?_⟩⟩
      rcases hsc.live i hi with hm | ha
      · exact .inl hm
      · refine .inr (ha.succ ?_)
        rw [← hs]
        rintro rfl
        exact live hi

/-! ## Lowering the bounds -/

/-- Storing the measured maximum is allowed. -/
theorem storeMaximum_path {m : Map} {seed : Nat} {l : GcLocals} (hv : m.Valid cfg .idle)
    (hsc : m.Scanned cfg seed 0 l) :
    Map.Path cfg m .idle (m.storeMaximum l.maximum) .idle .quiet := by
  unfold Map.storeMaximum
  split
  · exact .nil _ _
  · refine .one (.rebound rfl (hv.rebound rfl rfl hv.deletions_lt fun s hs _ => ?_))
    rcases hsc.live s hs with ⟨n, hlt, hn, hc, ho, hmax, -⟩ | ⟨i, hi, hlt, -⟩
    · exact ⟨n, hlt, hn, ⟨hmax, hc.2⟩, ho⟩
    · omega

/-- The bounds `b` leave every live slot in reach, whether a bound is stored already or not. -/
def Reachable (cfg : Config) (m : Map) (b : Nat → Nat) : Prop :=
  ∀ s, (m.entries s).live = true →
    ∃ n < m.probeSlots cfg, cfg.cursor m.capacity (cfg.hashOf (m.entries s)) n = s ∧
      m.Covers (cfg.hashOf (m.entries s)) n ∧ m.Open cfg (cfg.hashOf (m.entries s)) n ∧
      (b (m.home (cfg.hashOf (m.entries s))) ≠ wordMax →
        n < b (m.home (cfg.hashOf (m.entries s))))

theorem bounds_path {b : Nat → Nat} (homes : List Nat) {m : Map} (hv : m.Valid cfg .idle)
    (hr : Reachable cfg m b) :
    Map.Path cfg m .idle (homes.map (fun i => .probeBound i (b i))) .idle .quiet := by
  induction homes generalizing m with
  | nil => exact .nil _ _
  | cons i homes ih =>
    have hr' : Reachable cfg (m.apply (.probeBound i (b i))) b := by
      intro s hs
      obtain ⟨n, hlt, hn, hc, ho, hb⟩ := hr s hs
      refine ⟨n, hlt, hn, ⟨hc.1, fun c hcb hne => ?_⟩, ho, hb⟩
      simp only [Map.apply, Option.map_eq_some_iff] at hcb
      obtain ⟨old, hold, rfl⟩ := hcb
      change Function.update old i (b i) (m.home (cfg.hashOf (m.entries s))) ≠ wordMax at hne
      show n < Function.update old i (b i) (m.home (cfg.hashOf (m.entries s)))
      by_cases hi : m.home (cfg.hashOf (m.entries s)) = i
      · rw [hi, Function.update_self] at hne ⊢
        rw [hi] at hb
        exact hb hne
      · rw [Function.update_of_ne hi] at hne ⊢
        exact hc.2 old hold hne
    have hv' : (m.apply (.probeBound i (b i))).Valid cfg .idle := by
      refine hv.rebound rfl rfl hv.deletions_lt fun s hs _ => ?_
      obtain ⟨n, hlt, hn, hc, ho, -⟩ := hr' s hs
      exact ⟨n, hlt, hn, hc, ho⟩
    exact .cons (.rebound rfl hv') (ih hv' hr')

theorem applyAll_bounds_frame (homes : List Nat) (b : Nat → Nat) (m : Map) :
    (m.applyAll (homes.map (fun i => .probeBound i (b i)))).entries = m.entries ∧
      (m.applyAll (homes.map (fun i => .probeBound i (b i)))).capacity = m.capacity ∧
      (m.applyAll (homes.map (fun i => .probeBound i (b i)))).nEntries = m.nEntries := by
  induction homes generalizing m with
  | nil => exact ⟨rfl, rfl, rfl⟩
  | cons i homes ih => exact ih (m.apply (.probeBound i (b i)))

/-- Storing measured bounds is allowed and changes only bounds. -/
theorem storeBounds_keeps {bounds : Option (Nat → Nat)} (hv : ht.map.Valid cfg .idle)
    (hr : ∀ b, bounds = some b → Reachable cfg ht.map b) :
    Keeps cfg ht (ht.exec (ht.map.storeBounds bounds)) := by
  cases bounds with
  | none => exact ⟨.exec (.nil _ _) (le_max_left _ _), rfl, id⟩
  | some b =>
    obtain ⟨he, hc, hn⟩ := applyAll_bounds_frame (List.range ht.map.capacity) b ht.map
    refine ⟨.exec (bounds_path _ hv (hr b rfl)) ?_, Map.objects_congr he, ?_⟩
    · exact hc.le.trans (le_max_left _ _)
    · exact fun ha => ha.congr he hc hn

/-- The stores at the end of a full scan. -/
theorem gc_finish {seed : Nat} {l : GcLocals} (hv : ht.map.Valid cfg .idle)
    (hsc : ht.map.Scanned cfg seed 0 l) :
    Keeps cfg ht ((ht.exec (ht.map.storeMaximum l.maximum)).exec
      ((ht.exec (ht.map.storeMaximum l.maximum)).map.storeBounds l.bounds)) := by
  have hmap : (ht.exec (ht.map.storeMaximum l.maximum)).map =
      { ht.map with probeMaximum := l.maximum } := by
    show ht.map.applyAll (ht.map.storeMaximum l.maximum) = _
    unfold Map.storeMaximum
    split
    · rename_i heq
      rw [heq]
      rfl
    · rfl
  have hkeep : Keeps cfg ht (ht.exec (ht.map.storeMaximum l.maximum)) := by
    refine ⟨.exec (storeMaximum_path hv hsc) ?_, ?_, fun ha => ?_⟩
    · show (ht.exec (ht.map.storeMaximum l.maximum)).map.capacity ≤ _
      rw [hmap]
      exact le_max_left _ _
    · rw [hmap]
      rfl
    · rw [hmap]
      exact ha.congr rfl rfl rfl
  refine hkeep.trans (storeBounds_keeps (hkeep.evolves.valid hv) ?_)
  intro b hb s hs
  rw [hmap] at hs ⊢
  rcases hsc.live s hs with ⟨n, hlt, hn, hc, ho, hmax, hbound⟩ | ⟨i, hi, hlt, -⟩
  · exact ⟨n, hlt, hn, ⟨hmax, hc.2⟩, ho, hbound b hb⟩
  · have : ht.map.capacity ≤ i := hi
    omega

theorem exec_nil (ht : State) : ht.exec [] = ht := by
  unfold exec
  rw [List.append_nil]
  rfl

theorem no_live (hv : ht.map.Valid cfg .idle) (ha : ht.map.Accounts) (h0 : ht.map.nEntries = 0)
    (s : Nat) : ¬ (ht.map.entries s).live = true := by
  intro hs
  unfold Map.Accounts at ha
  rw [h0] at ha
  have := of_tally_eq_zero ha.symm (hv.live_lt hs)
  rw [hs] at this
  cases this

/-- With no entries left all bounds may go to zero. -/
theorem gc_empty (hv : ht.map.Valid cfg .idle) (ha : ht.map.Accounts)
    (h0 : ht.map.nEntries = 0) :
    Keeps cfg ht (ht.exec (.probeMaximum 0 ::
      ht.map.storeBounds (ht.map.probeBound.map (fun _ => fun _ => 0)))) := by
  have hno := no_live hv ha h0
  have hmax : (ht.map.apply (.probeMaximum 0)).Valid cfg .idle :=
    hv.rebound rfl rfl hv.deletions_lt (fun s hs => absurd hs (hno s))
  have hkeep : Keeps cfg ht (ht.exec [.probeMaximum 0]) :=
    ⟨.exec (.one (.rebound rfl hmax)) (le_max_left _ _), rfl, fun h => h.congr rfl rfl rfl⟩
  have hkeep' := hkeep.trans (@storeBounds_keeps cfg (ht.exec [.probeMaximum 0])
    (ht.map.probeBound.map (fun _ => fun _ => 0)) hmax fun b _ s hs => absurd hs (hno s))
  have heq : (ht.exec [.probeMaximum 0]).exec
      ((ht.exec [.probeMaximum 0]).map.storeBounds (ht.map.probeBound.map (fun _ => fun _ => 0))) =
      ht.exec (.probeMaximum 0 ::
        ht.map.storeBounds (ht.map.probeBound.map (fun _ => fun _ => 0))) := by
    unfold exec
    simp only [List.append_assoc, List.singleton_append]
    rfl
  rw [← heq]
  exact hkeep'

/-- The start of a full scan. -/
theorem scanned_start {m : Map} (hv : m.Valid cfg .idle) (seed : Nat)
    {bounds : Option (Nat → Nat)} (hb : ∀ b, bounds = some b → ∀ i, b i = 0) :
    m.Scanned cfg seed m.capacity ⟨0, 0, bounds⟩ where
  bounds_le b hb' i := by
    rw [hb b hb' i]
    exact Nat.zero_le _
  live s hs := .inr (hv.ahead seed (hv.live_lt hs))

/-- `ck_ht_gc` keeps the associations, and fails only if its allocation does. -/
theorem gc_keeps (hcov : cfg.Covered) (hv : ht.map.Valid cfg .idle) (ha : ht.map.Accounts)
    (cycles seed : Nat) :
    Keeps cfg ht (ht.gc cfg cycles seed).2 ∧
      ((ht.gc cfg cycles seed).1 = false → Failed cfg ht (ht.gc cfg cycles seed).2) := by
  unfold gc
  split
  · exact ⟨gc_empty hv ha ‹_›, nofun⟩
  · split
    · -- a full scan that measures the bounds of the homes
      have hkeep : Keeps cfg ht { ht with allocs := ht.allocs + 1 } :=
        ⟨.of_map_eq rfl rfl (Nat.le_succ _) le_rfl, rfl, id⟩
      dsimp only
      split
      · obtain ⟨hc, -, hsc⟩ := @gcLoop_collected cfg { ht with allocs := ht.allocs + 1 } hcov seed
          ht.map.capacity ⟨0, 0, some (fun _ => 0)⟩ hv
        obtain ⟨hsc', -⟩ := hsc rfl (scanned_start hv seed (fun b hb i => by
          rw [← Option.some.inj hb]))
        have hfin := gc_finish (hc.evolves.valid hv) hsc'
        exact ⟨hkeep.trans (hc.toKeeps.trans hfin), nofun⟩
      · rename_i hm
        refine ⟨hkeep, fun _ => ⟨ht.allocs, le_rfl, Nat.lt_succ_self _, ?_⟩⟩
        exact Bool.eq_false_iff.mpr hm
    · obtain ⟨hc, hkeep, hsc⟩ := @gcLoop_collected cfg ht hcov seed ht.map.capacity
        ⟨cycles, if cycles = 0 then 0 else ht.map.probeMaximum, none⟩ hv
      dsimp only
      by_cases h0 : cycles = 0
      · obtain ⟨hsc', hnone⟩ := hsc h0 (by
          rw [h0, if_pos rfl]
          exact scanned_start hv seed nofun)
        have hfin := gc_finish (hc.evolves.valid hv) hsc'
        rw [Option.isNone_iff_eq_none.mp (Option.isSome_eq_false_iff.mp hnone),
          show ∀ m : Map, m.storeBounds none = [] from fun _ => rfl, exec_nil] at hfin
        exact ⟨hc.toKeeps.trans hfin, nofun⟩
      · obtain ⟨hmax, -⟩ := hkeep h0
        have hnil : ∀ (m : Map) {n : Nat}, n = m.probeMaximum → m.storeMaximum n = [] :=
          fun m n hn => by rw [Map.storeMaximum, if_pos hn]
        rw [hnil _ (by rw [hmax, hc.maximum]; exact if_neg h0), exec_nil]
        exact ⟨hc.toKeeps, nofun⟩

end Loop

end State

end ConcurrencyKit.Ht
