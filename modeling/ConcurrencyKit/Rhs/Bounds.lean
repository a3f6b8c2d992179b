import ConcurrencyKit.Rhs.Crowding

/-!
# The probe bounds of the home slots

`ck_rhs_get` reads no more slots than the probe bound of the home slot of its key says. An
insertion raises the bound before an entry gets that far, also while a chain is still being
chosen. So the probe count of a slot is never beyond the bound of the home slot that the slot leads
back to with this count.
-/

namespace ConcurrencyKit.Rhs

variable {V : Type}

namespace Map

/-- The fields that limit a probe. -/
def bounds (m : Map V) : Nat × Nat × (Nat → Nat) := (m.capacity, m.probeMaximum, m.probeBound)

/-- The bound of a home slot admits `n` probes. The largest bound stands for the probe maximum. -/
def Admits (m : Map V) (home n : Nat) : Prop := n ≤ m.probeBound home ∨ m.probeBound home = wordMax

/-- No probe is allowed to go beyond the probe limit. -/
structure Capped (m : Map V) : Prop where
  maximum : m.probeMaximum ≤ m.probeLimit
  byte : ∀ home, m.probeBound home ≤ wordMax
  bound : ∀ home, m.probeBound home ≤ m.probeLimit

/-- The probe counts are within the bounds, but for the one of a vacant slot. -/
structure Bounded (cfg : Config V) (m : Map V) (vacant : Option Nat) : Prop where
  below : ∀ t, m.probes t ≤ m.probeMaximum
  capped : m.Capped
  admits : cfg.readMostly = false → ∀ t, vacant ≠ some t → 0 < m.probes t →
    m.Admits (firstOffset cfg.line m.capacity t (m.probes t)) (m.probes t)

/-- The bounds of the second map are those of the first one, or larger. -/
structure Raises (m m' : Map V) : Prop where
  capacity : m'.capacity = m.capacity
  maximum : m.probeMaximum ≤ m'.probeMaximum
  bound : ∀ home, m.probeBound home ≤ m'.probeBound home
  capped : m.Capped → m'.Capped

variable {cfg : Config V} {m m' m'' : Map V} {vacant vacant' : Option Nat} {home n t : Nat}

theorem probeLimit_congr (hc : m'.capacity = m.capacity) : m'.probeLimit = m.probeLimit := by
  rw [probeLimit, probeLimit, hc]

theorem Raises.refl (m : Map V) : Raises m m := ⟨rfl, le_rfl, fun _ => le_rfl, id⟩

theorem Raises.trans (h : Raises m m') (h' : Raises m' m'') : Raises m m'' where
  capacity := h'.capacity.trans h.capacity
  maximum := h.maximum.trans h'.maximum
  bound home := (h.bound home).trans (h'.bound home)
  capped := h'.capped ∘ h.capped

theorem Raises.of_bounds (h : m'.bounds = m.bounds) : Raises m m' := by
  simp only [bounds, Prod.mk.injEq] at h
  obtain ⟨hc, hm, hb⟩ := h
  refine ⟨hc, hm.ge, fun home => by rw [hb], fun hcap => ?_⟩
  refine ⟨?_, fun home => ?_, fun home => ?_⟩
  · rw [hm, probeLimit_congr hc]
    exact hcap.maximum
  · rw [hb]
    exact hcap.byte home
  · rw [hb, probeLimit_congr hc]
    exact hcap.bound home

theorem Admits.raise (h : m.Admits home n) (hr : Raises m m') (hcap : m.Capped) :
    m'.Admits home n := by
  have hle := hr.bound home
  have hbyte := (hr.capped hcap).byte home
  rcases h with h | h
  · exact .inl (h.trans hle)
  · exact .inr (le_antisymm hbyte (h ▸ hle))

/-- Larger bounds for the same probe counts. -/
theorem Bounded.raise (h : m.Bounded cfg vacant) (hr : Raises m m') (hp : m'.probes = m.probes) :
    m'.Bounded cfg vacant where
  below t := by
    rw [hp]
    exact (h.below t).trans hr.maximum
  capped := hr.capped h.capped
  admits hrm t ht hpos := by
    rw [hp] at hpos ⊢
    rw [hr.capacity]
    exact (h.admits hrm t ht hpos).raise hr h.capped

/-- A probe count that the bounds admit. The slot need not have been vacant. -/
theorem Bounded.setProbes (h : m.Bounded cfg vacant) (hb : m'.bounds = m.bounds)
    (hp : m'.probes = Function.update m.probes t n) (hn : n ≤ m.probeMaximum)
    (hadmits : cfg.readMostly = false → 0 < n →
      m.Admits (firstOffset cfg.line m.capacity t n) n)
    (hv : ∀ s, s ≠ t → vacant' ≠ some s → vacant ≠ some s) : m'.Bounded cfg vacant' := by
  have hr := Raises.of_bounds hb
  simp only [bounds, Prod.mk.injEq] at hb
  obtain ⟨hc, hm, hbound⟩ := hb
  refine ⟨fun s => ?_, hr.capped h.capped, fun hrm s hs hpos => ?_⟩
  · rw [hp, hm]
    by_cases hst : s = t
    · rw [hst, Function.update_self]
      exact hn
    · rw [Function.update_of_ne hst]
      exact h.below s
  · rw [hp] at hpos ⊢
    rw [hc]
    by_cases hst : s = t
    · rw [hst, Function.update_self] at hpos ⊢
      exact (hadmits hrm hpos).raise hr h.capped
    · rw [Function.update_of_ne hst] at hpos ⊢
      exact (h.admits hrm s (hv s hst hs) hpos).raise hr h.capped

theorem Bounded.le_limit (h : m.Bounded cfg vacant) (t : Nat) : m.probes t ≤ m.probeLimit :=
  (h.below t).trans h.capped.maximum

theorem raises_boundSet (cfg : Config V) (hcap : m.Capped) (hn : n ≤ m.probeLimit) (home : Nat) :
    Raises m (m.applyAll (m.boundSet cfg home n)) := by
  rw [applyAll_boundSet]
  refine ⟨rfl, le_max_left _ _, fun home' => ?_, fun _ => ⟨?_, fun home' => ?_, fun home' => ?_⟩⟩
  · dsimp only
    split
    · rename_i hlt
      by_cases hh : home' = home
      · rw [hh, Function.update_self]
        exact le_min hlt.2.le (hcap.byte home)
      · rw [Function.update_of_ne hh]
    · exact le_rfl
  · exact max_le hcap.maximum hn
  · dsimp only
    split
    · by_cases hh : home' = home
      · rw [hh, Function.update_self]
        exact min_le_right _ _
      · rw [Function.update_of_ne hh]
        exact hcap.byte home'
    · exact hcap.byte home'
  · dsimp only
    split
    · by_cases hh : home' = home
      · rw [hh, Function.update_self]
        exact (min_le_left _ _).trans hn
      · rw [Function.update_of_ne hh]
        exact hcap.bound home'
    · exact hcap.bound home'

theorem admits_boundSet (cfg : Config V) (m : Map V) (home n : Nat) (hrm : cfg.readMostly = false)
    (hcap : m.Capped) : (m.applyAll (m.boundSet cfg home n)).Admits home n := by
  rw [applyAll_boundSet]
  unfold Admits
  dsimp only
  by_cases hlt : m.probeBound home < n
  · rw [if_pos ⟨hrm, hlt⟩, Function.update_self]
    have hle := hcap.byte home
    omega
  · rw [if_neg fun h => hlt h.2]
    exact .inl (Nat.le_of_not_lt hlt)

theorem probes_boundSet (cfg : Config V) (m : Map V) (home n : Nat) :
    (m.applyAll (m.boundSet cfg home n)).probes = m.probes := by
  rw [applyAll_boundSet]

theorem le_maximum_boundSet (cfg : Config V) (m : Map V) (home n : Nat) :
    n ≤ (m.applyAll (m.boundSet cfg home n)).probeMaximum := by
  rw [applyAll_boundSet]
  exact le_max_right _ _

/-- The bound of a home slot is raised for the probe count of a slot. -/
theorem Bounded.extend (h : m.Bounded cfg vacant) (hn : n ≤ m.probeLimit)
    (hb : m'.bounds = (m.applyAll (m.boundSet cfg (firstOffset cfg.line m.capacity t n) n)).bounds)
    (hp : m'.probes = Function.update m.probes t n) :
    Raises m m' ∧ m'.Bounded cfg vacant := by
  generalize hhome : firstOffset cfg.line m.capacity t n = home at hb
  have hr := raises_boundSet cfg h.capped hn home
  have hmid := h.raise hr (probes_boundSet cfg m home n)
  have hmax := le_maximum_boundSet cfg m home n
  have hadmits := fun hrm => admits_boundSet cfg m home n hrm h.capped
  have hp' := probes_boundSet cfg m home n
  generalize m.applyAll (m.boundSet cfg home n) = m₁ at hb hr hmid hmax hadmits hp'
  refine ⟨hr.trans (.of_bounds hb), hmid.setProbes hb (by rw [hp, hp']) hmax ?_ fun _ _ => id⟩
  intro hrm _
  rw [hr.capacity, hhome]
  exact hadmits hrm

/-! ## The number of probes -/

theorem probeLeave_within {probes limit opl offset : Nat} {object : Option V}
    {pr : Option (Nat × Nat)} (hpr : ∀ p, pr = some p → p.2 ≤ opl)
    (hle : probes ≤ limit → probes ≤ opl)
    (h : (probeLeave probes limit offset object pr).first ≠ none ∨
      (probeLeave probes limit offset object pr).slot ≠ none) :
    (probeLeave probes limit offset object pr).nProbes ≤ opl := by
  cases hp : pr with
  | some p =>
    rw [probeLeave]
    exact hpr p hp
  | none =>
    rw [hp] at h
    unfold probeLeave at h ⊢
    dsimp only at h ⊢
    split at h
    · exact absurd h (by simp)
    · rename_i hlt
      exact hle (Nat.le_of_not_lt hlt)

/-- A probe that finds something has read no more slots than its limit says. -/
theorem probeLoop_within {hit : Word V → Bool} {opl fuel a offset limit : Nat}
    {behavior : ProbeBehavior} {pr : Option (Nat × Nat)} (ha : a ≤ limit) (hl : limit ≤ opl)
    (hpr : ∀ p, pr = some p → p.2 ≤ opl)
    (h : (probeLoop cfg m hit opl behavior fuel offset a limit pr).first ≠ none ∨
      (probeLoop cfg m hit opl behavior fuel offset a limit pr).slot ≠ none) :
    (probeLoop cfg m hit opl behavior fuel offset a limit pr).nProbes ≤ opl := by
  induction fuel generalizing a offset limit pr with
  | zero => exact probeLeave_within hpr (fun hle => by omega) h
  | succ fuel ih =>
    rw [probeLoop] at h ⊢
    split at h
    · rename_i hstop
      rw [if_pos hstop]
      exact probeLeave_within hpr (fun hle => by omega) h
    rename_i hgo
    rw [if_neg hgo]
    have hlimit : a + 1 ≤ (if a = limit then opl else limit) ∧
        (if a = limit then opl else limit) ≤ opl := by
      split
      · rename_i he
        have hne : limit ≠ opl := fun hlo => hgo ⟨he, .inl hlo⟩
        omega
      · omega
    generalize (if a = limit then opl else limit) = limit' at hlimit h ⊢
    obtain ⟨hlt, hle⟩ := hlimit
    dsimp only at h ⊢
    cases he : m.entries offset with
    | none =>
      rw [he] at h
      exact probeLeave_within hpr (fun hle' => hle'.trans hle) h
    | some w =>
      rw [he] at h
      dsimp only at h ⊢
      generalize m.picked behavior offset (a + 1) pr = pick at h ⊢
      have hpr' : ∀ p, (if pick = true then some (offset, a + 1) else pr) = some p →
          p.2 ≤ opl := by
        intro p hp
        split at hp
        · cases hp
          exact hlt.trans hle
        · exact hpr p hp
      split at h
      · rename_i hstop
        rw [if_pos hstop]
        exact probeLeave_within hpr' (fun hle' => hle'.trans hle) h
      rename_i hstop
      rw [if_neg hstop]
      split at h
      · rename_i hhit
        rw [if_pos hhit]
        exact probeLeave_within hpr' (fun hle' => hle'.trans hle) h
      · rename_i hhit
        rw [if_neg hhit]
        exact ih hlt hle hpr' h

theorem probeFrom_within (cfg : Config V) (m : Map V) (slot : Nat) (behavior : ProbeBehavior)
    (hn : n ≤ m.probeLimit)
    (h : (m.probeFrom cfg slot n behavior).first ≠ none ∨
      (m.probeFrom cfg slot n behavior).slot ≠ none) :
    (m.probeFrom cfg slot n behavior).nProbes ≤ m.probeLimit :=
  probeLoop_within hn le_rfl (fun _ h => by cases h) h

theorem boundGet_le (hcap : m.Capped) (home : Nat) : m.boundGet cfg home ≤ m.probeLimit := by
  unfold boundGet
  split
  · exact hcap.maximum
  split
  · exact hcap.maximum
  · exact hcap.bound home

theorem startLimit_le (hcap : m.Capped) {limit : Nat} (h : BitVec 64) (behavior : ProbeBehavior)
    (hlimit : behavior = .insert → m.probeLimit ≤ limit) :
    m.startLimit cfg h limit behavior ≤ limit := by
  unfold startLimit
  split
  · rename_i hins
    exact (boundGet_le hcap _).trans (hlimit hins.1)
  · exact le_rfl

theorem probe_within [DecidableEq V] (cfg : Config V) (hcap : m.Capped) (h : BitVec 64) (key : V)
    {limit : Nat} (behavior : ProbeBehavior) (hlimit : behavior = .insert → m.probeLimit ≤ limit)
    (hr : (m.probe cfg h key limit behavior).first ≠ none ∨
      (m.probe cfg h key limit behavior).slot ≠ none) :
    (m.probe cfg h key limit behavior).nProbes ≤ limit :=
  probeLoop_within (Nat.zero_le _) (startLimit_le hcap h behavior hlimit) (fun _ h => by cases h) hr

end Map

/-- The store is to none of the fields that limit a probe, nor to a probe count. -/
def Store.Plain : Store V → Prop
  | .probeMaximum _ | .probeBound _ _ | .probes _ _ | .map _ => False
  | _ => True

namespace State

variable {cfg : Config V} {hs hs' : State V} {slot n left : Nat} {prevs : List (Nat × Nat)}

theorem Makes.plain_keep (h : Makes Store.Plain hs hs') :
    hs'.map.bounds = hs.map.bounds ∧ hs'.map.probes = hs.map.probes := by
  constructor
  all_goals
    refine h.keeps _ fun m s hs => ?_
    cases s <;> first | rfl | exact hs.elim

theorem addWanted_plain (cfg : Config V) (hs : State V) (e : Nat) (old : Option Nat)
    (home : Nat) : Makes Store.Plain hs (hs.addWanted cfg e old home) :=
  (addWanted_makes cfg hs e old home).mono fun s hs => by cases s <;> trivial

theorem markRh_plain (hs : State V) (guard : Option Nat) (value : Bool) :
    Makes Store.Plain hs (hs.markRh guard value) := by
  cases guard with
  | none => exact .refl hs
  | some s => exact .exec (by simp [Store.Plain])

theorem Makes.bounded {vacant : Option Nat} (h : Makes Store.Plain hs hs')
    (hb : hs.map.Bounded cfg vacant) : hs'.map.Bounded cfg vacant :=
  hb.raise (.of_bounds h.plain_keep.1) h.plain_keep.2

/-! ## Robin Hood insertion -/

theorem shiftChain_plain : Makes Store.Plain hs (shiftChain cfg prevs slot hs) := by
  induction prevs generalizing slot hs with
  | nil => exact .exec (by simp [Store.Plain])
  | cons p prevs ih =>
    obtain ⟨prev, k⟩ := p
    rw [shiftChain]
    refine .trans ?_ ih
    refine .trans ?_ (.exec (by simp [Store.Plain, Map.signal]))
    exact .trans (.exec (by simp [Store.Plain])) (addWanted_plain cfg _ _ _ _)

/-- The bound is raised before the last entry of the chain is moved. -/
theorem relocationMove_bounded (slot e : Nat) (prevs : List (Nat × Nat))
    (hb : hs.map.Bounded cfg none) (hn : n ≤ hs.map.probeLimit) :
    Map.Raises hs.map (hs.relocationMove cfg slot e n prevs).map ∧
      (hs.relocationMove cfg slot e n prevs).map.Bounded cfg none := by
  unfold relocationMove
  dsimp only
  generalize hh : firstOffset cfg.line hs.map.capacity e n = home
  generalize h₂ : (hs.exec (hs.map.boundSet cfg home n)).exec [.entry e (hs.map.entries slot),
    (hs.exec (hs.map.boundSet cfg home n)).map.signal home, .probes e n, .inRh slot false] = hs₂
  have hext : Map.Raises hs.map hs₂.map ∧ hs₂.map.Bounded cfg none := by
    refine hb.extend hn (t := e) ?_ ?_
    · rw [← h₂, hh]
      rfl
    · rw [← h₂]
      change Function.update (hs.map.applyAll (hs.map.boundSet cfg home n)).probes e n = _
      rw [Map.probes_boundSet]
  have hplain : Makes Store.Plain hs₂
      (shiftChain cfg prevs slot (hs₂.addWanted cfg e (some slot) home)) :=
    (addWanted_plain cfg hs₂ e (some slot) home).trans shiftChain_plain
  exact ⟨hext.1.trans (.of_bounds hplain.plain_keep.1), hplain.bounded hext.2⟩

/-- A chain that is given up leaves the bounds as they have been raised for it. -/
theorem relocationGrow_raises (cfg : Config V) (hs : State V) (slot : Nat)
    (prevs : List (Nat × Nat)) :
    (hs.relocationGrow cfg slot prevs).1 = .grown ∨
      (hs.relocationGrow cfg slot prevs).1 = .failed ∧
        Map.Raises hs.map (hs.relocationGrow cfg slot prevs).2.map := by
  unfold relocationGrow
  have hgrown := grow_grown cfg hs (hs.map.capacity * 2)
  generalize hs.grow cfg (hs.map.capacity * 2) = r at hgrown ⊢
  cases hgrown with
  | filled => exact .inl rfl
  | failed hs' map =>
    refine .inr ⟨rfl, ?_⟩
    rw [← map]
    refine .of_bounds (Map.applyAll_keeps
      (P := fun s => (∃ t b, s = .inRh t b) ∨ ∃ t k, s = .probes t k) Map.bounds
      (fun m s hs => ?_) (fun s hs => ?_) hs'.map)
    · rcases hs with ⟨t, b, rfl⟩ | ⟨t, k, rfl⟩ <;> rfl
    · rcases List.mem_cons.mp hs with rfl | hs
      · exact .inl ⟨_, _, rfl⟩
      · rcases mem_restoreStores.mp hs with ⟨t, -, rfl⟩ | ⟨t, k, -, rfl⟩
        · exact .inl ⟨_, _, rfl⟩
        · exact .inr ⟨_, _, rfl⟩

/-- What a Robin Hood insertion does to the bounds, unless it replaces the map. -/
def Raised (cfg : Config V) (hs : State V) (res : Relocation × State V) : Prop :=
  res.1 = .grown ∨ Map.Raises hs.map res.2.map ∧ (res.1 = .moved → res.2.map.Bounded cfg none)

theorem Raised.mark {res : Relocation × State V} (slot : Nat)
    (h : Raised cfg (hs.exec [.inRh slot true]) res) : Raised cfg hs res := by
  have hmark : Map.Raises hs.map (hs.exec [.inRh slot true]).map := .of_bounds rfl
  exact h.imp_right fun h => ⟨hmark.trans h.1, h.2⟩

theorem Raised.giveUp (cfg : Config V) (hs : State V) (slot : Nat) (prevs : List (Nat × Nat)) :
    Raised cfg hs (hs.relocationGrow cfg slot prevs) := by
  refine (relocationGrow_raises cfg hs slot prevs).imp_right fun h => ⟨h.2, fun hmoved => ?_⟩
  rw [h.1] at hmoved
  cases hmoved

/-- The bounds grow with every slot that is chosen. -/
theorem putRobinHoodLoop_raised (hb : hs.map.Bounded cfg none) (hn : n ≤ hs.map.probeLimit) :
    Raised cfg hs (putRobinHoodLoop cfg left slot n prevs hs) := by
  induction left generalizing slot n prevs hs with
  | zero =>
    have hb₁ : (hs.exec [.inRh slot true]).map.Bounded cfg none := hb.raise (.of_bounds rfl) rfl
    have hwithin := Map.probeFrom_within cfg (hs.exec [.inRh slot true]).map slot
      .robinHoodNoRelocate (n := n) hn
    rw [putRobinHoodLoop]
    generalize (hs.exec [.inRh slot true]).map.probeFrom cfg slot n .robinHoodNoRelocate = r
      at hwithin ⊢
    obtain ⟨_ | e, first, object, k⟩ := r
    · exact (Raised.giveUp cfg _ slot prevs).mark slot
    · have hmove := relocationMove_bounded slot e prevs hb₁ (hwithin (.inr (Option.some_ne_none e)))
      exact Raised.mark slot (.inr ⟨hmove.1, fun _ => hmove.2⟩)
  | succ left ih =>
    have hb₁ : (hs.exec [.inRh slot true]).map.Bounded cfg none := hb.raise (.of_bounds rfl) rfl
    have hwithin := Map.probeFrom_within cfg (hs.exec [.inRh slot true]).map slot .robinHood
      (n := n) hn
    rw [putRobinHoodLoop]
    generalize (hs.exec [.inRh slot true]).map.probeFrom cfg slot n .robinHood = r at hwithin ⊢
    refine Raised.mark slot ?_
    generalize hs.exec [.inRh slot true] = hs₁ at hb₁ hwithin ⊢
    obtain ⟨e, _ | first, object, k⟩ := r
    · cases e with
      | none => exact .giveUp cfg _ slot prevs
      | some e =>
        have hmove := relocationMove_bounded slot e prevs hb₁
          (hwithin (.inr (Option.some_ne_none e)))
        exact .inr ⟨hmove.1, fun _ => hmove.2⟩
    · -- the probe count of the next slot is the one that the entry is to have there
      dsimp only at hwithin ⊢
      generalize hh : firstOffset cfg.line hs₁.map.capacity first k = home
      have hchoose : Map.Raises hs₁.map
            (hs₁.exec (.probes first k :: hs₁.map.boundSet cfg home k)).map ∧
          (hs₁.exec (.probes first k :: hs₁.map.boundSet cfg home k)).map.Bounded cfg none := by
        refine hb₁.extend (hwithin (.inl (Option.some_ne_none first))) (t := first) ?_ ?_
        · rw [hh, exec_map, Map.applyAll_cons]
          exact (congrArg Map.bounds (Map.applyAll_boundSet cfg _ home k)).trans
            (congrArg Map.bounds (Map.applyAll_boundSet cfg hs₁.map home k)).symm
        · exact Map.probes_boundSet cfg (hs₁.map.apply (.probes first k)) home k
      have hrest := @ih _ first (hs₁.map.probes first) ((slot, hs₁.map.probes first) :: prevs)
        hchoose.2
        ((hb₁.le_limit first).trans (Map.probeLimit_congr hchoose.1.capacity).ge)
      exact hrest.imp_right fun h => ⟨hchoose.1.trans h.1, h.2⟩

/-- A Robin Hood insertion keeps the probe counts within the bounds. -/
theorem putRobinHood_bounded (cfg : Config V) (slot : Nat) (hb : hs.map.Bounded cfg none) :
    (hs.putRobinHood cfg slot).1 = .grown ∨
      Map.Raises hs.map (hs.putRobinHood cfg slot).2.map ∧
        (hs.putRobinHood cfg slot).2.map.Bounded cfg none := by
  have hraised : Raised cfg hs (hs.putRobinHood cfg slot) :=
    putRobinHoodLoop_raised hb (hb.le_limit slot)
  obtain ⟨slot', prevs, hs', hc, -, hend⟩ :=
    putRobinHoodLoop_ended cfg maxRh rfl (Chosen.start hs slot)
  unfold putRobinHood at hraised ⊢
  generalize putRobinHoodLoop cfg maxRh slot _ [] hs = r at hend hraised ⊢
  cases hend with
  | move => exact hraised.imp_right fun h => ⟨h.1, h.2 rfl⟩
  | grow =>
    unfold relocationGrow at hraised ⊢
    have hgrown := grow_grown cfg (hs'.exec [.inRh slot' true])
      ((hs'.exec [.inRh slot' true]).map.capacity * 2)
    generalize (hs'.exec [.inRh slot' true]).grow cfg _ = r at hgrown hraised ⊢
    cases hgrown with
    | filled => exact .inl rfl
    | failed hs₁ map =>
      exact hraised.imp_right fun h => ⟨h.1, hb.raise h.1 (hc.restored map).1.probes⟩

end State

/-! ## Growing -/

/-- A slot leads back to the home slot of its entry. -/
theorem firstOffset_stands {line capacity home n t : Nat} (hl : Lines line capacity)
    (hh : home < capacity) (hpos : 0 < n) (hle : n ≤ capacity)
    (hstand : cursor line capacity home (n - 1) = t) : firstOffset line capacity t n = home := by
  have hword : capacity ≤ 2 ^ 64 := Nat.le_of_dvd (Nat.two_pow_pos 64) hl.word
  have hback := firstOffset_cursor (n := n - 1) hl hh (by omega)
  rwa [hstand, Nat.sub_add_cancel hpos] at hback

namespace Map

/-- A new map while it is filled: its bounds admit its entries. -/
structure Filed (cfg : Config V) (m : Map V) : Prop where
  below : ∀ t, m.probes t ≤ m.probeMaximum
  capped : m.Capped
  admits : cfg.readMostly = false → ∀ t w, m.entries t = some w →
    m.Admits (m.home (cfg.hf w.obj)) (m.probes t)

variable {cfg : Config V} {m u u' : Map V} {w : Word V} {n t offset probes fuel : Nat}

theorem Filed.congr (h : u.Filed cfg) (hb : u'.bounds = u.bounds) (hp : u'.probes = u.probes)
    (he : u'.entries = u.entries) : u'.Filed cfg := by
  have hr := Raises.of_bounds hb
  refine ⟨fun t => ?_, hr.capped h.capped, fun hrm t w hw => ?_⟩
  · rw [hp]
    exact (h.below t).trans hr.maximum
  · rw [he] at hw
    rw [hp, home, hr.capacity]
    exact (h.admits hrm t w hw).raise hr h.capped

/-- The bound is raised for an entry that is stored. -/
theorem Filed.file (h : u.Filed cfg) (hn : n ≤ u.probeLimit) (t : Nat) (w : Word V) :
    (u.file cfg (u.home (cfg.hf w.obj)) t n w).Filed cfg := by
  have hr := raises_boundSet cfg h.capped hn (u.home (cfg.hf w.obj))
  have hadmits := fun hrm => admits_boundSet cfg u (u.home (cfg.hf w.obj)) n hrm h.capped
  have hmax := le_maximum_boundSet cfg u (u.home (cfg.hf w.obj)) n
  have hb : (u.file cfg (u.home (cfg.hf w.obj)) t n w).bounds =
      (u.applyAll (u.boundSet cfg (u.home (cfg.hf w.obj)) n)).bounds := by
    rw [applyAll_boundSet]
    rfl
  have hraise := Raises.of_bounds hb
  have hcap := hraise.capped (hr.capped h.capped)
  refine ⟨fun s => ?_, hcap, fun hrm s x hx => ?_⟩
  · change Function.update u.probes t n s ≤ _
    by_cases hst : s = t
    · rw [hst, Function.update_self]
      exact hmax.trans hraise.maximum
    · rw [Function.update_of_ne hst]
      exact (h.below s).trans (hr.maximum.trans hraise.maximum)
  · change Function.update u.entries t (some w) s = some x at hx
    change Admits _ (u.home (cfg.hf x.obj)) (Function.update u.probes t n s)
    by_cases hst : s = t
    · rw [hst, Function.update_self] at hx ⊢
      cases hx
      exact (hadmits hrm).raise hraise (hr.capped h.capped)
    · rw [Function.update_of_ne hst] at hx ⊢
      exact (h.admits hrm s x hx).raise (hr.trans hraise) h.capped

theorem growInsert_filed (hu : u.Filed cfg) (hle : probes ≤ u.probeLimit)
    (hg : u.growInsert cfg fuel w (cfg.hf w.obj) offset probes = some u') : u'.Filed cfg := by
  induction fuel generalizing w offset probes u with
  | zero => cases hg
  | succ fuel ih =>
    rw [growInsert_succ] at hg
    split at hg
    · cases hg
    rename_i hne
    have hfile := hu.file (n := probes + 1) (by omega) offset w
    split at hg
    · cases hg
      exact hfile.congr rfl rfl rfl
    · split at hg
      · refine ih hfile ?_ hg
        have hbelow := (hu.below offset).trans hu.capped.maximum
        change u.probes offset - 1 ≤ u.probeLimit
        omega
      · have hpass : (u.passBy offset).Filed cfg := hu.congr rfl rfl rfl
        refine ih hpass ?_ hg
        change probes + 1 ≤ u.probeLimit
        omega

theorem Filed.create (cfg : Config V) (loadFactor entries : Nat) :
    (Map.create loadFactor entries : Map V).Filed cfg where
  below _ := le_rfl
  capped := ⟨Nat.zero_le _, fun _ => Nat.zero_le _, fun _ => Nat.zero_le _⟩
  admits _ _ _ hw := by cases hw

theorem fill_filed {ks : List Nat} (hu : u.Filed cfg) (hf : m.fill cfg u ks = some u') :
    u'.Filed cfg := by
  induction ks generalizing u with
  | nil =>
    cases hf
    exact hu
  | cons k ks ih =>
    rw [fill_cons] at hf
    obtain ⟨u₁, hk, hf⟩ := Option.bind_eq_some_iff.mp hf
    refine ih ?_ hf
    unfold growCopy at hk
    split at hk
    · cases hk
      exact hu
    · exact growInsert_filed hu (Nat.zero_le _) hk

/-- The bounds of a map that has been filled. -/
theorem Filed.bounded (h : u.Filed cfg) (hb : u.Built cfg none) : u.Bounded cfg none := by
  refine ⟨h.below, h.capped, fun hrm t _ hpos => ?_⟩
  cases hw : u.entries t with
  | none => exact absurd (hb.empty t hw) hpos.ne'
  | some w =>
    obtain ⟨hh, -, hle, hstand⟩ := hb.placed.stands t _ (place_of_entry hw)
    rw [firstOffset_stands hb.lines hh hpos hle hstand]
    exact h.admits hrm t w hw

end Map

namespace State

variable {cfg : Config V} {hs : State V}

theorem Grown.bounded {r : Bool × State V} (h : Grown cfg hs r)
    (hb : r.1 = false → hs.map.Bounded cfg none) : r.2.map.Bounded cfg none := by
  cases h with
  | failed hs' map =>
    rw [map]
    exact hb rfl
  | filled capacity m hs' fill map =>
    rw [map]
    exact (Map.fill_filed (.create cfg _ _) fill).bounded (Map.fill_built (.create cfg _ _) fill)

/-- `ck_rhs_gc` lowers the probe maximum to the largest probe count. -/
theorem gc_bounded (hv : hs.map.Valid cfg) (hb : hs.map.Bounded cfg none) :
    hs.gc.map.Bounded cfg none := by
  have hle : hs.map.maxProbes ≤ hs.map.probeMaximum := by
    have hfold : ∀ (ts : List Nat) (n : Nat), n ≤ hs.map.probeMaximum →
        ts.foldl (fun n i => max n (hs.map.probes i)) n ≤ hs.map.probeMaximum := by
      intro ts
      induction ts with
      | nil => exact fun n hn => hn
      | cons i ts ih => exact fun n hn => ih _ (max_le hn (hb.below i))
    exact hfold _ 0 (Nat.zero_le _)
  exact ⟨(gc_valid hv).bound, ⟨hle.trans hb.capped.maximum, hb.capped.byte, hb.capped.bound⟩,
    hb.admits⟩

theorem reset_bounded (hb : hs.map.Bounded cfg none) : (hs.reset cfg).2.map.Bounded cfg none := by
  unfold reset create
  by_cases hmalloc : cfg.malloc hs.allocs = true
  · simp only [hmalloc, if_true]
    exact (Map.Filed.create cfg _ _).bounded (.create cfg _ _)
  · simp only [hmalloc, Bool.false_eq_true, if_false]
    exact hb

end State

end ConcurrencyKit.Rhs
