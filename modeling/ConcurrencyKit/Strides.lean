import ConcurrencyKit.Growth

/-!
# The shifts of the probe sequences

`ck_hs_map_probe_next` and `ck_ht_map_probe_next` shift the hash value to the right by `map->step`
and then by a level, which counts the cache lines that have been probed. C leaves a shift by the
width of the word or more undefined. The levels of `ck_hs` stay below 64 in the maps of up to
`2 ^ 14` slots and in no other ones; in every map of `ck_ht` there are contents with which a probe
gets to level 64.
-/

namespace ConcurrencyKit.Hs

variable {V : Type} [DecidableEq V]

/-! ## The shifts of `ck_hs` -/

/-- The counts of the two right shifts of `ck_hs_map_probe_next` (`ck_hs.c:323`). -/
def shifts (capacity level : Nat) : List Nat := [ckCcFfsl capacity, level]

/-- The level with which `ck_hs_map_probe_next` is called after the slot of probe number `probes`
has been read, if that is the last one of its cache line. -/
def levelAfter (probes : Nat) : List Nat :=
  if (probes + 1) % probeL1 = 0 then [probes / probeL1] else []

namespace Map

/-- The levels with which the loop of `ck_hs_map_probe` (`ck_hs.c:504-569`) calls
`ck_hs_map_probe_next`. The branches are those of `probeLoop`. -/
def probeLevels (cfg : Config V) (m : Map V) (h : BitVec 64) (key : V) (opl : Nat)
    (behavior : ProbeBehavior) : Nat → Nat → Nat → Bool → Option (Nat × Nat) → List Nat
  | 0, _, _, _, _ => []
  | fuel + 1, probes, limit, pastBound, pr =>
    if probes = limit ∧ (limit = opl ∨ pr.isSome) then []
    else
      let pastBound := pastBound || decide (probes = limit)
      let limit := if probes = limit then opl else limit
      let cursor := cfg.cursor m.capacity h probes
      match m.entries cursor with
      | .empty => []
      | .tombstone =>
        match pr with
        | some _ =>
          levelAfter probes ++
            probeLevels cfg m h key opl behavior fuel (probes + 1) limit pastBound pr
        | none =>
          if behavior = .tombstone ∨ pastBound then []
          else
            levelAfter probes ++
              probeLevels cfg m h key opl behavior fuel (probes + 1) limit pastBound
                (some (cursor, probes + 1))
      | .entry tag val =>
        if cfg.hit h key (.entry tag val) then []
        else
          levelAfter probes ++
            probeLevels cfg m h key opl behavior fuel (probes + 1) limit pastBound pr

/-- The shift counts of a call of `ck_hs_map_probe`. -/
def probeShifts (cfg : Config V) (m : Map V) (h : BitVec 64) (key : V) (probeLimit : Nat)
    (behavior : ProbeBehavior) : List Nat :=
  let limit := if behavior = .insert then m.boundGet h else probeLimit
  (probeLevels cfg m h key probeLimit behavior (probeLimit + limit + 1) 0 limit false none).flatMap
    (shifts m.capacity)

/-- The levels of the search of `ck_hs_grow` for an empty slot (`ck_hs.c:408-430`). -/
def growPlaceLevels (cfg : Config V) (h : BitVec 64) : Nat → Map V → List Nat
  | 0, _ => []
  | remaining + 1, update =>
    let probes := update.probeLimit - (remaining + 1)
    if update.entries (cfg.cursor update.capacity h probes) = .empty then []
    else levelAfter probes ++ growPlaceLevels cfg h remaining update

/-- The levels of the copy loop of `ck_hs_grow` over the given slots (`ck_hs.c:392-440`). -/
def growLevels (cfg : Config V) (m : Map V) : List Nat → Map V → List Nat
  | [], _ => []
  | k :: ks, update =>
    (match m.entries k with
      | .entry _ val => growPlaceLevels cfg (cfg.hf val) update.probeLimit update
      | _ => []) ++
    match m.growCopy cfg update k with
    | none => []
    | some update => growLevels cfg m ks update

/-- The shift counts of `ck_hs_grow` with a new map for `requested` entries. -/
def growShifts (cfg : Config V) (m : Map V) (requested : Nat) : List Nat :=
  (growLevels cfg m (List.range m.capacity) (create cfg requested)).flatMap
    (shifts (mapSlots requested))

variable {cfg : Config V} {m u : Map V}

theorem levelAfter_le {probes level limit : Nat} (h : level ∈ levelAfter probes)
    (hlt : probes < limit) : 8 * (level + 1) ≤ limit := by
  unfold levelAfter at h
  split at h
  · rename_i hlast
    rw [List.mem_singleton.mp h]
    simp only [probeL1] at hlast ⊢
    omega
  · cases h

/-- A probe does not go past its limit. -/
theorem probeLevels_le {h : BitVec 64} {key : V} {opl : Nat} {behavior : ProbeBehavior}
    {fuel probes limit level : Nat} {pastBound : Bool} {pr : Option (Nat × Nat)}
    (hprobes : probes ≤ limit) (hlimit : limit ≤ opl)
    (hlevel : level ∈ probeLevels cfg m h key opl behavior fuel probes limit pastBound pr) :
    8 * (level + 1) ≤ opl := by
  induction fuel generalizing probes limit pastBound pr with
  | zero => cases hlevel
  | succ fuel ih =>
    rw [probeLevels] at hlevel
    split at hlevel
    · cases hlevel
    · rename_i hgo
      have hlt : probes < if probes = limit then opl else limit := by
        split
        · rename_i hp
          have hne : limit ≠ opl := fun ho => hgo ⟨hp, .inl ho⟩
          omega
        · omega
      have hle : (if probes = limit then opl else limit) ≤ opl := by split <;> omega
      have hnext : ∀ pastBound pr, level ∈ levelAfter probes ++
          probeLevels cfg m h key opl behavior fuel (probes + 1)
            (if probes = limit then opl else limit) pastBound pr → 8 * (level + 1) ≤ opl := by
        intro pastBound pr hmem
        rcases List.mem_append.mp hmem with hlast | hrest
        · exact levelAfter_le hlast (hlt.trans_le hle)
        · exact ih hlt hle hrest
      dsimp only at hlevel
      split at hlevel
      · cases hlevel
      · split at hlevel
        · exact hnext _ _ hlevel
        · split at hlevel
          · cases hlevel
          · exact hnext _ _ hlevel
      · split at hlevel
        · cases hlevel
        · exact hnext _ _ hlevel

theorem growPlaceLevels_le {h : BitVec 64} {remaining level : Nat}
    (hrem : remaining ≤ u.probeLimit) (hlevel : level ∈ growPlaceLevels cfg h remaining u) :
    8 * (level + 1) ≤ u.probeLimit := by
  induction remaining with
  | zero => cases hlevel
  | succ remaining ih =>
    rw [growPlaceLevels] at hlevel
    split at hlevel
    · cases hlevel
    · rcases List.mem_append.mp hlevel with hlast | hrest
      · exact levelAfter_le hlast (by omega)
      · exact ih (Nat.le_of_succ_le hrem) hrest

theorem growLevels_le {ks : List Nat} {level : Nat} (hpos : 0 < u.capacity)
    (h8 : 8 ∣ u.capacity) (hlevel : level ∈ growLevels cfg m ks u) :
    8 * (level + 1) ≤ u.probeLimit := by
  induction ks generalizing u with
  | nil => cases hlevel
  | cons k ks ih =>
    rw [growLevels] at hlevel
    rcases List.mem_append.mp hlevel with hfirst | hrest
    · split at hfirst
      · exact growPlaceLevels_le le_rfl hfirst
      · cases hfirst
    · cases hcopy : m.growCopy cfg u k with
      | none =>
        rw [hcopy] at hrest
        cases hrest
      | some u' =>
        rw [hcopy] at hrest
        have hcap := (growCopy_stored hpos h8 hcopy).1
        have hle := ih (hcap ▸ hpos) (hcap ▸ h8) hrest
        unfold probeLimit at hle ⊢
        rwa [hcap] at hle

/-- The step, and the levels that `limit` probes get to, are smaller than the word. -/
theorem shifts_lt {k limit : Nat} (hk : k < 63) (hlimit : limit ≤ 512) {levels : List Nat}
    (hlevels : ∀ level ∈ levels, 8 * (level + 1) ≤ limit) :
    ∀ s ∈ levels.flatMap (shifts (2 ^ k)), s < 64 := by
  intro s hs
  obtain ⟨level, hlevel, hmem⟩ := List.mem_flatMap.mp hs
  have hle := hlevels level hlevel
  rcases List.mem_cons.mp hmem with rfl | hmem
  · rw [ckCcFfsl_pow k (by omega)]
    omega
  · rw [List.mem_singleton.mp hmem]
    omega

end Map

/-- The sets that proper calls reach from `ck_hs_init`. -/
inductive Reached (cfg : Config V) : State V → Prop
  | init {entries : Nat} {hs : State V} (h : init cfg entries = some hs) : Reached cfg hs
  | call {hs hs' : State V} {op : Op V} {r : Result V} (before : Reached cfg hs)
      (proper : op.Proper cfg hs.map) (h : step cfg hs op = .ok (r, hs')) : Reached cfg hs'

theorem Reached.ok {cfg : Config V} (hl : cfg.Lawful) {hs : State V} (h : Reached cfg hs) :
    hs.Ok cfg := by
  induction h with
  | init h => exact init_ok h
  | call before proper h ih =>
    obtain ⟨S, rep⟩ := Represents.exists hl ih.valid
    rcases step_cases ih rep proper with ⟨r, hs₁, hstep, hst⟩ | ⟨hs₁, hstep, -⟩
    · rw [h] at hstep
      cases hstep
      exact ih.of_evolves hl hst.evolves hst.accounts
    · rw [h] at hstep
      cases hstep

/-- No probe of a map of `capacity` slots, whether it is published or being filled by
`ck_hs_grow`, shifts by 64 or more. -/
structure ShiftsDefined (cfg : Config V) (capacity : Nat) : Prop where
  probe : ∀ hs, Reached cfg hs → hs.map.capacity = capacity → ∀ h key behavior limit,
    limit = hs.map.probeLimit ∨ limit = hs.map.boundGet h →
    ∀ s ∈ hs.map.probeShifts cfg h key limit behavior, s < 64
  grow : ∀ hs, Reached cfg hs → ∀ requested, mapSlots requested = capacity →
    ∀ s ∈ hs.map.growShifts cfg requested, s < 64

omit [DecidableEq V] in
theorem probeLimit_le {m : Map V} {k : Nat} (hcap : m.capacity = 2 ^ k) (hk : k ≤ 14) :
    m.probeLimit ≤ 512 := by
  have hpow : 2 ^ k ≤ 2 ^ 14 := Nat.pow_le_pow_right (by decide) hk
  unfold Map.probeLimit
  rw [hcap, Nat.shiftRight_eq_div_pow]
  omega

theorem shiftsDefined {cfg : Config V} (hl : cfg.Lawful) {k : Nat} (h3 : 3 ≤ k) (hk : k ≤ 14) :
    ShiftsDefined cfg (2 ^ k) where
  probe := by
    intro hs hreached hcap h key behavior limit hlimit
    have hv := (hreached.ok hl).valid
    have hbound := hv.boundGet_le h
    have hle : limit ≤ hs.map.probeLimit := by
      rcases hlimit with rfl | rfl
      · exact le_rfl
      · exact hbound
    have hstart : (if behavior = .insert then hs.map.boundGet h else limit) ≤ limit := by
      split
      · rcases hlimit with rfl | rfl
        · exact hbound
        · exact le_rfl
      · exact le_rfl
    unfold Map.probeShifts
    rw [hcap]
    exact Map.shifts_lt (by omega) (hle.trans (probeLimit_le hcap hk))
      fun level hlevel => Map.probeLevels_le (Nat.zero_le _) hstart hlevel
  grow := by
    intro hs hreached requested hcap
    have hfresh : (Map.create cfg requested).capacity = 2 ^ k := hcap
    unfold Map.growShifts
    rw [hcap]
    refine Map.shifts_lt (by omega) (probeLimit_le hfresh hk) fun level hlevel => ?_
    refine Map.growLevels_le ?_ ?_ hlevel
    · rw [hfresh]
      exact Nat.two_pow_pos k
    · rw [hfresh]
      exact Nat.pow_dvd_pow 2 h3

/-! ### Keys that collide -/

namespace Map

variable {cfg : Config V} {m : Map V}

/-- The first `n` probes meet entries of other keys. -/
def Others (cfg : Config V) (m : Map V) (h : BitVec 64) (key : V) (n : Nat) : Prop :=
  ∀ j < n, ∃ t v, m.entries (cfg.cursor m.capacity h j) = .entry t v ∧
    cfg.hit h key (.entry t v) = false

/-- A probe that passes a whole cache line asks for the next one. -/
theorem level_mem {h : BitVec 64} {key : V} {opl n fuel probes i : Nat} (hn : n ≤ opl)
    (hothers : m.Others cfg h key n) (hfuel : n ≤ probes + fuel) (hi : 8 * (i + 1) ≤ n)
    (hfrom : probes < 8 * (i + 1)) :
    i ∈ probeLevels cfg m h key opl .tombstone fuel probes opl false none := by
  induction fuel generalizing probes with
  | zero => omega
  | succ fuel ih =>
    obtain ⟨t, v, hword, hmiss⟩ := hothers probes (by omega)
    have hgo : probes ≠ opl := by omega
    have hstep : probeLevels cfg m h key opl .tombstone (fuel + 1) probes opl false none =
        levelAfter probes ++
          probeLevels cfg m h key opl .tombstone fuel (probes + 1) opl false none := by
      simp only [probeLevels, hgo, false_and, if_false, decide_false, Bool.or_false, hword, hmiss,
        Bool.false_eq_true]
    rw [hstep]
    refine List.mem_append.mpr ?_
    by_cases hlast : probes + 1 = 8 * (i + 1)
    · left
      have hmod : (probes + 1) % probeL1 = 0 := by rw [hlast]; exact Nat.mul_mod_right _ _
      have hdiv : i = probes / probeL1 := by simp only [probeL1]; omega
      rw [levelAfter, if_pos hmod]
      exact List.mem_singleton.mpr hdiv
    · exact .inr (ih (by omega) (by omega))

/-- A probe for an absent key that comes to an empty slot after other keys ends there. -/
theorem probeLoop_empty {h : BitVec 64} {key : V} {opl n fuel probes : Nat} (hn : n < opl)
    (hothers : m.Others cfg h key n)
    (hempty : m.entries (cfg.cursor m.capacity h n) = .empty) (hfuel : n < probes + fuel)
    (hfrom : probes ≤ n) :
    probeLoop cfg m h key opl .tombstone fuel probes opl false none =
      ⟨some (cfg.cursor m.capacity h n), none, none, n + 1⟩ := by
  induction fuel generalizing probes with
  | zero => omega
  | succ fuel ih =>
    have hgo : probes ≠ opl := by omega
    rcases Nat.eq_or_lt_of_le hfrom with rfl | hlt
    · have hleave : ¬opl < probes + 1 := by omega
      simp only [probeLoop, hgo, false_and, if_false, hempty, probeLeave, hleave, Option.map_none,
        Option.getD_none]
    · obtain ⟨t, v, hword, hmiss⟩ := hothers probes hlt
      have hstep : probeLoop cfg m h key opl .tombstone (fuel + 1) probes opl false none =
          probeLoop cfg m h key opl .tombstone fuel (probes + 1) opl false none := by
        simp only [probeLoop, hgo, false_and, if_false, decide_false, Bool.or_false, hword, hmiss,
          Bool.false_eq_true]
      rw [hstep]
      exact ih (by omega) hlt

end Map

/-- A set of numbers that all hash to zero. -/
def colliding : Config Nat where
  hf _ := 0
  compare := none
  modeDelete := false
  vmaBits := none
  malloc _ := true
  wideShift _ _ := 0
  restarts := 1

theorem colliding_lawful : colliding.Lawful := ⟨nofun, nofun⟩

/-- The map after the numbers below `n` have been stored in slots of the first 520 probes. -/
structure Collided (m : Map Nat) (k n : Nat) : Prop where
  capacity : m.capacity = 2 ^ k
  nEntries : m.nEntries = n
  words : ∀ s, m.entries s = .empty ∨ ∃ v < n, m.entries s = .entry 0 v
  inside : ∀ s, m.entries s ≠ .empty → ∃ j < 520, colliding.cursor m.capacity 0 j = s
  live : tally Slot.isLive m.entries m.capacity = n

section Collided

variable {m : Map Nat} {k n : Nat}

theorem Collided.others (hm : Collided m k n) {j : Nat}
    (hfull : ∀ i < j, m.entries (colliding.cursor m.capacity 0 i) ≠ .empty) :
    m.Others colliding 0 n j := by
  intro i hi
  rcases hm.words (colliding.cursor m.capacity 0 i) with hempty | ⟨v, hv, hword⟩
  · exact absurd hempty (hfull i hi)
  · refine ⟨0, v, hword, ?_⟩
    have hne : (v == n) = false := beq_false_of_ne hv.ne
    simp only [Config.hit, Callbacks.keyMatch, hne, colliding, Bool.or_false, Bool.and_false]

theorem Collided.absent (hm : Collided m k n) : m.Absent colliding n := by
  intro s t u hs
  rcases hm.words s with hempty | ⟨v, hv, hword⟩
  · rw [hs] at hempty
    cases hempty
  · rw [hs] at hword
    cases hword
    have hne : (u == n) = false := beq_false_of_ne hv.ne
    simp only [Callbacks.keyMatch, hne, colliding, Bool.or_false]

/-- The numbers do not outgrow the slots of the first 520 probes. -/
theorem Collided.le (hm : Collided m k n) : n ≤ 520 := by
  have hsub : (Finset.range m.capacity).filter (fun s => (m.entries s).isLive = true) ⊆
      (Finset.range 520).image (colliding.cursor m.capacity 0) := by
    intro s hs
    have hlive := (Finset.mem_filter.mp hs).2
    obtain ⟨j, hj, hcursor⟩ := hm.inside s fun hempty => by
      rw [hempty] at hlive
      cases hlive
    exact Finset.mem_image.mpr ⟨j, Finset.mem_range.mpr hj, hcursor⟩
  calc n = tally Slot.isLive m.entries m.capacity := hm.live.symm
    _ ≤ ((Finset.range 520).image (colliding.cursor m.capacity 0)).card := Finset.card_le_card hsub
    _ ≤ (Finset.range 520).card := Finset.card_image_le
    _ = 520 := Finset.card_range 520

theorem lt_probeLimit (hcap : m.capacity = 2 ^ k) (h15 : 15 ≤ k) : 520 < m.probeLimit := by
  have hpow : 2 ^ 15 ≤ 2 ^ k := Nat.pow_le_pow_right (by decide) h15
  unfold Map.probeLimit
  rw [hcap, Nat.shiftRight_eq_div_pow]
  omega

/-- The map with one more number, in an empty slot of the first 520 probes. -/
theorem Collided.store (hm : Collided m k n) {m' : Map Nat} {j : Nat} (hj : j < 520)
    (hpos : 3 ≤ k) (hempty : m.entries (colliding.cursor m.capacity 0 j) = .empty)
    (hcap : m'.capacity = m.capacity) (hcount : m'.nEntries = n + 1)
    (hentries : m'.entries =
      Function.update m.entries (colliding.cursor m.capacity 0 j) (.entry 0 n)) :
    Collided m' k (n + 1) where
  capacity := hcap.trans hm.capacity
  nEntries := hcount
  words := by
    intro s
    rw [hentries]
    by_cases hs : s = colliding.cursor m.capacity 0 j
    · subst hs
      rw [Function.update_self]
      exact .inr ⟨n, Nat.lt_succ_self n, rfl⟩
    · rw [Function.update_of_ne hs]
      rcases hm.words s with hs | ⟨v, hv, hs⟩
      · exact .inl hs
      · exact .inr ⟨v, Nat.lt_succ_of_lt hv, hs⟩
  inside := by
    intro s hs
    rw [hcap]
    by_cases hs' : s = colliding.cursor m.capacity 0 j
    · exact ⟨j, hj, hs'.symm⟩
    · rw [hentries, Function.update_of_ne hs'] at hs
      exact hm.inside s hs
  live := by
    have hlt : colliding.cursor m.capacity 0 j < m.capacity := by
      rw [hm.capacity]
      exact cursor_lt colliding (Nat.two_pow_pos k) (Nat.pow_dvd_pow 2 hpos) 0 j
    have hupdate := tally_update Slot.isLive m.entries hlt (.entry 0 n)
    rw [hempty, hm.live] at hupdate
    rw [hcap, hentries]
    exact hupdate

/-- One more number is stored, unless the first 520 probes find no empty slot. -/
theorem Collided.step {hs : State Nat} (hm : Collided hs.map k n) (h15 : 15 ≤ k) {j : Nat}
    (hj : j < 520) (hothers : hs.map.Others colliding 0 n j)
    (hempty : hs.map.entries (colliding.cursor hs.map.capacity 0 j) = .empty) :
    ∃ r hs', step colliding hs (.putUnique n) = .ok (r, hs') ∧ Collided hs'.map k (n + 1) := by
  have hlimit := lt_probeLimit hm.capacity h15
  have hprobe : hs.map.probe colliding 0 n hs.map.probeLimit .tombstone =
      ⟨some (colliding.cursor hs.map.capacity 0 j), none, none, j + 1⟩ :=
    Map.probeLoop_empty (by omega) hothers hempty (by omega) (Nat.zero_le j)
  -- the count stays below the load factor
  have hload : ¬2 ^ k < (n + 1) * 2 := by
    have hpow : 2 ^ 15 ≤ 2 ^ k := Nat.pow_le_pow_right (by decide) h15
    have hle := hm.le
    omega
  have hword : colliding.marshal n 0 = .entry 0 n := rfl
  have hput : hs.putUnique colliding 0 n = .ok (true,
      (hs.exec (hs.map.install 0 ⟨some (colliding.cursor hs.map.capacity 0 j), none, none, j + 1⟩
        (.entry 0 n))).postinsert colliding) := by
    have hfind : hs.findSlot colliding 0 n .tombstone 1 =
        .ok (some ⟨some (colliding.cursor hs.map.capacity 0 j), none, none, j + 1⟩, hs) := by
      rw [State.findSlot, hprobe]
      rfl
    unfold State.putUnique State.putInternal
    rw [show colliding.restarts = 1 from rfl, hfind]
    rfl
  have hstored : (hs.exec (hs.map.install 0
      ⟨some (colliding.cursor hs.map.capacity 0 j), none, none, j + 1⟩ (.entry 0 n))).map =
      (hs.map.applyAll (hs.map.boundSet 0 (j + 1))).apply
        (.entry (colliding.cursor hs.map.capacity 0 j) (.entry 0 n)) := by
    unfold State.exec Map.install
    rw [applyAll_append]
    rfl
  rw [Map.applyAll_boundSet] at hstored
  generalize hs.exec (hs.map.install 0
      ⟨some (colliding.cursor hs.map.capacity 0 j), none, none, j + 1⟩ (.entry 0 n)) = hs₁
    at hput hstored
  have hcap : hs₁.map.capacity = hs.map.capacity := by rw [hstored]; rfl
  have hcount : hs₁.map.nEntries = n := by rw [hstored]; exact hm.nEntries
  have hpost : hs₁.postinsert colliding = hs₁.exec [.nEntries (n + 1)] := by
    unfold State.postinsert
    rw [hcount]
    refine if_neg ?_
    show ¬hs₁.map.capacity < (n + 1) * 2
    rwa [hcap, hm.capacity]
  refine ⟨⟨true, none⟩, hs₁.exec [.nEntries (n + 1)], ?_, ?_⟩
  · rw [Hs.step, show colliding.hf n = 0 from rfl, hput, hpost]
    rfl
  · refine hm.store hj (by omega) hempty hcap rfl ?_
    show hs₁.map.entries = _
    rw [hstored]
    rfl

/-- A map in which the first 520 probes for a number meet other numbers. -/
theorem colliding_full (h15 : 15 ≤ k) (h31 : k ≤ 31) :
    ∃ hs key, Reached colliding hs ∧ hs.map.capacity = 2 ^ k ∧
      hs.map.Others colliding 0 key 520 := by
  suffices hstored : ∀ n, (∃ hs key, Reached colliding hs ∧ hs.map.capacity = 2 ^ k ∧
      hs.map.Others colliding 0 key 520) ∨ ∃ hs, Reached colliding hs ∧ Collided hs.map k n by
    rcases hstored 521 with hfull | ⟨hs, -, hm⟩
    · exact hfull
    · exact absurd hm.le (by decide)
  intro n
  induction n with
  | zero =>
    obtain ⟨hs, hinit⟩ : ∃ hs, init colliding (2 ^ k) = some hs := ⟨_, rfl⟩
    refine .inr ⟨hs, .init hinit, ?_⟩
    have hleast : 2 ^ 3 ≤ 2 ^ k := Nat.pow_le_pow_right (by decide) (by omega)
    have hcap : mapSlots (2 ^ k) = 2 ^ k := slotsFor_eq h31 hleast le_rfl (by omega)
    cases hinit
    exact ⟨hcap, rfl, fun _ => .inl rfl, fun _ hs => absurd rfl hs, tally_eq_zero fun _ _ => rfl⟩
  | succ n ih =>
    rcases ih with hfull | ⟨hs, hreached, hm⟩
    · exact .inl hfull
    · by_cases hfull : ∀ i < 520, hs.map.entries (colliding.cursor hs.map.capacity 0 i) ≠ .empty
      · exact .inl ⟨hs, n, hreached, hm.capacity, hm.others hfull⟩
      · -- the first empty slot takes the number
        push Not at hfull
        classical
        obtain ⟨hj, hempty⟩ := Nat.find_spec hfull
        have hothers := hm.others fun i hi hi' =>
          Nat.find_min hfull hi ⟨hi.trans hj, hi'⟩
        obtain ⟨r, hs', hstep, hm'⟩ := hm.step h15 hj hothers hempty
        have hproper : Op.Proper colliding hs.map (.putUnique n) := hm.absent
        exact .inr ⟨hs', .call hreached hproper hstep, hm'⟩

theorem colliding_undefined (h15 : 15 ≤ k) (h31 : k ≤ 31) : ¬ShiftsDefined colliding (2 ^ k) := by
  intro hdefined
  obtain ⟨hs, key, hreached, hcap, hothers⟩ := colliding_full h15 h31
  have hlimit := lt_probeLimit hcap h15
  have hlevel : 64 ∈ Map.probeLevels colliding hs.map 0 key hs.map.probeLimit .tombstone
      (hs.map.probeLimit + hs.map.probeLimit + 1) 0 hs.map.probeLimit false none :=
    Map.level_mem hlimit.le hothers (by omega) (by decide) (by decide)
  have hlt := hdefined.probe hs hreached hcap 0 key .tombstone hs.map.probeLimit (.inl rfl) 64
    (List.mem_flatMap.mpr ⟨64, hlevel, List.mem_cons_of_mem _ (List.mem_singleton.mpr rfl)⟩)
  exact absurd hlt (by decide)

end Collided

/-- The shifts are defined for all callbacks exactly in the maps of up to `2 ^ 14` slots. -/
theorem shiftsDefined_iff (entries : Nat) :
    (∀ (V : Type) [DecidableEq V] (cfg : Config V), cfg.Lawful →
      ShiftsDefined cfg (mapSlots entries)) ↔ mapSlots entries ≤ 2 ^ 14 := by
  obtain ⟨k, h3, hk⟩ := mapSlots_pow entries
  have hle := mapSlots_le entries
  rw [hk] at hle ⊢
  have h31 : k ≤ 31 := (Nat.pow_le_pow_iff_right (by decide)).mp hle
  rw [Nat.pow_le_pow_iff_right (by decide)]
  constructor
  · intro hdefined
    by_contra hlarge
    exact colliding_undefined (by omega) h31 (hdefined Nat colliding colliding_lawful)
  · intro h14 V _ cfg hl
    exact shiftsDefined hl h3 h14

end ConcurrencyKit.Hs

namespace ConcurrencyKit.Ht

/-! ## The shifts of `ck_ht` -/

/-- The counts of the two right shifts of `ck_ht_map_probe_next` (`ck_ht.c:240-242`). -/
def shifts (cfg : Config) (capacity probes : Nat) : List Nat :=
  [ckCcFfsl capacity, probes >>> cfg.bucketShift]

/-- The probe count that `ck_ht_map_probe_next` is called with after the slot of probe number
`probes` has been read, if that is the last one of its bucket. -/
def callAfter (cfg : Config) (probes : Nat) : List Nat :=
  if (probes + 1) % cfg.bucketLength = 0 then [probes + 1] else []

namespace Map

/-- The probe counts that the loops of `ck_ht_map_probe_wr` (`ck_ht.c:299-361`) call
`ck_ht_map_probe_next` with. The branches are those of `probeWrLoop`. -/
def probeWrCalls (cfg : Config) (m : Map) (h key : Word) (keyLength : BitVec 16) (limit : Nat) :
    Nat → Nat → List Nat
  | 0, _ => []
  | remaining + 1, probes =>
    if limit < probes then
      -- what is left of the outer loop reads nothing
      (List.range (m.probeLimit cfg - probes / cfg.bucketLength)).map (probes + 1 + ·)
    else
      let entry := m.entries (cfg.cursor m.capacity h probes)
      if entry.key = keyTombstone then
        callAfter cfg probes ++ probeWrCalls cfg m h key keyLength limit remaining (probes + 1)
      else if entry.key = keyEmpty ∨ cfg.keyMatch h key keyLength entry then []
      else callAfter cfg probes ++ probeWrCalls cfg m h key keyLength limit remaining (probes + 1)

/-- The shift counts of a call of `ck_ht_map_probe_wr`. -/
def probeWrShifts (cfg : Config) (m : Map) (h : Word) (x : Entry) (limit : Nat) : List Nat :=
  (m.probeWrCalls cfg h (cfg.keyArg x) (cfg.lengthArg x) limit (m.probeSlots cfg) 0).flatMap
    (shifts cfg m.capacity)

/-- The probe counts that the loops of `ck_ht_map_probe_rd` (`ck_ht.c:514-591`) call
`ck_ht_map_probe_next` with. The branches are those of `probeRdLoop`. -/
def probeRdCalls (cfg : Config) (m : Map) (h key : Word) (keyLength : BitVec 16) (limit : Nat) :
    Nat → Nat → List Nat
  | 0, _ => []
  | remaining + 1, probes =>
    if limit < probes then []
    else
      let snapshot := m.entries (cfg.cursor m.capacity h probes)
      if snapshot.key = keyTombstone then
        callAfter cfg probes ++ probeRdCalls cfg m h key keyLength limit remaining (probes + 1)
      else if snapshot.key = keyEmpty ∨ cfg.keyMatch h key keyLength snapshot then []
      else callAfter cfg probes ++ probeRdCalls cfg m h key keyLength limit remaining (probes + 1)

/-- The shift counts of a call of `ck_ht_map_probe_rd`. -/
def probeRdShifts (cfg : Config) (m : Map) (h : Word) (x : Entry) : List Nat :=
  (m.probeRdCalls cfg h (cfg.keyArg x) (cfg.lengthArg x) (m.boundGet h) (m.probeSlots cfg)
    0).flatMap (shifts cfg m.capacity)

/-- The probe counts of the search of `ck_ht_grow_spmc` for an empty slot
(`ck_ht.c:705-725`). -/
def growPlaceCalls (cfg : Config) (h : Word) : Nat → Map → List Nat
  | 0, _ => []
  | remaining + 1, update =>
    let probes := update.probeSlots cfg - (remaining + 1)
    if (update.entries (cfg.cursor update.capacity h probes)).key = keyEmpty then []
    else callAfter cfg probes ++ growPlaceCalls cfg h remaining update

/-- The probe counts of the copy loop of `ck_ht_grow_spmc` over the given slots
(`ck_ht.c:674-735`). -/
def growCalls (cfg : Config) (m : Map) : List Nat → Map → List Nat
  | [], _ => []
  | k :: ks, update =>
    (if (m.entries k).live then
      growPlaceCalls cfg (cfg.entryHash (m.entries k)) (update.probeSlots cfg) update
      else []) ++
    match m.growCopy cfg update k with
    | none => []
    | some update => growCalls cfg m ks update

/-- The shift counts of `ck_ht_grow_spmc` with a new map for `requested` entries. -/
def growShifts (cfg : Config) (m : Map) (requested : Nat) : List Nat :=
  (growCalls cfg m (List.range m.capacity) (create cfg requested)).flatMap
    (shifts cfg (slotsFor cfg.bucketLength requested))

end Map

/-- The tables that proper calls reach from `ck_ht_init`. -/
inductive Reached (cfg : Config) : State → Prop
  | init {entries : Nat} {ht : State} (h : init cfg entries = some ht) : Reached cfg ht
  | call {ht ht' : State} {op : Op} {r : Result} (before : Reached cfg ht)
      (proper : op.Proper cfg ht.map) (h : step cfg ht op = .ok (r, ht')) : Reached cfg ht'

/-- No probe of a map of `capacity` slots, whether it is published or being filled by
`ck_ht_grow_spmc`, shifts by 64 or more. -/
structure ShiftsDefined (cfg : Config) (capacity : Nat) : Prop where
  probeWr : ∀ ht, Reached cfg ht → ht.map.capacity = capacity → ∀ h x limit,
    limit = typeMax ∨ limit = ht.map.boundGet h →
    ∀ s ∈ ht.map.probeWrShifts cfg h x limit, s < 64
  probeRd : ∀ ht, Reached cfg ht → ht.map.capacity = capacity → ∀ h x,
    ∀ s ∈ ht.map.probeRdShifts cfg h x, s < 64
  grow : ∀ ht, Reached cfg ht → ∀ requested, slotsFor cfg.bucketLength requested = capacity →
    ∀ s ∈ ht.map.growShifts cfg requested, s < 64

/-! ### Slots that have been used -/

/-- A probe that meets tombstones only gets to level 64. -/
theorem call_mem {cfg : Config} {m : Map} {h key : Word} {keyLength : BitVec 16}
    {remaining probes : Nat}
    (hdead : ∀ j, (m.entries (cfg.cursor m.capacity h j)).key = keyTombstone)
    (hrem : cfg.bucketLength * 64 ≤ probes + remaining) (hlt : probes < cfg.bucketLength * 64) :
    cfg.bucketLength * 64 ∈ m.probeWrCalls cfg h key keyLength typeMax remaining probes := by
  have hsmall : cfg.bucketLength ≤ 4 := by
    rcases Map.bucketLength_cases cfg with hb | hb <;> omega
  induction remaining generalizing probes with
  | zero => omega
  | succ remaining ih =>
    have hgo : ¬typeMax < probes := by
      unfold typeMax
      omega
    simp only [Map.probeWrCalls, hgo, if_false, hdead, if_true]
    refine List.mem_append.mpr ?_
    by_cases hlast : probes + 1 = cfg.bucketLength * 64
    · left
      have hmod : (probes + 1) % cfg.bucketLength = 0 := by
        rw [hlast]
        exact Nat.mul_mod_right _ _
      rw [callAfter, if_pos hmod, hlast]
      exact List.mem_singleton.mpr rfl
    · exact .inr (ih (by omega) (by omega))

/-- A table of machine words that hash to themselves. -/
noncomputable def direct (bits : Option Nat) : Config where
  mode := .direct
  workloadDelete := false
  vmaBits := bits
  h := Function.extend wordBytes (fun word => word) fun _ => 0#64
  memory _ := 0
  malloc _ := true
  wideShift _ _ := 0
  restarts := 1

section Buried

variable {bits : Option Nat} {m : Map} {k i : Nat}

theorem direct_hashOf (x : Entry) : (direct bits).hashOf x = x.key := by
  have hinj : Function.Injective wordBytes := fun _ _ => Config.wordBytes_injective
  exact hinj.extend_apply (fun word => word) (fun _ => 0#64) x.key

/-- A request for the word whose home is slot `i`. -/
def homeRequest (i : Nat) : Request := ⟨BitVec.ofNat 64 (2 ^ 32 + i), 0, 0, 0⟩

theorem homeRequest_valid (hi : i < 2 ^ 31) : (homeRequest i).Valid := by
  have hword : (BitVec.ofNat 64 (2 ^ 32 + i)).toNat = 2 ^ 32 + i := by
    rw [BitVec.toNat_ofNat, Nat.mod_eq_of_lt (by omega)]
  constructor
  · intro h
    have hzero := congrArg BitVec.toNat h
    rw [homeRequest, hword] at hzero
    exact absurd hzero (by simp [keyEmpty])
  · intro h
    have hones := congrArg BitVec.toNat h
    have htombstone : keyTombstone.toNat = 2 ^ 64 - 1 := by decide
    rw [homeRequest, hword, htombstone] at hones
    omega

theorem direct_covered : (direct bits).Covered := by
  intro hmode
  cases hmode

theorem direct_entryOf_key (r : Request) : ((direct bits).entryOf r).key = r.key :=
  entryOf_key direct_covered r

theorem homeRequest_cursor (hk : k ≤ 31) (hi : i < 2 ^ k) :
    (direct bits).cursor (2 ^ k) (homeRequest i).key 0 = i := by
  have hpow : 2 ^ k ≤ 2 ^ 31 := Nat.pow_le_pow_right (by decide) hk
  have hword : (homeRequest i).key.toNat = 2 ^ 32 + i := by
    rw [homeRequest, BitVec.toNat_ofNat, Nat.mod_eq_of_lt (by omega)]
  have hdvd : 2 ^ k ∣ 2 ^ 32 := Nat.pow_dvd_pow 2 (by omega)
  have hhome : (homeRequest i).key.toNat &&& (2 ^ k - 1) = i := by
    rw [Nat.and_two_pow_sub_one_eq_mod, hword, Nat.add_mod, Nat.mod_eq_zero_of_dvd hdvd,
      Nat.zero_add, Nat.mod_mod, Nat.mod_eq_of_lt hi]
  simp only [Config.cursor, Config.slotAt, Nat.zero_div, Nat.zero_mod, Nat.zero_add, Config.offset,
    hhome]
  exact Nat.div_add_mod' i _

/-- The map after the words of the first `i` slots have been stored and removed. -/
structure Buried (m : Map) (k i : Nat) : Prop where
  capacity : m.capacity = 2 ^ k
  nEntries : m.nEntries = 0
  dead : ∀ s < i, (m.entries s).key = keyTombstone
  free : ∀ s, i ≤ s → (m.entries s).key = keyEmpty

/-- An entry is written to a slot. -/
theorem applyAll_storeEntry_key (cfg : Config) (m : Map) (slot : Nat) (e : Entry) :
    (m.applyAll (Map.storeEntry cfg slot e)).capacity = m.capacity ∧
      (m.applyAll (Map.storeEntry cfg slot e)).nEntries = m.nEntries ∧
      ((m.applyAll (Map.storeEntry cfg slot e)).entries slot).key = e.key ∧
      ∀ s, s ≠ slot → (m.applyAll (Map.storeEntry cfg slot e)).entries s = m.entries s := by
  unfold Map.storeEntry Map.storeMemo Map.storePair
  split
  · refine ⟨rfl, rfl, ?_, fun s hs => ?_⟩
    · simp [Map.applyAll, Map.apply, Map.put]
    · simp [Map.applyAll, Map.apply, Map.put, hs]
  · refine ⟨rfl, rfl, ?_, fun s hs => ?_⟩
    · simp [Map.applyAll, Map.apply, Map.put]
    · simp [Map.applyAll, Map.apply, Map.put, hs]

/-- A word is stored in its home slot if that is empty. -/
theorem put_home {ht : State} {r : Request} {s : Nat}
    (hhome : (direct bits).cursor ht.map.capacity r.key 0 = s)
    (hempty : (ht.map.entries s).key = keyEmpty) (hload : 2 ≤ ht.map.capacity)
    (hcount : ht.map.nEntries = 0) :
    ∃ ht', step (direct bits) ht (.put r) = .ok (⟨true, none⟩, ht') ∧
      ht'.map.capacity = ht.map.capacity ∧ ht'.map.nEntries = 1 ∧
      (ht'.map.entries s).key = r.key ∧ ∀ t, t ≠ s → ht'.map.entries t = ht.map.entries t := by
  have hkey : ((direct bits).entryOf r).key = r.key := direct_entryOf_key r
  have hhash : (direct bits).hashOf ((direct bits).entryOf r) = r.key := by
    rw [direct_hashOf, hkey]
  have hprobe : ht.map.probeWr (direct bits) r.key ((direct bits).entryOf r) typeMax =
      ⟨some s, ht.map.entries s, none, 1, 1⟩ := by
    obtain ⟨n, hn⟩ : ∃ n, ht.map.probeSlots (direct bits) = n + 1 :=
      Nat.exists_eq_add_one_of_ne_zero (Nat.mul_ne_zero (bucketLength_pos _).ne'
        (by unfold Map.probeLimit; omega))
    have hlive : ¬(ht.map.entries s).key = keyTombstone := by
      rw [hempty]
      decide
    unfold Map.probeWr
    rw [hn, Map.probeWrLoop, if_neg (Nat.not_lt_zero _), hhome, if_neg hlive,
      if_pos (.inl hempty)]
    rfl
  obtain ⟨e, he⟩ : ∃ e, (direct bits).entryOf r = e := ⟨_, rfl⟩
  rw [he] at hkey hhash hprobe
  have hput : ht.put (direct bits) r.key e = .ok (true,
      (ht.exec (ht.map.putStores (direct bits) r.key e
        ⟨some s, ht.map.entries s, none, 1, 1⟩)).enforceLoad (direct bits)) := by
    have hfind : ht.findSlot (direct bits) r.key e 1 =
        .ok (some ⟨some s, ht.map.entries s, none, 1, 1⟩, ht) := by
      rw [State.findSlot, hprobe]
      rfl
    have hvacant : ¬((some s : Option Nat) ≠ none ∧ (ht.map.entries s).key ≠ keyEmpty) :=
      fun h => h.2 hempty
    unfold State.put
    rw [show (direct bits).restarts = 1 from rfl, hfind]
    simp only [bind, Except.bind, hvacant, if_false]
    rfl
  -- what has been stored
  have hstores : (ht.exec (ht.map.putStores (direct bits) r.key e
      ⟨some s, ht.map.entries s, none, 1, 1⟩)).map =
      ((ht.map.applyAll (ht.map.boundSet r.key 1)).applyAll
        (Map.storeEntry (direct bits) s e)).apply (.nEntries (ht.map.nEntries + 1)) := by
    unfold State.exec Map.putStores
    rw [applyAll_append, applyAll_append]
    rfl
  obtain ⟨hcap, -, hself, hother⟩ :=
    applyAll_storeEntry_key (direct bits) (ht.map.applyAll (ht.map.boundSet r.key 1)) s e
  generalize ht.exec (ht.map.putStores (direct bits) r.key e
      ⟨some s, ht.map.entries s, none, 1, 1⟩) = ht₁ at hput hstores
  rw [Map.boundSet_capacity] at hcap
  rw [hkey] at hself
  have hcap₁ : ht₁.map.capacity = ht.map.capacity := by
    rw [hstores]
    exact hcap
  have hcount₁ : ht₁.map.nEntries = 1 := by
    rw [hstores, hcount]
    rfl
  have hload₁ : ht₁.enforceLoad (direct bits) = ht₁ := by
    unfold State.enforceLoad
    rw [hcap₁, hcount₁]
    exact if_neg (Nat.not_lt.mpr hload)
  refine ⟨ht₁, ?_, hcap₁, hcount₁, ?_, fun t hne => ?_⟩
  · rw [Ht.step, he, hhash, hput, hload₁]
    rfl
  · rw [hstores]
    exact hself
  · rw [hstores]
    exact (hother t hne).trans (congrFun (Map.boundSet_entries r.key 1) t)

/-- The word is removed again. -/
theorem remove_home {ht : State} {r : Request} {s : Nat}
    (hhome : (direct bits).cursor ht.map.capacity r.key 0 = s) (hvalid : r.Valid)
    (hkey : (ht.map.entries s).key = r.key) (hcount : ht.map.nEntries = 1) :
    ∃ res ht', step (direct bits) ht (.remove r) = .ok (res, ht') ∧
      ht'.map.capacity = ht.map.capacity ∧ ht'.map.nEntries = 0 ∧
      (ht'.map.entries s).key = keyTombstone ∧
      ∀ t, t ≠ s → ht'.map.entries t = ht.map.entries t := by
  have hentry : ((direct bits).entryOf r).key = r.key := direct_entryOf_key r
  have hhash : (direct bits).hashOf ((direct bits).entryOf r) = r.key := by
    rw [direct_hashOf, hentry]
  have hprobe : ht.map.probeRd (direct bits) r.key ((direct bits).entryOf r) =
      some (s, ht.map.entries s) := by
    obtain ⟨n, hn⟩ : ∃ n, ht.map.probeSlots (direct bits) = n + 1 :=
      Nat.exists_eq_add_one_of_ne_zero (Nat.mul_ne_zero (bucketLength_pos _).ne'
        (by unfold Map.probeLimit; omega))
    have hlive : ¬(ht.map.entries s).key = keyTombstone := hkey ▸ hvalid.2
    have hmatch : (direct bits).keyMatch r.key ((direct bits).keyArg ((direct bits).entryOf r))
        ((direct bits).lengthArg ((direct bits).entryOf r)) (ht.map.entries s) = true := by
      have harg : (direct bits).keyArg ((direct bits).entryOf r) = r.key := hentry
      rw [Config.keyMatch, harg, hkey, beq_self_eq_true, Bool.true_or]
    unfold Map.probeRd
    rw [hn, Map.probeRdLoop, if_neg (Nat.not_lt_zero _), hhome, if_neg hlive,
      if_pos (.inr hmatch)]
  have hremove : ht.remove (direct bits) r.key ((direct bits).entryOf r) =
      (some (ht.map.entries s), ht.exec [.key s keyTombstone, .nEntries 0]) := by
    have hzero : dec 64 1 = 0 := by decide
    unfold State.remove
    rw [hprobe, hcount, hzero]
    exact if_neg (hkey ▸ hvalid.1)
  refine ⟨⟨true, some (ht.map.entries s)⟩, ht.exec [.key s keyTombstone, .nEntries 0],
    ?_, rfl, rfl, ?_, fun t hne => ?_⟩
  · rw [Ht.step, hhash, hremove]
    rfl
  · show (Function.update ht.map.entries s _ s).key = keyTombstone
    rw [Function.update_self]
  · exact Function.update_of_ne hne _ _

theorem proper_of_valid {r : Request} {op : Op} (hop : op.request = some r) (hvalid : r.Valid) :
    op.Proper (direct bits) m := by
  intro r' hr
  rw [hop] at hr
  cases hr
  refine ⟨hvalid, fun s _ hmode => ?_⟩
  cases hmode

/-- The next slot is used, and becomes a tombstone. -/
theorem Buried.step {ht : State} (hm : Buried ht.map k i) (hk : 1 ≤ k) (h31 : k ≤ 31)
    (hi : i < 2 ^ k) (hreached : Reached (direct bits) ht) :
    ∃ ht', Reached (direct bits) ht' ∧ Buried ht'.map k (i + 1) := by
  have hpow : 2 ^ k ≤ 2 ^ 31 := Nat.pow_le_pow_right (by decide) h31
  have htwo : 2 ^ 1 ≤ 2 ^ k := Nat.pow_le_pow_right (by decide) hk
  have hvalid : (homeRequest i).Valid := homeRequest_valid (hi.trans_le hpow)
  have hhome : (direct bits).cursor ht.map.capacity (homeRequest i).key 0 = i := by
    rw [hm.capacity]
    exact homeRequest_cursor h31 hi
  obtain ⟨ht₁, hput, hcap₁, hcount₁, hkey₁, hother₁⟩ :=
    put_home hhome (hm.free i le_rfl) (hm.capacity ▸ htwo) hm.nEntries
  have hreached₁ := hreached.call (proper_of_valid rfl hvalid) hput
  obtain ⟨res, ht₂, hremove, hcap₂, hcount₂, hkey₂, hother₂⟩ :=
    remove_home (hcap₁ ▸ hhome) hvalid hkey₁ hcount₁
  refine ⟨ht₂, hreached₁.call (proper_of_valid rfl hvalid) hremove, ?_⟩
  refine ⟨hcap₂.trans (hcap₁.trans hm.capacity), hcount₂, fun s hs => ?_, fun s hs => ?_⟩
  · rcases Nat.lt_succ_iff_lt_or_eq.mp hs with hlt | rfl
    · rw [hother₂ s hlt.ne, hother₁ s hlt.ne]
      exact hm.dead s hlt
    · exact hkey₂
  · have hne : s ≠ i := by omega
    rw [hother₂ s hne, hother₁ s hne]
    exact hm.free s (by omega)

/-- A table in which every slot is a tombstone. -/
theorem direct_buried (hk : (direct bits).bucketShift ≤ k) (h31 : k ≤ 31) (hi : i ≤ 2 ^ k) :
    ∃ ht, Reached (direct bits) ht ∧ Buried ht.map k i := by
  have hone : 1 ≤ (direct bits).bucketShift := by
    unfold Config.bucketShift
    split <;> decide
  induction i with
  | zero =>
    obtain ⟨ht, hinit⟩ : ∃ ht, init (direct bits) (2 ^ k) = some ht := ⟨_, rfl⟩
    refine ⟨ht, .init hinit, ?_⟩
    have hleast : (direct bits).bucketLength ≤ 2 ^ k := Nat.pow_le_pow_right (by decide) hk
    have hpos := Nat.two_pow_pos k
    have hcap : slotsFor (direct bits).bucketLength (2 ^ k) = 2 ^ k :=
      slotsFor_eq h31 hleast le_rfl (by omega)
    cases hinit
    exact ⟨hcap, rfl, fun s hs => absurd hs (Nat.not_lt_zero s), fun _ _ => rfl⟩
  | succ i ih =>
    obtain ⟨ht, hreached, hm⟩ := ih (Nat.le_of_succ_le hi)
    exact hm.step (hone.trans hk) h31 hi hreached

/-- A put gets to level 64 in such a table. -/
theorem direct_undefined (hk : (direct bits).bucketShift ≤ k) (h31 : k ≤ 31) :
    ¬ShiftsDefined (direct bits) (2 ^ k) := by
  intro hdefined
  obtain ⟨ht, hreached, hm⟩ := direct_buried hk h31 le_rfl
  have hdvd : (direct bits).bucketLength ∣ ht.map.capacity := by
    rw [hm.capacity]
    exact Nat.pow_dvd_pow 2 hk
  have hpos : 0 < ht.map.capacity := by
    rw [hm.capacity]
    exact Nat.two_pow_pos k
  have hdead : ∀ j, (ht.map.entries ((direct bits).cursor ht.map.capacity 0 j)).key =
      keyTombstone := by
    intro j
    have hlt := cursor_lt (direct bits) hpos hdvd 0 j
    rw [hm.capacity] at hlt ⊢
    exact hm.dead _ hlt
  have hslots : (direct bits).bucketLength * 64 ≤ 0 + ht.map.probeSlots (direct bits) := by
    rw [Nat.zero_add]
    exact Nat.mul_le_mul_left _ (le_max_right _ _)
  have hcall : (direct bits).bucketLength * 64 ∈ ht.map.probeWrCalls (direct bits) 0
      ((direct bits).keyArg .zero) ((direct bits).lengthArg .zero) typeMax
      (ht.map.probeSlots (direct bits)) 0 :=
    call_mem hdead hslots (Nat.mul_pos (bucketLength_pos _) (by decide))
  have hlevel : ((direct bits).bucketLength * 64) >>> (direct bits).bucketShift = 64 := by
    rw [Nat.shiftRight_eq_div_pow]
    exact Nat.mul_div_cancel_left 64 (Nat.two_pow_pos _)
  have hshift : 64 ∈ ht.map.probeWrShifts (direct bits) 0 .zero typeMax := by
    refine List.mem_flatMap.mpr ⟨_, hcall, List.mem_cons_of_mem _ ?_⟩
    rw [hlevel]
    exact List.mem_singleton.mpr rfl
  have hlt := hdefined.probeWr ht hreached hm.capacity 0 .zero typeMax (.inl rfl) 64 hshift
  exact absurd hlt (by decide)

end Buried

/-- In no map of `ck_ht` are the shifts defined for all callbacks and all contents. -/
theorem not_shiftsDefined (bits : Option Nat) (entries : Nat) :
    ¬∀ cfg : Config, cfg.vmaBits = bits →
      ShiftsDefined cfg (slotsFor cfg.bucketLength entries) := by
  intro hdefined
  obtain ⟨k, hk, hcap⟩ := slotsFor_pow (direct bits).bucketShift entries
  have hcap : slotsFor (direct bits).bucketLength entries = 2 ^ k := hcap
  have hleast : (direct bits).bucketLength ≤ 2 ^ 31 := by
    rcases Map.bucketLength_cases (direct bits) with h | h <;> rw [h] <;> decide
  have hle := slotsFor_le hleast entries
  rw [hcap] at hle
  have hshifts := hdefined (direct bits) rfl
  rw [hcap] at hshifts
  exact direct_undefined hk ((Nat.pow_le_pow_iff_right (by decide)).mp hle) hshifts

end ConcurrencyKit.Ht

namespace ConcurrencyKit

/-- The shifts of `ck_hs` are defined exactly in the maps of up to `2 ^ 14` slots, those of
`ck_ht` in none. -/
theorem shifts_defined_iff (entries : Nat) (bits : Option Nat) :
    ((∀ (V : Type) [DecidableEq V] (cfg : Hs.Config V), cfg.Lawful →
      Hs.ShiftsDefined cfg (mapSlots entries)) ↔ mapSlots entries ≤ 2 ^ 14) ∧
    ¬∀ cfg : Ht.Config, cfg.vmaBits = bits →
      Ht.ShiftsDefined cfg (slotsFor cfg.bucketLength entries) :=
  ⟨Hs.shiftsDefined_iff entries, Ht.not_shiftsDefined bits entries⟩

/-- Two words with different homes are stored in a table of two slots and removed; the put of
another one gets to level 64. -/
theorem shifts_defined_iff_tombstones :
    ∃ ht₀ rs ht, Ht.init Ht.words 2 = some ht₀ ∧
      Ht.run Ht.words ht₀ [.put (Ht.wordRequest 2 0), .remove (Ht.wordRequest 2 0),
        .put (Ht.wordRequest 3 0), .remove (Ht.wordRequest 3 0)] = .ok (rs, ht) ∧
      64 ∈ ht.map.probeWrShifts Ht.words (Ht.words.hashOf (Ht.words.entryOf (Ht.wordRequest 4 0)))
        (Ht.words.entryOf (Ht.wordRequest 4 0)) Ht.typeMax := by
  have heval : ((Ht.init Ht.words 2).map fun ht =>
      (Ht.run Ht.words ht [.put (Ht.wordRequest 2 0), .remove (Ht.wordRequest 2 0),
        .put (Ht.wordRequest 3 0), .remove (Ht.wordRequest 3 0)]).toOption.map fun p =>
        decide (64 ∈ p.2.map.probeWrShifts Ht.words
          (Ht.words.hashOf (Ht.words.entryOf (Ht.wordRequest 4 0)))
          (Ht.words.entryOf (Ht.wordRequest 4 0)) Ht.typeMax)) = some (some true) := by
    decide +kernel
  obtain ⟨ht₀, hinit, hsome⟩ := Option.map_eq_some_iff.mp heval
  cases hrun : Ht.run Ht.words ht₀ [.put (Ht.wordRequest 2 0), .remove (Ht.wordRequest 2 0),
      .put (Ht.wordRequest 3 0), .remove (Ht.wordRequest 3 0)] with
  | error e =>
    rw [hrun] at hsome
    cases hsome
  | ok p =>
    rw [hrun] at hsome
    exact ⟨ht₀, p.1, p.2, hinit, hrun, of_decide_eq_true (Option.some.inj hsome)⟩

end ConcurrencyKit
