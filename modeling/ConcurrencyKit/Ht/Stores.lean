import ConcurrencyKit.Ht.Invariant

/-!
# Writing an entry word by word

The store sequences by which the operations of `ck_ht` raise the probe bounds, fill a slot,
replace the entry of a key and move an entry to an earlier slot are allowed in their order.
-/

namespace ConcurrencyKit.Ht

/-- The entry with the memoized words of another. -/
def Entry.withMemo (old e : Entry) : Entry :=
  { old with keyLength := e.keyLength, hash := e.hash }

namespace Map

/-! ## What a probe says about the stored keys -/

section Walked

variable {cfg : Config} {m : Map} {ph : Phase} {x : Entry}

theorem Valid.probeSlots_le (hv : m.Valid cfg ph) : m.probeSlots cfg ≤ typeMax := by
  have hcap : m.capacity >>> (cfg.bucketShift + 2) ≤ 2 ^ 31 := by
    rw [Nat.shiftRight_eq_div_pow]
    exact le_trans (Nat.div_le_self _ _) hv.capacity_le
  have hshift : cfg.bucketLength ≤ 2 ^ 2 := by
    unfold Config.bucketLength Config.bucketShift
    split <;> decide
  have hlimit : m.probeLimit cfg ≤ 2 ^ 31 := by
    unfold probeLimit
    omega
  calc m.probeSlots cfg ≤ 2 ^ 2 * 2 ^ 31 := Nat.mul_le_mul hshift hlimit
    _ ≤ typeMax := by decide

theorem Covers.lt_boundGet {h : Word} {n : Nat} (hc : m.Covers h n) : n < m.boundGet h := by
  unfold boundGet
  cases hb : m.probeBound with
  | none => exact hc.1
  | some b =>
    dsimp only
    split
    · exact hc.1
    · exact hc.2 b hb ‹_›

theorem Covers.mono {h : Word} {n k : Nat} (hc : m.Covers h n) (hk : k ≤ n) : m.Covers h k :=
  ⟨lt_of_le_of_lt hk hc.1, fun b hb hne => lt_of_le_of_lt hk (hc.2 b hb hne)⟩

theorem Open.mono {h : Word} {n k : Nat} (ho : m.Open cfg h n) (hk : k ≤ n) : m.Open cfg h k :=
  fun j hj => ho j (by omega)

theorem Clear.open_path {h : Word} {n : Nat} (hc : m.Clear cfg h x n) : m.Open cfg h n :=
  fun k hk => (hc k hk).1

/-- The key test decides the identity of the stored entries. -/
theorem Valid.hit_iff (hv : m.Valid cfg ph) (hcov : cfg.Covered) (fits : m.Fits cfg x) {s : Nat}
    (hs : (m.entries s).live = true) :
    cfg.hit (cfg.hashOf x) x (m.entries s) = true ↔ cfg.ident (m.entries s) = cfg.ident x := by
  rw [Config.hit_iff_ident hcov (hv.sound s hs) (fits s hs)]
  exact and_iff_right hs

theorem hit_live {h : Word} {e : Entry} (hh : cfg.hit h x e = true) : e.live = true := by
  rw [Config.hit, Bool.and_eq_true] at hh
  exact hh.1

/-- A probe that passed the bound, or all slots, or came to an empty one, without meeting the key
proves the key absent. -/
theorem Valid.absent_of_clear (hv : m.Valid cfg .idle) (hcov : cfg.Covered)
    (fits : m.Fits cfg x) {n : Nat} (hc : m.Clear cfg (cfg.hashOf x) x n)
    (hn : m.probeSlots cfg ≤ n ∨ m.boundGet (cfg.hashOf x) < n ∨
      (m.word cfg (cfg.hashOf x) n).key = keyEmpty) : m.Absent cfg x := by
  intro s hs hid
  obtain ⟨k, hk, hat, hcovers, hopen⟩ := hv.reaches s hs nofun
  rw [Config.hashOf_eq hid] at hat hcovers hopen
  have hkn : k < n := by
    rcases hn with hn | hn | hn
    · omega
    · have := hcovers.lt_boundGet
      omega
    · by_contra hge
      rcases Nat.eq_or_lt_of_le (Nat.le_of_not_lt hge) with rfl | hlt
      · rw [word, hat] at hn
        exact (ne_of_live hs).1 hn
      · exact hopen n hlt hn
  have hno := (hc k hkn).2
  rw [word, hat, (hv.hit_iff hcov fits hs).mpr hid] at hno
  cases hno

/-- A probe with one of the limits of the code that misses the key proves it absent. -/
theorem Valid.absent_of_missed (hv : m.Valid cfg .idle) (hcov : cfg.Covered)
    (fits : m.Fits cfg x) {limit n : Nat}
    (hlimit : limit = typeMax ∨ limit = m.boundGet (cfg.hashOf x))
    (hc : m.Clear cfg (cfg.hashOf x) x n) (hle : n ≤ m.probeSlots cfg)
    (past : n = m.probeSlots cfg ∨ limit < n) : m.Absent cfg x := by
  have hslots := hv.probeSlots_le
  refine hv.absent_of_clear hcov fits hc ?_
  rcases past with rfl | hlt
  · exact .inl le_rfl
  · rcases hlimit with rfl | rfl
    · omega
    · exact .inr (.inl hlt)

/-- The tombstone a successful probe passed comes before the slot it found. -/
theorem Clear.before {h : Word} {n p : Nat} (hc : m.Clear cfg h x n)
    (hhit : cfg.hit h x (m.word cfg h n) = true) (hp : p < n) :
    m.Before cfg h (cfg.cursor m.capacity h p) (cfg.cursor m.capacity h n) := by
  refine ⟨p, rfl, fun j hj => ?_⟩
  by_contra hle
  have hno := (hc j (by omega)).2
  rw [word, hj] at hno
  rw [word, hno] at hhit
  cases hhit

/-- The slot a probe found is within the bounds of the key. -/
theorem Valid.covers_found (hv : m.Valid cfg .idle) {n : Nat}
    (hc : m.Clear cfg (cfg.hashOf x) x n)
    (hhit : cfg.hit (cfg.hashOf x) x (m.word cfg (cfg.hashOf x) n) = true)
    (hid : cfg.ident (m.word cfg (cfg.hashOf x) n) = cfg.ident x) :
    m.Covers (cfg.hashOf x) n := by
  obtain ⟨k, -, hat, hcovers, -⟩ := hv.reaches _ (hit_live hhit) nofun
  rw [show cfg.hashOf (m.entries (cfg.cursor m.capacity (cfg.hashOf x) n)) = cfg.hashOf x from
    Config.hashOf_eq hid] at hat hcovers
  refine hcovers.mono ?_
  by_contra hlt
  have hno := (hc k (by omega)).2
  rw [word, hat] at hno
  rw [word, hno] at hhit
  cases hhit

end Walked

/-! ## Raising the bounds -/

section BoundSet

variable {cfg : Config} {m : Map} {ph : Phase}

/-- The bounds after `ck_ht_map_bound_set`. -/
theorem applyAll_boundSet (h : Word) (n : Nat) :
    m.applyAll (m.boundSet h n) =
      { m with
        probeMaximum := max m.probeMaximum n
        probeBound := m.probeBound.map (fun b =>
          if b (m.home h) < n then Function.update b (m.home h) (min n wordMax) else b) } := by
  unfold boundSet
  rw [applyAll_append]
  have hmax : m.applyAll (if m.probeMaximum < n then [.probeMaximum n] else []) =
      { m with probeMaximum := max m.probeMaximum n } := by
    split
    · rename_i hlt
      rw [max_eq_right hlt.le]
      rfl
    · rename_i hge
      rw [max_eq_left (by omega)]
      rfl
  rw [hmax]
  cases hb : m.probeBound with
  | none => simp only [applyAll_nil, Option.map_none]
  | some b =>
    dsimp only
    split
    · simp only [applyAll, List.foldl, apply, Option.map_some]
      rw [if_pos ‹_›]
    · simp only [applyAll_nil, Option.map_some]
      rw [if_neg ‹_›]

/-- A map whose bounds cover what the bounds of `m` cover. -/
structure Raised (m m' : Map) : Prop where
  entries : m'.entries = m.entries
  capacity : m'.capacity = m.capacity
  deletions : m'.deletions = m.deletions
  nEntries : m'.nEntries = m.nEntries
  covers : ∀ h n, m.Covers h n → m'.Covers h n

theorem Raised.valid {m' : Map} (hr : Raised m m') (hv : m.Valid cfg ph) : m'.Valid cfg ph := by
  refine hv.rebound hr.capacity hr.entries (hr.deletions ▸ hv.deletions_lt) fun s hs hb => ?_
  obtain ⟨n, hn, hat, hc, ho⟩ := hv.reaches s hs hb
  refine ⟨n, ?_, hr.capacity ▸ hat, hr.covers _ _ hc, ?_⟩
  · unfold probeSlots probeLimit
    rw [hr.capacity]
    exact hn
  · unfold Open word
    rw [hr.entries, hr.capacity]
    exact ho

theorem raised_maximum {n : Nat} (hlt : m.probeMaximum < n) :
    Raised m (m.apply (.probeMaximum n)) where
  entries := rfl
  capacity := rfl
  deletions := rfl
  nEntries := rfl
  covers _ _ hc := ⟨lt_trans hc.1 hlt, hc.2⟩

theorem raised_bound {b : Nat → Nat} (hb : m.probeBound = some b) {home n : Nat}
    (hlt : b home < n) : Raised m (m.apply (.probeBound home (min n wordMax))) where
  entries := rfl
  capacity := rfl
  deletions := rfl
  nEntries := rfl
  covers h k hc := by
    refine ⟨hc.1, fun b' hb' hne => ?_⟩
    simp only [apply, hb, Option.map_some, Option.some.injEq] at hb'
    subst hb'
    change Function.update b home (min n wordMax) (m.home h) ≠ wordMax at hne
    show k < Function.update b home (min n wordMax) (m.home h)
    rw [Function.update_apply] at hne ⊢
    split at hne
    · rename_i hhome
      rw [if_pos hhome]
      have hold := hc.2 b hb
      rw [hhome] at hold
      simp only [wordMax] at hne hold ⊢
      omega
    · rename_i hhome
      rw [if_neg hhome]
      exact hc.2 b hb hne

/-- `ck_ht_map_bound_set` makes at most two stores, each of which raises a bound. -/
theorem boundSet_cases (m : Map) (h : Word) (n : Nat) :
    m.boundSet h n = [] ∨
    (∃ st, m.boundSet h n = [st] ∧ st.isBound = true ∧ Raised m (m.apply st)) ∨
    ∃ st st', m.boundSet h n = [st, st'] ∧ st.isBound = true ∧ st'.isBound = true ∧
      Raised m (m.apply st) ∧ Raised (m.apply st) ((m.apply st).apply st') := by
  unfold boundSet
  by_cases hmax : m.probeMaximum < n
  · rw [if_pos hmax]
    cases hb : m.probeBound with
    | none => exact .inr (.inl ⟨_, rfl, rfl, raised_maximum hmax⟩)
    | some b =>
      dsimp only
      split
      · rename_i hlt
        refine .inr (.inr ⟨_, _, rfl, rfl, rfl, raised_maximum hmax, ?_⟩)
        exact raised_bound (m := m.apply (.probeMaximum n)) hb hlt
      · exact .inr (.inl ⟨_, rfl, rfl, raised_maximum hmax⟩)
  · rw [if_neg hmax]
    cases hb : m.probeBound with
    | none => exact .inl rfl
    | some b =>
      dsimp only
      split
      · rename_i hlt
        exact .inr (.inl ⟨_, rfl, rfl, raised_bound hb hlt⟩)
      · exact .inl rfl

theorem boundSet_path (hv : m.Valid cfg ph) (h : Word) (n : Nat) :
    Path cfg m ph (m.boundSet h n) ph .quiet := by
  rcases boundSet_cases m h n with he | ⟨st, he, hb, hr⟩ | ⟨st, st', he, hb, hb', hr, hr'⟩
  · rw [he]
    exact .nil _ _
  · rw [he]
    exact .one (.rebound hb (hr.valid hv))
  · rw [he]
    exact .cons (.rebound hb (hr.valid hv)) (.one (.rebound hb' (hr'.valid (hr.valid hv))))

/-- `ck_ht_map_bound_set` brings its probe count within the bounds. -/
theorem covers_boundSet (m : Map) (h : Word) (n : Nat) :
    (m.applyAll (m.boundSet h (n + 1))).Covers h n := by
  rw [applyAll_boundSet]
  refine ⟨lt_of_lt_of_le (Nat.lt_succ_self n) (le_max_right _ _), fun b hb hne => ?_⟩
  cases hm : m.probeBound with
  | none => rw [hm] at hb; cases hb
  | some c =>
    rw [hm] at hb
    simp only [Option.map_some, Option.some.injEq] at hb
    subst hb
    change (if c (m.home h) < n + 1 then _ else c) (m.home h) ≠ wordMax at hne
    show n < (if c (m.home h) < n + 1 then _ else c) (m.home h)
    split at hne
    · rename_i hlt
      rw [if_pos hlt]
      rw [Function.update_self] at hne ⊢
      simp only [wordMax] at hne ⊢
      omega
    · rename_i hge
      rw [if_neg hge]
      omega

@[simp] theorem boundSet_entries (h : Word) (n : Nat) :
    (m.applyAll (m.boundSet h n)).entries = m.entries := by
  rw [applyAll_boundSet]

@[simp] theorem boundSet_capacity (h : Word) (n : Nat) :
    (m.applyAll (m.boundSet h n)).capacity = m.capacity := by
  rw [applyAll_boundSet]

@[simp] theorem boundSet_nEntries (h : Word) (n : Nat) :
    (m.applyAll (m.boundSet h n)).nEntries = m.nEntries := by
  rw [applyAll_boundSet]

/-- With the bounds raised for a new key the map is valid again. -/
theorem Valid.cover {s n : Nat} (hv : m.Valid cfg (.unbound s n))
    (hc : m.Covers (cfg.hashOf (m.entries s)) n) : m.Valid cfg .idle := by
  have hu := hv.unbound s n rfl
  refine { hv with
    reaches := fun i hi _ => ?_
    unique := fun i i' hi hi' _ _ hid => ?_
    copies := by rintro _ _ (h | h) <;> cases h
    reusing := nofun
    unbound := nofun }
  · by_cases his : i = s
    · rw [his]
      exact ⟨n, hu.lt, hu.at_index, hc, hu.open_path⟩
    · exact hv.reaches i hi fun k h => by cases h; exact his rfl
  · by_cases his : i = s
    · rw [his] at hid ⊢
      exact (hu.alone i' hi' hid.symm).symm
    · by_cases his' : i' = s
      · rw [his'] at hid ⊢
        exact hu.alone i hi hid
      · refine hv.unique i i' hi hi' ?_ ?_ hid
        · exact fun h => his (Option.some.inj h)
        · exact fun h => his' (Option.some.inj h)

/-- The bounds are raised for a new key that they do not cover. -/
theorem cover_path {s n : Nat} (hv : m.Valid cfg (.unbound s n))
    (hn : ¬ m.Covers (cfg.hashOf (m.entries s)) n) :
    Path cfg m (.unbound s n) (m.boundSet (cfg.hashOf (m.entries s)) (n + 1)) .idle .quiet := by
  have hcov := covers_boundSet m (cfg.hashOf (m.entries s)) n
  have hvalid := (boundSet_path hv (cfg.hashOf (m.entries s)) (n + 1)).valid hv
  have hidle := hvalid.cover (by rw [boundSet_entries]; exact hcov)
  revert hcov hvalid hidle
  rcases boundSet_cases m (cfg.hashOf (m.entries s)) (n + 1) with
    he | ⟨st, he, hb, hr⟩ | ⟨st, st', he, hb, hb', hr, hr'⟩
  · rw [he]
    exact fun hcov _ _ => absurd hcov hn
  · rw [he]
    exact fun _ _ hidle => .one (.cover hb hidle)
  · rw [he]
    exact fun _ _ hidle => .cons (.rebound hb (hr.valid hv)) (.one (.cover hb' hidle))

end BoundSet

/-! ## Writing an entry word by word -/

section Write

variable {cfg : Config} {m : Map} {ph : Phase} {s n : Nat} {e : Entry}

theorem put_self (m : Map) (s : Nat) : m.put s (m.entries s) = m := by
  unfold put
  rw [Function.update_eq_self]

theorem applyAll_storeMemo (hold : cfg.Packed (m.entries s)) (hnew : cfg.Packed e) :
    m.applyAll (storeMemo cfg s e) =
      m.put s ((m.entries s).withMemo e) := by
  unfold storeMemo
  split
  · rename_i hpp
    obtain ⟨h1, h2⟩ := hold hpp
    obtain ⟨h3, h4⟩ := hnew hpp
    have he : (m.entries s).withMemo e = m.entries s := by
      ext1
      · rfl
      · rfl
      · exact h3.trans h1.symm
      · exact h4.trans h2.symm
    rw [he, put_self]
    rfl
  · simp only [applyAll, List.foldl, apply, put_put, put_entries_self, Entry.withMemo]

/-- The stores that write all of an entry but its key. -/
def prepareStores (cfg : Config) (s : Nat) (e : Entry) : List Store :=
  storeMemo cfg s e ++ [.value s e.value]

theorem storeEntry_eq (cfg : Config) (s : Nat) (e : Entry) :
    storeEntry cfg s e = prepareStores cfg s e ++ [.key s e.key] := by
  unfold storeEntry prepareStores storePair
  rw [List.append_assoc]
  rfl

theorem applyAll_prepare (hold : cfg.Packed (m.entries s)) (hnew : cfg.Packed e) :
    m.applyAll (prepareStores cfg s e) = m.put s { e with key := (m.entries s).key } := by
  rw [prepareStores, applyAll_append, applyAll_storeMemo hold hnew]
  simp only [applyAll, List.foldl, apply, put_put, put_entries_self, Entry.withMemo]

theorem applyAll_storeEntry (hold : cfg.Packed (m.entries s)) (hnew : cfg.Packed e) :
    m.applyAll (storeEntry cfg s e) = m.put s e := by
  rw [storeEntry_eq, applyAll_append, applyAll_prepare hold hnew]
  simp only [applyAll, List.foldl, apply, put_put, put_entries_self]

/-- The writer may store to the slot: it is empty, or a tombstone about to be used. -/
def Free (m : Map) (ph : Phase) (s : Nat) : Prop :=
  ph = .reusing s ∨ (ph = .idle ∧ (m.entries s).key = keyEmpty)

theorem Free.dead (hv : m.Valid cfg ph) (hf : m.Free ph s) : (m.entries s).live = false := by
  rcases hf with rfl | ⟨-, he⟩
  · exact not_live_of_tombstone (hv.reusing s rfl).2
  · exact not_live_of_empty he

theorem Free.put (hf : m.Free ph s) (hk : e.key = (m.entries s).key) :
    (m.put s e).Free ph s := by
  rcases hf with rfl | ⟨rfl, he⟩
  · exact .inl rfl
  · refine .inr ⟨rfl, ?_⟩
    rw [put_entries_self, hk]
    exact he

theorem memo_path (hf : m.Free ph s) :
    Path cfg m ph (storeMemo cfg s e) ph .quiet := by
  unfold storeMemo
  split
  · exact .nil _ _
  · rename_i hpp
    have hp : ∀ e' : Entry, cfg.Packed e' := fun _ h => absurd h hpp
    refine .cons (.prepare (e := { m.entries s with keyLength := e.keyLength }) rfl rfl rfl (hp _)
      hf) (.one (.prepare (s := s) (e := (m.entries s).withMemo e) rfl ?_ ?_ (hp _) (hf.put rfl)))
    · simp only [apply, put_entries_self, Entry.withMemo]
    · rw [apply, put_entries_self, Entry.withMemo]

theorem prepare_path (hold : cfg.Packed (m.entries s)) (hnew : cfg.Packed e)
    (hf : m.Free ph s) : Path cfg m ph (prepareStores cfg s e) ph .quiet := by
  refine (memo_path hf).append (.one ?_)
  rw [applyAll_storeMemo hold hnew]
  refine .prepare (s := s) (e := { e with key := (m.entries s).key }) rfl ?_ ?_ hnew (hf.put rfl)
  · simp only [apply, put_entries_self, Entry.withMemo]
  · rw [put_entries_self, Entry.withMemo]

/-- The words before the counter changes: the readers may see them. -/
theorem memo_spoils (dead : (m.entries s).live = false) :
    ∃ k, Path cfg m .idle (storeMemo cfg s e) .idle k := by
  unfold storeMemo
  split
  · exact ⟨_, .nil _ _⟩
  · rename_i hpp
    have hp : ∀ e' : Entry, cfg.Packed e' := fun _ h => absurd h hpp
    refine ⟨_, .cons (.spoil (e := { m.entries s with keyLength := e.keyLength }) rfl rfl rfl (hp _)
      dead) (.one (.spoil (s := s) (e := (m.entries s).withMemo e) rfl ?_ ?_ (hp _) ?_))⟩
    · simp only [apply, put_entries_self, Entry.withMemo]
    · rw [apply, put_entries_self, Entry.withMemo]
    · rw [apply, put_entries_self]
      exact dead

/-! ### A slot that is not live stays out of sight -/

theorem put_dead_live (key : e.key = (m.entries s).key) (dead : (m.entries s).live = false)
    {i : Nat} (hi : ((m.put s e).entries i).live = true) :
    (m.put s e).entries i = m.entries i := by
  by_cases his : i = s
  · rw [his, put_entries_self, Entry.live, key] at hi
    rw [Entry.live] at dead
    rw [dead] at hi
    cases hi
  · exact put_entries_of_ne m his e

theorem Absent.put_dead {x : Entry} (key : e.key = (m.entries s).key)
    (dead : (m.entries s).live = false) (ha : m.Absent cfg x) : (m.put s e).Absent cfg x := by
  intro i hi
  have he := put_dead_live key dead hi
  rw [he] at hi ⊢
  exact ha i hi

theorem Fits.put_dead {x : Entry} (key : e.key = (m.entries s).key)
    (dead : (m.entries s).live = false) (hf : m.Fits cfg x) : (m.put s e).Fits cfg x := by
  intro i hi
  have he := put_dead_live key dead hi
  rw [he] at hi ⊢
  exact hf i hi

/-- A new key is written to a slot that the bounds cover. -/
theorem fill_path (hv : m.Valid cfg ph) (hf : m.Free ph s) (proper : e.Proper cfg)
    (reach : m.Reaches cfg (cfg.hashOf e) s) (absent : m.Absent cfg e) (fits : m.Fits cfg e) :
    Path cfg m ph (storeEntry cfg s e) .idle .commit := by
  have hold := hv.packed s
  have hdead := hf.dead hv
  rw [storeEntry_eq]
  refine (prepare_path hold proper.packed hf).append (.one ?_)
  rw [applyAll_prepare hold proper.packed]
  refine .fill rfl ?_ proper (reach.put fun h => h) (absent.put_dead rfl hdead)
    (fits.put_dead rfl hdead) (hf.put rfl)
  show (m.put s _).put s _ = _
  rw [put_entries_self]

/-- A new key is written to a slot that the bounds need not cover. -/
theorem insert_path (hv : m.Valid cfg ph) (hf : m.Free ph s) (proper : e.Proper cfg)
    (lt : n < m.probeSlots cfg) (at_index : cfg.cursor m.capacity (cfg.hashOf e) n = s)
    (open_path : m.Open cfg (cfg.hashOf e) n) (absent : m.Absent cfg e) (fits : m.Fits cfg e) :
    Path cfg m ph (storeEntry cfg s e) (.unbound s n) .commit := by
  have hold := hv.packed s
  have hdead := hf.dead hv
  rw [storeEntry_eq]
  refine (prepare_path hold proper.packed hf).append (.one ?_)
  rw [applyAll_prepare hold proper.packed]
  refine .insert rfl ?_ proper lt at_index (open_path.put fun h => h)
    (absent.put_dead rfl hdead) (fits.put_dead rfl hdead) (hf.put rfl)
  show (m.put s _).put s _ = _
  rw [put_entries_self]

end Write

/-! ## Replacing an entry in place -/

section Replace

variable {cfg : Config} {m : Map} {s : Nat} {e : Entry}

theorem ident_congr {a b : Entry} (hk : a.key = b.key)
    (hl : cfg.mode = .bytestring → cfg.entryKeyLength a = cfg.entryKeyLength b) :
    cfg.ident a = cfg.ident b := by
  unfold Config.ident
  cases hm : cfg.mode with
  | direct => rw [hk]
  | bytestring =>
    dsimp only
    rw [hl hm]
    unfold Config.entryKey
    rw [hk]

theorem sound_iff (hpp : cfg.vmaBits = none) : cfg.Sound e ↔ e.hash = cfg.hashOf e := by
  simp only [Config.Sound, Config.entryHash, hpp]

/-- The key length word of a live slot is replaced. -/
theorem relabel_allowed (hv : m.Valid cfg .idle) (hpp : cfg.vmaBits = none)
    (live : (m.entries s).live = true) (ident : cfg.ident e = cfg.ident (m.entries s)) :
    ∃ k, m.Allowed cfg .idle (.keyLength s e.keyLength) .idle k ∧
      (e.keyLength = (m.entries s).keyLength → k = .quiet) := by
  by_cases hkl : e.keyLength = (m.entries s).keyLength
  · refine ⟨_, .same (s := s) rfl ?_, fun _ => rfl⟩
    rw [apply, hkl]
    exact put_self m s
  · refine ⟨_, .edit (s := s) (e := { m.entries s with keyLength := e.keyLength }) rfl rfl live ?_
      ?_ ?_, fun h => absurd h hkl⟩
    all_goals
      have hlen : cfg.mode = .bytestring →
          cfg.entryKeyLength { m.entries s with keyLength := e.keyLength } =
            cfg.entryKeyLength (m.entries s) := by
        intro hm
        rw [← Config.length_of_ident hm ident]
        simp only [Config.entryKeyLength, hpp]
      have hid : cfg.ident { m.entries s with keyLength := e.keyLength } =
          cfg.ident (m.entries s) := ident_congr rfl hlen
    · refine ⟨live, ?_, fun h => ?_⟩
      · rw [sound_iff hpp, Config.hashOf_eq hid]
        exact (sound_iff hpp).mp (hv.sound s live)
      · rw [hpp] at h
        cases h
    · exact hid
    · intro i hi hm hk
      rw [hlen hm]
      exact hv.unaliased s i live hi hm hk

/-- The value and the key of a live slot are replaced. -/
theorem pair_path (live : (m.entries s).live = true)
    (proper : e.Proper cfg) (ident : cfg.ident e = cfg.ident (m.entries s))
    (fits : m.Fits cfg e) (hl : e.keyLength = (m.entries s).keyLength)
    (hh : e.hash = (m.entries s).hash) :
    ∃ k, Path cfg m .idle (storePair s e) .idle k ∧
      (e.key = (m.entries s).key → k = .commit) := by
  have hlast : ∃ k, (m.apply (.value s e.value)).Allowed cfg .idle (.key s e.key) .idle k ∧
      (e.key = (m.entries s).key → k = .quiet) := by
    by_cases hk : e.key = (m.entries s).key
    · refine ⟨_, .same (s := s) rfl ?_, fun _ => rfl⟩
      simp only [apply, put_put, put_entries_self, hk]
    · refine ⟨_, .edit (s := s) (e := e) rfl ?_ ?_ proper ?_ ?_, fun h => absurd h hk⟩
      · rw [apply, apply, put_entries_self, put_put, put_put]
        congr 1
        ext1
        · rfl
        · rfl
        · exact hl.symm
        · exact hh.symm
      · rw [apply, put_entries_self]
        exact live
      · rw [apply, put_entries_self, ident]
        exact ident_congr rfl fun _ => rfl
      · intro i hi
        by_cases his : i = s
        · rw [his, apply, put_entries_self]
          intro hm hkey
          rw [Config.length_of_ident hm ident]
          rfl
        · rw [apply, put_entries_of_ne m his] at hi ⊢
          exact fits i hi
  obtain ⟨k, hk, hkind⟩ := hlast
  refine ⟨_, .cons (.assign live) (.one hk), fun h => ?_⟩
  rw [hkind h]
  rfl

/-- An entry is written over one with the same key. If their key words and key lengths agree,
the value is all that changes. -/
theorem replace_path (hv : m.Valid cfg .idle)
    (live : (m.entries s).live = true) (proper : e.Proper cfg)
    (ident : cfg.ident e = cfg.ident (m.entries s)) (fits : m.Fits cfg e) :
    ∃ k, Path cfg m .idle (storeEntry cfg s e) .idle k ∧
      (e.key = (m.entries s).key → e.keyLength = (m.entries s).keyLength → k = .commit) := by
  unfold storeEntry storeMemo
  cases hpp : cfg.vmaBits with
  | some bits =>
    have hsome : cfg.vmaBits.isSome = true := by rw [hpp]; rfl
    obtain ⟨h1, h2⟩ := proper.packed hsome
    obtain ⟨h3, h4⟩ := hv.packed s hsome
    obtain ⟨k, hk, hkind⟩ := pair_path live proper ident fits (h1.trans h3.symm)
      (h2.trans h4.symm)
    exact ⟨k, hk, fun h _ => hkind h⟩
  | none =>
    have hhash : e.hash = (m.entries s).hash := by
      rw [(sound_iff hpp).mp proper.sound, (sound_iff hpp).mp (hv.sound s live),
        Config.hashOf_eq ident]
    obtain ⟨k₁, hk₁, hkind₁⟩ := relabel_allowed hv hpp live ident
    have heq : m.apply (.keyLength s e.keyLength) =
        m.put s { m.entries s with keyLength := e.keyLength } := rfl
    have hsame : (m.apply (.keyLength s e.keyLength)).apply (.hash s e.hash) =
        m.apply (.keyLength s e.keyLength) := by
      simp only [apply, put_put, put_entries_self, hhash]
    have hlen : cfg.mode = .bytestring → cfg.entryKeyLength e =
        cfg.entryKeyLength { m.entries s with keyLength := e.keyLength } := by
      intro _
      simp only [Config.entryKeyLength, hpp]
    have hid : cfg.ident e = cfg.ident { m.entries s with keyLength := e.keyLength } := by
      refine ident.trans (ident_congr rfl fun hm => ?_)
      rw [← hlen hm, Config.length_of_ident hm ident]
    have hent : (m.apply (.keyLength s e.keyLength)).entries s =
        { m.entries s with keyLength := e.keyLength } := by rw [heq, put_entries_self]
    obtain ⟨k₃, hk₃, hkind₃⟩ := pair_path (e := e) (s := s) (by rw [hent]; exact live) proper
      (by rw [hent]; exact hid) (by
        intro i hi
        by_cases his : i = s
        · rw [his, hent]
          exact fun hm _ => (hlen hm).symm
        · rw [heq, put_entries_of_ne m his] at hi ⊢
          exact fits i hi) (by rw [hent]) (by rw [hent]; exact hhash)
    refine ⟨_, .cons hk₁ (.cons (.same (s := s) rfl hsame) (hsame.symm ▸ hk₃)), fun h h' => ?_⟩
    rw [hkind₁ h', hkind₃ (by rw [hent]; exact h)]
    rfl

end Replace

/-! ## Moving an entry -/

/-- The entry in `src` can be moved to the tombstone in `dst`, where `e` is to stand for its
key. -/
structure Movable (cfg : Config) (m : Map) (src dst : Nat) (e : Entry) : Prop where
  at_src : (m.entries src).live = true
  at_dst : (m.entries dst).key = keyTombstone
  proper : e.Proper cfg
  ident : cfg.ident (m.entries src) = cfg.ident e
  fits : m.Fits cfg e
  before : m.Before cfg (cfg.hashOf e) dst src
  reach : m.Reaches cfg (cfg.hashOf e) dst

/-- The map after an entry has been moved. -/
def moved (m : Map) (src dst : Nat) (e : Entry) : Map :=
  (m.put dst e).put src ((m.put dst e).buried src)

section Move

variable {cfg : Config} {m : Map} {src dst : Nat} {e : Entry}

theorem Movable.bump (hm : m.Movable cfg src dst e) : (m.apply m.bump).Movable cfg src dst e :=
  { hm with reach := hm.reach.congr rfl rfl rfl rfl }

theorem Movable.memo (hm : m.Movable cfg src dst e) :
    (m.put dst ((m.entries dst).withMemo e)).Movable cfg src dst e := by
  have hdead := not_live_of_tombstone hm.at_dst
  have hsrc := put_entries_of_ne m hm.before.ne ((m.entries dst).withMemo e)
  refine ⟨?_, ?_, hm.proper, ?_, hm.fits.put_dead rfl hdead, hm.before, ?_⟩
  · rw [hsrc]
    exact hm.at_src
  · rw [put_entries_self]
    exact hm.at_dst
  · rw [hsrc]
    exact hm.ident
  · exact hm.reach.put fun h => h

/-- The value and the key of a copy are stored last. -/
theorem copyPair_path (hm : m.Movable cfg src dst e)
    (hl : e.keyLength = (m.entries dst).keyLength) (hh : e.hash = (m.entries dst).hash) :
    Path cfg m (.reusing dst) (storePair dst e) (.copied src dst)
      (if e = m.entries src then .quiet else .rough) := by
  have hdead := not_live_of_tombstone hm.at_dst
  have heq : m.apply (.value dst e.value) =
      m.put dst { e with key := (m.entries dst).key } := by
    simp only [apply, hl, hh]
  have hsrc := put_entries_of_ne m hm.before.ne { e with key := (m.entries dst).key }
  have hcopy := @Allowed.copy cfg (m.put dst { e with key := (m.entries dst).key })
    (.key dst e.key) src dst e rfl
    (by simp only [apply, put_entries_self]) (by rw [hsrc]; exact hm.at_src) hm.proper
    (by rw [hsrc]; exact hm.ident) (hm.fits.put_dead rfl hdead) hm.before
    (hm.reach.put fun h => h)
  rw [hsrc] at hcopy
  refine .cons (.prepare (s := dst) (e := { e with key := (m.entries dst).key }) rfl heq rfl
    hm.proper.packed (.inl rfl)) (.one ?_)
  rw [heq]
  exact hcopy

/-- The copy is complete, the counter changes and the old slot is given up. -/
theorem retire_path {m' : Map} (hm : m' = m.put dst e) (hne : src ≠ dst) :
    Path cfg m' (.copied src dst) [m'.bump, .key src keyTombstone] .idle
      (if e = m.entries src then .quiet else .rough) := by
  have h := Path.cons (@Allowed.signal cfg m' src dst)
    (.one (@Allowed.retire cfg (m'.apply m'.bump) src dst))
  have hdst : (m'.apply m'.bump).entries dst = e := by
    rw [hm]
    exact put_entries_self m dst e
  have hsrc : (m'.apply m'.bump).entries src = m.entries src := by
    rw [hm]
    exact put_entries_of_ne m hne e
  rw [hdst, hsrc] at h
  exact h

theorem gcMove_copy (hv : m.Valid cfg .idle) (src dst : Nat) :
    m.applyAll (m.bump :: storeEntry cfg dst (m.entries src)) =
      (m.apply m.bump).put dst (m.entries src) :=
  applyAll_storeEntry (m := m.apply m.bump) (hv.packed dst) (hv.packed src)

/-- `ck_ht_gc` moves an entry without a gap before the eyes of the readers. -/
theorem gcMove_path (hv : m.Valid cfg .idle) (hm : m.Movable cfg src dst (m.entries src)) :
    Path cfg m .idle (m.gcMove cfg dst src) .idle .quiet := by
  have hreuse := @Allowed.reuse cfg m dst (hv.reach_lt hm.reach) hm.at_dst
  have hmemo : (m.apply m.bump).applyAll (storeMemo cfg dst (m.entries src)) =
      (m.apply m.bump).put dst ((m.entries dst).withMemo (m.entries src)) :=
    applyAll_storeMemo (m := m.apply m.bump) (hv.packed dst) (hv.packed src)
  have hsrc : ((m.apply m.bump).put dst ((m.entries dst).withMemo (m.entries src))).entries src =
      m.entries src := put_entries_of_ne _ hm.before.ne _
  have hpair := copyPair_path hm.bump.memo (by rw [put_entries_self]; rfl)
    (by rw [put_entries_self]; rfl)
  rw [show (m.apply m.bump).entries dst = m.entries dst from rfl, hsrc, if_pos rfl,
    ← hmemo] at hpair
  have hretire := @retire_path cfg _ _ _ _ _ (gcMove_copy hv src dst) hm.before.ne
  rw [show (m.apply m.bump).entries src = m.entries src from rfl, if_pos rfl] at hretire
  exact (Path.cons hreuse ((memo_path (.inl rfl)).append hpair)).append hretire

theorem gcMove_entries (hv : m.Valid cfg .idle) :
    (m.applyAll (m.gcMove cfg dst src)).entries = (m.moved src dst (m.entries src)).entries := by
  unfold gcMove retire
  dsimp only
  rw [applyAll_append, gcMove_copy hv src dst]
  rfl

theorem bumpReuse_tombstone (h : (m.entries dst).key = keyTombstone) :
    m.bumpReuse dst = [m.bump] := if_pos h

/-- The map once `ck_ht_set_spmc` has written the copy. -/
theorem setMove_copy (hv : m.Valid cfg .idle) (hm : m.Movable cfg src dst e) :
    m.applyAll (storeMemo cfg dst e ++ (m.bumpReuse dst ++ storePair dst e)) =
      (m.apply m.bump).put dst e := by
  rw [bumpReuse_tombstone hm.at_dst, applyAll_append,
    applyAll_storeMemo (hv.packed dst) hm.proper.packed]
  simp only [storePair, applyAll, List.cons_append, List.nil_append, List.foldl, apply, bump, put,
    Function.update_self, Function.update_idem, Entry.withMemo]

/-- `ck_ht_set_spmc` moves an entry. -/
theorem setMove_path (hv : m.Valid cfg .idle) (hm : m.Movable cfg src dst e) :
    ∃ k, Path cfg m .idle (m.setMove cfg dst src e) .idle k := by
  obtain ⟨k, hspoil⟩ := @memo_spoils cfg m dst e (not_live_of_tombstone hm.at_dst)
  have hmemo := applyAll_storeMemo (hv.packed dst) hm.proper.packed
  have hreuse := @Allowed.reuse cfg (m.put dst ((m.entries dst).withMemo e)) dst
    (hv.reach_lt hm.reach) hm.memo.at_dst
  have hpair := copyPair_path hm.memo.bump
    (by
      show _ = ((m.put dst _).entries dst).keyLength
      rw [put_entries_self]
      rfl)
    (by
      show _ = ((m.put dst _).entries dst).hash
      rw [put_entries_self]
      rfl)
  have hretire := @retire_path cfg _ _ _ _ _ (setMove_copy hv hm) hm.before.ne
  have hrest : ∃ k', Path cfg (m.applyAll (storeMemo cfg dst e)) .idle
      (m.bumpReuse dst ++ storePair dst e) (.copied src dst) k' := by
    rw [bumpReuse_tombstone hm.at_dst, hmemo]
    exact ⟨_, .cons hreuse hpair⟩
  obtain ⟨k', hrest⟩ := hrest
  exact ⟨_, (hspoil.append hrest).append hretire⟩

theorem setMove_entries (hv : m.Valid cfg .idle) (hm : m.Movable cfg src dst e) :
    (m.applyAll (m.setMove cfg dst src e)).entries = (m.moved src dst e).entries := by
  unfold setMove retire
  dsimp only
  rw [applyAll_append, setMove_copy hv hm]
  rfl

end Move

end Map

end ConcurrencyKit.Ht
