import ConcurrencyKit.Ht.Stores
import ConcurrencyKit.Misc.Tally

/-!
# Insertion, replacement and deletion

What the store sequences of `ck_ht_put_spmc`, `ck_ht_set_spmc` and `ck_ht_remove_spmc` do, as three
facts about each: the stores are allowed in order, what becomes of the stored associations, and
that `n_entries` still counts the live slots.
-/

namespace ConcurrencyKit.Ht

namespace Map

/-- `n_entries` counts the live slots. -/
def Accounts (m : Map) : Prop := m.nEntries = tally Entry.live m.entries m.capacity

/-- The associations after `e` has taken the place of its key. -/
def assigned (cfg : Config) (objs : Set Entry) (e : Entry) : Set Entry :=
  {w | w = e ∨ (w ∈ objs ∧ cfg.ident w ≠ cfg.ident e)}

/-- The associations without that of the key of `x`. -/
def erased (cfg : Config) (objs : Set Entry) (x : Entry) : Set Entry :=
  {w | w ∈ objs ∧ cfg.ident w ≠ cfg.ident x}

/-! ## The associations and their number -/

section Effects

variable {cfg : Config} {m m' : Map} {ph : Phase} {s : Nat} {e : Entry}

theorem objects_congr (h : m'.entries = m.entries) : m'.objects = m.objects := by
  unfold objects
  rw [h]

theorem Accounts.congr (ha : m.Accounts) (he : m'.entries = m.entries)
    (hc : m'.capacity = m.capacity) (hn : m'.nEntries = m.nEntries) : m'.Accounts := by
  unfold Accounts
  rw [he, hc, hn]
  exact ha

/-- Slot `s` holds `e`, no other slot holds its key, and the other keys are where they were. -/
theorem objects_assigned (hs : m'.entries s = e) (live : e.live = true)
    (hback : ∀ i, i ≠ s → (m'.entries i).live = true →
      m'.entries i = m.entries i ∧ cfg.ident (m.entries i) ≠ cfg.ident e)
    (hkeep : ∀ i, (m.entries i).live = true → cfg.ident (m.entries i) ≠ cfg.ident e →
      m'.entries i = m.entries i) : m'.objects = assigned cfg m.objects e := by
  ext w
  constructor
  · rintro ⟨hl, i, rfl⟩
    by_cases his : i = s
    · left
      rw [his]
      exact hs
    · obtain ⟨heq, hne⟩ := hback i his hl
      rw [heq] at hl ⊢
      exact .inr ⟨⟨hl, i, rfl⟩, hne⟩
  · rintro (rfl | ⟨⟨hl, i, rfl⟩, hne⟩)
    · exact ⟨live, s, hs⟩
    · exact ⟨hl, i, hkeep i hl hne⟩

theorem objects_fill (he : m'.entries = (m.put s e).entries) (live : e.live = true)
    (dead : (m.entries s).live = false) (absent : m.Absent cfg e) :
    m'.objects = assigned cfg m.objects e := by
  refine objects_assigned (s := s) ?_ live ?_ ?_
  · rw [he, put_entries_self]
  · intro i hi hl
    rw [he, put_entries_of_ne m hi] at hl ⊢
    exact ⟨rfl, absent i hl⟩
  · intro i hl _
    rw [he, put_entries_of_ne]
    rintro rfl
    rw [dead] at hl
    cases hl

theorem objects_replace (hv : m.Valid cfg .idle) (he : m'.entries = (m.put s e).entries)
    (live : (m.entries s).live = true) (hlive : e.live = true)
    (ident : cfg.ident e = cfg.ident (m.entries s)) :
    m'.objects = assigned cfg m.objects e := by
  refine objects_assigned (s := s) ?_ hlive ?_ ?_
  · rw [he, put_entries_self]
  · intro i hi hl
    rw [he, put_entries_of_ne m hi] at hl ⊢
    exact ⟨rfl, fun hid => hi (hv.unique i s hl live nofun nofun (hid.trans ident))⟩
  · intro i hl hne
    rw [he, put_entries_of_ne]
    rintro rfl
    exact hne ident.symm

theorem moved_entries {src dst : Nat} (m : Map) (e : Entry) (hne : src ≠ dst) (i : Nat) :
    (m.moved src dst e).entries i =
      if i = src then m.buried src else if i = dst then e else m.entries i := by
  unfold moved buried
  rw [put_entries_of_ne m hne]
  by_cases hi : i = src
  · rw [if_pos hi, hi, put_entries_self]
  · rw [if_neg hi, put_entries_of_ne _ hi]
    by_cases hi' : i = dst
    · rw [if_pos hi', hi', put_entries_self]
    · rw [if_neg hi', put_entries_of_ne _ hi']

theorem objects_move {src dst : Nat} (hv : m.Valid cfg .idle) (hm : m.Movable cfg src dst e)
    (he : m'.entries = (m.moved src dst e).entries) : m'.objects = assigned cfg m.objects e := by
  have hent : ∀ i, m'.entries i =
      if i = src then m.buried src else if i = dst then e else m.entries i := by
    intro i
    rw [he]
    exact moved_entries m e hm.before.ne i
  refine objects_assigned (s := dst) ?_ hm.proper.live ?_ ?_
  · rw [hent, if_neg hm.before.ne.symm, if_pos rfl]
  · intro i hi hl
    rw [hent] at hl ⊢
    by_cases his : i = src
    · rw [if_pos his, buried_dead] at hl
      cases hl
    · rw [if_neg his, if_neg hi] at hl ⊢
      refine ⟨rfl, fun hid => his ?_⟩
      exact hv.unique i src hl hm.at_src nofun nofun (hid.trans hm.ident.symm)
  · intro i hl hne
    rw [hent, if_neg, if_neg]
    · rintro rfl
      rw [not_live_of_tombstone hm.at_dst] at hl
      cases hl
    · rintro rfl
      exact hne hm.ident

theorem objects_bury {x : Entry} (hv : m.Valid cfg .idle)
    (he : m'.entries = (m.put s (m.buried s)).entries) (live : (m.entries s).live = true)
    (ident : cfg.ident (m.entries s) = cfg.ident x) : m'.objects = erased cfg m.objects x := by
  ext w
  constructor
  · rintro ⟨hl, i, rfl⟩
    rw [he] at hl ⊢
    by_cases his : i = s
    · rw [his, put_entries_self, buried_dead] at hl
      cases hl
    · rw [put_entries_of_ne m his] at hl ⊢
      refine ⟨⟨hl, i, rfl⟩, fun hid => his ?_⟩
      exact hv.unique i s hl live nofun nofun (hid.trans ident.symm)
  · rintro ⟨⟨hl, i, rfl⟩, hne⟩
    refine ⟨hl, i, ?_⟩
    rw [he, put_entries_of_ne]
    rintro rfl
    exact hne ident

/-- An association takes its own place. -/
theorem Valid.assigned_self (hv : m.Valid cfg .idle) {s : Nat} (hs : (m.entries s).live = true) :
    assigned cfg m.objects (m.entries s) = m.objects := by
  ext w
  constructor
  · rintro (rfl | ⟨hw, -⟩)
    · exact ⟨hs, s, rfl⟩
    · exact hw
  · rintro ⟨hl, i, rfl⟩
    by_cases hid : cfg.ident (m.entries i) = cfg.ident (m.entries s)
    · rw [hv.unique i s hl hs nofun nofun hid]
      exact .inl rfl
    · exact .inr ⟨⟨hl, i, rfl⟩, hid⟩

/-- The count after a store to a slot, given what the slot held and holds. -/
theorem Accounts.put (ha : m.Accounts) (hs : s < m.capacity)
    (he : m'.entries = (m.put s e).entries) (hc : m'.capacity = m.capacity)
    (hn : m'.nEntries + (if (m.entries s).live = true then 1 else 0) =
      m.nEntries + if e.live = true then 1 else 0) : m'.Accounts := by
  have hupd := tally_update Entry.live m.entries hs e
  unfold Accounts at ha ⊢
  rw [he, hc]
  show m'.nEntries = tally Entry.live (Function.update m.entries s e) m.capacity
  omega

theorem Accounts.move {src dst : Nat} (ha : m.Accounts) (hv : m.Valid cfg .idle)
    (hm : m.Movable cfg src dst e) (he : m'.entries = (m.moved src dst e).entries)
    (hc : m'.capacity = m.capacity) (hn : m'.nEntries = m.nEntries) : m'.Accounts := by
  have hcopied : ({ m.put dst e with nEntries := m.nEntries + 1 } : Map).Accounts := by
    refine ha.put (s := dst) (e := e) (hv.reach_lt hm.reach) rfl rfl ?_
    rw [not_live_of_tombstone hm.at_dst, hm.proper.live]
    rfl
  refine hcopied.put (s := src) (e := (m.put dst e).buried src) (hv.live_lt hm.at_src) he hc ?_
  rw [buried_dead]
  show m'.nEntries + (if ((m.put dst e).entries src).live = true then 1 else 0) = m.nEntries + 1 + _
  rw [put_entries_of_ne m hm.before.ne, hm.at_src, hn]
  rfl

/-- The counter does not wrap when a live slot is given up. -/
theorem Accounts.dec_nEntries (ha : m.Accounts) (hv : m.Valid cfg ph)
    (hs : (m.entries s).live = true) : dec 64 m.nEntries + 1 = m.nEntries := by
  have hpos : 0 < tally Entry.live m.entries m.capacity := tally_pos (hv.live_lt hs) hs
  have hle := tally_le Entry.live m.entries m.capacity
  have hcap := hv.capacity_le
  unfold Accounts at ha
  rw [dec_of_pos (by omega) (by omega)]
  omega

end Effects

/-! ## The store sequences of the operations -/

/-- A sequence of allowed stores, with the associations it leaves. -/
structure Change (cfg : Config) (m : Map) (sts : List Store) (objs : Set Entry) (k : Kind) :
    Prop where
  path : Path cfg m .idle sts .idle k
  objects : (m.applyAll sts).objects = objs
  accounts : m.Accounts → (m.applyAll sts).Accounts
  capacity : (m.applyAll sts).capacity = m.capacity

section Changes

variable {cfg : Config} {m m' : Map} {ph : Phase} {s n : Nat} {h : Word} {e : Entry}

theorem boundSet_congr (hmax : m'.probeMaximum = m.probeMaximum)
    (hbound : m'.probeBound = m.probeBound) (hcap : m'.capacity = m.capacity) (h : Word)
    (n : Nat) : m'.boundSet h n = m.boundSet h n := by
  unfold boundSet home
  rw [hmax, hbound, hcap]

/-- Raising the bounds after a change. -/
theorem Change.boundSet {sts : List Store} {objs : Set Entry} {k : Kind}
    (hv : m.Valid cfg .idle) (hc : Change cfg m sts objs k)
    (hmax : (m.applyAll sts).probeMaximum = m.probeMaximum)
    (hbound : (m.applyAll sts).probeBound = m.probeBound) (h : Word) (n : Nat) :
    Change cfg m (sts ++ m.boundSet h n) objs k := by
  have heq := boundSet_congr hmax hbound hc.capacity h n
  have hset := boundSet_path (hc.path.valid hv) h n
  rw [heq] at hset
  have happ : m.applyAll (sts ++ m.boundSet h n) =
      (m.applyAll sts).applyAll ((m.applyAll sts).boundSet h n) := by
    rw [applyAll_append, heq]
  have hpath := hc.path.append hset
  rw [Kind.join_quiet] at hpath
  refine ⟨hpath, ?_, fun ha => ?_, ?_⟩
  · rw [happ, objects_congr (boundSet_entries h n), hc.objects]
  · rw [happ]
    exact (hc.accounts ha).congr (boundSet_entries h n) (boundSet_capacity h n)
      (boundSet_nEntries h n)
  · rw [happ, boundSet_capacity, hc.capacity]

/-- The stores of a new key and its count. -/
def countedStores (cfg : Config) (m : Map) (s : Nat) (e : Entry) : List Store :=
  storeEntry cfg s e ++ [.nEntries (m.nEntries + 1)]

theorem applyAll_counted (hv : m.Valid cfg ph) (hp : cfg.Packed e) :
    m.applyAll (m.countedStores cfg s e) = { m.put s e with nEntries := m.nEntries + 1 } := by
  rw [countedStores, applyAll_append, applyAll_storeEntry (hv.packed s) hp]
  rfl

theorem Accounts.filled (ha : m.Accounts) (hs : s < m.capacity) (live : e.live = true)
    (dead : (m.entries s).live = false) (he : m'.entries = (m.put s e).entries)
    (hc : m'.capacity = m.capacity) (hn : m'.nEntries = m.nEntries + 1) : m'.Accounts := by
  refine ha.put hs he hc ?_
  rw [dead, live, hn]
  rfl

/-- What a new key needs of the slot it goes to, at index `n` of its probe sequence. -/
structure Vacancy (cfg : Config) (m : Map) (e : Entry) (n : Nat) : Prop where
  lt : n < m.probeSlots cfg
  open_path : m.Open cfg (cfg.hashOf e) n
  proper : e.Proper cfg
  absent : m.Absent cfg e
  fits : m.Fits cfg e

theorem Vacancy.congr (hv : m.Vacancy cfg e n) (he : m'.entries = m.entries)
    (hc : m'.capacity = m.capacity) : m'.Vacancy cfg e n where
  lt := by
    unfold probeSlots probeLimit
    rw [hc]
    exact hv.lt
  open_path := by
    unfold Open word
    rw [he, hc]
    exact hv.open_path
  proper := hv.proper
  absent := by
    unfold Absent
    rw [he]
    exact hv.absent
  fits := by
    unfold Fits
    rw [he]
    exact hv.fits

/-- The slot at probe index `n` of the hash value of `e`. -/
def spot (cfg : Config) (m : Map) (e : Entry) (n : Nat) : Nat :=
  cfg.cursor m.capacity (cfg.hashOf e) n

/-- `ck_ht_put_spmc` raises the bounds first. -/
theorem put_path (hv : m.Valid cfg ph) (hvac : m.Vacancy cfg e n)
    (hf : m.Free ph (m.spot cfg e n)) :
    Path cfg m ph (m.boundSet (cfg.hashOf e) (n + 1) ++ m.countedStores cfg (m.spot cfg e n) e)
      .idle .commit := by
  have hset := boundSet_path hv (cfg.hashOf e) (n + 1)
  have hvac' := hvac.congr (boundSet_entries (m := m) (cfg.hashOf e) (n + 1))
    (boundSet_capacity (cfg.hashOf e) (n + 1))
  have hf' : (m.applyAll (m.boundSet (cfg.hashOf e) (n + 1))).Free ph (m.spot cfg e n) := by
    unfold Free
    rw [boundSet_entries]
    exact hf
  have hreach : (m.applyAll (m.boundSet (cfg.hashOf e) (n + 1))).Reaches cfg (cfg.hashOf e)
      (m.spot cfg e n) :=
    ⟨n, hvac'.lt, by rw [boundSet_capacity, spot], covers_boundSet m _ n, hvac'.open_path⟩
  have hfill := fill_path (hset.valid hv) hf' hvac.proper hreach hvac'.absent hvac'.fits
  exact hset.append (hfill.append (.one (.nEntries _ _)))

/-- `ck_ht_set_spmc` raises the bounds last. -/
theorem set_path (hv : m.Valid cfg ph) (hvac : m.Vacancy cfg e n)
    (hf : m.Free ph (m.spot cfg e n)) :
    Path cfg m ph (m.countedStores cfg (m.spot cfg e n) e ++ m.boundSet (cfg.hashOf e) (n + 1))
      .idle .commit := by
  have hfinal : m.applyAll (m.countedStores cfg (m.spot cfg e n) e) =
      { m.put (m.spot cfg e n) e with nEntries := m.nEntries + 1 } :=
    applyAll_counted hv hvac.proper.packed
  have hbound : (m.applyAll (m.countedStores cfg (m.spot cfg e n) e)).boundSet (cfg.hashOf e)
      (n + 1) = m.boundSet (cfg.hashOf e) (n + 1) := by
    rw [hfinal]
    exact boundSet_congr rfl rfl rfl _ _
  by_cases hcov : m.Covers (cfg.hashOf e) n
  · have hfill := (fill_path hv hf hvac.proper ⟨n, hvac.lt, rfl, hcov, hvac.open_path⟩
      hvac.absent hvac.fits).append (.one (.nEntries _ (m.nEntries + 1)))
    have hset := boundSet_path (hfill.valid hv) (cfg.hashOf e) (n + 1)
    change Path cfg _ _ ((m.applyAll (m.countedStores cfg _ e)).boundSet _ _) _ _ at hset
    rw [hbound] at hset
    exact hfill.append hset
  · -- the key is stored before the readers look that far
    have hins := (insert_path hv hf hvac.proper hvac.lt rfl hvac.open_path hvac.absent
      hvac.fits).append (.one (.nEntries _ (m.nEntries + 1)))
    have hself : (m.applyAll (m.countedStores cfg (m.spot cfg e n) e)).entries
        (m.spot cfg e n) = e := by
      rw [hfinal]
      exact put_entries_self m _ e
    have hset := cover_path (hins.valid hv) (by
      change ¬ (m.applyAll (m.countedStores cfg (m.spot cfg e n) e)).Covers
        (cfg.hashOf ((m.applyAll (m.countedStores cfg (m.spot cfg e n) e)).entries
          (m.spot cfg e n))) n
      rw [hself, hfinal]
      exact hcov)
    change Path cfg _ _ ((m.applyAll (m.countedStores cfg (m.spot cfg e n) e)).boundSet
      (cfg.hashOf ((m.applyAll (m.countedStores cfg (m.spot cfg e n) e)).entries
        (m.spot cfg e n))) _) _ _ at hset
    rw [hself, hbound] at hset
    exact hins.append hset

/-- The effect of a new key, whatever else is stored around it. -/
theorem Change.of_filled {sts : List Store} (hv : m.Valid cfg .idle) (hvac : m.Vacancy cfg e n)
    (dead : (m.entries (m.spot cfg e n)).live = false)
    (hpath : Path cfg m .idle sts .idle .commit)
    (he : (m.applyAll sts).entries = (m.put (m.spot cfg e n) e).entries)
    (hc : (m.applyAll sts).capacity = m.capacity)
    (hn : (m.applyAll sts).nEntries = m.nEntries + 1) :
    Change cfg m sts (assigned cfg m.objects e) .commit where
  path := hpath
  objects := objects_fill he hvac.proper.live dead hvac.absent
  accounts ha := ha.filled (hv.cursor_lt _ n) hvac.proper.live dead he hc hn
  capacity := hc

theorem applyAll_put (hv : m.Valid cfg ph) (hp : cfg.Packed e) :
    (m.applyAll (m.boundSet h n ++ m.countedStores cfg s e)).entries = (m.put s e).entries ∧
      (m.applyAll (m.boundSet h n ++ m.countedStores cfg s e)).capacity = m.capacity ∧
      (m.applyAll (m.boundSet h n ++ m.countedStores cfg s e)).nEntries = m.nEntries + 1 := by
  have hcount := applyAll_counted (s := s) ((boundSet_path hv h n).valid hv) hp
  unfold countedStores at hcount ⊢
  rw [boundSet_nEntries] at hcount
  rw [applyAll_append, hcount]
  refine ⟨?_, boundSet_capacity h n, rfl⟩
  show Function.update (m.applyAll (m.boundSet h n)).entries s e = _
  rw [boundSet_entries]
  rfl

theorem applyAll_set (hv : m.Valid cfg ph) (hp : cfg.Packed e) :
    (m.applyAll (m.countedStores cfg s e ++ m.boundSet h n)).entries = (m.put s e).entries ∧
      (m.applyAll (m.countedStores cfg s e ++ m.boundSet h n)).capacity = m.capacity ∧
      (m.applyAll (m.countedStores cfg s e ++ m.boundSet h n)).nEntries = m.nEntries + 1 := by
  have hfinal := applyAll_counted (s := s) hv hp
  have hbound : m.boundSet h n = (m.applyAll (m.countedStores cfg s e)).boundSet h n := by
    rw [hfinal]
    exact boundSet_congr rfl rfl rfl h n
  rw [applyAll_append, hbound, boundSet_entries, boundSet_capacity, boundSet_nEntries, hfinal]
  exact ⟨rfl, rfl, rfl⟩

/-- `ck_ht_put_spmc` fills an empty slot. -/
theorem change_put_empty (hv : m.Valid cfg .idle) (hvac : m.Vacancy cfg e n)
    (empty : (m.entries (m.spot cfg e n)).key = keyEmpty) :
    Change cfg m (m.boundSet (cfg.hashOf e) (n + 1) ++ m.countedStores cfg (m.spot cfg e n) e)
      (assigned cfg m.objects e) .commit := by
  obtain ⟨he, hc, hn⟩ := @applyAll_put cfg m .idle (m.spot cfg e n) (n + 1) (cfg.hashOf e) e hv
    hvac.proper.packed
  exact .of_filled hv hvac (not_live_of_empty empty) (put_path hv hvac (.inr ⟨rfl, empty⟩)) he hc
    hn

/-- `ck_ht_put_spmc` fills a tombstone. -/
theorem change_put_tombstone (hv : m.Valid cfg .idle) (hvac : m.Vacancy cfg e n)
    (dead : (m.entries (m.spot cfg e n)).key = keyTombstone) :
    Change cfg m (m.bump :: (m.boundSet (cfg.hashOf e) (n + 1) ++
      m.countedStores cfg (m.spot cfg e n) e)) (assigned cfg m.objects e) .commit := by
  have hreuse := @Allowed.reuse cfg m _ (hv.cursor_lt (cfg.hashOf e) n) dead
  have hv' := hreuse.valid hv
  obtain ⟨he, hc, hn⟩ := @applyAll_put cfg (m.apply m.bump) _ (m.spot cfg e n) (n + 1)
    (cfg.hashOf e) e hv' hvac.proper.packed
  exact .of_filled hv hvac (not_live_of_tombstone dead)
    (.cons hreuse (put_path hv' (hvac.congr rfl rfl) (.inl rfl))) he hc hn

/-- `ck_ht_set_spmc` fills an empty slot. -/
theorem change_set_empty (hv : m.Valid cfg .idle) (hvac : m.Vacancy cfg e n)
    (empty : (m.entries (m.spot cfg e n)).key = keyEmpty) :
    Change cfg m (m.countedStores cfg (m.spot cfg e n) e ++ m.boundSet (cfg.hashOf e) (n + 1))
      (assigned cfg m.objects e) .commit := by
  obtain ⟨he, hc, hn⟩ := @applyAll_set cfg m .idle (m.spot cfg e n) (n + 1) (cfg.hashOf e) e hv
    hvac.proper.packed
  exact .of_filled hv hvac (not_live_of_empty empty) (set_path hv hvac (.inr ⟨rfl, empty⟩)) he hc
    hn

/-- `ck_ht_set_spmc` fills a tombstone. -/
theorem change_set_tombstone (hv : m.Valid cfg .idle) (hvac : m.Vacancy cfg e n)
    (dead : (m.entries (m.spot cfg e n)).key = keyTombstone) :
    Change cfg m (m.bump :: (m.countedStores cfg (m.spot cfg e n) e ++
      m.boundSet (cfg.hashOf e) (n + 1))) (assigned cfg m.objects e) .commit := by
  have hreuse := @Allowed.reuse cfg m _ (hv.cursor_lt (cfg.hashOf e) n) dead
  have hv' := hreuse.valid hv
  obtain ⟨he, hc, hn⟩ := @applyAll_set cfg (m.apply m.bump) _ (m.spot cfg e n) (n + 1)
    (cfg.hashOf e) e hv' hvac.proper.packed
  exact .of_filled hv hvac (not_live_of_tombstone dead)
    (.cons hreuse (set_path hv' (hvac.congr rfl rfl) (.inl rfl))) he hc hn

/-- `ck_ht_set_spmc` replaces an entry in place. -/
theorem change_replace (hv : m.Valid cfg .idle) (live : (m.entries s).live = true)
    (proper : e.Proper cfg) (ident : cfg.ident e = cfg.ident (m.entries s))
    (fits : m.Fits cfg e) (h : Word) (n : Nat) :
    ∃ k, Change cfg m (storeEntry cfg s e ++ m.boundSet h n) (assigned cfg m.objects e) k ∧
      (e.key = (m.entries s).key → e.keyLength = (m.entries s).keyLength → k = .commit) := by
  obtain ⟨k, hpath, hkind⟩ := replace_path hv live proper ident fits
  have hfinal := applyAll_storeEntry (hv.packed s) proper.packed
  refine ⟨k, Change.boundSet hv ⟨hpath, ?_, fun ha => ?_, ?_⟩ ?_ ?_ h n, hkind⟩
  · exact objects_replace hv (by rw [hfinal]) live proper.live ident
  · refine ha.put (s := s) (e := e) (hv.live_lt live) (by rw [hfinal]) (by rw [hfinal]; rfl) ?_
    rw [hfinal, live, proper.live]
    rfl
  all_goals
    rw [hfinal]
    rfl

theorem setMove_frame (hv : m.Valid cfg .idle) {src dst : Nat} (hm : m.Movable cfg src dst e) :
    (m.applyAll (m.setMove cfg dst src e)).capacity = m.capacity ∧
      (m.applyAll (m.setMove cfg dst src e)).nEntries = m.nEntries ∧
      (m.applyAll (m.setMove cfg dst src e)).probeMaximum = m.probeMaximum ∧
      (m.applyAll (m.setMove cfg dst src e)).probeBound = m.probeBound := by
  unfold setMove retire
  dsimp only
  rw [applyAll_append, setMove_copy hv hm]
  exact ⟨rfl, rfl, rfl, rfl⟩

/-- `ck_ht_set_spmc` moves the entry of a key to an earlier tombstone. -/
theorem change_setMove (hv : m.Valid cfg .idle) {src dst : Nat} (hm : m.Movable cfg src dst e)
    (h : Word) (n : Nat) :
    ∃ k, Change cfg m (m.setMove cfg dst src e ++ m.boundSet h n) (assigned cfg m.objects e) k := by
  obtain ⟨k, hpath⟩ := setMove_path hv hm
  obtain ⟨hc, hn, hmax, hbound⟩ := setMove_frame hv hm
  have he := setMove_entries hv hm
  refine ⟨k, Change.boundSet hv ⟨hpath, objects_move hv hm he, fun ha => ?_, hc⟩ hmax hbound h n⟩
  exact ha.move hv hm he hc hn

theorem gcMove_frame (hv : m.Valid cfg .idle) {src dst : Nat} :
    (m.applyAll (m.gcMove cfg dst src)).capacity = m.capacity ∧
      (m.applyAll (m.gcMove cfg dst src)).nEntries = m.nEntries ∧
      (m.applyAll (m.gcMove cfg dst src)).probeMaximum = m.probeMaximum ∧
      (m.applyAll (m.gcMove cfg dst src)).probeBound = m.probeBound := by
  unfold gcMove retire
  dsimp only
  rw [applyAll_append, gcMove_copy hv src dst]
  exact ⟨rfl, rfl, rfl, rfl⟩

/-- `ck_ht_gc` moves an entry. -/
theorem change_gcMove (hv : m.Valid cfg .idle) {src dst : Nat}
    (hm : m.Movable cfg src dst (m.entries src)) :
    Change cfg m (m.gcMove cfg dst src) m.objects .quiet where
  path := gcMove_path hv hm
  objects := (objects_move hv hm (gcMove_entries hv)).trans (hv.assigned_self hm.at_src)
  accounts ha := ha.move hv hm (gcMove_entries hv) (gcMove_frame hv).1 (gcMove_frame hv).2.1
  capacity := (gcMove_frame hv).1

/-- `ck_ht_remove_spmc` deletes the entry of a key. -/
theorem change_remove {x : Entry} (hv : m.Valid cfg .idle) (live : (m.entries s).live = true)
    (ident : cfg.ident (m.entries s) = cfg.ident x) {count : Nat}
    (hcount : m.Accounts → count + 1 = m.nEntries) :
    Change cfg m [.key s keyTombstone, .nEntries count] (erased cfg m.objects x) .commit where
  path := .cons (.remove live) (.one (.nEntries _ _))
  objects := objects_bury hv rfl live ident
  accounts ha := by
    refine ha.put (s := s) (e := m.buried s) (hv.live_lt live) rfl rfl ?_
    rw [live, buried_dead]
    exact hcount ha
  capacity := rfl

end Changes

/-! ## The outcomes of a probe -/

section Outcomes

variable {cfg : Config} {m : Map} {e : Entry} {r : ProbeResult}

/-- What the callers establish for the entry of a call. -/
structure Storable (cfg : Config) (m : Map) (e : Entry) : Prop where
  proper : e.Proper cfg
  fits : m.Fits cfg e

/-- The probe found the key. -/
def Finds (r : ProbeResult) : Prop := r.cursor ≠ none ∧ r.snapshot.key ≠ keyEmpty

/-- The key is in the slot a probe ended at, or nowhere. -/
theorem Walked.present (hv : m.Valid cfg .idle) (hcov : cfg.Covered) (fits : m.Fits cfg e)
    {limit : Nat} (hw : m.Walked cfg (cfg.hashOf e) e limit r) (hf : Finds r) :
    ∃ s, r.cursor = some s ∧ r.snapshot = m.entries s ∧ (m.entries s).live = true ∧
      cfg.ident (m.entries s) = cfg.ident e := by
  cases hw with
  | found lt path hit first =>
    exact ⟨_, rfl, rfl, hit_live hit, (hv.hit_iff hcov fits (hit_live hit)).mp hit⟩
  | vacant lt path empty first => exact absurd empty hf.2
  | missed path le past first => exact absurd rfl hf.1

theorem Walked.absent (hv : m.Valid cfg .idle) (hcov : cfg.Covered) (fits : m.Fits cfg e)
    {limit : Nat} (hlimit : limit = typeMax ∨ limit = m.boundGet (cfg.hashOf e))
    (hw : m.Walked cfg (cfg.hashOf e) e limit r) (hf : ¬ Finds r) : m.Absent cfg e := by
  cases hw with
  | found lt path hit first =>
    exact absurd ⟨nofun, (ne_of_live (hit_live hit)).1⟩ hf
  | vacant lt path empty first => exact hv.absent_of_clear hcov fits path (.inr (.inr empty))
  | missed path le past first => exact hv.absent_of_missed hcov fits hlimit path le past

theorem Storable.vacancy (hst : m.Storable cfg e) (absent : m.Absent cfg e) {n k : Nat}
    (hc : m.Clear cfg (cfg.hashOf e) e n) (hk : k ≤ n) (hlt : k < m.probeSlots cfg) :
    m.Vacancy cfg e k :=
  ⟨hlt, hc.open_path.mono hk, hst.proper, absent, hst.fits⟩

/-- `ck_ht_put_spmc` stores an absent key. -/
theorem change_put (hv : m.Valid cfg .idle) (hcov : cfg.Covered) (hst : m.Storable cfg e)
    (hw : m.Walked cfg (cfg.hashOf e) e typeMax r) (hf : ¬ Finds r)
    (hslot : ¬ (r.cursor = none ∧ r.available = none)) :
    Change cfg m (m.putStores cfg (cfg.hashOf e) e r) (assigned cfg m.objects e) .commit := by
  have absent := hw.absent hv hcov hst.fits (.inl rfl) hf
  cases hw with
  | found lt path hit first => exact absurd ⟨nofun, (ne_of_live (hit_live hit)).1⟩ hf
  | vacant lt path empty first =>
    rcases first with ⟨rfl, rfl⟩ | ⟨p, hp, hword, rfl, rfl⟩
    · exact change_put_empty hv (hst.vacancy absent path le_rfl lt) empty
    · exact change_put_tombstone hv (hst.vacancy absent path hp.le (by omega)) hword
  | missed path le past first =>
    rcases first with ⟨rfl, rfl⟩ | ⟨p, hp, hword, rfl, rfl⟩
    · exact absurd ⟨rfl, rfl⟩ hslot
    · exact change_put_tombstone hv (hst.vacancy absent path hp.le (by omega)) hword

/-- The entry of a present key is where its lookups find it without passing a tombstone, and `e`
has its key and key length words. -/
def Settled (cfg : Config) (m : Map) (e : Entry) : Prop :=
  ∀ n, m.Clear cfg (cfg.hashOf e) e n →
    cfg.hit (cfg.hashOf e) e (m.word cfg (cfg.hashOf e) n) = true →
    (∀ p < n, (m.word cfg (cfg.hashOf e) p).key ≠ keyTombstone) ∧
      e.key = (m.word cfg (cfg.hashOf e) n).key ∧
      e.keyLength = (m.word cfg (cfg.hashOf e) n).keyLength

/-- A tombstone before the slot of a key can take its entry. -/
theorem Storable.movable (hst : m.Storable cfg e) (hv : m.Valid cfg .idle) {n p : Nat}
    (path : m.Clear cfg (cfg.hashOf e) e n)
    (hit : cfg.hit (cfg.hashOf e) e (m.word cfg (cfg.hashOf e) n) = true)
    (ident : cfg.ident (m.word cfg (cfg.hashOf e) n) = cfg.ident e) (lt : n < m.probeSlots cfg)
    (hp : p < n) (dead : (m.word cfg (cfg.hashOf e) p).key = keyTombstone) :
    m.Movable cfg (m.spot cfg e n) (m.spot cfg e p) e where
  at_src := hit_live hit
  at_dst := dead
  proper := hst.proper
  ident := ident
  fits := hst.fits
  before := path.before hit hp
  reach := ⟨p, by omega, rfl, (hv.covers_found path hit ident).mono hp.le,
    path.open_path.mono hp.le⟩

theorem setStores_tombstone {candidate priority : Nat}
    (hc : r.cursor.or r.available = some candidate) (hp : r.available = some priority)
    (hdead : (m.entries candidate).live = false)
    (hkey : (m.entries candidate).key = keyEmpty ∨ candidate = priority)
    (ht : (m.entries priority).key = keyTombstone) :
    m.setStores cfg e r = m.bump :: m.countedStores cfg priority e := by
  unfold setStores countedStores
  rw [hc, hp]
  dsimp only
  rw [if_neg, hdead, bumpReuse_tombstone ht]
  · rfl
  · rintro ⟨h1, h2⟩
    rcases hkey with h | h
    · exact h1 h
    · exact h2 h

/-- `ck_ht_set_spmc` associates a key. -/
theorem change_set (hv : m.Valid cfg .idle) (hcov : cfg.Covered) (hst : m.Storable cfg e)
    (hw : m.Walked cfg (cfg.hashOf e) e typeMax r)
    (hslot : ¬ (r.cursor = none ∧ r.available = none)) :
    ∃ k, Change cfg m (m.setStores cfg e r ++ m.boundSet (cfg.hashOf e)
        (if r.available.isSome then r.probesWr else r.probes)) (assigned cfg m.objects e) k ∧
      (m.Settled cfg e → k = .commit) := by
  have habs := hw.absent hv hcov hst.fits (.inl rfl)
  cases hw with
  | @found n probesWr available lt path hit first =>
    have live := hit_live hit
    have ident := (hv.hit_iff hcov hst.fits live).mp hit
    rcases first with ⟨rfl, rfl⟩ | ⟨p, hp, hword, rfl, rfl⟩
    · obtain ⟨k, hc, hkind⟩ := change_replace hv live hst.proper ident.symm hst.fits
        (cfg.hashOf e) (n + 1)
      refine ⟨k, ?_, fun hs => hkind (hs n path hit).2.1 (hs n path hit).2.2⟩
      unfold setStores
      dsimp only [Option.or]
      rw [show (m.entries (cfg.cursor m.capacity (cfg.hashOf e) n)).live = true from live,
        if_pos rfl, List.append_nil]
      exact hc
    · have hmov := hst.movable hv path hit ident lt hp hword
      obtain ⟨k, hc⟩ := change_setMove hv hmov (cfg.hashOf e) (p + 1)
      refine ⟨k, ?_, fun hs => absurd hword ((hs n path hit).1 p hp)⟩
      unfold setStores
      dsimp only [Option.or]
      rw [if_pos ⟨(ne_of_live live).1, hmov.before.ne⟩]
      exact hc
  | @vacant n probesWr available lt path empty first =>
    have absent := habs fun hf => hf.2 empty
    refine ⟨_, ?_, fun _ => rfl⟩
    rcases first with ⟨rfl, rfl⟩ | ⟨p, hp, hword, rfl, rfl⟩
    · have hc := change_set_empty hv (hst.vacancy absent path le_rfl lt) empty
      unfold setStores
      dsimp only [Option.or]
      rw [show (m.entries (cfg.cursor m.capacity (cfg.hashOf e) n)).live = false from
        not_live_of_empty empty]
      exact hc
    · have hc := change_set_tombstone hv (hst.vacancy absent path hp.le (by omega)) hword
      rw [setStores_tombstone rfl rfl (not_live_of_empty empty) (.inl empty) hword]
      exact hc
  | @missed n probes probesWr available path le past first =>
    have absent := habs fun hf => hf.1 rfl
    refine ⟨_, ?_, fun _ => rfl⟩
    rcases first with ⟨rfl, rfl⟩ | ⟨p, hp, hword, rfl, rfl⟩
    · exact absurd ⟨rfl, rfl⟩ hslot
    · have hc := change_set_tombstone hv (hst.vacancy absent path hp.le (by omega)) hword
      rw [setStores_tombstone rfl rfl (not_live_of_tombstone hword) (.inr rfl) hword]
      exact hc

end Outcomes

end Map

end ConcurrencyKit.Ht
