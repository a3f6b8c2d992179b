import ConcurrencyKit.Hs.Invariant
import ConcurrencyKit.Misc.Tally

/-!
# Insertion, replacement and deletion

The store sequences by which the operations of `ck_hs` install, move and delete an entry,
each with three facts: the stores are allowed in order, what becomes of the set of stored
objects, and what becomes of the counters.
-/

namespace ConcurrencyKit.Hs

variable {V : Type} [DecidableEq V]

/-- The word is a stored object. -/
def Slot.isLive : Slot V → Bool
  | .entry _ _ => true
  | _ => false

/-- The word is `CK_HS_TOMBSTONE`. -/
def Slot.isTombstone : Slot V → Bool
  | .tombstone => true
  | _ => false

namespace Map

/-- The stored objects. -/
def objects (m : Map V) : Set V := {v | ∃ s t, m.entries s = .entry t v}

/-- `n_entries` counts all live slots but `d`, and `tombstones` the tombstones. -/
structure Accounts (m : Map V) (d : Nat) : Prop where
  live : m.nEntries + d = tally Slot.isLive m.entries m.capacity
  dead : m.tombstones = tally Slot.isTombstone m.entries m.capacity

omit [DecidableEq V] in
theorem Accounts.congr {m m' : Map V} {d : Nat} (ha : m.Accounts d)
    (he : m'.entries = m.entries) (hc : m'.capacity = m.capacity)
    (hn : m'.nEntries = m.nEntries) (ht : m'.tombstones = m.tombstones) : m'.Accounts d := by
  constructor
  · rw [he, hc, hn]; exact ha.live
  · rw [he, hc, ht]; exact ha.dead

/-! ## What a probe says about the stored keys -/

section Probed

variable {cfg : Config V} {m : Map V} {ph : Phase} {key : V}

theorem Valid.boundGet_le (hv : m.Valid cfg ph) (h : BitVec 64) :
    m.boundGet h ≤ m.probeLimit := by
  unfold boundGet
  cases hb : m.probeBound with
  | none => exact hv.maximum_le
  | some b =>
    dsimp only
    split
    · exact hv.maximum_le
    · exact hv.bound_le b hb _

theorem Valid.hit_iff (hv : m.Valid cfg ph) (hl : cfg.Lawful) {s t : Nat} {v : V}
    (hs : m.entries s = .entry t v) :
    cfg.hit (cfg.hf key) key (.entry t v) = true ↔ cfg.keyMatch v key = true := by
  rw [hv.tag_eq s t v hs]
  exact Config.hit_iff hl

/-- A probe that passed the bound, or came to an empty slot, without meeting the key proves
the key absent. -/
theorem Valid.absent_of_clear (hv : m.Valid cfg ph) (hl : cfg.Lawful) {n : Nat}
    (hc : m.Clear cfg (cfg.hf key) key n)
    (hn : m.boundGet (cfg.hf key) ≤ n ∨ m.word cfg (cfg.hf key) n = .empty) :
    m.Absent cfg key := by
  intro s t u hs
  by_contra hm
  rw [Bool.not_eq_false] at hm
  obtain ⟨k, hk, hcov, hopen⟩ := hv.reaches s t u hs
  rw [hl.hf_eq hm] at hk hcov hopen
  have hkn : k < n := by
    rcases hn with hn | hn
    · have := hcov.lt_boundGet; omega
    · by_contra hge
      rcases Nat.eq_or_lt_of_le (Nat.le_of_not_lt hge) with rfl | hlt
      · rw [word, hk, hs] at hn; cases hn
      · exact hopen n hlt hn
  have hno := (hc k hkn).2
  rw [word, hk, hs, (hv.hit_iff hl hs).mpr hm] at hno
  cases hno

omit [DecidableEq V] in
theorem Clear.open_path [DecidableEq V] {h : BitVec 64} {n : Nat} (hc : m.Clear cfg h key n) :
    m.Open cfg h n :=
  fun k hk => (hc k hk).1

/-- The tombstone a successful probe passed comes before the slot it found. -/
theorem Clear.before {h : BitVec 64} {n p t : Nat} {u : V} (hc : m.Clear cfg h key n)
    (hn : m.word cfg h n = .entry t u) (hhit : cfg.hit h key (.entry t u) = true)
    (hp : p < n) : m.Before cfg h (cfg.cursor m.capacity h p) (cfg.cursor m.capacity h n) := by
  refine ⟨p, rfl, fun j hj => ?_⟩
  by_contra hle
  have hno := (hc j (by omega)).2
  rw [word, hj] at hno
  rw [word] at hn
  rw [hn, hhit] at hno
  cases hno

end Probed

/-! ## Raising the bounds -/

section BoundSet

variable {cfg : Config V} {m : Map V}

omit [DecidableEq V] in
/-- The bounds after `ck_hs_map_bound_set`. -/
theorem applyAll_boundSet (h : BitVec 64) (n : Nat) :
    m.applyAll (m.boundSet h n) =
      { m with
        probeMaximum := max m.probeMaximum n
        probeBound := m.probeBound.map (fun b =>
          if b (m.home h) < n then Function.update b (m.home h) (min n wordMax) else b) } := by
  unfold boundSet
  rw [applyAll_append]
  have hmax : m.applyAll (if m.probeMaximum < n then [.probeMaximum n] else []) =
      { m with probeMaximum := max m.probeMaximum n } := by
    split
    · rename_i hlt
      rw [max_eq_right hlt.le]
      rfl
    · rename_i hge
      rw [max_eq_left (by omega)]
      rfl
  rw [hmax]
  cases hb : m.probeBound with
  | none => simp only [applyAll_nil, Option.map_none]
  | some b =>
    dsimp only
    split
    · simp only [applyAll, List.foldl, apply, Option.map_some]
      rw [if_pos ‹_›]
    · simp only [applyAll_nil, Option.map_some]
      rw [if_neg ‹_›]

theorem Valid.raise_maximum (hv : m.Valid cfg .idle) {n : Nat} (hlt : m.probeMaximum < n)
    (hn : n ≤ m.probeLimit) : (m.apply (.probeMaximum n)).Valid cfg .idle := by
  refine hv.rebound rfl rfl rfl hn hv.bound_le fun s t v hs => ?_
  obtain ⟨k, hk, hc, ho⟩ := hv.reaches s t v hs
  exact ⟨k, hk, ⟨lt_trans hc.1 hlt, hc.2⟩, ho⟩

theorem Valid.raise_bound (hv : m.Valid cfg .idle) {b : Nat → Nat} (hb : m.probeBound = some b)
    {home n : Nat} (hlt : b home < n) (hn : n ≤ m.probeLimit) :
    (m.apply (.probeBound home (min n wordMax))).Valid cfg .idle := by
  have hb' : (m.apply (.probeBound home (min n wordMax))).probeBound =
      some (Function.update b home (min n wordMax)) := by
    simp only [apply, hb, Option.map_some]
  refine hv.rebound rfl rfl rfl hv.maximum_le ?_ fun s t v hs => ?_
  · intro b' hbb i
    rw [hb', Option.some.injEq] at hbb
    subst hbb
    rw [Function.update_apply]
    split
    · exact le_trans (min_le_left _ _) hn
    · exact hv.bound_le b hb i
  · obtain ⟨k, hk, hc, ho⟩ := hv.reaches s t v hs
    refine ⟨k, hk, ⟨hc.1, fun b' hbb hne => ?_⟩, ho⟩
    rw [hb', Option.some.injEq] at hbb
    subst hbb
    change Function.update b home (min n wordMax) (m.home (cfg.hf v)) ≠ wordMax at hne
    show k < Function.update b home (min n wordMax) (m.home (cfg.hf v))
    rw [Function.update_apply] at hne ⊢
    split at hne
    · rename_i hhome
      rw [if_pos hhome]
      have hold := hc.2 b hb
      rw [hhome] at hold
      simp only [wordMax] at hne hold ⊢
      omega
    · rename_i hhome
      rw [if_neg hhome]
      exact hc.2 b hb hne

theorem boundSet_path (hl : cfg.Lawful) (hv : m.Valid cfg .idle) (h : BitVec 64) {n : Nat}
    (hn : n ≤ m.probeLimit) : Path cfg m .idle (m.boundSet h n) .idle := by
  have hmax : Path cfg m .idle (if m.probeMaximum < n then [.probeMaximum n] else []) .idle := by
    split
    · exact .one (.probeMaximum (hv.raise_maximum ‹_› hn))
    · exact .nil _ _
  refine hmax.append ?_
  have hv' := hmax.valid hl hv
  have hbound : (m.applyAll (if m.probeMaximum < n then [.probeMaximum n] else [])).probeBound =
      m.probeBound := by split <;> rfl
  have hlim : (m.applyAll (if m.probeMaximum < n then [.probeMaximum n] else [])).probeLimit =
      m.probeLimit := by split <;> rfl
  revert hv' hbound hlim
  generalize m.applyAll (if m.probeMaximum < n then [.probeMaximum n] else []) = m'
  intro hv' hbound hlim
  cases hb : m.probeBound with
  | none => exact .nil _ _
  | some b =>
    dsimp only
    split
    · exact .one (.probeBound (hv'.raise_bound (hbound.trans hb) ‹_› (hlim ▸ hn)))
    · exact .nil _ _

omit [DecidableEq V] in
/-- `ck_hs_map_bound_set` brings its probe count within the bounds. -/
theorem covers_boundSet (m : Map V) (h : BitVec 64) (n : Nat) :
    (m.applyAll (m.boundSet h (n + 1))).Covers h n := by
  rw [applyAll_boundSet]
  refine ⟨lt_of_lt_of_le (Nat.lt_succ_self n) (le_max_right _ _), fun b hb hne => ?_⟩
  cases hm : m.probeBound with
  | none => rw [hm] at hb; cases hb
  | some c =>
    rw [hm] at hb
    simp only [Option.map_some, Option.some.injEq] at hb
    subst hb
    change (if c (m.home h) < n + 1 then _ else c) (m.home h) ≠ wordMax at hne
    show n < (if c (m.home h) < n + 1 then _ else c) (m.home h)
    split at hne
    · rename_i hlt
      rw [if_pos hlt]
      rw [Function.update_self] at hne ⊢
      simp only [wordMax] at hne ⊢
      omega
    · rename_i hge
      rw [if_neg hge]
      omega

omit [DecidableEq V] in
@[simp] theorem boundSet_entries (h : BitVec 64) (n : Nat) :
    (m.applyAll (m.boundSet h n)).entries = m.entries := by
  rw [applyAll_boundSet]

omit [DecidableEq V] in
@[simp] theorem boundSet_capacity (h : BitVec 64) (n : Nat) :
    (m.applyAll (m.boundSet h n)).capacity = m.capacity := by
  rw [applyAll_boundSet]

omit [DecidableEq V] in
@[simp] theorem boundSet_generation (h : BitVec 64) (n : Nat) :
    (m.applyAll (m.boundSet h n)).generation = m.generation := by
  rw [applyAll_boundSet]

omit [DecidableEq V] in
theorem Accounts.boundSet {d : Nat} (ha : m.Accounts d) (h : BitVec 64) (n : Nat) :
    (m.applyAll (m.boundSet h n)).Accounts d := by
  rw [applyAll_boundSet]
  exact ha.congr rfl rfl rfl rfl

omit [DecidableEq V] in
theorem Open.boundSet {h h' : BitVec 64} {n k : Nat} (ho : m.Open cfg h k) :
    (m.applyAll (m.boundSet h' n)).Open cfg h k := by
  intro j hj
  unfold word
  rw [boundSet_entries, boundSet_capacity]
  exact ho j hj

end BoundSet

/-! ## Effects on the stored objects and the counters -/

section Effects

variable {cfg : Config V} {m : Map V}

/-- The objects after `v` has taken the place of its key. -/
def assigned (cfg : Config V) (objs : Set V) (v : V) : Set V :=
  {w | w = v ∨ (w ∈ objs ∧ cfg.keyMatch w v = false)}

/-- The objects without the one for `key`. -/
def erased (cfg : Config V) (objs : Set V) (key : V) : Set V :=
  {w | w ∈ objs ∧ cfg.keyMatch w key = false}

omit [DecidableEq V] in
theorem objects_congr {m' : Map V} (h : m'.entries = m.entries) : m'.objects = m.objects := by
  unfold objects
  rw [h]

theorem objects_fill {s t : Nat} {v : V} (free : ∀ t u, m.entries s ≠ .entry t u)
    (absent : m.Absent cfg v) :
    (m.apply (.entry s (.entry t v))).objects = assigned cfg m.objects v := by
  ext w
  constructor
  · rintro ⟨i, t', hi⟩
    change Function.update m.entries s _ i = _ at hi
    rw [Function.update_apply] at hi
    split at hi
    · cases hi; exact .inl rfl
    · exact .inr ⟨⟨i, t', hi⟩, absent i t' w hi⟩
  · rintro (rfl | ⟨⟨i, t', hi⟩, -⟩)
    · exact ⟨s, t, Function.update_self _ _ _⟩
    · refine ⟨i, t', (Function.update_of_ne ?_ _ _).trans hi⟩
      rintro rfl
      exact free t' w hi

/-- Storing `v` in one slot and burying, or overwriting, the one slot with its key. -/
theorem objects_move (hv : m.Valid cfg .idle) (hl : cfg.Lawful) {m' : Map V} {src dst t t' : Nat}
    {u v : V} (hsrc : m.entries src = .entry t u) (eq : cfg.keyMatch u v = true)
    (hdst : m'.entries dst = .entry t' v) (hfree : ∀ t w, m.entries dst = .entry t w → dst = src)
    (hrest : ∀ i, i ≠ src → i ≠ dst → m'.entries i = m.entries i)
    (hgone : dst ≠ src → m'.entries src = .tombstone) :
    m'.objects = assigned cfg m.objects v := by
  ext w
  constructor
  · rintro ⟨i, t₁, hi⟩
    by_cases hid : i = dst
    · rw [hid, hdst] at hi
      cases hi; exact .inl rfl
    · by_cases his : i = src
      · rw [his, hgone (fun h => hid (his.trans h.symm))] at hi
        cases hi
      · rw [hrest i his hid] at hi
        refine .inr ⟨⟨i, t₁, hi⟩, ?_⟩
        by_contra hm
        rw [Bool.not_eq_false] at hm
        exact his (hv.unique i src t₁ t w u hi hsrc nofun nofun (hl.trans hm (hl.symm eq)))
  · rintro (rfl | ⟨⟨i, t₁, hi⟩, hne⟩)
    · exact ⟨dst, t', hdst⟩
    · have his : i ≠ src := by
        rintro rfl
        rw [hsrc] at hi
        cases hi
        rw [eq] at hne
        cases hne
      have hid : i ≠ dst := by
        rintro rfl
        exact his (hfree t₁ w hi)
      exact ⟨i, t₁, (hrest i his hid).trans hi⟩

theorem objects_bury (hv : m.Valid cfg .idle) (hl : cfg.Lawful) {s t : Nat} {u key : V}
    (hs : m.entries s = .entry t u) (eq : cfg.keyMatch u key = true) :
    (m.apply (.entry s .tombstone)).objects = erased cfg m.objects key := by
  ext w
  constructor
  · rintro ⟨i, t', hi⟩
    change Function.update m.entries s _ i = _ at hi
    rw [Function.update_apply] at hi
    split at hi
    · cases hi
    · rename_i his
      refine ⟨⟨i, t', hi⟩, ?_⟩
      by_contra hm
      rw [Bool.not_eq_false] at hm
      exact his (hv.unique i s t' t w u hi hs nofun nofun (hl.trans hm (hl.symm eq)))
  · rintro ⟨⟨i, t', hi⟩, hne⟩
    refine ⟨i, t', (Function.update_of_ne ?_ _ _).trans hi⟩
    rintro rfl
    rw [hs] at hi
    cases hi
    rw [eq] at hne
    cases hne

omit [DecidableEq V] in
/-- The counters after a store, as equations between numbers. -/
theorem Accounts.store {d : Nat} (ha : m.Accounts d) {s : Nat} (hs : s < m.capacity)
    (w : Slot V) :
    tally Slot.isLive (m.apply (.entry s w)).entries m.capacity +
        (if (m.entries s).isLive = true then 1 else 0) =
      m.nEntries + d + (if w.isLive = true then 1 else 0) ∧
    tally Slot.isTombstone (m.apply (.entry s w)).entries m.capacity +
        (if (m.entries s).isTombstone = true then 1 else 0) =
      m.tombstones + (if w.isTombstone = true then 1 else 0) := by
  constructor
  · rw [ha.live]
    exact tally_update Slot.isLive m.entries hs w
  · rw [ha.dead]
    exact tally_update Slot.isTombstone m.entries hs w

omit [DecidableEq V] in
/-- `map->n_entries++` accounts for one more live slot. -/
theorem Accounts.counted (ha : m.Accounts 1) :
    (m.apply (.nEntries (m.nEntries + 1))).Accounts 0 :=
  ⟨ha.live, ha.dead⟩

end Effects

/-! ## The store sequences of the operations -/

/-- A sequence of allowed stores after which the map stores the objects `objs`, and `n_entries`
lacks `d` of the live slots if it lacked none before. -/
structure Change (cfg : Config V) (m : Map V) (sts : List (Store V)) (objs : Set V) (d : Nat) :
    Prop where
  path : Path cfg m .idle sts .idle
  objects : (m.applyAll sts).objects = objs
  accounts : m.Accounts 0 → (m.applyAll sts).Accounts d
  capacity : (m.applyAll sts).capacity = m.capacity

section Changes

variable {cfg : Config V} {m : Map V}

theorem Change.after_boundSet (hl : cfg.Lawful) (hv : m.Valid cfg .idle) {h : BitVec 64}
    {n d : Nat} {sts : List (Store V)} {objs : Set V} (hn : n ≤ m.probeLimit)
    (hc : Change cfg (m.applyAll (m.boundSet h n)) sts objs d) :
    Change cfg m (m.boundSet h n ++ sts) objs d where
  path := (boundSet_path hl hv h hn).append hc.path
  objects := by rw [applyAll_append]; exact hc.objects
  accounts ha := by rw [applyAll_append]; exact hc.accounts (ha.boundSet h n)
  capacity := by rw [applyAll_append, hc.capacity, boundSet_capacity]

theorem change_fill_empty {s : Nat} {v : V} (hv : m.Valid cfg .idle)
    (hs : m.entries s = .empty) (reach : m.Reaches cfg (cfg.hf v) s) (absent : m.Absent cfg v) :
    Change cfg m [.entry s (cfg.marshal v (cfg.hf v))] (assigned cfg m.objects v) 1 where
  path := by
    refine .one (.fill ?_ reach absent)
    rw [hs]
    exact nofun
  objects := objects_fill (by rw [hs]; exact nofun) absent
  accounts ha := by
    obtain ⟨n, rfl, -⟩ := id reach
    obtain ⟨h1, h2⟩ := ha.store (hv.cursor_lt _ n) (cfg.marshal v (cfg.hf v))
    rw [hs] at h1 h2
    exact ⟨h1.symm, h2.symm⟩
  capacity := rfl

theorem Valid.tally_lt {ph : Phase} (hv : m.Valid cfg ph) (p : Slot V → Bool) :
    tally p m.entries m.capacity < 2 ^ 32 := by
  have h1 := tally_le p m.entries m.capacity
  have h2 := hv.capacity_le
  omega

theorem Accounts.dec_tombstones (hv : m.Valid cfg .idle) (ha : m.Accounts 0) {s : Nat}
    (hlt : s < m.capacity) (hs : m.entries s = .tombstone) :
    dec 32 m.tombstones + 1 = m.tombstones := by
  have hpos : 0 < m.tombstones := by
    rw [ha.dead]
    exact tally_pos hlt (by rw [hs]; rfl)
  have hle : m.tombstones < 2 ^ 32 := by
    rw [ha.dead]
    exact hv.tally_lt _
  rw [dec_of_pos hpos hle.le]
  omega

/-- An absent key goes to a tombstone; `n` is the new tombstone count. -/
theorem change_fill_tombstone {s : Nat} {v : V} (hv : m.Valid cfg .idle)
    (hs : m.entries s = .tombstone) (reach : m.Reaches cfg (cfg.hf v) s)
    (absent : m.Absent cfg v) {n : Nat} (hn : m.Accounts 0 → n + 1 = m.tombstones) :
    Change cfg m [.entry s (cfg.marshal v (cfg.hf v)), .tombstones n]
      (assigned cfg m.objects v) 1 where
  path := by
    refine .cons (.fill ?_ reach absent) (.one (.tombstones _ _))
    rw [hs]
    exact nofun
  objects := objects_fill (by rw [hs]; exact nofun) absent
  accounts ha := by
    obtain ⟨k, rfl, -⟩ := id reach
    obtain ⟨h1, h2⟩ := ha.store (hv.cursor_lt _ k) (cfg.marshal v (cfg.hf v))
    rw [hs] at h1 h2
    exact ⟨h1.symm, Nat.add_right_cancel ((hn ha).trans h2.symm)⟩
  capacity := rfl

theorem change_replace (hl : cfg.Lawful) {s t : Nat} {u v : V} (hv : m.Valid cfg .idle)
    (hs : m.entries s = .entry t u) (eq : cfg.keyMatch u v = true) :
    Change cfg m [.entry s (cfg.marshal v (cfg.hf v))] (assigned cfg m.objects v) 0 where
  path := .one (.replace hs eq)
  objects := by
    refine objects_move hv hl hs eq (Function.update_self _ _ _) (fun _ _ _ => rfl) ?_ ?_
    · exact fun i hi _ => Function.update_of_ne hi _ _
    · exact fun h => absurd rfl h
  accounts ha := by
    obtain ⟨h1, h2⟩ := ha.store (hv.live_lt hs) (cfg.marshal v (cfg.hf v))
    rw [hs] at h1 h2
    simp only [Slot.isTombstone, Slot.isLive, Config.marshal] at h1 h2
    exact ⟨(Nat.add_right_cancel h1).symm, (Nat.add_right_cancel h2).symm⟩
  capacity := rfl

/-- A relocation. The signal is computed from the map `m₀` before the bounds were raised. -/
theorem change_relocate (hl : cfg.Lawful) {m₀ : Map V} {src dst t : Nat} {u v : V}
    (hv : m.Valid cfg .idle) (hgen : m₀.generation = m.generation)
    (hsrc : m.entries src = .entry t u) (eq : cfg.keyMatch u v = true)
    (hdst : m.entries dst = .tombstone) (before : m.Before cfg (cfg.hf v) dst src)
    (reach : m.Reaches cfg (cfg.hf v) dst) :
    Change cfg m (m₀.relocate (cfg.hf v) dst (some src) (cfg.marshal v (cfg.hf v)))
      (assigned cfg m.objects v) 0 where
  path := by
    refine .cons (.copy hsrc eq hdst before reach) (.cons ?_ (.one (.retire src dst)))
    rw [hgen]
    exact .signal (Function.update_self _ _ _)
  objects := by
    have hne := before.ne
    refine @objects_move _ _ cfg m hv hl _ src dst t (cfg.tag (cfg.hf v)) u v hsrc eq ?_ ?_ ?_ ?_
    · exact (Function.update_of_ne hne.symm _ _).trans (Function.update_self _ _ _)
    · intro t w hw
      rw [hdst] at hw
      cases hw
    · intro i his hid
      exact (Function.update_of_ne his _ _).trans (Function.update_of_ne hid _ _)
    · exact fun _ => Function.update_self _ _ _
  accounts ha := by
    have hne := before.ne
    have hd : dst < m.capacity := by
      obtain ⟨n, rfl, -⟩ := reach
      exact hv.cursor_lt _ n
    have hs : (m.apply (.entry dst (cfg.marshal v (cfg.hf v)))).entries src = .entry t u :=
      (Function.update_of_ne hne _ _).trans hsrc
    have hl1 := tally_update Slot.isLive m.entries hd (cfg.marshal v (cfg.hf v))
    have hl2 := tally_update Slot.isLive
      (m.apply (.entry dst (cfg.marshal v (cfg.hf v)))).entries (hv.live_lt hsrc) .tombstone
    have hd1 := tally_update Slot.isTombstone m.entries hd (cfg.marshal v (cfg.hf v))
    have hd2 := tally_update Slot.isTombstone
      (m.apply (.entry dst (cfg.marshal v (cfg.hf v)))).entries (hv.live_lt hsrc) .tombstone
    rw [hdst] at hl1 hd1
    rw [hs] at hl2 hd2
    have h1 := ha.live
    have h2 := ha.dead
    simp only [Slot.isTombstone, Slot.isLive, Config.marshal, apply, reduceCtorEq, if_true,
      if_false] at hl1 hl2 hd1 hd2
    constructor
    · show m.nEntries + 0 = tally Slot.isLive (Function.update (Function.update m.entries dst
        (.entry (cfg.tag (cfg.hf v)) v)) src .tombstone) m.capacity
      omega
    · show m.tombstones = tally Slot.isTombstone (Function.update (Function.update m.entries dst
        (.entry (cfg.tag (cfg.hf v)) v)) src .tombstone) m.capacity
      omega
  capacity := rfl

theorem Accounts.dec_nEntries (hv : m.Valid cfg .idle) (ha : m.Accounts 0) {s t : Nat} {u : V}
    (hs : m.entries s = .entry t u) : dec 64 m.nEntries + 1 = m.nEntries := by
  have hlive := ha.live
  have hpos : 0 < tally Slot.isLive m.entries m.capacity :=
    tally_pos (hv.live_lt hs) (by rw [hs]; rfl)
  have hlt := hv.tally_lt Slot.isLive
  rw [dec_of_pos (by omega) (by omega)]
  omega

theorem Accounts.inc_tombstones (hv : m.Valid cfg .idle) (ha : m.Accounts 0) :
    inc 32 m.tombstones = m.tombstones + 1 := by
  have hdead := ha.dead
  have hle := tally_le Slot.isTombstone m.entries m.capacity
  have hcap := hv.capacity_le
  exact Nat.mod_eq_of_lt (by omega)

/-- The object of a key is deleted; `n` and `n'` are the new counts. -/
theorem change_bury (hl : cfg.Lawful) {s t n n' : Nat} {u key : V} (hv : m.Valid cfg .idle)
    (hs : m.entries s = .entry t u) (eq : cfg.keyMatch u key = true)
    (hn : m.Accounts 0 → n + 1 = m.nEntries) (hn' : m.Accounts 0 → n' = m.tombstones + 1) :
    Change cfg m [.entry s .tombstone, .nEntries n, .tombstones n']
      (erased cfg m.objects key) 0 where
  path := .cons (.remove hs) (.cons (.nEntries _ _) (.one (.tombstones _ _)))
  objects := objects_bury hv hl hs eq
  accounts ha := by
    obtain ⟨h1, h2⟩ := ha.store (hv.live_lt hs) .tombstone
    rw [hs] at h1 h2
    exact ⟨Nat.add_right_cancel ((hn ha).trans h1.symm), (hn' ha).trans h2.symm⟩
  capacity := rfl

theorem change_uninstall (hl : cfg.Lawful) {s t : Nat} {u key : V} (hv : m.Valid cfg .idle)
    (hs : m.entries s = .entry t u) (eq : cfg.keyMatch u key = true) :
    Change cfg m (m.uninstall (some s)) (erased cfg m.objects key) 0 :=
  change_bury hl hv hs eq (fun ha => ha.dec_nEntries hv hs) (fun ha => ha.inc_tombstones hv)

theorem Absent.congr (hl : cfg.Lawful) {u v : V} (eq : cfg.keyMatch u v = true)
    (ha : m.Absent cfg v) : m.Absent cfg u := by
  intro s t w hs
  by_contra hm
  rw [Bool.not_eq_false] at hm
  have := ha s t w hs
  rw [hl.trans hm eq] at this
  cases this

/-- Installing an object whose key the probe did not find. -/
theorem change_install_new (hl : cfg.Lawful) (hv : m.Valid cfg .idle) {h : BitVec 64} {v key : V}
    (hh : h = cfg.hf v) {bound : Nat} {behavior : ProbeBehavior} {r : ProbeResult V}
    (hp : m.Probed cfg h key bound m.probeLimit behavior r) (hobj : r.object = none)
    (hslot : ¬ (r.cursor = none ∧ r.priority = none)) (absent : m.Absent cfg v) :
    Change cfg m (m.install h r (cfg.marshal v h)) (assigned cfg m.objects v) 1 := by
  subst hh
  have hobjs : ∀ n, (m.applyAll (m.boundSet (cfg.hf v) n)).objects = m.objects :=
    fun n => objects_congr (boundSet_entries _ _)
  -- the key goes to the tombstone at probe index `p`
  have htomb : ∀ p, p < m.probeLimit → m.Open cfg (cfg.hf v) p →
      m.word cfg (cfg.hf v) p = .tombstone →
      Change cfg m (m.boundSet (cfg.hf v) (p + 1) ++
        [.entry (cfg.cursor m.capacity (cfg.hf v) p) (cfg.marshal v (cfg.hf v)),
          .tombstones (dec 32 m.tombstones)]) (assigned cfg m.objects v) 1 := by
    intro p hlt hopen hword
    refine .after_boundSet hl hv hlt ?_
    rw [← hobjs (p + 1)]
    refine change_fill_tombstone ((boundSet_path hl hv _ hlt).valid hl hv) ?_ ?_ ?_ fun ha => ?_
    · rw [boundSet_entries]; exact hword
    · refine ⟨p, by rw [boundSet_capacity], covers_boundSet m _ p, hopen.boundSet⟩
    · unfold Absent
      rw [boundSet_entries]
      exact absent
    · rw [applyAll_boundSet] at ha ⊢
      have ha' : m.Accounts 0 := ⟨ha.live, ha.dead⟩
      exact ha'.dec_tombstones hv (hv.cursor_lt _ p) hword
  cases hp with
  | found => cases hobj
  | @vacant n priority nProbes lt path at_cursor first =>
    rcases first with ⟨rfl, rfl⟩ | ⟨p, hp, hword, rfl, rfl⟩
    · refine .after_boundSet hl hv lt ?_
      rw [← hobjs (n + 1)]
      refine change_fill_empty ((boundSet_path hl hv _ lt).valid hl hv) ?_ ?_ ?_
      · rw [boundSet_entries]; exact at_cursor
      · exact ⟨n, by rw [boundSet_capacity], covers_boundSet m _ n, path.open_path.boundSet⟩
      · unfold Absent
        rw [boundSet_entries]
        exact absent
    · exact htomb p (by omega) (path.open_path.mono hp.le) hword
  | tombstone lt path at_priority _ => exact htomb _ lt path.open_path at_priority
  | full => exact absurd ⟨rfl, rfl⟩ hslot

/-- The slot a probe found is within the bounds of the key. -/
theorem Valid.covers_found {ph : Phase} (hv : m.Valid cfg ph) (hl : cfg.Lawful) {key u : V}
    {n t : Nat} (hc : m.Clear cfg (cfg.hf key) key n)
    (hn : m.word cfg (cfg.hf key) n = .entry t u)
    (hhit : cfg.hit (cfg.hf key) key (.entry t u) = true) : m.Covers (cfg.hf key) n := by
  have hm := (hv.hit_iff hl hn).mp hhit
  obtain ⟨k, hk, hcov, -⟩ := hv.reaches _ t u hn
  rw [hl.hf_eq hm] at hk hcov
  refine hcov.mono ?_
  by_contra hlt
  have hno := (hc k (by omega)).2
  rw [word] at hn
  rw [word, hk, hn, hhit] at hno
  cases hno

/-- The stores that put a word for a key found in slot `cursor`: at the earlier tombstone if the
probe passed one, else in place. -/
def moveStores (m : Map V) (h : BitVec 64) (cursor : Nat) (priority : Option Nat)
    (word : Slot V) : List (Store V) :=
  match priority with
  | some first => m.relocate h first (some cursor) word
  | none => storeAt (some cursor) word

theorem change_move (hl : cfg.Lawful) {m₀ : Map V} (hv : m.Valid cfg .idle)
    (hgen : m₀.generation = m.generation) {v key u : V} {n t nProbes : Nat}
    {priority : Option Nat} (eq : cfg.keyMatch v key = true)
    (path : m.Clear cfg (cfg.hf key) key n)
    (at_cursor : m.word cfg (cfg.hf key) n = .entry t u)
    (hit : cfg.hit (cfg.hf key) key (.entry t u) = true)
    (first : m.First cfg (cfg.hf key) n priority nProbes) :
    Change cfg m
      (m₀.moveStores (cfg.hf key) (cfg.cursor m.capacity (cfg.hf key) n) priority
        (cfg.marshal v (cfg.hf key)))
      (assigned cfg m.objects v) 0 := by
  have huv : cfg.keyMatch u v = true :=
    hl.trans ((hv.hit_iff hl at_cursor).mp hit) (hl.symm eq)
  have hcov := hv.covers_found hl path at_cursor hit
  rcases first with ⟨rfl, -⟩ | ⟨p, hp, hword, rfl, -⟩
  · rw [← hl.hf_eq eq] at at_cursor ⊢
    exact change_replace hl hv at_cursor huv
  · have hbefore := path.before at_cursor hit hp
    have hreach : m.Reaches cfg (cfg.hf key) (cfg.cursor m.capacity (cfg.hf key) p) :=
      ⟨p, rfl, hcov.mono hp.le, path.open_path.mono hp.le⟩
    rw [← hl.hf_eq eq] at at_cursor hword hbefore hreach ⊢
    exact change_relocate hl hv hgen at_cursor huv hword hbefore hreach

omit [DecidableEq V] in
theorem word_boundSet {h h' : BitVec 64} {n k : Nat} :
    (m.applyAll (m.boundSet h' n)).word cfg h k = m.word cfg h k := by
  unfold word
  rw [boundSet_entries, boundSet_capacity]

/-- Installing an object whose key the probe found. -/
theorem change_install_old (hl : cfg.Lawful) (hv : m.Valid cfg .idle) {v key u : V}
    (eq : cfg.keyMatch v key = true) {bound : Nat} {behavior : ProbeBehavior}
    {r : ProbeResult V}
    (hp : m.Probed cfg (cfg.hf key) key bound m.probeLimit behavior r)
    (hobj : r.object = some u) :
    Change cfg m (m.install (cfg.hf key) r (cfg.marshal v (cfg.hf key)))
      (assigned cfg m.objects v) 0 := by
  cases hp with
  | @found n tag val priority nProbes lt path at_cursor hit first =>
    have hn : nProbes ≤ m.probeLimit := by
      rcases first with ⟨-, rfl⟩ | ⟨p, hp, -, -, rfl⟩ <;> omega
    have hv' := (boundSet_path hl hv (cfg.hf key) hn).valid hl hv
    have hmove := change_move hl hv' (boundSet_generation (m := m) _ _).symm eq
      (fun k hk => by rw [word_boundSet]; exact path k hk)
      (by rw [word_boundSet]; exact at_cursor) hit
      (by unfold First; rw [boundSet_capacity]; simp only [word_boundSet]; exact first)
    rw [boundSet_capacity, objects_congr (boundSet_entries _ _)] at hmove
    have heq : m.install (cfg.hf key)
        ⟨some (cfg.cursor m.capacity (cfg.hf key) n), some val, priority, nProbes⟩
        (cfg.marshal v (cfg.hf key)) =
        m.boundSet (cfg.hf key) nProbes ++
          m.moveStores (cfg.hf key) (cfg.cursor m.capacity (cfg.hf key) n) priority
            (cfg.marshal v (cfg.hf key)) := by
      cases priority <;> rfl
    rw [heq]
    exact hmove.after_boundSet hl hv hn
  | vacant => cases hobj
  | tombstone => cases hobj
  | full => cases hobj

end Changes

end Map

end ConcurrencyKit.Hs
