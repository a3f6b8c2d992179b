import ConcurrencyKit.Hs.Probe

/-!
# The invariant of a `ck_hs` map

A map is `Valid` when every live slot is reached by the lookups of its key, within the
probe bounds and past no empty slot, and no key is in two slots. A relocation breaks the
second half on purpose: for two stores the key is in two slots, one of which does not
count. Which one is the writer's `Phase`, and `Allowed` lists the stores the writer may
make in each phase. A sequence of allowed stores (`Path`) keeps the invariant at every
store, which serves the sequential and the concurrent reading alike.
-/

namespace ConcurrencyKit.Hs

open Lookup (View Probe)

variable {V : Type} [DecidableEq V]

/-- A word with the tag of its own object is a hit exactly if the keys are equal. -/
theorem Config.hit_iff {cfg : Config V} (hl : cfg.Lawful) {key v : V} :
    cfg.hit (cfg.hf key) key (.entry (cfg.tag (cfg.hf v)) v) = true ↔
      cfg.keyMatch v key = true := by
  simp only [hit, Bool.and_eq_true, beq_iff_eq]
  constructor
  · exact And.right
  · exact fun h => ⟨by rw [hl.hf_eq h], h⟩

/-! ## Reachable slots -/

namespace Map

section Reach

variable (cfg : Config V) (m : Map V)

/-- Every way to read the probe bound of `h` gives more than `n`. -/
def Covers (h : BitVec 64) (n : Nat) : Prop :=
  n < m.probeMaximum ∧
    ∀ b, m.probeBound = some b → b (m.home h) ≠ wordMax → n < b (m.home h)

/-- Lookups with hash value `h` get to probe index `n`. -/
def Open (h : BitVec 64) (n : Nat) : Prop := ∀ k < n, m.word cfg h k ≠ .empty

/-- Lookups with hash value `h` get to slot `s`. -/
def Reaches (h : BitVec 64) (s : Nat) : Prop :=
  ∃ n, cfg.cursor m.capacity h n = s ∧ m.Covers h n ∧ m.Open cfg h n

variable {cfg m}

omit [DecidableEq V] in
theorem Covers.mono {h : BitVec 64} {n k : Nat} (hc : m.Covers h n) (hk : k ≤ n) :
    m.Covers h k :=
  ⟨by have := hc.1; omega, fun b hb hne => by have := hc.2 b hb hne; omega⟩

omit [DecidableEq V] in
theorem Open.mono {h : BitVec 64} {n k : Nat} (ho : m.Open cfg h n) (hk : k ≤ n) :
    m.Open cfg h k :=
  fun j hj => ho j (by omega)

omit [DecidableEq V] in
theorem Covers.lt_boundGet {h : BitVec 64} {n : Nat} (hc : m.Covers h n) :
    n < m.boundGet h := by
  unfold boundGet
  cases hb : m.probeBound with
  | none => exact hc.1
  | some b =>
    dsimp only
    split
    · exact hc.1
    · exact hc.2 b hb ‹_›

theorem view_covers {key : V} {n : Nat} :
    (m.view cfg key).Covers wordMax n ↔ m.Covers (cfg.hf key) n := by
  unfold View.Covers Covers view
  cases m.probeBound with
  | none => simp
  | some b => simp

end Reach

end Map

/-! ## Phases of the writer -/

/-- Where the single writer stands: between relocations, after it has stored the new copy
`dst` of the entry in `src`, or after it has also signalled the readers. -/
inductive Phase where
  | idle
  | copied (src dst : Nat)
  | signalled (src dst : Nat)
  deriving DecidableEq

/-- The copy of a relocated entry that readers must not rely on. -/
def Phase.hidden : Phase → Option Nat
  | .idle => none
  | .copied _ dst => some dst
  | .signalled src _ => some src

namespace Map

/-- Slot `dst` comes before `src` in the probe sequence of `h`. -/
def Before (cfg : Config V) (m : Map V) (h : BitVec 64) (dst src : Nat) : Prop :=
  ∃ i, cfg.cursor m.capacity h i = dst ∧ ∀ j, cfg.cursor m.capacity h j = src → i < j

/-- The two copies of an entry under relocation. -/
def Copies (cfg : Config V) (m : Map V) (src dst : Nat) : Prop :=
  ∃ t u t' v, m.entries src = .entry t u ∧ m.entries dst = .entry t' v ∧
    cfg.keyMatch u v = true ∧ m.Before cfg (cfg.hf v) dst src

/-- The invariant of a map with the writer in a given phase. -/
structure Valid (cfg : Config V) (m : Map V) (ph : Phase) : Prop where
  shape : ∃ k, 3 ≤ k ∧ m.capacity = 2 ^ k
  capacity_le : m.capacity ≤ 2 ^ 31
  outside : ∀ s, m.capacity ≤ s → m.entries s = .empty
  generation_lt : ∀ i, m.generation i < 2 ^ 32
  maximum_le : m.probeMaximum ≤ m.probeLimit
  bound_le : ∀ b, m.probeBound = some b → ∀ i, b i ≤ m.probeLimit
  tag_eq : ∀ s t v, m.entries s = .entry t v → t = cfg.tag (cfg.hf v)
  reaches : ∀ s t v, m.entries s = .entry t v → m.Reaches cfg (cfg.hf v) s
  unique : ∀ s s' t t' v v', m.entries s = .entry t v → m.entries s' = .entry t' v' →
    some s ≠ ph.hidden → some s' ≠ ph.hidden → cfg.keyMatch v v' = true → s = s'
  copies : ∀ src dst, ph = .copied src dst ∨ ph = .signalled src dst → m.Copies cfg src dst

/-- No slot holds the key. -/
def Absent (cfg : Config V) (m : Map V) (key : V) : Prop :=
  ∀ s t u, m.entries s = .entry t u → cfg.keyMatch u key = false

/-- The stores the writer may make, with the phase before and after. -/
inductive Allowed (cfg : Config V) (m : Map V) : Phase → Store V → Phase → Prop
  | nEntries (ph : Phase) (n : Nat) : Allowed cfg m ph (.nEntries n) ph
  | tombstones (ph : Phase) (n : Nat) : Allowed cfg m ph (.tombstones n) ph
  | probeMaximum {n : Nat} (hv : Valid cfg (m.apply (.probeMaximum n)) .idle) :
      Allowed cfg m .idle (.probeMaximum n) .idle
  | probeBound {home n : Nat} (hv : Valid cfg (m.apply (.probeBound home n)) .idle) :
      Allowed cfg m .idle (.probeBound home n) .idle
  | fill {s : Nat} {v : V} (free : ∀ t u, m.entries s ≠ .entry t u)
      (reach : m.Reaches cfg (cfg.hf v) s) (absent : m.Absent cfg v) :
      Allowed cfg m .idle (.entry s (cfg.marshal v (cfg.hf v))) .idle
  | replace {s t : Nat} {u v : V} (at_slot : m.entries s = .entry t u)
      (eq : cfg.keyMatch u v = true) :
      Allowed cfg m .idle (.entry s (cfg.marshal v (cfg.hf v))) .idle
  | copy {src dst t : Nat} {u v : V} (at_src : m.entries src = .entry t u)
      (eq : cfg.keyMatch u v = true) (free : m.entries dst = .tombstone)
      (before : m.Before cfg (cfg.hf v) dst src) (reach : m.Reaches cfg (cfg.hf v) dst) :
      Allowed cfg m .idle (.entry dst (cfg.marshal v (cfg.hf v))) (.copied src dst)
  | signal {src dst t : Nat} {v : V} (at_dst : m.entries dst = .entry t v) :
      Allowed cfg m (.copied src dst)
        (.generation ((cfg.hf v).toNat % generations)
          (inc 32 (m.generation ((cfg.hf v).toNat % generations))))
        (.signalled src dst)
  | retire (src dst : Nat) : Allowed cfg m (.signalled src dst) (.entry src .tombstone) .idle
  | remove {s t : Nat} {u : V} (at_slot : m.entries s = .entry t u) :
      Allowed cfg m .idle (.entry s .tombstone) .idle
  | publish {update : Map V} (hv : Valid cfg update .idle) :
      Allowed cfg m .idle (.map update) .idle

/-! ## Allowed stores keep the invariant -/

section Preservation

variable {cfg : Config V} {m : Map V} {ph ph' : Phase}

theorem Valid.pos (hv : m.Valid cfg ph) : 0 < m.capacity := by
  obtain ⟨k, -, hk⟩ := hv.shape
  rw [hk]
  positivity

theorem Valid.eight_dvd (hv : m.Valid cfg ph) : 8 ∣ m.capacity := by
  obtain ⟨k, hk3, hk⟩ := hv.shape
  rw [hk]
  exact Nat.pow_dvd_pow 2 hk3

theorem Valid.cursor_lt (hv : m.Valid cfg ph) (h : BitVec 64) (n : Nat) :
    cfg.cursor m.capacity h n < m.capacity :=
  Hs.cursor_lt cfg hv.pos hv.eight_dvd h n

theorem Valid.live_lt (hv : m.Valid cfg ph) {s t : Nat} {v : V}
    (hs : m.entries s = .entry t v) : s < m.capacity := by
  by_contra hge
  rw [hv.outside s (by omega)] at hs
  cases hs

omit [DecidableEq V] in
theorem Reaches.store {h : BitVec 64} {s s' : Nat} {w : Slot V} (hw : w ≠ .empty)
    (hr : m.Reaches cfg h s') : (m.apply (.entry s w)).Reaches cfg h s' := by
  obtain ⟨n, hn, hc, ho⟩ := hr
  refine ⟨n, hn, hc, fun k hk => ?_⟩
  show Function.update m.entries s w (cfg.cursor m.capacity h k) ≠ .empty
  rw [Function.update_apply]
  split
  · exact hw
  · exact ho k hk

/-- A store of a non-empty word to a slot. What is left to show is about the new word and the
two copies of a relocated entry. -/
theorem Valid.store (hv : m.Valid cfg ph) {s : Nat} {w : Slot V} (hs : s < m.capacity)
    (hw : w ≠ .empty) (htag : ∀ t v, w = .entry t v → t = cfg.tag (cfg.hf v))
    (hreach : ∀ t v, w = .entry t v → m.Reaches cfg (cfg.hf v) s)
    (hunique : ∀ i i' t t' v v', Function.update m.entries s w i = .entry t v →
      Function.update m.entries s w i' = .entry t' v' → some i ≠ ph'.hidden →
      some i' ≠ ph'.hidden → cfg.keyMatch v v' = true → i = i')
    (hcopies : ∀ src dst, ph' = .copied src dst ∨ ph' = .signalled src dst →
      (m.apply (.entry s w)).Copies cfg src dst) :
    (m.apply (.entry s w)).Valid cfg ph' where
  shape := hv.shape
  capacity_le := hv.capacity_le
  outside i hi := by
    show Function.update m.entries s w i = .empty
    rw [Function.update_of_ne (by have : m.capacity ≤ i := hi; omega)]
    exact hv.outside i hi
  generation_lt := hv.generation_lt
  maximum_le := hv.maximum_le
  bound_le := hv.bound_le
  tag_eq i t v hi := by
    change Function.update m.entries s w i = _ at hi
    rw [Function.update_apply] at hi
    split at hi
    · exact htag t v hi
    · exact hv.tag_eq i t v hi
  reaches i t v hi := by
    change Function.update m.entries s w i = _ at hi
    rw [Function.update_apply] at hi
    split at hi
    · rename_i his
      rw [his]
      exact (hreach t v hi).store hw
    · exact (hv.reaches i t v hi).store hw
  unique := hunique
  copies := hcopies

omit [DecidableEq V] in
theorem marshal_ne_empty (v : V) (h : BitVec 64) : cfg.marshal v h ≠ .empty := by
  simp [Config.marshal]

omit [DecidableEq V] in
theorem marshal_eq {v u : V} {h : BitVec 64} {t : Nat} (he : cfg.marshal v h = .entry t u) :
    t = cfg.tag h ∧ u = v := by
  unfold Config.marshal at he
  cases he
  exact ⟨rfl, rfl⟩

/-- Changes to the probe bounds keep the invariant if no live slot gets out of reach. -/
theorem Valid.rebound {m' : Map V} (hv : m.Valid cfg ph) (hcap : m'.capacity = m.capacity)
    (hent : m'.entries = m.entries) (hgen : m'.generation = m.generation)
    (hmax : m'.probeMaximum ≤ m'.probeLimit)
    (hbound : ∀ b, m'.probeBound = some b → ∀ i, b i ≤ m'.probeLimit)
    (hreach : ∀ s t v, m.entries s = .entry t v → m'.Reaches cfg (cfg.hf v) s) :
    m'.Valid cfg ph where
  shape := hcap ▸ hv.shape
  capacity_le := hcap ▸ hv.capacity_le
  outside s hs := by rw [hent]; exact hv.outside s (hcap ▸ hs)
  generation_lt := hgen ▸ hv.generation_lt
  maximum_le := hmax
  bound_le := hbound
  tag_eq := hent ▸ hv.tag_eq
  reaches s t v hs := hreach s t v (hent ▸ hs)
  unique := hent ▸ hv.unique
  copies src dst h := by
    obtain ⟨t, u, t', v, h1, h2, h3, h4⟩ := hv.copies src dst h
    exact ⟨t, u, t', v, hent ▸ h1, hent ▸ h2, h3, by unfold Before; rw [hcap]; exact h4⟩

/-- A store that changes neither slots nor bounds. -/
theorem Valid.frame {m' : Map V} (hv : m.Valid cfg ph) (hcap : m'.capacity = m.capacity)
    (hent : m'.entries = m.entries) (hgen : m'.generation = m.generation)
    (hmax : m'.probeMaximum = m.probeMaximum) (hbound : m'.probeBound = m.probeBound) :
    m'.Valid cfg ph := by
  have hlim : m'.probeLimit = m.probeLimit := by unfold probeLimit; rw [hcap]
  refine hv.rebound hcap hent hgen ?_ ?_ fun s t v hs => ?_
  · rw [hmax, hlim]; exact hv.maximum_le
  · rw [hbound, hlim]; exact hv.bound_le
  · obtain ⟨n, hn, hc, ho⟩ := hv.reaches s t v hs
    refine ⟨n, hcap ▸ hn, ?_, ?_⟩
    · unfold Covers home
      rw [hmax, hbound, hcap]
      exact hc
    · unfold Open word
      rw [hent, hcap]
      exact ho

theorem Valid.fill (hv : m.Valid cfg .idle) (hl : cfg.Lawful) {s : Nat} {v : V}
    (reach : m.Reaches cfg (cfg.hf v) s) (absent : m.Absent cfg v) :
    (m.apply (.entry s (cfg.marshal v (cfg.hf v)))).Valid cfg .idle := by
  have hs : s < m.capacity := by
    obtain ⟨n, rfl, -⟩ := reach
    exact hv.cursor_lt _ n
  refine hv.store hs (marshal_ne_empty v _) ?_ ?_ ?_ ?_
  · intro t u he
    obtain ⟨rfl, rfl⟩ := marshal_eq he
    rfl
  · intro t u he
    obtain ⟨-, rfl⟩ := marshal_eq he
    exact reach
  · intro i i' t t' u u' hi hi' hne hne' hm
    rw [Function.update_apply] at hi hi'
    split at hi <;> split at hi'
    · rename_i h1 h2; rw [h1, h2]
    · obtain ⟨-, rfl⟩ := marshal_eq hi
      have := absent i' t' u' hi'
      rw [hl.symm hm] at this
      cases this
    · obtain ⟨-, rfl⟩ := marshal_eq hi'
      have := absent i t u hi
      rw [hm] at this
      cases this
    · exact hv.unique i i' t t' u u' hi hi' hne hne' hm
  · rintro src dst (h | h) <;> cases h

theorem Valid.replace (hv : m.Valid cfg .idle) (hl : cfg.Lawful) {s t : Nat} {u v : V}
    (at_slot : m.entries s = .entry t u) (eq : cfg.keyMatch u v = true) :
    (m.apply (.entry s (cfg.marshal v (cfg.hf v)))).Valid cfg .idle := by
  refine hv.store (hv.live_lt at_slot) (marshal_ne_empty v _) ?_ ?_ ?_ ?_
  · intro t u he
    obtain ⟨rfl, rfl⟩ := marshal_eq he
    rfl
  · intro t' u' he
    obtain ⟨-, rfl⟩ := marshal_eq he
    rw [← hl.hf_eq eq]
    exact hv.reaches s t u at_slot
  · intro i i' t₁ t₂ u₁ u₂ hi hi' hne hne' hm
    rw [Function.update_apply] at hi hi'
    split at hi <;> split at hi'
    · rename_i h1 h2; rw [h1, h2]
    · rename_i h1 _
      obtain ⟨-, rfl⟩ := marshal_eq hi
      rw [h1]
      exact hv.unique s i' t t₂ u u₂ at_slot hi' nofun nofun (hl.trans eq hm)
    · rename_i _ h2
      obtain ⟨-, rfl⟩ := marshal_eq hi'
      rw [h2]
      exact hv.unique i s t₁ t u₁ u hi at_slot nofun nofun (hl.trans hm (hl.symm eq))
    · exact hv.unique i i' t₁ t₂ u₁ u₂ hi hi' hne hne' hm
  · rintro src dst (h | h) <;> cases h

theorem Valid.copy (hv : m.Valid cfg .idle) {src dst t : Nat} {u v : V}
    (at_src : m.entries src = .entry t u) (eq : cfg.keyMatch u v = true)
    (free : m.entries dst = .tombstone) (before : m.Before cfg (cfg.hf v) dst src)
    (reach : m.Reaches cfg (cfg.hf v) dst) :
    (m.apply (.entry dst (cfg.marshal v (cfg.hf v)))).Valid cfg (.copied src dst) := by
  have hne : src ≠ dst := by rintro rfl; rw [free] at at_src; cases at_src
  have hdst : dst < m.capacity := by
    obtain ⟨n, rfl, -⟩ := reach
    exact hv.cursor_lt _ n
  refine hv.store hdst (marshal_ne_empty v _) ?_ ?_ ?_ ?_
  · intro t u he
    obtain ⟨rfl, rfl⟩ := marshal_eq he
    rfl
  · intro t u he
    obtain ⟨-, rfl⟩ := marshal_eq he
    exact reach
  · -- the new copy does not count yet
    intro i i' t₁ t₂ u₁ u₂ hi hi' hh hh' hm
    rw [Function.update_of_ne (fun h => hh (congrArg some h))] at hi
    rw [Function.update_of_ne (fun h => hh' (congrArg some h))] at hi'
    exact hv.unique i i' t₁ t₂ u₁ u₂ hi hi' nofun nofun hm
  · rintro src' dst' (h | h)
    · cases h
      refine ⟨t, u, _, v, ?_, Function.update_self _ _ _, eq, before⟩
      exact (Function.update_of_ne hne _ _).trans at_src
    · cases h

omit [DecidableEq V] in
theorem Before.ne {h : BitVec 64} {src dst : Nat} (hb : m.Before cfg h dst src) : src ≠ dst := by
  rintro rfl
  obtain ⟨i, hi, hlt⟩ := hb
  exact absurd (hlt i hi) (Nat.lt_irrefl i)

/-- Of two slots with the key of a relocated entry one is hidden before the signal. -/
theorem Valid.copied_unique {src dst : Nat} (hv : m.Valid cfg (.copied src dst))
    (hl : cfg.Lawful) {s t t' : Nat} {v v' : V} (hdst : m.entries dst = .entry t v)
    (hs : m.entries s = .entry t' v') (hne : s ≠ dst) (hm : cfg.keyMatch v v' = true) :
    s = src := by
  obtain ⟨t₁, u, t₂, w, hsrc, hdst', huw, hbefore⟩ := hv.copies src dst (.inl rfl)
  have he : Slot.entry t v = .entry t₂ w := hdst.symm.trans hdst'
  cases he
  refine (hv.unique src s _ _ _ _ hsrc hs ?_ ?_ (hl.trans huw hm)).symm
  · exact fun h => hbefore.ne (Option.some.inj h)
  · exact fun h => hne (Option.some.inj h)

theorem Valid.signal {src dst : Nat} (hv : m.Valid cfg (.copied src dst)) (hl : cfg.Lawful)
    (i : Nat) :
    (m.apply (.generation i (inc 32 (m.generation i)))).Valid cfg (.signalled src dst) where
  shape := hv.shape
  capacity_le := hv.capacity_le
  outside := hv.outside
  generation_lt j := by
    show Function.update m.generation i _ j < _
    rw [Function.update_apply]
    split
    · exact Nat.mod_lt _ (by decide)
    · exact hv.generation_lt j
  maximum_le := hv.maximum_le
  bound_le := hv.bound_le
  tag_eq := hv.tag_eq
  reaches := hv.reaches
  unique s s' t t' v v' hs hs' hh hh' hm := by
    by_cases h1 : s = dst <;> by_cases h2 : s' = dst
    · rw [h1, h2]
    · subst h1
      exact absurd (congrArg some (hv.copied_unique hl hs hs' h2 hm)) hh'
    · subst h2
      exact absurd (congrArg some (hv.copied_unique hl hs' hs h1 (hl.symm hm))) hh
    · refine hv.unique s s' t t' v v' hs hs' ?_ ?_ hm
      · exact fun h => h1 (Option.some.inj h)
      · exact fun h => h2 (Option.some.inj h)
  copies src' dst' h := by
    rcases h with h | h
    · cases h
    · cases h
      exact hv.copies src dst (.inl rfl)

/-- A tombstone over a slot, after which no copy is hidden. -/
theorem Valid.bury (hv : m.Valid cfg ph) {s t : Nat} {u : V} (at_slot : m.entries s = .entry t u)
    (hidden : ∀ i, some i = ph.hidden → i = s) :
    (m.apply (.entry s .tombstone)).Valid cfg .idle := by
  refine hv.store (hv.live_lt at_slot) nofun nofun nofun ?_ ?_
  · intro i i' t₁ t₂ u₁ u₂ hi hi' _ _ hm
    rw [Function.update_apply] at hi hi'
    split at hi
    · cases hi
    · split at hi'
      · cases hi'
      · rename_i h1 h2
        exact hv.unique i i' t₁ t₂ u₁ u₂ hi hi' (fun h => h1 (hidden i h))
          (fun h => h2 (hidden i' h)) hm
  · rintro src dst (h | h) <;> cases h

theorem Valid.src_live {src dst : Nat} (hv : m.Valid cfg (.signalled src dst)) :
    ∃ t u, m.entries src = .entry t u := by
  obtain ⟨t, u, -, -, hsrc, -⟩ := hv.copies src dst (.inr rfl)
  exact ⟨t, u, hsrc⟩

/-- Every allowed store keeps the invariant. -/
theorem Allowed.valid (hl : cfg.Lawful) {st : Store V} (hv : m.Valid cfg ph)
    (ha : m.Allowed cfg ph st ph') : (m.apply st).Valid cfg ph' := by
  cases ha with
  | nEntries n => exact hv.frame rfl rfl rfl rfl rfl
  | tombstones n => exact hv.frame rfl rfl rfl rfl rfl
  | probeMaximum hv' => exact hv'
  | probeBound hv' => exact hv'
  | fill free reach absent => exact hv.fill hl reach absent
  | replace at_slot eq => exact hv.replace hl at_slot eq
  | copy at_src eq free before reach => exact hv.copy at_src eq free before reach
  | signal at_dst => exact hv.signal hl _
  | retire src dst =>
    obtain ⟨t, u, hsrc⟩ := hv.src_live
    exact hv.bury hsrc (fun i h => Option.some.inj h)
  | remove at_slot => exact hv.bury at_slot nofun
  | publish hv' => exact hv'

/-! ## Sequences of allowed stores -/

/-- A sequence of allowed stores from one phase to another. -/
inductive Path (cfg : Config V) : Map V → Phase → List (Store V) → Phase → Prop
  | nil (m : Map V) (ph : Phase) : Path cfg m ph [] ph
  | cons {m : Map V} {ph ph' ph'' : Phase} {st : Store V} {sts : List (Store V)}
      (head : m.Allowed cfg ph st ph') (tail : Path cfg (m.apply st) ph' sts ph'') :
      Path cfg m ph (st :: sts) ph''

theorem Path.one {st : Store V} (h : m.Allowed cfg ph st ph') : Path cfg m ph [st] ph' :=
  .cons h (.nil _ _)

theorem Path.append {ph'' : Phase} {xs ys : List (Store V)} (hx : Path cfg m ph xs ph')
    (hy : Path cfg (m.applyAll xs) ph' ys ph'') : Path cfg m ph (xs ++ ys) ph'' := by
  induction hx with
  | nil m ph => exact hy
  | cons head tail ih => exact .cons head (ih hy)

theorem Path.valid (hl : cfg.Lawful) {sts : List (Store V)} (hv : m.Valid cfg ph)
    (hp : Path cfg m ph sts ph') : (m.applyAll sts).Valid cfg ph' := by
  induction hp with
  | nil m ph => exact hv
  | cons head tail ih => exact ih (head.valid hl hv)

end Preservation

end Map

end ConcurrencyKit.Hs
