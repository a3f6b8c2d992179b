import ConcurrencyKit.Ht.Probe

/-!
# The invariant of a `ck_ht` map

A map is `Valid` when every live slot is reached by the lookups of its key, within the probe
bounds and past no empty slot, and no key is in two slots. Moving an entry breaks the last
condition for a moment: the writer first changes the deletion counter, then fills a tombstone
with the copy, changes the counter again and gives up the old slot. `ck_ht_set_spmc` breaks the
first: it raises the probe bound after it has stored a new key. The `Phase` of the writer says
how far it got and which slot does not count.

`Allowed` lists the stores the writer makes. Its last index tells the stores that change nothing
for the lookups of any key from those that insert, replace or delete an association in one
step, and from the `rough` ones that take an association apart before the eyes of the readers.
-/

namespace ConcurrencyKit.Ht

/-- How far the writer is with the use of a tombstone or with moving an entry. -/
inductive Phase where
  | idle
  /-- The counter has changed and the tombstone in `slot` may be used. -/
  | reusing (slot : Nat)
  /-- The copy is in place and the counter has not changed. -/
  | copied (src dst : Nat)
  /-- The counter has changed and the old copy is still there. -/
  | retiring (src dst : Nat)
  /-- A new key is in `slot`, which is at probe index `n`, and the bounds have not been raised. -/
  | unbound (slot n : Nat)
  deriving DecidableEq, Repr

/-- The slot that does not count. -/
def Phase.hidden : Phase → Option Nat
  | .copied _ dst => some dst
  | .retiring src _ => some src
  | .unbound s _ => some s
  | _ => none

/-- How a store, or a sequence of them, changes the associations: not at all, in one step, or in
any other way. -/
inductive Kind where
  | quiet
  | commit
  | rough
  deriving DecidableEq, Repr

/-- The kind of two sequences made one after the other. -/
def Kind.join : Kind → Kind → Kind
  | .quiet, k => k
  | .commit, .quiet => .commit
  | _, _ => .rough

theorem Kind.join_quiet (k : Kind) : k.join .quiet = k := by cases k <;> rfl

theorem Kind.join_assoc (a b c : Kind) : (a.join b).join c = a.join (b.join c) := by
  cases a <;> cases b <;> cases c <;> rfl

/-- The slot to which a store of a word goes. -/
def Store.slot : Store → Option Nat
  | .key s _ | .value s _ | .keyLength s _ | .hash s _ => some s
  | _ => none

/-- A store to the probe bounds. -/
def Store.isBound : Store → Bool
  | .probeMaximum _ | .probeBound _ _ => true
  | _ => false

/-- What can be stored as an entry. -/
structure Entry.Proper (cfg : Config) (e : Entry) : Prop where
  live : e.live = true
  sound : cfg.Sound e
  packed : cfg.Packed e

namespace Map

section Reach

variable (cfg : Config) (m : Map)

/-- The slots before probe index `n` are not empty. -/
def Open (h : Word) (n : Nat) : Prop := ∀ k < n, (m.word cfg h k).key ≠ keyEmpty

/-- Whichever way a reader obtains its probe bound, the bound covers index `n`. -/
def Covers (h : Word) (n : Nat) : Prop :=
  n < m.probeMaximum ∧ ∀ b, m.probeBound = some b → b (m.home h) ≠ wordMax → n < b (m.home h)

/-- The lookups of a hash value get to slot `s`. -/
def Reaches (h : Word) (s : Nat) : Prop :=
  ∃ n < m.probeSlots cfg, cfg.cursor m.capacity h n = s ∧ m.Covers h n ∧ m.Open cfg h n

/-- The lookups of a hash value get to slot `a` before they get to slot `b`. -/
def Before (h : Word) (a b : Nat) : Prop :=
  ∃ i, cfg.cursor m.capacity h i = a ∧ ∀ j, cfg.cursor m.capacity h j = b → i < j

/-- Both slots hold the key, and the second comes first. -/
structure Copies (src dst : Nat) : Prop where
  src_live : (m.entries src).live = true
  dst_live : (m.entries dst).live = true
  ident : cfg.ident (m.entries src) = cfg.ident (m.entries dst)
  before : m.Before cfg (cfg.hashOf (m.entries dst)) dst src

/-- A new key is at index `n` of its probe sequence. -/
structure Unbound (s n : Nat) : Prop where
  live : (m.entries s).live = true
  lt : n < m.probeSlots cfg
  at_index : cfg.cursor m.capacity (cfg.hashOf (m.entries s)) n = s
  open_path : m.Open cfg (cfg.hashOf (m.entries s)) n
  alone : ∀ i, (m.entries i).live = true →
    cfg.ident (m.entries i) = cfg.ident (m.entries s) → i = s

/-- No slot holds the key of `x`. -/
def Absent (x : Entry) : Prop :=
  ∀ s, (m.entries s).live = true → cfg.ident (m.entries s) ≠ cfg.ident x

/-- No stored string is at the address of the one of `x` with another length. -/
def Fits (x : Entry) : Prop := ∀ s, (m.entries s).live = true → cfg.Unaliased x (m.entries s)

/-- The stored associations. -/
def objects : Set Entry := {e | e.live = true ∧ ∃ s, m.entries s = e}

end Reach

/-- The invariant of a map. -/
structure Valid (cfg : Config) (m : Map) (ph : Phase) : Prop where
  shape : ∃ k, cfg.bucketShift ≤ k ∧ m.capacity = 2 ^ k
  capacity_le : m.capacity ≤ 2 ^ 31
  outside : ∀ s, m.capacity ≤ s → (m.entries s).key = keyEmpty
  deletions_lt : m.deletions < 2 ^ 64
  packed : ∀ s, cfg.Packed (m.entries s)
  sound : ∀ s, (m.entries s).live = true → cfg.Sound (m.entries s)
  unaliased : ∀ s s', (m.entries s).live = true → (m.entries s').live = true →
    cfg.Unaliased (m.entries s) (m.entries s')
  reaches : ∀ s, (m.entries s).live = true → (∀ n, ph ≠ .unbound s n) →
    m.Reaches cfg (cfg.hashOf (m.entries s)) s
  unique : ∀ s s', (m.entries s).live = true → (m.entries s').live = true →
    some s ≠ ph.hidden → some s' ≠ ph.hidden →
    cfg.ident (m.entries s) = cfg.ident (m.entries s') → s = s'
  copies : ∀ src dst, ph = .copied src dst ∨ ph = .retiring src dst → m.Copies cfg src dst
  reusing : ∀ s, ph = .reusing s → s < m.capacity ∧ (m.entries s).key = keyTombstone
  unbound : ∀ s n, ph = .unbound s n → m.Unbound cfg s n

/-- The stores the writer may make, with the phase before and after and the kind. -/
inductive Allowed (cfg : Config) (m : Map) : Phase → Store → Phase → Kind → Prop
  | nEntries (ph : Phase) (n : Nat) : Allowed cfg m ph (.nEntries n) ph .quiet
  | rebound {ph : Phase} {st : Store} (bound : st.isBound = true)
      (hv : Valid cfg (m.apply st) ph) : Allowed cfg m ph st ph .quiet
  /-- The bounds cover a new key. -/
  | cover {s n : Nat} {st : Store} (bound : st.isBound = true)
      (hv : Valid cfg (m.apply st) .idle) : Allowed cfg m (.unbound s n) st .idle .quiet
  /-- The word is there already. -/
  | same {ph : Phase} {st : Store} {s : Nat} (slot : st.slot = some s) (eq : m.apply st = m) :
      Allowed cfg m ph st ph .quiet
  | reuse {s : Nat} (lt : s < m.capacity) (dead : (m.entries s).key = keyTombstone) :
      Allowed cfg m .idle m.bump (.reusing s) .quiet
  /-- A word other than the key is stored to a slot that is not live and that no reader may have
  met as a live one since the counter changed. -/
  | prepare {ph : Phase} {st : Store} {s : Nat} {e : Entry} (slot : st.slot = some s)
      (eq : m.apply st = m.put s e) (key : e.key = (m.entries s).key) (packed : cfg.Packed e)
      (free : ph = .reusing s ∨ (ph = .idle ∧ (m.entries s).key = keyEmpty)) :
      Allowed cfg m ph st ph .quiet
  /-- The same, before the counter changes. -/
  | spoil {st : Store} {s : Nat} {e : Entry} (slot : st.slot = some s)
      (eq : m.apply st = m.put s e) (key : e.key = (m.entries s).key) (packed : cfg.Packed e)
      (dead : (m.entries s).live = false) : Allowed cfg m .idle st .idle .rough
  | fill {ph : Phase} {st : Store} {s : Nat} {e : Entry} (slot : st.slot = some s)
      (eq : m.apply st = m.put s e) (proper : e.Proper cfg)
      (reach : m.Reaches cfg (cfg.hashOf e) s) (absent : m.Absent cfg e) (fits : m.Fits cfg e)
      (free : ph = .reusing s ∨ (ph = .idle ∧ (m.entries s).key = keyEmpty)) :
      Allowed cfg m ph st .idle .commit
  /-- A new key is stored where the bounds need not cover it yet. -/
  | insert {ph : Phase} {st : Store} {s n : Nat} {e : Entry} (slot : st.slot = some s)
      (eq : m.apply st = m.put s e) (proper : e.Proper cfg) (lt : n < m.probeSlots cfg)
      (at_index : cfg.cursor m.capacity (cfg.hashOf e) n = s)
      (open_path : m.Open cfg (cfg.hashOf e) n) (absent : m.Absent cfg e) (fits : m.Fits cfg e)
      (free : ph = .reusing s ∨ (ph = .idle ∧ (m.entries s).key = keyEmpty)) :
      Allowed cfg m ph st (.unbound s n) .commit
  /-- The value of an association is replaced. -/
  | assign {s : Nat} {w : Word} (live : (m.entries s).live = true) :
      Allowed cfg m .idle (.value s w) .idle .commit
  /-- A word of a live slot is replaced in any other way that keeps the key. -/
  | edit {st : Store} {s : Nat} {e : Entry} (slot : st.slot = some s)
      (eq : m.apply st = m.put s e) (live : (m.entries s).live = true) (proper : e.Proper cfg)
      (ident : cfg.ident e = cfg.ident (m.entries s)) (fits : m.Fits cfg e) :
      Allowed cfg m .idle st .idle .rough
  | copy {st : Store} {src dst : Nat} {e : Entry} (slot : st.slot = some dst)
      (eq : m.apply st = m.put dst e) (at_src : (m.entries src).live = true)
      (proper : e.Proper cfg) (ident : cfg.ident (m.entries src) = cfg.ident e)
      (fits : m.Fits cfg e) (before : m.Before cfg (cfg.hashOf e) dst src)
      (reach : m.Reaches cfg (cfg.hashOf e) dst) :
      Allowed cfg m (.reusing dst) st (.copied src dst)
        (if e = m.entries src then .quiet else .rough)
  | signal (src dst : Nat) : Allowed cfg m (.copied src dst) m.bump (.retiring src dst) .quiet
  | retire (src dst : Nat) :
      Allowed cfg m (.retiring src dst) (.key src keyTombstone) .idle
        (if m.entries dst = m.entries src then .quiet else .rough)
  | remove {s : Nat} (live : (m.entries s).live = true) :
      Allowed cfg m .idle (.key s keyTombstone) .idle .commit
  | publish {update : Map} (hv : Valid cfg update .idle) (same : update.objects = m.objects) :
      Allowed cfg m .idle (.map update) .idle .quiet
  | reset {update : Map} (hv : Valid cfg update .idle) :
      Allowed cfg m .idle (.map update) .idle .rough

/-! ## Allowed stores keep the invariant -/

section Preservation

variable {cfg : Config} {m : Map} {ph ph' : Phase}

theorem Valid.pos (hv : m.Valid cfg ph) : 0 < m.capacity := by
  obtain ⟨k, -, hk⟩ := hv.shape
  rw [hk]
  positivity

theorem Valid.bucket_dvd (hv : m.Valid cfg ph) : cfg.bucketLength ∣ m.capacity := by
  obtain ⟨k, hle, hk⟩ := hv.shape
  rw [hk]
  exact Nat.pow_dvd_pow 2 hle

theorem Valid.cursor_lt (hv : m.Valid cfg ph) (h : Word) (n : Nat) :
    cfg.cursor m.capacity h n < m.capacity :=
  Ht.cursor_lt cfg hv.pos hv.bucket_dvd h n

theorem Valid.live_lt (hv : m.Valid cfg ph) {s : Nat} (hs : (m.entries s).live = true) :
    s < m.capacity := by
  by_contra hge
  exact (ne_of_live hs).1 (hv.outside s (by omega))

theorem Valid.reach_lt (hv : m.Valid cfg ph) {h : Word} {s : Nat} (hr : m.Reaches cfg h s) :
    s < m.capacity := by
  obtain ⟨n, -, rfl, -⟩ := hr
  exact hv.cursor_lt h n

theorem word_put {h : Word} {s n : Nat} {e : Entry} :
    (m.put s e).word cfg h n = if cfg.cursor m.capacity h n = s then e else m.word cfg h n := by
  show Function.update m.entries s e (cfg.cursor m.capacity h n) = _
  rw [Function.update_apply]
  rfl

theorem Open.put {h : Word} {s n : Nat} {e : Entry}
    (hk : e.key = keyEmpty → (m.entries s).key = keyEmpty) (ho : m.Open cfg h n) :
    (m.put s e).Open cfg h n := by
  intro k hkn
  rw [word_put]
  split
  · rename_i hs
    intro he
    refine ho k hkn ?_
    rw [word, hs]
    exact hk he
  · exact ho k hkn

theorem Reaches.put {h : Word} {s s' : Nat} {e : Entry}
    (hk : e.key = keyEmpty → (m.entries s).key = keyEmpty) (hr : m.Reaches cfg h s') :
    (m.put s e).Reaches cfg h s' := by
  obtain ⟨n, hn, hs, hc, ho⟩ := hr
  exact ⟨n, hn, hs, hc, ho.put hk⟩

theorem unaliased_symm {a b : Entry} (h : cfg.Unaliased a b) : cfg.Unaliased b a :=
  fun hm hk => (h hm hk.symm).symm

/-- A store to a slot that empties none. What is left to show is about the new entry and the two
copies of a moved one. -/
theorem Valid.put (hv : m.Valid cfg ph) (hph : ∀ i n, ph ≠ .unbound i n) {s : Nat} {e : Entry}
    (hk : e.key = keyEmpty → (m.entries s).key = keyEmpty)
    (hs : e.key ≠ keyEmpty → s < m.capacity) (hpacked : cfg.Packed e)
    (hsound : e.live = true → cfg.Sound e)
    (hfits : e.live = true → ∀ i, i ≠ s → (m.entries i).live = true →
      cfg.Unaliased e (m.entries i))
    (hreach : e.live = true → (∀ n, ph' ≠ .unbound s n) → m.Reaches cfg (cfg.hashOf e) s)
    (hunique : ∀ i i', ((m.put s e).entries i).live = true →
      ((m.put s e).entries i').live = true → some i ≠ ph'.hidden → some i' ≠ ph'.hidden →
      cfg.ident ((m.put s e).entries i) = cfg.ident ((m.put s e).entries i') → i = i')
    (hcopies : ∀ src dst, ph' = .copied src dst ∨ ph' = .retiring src dst →
      (m.put s e).Copies cfg src dst)
    (hreusing : ∀ i, ph' = .reusing i → i < m.capacity ∧
      ((m.put s e).entries i).key = keyTombstone)
    (hunbound : ∀ i n, ph' = .unbound i n → (m.put s e).Unbound cfg i n) :
    (m.put s e).Valid cfg ph' where
  shape := hv.shape
  capacity_le := hv.capacity_le
  outside i hi := by
    by_cases his : i = s
    · rw [his, put_entries_self]
      by_contra hne
      have := hs hne
      have : m.capacity ≤ i := hi
      omega
    · rw [put_entries_of_ne m his]
      exact hv.outside i hi
  deletions_lt := hv.deletions_lt
  packed i := by
    by_cases his : i = s
    · rw [his, put_entries_self]
      exact hpacked
    · rw [put_entries_of_ne m his]
      exact hv.packed i
  sound i := by
    by_cases his : i = s
    · rw [his, put_entries_self]
      exact hsound
    · rw [put_entries_of_ne m his]
      exact hv.sound i
  unaliased i i' := by
    by_cases his : i = s <;> by_cases his' : i' = s
    · rw [his, his', put_entries_self]
      exact fun _ _ _ _ => rfl
    · rw [his, put_entries_self, put_entries_of_ne m his']
      exact fun hl hl' => hfits hl i' his' hl'
    · rw [his', put_entries_self, put_entries_of_ne m his]
      exact fun hl hl' => unaliased_symm (hfits hl' i his hl)
    · rw [put_entries_of_ne m his, put_entries_of_ne m his']
      exact hv.unaliased i i'
  reaches i := by
    by_cases his : i = s
    · rw [his, put_entries_self]
      exact fun hl hb => (hreach hl hb).put hk
    · rw [put_entries_of_ne m his]
      exact fun hl _ => (hv.reaches i hl (hph i)).put hk
  unique := hunique
  copies := hcopies
  reusing := hreusing
  unbound := hunbound

theorem Unbound.congr {m' : Map} {s n : Nat} (hcap : m'.capacity = m.capacity)
    (hent : m'.entries = m.entries) (h : m.Unbound cfg s n) : m'.Unbound cfg s n where
  live := hent ▸ h.live
  lt := by
    unfold probeSlots probeLimit
    rw [hcap]
    exact h.lt
  at_index := by
    rw [hent, hcap]
    exact h.at_index
  open_path := by
    unfold Open word
    rw [hent, hcap]
    exact h.open_path
  alone := by
    rw [hent]
    exact h.alone

/-- Changes to bounds and counters keep the invariant if no live slot gets out of reach. -/
theorem Valid.rebound {m' : Map} (hv : m.Valid cfg ph) (hcap : m'.capacity = m.capacity)
    (hent : m'.entries = m.entries) (hdel : m'.deletions < 2 ^ 64)
    (hreach : ∀ s, (m.entries s).live = true → (∀ n, ph ≠ .unbound s n) →
      m'.Reaches cfg (cfg.hashOf (m.entries s)) s) :
    m'.Valid cfg ph where
  shape := hcap ▸ hv.shape
  capacity_le := hcap ▸ hv.capacity_le
  outside s hs := by
    rw [hent]
    exact hv.outside s (hcap ▸ hs)
  deletions_lt := hdel
  packed := hent ▸ hv.packed
  sound := hent ▸ hv.sound
  unaliased := hent ▸ hv.unaliased
  reaches s := by
    rw [hent]
    exact hreach s
  unique := hent ▸ hv.unique
  copies src dst h := by
    obtain ⟨h1, h2, h3, h4⟩ := hv.copies src dst h
    constructor
    · rw [hent]; exact h1
    · rw [hent]; exact h2
    · rw [hent]; exact h3
    · unfold Before
      rw [hent, hcap]
      exact h4
  reusing := by
    rw [hent, hcap]
    exact hv.reusing
  unbound s n h := (hv.unbound s n h).congr hcap hent

theorem Reaches.congr {m' : Map} {h : Word} {s : Nat} (hcap : m'.capacity = m.capacity)
    (hent : m'.entries = m.entries) (hmax : m'.probeMaximum = m.probeMaximum)
    (hbound : m'.probeBound = m.probeBound) (hr : m.Reaches cfg h s) : m'.Reaches cfg h s := by
  obtain ⟨n, hn, hs, hc, ho⟩ := hr
  refine ⟨n, ?_, hcap ▸ hs, ?_, ?_⟩
  · unfold probeSlots probeLimit
    rw [hcap]
    exact hn
  · unfold Covers home
    rw [hmax, hbound, hcap]
    exact hc
  · unfold Open word
    rw [hent, hcap]
    exact ho

/-- A change to the counters. -/
theorem Valid.frame {m' : Map} (hv : m.Valid cfg ph) (hcap : m'.capacity = m.capacity)
    (hent : m'.entries = m.entries) (hdel : m'.deletions < 2 ^ 64)
    (hmax : m'.probeMaximum = m.probeMaximum) (hbound : m'.probeBound = m.probeBound) :
    m'.Valid cfg ph :=
  hv.rebound hcap hent hdel fun s hs hb => (hv.reaches s hs hb).congr hcap hent hmax hbound

theorem inc_lt (n : Nat) : inc 64 n < 2 ^ 64 := Nat.mod_lt _ (by decide)

theorem Valid.bump (hv : m.Valid cfg ph) : (m.apply m.bump).Valid cfg ph :=
  hv.frame rfl rfl (inc_lt _) rfl rfl

/-- A tombstone is about to be used. -/
theorem Valid.reuse (hv : m.Valid cfg .idle) {s : Nat} (lt : s < m.capacity)
    (dead : (m.entries s).key = keyTombstone) : m.Valid cfg (.reusing s) :=
  { hv with
    reaches := fun i hi _ => hv.reaches i hi nofun
    unique := fun i i' h1 h2 _ _ => hv.unique i i' h1 h2 nofun nofun
    copies := by rintro _ _ (h | h) <;> cases h
    reusing := by
      rintro i h
      cases h
      exact ⟨lt, dead⟩
    unbound := nofun }

/-- A word other than the key is stored to a slot that is not live. -/
theorem Valid.put_dead (hv : m.Valid cfg ph) (hph : ∀ i n, ph ≠ .unbound i n) {s : Nat}
    {e : Entry} (key : e.key = (m.entries s).key) (packed : cfg.Packed e)
    (dead : (m.entries s).live = false) : (m.put s e).Valid cfg ph := by
  have hdead : e.live = false := by
    rw [Entry.live, key]
    exact dead
  have hlive : ∀ i, ((m.put s e).entries i).live = true → (m.put s e).entries i = m.entries i := by
    intro i hi
    by_cases his : i = s
    · rw [his, put_entries_self, hdead] at hi
      cases hi
    · exact put_entries_of_ne m his e
  have hnot : e.live ≠ true := by
    rw [hdead]
    exact Bool.false_ne_true
  have hkey : ∀ i, ((m.put s e).entries i).key = (m.entries i).key := by
    intro i
    by_cases his : i = s
    · rw [his, put_entries_self]
      exact key
    · rw [put_entries_of_ne m his]
  refine hv.put hph (fun he => key ▸ he) ?_ packed (fun h => absurd h hnot)
    (fun h => absurd h hnot) (fun h => absurd h hnot) ?_ ?_ ?_ fun i n h => absurd h (hph i n)
  · intro hne
    by_contra hge
    exact hne (key.trans (hv.outside s (by omega)))
  · intro i i' hi hi' hh hh'
    have he := hlive i hi
    have he' := hlive i' hi'
    rw [he] at hi ⊢
    rw [he'] at hi' ⊢
    exact hv.unique i i' hi hi' hh hh'
  · intro src dst h
    obtain ⟨h1, h2, h3, h4⟩ := hv.copies src dst h
    have hs : ∀ {i}, (m.entries i).live = true → (m.put s e).entries i = m.entries i := by
      intro i hi
      refine hlive i ?_
      rw [Entry.live, hkey]
      exact hi
    constructor
    · rw [hs h1]; exact h1
    · rw [hs h2]; exact h2
    · rw [hs h1, hs h2]; exact h3
    · rw [hs h2]; exact h4
  · intro i hi
    rw [hkey]
    exact hv.reusing i hi

theorem not_live_of_empty {e : Entry} (h : e.key = keyEmpty) : e.live = false := by
  simp [Entry.live, h]

theorem not_live_of_tombstone {e : Entry} (h : e.key = keyTombstone) : e.live = false := by
  simp [Entry.live, h]

theorem unbound_ne_of_hidden (hidden : ph.hidden = none) (i n : Nat) : ph ≠ .unbound i n := by
  rintro rfl
  cases hidden

/-- After a new key has been stored it is in one slot. -/
theorem Valid.alone (hv : m.Valid cfg ph) (hidden : ph.hidden = none) {s : Nat} {e : Entry}
    (absent : m.Absent cfg e) {i i' : Nat} (hi : ((m.put s e).entries i).live = true)
    (hi' : ((m.put s e).entries i').live = true)
    (hid : cfg.ident ((m.put s e).entries i) = cfg.ident ((m.put s e).entries i')) : i = i' := by
  by_cases his : i = s <;> by_cases his' : i' = s
  · rw [his, his']
  · rw [his, put_entries_self, put_entries_of_ne m his'] at hid
    rw [put_entries_of_ne m his'] at hi'
    exact absurd hid.symm (absent i' hi')
  · rw [his', put_entries_self, put_entries_of_ne m his] at hid
    rw [put_entries_of_ne m his] at hi
    exact absurd hid (absent i hi)
  · rw [put_entries_of_ne m his] at hi hid
    rw [put_entries_of_ne m his'] at hi' hid
    exact hv.unique i i' hi hi' (by rw [hidden]; exact nofun) (by rw [hidden]; exact nofun) hid

/-- A new key is stored to a slot that is not live. -/
theorem Valid.fill (hv : m.Valid cfg ph) (hidden : ph.hidden = none) {s : Nat} {e : Entry}
    (proper : e.Proper cfg) (reach : m.Reaches cfg (cfg.hashOf e) s) (absent : m.Absent cfg e)
    (fits : m.Fits cfg e) : (m.put s e).Valid cfg .idle := by
  have hne := (ne_of_live proper.live).1
  refine hv.put (unbound_ne_of_hidden hidden) (fun he => absurd he hne)
    (fun _ => hv.reach_lt reach) proper.packed (fun _ => proper.sound)
    (fun _ i _ hi => fits i hi) (fun _ _ => reach) ?_ ?_ nofun nofun
  · exact fun i i' hi hi' _ _ hid => hv.alone hidden absent hi hi' hid
  · rintro src dst (h | h) <;> cases h

/-- The same, where the bounds need not cover the key. -/
theorem Valid.insert (hv : m.Valid cfg ph) (hidden : ph.hidden = none) {s n : Nat} {e : Entry}
    (proper : e.Proper cfg) (lt : n < m.probeSlots cfg)
    (at_index : cfg.cursor m.capacity (cfg.hashOf e) n = s)
    (open_path : m.Open cfg (cfg.hashOf e) n) (absent : m.Absent cfg e) (fits : m.Fits cfg e) :
    (m.put s e).Valid cfg (.unbound s n) := by
  have hne := (ne_of_live proper.live).1
  refine hv.put (unbound_ne_of_hidden hidden) (fun he => absurd he hne)
    (fun _ => at_index ▸ hv.cursor_lt _ n) proper.packed (fun _ => proper.sound)
    (fun _ i _ hi => fits i hi) (fun _ hb => absurd rfl (hb n)) ?_ ?_ nofun ?_
  · exact fun i i' hi hi' _ _ hid => hv.alone hidden absent hi hi' hid
  · rintro src dst (h | h) <;> cases h
  · rintro i k h
    cases h
    constructor
    · rw [put_entries_self]
      exact proper.live
    · exact lt
    · rw [put_entries_self]
      exact at_index
    · rw [put_entries_self]
      exact open_path.put fun he => absurd he hne
    · intro i hi hid
      exact hv.alone hidden absent hi (by rw [put_entries_self]; exact proper.live) hid

/-- The entry of a key is replaced in place. -/
theorem Valid.replace (hv : m.Valid cfg .idle) {s : Nat} {e : Entry}
    (live : (m.entries s).live = true) (proper : e.Proper cfg)
    (ident : cfg.ident e = cfg.ident (m.entries s)) (fits : m.Fits cfg e) :
    (m.put s e).Valid cfg .idle := by
  have hne := (ne_of_live proper.live).1
  refine hv.put nofun (fun he => absurd he hne) (fun _ => hv.live_lt live) proper.packed
    (fun _ => proper.sound) (fun _ i _ hi => fits i hi) (fun _ _ => ?_) ?_ ?_ nofun nofun
  · rw [Config.hashOf_eq ident]
    exact hv.reaches s live nofun
  · intro i i' hi hi' _ _ hid
    have hback : ∀ j, ((m.put s e).entries j).live = true →
        (m.entries j).live = true ∧
          cfg.ident ((m.put s e).entries j) = cfg.ident (m.entries j) := by
      intro j hj
      by_cases hjs : j = s
      · rw [hjs, put_entries_self]
        exact ⟨live, ident⟩
      · rw [put_entries_of_ne m hjs] at hj ⊢
        exact ⟨hj, rfl⟩
    rw [(hback i hi).2, (hback i' hi').2] at hid
    exact hv.unique i i' (hback i hi).1 (hback i' hi').1 nofun nofun hid
  · rintro src dst (h | h) <;> cases h

theorem Before.ne {h : Word} {src dst : Nat} (hb : m.Before cfg h dst src) : src ≠ dst := by
  rintro rfl
  obtain ⟨i, hi, hlt⟩ := hb
  exact absurd (hlt i hi) (Nat.lt_irrefl i)

theorem Valid.copy {src dst : Nat} {e : Entry} (hv : m.Valid cfg (.reusing dst))
    (at_src : (m.entries src).live = true) (proper : e.Proper cfg)
    (ident : cfg.ident (m.entries src) = cfg.ident e) (fits : m.Fits cfg e)
    (before : m.Before cfg (cfg.hashOf e) dst src) (reach : m.Reaches cfg (cfg.hashOf e) dst) :
    (m.put dst e).Valid cfg (.copied src dst) := by
  have hne := (ne_of_live proper.live).1
  refine hv.put nofun (fun he => absurd he hne) (fun _ => hv.reach_lt reach) proper.packed
    (fun _ => proper.sound) (fun _ i _ hi => fits i hi) (fun _ _ => reach) ?_ ?_ nofun nofun
  · -- the new copy does not count yet
    intro i i' hi hi' hh hh' hid
    rw [put_entries_of_ne m (fun h => hh (congrArg some h))] at hi hid
    rw [put_entries_of_ne m (fun h => hh' (congrArg some h))] at hi' hid
    exact hv.unique i i' hi hi' nofun nofun hid
  · rintro src' dst' (h | h)
    · cases h
      constructor
      · rw [put_entries_of_ne m before.ne]; exact at_src
      · rw [put_entries_self]; exact proper.live
      · rw [put_entries_of_ne m before.ne, put_entries_self]; exact ident
      · rw [put_entries_self]; exact before
    · cases h

/-- Of two slots with the key of a moved entry one is hidden before the counter changes. -/
theorem Valid.copied_unique {src dst s : Nat} (hv : m.Valid cfg (.copied src dst))
    (hs : (m.entries s).live = true) (hne : s ≠ dst)
    (hid : cfg.ident (m.entries dst) = cfg.ident (m.entries s)) : s = src := by
  have hc := hv.copies src dst (.inl rfl)
  refine (hv.unique src s hc.src_live hs ?_ ?_ (hc.ident.trans hid)).symm
  · exact fun h => hc.before.ne (Option.some.inj h)
  · exact fun h => hne (Option.some.inj h)

theorem Valid.signal {src dst : Nat} (hv : m.Valid cfg (.copied src dst)) :
    (m.apply m.bump).Valid cfg (.retiring src dst) := by
  have hb := hv.bump
  refine { hb with
    reaches := fun i hi _ => hb.reaches i hi nofun
    unique := ?_
    copies := ?_
    reusing := nofun
    unbound := nofun }
  · intro s s' hs hs' hh hh' hid
    by_cases h1 : s = dst <;> by_cases h2 : s' = dst
    · rw [h1, h2]
    · subst h1
      exact absurd (congrArg some (hv.copied_unique hs' h2 hid)) hh'
    · subst h2
      exact absurd (congrArg some (hv.copied_unique hs h1 hid.symm)) hh
    · refine hv.unique s s' hs hs' ?_ ?_ hid
      · exact fun h => h1 (Option.some.inj h)
      · exact fun h => h2 (Option.some.inj h)
  · intro src' dst' h
    rcases h with h | h
    · cases h
    · cases h
      exact hb.copies src dst (.inl rfl)

/-- The entry with the tombstone for its key. -/
def buried (m : Map) (s : Nat) : Entry := { m.entries s with key := keyTombstone }

theorem buried_key_ne (s : Nat) : (m.buried s).key ≠ keyEmpty := by
  show keyTombstone ≠ keyEmpty
  decide

theorem buried_dead (s : Nat) : (m.buried s).live = false := not_live_of_tombstone rfl

/-- A tombstone over a slot, after which no copy is hidden. -/
theorem Valid.bury (hv : m.Valid cfg ph) (hph : ∀ i n, ph ≠ .unbound i n) {s : Nat}
    (live : (m.entries s).live = true) (hidden : ∀ i, some i = ph.hidden → i = s) :
    (m.put s (m.buried s)).Valid cfg .idle := by
  refine hv.put hph (fun he => absurd he (buried_key_ne s)) (fun _ => hv.live_lt live) ?_
    (by rw [buried_dead]; exact nofun) (by rw [buried_dead]; exact nofun)
    (by rw [buried_dead]; exact nofun) ?_ ?_ nofun nofun
  · exact hv.packed s
  · intro i i' hi hi' _ _ hid
    have hne : ∀ j, ((m.put s (m.buried s)).entries j).live = true → j ≠ s := by
      rintro j hj rfl
      rw [put_entries_self, buried_dead] at hj
      cases hj
    have h1 := hne i hi
    have h2 := hne i' hi'
    rw [put_entries_of_ne m h1] at hi hid
    rw [put_entries_of_ne m h2] at hi' hid
    exact hv.unique i i' hi hi' (fun h => h1 (hidden i h)) (fun h => h2 (hidden i' h)) hid
  · rintro src dst (h | h) <;> cases h

theorem proper_value {e : Entry} (hp : e.Proper cfg) (w : Word) :
    Entry.Proper cfg { e with value := w } := by
  refine ⟨hp.live, ?_, hp.packed⟩
  have hs := hp.sound
  unfold Config.Sound Config.entryHash at hs ⊢
  exact hs

theorem Valid.proper (hv : m.Valid cfg ph) {s : Nat} (hs : (m.entries s).live = true) :
    (m.entries s).Proper cfg :=
  ⟨hs, hv.sound s hs, hv.packed s⟩

theorem Valid.fits (hv : m.Valid cfg ph) {s : Nat} (hs : (m.entries s).live = true) :
    m.Fits cfg (m.entries s) :=
  fun i hi => hv.unaliased s i hs hi

/-- Every allowed store keeps the invariant. -/
theorem Allowed.valid {st : Store} {k : Kind} (hv : m.Valid cfg ph)
    (ha : m.Allowed cfg ph st ph' k) : (m.apply st).Valid cfg ph' := by
  cases ha with
  | nEntries n => exact hv.frame rfl rfl hv.deletions_lt rfl rfl
  | rebound bound hv' => exact hv'
  | cover bound hv' => exact hv'
  | same slot eq =>
    rw [eq]
    exact hv
  | reuse lt dead => exact hv.bump.reuse lt dead
  | prepare slot eq key packed free =>
    rw [eq]
    rcases free with rfl | ⟨rfl, he⟩
    · exact hv.put_dead nofun key packed (not_live_of_tombstone (hv.reusing _ rfl).2)
    · exact hv.put_dead nofun key packed (not_live_of_empty he)
  | spoil slot eq key packed dead =>
    rw [eq]
    exact hv.put_dead nofun key packed dead
  | fill slot eq proper reach absent fits free =>
    rw [eq]
    refine hv.fill ?_ proper reach absent fits
    rcases free with rfl | ⟨rfl, -⟩ <;> rfl
  | insert slot eq proper lt at_index open_path absent fits free =>
    rw [eq]
    refine hv.insert ?_ proper lt at_index open_path absent fits
    rcases free with rfl | ⟨rfl, -⟩ <;> rfl
  | assign live => exact hv.replace live (proper_value (hv.proper live) _) rfl (hv.fits live)
  | edit slot eq live proper ident fits =>
    rw [eq]
    exact hv.replace live proper ident fits
  | copy slot eq at_src proper ident fits before reach =>
    rw [eq]
    exact hv.copy at_src proper ident fits before reach
  | signal src dst => exact hv.signal
  | retire src dst =>
    exact hv.bury nofun (hv.copies src dst (.inr rfl)).src_live fun i h => Option.some.inj h
  | remove live => exact hv.bury nofun live nofun
  | publish hv' => exact hv'
  | reset hv' => exact hv'

/-! ## Sequences of allowed stores -/

/-- A sequence of allowed stores from one phase to another. -/
inductive Path (cfg : Config) : Map → Phase → List Store → Phase → Kind → Prop
  | nil (m : Map) (ph : Phase) : Path cfg m ph [] ph .quiet
  | cons {m : Map} {ph ph' ph'' : Phase} {st : Store} {sts : List Store} {k k' : Kind}
      (head : m.Allowed cfg ph st ph' k) (tail : Path cfg (m.apply st) ph' sts ph'' k') :
      Path cfg m ph (st :: sts) ph'' (k.join k')

theorem Path.one {st : Store} {k : Kind} (h : m.Allowed cfg ph st ph' k) :
    Path cfg m ph [st] ph' k := by
  have hp := Path.cons h (.nil _ _)
  rwa [Kind.join_quiet] at hp

theorem Path.append {ph'' : Phase} {xs ys : List Store} {k k' : Kind}
    (hx : Path cfg m ph xs ph' k) (hy : Path cfg (m.applyAll xs) ph' ys ph'' k') :
    Path cfg m ph (xs ++ ys) ph'' (k.join k') := by
  induction hx with
  | nil m ph => exact hy
  | cons head tail ih =>
    have hp := Path.cons head (ih hy)
    rwa [← Kind.join_assoc] at hp

theorem Path.valid {sts : List Store} {k : Kind} (hv : m.Valid cfg ph)
    (hp : Path cfg m ph sts ph' k) : (m.applyAll sts).Valid cfg ph' := by
  induction hp with
  | nil m ph => exact hv
  | cons head tail ih => exact ih (head.valid hv)

end Preservation

end Map

end ConcurrencyKit.Ht
