import ConcurrencyKit.Ht.Reader

/-!
# The maps of a calm writer

A calm call of the writer changes the associations in one step, if at all. While it runs, the
current map holds either those from before the call or those it will leave, and the place at
which the lookups of a key first meet its entry changes only together with the deletion counter.
This is what the readers rely on.
-/

namespace ConcurrencyKit.Ht

/-! ## One store, in the eyes of the readers -/

namespace Map

section Quiet

variable {cfg : Config} {m : Map} {ph ph' : Phase}

theorem objects_put_dead {s : Nat} {e : Entry} (key : e.key = (m.entries s).key)
    (dead : (m.entries s).live = false) : (m.put s e).objects = m.objects := by
  ext w
  constructor
  · rintro ⟨hl, i, rfl⟩
    have he := put_dead_live key dead hl
    rw [he] at hl ⊢
    exact ⟨hl, i, rfl⟩
  · rintro ⟨hl, i, rfl⟩
    refine ⟨hl, i, put_entries_of_ne m ?_ e⟩
    rintro rfl
    rw [dead] at hl
    cases hl

/-- A second copy of an association adds none. -/
theorem objects_copy {src dst : Nat} (live : (m.entries src).live = true)
    (dead : (m.entries dst).live = false) : (m.put dst (m.entries src)).objects = m.objects := by
  ext w
  constructor
  · rintro ⟨hl, i, rfl⟩
    by_cases hi : i = dst
    · rw [hi, put_entries_self]
      exact ⟨live, src, rfl⟩
    · rw [put_entries_of_ne m hi] at hl ⊢
      exact ⟨hl, i, rfl⟩
  · rintro ⟨hl, i, rfl⟩
    refine ⟨hl, i, put_entries_of_ne m ?_ _⟩
    rintro rfl
    rw [dead] at hl
    cases hl

/-- Giving up one of two copies loses no association. -/
theorem objects_retire {src dst : Nat} (hne : src ≠ dst) (live : (m.entries dst).live = true)
    (same : m.entries dst = m.entries src) : (m.put src (m.buried src)).objects = m.objects := by
  ext w
  constructor
  · rintro ⟨hl, i, rfl⟩
    by_cases hi : i = src
    · rw [hi, put_entries_self, buried_dead] at hl
      cases hl
    · rw [put_entries_of_ne m hi] at hl ⊢
      exact ⟨hl, i, rfl⟩
  · rintro ⟨hl, i, rfl⟩
    by_cases hi : i = src
    · rw [hi, ← same]
      exact ⟨live, dst, put_entries_of_ne m hne.symm _⟩
    · exact ⟨hl, i, put_entries_of_ne m hi _⟩

theorem entries_of_isBound {st : Store} (h : st.isBound = true) :
    (m.apply st).entries = m.entries := by
  cases st with
  | probeMaximum => rfl
  | probeBound => rfl
  | _ => cases h

/-- A quiet store leaves the associations as they are. -/
theorem Allowed.quiet_objects {st : Store} {k : Kind} (hv : m.Valid cfg ph)
    (ha : m.Allowed cfg ph st ph' k) (hk : k = .quiet) : (m.apply st).objects = m.objects := by
  cases ha with
  | nEntries => rfl
  | rebound bound => exact objects_congr (entries_of_isBound bound)
  | cover bound => exact objects_congr (entries_of_isBound bound)
  | same slot eq => rw [eq]
  | reuse => rfl
  | prepare slot eq key packed free =>
    rw [eq]
    refine objects_put_dead key ?_
    rcases free with rfl | ⟨rfl, he⟩
    · exact not_live_of_tombstone (hv.reusing _ rfl).2
    · exact not_live_of_empty he
  | copy slot eq at_src =>
    split at hk
    · rename_i he
      rw [eq, he]
      exact objects_copy at_src (not_live_of_tombstone (hv.reusing _ rfl).2)
    · cases hk
  | signal => rfl
  | retire src dst =>
    split at hk
    · rename_i he
      have hc := hv.copies src dst (.inr rfl)
      exact objects_retire hc.before.ne hc.dst_live he
    · cases hk
  | publish hv' same => exact same
  | _ => cases hk

theorem Kind.of_join_quiet {a b : Kind} (h : a.join b = .quiet) : a = .quiet ∧ b = .quiet := by
  cases a <;> cases b <;> first | exact ⟨rfl, rfl⟩ | cases h

/-- Quiet stores leave the associations as they are. -/
theorem Path.quiet_objects {sts : List Store} {k : Kind} (hv : m.Valid cfg ph)
    (hp : Path cfg m ph sts ph' k) (hk : k = .quiet) : (m.applyAll sts).objects = m.objects := by
  induction hp with
  | nil => rfl
  | cons head tail ih =>
    obtain ⟨h1, h2⟩ := Kind.of_join_quiet hk
    exact (ih (head.valid hv) h2).trans (head.quiet_objects hv h1)

/-- The only stores to the counter are those that increment it. -/
theorem Allowed.deletions {st : Store} {k : Kind} (ha : m.Allowed cfg ph st ph' k)
    (hmap : ∀ update, st ≠ .map update) :
    st = m.bump ∨ ((∀ value, st ≠ .deletions value) ∧ (m.apply st).deletions = m.deletions) := by
  have hslot : ∀ {st : Store} {s : Nat}, st.slot = some s →
      (∀ value, st ≠ .deletions value) ∧ (m.apply st).deletions = m.deletions := by
    intro st s h
    cases st with
    | key => exact ⟨nofun, rfl⟩
    | value => exact ⟨nofun, rfl⟩
    | keyLength => exact ⟨nofun, rfl⟩
    | hash => exact ⟨nofun, rfl⟩
    | _ => cases h
  have hbound : ∀ {st : Store}, st.isBound = true →
      (∀ value, st ≠ .deletions value) ∧ (m.apply st).deletions = m.deletions := by
    intro st h
    cases st with
    | probeMaximum => exact ⟨nofun, rfl⟩
    | probeBound => exact ⟨nofun, rfl⟩
    | _ => cases h
  cases ha with
  | nEntries => exact .inr ⟨nofun, rfl⟩
  | rebound bound => exact .inr (hbound bound)
  | cover bound => exact .inr (hbound bound)
  | reuse => exact .inl rfl
  | signal => exact .inl rfl
  | same slot => exact .inr (hslot slot)
  | prepare slot => exact .inr (hslot slot)
  | spoil slot => exact .inr (hslot slot)
  | fill slot => exact .inr (hslot slot)
  | insert slot => exact .inr (hslot slot)
  | edit slot => exact .inr (hslot slot)
  | copy slot => exact .inr (hslot slot)
  | assign => exact .inr ⟨nofun, rfl⟩
  | retire => exact .inr ⟨nofun, rfl⟩
  | remove => exact .inr ⟨nofun, rfl⟩
  | publish => exact absurd rfl (hmap _)
  | reset => exact absurd rfl (hmap _)

/-- A calm writer publishes a map with the same associations, between its other stores. -/
theorem Allowed.publishes {update : Map} {k : Kind} (ha : m.Allowed cfg ph (.map update) ph' k)
    (hk : k ≠ .rough) :
    ph = .idle ∧ ph' = .idle ∧ k = .quiet ∧ update.Valid cfg .idle ∧
      update.objects = m.objects := by
  cases ha with
  | publish hv same => exact ⟨rfl, rfl, rfl, hv, same⟩
  | reset => exact absurd rfl hk
  | rebound bound => cases bound
  | cover bound => cases bound
  | same slot => cases slot
  | prepare slot => cases slot
  | spoil slot => cases slot
  | fill slot => cases slot
  | insert slot => cases slot
  | edit slot => cases slot
  | copy slot => cases slot

theorem apply_capacity {st : Store} (hmap : ∀ update, st ≠ .map update) :
    (m.apply st).capacity = m.capacity := by
  cases st with
  | map update => exact absurd rfl (hmap update)
  | _ => rfl

end Quiet

/-! ## A slot that a reader has found live -/

section Slot

variable {cfg : Config} {m : Map} {ph ph' : Phase} {s : Nat}

/-- How a calm store may change a slot that holds a key or held one, while the counter does not
change. -/
inductive SlotChange (old new : Entry) : Prop
  | same (h : new = old)
  | assigned (value : Word) (live : old.live = true) (h : new = { old with value := value })
  | buried (live : old.live = true) (h : new = { old with key := keyTombstone })

theorem SlotChange.of_ne {i : Nat} (h : s ≠ i) (e : Entry) :
    SlotChange (m.entries s) ((m.put i e).entries s) :=
  .same (put_entries_of_ne m h e)

/-- A slot that is not about to be used again changes in calm ways only. -/
theorem Allowed.slotChange {st : Store} {k : Kind} (hv : m.Valid cfg ph)
    (ha : m.Allowed cfg ph st ph' k) (hk : k ≠ .rough) (hmap : ∀ update, st ≠ .map update)
    (hbump : st ≠ m.bump) (hph : ph ≠ .reusing s) (hkey : (m.entries s).key ≠ keyEmpty) :
    ph' ≠ .reusing s ∧ SlotChange (m.entries s) ((m.apply st).entries s) := by
  have hfree : ∀ {i : Nat}, ph = .reusing i ∨ (ph = .idle ∧ (m.entries i).key = keyEmpty) →
      s ≠ i := by
    rintro i h rfl
    rcases h with h | ⟨-, h⟩
    · exact hph h
    · exact hkey h
  cases ha with
  | nEntries => exact ⟨hph, .same rfl⟩
  | rebound bound => exact ⟨hph, .same (congrFun (entries_of_isBound bound) s)⟩
  | cover bound => exact ⟨nofun, .same (congrFun (entries_of_isBound bound) s)⟩
  | same slot eq =>
    rw [eq]
    exact ⟨hph, .same rfl⟩
  | reuse => exact absurd rfl hbump
  | prepare slot eq key packed free =>
    rw [eq]
    exact ⟨hph, .of_ne (hfree free) _⟩
  | spoil => exact absurd rfl hk
  | fill slot eq proper reach absent fits free =>
    rw [eq]
    exact ⟨nofun, .of_ne (hfree free) _⟩
  | insert slot eq proper lt at_index open_path absent fits free =>
    rw [eq]
    exact ⟨nofun, .of_ne (hfree free) _⟩
  | @assign i w live =>
    refine ⟨nofun, ?_⟩
    by_cases hs : s = i
    · subst hs
      exact .assigned w live (put_entries_self _ _ _)
    · exact .of_ne hs _
  | edit => exact absurd rfl hk
  | copy slot eq =>
    rw [eq]
    exact ⟨nofun, .of_ne (hfree (.inl rfl)) _⟩
  | signal => exact absurd rfl hbump
  | retire src dst =>
    refine ⟨nofun, ?_⟩
    by_cases hs : s = src
    · subst hs
      exact .buried (hv.copies s dst (.inr rfl)).src_live (put_entries_self _ _ _)
    · exact .of_ne hs _
  | @remove i live =>
    refine ⟨nofun, ?_⟩
    by_cases hs : s = i
    · subst hs
      exact .buried live (put_entries_self _ _ _)
    · exact .of_ne hs _
  | publish => exact absurd rfl (hmap _)
  | reset => exact absurd rfl (hmap _)

end Slot

/-! ## The place of a key -/

section Anchor

variable (cfg : Config)

/-- Probe index `n` is the first at which lookups of the key of `x` meet the slot that counts for
it. -/
structure Anchored (m : Map) (ph : Phase) (x : Entry) (n : Nat) : Prop where
  live : (m.word cfg (cfg.hashOf x) n).live = true
  ident : cfg.ident (m.word cfg (cfg.hashOf x) n) = cfg.ident x
  visible : some (cfg.cursor m.capacity (cfg.hashOf x) n) ≠ ph.hidden
  first : ∀ k < n, cfg.cursor m.capacity (cfg.hashOf x) k ≠ cfg.cursor m.capacity (cfg.hashOf x) n

/-- Some slot within the bounds holds the key. -/
def Present (m : Map) (ph : Phase) (x : Entry) : Prop :=
  ∃ s, (m.entries s).live = true ∧ cfg.ident (m.entries s) = cfg.ident x ∧
    ∀ n, ph ≠ .unbound s n

variable {cfg} {m : Map} {ph ph' : Phase} {x : Entry}

/-- The lookups of a key get as far as its anchor. -/
theorem Anchored.reached (hv : m.Valid cfg ph) {n : Nat} (ha : m.Anchored cfg ph x n) :
    n < m.probeSlots cfg ∧ m.Covers (cfg.hashOf x) n ∧ m.Open cfg (cfg.hashOf x) n := by
  obtain ⟨k, hlt, hk, hc, ho⟩ := hv.reaches _ ha.live (by
    rintro j rfl
    exact ha.visible rfl)
  rw [show cfg.hashOf (m.entries _) = cfg.hashOf x from Config.hashOf_eq ha.ident] at hk hc ho
  have hnk : n ≤ k := by
    by_contra hgt
    exact ha.first k (by omega) hk
  exact ⟨by omega, hc.mono hnk, ho.mono hnk⟩

/-- The key in a slot that counts has an anchor. -/
theorem Valid.anchored_of_slot (hv : m.Valid cfg ph) {s : Nat} (hs : (m.entries s).live = true)
    (hid : cfg.ident (m.entries s) = cfg.ident x) (hvis : some s ≠ ph.hidden) :
    ∃ n, m.Anchored cfg ph x n := by
  obtain ⟨k, -, hk, -, -⟩ := hv.reaches s hs (by
    rintro j rfl
    exact hvis rfl)
  rw [Config.hashOf_eq hid] at hk
  have hex : ∃ n, cfg.cursor m.capacity (cfg.hashOf x) n = s := ⟨k, hk⟩
  have hfind := Nat.find_spec hex
  refine ⟨Nat.find hex, ?_, ?_, ?_, fun j hj => ?_⟩
  · rw [word, hfind]
    exact hs
  · rw [word, hfind]
    exact hid
  · rw [hfind]
    exact hvis
  · rw [hfind]
    exact Nat.find_min hex hj

/-- A present key has an anchor: if its copy is hidden, the other copy counts. -/
theorem Valid.anchored (hv : m.Valid cfg ph) (hp : m.Present cfg ph x) :
    ∃ n, m.Anchored cfg ph x n := by
  obtain ⟨s, hs, hid, hbound⟩ := hp
  by_cases hvis : some s = ph.hidden
  · cases ph with
    | idle => cases hvis
    | reusing => cases hvis
    | unbound i n =>
      cases hvis
      exact absurd rfl (hbound n)
    | copied src dst =>
      cases hvis
      have hc := hv.copies src s (.inl rfl)
      refine hv.anchored_of_slot hc.src_live (hc.ident.trans hid) fun h => ?_
      exact hc.before.ne (Option.some.inj h)
    | retiring src dst =>
      cases hvis
      have hc := hv.copies s dst (.inr rfl)
      refine hv.anchored_of_slot hc.dst_live (hc.ident.symm.trans hid) fun h => ?_
      exact hc.before.ne (Option.some.inj h).symm
  · exact hv.anchored_of_slot hs hid hvis

/-- An anchor outside the written slot stays if it is not hidden now. -/
theorem Anchored.put {n i : Nat} {e : Entry} (ha : m.Anchored cfg ph x n)
    (hne : cfg.cursor m.capacity (cfg.hashOf x) n ≠ i)
    (hvis : some (cfg.cursor m.capacity (cfg.hashOf x) n) ≠ ph'.hidden) :
    (m.put i e).Anchored cfg ph' x n := by
  have hw : (m.put i e).word cfg (cfg.hashOf x) n = m.word cfg (cfg.hashOf x) n := by
    rw [word_put, if_neg hne]
  exact ⟨by rw [hw]; exact ha.live, by rw [hw]; exact ha.ident, hvis, ha.first⟩

theorem Anchored.congr {m' : Map} {n : Nat} (ha : m.Anchored cfg ph x n)
    (he : m'.entries = m.entries) (hc : m'.capacity = m.capacity)
    (hvis : some (cfg.cursor m.capacity (cfg.hashOf x) n) ≠ ph'.hidden) :
    m'.Anchored cfg ph' x n := by
  have hw : m'.word cfg (cfg.hashOf x) n = m.word cfg (cfg.hashOf x) n := by
    unfold word
    rw [he, hc]
  refine ⟨by rw [hw]; exact ha.live, by rw [hw]; exact ha.ident, ?_, ?_⟩
  · rw [hc]
    exact hvis
  · rw [hc]
    exact ha.first

/-- While the counter does not change, a calm store leaves the anchor of a key that stays in
place. -/
theorem Allowed.keep {st : Store} {k : Kind} (hv : m.Valid cfg ph)
    (hst : m.Allowed cfg ph st ph' k) (hk : k ≠ .rough) (hmap : ∀ update, st ≠ .map update)
    (hbump : st ≠ m.bump) (hp : (m.apply st).Present cfg ph' x) {n : Nat}
    (ha : m.Anchored cfg ph x n) : (m.apply st).Anchored cfg ph' x n := by
  have hdead : ∀ {i : Nat}, (m.entries i).live = false →
      cfg.cursor m.capacity (cfg.hashOf x) n ≠ i := by
    rintro i h rfl
    have := ha.live
    rw [word, h] at this
    cases this
  have hfree : ∀ {i : Nat}, ph = .reusing i ∨ (ph = .idle ∧ (m.entries i).key = keyEmpty) →
      cfg.cursor m.capacity (cfg.hashOf x) n ≠ i := by
    rintro i (rfl | ⟨rfl, he⟩)
    · exact hdead (not_live_of_tombstone (hv.reusing i rfl).2)
    · exact hdead (not_live_of_empty he)
  cases hst with
  | nEntries => exact ha.congr rfl rfl ha.visible
  | rebound bound => exact ha.congr (entries_of_isBound bound) (apply_capacity hmap) ha.visible
  | cover bound =>
    exact ha.congr (entries_of_isBound bound) (apply_capacity hmap) (Option.some_ne_none _)
  | same slot eq =>
    rw [eq]
    exact ha
  | reuse => exact absurd rfl hbump
  | prepare slot eq key packed free =>
    rw [eq]
    exact ha.put (hfree free) ha.visible
  | spoil => exact absurd rfl hk
  | fill slot eq proper reach absent fits free =>
    rw [eq]
    exact ha.put (hfree free) (Option.some_ne_none _)
  | insert slot eq proper lt at_index open_path absent fits free =>
    rw [eq]
    exact ha.put (hfree free) fun h => hfree free (Option.some.inj h)
  | @assign i w live =>
    by_cases hs : cfg.cursor m.capacity (cfg.hashOf x) n = i
    · have hw : (m.apply (.value i w)).word cfg (cfg.hashOf x) n =
          { m.word cfg (cfg.hashOf x) n with value := w } := by
        rw [apply, word_put, if_pos hs, word, hs]
      refine ⟨by rw [hw]; exact ha.live, ?_, Option.some_ne_none _, ha.first⟩
      rw [hw]
      exact (ident_congr rfl fun _ => rfl).trans ha.ident
    · exact ha.put hs (Option.some_ne_none _)
  | edit => exact absurd rfl hk
  | copy slot eq =>
    rw [eq]
    exact ha.put (hfree (.inl rfl)) fun h => hfree (.inl rfl) (Option.some.inj h)
  | signal => exact absurd rfl hbump
  | retire src dst =>
    refine ha.put (fun h => ha.visible ?_) (Option.some_ne_none _)
    rw [h]
    rfl
  | @remove i live =>
    by_cases hs : cfg.cursor m.capacity (cfg.hashOf x) n = i
    · -- the key is gone
      obtain ⟨j, hj, hid, -⟩ := hp
      exfalso
      by_cases hji : j = i
      · rw [hji, apply, put_entries_self] at hj
        cases hj
      · rw [apply, put_entries_of_ne m hji] at hj hid
        have hlive := ha.live
        have hident := ha.ident
        rw [word, hs] at hlive hident
        exact hji (hv.unique j i hj hlive (Option.some_ne_none _)
          (Option.some_ne_none _) (hid.trans hident.symm))
    · exact ha.put hs (Option.some_ne_none _)
  | publish => exact absurd rfl (hmap _)
  | reset => exact absurd rfl (hmap _)

end Anchor

end Map

/-! ## The invariant of the memory -/

namespace Memory

/-- The calls of a calm writer. -/
def CalmCall (cfg : Config) (m : Map) (op : Op) : Prop := op.Proper cfg m ∧ op.Calm cfg m

/-- Map `map` is valid in phase `ph`: a retired one for good, the current one with the stores to
come. Those have still to change the associations, or have done so if at all. -/
structure Standing (cfg : Config) (mem : Memory) (map : Nat) (ph : Phase) : Prop where
  valid : (mem.maps map).Valid cfg ph
  retired : map ≠ mem.current → ph = .idle
  path : map = mem.current → ∃ k, k ≠ .rough ∧
    Map.Path cfg (mem.maps map) ph mem.todo .idle k ∧
    (k = .commit → (mem.maps map).objects = mem.before.objects)
  unbound : ∀ s n, map = mem.current → ph = .unbound s n →
    mem.before.Absent cfg ((mem.maps map).entries s)

/-- The invariant of the memory. -/
structure Inv (cfg : Config) (mem : Memory) : Prop where
  standing : ∀ map ≤ mem.current, ∃ ph, Standing cfg mem map ph
  ready : ∀ ht, mem.writer = some ht → ht.Ok cfg ∧ ht.map = mem.after

section Facts

variable {cfg : Config} {mem mem' : Memory} {map : Nat} {ph : Phase} {x : Entry}

theorem path_nil {m : Map} {ph' : Phase} {k : Kind} (h : Map.Path cfg m ph [] ph' k) :
    ph = ph' ∧ k = .quiet := by
  cases h
  exact ⟨rfl, rfl⟩

/-- The current map holds the associations from before or after the call that is going on. -/
theorem Standing.objects (h : Standing cfg mem mem.current ph) :
    (mem.maps mem.current).objects = mem.after.objects ∨
      (mem.todo ≠ [] ∧ (mem.maps mem.current).objects = mem.before.objects) := by
  obtain ⟨k, hk, hp, hobj⟩ := h.path rfl
  cases k with
  | quiet => exact .inl (hp.quiet_objects h.valid rfl).symm
  | commit =>
    refine .inr ⟨fun hnil => ?_, hobj rfl⟩
    rw [hnil] at hp
    cases (path_nil hp).2
  | rough => exact absurd rfl hk

theorem Standing.current (h : Standing cfg mem mem.current ph) {e : Entry}
    (he : e ∈ (mem.maps mem.current).objects) : mem.Current e := by
  refine ⟨he, ?_⟩
  rcases h.objects with ho | ⟨-, ho⟩
  · exact .inr (ho ▸ he)
  · exact .inl (ho ▸ he)

/-- An associated key is in the current map. -/
theorem Standing.present (h : Standing cfg mem mem.current ph) (ha : mem.Associated cfg x) :
    (mem.maps mem.current).Present cfg ph x := by
  have hmem : ∃ e ∈ (mem.maps mem.current).objects, cfg.ident e = cfg.ident x := by
    rcases h.objects with ho | ⟨hne, ho⟩
    · rw [ho]
      exact ha.1
    · rw [ho]
      exact ha.2.resolve_left hne
  obtain ⟨e, ⟨hl, s, rfl⟩, hid⟩ := hmem
  refine ⟨s, hl, hid, fun n hph => ?_⟩
  -- a key whose slot the bounds need not cover is new
  have hne : mem.todo ≠ [] := by
    intro hnil
    obtain ⟨k, -, hp, -⟩ := h.path rfl
    rw [hnil, hph] at hp
    cases (path_nil hp).1
  obtain ⟨e, ⟨hl', i, rfl⟩, hid'⟩ := ha.2.resolve_left hne
  exact h.unbound s n rfl hph i hl' (hid'.trans hid.symm)

/-- What a store of the writer does to the maps. -/
theorem store_cases (mem : Memory) (rest : List Store) (st : Store) :
    (∃ update, st = .map update ∧ (mem.store rest st).current = mem.current + 1 ∧
      (mem.store rest st).maps (mem.current + 1) = update ∧
      (mem.store rest st).bumps = mem.bumps ∧
      ∀ map ≤ mem.current, (mem.store rest st).maps map = mem.maps map) ∨
    ((∀ update, st ≠ .map update) ∧ (mem.store rest st).current = mem.current ∧
      (mem.store rest st).maps mem.current = (mem.maps mem.current).apply st ∧
      mem.bumps ≤ (mem.store rest st).bumps ∧
      ((∃ value, st = .deletions value) → mem.bumps < (mem.store rest st).bumps) ∧
      ∀ map ≠ mem.current, (mem.store rest st).maps map = mem.maps map) := by
  cases st with
  | map update =>
    refine .inl ⟨update, rfl, rfl, Function.update_self _ _ _, rfl, fun map hle => ?_⟩
    exact Function.update_of_ne (by omega) _ _
  | deletions value =>
    exact .inr ⟨nofun, rfl, Function.update_self _ _ _, Nat.le_succ _, fun _ => Nat.lt_succ_self _,
      fun map hne => Function.update_of_ne hne _ _⟩
  | _ =>
    refine .inr ⟨nofun, rfl, Function.update_self _ _ _, le_rfl, ?_,
      fun map hne => Function.update_of_ne hne _ _⟩
    rintro ⟨value, h⟩
    cases h

theorem store_frame (rest : List Store) (st : Store) :
    (mem.store rest st).todo = rest ∧ (mem.store rest st).writer = mem.writer ∧
      (mem.store rest st).before = mem.before := by
  cases st <;> exact ⟨rfl, rfl, rfl⟩

theorem after_store {rest : List Store} {st : Store} (h : mem.todo = st :: rest) :
    (mem.store rest st).after = mem.after := by
  unfold after
  rw [(store_frame rest st).1, h]
  rcases store_cases mem rest st with ⟨update, rfl, hc, hu, -⟩ | ⟨-, hc, hm, -⟩
  · rw [hc, hu]
    rfl
  · rw [hc, hm]
    rfl

/-- The start of a call determines the stores to come, all of them allowed. -/
theorem begin_cases {ht : State} {op : Op} (hcov : cfg.Covered)
    (hr : ∀ ht, mem.writer = some ht → ht.Ok cfg ∧ ht.map = mem.after)
    (idle : mem.todo = []) (ready : mem.writer = some ht)
    (hproper : op.Proper cfg (mem.maps mem.current)) :
    ∃ sts w k, mem.begin (step cfg { ht with stores := [] } op) =
        { mem with todo := sts, writer := w, before := mem.maps mem.current } ∧
      (op.Calm cfg (mem.maps mem.current) → k ≠ .rough) ∧
      Map.Path cfg (mem.maps mem.current) .idle sts .idle k ∧
      ∀ ht', w = some ht' → ht'.Ok cfg ∧ ht'.map = (mem.maps mem.current).applyAll sts := by
  obtain ⟨hok, hmap⟩ := hr ht ready
  rw [after, idle] at hmap
  have hmap' : ht.map = mem.maps mem.current := hmap
  have hok' : ({ ht with stores := [] } : State).Ok cfg := ⟨hok.valid, hok.accounts, hok.capacity⟩
  have hkey : Names cfg cfg.ident := fun _ _ => Iff.rfl
  obtain ⟨F, rep⟩ := Represents.exists hkey hok'.valid hok'.accounts
  rw [← hmap'] at hproper ⊢
  rcases step_cases hkey hcov hok' rep hproper with ⟨r, ht', hstep, hst⟩ | ⟨ht', hstep, hst⟩
  · obtain ⟨k, hev, hkind⟩ := hst.evolves
    obtain ⟨sts, hsts, hm, hp⟩ := hev.wrote
    refine ⟨ht'.stores, some ht', k, ?_, hkind, ?_, fun ht'' he => ?_⟩
    · rw [hstep, begin, hmap']
    · rw [hsts]
      exact hp
    · cases he
      refine ⟨hok'.of_evolves hev hst.accounts, ?_⟩
      rw [hsts]
      exact hm
  · obtain ⟨sts, hsts, -, hp⟩ := hst.evolves.wrote
    refine ⟨ht'.stores, none, .quiet, ?_, nofun, ?_, nofun⟩
    · rw [hstep, begin, hmap']
    · rw [hsts]
      exact hp

/-- A map of the memory after a store, in whatever phase it was before: the store does not concern
it, or is one of the calm ones to it. -/
theorem Standing.store {st : Store} {rest : List Store} (htodo : mem.todo = st :: rest)
    (hle : map ≤ mem.current) (h : Standing cfg mem map ph) :
    ((mem.store rest st).maps map = mem.maps map ∧ Standing cfg (mem.store rest st) map ph) ∨
    (map = mem.current ∧ (mem.store rest st).current = mem.current ∧
      ∃ ph' k, k ≠ .rough ∧ (∀ update, st ≠ .map update) ∧
        (mem.maps map).Allowed cfg ph st ph' k ∧
        (mem.store rest st).maps map = (mem.maps map).apply st ∧
        Standing cfg (mem.store rest st) map ph') := by
  obtain ⟨htodo', -, hbefore⟩ := @store_frame mem rest st
  by_cases hcur : map = mem.current
  · obtain ⟨k, hk, hp, hobj⟩ := h.path hcur
    rw [htodo] at hp
    cases hp with
    | @cons _ _ ph' _ _ _ k₁ k₂ head tail =>
      have hk₁ : k₁ ≠ .rough := by
        rintro rfl
        exact hk rfl
      rcases store_cases mem rest st with ⟨update, rfl, hc, -, -, hsame⟩ | ⟨hmap, hc, hm, -⟩
      · -- the map is retired
        left
        have hidle := (head.publishes hk₁).1
        refine ⟨hsame map hle, ?_, fun _ => hidle, fun he => ?_, fun _ _ he => ?_⟩
        · rw [hsame map hle]
          exact h.valid
        all_goals
          rw [hc] at he
          omega
      · right
        rw [← hcur] at hm
        refine ⟨hcur, hc, ph', k₁, hk₁, hmap, head, hm, ?_⟩
        have hv := head.valid h.valid
        refine ⟨hm ▸ hv, fun hne => absurd (hcur.trans hc.symm) hne, fun _ => ?_, ?_⟩
        · refine ⟨k₂, ?_, by rw [hm, htodo']; exact tail, fun hcommit => ?_⟩
          · rintro rfl
            cases k₁ <;> exact hk rfl
          · -- the associations have not changed yet
            subst hcommit
            have hquiet : k₁ = .quiet := by
              cases k₁ with
              | quiet => rfl
              | commit => exact absurd rfl hk
              | rough => exact absurd rfl hk
            subst hquiet
            rw [hm, hbefore, head.quiet_objects h.valid rfl]
            exact hobj rfl
        · intro s n _ hph
          rw [hm, hbefore]
          subst hph
          cases head with
          | nEntries => exact h.unbound s n hcur rfl
          | rebound bound =>
            rw [Map.entries_of_isBound bound]
            exact h.unbound s n hcur rfl
          | same slot eq =>
            rw [eq]
            exact h.unbound s n hcur rfl
          | @prepare _ _ i e slot eq key packed free =>
            rcases free with hf | ⟨hf, -⟩ <;> cases hf
          | @insert _ _ _ _ e slot eq proper lt at_index open_path absent fits free =>
            rw [eq, put_entries_self]
            have hb := hobj (by
              cases k₂ with
              | quiet => rfl
              | commit => exact absurd rfl hk
              | rough => exact absurd rfl hk)
            intro i hi hid
            have hmem : mem.before.entries i ∈ (mem.maps map).objects := by
              rw [hb]
              exact ⟨hi, i, rfl⟩
            obtain ⟨hl, j, hj⟩ := hmem
            rw [← hj] at hl hid
            exact absent j hl hid
  · left
    have hsame : (mem.store rest st).maps map = mem.maps map ∧
        map ≠ (mem.store rest st).current := by
      rcases store_cases mem rest st with ⟨_, -, hc, -, -, h⟩ | ⟨-, hc, -, -, -, h⟩
      · exact ⟨h map hle, by omega⟩
      · exact ⟨h map hcur, by omega⟩
    refine ⟨hsame.1, ?_, fun _ => h.retired hcur, fun he => absurd he hsame.2,
      fun _ _ he => absurd he hsame.2⟩
    rw [hsame.1]
    exact h.valid

/-- The start of a call keeps a map in its phase. -/
theorem Standing.begin {sts : List Store} {w : Option State} {k : Kind} (idle : mem.todo = [])
    (hk : k ≠ .rough) (hp : Map.Path cfg (mem.maps mem.current) .idle sts .idle k)
    (h : Standing cfg mem map ph) :
    Standing cfg { mem with todo := sts, writer := w, before := mem.maps mem.current } map ph := by
  refine ⟨h.valid, h.retired, fun hcur => ?_, fun s n hcur hph => ?_⟩
  all_goals
    change map = mem.current at hcur
    obtain ⟨k', -, hp', -⟩ := h.path hcur
    rw [idle] at hp'
    have hidle := (path_nil hp').1
  · refine ⟨k, hk, ?_, fun _ => by rw [hcur]⟩
    rw [hidle, hcur]
    exact hp
  · rw [hidle] at hph
    cases hph

/-- A step of the calm writer, in the eyes of the readers of one map. -/
theorem Standing.write (hcov : cfg.Covered) (hi : mem.Inv cfg)
    (hw : Write cfg (CalmCall cfg) mem mem') (hle : map ≤ mem.current)
    (h : Standing cfg mem map ph) :
    (mem'.maps map = mem.maps map ∧ Standing cfg mem' map ph) ∨
    (map = mem.current ∧ mem'.current = mem.current ∧
      ∃ st ph' k, k ≠ .rough ∧ (∀ update, st ≠ .map update) ∧
        (mem.maps map).Allowed cfg ph st ph' k ∧ mem'.maps map = (mem.maps map).apply st ∧
        Standing cfg mem' map ph' ∧
        ((∃ value, st = .deletions value) → mem.bumps < mem'.bumps)) := by
  cases hw with
  | @store st rest htodo =>
    rcases h.store htodo hle with hs | ⟨hcur, hc, ph', k, hk, hmap, hal, hm, hst⟩
    · exact .inl hs
    · refine .inr ⟨hcur, hc, st, ph', k, hk, hmap, hal, hm, hst, ?_⟩
      rcases store_cases mem rest st with ⟨update, he, -⟩ | ⟨-, -, -, -, hb, -⟩
      · exact absurd he (hmap update)
      · exact hb
  | call op idle ready admitted =>
    obtain ⟨sts, w, k, he, hk, hp, -⟩ := begin_cases hcov hi.ready idle ready admitted.1
    rw [he]
    exact .inl ⟨rfl, h.begin idle (hk admitted.2) hp⟩

theorem current_le (hcov : cfg.Covered) (hi : mem.Inv cfg)
    (hw : Write cfg (CalmCall cfg) mem mem') :
    mem.current ≤ mem'.current ∧ mem.bumps ≤ mem'.bumps := by
  cases hw with
  | @store st rest htodo =>
    rcases store_cases mem rest st with ⟨_, -, hc, -, hs, -⟩ | ⟨-, hc, -, hs, -⟩
    · exact ⟨by omega, hs.ge⟩
    · exact ⟨hc.ge, hs⟩
  | call op idle ready admitted =>
    obtain ⟨sts, w, k, he, -⟩ := begin_cases hcov hi.ready idle ready admitted.1
    rw [he]
    exact ⟨le_rfl, le_rfl⟩

/-- A map that has just been published. -/
theorem Standing.published {update : Map} {rest : List Store}
    (htodo : mem.todo = .map update :: rest) (h : Standing cfg mem mem.current ph) :
    Standing cfg (mem.store rest (.map update)) (mem.current + 1) .idle := by
  obtain ⟨k, hk, hp, hobj⟩ := h.path rfl
  rw [htodo] at hp
  have hu : (mem.store rest (.map update)).maps (mem.current + 1) = update :=
    Function.update_self _ _ _
  cases hp with
  | @cons _ _ ph' _ _ _ k₁ k₂ head tail =>
    obtain ⟨-, rfl, rfl, hv, same⟩ := head.publishes (by
      rintro rfl
      exact hk rfl)
    refine ⟨?_, fun hne => absurd rfl hne, fun _ => ⟨k₂, hk, ?_, fun hc => ?_⟩,
      fun _ _ _ hph => by cases hph⟩
    · rw [hu]
      exact hv
    · rw [hu]
      exact tail
    · rw [hu, same]
      exact hobj hc

/-- Every step of the calm writer keeps the invariant. -/
theorem Inv.write (hcov : cfg.Covered) (hi : mem.Inv cfg)
    (hw : Write cfg (CalmCall cfg) mem mem') : mem'.Inv cfg := by
  have hstand := fun map hle ph h => @Standing.write cfg mem mem' map ph hcov hi hw hle h
  constructor
  · intro map hle
    by_cases hold : map ≤ mem.current
    · obtain ⟨ph, hst⟩ := hi.standing map hold
      rcases hstand map hold ph hst with ⟨-, h⟩ | ⟨-, -, st, ph', k, -, -, -, -, h, -⟩
      · exact ⟨ph, h⟩
      · exact ⟨ph', h⟩
    · cases hw with
      | @store st rest htodo =>
        rcases store_cases mem rest st with ⟨update, rfl, hc, -⟩ | ⟨-, hc, -⟩
        · obtain ⟨ph, hst⟩ := hi.standing mem.current le_rfl
          have hmap : map = mem.current + 1 := by omega
          exact ⟨.idle, hmap ▸ hst.published htodo⟩
        · omega
      | call op idle ready admitted =>
        obtain ⟨sts, w, k, he, -⟩ := begin_cases hcov hi.ready idle ready admitted.1
        rw [he] at hle
        exact absurd hle hold
  · cases hw with
    | @store st rest htodo =>
      intro ht hready
      rw [(store_frame rest st).2.1] at hready
      rw [after_store htodo]
      exact hi.ready ht hready
    | call op idle ready admitted =>
      obtain ⟨sts, w, k, he, -, -, hr⟩ := begin_cases hcov hi.ready idle ready admitted.1
      rw [he]
      exact hr

/-- The current map is valid, and the stores to come are allowed, whatever the calls of the
writer. -/
structure Legal (cfg : Config) (mem : Memory) : Prop where
  path : ∃ ph k, (mem.maps mem.current).Valid cfg ph ∧
    Map.Path cfg (mem.maps mem.current) ph mem.todo .idle k
  ready : ∀ ht, mem.writer = some ht → ht.Ok cfg ∧ ht.map = mem.after

theorem Inv.legal (hi : mem.Inv cfg) : mem.Legal cfg := by
  obtain ⟨ph, hst⟩ := hi.standing mem.current le_rfl
  obtain ⟨k, -, hp, -⟩ := hst.path rfl
  exact ⟨⟨ph, k, hst.valid, hp⟩, hi.ready⟩

/-- Every step of a writer that makes proper calls keeps the maps valid. -/
theorem Legal.write {ok : Map → Op → Prop} (hok : ∀ m op, ok m op → op.Proper cfg m)
    (hcov : cfg.Covered) (hi : mem.Legal cfg) (hw : Write cfg ok mem mem') : mem'.Legal cfg := by
  cases hw with
  | @store st rest htodo =>
    obtain ⟨ph, k, hv, hp⟩ := hi.path
    have hm : (mem.store rest st).maps (mem.store rest st).current =
        (mem.maps mem.current).apply st := by
      rcases store_cases mem rest st with ⟨update, rfl, hc, hu, -⟩ | ⟨-, hc, hm, -⟩
      · rw [hc, hu]
        rfl
      · rw [hc, hm]
    constructor
    · rw [hm, (store_frame rest st).1]
      rw [htodo] at hp
      cases hp with
      | cons head tail => exact ⟨_, _, head.valid hv, tail⟩
    · rw [(store_frame rest st).2.1, after_store htodo]
      exact hi.ready
  | call op idle ready admitted =>
    obtain ⟨sts, w, k, he, -, hp, hr⟩ := begin_cases hcov hi.ready idle ready (hok _ op admitted)
    rw [he]
    obtain ⟨ph, k', hv, hp'⟩ := hi.path
    rw [idle] at hp'
    rw [(path_nil hp').1] at hv
    exact ⟨⟨.idle, k, hv, hp⟩, hr⟩

/-- The hash value of whatever is associated is that of its key. -/
theorem Legal.sound (hi : mem.Legal cfg) {e : Entry} (he : mem.Current e) : cfg.Sound e := by
  obtain ⟨ph, k, hv, -⟩ := hi.path
  obtain ⟨⟨hlive, s, rfl⟩, -⟩ := he
  exact hv.sound s hlive

theorem start_inv {entries : Nat} {ht : State} (hinit : init cfg entries = some ht) :
    (start ht).Inv cfg := by
  have hok := init_ok hinit
  constructor
  · intro map hle
    refine ⟨.idle, hok.valid, fun _ => rfl, fun _ => ⟨.quiet, nofun, .nil _ _, nofun⟩,
      fun _ _ _ h => by cases h⟩
  · intro ht' he
    cases he
    exact ⟨hok, rfl⟩

end Facts

end Memory

end ConcurrencyKit.Ht
