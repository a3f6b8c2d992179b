import ConcurrencyKit.Misc.Contents
import ConcurrencyKit.Misc.Doubling
import ConcurrencyKit.Hs.Refinement
import ConcurrencyKit.Rhs.Grow
import ConcurrencyKit.Rhs.Sequence
import ConcurrencyKit.Ht.Refinement

/-!
# Growth never shrinks

`ck_hs_grow`, `ck_rhs_grow` and `ck_ht_grow_spmc` create a map for the requested number of entries,
copy the entries and, when one of them does not find a slot, start over with twice the number. The
entries are the same afterwards. The number is rounded to a power of two in 32 bits: the new map
is as large as requested exactly if the entries find slots in a map that is created for the
request, or for a doubled request, of at most `2 ^ 31`.
-/

namespace ConcurrencyKit

/-- Maps created for a number of entries, with at least `2 ^ i` slots. -/
theorem slotsFor_rounding {μ : Type} {tries : Nat → Option μ} {size : μ → Nat} {i : Nat}
    (hi : i ≤ 31) (hsize : ∀ {n m}, tries n = some m → size m = slotsFor (2 ^ i) n)
    (hsame : ∀ {n n'}, slotsFor (2 ^ i) n = slotsFor (2 ^ i) n' → tries n = tries n') :
    Rounding tries size (slotsFor (2 ^ i)) 31 where
  word := by decide
  size_eq := hsize
  same := hsame
  pow n := by
    obtain ⟨b, -, hb⟩ := slotsFor_pow i n
    have hle := slotsFor_le (Nat.pow_le_pow_right (by decide) hi) n
    rw [hb] at hle
    exact ⟨b, (Nat.pow_le_pow_iff_right (by decide)).mp hle, hb⟩
  up := le_slotsFor
  tight := by
    intro n n' b hb hle hlt
    have hbound := slotsFor_le (Nat.pow_le_pow_right (by decide) hi) n'
    have hleast : 2 ^ i ≤ slotsFor (2 ^ i) n' := le_max_left _ _
    rw [hb] at hbound hleast
    exact slotsFor_eq ((Nat.pow_le_pow_iff_right (by decide)).mp hbound) hleast hle hlt

/-- A table whose map had `capacity` slots and held the entries `held` has grown as requested. -/
structure GrewTo {β : Type} (requested capacity capacity' : Nat) (held held' : β) : Prop where
  pow : ∃ k, capacity' = 2 ^ k
  requested_le : requested ≤ capacity'
  capacity_le : capacity ≤ capacity'
  held_eq : held' = held

theorem grewTo_iff {β : Type} {requested capacity capacity' : Nat} {held held' : β}
    (hpow : ∃ k, capacity' = 2 ^ k) (hstop : capacity ≤ requested) (hheld : held' = held) :
    GrewTo requested capacity capacity' held held' ↔ requested ≤ capacity' :=
  ⟨GrewTo.requested_le, fun hle => ⟨hpow, hle, hstop.trans hle, hheld⟩⟩

end ConcurrencyKit

/-! ## `ck_hs_grow` -/

namespace ConcurrencyKit.Hs

variable {V : Type} [DecidableEq V]

namespace Map

/-- The words of the entries, slot by slot. -/
def stored (m : Map V) : Multiset (Slot V) := contents Slot.isLive m.entries m.capacity

variable {cfg : Config V} {m u u' : Map V}

theorem growPlace_stored {h : BitVec 64} {word : Slot V} {remaining : Nat} (hpos : 0 < u.capacity)
    (h8 : 8 ∣ u.capacity) (hlive : word.isLive = true)
    (hg : growPlace cfg h word remaining u = some u') :
    u'.capacity = u.capacity ∧ u'.stored = word ::ₘ u.stored := by
  induction remaining with
  | zero => cases hg
  | succ remaining ih =>
    rw [growPlace] at hg
    dsimp only at hg
    split at hg
    · rename_i hempty
      rw [applyAll_boundSet] at hg
      cases hg
      have hslot : (u.entries (cfg.cursor u.capacity h (u.probeLimit - (remaining + 1)))).isLive =
          false := by rw [hempty]; rfl
      exact ⟨rfl, contents_fill (cursor_lt cfg hpos h8 h _) hslot hlive⟩
    · exact ih hg

theorem growCopy_stored {k : Nat} (hpos : 0 < u.capacity) (h8 : 8 ∣ u.capacity)
    (hg : m.growCopy cfg u k = some u') :
    u'.capacity = u.capacity ∧ u'.stored = single Slot.isLive (m.entries k) + u.stored := by
  unfold growCopy at hg
  split at hg
  · rename_i tag val hentry
    obtain ⟨hcap, hstored⟩ := growPlace_stored hpos h8 rfl hg
    refine ⟨hcap, ?_⟩
    rw [hstored, hentry, single_of_pos rfl, Multiset.singleton_add]
  · rename_i hvacant
    cases hg
    refine ⟨rfl, ?_⟩
    have hdead : (m.entries k).isLive = false := by
      cases hentry : m.entries k with
      | empty => rfl
      | tombstone => rfl
      | entry tag val => exact absurd hentry (hvacant tag val)
    rw [single_of_neg hdead, zero_add]

/-- The entries copied to a new map for `n` entries, if they find slots. -/
def copied (cfg : Config V) (m : Map V) (n : Nat) : Option (Map V) :=
  (List.range m.capacity).foldlM (m.growCopy cfg) (create cfg n)

theorem copied_stored {n : Nat} (h : m.copied cfg n = some u') :
    u'.capacity = mapSlots n ∧ u'.stored = m.stored := by
  have hfold := contents_foldlM (p := Slot.isLive) (f := m.entries) stored
    (fun u => u.capacity = mapSlots n) (fun u k u' hu hg => by
      obtain ⟨b, hb, hslots⟩ := mapSlots_pow n
      have hpos : 0 < u.capacity := by rw [hu, hslots]; exact Nat.two_pow_pos b
      have h8 : 2 ^ 3 ∣ u.capacity := by rw [hu, hslots]; exact Nat.pow_dvd_pow 2 hb
      obtain ⟨hcap, hstored⟩ := growCopy_stored hpos h8 hg
      exact ⟨hcap.trans hu, hstored⟩) rfl h
  have hempty : (create cfg n).stored = 0 := contents_eq_zero fun _ _ => rfl
  exact ⟨hfold.1, by rw [hfold.2, hempty, add_zero]; rfl⟩

theorem copied_rounding (cfg : Config V) (m : Map V) :
    Rounding (m.copied cfg) capacity mapSlots 31 :=
  slotsFor_rounding (i := 3) (by decide) (fun h => (copied_stored h).1) fun {n n'} hslots => by
    have hcreate : create cfg n = create cfg n' := by
      have hslots : mapSlots n = mapSlots n' := hslots
      unfold create
      rw [hslots]
    rw [copied, copied, hcreate]

end Map

namespace State

variable {cfg : Config V} {hs hs' : State V} {capacity : Nat}

/-- A growth that succeeds has searched from the requested capacity on. -/
theorem growLoop_doubling {fuel : Nat} (h : growLoop cfg fuel capacity hs = (true, hs')) :
    hs.map.capacity ≤ capacity ∧ Doubling (hs.map.copied cfg) capacity hs'.map := by
  suffices hsearch : ∀ hs₁ : State V, hs₁.map = hs.map →
      growLoop cfg fuel capacity hs₁ = (true, hs') →
      hs.map.capacity ≤ capacity ∧ Doubling (hs.map.copied cfg) capacity hs'.map from
    hsearch hs rfl h
  clear h
  intro hs₁ hmap h
  induction fuel generalizing capacity hs₁ with
  | zero => cases h
  | succ fuel ih =>
    rw [growLoop] at h
    split at h
    · cases h
    · rename_i hstop
      rw [hmap, Nat.not_lt] at hstop
      refine ⟨hstop, ?_⟩
      unfold create at h
      by_cases hmalloc : cfg.malloc hs₁.allocs = true
      · simp only [hmalloc, if_true] at h
        split at h
        · rename_i filled hfill
          cases h
          rw [hmap] at hfill
          exact .fits hfill
        · rename_i hfill
          rw [hmap] at hfill
          refine .doubles hfill (ih _ ?_ h).2
          exact hmap
      · simp only [hmalloc, Bool.false_eq_true, if_false] at h
        cases h

theorem grow_large_iff (h : hs.grow cfg capacity = (true, hs')) :
    GrewTo capacity hs.map.capacity hs'.map.capacity hs.map.stored hs'.map.stored ↔
      ∃ i, capacity * 2 ^ i ≤ 2 ^ 31 ∧ (hs.map.copied cfg (capacity * 2 ^ i)).isSome := by
  obtain ⟨hstop, hsearch⟩ := growLoop_doubling h
  obtain ⟨n, hn, -⟩ := hsearch.tried
  obtain ⟨hcap, hstored⟩ := Map.copied_stored hn
  obtain ⟨b, -, hpow⟩ := mapSlots_pow n
  rw [grewTo_iff ⟨b, hcap.trans hpow⟩ hstop hstored]
  exact hsearch.le_size_iff (Map.copied_rounding cfg hs.map)

end State

end ConcurrencyKit.Hs

/-! ## `ck_rhs_grow` -/

namespace ConcurrencyKit.Rhs

variable {V : Type}

namespace Map

/-- The words of the entries, slot by slot. -/
def stored (m : Map V) : Multiset (Option (Word V)) :=
  contents Option.isSome m.entries m.capacity

variable {cfg : Config V} {m u u' : Map V}

/-- The entry that is filed, and the ones that it puts aside, all get to a slot. -/
theorem growInsert_stored {fuel offset probes : Nat} {w : Word V} {h : BitVec 64}
    (hdvd : cfg.line ∣ u.capacity) (hlt : offset < u.capacity)
    (hg : u.growInsert cfg fuel w h offset probes = some u') :
    u'.capacity = u.capacity ∧ u'.stored = some w ::ₘ u.stored := by
  induction fuel generalizing w h offset probes u with
  | zero => cases hg
  | succ fuel ih =>
    rw [growInsert_succ] at hg
    split at hg
    · cases hg
    split at hg
    · rename_i hempty
      cases hg
      have hslot : (u.entries offset).isSome = false := by rw [hempty]; rfl
      exact ⟨rfl, contents_fill hlt hslot rfl⟩
    · rename_i x hx
      split at hg
      · obtain ⟨hcap, hstored⟩ := ih (u := u.file cfg (u.home h) offset (probes + 1) w) hdvd hlt hg
        refine ⟨hcap, ?_⟩
        have hslot : (u.entries offset).isSome = true := by rw [hx]; rfl
        have hswap := contents_swap (p := Option.isSome) hlt hslot (a := some w) rfl
        rw [hstored, ← hx]
        exact hswap
      · exact ih (u := u.passBy offset) hdvd (probeNext_lt cfg.line_pos hdvd hlt _) hg

theorem growCopy_stored {k : Nat} (hdvd : cfg.line ∣ u.capacity) (hpos : 0 < u.capacity)
    (hg : m.growCopy cfg u k = some u') :
    u'.capacity = u.capacity ∧ u'.stored = single Option.isSome (m.entries k) + u.stored := by
  unfold growCopy at hg
  split at hg
  · rename_i hempty
    cases hg
    refine ⟨rfl, ?_⟩
    rw [hempty, single_of_neg rfl, zero_add]
  · rename_i w hsome
    obtain ⟨hcap, hstored⟩ := growInsert_stored hdvd (home_lt hpos _) hg
    refine ⟨hcap, ?_⟩
    rw [hstored, hsome, single_of_pos rfl, Multiset.singleton_add]

/-- The entries copied to a new map for `n` entries, if they find slots. -/
def copied (cfg : Config V) (loadFactor : Nat) (m : Map V) (n : Nat) : Option (Map V) :=
  m.fill cfg (create loadFactor n) (List.range m.capacity)

theorem copied_stored {loadFactor n : Nat} (h : m.copied cfg loadFactor n = some u') :
    u'.capacity = mapSlots n ∧ u'.stored = m.stored := by
  have hfold := contents_foldlM (p := Option.isSome) (f := m.entries) stored
    (fun u => u.capacity = mapSlots n) (fun u k u' hu hg => by
      obtain ⟨b, -, hslots⟩ := mapSlots_pow n
      have hpos : 0 < u.capacity := by rw [hu, hslots]; exact Nat.two_pow_pos b
      have hdvd : cfg.line ∣ u.capacity := by rw [hu]; exact cfg.line_dvd n
      obtain ⟨hcap, hstored⟩ := growCopy_stored hdvd hpos hg
      exact ⟨hcap.trans hu, hstored⟩) rfl h
  have hempty : (create loadFactor n : Map V).stored = 0 := contents_eq_zero fun _ _ => rfl
  exact ⟨hfold.1, by rw [hfold.2, hempty, add_zero]; rfl⟩

theorem copied_rounding (cfg : Config V) (loadFactor : Nat) (m : Map V) :
    Rounding (m.copied cfg loadFactor) capacity mapSlots 31 :=
  slotsFor_rounding (i := 3) (by decide) (fun h => (copied_stored h).1) fun {n n'} hslots => by
    have hcreate : (create loadFactor n : Map V) = create loadFactor n' := by
      have hslots : mapSlots n = mapSlots n' := hslots
      unfold create
      rw [hslots]
    rw [copied, copied, hcreate]

end Map

namespace State

variable {cfg : Config V} {hs hs' : State V} {capacity : Nat}

/-- A growth that succeeds has searched from the requested capacity on. -/
theorem growLoop_doubling {fuel : Nat} (h : growLoop cfg fuel capacity hs = (true, hs')) :
    hs.map.capacity ≤ capacity ∧
      Doubling (hs.map.copied cfg hs.loadFactor) capacity hs'.map := by
  suffices hsearch : ∀ hs₁ : State V, hs₁.map = hs.map → hs₁.loadFactor = hs.loadFactor →
      growLoop cfg fuel capacity hs₁ = (true, hs') →
      hs.map.capacity ≤ capacity ∧
        Doubling (hs.map.copied cfg hs.loadFactor) capacity hs'.map from
    hsearch hs rfl rfl h
  clear h
  intro hs₁ hmap hload h
  induction fuel generalizing capacity hs₁ with
  | zero => cases h
  | succ fuel ih =>
    rw [growLoop] at h
    split at h
    · cases h
    · rename_i hstop
      rw [hmap, Nat.not_lt] at hstop
      refine ⟨hstop, ?_⟩
      unfold create at h
      by_cases hmalloc : cfg.malloc hs₁.allocs = true
      · simp only [hmalloc, if_true] at h
        split at h
        · rename_i filled hfill
          cases h
          rw [hmap, hload] at hfill
          exact .fits hfill
        · rename_i hfill
          rw [hmap, hload] at hfill
          refine .doubles hfill (ih _ ?_ ?_ h).2
          · exact hmap
          · exact hload
      · simp only [hmalloc, Bool.false_eq_true, if_false] at h
        cases h

theorem grow_large_iff (h : hs.grow cfg capacity = (true, hs')) :
    GrewTo capacity hs.map.capacity hs'.map.capacity hs.map.stored hs'.map.stored ↔
      ∃ i, capacity * 2 ^ i ≤ 2 ^ 31 ∧
        (hs.map.copied cfg hs.loadFactor (capacity * 2 ^ i)).isSome := by
  obtain ⟨hstop, hsearch⟩ := growLoop_doubling h
  obtain ⟨n, hn, -⟩ := hsearch.tried
  obtain ⟨hcap, hstored⟩ := Map.copied_stored hn
  obtain ⟨b, -, hpow⟩ := mapSlots_pow n
  rw [grewTo_iff ⟨b, hcap.trans hpow⟩ hstop hstored]
  exact hsearch.le_size_iff (Map.copied_rounding cfg hs.loadFactor hs.map)

end State

end ConcurrencyKit.Rhs

/-! ## `ck_ht_grow_spmc` -/

namespace ConcurrencyKit.Ht

namespace Map

/-- The entries, slot by slot. -/
def stored (m : Map) : Multiset Entry := contents Entry.live m.entries m.capacity

variable {cfg : Config} {m u u' : Map}

theorem growPlace_stored {h : Word} {e : Entry} {remaining : Nat} (hpos : 0 < u.capacity)
    (hdvd : cfg.bucketLength ∣ u.capacity) (hlive : e.live = true)
    (hg : growPlace cfg h e remaining u = some u') :
    u'.capacity = u.capacity ∧ u'.stored = e ::ₘ u.stored := by
  induction remaining with
  | zero => cases hg
  | succ remaining ih =>
    rw [growPlace] at hg
    dsimp only at hg
    split at hg
    · rename_i hempty
      rw [applyAll_boundSet] at hg
      cases hg
      have hslot : (u.entries (cfg.cursor u.capacity h
          (u.probeSlots cfg - (remaining + 1)))).live = false := by
        unfold Entry.live
        rw [hempty]
        rfl
      exact ⟨rfl, contents_fill (cursor_lt cfg hpos hdvd h _) hslot hlive⟩
    · exact ih hg

theorem growCopy_stored {k : Nat} (hpos : 0 < u.capacity) (hdvd : cfg.bucketLength ∣ u.capacity)
    (hg : m.growCopy cfg u k = some u') :
    u'.capacity = u.capacity ∧ u'.stored = single Entry.live (m.entries k) + u.stored := by
  unfold growCopy at hg
  split at hg
  · rename_i hlive
    obtain ⟨hcap, hstored⟩ := growPlace_stored hpos hdvd hlive hg
    refine ⟨hcap, ?_⟩
    rw [hstored, single_of_pos hlive, Multiset.singleton_add]
  · rename_i hdead
    cases hg
    refine ⟨rfl, ?_⟩
    rw [single_of_neg (Bool.eq_false_iff.mpr hdead), zero_add]

/-- The entries copied to a new map for `n` entries, if they find slots. -/
def copied (cfg : Config) (m : Map) (n : Nat) : Option Map :=
  (List.range m.capacity).foldlM (m.growCopy cfg) (create cfg n)

theorem copied_stored {n : Nat} (h : m.copied cfg n = some u') :
    u'.capacity = slotsFor cfg.bucketLength n ∧ u'.stored = m.stored := by
  have hfold := contents_foldlM (p := Entry.live) (f := m.entries) stored
    (fun u => u.capacity = slotsFor cfg.bucketLength n) (fun u k u' hu hg => by
      obtain ⟨b, hb, hslots⟩ := slotsFor_pow cfg.bucketShift n
      have hcap : u.capacity = 2 ^ b := hu.trans hslots
      have hpos : 0 < u.capacity := by rw [hcap]; exact Nat.two_pow_pos b
      have hdvd : cfg.bucketLength ∣ u.capacity := by rw [hcap]; exact Nat.pow_dvd_pow 2 hb
      obtain ⟨hcap', hstored⟩ := growCopy_stored hpos hdvd hg
      exact ⟨hcap'.trans hu, hstored⟩) rfl h
  have hempty : (create cfg n).stored = 0 := contents_eq_zero fun _ _ => rfl
  exact ⟨hfold.1, by rw [hfold.2, hempty, add_zero]; rfl⟩

theorem copied_rounding (cfg : Config) (m : Map) :
    Rounding (m.copied cfg) capacity (slotsFor cfg.bucketLength) 31 := by
  have hshift : cfg.bucketShift ≤ 31 := by
    unfold Config.bucketShift
    split <;> decide
  refine slotsFor_rounding hshift (fun h => (copied_stored h).1) fun {n n'} hslots => ?_
  have hcreate : create cfg n = create cfg n' := by
    have hslots : slotsFor cfg.bucketLength n = slotsFor cfg.bucketLength n' := hslots
    unfold create
    rw [hslots]
  rw [copied, copied, hcreate]

end Map

namespace State

variable {cfg : Config} {ht ht' : State} {capacity : Nat}

/-- A growth that succeeds has searched from the requested capacity on. -/
theorem growLoop_doubling {fuel : Nat} (h : growLoop cfg fuel capacity ht = (true, ht')) :
    ht.map.capacity ≤ capacity ∧ Doubling (ht.map.copied cfg) capacity ht'.map := by
  suffices hsearch : ∀ ht₁ : State, ht₁.map = ht.map →
      growLoop cfg fuel capacity ht₁ = (true, ht') →
      ht.map.capacity ≤ capacity ∧ Doubling (ht.map.copied cfg) capacity ht'.map from
    hsearch ht rfl h
  clear h
  intro ht₁ hmap h
  induction fuel generalizing capacity ht₁ with
  | zero => cases h
  | succ fuel ih =>
    rw [growLoop] at h
    split at h
    · cases h
    · rename_i hstop
      rw [hmap, Nat.not_le] at hstop
      refine ⟨hstop.le, ?_⟩
      unfold create at h
      by_cases hmalloc : cfg.malloc ht₁.allocs = true
      · simp only [hmalloc, if_true] at h
        split at h
        · rename_i filled hfill
          cases h
          rw [hmap] at hfill
          exact .fits hfill
        · rename_i hfill
          rw [hmap] at hfill
          refine .doubles hfill (ih _ ?_ h).2
          exact hmap
      · simp only [hmalloc, Bool.false_eq_true, if_false] at h
        cases h

theorem grow_large_iff (h : ht.grow cfg capacity = (true, ht')) :
    GrewTo capacity ht.map.capacity ht'.map.capacity ht.map.stored ht'.map.stored ↔
      ∃ i, capacity * 2 ^ i ≤ 2 ^ 31 ∧ (ht.map.copied cfg (capacity * 2 ^ i)).isSome := by
  obtain ⟨hstop, hsearch⟩ := growLoop_doubling h
  obtain ⟨n, hn, -⟩ := hsearch.tried
  obtain ⟨hcap, hstored⟩ := Map.copied_stored hn
  obtain ⟨b, -, hpow⟩ := slotsFor_pow cfg.bucketShift n
  rw [grewTo_iff ⟨b, hcap.trans hpow⟩ hstop hstored]
  exact hsearch.le_size_iff (Map.copied_rounding cfg ht.map)

end State

end ConcurrencyKit.Ht

namespace ConcurrencyKit

/-- A growth that succeeds makes a map that is a power of two, is as large as the request and as
the map before, and holds the same entries, exactly if the entries find slots in a map that is
created for the request, or for the request after some doublings, and that is for at most `2 ^ 31`
entries. -/
theorem grow_grewTo_iff (requested : Nat) :
    (∀ {V : Type} [DecidableEq V] (cfg : Hs.Config V) (hs hs' : Hs.State V),
      hs.grow cfg requested = (true, hs') →
      (GrewTo requested hs.map.capacity hs'.map.capacity hs.map.stored hs'.map.stored ↔
        ∃ i, requested * 2 ^ i ≤ 2 ^ 31 ∧ (hs.map.copied cfg (requested * 2 ^ i)).isSome)) ∧
    (∀ {V : Type} (cfg : Rhs.Config V) (hs hs' : Rhs.State V),
      hs.grow cfg requested = (true, hs') →
      (GrewTo requested hs.map.capacity hs'.map.capacity hs.map.stored hs'.map.stored ↔
        ∃ i, requested * 2 ^ i ≤ 2 ^ 31 ∧
          (hs.map.copied cfg hs.loadFactor (requested * 2 ^ i)).isSome)) ∧
    ∀ (cfg : Ht.Config) (ht ht' : Ht.State),
      ht.grow cfg requested = (true, ht') →
      (GrewTo requested ht.map.capacity ht'.map.capacity ht.map.stored ht'.map.stored ↔
        ∃ i, requested * 2 ^ i ≤ 2 ^ 31 ∧ (ht.map.copied cfg (requested * 2 ^ i)).isSome) :=
  ⟨fun _ _ _ => Hs.State.grow_large_iff, fun _ _ _ => Rhs.State.grow_large_iff,
    fun _ _ _ => Ht.State.grow_large_iff⟩

/-- A set of three numbers with eight slots grows to sixteen. -/
theorem grow_grewTo_iff_sixteen :
    ∃ hs rs hs₁ hs₂, Hs.init Hs.numbers 8 = some hs ∧
      Hs.run Hs.numbers hs [.put 1, .put 9, .put 17] = .ok (rs, hs₁) ∧
      hs₁.grow Hs.numbers 16 = (true, hs₂) ∧
      GrewTo 16 hs₁.map.capacity hs₂.map.capacity hs₁.map.stored hs₂.map.stored := by
  have heval : ((Hs.init Hs.numbers 8).map fun hs =>
      (Hs.run Hs.numbers hs [.put 1, .put 9, .put 17]).toOption.map fun p =>
        ((p.2.grow Hs.numbers 16).1, (p.2.map.copied Hs.numbers 16).isSome)) =
      some (some (true, true)) := by decide +kernel
  obtain ⟨hs, hinit, hsome⟩ := Option.map_eq_some_iff.mp heval
  cases hrun : Hs.run Hs.numbers hs [.put 1, .put 9, .put 17] with
  | error e =>
    rw [hrun] at hsome
    cases hsome
  | ok p =>
    rw [hrun] at hsome
    obtain ⟨hok, hfits⟩ := Prod.mk.inj (Option.some.inj hsome)
    have hgrow : p.2.grow Hs.numbers 16 = (true, (p.2.grow Hs.numbers 16).2) :=
      Prod.ext hok rfl
    exact ⟨hs, p.1, p.2, _, hinit, hrun, hgrow,
      ((grow_grewTo_iff 16).1 _ _ _ hgrow).mpr ⟨0, by decide, hfits⟩⟩

/-- Tables with sixteen slots that are asked for more than `2 ^ 32` get eight. -/
theorem grow_truncated :
    (∃ hs hs', Hs.init Hs.numbers 16 = some hs ∧
      hs.grow Hs.numbers (2 ^ 32 + 8) = (true, hs') ∧
      hs.map.capacity = 16 ∧ hs'.map.capacity = 8) ∧
    (∃ hs hs', Rhs.init Rhs.wideLines 16 = some hs ∧
      hs.grow Rhs.wideLines (2 ^ 32 + 8) = (true, hs') ∧
      hs.map.capacity = 16 ∧ hs'.map.capacity = 8) ∧
    ∃ ht ht', Ht.init Ht.words 16 = some ht ∧
      ht.grow Ht.words (2 ^ 32 + 8) = (true, ht') ∧
      ht.map.capacity = 16 ∧ ht'.map.capacity = 8 := by
  refine ⟨⟨_, _, rfl, Prod.ext ?_ rfl, ?_, ?_⟩, ⟨_, _, rfl, Prod.ext ?_ rfl, ?_, ?_⟩,
    ⟨_, _, rfl, Prod.ext ?_ rfl, ?_, ?_⟩⟩ <;> decide +kernel

end ConcurrencyKit
