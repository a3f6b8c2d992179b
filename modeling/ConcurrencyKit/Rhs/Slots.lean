import ConcurrencyKit.Rhs.Failure
import ConcurrencyKit.Rhs.Deletion

/-!
# The slots in use

Whatever a Robin Hood insertion moves, it fills one empty slot, and whatever a backward-shift
deletion moves, it clears one. A growth counts the slots it fills.
-/

namespace ConcurrencyKit.Rhs

variable {V : Type}

namespace Store

/-- The store is to none of the counts and slots. -/
def Aside : Store V → Prop
  | .entry _ _ | .probes _ _ | .nEntries _ | .map _ => False
  | _ => True

theorem IsWanted.aside {s : Store V} (h : s.IsWanted) : s.Aside := by
  cases s <;> trivial

end Store

namespace Map

/-- The slots in use are those of `u`, and the others have no probe count. -/
structure Holds (m : Map V) (c n : Nat) (u : Nat → Bool) : Prop where
  capacity : m.capacity = c
  nEntries : m.nEntries = n
  used : ∀ t, (m.entries t).isSome = u t
  inside : ∀ t, u t = true → t < c
  empty : ∀ t, u t = false → m.probes t = 0

/-- The count of entries is the number of slots in use. -/
structure Counted (m : Map V) : Prop where
  capacity : ∃ k, 3 ≤ k ∧ k ≤ 64 ∧ m.capacity = 2 ^ k
  count : m.nEntries = tally Option.isSome m.entries m.capacity
  inside : ∀ t, m.entries t ≠ none → t < m.capacity
  empty : ∀ t, m.entries t = none → m.probes t = 0

variable {cfg : Config V} {m m' : Map V} {c n s : Nat} {u : Nat → Bool}

theorem Counted.holds (h : m.Counted) :
    m.Holds m.capacity m.nEntries fun t => (m.entries t).isSome where
  capacity := rfl
  nEntries := rfl
  used _ := rfl
  inside t ht := h.inside t (Option.isSome_iff_ne_none.mp ht)
  empty t ht := h.empty t (Option.not_isSome_iff_eq_none.mp (by simp [ht]))

theorem Counted.lines (h : m.Counted) (cfg : Config V) : Lines cfg.line m.capacity := by
  obtain ⟨k, h3, h64, hc⟩ := h.capacity
  exact hc ▸ cfg.lines h3 h64

namespace Holds

theorem counted (h : m.Holds c n u) (hc : ∃ k, 3 ≤ k ∧ k ≤ 64 ∧ c = 2 ^ k) (hn : n = tally id u c) :
    m.Counted where
  capacity := h.capacity ▸ hc
  count := by
    rw [h.nEntries, hn, h.capacity, ← funext h.used]
    rfl
  inside t ht := by
    rw [h.capacity]
    exact h.inside t (by rw [← h.used]; exact Option.isSome_iff_ne_none.mpr ht)
  empty t ht := h.empty t (by rw [← h.used, ht]; rfl)

theorem congr (h : m.Holds c n u) (hc : m'.capacity = m.capacity) (hn : m'.nEntries = m.nEntries)
    (he : m'.entries = m.entries) (hp : ∀ t, u t = false → m'.probes t = m.probes t) :
    m'.Holds c n u where
  capacity := hc.trans h.capacity
  nEntries := hn.trans h.nEntries
  used := he ▸ h.used
  inside := h.inside
  empty t ht := (hp t ht).trans (h.empty t ht)

theorem of_alike (h : m.Holds c n u) (ha : m.Alike m') : m'.Holds c n u :=
  h.congr ha.capacity ha.nEntries ha.entries fun _ _ => by rw [ha.probes]

/-- A word is stored in a slot. -/
theorem fill (h : m.Holds c n u) (hs : s < c) (w : Word V) :
    (m.apply (.entry s (some w))).Holds c n (Function.update u s true) where
  capacity := h.capacity
  nEntries := h.nEntries
  used t := by
    by_cases hts : t = s
    · subst hts
      simp [apply]
    · simp only [apply, Function.update_of_ne hts]
      exact h.used t
  inside t ht := by
    by_cases hts : t = s
    · rwa [hts]
    · rw [Function.update_of_ne hts] at ht
      exact h.inside t ht
  empty t ht := by
    by_cases hts : t = s
    · simp [hts] at ht
    · rw [Function.update_of_ne hts] at ht
      exact h.empty t ht

/-- A word is stored in the place of another one. -/
theorem refill (h : m.Holds c n u) (hs : u s = true) {o : Option (Word V)} (ho : o.isSome = true) :
    (m.apply (.entry s o)).Holds c n u := by
  obtain ⟨w, rfl⟩ := Option.isSome_iff_exists.mp ho
  have hu : Function.update u s true = u := by rw [← hs, Function.update_eq_self]
  exact hu ▸ h.fill (h.inside s hs) w

/-- The probe count of a slot in use is changed. -/
theorem setProbes (h : m.Holds c n u) (hs : u s = true) (k : Nat) :
    (m.apply (.probes s k)).Holds c n u := by
  refine h.congr rfl rfl rfl fun t ht => Function.update_of_ne ?_ _ _
  rintro rfl
  exact Bool.noConfusion (ht.symm.trans hs)

/-- A slot is emptied. -/
theorem clear (h : m.Holds c n u) (hc : m'.capacity = m.capacity) (hn : m'.nEntries = m.nEntries)
    (he : m'.entries = Function.update m.entries s none)
    (hp : m'.probes = Function.update m.probes s 0) :
    m'.Holds c n (Function.update u s false) where
  capacity := hc.trans h.capacity
  nEntries := hn.trans h.nEntries
  used t := by
    rw [he]
    by_cases hts : t = s
    · subst hts
      simp
    · rw [Function.update_of_ne hts, Function.update_of_ne hts]
      exact h.used t
  inside t ht := by
    by_cases hts : t = s
    · simp [hts] at ht
    · rw [Function.update_of_ne hts] at ht
      exact h.inside t ht
  empty t ht := by
    rw [hp]
    by_cases hts : t = s
    · rw [hts, Function.update_self]
    · rw [Function.update_of_ne hts] at ht ⊢
      exact h.empty t ht

theorem ne_none (h : m.Holds c n u) {t : Nat} : m.entries t ≠ none ↔ u t = true := by
  rw [← h.used, Option.isSome_iff_ne_none]

theorem eq_none (h : m.Holds c n u) {t : Nat} : m.entries t = none ↔ u t = false := by
  rw [← h.used, Option.isSome_eq_false_iff, Option.isNone_iff_eq_none]

end Holds

theorem tally_true {u : Nat → Bool} (hs : s < c) (hu : u s = false) :
    tally id (Function.update u s true) c = tally id u c + 1 := by
  have h := tally_update id u hs true
  simp only [id_eq, hu, Bool.false_eq_true, if_false, if_true] at h
  exact h

theorem tally_false {u : Nat → Bool} (hs : s < c) (hu : u s = true) :
    tally id (Function.update u s false) c + 1 = tally id u c := by
  have h := tally_update id u hs false
  simp only [id_eq, hu, Bool.false_eq_true, if_false, if_true] at h
  exact h

end Map

namespace State

variable {cfg : Config V} {hs hs' : State V} {c n slot : Nat} {u : Nat → Bool}

theorem Makes.holds (h : Makes Store.Aside hs hs') (hm : hs.map.Holds c n u) :
    hs'.map.Holds c n u := by
  refine hm.congr (h.keeps _ ?_) (h.keeps _ ?_) (h.keeps _ ?_) fun t _ => ?_
  any_goals
    intro m s hs
    cases s <;> first | rfl | exact hs.elim
  refine congrFun (h.keeps Map.probes fun m s hs => ?_) t
  cases s <;> first | rfl | exact hs.elim

theorem addWanted_holds (cfg : Config V) (hm : hs.map.Holds c n u) (e : Nat) (old : Option Nat)
    (home : Nat) :
    (hs.addWanted cfg e old home).map.Holds c n u :=
  ((addWanted_makes cfg hs e old home).mono fun _ => Store.IsWanted.aside).holds hm

theorem boundSet_holds (cfg : Config V) (hm : hs.map.Holds c n u) (home k : Nat) :
    (hs.exec (hs.map.boundSet cfg home k)).map.Holds c n u :=
  (Makes.boundSet cfg hs home k (fun _ => trivial) fun _ => trivial).holds hm

theorem markRh_holds (hm : hs.map.Holds c n u) (guard : Option Nat) (value : Bool) :
    (hs.markRh guard value).map.Holds c n u := by
  cases guard with
  | none => exact hm
  | some s => exact (Makes.exec (P := Store.Aside) (by simp [Store.Aside])).holds hm

/-! ## Robin Hood insertion -/

theorem shiftChain_holds {prevs : List (Nat × Nat)} (hm : hs.map.Holds c n u) (hv : u slot = true)
    (hprevs : ∀ s ∈ prevs.map Prod.fst, u s = true) :
    (shiftChain cfg prevs slot hs).map.Holds c n u := by
  induction prevs generalizing slot hs with
  | nil => exact (Makes.exec (P := Store.Aside) (by simp [Store.Aside])).holds hm
  | cons p prevs ih =>
    obtain ⟨prev, k⟩ := p
    rw [List.map_cons, List.forall_mem_cons] at hprevs
    rw [shiftChain]
    refine ih ?_ hprevs.1 hprevs.2
    refine (Makes.exec (P := Store.Aside) (by simp [Store.Aside, Map.signal])).holds ?_
    refine addWanted_holds cfg ?_ _ _ _
    exact hm.refill hv ((hm.used prev).trans hprevs.1)

theorem update_true {e t : Nat} (h : u t = true) : Function.update u e true t = true := by
  by_cases hte : t = e
  · rw [hte, Function.update_self]
  · rwa [Function.update_of_ne hte]

/-- An empty slot is filled, and the entries of the chain are moved. -/
theorem relocationMove_holds {prevs : List (Nat × Nat)} {e k : Nat} (hm : hs.map.Holds c n u)
    (he : e < c) (hslot : u slot = true) (hprevs : ∀ s ∈ prevs.map Prod.fst, u s = true) :
    (hs.relocationMove cfg slot e k prevs).map.Holds c n (Function.update u e true) := by
  obtain ⟨w, hw⟩ := Option.ne_none_iff_exists'.mp (hm.ne_none.mpr hslot)
  unfold relocationMove
  dsimp only
  rw [hw]
  refine shiftChain_holds (addWanted_holds cfg ?_ _ _ _) (update_true hslot)
    fun s hs => update_true (hprevs s hs)
  have hb := boundSet_holds cfg hm (firstOffset cfg.line hs.map.capacity e k) k
  generalize hs.exec (hs.map.boundSet cfg _ k) = hs₁ at hb ⊢
  exact ((hb.fill he w).setProbes (Function.update_self ..) k).congr rfl rfl rfl fun _ _ => rfl

/-- While a chain is chosen the slots in use stay the same. -/
theorem Chosen.holds {hs₀ : State V} {prevs : List (Nat × Nat)}
    (h : Chosen cfg hs₀ slot prevs hs) (hm : hs₀.map.Holds c n u)
    (hlast : u ((prevs.map Prod.fst).getLastD slot) = true) :
    hs.map.Holds c n u ∧ u slot = true ∧ ∀ s ∈ prevs.map Prod.fst, u s = true := by
  obtain ⟨hc, hn, he, -⟩ := h.makes.chooses_keep
  have hused : ∀ s ∈ slot :: prevs.map Prod.fst, u s = true := by
    intro s hs
    rcases h.used s hs with rfl | hne
    · exact hlast
    · exact hm.ne_none.mp hne
  rw [List.forall_mem_cons] at hused
  refine ⟨hm.congr hc hn he fun t ht => h.probes t fun k hk => ?_, hused⟩
  rcases olds_fst hk with rfl | hmem
  · exact Bool.noConfusion (ht.symm.trans hused.1)
  · exact Bool.noConfusion (ht.symm.trans (hused.2 t hmem))

/-- What `ck_rhs_put_robin_hood` does to the slots in use. -/
inductive Shifted (c n : Nat) (u : Nat → Bool) : Relocation × State V → Prop
  | grown (hs' : State V) (counted : hs'.map.Counted) : Shifted c n u (.grown, hs')
  | failed (hs' : State V) (holds : hs'.map.Holds c n u) : Shifted c n u (.failed, hs')
  | moved (hs' : State V) (e : Nat) (lt : e < c) (empty : u e = false)
      (holds : hs'.map.Holds c n (Function.update u e true)) : Shifted c n u (.moved, hs')

end State

/-! ## Growing -/

namespace Map

variable {cfg : Config V} {m u u' : Map V}

theorem Counted.create (loadFactor entries : Nat) :
    (Map.create loadFactor entries : Map V).Counted where
  capacity := by
    obtain ⟨k, h3, hk⟩ := mapSlots_pow entries
    refine ⟨k, h3, ?_, hk⟩
    have hle := mapSlots_le entries
    rw [hk] at hle
    have := (Nat.pow_le_pow_iff_right (by decide)).mp hle
    omega
  count := (tally_eq_zero fun _ _ => rfl).symm
  inside t ht := absurd rfl ht
  empty _ _ := rfl

theorem Counted.pos (h : m.Counted) : 0 < m.capacity := by
  obtain ⟨k, -, -, hc⟩ := h.capacity
  rw [hc]
  exact Nat.two_pow_pos k

/-- A word is filed in a slot. -/
theorem Holds.file (cfg : Config V) {c n s : Nat} {a : Nat → Bool} (h : u.Holds c n a) (hs : s < c)
    (home k : Nat) (w : Word V) : (u.file cfg home s k w).Holds c n (Function.update a s true) :=
  ((h.fill hs w).setProbes (Function.update_self ..) k).congr rfl rfl rfl fun _ _ => rfl

/-- The word has been filed in an empty slot, and counted. -/
theorem Counted.file_empty (h : u.Counted) {offset : Nat} (hlt : offset < u.capacity)
    (hempty : u.entries offset = none) (home k : Nat) (w : Word V) :
    ({ u.file cfg home offset k w with nEntries := u.nEntries + 1 } : Map V).Counted := by
  have hfile := h.holds.file cfg hlt home k w
  have hcount : ({ u.file cfg home offset k w with nEntries := u.nEntries + 1 } : Map V).Holds
      u.capacity (u.nEntries + 1) _ := ⟨rfl, rfl, hfile.used, hfile.inside, hfile.empty⟩
  refine hcount.counted h.capacity ?_
  rw [tally_true hlt (by rw [hempty]; rfl), h.count]
  rfl

/-- The word has been filed in the place of another one, which is put aside. -/
theorem Counted.file_used (h : u.Counted) {offset : Nat} {x : Word V}
    (hx : u.entries offset = some x) (home k : Nat) (w : Word V) :
    (u.file cfg home offset k w).Counted := by
  have hlt := h.inside offset (by rw [hx]; exact Option.some_ne_none x)
  refine (h.holds.file cfg hlt home k w).counted h.capacity ?_
  have hused : (u.entries offset).isSome = true := by rw [hx]; rfl
  rw [← hused, Function.update_eq_self, h.count]
  rfl

theorem growInsert_counted {fuel offset probes : Nat} {w : Word V} {h : BitVec 64}
    (hu : u.Counted) (hlt : offset < u.capacity)
    (hg : u.growInsert cfg fuel w h offset probes = some u') : u'.Counted := by
  induction fuel generalizing w h offset probes u with
  | zero => cases hg
  | succ fuel ih =>
    rw [growInsert_succ] at hg
    split at hg
    · cases hg
    split at hg
    · rename_i hempty
      cases hg
      exact hu.file_empty hlt hempty _ _ w
    · rename_i x hx
      split at hg
      · exact ih (hu.file_used hx _ _ w) hlt hg
      · have hpass : (u.passBy offset).Counted := ⟨hu.capacity, hu.count, hu.inside, hu.empty⟩
        exact ih hpass (probeNext_lt cfg.line_pos (hu.lines cfg).dvd hlt _) hg

theorem fill_counted {ks : List Nat} (hu : u.Counted) (hf : m.fill cfg u ks = some u') :
    u'.Counted := by
  induction ks generalizing u with
  | nil =>
    cases hf
    exact hu
  | cons k ks ih =>
    rw [fill_cons] at hf
    obtain ⟨u₁, hk, hf⟩ := Option.bind_eq_some_iff.mp hf
    refine ih ?_ hf
    unfold growCopy at hk
    split at hk
    · cases hk
      exact hu
    · exact growInsert_counted hu (home_lt hu.pos _) hk

end Map

/-- The probe for room that picks no slot ends at an empty one. -/
theorem Map.probeFrom_empty {cfg : Config V} {m : Map V} {slot n e : Nat}
    {behavior : ProbeBehavior} (hl : Lines cfg.line m.capacity) (hslot : slot < m.capacity)
    (hfirst : (m.probeFrom cfg slot n behavior).first = none)
    (hend : (m.probeFrom cfg slot n behavior).slot = some e) :
    e < m.capacity ∧ m.entries e = none := by
  obtain ⟨home, hh, hhome⟩ : ∃ home < m.capacity,
      probeNext cfg.line m.capacity slot n = m.slotAt cfg home n := by
    cases n with
    | zero =>
      refine ⟨slot, hslot, ?_⟩
      rw [probeNext, Nat.zero_mod, if_pos rfl]
      exact Nat.mod_eq_of_lt hslot
    | succ n =>
      obtain ⟨home, hh, rfl⟩ := exists_home hl hslot n
      exact ⟨home, hh, rfl⟩
  unfold probeFrom at hfirst hend
  rw [hhome] at hfirst hend
  have hfound : m.Found cfg (fun _ => false) home n none _ :=
    probeLoop_found m.probeLimit behavior (m.probeLimit + 1) n m.probeLimit none
  obtain ⟨k, hends, -⟩ := hfound.ends e hend
  refine ⟨hends.slot ▸ cursor_lt hl hh k, ?_⟩
  rcases hends.word with ⟨hempty, -⟩ | ⟨w, -, hhit, -⟩ | ⟨hpicked, -⟩
  · exact hempty
  · cases hhit
  · rw [hfirst] at hpicked
    cases hpicked

namespace State

variable {cfg : Config V} {hs hs₀ hs' : State V} {c n slot : Nat} {u : Nat → Bool}

theorem Grown.counted {r : Bool × State V} (h : Grown cfg hs r) (hc : hs.map.Counted) :
    r.2.map.Counted := by
  cases h with
  | failed hs' map => rwa [map]
  | filled capacity m hs' fill map =>
    rw [map]
    exact Map.fill_counted (.create _ _) fill

theorem grow_counted (cfg : Config V) (hc : hs.map.Counted) (capacity : Nat) :
    (hs.grow cfg capacity).2.map.Counted :=
  (grow_grown cfg hs capacity).counted hc

/-- The branch of `ck_rhs_put_robin_hood` that found no slot. -/
theorem Chosen.shifted_grow {prevs : List (Nat × Nat)} (h : Chosen cfg hs₀ slot prevs hs)
    (hm : hs₀.map.Holds c n u) :
    Shifted c n u ((hs.exec [.inRh slot true]).relocationGrow cfg slot prevs) := by
  unfold relocationGrow
  have hgrown := grow_grown cfg (hs.exec [.inRh slot true])
    ((hs.exec [.inRh slot true]).map.capacity * 2)
  generalize (hs.exec [.inRh slot true]).grow cfg _ = r at hgrown ⊢
  cases hgrown with
  | filled capacity m hs' fill map =>
    refine .grown hs' ?_
    rw [map]
    exact Map.fill_counted (.create _ _) fill
  | failed hs' map => exact .failed _ (hm.of_alike (h.restored map).1)

theorem putRobinHood_shifted (hl : Lines cfg.line c) (hm : hs.map.Holds c n u)
    (hslot : u slot = true) : Shifted c n u (hs.putRobinHood cfg slot) := by
  obtain ⟨slot', prevs, hs', hc, hlast, hend⟩ :=
    putRobinHoodLoop_ended cfg maxRh rfl (Chosen.start hs slot)
  unfold putRobinHood
  generalize putRobinHoodLoop cfg maxRh slot _ [] hs = r at hend ⊢
  rw [List.map_nil, List.getLastD_nil] at hlast
  cases hend with
  | grow => exact hc.shifted_grow hm
  | move behavior r empty probe first some =>
    obtain ⟨hm', hslot', hprevs⟩ := hc.holds hm (hlast ▸ hslot)
    have hmark : (hs'.exec [.inRh slot' true]).map.Holds c n u :=
      hm'.congr rfl rfl rfl fun _ _ => rfl
    obtain ⟨hlt, hempty⟩ := Map.probeFrom_empty (hmark.capacity ▸ hl)
      (hmark.capacity ▸ hm.inside slot' hslot') (probe ▸ first) (probe ▸ some)
    refine .moved _ empty (hmark.capacity ▸ hlt) (hmark.eq_none.mp hempty) ?_
    exact relocationMove_holds hmark (hmark.capacity ▸ hlt) hslot' hprevs

/-! ## Backward-shift deletion -/

theorem shiftMove_holds (hm : hs.map.Holds c n u) {wp probe offset : Nat} (hslot : u slot = true)
    (hoffset : u offset = true) :
    (hs.shiftMove cfg slot wp probe offset).2.map.Holds c n u := by
  unfold shiftMove
  dsimp only
  have h₁ := hm.setProbes hslot wp
  have h₂ := ((removeWanted_makes cfg (hs.exec [.probes slot wp]) offset (some slot)).mono
    fun _ => Store.IsWanted.aside).holds h₁
  generalize (hs.exec [.probes slot wp]).removeWanted cfg offset (some slot) = r at h₂ ⊢
  obtain ⟨h, hs₂⟩ := r
  dsimp only at h₂ ⊢
  have h₃ : (hs₂.exec [.entry slot (hs₂.map.entries offset), hs₂.map.signal h]).map.Holds c n u :=
    (h₂.refill hslot ((h₂.used offset).trans hoffset)).congr rfl rfl rfl fun _ _ => rfl
  generalize hs₂.exec [.entry slot (hs₂.map.entries offset), hs₂.map.signal h] = hs₃ at h₃ ⊢
  have h₄ : (hs₃.exec (hs₃.map.lowerBound cfg h offset probe wp)).map.Holds c n u := by
    refine (Makes.exec (P := Store.Aside) fun s hs => ?_).holds h₃
    obtain ⟨k, rfl⟩ := lowerBound_kind cfg hs₃.map h offset probe wp s hs
    trivial
  split
  · exact h₄.congr rfl rfl rfl fun _ _ => rfl
  · exact h₄

/-- An entry is moved back from a slot in use only. -/
theorem shiftLoop_holds (fuel h : Nat) (hl : Lines cfg.line c) (hm : hs.map.Holds c n u)
    (hslot : u slot = true) :
    let r := shiftLoop cfg fuel slot h hs
    r.2.2.map.Holds c n u ∧ u r.1 = true := by
  induction fuel generalizing slot hs h with
  | zero => exact ⟨hm, hslot⟩
  | succ fuel ih =>
    rw [shiftLoop_succ]
    split
    · exact ⟨hm, hslot⟩
    split
    · exact ⟨hm.congr rfl rfl rfl fun _ _ => rfl, hslot⟩
    · rename_i wp probe offset hsucc
      have hlt := hm.inside slot hslot
      obtain ⟨-, -, -, -, -, -, -, hprobes⟩ := Map.successorLoop_some (hm.capacity ▸ hl)
        (hm.capacity ▸ hlt) Nat.one_pos hsucc
      have hoffset : u offset = true := by
        refine Bool.eq_true_of_not_eq_false fun hu => ?_
        have := hm.empty offset hu
        omega
      exact ih _ (shiftMove_holds hm hslot hoffset) hoffset

/-- A deletion clears one slot. -/
theorem doBackwardShiftDelete_holds (hl : Lines cfg.line c) (hm : hs.map.Holds c n u)
    (hslot : u slot = true) :
    ∃ e < c, u e = true ∧
      (hs.doBackwardShiftDelete cfg slot).map.Holds c n (Function.update u e false) := by
  unfold doBackwardShiftDelete
  have h₁ := ((removeWanted_makes cfg hs slot none).mono fun _ => Store.IsWanted.aside).holds hm
  generalize hs.removeWanted cfg slot none = r at h₁ ⊢
  obtain ⟨h, hs₁⟩ := r
  dsimp only at h₁ ⊢
  obtain ⟨h₂, hused⟩ := shiftLoop_holds hs₁.map.shiftFuel h hl h₁ hslot
  generalize shiftLoop cfg hs₁.map.shiftFuel slot h hs₁ = r at h₂ hused ⊢
  obtain ⟨e, h', hs₂⟩ := r
  dsimp only at h₂ hused ⊢
  refine ⟨e, hm.inside e hused, hused, ?_⟩
  split
  · exact h₂.clear rfl rfl rfl rfl
  · exact h₂.clear rfl rfl rfl rfl

/-- One slot has been filled, and another one is cleared. -/
theorem doBackwardShiftDelete_replaced (hl : Lines cfg.line c) {e : Nat} (hlt : e < c)
    (hempty : u e = false) (hm : hs.map.Holds c n (Function.update u e true))
    (hslot : u slot = true) :
    ∃ u', (hs.doBackwardShiftDelete cfg slot).map.Holds c n u' ∧ tally id u' c = tally id u c := by
  obtain ⟨e', hlt', he', h⟩ := doBackwardShiftDelete_holds hl hm (update_true hslot)
  refine ⟨_, h, ?_⟩
  have hup := Map.tally_true hlt hempty
  have hdown := Map.tally_false hlt' he'
  omega

end State

end ConcurrencyKit.Rhs
