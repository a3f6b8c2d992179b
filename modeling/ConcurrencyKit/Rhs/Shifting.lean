import ConcurrencyKit.Growth
import ConcurrencyKit.Rhs.Bounds

/-!
# What a deletion leaves in the map

Backward-shift deletion takes one word out of the map. It moves others, and it lowers the probe
bound of a home slot when the entry that it moves back, or the one that was removed last, was the
farthest from there. The counter of the home slot, the probe maximum and the order of the search
tell that it was.
-/

namespace ConcurrencyKit.Rhs

variable {V : Type}

/-- Two entries do not pass a slot that is passed once. -/
theorem eq_of_passing {line capacity s t t' : Nat} {P : Placement} {x x' : Place}
    (h : passing line capacity P s = 1) (ht : t < capacity) (ht' : t' < capacity)
    (hx : P t = some x) (hx' : P t' = some x') (hp : x.Passes line capacity s)
    (hp' : x'.Passes line capacity s) : t = t' := by
  unfold passing tally at h
  have hcard := Finset.card_le_one.mp (Nat.le_of_eq h)
  refine hcard t ?_ t' ?_
  · rw [Finset.mem_filter, Finset.mem_range, hx]
    exact ⟨ht, through_some.mpr hp⟩
  · rw [Finset.mem_filter, Finset.mem_range, hx']
    exact ⟨ht', through_some.mpr hp'⟩

namespace Map

/-- The words in the slots but for `v`. -/
def storedBut (m : Map V) (v : Nat) : Multiset (Option (Word V)) :=
  contents Option.isSome (Function.update m.entries v none) m.capacity

variable {cfg : Config V} {m m' : Map V} {P : Placement} {slot wp probe offset home s v : Nat}

theorem storedBut_of_none (h : m.entries v = none) : m.storedBut v = m.stored := by
  rw [storedBut, ← h, Function.update_eq_self]
  rfl

theorem stored_cons (hv : v < m.capacity) (hne : m.entries v ≠ none) :
    m.entries v ::ₘ m.storedBut v = m.stored := by
  have hupdate := contents_update (p := Option.isSome) (f := m.entries) hv none
  rw [single_of_pos (Option.isSome_iff_ne_none.mpr hne), Multiset.singleton_add] at hupdate
  exact hupdate.trans (zero_add _)

theorem storedBut_congr (he : m'.entries = m.entries) (hc : m'.capacity = m.capacity) (v : Nat) :
    m'.storedBut v = m.storedBut v := by
  rw [storedBut, storedBut, he, hc]

theorem stored_congr (he : m'.entries = m.entries) (hc : m'.capacity = m.capacity) :
    m'.stored = m.stored := by
  rw [stored, stored, he, hc]

theorem storedBut_move (hv : v < m.capacity) (hs : s < m.capacity) (hne : v ≠ s)
    (he : m'.entries = Function.update m.entries v (m.entries s))
    (hc : m'.capacity = m.capacity) : m'.storedBut s = m.storedBut v := by
  rw [storedBut, he, hc]
  exact contents_move hv hs hne rfl

theorem stored_fill {w : Word V} (hv : v < m.capacity)
    (he : m'.entries = Function.update m.entries v (some w)) (hc : m'.capacity = m.capacity) :
    m'.stored = some w ::ₘ m.storedBut v := by
  have hfill := contents_fill (p := Option.isSome) (f := Function.update m.entries v none) hv
    (by rw [Function.update_self]; rfl) (a := some w) rfl
  rw [Function.update_idem] at hfill
  rw [stored, he, hc, hfill]
  rfl

/-! ## The successor of a slot -/

/-- The entry in `offset` is the one next to `slot` of those with home slot `home`. -/
structure Follower (cfg : Config V) (m : Map V) (P : Placement) (slot wp probe offset home : Nat) :
    Prop where
  pos : 0 < wp
  le : wp ≤ probe
  lt : probe < m.capacity
  inside : home < m.capacity
  atSlot : cursor cfg.line m.capacity home (wp - 1) = slot
  atOffset : cursor cfg.line m.capacity home probe = offset
  ne : offset ≠ slot
  place : P offset = some ⟨home, probe + 1⟩
  probes : m.probes offset = probe + 1
  nearest : ∀ j, wp ≤ j → j < probe → m.probes (cursor cfg.line m.capacity home j) ≠ j + 1

theorem successorFrom_nearest {remaining probe' offset' : Nat}
    (h : m.successorFrom cfg remaining probe (cursor cfg.line m.capacity home probe) =
      some (probe', offset')) :
    ∀ j, probe ≤ j → j < probe' → m.probes (cursor cfg.line m.capacity home j) ≠ j + 1 := by
  induction remaining generalizing probe with
  | zero => cases h
  | succ remaining ih =>
    rw [successorFrom] at h
    split at h
    · cases h
      exact fun j hle hlt => absurd hlt (by omega)
    · rename_i hp
      intro j hle hlt
      rcases Nat.eq_or_lt_of_le hle with rfl | hlt'
      · exact hp
      · exact ih h j hlt' hlt

theorem successorLoop_nearest {remaining wantedProbes : Nat} (hpos : 0 < wantedProbes)
    (h : m.successorLoop cfg slot remaining wantedProbes = some (wp, probe, offset))
    (hslot : cursor cfg.line m.capacity home (wp - 1) = slot) :
    ∀ j, wp ≤ j → j < probe → m.probes (cursor cfg.line m.capacity home j) ≠ j + 1 := by
  induction remaining generalizing wantedProbes with
  | zero => cases h
  | succ remaining ih =>
    rw [successorLoop] at h
    split at h
    · rename_i probe' offset' hfrom
      cases h
      rw [probeNext_of_cursor hpos hslot] at hfrom
      exact successorFrom_nearest hfrom
    · exact ih (Nat.succ_pos _) h

theorem Vacant.follower (h : m.Vacant cfg slot P) (hstale : m.probes slot ≤ m.capacity)
    (hsucc : m.successor cfg slot = some (wp, probe, offset)) :
    ∃ home, m.Follower cfg P slot wp probe offset home := by
  have hl := h.lines
  obtain ⟨hpos, hle, hmax, home, hh, hslot, hoffset, hprobes⟩ :=
    successorLoop_some hl h.inside Nat.one_pos hsucc
  have hlt : probe < m.capacity := by
    by_cases hos : offset = slot
    · rw [hos] at hprobes
      omega
    · obtain ⟨home', hx⟩ := h.used hos (by omega)
      obtain ⟨-, -, hle', -⟩ := h.placed.stands offset _ hx
      dsimp only at hle'
      omega
  have hne : offset ≠ slot := by
    rw [← hslot, hoffset]
    intro he
    have := cursor_inj hl hh hlt (by omega) he
    omega
  obtain ⟨home', hx⟩ := h.used hne (by omega)
  obtain ⟨hh', -, -, hstand⟩ := h.placed.stands offset _ hx
  rw [hprobes] at hx hstand
  have hhome : home' = home := cursor_home_inj hl hh' hh (hstand.trans hoffset)
  rw [hhome] at hx
  exact ⟨home, hpos, hle, hlt, hh, hslot, hoffset.symm, hne, hx, hprobes,
    successorLoop_nearest Nat.one_pos hsucc hslot⟩

/-- The search for another slot with the home slot ends at once, since every slot leads back
there. -/
theorem scanHome_eq (hl : Lines cfg.line m.capacity) (hh : home < m.capacity)
    (hle : probe ≤ m.capacity) (remaining : Nat) :
    m.scanHome cfg home remaining probe (cursor cfg.line m.capacity home probe) = probe := by
  cases remaining with
  | zero => rfl
  | succ remaining =>
    have hword : m.capacity ≤ 2 ^ 64 := Nat.le_of_dvd (Nat.two_pow_pos 64) hl.word
    rw [scanHome, if_pos (firstOffset_cursor hl hh (by omega)).symm]

theorem Capped.maximum_lt (h : m.Capped) : m.probeMaximum < 2 ^ 32 := by
  have hle := h.maximum.trans (min_le_right _ _)
  omega

/-- When the bound of a home slot is lowered. -/
theorem lowerBound_cases (hl : Lines cfg.line m.capacity) (hcap : m.Capped)
    (hh : home < m.capacity) (hlt : probe < m.capacity)
    (hoffset : cursor cfg.line m.capacity home probe = offset)
    (hprobes : m.probes offset = probe + 1) (hmax : probe < m.probeMaximum) :
    m.lowerBound cfg home offset probe wp = [] ∨
      m.lowerBound cfg home offset probe wp = [.probeBound home wp] ∧ wp < wordMax ∧
        (m.wanted home = 1 ∨ m.probeMaximum = probe + 1) := by
  unfold lowerBound
  split
  swap
  · exact .inl rfl
  rename_i hword
  split
  · rename_i hone
    exact .inr ⟨rfl, hword, .inl hone⟩
  split
  swap
  · exact .inl rfl
  rename_i hbound
  dsimp only
  have hnext : probeNext cfg.line m.capacity offset (probe + 1) =
      cursor cfg.line m.capacity home (probe + 1) := by
    rw [← hoffset]
    rfl
  rw [hnext, scanHome_eq hl hh hlt]
  by_cases hbyte : m.probeBound home = wordMax
  · rw [if_pos hbyte]
    split
    · rename_i hlast
      exact .inr ⟨rfl, hword, .inr hlast.symm⟩
    · exact .inl rfl
  · -- the bound is the probe count of the entry, and one slot more has been read
    have hlt32 := hcap.maximum_lt
    rw [if_neg hbyte, hbound.resolve_left hbyte, hprobes, dec_of_pos (Nat.succ_pos _) (by omega),
      if_neg (by omega)]
    exact .inl rfl

end Map

namespace State

variable {cfg : Config V} {hs : State V} {P : Placement} {slot wp probe offset home : Nat}

/-- The fields that limit a probe after the move of an entry from `offset` back to `slot`. -/
theorem shiftMove_bounds (h : hs.map.Vacant cfg slot P) (hb : hs.map.Bounded cfg (some slot))
    (hf : hs.map.Follower cfg P slot wp probe offset home) :
    (hs.shiftMove cfg slot wp probe offset).1 = home ∧
      ((hs.shiftMove cfg slot wp probe offset).2.map.bounds = hs.map.bounds ∨
        (hs.shiftMove cfg slot wp probe offset).2.map.bounds =
            (hs.map.apply (.probeBound home wp)).bounds ∧
          wp < wordMax ∧ (hs.map.wanted home = 1 ∨ hs.map.probeMaximum = probe + 1)) := by
  have hl := h.lines
  have hmax : probe < hs.map.probeMaximum := by
    have := hb.below offset
    rw [hf.probes] at this
    exact this
  unfold shiftMove
  dsimp only
  generalize h₁ : hs.exec [.probes slot wp] = hs₁
  have hb₁ : hs₁.map.bounds = hs.map.bounds := by rw [← h₁]; rfl
  have hc₁ : hs₁.map.capacity = hs.map.capacity := by rw [← h₁]; rfl
  have hp₁ : hs₁.map.probes offset = probe + 1 := by
    rw [← h₁]
    exact (Function.update_of_ne hf.ne _ _).trans hf.probes
  have hw₁ : hs₁.map.wanted = hs.map.wanted := by rw [← h₁]; rfl
  have hspec := removeWanted_spec wp (probe + 1) (some slot) hl hf.inside (Nat.succ_pos _) hf.lt hc₁
    hf.atOffset hp₁ hf.le (.inr ⟨hf.pos, by rw [hf.atSlot]⟩)
  have hkeep := ((removeWanted_makes cfg hs₁ offset (some slot)).mono (Q := Store.Plain)
    fun s hs => by cases s <;> trivial).plain_keep
  generalize hs₁.removeWanted cfg offset (some slot) = r at hspec hkeep ⊢
  obtain ⟨h', hs₂⟩ := r
  obtain ⟨rfl, hw₂⟩ := hspec
  dsimp only at hw₂ hkeep hf ⊢
  refine ⟨rfl, ?_⟩
  generalize h₃ : hs₂.exec [.entry slot (hs₂.map.entries offset), hs₂.map.signal h'] = hs₃
  have hb₃ : hs₃.map.bounds = hs.map.bounds := by
    rw [← h₃]
    exact hkeep.1.trans hb₁
  have hp₃ : hs₃.map.probes offset = probe + 1 := by
    rw [← h₃]
    exact (congrFun hkeep.2 offset).trans hp₁
  have hw₃ : hs₃.map.wanted h' = hs.map.wanted h' := by
    rw [← h₃]
    refine (hw₂ h').trans ?_
    rw [if_neg, hw₁]
    exact not_along_cursor (k := 0) hl hf.inside (by have := hf.lt; omega) hf.lt.le (.inl hf.pos)
  obtain ⟨hc₃, hm₃, -⟩ : hs₃.map.capacity = hs.map.capacity ∧
      hs₃.map.probeMaximum = hs.map.probeMaximum ∧ hs₃.map.probeBound = hs.map.probeBound := by
    simpa only [Map.bounds, Prod.mk.injEq] using hb₃
  have hlast : ∀ hs₄ : State V, (if hs₄.map.wanted slot < maxWanted then
      hs₄.exec [.wanted slot (dec 16 (hs₄.map.wanted slot))] else hs₄).map.bounds =
        hs₄.map.bounds := fun hs₄ => by split <;> rfl
  rw [hlast]
  rcases Map.lowerBound_cases (m := hs₃.map) (hc₃ ▸ hl)
    ((Map.Raises.of_bounds hb₃).capped hb.capped) (hc₃ ▸ hf.inside) (hc₃ ▸ hf.lt)
    (hc₃ ▸ hf.atOffset) hp₃ (hm₃ ▸ hmax) with hnone | ⟨hsome, hword, hwhy⟩
  · rw [hnone, exec_nil]
    exact .inl hb₃
  · rw [hsome]
    refine .inr ⟨?_, hword, ?_⟩
    · simp only [Map.bounds, Prod.mk.injEq] at hb₃
      simp only [Map.bounds, exec_map, Map.applyAll_cons, Map.applyAll_nil, Map.apply, hb₃.1,
        hb₃.2.1, hb₃.2.2]
    · rw [← hw₃, ← hm₃]
      exact hwhy

/-- The loop of `ck_rhs_do_backward_shift_delete`: `slot` is vacant, and the entry that was there
had home slot `h` and the probe count that the slot still has. -/
structure Shifting (cfg : Config V) (m : Map V) (slot h : Nat) (P : Placement) : Prop where
  vacant : m.Vacant cfg slot P
  bounded : m.Bounded cfg (some slot)
  pos : 0 < m.probes slot
  le : m.probes slot ≤ m.capacity
  inside : h < m.capacity
  stands : cursor cfg.line m.capacity h (m.probes slot - 1) = slot

/-- All other entries with the home slot are nearer to it, if the bound is lowered. -/
theorem nearer_of_lowered {wp probe offset home : Nat} (h : hs.map.Vacant cfg slot P)
    (hb : hs.map.Bounded cfg (some slot)) (hf : hs.map.Follower cfg P slot wp probe offset home)
    (hwhy : hs.map.wanted home = 1 ∨ hs.map.probeMaximum = probe + 1) {t q : Nat}
    (ht : t ≠ offset) (hx : P t = some ⟨home, q⟩) : q ≤ wp := by
  have hl := h.lines
  have hpos := hf.pos
  have hle := hf.le
  obtain ⟨-, hq, hqle, hstand⟩ := h.placed.stands t _ hx
  dsimp only at hq hqle hstand
  rcases hwhy with hone | hmax
  · -- both entries would pass their home slot
    by_contra hlt
    have hpass := (h.counts home hf.inside).2 (by rw [hone]; decide)
    refine ht (eq_of_passing (hpass.symm.trans hone) (h.placed.lt hl hx)
      (h.placed.lt hl hf.place) hx hf.place ?_ ?_)
    · exact ⟨0, by dsimp only; omega, le_rfl, rfl⟩
    · exact ⟨0, by dsimp only; omega, le_rfl, rfl⟩
  · have hts : t ≠ slot := by
      rintro rfl
      rw [h.slot] at hx
      cases hx
    have hprobes : hs.map.probes t = q := Map.probes_of_place ((h.place t hts).trans hx)
    have hbelow := hb.below t
    by_contra hlt
    rcases Nat.lt_or_ge (q - 1) probe with hnear | hfar
    · refine hf.nearest (q - 1) (by omega) hnear ?_
      rw [hstand]
      omega
    · refine ht (hstand.symm.trans (Eq.trans ?_ hf.atOffset))
      congr 1
      omega

/-- One entry is moved back. -/
theorem Shifting.shiftMove {h : Nat} (hshift : Shifting cfg hs.map slot h P)
    (hsucc : hs.map.successor cfg slot = some (wp, probe, offset)) :
    let r := hs.shiftMove cfg slot wp probe offset
    ∃ P', Shifting cfg r.2.map offset r.1 P' ∧ r.2.map.storedBut offset = hs.map.storedBut slot ∧
      load r.2.map.capacity P' < load hs.map.capacity P := by
  dsimp only
  have hv := hshift.vacant
  have hl := hv.lines
  obtain ⟨home, hf⟩ := hv.follower hshift.le hsucc
  obtain ⟨hhome, hbounds⟩ := shiftMove_bounds hv hshift.bounded hf
  obtain ⟨hc, he, hp, hm, -⟩ := shiftMove_map hl hf.inside hf.pos hf.le hf.lt hf.atSlot hf.atOffset
    hf.probes (hv.counts slot hv.inside).1
  obtain ⟨P', hv', hstale, hload⟩ := shiftMove_vacant hv hshift.le hsucc
  generalize hs.shiftMove cfg slot wp probe offset = r
    at hhome hbounds hc he hp hm hv' hstale hload ⊢
  obtain ⟨h', hs₁⟩ := r
  dsimp only at hhome hbounds hc he hp hm hv' hstale hload ⊢
  subst hhome
  have hpo : hs₁.map.probes offset = probe + 1 := by
    rw [hp, Function.update_of_ne hf.ne, hf.probes]
  refine ⟨P', ⟨hv', ?_, by omega, hstale, hc ▸ hf.inside, ?_⟩, ?_, hload⟩
  · -- the bound admits the entry in its new slot, whether it has been lowered or not
    have hwp := hf.le
    have hmax := hshift.bounded.below offset
    rw [hf.probes] at hmax
    have hback : firstOffset cfg.line hs.map.capacity slot wp = h' :=
      firstOffset_stands hl hf.inside hf.pos (by have := hf.lt; omega) hf.atSlot
    have hfar : firstOffset cfg.line hs.map.capacity offset (probe + 1) = h' :=
      firstOffset_stands hl hf.inside (Nat.succ_pos _) hf.lt hf.atOffset
    rcases hbounds with hsame | ⟨hlow, hword, hwhy⟩
    · refine hshift.bounded.setProbes hsame hp (by omega) (fun hrm _ => ?_) fun s hst _ hv => ?_
      · rw [hback]
        have hadmits := hshift.bounded.admits hrm offset (fun he => hf.ne (Option.some.inj he).symm)
          (by rw [hf.probes]; exact Nat.succ_pos _)
        rw [hf.probes, hfar] at hadmits
        exact hadmits.imp_left fun hle => by omega
      · exact hst (Option.some.inj hv).symm
    · simp only [Map.bounds, Map.apply, Prod.mk.injEq] at hlow
      obtain ⟨-, -, hlow⟩ := hlow
      have hlimit : hs₁.map.probeLimit = hs.map.probeLimit := Map.probeLimit_congr hc
      have hcap := hshift.bounded.capped
      refine ⟨hv'.bound, ⟨?_, fun g => ?_, fun g => ?_⟩, fun hrm t ht hpos => ?_⟩
      · rw [hm, hlimit]
        exact hcap.maximum
      · rw [hlow]
        by_cases hg : g = h'
        · rw [hg, Function.update_self]
          exact hword.le
        · rw [Function.update_of_ne hg]
          exact hcap.byte g
      · rw [hlow, hlimit]
        by_cases hg : g = h'
        · rw [hg, Function.update_self]
          exact le_trans (by omega) (hmax.trans hcap.maximum)
        · rw [Function.update_of_ne hg]
          exact hcap.bound g
      · have hto : t ≠ offset := fun h => ht (by rw [h])
        unfold Map.Admits
        rw [hp] at hpos ⊢
        rw [hc, hlow]
        by_cases hts : t = slot
        · rw [hts, Function.update_self, hback, Function.update_self]
          exact .inl le_rfl
        · rw [Function.update_of_ne hts] at hpos ⊢
          by_cases hg : firstOffset cfg.line hs.map.capacity t (hs.map.probes t) = h'
          · rw [hg, Function.update_self]
            obtain ⟨home', hx⟩ := hv.used hts hpos
            obtain ⟨hh', -, hle', hstand⟩ := hv.placed.stands t _ hx
            rw [firstOffset_stands hl hh' hpos hle' hstand] at hg
            exact .inl (nearer_of_lowered hv hshift.bounded hf hwhy hto (hg ▸ hx))
          · rw [Function.update_of_ne hg]
            exact hshift.bounded.admits hrm t (fun he => hts (Option.some.inj he).symm) hpos
  · rw [hpo, hc, Nat.add_sub_cancel]
    exact hf.atOffset
  · exact Map.storedBut_move hv.inside (hc ▸ hv'.inside) hf.ne.symm he hc

/-- The loop ends with a vacant slot that no entry passes, and with the words that it started
with. -/
theorem Shifting.shiftLoop {fuel h : Nat} (hshift : Shifting cfg hs.map slot h P)
    (hfuel : load hs.map.capacity P < fuel) :
    let r := shiftLoop cfg fuel slot h hs
    ∃ P', Shifting cfg r.2.2.map r.1 r.2.1 P' ∧ passing cfg.line r.2.2.map.capacity P' r.1 = 0 ∧
      r.2.2.map.storedBut r.1 = hs.map.storedBut slot := by
  induction fuel generalizing slot h hs P with
  | zero => omega
  | succ fuel ih =>
    have hv := hshift.vacant
    rw [shiftLoop_succ]
    split
    · rename_i hzero
      have hlt : hs.map.wanted slot < maxWanted := by
        rw [hzero]
        decide
      exact ⟨P, hshift, ((hv.counts slot hv.inside).2 hlt).symm.trans hzero, rfl⟩
    split
    · rename_i hnone
      have hpass := hv.passing_of_successor hnone
      have hb : (hs.exec [.wanted slot 0]).map.Bounded cfg (some slot) :=
        hshift.bounded.raise (.of_bounds rfl) rfl
      refine ⟨P, ⟨⟨hv.capacity, hv.inside, hv.slot, hv.place, hv.placed, fun s hs₁ => ?_, hv.empty,
        hv.bound⟩, hb, hshift.pos, hshift.le, hshift.inside, hshift.stands⟩, hpass, rfl⟩
      change Function.update hs.map.wanted slot 0 s ≤ _ ∧
        (Function.update hs.map.wanted slot 0 s < _ → Function.update hs.map.wanted slot 0 s = _)
      by_cases hss : s = slot
      · rw [hss, Function.update_self]
        exact ⟨Nat.zero_le _, fun _ => hpass.symm⟩
      · rw [Function.update_of_ne hss]
        exact hv.counts s hs₁
    · rename_i wp probe offset hsucc
      obtain ⟨P', hnext, hstored, hload⟩ := hshift.shiftMove hsucc
      obtain ⟨P'', hend, hpass, hstored'⟩ := ih hnext (by omega)
      exact ⟨P'', hend, hpass, hstored'.trans hstored⟩

/-- The bound of the home slot of the entry that was in the slot is lowered, and the slot is
cleared. -/
theorem Shifting.clear {h : Nat} {m : Map V} (hshift : Shifting cfg hs.map slot h P)
    (hpass : passing cfg.line hs.map.capacity P slot = 0) (hc : m.capacity = hs.map.capacity)
    (hm : m.probeMaximum = hs.map.probeMaximum)
    (hb : m.probeBound = hs.map.probeBound ∨
      m.probeBound = Function.update hs.map.probeBound h (hs.map.probes slot - 1) ∧
        hs.map.probes slot - 1 < wordMax)
    (hp : m.probes = Function.update hs.map.probes slot 0) : m.Bounded cfg none := by
  have hv := hshift.vacant
  have hl := hv.lines
  have hbd := hshift.bounded
  have hother : ∀ s, s ≠ slot → (none : Option Nat) ≠ some s → some slot ≠ some s :=
    fun s hst _ he => hst (Option.some.inj he).symm
  rcases hb with hb | ⟨hb, hword⟩
  · refine hbd.setProbes ?_ hp (Nat.zero_le _) (fun _ h0 => absurd h0 (lt_irrefl 0)) hother
    rw [Map.bounds, Map.bounds, hc, hm, hb]
  have hlimit : m.probeLimit = hs.map.probeLimit := Map.probeLimit_congr hc
  refine ⟨fun t => ?_, ⟨?_, fun g => ?_, fun g => ?_⟩, fun hrm t _ hpos => ?_⟩
  · rw [hp, hm]
    by_cases hts : t = slot
    · rw [hts, Function.update_self]
      exact Nat.zero_le _
    · rw [Function.update_of_ne hts]
      exact hbd.below t
  · rw [hm, hlimit]
    exact hbd.capped.maximum
  · rw [hb]
    by_cases hg : g = h
    · rw [hg, Function.update_self]
      exact hword.le
    · rw [Function.update_of_ne hg]
      exact hbd.capped.byte g
  · rw [hb, hlimit]
    by_cases hg : g = h
    · rw [hg, Function.update_self]
      exact (Nat.sub_le _ _).trans (hbd.le_limit slot)
    · rw [Function.update_of_ne hg]
      exact hbd.capped.bound g
  · unfold Map.Admits
    rw [hp] at hpos ⊢
    rw [hc, hb]
    have hts : t ≠ slot := by
      rintro rfl
      rw [Function.update_self] at hpos
      exact lt_irrefl 0 hpos
    rw [Function.update_of_ne hts] at hpos ⊢
    by_cases hg : firstOffset cfg.line hs.map.capacity t (hs.map.probes t) = h
    · -- an entry that is farther from the home slot would pass the vacant one
      rw [hg, Function.update_self]
      obtain ⟨home, hx⟩ := hv.used hts hpos
      obtain ⟨hh, -, hle, hstand⟩ := hv.placed.stands t _ hx
      dsimp only at hh hle hstand
      rw [firstOffset_stands hl hh hpos hle hstand] at hg
      subst hg
      have hpos' := hshift.pos
      refine .inl (Nat.le_sub_one_of_lt ?_)
      by_contra hge
      rcases Nat.eq_or_lt_of_le (Nat.le_of_not_lt hge) with heq | hlt
      · rw [← heq] at hstand
        exact hts (hstand.symm.trans hshift.stands)
      · refine not_passes hpass (hv.placed.lt hl hx) hx ⟨hs.map.probes slot - 1, ?_, Nat.zero_le _,
          hshift.stands⟩
        dsimp only
        omega
    · rw [Function.update_of_ne hg]
      exact hbd.admits hrm t (hother t hts (Option.some_ne_none t).symm) hpos

/-- A deletion takes one word out of the map and keeps the probe counts within the bounds. -/
theorem doBackwardShiftDelete_bounded (hv : hs.map.Valid cfg) (hb : hs.map.Bounded cfg none)
    (hused : hs.map.entries slot ≠ none) :
    (hs.doBackwardShiftDelete cfg slot).map.Bounded cfg none ∧
      hs.map.entries slot ::ₘ (hs.doBackwardShiftDelete cfg slot).map.stored = hs.map.stored := by
  obtain ⟨w, hw⟩ := Option.ne_none_iff_exists'.mp hused
  have hx : hs.map.place cfg slot = some ⟨hs.map.home (cfg.hf w.obj), hs.map.probes slot⟩ :=
    Map.place_of_entry hw
  have hlt : slot < hs.map.capacity := hv.placed.lt hv.lines hx
  have hcons := Map.stored_cons hlt hused
  obtain ⟨hh, hpos, hle, hstand⟩ := hv.placed.stands slot _ hx
  dsimp only at hh hpos hle hstand
  have hspec := removeWanted_spec 0 _ none hv.lines hh hpos hle rfl hstand rfl (Nat.zero_le _)
    (.inl ⟨rfl, rfl⟩)
  have hmakes := removeWanted_makes cfg hs slot none
  have hkeep := hmakes.wanted_keep
  have hplain := (hmakes.mono (Q := Store.Plain) fun s hs => by cases s <;> trivial).plain_keep
  unfold doBackwardShiftDelete
  generalize hs.removeWanted cfg slot none = r at hspec hkeep hplain ⊢
  obtain ⟨h, hs₁⟩ := r
  obtain ⟨rfl, hwanted⟩ := hspec
  obtain ⟨hc, he, hp, hm⟩ := hkeep
  dsimp only at hwanted hc he hp hm hplain ⊢
  have hvacant := hv.vacate hx hc he hp hm hwanted
  have hload := load_le_shiftFuel (m := hs₁.map)
    (P := Function.update (hs.map.place cfg) slot none) (fun t x ht => by
      by_cases hts : t = slot
      · rw [hts, Function.update_self] at ht
        cases ht
      · rw [Function.update_of_ne hts] at ht
        rw [hp, Map.probes_of_place ht])
  have hb₁ : hs₁.map.Bounded cfg (some slot) := by
    have hnone := hb.raise (.of_bounds hplain.1) hplain.2
    exact ⟨hnone.below, hnone.capped, fun hrm t _ =>
      hnone.admits hrm t (Option.some_ne_none t).symm⟩
  have hshift : Shifting cfg hs₁.map slot _ _ :=
    ⟨hvacant, hb₁, hp ▸ hpos, by rw [hp, hc]; exact hle, hc ▸ hh, by rw [hp, hc]; exact hstand⟩
  obtain ⟨P', hend, hpass, hstored⟩ := hshift.shiftLoop hload
  have hbut : hs₁.map.storedBut slot = hs.map.storedBut slot := Map.storedBut_congr he hc slot
  rw [hbut] at hstored
  generalize State.shiftLoop cfg hs₁.map.shiftFuel slot _ hs₁ = r at hend hpass hstored ⊢
  obtain ⟨slot', h', hs₂⟩ := r
  dsimp only at hend hpass hstored ⊢
  have hlt32 := hend.bounded.capped.maximum_lt
  have hbelow := hend.bounded.below slot'
  have hdec : dec 32 (hs₂.map.probes slot') = hs₂.map.probes slot' - 1 :=
    dec_of_pos hend.pos (by omega)
  have hprobes : (hs₂.exec [.entry slot' none]).map.probes slot' = hs₂.map.probes slot' := rfl
  rw [hprobes, hdec]
  split
  · rename_i hword
    exact ⟨hend.clear hpass rfl rfl (.inr ⟨rfl, hword⟩) rfl, (congrArg _ hstored).trans hcons⟩
  · exact ⟨hend.clear hpass rfl rfl (.inl rfl) rfl, (congrArg _ hstored).trans hcons⟩

end State

end ConcurrencyKit.Rhs
