import ConcurrencyKit.Rhs.Shifting

/-!
# What an insertion leaves in the map

A Robin Hood insertion moves words from slot to slot and loses none, and the slot that is kept out
of it keeps its word. So an installation adds the new word to the ones that are stored, and takes
the one out that it replaces.
-/

namespace ConcurrencyKit.Rhs

variable {V : Type}

namespace State

variable {cfg : Config V} {hs hs' : State V} {slot n left g : Nat} {prevs : List (Nat × Nat)}

/-! ## Moving a chain -/

/-- The words are moved along the chain, and its first slot is left over. -/
theorem shiftChain_storedBut (hnodup : (slot :: prevs.map Prod.fst).Nodup)
    (hlt : ∀ s ∈ slot :: prevs.map Prod.fst, s < hs.map.capacity) :
    (shiftChain cfg prevs slot hs).map.capacity = hs.map.capacity ∧
      (shiftChain cfg prevs slot hs).map.storedBut ((prevs.map Prod.fst).getLastD slot) =
        hs.map.storedBut slot := by
  induction prevs generalizing slot hs with
  | nil => exact ⟨rfl, rfl⟩
  | cons p prevs ih =>
    obtain ⟨prev, k⟩ := p
    rw [shiftChain, List.map_cons, List.getLastD_cons]
    dsimp only
    obtain ⟨hc, he, -, -⟩ := (addWanted_makes cfg (hs.exec [.entry slot (hs.map.entries prev)]) slot
      (some prev) (firstOffset cfg.line (hs.exec [.entry slot (hs.map.entries prev)]).map.capacity
        slot ((hs.exec [.entry slot (hs.map.entries prev)]).map.probes slot))).wanted_keep
    generalize hs₁ : (hs.exec [.entry slot (hs.map.entries prev)]).addWanted cfg slot (some prev)
      _ = hs₁' at hc he ⊢
    rw [List.map_cons] at hlt hnodup
    obtain ⟨hslot, hrest⟩ := List.forall_mem_cons.mp hlt
    obtain ⟨hnot, hnodup⟩ := List.nodup_cons.mp hnodup
    have hmove : hs₁'.map.storedBut prev = hs.map.storedBut slot :=
      Map.storedBut_move hslot (hrest prev List.mem_cons_self)
        (fun h => hnot (h ▸ List.mem_cons_self)) he hc
    generalize h₂ : hs₁'.exec [hs₁'.map.signal
      (firstOffset cfg.line (hs.exec [.entry slot (hs.map.entries prev)]).map.capacity slot
        ((hs.exec [.entry slot (hs.map.entries prev)]).map.probes slot)), .inRh slot false] = hs₂
    have hc₂ : hs₂.map.capacity = hs₁'.map.capacity := by rw [← h₂]; rfl
    have he₂ : hs₂.map.entries = hs₁'.map.entries := by rw [← h₂]; rfl
    obtain ⟨hc', hstored⟩ := ih hnodup fun s hs => (hc₂.trans hc).symm ▸ hrest s hs
    rw [Map.storedBut_congr he₂ hc₂] at hstored
    exact ⟨hc'.trans (hc₂.trans hc), hstored.trans hmove⟩

theorem shiftChain_entries (hg : g ∉ slot :: prevs.map Prod.fst) :
    (shiftChain cfg prevs slot hs).map.entries g = hs.map.entries g := by
  induction prevs generalizing slot hs with
  | nil => rfl
  | cons p prevs ih =>
    obtain ⟨prev, k⟩ := p
    rw [List.map_cons, List.mem_cons, not_or] at hg
    rw [shiftChain]
    refine (ih hg.2).trans ?_
    have he := (addWanted_makes cfg (hs.exec [.entry slot (hs.map.entries prev)]) slot
      (some prev) (firstOffset cfg.line (hs.exec [.entry slot (hs.map.entries prev)]).map.capacity
        slot ((hs.exec [.entry slot (hs.map.entries prev)]).map.probes slot))).wanted_keep.2.1
    exact (congrFun he g).trans (Function.update_of_ne hg.1 _ _)

/-- The last word of the chain goes to an empty slot. -/
theorem relocationMove_stored (cfg : Config V) (n : Nat) {e : Nat} (he : e < hs.map.capacity)
    (hempty : hs.map.entries e = none)
    (hnodup : (slot :: prevs.map Prod.fst).Nodup) (hne : e ≠ slot)
    (hlt : ∀ s ∈ slot :: prevs.map Prod.fst, s < hs.map.capacity) :
    (hs.relocationMove cfg slot e n prevs).map.storedBut ((prevs.map Prod.fst).getLastD slot) =
      hs.map.stored := by
  unfold relocationMove
  dsimp only
  generalize firstOffset cfg.line hs.map.capacity e n = home
  have hbound := Map.applyAll_boundSet cfg hs.map home n
  generalize h₂ : (hs.exec (hs.map.boundSet cfg home n)).exec [.entry e (hs.map.entries slot),
    (hs.exec (hs.map.boundSet cfg home n)).map.signal home, .probes e n, .inRh slot false] = hs₂
  have hc₂ : hs₂.map.capacity = hs.map.capacity := by
    rw [← h₂, exec_map, exec_map, hbound]
    rfl
  have he₂ : hs₂.map.entries = Function.update hs.map.entries e (hs.map.entries slot) := by
    rw [← h₂, exec_map, exec_map, hbound]
    rfl
  obtain ⟨hc₃, he₃, -, -⟩ := (addWanted_makes cfg hs₂ e (some slot) home).wanted_keep
  generalize hs₂.addWanted cfg e (some slot) home = hs₃ at hc₃ he₃ ⊢
  have hmove : hs₃.map.storedBut slot = hs.map.storedBut e :=
    Map.storedBut_move he (hlt slot List.mem_cons_self) hne (he₃.trans he₂) (hc₃.trans hc₂)
  rw [Map.storedBut_of_none hempty] at hmove
  refine (shiftChain_storedBut hnodup ?_).2.trans hmove
  rw [hc₃, hc₂]
  exact hlt

theorem relocationMove_entries {e : Nat} (hge : g ≠ e) (hg : g ∉ slot :: prevs.map Prod.fst) :
    (hs.relocationMove cfg slot e n prevs).map.entries g = hs.map.entries g := by
  unfold relocationMove
  dsimp only
  generalize firstOffset cfg.line hs.map.capacity e n = home
  have hbound := Map.applyAll_boundSet cfg hs.map home n
  generalize h₂ : (hs.exec (hs.map.boundSet cfg home n)).exec [.entry e (hs.map.entries slot),
    (hs.exec (hs.map.boundSet cfg home n)).map.signal home, .probes e n, .inRh slot false] = hs₂
  have he₂ : hs₂.map.entries = Function.update hs.map.entries e (hs.map.entries slot) := by
    rw [← h₂, exec_map, exec_map, hbound]
    rfl
  rw [shiftChain_entries hg, (addWanted_makes cfg hs₂ e (some slot) home).wanted_keep.2.1, he₂,
    Function.update_of_ne hge]

/-! ## The slot that is kept out -/

theorem relocationGrow_not_moved (cfg : Config V) (hs : State V) (slot : Nat)
    (prevs : List (Nat × Nat)) : (hs.relocationGrow cfg slot prevs).1 ≠ .moved := by
  unfold relocationGrow
  split <;> simp

/-- The end of a chain to which a used slot does not belong. -/
theorem moved_entries (cfg : Config V) (hs : State V) (n : Nat) (behavior : ProbeBehavior) {e : Nat}
    (hl : Lines cfg.line hs.map.capacity)
    (hslot : slot < hs.map.capacity) (hused : hs.map.entries g ≠ none)
    (hne : g ∉ slot :: prevs.map Prod.fst)
    (hfirst : (hs.map.probeFrom cfg slot n behavior).first = none)
    (he : (hs.map.probeFrom cfg slot n behavior).slot = some e) :
    (hs.relocationMove cfg slot e (hs.map.probeFrom cfg slot n behavior).nProbes
      prevs).map.entries g = hs.map.entries g := by
  refine relocationMove_entries (fun hge => hused ?_) hne
  rw [hge]
  exact (Map.probeFrom_empty hl hslot hfirst he).2

/-- A marked slot is not chosen, and keeps its word. -/
theorem putRobinHoodLoop_guarded (cfg : Config V) (left n : Nat) (prevs : List (Nat × Nat))
    (hl : Lines cfg.line hs.map.capacity)
    (hin : ∀ s, hs.map.entries s ≠ none → s < hs.map.capacity)
    (hslot : hs.map.entries slot ≠ none) (hg : hs.map.inRh g = true)
    (hused : hs.map.entries g ≠ none) (hne : g ∉ slot :: prevs.map Prod.fst)
    (hmoved : (putRobinHoodLoop cfg left slot n prevs hs).1 = .moved) :
    (putRobinHoodLoop cfg left slot n prevs hs).2.map.entries g = hs.map.entries g := by
  induction left generalizing slot n prevs hs with
  | zero =>
    have hmove {e} := moved_entries cfg (hs.exec [.inRh slot true]) n .robinHoodNoRelocate (e := e)
      hl (hin slot hslot) hused hne
    rw [putRobinHoodLoop] at hmoved ⊢
    have hfirst : ((hs.exec [.inRh slot true]).map.probeFrom cfg slot n
        .robinHoodNoRelocate).first = none := by
      refine Option.eq_none_iff_forall_ne_some.mpr fun f hf => ?_
      exact (Map.probeLoop_first hf).elim (fun h => by cases h) fun hp => by cases hp.1
    split at hmoved
    · exact absurd hmoved (relocationGrow_not_moved cfg _ slot prevs)
    · rename_i e he
      exact hmove hfirst he
  | succ left ih =>
    have hmove {e} := moved_entries cfg (hs.exec [.inRh slot true]) n .robinHood (e := e) hl
      (hin slot hslot) hused hne
    rw [putRobinHoodLoop] at hmoved ⊢
    split at hmoved
    · rename_i _ first hfirst
      obtain ⟨-, hfree, hword⟩ := (Map.probeLoop_first hfirst).resolve_left fun h => by cases h
      have hmark : (hs.exec [.inRh slot true]).map.inRh g = true := by
        change Function.update hs.map.inRh slot true g = true
        rw [Function.update_of_ne (List.ne_of_not_mem_cons hne), hg]
      have hgf : g ≠ first := by
        rintro rfl
        rw [hmark] at hfree
        cases hfree
      dsimp only at hmoved ⊢
      generalize ((hs.exec [.inRh slot true]).map.probeFrom cfg slot n .robinHood).nProbes = k
        at hmoved ⊢
      generalize firstOffset cfg.line (hs.exec [.inRh slot true]).map.capacity first k = home
        at hmoved ⊢
      have hmap := choose_map cfg hs slot first home k
      dsimp only at hmap
      rw [Map.applyAll_boundSet] at hmap
      change (putRobinHoodLoop cfg left first _ _ (hs.choose cfg slot first home k)).1 = _ at hmoved
      change (putRobinHoodLoop cfg left first _ _
        (hs.choose cfg slot first home k)).2.map.entries g = _
      generalize hs.choose cfg slot first home k = hs₁ at hmap hmoved ⊢
      have hc₁ : hs₁.map.capacity = hs.map.capacity := by rw [hmap]; rfl
      have he₁ : hs₁.map.entries = hs.map.entries := by rw [hmap]; rfl
      have hr₁ : hs₁.map.inRh = (hs.exec [.inRh slot true]).map.inRh := by rw [hmap]; rfl
      refine (ih _ _ (hc₁ ▸ hl) (by rw [hc₁, he₁]; exact hin) (he₁ ▸ hword) (by rw [hr₁, hmark])
        (he₁ ▸ hused) ?_ hmoved).trans (congrFun he₁ g)
      rw [List.map_cons, List.mem_cons, not_or]
      exact ⟨hgf, hne⟩
    · exact absurd hmoved (relocationGrow_not_moved cfg _ slot prevs)
    · rename_i e hfirst he
      exact hmove hfirst he

/-! ## What a Robin Hood insertion leaves behind -/

theorem Grown.stored {r : Bool × State V} (h : Grown cfg hs r) :
    r.2.map.stored = hs.map.stored := by
  cases h with
  | failed hs' map => rw [map]
  | filled capacity m hs' fill map =>
    rw [map]
    exact (Map.copied_stored fill).2

/-- The words, the bounds and the marked slots after `ck_rhs_put_robin_hood`. -/
inductive Dislodged (cfg : Config V) (hs : State V) (slot : Nat) : Relocation × State V → Prop
  | grown (hs' : State V) (bounded : hs'.map.Bounded cfg none)
      (stored : hs'.map.stored = hs.map.stored) : Dislodged cfg hs slot (.grown, hs')
  | failed (hs' : State V) (bounded : hs'.map.Bounded cfg none)
      (stored : hs'.map.stored = hs.map.stored) : Dislodged cfg hs slot (.failed, hs')
  | moved (hs' : State V) (raises : Map.Raises hs.map hs'.map)
      (bounded : hs'.map.Bounded cfg none) (stored : hs'.map.storedBut slot = hs.map.stored)
      (guarded : ∀ g, hs.map.inRh g = true → hs.map.entries g ≠ none → g ≠ slot →
        hs'.map.entries g = hs.map.entries g) : Dislodged cfg hs slot (.moved, hs')

theorem putRobinHood_dislodged (hv : hs.map.Valid cfg) (hb : hs.map.Bounded cfg none)
    (hused : hs.map.entries slot ≠ none) : Dislodged cfg hs slot (hs.putRobinHood cfg slot) := by
  have hl := hv.lines
  have hin : ∀ s, hs.map.entries s ≠ none → s < hs.map.capacity := by
    intro s hs'
    obtain ⟨w, hw⟩ := Option.ne_none_iff_exists'.mp hs'
    exact hv.placed.lt hl (Map.place_of_entry hw)
  have hbounded := putRobinHood_bounded cfg slot hb
  have hguard := fun g hg hne hgs => putRobinHoodLoop_guarded cfg maxRh (hs.map.probes slot) []
    (g := g) hl hin hused hg hne (by simpa using hgs)
  obtain ⟨slot', prevs, hs', hc, hlast, hend⟩ :=
    putRobinHoodLoop_ended cfg maxRh rfl (Chosen.start hs slot)
  obtain ⟨hcap, -, he, -⟩ := hc.mark.chooses_keep
  unfold putRobinHood at hbounded ⊢
  generalize putRobinHoodLoop cfg maxRh slot _ [] hs = r at hend hbounded hguard ⊢
  rw [List.map_nil, List.getLastD_nil] at hlast
  have hchain : ∀ s ∈ slot' :: prevs.map Prod.fst, s < hs.map.capacity := by
    intro s hs'
    rcases hc.used s hs' with rfl | hne
    · exact hlast ▸ hin slot hused
    · exact hin s hne
  cases hend with
  | grow =>
    unfold relocationGrow at hbounded ⊢
    have hgrown := grow_grown cfg (hs'.exec [.inRh slot' true])
      ((hs'.exec [.inRh slot' true]).map.capacity * 2)
    have hstored := hgrown.stored
    rw [Map.stored_congr he hcap] at hstored
    generalize (hs'.exec [.inRh slot' true]).grow cfg _ = r at hgrown hstored hbounded ⊢
    cases hgrown with
    | filled capacity m hs₁ fill map stores load =>
      refine .grown _ ?_ hstored
      exact Grown.bounded (.filled capacity m hs₁ fill map stores load) (fun h => by cases h)
    | failed hs₁ map =>
      have halike := (hc.restored map).1
      exact .failed _ (hbounded.resolve_left fun h => by cases h).2
        (Map.stored_congr halike.entries halike.capacity)
  | move behavior r' e probe first some =>
    obtain ⟨hraises, hb'⟩ := hbounded.resolve_left fun h => by cases h
    refine .moved _ hraises hb' ?_ fun g hg hne hgs => hguard g hg hne hgs rfl
    obtain ⟨hlt, hempty⟩ := Map.probeFrom_empty (hcap ▸ hl)
      (hcap ▸ hchain slot' List.mem_cons_self) (probe ▸ first) (probe ▸ some)
    have hne : e ≠ slot' := by
      rintro rfl
      rw [he] at hempty
      rcases hc.used e List.mem_cons_self with heq | hne
      · rw [heq, hlast] at hempty
        exact hused hempty
      · exact hne hempty
    have hstored := relocationMove_stored cfg r'.nProbes hlt hempty hc.nodup hne
      (hcap ▸ hchain)
    rw [hlast, Map.stored_congr he hcap] at hstored
    exact hstored

/-! ## Installation -/

variable [DecidableEq V] {key insert : V}

/-- The word that an installation takes out: the one in the slot where the probe has found the
key. -/
def replaced (hs : State V) (r : ProbeResult V) : Multiset (Option (Word V)) :=
  match r.object, r.slot with
  | some _, some slot => {hs.map.entries slot}
  | _, _ => 0

omit [DecidableEq V] in
theorem replaced_hit {object : V} {first : Option Nat} :
    hs.replaced ⟨some slot, first, some object, n⟩ = {hs.map.entries slot} := rfl

omit [DecidableEq V] in
theorem replaced_miss {r : ProbeResult V} (h : r.object = none) : hs.replaced r = 0 := by
  rw [replaced, h]

/-- The words and the bounds after the installation of a word. -/
inductive Fitted (cfg : Config V) (hs : State V) (w : Word V) (r : ProbeResult V) :
    Relocation × State V → Prop
  | grown (hs' : State V) (bounded : hs'.map.Bounded cfg none)
      (stored : hs'.map.stored = hs.map.stored) : Fitted cfg hs w r (.grown, hs')
  | failed (hs' : State V) (bounded : hs'.map.Bounded cfg none)
      (stored : hs'.map.stored = hs.map.stored) : Fitted cfg hs w r (.failed, hs')
  | moved (hs' : State V) (bounded : hs'.map.Bounded cfg none)
      (stored : hs.replaced r + hs'.map.stored = some w ::ₘ hs.map.stored) :
      Fitted cfg hs w r (.moved, hs')

omit [DecidableEq V] in
theorem markRh_stored (hs : State V) (guard : Option Nat) (value : Bool) :
    (hs.markRh guard value).map.stored = hs.map.stored := by
  rw [markRh_map]
  rfl

omit [DecidableEq V] in
/-- A word is stored in a slot that has been left over, with a probe count that the bounds admit. -/
theorem settle {m : Map V} {v n home : Nat} {w : Word V} (m' : Map V) (hb : m.Bounded cfg none)
    (hlt : v < m.capacity) (he : m'.entries = Function.update m.entries v (some w))
    (hbounds : m'.bounds = m.bounds) (hp : m'.probes = Function.update m.probes v n)
    (hn : n ≤ m.probeMaximum) (hhome : firstOffset cfg.line m.capacity v n = home)
    (hadmits : cfg.readMostly = false → m.Admits home n) :
    m'.Bounded cfg none ∧ m'.stored = some w ::ₘ m.storedBut v := by
  have hc : m'.capacity = m.capacity := (Map.Raises.of_bounds hbounds).capacity
  refine ⟨hb.setProbes hbounds hp hn (fun hrm _ => ?_) fun _ _ => id, Map.stored_fill hlt he hc⟩
  rw [hhome]
  exact hadmits hrm

/-- The slot in which a probe has found the key, and the slot that it has picked before. -/
theorem duplicate (hl : cfg.Lawful) {m : Map V} (hv : m.Valid cfg) {r : ProbeResult V}
    (hfound : m.Found cfg (cfg.hit (cfg.hf key) key) (m.home (cfg.hf key)) 0 none r)
    (object : V) (slot : Nat) (hobject : r.object = some object) (hslot : r.slot = some slot) :
    ∃ w, m.entries slot = some w ∧ w.obj = object ∧ cfg.hit (cfg.hf key) key w = true ∧
      cfg.hf w.obj = cfg.hf key ∧ r.nProbes ≤ m.probes slot ∧
        (r.first = none → r.nProbes = m.probes slot) ∧ ∀ first, r.first = some first →
          slot ≠ first := by
  obtain ⟨k', hend, hn⟩ := hfound.ends slot hslot
  obtain ⟨w, hw, hhit, hobject'⟩ : ∃ w, m.entries slot = some w ∧
      cfg.hit (cfg.hf key) key w = true ∧ r.object = some w.obj := by
    rcases hend.word with ⟨-, hnone⟩ | hword | ⟨-, hnone⟩
    · rw [hobject] at hnone
      cases hnone
    · exact hword
    · rw [hobject] at hnone
      cases hnone
  have hhash := hl.hf_eq (keyMatch_of_hit hhit)
  have hsame : m.home (cfg.hf w.obj) = m.home (cfg.hf key) := by rw [hhash]
  have hprobes := hv.probes_of_found hw hhit (hsame ▸ hend.slot) (hsame ▸ hend.busy)
  obtain ⟨hh, -, hle, -⟩ := hv.placed.stands slot _ (Map.place_of_entry hw)
  dsimp only at hh hle
  refine ⟨w, hw, Option.some.inj (hobject'.symm.trans hobject), hhit, hhash,
    hprobes ▸ (hn rfl).1, fun hfirst => hprobes ▸ (hn rfl).2 hfirst, fun first hfirst => ?_⟩
  obtain ⟨k, hk, hpick⟩ := hfound.picked rfl first hfirst
  rintro rfl
  have hle' := (hn rfl).1
  have hkk : k = k' := cursor_inj hv.lines (hsame ▸ hh) (by omega) (by omega)
    (hpick.slot.trans hend.slot.symm)
  have hnearer := hpick.nearer
  omega

omit [DecidableEq V] in
theorem Admits.le {m : Map V} {home n k : Nat} (h : m.Admits home n) (hk : k ≤ n) :
    m.Admits home k := h.imp_left hk.trans

/-- The state after a word has been stored in the slot that a Robin Hood insertion has left
over. -/
structure Seated (cfg : Config V) (hs : State V) (first : Nat) (w : Word V) (hs' : State V) :
    Prop where
  valid : hs'.map.Valid cfg
  bounded : hs'.map.Bounded cfg none
  stored : hs'.map.stored = some w ::ₘ hs.map.stored
  guarded : ∀ g, hs.map.inRh g = true → hs.map.entries g ≠ none → g ≠ first →
    hs'.map.entries g = hs.map.entries g

omit [DecidableEq V] in
/-- The word is stored and counted. -/
theorem Dislodged.seat {first : Nat} (hdis : Dislodged cfg hs first (.moved, hs'))
    (hroom : Roomed cfg hs first (.moved, hs')) (hv : hs.map.Valid cfg) (k : Nat) (w : Word V)
    (hs₃ : State V)
    (hb : hs₃.map.bounds = hs'.map.bounds)
    (he : hs₃.map.entries = Function.update hs'.map.entries first (some w))
    (hp : hs₃.map.probes = Function.update hs'.map.probes first (k + 1))
    (hw : hs₃.map.wanted = hs'.map.wanted) (hn : k < hs.map.probeMaximum)
    (hslot : cursor cfg.line hs.map.capacity (hs.map.home (cfg.hf w.obj)) k = first)
    (hbusy : ∀ j < k,
      hs.map.entries (cursor cfg.line hs.map.capacity (hs.map.home (cfg.hf w.obj)) j) ≠ none)
    (hadmits : cfg.readMostly = false → hs'.map.Admits (hs.map.home (cfg.hf w.obj)) (k + 1)) :
    Seated cfg hs first w (hs₃.addWanted cfg first none (hs.map.home (cfg.hf w.obj))) := by
  cases hdis with
  | moved _ raises bounded stored guarded =>
  cases hroom with
  | moved _ P moving maximum room =>
  obtain ⟨hc, hm, hbound⟩ : hs₃.map.capacity = hs'.map.capacity ∧
      hs₃.map.probeMaximum = hs'.map.probeMaximum ∧ hs₃.map.probeBound = hs'.map.probeBound := by
    simpa [Map.bounds] using hb
  have hlt : first < hs'.map.capacity := by
    rw [moving.same, ← hslot]
    exact cursor_lt hv.lines (Map.home_lt hv.lines.capacity_pos _) k
  have hword := Nat.le_of_dvd (Nat.two_pow_pos 64) hv.lines.word
  obtain ⟨hvalid, -⟩ := moving.insert hv hs₃ hc he hp hm hw room (by omega) hslot hbusy
  obtain ⟨hb₃, hstored⟩ := settle hs₃.map bounded hlt he hb hp (by omega) (by
    rw [moving.same, ← hslot]
    have hlt32 := bounded.capped.maximum_lt
    exact firstOffset_cursor hv.lines (Map.home_lt hv.lines.capacity_pos _) (by omega)) hadmits
  have hkeep := (addWanted_makes cfg hs₃ first none (hs.map.home (cfg.hf w.obj))).wanted_keep
  refine ⟨hvalid, (addWanted_plain cfg hs₃ first none _).bounded hb₃, ?_, fun g hg hne hgf => ?_⟩
  · rw [Map.stored_congr hkeep.2.1 hkeep.1, hstored, stored]
  · rw [hkeep.2.1, he, Function.update_of_ne hgf]
    exact guarded g hg hne hgf

omit [DecidableEq V] in
theorem Seated.signal {first : Nat} {w : Word V} (h : Seated cfg hs first w hs') (k : Nat) :
    Seated cfg hs first w (hs'.exec [hs'.map.signal k]) := by
  have he : (hs'.exec [hs'.map.signal k]).map.entries = hs'.map.entries := rfl
  exact ⟨h.valid.congr rfl rfl rfl rfl le_rfl, h.bounded.raise (.of_bounds rfl) rfl,
    (Map.stored_congr he rfl).trans h.stored, he ▸ h.guarded⟩

omit [DecidableEq V] in
/-- The word that has been kept out of the insertion is deleted. -/
theorem Seated.delete {first : Nat} {w : Word V} (h : Seated cfg hs first w hs')
    (hmarked : hs.map.inRh slot = true) (hused : hs.map.entries slot ≠ none)
    (hne : slot ≠ first) :
    (hs'.doBackwardShiftDelete cfg slot).map.Bounded cfg none ∧
      {hs.map.entries slot} + (hs'.doBackwardShiftDelete cfg slot).map.stored =
        some w ::ₘ hs.map.stored := by
  have hkept := h.guarded slot hmarked hused hne
  obtain ⟨hb, hstored⟩ := doBackwardShiftDelete_bounded h.valid h.bounded (hkept ▸ hused)
  rw [hkept, h.stored, ← Multiset.singleton_add] at hstored
  exact ⟨hb, hstored⟩

/-- An installation adds the new word and takes out the one that it replaces. -/
theorem install_fitted (hl : cfg.Lawful) (hv : hs.map.Valid cfg) (hb : hs.map.Bounded cfg none)
    (hinsert : cfg.hf insert = cfg.hf key) (behavior : ProbeBehavior) (guard : Option Nat)
    (hguard : ∀ object, (hs.map.probeInsert cfg key behavior).object = some object →
      guard = (hs.map.probeInsert cfg key behavior).slot)
    (hsome : (hs.map.probeInsert cfg key behavior).first ≠ none ∨
      (hs.map.probeInsert cfg key behavior).slot ≠ none) :
    Fitted cfg hs (cfg.marshal insert (cfg.hf key)) (hs.map.probeInsert cfg key behavior)
      (hs.install cfg (cfg.hf key) (hs.map.probeInsert cfg key behavior)
        (cfg.marshal insert (cfg.hf key)) guard) := by
  have hfound := hs.map.probe_found cfg (cfg.hf key) key hs.map.probeLimit behavior
  have hwithin := Map.probe_within cfg hb.capped (cfg.hf key) key behavior fun _ => le_rfl
  have hh : hs.map.home (cfg.hf key) < hs.map.capacity :=
    Map.home_lt hv.lines.capacity_pos _
  have hword := Nat.le_of_dvd (Nat.two_pow_pos 64) hv.lines.word
  unfold Map.probeInsert at hguard hsome ⊢
  generalize hs.map.probe cfg (cfg.hf key) key hs.map.probeLimit behavior = r
    at hfound hwithin hguard hsome ⊢
  have hlimit : hs.map.probeLimit < 2 ^ 32 := by
    have := min_le_right (max (hs.map.capacity >>> 5) 64) (2 ^ 32 - 1)
    unfold Map.probeLimit
    omega
  have hdup := duplicate hl hv hfound
  unfold install
  obtain ⟨slot, first, object, n⟩ := r
  dsimp only at hwithin hguard hsome hdup ⊢
  have hle := hwithin hsome
  have hmap : (hs.exec (hs.map.boundSet cfg (hs.map.home (cfg.hf key)) n)).map = _ :=
    Map.applyAll_boundSet cfg hs.map (hs.map.home (cfg.hf key)) n
  have hv₁ := boundSet_valid hv (hs.map.home (cfg.hf key)) n
  have hraise : Map.Raises hs.map
      (hs.exec (hs.map.boundSet cfg (hs.map.home (cfg.hf key)) n)).map :=
    Map.raises_boundSet cfg hb.capped hle _
  have hadmits : cfg.readMostly = false → (hs.exec (hs.map.boundSet cfg
      (hs.map.home (cfg.hf key)) n)).map.Admits (hs.map.home (cfg.hf key)) n := fun hrm =>
    Map.admits_boundSet cfg hs.map _ n hrm hb.capped
  have hmax : n ≤ (hs.exec (hs.map.boundSet cfg (hs.map.home (cfg.hf key)) n)).map.probeMaximum :=
    Map.le_maximum_boundSet cfg hs.map _ n
  generalize hs.exec (hs.map.boundSet cfg (hs.map.home (cfg.hf key)) n) = hs₁
    at hmap hv₁ hraise hadmits hmax ⊢
  have hc₁ : hs₁.map.capacity = hs.map.capacity := by rw [hmap]
  have he₁ : hs₁.map.entries = hs.map.entries := by rw [hmap]
  have hp₁ : hs₁.map.probes = hs.map.probes := by rw [hmap]
  have hstored₁ : hs₁.map.stored = hs.map.stored := Map.stored_congr he₁ hc₁
  cases first with
  | some first =>
    obtain ⟨k, hn, hpick⟩ := hfound.picked rfl first rfl
    dsimp only at hn
    subst hn
    have hb₁ : hs₁.map.Bounded cfg none :=
      hb.raise hraise hp₁
    have hplain := (markRh_plain hs₁ guard true).plain_keep.1
    have hv₂ := markRh_valid hv₁ guard true
    have hb₂ := (markRh_plain hs₁ guard true).bounded hb₁
    have hmap₂ := markRh_map hs₁ guard true
    have hmarked : ∀ g, guard = some g → (hs₁.markRh guard true).map.inRh g = true := by
      rintro g rfl
      exact Function.update_self _ _ _
    generalize hs₁.markRh guard true = hs₂ at hplain hv₂ hb₂ hmap₂ hmarked ⊢
    have hc₂ : hs₂.map.capacity = hs.map.capacity := by rw [hmap₂, hc₁]
    have he₂ : hs₂.map.entries = hs.map.entries := by rw [hmap₂, he₁]
    have hmax₂ : hs₂.map.probeMaximum = hs₁.map.probeMaximum := by rw [hmap₂]
    have hstored₂ : hs₂.map.stored = hs.map.stored := Map.stored_congr he₂ hc₂
    have hhome₂ : hs₂.map.home (cfg.hf insert) = hs.map.home (cfg.hf key) := by
      rw [Map.home, Map.home, hc₂, hinsert]
    have hused : hs₂.map.entries first ≠ none := he₂ ▸ hpick.word
    have hdis := putRobinHood_dislodged hv₂ hb₂ hused
    have hroom := putRobinHood_roomed hv₂ hused
    dsimp only
    generalize hs₂.putRobinHood cfg first = res at hdis hroom ⊢
    obtain ⟨answer, hs'⟩ := res
    have hdis' := hdis
    cases hdis with
    | grown _ bounded stored => exact .grown hs' bounded (stored.trans hstored₂)
    | failed _ bounded stored =>
      refine .failed _ ((markRh_plain hs' guard false).bounded bounded) ?_
      rw [markRh_stored, stored, hstored₂]
    | moved _ raises bounded stored guarded =>
      dsimp only
      generalize hx : (hs'.markRh guard false).exec
        [.entry first (some (cfg.marshal insert (cfg.hf key))), .probes first (k + 1)] = hs₃
      have hmap₃ : hs₃.map = { hs'.map with
          inRh := hs₃.map.inRh
          entries := Function.update hs'.map.entries first
            (some (cfg.marshal insert (cfg.hf key)))
          probes := Function.update hs'.map.probes first (k + 1) } := by
        rw [← hx, exec_map, markRh_map]
        rfl
      have hseat := hdis'.seat hroom hv₂ k (cfg.marshal insert (cfg.hf key)) hs₃
        (by rw [hmap₃]; rfl) (by rw [hmap₃]) (by rw [hmap₃]) (by rw [hmap₃])
        (by omega) (by rw [hc₂, Config.marshal, hhome₂]; exact hpick.slot)
        (by rw [hc₂, he₂, Config.marshal, hhome₂]; exact hpick.busy.used)
        (fun hrm => by
          rw [Config.marshal, hhome₂]
          exact ((hadmits hrm).raise (.of_bounds hplain) hb₁.capped).raise raises hb₂.capped)
      have hhome₃ : hs₃.map.home (cfg.hf key) =
          hs₂.map.home (cfg.hf (cfg.marshal insert (cfg.hf key)).obj) := by
        rw [Config.marshal, hinsert, Map.home, Map.home, hmap₃, ← raises.capacity]
      rw [hhome₃]
      generalize hs₃.addWanted cfg first none _ = hs₄ at hseat ⊢
      cases object with
      | none =>
        refine .moved _ hseat.bounded ?_
        rw [hseat.stored, hstored₂, replaced_miss rfl, zero_add]
      | some object =>
        cases slot with
        | none =>
          refine .moved _ hseat.bounded ?_
          rw [hseat.stored, hstored₂, replaced, zero_add]
        | some slot =>
          -- the duplicate is deleted, which has been kept out of the insertion
          obtain ⟨u, hu, -, -, -, -, -, hne⟩ := hdup object slot rfl rfl
          obtain ⟨hb', hstored'⟩ := (hseat.signal (cfg.hf key).toNat).delete
            (hmarked slot (hguard object rfl)) (by rw [he₂, hu]; exact Option.some_ne_none u)
            (hne first rfl)
          rw [he₂, hstored₂] at hstored'
          exact .moved _ hb' hstored'
  | none =>
    cases slot with
    | none => exact absurd rfl (hsome.resolve_left (absurd rfl))
    | some slot =>
      obtain ⟨k, hend, hn⟩ := hfound.ends slot rfl
      have hn : n = k + 1 := (hn rfl).2 rfl
      subst hn
      have hb₁ : hs₁.map.Bounded cfg none := hb.raise hraise hp₁
      have hlt : slot < hs.map.capacity := hend.slot ▸ cursor_lt hv.lines hh k
      have hlt32 := hb.capped.maximum_lt
      obtain ⟨hb', hstored'⟩ := settle (hs₁.exec [.entry slot
          (some (cfg.marshal insert (cfg.hf key))), .probes slot (k + 1)]).map hb₁ (hc₁ ▸ hlt)
        rfl rfl rfl hmax
        (by rw [hc₁, ← hend.slot]; exact firstOffset_cursor hv.lines hh (by omega)) hadmits
      rw [Map.storedBut_congr he₁ hc₁] at hstored'
      dsimp only
      rcases hend.word with ⟨hempty, hobject⟩ | ⟨w, hw, hhit, hobject⟩ | ⟨hpicked, -⟩
      · dsimp only at hobject
        subst hobject
        rw [Map.storedBut_of_none hempty] at hstored'
        obtain ⟨hc', he', -, -⟩ := (addWanted_makes cfg (hs₁.exec [.entry slot (some
          (cfg.marshal insert (cfg.hf key))), .probes slot (k + 1)]) slot none
          (hs₁.map.home (cfg.hf key))).wanted_keep
        refine .moved _ ((addWanted_plain cfg _ slot none _).bounded hb') ?_
        rw [replaced_miss rfl, zero_add]
        exact (Map.stored_congr he' hc').trans hstored'
      · dsimp only at hobject
        subst hobject
        refine .moved _ hb' ?_
        have hcons := Map.stored_cons hlt (by rw [hw]; exact Option.some_ne_none w)
        rw [replaced_hit]
        calc {hs.map.entries slot} + _ = {hs.map.entries slot} + _ := congrArg _ hstored'
          _ = some (cfg.marshal insert (cfg.hf key)) ::ₘ
              hs.map.entries slot ::ₘ hs.map.storedBut slot := Multiset.cons_swap _ _ _
          _ = _ := congrArg _ hcons
      · cases hpicked

/-! ## Replacement -/

/-- The word takes the place of the one in the slot where the probe has ended. -/
theorem swap_fitted (hl : cfg.Lawful) (hv : hs.map.Valid cfg) (hb : hs.map.Bounded cfg none)
    {r : ProbeResult V} {object : V}
    (hfound : hs.map.Found cfg (cfg.hit (cfg.hf key) key) (hs.map.home (cfg.hf key)) 0 none r)
    (hobject : r.object = some object) (hslot : r.slot = some slot) (hfirst : r.first = none) :
    (hs.exec [.entry slot (some (cfg.marshal key (cfg.hf key))),
        .probes slot r.nProbes]).map.Valid cfg ∧
      Fitted cfg hs (cfg.marshal key (cfg.hf key)) r (.moved,
        hs.exec [.entry slot (some (cfg.marshal key (cfg.hf key))), .probes slot r.nProbes]) := by
  obtain ⟨w, hw, -, -, hhash, -, hn, -⟩ := duplicate hl hv hfound object slot hobject hslot
  have hplace : hs.map.place cfg slot = some ⟨hs.map.home (cfg.hf w.obj), hs.map.probes slot⟩ :=
    Map.place_of_entry hw
  have hlt := hv.placed.lt hv.lines hplace
  obtain ⟨hh, hpos, hle, hstand⟩ := hv.placed.stands slot _ hplace
  dsimp only at hh hpos hle hstand
  have hhome := firstOffset_stands hv.lines hh hpos hle hstand
  rw [hhash] at hhome
  rw [hn hfirst]
  obtain ⟨hb', hstored⟩ := settle (hs.exec [.entry slot (some (cfg.marshal key (cfg.hf key))),
    .probes slot (hs.map.probes slot)]).map hb hlt rfl rfl rfl (hb.below slot) hhome
    fun hrm => hhome ▸ hb.admits hrm slot (Option.some_ne_none slot).symm hpos
  refine ⟨hv.replace hw (by rw [Config.marshal, hhash]) rfl rfl rfl rfl rfl rfl, .moved _ hb' ?_⟩
  have hcons := Map.stored_cons hlt (hw ▸ Option.some_ne_none w)
  obtain ⟨s, f, o, n⟩ := r
  dsimp only at hobject hslot
  subst hobject hslot
  rw [replaced_hit]
  calc {hs.map.entries slot} + _ = {hs.map.entries slot} + _ := congrArg _ hstored
    _ = some (cfg.marshal key (cfg.hf key)) ::ₘ hs.map.entries slot ::ₘ hs.map.storedBut slot :=
      Multiset.cons_swap _ _ _
    _ = _ := congrArg _ hcons

/-- How `ck_rhs_fas` replaces a word when a Robin Hood insertion may bring it nearer to its home
slot (`ck_rhs.c:1158-1179`). -/
def relocate (cfg : Config V) (hs : State V) (h : BitVec 64) (key : V) (first slot n : Nat) :
    Relocation × State V :=
  match (hs.markRh (some slot) true).putRobinHood cfg first with
  | (.grown, hs) => (.grown, hs)
  | (.failed, hs) => (.failed, hs.markRh (some slot) false)
  | (.moved, hs) =>
    let hs := hs.markRh (some slot) false
    let hs := hs.exec [.entry first (some (cfg.marshal key h)), hs.map.signal h.toNat,
      .probes first n]
    let hs := hs.addWanted cfg first none (hs.map.home h)
    (.moved, hs.doBackwardShiftDelete cfg slot)

omit [DecidableEq V] in
theorem relocate_follows (cfg : Config V) (hs : State V) (h : BitVec 64) (key : V)
    (first slot n : Nat) : Follows hs (hs.relocate cfg h key first slot n).2 := by
  unfold relocate
  have hmark := (Follows.markRh hs (some slot) true).trans
    (putRobinHood_follows cfg (hs.markRh (some slot) true) first)
  generalize (hs.markRh (some slot) true).putRobinHood cfg first = res at hmark ⊢
  obtain ⟨_ | _ | _, hs₁⟩ := res
  · refine hmark.trans ((Follows.markRh hs₁ (some slot) false).trans ?_)
    refine .trans ?_ (.quiet (doBackwardShiftDelete_quiet cfg _ _))
    exact .trans (.exec (by simp [Store.Local, Map.signal])) (.addWanted cfg _ _ _ _)
  · exact hmark.trans (.markRh hs₁ (some slot) false)
  · exact hmark

theorem relocate_fitted (hl : cfg.Lawful) (hv : hs.map.Valid cfg) (hb : hs.map.Bounded cfg none)
    {r : ProbeResult V} {object : V} {first : Nat}
    (hfound : hs.map.Found cfg (cfg.hit (cfg.hf key) key) (hs.map.home (cfg.hf key)) 0 none r)
    (hobject : r.object = some object) (hslot : r.slot = some slot)
    (hfirst : r.first = some first) :
    Sound cfg (hs.relocate cfg (cfg.hf key) key first slot r.nProbes).2 ∧
      Fitted cfg hs (cfg.marshal key (cfg.hf key)) r
        (hs.relocate cfg (cfg.hf key) key first slot r.nProbes) := by
  obtain ⟨w, hw, -, -, hhash, hle, -, hne⟩ := duplicate hl hv hfound object slot hobject hslot
  obtain ⟨hh, hpos, hcap, hstand⟩ := hv.placed.stands slot _ (Map.place_of_entry hw)
  dsimp only at hh hpos hcap hstand
  have hhome := firstOffset_stands hv.lines hh hpos hcap hstand
  rw [hhash] at hhome
  have hadmits : cfg.readMostly = false →
      hs.map.Admits (hs.map.home (cfg.hf key)) r.nProbes := fun hrm =>
    Admits.le (hhome ▸ hb.admits hrm slot (Option.some_ne_none slot).symm hpos) hle
  have hmax := hle.trans (hb.below slot)
  obtain ⟨k, hn, hpick⟩ := hfound.picked rfl first hfirst
  rw [hn] at hadmits hmax ⊢
  unfold relocate
  have hplain := (markRh_plain hs (some slot) true).plain_keep.1
  have hv₂ := markRh_valid hv (some slot) true
  have hb₂ := (markRh_plain hs (some slot) true).bounded hb
  have hmap₂ := markRh_map hs (some slot) true
  have hmarked : (hs.markRh (some slot) true).map.inRh slot = true := Function.update_self _ _ _
  generalize hs.markRh (some slot) true = hs₂ at hplain hv₂ hb₂ hmap₂ hmarked ⊢
  have hc₂ : hs₂.map.capacity = hs.map.capacity := by rw [hmap₂]
  have he₂ : hs₂.map.entries = hs.map.entries := by rw [hmap₂]
  have hmax₂ : hs₂.map.probeMaximum = hs.map.probeMaximum := by rw [hmap₂]
  have hstored₂ : hs₂.map.stored = hs.map.stored := Map.stored_congr he₂ hc₂
  have hhome₂ : hs₂.map.home (cfg.hf key) = hs.map.home (cfg.hf key) := by
    rw [Map.home, Map.home, hc₂]
  have hused : hs₂.map.entries first ≠ none := he₂ ▸ hpick.word
  have hdis := putRobinHood_dislodged hv₂ hb₂ hused
  have hroom := putRobinHood_roomed hv₂ hused
  generalize hs₂.putRobinHood cfg first = res at hdis hroom ⊢
  obtain ⟨answer, hs'⟩ := res
  have hdis' := hdis
  have hroom' := hroom
  cases hdis with
  | grown _ bounded stored =>
    cases hroom with
    | grown _ sound => exact ⟨sound, .grown hs' bounded (stored.trans hstored₂)⟩
  | failed _ bounded stored =>
    cases hroom with
    | failed _ valid =>
      refine ⟨.of_valid (markRh_valid valid (some slot) false),
        .failed _ ((markRh_plain hs' (some slot) false).bounded bounded) ?_⟩
      rw [markRh_stored, stored, hstored₂]
  | moved _ raises bounded stored guarded =>
    dsimp only
    generalize hx : (hs'.markRh (some slot) false).exec
      [.entry first (some (cfg.marshal key (cfg.hf key))),
        (hs'.markRh (some slot) false).map.signal (cfg.hf key).toNat, .probes first (k + 1)] = hs₃
    obtain ⟨g, hmap₃⟩ : ∃ g, hs₃.map = { hs'.map with
        inRh := hs₃.map.inRh
        generation := g
        entries := Function.update hs'.map.entries first (some (cfg.marshal key (cfg.hf key)))
        probes := Function.update hs'.map.probes first (k + 1) } := by
      rw [← hx, exec_map, markRh_map]
      exact ⟨_, rfl⟩
    have hseat := hdis'.seat hroom' hv₂ k (cfg.marshal key (cfg.hf key)) hs₃
      (by rw [hmap₃]; rfl) (by rw [hmap₃]) (by rw [hmap₃]) (by rw [hmap₃])
      (by omega) (by rw [hc₂, Config.marshal, hhome₂]; exact hpick.slot)
      (by rw [hc₂, he₂, Config.marshal, hhome₂]; exact hpick.busy.used)
      (fun hrm => by
        rw [Config.marshal, hhome₂]
        exact ((hadmits hrm).raise (.of_bounds hplain) hb.capped).raise raises hb₂.capped)
    have hhome₃ : hs₃.map.home (cfg.hf key) =
        hs₂.map.home (cfg.hf (cfg.marshal key (cfg.hf key)).obj) := by
      rw [Config.marshal, Map.home, Map.home, hmap₃, ← raises.capacity]
    rw [hhome₃]
    generalize hs₃.addWanted cfg first none _ = hs₄ at hseat ⊢
    have hused' : hs₂.map.entries slot ≠ none := by
      rw [he₂, hw]
      exact Option.some_ne_none w
    obtain ⟨hb', hstored'⟩ := hseat.delete hmarked hused' (hne first hfirst)
    refine ⟨.of_valid (doBackwardShiftDelete_valid hseat.valid ?_), .moved _ hb' ?_⟩
    · rw [hseat.guarded slot hmarked hused' (hne first hfirst)]
      exact hused'
    rw [he₂, hstored₂] at hstored'
    obtain ⟨s, f, o, n⟩ := r
    dsimp only at hobject hslot
    subst hobject hslot
    exact hstored'

end State

end ConcurrencyKit.Rhs
