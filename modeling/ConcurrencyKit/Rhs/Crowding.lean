import ConcurrencyKit.Rhs.Counting
import ConcurrencyKit.Rhs.Insertion

/-!
# The counters of passing entries after every call

Every call keeps the counters right, as long as no map is published that has a slot with `2 ^ 16`
entries or more passing. A growth that publishes one counts them with counters that turn over.
-/

namespace ConcurrencyKit.Rhs

variable {V : Type}

/-- No slot of a map that is published is passed by `2 ^ 16` entries or more. -/
def Uncrowded (cfg : Config V) (stores : List (Store V)) : Prop :=
  ∀ m, Store.map m ∈ stores →
    ∀ s < m.capacity, passing cfg.line m.capacity (m.place cfg) s < 2 ^ 16

/-- The store publishes no map. -/
def Store.Local : Store V → Prop
  | .map _ => False
  | _ => True

/-- The number of slots is one that the code can create. -/
def Map.Sized (m : Map V) : Prop := ∃ k, 3 ≤ k ∧ k ≤ 64 ∧ m.capacity = 2 ^ k

theorem Map.Sized.lines {m : Map V} (h : m.Sized) (cfg : Config V) : Lines cfg.line m.capacity := by
  obtain ⟨k, h3, h64, hc⟩ := h
  exact hc ▸ cfg.lines h3 h64

namespace State

/-- The second state comes after the first one. -/
structure Follows (hs hs' : State V) : Prop where
  stores : hs.stores <+: hs'.stores
  sized : hs.map.Sized → hs'.map.Sized

/-- The counters are right if no map has been crowded. -/
def Sound (cfg : Config V) (hs : State V) : Prop := Uncrowded cfg hs.stores → hs.map.Valid cfg

variable {cfg : Config V} {hs hs' hs'' : State V} {slot n : Nat} {prevs : List (Nat × Nat)}

namespace Follows

theorem refl (hs : State V) : Follows hs hs := ⟨List.prefix_refl _, id⟩

theorem trans (h : Follows hs hs') (h' : Follows hs' hs'') : Follows hs hs'' :=
  ⟨h.stores.trans h'.stores, h'.sized ∘ h.sized⟩

theorem of_makes {P : Store V → Prop} (h : Makes P hs hs') (hp : ∀ s, P s → s.Local) :
    Follows hs hs' := by
  have hc := h.keeps Map.capacity fun m s hs => by
    have hlocal := hp s hs
    cases s <;> first | rfl | exact hlocal.elim
  obtain ⟨stores, rfl, -⟩ := h
  exact ⟨List.prefix_append _ _, fun hsized => by rwa [Map.Sized, hc]⟩

theorem exec {stores : List (Store V)} (h : ∀ s ∈ stores, s.Local) :
    Follows hs (hs.exec stores) := of_makes (.exec h) fun _ => id

theorem addWanted (cfg : Config V) (hs : State V) (e : Nat) (old : Option Nat) (home : Nat) :
    Follows hs (hs.addWanted cfg e old home) :=
  of_makes (addWanted_makes cfg hs e old home) fun s hs => by cases s <;> trivial

theorem quiet (h : Makes Store.Quiet hs hs') : Follows hs hs' :=
  of_makes h fun s hs => by cases s <;> trivial

theorem markRh (hs : State V) (guard : Option Nat) (value : Bool) :
    Follows hs (hs.markRh guard value) :=
  of_makes (markRh_minor hs guard value) fun s hs => by cases s <;> trivial

theorem boundSet (cfg : Config V) (hs : State V) (home n : Nat) :
    Follows hs (hs.exec (hs.map.boundSet cfg home n)) :=
  of_makes (.boundSet cfg hs home n (fun _ => trivial) fun _ => trivial) fun _ => id

theorem of_grown {r : Bool × State V} (h : Grown cfg hs r) : Follows hs r.2 := by
  cases h with
  | failed hs' map stores => exact ⟨by rw [stores], fun hsized => by rwa [map]⟩
  | filled capacity m hs' fill map stores =>
    refine ⟨?_, fun _ => ?_⟩
    · rw [stores]
      exact List.prefix_append _ _
    · rw [map]
      exact (Map.fill_built (.create cfg _ _) fill).capacity

end Follows

/-- What holds after one part of a call holds after the next one. -/
theorem Sound.next (h : Sound cfg hs) (hf : Follows hs hs')
    (hnext : hs.map.Valid cfg → Sound cfg hs') : Sound cfg hs' := by
  intro hfew
  exact hnext (h fun m hm => hfew m (hf.stores.subset hm)) hfew

theorem Grown.sound {r : Bool × State V} (h : Grown cfg hs r)
    (hv : r.1 = false → hs.map.Valid cfg) : Sound cfg r.2 := by
  cases h with
  | failed hs' map =>
    intro _
    rw [map]
    exact hv rfl
  | filled capacity m hs' fill map stores =>
    intro hfew
    rw [map]
    refine (Map.fill_built (.create cfg _ _) fill).valid (hfew m ?_)
    rw [stores]
    exact List.mem_append_right _ List.mem_cons_self

/-! ## Robin Hood insertion -/

/-- What `ck_rhs_put_robin_hood` leaves behind of a valid map. -/
inductive Roomed (cfg : Config V) (hs : State V) (slot : Nat) : Relocation × State V → Prop
  | grown (hs' : State V) (sound : Sound cfg hs') : Roomed cfg hs slot (.grown, hs')
  | failed (hs' : State V) (valid : hs'.map.Valid cfg) : Roomed cfg hs slot (.failed, hs')
  | moved (hs' : State V) (P : Placement) (moving : Moving cfg hs.map hs'.map slot [] P)
      (maximum : hs.map.probeMaximum ≤ hs'.map.probeMaximum)
      (room : ∃ e < hs.map.capacity, hs.map.entries e = none) : Roomed cfg hs slot (.moved, hs')

theorem putRobinHood_roomed (hv : hs.map.Valid cfg) (hused : hs.map.entries slot ≠ none) :
    Roomed cfg hs slot (hs.putRobinHood cfg slot) := by
  obtain ⟨slot', prevs, hs', hc, hlast, hend⟩ :=
    putRobinHoodLoop_ended cfg maxRh rfl (Chosen.start hs slot)
  have hmax : (hs.putRobinHood cfg slot).1 = .grown ∨
      hs.map.probeMaximum ≤ (hs.putRobinHood cfg slot).2.map.probeMaximum :=
    putRobinHoodLoop_maximum maxRh
  unfold putRobinHood at hmax ⊢
  generalize putRobinHoodLoop cfg maxRh slot _ [] hs = r at hend hmax ⊢
  rw [List.map_nil, List.getLastD_nil] at hlast
  have hmark := hc.mark.chooses_keep
  cases hend with
  | grow behavior r' probe first none =>
    unfold relocationGrow at hmax ⊢
    have hgrown := grow_grown cfg (hs'.exec [.inRh slot' true])
      ((hs'.exec [.inRh slot' true]).map.capacity * 2)
    generalize (hs'.exec [.inRh slot' true]).grow cfg _ = r at hgrown hmax ⊢
    cases hgrown with
    | filled capacity m hs₁ fill map stores =>
      exact .grown _ (Grown.sound (.filled capacity m hs₁ fill map stores ‹_›) nofun)
    | failed hs₁ map =>
      obtain ⟨halike, -⟩ := hc.restored map
      exact .failed _ (hv.congr halike.capacity halike.entries halike.probes halike.wanted
        (hmax.resolve_left nofun))
  | move behavior r' empty probe first some =>
    obtain ⟨hcap, -, hentries, -⟩ := hmark
    have hslot' : slot' < hs.map.capacity := by
      have hused' : hs.map.entries slot' ≠ none :=
        (hc.used slot' List.mem_cons_self).elim (fun he => he ▸ hlast ▸ hused) id
      obtain ⟨w, hw⟩ := Option.ne_none_iff_exists'.mp hused'
      exact hv.placed.lt hv.lines (Map.place_of_entry hw)
    obtain ⟨hlt, hempty⟩ := Map.probeFrom_empty (hcap ▸ hv.lines) (hcap ▸ hslot')
      (probe ▸ first) (probe ▸ some)
    rw [hcap] at hlt
    rw [hentries] at hempty
    have hleads := Map.probeFrom_leads hcap hentries (.inr ⟨probe ▸ first, probe ▸ some⟩)
    rw [probe] at hleads
    obtain ⟨P, hmoved⟩ := hc.moved hv (hlast ▸ hused) hlt hempty hleads
    rw [hlast] at hmoved
    exact .moved _ P hmoved (hmax.resolve_left nofun) ⟨empty, hlt, hempty⟩

theorem relocationGrow_follows : Follows hs (hs.relocationGrow cfg slot prevs).2 := by
  unfold relocationGrow
  have hgrown := Follows.of_grown (grow_grown cfg hs (hs.map.capacity * 2))
  generalize hs.grow cfg (hs.map.capacity * 2) = r at hgrown ⊢
  obtain ⟨_ | _, hs'⟩ := r
  · refine hgrown.trans (.exec fun s hs => ?_)
    rcases List.mem_cons.mp hs with rfl | hs
    · trivial
    · rcases mem_restoreStores.mp hs with ⟨t, -, rfl⟩ | ⟨t, k, -, rfl⟩ <;> trivial
  · exact hgrown

theorem shiftChain_follows : Follows hs (shiftChain cfg prevs slot hs) := by
  induction prevs generalizing slot hs with
  | nil => exact .exec (by simp [Store.Local])
  | cons p prevs ih =>
    obtain ⟨prev, k⟩ := p
    rw [shiftChain]
    refine .trans ?_ ih
    refine .trans ?_ (.exec (by simp [Store.Local, Map.signal]))
    exact .trans (.exec (by simp [Store.Local])) (.addWanted cfg _ _ _ _)

theorem relocationMove_follows {e : Nat} :
    Follows hs (hs.relocationMove cfg slot e n prevs) := by
  unfold relocationMove
  refine .trans ?_ shiftChain_follows
  refine .trans ?_ (.addWanted cfg _ _ _ _)
  exact .trans (.boundSet cfg hs _ n) (.exec (by simp [Store.Local, Map.signal]))

theorem putRobinHood_follows (cfg : Config V) (hs : State V) (slot : Nat) :
    Follows hs (hs.putRobinHood cfg slot).2 := by
  obtain ⟨slot', prevs, hs', hc, -, hend⟩ :=
    putRobinHoodLoop_ended cfg maxRh rfl (Chosen.start hs slot)
  have hmark := Follows.of_makes hc.mark fun s hs => by cases s <;> trivial
  unfold putRobinHood
  generalize putRobinHoodLoop cfg maxRh slot _ [] hs = r at hend ⊢
  cases hend with
  | grow => exact hmark.trans relocationGrow_follows
  | move => exact hmark.trans relocationMove_follows

theorem install_follows (cfg : Config V) (hs : State V) (h : BitVec 64) (r : ProbeResult V)
    (w : Word V) (guard : Option Nat) : Follows hs (hs.install cfg h r w guard).2 := by
  unfold install
  refine .trans (.boundSet cfg hs (hs.map.home h) r.nProbes) ?_
  generalize hs.exec (hs.map.boundSet cfg (hs.map.home h) r.nProbes) = hs₁
  obtain ⟨slot, first, object, n⟩ := r
  cases first with
  | some first =>
    have hmark := (Follows.markRh hs₁ guard true).trans
      (putRobinHood_follows cfg (hs₁.markRh guard true) first)
    dsimp only
    generalize (hs₁.markRh guard true).putRobinHood cfg first = res at hmark ⊢
    obtain ⟨_ | _ | _, hs₂⟩ := res
    · refine hmark.trans ((Follows.markRh hs₂ guard false).trans ?_)
      dsimp only
      generalize hs₂.markRh guard false = hs₃
      have hadd : Follows hs₃ ((hs₃.exec [.entry first (some w), .probes first n]).addWanted cfg
          first none (hs₃.map.home h)) :=
        .trans (.exec (by simp [Store.Local])) (.addWanted cfg _ _ _ _)
      split
      · refine hadd.trans (.trans ?_ (.quiet (doBackwardShiftDelete_quiet cfg _ _)))
        exact .exec (by simp [Store.Local, Map.signal])
      · exact hadd
    · exact hmark.trans (.markRh hs₂ guard false)
    · exact hmark
  | none =>
    cases slot with
    | none => exact .refl _
    | some slot =>
      dsimp only
      split
      · exact .exec (by simp [Store.Local])
      · exact .trans (.exec (by simp [Store.Local])) (.addWanted cfg _ _ _ _)

/-! ## Insertion -/

theorem Sound.of_valid (h : hs.map.Valid cfg) : Sound cfg hs := fun _ => h

theorem markRh_map (hs : State V) (guard : Option Nat) (value : Bool) :
    (hs.markRh guard value).map = { hs.map with inRh := (hs.markRh guard value).map.inRh } := by
  cases guard <;> rfl

theorem markRh_valid (h : hs.map.Valid cfg) (guard : Option Nat) (value : Bool) :
    (hs.markRh guard value).map.Valid cfg := by
  rw [markRh_map]
  exact h.congr rfl rfl rfl rfl le_rfl

theorem boundSet_valid (h : hs.map.Valid cfg) (home n : Nat) :
    (hs.exec (hs.map.boundSet cfg home n)).map.Valid cfg := by
  rw [exec_map, Map.applyAll_boundSet]
  exact h.congr rfl rfl rfl rfl (le_max_left _ _)

variable [DecidableEq V]

theorem keyMatch_of_hit {h : BitVec 64} {key : V} {w : Word V} (hhit : cfg.hit h key w = true) :
    cfg.keyMatch w.obj key = true := by
  unfold Config.hit at hhit
  exact (Bool.and_eq_true_iff.mp hhit).2

/-- An installation keeps the counters right. -/
theorem install_sound (hl : cfg.Lawful) (hv : hs.map.Valid cfg) {key insert : V}
    (hinsert : cfg.hf insert = cfg.hf key) (behavior : ProbeBehavior) (guard : Option Nat) :
    Sound cfg (hs.install cfg (cfg.hf key) (hs.map.probeInsert cfg key behavior)
      (cfg.marshal insert (cfg.hf key)) guard).2 := by
  have hfound := hs.map.probe_found cfg (cfg.hf key) key hs.map.probeLimit behavior
  have hreads := probe_reads hv.lines (cfg.hf key) key hs.map.probeLimit behavior
  unfold Map.probeInsert
  generalize hs.map.probe cfg (cfg.hf key) key hs.map.probeLimit behavior = r at hfound hreads ⊢
  unfold install
  have hb := boundSet_valid hv (hs.map.home (cfg.hf key)) r.nProbes
  have hmap : (hs.exec (hs.map.boundSet cfg (hs.map.home (cfg.hf key)) r.nProbes)).map = _ :=
    Map.applyAll_boundSet cfg hs.map (hs.map.home (cfg.hf key)) r.nProbes
  generalize hs.exec (hs.map.boundSet cfg (hs.map.home (cfg.hf key)) r.nProbes) = hs₁
    at hb hmap ⊢
  have hc₁ : hs₁.map.capacity = hs.map.capacity := by rw [hmap]
  have he₁ : hs₁.map.entries = hs.map.entries := by rw [hmap]
  have hmax₁ : r.nProbes ≤ hs₁.map.probeMaximum := by
    rw [hmap]
    exact le_max_right _ _
  have hhome : hs₁.map.home (cfg.hf insert) = hs.map.home (cfg.hf key) := by
    rw [Map.home, Map.home, hc₁, hinsert]
  obtain ⟨slot, first, object, n⟩ := r
  cases first with
  | some first =>
    obtain ⟨k, hn, hpick⟩ := hfound.picked rfl first rfl
    dsimp only at hn hmax₁ ⊢
    subst hn
    have hv₂ := markRh_valid hb guard true
    have hmap₂ := markRh_map hs₁ guard true
    generalize hs₁.markRh guard true = hs₂ at hv₂ hmap₂ ⊢
    have hc₂ : hs₂.map.capacity = hs.map.capacity := by rw [hmap₂, hc₁]
    have he₂ : hs₂.map.entries = hs.map.entries := by rw [hmap₂, he₁]
    have hhome₂ : hs₂.map.home (cfg.hf insert) = hs.map.home (cfg.hf key) := by
      rw [Map.home, Map.home, hc₂, hinsert]
    have hused : hs₂.map.entries first ≠ none := he₂ ▸ hpick.word
    have hroom := putRobinHood_roomed hv₂ hused
    generalize hs₂.putRobinHood cfg first = res at hroom ⊢
    cases hroom with
    | grown hs' sound => exact sound
    | failed hs' valid => exact .of_valid (markRh_valid valid guard false)
    | moved hs' P moving maximum room =>
      dsimp only
      have hmap₃ := markRh_map hs' guard false
      generalize hs'.markRh guard false = hs₃ at hmap₃ ⊢
      have hmax₂ : hs₂.map.probeMaximum = hs₁.map.probeMaximum := by rw [hmap₂]
      have hins := moving.insert (k := k) (w := cfg.marshal insert (cfg.hf key)) hv₂
        (hs₃.exec [.entry first (some (cfg.marshal insert (cfg.hf key))), .probes first (k + 1)])
        (by rw [exec_map, hmap₃]; rfl) (by rw [exec_map, hmap₃]; rfl) (by rw [exec_map, hmap₃]; rfl)
        (by rw [exec_map, hmap₃]; rfl) (by rw [exec_map, hmap₃]; rfl) room (by omega)
        (by rw [hc₂, Config.marshal, hhome₂]; exact hpick.slot)
        (by rw [hc₂, he₂, Config.marshal, hhome₂]; exact hpick.busy.used)
      have hhome₃ : (hs₃.exec [.entry first (some (cfg.marshal insert (cfg.hf key))),
          .probes first (k + 1)]).map.home (cfg.hf key) =
            hs₂.map.home (cfg.hf (cfg.marshal insert (cfg.hf key)).obj) := by
        rw [Config.marshal, hinsert, exec_map, hmap₃, Map.home, Map.home, ← moving.same]
        rfl
      rw [hhome₃]
      obtain ⟨hvalid, hkeep⟩ := hins
      generalize (hs₃.exec _).addWanted cfg first none _ = hs₄ at hvalid hkeep ⊢
      cases object with
      | none => exact .of_valid hvalid
      | some object =>
        cases slot with
        | none => exact .of_valid hvalid
        | some slot =>
          -- the duplicate is deleted
          have hvalid' : (hs₄.exec [hs₄.map.signal (cfg.hf key).toNat]).map.Valid cfg :=
            hvalid.congr rfl rfl rfl rfl le_rfl
          refine .of_valid (doBackwardShiftDelete_valid hvalid' (hkeep slot ?_))
          rw [he₂]
          exact hreads.hit slot rfl rfl
  | none =>
    cases slot with
    | none => exact .of_valid hb
    | some slot =>
      dsimp only at hmax₁ ⊢
      obtain ⟨k, hend, hn⟩ := hfound.ends slot rfl
      have hn : n = k + 1 := (hn rfl).2 rfl
      subst hn
      rcases hend.word with ⟨hempty, hobject⟩ | ⟨w, hw, hhit, hobject⟩ | ⟨hpicked, -⟩
      · dsimp only at hobject
        subst hobject
        have hlt : slot < hs.map.capacity := hend.slot ▸ cursor_lt hv.lines
          (Map.home_lt hv.lines.capacity_pos _) k
        have hk : k < hs.map.capacity := probes_lt (P := hs.map.place cfg) hv.lines
          (Map.home_lt hv.lines.capacity_pos _) hlt (Map.place_eq_none.mpr hempty)
          fun j hj hnone => hend.busy.used j hj (Map.place_eq_none.mp hnone)
        have hins := (hb.vacant (hc₁ ▸ hlt) (he₁ ▸ hempty)).insert (k := k)
          (w := cfg.marshal insert (cfg.hf key))
          (hs₁.exec [.entry slot (some (cfg.marshal insert (cfg.hf key))), .probes slot (k + 1)])
          rfl rfl rfl rfl rfl (hc₁ ▸ hk) hmax₁
          (by rw [hc₁, Config.marshal, hhome]; exact hend.slot)
          (fun j hj hnone => by
            rw [hc₁, Config.marshal, hhome, Map.place_eq_none, he₁] at hnone
            exact hend.busy.used j hj hnone)
        refine .of_valid ?_
        rw [Config.marshal, hinsert] at hins
        exact hins
      · dsimp only at hobject
        subst hobject
        have hhash := hl.hf_eq (keyMatch_of_hit hhit)
        have hsame : hs.map.home (cfg.hf w.obj) = hs.map.home (cfg.hf key) := by rw [hhash]
        have hprobes := hv.probes_of_found hw hhit (hsame ▸ hend.slot) (hsame ▸ hend.busy)
        refine .of_valid (hb.replace (s := slot) (w := w) (he₁ ▸ hw) ?_ ?_ rfl rfl rfl rfl rfl)
        · rw [Config.marshal, hinsert, hhash]
        · rw [hmap]
          exact hprobes.symm
      · cases hpicked

/-! ## Replacement -/

theorem fasLoop_follows {h : BitVec 64} {key : V} {fuel : Nat} {r : Bool × Option V}
    (hfas : fasLoop cfg h key fuel hs = .ok (r, hs')) : Follows hs hs' := by
  induction fuel generalizing hs with
  | zero => cases hfas
  | succ fuel ih =>
    rw [fasLoop] at hfas
    generalize hs.map.probe cfg h key _ .probe = r' at hfas
    dsimp only at hfas
    split at hfas
    · rename_i object slot _ _
      split at hfas
      · rename_i first _
        have hmark := (Follows.markRh hs (some slot) true).trans
          (putRobinHood_follows cfg (hs.markRh (some slot) true) first)
        generalize (hs.markRh (some slot) true).putRobinHood cfg first = res at hmark hfas
        obtain ⟨_ | _ | _, hs₁⟩ := res
        · cases hfas
          refine hmark.trans ((Follows.markRh hs₁ (some slot) false).trans ?_)
          refine .trans ?_ (.quiet (doBackwardShiftDelete_quiet cfg _ _))
          exact .trans (.exec (by simp [Store.Local, Map.signal])) (.addWanted cfg _ _ _ _)
        · cases hfas
          exact hmark.trans (.markRh hs₁ (some slot) false)
        · exact hmark.trans (ih hfas)
      · cases hfas
        exact .exec (by simp [Store.Local])
    · cases hfas
      exact .refl _

/-- A replacement keeps the counters right. -/
theorem fasLoop_sound (hl : cfg.Lawful) (hv : hs.map.Valid cfg) {key : V} {fuel : Nat}
    {r : Bool × Option V} (hfas : fasLoop cfg (cfg.hf key) key fuel hs = .ok (r, hs')) :
    Sound cfg hs' := by
  induction fuel generalizing hs with
  | zero => cases hfas
  | succ fuel ih =>
    rw [fasLoop] at hfas
    have hfound := hs.map.probe_found cfg (cfg.hf key) key
      (hs.map.boundGet cfg (hs.map.home (cfg.hf key))) .probe
    generalize hs.map.probe cfg (cfg.hf key) key _ .probe = r' at hfound hfas
    dsimp only at hfas
    split at hfas
    · rename_i object slot hobject hslot
      -- the entry is where its number of probes says
      obtain ⟨k', hend, hn⟩ := hfound.ends slot hslot
      obtain ⟨w, hw, hhit, -⟩ : ∃ w, hs.map.entries slot = some w ∧
          cfg.hit (cfg.hf key) key w = true ∧ r'.object = some w.obj := by
        rcases hend.word with ⟨-, hnone⟩ | hword | ⟨-, hnone⟩
        · rw [hobject] at hnone
          cases hnone
        · exact hword
        · rw [hobject] at hnone
          cases hnone
      have hhash := hl.hf_eq (keyMatch_of_hit hhit)
      have hsame : hs.map.home (cfg.hf w.obj) = hs.map.home (cfg.hf key) := by rw [hhash]
      have hprobes := hv.probes_of_found hw hhit (hsame ▸ hend.slot) (hsame ▸ hend.busy)
      split at hfas
      · rename_i first hfirst
        obtain ⟨k, hk, hpick⟩ := hfound.picked rfl first hfirst
        have hbound := hv.bound slot
        have hle := (hn rfl).1
        have hv₂ := markRh_valid hv (some slot) true
        have hmap₂ := markRh_map hs (some slot) true
        generalize hs.markRh (some slot) true = hs₂ at hv₂ hmap₂ hfas
        have hc₂ : hs₂.map.capacity = hs.map.capacity := by rw [hmap₂]
        have he₂ : hs₂.map.entries = hs.map.entries := by rw [hmap₂]
        have hmax₂ : hs₂.map.probeMaximum = hs.map.probeMaximum := by rw [hmap₂]
        have hhome₂ : hs₂.map.home (cfg.hf key) = hs.map.home (cfg.hf key) := by
          rw [Map.home, Map.home, hc₂]
        have hused : hs₂.map.entries first ≠ none := he₂ ▸ hpick.word
        have hroom := putRobinHood_roomed hv₂ hused
        generalize hs₂.putRobinHood cfg first = res at hroom hfas
        cases hroom with
        | grown hs₃ sound =>
          exact sound.next (fasLoop_follows hfas) fun hv₃ => ih hv₃ hfas
        | failed hs₃ valid =>
          cases hfas
          exact .of_valid (markRh_valid valid (some slot) false)
        | moved hs₃ P moving maximum room =>
          cases hfas
          have hmap₄ := markRh_map hs₃ (some slot) false
          generalize hs₃.markRh (some slot) false = hs₄ at hmap₄ ⊢
          rw [hk]
          have hins := moving.insert (k := k) (w := cfg.marshal key (cfg.hf key)) hv₂
            (hs₄.exec [.entry first (some (cfg.marshal key (cfg.hf key))),
              hs₄.map.signal (cfg.hf key).toNat, .probes first (k + 1)])
            (by rw [exec_map, hmap₄]; rfl) (by rw [exec_map, hmap₄]; rfl)
            (by rw [exec_map, hmap₄]; rfl) (by rw [exec_map, hmap₄]; rfl)
            (by rw [exec_map, hmap₄]; rfl) room (by omega)
            (by rw [hc₂, Config.marshal, hhome₂]; exact hpick.slot)
            (by rw [hc₂, he₂, Config.marshal, hhome₂]; exact hpick.busy.used)
          have hhome₃ : (hs₄.exec [.entry first (some (cfg.marshal key (cfg.hf key))),
              hs₄.map.signal (cfg.hf key).toNat, .probes first (k + 1)]).map.home (cfg.hf key) =
                hs₂.map.home (cfg.hf (cfg.marshal key (cfg.hf key)).obj) := by
            rw [Config.marshal, exec_map, hmap₄, Map.home, Map.home, ← moving.same]
            rfl
          rw [hhome₃]
          obtain ⟨hvalid, hkeep⟩ := hins
          refine .of_valid (doBackwardShiftDelete_valid hvalid (hkeep slot ?_))
          rw [he₂, hw]
          exact Option.some_ne_none w
      · rename_i hfirst
        cases hfas
        refine .of_valid (hv.replace (s := slot) (w := w) hw ?_ ?_ rfl rfl rfl rfl rfl)
        · rw [Config.marshal, hhash]
        · rw [hprobes]
          exact (hn rfl).2 hfirst
    · cases hfas
      exact .of_valid hv

/-! ## The other calls -/

omit [DecidableEq V] in
theorem postinsert_follows (cfg : Config V) (hs : State V) :
    Follows hs (hs.postinsert cfg) := by
  have hcount : Follows hs (hs.exec [.nEntries (hs.map.nEntries + 1)]) :=
    .exec (by simp [Store.Local])
  unfold postinsert
  dsimp only
  split
  · exact hcount.trans (.of_grown (grow_grown cfg _ _))
  · exact hcount

omit [DecidableEq V] in
theorem postinsert_sound (hv : hs.map.Valid cfg) : Sound cfg (hs.postinsert cfg) := by
  have hcount : (hs.exec [.nEntries (hs.map.nEntries + 1)]).map.Valid cfg :=
    hv.congr rfl rfl rfl rfl le_rfl
  unfold postinsert
  dsimp only
  split
  · exact (grow_grown cfg _ _).sound fun _ => hcount
  · exact .of_valid hcount

omit [DecidableEq V] in
theorem finish_follows (cfg : Config V) (object : Option V) (res : Relocation × State V) :
    Follows res.2 (finish cfg object res) := by
  unfold finish
  split
  · exact postinsert_follows cfg res.2
  · exact .refl _

omit [DecidableEq V] in
theorem finish_sound {res : Relocation × State V} (h : Sound cfg res.2) (object : Option V) :
    Sound cfg (finish cfg object res) := by
  unfold finish
  split
  · exact h.next (postinsert_follows cfg res.2) postinsert_sound
  · exact h

theorem remove_follows (cfg : Config V) (hs : State V) (h : BitVec 64) (key : V) :
    Follows hs (hs.remove cfg h key).2 := by
  unfold remove
  dsimp only
  split
  · exact .trans (.exec (by simp [Store.Local])) (.quiet (doBackwardShiftDelete_quiet cfg _ _))
  · exact .refl hs

theorem remove_sound (hv : hs.map.Valid cfg) (h : BitVec 64) (key : V) :
    Sound cfg (hs.remove cfg h key).2 := by
  unfold remove
  have hreads := probe_reads hv.lines h key (hs.map.boundGet cfg (hs.map.home h)) .noRh
  generalize hs.map.probe cfg h key _ .noRh = r at hreads
  have hcount : ∀ n, (hs.exec [.nEntries n]).map.Valid cfg :=
    fun n => hv.congr rfl rfl rfl rfl le_rfl
  dsimp only
  split
  · rename_i object slot hobject hslot
    have hused : hs.map.entries slot ≠ none := hreads.hit slot hslot (by rw [hobject]; rfl)
    exact .of_valid (doBackwardShiftDelete_valid (hcount _) hused)
  · exact .of_valid hv

omit [DecidableEq V] in
/-- `ck_rhs_gc` finds the largest probe count. -/
theorem le_maxProbes (m : Map V) {t : Nat} (ht : t < m.capacity) : m.probes t ≤ m.maxProbes := by
  have hfold : ∀ (ts : List Nat) (n : Nat),
      n ≤ ts.foldl (fun n i => max n (m.probes i)) n ∧
        ∀ i ∈ ts, m.probes i ≤ ts.foldl (fun n i => max n (m.probes i)) n := by
    intro ts
    induction ts with
    | nil => exact fun n => ⟨le_rfl, by simp⟩
    | cons i ts ih =>
      intro n
      obtain ⟨hle, hmem⟩ := ih (max n (m.probes i))
      rw [List.foldl_cons, List.forall_mem_cons]
      exact ⟨(le_max_left _ _).trans hle, (le_max_right _ _).trans hle, hmem⟩
  exact (hfold _ 0).2 t (List.mem_range.mpr ht)

omit [DecidableEq V] in
theorem gc_valid (hv : hs.map.Valid cfg) : hs.gc.map.Valid cfg where
  capacity := hv.capacity
  placed := hv.placed
  counts := hv.counts
  empty := hv.empty
  bound t := by
    by_cases ht : t < hs.map.capacity
    · exact le_maxProbes hs.map ht
    · have hempty : hs.map.entries t = none := by
        by_contra hne
        obtain ⟨w, hw⟩ := Option.ne_none_iff_exists'.mp hne
        exact ht (hv.placed.lt hv.lines (Map.place_of_entry hw))
      exact (hv.empty t hempty).trans_le (Nat.zero_le _)

omit [DecidableEq V] in
theorem reset_follows (cfg : Config V) (hs : State V) : Follows hs (hs.reset cfg).2 := by
  unfold reset create
  by_cases hmalloc : cfg.malloc hs.allocs = true
  · simp only [hmalloc, if_true]
    exact ⟨List.prefix_append _ _, fun _ => (Map.Built.create cfg _ _).capacity⟩
  · simp only [hmalloc, Bool.false_eq_true, if_false]
    exact ⟨List.prefix_refl _, id⟩

omit [DecidableEq V] in
theorem reset_sound (hv : hs.map.Valid cfg) : Sound cfg (hs.reset cfg).2 := by
  unfold reset create
  by_cases hmalloc : cfg.malloc hs.allocs = true
  · simp only [hmalloc, if_true]
    exact fun hfew => (Map.Built.create cfg _ _).valid
      (hfew _ (List.mem_append_right _ List.mem_cons_self))
  · simp only [hmalloc, Bool.false_eq_true, if_false]
    exact .of_valid hv

end State

/-! ## Runs -/

/-- An apply function asks for a deletion, or it answers with an object that hashes like the
key. -/
def Rehashes (cfg : Config V) (key : V) (_object answer : Option V) : Prop :=
  ∀ insert, answer = some insert → cfg.hf insert = cfg.hf key

section Runs

variable [DecidableEq V] {cfg : Config V} {hs : State V}

open State in
/-- Every call keeps the counters right until a map is crowded. -/
theorem sound_preserved (hl : cfg.Lawful) :
    Preserved cfg (fun hs => hs.map.Sized ∧ Sound cfg hs) (Rehashes cfg) where
  key key _ _ h := congrArg cfg.hf (Option.some.inj h).symm
  lines _ h := h.1.lines cfg
  grow hs capacity h := by
    have hgrown := grow_grown cfg hs capacity
    exact ⟨(Follows.of_grown hgrown).sized h.1,
      h.2.next (.of_grown hgrown) fun hv => hgrown.sound fun _ => hv⟩
  load hs loadFactor n h := ⟨h.1, fun hfew => by
    have hv := h.2 fun m hm => hfew m (List.mem_append_left _ hm)
    exact hv.congr rfl rfl rfl rfl le_rfl⟩
  gc hs h := by
    have hf : Follows hs hs.gc := .exec (by simp [Store.Local])
    exact ⟨hf.sized h.1, h.2.next hf fun hv => .of_valid (gc_valid hv)⟩
  reset hs h := ⟨(reset_follows cfg hs).sized h.1, h.2.next (reset_follows cfg hs) reset_sound⟩
  remove hs key h := ⟨(remove_follows cfg hs _ key).sized h.1,
    h.2.next (remove_follows cfg hs _ key) fun hv => remove_sound hv _ key⟩
  fas hs key r hs' h hfas := ⟨(fasLoop_follows hfas).sized h.1,
    h.2.next (fasLoop_follows hfas) fun hv => fasLoop_sound hl hv hfas⟩
  delete hs key object slot h _ hobject hslot := by
    have hf := Follows.quiet (doBackwardShiftDelete_quiet cfg hs slot)
    refine ⟨hf.sized h.1, h.2.next hf fun hv => .of_valid (doBackwardShiftDelete_valid hv ?_)⟩
    have hreads := probe_reads hv.lines (cfg.hf key) key hs.map.probeLimit .insert
    exact hreads.hit slot hslot (by rw [hobject]; rfl)
  install hs key object insert behavior guard h hinsert := by
    have hf := (install_follows cfg hs (cfg.hf key) (hs.map.probeInsert cfg key behavior)
      (cfg.marshal insert (cfg.hf key)) guard).trans
        (finish_follows cfg (hs.map.probeInsert cfg key behavior).object _)
    refine ⟨hf.sized h.1, h.2.next hf fun hv => finish_sound ?_ _⟩
    exact install_sound hl hv (hinsert insert rfl) behavior guard

/-- No stored entry passes a slot with a counter that is zero on the way from its home slot. -/
def Map.WantedLaw (cfg : Config V) (m : Map V) : Prop :=
  ∀ s < m.capacity, m.wanted s = 0 →
    ∀ t x, m.place cfg t = some x → ¬ x.Passes cfg.line m.capacity s

omit [DecidableEq V] in
theorem Map.Valid.wantedLaw {m : Map V} (h : m.Valid cfg) : m.WantedLaw cfg := by
  intro s hs hzero t x hx
  have hcount := (h.counts s hs).2 (by rw [hzero]; decide)
  exact not_passes (hcount.symm.trans hzero) (h.placed.lt h.lines hx) hx

omit [DecidableEq V] in
theorem init_valid {entries : Nat} (hinit : init cfg entries = some hs) : hs.map.Valid cfg := by
  unfold init at hinit
  split at hinit
  · cases hinit
    refine (Map.Built.create cfg defaultLoadFactor entries).valid fun s _ => ?_
    refine Nat.lt_of_le_of_lt (Nat.le_of_eq ?_) (by decide : 0 < 2 ^ 16)
    exact tally_eq_zero fun _ _ => rfl
  · cases hinit

/-- In every state after calls that have published no crowded map, back-shift deletion may empty a
slot with a counter that is zero. -/
theorem wanted_law (hl : cfg.Lawful) {entries : Nat} {hs₀ : State V}
    (hinit : init cfg entries = some hs₀) {ops : List (Op V)}
    (hops : Answering cfg (Rehashes cfg) hs₀ ops) {rs : List (Result V)}
    (hrun : run cfg hs₀ ops = .ok (rs, hs)) (hfew : Uncrowded cfg hs.stores) :
    hs.map.WantedLaw cfg := by
  have hv₀ := init_valid hinit
  have hI := (sound_preserved hl).run ⟨hv₀.capacity, .of_valid hv₀⟩ hops hrun
  exact (hI.2 hfew).wantedLaw

end Runs

/-! ## A counter that turns over -/

/-- A set of numbers with one hash value for all. -/
def oneHash : Config Nat where
  hf _ := 0
  compare := none
  vmaBits := none
  readMostly := true
  malloc _ := true
  restarts := 1

/-- The maps that are published have few slots. -/
def fewSlots (stores : List (Store Nat)) : Bool :=
  stores.all fun
    | .map m => decide (m.capacity < 2 ^ 16)
    | _ => true

theorem fewSlots_uncrowded {cfg : Config Nat} {stores : List (Store Nat)}
    (h : fewSlots stores = true) : Uncrowded cfg stores := by
  intro m hm s _
  have hcapacity := of_decide_eq_true (List.all_eq_true.mp h _ hm)
  exact (tally_le _ _ _).trans_lt hcapacity

/-- Calls that grow the map, move its entries and remove some. -/
def crowdingCalls : List (Op Nat) :=
  [.put 0, .put 1, .put 2, .putUnique 3, .set 4, .remove 1, .apply 2 id, .fas 3, .rebuild]

theorem crowdingCalls_answering (hs : State Nat) :
    Answering oneHash (Rehashes oneHash) hs crowdingCalls :=
  ⟨trivial, fun _ _ _ => ⟨trivial, fun _ _ _ => ⟨trivial, fun _ _ _ => ⟨trivial, fun _ _ _ =>
    ⟨trivial, fun _ _ _ => ⟨trivial, fun _ _ _ => ⟨⟨fun _ _ => rfl, fun _ _ _ _ => rfl⟩,
      fun _ _ _ => ⟨trivial, fun _ _ _ => ⟨trivial, fun _ _ _ => trivial⟩⟩⟩⟩⟩⟩⟩⟩⟩

theorem wanted_law_crowdingCalls :
    ∃ hs₀ rs hs, init oneHash 8 = some hs₀ ∧ run oneHash hs₀ crowdingCalls = .ok (rs, hs) ∧
      hs.map.capacity = 16 ∧ hs.map.WantedLaw oneHash := by
  have heval : ((init oneHash 8).map fun hs => (run oneHash hs crowdingCalls).toOption.map
      fun p => (p.2.map.capacity, fewSlots p.2.stores)) = some (some (16, true)) := by
    decide +kernel
  obtain ⟨hs₀, hinit, hsome⟩ := Option.map_eq_some_iff.mp heval
  cases hrun : run oneHash hs₀ crowdingCalls with
  | error e =>
    rw [hrun] at hsome
    cases hsome
  | ok p =>
    rw [hrun] at hsome
    obtain ⟨hcapacity, hfew⟩ := Prod.mk.inj (Option.some.inj hsome)
    have hlawful : oneHash.Lawful := ⟨nofun, nofun⟩
    exact ⟨hs₀, p.1, p.2, hinit, hrun, hcapacity, wanted_law hlawful hinit
      (crowdingCalls_answering hs₀) hrun (fewSlots_uncrowded hfew)⟩

/-- Slot number `k` of the probe sequence that all numbers have in a map of `2 ^ 22` slots. -/
def pileSlot (k : Nat) : Nat := cursor 8 (2 ^ 22) 0 k

theorem pile_lines : Lines 8 (2 ^ 22) := oneHash.lines (by decide) (by decide)

theorem pileSlot_inj {i j : Nat} (hi : i < 2 ^ 22) (hj : j < 2 ^ 22)
    (h : pileSlot i = pileSlot j) : i = j :=
  cursor_inj pile_lines (by decide) hi hj h

/-- The first `n` slots of the probe sequence hold the numbers below `n`. -/
structure Pile (hs : State Nat) (n : Nat) : Prop where
  capacity : hs.map.capacity = 2 ^ 22
  counted : hs.map.Counted
  nEntries : hs.map.nEntries = n
  maxEntries : hs.map.maxEntries = 2 ^ 21
  entries : ∀ k < n, hs.map.entries (pileSlot k) = some ⟨0, k⟩
  empty : ∀ k, n ≤ k → k < 2 ^ 22 → hs.map.entries (pileSlot k) = none
  probes : ∀ k < n, hs.map.probes (pileSlot k) = k + 1

variable {hs hs' : State Nat} {u u' m : Map Nat} {n a j fuel : Nat}

theorem probeLoop_pile (h : Pile hs n) (ha : a ≤ n) (hn : n < 131072) (hfuel : n < a + fuel) :
    Map.probeLoop oneHash hs.map (oneHash.hit 0 n) 131072 .insert fuel (pileSlot a) a 131072 none =
      ⟨some (pileSlot n), none, none, n + 1⟩ := by
  induction fuel generalizing a with
  | zero => omega
  | succ fuel ih =>
    rw [Map.probeLoop, if_neg (by omega), if_neg (by omega)]
    rcases Nat.eq_or_lt_of_le ha with rfl | hlt
    · rw [h.empty a le_rfl (by omega)]
      dsimp only
      rw [Map.probeLeave, if_neg (by omega), if_neg (by omega)]
      rfl
    · have hpick : hs.map.picked .insert (pileSlot a) (a + 1) none = false := by
        rw [Map.picked, h.probes a hlt]
        simp
      have hhit : oneHash.hit 0 n ⟨0, a⟩ = false := by
        simp [Config.hit, Callbacks.keyMatch, Callbacks.tag, oneHash, hlt.ne]
      rw [h.entries a hlt]
      simp only [hpick, hhit, Bool.false_eq_true, if_false, false_and]
      have hnext :
          probeNext oneHash.line hs.map.capacity (pileSlot a) (a + 1) = pileSlot (a + 1) := by
        rw [h.capacity]
        rfl
      rw [hnext]
      exact ih hlt (by omega)

theorem put_pile (h : Pile hs n) (hn : n < 131072) :
    ∃ r hs', step oneHash hs (.put n) = .ok (r, hs') ∧ Pile hs' (n + 1) := by
  have hlimit : hs.map.probeLimit = 131072 := by
    rw [Map.probeLimit, h.capacity]
    decide
  have hprobe : hs.map.probe oneHash 0 n hs.map.probeLimit .insert =
      ⟨some (pileSlot n), none, none, n + 1⟩ := by
    rw [Map.probe, hlimit]
    have hhome : hs.map.home 0 = pileSlot 0 := by
      rw [Map.home, h.capacity]
      rfl
    have hstart : hs.map.startLimit oneHash 0 131072 .insert = 131072 := rfl
    rw [hhome, hstart]
    exact probeLoop_pile h (Nat.zero_le n) hn (by omega)
  -- the stores of the call but the last one, which counts the number
  have hbound := Map.applyAll_boundSet oneHash hs.map (hs.map.home 0) (n + 1)
  generalize h₁ : hs.exec (hs.map.boundSet oneHash (hs.map.home 0) (n + 1)) = hs₁
  have hmap₁ : hs₁.map = _ := (congrArg State.map h₁).symm.trans hbound
  generalize h₂ : hs₁.exec [.entry (pileSlot n) (some ⟨0, n⟩), .probes (pileSlot n) (n + 1)] = hs₂
  have hmakes := State.addWanted_makes oneHash hs₂ (pileSlot n) none (hs₂.map.home 0)
  generalize h₃ : hs₂.addWanted oneHash (pileSlot n) none (hs₂.map.home 0) = hs₃ at hmakes
  obtain ⟨hc, he, hp, -⟩ := hmakes.wanted_keep
  have hn₃ : hs₃.map.nEntries = hs₂.map.nEntries := hmakes.keeps Map.nEntries fun m s hs => by
    cases s <;> first | rfl | exact hs.elim
  have hm₃ : hs₃.map.maxEntries = hs₂.map.maxEntries :=
    hmakes.keeps Map.maxEntries fun m s hs => by cases s <;> first | rfl | exact hs.elim
  rw [← h₂, State.exec_map, hmap₁] at hc he hp hn₃ hm₃
  have hput : hs.put oneHash 0 n = .ok (true, hs₃.postinsert oneHash) := by
    rw [State.put, show oneHash.restarts = 1 from rfl, State.putInternal, hprobe, ← h₃, ← h₂, ← h₁]
    rfl
  have hpost : hs₃.postinsert oneHash = hs₃.exec [.nEntries (n + 1)] := by
    have hcount : hs₃.map.nEntries = n := hn₃.trans h.nEntries
    have hmax : hs₃.map.maxEntries = 2 ^ 21 := hm₃.trans h.maxEntries
    rw [State.postinsert, if_neg, hcount]
    change ¬ hs₃.map.maxEntries < hs₃.map.nEntries + 1
    omega
  rw [hpost] at hput
  have hstep : step oneHash hs (.put n) = .ok (⟨true, none⟩, hs₃.exec [.nEntries (n + 1)]) :=
    congrArg (· >>= _) hput
  have hanswers : Op.Answers oneHash KeepsStored hs (.put n) := trivial
  have hcounted := (counted_preserved oneHash).step h.counted hanswers hstep
  refine ⟨_, _, hstep, hc.trans h.capacity, hcounted, rfl, hm₃.trans h.maxEntries, fun k hk => ?_,
    fun k hk hlt => ?_, fun k hk => ?_⟩
  · refine (congrFun he (pileSlot k)).trans ?_
    rcases Nat.lt_succ_iff_lt_or_eq.mp hk with hk | rfl
    · refine (Function.update_of_ne (fun heq => ?_) _ _).trans (h.entries k hk)
      have := pileSlot_inj (by omega) (by omega) heq
      omega
    · exact Function.update_self _ _ _
  · refine (congrFun he (pileSlot k)).trans ?_
    refine (Function.update_of_ne (fun heq => ?_) _ _).trans (h.empty k (by omega) hlt)
    have := pileSlot_inj hlt (by omega) heq
    omega
  · refine (congrFun hp (pileSlot k)).trans ?_
    rcases Nat.lt_succ_iff_lt_or_eq.mp hk with hk | rfl
    · refine (Function.update_of_ne (fun heq => ?_) _ _).trans (h.probes k hk)
      have := pileSlot_inj (by omega) (by omega) heq
      omega
    · exact Function.update_self _ _ _

theorem run_append {V : Type} [DecidableEq V] {cfg : Config V} {hs hs₁ hs' : State V}
    {ops ops' : List (Op V)} {rs rs' : List (Result V)} (h : run cfg hs ops = .ok (rs, hs₁))
    (h' : run cfg hs₁ ops' = .ok (rs', hs')) : run cfg hs (ops ++ ops') = .ok (rs ++ rs', hs') := by
  induction ops generalizing hs rs with
  | nil =>
    cases h
    exact h'
  | cons op ops ih =>
    obtain ⟨⟨r, hs₂⟩, hstep, hrest⟩ := bind_eq_ok.mp h
    obtain ⟨⟨rs₂, hs₃⟩, hrun, he⟩ := bind_eq_ok.mp hrest
    cases he
    exact bind_eq_ok.mpr ⟨_, hstep, bind_eq_ok.mpr ⟨_, ih hrun, rfl⟩⟩

theorem puts_pile (h : Pile hs n) (hj : n + j ≤ 131072) :
    ∃ rs hs', run oneHash hs ((List.range' n j).map .put) = .ok (rs, hs') ∧ Pile hs' (n + j) := by
  induction j generalizing hs n with
  | zero => exact ⟨[], hs, rfl, h⟩
  | succ j ih =>
    obtain ⟨r, hs₁, hstep, h₁⟩ := put_pile h (by omega)
    obtain ⟨rs, hs', hrun, h'⟩ := ih h₁ (by omega)
    refine ⟨r :: rs, hs', ?_, by rwa [← Nat.add_assoc, Nat.add_right_comm]⟩
    rw [List.range'_succ, List.map_cons]
    exact bind_eq_ok.mpr ⟨_, hstep, bind_eq_ok.mpr ⟨_, hrun, rfl⟩⟩

theorem init_pile : ∃ hs₀, init oneHash (2 ^ 22) = some hs₀ ∧ Pile hs₀ 0 := by
  have hslots : mapSlots (2 ^ 22) = 2 ^ 22 := by decide +kernel
  refine ⟨_, rfl, hslots, .create _ _, rfl, ?_, nofun, fun _ _ _ => rfl, nofun⟩
  change mapSlots (2 ^ 22) * defaultLoadFactor / 100 = 2 ^ 21
  rw [hslots]
  rfl

/-- The first `j` slots of the probe sequence of a new map have been filled. The counter of the
first one is `c`. -/
structure Row (u : Map Nat) (j c : Nat) : Prop where
  capacity : u.capacity = 2 ^ 22
  used : ∀ k < j, ∃ w, u.entries (pileSlot k) = some w
  empty : ∀ k, j ≤ k → k < 2 ^ 22 → u.entries (pileSlot k) = none
  probes : ∀ k < j, u.probes (pileSlot k) = k + 1
  wanted : u.wanted 0 = c

/-- A number is filed behind the others. -/
theorem growInsert_row {c : Nat} (h : Row u j c) (ha : a ≤ j) (hj : j < 131072)
    (hfuel : j < a + fuel) (hc : a = 0 → c = (j - 1) % 2 ^ 16) (hc' : 0 < a → c = j % 2 ^ 16)
    (w : Word Nat) :
    ∃ u', u.growInsert oneHash fuel w 0 (pileSlot a) a = some u' ∧
      Row u' (j + 1) (j % 2 ^ 16) := by
  induction fuel generalizing a c u with
  | zero => omega
  | succ fuel ih =>
    have hlimit : u.probeLimit = 131072 := by
      rw [Map.probeLimit, h.capacity]
      decide
    rw [Map.growInsert_succ, if_neg (by omega)]
    rcases Nat.eq_or_lt_of_le ha with rfl | hlt
    · rw [h.empty a le_rfl (by omega)]
      refine ⟨_, rfl, h.capacity, fun k hk => ?_, fun k hk hlt => ?_, fun k hk => ?_, ?_⟩
      · rcases Nat.lt_succ_iff_lt_or_eq.mp hk with hk | rfl
        · obtain ⟨x, hx⟩ := h.used k hk
          refine ⟨x, (Function.update_of_ne (fun heq => ?_) _ _).trans hx⟩
          have := pileSlot_inj (by omega) (by omega) heq
          omega
        · exact ⟨w, Function.update_self _ _ _⟩
      · refine (Function.update_of_ne (fun heq => ?_) _ _).trans (h.empty k (by omega) hlt)
        have := pileSlot_inj hlt (by omega) heq
        omega
      · rcases Nat.lt_succ_iff_lt_or_eq.mp hk with hk | rfl
        · refine (Function.update_of_ne (fun heq => ?_) _ _).trans (h.probes k hk)
          have := pileSlot_inj (by omega) (by omega) heq
          omega
        · exact Function.update_self _ _ _
      · refine h.wanted.trans ?_
        rcases Nat.eq_zero_or_pos a with rfl | hpos
        · exact hc rfl
        · exact hc' hpos
    · obtain ⟨x, hx⟩ := h.used a hlt
      rw [hx]
      dsimp only
      rw [if_neg (by rw [h.probes a hlt]; omega)]
      have hnext : probeNext oneHash.line u.capacity (pileSlot a) (a + 1) = pileSlot (a + 1) := by
        rw [h.capacity]
        rfl
      rw [hnext]
      have hfirst : (0 : Nat) = pileSlot 0 := rfl
      rcases Nat.eq_zero_or_pos a with rfl | hpos
      · -- the first slot is passed
        refine ih (u := u.passBy (pileSlot 0)) (c := j % 2 ^ 16)
          ⟨h.capacity, h.used, h.empty, h.probes, ?_⟩ hlt (by omega)
          (fun hzero => absurd hzero (Nat.succ_ne_zero _)) fun _ => rfl
        change Function.update u.wanted 0 (inc 16 (u.wanted 0)) 0 = j % 2 ^ 16
        rw [Function.update_self, h.wanted, hc rfl, inc]
        omega
      · refine ih (u := u.passBy (pileSlot a)) ⟨h.capacity, h.used, h.empty, h.probes, ?_⟩ hlt
          (by omega) (fun hzero => absurd hzero (Nat.succ_ne_zero _)) fun _ => hc' hpos
        change Function.update u.wanted (pileSlot a) _ 0 = c
        refine (Function.update_of_ne (fun heq => ?_) _ _).trans h.wanted
        have := pileSlot_inj (by omega) (by omega) (hfirst.symm.trans heq)
        omega

/-- The numbers in the first `n` slots of a map are filed. -/
theorem fill_row (m : Map Nat) (loadFactor n : Nat)
    (hn : tally Option.isSome m.entries n ≤ 131072) :
    ∃ u, m.fill oneHash (Map.create loadFactor (2 ^ 22)) (List.range n) = some u ∧
      Row u (tally Option.isSome m.entries n)
        ((tally Option.isSome m.entries n - 1) % 2 ^ 16) := by
  induction n with
  | zero =>
    have hslots : mapSlots (2 ^ 22) = 2 ^ 22 := by decide +kernel
    exact ⟨_, rfl, hslots, nofun, fun _ _ _ => rfl, nofun, rfl⟩
  | succ n ih =>
    rw [tally_succ] at hn ⊢
    obtain ⟨u, hfill, hrow⟩ := ih (by omega)
    have hsplit : m.fill oneHash (Map.create loadFactor (2 ^ 22)) (List.range (n + 1)) =
        m.growCopy oneHash u n := by
      rw [List.range_succ, Map.fill, List.foldlM_append]
      refine (congrArg (Option.bind · _) hfill).trans ?_
      simp
    rw [hsplit, Map.growCopy]
    cases hw : m.entries n with
    | none =>
      refine ⟨u, rfl, ?_⟩
      simpa using hrow
    | some w =>
      simp only [hw, Option.isSome_some, if_true, Nat.add_sub_cancel] at hn ⊢
      refine growInsert_row hrow (Nat.zero_le _) (by omega) ?_ (fun _ => rfl) nofun w
      rw [Map.growFuel, hrow.capacity]
      omega

/-- After a rebuild with `2 ^ 16 + 1` numbers the counter of the first slot is zero, which all other
numbers pass. -/
theorem wanted_law_turned_over :
    ∃ ops hs₀ rs hs, init oneHash (2 ^ 22) = some hs₀ ∧ run oneHash hs₀ ops = .ok (rs, hs) ∧
      ¬ hs.map.WantedLaw oneHash := by
  obtain ⟨hs₀, hinit, hpile₀⟩ := init_pile
  obtain ⟨rs, hs, hrun, hpile⟩ := puts_pile (j := 2 ^ 16 + 1) hpile₀ (by decide)
  rw [Nat.zero_add] at hpile
  have htally : tally Option.isSome hs.map.entries (2 ^ 22) = 2 ^ 16 + 1 := by
    have hcount := hpile.counted.count
    rw [hpile.capacity, hpile.nEntries] at hcount
    exact hcount.symm
  obtain ⟨u, hfill, hrow⟩ := fill_row hs.map hs.loadFactor (2 ^ 22) (by rw [htally]; decide)
  rw [htally] at hrow
  have hgrow : ∃ hs', hs.rebuild oneHash = (true, hs') ∧ hs'.map = u := by
    have hfill' : (List.range hs.map.capacity).foldlM (hs.map.growCopy oneHash)
        (Map.create hs.loadFactor hs.map.capacity) = some u := by
      rw [hpile.capacity]
      exact hfill
    have hcreate : hs.create oneHash hs.map.capacity =
        (some (Map.create hs.loadFactor hs.map.capacity), _) := rfl
    rw [State.rebuild, State.grow, State.growLoop, if_neg (lt_irrefl _), hcreate]
    dsimp only
    rw [hfill']
    exact ⟨_, rfl, rfl⟩
  obtain ⟨hs', hrebuild, rfl⟩ := hgrow
  have hstep : run oneHash hs [.rebuild] = .ok ([⟨true, none⟩], hs') := by
    rw [run, step, hrebuild]
    rfl
  refine ⟨_, hs₀, _, hs', hinit, run_append hrun hstep, fun hlaw => ?_⟩
  -- the second number has passed the first slot
  obtain ⟨w, hw⟩ := hrow.used 1 (by decide)
  have hplace : hs'.map.place oneHash (pileSlot 1) = some ⟨0, 2⟩ := by
    rw [Map.place_of_entry hw, hrow.probes 1 (by decide), Map.home]
    change some (⟨0 % hs'.map.capacity, 2⟩ : Place) = some ⟨0, 2⟩
    rw [Nat.zero_mod]
  refine hlaw 0 ?_ hrow.wanted (pileSlot 1) ⟨0, 2⟩ hplace ⟨0, by decide, le_rfl, rfl⟩
  rw [hrow.capacity]
  decide

end ConcurrencyKit.Rhs
