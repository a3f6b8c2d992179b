import ConcurrencyKit.Rhs.Relocation

/-!
# Calls that fail

A call that cannot get memory leaves the stored objects as they are. If it has not grown the map
before, it leaves the counts and the slots as they are, and no call leaves a slot marked for a
Robin Hood insertion.
-/

namespace ConcurrencyKit.Rhs

variable {V : Type}

/-- The two maps have the same entries, with the same counts. -/
structure Map.Alike (m m' : Map V) : Prop where
  capacity : m'.capacity = m.capacity
  nEntries : m'.nEntries = m.nEntries
  entries : m'.entries = m.entries
  probes : m'.probes = m.probes
  wanted : m'.wanted = m.wanted

namespace Map.Alike

variable {m m' m'' : Map V}

theorem refl (m : Map V) : m.Alike m := ⟨rfl, rfl, rfl, rfl, rfl⟩

theorem trans (h : m.Alike m') (h' : m'.Alike m'') : m.Alike m'' where
  capacity := h'.capacity.trans h.capacity
  nEntries := h'.nEntries.trans h.nEntries
  entries := h'.entries.trans h.entries
  probes := h'.probes.trans h.probes
  wanted := h'.wanted.trans h.wanted

theorem words (h : m.Alike m') : m'.words = m.words := words_congr h.entries h.capacity

end Map.Alike

/-- The store changes neither a slot nor the number of entries, and it publishes no map. -/
def Store.Minor : Store V → Prop
  | .entry _ _ | .probes _ _ | .wanted _ _ | .nEntries _ | .map _ => False
  | _ => True

namespace State

/-- The second state has the objects of the first one. Unless a map has been published in between,
it has them in the same slots, with the same counts. -/
structure Keeps (hs hs' : State V) : Prop where
  words : hs'.map.words = hs.map.words
  stores : ∃ stores, hs'.stores = hs.stores ++ stores ∧
    ((∀ m, Store.map m ∉ stores) → hs.map.Alike hs'.map)

namespace Keeps

variable {hs hs' hs'' : State V}

theorem of_alike (h : hs.map.Alike hs'.map) {stores : List (Store V)}
    (hst : hs'.stores = hs.stores ++ stores) : Keeps hs hs' :=
  ⟨h.words, stores, hst, fun _ => h⟩

theorem trans (h : Keeps hs hs') (h' : Keeps hs' hs'') : Keeps hs hs'' := by
  obtain ⟨a, ha, hka⟩ := h.stores
  obtain ⟨b, hb, hkb⟩ := h'.stores
  refine ⟨h'.words.trans h.words, a ++ b, by rw [hb, ha, List.append_assoc], fun hmap => ?_⟩
  simp only [List.mem_append, not_or] at hmap
  exact (hka fun m => (hmap m).1).trans (hkb fun m => (hmap m).2)

end Keeps

variable {cfg : Config V} {hs hs' : State V}

theorem Makes.keeps_of_minor (h : Makes Store.Minor hs hs') : Keeps hs hs' := by
  have halike : hs.map.Alike hs'.map := by
    constructor
    all_goals
      refine h.keeps _ fun m s hs => ?_
      cases s <;> first | rfl | exact hs.elim
  obtain ⟨stores, rfl, -⟩ := h
  exact .of_alike halike rfl

theorem Grown.keeps {r : Bool × State V} (h : Grown cfg hs r) : Keeps hs r.2 := by
  refine ⟨h.words, ?_⟩
  cases h with
  | failed hs' map stores =>
    refine ⟨[], by rw [stores, List.append_nil], fun _ => ?_⟩
    rw [map]
    exact .refl _
  | filled capacity m hs' fill map stores =>
    exact ⟨_, stores, fun hmap => (hmap m List.mem_cons_self).elim⟩

/-! ## Robin Hood insertion -/

/-- What `ck_rhs_put_robin_hood` leaves behind, by its result. -/
inductive Relocated (cfg : Config V) (hs : State V) : Relocation × State V → Prop
  | grown (hs' : State V) (keeps : Keeps hs hs') (inRh : ∀ s, hs'.map.inRh s = false) :
      Relocated cfg hs (.grown, hs')
  | failed (hs' : State V) (keeps : Keeps hs hs')
      (inRh : ∀ s, hs'.map.inRh s = true → hs.map.inRh s = true) : Relocated cfg hs (.failed, hs')
  | moved (hs' : State V) (inRh : ∀ s, hs'.map.inRh s = true → hs.map.inRh s = true) :
      Relocated cfg hs (.moved, hs')

variable {slot : Nat} {prevs : List (Nat × Nat)} {hs₀ : State V}

/-- What is left of a chain when the map cannot grow. -/
theorem Chosen.restored (h : Chosen cfg hs₀ slot prevs hs) {hs' : State V}
    (hmap : hs'.map = (hs.exec [.inRh slot true]).map) :
    let hs'' := hs'.exec (.inRh slot false :: restoreStores slot none prevs.reverse)
    hs₀.map.Alike hs''.map ∧ ∀ s, hs''.map.inRh s = true → hs₀.map.inRh s = true := by
  obtain ⟨hc, hn, he, hw⟩ := h.mark.chooses_keep
  have hundone := h.undone
  dsimp only at hundone ⊢
  have hkind : Makes Store.Chooses hs'
      (hs'.exec (.inRh slot false :: restoreStores slot none prevs.reverse)) := by
    refine .exec fun st hst => ?_
    rw [List.mem_cons, mem_restoreStores] at hst
    rcases hst with rfl | ⟨s, -, rfl⟩ | ⟨s, n, -, rfl⟩ <;> trivial
  obtain ⟨hc', hn', he', hw'⟩ := hkind.chooses_keep
  rw [hmap] at hc' hn' he' hw'
  have hend : (hs'.exec (.inRh slot false :: restoreStores slot none prevs.reverse)).map =
      (hs.map.apply (.inRh slot true)).applyAll
        (.inRh slot false :: restoreStores slot none prevs.reverse) := by
    rw [exec_map, hmap]
    rfl
  refine ⟨⟨hc'.trans hc, hn'.trans hn, he'.trans he, ?_, hw'.trans hw⟩, ?_⟩
  · rw [hend, hundone.1]
  · rw [hend]
    exact hundone.2

theorem Chosen.relocated_grow (h : Chosen cfg hs₀ slot prevs hs) :
    Relocated cfg hs₀ ((hs.exec [.inRh slot true]).relocationGrow cfg slot prevs) := by
  obtain ⟨hc, -, he, -⟩ := h.mark.chooses_keep
  obtain ⟨stores, hstores, -⟩ := h.mark
  unfold relocationGrow
  have hgrown := grow_grown cfg (hs.exec [.inRh slot true])
    ((hs.exec [.inRh slot true]).map.capacity * 2)
  generalize (hs.exec [.inRh slot true]).grow cfg _ = r at hgrown ⊢
  have hwords := hgrown.words
  have hinRh := hgrown.inRh
  cases hgrown with
  | filled capacity m hs' fill map stores' =>
    refine .grown hs' ⟨hwords.trans (Map.words_congr he hc), stores ++ [.map m], ?_, ?_⟩
      (hinRh Bool.false_ne_true.symm.elim)
    · rw [stores', hstores, exec_stores, List.append_assoc]
    · exact fun hmap => (hmap m (by simp)).elim
  | failed hs' map stores' =>
    obtain ⟨halike, hrh⟩ := h.restored map
    have hst : (hs'.exec (.inRh slot false :: restoreStores slot none prevs.reverse)).stores =
        hs₀.stores ++ (stores ++ .inRh slot false :: restoreStores slot none prevs.reverse) := by
      rw [exec_stores, stores', hstores, exec_stores, List.append_assoc]
    exact .failed _ (.of_alike halike hst) hrh

theorem putRobinHood_relocated (cfg : Config V) (hs : State V) (slot : Nat) :
    Relocated cfg hs (hs.putRobinHood cfg slot) := by
  obtain ⟨slot', prevs, hs', hc, -, hend⟩ :=
    putRobinHoodLoop_ended cfg maxRh rfl (Chosen.start hs slot)
  unfold putRobinHood
  generalize putRobinHoodLoop cfg maxRh slot _ [] hs = r at hend ⊢
  cases hend with
  | grow => exact hc.relocated_grow
  | move behavior r empty =>
    refine .moved _ fun s hs => ?_
    obtain ⟨hin, hne, hnot⟩ := relocationMove_inRh hs
    simp only [exec_map, Map.applyAll_cons, Map.applyAll_nil, Map.apply,
      Function.update_of_ne hne] at hin
    exact (hc.marked s hin).resolve_right hnot

theorem markRh_minor (hs : State V) (slot : Option Nat) (value : Bool) :
    Makes Store.Minor hs (hs.markRh slot value) := by
  cases slot with
  | none => exact .refl hs
  | some s => exact .exec (by simp [Store.Minor])

theorem markRh_inRh {slot : Option Nat} {value : Bool} {s : Nat}
    (h : (hs.markRh slot value).map.inRh s = true) :
    slot = some s ∧ value = true ∨ slot ≠ some s ∧ hs.map.inRh s = true := by
  cases slot with
  | none => exact .inr ⟨nofun, h⟩
  | some t =>
    by_cases ht : s = t
    · subst ht
      simp only [markRh, exec_map, Map.applyAll_cons, Map.applyAll_nil, Map.apply,
        Function.update_self] at h
      exact .inl ⟨rfl, h⟩
    · simp only [markRh, exec_map, Map.applyAll_cons, Map.applyAll_nil, Map.apply,
        Function.update_of_ne ht] at h
      exact .inr ⟨fun he => ht (Option.some.inj he).symm, h⟩

theorem markRh_inRh_of_not {guard : Option Nat} (hs₁ : State V) {s : Nat}
    (hrh : ∀ s, hs.map.inRh s = true → (hs₁.markRh guard true).map.inRh s = true)
    (h : (hs.markRh guard false).map.inRh s = true) : hs₁.map.inRh s = true := by
  have hs := (markRh_inRh h).resolve_left fun h => Bool.noConfusion h.2
  exact ((markRh_inRh (hrh s hs.2)).resolve_left fun h => hs.1 h.1).2

/-- An installation leaves behind what its Robin Hood insertion does: the slot that is kept out of
it is marked for its time only. -/
theorem install_relocated (cfg : Config V) (hs : State V) (h : BitVec 64) (r : ProbeResult V)
    (insert : Word V) (guard : Option Nat) :
    Relocated cfg hs (hs.install cfg h r insert guard) := by
  unfold install
  have hbound : Makes Store.Minor hs (hs.exec (hs.map.boundSet cfg (hs.map.home h) r.nProbes)) :=
    .boundSet cfg hs _ _ (fun _ => trivial) fun _ => trivial
  have hrh : (hs.exec (hs.map.boundSet cfg (hs.map.home h) r.nProbes)).map.inRh = hs.map.inRh :=
    (Makes.boundSet cfg hs _ _ (fun _ => trivial) fun _ => trivial).inRh
  generalize hs.exec (hs.map.boundSet cfg (hs.map.home h) r.nProbes) = hs₁ at hbound hrh ⊢
  obtain ⟨slot, first, object, n⟩ := r
  cases first with
  | some first =>
    have hmark := hbound.trans (markRh_minor hs₁ guard true)
    have hreloc := putRobinHood_relocated cfg (hs₁.markRh guard true) first
    dsimp only
    generalize (hs₁.markRh guard true).putRobinHood cfg first = res at hreloc ⊢
    cases hreloc with
    | grown hs' keeps inRh => exact .grown hs' (hmark.keeps_of_minor.trans keeps) inRh
    | failed hs' keeps inRh =>
      refine .failed _ ((hmark.keeps_of_minor.trans keeps).trans
        (markRh_minor hs' guard false).keeps_of_minor) ?_
      intro s hs
      rw [← hrh]
      exact markRh_inRh_of_not hs₁ inRh hs
    | moved hs' inRh =>
      have hclear : ∀ s, (hs'.markRh guard false).map.inRh s = true → hs.map.inRh s = true := by
        intro s hs
        rw [← hrh]
        exact markRh_inRh_of_not hs₁ inRh hs
      dsimp only
      generalize hs'.markRh guard false = hs₂ at hclear ⊢
      generalize hs₃ : hs₂.exec [.entry first (some insert), .probes first n] = hs₃'
      have hquiet : Makes Store.Quiet hs₂ (addWanted cfg hs₃' first none (hs₃'.map.home h)) := by
        rw [← hs₃]
        exact .trans (.exec (by simp [Store.Quiet]))
          ((addWanted_makes cfg _ _ _ _).mono fun _ => Store.IsWanted.quiet)
      generalize addWanted cfg hs₃' first none (hs₃'.map.home h) = hs₄ at hquiet ⊢
      split
      · refine .moved _ fun s hs => hclear s ?_
        rw [(doBackwardShiftDelete_quiet cfg _ _).inRh] at hs
        rwa [← hquiet.inRh]
      · refine .moved _ fun s hs => hclear s ?_
        rwa [← hquiet.inRh]
  | none =>
    cases slot with
    | none => exact .failed _ hbound.keeps_of_minor fun s hs => by rwa [← hrh]
    | some slot =>
      have hquiet : Makes Store.Quiet hs₁ (hs₁.exec [.entry slot (some insert), .probes slot n]) :=
        .exec (by simp [Store.Quiet])
      refine .moved _ fun s hs => ?_
      rw [← hrh, ← hquiet.inRh]
      split at hs
      · exact hs
      · rwa [addWanted_inRh] at hs

theorem inRh_clear (h : ∀ s, hs.map.inRh s = false)
    (hsub : ∀ s, hs'.map.inRh s = true → hs.map.inRh s = true) : ∀ s, hs'.map.inRh s = false := by
  intro s
  refine Bool.eq_false_of_not_eq_true fun hs => ?_
  exact Bool.noConfusion ((h s).symm.trans (hsub s hs))

theorem postinsert_inRh (h : ∀ s, hs.map.inRh s = false) :
    ∀ s, (hs.postinsert cfg).map.inRh s = false := by
  unfold postinsert
  dsimp only
  split
  · exact (grow_grown cfg _ _).inRh fun _ => h
  · exact h

/-! ## The loops -/

/-- What a call leaves behind that returns `ok`. -/
structure Completed (hs : State V) (ok : Bool) (hs' : State V) : Prop where
  keeps : ok = false → Keeps hs hs'
  inRh : ∀ s, hs'.map.inRh s = false

namespace Completed

variable {ok : Bool}

theorem succeeded (h : ∀ s, hs'.map.inRh s = false) : Completed hs true hs' := ⟨nofun, h⟩

theorem failed (h : Keeps hs hs') (hr : ∀ s, hs'.map.inRh s = false) : Completed hs false hs' :=
  ⟨fun _ => h, hr⟩

/-- A call that has grown the map goes on as another one. -/
theorem restart {hs₁ : State V} (h : Completed hs₁ ok hs') (hk : Keeps hs hs₁) :
    Completed hs ok hs' :=
  ⟨fun hok => hk.trans (h.keeps hok), h.inRh⟩

end Completed

variable [DecidableEq V] {h : BitVec 64} {key : V} {fuel : Nat}

theorem putInternal_completed {behavior : ProbeBehavior} {ok : Bool}
    (hr : ∀ s, hs.map.inRh s = false)
    (hput : putInternal cfg h key behavior fuel hs = .ok (ok, hs')) : Completed hs ok hs' := by
  induction fuel generalizing hs with
  | zero => cases hput
  | succ fuel ih =>
    rw [putInternal] at hput
    split at hput
    · have hgrown := grow_grown cfg hs (hs.map.capacity * 2)
      have hclear := hgrown.inRh fun _ => hr
      generalize hs.grow cfg (hs.map.capacity * 2) = res at hgrown hclear hput
      obtain ⟨_ | _, hs₁⟩ := res
      · cases hput
        exact .failed hgrown.keeps hclear
      · exact (ih hclear hput).restart hgrown.keeps
    split at hput
    · cases hput
      exact .failed (.of_alike (.refl _) (List.append_nil _).symm) hr
    · have hinstall := install_relocated cfg hs h
        (hs.map.probe cfg h key hs.map.probeLimit behavior) (cfg.marshal key h) none
      generalize hs.install cfg h _ _ none = res at hinstall hput
      cases hinstall with
      | grown hs₁ keeps inRh => exact (ih inRh hput).restart keeps
      | failed hs₁ keeps inRh =>
        cases hput
        exact .failed keeps (inRh_clear hr inRh)
      | moved hs₁ inRh =>
        cases hput
        exact .succeeded (postinsert_inRh (inRh_clear hr inRh))

theorem setLoop_completed {r : Bool × Option V} (hr : ∀ s, hs.map.inRh s = false)
    (hset : setLoop cfg h key fuel hs = .ok (r, hs')) : Completed hs r.1 hs' := by
  induction fuel generalizing hs with
  | zero => cases hset
  | succ fuel ih =>
    rw [setLoop] at hset
    split at hset
    · have hgrown := grow_grown cfg hs (hs.map.capacity * 2)
      have hclear := hgrown.inRh fun _ => hr
      generalize hs.grow cfg (hs.map.capacity * 2) = res at hgrown hclear hset
      obtain ⟨_ | _, hs₁⟩ := res
      · cases hset
        exact .failed hgrown.keeps hclear
      · exact (ih hclear hset).restart hgrown.keeps
    · generalize hs.map.probe cfg h key hs.map.probeLimit .insert = r' at hset
      have hinstall := install_relocated cfg hs h r' (cfg.marshal key h) r'.slot
      generalize hs.install cfg h _ _ r'.slot = res at hinstall hset
      cases hinstall with
      | grown hs₁ keeps inRh => exact (ih inRh hset).restart keeps
      | failed hs₁ keeps inRh =>
        cases hset
        exact .failed keeps (inRh_clear hr inRh)
      | moved hs₁ inRh =>
        have hclear := inRh_clear hr inRh
        cases hset
        refine .succeeded ?_
        split
        · exact hclear
        · exact postinsert_inRh hclear

theorem applyLoop_completed {fn : Option V → Option V} {delta : Option (Option V)} {ok : Bool}
    (hr : ∀ s, hs.map.inRh s = false)
    (happly : applyLoop cfg h key fn fuel delta hs = .ok (ok, hs')) : Completed hs ok hs' := by
  induction fuel generalizing hs delta with
  | zero => cases happly
  | succ fuel ih =>
    rw [applyLoop] at happly
    split at happly
    · have hgrown := grow_grown cfg hs (hs.map.capacity * 2)
      have hclear := hgrown.inRh fun _ => hr
      generalize hs.grow cfg (hs.map.capacity * 2) = res at hgrown hclear happly
      obtain ⟨_ | _, hs₁⟩ := res
      · cases happly
        exact .failed hgrown.keeps hclear
      · exact (ih hclear happly).restart hgrown.keeps
    · generalize hs.map.probe cfg h key hs.map.probeLimit .insert = r' at happly
      dsimp only at happly
      split at happly
      · -- the apply function has asked for a deletion
        split at happly
        · cases happly
          exact .succeeded fun s => by rw [(doBackwardShiftDelete_quiet cfg _ _).inRh, hr]
        · cases happly
          exact .succeeded hr
      · rename_i insert _
        split at happly
        · cases happly
          exact .succeeded hr
        have hinstall := install_relocated cfg hs h r' (cfg.marshal insert h) r'.slot
        generalize hs.install cfg h _ _ r'.slot = res at hinstall happly
        cases hinstall with
        | grown hs₁ keeps inRh => exact (ih inRh happly).restart keeps
        | failed hs₁ keeps inRh =>
          cases happly
          exact .failed keeps (inRh_clear hr inRh)
        | moved hs₁ inRh =>
          have hclear := inRh_clear hr inRh
          cases happly
          refine .succeeded ?_
          split
          · exact hclear
          · exact postinsert_inRh hclear

theorem fasLoop_completed {r : Bool × Option V} (hr : ∀ s, hs.map.inRh s = false)
    (hfas : fasLoop cfg h key fuel hs = .ok (r, hs')) : Completed hs r.1 hs' := by
  induction fuel generalizing hs with
  | zero => cases hfas
  | succ fuel ih =>
    rw [fasLoop] at hfas
    generalize hs.map.probe cfg h key _ .probe = r' at hfas
    dsimp only at hfas
    split at hfas
    · rename_i slot _ _
      split at hfas
      · rename_i first _
        have hmark := markRh_minor hs (some slot) true
        have hreloc := putRobinHood_relocated cfg (hs.markRh (some slot) true) first
        generalize (hs.markRh (some slot) true).putRobinHood cfg first = res at hreloc hfas
        cases hreloc with
        | grown hs₁ keeps inRh => exact (ih inRh hfas).restart (hmark.keeps_of_minor.trans keeps)
        | failed hs₁ keeps inRh =>
          cases hfas
          exact .failed ((hmark.keeps_of_minor.trans keeps).trans
            (markRh_minor hs₁ (some slot) false).keeps_of_minor)
            (inRh_clear hr fun s => markRh_inRh_of_not hs inRh)
        | moved hs₁ inRh =>
          have hclear : ∀ s, (hs₁.markRh (some slot) false).map.inRh s = false :=
            inRh_clear hr fun s => markRh_inRh_of_not hs inRh
          cases hfas
          refine .succeeded fun s => ?_
          rw [(doBackwardShiftDelete_quiet cfg _ _).inRh, addWanted_inRh]
          exact hclear s
      · cases hfas
        exact .succeeded hr
    · cases hfas
      exact .failed (.of_alike (.refl _) (List.append_nil _).symm) hr

omit [DecidableEq V] in
theorem loadLoop_inRh {ok : Bool} (hr : ∀ s, hs.map.inRh s = false)
    (hload : loadLoop cfg fuel hs = .ok (ok, hs')) : ∀ s, hs'.map.inRh s = false := by
  induction fuel generalizing hs with
  | zero => cases hload
  | succ fuel ih =>
    rw [loadLoop] at hload
    split at hload
    · have hclear := (grow_grown cfg hs (hs.map.capacity * 2)).inRh fun _ => hr
      generalize hs.grow cfg (hs.map.capacity * 2) = res at hclear hload
      obtain ⟨_ | _, hs₁⟩ := res
      · cases hload
        exact hclear
      · exact ih hclear hload
    · cases hload
      exact hr

theorem remove_inRh (h : BitVec 64) (key : V) (hr : ∀ s, hs.map.inRh s = false) :
    ∀ s, (hs.remove cfg h key).2.map.inRh s = false := by
  unfold remove
  dsimp only
  split
  · intro s
    rw [(doBackwardShiftDelete_quiet cfg _ _).inRh]
    exact hr s
  · exact hr

omit [DecidableEq V] in
theorem reset_inRh (hr : ∀ s, hs.map.inRh s = false) :
    ∀ s, (hs.reset cfg).2.map.inRh s = false := by
  unfold reset create
  by_cases hmalloc : cfg.malloc hs.allocs = true
  · simp only [hmalloc, if_true]
    exact fun _ => rfl
  · simp only [hmalloc, Bool.false_eq_true, if_false]
    exact hr

end State

/-! ## Calls -/

/-- The call is one of those that change stored objects and may need memory for it. -/
def Op.Modifies : Op V → Prop
  | .put _ | .putUnique _ | .set _ | .fas _ | .apply _ _ => True
  | _ => False

theorem bind_eq_ok {ε α β : Type} {x : Except ε α} {f : α → Except ε β} {b : β} :
    x >>= f = .ok b ↔ ∃ a, x = .ok a ∧ f a = .ok b := by
  cases x with
  | error e => exact ⟨nofun, fun ⟨_, h, _⟩ => nomatch h⟩
  | ok a => exact ⟨fun h => ⟨a, rfl, h⟩, fun ⟨_, h, h'⟩ => by cases h; exact h'⟩

variable [DecidableEq V] {cfg : Config V} {hs hs' : State V}

open State in
/-- What a call leaves behind. -/
theorem step_completed {op : Op V} {r : Result V} (hr : ∀ s, hs.map.inRh s = false)
    (hstep : step cfg hs op = .ok (r, hs')) :
    (op.Modifies → r.ok = false → Keeps hs hs') ∧ ∀ s, hs'.map.inRh s = false := by
  have hdone {ok : Bool} (h : Completed hs ok hs') (hok : r.ok = ok) :
      (op.Modifies → r.ok = false → Keeps hs hs') ∧ ∀ s, hs'.map.inRh s = false :=
    ⟨fun _ hf => h.keeps (hok ▸ hf), h.inRh⟩
  cases op with
  | put key | putUnique key =>
    obtain ⟨⟨ok, hs₁⟩, hput, he⟩ := bind_eq_ok.mp hstep
    cases he
    exact hdone (putInternal_completed hr hput) rfl
  | set key =>
    obtain ⟨⟨ok, hs₁⟩, hset, he⟩ := bind_eq_ok.mp hstep
    cases he
    exact hdone (setLoop_completed hr hset) rfl
  | fas key =>
    obtain ⟨⟨ok, hs₁⟩, hfas, he⟩ := bind_eq_ok.mp hstep
    cases he
    exact hdone (fasLoop_completed hr hfas) rfl
  | apply key fn =>
    obtain ⟨⟨ok, hs₁⟩, happly, he⟩ := bind_eq_ok.mp hstep
    cases he
    exact hdone (applyLoop_completed hr happly) rfl
  | remove key =>
    cases hstep
    exact ⟨fun h => h.elim, remove_inRh _ key hr⟩
  | get key =>
    cases hstep
    exact ⟨fun h => h.elim, hr⟩
  | grow capacity =>
    cases hstep
    exact ⟨fun h => h.elim, (grow_grown cfg hs capacity).inRh fun _ => hr⟩
  | rebuild =>
    cases hstep
    exact ⟨fun h => h.elim, (grow_grown cfg hs hs.map.capacity).inRh fun _ => hr⟩
  | gc =>
    cases hstep
    exact ⟨fun h => h.elim, hr⟩
  | setLoadFactor loadFactor =>
    obtain ⟨⟨ok, hs₁⟩, hload, he⟩ := bind_eq_ok.mp hstep
    cases he
    refine ⟨fun h => h.elim, ?_⟩
    unfold setLoadFactor at hload
    split at hload
    · cases hload
      exact hr
    · refine loadLoop_inRh ?_ hload
      exact hr
  | reset =>
    cases hstep
    exact ⟨fun h => h.elim, reset_inRh hr⟩

theorem run_inRh {ops : List (Op V)} {rs : List (Result V)} (hr : ∀ s, hs.map.inRh s = false)
    (hrun : run cfg hs ops = .ok (rs, hs')) : ∀ s, hs'.map.inRh s = false := by
  induction ops generalizing hs rs with
  | nil =>
    cases hrun
    exact hr
  | cons op ops ih =>
    obtain ⟨⟨r, hs₁⟩, hstep, hrest⟩ := bind_eq_ok.mp hrun
    obtain ⟨⟨rs₁, hs₂⟩, hrun₁, he⟩ := bind_eq_ok.mp hrest
    cases he
    exact ih (step_completed hr hstep).2 hrun₁

/-- A call that changes the stored objects and returns `false` leaves them as they were. If no map
has been published in the call, it leaves the number of entries and the entry, the probe count and
the counter of passing entries of every slot as they were. After every call no slot is marked for a
Robin Hood insertion. -/
theorem failed_call_undone {entries : Nat} {hs₀ : State V} (hinit : init cfg entries = some hs₀)
    {ops : List (Op V)} {rs : List (Result V)} (hrun : run cfg hs₀ ops = .ok (rs, hs)) {op : Op V}
    {r : Result V} (hstep : step cfg hs op = .ok (r, hs')) :
    (op.Modifies → r.ok = false →
      hs'.map.objects = hs.map.objects ∧
        ∃ stores, hs'.stores = hs.stores ++ stores ∧
          ((∀ m, Store.map m ∉ stores) →
            hs'.map.nEntries = hs.map.nEntries ∧
              ∀ s, hs'.map.entries s = hs.map.entries s ∧ hs'.map.probes s = hs.map.probes s ∧
                hs'.map.wanted s = hs.map.wanted s)) ∧
      ∀ s, hs'.map.inRh s = false := by
  have hr₀ : ∀ s, hs₀.map.inRh s = false := by
    unfold init at hinit
    split at hinit
    · cases hinit
      exact fun _ => rfl
    · cases hinit
  obtain ⟨hkeeps, hclear⟩ := step_completed (run_inRh hr₀ hrun) hstep
  refine ⟨fun hop hok => ?_, hclear⟩
  obtain ⟨hwords, stores, hstores, halike⟩ := hkeeps hop hok
  refine ⟨congrArg (Set.image Word.obj) hwords, stores, hstores, fun hmap => ?_⟩
  have h := halike hmap
  exact ⟨h.nEntries, fun s => ⟨by rw [h.entries], by rw [h.probes], by rw [h.wanted]⟩⟩

/-- A set of numbers that hash to themselves, with memory for one map only. -/
def oneMap : Config Nat where
  hf v := BitVec.ofNat 64 v
  compare := none
  vmaBits := none
  readMostly := false
  malloc n := n == 0
  restarts := 8

/-- The map of eight slots is full, and a ninth number is not stored. -/
theorem failed_call_undone_full :
    ∃ hs₀ rs hs r hs', init oneMap 8 = some hs₀ ∧
      run oneMap hs₀ ((List.range 8).map .put) = .ok (rs, hs) ∧
      step oneMap hs (.put 8) = .ok (r, hs') ∧ r.ok = false ∧
      hs'.map.objects = hs.map.objects ∧ ∀ s, hs'.map.inRh s = false := by
  have hret : ((init oneMap 8).map fun hs₀ =>
      ((run oneMap hs₀ ((List.range 8).map .put) >>= fun p =>
        step oneMap p.2 (.put 8)).toOption.map fun q => q.1.ok)) = some (some false) := by
    decide +kernel
  obtain ⟨hs₀, hinit, hret⟩ := Option.map_eq_some_iff.mp hret
  obtain ⟨⟨r, hs'⟩, hcalls, hok⟩ := Option.map_eq_some_iff.mp hret
  generalize hx : (run oneMap hs₀ ((List.range 8).map .put) >>= fun p =>
    step oneMap p.2 (.put 8)) = x at hcalls
  cases x with
  | error e => cases hcalls
  | ok q =>
    cases hcalls
    obtain ⟨⟨rs, hs⟩, hrun, hstep⟩ := bind_eq_ok.mp hx
    obtain ⟨hundone, hclear⟩ := failed_call_undone hinit hrun hstep
    exact ⟨hs₀, rs, hs, r, hs', hinit, hrun, hstep, hok, (hundone trivial hok).1, hclear⟩

end ConcurrencyKit.Rhs
