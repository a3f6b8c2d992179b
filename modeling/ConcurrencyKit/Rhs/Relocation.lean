import ConcurrencyKit.Rhs.Grow
import ConcurrencyKit.Rhs.Probe

/-!
# Robin Hood insertion and its undoing

`ck_rhs_put_robin_hood` chooses a chain of slots before it moves an entry: it marks the slots it
has chosen and gives each the probe count of the entry that is to come. When there is no slot for
the last entry and the map cannot grow, the probe counts are restored and the marks are cleared.
-/

namespace ConcurrencyKit.Rhs

variable {V : Type}

namespace Map

variable {cfg : Config V} {m : Map V}

/-- A slot is picked for a Robin Hood insertion if the probe is to do so and the slot is in use and
not marked. -/
theorem probeLoop_first {hit : Word V → Bool} {opl fuel offset probes limit f : Nat}
    {behavior : ProbeBehavior} {pr : Option (Nat × Nat)}
    (h : (probeLoop cfg m hit opl behavior fuel offset probes limit pr).first = some f) :
    pr.map Prod.fst = some f ∨
      behavior.picks = true ∧ m.inRh f = false ∧ m.entries f ≠ none := by
  induction fuel generalizing offset probes limit pr with
  | zero => exact .inl h
  | succ fuel ih =>
    rw [probeLoop] at h
    split at h
    · exact .inl h
    dsimp only at h
    split at h
    · exact .inl h
    rename_i w hw
    -- the slot is picked now or has been picked before
    generalize hpick : m.picked behavior offset (probes + 1) pr = pick at h
    have hpr : (if pick = true then some (offset, probes + 1) else pr).map Prod.fst = some f →
        pr.map Prod.fst = some f ∨
          behavior.picks = true ∧ m.inRh f = false ∧ m.entries f ≠ none := by
      cases pick with
      | false => exact .inl
      | true =>
        intro hf
        cases hf
        simp only [picked, Bool.and_eq_true, Bool.not_eq_true'] at hpick
        exact .inr ⟨hpick.1.1.1, hpick.1.2, by rw [hw]; exact Option.some_ne_none _⟩
    split at h
    · exact hpr h
    split at h
    · exact hpr h
    · exact (ih h).elim hpr .inr

/-- The probe for room for the entry in `prev` gets to `slot` with `n` probes. -/
def Leads (cfg : Config V) (m : Map V) (prev slot n : Nat) : Prop :=
  ∀ home, 0 < m.probes prev → m.slotAt cfg home (m.probes prev - 1) = prev →
    ∃ k, n = k + 1 ∧ m.probes prev ≤ k ∧ m.slotAt cfg home k = slot ∧
      ∀ j, m.probes prev ≤ j → j < k → m.entries (m.slotAt cfg home j) ≠ none

theorem probeFrom_leads {m₀ : Map V} (hc : m.capacity = m₀.capacity) (he : m.entries = m₀.entries)
    {prev slot : Nat} {behavior : ProbeBehavior}
    (h : (m.probeFrom cfg prev (m₀.probes prev) behavior).first = some slot ∨
      (m.probeFrom cfg prev (m₀.probes prev) behavior).first = none ∧
        (m.probeFrom cfg prev (m₀.probes prev) behavior).slot = some slot) :
    m₀.Leads cfg prev slot (m.probeFrom cfg prev (m₀.probes prev) behavior).nProbes := by
  intro home hpos hslot
  have hat : ∀ k, m.slotAt cfg home k = m₀.slotAt cfg home k := by
    intro k
    rw [slotAt, slotAt, hc]
  have hfound := probeFrom_found behavior hpos ((hat _).trans hslot)
  have hbusy : ∀ {k}, m.Busy cfg (fun _ => false) home (m₀.probes prev) k →
      ∀ j, m₀.probes prev ≤ j → j < k → m₀.entries (m₀.slotAt cfg home j) ≠ none := by
    intro k hbusy j hj hjk
    obtain ⟨w, hw, -⟩ := hbusy j hj hjk
    rw [← hat, ← he, hw]
    exact nofun
  rcases h with hfirst | ⟨hfirst, hend⟩
  · obtain ⟨k, hn, hpick⟩ := hfound.picked rfl slot hfirst
    exact ⟨k, hn, hpick.start, (hat k).symm.trans hpick.slot, hbusy hpick.busy⟩
  · obtain ⟨k, hend, hn⟩ := hfound.ends slot hend
    exact ⟨k, (hn rfl).2 hfirst, hend.start, (hat k).symm.trans hend.slot, hbusy hend.busy⟩

end Map

namespace State

variable (cfg : Config V)

/-- The slots of a chain, from `slot` back, each with the probe count it had. -/
def olds : Nat → List (Nat × Nat) → List (Nat × Nat)
  | _, [] => []
  | slot, (prev, probes) :: prevs => (slot, probes) :: olds prev prevs

theorem olds_fst {slot s n : Nat} {prevs : List (Nat × Nat)} (h : (s, n) ∈ olds slot prevs) :
    s = slot ∨ s ∈ prevs.map Prod.fst := by
  induction prevs generalizing slot with
  | nil => cases h
  | cons p prevs ih =>
    rw [olds, List.mem_cons] at h
    rw [List.map_cons, List.mem_cons]
    rcases h with h | h
    · exact .inl (congrArg Prod.fst h)
    · exact .inr (ih h)

/-- Every slot of a chain is one to which the entry in the slot before may be moved. -/
def Linked (m : Map V) (probes : Nat → Nat) : Nat → List (Nat × Nat) → Prop
  | _, [] => True
  | slot, (prev, _) :: prevs => m.Leads cfg prev slot (probes slot) ∧ Linked m probes prev prevs

variable {cfg} in
theorem Linked.congr {m : Map V} {probes probes' : Nat → Nat} {slot : Nat}
    {prevs : List (Nat × Nat)}
    (h : Linked cfg m probes slot prevs)
    (hp : ∀ s ∈ slot :: prevs.map Prod.fst, probes' s = probes s) :
    Linked cfg m probes' slot prevs := by
  induction prevs generalizing slot with
  | nil => trivial
  | cons p prevs ih =>
    rw [List.map_cons, List.forall_mem_cons] at hp
    exact ⟨by rw [hp.1]; exact h.1, ih h.2 hp.2⟩

/-- The state of the loop of `ck_rhs_put_robin_hood` that has chosen `slot` after `prevs`, in a set
that was in state `hs₀`: only the probe counts and the marks of the chosen slots have changed, and
what was there is at hand. -/
structure Chosen (hs₀ : State V) (slot : Nat) (prevs : List (Nat × Nat)) (hs : State V) : Prop where
  makes : Makes Store.Chooses hs₀ hs
  nodup : (slot :: prevs.map Prod.fst).Nodup
  used : ∀ s ∈ slot :: prevs.map Prod.fst,
    s = (prevs.map Prod.fst).getLastD slot ∨ hs₀.map.entries s ≠ none
  linked : Linked cfg hs₀.map hs.map.probes slot prevs
  bound : (∀ s, hs₀.map.probes s ≤ hs₀.map.probeMaximum) →
    ∀ s, hs.map.probes s ≤ hs.map.probeMaximum
  marked : ∀ s, hs.map.inRh s = true → hs₀.map.inRh s = true ∨ s ∈ prevs.map Prod.fst
  chosen : ∀ s ∈ prevs.map Prod.fst, hs.map.inRh s = true
  olds : ∀ s n, (s, n) ∈ olds slot prevs → hs₀.map.probes s = n
  probes : ∀ s, (∀ n, (s, n) ∉ State.olds slot prevs) → hs.map.probes s = hs₀.map.probes s

variable {cfg} {hs₀ hs : State V} {slot : Nat} {prevs : List (Nat × Nat)}

theorem Chosen.start (hs : State V) (slot : Nat) : Chosen cfg hs slot [] hs where
  makes := .refl hs
  nodup := List.nodup_singleton slot
  used := fun _ hs => .inl (List.mem_singleton.mp hs)
  linked := trivial
  bound := id
  marked := fun _ => .inl
  chosen := nofun
  olds := nofun
  probes := fun _ _ => rfl

/-- The state after `first` has been chosen for an entry that is found there with `n` probes. -/
def choose (cfg : Config V) (hs : State V) (slot first home n : Nat) : State V :=
  let hs := hs.exec [.inRh slot true]
  hs.exec (.probes first n :: hs.map.boundSet cfg home n)

theorem choose_map (cfg : Config V) (hs : State V) (slot first home n : Nat) :
    (hs.choose cfg slot first home n).map =
      let m := (hs.map.apply (.inRh slot true)).apply (.probes first n)
      m.applyAll (m.boundSet cfg home n) := rfl

theorem Chosen.mark (h : Chosen cfg hs₀ slot prevs hs) :
    Makes Store.Chooses hs₀ (hs.exec [.inRh slot true]) :=
  h.makes.trans (.exec (by simp [Store.Chooses]))

/-- A slot that is not marked has not been chosen. -/
theorem Chosen.fresh (h : Chosen cfg hs₀ slot prevs hs) {first : Nat}
    (hfirst : (hs.exec [.inRh slot true]).map.inRh first = false) :
    first ≠ slot ∧ first ∉ prevs.map Prod.fst := by
  have hslot : first ≠ slot := by
    rintro rfl
    simp [Map.apply] at hfirst
  refine ⟨hslot, fun hmem => ?_⟩
  have := h.chosen first hmem
  simp [Map.apply, Function.update_of_ne hslot, this] at hfirst

theorem Chosen.probes_of_fresh (h : Chosen cfg hs₀ slot prevs hs) {first : Nat}
    (hslot : first ≠ slot)
    (hprev : first ∉ prevs.map Prod.fst) : hs.map.probes first = hs₀.map.probes first :=
  h.probes first fun _ hk => (olds_fst hk).elim hslot hprev

/-- The next slot of a chain is one that has not been chosen. -/
theorem Chosen.next (h : Chosen cfg hs₀ slot prevs hs) {first home n : Nat} (hslot : first ≠ slot)
    (hprev : first ∉ prevs.map Prod.fst) (hused : hs₀.map.entries first ≠ none)
    (hleads : hs₀.map.Leads cfg slot first n) :
    Chosen cfg hs₀ first ((slot, hs.map.probes first) :: prevs)
      (hs.choose cfg slot first home n) := by
  have hmap := choose_map cfg hs slot first home n
  dsimp only at hmap
  rw [Map.applyAll_boundSet] at hmap
  have hrh : (hs.choose cfg slot first home n).map.inRh =
      Function.update hs.map.inRh slot true := by rw [hmap]; rfl
  have hprobes : (hs.choose cfg slot first home n).map.probes =
      Function.update hs.map.probes first n := by rw [hmap]; rfl
  have hmax : (hs.choose cfg slot first home n).map.probeMaximum =
      max hs.map.probeMaximum n := by rw [hmap]; rfl
  have hold := h.probes_of_fresh hslot hprev
  refine ⟨h.makes.trans ?_, ?_, ?_, ⟨?_, ?_⟩, ?_, ?_, ?_, ?_, ?_⟩
  · unfold choose
    refine Makes.trans (.exec (by simp [Store.Chooses])) (.exec ?_)
    intro s hs
    rcases List.mem_cons.mp hs with rfl | hs
    · trivial
    · obtain ⟨k, rfl | rfl⟩ := Map.boundSet_kind cfg _ _ _ s hs <;> trivial
  · refine List.nodup_cons.mpr ⟨?_, h.nodup⟩
    rw [List.map_cons, List.mem_cons, not_or]
    exact ⟨hslot, hprev⟩
  · rw [List.map_cons, List.getLastD_cons]
    intro s hs
    rcases List.mem_cons.mp hs with rfl | hs
    · exact .inr hused
    · exact h.used s hs
  · rw [hprobes, Function.update_self]
    exact hleads
  · refine h.linked.congr fun s hs => ?_
    rw [hprobes, Function.update_of_ne]
    rintro rfl
    rw [List.mem_cons] at hs
    exact hs.elim hslot hprev
  · intro hbound s
    rw [hprobes, hmax]
    by_cases hs : s = first
    · rw [hs, Function.update_self]
      exact le_max_right _ _
    · rw [Function.update_of_ne hs]
      exact (h.bound hbound s).trans (le_max_left _ _)
  · intro s hs
    rw [hrh] at hs
    rw [List.map_cons, List.mem_cons]
    by_cases hss : s = slot
    · exact .inr (.inl hss)
    · rw [Function.update_of_ne hss] at hs
      exact (h.marked s hs).imp_right .inr
  · intro s hs
    rw [hrh]
    by_cases hss : s = slot
    · rw [hss, Function.update_self]
    · rw [Function.update_of_ne hss]
      rw [List.map_cons, List.mem_cons] at hs
      exact h.chosen s (hs.resolve_left hss)
  · intro s k hk
    rw [State.olds, List.mem_cons] at hk
    rcases hk with hk | hk
    · cases hk
      exact hold.symm
    · exact h.olds s k hk
  · intro s hs
    simp only [State.olds, List.mem_cons, not_or] at hs
    have hne : s ≠ first := by
      rintro rfl
      exact (hs (hs₀.map.probes s)).1 (by rw [hold])
    rw [hprobes, Function.update_of_ne hne]
    exact h.probes s fun k => (hs k).2

/-! ## Giving up -/

theorem restoreStores_append (last : Nat) (old : Option Nat) (prevs : List (Nat × Nat))
    (prev probes : Nat) :
    restoreStores last old (prevs ++ [(prev, probes)]) =
      restoreStores (V := V) prev old prevs ++ [.inRh prev false, .probes last probes] := by
  induction prevs generalizing old with
  | nil => simp [restoreStores]
  | cons p prevs ih =>
    obtain ⟨q, n⟩ := p
    simp only [List.cons_append, restoreStores, ih]
    simp

/-- The stores that undo a chain restore a probe count or clear a mark, for every chosen slot. -/
theorem mem_restoreStores {slot : Nat} {prevs : List (Nat × Nat)} {st : Store V} :
    st ∈ restoreStores slot none prevs.reverse ↔
      (∃ s ∈ prevs.map Prod.fst, st = .inRh s false) ∨
        ∃ s n, (s, n) ∈ olds slot prevs ∧ st = .probes s n := by
  induction prevs generalizing slot with
  | nil => simp [restoreStores, olds]
  | cons p prevs ih =>
    obtain ⟨prev, probes⟩ := p
    rw [List.reverse_cons, restoreStores_append, List.mem_append, ih]
    simp only [olds, List.mem_cons, List.map_cons, List.not_mem_nil, or_false, Prod.mk.injEq,
      exists_eq_or_imp]
    constructor
    · rintro ((⟨s, hs, rfl⟩ | ⟨s, n, hs, rfl⟩) | rfl | rfl)
      · exact .inl (.inr ⟨s, hs, rfl⟩)
      · exact .inr ⟨s, n, .inr hs, rfl⟩
      · exact .inl (.inl rfl)
      · exact .inr ⟨slot, probes, .inl ⟨rfl, rfl⟩, rfl⟩
    · rintro ((rfl | ⟨s, hs, rfl⟩) | ⟨s, n, ⟨rfl, rfl⟩ | hs, rfl⟩)
      · exact .inr (.inl rfl)
      · exact .inl (.inl ⟨s, hs, rfl⟩)
      · exact .inr (.inr rfl)
      · exact .inl (.inr ⟨s, n, hs, rfl⟩)

end State

/-- What is restored after a slot has been chosen in vain. -/
theorem Map.undo {stores : List (Store V)} {f : Nat → Nat}
    (h : ∀ st ∈ stores, (∃ s, st = .inRh s false) ∨ ∃ s, st = .probes s (f s)) (m : Map V) :
    (∀ s, m.probes s = f s ∨ .probes s (f s) ∈ stores → (m.applyAll stores).probes s = f s) ∧
      ∀ s, (m.applyAll stores).inRh s = true → m.inRh s = true ∧ .inRh s false ∉ stores := by
  induction stores generalizing m with
  | nil => simp
  | cons st stores ih =>
    rw [List.forall_mem_cons] at h
    obtain ⟨hst, h⟩ := h
    obtain ⟨hp, hr⟩ := ih h (m.apply st)
    rw [applyAll_cons]
    rcases hst with ⟨t, rfl⟩ | ⟨t, rfl⟩
    · constructor
      · intro s hs
        refine hp s (hs.imp_right fun hs => ?_)
        simpa using hs
      · intro s hs
        obtain ⟨hin, hnot⟩ := hr s hs
        by_cases hst : s = t
        · simp [Map.apply, hst] at hin
        · simp only [Map.apply, Function.update_of_ne hst] at hin
          simp [hin, hnot, hst]
    · constructor
      · intro s hs
        refine hp s ?_
        by_cases hst : s = t
        · simp [Map.apply, hst]
        · simp only [Map.apply, Function.update_of_ne hst]
          refine hs.imp_right fun hs => ?_
          simpa [hst] using hs
      · intro s hs
        obtain ⟨hin, hnot⟩ := hr s hs
        exact ⟨hin, by simp [hnot]⟩

namespace State

variable {cfg : Config V} {hs₀ hs : State V} {slot : Nat} {prevs : List (Nat × Nat)}

theorem addWanted_inRh (cfg : Config V) (hs : State V) (last : Nat) (old : Option Nat)
    (home : Nat) : (hs.addWanted cfg last old home).map.inRh = hs.map.inRh :=
  ((addWanted_makes cfg hs last old home).mono fun _ => Store.IsWanted.quiet).inRh

/-- The marks that are left when the entries of a chain have been moved. -/
theorem shiftChain_inRh {s : Nat} (h : (shiftChain cfg prevs slot hs).map.inRh s = true) :
    hs.map.inRh s = true ∧ s ≠ slot ∧ s ∉ prevs.map Prod.fst := by
  have hclear {m : Map V} {s slot : Nat} (h : (m.apply (.inRh slot false)).inRh s = true) :
      m.inRh s = true ∧ s ≠ slot := by
    by_cases hs : s = slot
    · simp [Map.apply, hs] at h
    · exact ⟨by simpa [Map.apply, Function.update_of_ne hs] using h, hs⟩
  induction prevs generalizing slot hs with
  | nil =>
    obtain ⟨hin, hne⟩ := hclear h
    exact ⟨hin, hne, List.not_mem_nil⟩
  | cons p prevs ih =>
    obtain ⟨prev, n⟩ := p
    rw [shiftChain] at h
    obtain ⟨hin, hne, hnot⟩ := ih h
    obtain ⟨hin, hne'⟩ := hclear hin
    have hin' : (hs.exec [.entry slot (hs.map.entries prev)]).map.inRh s = true := by
      rw [← addWanted_inRh cfg]
      exact hin
    refine ⟨hin', hne', ?_⟩
    rw [List.map_cons, List.mem_cons, not_or]
    exact ⟨hne, hnot⟩

theorem relocationMove_inRh {s empty n : Nat}
    (h : (hs.relocationMove cfg slot empty n prevs).map.inRh s = true) :
    hs.map.inRh s = true ∧ s ≠ slot ∧ s ∉ prevs.map Prod.fst := by
  unfold relocationMove at h
  dsimp only at h
  obtain ⟨hin, hne, hnot⟩ := shiftChain_inRh h
  refine ⟨?_, hne, hnot⟩
  rw [addWanted_inRh] at hin
  generalize hb : hs.exec (hs.map.boundSet cfg _ n) = hs₁ at hin
  have hbound : hs₁.map.inRh = hs.map.inRh := by
    rw [← hb]
    exact (Makes.boundSet cfg hs _ n (fun _ => trivial) fun _ => trivial).inRh
  rw [← hbound]
  simpa [Map.apply, Map.signal, Function.update_of_ne hne] using hin

/-- The chain has come to an end: the loop gives up, or it moves the entry in the last slot of the
chain to an empty one. -/
inductive Ended (cfg : Config V) (hs₀ : State V) (slot : Nat) (prevs : List (Nat × Nat))
    (hs : State V) : Relocation × State V → Prop
  | grow (behavior : ProbeBehavior) (r : ProbeResult V)
      (probe :
        (hs.exec [.inRh slot true]).map.probeFrom cfg slot (hs₀.map.probes slot) behavior = r)
      (first : r.first = none) (none : r.slot = none) :
      Ended cfg hs₀ slot prevs hs ((hs.exec [.inRh slot true]).relocationGrow cfg slot prevs)
  | move (behavior : ProbeBehavior) (r : ProbeResult V) (empty : Nat)
      (probe :
        (hs.exec [.inRh slot true]).map.probeFrom cfg slot (hs₀.map.probes slot) behavior = r)
      (first : r.first = none) (some : r.slot = some empty) :
      Ended cfg hs₀ slot prevs hs
        (.moved, (hs.exec [.inRh slot true]).relocationMove cfg slot empty r.nProbes prevs)

theorem putRobinHoodLoop_ended (cfg : Config V) (left : Nat) {n : Nat}
    (hn : n = hs₀.map.probes slot) (h : Chosen cfg hs₀ slot prevs hs) :
    ∃ slot' prevs' hs', Chosen cfg hs₀ slot' prevs' hs' ∧
      (prevs'.map Prod.fst).getLastD slot' = (prevs.map Prod.fst).getLastD slot ∧
      Ended cfg hs₀ slot' prevs' hs' (putRobinHoodLoop cfg left slot n prevs hs) := by
  induction left generalizing slot prevs hs n with
  | zero =>
    -- no further slot is picked
    subst hn
    refine ⟨slot, prevs, hs, h, rfl, ?_⟩
    rw [putRobinHoodLoop]
    have hfirst : ((hs.exec [.inRh slot true]).map.probeFrom cfg slot (hs₀.map.probes slot)
        .robinHoodNoRelocate).first = none := by
      refine Option.eq_none_iff_forall_ne_some.mpr fun f hf => ?_
      exact (Map.probeLoop_first hf).elim nofun fun hp => Bool.noConfusion hp.1
    split
    · rename_i hslot
      exact .grow _ _ rfl hfirst hslot
    · rename_i empty hslot
      exact .move _ _ empty rfl hfirst hslot
  | succ left ih =>
    rw [putRobinHoodLoop]
    split
    · rename_i first _ hfirst
      obtain ⟨-, hfree, hused⟩ := (Map.probeLoop_first hfirst).resolve_left nofun
      obtain ⟨hslot, hprev⟩ := h.fresh hfree
      have hold := h.probes_of_fresh hslot hprev
      subst hn
      obtain ⟨hc, -, he, -⟩ := h.mark.chooses_keep
      rw [he] at hused
      obtain ⟨slot', prevs', hs', h', hlast, hend⟩ :=
        ih hold (h.next hslot hprev hused (Map.probeFrom_leads hc he (.inl hfirst)))
      exact ⟨slot', prevs', hs', h', hlast.trans List.getLastD_cons, hend⟩
    · rename_i hfirst hslot
      subst hn
      exact ⟨slot, prevs, hs, h, rfl, .grow _ _ rfl hfirst hslot⟩
    · rename_i empty hfirst hslot
      subst hn
      exact ⟨slot, prevs, hs, h, rfl, .move _ _ empty rfl hfirst hslot⟩

/-- What is left of a chain that has been given up. -/
theorem Chosen.undone (h : Chosen cfg hs₀ slot prevs hs) :
    let m := (hs.map.apply (.inRh slot true)).applyAll
      (.inRh slot false :: restoreStores slot none prevs.reverse)
    m.probes = hs₀.map.probes ∧ ∀ s, m.inRh s = true → hs₀.map.inRh s = true := by
  dsimp only
  have hkind : ∀ st ∈ (.inRh slot false :: restoreStores slot none prevs.reverse : List (Store V)),
      (∃ s, st = .inRh s false) ∨ ∃ s, st = .probes s (hs₀.map.probes s) := by
    intro st hst
    rcases List.mem_cons.mp hst with rfl | hst
    · exact .inl ⟨slot, rfl⟩
    rcases mem_restoreStores.mp hst with ⟨s, -, rfl⟩ | ⟨s, n, hs, rfl⟩
    · exact .inl ⟨s, rfl⟩
    · exact .inr ⟨s, by rw [h.olds s n hs]⟩
  obtain ⟨hp, hr⟩ := Map.undo hkind (hs.map.apply (.inRh slot true))
  constructor
  · funext s
    apply hp
    by_cases hs : ∃ n, (s, n) ∈ State.olds slot prevs
    · obtain ⟨n, hs⟩ := hs
      refine .inr (List.mem_cons_of_mem _ (mem_restoreStores.mpr (.inr ⟨s, n, hs, ?_⟩)))
      rw [h.olds s n hs]
    · exact .inl (h.probes s (not_exists.mp hs))
  · intro s hs
    obtain ⟨hin, hnot⟩ := hr s hs
    simp only [List.mem_cons, mem_restoreStores, not_or] at hnot
    have hne : s ≠ slot := fun he => hnot.1 (by rw [he])
    have hprev : s ∉ prevs.map Prod.fst := fun hmem => hnot.2.1 ⟨s, hmem, rfl⟩
    simp only [Map.apply, Function.update_of_ne hne] at hin
    exact (h.marked s hin).resolve_right hprev

end State

end ConcurrencyKit.Rhs
