import ConcurrencyKit.Hp.Protocol

/-!
# No object is destroyed while a hazard pointer protects it

An owner relies on a pointer only if it was in a source after the owner had stored it to a slot. So
when an object is retired, every slot that it is relied upon by holds the pointer already, and no
other one will come to be relied upon. A walk through the records that starts later finds the
pointer in such a slot, if the owner has not given it up meanwhile: the walk has it in the cache, or
it has not got to the slot yet.
-/

namespace ConcurrencyKit.Hp

variable {ι κ : Type}

/-- The walk through the records has not got to slot `k` of record `j` yet. -/
def Ahead (j : ι) (k : Nat) : List ι → Point → Prop
  | [], _ => False
  | r :: rest, .slot i => j = r ∧ i ≤ k ∨ j ∈ rest
  | r :: rest, _ => j ∈ r :: rest

/-- A pointer that an owner relies on is in its slot, and its object has not been destroyed. -/
structure Standing (cfg : Config) (m : Mem ι κ) (j : ι) (k pointer : Nat) : Prop where
  pos : pointer ≠ 0
  lt : k < cfg.degree
  slot : m.slot j k = pointer
  used : m.state j ≠ .free
  pointers : m.pointers j ≠ none
  mem : j ∈ m.subscribers
  status : m.status pointer ≠ .unused

structure Inv (cfg : Config) (m : Mem ι κ) : Prop where
  source : ∀ c, m.source c ≠ 0 → m.status (m.source c) = .live
  pending : ∀ i, ∀ h ∈ m.pending i, m.status h.pointer = .retired i
  nodup : ∀ i, ((m.pending i).map Hazard.pointer).Nodup
  held : ∀ j k p, m.held j k = some p → Standing cfg m j k p

/-- The record is in use. -/
structure InUse (i : ι) (m : Mem ι κ) : Prop where
  mem : i ∈ m.subscribers
  used : m.state i ≠ .free
  pointers : m.pointers i ≠ none

/-- A pointer to a pending object of `i` that somebody relies on satisfies `P`. -/
def Guards (i : ι) (m : Mem ι κ) (P : ι → Nat → Nat → Prop) : Prop :=
  ∀ h ∈ m.pending i, ∀ j k, m.held j k = some h.pointer → P j k h.pointer

/-- What is known about the owner of record `i` from where it stands. -/
def At (cfg : Config) (i : ι) (m : Mem ι κ) : Pc ι κ → Prop
  | .absent => i ∉ m.subscribers
  | .register => i ∉ m.subscribers ∧ m.state i ≠ .free ∧ m.pointers i ≠ none
  | .free => i ∈ m.subscribers ∧ m.pointers i ≠ none
  | .ready | .clear _ | .cacheHead _ => InUse i m
  | .unregister => InUse i m ∧ ∀ k, m.held i k = none
  | .protectSet k _ _ => InUse i m ∧ k < cfg.degree
  | .protectCheck k _ pointer => InUse i m ∧ k < cfg.degree ∧ m.slot i k = pointer
  | .cache _ rest point cache =>
    InUse i m ∧ Guards i m fun j k p => p ∈ cache ∨ Ahead j k rest point
  | .sweep _ cache marker kept todo =>
    InUse i m ∧ m.pending i = kept ++ todo ∧ Guards i m fun j _ p => Cached p cache ∨ j ∈ marker
  | .scan _ cache marker kept hazard todo rest point =>
    InUse i m ∧ m.pending i = kept ++ hazard :: todo ∧
      (Guards i m fun j _ p => Cached p cache ∨ j ∈ marker) ∧
      ∀ j k, m.held j k = some hazard.pointer → Ahead j k rest point
  | .destroy _ cache marker kept hazard todo =>
    InUse i m ∧ m.pending i = kept ++ hazard :: todo ∧
      (Guards i m fun j _ p => Cached p cache ∨ j ∈ marker) ∧
      ∀ j k, m.held j k ≠ some hazard.pointer

/-- What a step of the owner of `i` does for the other ones. -/
structure Frame (i : ι) (m m' : Mem ι κ) : Prop where
  pending : ∀ j, j ≠ i → m'.pending j = m.pending j
  pointers : ∀ j, j ≠ i → m'.pointers j = m.pointers j
  state : ∀ j, j ≠ i → m'.state j = m.state j
  members : ∀ j, j ≠ i → (j ∈ m'.subscribers ↔ j ∈ m.subscribers)
  own : ∀ j, j ≠ i → m'.held j = m.held j
  /-- Nobody comes to rely on an object that is not live. -/
  held : ∀ j k p, m'.held j k = some p → m.held j k = some p ∨ m.status p = .live

section Frames

variable {cfg : Config} {i j : ι} {m m' : Mem ι κ} {pc : Pc ι κ} {P Q : ι → Nat → Nat → Prop}

theorem InUse.frame (h : InUse j m) (hf : Frame i m m') (hj : j ≠ i) : InUse j m' where
  mem := (hf.members j hj).mpr h.mem
  used := hf.state j hj ▸ h.used
  pointers := hf.pointers j hj ▸ h.pointers

/-- Nobody comes to rely on an object that is pending. -/
theorem Frame.held_pending (hf : Frame i m m') (hinv : Inv cfg m) {hazard : Hazard}
    (hmem : hazard ∈ m.pending j) {j' : ι} {k : Nat} (h : m'.held j' k = some hazard.pointer) :
    m.held j' k = some hazard.pointer := by
  rcases hf.held _ _ _ h with h | hlive
  · exact h
  · rw [hinv.pending j hazard hmem] at hlive
    cases hlive

theorem Guards.frame (h : Guards j m P) (hinv : Inv cfg m) (hf : Frame i m m') (hj : j ≠ i) :
    Guards j m' P := by
  intro hazard hmem j' k hheld
  rw [hf.pending j hj] at hmem
  exact h hazard hmem j' k (hf.held_pending hinv hmem hheld)

theorem Guards.mono (h : Guards i m P) (hPQ : ∀ j k p, m.held j k = some p → P j k p → Q j k p) :
    Guards i m Q :=
  fun hazard hmem j k hheld => hPQ j k _ hheld (h hazard hmem j k hheld)

theorem At.frame (h : At cfg j m pc) (hinv : Inv cfg m) (hf : Frame i m m') (hj : j ≠ i) :
    At cfg j m' pc := by
  cases pc with
  | absent => exact fun hmem => h ((hf.members j hj).mp hmem)
  | register =>
    exact ⟨fun hmem => h.1 ((hf.members j hj).mp hmem), hf.state j hj ▸ h.2.1,
      hf.pointers j hj ▸ h.2.2⟩
  | free => exact ⟨(hf.members j hj).mpr h.1, hf.pointers j hj ▸ h.2⟩
  | ready | clear | cacheHead => exact InUse.frame h hf hj
  | unregister => exact ⟨h.1.frame hf hj, fun k => hf.own j hj ▸ h.2 k⟩
  | protectSet => exact ⟨h.1.frame hf hj, h.2⟩
  | protectCheck k c pointer =>
    refine ⟨h.1.frame hf hj, h.2.1, ?_⟩
    rw [Mem.slot, hf.pointers j hj]
    exact h.2.2
  | cache => exact ⟨h.1.frame hf hj, h.2.frame hinv hf hj⟩
  | sweep =>
    exact ⟨h.1.frame hf hj, (hf.pending j hj).trans h.2.1, h.2.2.frame hinv hf hj⟩
  | scan purge cache marker kept hazard todo rest point =>
    obtain ⟨huse, hpending, hguards, hahead⟩ := h
    have hmem : hazard ∈ m.pending j := by simp [hpending]
    exact ⟨huse.frame hf hj, (hf.pending j hj).trans hpending, hguards.frame hinv hf hj,
      fun j' k hheld => hahead j' k (hf.held_pending hinv hmem hheld)⟩
  | destroy purge cache marker kept hazard todo =>
    obtain ⟨huse, hpending, hguards, hnone⟩ := h
    have hmem : hazard ∈ m.pending j := by simp [hpending]
    exact ⟨huse.frame hf hj, (hf.pending j hj).trans hpending, hguards.frame hinv hf hj,
      fun j' k hheld => hnone j' k (hf.held_pending hinv hmem hheld)⟩

end Frames

/-! ## What the steps do -/

section Changes

variable [DecidableEq ι] {cfg : Config} {i j : ι} {m m' : Mem ι κ} {pc : Pc ι κ} {k pointer : Nat}
  {hazard : Hazard} {kept todo : List Hazard}

omit [DecidableEq ι] in
/-- A step that changes no record. -/
theorem Frame.of_eq (i : ι) (hpending : m'.pending = m.pending)
    (hpointers : m'.pointers = m.pointers) (hstate : m'.state = m.state)
    (hsubscribers : m'.subscribers = m.subscribers) (hheld : m'.held = m.held) :
    Frame i m m' where
  pending j _ := congrFun hpending j
  pointers j _ := congrFun hpointers j
  state j _ := congrFun hstate j
  members j _ := by rw [hsubscribers]
  own j _ := congrFun hheld j
  held j k p h := .inl (by rwa [← hheld])

theorem Inv.initRecord (hinv : Inv cfg m) (hi : i ∉ m.subscribers) : Inv cfg (m.initRecord i) where
  source := hinv.source
  pending j h hmem := by
    by_cases hj : j = i
    · subst hj
      simp [Mem.initRecord] at hmem
    · simp only [Mem.initRecord, Function.update_of_ne hj] at hmem
      exact hinv.pending j h hmem
  nodup j := by
    by_cases hj : j = i
    · subst hj
      simp [Mem.initRecord]
    · simpa [Mem.initRecord, Function.update_of_ne hj] using hinv.nodup j
  held j k p h := by
    have hs := hinv.held j k p h
    have hj : j ≠ i := by
      rintro rfl
      exact hi hs.mem
    exact
      { hs with
        slot := by simpa [Mem.slot, Mem.initRecord, hj] using hs.slot
        used := by simpa [Mem.initRecord, hj] using hs.used
        pointers := by simpa [Mem.initRecord, hj] using hs.pointers }

theorem frame_initRecord (i : ι) (m : Mem ι κ) : Frame i m (m.initRecord i) where
  pending _ hj := Function.update_of_ne hj _ _
  pointers _ hj := Function.update_of_ne hj _ _
  state _ hj := Function.update_of_ne hj _ _
  members _ _ := Iff.rfl
  own _ _ := rfl
  held _ _ _ h := .inl h

omit [DecidableEq ι] in
theorem Inv.push (hinv : Inv cfg m) : Inv cfg (m.push i) where
  __ := hinv
  held j k p h :=
    have hs := hinv.held j k p h
    { hs with mem := List.mem_cons_of_mem i hs.mem }

omit [DecidableEq ι] in
theorem frame_push (i : ι) (m : Mem ι κ) : Frame i m (m.push i) where
  pending _ _ := rfl
  pointers _ _ := rfl
  state _ _ := rfl
  members _ hj := List.mem_cons.trans (or_iff_right hj)
  own _ _ := rfl
  held _ _ _ h := .inl h

/-- What is still relied upon after a store to a slot has been so before. -/
theorem held_set {p k' : Nat} (h : (m.set i k pointer).held j k' = some p) :
    m.held j k' = some p ∧ (j ≠ i ∨ k' ≠ k) := by
  by_cases hj : j = i
  · subst hj
    by_cases hk : k' = k
    · subst hk
      simp [Mem.set] at h
    · simp only [Mem.set, Function.update_self, Function.update_of_ne hk] at h
      exact ⟨h, .inr hk⟩
  · simp only [Mem.set, Function.update_of_ne hj] at h
    exact ⟨h, .inl hj⟩

theorem slot_set (hpointers : m.pointers j ≠ none) {k' : Nat} (h : j ≠ i ∨ k' ≠ k) :
    (m.set i k pointer).slot j k' = m.slot j k' := by
  by_cases hj : j = i
  · subst hj
    have hk := h.resolve_left (not_not.mpr rfl)
    obtain ⟨f, hf⟩ := Option.ne_none_iff_exists'.mp hpointers
    simp [Mem.slot, Mem.set, hf, Function.update_of_ne hk]
  · simp [Mem.slot, Mem.set, hj]

theorem slot_set_self (hpointers : m.pointers i ≠ none) :
    (m.set i k pointer).slot i k = pointer := by
  obtain ⟨f, hf⟩ := Option.ne_none_iff_exists'.mp hpointers
  simp [Mem.slot, Mem.set, hf]

theorem pointers_set : (m.set i k pointer).pointers j ≠ none ↔ m.pointers j ≠ none := by
  by_cases hj : j = i
  · subst hj
    simp [Mem.set]
  · simp [Mem.set, hj]

theorem Inv.set (hinv : Inv cfg m) : Inv cfg (m.set i k pointer) where
  __ := hinv
  held j k' p h := by
    obtain ⟨hheld, hne⟩ := held_set h
    have hs := hinv.held j k' p hheld
    exact
      { hs with
        slot := (slot_set hs.pointers hne).trans hs.slot
        pointers := pointers_set.mpr hs.pointers }

theorem frame_set (i : ι) (k pointer : Nat) (m : Mem ι κ) : Frame i m (m.set i k pointer) where
  pending _ _ := rfl
  pointers _ hj := Function.update_of_ne hj _ _
  state _ _ := rfl
  members _ _ := Iff.rfl
  own _ hj := Function.update_of_ne hj _ _
  held _ _ _ h := .inl (held_set h).1

theorem InUse.set (h : InUse i m) : InUse i (m.set i k pointer) :=
  ⟨h.mem, h.used, pointers_set.mpr h.pointers⟩

theorem held_hold {p k' : Nat} (h : (m.hold i k pointer).held j k' = some p) :
    m.held j k' = some p ∨ j = i ∧ k' = k ∧ p = pointer := by
  by_cases hj : j = i
  · subst hj
    by_cases hk : k' = k
    · subst hk
      simp only [Mem.hold, Function.update_self, Option.some.injEq] at h
      exact .inr ⟨rfl, rfl, h.symm⟩
    · simp only [Mem.hold, Function.update_self, Function.update_of_ne hk] at h
      exact .inl h
  · simp only [Mem.hold, Function.update_of_ne hj] at h
    exact .inl h

/-- A pointer that is found in a source is one to a live object. -/
theorem Inv.hold (hinv : Inv cfg m) (huse : InUse i m) (hk : k < cfg.degree)
    (hslot : m.slot i k = pointer) (hpos : pointer ≠ 0) (hlive : m.status pointer = .live) :
    Inv cfg (m.hold i k pointer) where
  __ := hinv
  held j k' p h := by
    rcases held_hold h with h | ⟨rfl, rfl, rfl⟩
    · exact { hinv.held j k' p h with }
    · refine ⟨hpos, hk, hslot, huse.used, huse.pointers, huse.mem, ?_⟩
      intro hunused
      cases hlive.symm.trans hunused

theorem frame_hold (hlive : m.status pointer = .live) : Frame i m (m.hold i k pointer) where
  pending _ _ := rfl
  pointers _ _ := rfl
  state _ _ := rfl
  members _ _ := Iff.rfl
  own _ hj := Function.update_of_ne hj _ _
  held j k' p h := by
    rcases held_hold h with h | ⟨-, -, rfl⟩
    · exact .inl h
    · exact .inr hlive

omit [DecidableEq ι] in
theorem Inv.pointer_ne (hinv : Inv cfg m) {h : Hazard} (hmem : h ∈ m.pending j)
    {status : Status ι} (hstatus : m.status pointer = status) (hne : status ≠ .retired j) :
    h.pointer ≠ pointer := by
  rintro rfl
  exact hne (hstatus.symm.trans (hinv.pending j h hmem))

theorem Inv.retire (hinv : Inv cfg m) (hlive : m.status hazard.pointer = .live)
    (hunlinked : ∀ c, m.source c ≠ hazard.pointer) : Inv cfg (m.retire i hazard) where
  source c hne := (Function.update_of_ne (hunlinked c) _ _).trans (hinv.source c hne)
  pending j h hmem := by
    have hold : ∀ j, h ∈ m.pending j → (m.retire i hazard).status h.pointer = .retired j :=
      fun j hmem => (Function.update_of_ne (hinv.pointer_ne hmem hlive (by simp)) _ _).trans
        (hinv.pending j h hmem)
    by_cases hj : j = i
    · subst hj
      simp only [Mem.retire, Function.update_self, List.mem_cons] at hmem
      rcases hmem with rfl | hmem
      · exact Function.update_self ..
      · exact hold j hmem
    · simp only [Mem.retire, Function.update_of_ne hj] at hmem
      exact hold j hmem
  nodup j := by
    by_cases hj : j = i
    · subst hj
      simp only [Mem.retire, Function.update_self, List.map_cons, List.nodup_cons]
      refine ⟨fun hmem => ?_, hinv.nodup j⟩
      obtain ⟨h, hmem, heq⟩ := List.mem_map.mp hmem
      exact hinv.pointer_ne hmem hlive (by simp) heq
    · simpa [Mem.retire, Function.update_of_ne hj] using hinv.nodup j
  held j k p h := by
    have hs := hinv.held j k p h
    refine { hs with status := ?_ }
    by_cases hp : p = hazard.pointer
    · subst hp
      simp [Mem.retire]
    · simpa [Mem.retire, hp] using hs.status

theorem frame_retire (i : ι) (hazard : Hazard) (m : Mem ι κ) : Frame i m (m.retire i hazard) where
  pending _ hj := Function.update_of_ne hj _ _
  pointers _ _ := rfl
  state _ _ := rfl
  members _ _ := Iff.rfl
  own _ _ := rfl
  held _ _ _ h := .inl h

/-- An entry that nobody relies on is destroyed. -/
theorem Inv.destroy (hinv : Inv cfg m) (hpending : m.pending i = kept ++ hazard :: todo)
    (hnone : ∀ j k, m.held j k ≠ some hazard.pointer) :
    Inv cfg (m.destroy i kept hazard todo) := by
  have hmem : hazard ∈ m.pending i := by simp [hpending]
  have hretired := hinv.pending i hazard hmem
  have hnodup := hinv.nodup i
  rw [hpending, List.map_append, List.map_cons] at hnodup
  have hperm := List.nodup_cons.mp (List.perm_middle.nodup_iff.mp hnodup)
  have hstatus : ∀ p, p ≠ hazard.pointer → (m.destroy i kept hazard todo).status p = m.status p :=
    fun p hp => Function.update_of_ne hp _ _
  refine ⟨fun c hne => ?_, fun j h hj => ?_, fun j => ?_, fun j k p h => ?_⟩
  · have hlive := hinv.source c hne
    rw [← hlive]
    refine hstatus _ fun heq => ?_
    rw [show m.source c = hazard.pointer from heq, hretired] at hlive
    cases hlive
  · by_cases hji : j = i
    · subst hji
      simp only [Mem.destroy, Function.update_self] at hj
      have hne : h.pointer ≠ hazard.pointer := by
        intro heq
        refine hperm.1 ?_
        rw [← heq, ← List.map_append]
        exact List.mem_map_of_mem hj
      rw [hstatus _ hne]
      refine hinv.pending j h ?_
      rw [hpending]
      simp only [List.mem_append, List.mem_cons] at hj ⊢
      exact hj.imp_right .inr
    · simp only [Mem.destroy, Function.update_of_ne hji] at hj
      have hne := hinv.pointer_ne hj hretired (fun heq => hji (Status.retired.inj heq).symm)
      exact (hstatus _ hne).trans (hinv.pending j h hj)
  · by_cases hji : j = i
    · subst hji
      simpa only [Mem.destroy, Function.update_self, List.map_append] using hperm.2
    · simpa [Mem.destroy, Function.update_of_ne hji] using hinv.nodup j
  · have hs := hinv.held j k p h
    refine { hs with status := ?_ }
    rw [hstatus]
    · exact hs.status
    · rintro rfl
      exact hnone j k h

theorem frame_destroy (i : ι) (m : Mem ι κ) : Frame i m (m.destroy i kept hazard todo) where
  pending _ hj := Function.update_of_ne hj _ _
  pointers _ _ := rfl
  state _ _ := rfl
  members _ _ := Iff.rfl
  own _ _ := rfl
  held _ _ _ h := .inl h

theorem Inv.unregister (hinv : Inv cfg m) (hnone : ∀ k, m.held i k = none) :
    Inv cfg (m.unregister i) where
  source := hinv.source
  pending j h hmem := by
    by_cases hj : j = i
    · subst hj
      simp [Mem.unregister] at hmem
    · simp only [Mem.unregister, Function.update_of_ne hj] at hmem
      exact hinv.pending j h hmem
  nodup j := by
    by_cases hj : j = i
    · subst hj
      simp [Mem.unregister]
    · simpa [Mem.unregister, Function.update_of_ne hj] using hinv.nodup j
  held j k p h := by
    have hs := hinv.held j k p h
    have hj : j ≠ i := by
      rintro rfl
      cases (hnone k).symm.trans h
    exact { hs with used := by simpa [Mem.unregister, hj] using hs.used }

theorem frame_unregister (i : ι) (m : Mem ι κ) : Frame i m (m.unregister i) where
  pending _ hj := Function.update_of_ne hj _ _
  pointers _ _ := rfl
  state _ hj := Function.update_of_ne hj _ _
  members _ _ := Iff.rfl
  own _ _ := rfl
  held _ _ _ h := .inl h

theorem Inv.recycle (hinv : Inv cfg m) : Inv cfg (m.recycle i) where
  __ := hinv
  held j k p h := by
    have hs := hinv.held j k p h
    refine { hs with used := ?_ }
    by_cases hj : j = i
    · subst hj
      simp [Mem.recycle]
    · simpa [Mem.recycle, hj] using hs.used

theorem frame_recycle (i : ι) (m : Mem ι κ) : Frame i m (m.recycle i) where
  pending _ _ := rfl
  pointers _ _ := rfl
  state _ hj := Function.update_of_ne hj _ _
  members _ _ := Iff.rfl
  own _ _ := rfl
  held _ _ _ h := .inl h

omit [DecidableEq ι] in
theorem Inv.link [DecidableEq κ] (hinv : Inv cfg m) {c : κ}
    (hlive : pointer ≠ 0 → m.status pointer = .live) : Inv cfg (m.link c pointer) where
  source c' hne := by
    by_cases hc : c' = c
    · subst hc
      simp only [Mem.link, Function.update_self] at hne ⊢
      exact hlive hne
    · simp only [Mem.link, Function.update_of_ne hc] at hne ⊢
      exact hinv.source c' hne
  pending := hinv.pending
  nodup := hinv.nodup
  held j k p h := { hinv.held j k p h with }

omit [DecidableEq ι] in
theorem Inv.alloc (hinv : Inv cfg m) (hunused : m.status pointer = .unused) :
    Inv cfg (m.alloc pointer) where
  source c hne := by
    have hlive := hinv.source c hne
    have hc : m.source c ≠ pointer := by
      rintro rfl
      cases hlive.symm.trans hunused
    exact (Function.update_of_ne hc _ _).trans hlive
  pending j h hmem :=
    (Function.update_of_ne (hinv.pointer_ne hmem hunused (by simp)) _ _).trans
      (hinv.pending j h hmem)
  nodup := hinv.nodup
  held j k p h := by
    have hs := hinv.held j k p h
    have hp : p ≠ pointer := by
      rintro rfl
      exact hs.status hunused
    exact { hs with status := by simpa [Mem.alloc, hp] using hs.status }

omit [DecidableEq ι] in
theorem Inv.setThreshold (hinv : Inv cfg m) (threshold : BitVec 32) :
    Inv cfg (m.setThreshold threshold) where
  __ := hinv
  held j k p h := { hinv.held j k p h with }

end Changes

/-! ## The walk through the records -/

section Walks

variable {cfg : Config} {i j r : ι} {m : Mem ι κ} {rest : List ι} {point : Point}
  {k k' pointer : Nat} {cache : List Nat}

theorem ahead_state : Ahead j k rest .state ↔ j ∈ rest := by
  cases rest with
  | nil => exact iff_of_false id List.not_mem_nil
  | cons r rest => exact Iff.rfl

/-- A record that is passed over protects nothing. -/
theorem ahead_skip (hs : Standing cfg m j k pointer) (h : Ahead j k (r :: rest) point)
    (hskip : point = .state ∧ m.state r = .free ∨ point = .pointers ∧ m.pointers r = none ∨
      ∃ k', point = .slot k' ∧ cfg.degree ≤ k') : Ahead j k rest .state := by
  rw [ahead_state]
  rcases hskip with ⟨rfl, hfree⟩ | ⟨rfl, hnone⟩ | ⟨k', rfl, hle⟩
  · refine (List.mem_cons.mp h).resolve_left ?_
    rintro rfl
    exact hs.used hfree
  · refine (List.mem_cons.mp h).resolve_left ?_
    rintro rfl
    exact hs.pointers hnone
  · refine h.resolve_left fun hk => ?_
    have := hs.lt
    omega

theorem ahead_slots (h : Ahead j k (r :: rest) .pointers) : Ahead j k (r :: rest) (.slot 0) :=
  (List.mem_cons.mp h).imp_left fun heq => ⟨heq, Nat.zero_le k⟩

/-- The walk comes upon the pointer in a slot, or the slot is still ahead. -/
theorem ahead_slot (hs : Standing cfg m j k pointer) (h : Ahead j k (r :: rest) (.slot k')) :
    m.slot r k' = pointer ∨ Ahead j k (r :: rest) (.slot (k' + 1)) := by
  rcases h with ⟨rfl, hle⟩ | hmem
  · rcases Nat.eq_or_lt_of_le hle with rfl | hlt
    · exact .inl hs.slot
    · exact .inr (.inl ⟨rfl, hlt⟩)
  · exact .inr (.inr hmem)

/-- Where the cache is full, the records from the present one on are looked at for each entry. -/
theorem mem_of_ahead_slot (h : Ahead j k (r :: rest) (.slot k')) : j ∈ r :: rest :=
  List.mem_cons.mpr (h.imp_left And.left)

theorem cached_qsort : Cached pointer (Search.qsort hazardCompare cache) ↔ pointer ∈ cache := by
  rw [Cached, Search.bsearch_qsort hazardCompare_order]
  simp only [hazardCompare_eq_iff, exists_eq_right']

end Walks

/-! ## The invariant -/

section Invariant

variable [DecidableEq ι] {cfg : Config} {i j : ι} {m : Mem ι κ} {pc : Pc ι κ}

/-- The walk that fills the cache. -/
theorem cache_own {purge : Bool} {rest : List ι} {point : Point} {cache : List Nat}
    (hinv : Inv cfg m) (h : At cfg i m (.cache purge rest point cache)) :
    At cfg i m (act cfg i m (.cache purge rest point cache)).2 := by
  obtain ⟨huse, hguards⟩ := h
  have hdone : ∀ marker : List ι, (Guards i m fun j _ p => p ∈ cache ∨ j ∈ marker) →
      At cfg i m (.sweep purge (Search.qsort hazardCompare cache) marker [] (m.pending i)) :=
    fun marker hguards => ⟨huse, rfl, hguards.mono fun j k p _ h => h.imp_left cached_qsort.mpr⟩
  cases rest with
  | nil =>
    exact hdone [] (hguards.mono fun j k p _ h => h.imp_right fun hfalse => False.elim hfalse)
  | cons r rest =>
    have hskip : (point = .state ∧ m.state r = .free ∨ point = .pointers ∧ m.pointers r = none ∨
        ∃ k', point = .slot k' ∧ cfg.degree ≤ k') →
        At cfg i m (.cache purge rest .state cache) := fun hskip =>
      ⟨huse, hguards.mono fun j k p hheld h =>
        h.imp_right fun h => ahead_skip (hinv.held j k p hheld) h hskip⟩
    cases point with
    | state =>
      simp only [act]
      split
      case isTrue hfree => exact hskip (.inl ⟨rfl, hfree⟩)
      case isFalse => exact ⟨huse, hguards⟩
    | pointers =>
      simp only [act]
      split
      case isTrue hnone => exact hskip (.inr (.inl ⟨rfl, hnone⟩))
      case isFalse => exact ⟨huse, hguards.mono fun j k p _ h => h.imp_right ahead_slots⟩
    | slot k' =>
      simp only [act]
      split
      case isTrue =>
        split
        case isTrue => exact hdone _ (hguards.mono fun j k p _ h => h.imp_right mem_of_ahead_slot)
        case isFalse =>
          refine ⟨huse, hguards.mono fun j k p hheld h => ?_⟩
          have hs := hinv.held j k p hheld
          have hcache : p ∈ cache →
              p ∈ (if m.slot r k' ≠ 0 then cache ++ [m.slot r k'] else cache) := by
            split <;> simp +contextual
          rcases h with h | h
          · exact .inl (hcache h)
          rcases ahead_slot hs h with hslot | h
          · refine .inl ?_
            rw [hslot, if_pos hs.pos]
            simp
          · exact .inr h
      case isFalse hle => exact hskip (.inr (.inr ⟨k', rfl, not_lt.mp hle⟩))

/-- The walk that looks for the pointer of one entry. -/
theorem scan_own {purge : Bool} {cache : List Nat} {marker : List ι} {kept : List Hazard}
    {hazard : Hazard} {todo : List Hazard} {rest : List ι} {point : Point} (hinv : Inv cfg m)
    (h : At cfg i m (.scan purge cache marker kept hazard todo rest point)) :
    At cfg i m (act cfg i m (.scan purge cache marker kept hazard todo rest point)).2 := by
  obtain ⟨huse, hpending, hguards, hahead⟩ := h
  cases rest with
  | nil => exact ⟨huse, hpending, hguards, fun j k hheld => hahead j k hheld⟩
  | cons r rest =>
    have hskip : (point = .state ∧ m.state r = .free ∨ point = .pointers ∧ m.pointers r = none ∨
        ∃ k', point = .slot k' ∧ cfg.degree ≤ k') →
        At cfg i m (.scan purge cache marker kept hazard todo rest .state) := fun hskip =>
      ⟨huse, hpending, hguards, fun j k hheld =>
        ahead_skip (hinv.held j k _ hheld) (hahead j k hheld) hskip⟩
    cases point with
    | state =>
      simp only [act]
      split
      case isTrue hfree => exact hskip (.inl ⟨rfl, hfree⟩)
      case isFalse => exact ⟨huse, hpending, hguards, hahead⟩
    | pointers =>
      simp only [act]
      split
      case isTrue hnone => exact hskip (.inr (.inl ⟨rfl, hnone⟩))
      case isFalse => exact ⟨huse, hpending, hguards, fun j k h => ahead_slots (hahead j k h)⟩
    | slot k' =>
      simp only [act]
      split
      case isTrue =>
        split
        case isTrue => exact ⟨huse, hpending.trans (List.append_cons ..), hguards⟩
        case isFalse hne =>
          refine ⟨huse, hpending, hguards, fun j k hheld => ?_⟩
          exact (ahead_slot (hinv.held j k _ hheld) (hahead j k hheld)).resolve_left hne
      case isFalse hle => exact hskip (.inr (.inr ⟨k', rfl, not_lt.mp hle⟩))

/-- The walk over the pending list. -/
theorem sweep_own {purge : Bool} {cache : List Nat} {marker : List ι} {kept todo : List Hazard}
    (h : At cfg i m (.sweep purge cache marker kept todo)) :
    At cfg i m (act cfg i m (.sweep purge cache marker kept todo)).2 := by
  obtain ⟨huse, hpending, hguards⟩ := h
  cases todo with
  | nil =>
    simp only [act, leave]
    split
    case isTrue => exact huse
    case isFalse => exact huse
  | cons hazard todo =>
    have hmem : hazard ∈ m.pending i := by simp [hpending]
    simp only [act]
    split
    case isTrue => exact ⟨huse, hpending.trans (List.append_cons ..), hguards⟩
    case isFalse hnot =>
      have hmarker : ∀ j k, m.held j k = some hazard.pointer → j ∈ marker := fun j k hheld =>
        (hguards hazard hmem j k hheld).resolve_left hnot
      split
      case isTrue => exact ⟨huse, hpending, hguards, fun j k h => ahead_state.mpr (hmarker j k h)⟩
      case isFalse hnil =>
        refine ⟨huse, hpending, hguards, fun j k hheld => ?_⟩
        have hj := hmarker j k hheld
        rw [not_not.mp hnil] at hj
        cases hj

omit [DecidableEq ι] in
theorem frame_self (i : ι) (m : Mem ι κ) : Frame i m m := .of_eq i rfl rfl rfl rfl rfl

/-- The next access of an owner in its call. -/
theorem act_own (hinv : Inv cfg m) (h : At cfg i m pc) :
    Inv cfg (act cfg i m pc).1 ∧ At cfg i (act cfg i m pc).1 (act cfg i m pc).2 ∧
      Frame i m (act cfg i m pc).1 := by
  cases pc with
  | absent | free | ready => exact ⟨hinv, h, frame_self i m⟩
  | register =>
    exact ⟨hinv.push, ⟨List.mem_cons_self, h.2.1, h.2.2⟩, frame_push i m⟩
  | protectSet k c pointer =>
    exact ⟨hinv.set, ⟨h.1.set, h.2, slot_set_self h.1.pointers⟩, frame_set i k pointer m⟩
  | protectCheck k c pointer =>
    obtain ⟨huse, hk, hslot⟩ := h
    simp only [act]
    split
    case isTrue heq =>
      split
      case isTrue => exact ⟨hinv, huse, frame_self i m⟩
      case isFalse hpos =>
        have hlive : m.status pointer = .live := by
          subst heq
          exact hinv.source c hpos
        exact ⟨hinv.hold huse hk hslot hpos hlive, ⟨huse.mem, huse.used, huse.pointers⟩,
          frame_hold hlive⟩
    case isFalse => exact ⟨hinv, ⟨huse, hk⟩, frame_self i m⟩
  | clear k =>
    simp only [act]
    split
    case isTrue => exact ⟨hinv.set, InUse.set h, frame_set i k 0 m⟩
    case isFalse => exact ⟨hinv, h, frame_self i m⟩
  | cacheHead purge =>
    refine ⟨hinv, ⟨h, fun hazard _ j k hheld => .inr ?_⟩, frame_self i m⟩
    exact ahead_state.mpr (hinv.held j k _ hheld).mem
  | cache purge rest point cache =>
    have heq : (act cfg i m (.cache purge rest point cache)).1 = m := by
      rcases rest with _ | ⟨r, rest⟩ <;> cases point <;> rfl
    rw [heq]
    exact ⟨hinv, cache_own hinv h, frame_self i m⟩
  | sweep purge cache marker kept todo =>
    have heq : (act cfg i m (.sweep purge cache marker kept todo)).1 = m := by
      cases todo <;> rfl
    rw [heq]
    exact ⟨hinv, sweep_own h, frame_self i m⟩
  | scan purge cache marker kept hazard todo rest point =>
    have heq : (act cfg i m (.scan purge cache marker kept hazard todo rest point)).1 = m := by
      rcases rest with _ | ⟨r, rest⟩ <;> cases point <;> rfl
    rw [heq]
    exact ⟨hinv, scan_own hinv h, frame_self i m⟩
  | destroy purge cache marker kept hazard todo =>
    obtain ⟨huse, hpending, hguards, hnone⟩ := h
    refine ⟨hinv.destroy hpending hnone, ⟨⟨huse.mem, huse.used, huse.pointers⟩,
      Function.update_self .., fun h hmem j k hheld => ?_⟩, frame_destroy i m⟩
    refine hguards h ?_ j k hheld
    simp only [act, Mem.destroy, Function.update_self, List.mem_append] at hmem
    rw [hpending, List.mem_append, List.mem_cons]
    exact hmem.imp_right .inr
  | unregister =>
    exact ⟨hinv.unregister h.2, ⟨h.1.mem, h.1.pointers⟩, frame_unregister i m⟩

theorem step_own [DecidableEq κ] {m' : Mem ι κ} {pc' : Pc ι κ} (hstep : Step cfg i m pc m' pc')
    (hinv : Inv cfg m) (h : At cfg i m pc) : Inv cfg m' ∧ At cfg i m' pc' ∧ Frame i m m' := by
  cases hstep with
  | register => exact ⟨hinv.initRecord h, ⟨h, by simp [Mem.initRecord], by simp [Mem.initRecord]⟩,
      frame_initRecord i m⟩
  | recycle =>
    exact ⟨hinv.recycle, ⟨h.1, by simp [Mem.recycle], h.2⟩, frame_recycle i m⟩
  | unregister none => exact ⟨hinv, ⟨h, none⟩, frame_self i m⟩
  | protect k c lt => exact ⟨hinv, ⟨h, lt⟩, frame_self i m⟩
  | set k pointer => exact ⟨hinv.set, InUse.set h, frame_set i k pointer m⟩
  | clear | reclaim => exact ⟨hinv, h, frame_self i m⟩
  | retire hazard live unlinked =>
    exact ⟨hinv.retire live unlinked, ⟨h.mem, h.used, h.pointers⟩, frame_retire i hazard m⟩
  | free hazard live unlinked =>
    refine ⟨hinv.retire live unlinked, ?_, frame_retire i hazard m⟩
    split
    case isTrue => exact ⟨h.mem, h.used, h.pointers⟩
    case isFalse => exact ⟨h.mem, h.used, h.pointers⟩
  | purge =>
    refine ⟨hinv, ?_, frame_self i m⟩
    unfold leave
    split
    case isTrue => exact h
    case isFalse => exact h
  | link c pointer live =>
    exact ⟨hinv.link live, ⟨h.mem, h.used, h.pointers⟩, .of_eq i rfl rfl rfl rfl rfl⟩
  | alloc pointer pos unused =>
    exact ⟨hinv.alloc unused, ⟨h.mem, h.used, h.pointers⟩, .of_eq i rfl rfl rfl rfl rfl⟩
  | setThreshold threshold =>
    exact ⟨hinv.setThreshold threshold, ⟨h.mem, h.used, h.pointers⟩, .of_eq i rfl rfl rfl rfl rfl⟩
  | act => exact act_own hinv h

theorem invariant [DecidableEq κ] (cfg : Config) :
    Threads.Invariant (Step (ι := ι) (κ := κ) cfg) (fun _ _ _ => True) (Inv cfg) (At cfg) where
  own hstep _ hinv h :=
    have hown := step_own hstep hinv h
    ⟨hown.1, hown.2.1⟩
  other hstep _ hinv h _ _ hj hother := hother.frame hinv (step_own hstep hinv h).2.2 hj

end Invariant

/-! ## Every run -/

section Runs

variable [DecidableEq ι] [DecidableEq κ] {cfg : Config} {threshold : BitVec 32}
  {s : Threads.System (Mem ι κ) (Pc ι κ) ι}

/-- What holds at every moment of a run. -/
structure Safe (s : Threads.System (Mem ι κ) (Pc ι κ) ι) : Prop where
  /-- While an owner relies on a pointer, its object is not destroyed. -/
  held : ∀ j k p, s.mem.held j k = some p → s.mem.status p ≠ .unused
  /-- Every pending object is there to be destroyed once. -/
  pending : ∀ i, ∀ h ∈ s.mem.pending i, s.mem.status h.pointer = .retired i
  nodup : ∀ i, ((s.mem.pending i).map Hazard.pointer).Nodup

/-- In any interleaving of the owners of any number of records, which come and go, an object is not
destroyed while somebody relies on a pointer to it. -/
theorem hazards_safe (hr : Reachable cfg threshold s) : Safe s := by
  have hinv : Inv cfg (start ι κ threshold).mem :=
    ⟨fun _ h => absurd rfl h, fun _ _ h => (List.not_mem_nil h).elim, fun _ => List.nodup_nil,
      fun _ _ _ h => by cases h⟩
  obtain ⟨hinv', -⟩ := (invariant cfg).reachable hr (fun _ => trivial) hinv
    fun _ => (List.not_mem_nil : _ ∉ [])
  exact ⟨fun j k p h => (hinv'.held j k p h).status, hinv'.pending, hinv'.nodup⟩

/-- A run in which an owner makes `n` more accesses. -/
theorem acts_reachable {s₀ : Threads.System (Mem ι κ) (Pc ι κ) ι}
    (hr : Threads.System.Reachable (Step cfg) (fun _ _ _ => True) s₀ s) (i : ι) (n : Nat) :
    Threads.System.Reachable (Step cfg) (fun _ _ _ => True) s₀ (s.acts (act cfg) i n) :=
  hr.acts i n (fun _ _ _ _ _ _ => .inr (.act _ _)) fun _ _ _ => trivial

end Runs

/-- One owner relies on the object at 7, which another one has retired and found in a slot. -/
theorem hazards_safe_pending : ∃ s : Threads.System (Mem Bool Unit) (Pc Bool Unit) Bool,
    Reachable ⟨1, 1⟩ 4 s ∧ s.mem.held true 0 = some 7 ∧
      (s.mem.pending false).map Hazard.pointer = [7] ∧ Safe s := by
  have h₀ : Reachable ⟨1, 1⟩ 4 (start Bool Unit 4) := .refl
  have h₁ := acts_reachable (h₀.extend true (.register _) fun _ => trivial) true 1
  have h₂ := acts_reachable (h₁.extend false (.register _) fun _ => trivial) false 1
  have h₃ := h₂.extend false (.alloc _ 7 (by decide) rfl) fun _ => trivial
  have h₄ := h₃.extend false (.link _ () 7 fun _ => rfl) fun _ => trivial
  have h₅ := acts_reachable (h₄.extend true (.protect _ 0 () (by decide)) fun _ => trivial) true 2
  have h₆ := h₅.extend false (.link _ () 0 fun h => absurd rfl h) fun _ => trivial
  have h₇ := h₆.extend false (.retire _ ⟨7, 70⟩ rfl fun _ => (by decide : 0 ≠ 7)) fun _ => trivial
  have h₈ := acts_reachable (h₇.extend false (.reclaim _) fun _ => trivial) false 13
  exact ⟨_, h₈, by decide +kernel, by decide +kernel, hazards_safe h₈⟩

end ConcurrencyKit.Hp
