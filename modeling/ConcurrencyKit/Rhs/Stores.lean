import ConcurrencyKit.Rhs.Operations

/-!
# The stores of an operation

Every operation of `ck_rhs` makes a list of stores. What an operation leaves alone is read off the
kinds of its stores: the counters of passing entries are kept up to date with stores to `wanted`
only, and a deletion marks no slot for a Robin Hood insertion.
-/

namespace ConcurrencyKit.Rhs

variable {V : Type}

namespace Store

/-- The store is to a counter of passing entries. -/
def IsWanted : Store V → Prop
  | .wanted _ _ => True
  | _ => False

/-- The store neither marks a slot nor publishes a map. -/
def Quiet : Store V → Prop
  | .inRh _ _ | .map _ => False
  | _ => True

/-- The store is one of those by which slots are chosen for a Robin Hood insertion. -/
def Chooses : Store V → Prop
  | .inRh _ _ | .probes _ _ | .probeMaximum _ | .probeBound _ _ => True
  | _ => False

theorem IsWanted.quiet {s : Store V} (h : s.IsWanted) : s.Quiet := by
  cases s <;> trivial

end Store

namespace Map

@[simp] theorem applyAll_nil (m : Map V) : m.applyAll [] = m := rfl

@[simp] theorem applyAll_cons (m : Map V) (s : Store V) (stores : List (Store V)) :
    m.applyAll (s :: stores) = (m.apply s).applyAll stores := rfl

theorem applyAll_append (m : Map V) (a b : List (Store V)) :
    m.applyAll (a ++ b) = (m.applyAll a).applyAll b := List.foldl_append

/-- What every store of a list leaves alone. -/
theorem applyAll_keeps {α : Type} {P : Store V → Prop} (f : Map V → α)
    (hf : ∀ (m : Map V) (s : Store V), P s → f (m.apply s) = f m) {stores : List (Store V)}
    (h : ∀ s ∈ stores, P s) (m : Map V) : f (m.applyAll stores) = f m := by
  induction stores generalizing m with
  | nil => rfl
  | cons s stores ih =>
    rw [applyAll_cons, ih fun s' hs' => h s' (List.mem_cons_of_mem _ hs')]
    exact hf m s (h s List.mem_cons_self)

theorem boundSet_kind (cfg : Config V) (m : Map V) (home n : Nat) :
    ∀ s ∈ m.boundSet cfg home n, ∃ k, s = .probeMaximum k ∨ s = .probeBound home k := by
  intro s hs
  unfold boundSet at hs
  rcases List.mem_append.mp hs with hs | hs
  · split at hs
    · exact ⟨_, .inl (List.mem_singleton.mp hs)⟩
    · cases hs
  · split at hs
    · exact ⟨_, .inr (List.mem_singleton.mp hs)⟩
    · cases hs

/-- Raising the probe bounds changes nothing else. -/
theorem applyAll_boundSet (cfg : Config V) (m : Map V) (home n : Nat) :
    m.applyAll (m.boundSet cfg home n) =
      { m with
        probeMaximum := max m.probeMaximum n
        probeBound := if cfg.readMostly = false ∧ m.probeBound home < n then
            Function.update m.probeBound home (min n wordMax)
          else m.probeBound } := by
  unfold boundSet
  rw [applyAll_append]
  by_cases hmax : m.probeMaximum < n
  · rw [if_pos hmax, max_eq_right hmax.le]
    split <;> rfl
  · rw [if_neg hmax, max_eq_left (Nat.le_of_not_lt hmax)]
    split <;> rfl

end Map

namespace State

@[simp] theorem exec_map (hs : State V) (stores : List (Store V)) :
    (hs.exec stores).map = hs.map.applyAll stores := rfl

@[simp] theorem exec_stores (hs : State V) (stores : List (Store V)) :
    (hs.exec stores).stores = hs.stores ++ stores := rfl

@[simp] theorem exec_loadFactor (hs : State V) (stores : List (Store V)) :
    (hs.exec stores).loadFactor = hs.loadFactor := rfl

theorem exec_nil (hs : State V) : hs.exec [] = hs := by
  simp [exec]

theorem exec_exec (hs : State V) (a b : List (Store V)) :
    (hs.exec a).exec b = hs.exec (a ++ b) := by
  simp [exec, Map.applyAll_append]

/-- The second state is reached from the first one by stores of one kind. -/
def Makes (P : Store V → Prop) (hs hs' : State V) : Prop :=
  ∃ stores, hs' = hs.exec stores ∧ ∀ s ∈ stores, P s

namespace Makes

variable {P Q : Store V → Prop} {hs hs' hs'' : State V}

theorem refl (hs : State V) : Makes P hs hs := ⟨[], hs.exec_nil.symm, nofun⟩

theorem exec {stores : List (Store V)} (h : ∀ s ∈ stores, P s) : Makes P hs (hs.exec stores) :=
  ⟨stores, rfl, h⟩

/-- Raising the probe bounds. -/
theorem boundSet (cfg : Config V) (hs : State V) (home n : Nat) (hmax : ∀ k, P (.probeMaximum k))
    (hbound : ∀ k, P (.probeBound home k)) : Makes P hs (hs.exec (hs.map.boundSet cfg home n)) := by
  refine .exec fun s hs => ?_
  obtain ⟨k, rfl | rfl⟩ := Map.boundSet_kind cfg _ home n s hs
  · exact hmax k
  · exact hbound k

theorem trans (h : Makes P hs hs') (h' : Makes P hs' hs'') : Makes P hs hs'' := by
  obtain ⟨a, rfl, ha⟩ := h
  obtain ⟨b, rfl, hb⟩ := h'
  refine ⟨a ++ b, hs.exec_exec a b, fun s hs => ?_⟩
  exact (List.mem_append.mp hs).elim (ha s) (hb s)

theorem mono (h : Makes P hs hs') (hpq : ∀ s, P s → Q s) : Makes Q hs hs' := by
  obtain ⟨a, ha, hp⟩ := h
  exact ⟨a, ha, fun s hs => hpq s (hp s hs)⟩

/-- What the stores leave alone. -/
theorem keeps {α : Type} (h : Makes P hs hs') (f : Map V → α)
    (hf : ∀ (m : Map V) (s : Store V), P s → f (m.apply s) = f m) : f hs'.map = f hs.map := by
  obtain ⟨a, rfl, hp⟩ := h
  exact Map.applyAll_keeps f hf hp hs.map

theorem inRh (h : Makes Store.Quiet hs hs') : hs'.map.inRh = hs.map.inRh := by
  refine h.keeps Map.inRh fun m s hq => ?_
  cases s <;> first | rfl | exact hq.elim

/-- What the stores by which slots are chosen leave alone. -/
theorem chooses_keep (h : Makes Store.Chooses hs hs') :
    hs'.map.capacity = hs.map.capacity ∧ hs'.map.nEntries = hs.map.nEntries ∧
      hs'.map.entries = hs.map.entries ∧ hs'.map.wanted = hs.map.wanted := by
  refine ⟨?_, ?_, ?_, ?_⟩
  all_goals
    refine h.keeps _ fun m s hs => ?_
    cases s <;> first | rfl | exact hs.elim

/-- What the stores to the counters leave alone. -/
theorem wanted_keep (h : Makes Store.IsWanted hs hs') :
    hs'.map.capacity = hs.map.capacity ∧ hs'.map.entries = hs.map.entries ∧
      hs'.map.probes = hs.map.probes ∧ hs'.map.probeMaximum = hs.map.probeMaximum := by
  refine ⟨?_, ?_, ?_, ?_⟩
  all_goals
    refine h.keeps _ fun m s hs => ?_
    cases s <;> first | rfl | exact hs.elim

end Makes

variable (cfg : Config V)

theorem addWanted_makes (hs : State V) (endOffset : Nat) (oldSlot : Option Nat) (home : Nat) :
    Makes Store.IsWanted hs (hs.addWanted cfg endOffset oldSlot home) := by
  unfold addWanted
  generalize hs.map.capacity = fuel
  generalize home = offset
  generalize (1 : Nat) = probes
  generalize oldSlot.isNone = foundSlot
  fun_induction addWantedLoop cfg endOffset oldSlot fuel offset probes foundSlot hs with
  | case1 offset probes foundSlot hs => exact .refl hs
  | case2 fuel probes foundSlot hs => exact .refl hs
  | case3 fuel offset probes foundSlot hs hne foundSlot' hs' ih =>
    refine Makes.trans ?_ ih
    unfold hs'
    split
    · exact .exec (by simp [Store.IsWanted])
    · exact .refl hs

theorem removeWanted_makes (hs : State V) (offset : Nat) (limit : Option Nat) :
    Makes Store.IsWanted hs (hs.removeWanted cfg offset limit).2 := by
  unfold removeWanted
  generalize hs.map.probes offset - 1 = probes
  generalize true = doRemove
  fun_induction removeWantedLoop cfg limit probes offset doRemove hs with
  | case1 offset doRemove hs => exact .refl hs
  | case2 probes offset doRemove hs offset' doRemove' hs' ih =>
    refine Makes.trans ?_ ih
    unfold hs'
    split
    · exact .exec (by simp [Store.IsWanted])
    · exact .refl hs

theorem lowerBound_kind (m : Map V) (h offset probe wantedProbes : Nat) :
    ∀ s ∈ m.lowerBound cfg h offset probe wantedProbes, ∃ n, s = .probeBound h n := by
  intro s hs
  unfold Map.lowerBound at hs
  dsimp only at hs
  split_ifs at hs <;> simp at hs <;> exact ⟨_, hs⟩

/-- One round of the loop of `ck_rhs_do_backward_shift_delete`, which moves the entry at `offset`
back to `slot` (`ck_rhs.c:1087-1122`): the home slot of the entry and the next state. -/
def shiftMove (slot wantedProbes probe offset : Nat) (hs : State V) : Nat × State V :=
  let hs := hs.exec [.probes slot wantedProbes]
  let (h, hs) := hs.removeWanted cfg offset (some slot)
  let hs := hs.exec [.entry slot (hs.map.entries offset), hs.map.signal h]
  let hs := hs.exec (hs.map.lowerBound cfg h offset probe wantedProbes)
  let hs := if hs.map.wanted slot < maxWanted then
      hs.exec [.wanted slot (dec 16 (hs.map.wanted slot))]
    else hs
  (h, hs)

theorem shiftLoop_succ (fuel slot h : Nat) (hs : State V) :
    shiftLoop cfg (fuel + 1) slot h hs =
      if hs.map.wanted slot = 0 then (slot, h, hs)
      else
        match hs.map.successor cfg slot with
        | none => (slot, h, hs.exec [.wanted slot 0])
        | some (wantedProbes, probe, offset) =>
          shiftLoop cfg fuel offset (hs.shiftMove cfg slot wantedProbes probe offset).1
            (hs.shiftMove cfg slot wantedProbes probe offset).2 := rfl

theorem shiftMove_quiet (slot wantedProbes probe offset : Nat) (hs : State V) :
    Makes Store.Quiet hs (hs.shiftMove cfg slot wantedProbes probe offset).2 := by
  unfold shiftMove
  dsimp only
  have h₁ : Makes Store.Quiet hs (hs.exec [.probes slot wantedProbes]) :=
    .exec (by simp [Store.Quiet])
  generalize hs.exec [.probes slot wantedProbes] = hs₁ at h₁ ⊢
  have h₂ := h₁.trans ((removeWanted_makes cfg hs₁ offset (some slot)).mono
    fun _ => Store.IsWanted.quiet)
  generalize hs₁.removeWanted cfg offset (some slot) = r at h₂ ⊢
  obtain ⟨h, hs₂⟩ := r
  dsimp only at h₂ ⊢
  have h₃ : Makes Store.Quiet hs
      (hs₂.exec [.entry slot (hs₂.map.entries offset), hs₂.map.signal h]) :=
    h₂.trans (.exec (by simp [Store.Quiet, Map.signal]))
  generalize hs₂.exec [.entry slot (hs₂.map.entries offset), hs₂.map.signal h] = hs₃ at h₃ ⊢
  have h₄ : Makes Store.Quiet hs
      (hs₃.exec (hs₃.map.lowerBound cfg h offset probe wantedProbes)) := by
    refine h₃.trans (.exec fun s hs => ?_)
    obtain ⟨n, rfl⟩ := lowerBound_kind cfg hs₃.map h offset probe wantedProbes s hs
    trivial
  split
  · exact h₄.trans (.exec (by simp [Store.Quiet]))
  · exact h₄

theorem shiftLoop_quiet (fuel slot h : Nat) (hs : State V) :
    Makes Store.Quiet hs (shiftLoop cfg fuel slot h hs).2.2 := by
  induction fuel generalizing slot h hs with
  | zero => exact .refl hs
  | succ fuel ih =>
    rw [shiftLoop_succ]
    split
    · exact .refl hs
    · split
      · exact .exec (by simp [Store.Quiet])
      · exact (shiftMove_quiet cfg _ _ _ _ hs).trans (ih _ _ _)

theorem doBackwardShiftDelete_quiet (hs : State V) (slot : Nat) :
    Makes Store.Quiet hs (hs.doBackwardShiftDelete cfg slot) := by
  unfold doBackwardShiftDelete
  have h₁ := (removeWanted_makes cfg hs slot none).mono fun _ => Store.IsWanted.quiet
  generalize hs.removeWanted cfg slot none = r at h₁ ⊢
  obtain ⟨h, hs₁⟩ := r
  dsimp only at h₁ ⊢
  have h₂ := h₁.trans (shiftLoop_quiet cfg hs₁.map.shiftFuel slot h hs₁)
  generalize shiftLoop cfg hs₁.map.shiftFuel slot h hs₁ = r at h₂ ⊢
  obtain ⟨slot', h', hs₂⟩ := r
  dsimp only at h₂ ⊢
  have h₃ : Makes Store.Quiet hs (hs₂.exec [.entry slot' none]) :=
    h₂.trans (.exec (by simp [Store.Quiet]))
  generalize hs₂.exec [.entry slot' none] = hs₃ at h₃ ⊢
  refine Makes.trans ?_ (.exec (by simp [Store.Quiet]))
  split
  · exact h₃.trans (.exec (by simp [Store.Quiet]))
  · exact h₃

end State

end ConcurrencyKit.Rhs
