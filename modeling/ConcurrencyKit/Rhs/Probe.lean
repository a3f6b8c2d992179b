import ConcurrencyKit.Rhs.Operations
import ConcurrencyKit.Rhs.Sequence

/-!
# What a probe finds

The probe functions of `ck_rhs` walk along the probe sequence of a home slot. `Found` says what
their results mean for the slots that have been read: the slot that is picked for a Robin Hood
insertion holds an entry that is nearer to its own home slot, and the walk ends at an empty slot or
at the key, or it has been stopped.
-/

namespace ConcurrencyKit.Rhs

variable {V : Type}

namespace Map

variable (cfg : Config V) (m : Map V) (hit : Word V → Bool) (home : Nat)

/-- The slot that probe number `k` reads. -/
def slotAt (k : Nat) : Nat := cursor cfg.line m.capacity home k

/-- The slots from probe number `a` to before number `k` are in use, and not by the key. -/
def Busy (a k : Nat) : Prop :=
  ∀ j, a ≤ j → j < k → ∃ w, m.entries (m.slotAt cfg home j) = some w ∧ hit w = false

/-- The slot `f` has been picked by probe number `k`, after those from number `a`. -/
structure Picks (a k f : Nat) : Prop where
  start : a ≤ k
  slot : m.slotAt cfg home k = f
  busy : m.Busy cfg hit home a k
  word : m.entries f ≠ none
  nearer : m.probes f < k + 1

/-- The walk has ended at slot `s` with probe number `k`. -/
structure Ends (a k s : Nat) (r : ProbeResult V) : Prop where
  start : a ≤ k
  slot : m.slotAt cfg home k = s
  busy : m.Busy cfg hit home a k
  word : (m.entries s = none ∧ r.object = none) ∨
    (∃ w, m.entries s = some w ∧ hit w = true ∧ r.object = some w.obj) ∨
    (r.first = some s ∧ r.object = none)

/-- The result of a walk from probe number `a`, with the slot `pr` picked before. -/
structure Found (a : Nat) (pr : Option (Nat × Nat)) (r : ProbeResult V) : Prop where
  kept : ∀ p, pr = some p → r.first = some p.1 ∧ r.nProbes = p.2
  picked : pr = none → ∀ f, r.first = some f →
    ∃ k, r.nProbes = k + 1 ∧ m.Picks cfg hit home a k f
  ends : ∀ s, r.slot = some s → ∃ k, m.Ends cfg hit home a k s r ∧
    (pr = none → r.nProbes ≤ k + 1 ∧ (r.first = none → r.nProbes = k + 1))
  missed : r.slot = none → r.object = none

variable {cfg m hit home}

theorem slotAt_succ (k : Nat) :
    probeNext cfg.line m.capacity (m.slotAt cfg home k) (k + 1) = m.slotAt cfg home (k + 1) := rfl

theorem Busy.cons {a k : Nat} {w : Word V} (h : m.Busy cfg hit home (a + 1) k)
    (hw : m.entries (m.slotAt cfg home a) = some w) (hhit : hit w = false) :
    m.Busy cfg hit home a k := by
  intro j haj hjk
  rcases Nat.eq_or_lt_of_le haj with rfl | hlt
  · exact ⟨w, hw, hhit⟩
  · exact h j hlt hjk

/-- A walk that has not got to the end of its sequence. -/
theorem Found.stopped {a : Nat} {pr : Option (Nat × Nat)} {limit n : Nat} (hn : limit < n) :
    m.Found cfg hit home a pr (probeLeave n limit (m.slotAt cfg home a) none pr) := by
  unfold probeLeave
  rw [if_pos hn, if_pos hn]
  refine ⟨?_, ?_, nofun, fun _ => rfl⟩
  · rintro p rfl
    exact ⟨rfl, rfl⟩
  · rintro rfl f hf
    cases hf

/-- A walk that ends with the slot it has come to. -/
theorem Found.leave {a : Nat} {pr pr' : Option (Nat × Nat)} {limit : Nat} {object : Option V}
    (hkept : ∀ p, pr = some p → pr' = some p)
    (hpicked : pr = none → ∀ p, pr' = some p →
      p.2 = a + 1 ∧ m.Picks cfg hit home a a p.1)
    (hword : let s := m.slotAt cfg home a
      (m.entries s = none ∧ object = none) ∨
      (∃ w, m.entries s = some w ∧ hit w = true ∧ object = some w.obj) ∨
      (pr'.map Prod.fst = some s ∧ object = none)) :
    m.Found cfg hit home a pr (probeLeave (a + 1) limit (m.slotAt cfg home a) object pr') := by
  unfold probeLeave
  refine ⟨?_, ?_, ?_, ?_⟩
  · intro p hp
    rw [hkept p hp]
    exact ⟨rfl, rfl⟩
  · intro hp f hf
    obtain ⟨p, hp', rfl⟩ := Option.map_eq_some_iff.mp hf
    obtain ⟨hn, hpick⟩ := hpicked hp p hp'
    exact ⟨a, by simp [hp', hn], hpick⟩
  · intro s hs
    dsimp only at hs ⊢
    split at hs
    · cases hs
    rename_i hlt
    cases hs
    simp only [if_neg hlt]
    refine ⟨a, ⟨le_rfl, rfl, fun j haj hja => absurd hja (Nat.not_lt.mpr haj), hword⟩, fun hp => ?_⟩
    cases hpr : pr' with
    | none => exact ⟨le_rfl, fun _ => rfl⟩
    | some p =>
      obtain ⟨hn, -⟩ := hpicked hp p hpr
      exact ⟨hn.le, fun h => by cases h⟩
  · intro hs
    dsimp only at hs ⊢
    split at hs
    · rename_i hlt
      rw [if_pos hlt]
    · cases hs

/-- A walk that goes on to the next slot. -/
theorem Found.step {a : Nat} {pr pr' : Option (Nat × Nat)} {r : ProbeResult V} {w : Word V}
    (hw : m.entries (m.slotAt cfg home a) = some w) (hhit : hit w = false)
    (hkept : ∀ p, pr = some p → pr' = some p)
    (hpicked : pr = none → ∀ p, pr' = some p →
      p.2 = a + 1 ∧ m.Picks cfg hit home a a p.1)
    (h : m.Found cfg hit home (a + 1) pr' r) : m.Found cfg hit home a pr r := by
  refine ⟨fun p hp => h.kept p (hkept p hp), ?_, ?_, h.missed⟩
  · intro hp f hf
    cases hpr : pr' with
    | none =>
      obtain ⟨k, hn, hpick⟩ := h.picked hpr f hf
      exact ⟨k, hn, (Nat.le_succ a).trans hpick.start, hpick.slot, hpick.busy.cons hw hhit,
        hpick.word, hpick.nearer⟩
    | some p =>
      obtain ⟨hn, hpick⟩ := hpicked hp p hpr
      obtain ⟨hfirst, hprobes⟩ := h.kept p hpr
      rw [hfirst] at hf
      cases hf
      exact ⟨a, hprobes.trans hn, hpick⟩
  · intro s hs
    obtain ⟨k, hend, hn⟩ := h.ends s hs
    refine ⟨k, ⟨(Nat.le_succ a).trans hend.start, hend.slot, hend.busy.cons hw hhit, hend.word⟩, ?_⟩
    intro hp
    cases hpr : pr' with
    | none => exact hn hpr
    | some p =>
      obtain ⟨hn', -⟩ := hpicked hp p hpr
      obtain ⟨hfirst, hprobes⟩ := h.kept p hpr
      have hstart := hend.start
      rw [hprobes, hn', hfirst]
      exact ⟨by omega, nofun⟩

/-- What the loop of the probe functions finds. -/
theorem probeLoop_found (opl : Nat) (behavior : ProbeBehavior) (fuel a limit : Nat)
    (pr : Option (Nat × Nat)) :
    m.Found cfg hit home a pr
      (probeLoop cfg m hit opl behavior fuel (m.slotAt cfg home a) a limit pr) := by
  induction fuel generalizing a limit pr with
  | zero => exact .stopped (by omega)
  | succ fuel ih =>
    rw [probeLoop]
    split
    · rename_i hlimit
      exact .stopped (by omega)
    generalize (if a = limit then opl else limit) = limit'
    dsimp only
    split
    · rename_i hempty
      refine .leave (fun _ h => h) (fun hp p hp' => ?_) (.inl ⟨hempty, rfl⟩)
      rw [hp] at hp'
      cases hp'
    rename_i w hw
    -- the slot is picked, or another one has been picked before
    generalize hpick : m.picked behavior (m.slotAt cfg home a) (a + 1) pr = pick
    have hkept : ∀ p, pr = some p →
        (if pick = true then some (m.slotAt cfg home a, a + 1) else pr) = some p := by
      rintro p rfl
      have : pick = false := by
        rw [← hpick, picked, Option.isNone_some, Bool.and_false, Bool.false_and, Bool.false_and]
      rw [this, if_neg Bool.false_ne_true]
    have hpicked : pr = none → ∀ p,
        (if pick = true then some (m.slotAt cfg home a, a + 1) else pr) = some p →
          p.2 = a + 1 ∧ m.Picks cfg hit home a a p.1 := by
      intro hp p hp'
      cases pick with
      | false =>
        rw [if_neg Bool.false_ne_true, hp] at hp'
        cases hp'
      | true =>
        rw [if_pos rfl] at hp'
        cases hp'
        simp only [picked, Bool.and_eq_true, Bool.not_eq_true', decide_eq_true_eq] at hpick
        exact ⟨rfl, le_rfl, rfl, fun j haj hja => absurd hja (Nat.not_lt.mpr haj),
          by rw [hw]; exact nofun, hpick.2⟩
    split
    · rename_i hstop
      refine .leave hkept hpicked (.inr (.inr ⟨?_, rfl⟩))
      rw [hstop.1, if_pos rfl]
      rfl
    split
    · rename_i hhit
      exact .leave hkept hpicked (.inr (.inl ⟨w, hw, hhit, rfl⟩))
    · rename_i hhit
      rw [slotAt_succ]
      exact .step hw (Bool.eq_false_of_not_eq_true hhit) hkept hpicked (ih _ _ _)

variable [DecidableEq V]

/-- What a probe for a key finds. -/
theorem probe_found (cfg : Config V) (m : Map V) (h : BitVec 64) (key : V) (probeLimit : Nat)
    (behavior : ProbeBehavior) :
    m.Found cfg (cfg.hit h key) (m.home h) 0 none
      (m.probe cfg h key probeLimit behavior) :=
  probeLoop_found probeLimit behavior _ 0 _ none

omit [DecidableEq V] in
/-- What the probe for room for an entry finds, which goes on from the slot of the entry. -/
theorem probeFrom_found {slot n : Nat} (behavior : ProbeBehavior) (hn : 0 < n)
    (hslot : m.slotAt cfg home (n - 1) = slot) :
    m.Found cfg (fun _ => false) home n none (m.probeFrom cfg slot n behavior) := by
  obtain ⟨n, rfl⟩ := Nat.exists_eq_add_of_le' hn
  rw [Nat.add_sub_cancel] at hslot
  unfold probeFrom
  rw [← hslot, slotAt_succ]
  exact probeLoop_found _ behavior _ _ _ none

end Map

end ConcurrencyKit.Rhs
