import ConcurrencyKit.Rhs.Calls
import ConcurrencyKit.Rhs.Slots

/-!
# The count of entries

`map->n_entries` is kept by hand. It is the number of slots in use as long as every call counts the
slot that it fills or clears, and `ck_rhs_apply` does not count a deletion.
-/

namespace ConcurrencyKit.Rhs

variable {V : Type}

namespace State

variable {cfg : Config V} {hs hs' : State V} {c n : Nat} {u : Nat → Bool}

/-! ## Insertion -/

/-- What an insertion relies on of the result of a probe. -/
structure Reads (m : Map V) (r : ProbeResult V) : Prop where
  first : ∀ f, r.first = some f → m.entries f ≠ none
  missed : r.slot = none → r.object = none
  hit : ∀ s, r.slot = some s → r.object.isSome = true → m.entries s ≠ none
  free : ∀ s, r.slot = some s → r.first = none → r.object = none →
    s < m.capacity ∧ m.entries s = none

theorem probe_reads [DecidableEq V] {m : Map V} (hl : Lines cfg.line m.capacity) (h : BitVec 64)
    (key : V) (limit : Nat) (behavior : ProbeBehavior) :
    Reads m (m.probe cfg h key limit behavior) := by
  have hfound := m.probe_found cfg h key limit behavior
  have hh : m.home h < m.capacity := Map.home_lt hl.capacity_pos h
  generalize m.probe cfg h key limit behavior = r at hfound ⊢
  constructor
  · intro f hf
    obtain ⟨k, -, hpick⟩ := hfound.picked rfl f hf
    exact hpick.word
  · exact hfound.missed
  · intro s hs ho
    obtain ⟨k, hend, -⟩ := hfound.ends s hs
    rcases hend.word with ⟨-, hnone⟩ | ⟨w, hw, -⟩ | ⟨-, hnone⟩
    · rw [hnone] at ho
      cases ho
    · rw [hw]
      exact Option.some_ne_none w
    · rw [hnone] at ho
      cases ho
  · intro s hs hfirst ho
    obtain ⟨k, hend, -⟩ := hfound.ends s hs
    refine ⟨hend.slot ▸ cursor_lt hl hh k, ?_⟩
    rcases hend.word with ⟨hempty, -⟩ | ⟨w, -, -, hsome⟩ | ⟨hpicked, -⟩
    · exact hempty
    · rw [ho] at hsome
      cases hsome
    · rw [hfirst] at hpicked
      cases hpicked

/-- What an installation does to the slots in use, of which there are `k` in the end. -/
inductive Installed (c n : Nat) (u : Nat → Bool) (k : Nat) : Relocation × State V → Prop
  | grown (hs' : State V) (counted : hs'.map.Counted) : Installed c n u k (.grown, hs')
  | failed (hs' : State V) (holds : hs'.map.Holds c n u) : Installed c n u k (.failed, hs')
  | moved (hs' : State V) (u' : Nat → Bool) (holds : hs'.map.Holds c n u')
      (count : tally id u' c = k) : Installed c n u k (.moved, hs')

theorem install_installed (hl : Lines cfg.line c) (hm : hs.map.Holds c n u) {r : ProbeResult V}
    (hr : Reads hs.map r) (h : BitVec 64) (w : Word V) (guard : Option Nat) :
    Installed c n u (tally id u c + if r.object.isSome then 0 else 1)
      (hs.install cfg h r w guard) := by
  unfold install
  have hb := boundSet_holds cfg hm (hs.map.home h) r.nProbes
  generalize hs.exec (hs.map.boundSet cfg (hs.map.home h) r.nProbes) = hs₁ at hb ⊢
  obtain ⟨slot, first, object, k⟩ := r
  cases first with
  | some first =>
    dsimp only
    have hfirst : u first = true := hm.ne_none.mp (hr.first first rfl)
    have hreloc := putRobinHood_shifted hl (markRh_holds hb guard true) hfirst
    generalize (hs₁.markRh guard true).putRobinHood cfg first = res at hreloc ⊢
    cases hreloc with
    | grown hs' counted => exact .grown hs' counted
    | failed hs' holds => exact .failed _ (markRh_holds holds guard false)
    | moved hs' e lt empty holds =>
      dsimp only
      have h₂ := markRh_holds holds guard false
      generalize hs'.markRh guard false = hs₂ at h₂ ⊢
      have h₃ : (hs₂.exec [.entry first (some w), .probes first k]).map.Holds c n
          (Function.update u e true) :=
        (h₂.refill (update_true hfirst) rfl).setProbes (update_true hfirst) k
      generalize hs₂.exec [.entry first (some w), .probes first k] = hs₃ at h₃ ⊢
      have h₄ := addWanted_holds cfg h₃ first none (hs₃.map.home h)
      generalize hs₃.addWanted cfg first none (hs₃.map.home h) = hs₄ at h₄ ⊢
      cases object with
      | none => exact .moved _ _ h₄ (Map.tally_true lt empty)
      | some o =>
        cases slot with
        | none => exact absurd (hr.missed rfl) (Option.some_ne_none o)
        | some s =>
          -- the duplicate is deleted
          have h₅ : (hs₄.exec [hs₄.map.signal h.toNat]).map.Holds c n (Function.update u e true) :=
            h₄.congr rfl rfl rfl fun _ _ => rfl
          obtain ⟨u', h₆, hcount⟩ := doBackwardShiftDelete_replaced hl lt empty h₅
            (hm.ne_none.mp (hr.hit s rfl rfl))
          exact .moved _ u' h₆ hcount
  | none =>
    cases slot with
    | none => exact .failed _ hb
    | some s =>
      dsimp only
      cases object with
      | none =>
        obtain ⟨hlt, hempty⟩ := hr.free s rfl rfl rfl
        rw [hm.capacity] at hlt
        have h₂ : (hs₁.exec [.entry s (some w), .probes s k]).map.Holds c n
            (Function.update u s true) :=
          (hb.fill hlt w).setProbes (Function.update_self ..) k
        exact .moved _ _ (addWanted_holds cfg h₂ _ _ _) (Map.tally_true hlt (hm.eq_none.mp hempty))
      | some o =>
        have hs : u s = true := hm.ne_none.mp (hr.hit s rfl rfl)
        exact .moved _ u ((hb.refill hs rfl).setProbes hs k) rfl

theorem postinsert_counted (hm : hs.map.Holds c n u) (hc : ∃ k, 3 ≤ k ∧ k ≤ 64 ∧ c = 2 ^ k)
    (hn : tally id u c = n + 1) : (hs.postinsert cfg).map.Counted := by
  have hcount : (hs.exec [.nEntries (hs.map.nEntries + 1)]).map.Holds c (n + 1) u :=
    ⟨hm.capacity, by rw [← hm.nEntries]; rfl, hm.used, hm.inside, hm.empty⟩
  have hcounted := hcount.counted hc hn.symm
  unfold postinsert
  dsimp only
  split
  · exact grow_counted cfg hcounted _
  · exact hcounted

variable [DecidableEq V] {h : BitVec 64} {key : V} {fuel : Nat}

omit [DecidableEq V] in
/-- An installation leaves the count right, once an object that is new has been counted. -/
theorem install_counted {r : ProbeResult V} {w : Word V} {guard : Option Nat} (hc : hs.map.Counted)
    (hr : Reads hs.map r) : (finish cfg r.object (hs.install cfg h r w guard)).map.Counted := by
  have hcount := hc.count
  have hinstall := install_installed (hc.lines cfg) hc.holds hr h w guard
  generalize hs.install cfg h r w guard = res at hinstall ⊢
  cases hinstall with
  | grown hs' counted => exact counted
  | failed hs' holds => exact holds.counted hc.capacity hcount
  | moved hs' u' holds count =>
    rw [finish_moved]
    split
    · rename_i hsome
      rw [if_pos hsome, Nat.add_zero] at count
      exact holds.counted hc.capacity (hcount.trans count.symm)
    · rename_i hnone
      rw [if_neg hnone] at count
      refine postinsert_counted holds hc.capacity (count.trans ?_)
      rw [hcount]
      rfl

theorem fasLoop_counted {r : Bool × Option V} (hc : hs.map.Counted)
    (hfas : fasLoop cfg h key fuel hs = .ok (r, hs')) : hs'.map.Counted := by
  induction fuel generalizing hs with
  | zero => cases hfas
  | succ fuel ih =>
    rw [fasLoop] at hfas
    have hreads := probe_reads (hc.lines cfg) h key (hs.map.boundGet cfg (hs.map.home h)) .probe
    generalize hs.map.probe cfg h key _ .probe = r' at hreads hfas
    dsimp only at hfas
    split at hfas
    · rename_i object slot hobject hslot
      have hused : (hs.map.entries slot).isSome = true :=
        Option.isSome_iff_ne_none.mpr (hreads.hit slot hslot (by rw [hobject]; rfl))
      split at hfas
      · rename_i first hfirst
        have hreloc := putRobinHood_shifted (hc.lines cfg) (markRh_holds hc.holds (some slot) true)
          (Option.isSome_iff_ne_none.mpr (hreads.first first hfirst))
        generalize (hs.markRh (some slot) true).putRobinHood cfg first = res at hreloc hfas
        cases hreloc with
        | grown hs₁ counted => exact ih counted hfas
        | failed hs₁ holds =>
          cases hfas
          exact (markRh_holds holds (some slot) false).counted hc.capacity hc.count
        | moved hs₁ e lt empty holds =>
          cases hfas
          have h₁ := markRh_holds holds (some slot) false
          generalize hs₁.markRh (some slot) false = hs₂ at h₁ ⊢
          have hfirst' := hc.holds.ne_none.mp (hreads.first first hfirst)
          have h₂ : (hs₂.exec [.entry first (some (cfg.marshal key h)), hs₂.map.signal h.toNat,
              .probes first r'.nProbes]).map.Holds hs.map.capacity hs.map.nEntries _ :=
            ((h₁.refill (update_true hfirst') rfl).setProbes (update_true hfirst') _).congr
              rfl rfl rfl fun _ _ => rfl
          obtain ⟨u', h₃, hcount⟩ := doBackwardShiftDelete_replaced (hc.lines cfg) lt empty
            (addWanted_holds cfg h₂ first none _) hused
          exact h₃.counted hc.capacity (hc.count.trans hcount.symm)
      · cases hfas
        have h₁ : (hs.map.apply (.entry slot (some (cfg.marshal key h)))).Holds _ _ _ :=
          hc.holds.refill hused rfl
        exact (h₁.setProbes hused r'.nProbes).counted hc.capacity hc.count
    · cases hfas
      exact hc

/-- `ck_rhs_remove` counts its deletion. -/
theorem remove_counted (cfg : Config V) (h : BitVec 64) (key : V) (hc : hs.map.Counted) :
    (hs.remove cfg h key).2.map.Counted := by
  unfold remove
  have hreads := probe_reads (hc.lines cfg) h key (hs.map.boundGet cfg (hs.map.home h)) .noRh
  generalize hs.map.probe cfg h key _ .noRh = r at hreads
  dsimp only
  split
  · rename_i object slot hobject hslot
    have hused := hc.holds.ne_none.mp (hreads.hit slot hslot (by rw [hobject]; rfl))
    have hpos : 0 < hs.map.nEntries := by
      rw [hc.count]
      exact tally_pos (hc.holds.inside slot hused) hused
    have hle : hs.map.nEntries ≤ 2 ^ 64 := by
      obtain ⟨k, -, h64, hk⟩ := hc.capacity
      rw [hc.count]
      refine (tally_le _ _ _).trans ?_
      rw [hk]
      exact Nat.pow_le_pow_right (by decide) h64
    rw [dec_of_pos hpos hle]
    have h₁ : (hs.exec [.nEntries (hs.map.nEntries - 1)]).map.Holds hs.map.capacity
        (hs.map.nEntries - 1) fun t => (hs.map.entries t).isSome :=
      ⟨rfl, rfl, hc.holds.used, hc.holds.inside, hc.holds.empty⟩
    obtain ⟨e, hlt, he, h₂⟩ := doBackwardShiftDelete_holds (hc.lines cfg) h₁ hused
    refine h₂.counted hc.capacity ?_
    have hcount : hs.map.nEntries = tally id (fun t => (hs.map.entries t).isSome) hs.map.capacity :=
      hc.count
    have hdown := Map.tally_false (u := fun t => (hs.map.entries t).isSome) hlt he
    omega
  · exact hc

omit [DecidableEq V] in
theorem reset_counted (cfg : Config V) (hc : hs.map.Counted) : (hs.reset cfg).2.map.Counted := by
  unfold reset create
  by_cases hmalloc : cfg.malloc hs.allocs = true
  · simp only [hmalloc, if_true]
    exact .create _ _
  · simp only [hmalloc, Bool.false_eq_true, if_false]
    exact hc

end State

/-! ## Runs -/

/-- The answer of an apply function does not ask for the deletion of a stored object. -/
def KeepsStored (_key : V) (object answer : Option V) : Prop := object ≠ none → answer ≠ none

section Runs

variable [DecidableEq V] {cfg : Config V} {hs : State V}

open State in
/-- Every call counts what it does, but for a deletion through `ck_rhs_apply`. -/
theorem counted_preserved (cfg : Config V) :
    Preserved cfg (fun hs => hs.map.Counted) KeepsStored where
  key _ _ _ := Option.some_ne_none _
  lines _ hc := hc.lines cfg
  grow _ capacity hc := grow_counted cfg hc capacity
  load _ _ _ hc := ⟨hc.capacity, hc.count, hc.inside, hc.empty⟩
  gc _ hc := ⟨hc.capacity, hc.count, hc.inside, hc.empty⟩
  reset _ hc := reset_counted cfg hc
  remove _ key hc := remove_counted cfg _ key hc
  fas _ _ _ _ hc hfas := fasLoop_counted hc hfas
  delete _ _ object _ _ hkeep := absurd rfl (hkeep (Option.some_ne_none object))
  install _ key _ _ behavior _ hc _ :=
    install_counted hc (probe_reads (hc.lines cfg) _ key _ behavior)

omit [DecidableEq V] in
theorem init_counted {entries : Nat} (hinit : init cfg entries = some hs) : hs.map.Counted := by
  unfold init at hinit
  split at hinit
  · cases hinit
    exact .create _ _
  · cases hinit

/-- In every state after calls none of which deletes a stored object through `ck_rhs_apply`, the
count of entries is the number of slots in use. -/
theorem entries_counted {entries : Nat} {hs₀ : State V} (hinit : init cfg entries = some hs₀)
    {ops : List (Op V)} (hkeep : Answering cfg KeepsStored hs₀ ops) {rs : List (Result V)}
    (hrun : run cfg hs₀ ops = .ok (rs, hs)) :
    hs.map.nEntries = tally Option.isSome hs.map.entries hs.map.capacity :=
  ((counted_preserved cfg).run (init_counted hinit) hkeep hrun).count

end Runs

/-- Calls that insert, keep, replace and remove. -/
def keepingCalls : List (Op Nat) := [.put 1, .putUnique 9, .apply 1 id, .set 9, .remove 1]

theorem keepingCalls_keeping (hs : State Nat) : Answering oneMap KeepsStored hs keepingCalls :=
  ⟨trivial, fun _ _ _ => ⟨trivial, fun _ _ _ => ⟨⟨id, fun _ _ => id⟩, fun _ _ _ => ⟨trivial,
    fun _ _ _ => ⟨trivial, fun _ _ _ => trivial⟩⟩⟩⟩⟩

theorem entries_counted_keepingCalls :
    ∃ hs₀ rs hs, init oneMap 8 = some hs₀ ∧ run oneMap hs₀ keepingCalls = .ok (rs, hs) ∧
      hs.map.nEntries = tally Option.isSome hs.map.entries hs.map.capacity := by
  have hret : ((init oneMap 8).map fun hs => (run oneMap hs keepingCalls).toOption.isSome) =
      some true := by decide +kernel
  obtain ⟨hs₀, hinit, hsome⟩ := Option.map_eq_some_iff.mp hret
  cases hrun : run oneMap hs₀ keepingCalls with
  | error e =>
    rw [hrun] at hsome
    cases hsome
  | ok p =>
    exact ⟨hs₀, p.1, p.2, hinit, hrun, entries_counted hinit (keepingCalls_keeping hs₀) hrun⟩

/-- A number is stored and deleted again through `ck_rhs_apply`. -/
theorem entries_counted_deleted :
    ∃ hs₀ rs hs, init oneMap 8 = some hs₀ ∧
      run oneMap hs₀ [.put 1, .apply 1 fun _ => none] = .ok (rs, hs) ∧
      hs.map.nEntries = 1 ∧ tally Option.isSome hs.map.entries hs.map.capacity = 0 := by
  have heval : ((init oneMap 8).map fun hs =>
      (run oneMap hs [.put 1, .apply 1 fun _ => none]).toOption.map fun p =>
        (p.2.map.nEntries, tally Option.isSome p.2.map.entries p.2.map.capacity)) =
      some (some (1, 0)) := by decide +kernel
  obtain ⟨hs₀, hinit, hsome⟩ := Option.map_eq_some_iff.mp heval
  cases hrun : run oneMap hs₀ [.put 1, .apply 1 fun _ => none] with
  | error e =>
    rw [hrun] at hsome
    cases hsome
  | ok p =>
    rw [hrun] at hsome
    obtain ⟨hcount, hused⟩ := Prod.mk.inj (Option.some.inj hsome)
    exact ⟨hs₀, p.1, p.2, hinit, hrun, hcount, hused⟩

end ConcurrencyKit.Rhs
