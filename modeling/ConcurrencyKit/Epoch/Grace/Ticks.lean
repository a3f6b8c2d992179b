import ConcurrencyKit.Epoch.Grace.Records

/-!
# Which epochs are in use

The global epoch is advanced from `e` only after a scan that has found every active record in the
epoch `e`. A record that becomes active behind the scan loads the global epoch later, and as long as
that still is `e` it will stand for `e` as well. So an active record always stands for the global
epoch or for the one before it.
-/

namespace ConcurrencyKit.Epoch.Grace

open Threads (Invariant GuardedInvariant System)

variable {ι : Type}

/-- The record is not active, or it stands for the epoch `e`. A record that has never stored an
epoch looks as if it did when `2 ^ 32` is stored as zero. -/
def Caught (m : Mem ι) (e : Nat) (j : ι) : Prop :=
  (m.record j).active = 0 ∨ e ≤ m.reached j ∨ e = 2 ^ 32

/-- A scan in the epoch `e` has passed all records but the ones in `rest`. -/
structure Swept (m : Mem ι) (e : Nat) (rest : List ι) : Prop where
  pos : 1 ≤ e
  le : e ≤ m.epoch
  caught : m.epoch = e → ∀ j, j ∉ rest → Caught m e j

/-- What the scan of a thread has found. -/
def Watch (m : Mem ι) : Pc ι → Prop
  | .scanFirst _ e => 1 ≤ e ∧ e ≤ m.epoch
  | .scanActive _ e rest _ => Swept m e rest
  | .scanEpoch _ e cr rest => Swept m e (cr :: rest)
  | .pollCas _ e => Swept m e []
  | .synchronizeReload _ _ _ delta cr rest => Swept m delta (cr :: rest)
  | .synchronizeCas _ _ _ delta => Swept m delta []
  | _ => True

/-- Active records stand for the global epoch or for the one before it. -/
def Near (m : Mem ι) : Prop := ∀ j, (m.record j).active ≠ 0 → m.epoch ≤ m.reached j + 1

/-- The epoch that a compare-and-swap is about to advance. -/
def Pc.ticks : Pc ι → Option Nat
  | .pollCas _ e => some e
  | .synchronizeCas _ _ _ delta => some delta
  | _ => none

/-- What the steps may rely on. -/
def Owned (i : ι) (m : Mem ι) (t : Thread ι) : Prop := Few i m t ∧ Inv m ∧ At i m t

section Steps

variable {i : ι} {m m' : Mem ι} {t t' : Thread ι} {e : Nat} {rest : List ι} {j : ι}

theorem Caught.change (hc : Change i m m') (he : m.epoch = e) (h : Caught m e j) :
    Caught m' e j := by
  by_cases hj : j = i
  · subst hj
    by_cases hz : (m'.record j).active = 0
    · exact .inl hz
    · right
      rcases hc.active hz with ⟨hne, hle⟩ | hle
      · rcases h with h0 | h1 | h2
        · exact absurd h0 hne
        · exact .inl (h1.trans hle)
        · exact .inr h2
      · exact .inl (he ▸ hle)
  · unfold Caught
    rw [hc.record j hj, hc.reached j hj]
    exact h

theorem Swept.change (hc : Change i m m') (h : Swept m e rest) : Swept m' e rest where
  pos := h.pos
  le := h.le.trans hc.now.2
  caught he j hj := by
    have heq : m.epoch = e := le_antisymm (he ▸ hc.now.2) h.le
    exact (h.caught heq j hj).change hc heq

theorem Watch.change {pc : Pc ι} (hc : Change i m m') (h : Watch m pc) : Watch m' pc := by
  cases pc with
  | scanFirst k e => exact ⟨h.1, h.2.trans hc.now.2⟩
  | scanActive k e rest active => exact Swept.change hc h
  | scanEpoch k e cr rest => exact Swept.change hc h
  | pollCas deferred e => exact Swept.change hc h
  | synchronizeReload barrier called n delta cr rest => exact Swept.change hc h
  | synchronizeCas barrier called n delta => exact Swept.change hc h
  | _ => trivial

theorem Near.change (hc : Change i m m') (he : m'.epoch = m.epoch) (h : Near m) : Near m' := by
  intro j hj
  rw [he]
  by_cases hji : j = i
  · subst hji
    rcases hc.active hj with ⟨hne, hle⟩ | hle
    · exact (h j hne).trans (Nat.succ_le_succ hle)
    · exact hle.trans (Nat.le_succ _)
  · rw [hc.record j hji] at hj
    rw [hc.reached j hji]
    exact h j hj

/-- The scan goes past a record. -/
theorem Swept.pass {cr : ι} (h : Swept m e (cr :: rest)) (hcr : m.epoch = e → Caught m e cr) :
    Swept m e rest where
  pos := h.pos
  le := h.le
  caught he j hj := by
    by_cases hjc : j = cr
    · exact hjc ▸ hcr he
    · exact h.caught he j (by simp [hjc, hj])

/-- An active record in the epoch of the scan. -/
theorem caught_of_word (hf : Fits (m.record j) (m.sections j) (m.reached j) m.now (j ∈ m.records))
    (few : m.epoch ≤ 2 ^ 32) (he : m.epoch = e) (hw : word (m.record j).epoch = word e) :
    Caught m e j := by
  by_cases hz : (m.record j).active = 0
  · exact .inl hz
  right
  have hle : (m.record j).epoch ≤ m.epoch := hf.epoch_le
  by_cases hlt : e < (m.record j).epoch + 2 ^ 32
  · have heq := Threads.eq_of_mod_eq (he ▸ hle) hlt hw
    exact .inl (heq ▸ hf.ahead hz)
  · exact .inr (by omega)

theorem tick_near (few : m.epoch ≤ 2 ^ 32) (few' : (m.tick e).epoch ≤ 2 ^ 32)
    (h : Swept m e []) (hn : Near m) : Near (m.tick e) := by
  unfold Mem.tick at few' ⊢
  split
  · rename_i hw
    rw [if_pos hw] at few'
    have hpos := h.pos
    have heq : e = m.epoch := Threads.eq_of_mod_eq h.le (by omega) hw.symm
    intro j hj
    show m.epoch + 1 ≤ m.reached j + 1
    have hlt : m.epoch + 1 ≤ 2 ^ 32 := few'
    rcases h.caught heq.symm j List.not_mem_nil with h0 | h1 | h2
    · exact absurd h0 hj
    · omega
    · omega
  · exact hn

variable [DecidableEq ι]

theorem act_tick (h : t.pc.ticks = some e) :
    ∃ rounds, (m.act i t).1 = { m.tick e with rounds := rounds } := by
  obtain ⟨frames, pc⟩ := t
  cases pc with
  | pollCas deferred delta =>
    cases h
    exact ⟨_, rfl⟩
  | synchronizeCas barrier called n delta =>
    cases h
    unfold Mem.act
    dsimp only
    split <;> exact ⟨_, rfl⟩
  | _ => cases h

/-- Only a compare-and-swap advances the global epoch. -/
theorem act_epoch (h : t.pc.ticks = none) : (m.act i t).1.epoch = m.epoch := by
  obtain ⟨frames, pc⟩ := t
  cases pc with
  | pollCas deferred e => cases h
  | synchronizeCas barrier called n delta => cases h
  | beginActive object =>
    unfold Mem.act
    dsimp only
    split
    · rfl
    · split <;> rfl
  | beginStore object e => cases object <;> rfl
  | endActive x =>
    unfold Mem.act
    dsimp only
    split <;> rfl
  | synchronizeLoad barrier => cases barrier <;> rfl
  | scanActive k e rest active =>
    cases rest with
    | nil => cases k <;> cases active <;> rfl
    | cons cr rest =>
      unfold Mem.act
      dsimp only
      split <;> rfl
  | scanEpoch k e cr rest =>
    unfold Mem.act
    dsimp only
    split
    · rfl
    · cases k with
      | poll deferred => rfl
      | synchronize barrier called n => rfl
  | synchronizeReload barrier called n delta cr rest =>
    unfold Mem.act
    dsimp only
    split
    · rfl
    · split <;> rfl
  | synchronized barrier called => cases barrier <;> rfl
  | dispatch caller =>
    obtain ⟨deferred, epochs, result⟩ := caller
    cases epochs with
    | nil => rfl
    | cons e epochs => rfl
  | walk caller batch =>
    cases batch with
    | nil => rfl
    | cons entry batch =>
      simp only [Mem.act]
      split <;> rfl
  | _ => rfl

omit [DecidableEq ι] in
theorem Watch.tick {pc : Pc ι} (h : Watch m pc) (he : pc.ticks = some e) : Swept m e [] := by
  cases pc with
  | pollCas deferred delta =>
    cases he
    exact h
  | synchronizeCas barrier called n delta =>
    cases he
    exact h
  | _ => cases he

theorem act_near (few : Few i m t) (few' : Few i (m.act i t).1 (m.act i t).2) (hat : At i m t)
    (hw : Watch m t.pc) (hn : Near m) : Near (m.act i t).1 := by
  cases he : t.pc.ticks with
  | none => exact hn.change (act_change few hat) (act_epoch he)
  | some e =>
    have hepoch := few'.2
    obtain ⟨rounds, hr⟩ := act_tick he
    rw [hr] at hepoch ⊢
    exact tick_near few.2 hepoch (hw.tick he) hn

theorem act_watch (few : Few i m t) (hinv : Inv m) (hat : At i m t) (hw : Watch m t.pc) :
    Watch (m.act i t).1 (m.act i t).2.pc := by
  obtain ⟨frames, pc⟩ := t
  cases pc with
  | pollLoad deferred => exact ⟨hinv.pos, le_rfl⟩
  | synchronizeLoad barrier => cases barrier <;> exact ⟨hinv.pos, le_rfl⟩
  | scanFirst k e =>
    refine ⟨hw.1, hw.2, fun _ j hj => .inl ?_⟩
    by_contra hne
    exact hj ((hinv.fits j).registered hne)
  | scanActive k e rest active =>
    cases rest with
    | nil =>
      cases k with
      | poll deferred =>
        cases active with
        | true => exact hw
        | false => trivial
      | synchronize barrier called n =>
        cases active with
        | true => exact hw
        | false => trivial
    | cons cr rest =>
      unfold Mem.act
      dsimp only
      split
      · rename_i hz
        exact Swept.pass hw fun _ => .inl hz
      · exact hw
  | scanEpoch k e cr rest =>
    unfold Mem.act
    dsimp only
    split
    · rename_i hword
      exact Swept.pass hw fun he => caught_of_word (hinv.fits cr) few.2 he hword
    · cases k with
      | poll deferred => trivial
      | synchronize barrier called n => exact hw
  | synchronizeReload barrier called n delta cr rest =>
    unfold Mem.act
    dsimp only
    split
    · exact hw
    · split
      · trivial
      · exact ⟨hinv.pos, le_rfl⟩
  | synchronizeCas barrier called n delta =>
    unfold Mem.act
    dsimp only
    split
    · exact ⟨hinv.pos.trans (tick_now delta).2, le_rfl⟩
    · trivial
  | synchronized barrier called => cases barrier <;> trivial
  | beginActive object =>
    unfold Mem.act
    dsimp only
    split
    · trivial
    · split <;> trivial
  | beginStore object e => cases object <;> trivial
  | endActive x =>
    unfold Mem.act
    dsimp only
    split <;> trivial
  | dispatch caller =>
    obtain ⟨deferred, epochs, result⟩ := caller
    cases epochs <;> trivial
  | walk caller batch =>
    cases batch with
    | nil => trivial
    | cons entry batch =>
      simp only [Mem.act]
      split <;> trivial
  | _ => trivial

theorem step_watch (h : Step i m t m' t') (ok : Owned i m t) (hw : Watch m t.pc) :
    Watch m' t'.pc := by
  cases h with
  | register new client => exact hw.change register_change
  | act running => exact act_watch ok.1 ok.2.1 ok.2.2 hw
  | _ => trivial

theorem step_near (h : Step i m t m' t') (ok : Owned i m t) (few' : Few i m' t')
    (hw : Watch m t.pc) (hn : Near m) : Near m' := by
  cases h with
  | register new client => exact hn.change register_change rfl
  | act running => exact act_near ok.1 few' ok.2.2 hw hn
  | _ => exact hn

/-- The global epoch is never moved back. -/
theorem step_epoch_le (h : Step i m t m' t') : m.epoch ≤ m'.epoch := by
  cases h with
  | act running =>
    cases he : t.pc.ticks with
    | none => exact (act_epoch he).ge
    | some e =>
      obtain ⟨rounds, hr⟩ := act_tick he
      rw [hr]
      exact (tick_now e).2
  | _ => exact le_rfl

/-- The number of ticks in a run is known at its end. -/
theorem ticks_reachable {step : ι → Mem ι → Thread ι → Mem ι → Thread ι → Prop}
    (hstep : ∀ {i m t m' t'}, step i m t m' t' → Step i m t m' t')
    {s₀ s : System (Mem ι) (Thread ι) ι}
    (hr : System.Reachable step (fun _ _ _ => True) s₀ s) {n : Nat} (hn : s.mem.epoch ≤ n) :
    System.Reachable step (fun _ m _ => m.epoch ≤ n) s₀ s := by
  induction hr with
  | refl => exact .refl
  | tail _ h ih =>
    cases h with
    | run i h _ =>
      exact (ih ((step_epoch_le (hstep h)).trans hn)).tail (.run i h fun _ => hn)

theorem near_invariant : GuardedInvariant (Step (ι := ι)) Owned Near fun _ m t => Watch m t.pc where
  own hstep ok ok' hn hw := ⟨step_near hstep ok ok'.1 hw hn, step_watch hstep ok hw⟩
  other hstep ok _ _ := by
    intro j q _ _ hq
    exact hq.change (step_change hstep ok.1 ok.2.2)

omit [DecidableEq ι] in
theorem init_near : Near (init (ι := ι)) := fun _ hne => absurd rfl hne

end Steps

end ConcurrencyKit.Epoch.Grace
