import ConcurrencyKit.Epoch.Grace.Synchronize

/-!
# Which entries are dispatched

A poll or barrier on a record takes entries from the slots of the record only after a scan has seen
to it that the sections which were open when the poll or barrier began have ended. Where all records
were inactive this is so of all sections that are open now. Where some were active their sections
may be older, but then they have begun in the epoch of the scan, and an entry of the slot that is
two epochs behind has not been deferred in that epoch.

Both arguments are about entries that have been deferred before the poll or barrier began. An entry
that is deferred later has to be in a slot that the poll or barrier does not come to any more.
-/

namespace ConcurrencyKit.Epoch.Grace

open Threads (Invariant GuardedInvariant System)

variable {ι : Type}

/-- No poll or barrier on the record that is under way comes to the slot of the global epoch any
more. -/
def Emptied (m : Mem ι) (r : ι) : Prop := ∀ R ∈ m.rounds r, ∀ e ∈ R.ahead, slot e ≠ slot m.epoch

/-- A call of `ck_epoch_call` or `ck_epoch_call_strict` on a record in `quiet` loads the global
epoch only when the polls and barriers on the record come to its slot no more. -/
def Quiet (quiet : ι → Prop) (i : ι) (m : Mem ι) : Pc ι → Prop
  | .callLoad => quiet i → Emptied m i
  | .strictLoad r => quiet r → Emptied m r
  | _ => True

/-- A step of a run in which the accesses meet a condition. -/
def CallStep [DecidableEq ι] (object : ι → Bool) (cond : ι → Mem ι → Pc ι → Prop) (i : ι)
    (m : Mem ι) (t : Thread ι) (m' : Mem ι) (t' : Thread ι) : Prop :=
  UniformStep object i m t m' t' ∧ cond i m t.pc

/-- No section that was open when the entry was deferred is open any more. -/
def Ready (m : Mem ι) (entry : Moment) : Prop := ∀ j x, ¬ Old m entry.clock j x

/-- What is known of an entry from its `ck_epoch_call` on. -/
structure Filed (quiet : ι → Prop) (m : Mem ι) (r : ι) (entry : Moment) : Prop where
  le : entry.Le m.now
  above : ∀ j x, Old m entry.clock j x → x.begun.epoch ≤ entry.epoch
  before : quiet r → ∀ R ∈ m.rounds r, ∀ e ∈ R.ahead, slot e = slot entry.epoch →
    entry.Le R.start

/-- What is known of an entry from its dispatch on. -/
def Safe (m : Mem ι) (entry : Moment) : Prop := entry.clock ≤ m.clock ∧ Ready m entry

/-- The entries that are pending, and the ones that have been dispatched. -/
structure Accounts (quiet : ι → Prop) (m : Mem ι) : Prop where
  rounds : ∀ r, ∀ R ∈ m.rounds r, R.start.Le m.now
  pending : ∀ r k, ∀ y ∈ m.pending r k, slot y.epoch = k ∧ Filed quiet m r y
  dispatched : ∀ r y, (r, y) ∈ m.dispatched → quiet r → Safe m y

/-- Since the moment `t` all records have been inactive at some time, but for the ones in `rest`,
and for the ones with sections that have begun in the epoch `e` if some were `active`. -/
def Cleared (m : Mem ι) (t : Moment) (e : Nat) (rest : List ι) (active : Bool) : Prop :=
  ∀ j, j ∉ rest → ∀ x ∈ m.sections j, t.clock ≤ x.begun.clock ∨ active = true ∧ e ≤ x.begun.epoch

/-- The entries in the slots that are left may be dispatched. -/
def Judged (m : Mem ι) (R : Round) : Prop :=
  R.ahead ≠ [] → Cleared m R.start 0 [] false ∨
    ∃ e, R.ahead = [twoBefore e] ∧ R.start.epoch ≤ e ∧ Cleared m R.start e [] true

/-- The function that scans is a poll or barrier. -/
def Scanner.dispatches : Scanner → Bool
  | .poll _ => true
  | .synchronize barrier _ _ => barrier

/-- The epochs that `ck_epoch_dispatch` may still be called with, in a poll or barrier. -/
def Pc.ahead : Pc ι → Option (List Nat)
  | .scanFirst k _ | .scanActive k _ _ _ | .scanEpoch k _ _ _ =>
    if k.dispatches then some allSlots else none
  | .pollStore _ _ | .pollCas _ _ => some allSlots
  | .synchronizeReload barrier _ _ _ _ _ | .synchronizeCas barrier _ _ _
  | .synchronized barrier _ => if barrier then some allSlots else none
  | .dispatch caller | .walk caller _ => some caller.epochs
  | _ => none

/-- What a thread that polls or dispatches knows of the sections. -/
def Knows (m : Mem ι) (R : Round) : Pc ι → Prop
  | .scanFirst (.poll _) e => R.start.epoch ≤ e
  | .scanActive (.poll _) e rest active => R.start.epoch ≤ e ∧ Cleared m R.start e rest active
  | .scanEpoch (.poll _) e cr rest => R.start.epoch ≤ e ∧ Cleared m R.start e (cr :: rest) true
  | .pollStore _ e => R.start.epoch ≤ e ∧ Cleared m R.start e [] false
  | .pollCas _ e => R.start.epoch ≤ e ∧ Cleared m R.start e [] true
  | .scanFirst (.synchronize _ called _) _ | .scanActive (.synchronize _ called _) _ _ _
  | .scanEpoch (.synchronize _ called _) _ _ _ | .synchronizeReload _ called _ _ _ _
  | .synchronizeCas _ called _ _ | .synchronized _ called => R.start.clock ≤ called.clock
  | .dispatch _ => Judged m R
  | .walk _ batch => Judged m R ∧ ∀ y ∈ batch, Safe m y
  | _ => True

/-- The poll or barrier that a thread is in, outside of the callbacks. -/
def Current (quiet : ι → Prop) (i : ι) (m : Mem ι) (pc : Pc ι) : Option Round → Prop
  | none => pc.ahead = none
  | some R => pc.ahead = some R.ahead ∧ (quiet i → Knows m R pc)

/-- The poll or barrier that has called a callback. -/
def Calls (quiet : ι → Prop) (i : ι) (m : Mem ι) (R : Round) (f : Frame) : Prop :=
  f.caller.epochs = R.ahead ∧ (quiet i → Judged m R ∧ ∀ y ∈ f.batch, Safe m y)

/-- What a thread in `ck_epoch_call` or `ck_epoch_call_strict` knows of the entry. -/
def Defers (quiet : ι → Prop) (m : Mem ι) (i : ι) : Pc ι → Prop
  | .callPush entry => Filed quiet m i entry
  | .strictPush r entry => Filed quiet m r entry
  | _ => True

/-- Thread `i` and the callbacks that it is in. -/
structure Serves (quiet : ι → Prop) (i : ι) (m : Mem ι) (t : Thread ι) : Prop where
  defers : Defers quiet m i t.pc
  rounds : ∃ current outer, m.rounds i = Option.toList current ++ outer ∧
    Current quiet i m t.pc current ∧ List.Forall₂ (Calls quiet i m) outer t.frames

/-- The epochs that are left are among those that were, slot by slot. -/
def Fewer (epochs epochs' : List Nat) : Prop := ∀ e' ∈ epochs', ∃ e ∈ epochs, slot e = slot e'

/-- What a step does to the polls and barriers that are under way. -/
structure Rely (i : ι) (m m' : Mem ι) : Prop where
  change : Change i m m'
  others : ∀ j ≠ i, m'.rounds j = m.rounds j
  own : ∀ R' ∈ m'.rounds i, R'.start = m.now ∨
    ∃ R ∈ m.rounds i, R.start = R'.start ∧ Fewer R.ahead R'.ahead

section Steps

variable {quiet : ι → Prop} {i j : ι} {m m' : Mem ι} {t t' : Thread ι} {y u : Moment} {e : Nat}
  {R : Round} {rest : List ι} {active : Bool} {epochs : List Nat} {pc : Pc ι} {object : ι → Bool}

/-! ## What other threads do -/

theorem Ready.change (hc : Change i m m') (hle : y.clock ≤ m.clock) (h : Ready m y) :
    Ready m' y :=
  fun j x hx => h j x (hx.change hc hle)

theorem Safe.change (hc : Change i m m') (h : Safe m y) : Safe m' y :=
  ⟨h.1.trans hc.now.1, h.2.change hc h.1⟩

theorem Cleared.change (hc : Change i m m') (hle : u.clock ≤ m.clock)
    (h : Cleared m u e rest active) : Cleared m' u e rest active := by
  intro j hj x hx
  by_cases hji : j = i
  · subst hji
    rcases hc.fresh x hx with hx | hge
    · exact h j hj x hx
    · exact .inl (hle.trans hge)
  · rw [hc.sections j hji] at hx
    exact h j hj x hx

theorem Filed.change {r : ι} (hr : Rely i m m') (h : Filed quiet m r y) : Filed quiet m' r y where
  le := h.le.trans hr.change.now
  above j x hx := h.above j x (hx.change hr.change h.le.1)
  before hq R' hR' e' he' hs := by
    by_cases hri : r = i
    · subst hri
      rcases hr.own R' hR' with hstart | ⟨R, hR, hstart, hfewer⟩
      · exact hstart ▸ h.le
      · obtain ⟨e, he, hslot⟩ := hfewer e' he'
        exact hstart ▸ h.before hq R hR e he (hslot.trans hs)
    · rw [hr.others r hri] at hR'
      exact h.before hq R' hR' e' he' hs

theorem Judged.change (hc : Change j m m') (hle : R.start.Le m.now) (h : Judged m R) :
    Judged m' R := by
  intro hne
  rcases h hne with hall | ⟨e, he, hte, hactive⟩
  · exact .inl (hall.change hc hle.1)
  · exact .inr ⟨e, he, hte, hactive.change hc hle.1⟩

theorem Knows.change (hc : Change j m m') (hle : R.start.Le m.now) (h : Knows m R pc) :
    Knows m' R pc := by
  cases pc with
  | scanFirst k e => cases k <;> exact h
  | scanActive k e rest active =>
    cases k with
    | poll deferred => exact ⟨h.1, h.2.change hc hle.1⟩
    | synchronize barrier called n => exact h
  | scanEpoch k e cr rest =>
    cases k with
    | poll deferred => exact ⟨h.1, h.2.change hc hle.1⟩
    | synchronize barrier called n => exact h
  | pollStore deferred e => exact ⟨h.1, h.2.change hc hle.1⟩
  | pollCas deferred e => exact ⟨h.1, h.2.change hc hle.1⟩
  | synchronizeReload | synchronizeCas | synchronized => exact h
  | dispatch caller => exact Judged.change hc hle h
  | walk caller batch => exact ⟨h.1.change hc hle, fun y hy => (h.2 y hy).change hc⟩
  | _ => trivial

theorem Calls.change {f : Frame} (hc : Change j m m') (hle : R.start.Le m.now)
    (h : Calls quiet i m R f) : Calls quiet i m' R f :=
  ⟨h.1, fun hq => ⟨(h.2 hq).1.change hc hle, fun y hy => ((h.2 hq).2 y hy).change hc⟩⟩

theorem Calls.change_all {outer : List Round} {frames : List Frame} (hc : Change j m m')
    (hle : ∀ R ∈ outer, R.start.Le m.now) (h : List.Forall₂ (Calls quiet i m) outer frames) :
    List.Forall₂ (Calls quiet i m') outer frames := by
  induction h with
  | nil => exact .nil
  | cons hf _ ih =>
    obtain ⟨hR, houter⟩ := List.forall_mem_cons.mp hle
    exact .cons (hf.change hc hR) (ih houter)

theorem Defers.change (hr : Rely j m m') (h : Defers quiet m i pc) : Defers quiet m' i pc := by
  cases pc with
  | callPush entry => exact Filed.change hr h
  | strictPush r entry => exact Filed.change hr h
  | _ => trivial

/-- The thread goes on elsewhere in the code, in the same poll or barrier if it is in one. -/
theorem Serves.move (h : Serves quiet i m t) (hc : Change j m m')
    (hrounds : m'.rounds i = m.rounds i) (hle : ∀ R ∈ m.rounds i, R.start.Le m.now)
    (hd : Defers quiet m' i pc) (hahead : pc.ahead = t.pc.ahead)
    (hk : ∀ R ∈ m.rounds i, quiet i → Knows m R t.pc → Knows m' R pc) :
    Serves quiet i m' (t.go pc) := by
  obtain ⟨current, outer, heq, hcurrent, houter⟩ := h.rounds
  refine ⟨hd, current, outer, hrounds.trans heq, ?_, Calls.change_all hc (fun R hR => ?_) houter⟩
  · cases current with
    | none => exact hahead.trans hcurrent
    | some R =>
      refine ⟨hahead.trans hcurrent.1, fun hq => hk R ?_ hq (hcurrent.2 hq)⟩
      rw [heq]
      exact List.mem_cons_self
  · refine hle R ?_
    rw [heq]
    exact List.mem_append_right _ hR

/-- The memory stays as well. -/
theorem Serves.stay (h : Serves quiet i m t) (hle : ∀ R ∈ m.rounds i, R.start.Le m.now)
    (hd : Defers quiet m i pc) (hahead : pc.ahead = t.pc.ahead)
    (hk : ∀ R ∈ m.rounds i, quiet i → Knows m R t.pc → Knows m R pc) :
    Serves quiet i m (t.go pc) :=
  h.move (j := i) .refl rfl hle hd hahead hk

theorem Serves.change (hr : Rely j m m') (hij : i ≠ j)
    (hle : ∀ R ∈ m.rounds i, R.start.Le m.now) (h : Serves quiet i m t) :
    Serves quiet i m' t :=
  h.move hr.change (hr.others i hij) hle (h.defers.change hr) rfl
    fun R hR _ hknows => hknows.change hr.change (hle R hR)

theorem Accounts.change (hr : Rely i m m') (hpending : m'.pending = m.pending)
    (hdispatched : m'.dispatched = m.dispatched) (h : Accounts quiet m) : Accounts quiet m' where
  rounds r R' hR' := by
    by_cases hri : r = i
    · subst hri
      rcases hr.own R' hR' with hstart | ⟨R, hR, hstart, -⟩
      · exact hstart ▸ hr.change.now
      · exact hstart ▸ (h.rounds r R hR).trans hr.change.now
    · rw [hr.others r hri] at hR'
      exact (h.rounds r R' hR').trans hr.change.now
  pending r k y hy := by
    rw [hpending] at hy
    obtain ⟨hk, hf⟩ := h.pending r k y hy
    exact ⟨hk, hf.change hr⟩
  dispatched r y hy hq := by
    rw [hdispatched] at hy
    exact (h.dispatched r y hy hq).change hr.change

/-! ## The poll or barrier that a thread is in -/

theorem Serves.current (h : Serves quiet i m t) (hahead : t.pc.ahead = some epochs) :
    ∃ R outer, m.rounds i = R :: outer ∧ R.ahead = epochs ∧ (quiet i → Knows m R t.pc) ∧
      List.Forall₂ (Calls quiet i m) outer t.frames := by
  obtain ⟨current, outer, heq, hcurrent, houter⟩ := h.rounds
  cases current with
  | none =>
    have hnone : t.pc.ahead = none := hcurrent
    rw [hnone] at hahead
    cases hahead
  | some R =>
    have hsome : some R.ahead = some epochs := hcurrent.1.symm.trans hahead
    exact ⟨R, outer, heq, Option.some.inj hsome, hcurrent.2, houter⟩

theorem Serves.outside (h : Serves quiet i m t) (hahead : t.pc.ahead = none) :
    List.Forall₂ (Calls quiet i m) (m.rounds i) t.frames := by
  obtain ⟨current, outer, heq, hcurrent, houter⟩ := h.rounds
  cases current with
  | none =>
    rw [heq]
    exact houter
  | some R =>
    have hsome : t.pc.ahead = some R.ahead := hcurrent.1
    rw [hsome] at hahead
    cases hahead

/-- The thread stays outside of its polls and barriers. -/
theorem Serves.keep (h : Serves quiet i m t) (hd : Defers quiet m i pc)
    (hahead : t.pc.ahead = none) (hpc : pc.ahead = none) : Serves quiet i m (t.go pc) :=
  ⟨hd, none, m.rounds i, rfl, hpc, h.outside hahead⟩

/-- The slot that is two epochs behind. -/
theorem slot_twoBefore (e : Nat) : slot e ≠ slot (twoBefore e) := by
  intro h
  have hval := congrArg Fin.val h
  simp only [slot, twoBefore, word] at hval
  omega

/-- The entries of a slot that may be dispatched. -/
theorem Judged.safe (h : Judged m R) (hR : R ∈ m.rounds i) (he : e ∈ R.ahead)
    (hs : slot y.epoch = slot e) (hq : quiet i) (hy : Filed quiet m i y) : Safe m y := by
  refine ⟨hy.le.1, fun j x hx => ?_⟩
  have hle : y.Le R.start := hy.before hq R hR e he hs.symm
  have hlt : x.begun.clock < R.start.clock := hx.2.trans_le hle.1
  rcases h (List.ne_nil_of_mem he) with hall | ⟨d, hd, htd, hactive⟩
  · rcases hall j List.not_mem_nil x hx.1 with hge | ⟨hf, -⟩
    · exact absurd hlt (Nat.not_lt.mpr hge)
    · cases hf
  · rcases hactive j List.not_mem_nil x hx.1 with hge | ⟨-, hge⟩
    · exact absurd hlt (Nat.not_lt.mpr hge)
    · -- the section has begun in the epoch of the scan, the entry has not been deferred in it
      have habove := hy.above j x hx
      have hepoch : y.epoch = d := le_antisymm (hle.2.trans htd) (hge.trans habove)
      rw [hd, List.mem_singleton] at he
      rw [hepoch, he] at hs
      exact slot_twoBefore d hs

theorem allSlots_slot : ∀ k : Fin 4, ∃ e ∈ allSlots, slot e = k := by decide

theorem fewer_allSlots (epochs : List Nat) : Fewer allSlots epochs :=
  fun e' _ => allSlots_slot (slot e')

theorem fewer_cons (e : Nat) (epochs : List Nat) : Fewer (e :: epochs) epochs :=
  fun e' he' => ⟨e', List.mem_cons_of_mem e he', rfl⟩

/-- An access that leaves the polls and barriers alone. -/
theorem Change.rely (h : Change i m m') (hrounds : m'.rounds = m.rounds) : Rely i m m' where
  change := h
  others j _ := congrFun hrounds j
  own R' hR' := .inr ⟨R', hrounds ▸ hR', rfl, fun e' he' => ⟨e', he', rfl⟩⟩

theorem tick_slots (e : Nat) : (m.tick e).rounds = m.rounds ∧
    (m.tick e).pending = m.pending ∧ (m.tick e).dispatched = m.dispatched := by
  unfold Mem.tick
  split <;> exact ⟨rfl, rfl, rfl⟩

variable [DecidableEq ι]

theorem file_rely (r : ι) : Rely i m (m.file r y) :=
  Change.rely (.of_eq (.refl _) rfl rfl rfl rfl) rfl

theorem empty_rely (r : ι) : Rely i m (m.empty r e) :=
  Change.rely (.of_eq (.refl _) rfl rfl rfl rfl) rfl

theorem enter_rely : Rely i m (m.enter i) where
  change := enter_change
  others j hj := Function.update_of_ne hj ..
  own R' hR' := by
    have heq : (m.enter i).rounds i = ⟨m.now, allSlots⟩ :: m.rounds i := Function.update_self ..
    rw [heq] at hR'
    rcases List.mem_cons.mp hR' with rfl | hR'
    · exact .inl rfl
    · exact .inr ⟨R', hR', rfl, fun e' he' => ⟨e', he', rfl⟩⟩

theorem leave_rely : Rely i m (m.leave i) where
  change := leave_change
  others j hj := Function.update_of_ne hj ..
  own R' hR' := by
    have heq : (m.leave i).rounds i = (m.rounds i).tail := Function.update_self ..
    rw [heq] at hR'
    exact .inr ⟨R', List.mem_of_mem_tail hR', rfl, fun e' he' => ⟨e', he', rfl⟩⟩

theorem narrow_rounds {outer : List Round} (hrounds : m.rounds i = R :: outer) :
    (m.narrow i epochs).rounds i = ⟨R.start, epochs⟩ :: outer := by
  unfold Mem.narrow
  dsimp only
  rw [Function.update_self, hrounds]
  rfl

theorem narrow_rely {outer : List Round} (hc : Change i m m') (hsame : m'.rounds = m.rounds)
    (hrounds : m.rounds i = R :: outer) (hfewer : Fewer R.ahead epochs) :
    Rely i m (m'.narrow i epochs) where
  change := hc.narrow epochs
  others j hj := by
    unfold Mem.narrow
    dsimp only
    rw [Function.update_of_ne hj, hsame]
  own R' hR' := by
    have heq : (m'.narrow i epochs).rounds i = ⟨R.start, epochs⟩ :: outer :=
      narrow_rounds ((congrFun hsame i).trans hrounds)
    rw [heq] at hR'
    rcases List.mem_cons.mp hR' with rfl | hR'
    · exact .inr ⟨R, hrounds ▸ List.mem_cons_self, rfl, hfewer⟩
    · exact .inr ⟨R', hrounds ▸ List.mem_cons_of_mem R hR', rfl, fun e' he' => ⟨e', he', rfl⟩⟩

/-- An access begins or ends a poll or barrier of the thread itself, or goes on to its next slot. -/
theorem act_rely (few : Few i m t) (hat : At i m t) (hs : Serves quiet i m t) :
    Rely i m (m.act i t).1 := by
  have hc := act_change few hat
  obtain ⟨frames, pc⟩ := t
  cases pc with
  | pollLoad deferred => exact enter_rely
  | synchronizeLoad barrier =>
    cases barrier with
    | true => exact enter_rely
    | false => exact hc.rely rfl
  | scanEpoch k e cr rest =>
    unfold Mem.act
    dsimp only
    split
    · exact Change.refl.rely rfl
    · cases k with
      | poll deferred => exact leave_rely
      | synchronize barrier called n => exact Change.refl.rely rfl
  | pollCas deferred e =>
    obtain ⟨R, outer, hrounds, hahead, -⟩ := hs.current rfl
    exact narrow_rely (tick_change e) (tick_slots e).1 hrounds (hahead ▸ fewer_allSlots _)
  | dispatch caller =>
    obtain ⟨deferred, epochs, result⟩ := caller
    cases epochs with
    | nil => exact leave_rely
    | cons e epochs =>
      obtain ⟨R, outer, hrounds, hahead, -⟩ := hs.current rfl
      exact narrow_rely (empty_change e) rfl hrounds (hahead ▸ fewer_cons e epochs)
  | beginActive object =>
    refine hc.rely ?_
    unfold Mem.act
    dsimp only
    split
    · rfl
    · split <;> rfl
  | beginStore object e =>
    refine hc.rely ?_
    cases object <;> rfl
  | endActive x =>
    refine hc.rely ?_
    unfold Mem.act
    dsimp only
    split <;> rfl
  | scanActive k e rest active =>
    refine hc.rely ?_
    cases rest with
    | nil => cases k <;> cases active <;> rfl
    | cons cr rest =>
      unfold Mem.act
      dsimp only
      split <;> rfl
  | synchronizeReload barrier called n delta cr rest =>
    refine hc.rely ?_
    unfold Mem.act
    dsimp only
    split
    · rfl
    · split <;> rfl
  | synchronizeCas barrier called n delta =>
    refine hc.rely ?_
    unfold Mem.act
    dsimp only
    split <;> exact (tick_slots delta).1
  | synchronized barrier called =>
    refine hc.rely ?_
    cases barrier <;> rfl
  | walk caller batch =>
    refine hc.rely ?_
    cases batch with
    | nil => rfl
    | cons entry batch =>
      simp only [Mem.act]
      split <;> rfl
  | _ => exact hc.rely rfl

/-! ## What a thread does to the slots -/

theorem Accounts.file {r : ι} (h : Accounts quiet m) (hy : Filed quiet m r y) :
    Accounts quiet (m.file r y) where
  rounds := h.rounds
  pending s k z hz := by
    have hkeep : ∀ {s k z}, z ∈ m.pending s k → slot z.epoch = k ∧ Filed quiet (m.file r y) s z :=
      fun hz => ⟨(h.pending _ _ _ hz).1, (h.pending _ _ _ hz).2.change (file_rely (i := r) r)⟩
    unfold Mem.file at hz
    dsimp only at hz
    by_cases hs : s = r
    · subst hs
      rw [Function.update_self] at hz
      by_cases hk : k = slot y.epoch
      · subst hk
        rw [Function.update_self] at hz
        rcases List.mem_cons.mp hz with rfl | hz
        · exact ⟨rfl, hy.change (file_rely (i := s) s)⟩
        · exact hkeep hz
      · rw [Function.update_of_ne hk] at hz
        exact hkeep hz
    · rw [Function.update_of_ne hs] at hz
      exact hkeep hz
  dispatched := h.dispatched

theorem Accounts.empty (h : Accounts quiet m) (r : ι) (e : Nat) : Accounts quiet (m.empty r e) where
  rounds := h.rounds
  pending s k z hz := by
    have hkeep : z ∈ m.pending s k → slot z.epoch = k ∧ Filed quiet (m.empty r e) s z :=
      fun hz => ⟨(h.pending s k z hz).1, (h.pending s k z hz).2.change (empty_rely (i := r) r)⟩
    unfold Mem.empty at hz
    dsimp only at hz
    by_cases hs : s = r
    · subst hs
      rw [Function.update_self] at hz
      by_cases hk : k = slot e
      · subst hk
        rw [Function.update_self] at hz
        cases hz
      · rw [Function.update_of_ne hk] at hz
        exact hkeep hz
    · rw [Function.update_of_ne hs] at hz
      exact hkeep hz
  dispatched := h.dispatched

omit [DecidableEq ι] in
theorem Accounts.handOut (h : Accounts quiet m) (hy : quiet i → Safe m y) :
    Accounts quiet (m.handOut i y) where
  rounds := h.rounds
  pending r k z hz := by
    obtain ⟨hk, hf⟩ := h.pending r k z hz
    exact ⟨hk, hf.le, hf.above, hf.before⟩
  dispatched r z hz hq := by
    rcases List.mem_cons.mp hz with heq | hz
    · cases heq
      exact hy hq
    · exact h.dispatched r z hz hq

theorem act_accounts (hr : Rely i m (m.act i t).1) (ha : Accounts quiet m)
    (hs : Serves quiet i m t) : Accounts quiet (m.act i t).1 := by
  obtain ⟨frames, pc⟩ := t
  cases pc with
  | callPush entry => exact ha.file hs.defers
  | strictPush r entry => exact ha.file hs.defers
  | dispatch caller =>
    obtain ⟨deferred, epochs, result⟩ := caller
    cases epochs with
    | nil => exact ha.change hr rfl rfl
    | cons e epochs =>
      obtain ⟨R, outer, hrounds, hahead, -⟩ := hs.current rfl
      have hfewer : Fewer R.ahead epochs := hahead ▸ fewer_cons e epochs
      exact (ha.empty i e).change (narrow_rely .refl rfl hrounds hfewer) rfl rfl
  | walk caller batch =>
    cases batch with
    | nil => exact ha
    | cons entry batch =>
      obtain ⟨R, outer, -, -, hknows, -⟩ := hs.current rfl
      have hsafe : quiet i → Safe m entry := fun hq => (hknows hq).2 entry List.mem_cons_self
      simp only [Mem.act]
      split <;> exact ha.handOut hsafe
  | pollLoad deferred => exact ha.change hr rfl rfl
  | synchronizeLoad barrier => cases barrier <;> exact ha.change hr rfl rfl
  | scanEpoch k e cr rest =>
    unfold Mem.act
    dsimp only
    split
    · exact ha
    · cases k with
      | poll deferred => exact ha.change leave_rely rfl rfl
      | synchronize barrier called n => exact ha
  | scanActive k e rest active =>
    cases rest with
    | nil => cases k <;> cases active <;> exact ha
    | cons cr rest =>
      unfold Mem.act
      dsimp only
      split <;> exact ha
  | pollCas deferred e => exact ha.change hr (tick_slots e).2.1 (tick_slots e).2.2
  | synchronizeReload barrier called n delta cr rest =>
    unfold Mem.act
    dsimp only
    split
    · exact ha
    · split <;> exact ha
  | synchronizeCas barrier called n delta =>
    have htick := ha.change (tick_change (i := i) delta |>.rely (tick_slots delta).1)
      (tick_slots delta).2.1 (tick_slots delta).2.2
    unfold Mem.act
    dsimp only
    split <;> exact htick
  | synchronized barrier called => cases barrier <;> exact ha
  | beginActive object =>
    refine ha.change hr ?_ ?_
    · unfold Mem.act
      dsimp only
      split
      · rfl
      · split <;> rfl
    · unfold Mem.act
      dsimp only
      split
      · rfl
      · split <;> rfl
  | beginStore object e => cases object <;> exact ha.change hr rfl rfl
  | endActive x =>
    refine ha.change hr ?_ ?_
    · unfold Mem.act
      dsimp only
      split <;> rfl
    · unfold Mem.act
      dsimp only
      split <;> rfl
  | _ => exact ha.change hr rfl rfl

/-! ## What a thread knows of its poll or barrier -/

omit [DecidableEq ι] in
/-- The scan of a poll goes past a record. -/
theorem Cleared.pass {cr : ι} (h : Cleared m u e (cr :: rest) active)
    (hcr : ∀ x ∈ m.sections cr, active = true ∧ e ≤ x.begun.epoch) :
    Cleared m u e rest active := by
  intro j hj x hx
  by_cases hjc : j = cr
  · subst hjc
    exact .inr (hcr x hx)
  · exact h j (by simp [hjc, hj]) x hx

omit [DecidableEq ι] in
theorem Cleared.seen (h : Cleared m u e rest active) : Cleared m u e rest true :=
  fun j hj x hx => (h j hj x hx).imp_right fun hp => ⟨rfl, hp.2⟩

omit [DecidableEq ι] in
/-- Fewer slots are left. -/
theorem Judged.tail (h : Judged m R) (hahead : R.ahead = e :: epochs) :
    Judged m ⟨R.start, epochs⟩ := by
  intro hne
  rcases h (hahead ▸ List.cons_ne_nil e epochs) with hall | ⟨d, hd, -⟩
  · exact .inl hall
  · exact absurd (List.cons.inj (hahead.symm.trans hd)).2 hne

/-- A poll or barrier begins. -/
theorem Serves.enter (hs : Serves quiet i m t) (hle : ∀ R ∈ m.rounds i, R.start.Le m.now)
    (hd : Defers quiet (m.enter i) i pc) (hout : t.pc.ahead = none)
    (hin : pc.ahead = some allSlots)
    (hk : quiet i → Knows (m.enter i) ⟨m.now, allSlots⟩ pc) :
    Serves quiet i (m.enter i) (t.go pc) :=
  ⟨hd, some ⟨m.now, allSlots⟩, m.rounds i, Function.update_self .., ⟨hin, hk⟩,
    Calls.change_all (j := i) enter_change hle (hs.outside hout)⟩

/-- A poll or barrier returns. -/
theorem Serves.leave (hs : Serves quiet i m t) (hle : ∀ R ∈ m.rounds i, R.start.Le m.now)
    (hd : Defers quiet (m.leave i) i pc) (hin : t.pc.ahead = some epochs)
    (hout : pc.ahead = none) : Serves quiet i (m.leave i) (t.go pc) := by
  obtain ⟨R, outer, hrounds, -, -, houter⟩ := hs.current hin
  refine ⟨hd, none, outer, ?_, hout, Calls.change_all (j := i) leave_change (fun S hS => ?_) houter⟩
  · unfold Mem.leave
    dsimp only
    rw [Function.update_self, hrounds]
    rfl
  · exact hle S (hrounds ▸ List.mem_cons_of_mem R hS)

/-- A poll or barrier goes on to the slots of other epochs. -/
theorem Serves.narrow (hs : Serves quiet i m t) (hc : Change i m m')
    (hsame : m'.rounds = m.rounds) (hle : ∀ R ∈ m.rounds i, R.start.Le m.now)
    (hd : Defers quiet (m'.narrow i epochs) i pc) {epochs' : List Nat}
    (hin : t.pc.ahead = some epochs') (hahead : pc.ahead = some epochs)
    (hk : ∀ R ∈ m.rounds i, R.ahead = epochs' → quiet i → Knows m R t.pc →
      Knows (m'.narrow i epochs) ⟨R.start, epochs⟩ pc) :
    Serves quiet i (m'.narrow i epochs) (t.go pc) := by
  obtain ⟨R, outer, hrounds, hR, hknows, houter⟩ := hs.current hin
  have hmem : R ∈ m.rounds i := hrounds ▸ List.mem_cons_self
  refine ⟨hd, some ⟨R.start, epochs⟩, outer, narrow_rounds ((congrFun hsame i).trans hrounds),
    ⟨hahead, fun hq => hk R hmem hR hq (hknows hq)⟩,
    Calls.change_all (hc.narrow epochs) (fun S hS => ?_) houter⟩
  exact hle S (hrounds ▸ List.mem_cons_of_mem R hS)

/-- A slot is emptied, or the last one has been. -/
theorem dispatch_serves {frames : List Frame} {caller : Caller}
    (ha : Accounts quiet m) (hs : Serves quiet i m ⟨frames, .dispatch caller⟩) :
    Serves quiet i (m.act i ⟨frames, .dispatch caller⟩).1
      (m.act i ⟨frames, .dispatch caller⟩).2 := by
  obtain ⟨deferred, epochs, result⟩ := caller
  cases epochs with
  | nil => exact hs.leave (ha.rounds i) trivial rfl rfl
  | cons e epochs =>
    refine hs.narrow (empty_change e) rfl (ha.rounds i) trivial rfl rfl fun R hR hahead hq hj => ?_
    have hjudged : Judged m R := hj
    have hc : Change i m ((m.empty i e).narrow i epochs) := (empty_change e).narrow epochs
    refine ⟨(hjudged.tail hahead).change hc (ha.rounds i R hR), fun y hy => ?_⟩
    obtain ⟨hslot, hf⟩ := ha.pending i _ y hy
    have he : e ∈ R.ahead := hahead ▸ List.mem_cons_self
    exact (hjudged.safe hR he hslot hq hf).change hc

/-- An entry is handed out. -/
theorem walk_serves {frames : List Frame} {caller : Caller} {batch : List Moment}
    (ha : Accounts quiet m) (hs : Serves quiet i m ⟨frames, .walk caller batch⟩) :
    Serves quiet i (m.act i ⟨frames, .walk caller batch⟩).1
      (m.act i ⟨frames, .walk caller batch⟩).2 := by
  have hle := ha.rounds i
  cases batch with
  | nil => exact hs.stay hle trivial rfl fun _ _ _ hk => hk.1
  | cons entry batch =>
    have hc : Change i m (m.handOut i entry) := .of_eq (.refl _) rfl rfl rfl rfl
    have hrest : ∀ R ∈ m.rounds i, Knows m R (.walk caller (entry :: batch)) →
        Judged (m.handOut i entry) R ∧ ∀ y ∈ batch, Safe (m.handOut i entry) y := fun R hR hk =>
      ⟨hk.1.change hc (hle R hR), fun y hy => (hk.2 y (List.mem_cons_of_mem entry hy)).change hc⟩
    by_cases hd : caller.deferred = true
    · simp only [Mem.act, if_pos hd]
      exact hs.move hc rfl hle trivial rfl fun R hR _ hk => hrest R hR hk
    · simp only [Mem.act, if_neg hd]
      obtain ⟨R, outer, hrounds, hahead, hknows, houter⟩ := hs.current rfl
      have hmem : R ∈ m.rounds i := hrounds ▸ List.mem_cons_self
      have hcalls : Calls quiet i (m.handOut i entry) R ⟨caller, batch⟩ :=
        ⟨hahead.symm, fun hq => hrest R hmem (hknows hq)⟩
      refine ⟨trivial, none, R :: outer, hrounds, rfl, .cons hcalls ?_⟩
      exact Calls.change_all hc (fun S hS => hle S (hrounds ▸ List.mem_cons_of_mem R hS)) houter

/-- The scan of a poll. -/
theorem scan_serves {frames : List Frame} {deferred : Bool} (hinv : Inv m) (ha : Accounts quiet m)
    (hs : Serves quiet i m ⟨frames, .scanActive (.poll deferred) e rest active⟩) :
    Serves quiet i (m.act i ⟨frames, .scanActive (.poll deferred) e rest active⟩).1
      (m.act i ⟨frames, .scanActive (.poll deferred) e rest active⟩).2 := by
  have hle := ha.rounds i
  cases rest with
  | nil =>
    cases active with
    | true => exact hs.stay hle trivial rfl fun _ _ _ hk => hk
    | false => exact hs.stay hle trivial rfl fun _ _ _ hk => hk
  | cons cr rest =>
    by_cases hz : (m.record cr).active = 0
    · simp only [Mem.act, if_pos hz]
      refine hs.stay hle trivial rfl fun R _ _ hk => ⟨hk.1, hk.2.pass fun x hx => ?_⟩
      exact absurd hz ((hinv.fits cr).active (List.ne_nil_of_mem hx))
    · simp only [Mem.act, if_neg hz]
      exact hs.stay hle trivial rfl fun _ _ _ hk => ⟨hk.1, hk.2.seen⟩

omit [DecidableEq ι] in
/-- The entry of a call that loads the global epoch now. -/
theorem filed_now (hinv : Inv m) {r : ι} (hr : quiet r → Emptied m r) : Filed quiet m r m.now where
  le := .refl _
  above j x hx := ((hinv.fits j).begun x hx.1).2.1
  before hq R hR e he hs := absurd hs (hr hq R hR e he)

theorem act_serves (ok : Uniform object i m t) (hw : Waits m t.pc) (ha : Accounts quiet m)
    (hquiet : Quiet quiet i m t.pc) (hs : Serves quiet i m t) (hr : Rely i m (m.act i t).1) :
    Serves quiet i (m.act i t).1 (m.act i t).2 := by
  obtain ⟨⟨few, hinv, -⟩, ⟨-, hl⟩, hwatch, -⟩ := ok
  have hle := ha.rounds i
  have hc := hr.change
  obtain ⟨frames, pc⟩ := t
  cases pc with
  | callLoad => exact hs.keep (filed_now hinv hquiet) rfl rfl
  | strictLoad r => exact hs.keep (filed_now hinv hquiet) rfl rfl
  | callPush entry => exact hs.move hc rfl hle trivial rfl fun _ _ _ _ => trivial
  | strictPush r entry => exact hs.move hc rfl hle trivial rfl fun _ _ _ _ => trivial
  | pollLoad deferred => exact hs.enter hle trivial rfl rfl fun _ => le_rfl
  | synchronizeLoad barrier =>
    cases barrier with
    | true => exact hs.enter hle trivial rfl rfl fun _ => le_rfl
    | false => exact hs.keep trivial rfl rfl
  | scanFirst k e =>
    cases k with
    | poll deferred =>
      refine hs.stay hle trivial rfl fun R _ _ hk => ⟨hk, fun j hj x hx => absurd ?_ hj⟩
      exact (hinv.fits j).registered ((hinv.fits j).active (List.ne_nil_of_mem hx))
    | synchronize barrier called n => exact hs.stay hle trivial rfl fun _ _ _ hk => hk
  | scanActive k e rest active =>
    cases k with
    | poll deferred => exact scan_serves hinv ha hs
    | synchronize barrier called n =>
      cases rest with
      | nil => cases active <;> exact hs.stay hle trivial rfl fun _ _ _ hk => hk
      | cons cr rest =>
        unfold Mem.act
        dsimp only
        split <;> exact hs.stay hle trivial rfl fun _ _ _ hk => hk
  | scanEpoch k e cr rest =>
    have hswept : Swept m e (cr :: rest) := hwatch
    cases k with
    | poll deferred =>
      by_cases hword : word (m.record cr).epoch = word e
      · simp only [Mem.act, if_pos hword]
        refine hs.stay hle trivial rfl fun R _ _ hk => ⟨hk.1, hk.2.pass fun x hx => ⟨rfl, ?_⟩⟩
        exact epoch_le_of_word hinv hl few.2 hswept.pos hswept.le hword hx
      · simp only [Mem.act, if_neg hword]
        exact hs.leave hle trivial rfl rfl
    | synchronize barrier called n =>
      unfold Mem.act
      dsimp only
      split <;> exact hs.stay hle trivial rfl fun _ _ _ hk => hk
  | pollStore deferred e =>
    refine hs.move hc rfl hle trivial rfl fun R _ _ hk _ => .inl fun j hj x hx => ?_
    exact .inl ((hk.2 j hj x hx).resolve_right fun h => Bool.false_ne_true h.1)
  | pollCas deferred e =>
    refine hs.narrow (tick_change e) (tick_slots e).1 hle trivial rfl rfl fun R hR _ _ hk _ => ?_
    exact .inr ⟨e, rfl, hk.1, hk.2.change hc (hle R hR).1⟩
  | synchronizeReload barrier called n delta cr rest =>
    unfold Mem.act
    dsimp only
    split
    · exact hs.stay hle trivial rfl fun _ _ _ hk => hk
    · split <;> exact hs.stay hle trivial rfl fun _ _ _ hk => hk
  | synchronizeCas barrier called n delta =>
    have hct : Change i m (m.tick delta) := tick_change delta
    have hrounds : (m.tick delta).rounds i = m.rounds i := congrFun (tick_slots delta).1 i
    unfold Mem.act
    dsimp only
    split
    · exact hs.move hct hrounds hle trivial rfl fun _ _ _ hk => hk
    · exact hs.move hct hrounds hle trivial rfl fun _ _ _ hk => hk
  | synchronized barrier called =>
    cases barrier with
    | false => exact hs.keep trivial rfl rfl
    | true =>
      refine hs.stay hle trivial rfl fun R _ _ hk _ => .inl fun j hj x hx => .inl ?_
      have hclock : R.start.clock ≤ called.clock := hk
      exact hclock.trans (Nat.le_of_not_lt fun hlt => hw.2 j x ⟨hx, hlt⟩)
  | dispatch caller => exact dispatch_serves ha hs
  | walk caller batch => exact walk_serves ha hs
  | client result => exact hs
  | beginActive object =>
    by_cases hz : (m.record i).active = 0
    · simp only [Mem.act, if_pos hz] at hc ⊢
      exact hs.move hc rfl hle trivial rfl fun _ _ _ _ => trivial
    · cases object with
      | true =>
        simp only [Mem.act, if_neg hz, if_true] at hc ⊢
        exact hs.move hc rfl hle trivial rfl fun _ _ _ _ => trivial
      | false =>
        simp only [Mem.act, if_neg hz, Bool.false_eq_true, if_false] at hc ⊢
        exact hs.move hc rfl hle trivial rfl fun _ _ _ _ => trivial
  | beginLoad object => exact hs.keep trivial rfl rfl
  | beginStore object e =>
    cases object <;> exact hs.move hc rfl hle trivial rfl fun _ _ _ _ => trivial
  | addref => exact hs.move hc rfl hle trivial rfl fun _ _ _ _ => trivial
  | endActive x =>
    unfold Mem.act at hc ⊢
    dsimp only at hc ⊢
    cases hx : x.bucket with
    | none =>
      rw [hx] at hc
      exact hs.move hc rfl hle trivial rfl fun _ _ _ _ => trivial
    | some b =>
      rw [hx] at hc
      exact hs.move hc rfl hle trivial rfl fun _ _ _ _ => trivial
  | delref b x => exact hs.move hc rfl hle trivial rfl fun _ _ _ _ => trivial
  | observeLoad => exact hs.keep trivial rfl rfl
  | observeStore e => exact hs.move hc rfl hle trivial rfl fun _ _ _ _ => trivial

/-! ## Runs -/

/-- What the steps may rely on. -/
def Settled (object : ι → Bool) (i : ι) (m : Mem ι) (t : Thread ι) : Prop :=
  Uniform object i m t ∧ Waits m t.pc

theorem register_accounts (ha : Accounts quiet m) : Accounts quiet (m.register i) where
  rounds := ha.rounds
  pending r k y hy := by
    by_cases hr : r = i
    · subst hr
      have hnil : (m.register r).pending r = fun _ => [] := Function.update_self ..
      rw [hnil] at hy
      cases hy
    · have hsame : (m.register i).pending r = m.pending r := Function.update_of_ne hr ..
      rw [hsame] at hy
      obtain ⟨hk, hf⟩ := ha.pending r k y hy
      exact ⟨hk, hf.le, hf.above, hf.before⟩
  dispatched := ha.dispatched

theorem step_rely (h : Step i m t m' t') (ok : Owned i m t) (hs : Serves quiet i m t) :
    Rely i m m' := by
  cases h with
  | register new client => exact register_change.rely rfl
  | act running => exact act_rely ok.1 ok.2.2 hs
  | _ => exact Change.refl.rely rfl

theorem step_accounts (h : Step i m t m' t') (ok : Owned i m t) (ha : Accounts quiet m)
    (hs : Serves quiet i m t) : Accounts quiet m' := by
  cases h with
  | register new client => exact register_accounts ha
  | act running => exact act_accounts (act_rely ok.1 ok.2.2 hs) ha hs
  | _ => exact ha

omit [DecidableEq ι] in
theorem Pc.Client.ahead (client : pc.Client) : pc.ahead = none := by
  cases pc with
  | client result => rfl
  | _ => exact client.elim

omit [DecidableEq ι] in
/-- A callback returns. -/
theorem Serves.back (hs : Serves quiet i m t) (client : t.pc.Client) {f : Frame}
    {frames : List Frame} (inside : t.frames = f :: frames) :
    Serves quiet i m ⟨frames, .walk f.caller f.batch⟩ := by
  have houter := hs.outside client.ahead
  rw [inside] at houter
  generalize hrounds : m.rounds i = rounds at houter
  cases houter with
  | @cons R _ outer _ hf houter =>
    exact ⟨trivial, some R, outer, hrounds, ⟨congrArg some hf.1, hf.2⟩, houter⟩

theorem step_serves (h : CallStep object (Quiet quiet) i m t m' t') (ok : Settled object i m t)
    (ha : Accounts quiet m) (hs : Serves quiet i m t) : Serves quiet i m' t' := by
  obtain ⟨⟨hstep, -⟩, hquiet⟩ := h
  have hr := step_rely hstep ok.1.1 hs
  cases hstep with
  | register new client =>
    exact hs.move hr.change rfl (ha.rounds i) (hs.defers.change hr) rfl
      fun R hR _ hk => hk.change hr.change (ha.rounds i R hR)
  | act running => exact act_serves ok.1 ok.2 ha hquiet hs hr
  | leave f frames inside client => exact hs.back client inside
  | beginSection | endSection | observe | call | callStrict | poll | synchronize =>
    exact hs.keep trivial (Pc.Client.ahead ‹_›) rfl

theorem serves_invariant : GuardedInvariant (CallStep object (Quiet quiet)) (Settled object)
    (Accounts quiet) (Serves quiet) where
  own hstep ok _ ha hs := ⟨step_accounts hstep.1.1 ok.1.1 ha hs, step_serves hstep ok ha hs⟩
  other hstep ok ha hs := by
    intro j q hj _ hq
    exact hq.change (step_rely hstep.1.1 ok.1.1 hs) hj (ha.rounds j)

omit [DecidableEq ι] in
theorem init_accounts : Accounts quiet (init (ι := ι)) :=
  ⟨fun _ _ => nofun, fun _ _ _ => nofun, fun _ _ => nofun⟩

omit [DecidableEq ι] in
theorem init_serves (i : ι) : Serves quiet i init ⟨[], .client none⟩ :=
  ⟨trivial, none, [], rfl, rfl, .nil⟩

/-- An entry that has been deferred on a record in `quiet` is not dispatched while a section is open
that was open when it was deferred. -/
theorem dispatched_ready {s : System (Mem ι) (Thread ι) ι}
    {cond : ι → Mem ι → Pc ι → Prop} (hr : System.Reachable (CallStep object cond) Few start s)
    (hquiet : ∀ {i m pc}, cond i m pc → Quiet quiet i m pc) {r : ι} {entry : Moment} (hq : quiet r)
    (hmem : (r, entry) ∈ s.mem.dispatched) : Ready s.mem entry := by
  have hwaits : GuardedInvariant (CallStep object cond) (Uniform object) (fun _ => True)
      fun _ m t => Waits m t.pc := waits_invariant.mono (fun h => h.1) id
  have hserves : GuardedInvariant (CallStep object cond)
      (fun i m t => Uniform object i m t ∧ True ∧ Waits m t.pc) (Accounts quiet)
      (Serves quiet) := serves_invariant.mono (fun h => ⟨h.1, hquiet h.2⟩) fun h => ⟨h.1, h.2.2⟩
  have hsettled := hwaits.strengthen (uniform_reachable (fun h => h.1) hr) (init_uniform object)
    trivial fun _ => trivial
  obtain ⟨ha, -⟩ := hserves.reachable hsettled
    (fun i => ⟨init_uniform object i, trivial, trivial⟩) init_accounts init_serves
  exact (ha.dispatched r entry hmem hq).2

end Steps

end ConcurrencyKit.Epoch.Grace
