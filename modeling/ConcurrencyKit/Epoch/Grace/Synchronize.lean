import ConcurrencyKit.Epoch.Grace.Ticks

/-!
# What `ck_epoch_synchronize_wait` waits for

A section, or the observation interval of it that is under way, holds its record back: the record
stands for no newer epoch than the one in which the interval has begun, so that the global epoch
gets at most one further. Neither of the two scans of `ck_epoch_synchronize_wait` that have to
succeed in different epochs can both pass such a record, it does not look inactive, and the goal is
not reached.
-/

namespace ConcurrencyKit.Epoch.Grace

open Threads (Invariant GuardedInvariant System)

variable {ι : Type}

/-- Whether the sections of a record are begun with section objects. -/
def Uses (object : Bool) : Pc ι → Prop
  | .beginActive o | .beginLoad o | .beginStore o _ => o = object
  | .addref => object = true
  | _ => True

/-- A step in which the sections of a record are begun either always or never with an object. -/
def UniformStep [DecidableEq ι] (object : ι → Bool) (i : ι) (m : Mem ι) (t : Thread ι) (m' : Mem ι)
    (t' : Thread ι) : Prop :=
  Step i m t m' t' ∧ (t.pc.Client → Uses (object i) t'.pc)

/-- The record stands for no newer epoch than the observation intervals of its sections. -/
structure Behind (object : Bool) (xs : List Section) (reached : Nat) (pc : Pc ι) : Prop where
  uses : Uses object pc
  same : ∀ x ∈ xs, x.bucket.isSome = object
  le : ∀ x ∈ xs, reached ≤ x.begun.epoch

/-- The same of all records. -/
def Low (m : Mem ι) : Prop := ∀ j, ∀ x ∈ m.sections j, m.reached j ≤ x.begun.epoch

/-- The record of thread `i` stands for no newer epoch than the intervals. -/
def BehindAt (object : ι → Bool) (i : ι) (m : Mem ι) (t : Thread ι) : Prop :=
  Watch m t.pc ∧ Behind (object i) (m.sections i) (m.reached i) t.pc

/-- The interval has begun before the clock read `c`, and has not ended. -/
def Old (m : Mem ι) (c : Nat) (j : ι) (x : Section) : Prop :=
  x ∈ m.sections j ∧ x.begun.clock < c

/-- What `ck_epoch_synchronize_wait` knows of the intervals that it waits for, before its scan in
the epoch `delta`. -/
structure Awaits (m : Mem ι) (called : Moment) (n delta : Nat) : Prop where
  clock : called.clock ≤ m.clock
  epoch : called.epoch ≤ delta
  le : delta ≤ m.epoch
  pos : 1 ≤ delta
  rounds : n ≤ 1
  begun : ∀ j x, Old m called.clock j x → x.begun.epoch ≤ called.epoch ∧
    (n = 1 → x.begun.epoch < delta)

/-- The same of the records that the scan has passed. -/
def Passed (m : Mem ι) (called : Moment) (delta : Nat) (rest : List ι) (active : Bool) : Prop :=
  ∀ j x, Old m called.clock j x → j ∈ rest ∨ active = true ∧ delta ≤ x.begun.epoch

/-- What a thread in `ck_epoch_synchronize_wait` knows of the intervals that it waits for. -/
def Waits (m : Mem ι) : Pc ι → Prop
  | .scanFirst (.synchronize _ called n) e => Awaits m called n e
  | .scanActive (.synchronize _ called n) e rest active =>
    Awaits m called n e ∧ Passed m called e rest active
  | .scanEpoch (.synchronize _ called n) e cr rest =>
    Awaits m called n e ∧ Passed m called e (cr :: rest) true
  | .synchronizeReload _ called n delta cr rest =>
    Awaits m called n delta ∧ Passed m called delta (cr :: rest) true
  | .synchronizeCas _ called n delta =>
    Awaits m called n delta ∧ Passed m called delta [] true
  | .synchronized _ called => called.clock ≤ m.clock ∧ ∀ j x, ¬ Old m called.clock j x
  | _ => True

/-! ## Records with sections of one kind -/

section Behind

variable {i : ι} {m m' : Mem ι} {t t' : Thread ι} {pc pc' : Pc ι} {object : Bool}

theorem Pc.Neutral.uses (h : pc.Neutral) : Uses object pc := by
  cases pc with
  | beginActive o => exact h.elim
  | beginLoad o => exact h.elim
  | beginStore o e => exact h.elim
  | addref => exact h.elim
  | _ => trivial

/-- A section begins on the record. -/
theorem Behind.cons {xs : List Section} {reached : Nat} {x : Section} {result : Option Bool}
    (h : Behind object xs reached pc) (hx : x.bucket.isSome = object)
    (hle : reached ≤ x.begun.epoch) : Behind object (x :: xs) reached (.client result : Pc ι) where
  uses := trivial
  same := by
    intro y hy
    rcases List.mem_cons.mp hy with rfl | hy
    · exact hx
    · exact h.same y hy
  le := by
    intro y hy
    rcases List.mem_cons.mp hy with rfl | hy
    · exact hle
    · exact h.le y hy

/-- A section ends. -/
theorem Behind.erase {xs : List Section} {reached : Nat} (h : Behind object xs reached pc)
    (x : Section) (huses : Uses object pc') : Behind object (xs.erase x) reached pc' :=
  ⟨huses, fun y hy => h.same y (List.mem_of_mem_erase hy),
    fun y hy => h.le y (List.mem_of_mem_erase hy)⟩

/-- The record after an access of its owner. -/
theorem Touch.behind (ht : Touch i m m' pc pc')
    (hown : Own i (m.record i) (m.sections i) (m.reached i) m.now (i ∈ m.records) pc)
    (h : Behind object (m.sections i) (m.reached i) pc) :
    Behind object (m'.sections i) (m'.reached i) pc' := by
  cases ht with
  | keep record sections reached before after =>
    rw [sections, reached]
    exact ⟨after.uses, h.same, h.le⟩
  | activate nil record sections reached =>
    rw [sections]
    exact ⟨h.uses, nofun, nofun⟩
  | load nil same =>
    rw [same]
    exact ⟨h.uses, h.same, h.le⟩
  | nest nonempty record sections reached =>
    rw [sections, reached]
    exact ⟨Eq.symm h.uses, h.same, h.le⟩
  | nestPlain nonempty record sections reached =>
    rw [sections, reached]
    exact h.cons h.uses hown.fits.reached_le
  | store nil record sections reached =>
    rw [sections]
    exact ⟨Eq.symm h.uses, nofun, nofun⟩
  | storePlain nil record sections reached =>
    rw [sections, reached]
    refine ⟨trivial, fun x hx => ?_, fun x hx => ?_⟩
    · rw [List.mem_singleton.mp hx]
      exact h.uses
    · rw [List.mem_singleton.mp hx]
  | addref record sections reached =>
    rw [sections, reached]
    exact h.cons (Eq.symm h.uses) hown.fits.reached_le
  | endPlain mem plain record sections reached =>
    rw [sections, reached]
    exact h.erase _ trivial
  | endObject mem plain record sections reached =>
    rw [sections, reached]
    exact h.erase _ trivial
  | @delref b x result record sections reached =>
    rw [sections, reached]
    refine ⟨trivial, h.same, fun y hy => max_le (h.le y hy) ?_⟩
    obtain ⟨-, hx, -, -, few⟩ := hown.known
    rcases hown.sound.delref_epoch few hx with he | ⟨⟨z, hz, hzb⟩, hno, he, -⟩
    · rw [he]
      exact (hown.fits.ahead (hown.fits.active (List.ne_nil_of_mem hy))).trans (h.le y hy)
    · -- the sections that are left are all in the other bucket
      have hobject : y.bucket.isSome = true := by
        rw [h.same y hy, ← h.same z hz, hzb]
        rfl
      obtain ⟨c, hc⟩ := Option.isSome_iff_exists.mp hobject
      have hcb : c = b + 1 := eq_other fun hcb => hno y hy (hcb ▸ hc)
      have hle := (hown.sound.bucket y (List.mem_cons_of_mem x hy) c hc).2
      rw [he, ← hcb]
      exact hle.trans (hown.fits.begun y hy).1
  | observeLoad same =>
    rw [same]
    exact ⟨trivial, h.same, h.le⟩
  | observe record sections reached =>
    rw [sections, reached]
    refine ⟨trivial, fun x hx => ?_, fun x hx => ?_⟩
    · obtain ⟨y, hy, rfl⟩ := List.mem_map.mp hx
      exact h.same y hy
    · obtain ⟨y, hy, rfl⟩ := List.mem_map.mp hx
      exact le_rfl
  | pollStore nil record sections =>
    rw [sections]
    exact ⟨trivial, nofun, nofun⟩

variable [DecidableEq ι] {object : ι → Bool}

theorem step_behind (h : UniformStep object i m t m' t') (ok : Owned i m t)
    (hb : Behind (object i) (m.sections i) (m.reached i) t.pc) :
    Behind (object i) (m'.sections i) (m'.reached i) t'.pc := by
  obtain ⟨hstep, huses⟩ := h
  cases hstep with
  | register new client => exact ⟨huses client, hb.same, hb.le⟩
  | act running => exact (act_touch ok.2.2).behind ok.2.2 hb
  | beginSection object registered client => exact ⟨huses client, hb.same, hb.le⟩
  | endSection x mem client => exact ⟨huses client, hb.same, hb.le⟩
  | observe inside client => exact ⟨huses client, hb.same, hb.le⟩
  | call registered client => exact ⟨huses client, hb.same, hb.le⟩
  | callStrict r registered client => exact ⟨huses client, hb.same, hb.le⟩
  | poll deferred registered client => exact ⟨huses client, hb.same, hb.le⟩
  | synchronize barrier registered client => exact ⟨huses client, hb.same, hb.le⟩
  | leave f frames inside client => exact ⟨huses client, hb.same, hb.le⟩

theorem step_low (h : UniformStep object i m t m' t') (ok : Owned i m t)
    (hb : Behind (object i) (m.sections i) (m.reached i) t.pc) (hl : Low m) : Low m' := by
  have hb' := step_behind h ok hb
  have hc := step_change h.1 ok.1 ok.2.2
  intro j x hx
  by_cases hj : j = i
  · subst hj
    exact hb'.le x hx
  · rw [hc.sections j hj] at hx
    rw [hc.reached j hj]
    exact hl j x hx

/-- Records with sections of one kind. -/
theorem behind_invariant : GuardedInvariant (UniformStep object) Owned
    (fun m => Near m ∧ Low m) (BehindAt object) where
  own hstep ok ok' hinv hat :=
    ⟨⟨step_near hstep.1 ok ok'.1 hat.1 hinv.1, step_low hstep ok hat.2 hinv.2⟩,
      step_watch hstep.1 ok hat.1, step_behind hstep ok hat.2⟩
  other hstep ok _ _ := by
    intro j q hj _ hq
    have hc := step_change hstep.1 ok.1 ok.2.2
    refine ⟨hq.1.change hc, ?_⟩
    rw [hc.sections j hj, hc.reached j hj]
    exact hq.2

end Behind

/-! ## The scans -/

/-- What the steps may rely on. -/
def Uniform (object : ι → Bool) (i : ι) (m : Mem ι) (t : Thread ι) : Prop :=
  Owned i m t ∧ (Near m ∧ Low m) ∧ BehindAt object i m t

section Waits

variable {i : ι} {m m' : Mem ι} {t t' : Thread ι} {called : Moment} {n delta c : Nat}
  {rest : List ι} {active : Bool} {cr : ι}

theorem Old.change {j : ι} {x : Section} (hc : Change i m m') (hle : c ≤ m.clock)
    (h : Old m' c j x) : Old m c j x := by
  refine ⟨?_, h.2⟩
  by_cases hj : j = i
  · subst hj
    refine (hc.fresh x h.1).resolve_right fun hge => ?_
    exact absurd h.2 (Nat.not_lt.mpr (hle.trans hge))
  · rw [← hc.sections j hj]
    exact h.1

theorem Awaits.change (hc : Change i m m') (h : Awaits m called n delta) :
    Awaits m' called n delta where
  clock := h.clock.trans hc.now.1
  epoch := h.epoch
  le := h.le.trans hc.now.2
  pos := h.pos
  rounds := h.rounds
  begun j x hx := h.begun j x (hx.change hc h.clock)

theorem Passed.change (hc : Change i m m') (hle : called.clock ≤ m.clock)
    (h : Passed m called delta rest active) : Passed m' called delta rest active :=
  fun j x hx => h j x (hx.change hc hle)

theorem Waits.change {pc : Pc ι} (hc : Change i m m') (h : Waits m pc) : Waits m' pc := by
  cases pc with
  | scanFirst k e =>
    cases k with
    | poll deferred => trivial
    | synchronize barrier called n => exact Awaits.change hc h
  | scanActive k e rest active =>
    cases k with
    | poll deferred => trivial
    | synchronize barrier called n => exact ⟨h.1.change hc, h.2.change hc h.1.clock⟩
  | scanEpoch k e cr rest =>
    cases k with
    | poll deferred => trivial
    | synchronize barrier called n => exact ⟨h.1.change hc, h.2.change hc h.1.clock⟩
  | synchronizeReload barrier called n delta cr rest =>
    exact ⟨h.1.change hc, h.2.change hc h.1.clock⟩
  | synchronizeCas barrier called n delta => exact ⟨h.1.change hc, h.2.change hc h.1.clock⟩
  | synchronized barrier called =>
    exact ⟨h.1.trans hc.now.1, fun j x hx => h.2 j x (hx.change hc h.1)⟩
  | _ => trivial

/-- The scan goes past a record. -/
theorem Passed.pass (h : Passed m called delta (cr :: rest) active)
    (hcr : ∀ x, Old m called.clock cr x → active = true ∧ delta ≤ x.begun.epoch) :
    Passed m called delta rest active := by
  intro j x hx
  rcases h j x hx with hj | hp
  · rcases List.mem_cons.mp hj with rfl | hj
    · exact .inr (hcr x hx)
    · exact .inl hj
  · exact .inr hp

theorem Passed.seen (h : Passed m called delta rest active) :
    Passed m called delta rest true :=
  fun j x hx => (h j x hx).imp_right fun hp => ⟨rfl, hp.2⟩

/-- The intervals hold the global epoch back. -/
theorem epoch_le_of_old (hinv : Inv m) (hn : Near m) (hl : Low m) {j : ι} {x : Section}
    (hx : x ∈ m.sections j) : m.epoch ≤ x.begun.epoch + 1 :=
  (hn j ((hinv.fits j).active (List.ne_nil_of_mem hx))).trans
    (Nat.succ_le_succ (hl j x hx))

/-- A record that is found in the epoch of the scan. -/
theorem epoch_le_of_word (hinv : Inv m) (hl : Low m) (few : m.epoch ≤ 2 ^ 32) (hdpos : 1 ≤ delta)
    (hdle : delta ≤ m.epoch) (hw : word (m.record cr).epoch = word delta) {x : Section}
    (hx : x ∈ m.sections cr) : delta ≤ x.begun.epoch := by
  have hf := hinv.fits cr
  have hne := List.ne_nil_of_mem hx
  have hpos := hf.pos hne
  have hle : (m.record cr).epoch ≤ m.epoch := hf.epoch_le
  have hlow : (m.record cr).epoch ≤ x.begun.epoch :=
    (hf.ahead (hf.active hne)).trans (hl cr x hx)
  by_contra hlt
  have heq : (m.record cr).epoch = delta := Threads.eq_of_mod_eq (by omega) (by omega) hw
  omega

variable [DecidableEq ι]

theorem act_waits (hinv : Inv m) (few : m.epoch ≤ 2 ^ 32) (hn : Near m) (hl : Low m)
    (hw : Waits m t.pc) : Waits (m.act i t).1 (m.act i t).2.pc := by
  obtain ⟨frames, pc⟩ := t
  cases pc with
  | synchronizeLoad barrier =>
    have hload : ∀ m' : Mem ι, m'.clock = m.clock → m'.epoch = m.epoch →
        m'.sections = m.sections → Awaits m' m.now 0 m.epoch := by
      intro m' hclock hepoch hsections
      refine ⟨hclock.ge, le_rfl, hepoch.ge, hinv.pos, Nat.zero_le 1, fun j x hx => ⟨?_, nofun⟩⟩
      have hmem : x ∈ m.sections j := hsections ▸ hx.1
      exact ((hinv.fits j).begun x hmem).2.1
    cases barrier <;> exact hload _ rfl rfl rfl
  | scanFirst k e =>
    cases k with
    | poll deferred => trivial
    | synchronize barrier called n =>
      refine ⟨hw, fun j x hx => .inl ?_⟩
      have hf := hinv.fits j
      exact hf.registered (hf.active (List.ne_nil_of_mem hx.1))
  | scanActive k e rest active =>
    cases k with
    | poll deferred =>
      cases rest with
      | nil => cases active <;> trivial
      | cons cr rest =>
        unfold Mem.act
        dsimp only
        split <;> trivial
    | synchronize barrier called n =>
      obtain ⟨hawaits, hpassed⟩ := hw
      cases rest with
      | nil =>
        cases active with
        | true => exact ⟨hawaits, hpassed⟩
        | false =>
          refine ⟨hawaits.clock, fun j x hx => ?_⟩
          rcases hpassed j x hx with hj | ⟨hf, -⟩
          · exact absurd hj List.not_mem_nil
          · cases hf
      | cons cr rest =>
        unfold Mem.act
        dsimp only
        split
        · rename_i hz
          refine ⟨hawaits, hpassed.pass fun x hx => ?_⟩
          exact absurd hz ((hinv.fits cr).active (List.ne_nil_of_mem hx.1))
        · exact ⟨hawaits, hpassed.seen⟩
  | scanEpoch k e cr rest =>
    cases k with
    | poll deferred =>
      unfold Mem.act
      dsimp only
      split <;> trivial
    | synchronize barrier called n =>
      obtain ⟨hawaits, hpassed⟩ := hw
      unfold Mem.act
      dsimp only
      split
      · rename_i hword
        refine ⟨hawaits, hpassed.pass fun x hx => ⟨rfl, ?_⟩⟩
        exact epoch_le_of_word hinv hl few hawaits.pos hawaits.le hword hx.1
      · exact ⟨hawaits, hpassed⟩
  | synchronizeReload barrier called n delta cr rest =>
    obtain ⟨hawaits, hpassed⟩ := hw
    have hle := hawaits.le
    have hepoch := hawaits.epoch
    unfold Mem.act
    dsimp only
    split
    · exact ⟨hawaits, hpassed⟩
    · split
      · rename_i hgoal
        refine ⟨hawaits.clock, fun j x hx => ?_⟩
        have hbegun := (hawaits.begun j x hx).1
        have hnear := epoch_le_of_old hinv hn hl hx.1
        simp only [word, grace] at hgoal
        omega
      · exact ⟨hawaits.clock, hepoch.trans hle, le_rfl, hinv.pos, hawaits.rounds,
          fun j x hx => ⟨(hawaits.begun j x hx).1, fun h1 =>
            ((hawaits.begun j x hx).2 h1).trans_le hle⟩⟩
  | synchronizeCas barrier called n delta =>
    obtain ⟨hawaits, hpassed⟩ := hw
    have hle := hawaits.le
    have hpos := hawaits.pos
    have hold : ∀ j x, Old (m.tick delta) called.clock j x → Old m called.clock j x := by
      intro j x hx
      exact hx.change (tick_change (i := j) delta) hawaits.clock
    have hclock : (m.tick delta).clock = m.clock := by
      unfold Mem.tick
      split <;> rfl
    have hdelta : ∀ j x, Old m called.clock j x → delta ≤ x.begun.epoch := by
      intro j x hx
      exact ((hpassed j x hx).resolve_left List.not_mem_nil).2
    unfold Mem.act
    dsimp only
    split
    · rename_i hround
      have hzero : n = 0 := by
        simp only [grace] at hround
        omega
      have hlt : delta < (m.tick delta).epoch := by
        unfold Mem.tick
        split
        · exact Nat.lt_succ_of_le hle
        · rename_i hword
          exact lt_of_le_of_ne hle fun he => hword (congrArg word he.symm)
      refine ⟨hclock ▸ hawaits.clock, hawaits.epoch.trans hlt.le, le_rfl, by omega, by omega,
        fun j x hx => ⟨(hawaits.begun j x (hold j x hx)).1, fun _ => ?_⟩⟩
      exact ((hawaits.begun j x (hold j x hx)).1.trans hawaits.epoch).trans_lt hlt
    · rename_i hround
      have hone : n = 1 := by
        have := hawaits.rounds
        simp only [grace] at hround
        omega
      refine ⟨hclock ▸ hawaits.clock, fun j x hx => ?_⟩
      have h1 := (hawaits.begun j x (hold j x hx)).2 hone
      exact absurd h1 (Nat.not_lt.mpr (hdelta j x (hold j x hx)))
  | beginActive object =>
    unfold Mem.act
    dsimp only
    split
    · trivial
    · split <;> trivial
  | beginStore object e => cases object <;> trivial
  | endActive x =>
    unfold Mem.act
    dsimp only
    split <;> trivial
  | synchronized barrier called => cases barrier <;> trivial
  | dispatch caller =>
    obtain ⟨deferred, epochs, result⟩ := caller
    cases epochs <;> trivial
  | walk caller batch =>
    cases batch with
    | nil => trivial
    | cons entry batch =>
      simp only [Mem.act]
      split <;> trivial
  | _ => trivial

theorem step_waits (h : Step i m t m' t') (ok : Owned i m t) (hn : Near m) (hl : Low m)
    (hw : Waits m t.pc) : Waits m' t'.pc := by
  cases h with
  | register new client => exact hw.change register_change
  | act running => exact act_waits ok.2.1 ok.1.2 hn hl hw
  | _ => trivial

variable {object : ι → Bool}

theorem waits_invariant : GuardedInvariant (UniformStep object) (Uniform object)
    (fun _ => True) fun _ m t => Waits m t.pc where
  own hstep ok _ _ hw := ⟨trivial, step_waits hstep.1 ok.1 ok.2.1.1 ok.2.1.2 hw⟩
  other hstep ok _ _ := by
    intro j q _ _ hq
    exact hq.change (step_change hstep.1 ok.1.1 ok.1.2.2)

/-! ## Runs -/

omit [DecidableEq ι] in
theorem init_owned (i : ι) : Owned i init ⟨[], .client none⟩ := ⟨init_few i, init_inv, init_at i⟩

omit [DecidableEq ι] in
theorem init_behind (object : ι → Bool) (i : ι) : BehindAt object i init ⟨[], .client none⟩ :=
  ⟨trivial, trivial, nofun, nofun⟩

omit [DecidableEq ι] in
theorem init_low : Low (init (ι := ι)) := fun _ => nofun

omit [DecidableEq ι] in
theorem init_uniform (object : ι → Bool) (i : ι) : Uniform object i init ⟨[], .client none⟩ :=
  ⟨init_owned i, ⟨init_near, init_low⟩, init_behind object i⟩

/-- Runs in which the sections of a record are of one kind. -/
theorem uniform_reachable {step : ι → Mem ι → Thread ι → Mem ι → Thread ι → Prop}
    (hstep : ∀ {i m t m' t'}, step i m t m' t' → UniformStep object i m t m' t')
    {s : System (Mem ι) (Thread ι) ι} (hr : System.Reachable step Few start s) :
    System.Reachable step (Uniform object) start s := by
  have howned : System.Reachable step Owned start s :=
    (invariant.mono (fun h => (hstep h).1) id).strengthen hr init_few init_inv init_at
  exact (behind_invariant.mono hstep id).strengthen howned init_owned ⟨init_near, init_low⟩
    (init_behind object)

/-- When `ck_epoch_synchronize_wait` has returned, all sections and observation intervals that were
open when it was called have ended. -/
theorem synchronize_waits (object : ι → Bool) :
    ∀ s, System.Reachable (UniformStep object) Few start s → ∀ i barrier called,
      (s.pc i).pc = .synchronized barrier called →
        ∀ j, ∀ x ∈ s.mem.sections j, called.clock ≤ x.begun.clock := by
  intro s hr i barrier called hpc j x hx
  obtain ⟨-, hall⟩ := waits_invariant.reachable (uniform_reachable id hr) (init_uniform object)
    trivial fun _ => trivial
  have hw := (hall i).2
  rw [hpc] at hw
  exact Nat.le_of_not_lt fun hlt => hw.2 j x ⟨hx, hlt⟩

end Waits

/-- A thread synchronizes while another one is in a section, which ends while the first scan is
stopped by it. The next section of that thread has begun when the call returns. -/
theorem synchronize_waits_once : ∃ s : System (Mem Bool) (Thread Bool) Bool,
    System.Reachable (UniformStep fun _ => false) Few start s ∧
      (s.pc false).pc = .synchronized false ⟨1, 1⟩ ∧ s.mem.sections true = [⟨none, 2, ⟨1, 2⟩⟩] ∧
      ∀ j, ∀ x ∈ s.mem.sections j, 1 ≤ x.begun.clock := by
  have h₀ : System.Reachable (UniformStep fun _ => false) Few start (start (ι := Bool)) := .refl
  have hact : ∀ {s : System (Mem Bool) (Thread Bool) Bool},
      System.Reachable (UniformStep fun _ => false) Few start s → ∀ (i : Bool) (n : Nat),
      (∀ k < n + 1, ∀ j, Few j (s.acts Mem.act i k).mem ((s.acts Mem.act i k).pc j)) →
      System.Reachable (UniformStep fun _ => false) Few start (s.acts Mem.act i n) :=
    fun hr i n => acts_reachable hr i n fun _ _ _ _ _ _ h => ⟨.act h, fun hc => absurd hc h⟩
  have h₁ := h₀.extend false ⟨.register (by decide) trivial, fun _ => trivial⟩ (by decide)
  have h₂ := h₁.extend true ⟨.register (by decide) trivial, fun _ => trivial⟩ (by decide)
  have h₃ := h₂.extend true ⟨.beginSection false (by decide) trivial, fun _ => rfl⟩ (by decide)
  have h₄ := hact h₃ true 3 (by decide)
  have h₅ := h₄.extend false ⟨.synchronize false (by decide) trivial, fun _ => trivial⟩ (by decide)
  -- the first scan has found all active records in the epoch 1, the second one stops
  have h₆ := hact h₅ false 10 (by decide)
  have h₇ := h₆.extend true
    ⟨.endSection ⟨none, 1, ⟨0, 1⟩⟩ (by decide) trivial, fun _ => trivial⟩ (by decide)
  have h₈ := hact h₇ true 1 (by decide)
  have h₉ := h₈.extend true ⟨.beginSection false (by decide) trivial, fun _ => rfl⟩ (by decide)
  have h₁₀ := hact h₉ true 3 (by decide)
  have h₁₁ := hact h₁₀ false 6 (by decide)
  exact ⟨_, h₁₁, rfl, by decide, synchronize_waits _ _ h₁₁ false false ⟨1, 1⟩ rfl⟩

/-! ## Full turns of `active` -/

/-- Sections without objects that have begun one after another in the epoch 1. -/
def pile : Nat → List Section
  | 0 => []
  | n + 1 => ⟨none, 1, ⟨n, 1⟩⟩ :: pile n

/-- Two threads, of which the second one has begun `n + 1` sections in the epoch 1. -/
def crowd (n : Nat) : System (Mem Bool) (Thread Bool) Bool where
  mem :=
    { epoch := 1
      records := [true, false]
      record := fun i => ⟨if i then 1 else 0, if i then (n + 1) % 2 ^ 32 else 0, fun _ => ⟨0, 0⟩⟩
      pending := fun _ _ => []
      clock := n + 1
      sections := fun i => if i then pile (n + 1) else []
      reached := fun i => if i then 1 else 0
      rounds := fun _ => []
      dispatched := [] }
  pc := fun _ => ⟨[], .client none⟩

/-- One more section begins. -/
theorem crowd_act {n : Nat} (hne : ¬ (n + 1) % 2 ^ 32 = 0) :
    (crowd n).mem.act true ⟨[], .beginActive false⟩ =
      ((crowd (n + 1)).mem, ⟨[], .client none⟩) := by
  have h : ¬ ((crowd n).mem.record true).active = 0 := hne
  simp only [Mem.act, if_neg h, Bool.false_eq_true, if_false]
  refine Prod.ext ?_ rfl
  simp only [crowd, Mem.push, Mem.set]
  congr 1
  · funext i
    cases i
    · rfl
    · simp [inc]
  · funext i
    cases i
    · rfl
    · rfl

/-- Any number of sections may be begun on a record. -/
theorem crowd_reachable {step : Bool → Mem Bool → Thread Bool → Mem Bool → Thread Bool → Prop}
    (hstep : ∀ {i m t m' t'}, Step i m t m' t' →
      (t.pc.Client → t'.pc = .client none ∨ t'.pc = .beginActive false) → step i m t m' t')
    {n : Nat} (hn : n < 2 ^ 32) :
    System.Reachable step (fun _ _ _ => True) start (crowd n) := by
  have hact : ∀ {i m t}, ¬ t.pc.Client → step i m t (Mem.act i m t).1 (Mem.act i m t).2 :=
    fun h => hstep (.act h) fun hc => absurd hc h
  induction n with
  | zero =>
    have h₀ : System.Reachable step (fun _ _ _ => True) start (start (ι := Bool)) := .refl
    have h₁ := h₀.extend false (hstep (.register (by decide) trivial) fun _ => .inl rfl)
      (fun _ => trivial)
    have h₂ := h₁.extend true (hstep (.register (by decide) trivial) fun _ => .inl rfl)
      (fun _ => trivial)
    have h₃ := h₂.extend true
      (hstep (.beginSection false (by decide) trivial) fun _ => .inr rfl) (fun _ => trivial)
    have h₄ := acts_reachable h₃ true 3 (fun _ _ _ _ _ _ h => hact h) (fun _ _ _ => trivial)
    convert h₄ using 1
    unfold crowd
    congr 1
    · congr 1 <;> funext i <;> cases i <;> rfl
    · funext i
      cases i <;> rfl
  | succ n ih =>
    have h₁ := (ih (by omega)).extend true
      (hstep (.beginSection false List.mem_cons_self trivial) fun _ => .inr rfl)
      (fun _ => trivial)
    have hnext := hact (i := true) (m := (crowd n).mem) (t := ⟨[], .beginActive false⟩) id
    rw [crowd_act (by omega),
      ← Function.update_self true (⟨[], .beginActive false⟩ : Thread Bool) (crowd n).pc] at hnext
    have h₂ := h₁.extend true hnext (fun _ => trivial)
    convert h₂ using 1
    unfold crowd
    congr 1
    funext i
    cases i <;> rfl

/-- `2 ^ 32` sections are open and the record looks inactive. `ck_epoch_synchronize_wait` does not
wait for them. -/
theorem synchronize_misses : ∃ s : System (Mem Bool) (Thread Bool) Bool,
    System.Reachable (UniformStep fun _ => false) (fun _ m _ => m.epoch ≤ 2 ^ 32) start s ∧
      ∃ called, (s.pc false).pc = .synchronized false called ∧
        ∃ x ∈ s.mem.sections true, x.begun.clock < called.clock := by
  have h₀ : System.Reachable (UniformStep fun _ => false) (fun _ _ _ => True) start
      (crowd (2 ^ 32 - 1)) := by
    refine crowd_reachable (fun h hcall => ⟨h, fun hc => ?_⟩) (by decide)
    rcases hcall hc with hpc | hpc
    · rw [hpc]
      trivial
    · rw [hpc]
      rfl
  have h₁ := h₀.extend false
    ⟨.synchronize false (List.mem_cons_of_mem _ List.mem_cons_self) trivial, fun _ => trivial⟩
    (fun _ => trivial)
  have h₂ := acts_reachable h₁ false 5
    (fun _ _ _ _ _ _ h => ⟨.act h, fun hc => absurd hc h⟩) (fun _ _ _ => trivial)
  refine ⟨_, ticks_reachable (fun h => h.1) h₂ Nat.one_le_two_pow, ⟨2 ^ 32, 1⟩, rfl,
    ⟨none, 1, ⟨2 ^ 32 - 1, 1⟩⟩, ?_, Nat.lt_succ_self _⟩
  exact List.mem_cons_self

end ConcurrencyKit.Epoch.Grace
