import ConcurrencyKit.Epoch.Model

/-!
# The epoch of a record and its open sections

A section object refers to one of two buckets. The sections of a bucket have begun in the epoch of
the bucket or later, and the record is not in a newer epoch than a bucket in use; when
`_ck_epoch_delref` moves the record on, only the sections of one bucket are left. A section
without an object is in no bucket, so the record may be moved past it. Apart from that the record
is never in a newer epoch than an open section has begun in.
-/

namespace ConcurrencyKit.Epoch

open Threads (Invariant System)

variable {ι : Type}

/-- What the buckets and the epoch of a record say of the sections that are open on it. -/
structure Sound (r : Record) (xs : List Section) (now : Nat) : Prop where
  epoch_le : r.epoch ≤ now
  began_le : ∀ x ∈ xs, x.began ≤ now
  count : ∀ b, (r.bucket b).count = xs.countP (·.bucket = some b) % 2 ^ 32
  /-- A bucket is not newer than its sections, and the record is not newer than the bucket. -/
  bucket : ∀ x ∈ xs, ∀ b, x.bucket = some b →
    r.epoch ≤ (r.bucket b).epoch ∧ (r.bucket b).epoch ≤ x.began

/-- The epoch is not newer than the sections without an object. -/
def Plain (epoch : Nat) (xs : List Section) : Prop :=
  ∀ x ∈ xs, x.bucket = none → epoch ≤ x.began

namespace Sound

variable {r r' : Record} {xs : List Section} {now now' e : Nat} {b : Fin 2} {x : Section}

theorem mono (h : Sound r xs now) (hle : now ≤ now') : Sound r xs now' :=
  { h with
    epoch_le := h.epoch_le.trans hle
    began_le := fun x hx => (h.began_le x hx).trans hle }

/-- The scan looks at `active`, the sections do not. -/
theorem active (h : Sound r xs now) (n : Nat) : Sound { r with active := n } xs now := { h with }

theorem start (he : e ≤ now) (h : Sound r [] now) : Sound { r with epoch := e } [] now :=
  { h with
    epoch_le := he
    bucket := nofun }

/-- A section without an object begins. -/
theorem push (h : Sound r xs now) (he : e ≤ now) : Sound r (⟨none, e⟩ :: xs) now where
  epoch_le := h.epoch_le
  began_le := by
    intro x hx
    rcases List.mem_cons.mp hx with rfl | hx
    · exact he
    · exact h.began_le x hx
  count b := by
    rw [List.countP_cons_of_neg (by simp)]
    exact h.count b
  bucket := by
    intro x hx b hb
    rcases List.mem_cons.mp hx with rfl | hx
    · cases hb
    · exact h.bucket x hx b hb

theorem countP_lt (few : xs.length < 2 ^ 32) : xs.countP (·.bucket = some b) < 2 ^ 32 :=
  List.countP_le_length.trans_lt few

/-- The word tells whether the bucket is in use. -/
theorem count_eq (h : Sound r xs now) (few : xs.length < 2 ^ 32) (b : Fin 2) :
    (r.bucket b).count = xs.countP (·.bucket = some b) := by
  rw [h.count, Nat.mod_eq_of_lt (countP_lt few)]

theorem exists_mem (h : Sound r xs now) (few : xs.length < 2 ^ 32)
    (hb : 0 < (r.bucket b).count) : ∃ x ∈ xs, x.bucket = some b := by
  rw [h.count_eq few, List.countP_pos_iff] at hb
  simpa using hb

theorem not_mem (h : Sound r xs now) (few : xs.length < 2 ^ 32) (hb : (r.bucket b).count = 0) :
    ∀ x ∈ xs, x.bucket ≠ some b := by
  rw [h.count_eq few, List.countP_eq_zero] at hb
  simpa using hb

/-- A section with an object begins. -/
theorem addref (h : Sound r xs now) (few : xs.length < 2 ^ 32) :
    Sound (r.addref now) (⟨some (sense now), now⟩ :: xs) now where
  epoch_le := h.epoch_le
  began_le := by
    intro x hx
    rcases List.mem_cons.mp hx with rfl | hx
    · exact le_rfl
    · exact h.began_le x hx
  count b := by
    by_cases hb : b = sense now
    · subst hb
      rw [List.countP_cons_of_pos (by simp), Record.addref_bucket_self, h.count]
      exact Nat.mod_add_mod _ _ _
    · rw [List.countP_cons_of_neg (by simpa using fun he => hb he.symm),
        Record.addref_bucket_of_ne hb, h.count]
  bucket := by
    have hused : ∀ y ∈ xs, y.bucket = some (sense now) → (r.bucket (sense now)).count ≠ 0 :=
      fun y hy hyb hz => h.not_mem few hz y hy hyb
    intro x hx b hb
    by_cases hne : b = sense now
    · subst hne
      rw [Record.addref_bucket_self]
      dsimp only
      rcases List.mem_cons.mp hx with rfl | hx
      · by_cases hz : (r.bucket (sense now)).count = 0
        · rw [if_pos hz]
          exact ⟨h.epoch_le, le_rfl⟩
        · rw [if_neg hz]
          obtain ⟨y, hy, hyb⟩ := h.exists_mem few (Nat.pos_of_ne_zero hz)
          obtain ⟨hle, hyle⟩ := h.bucket y hy _ hyb
          exact ⟨hle, hyle.trans (h.began_le y hy)⟩
      · rw [if_neg (hused x hx hb)]
        exact h.bucket x hx _ hb
    · have hx : x ∈ xs := by
        rcases List.mem_cons.mp hx with rfl | hx
        · cases hb
          exact absurd rfl hne
        · exact hx
      rw [Record.addref_bucket_of_ne hne]
      exact h.bucket x hx b hb

/-- A section without an object ends. -/
theorem erase (h : Sound r xs now) (hx : x.bucket = none) : Sound r (xs.erase x) now where
  epoch_le := h.epoch_le
  began_le y hy := h.began_le y (List.mem_of_mem_erase hy)
  count b := by
    rw [List.countP_erase, hx, h.count]
    simp
  bucket y hy := h.bucket y (List.mem_of_mem_erase hy)

/-- A bucket gives up the reference of a section that ends. -/
theorem drop (h : Sound r xs now) (hx : ⟨some b, e⟩ ∈ xs) :
    Sound (r.drop b) (xs.erase ⟨some b, e⟩) now where
  epoch_le := h.epoch_le
  began_le y hy := h.began_le y (List.mem_of_mem_erase hy)
  count c := by
    rw [List.countP_erase]
    by_cases hc : c = b
    · subst hc
      have hpos : 0 < xs.countP (·.bucket = some c) :=
        List.countP_pos_iff.mpr ⟨_, hx, by simp⟩
      obtain ⟨n, hn⟩ := Nat.exists_eq_succ_of_ne_zero hpos.ne'
      rw [Record.drop_bucket_self, if_pos ⟨hx, by simp⟩, h.count, hn]
      simp only [dec]
      omega
    · rw [Record.drop_bucket_of_ne hc, if_neg (by simpa using fun _ he => hc he.symm), h.count,
        Nat.sub_zero]
  bucket y hy c hc := by
    have hb := h.bucket y (List.mem_of_mem_erase hy) c hc
    have he : ((r.drop b).bucket c).epoch = (r.bucket c).epoch := by
      by_cases hc : c = b
      · subst hc
        rw [Record.drop_bucket_self]
      · rw [Record.drop_bucket_of_ne hc]
    rw [he]
    exact hb

/-- The record is moved to the epoch of the bucket that is left. -/
theorem move (h : Sound r xs now) (few : xs.length < 2 ^ 32) (hm : r.Moves b) :
    Sound { r with epoch := (r.bucket (b + 1)).epoch } xs now := by
  obtain ⟨hz, hpos, -⟩ := hm
  obtain ⟨y, hy, hyb⟩ := h.exists_mem few hpos
  refine
    { h with
      epoch_le := (h.bucket y hy _ hyb).2.trans (h.began_le y hy)
      bucket := fun x hx c hc => ⟨?_, (h.bucket x hx c hc).2⟩ }
  have hne : c ≠ b := by
    rintro rfl
    exact h.not_mem few hz x hx hc
  rw [eq_other hne]

theorem delref (h : Sound r xs now) (few : xs.length < 2 ^ 32) (hx : ⟨some b, e⟩ ∈ xs) :
    Sound (r.delref b) (xs.erase ⟨some b, e⟩) now := by
  have hlen : (xs.erase ⟨some b, e⟩).length < 2 ^ 32 := List.length_erase_le.trans_lt few
  unfold Record.delref
  split
  · rename_i hm
    exact (h.drop hx).move hlen hm
  · exact h.drop hx

end Sound

/-! ## What a thread knows of its own record -/

/-- Where the calls of a thread stand with its record. -/
def Known (i : ι) (r : Record) (xs : List Section) (now : Nat) : Pc ι → Prop
  | .beginLoad _ => xs = [] ∧ r.active = 1
  | .beginStore _ e => xs = [] ∧ r.active = 1 ∧ e ≤ now
  | .addref => r.active = (xs.length + 1) % 2 ^ 32
  | .endActive x => x ∈ xs ∧ r.active = xs.length % 2 ^ 32
  | .delref b e => ⟨some b, e⟩ ∈ xs ∧ r.active = (xs.length - 1) % 2 ^ 32
  | .scanActive .poll e rest active =>
    r.active = xs.length % 2 ^ 32 ∧ e ≤ now ∧ (active = true ∨ i ∈ rest ∨ xs = [])
  | .scanEpoch .poll e _ _ => r.active = xs.length % 2 ^ 32 ∧ e ≤ now
  | .pollStore e => r.active = xs.length % 2 ^ 32 ∧ e ≤ now ∧ xs = []
  | _ => r.active = xs.length % 2 ^ 32

/-- The record of a thread and what the thread knows of it. -/
def At (i : ι) (m : Mem ι) (pc : Pc ι) : Prop :=
  Sound (m.record i) (m.sections i) m.epoch ∧ Known i (m.record i) (m.sections i) m.epoch pc

/-- What the threads that do not make a step can rely on. -/
structure Frame (i : ι) (m m' : Mem ι) : Prop where
  epoch : m.epoch ≤ m'.epoch
  record : ∀ j ≠ i, m'.record j = m.record j
  sections : ∀ j ≠ i, m'.sections j = m.sections j

theorem Known.mono {i : ι} {r : Record} {xs : List Section} {now now' : Nat} (hle : now ≤ now')
    {pc : Pc ι} (h : Known i r xs now pc) : Known i r xs now' pc := by
  cases pc with
  | beginStore object e => exact ⟨h.1, h.2.1, h.2.2.trans hle⟩
  | scanActive k e rest active =>
    cases k with
    | poll => exact ⟨h.1, h.2.1.trans hle, h.2.2⟩
    | synchronize e n => exact h
  | scanEpoch k e cr rest =>
    cases k with
    | poll => exact ⟨h.1, h.2.trans hle⟩
    | synchronize e n => exact h
  | pollStore e => exact ⟨h.1, h.2.1.trans hle, h.2.2⟩
  | _ => exact h

theorem At.frame {i j : ι} {m m' : Mem ι} (hf : Frame i m m') (hj : j ≠ i) {pc : Pc ι}
    (h : At j m pc) : At j m' pc := by
  unfold At
  rw [hf.record j hj, hf.sections j hj]
  exact ⟨h.1.mono hf.epoch, h.2.mono hf.epoch⟩

section Steps

variable [DecidableEq ι] {records : List ι} {i : ι} {m m' : Mem ι} {pc pc' : Pc ι}

omit [DecidableEq ι] in
theorem tick_frame (e : Nat) : Frame i m (m.tick e) := by
  unfold Mem.tick
  split
  · exact ⟨Nat.le_succ _, fun _ _ => rfl, fun _ _ => rfl⟩
  · exact ⟨le_rfl, fun _ _ => rfl, fun _ _ => rfl⟩

omit [DecidableEq ι] in
theorem Frame.refl : Frame i m m := ⟨le_rfl, fun _ _ => rfl, fun _ _ => rfl⟩

theorem Frame.set (h : Frame i m m') (r : Record) : Frame i m (m'.set i r) :=
  { h with record := fun j hj => (Function.update_of_ne hj _ _).trans (h.record j hj) }

theorem Frame.push (h : Frame i m m') (x : Section) : Frame i m (m'.push i x) :=
  { h with sections := fun j hj => (Function.update_of_ne hj _ _).trans (h.sections j hj) }

theorem Frame.erase (h : Frame i m m') (x : Section) : Frame i m (m'.erase i x) :=
  { h with sections := fun j hj => (Function.update_of_ne hj _ _).trans (h.sections j hj) }

omit [DecidableEq ι] in
theorem passed_frame (e : Nat) (active : Bool) (k : Scanner) :
    Frame i m (m.passed e active k).1 := by
  cases k <;> cases active <;> exact .refl

omit [DecidableEq ι] in
theorem blocked_frame (e : Nat) (cr : ι) (rest : List ι) (k : Scanner) :
    Frame i m (m.blocked e cr rest k).1 := by
  cases k <;> exact .refl

/-- A thread stores to its own record only. -/
theorem act_frame (pc : Pc ι) : Frame i m (m.act records i pc).1 := by
  cases pc with
  | beginActive object =>
    unfold Mem.act
    dsimp only
    split
    · exact Frame.refl.set _
    · split
      · exact Frame.refl.set _
      · exact (Frame.refl.set _).push _
  | beginStore object e =>
    unfold Mem.act
    dsimp only
    split
    · exact Frame.refl.set _
    · exact (Frame.refl.set _).push _
  | addref => exact (Frame.refl.set _).push _
  | endActive x =>
    unfold Mem.act
    dsimp only
    split
    · exact Frame.refl.set _
    · exact (Frame.refl.set _).erase _
  | delref b e => exact (Frame.refl.set _).erase _
  | scanActive k e rest active =>
    cases rest with
    | nil => exact passed_frame e active k
    | cons cr rest =>
      unfold Mem.act
      dsimp only
      split <;> exact .refl
  | scanEpoch k e cr rest =>
    unfold Mem.act
    dsimp only
    split
    · exact .refl
    · exact blocked_frame e cr rest k
  | pollStore e => exact Frame.refl.set _
  | pollCas e => exact tick_frame e
  | synchronizeReload e n delta cr rest =>
    unfold Mem.act
    dsimp only
    split
    · exact .refl
    · split <;> exact .refl
  | synchronizeCas e n delta =>
    unfold Mem.act
    dsimp only
    split <;> exact tick_frame delta
  | _ => exact .refl

/-! ### The thread that makes the step -/

omit [DecidableEq ι] in
/-- No section is open on a record that is not active. -/
theorem nil_of_active {r : Record} {xs : List Section} (few : xs.length < 2 ^ 32)
    (h : r.active = xs.length % 2 ^ 32) (hz : r.active = 0) : xs = [] := by
  rw [hz, Nat.mod_eq_of_lt few] at h
  exact List.eq_nil_of_length_eq_zero h.symm

theorem beginActive_at (few : (m.sections i).length < 2 ^ 32) {object : Bool}
    (h : At i m (.beginActive object)) :
    At i (m.act records i (.beginActive object)).1 (m.act records i (.beginActive object)).2 := by
  obtain ⟨hs, hk⟩ := h
  by_cases hz : (m.record i).active = 0
  · unfold Mem.act
    simp only [if_pos hz]
    refine ⟨?_, ?_⟩
    · simpa using hs.active 1
    · simp [Known, nil_of_active few hk hz]
  · have hinc : inc 32 (m.record i).active = ((m.sections i).length + 1) % 2 ^ 32 := by
      rw [inc, hk, Nat.mod_add_mod]
    cases object with
    | true =>
      unfold Mem.act
      simp only [if_neg hz, if_true]
      refine ⟨?_, ?_⟩
      · simpa using hs.active _
      · simpa [Known] using hinc
    | false =>
      unfold Mem.act
      simp only [if_neg hz, Bool.false_eq_true, if_false]
      refine ⟨?_, ?_⟩
      · simpa using (hs.active _).push le_rfl
      · simpa [Known] using hinc

theorem beginStore_at {object : Bool} {e : Nat} (h : At i m (.beginStore object e)) :
    At i (m.act records i (.beginStore object e)).1
      (m.act records i (.beginStore object e)).2 := by
  obtain ⟨hs, hxs, ha, he⟩ := h
  rw [hxs] at hs
  cases object with
  | true =>
    unfold Mem.act
    simp only [if_true]
    refine ⟨?_, ?_⟩
    · simpa [hxs] using hs.start he
    · simp [Known, hxs, ha]
  | false =>
    unfold Mem.act
    simp only [Bool.false_eq_true, if_false]
    refine ⟨?_, ?_⟩
    · simpa [hxs] using (hs.start he).push he
    · simp [Known, hxs, ha]

theorem addref_at (few : (m.sections i).length < 2 ^ 32) (h : At i m .addref) :
    At i (m.act records i .addref).1 (m.act records i .addref).2 := by
  refine ⟨?_, ?_⟩
  · unfold Mem.act
    simpa using h.1.addref few
  · have ha : (m.record i).active = ((m.sections i).length + 1) % 2 ^ 32 := h.2
    unfold Mem.act
    simpa [Known, Record.addref] using ha

omit [DecidableEq ι] in
/-- `active` is decreased. -/
theorem dec_length {xs : List Section} {x : Section} {n : Nat} (hx : x ∈ xs)
    (hn : n = xs.length % 2 ^ 32) : dec 32 n = (xs.length - 1) % 2 ^ 32 := by
  have hpos : 0 < xs.length := List.length_pos_of_mem hx
  simp only [hn, dec]
  omega

theorem endActive_at {x : Section} (h : At i m (.endActive x)) :
    At i (m.act records i (.endActive x)).1 (m.act records i (.endActive x)).2 := by
  obtain ⟨hs, hx, ha⟩ := h
  have hdec := dec_length hx ha
  cases hb : x.bucket with
  | some b =>
    unfold Mem.act
    simp only [hb]
    refine ⟨?_, ?_⟩
    · simpa using hs.active _
    · obtain ⟨bucket, began⟩ := x
      cases hb
      simpa [Known] using And.intro hx hdec
  | none =>
    unfold Mem.act
    simp only [hb]
    refine ⟨?_, ?_⟩
    · simpa using (hs.active _).erase hb
    · simpa [Known, List.length_erase_of_mem hx] using hdec

theorem delref_at (few : (m.sections i).length < 2 ^ 32) {b : Fin 2} {e : Nat}
    (h : At i m (.delref b e)) :
    At i (m.act records i (.delref b e)).1 (m.act records i (.delref b e)).2 := by
  obtain ⟨hs, hx, ha⟩ := h
  refine ⟨?_, ?_⟩
  · unfold Mem.act
    simpa using hs.delref few hx
  · unfold Mem.act
    simpa [Known, List.length_erase_of_mem hx, Record.delref_active] using ha

theorem scanActive_at (few : (m.sections i).length < 2 ^ 32) {k : Scanner} {e : Nat}
    {rest : List ι} {active : Bool} (h : At i m (.scanActive k e rest active)) :
    At i (m.act records i (.scanActive k e rest active)).1
      (m.act records i (.scanActive k e rest active)).2 := by
  obtain ⟨hs, hk⟩ := h
  cases k with
  | synchronize e' n =>
    cases rest with
    | nil => cases active <;> exact ⟨hs, hk⟩
    | cons cr rest =>
      unfold Mem.act
      dsimp only
      split <;> exact ⟨hs, hk⟩
  | poll =>
    obtain ⟨ha, he, hor⟩ := hk
    cases rest with
    | nil =>
      cases active with
      | true => exact ⟨hs, ha⟩
      | false => exact ⟨hs, ha, he, (hor.resolve_left nofun).resolve_left List.not_mem_nil⟩
    | cons cr rest =>
      by_cases hz : (m.record cr).active = 0
      · unfold Mem.act
        simp only [if_pos hz]
        refine ⟨hs, ha, he, ?_⟩
        rcases hor with hact | hmem | hxs
        · exact .inl hact
        · rcases List.mem_cons.mp hmem with rfl | hmem
          -- the thread has seen its own record
          · exact .inr (.inr (nil_of_active few ha hz))
          · exact .inr (.inl hmem)
        · exact .inr (.inr hxs)
      · unfold Mem.act
        simp only [if_neg hz]
        exact ⟨hs, ha, he⟩

theorem scanEpoch_at {k : Scanner} {e : Nat} {cr : ι} {rest : List ι}
    (h : At i m (.scanEpoch k e cr rest)) :
    At i (m.act records i (.scanEpoch k e cr rest)).1
      (m.act records i (.scanEpoch k e cr rest)).2 := by
  obtain ⟨hs, hk⟩ := h
  unfold Mem.act
  dsimp only
  cases k with
  | synchronize e' n => split <;> exact ⟨hs, hk⟩
  | poll =>
    split
    · exact ⟨hs, hk.1, hk.2, .inl rfl⟩
    · exact ⟨hs, hk.1⟩

omit [DecidableEq ι] in
theorem tick_at {e : Nat} (hs : Sound (m.record i) (m.sections i) m.epoch)
    (ha : (m.record i).active = (m.sections i).length % 2 ^ 32) {pc : Pc ι}
    (hpc : ∀ r xs now, r.active = xs.length % 2 ^ 32 → Known i r xs now pc) :
    At i (m.tick e) pc := by
  have hf := tick_frame (m := m) (i := i) e
  have hr : (m.tick e).record = m.record := by
    unfold Mem.tick
    split <;> rfl
  have hx : (m.tick e).sections = m.sections := by
    unfold Mem.tick
    split <;> rfl
  unfold At
  rw [hr, hx]
  exact ⟨hs.mono hf.epoch, hpc _ _ _ ha⟩

/-- One access of a thread. -/
theorem act_at (hall : i ∈ records) (running : ¬ pc.Resting)
    (few : (m.sections i).length < 2 ^ 32) (h : At i m pc) :
    At i (m.act records i pc).1 (m.act records i pc).2 := by
  cases pc with
  | beginActive object => exact beginActive_at few h
  | beginLoad object => exact ⟨h.1, h.2.1, h.2.2, le_rfl⟩
  | beginStore object e => exact beginStore_at h
  | addref => exact addref_at few h
  | endActive x => exact endActive_at h
  | delref b e => exact delref_at few h
  | pollLoad => exact ⟨h.1, h.2, le_rfl, .inr (.inl hall)⟩
  | synchronizeLoad => exact ⟨h.1, h.2⟩
  | scanActive k e rest active => exact scanActive_at few h
  | scanEpoch k e cr rest => exact scanEpoch_at h
  | pollStore e =>
    obtain ⟨hs, ha, he, hxs⟩ := h
    rw [hxs] at hs
    refine ⟨?_, ?_⟩
    · unfold Mem.act
      simpa [hxs] using hs.start he
    · unfold Mem.act
      simpa [Known] using ha
  | pollCas e => exact tick_at h.1 h.2 fun _ _ _ ha => ha
  | synchronizeReload e n delta cr rest =>
    unfold Mem.act
    dsimp only
    split
    · exact h
    · split <;> exact h
  | synchronizeCas e n delta =>
    unfold Mem.act
    dsimp only
    split <;> exact tick_at h.1 h.2 fun _ _ _ ha => ha
  | idle => exact absurd trivial running
  | ended last => exact absurd trivial running
  | polled result => exact absurd trivial running
  | synchronized => exact absurd trivial running

omit [DecidableEq ι] in
theorem At.resting (h : At i m pc) (resting : pc.Resting) :
    Sound (m.record i) (m.sections i) m.epoch ∧
      (m.record i).active = (m.sections i).length % 2 ^ 32 := by
  cases pc <;> first | exact h | exact resting.elim

theorem step_at (hall : i ∈ records) (h : Step records i m pc m' pc') (few : Few i m pc)
    (hat : At i m pc) : At i m' pc' := by
  cases h with
  | beginSection object resting => exact hat.resting resting
  | endSection x mem resting =>
    exact ⟨(hat.resting resting).1, mem, (hat.resting resting).2⟩
  | poll resting => exact hat.resting resting
  | synchronize outside resting => exact hat.resting resting
  | act running => exact act_at hall running few hat

theorem step_frame (h : Step records i m pc m' pc') : Frame i m m' := by
  cases h with
  | act running => exact act_frame pc
  | _ => exact .refl

/-! ## Runs -/

theorem invariant (hall : ∀ i, i ∈ records) :
    Invariant (Step records) Few (fun _ => True) At where
  own hstep few _ hat := ⟨trivial, step_at (hall _) hstep few hat⟩
  other hstep _ _ _ := by
    intro j q hj hq
    exact hq.frame (step_frame hstep) hj

omit [DecidableEq ι] in
theorem init_at : At i init .idle :=
  ⟨⟨Nat.zero_le _, nofun, fun _ => rfl, nofun⟩, rfl⟩

/-- `_ck_epoch_delref` is about to move the record past a section without an object. -/
def Overtakes (i : ι) (m : Mem ι) : Pc ι → Prop
  | .delref b _ => ((m.record i).drop b).Moves b ∧
      ∃ x ∈ m.sections i, x.bucket = none ∧ x.began < ((m.record i).delref b).epoch
  | _ => False

instance (i : ι) (m : Mem ι) : (pc : Pc ι) → Decidable (Overtakes i m pc)
  | .delref _ _ => inferInstanceAs (Decidable (_ ∧ _))
  | .idle | .beginActive _ | .beginLoad _ | .beginStore _ _ | .addref | .endActive _ | .ended _
  | .pollLoad | .synchronizeLoad | .scanActive _ _ _ _ | .scanEpoch _ _ _ _ | .pollStore _
  | .pollCas _ | .synchronizeReload _ _ _ _ _ | .synchronizeCas _ _ _ | .polled _
  | .synchronized => inferInstanceAs (Decidable False)

/-- A step that does not move a record past a section without an object. -/
def SteadyStep (records : List ι) (i : ι) (m : Mem ι) (pc : Pc ι) (m' : Mem ι) (pc' : Pc ι) :
    Prop :=
  Step records i m pc m' pc' ∧ ¬ Overtakes i m pc

theorem Plain.erase {e : Nat} {xs : List Section} (h : Plain e xs) (x : Section) :
    Plain e (xs.erase x) :=
  fun y hy => h y (List.mem_of_mem_erase hy)

theorem Plain.cons {e : Nat} {xs : List Section} (h : Plain e xs) {x : Section}
    (hx : x.bucket = none → e ≤ x.began) : Plain e (x :: xs) := by
  intro y hy
  rcases List.mem_cons.mp hy with rfl | hy
  · exact hx
  · exact h y hy

/-- The sections without an object that the record is not moved past. -/
theorem act_plain (hat : At i m pc) (steady : ¬ Overtakes i m pc)
    (h : Plain (m.record i).epoch (m.sections i)) :
    Plain ((m.act records i pc).1.record i).epoch ((m.act records i pc).1.sections i) := by
  obtain ⟨hs, hk⟩ := hat
  cases pc with
  | beginActive object =>
    unfold Mem.act
    dsimp only
    split
    · simpa using h
    · split
      · simpa using h
      · simpa using h.cons (x := ⟨none, m.epoch⟩) fun _ => hs.epoch_le
  | beginStore object e =>
    unfold Mem.act
    dsimp only
    have hnil : Plain e (m.sections i) := by
      rw [hk.1]
      exact nofun
    split
    · simpa using hnil
    · simpa using hnil.cons (x := ⟨none, e⟩) fun _ => le_rfl
  | addref =>
    unfold Mem.act
    simpa [Record.addref] using h.cons (x := ⟨some (sense m.epoch), m.epoch⟩) nofun
  | endActive x =>
    unfold Mem.act
    dsimp only
    split
    · simpa using h
    · simpa using Plain.erase h x
  | delref b e =>
    have hmoved : Plain ((m.record i).delref b).epoch (m.sections i) := by
      by_cases hm : ((m.record i).drop b).Moves b
      · intro x hx hb
        by_contra hlt
        exact steady ⟨hm, x, hx, hb, Nat.lt_of_not_le hlt⟩
      · rw [Record.delref, if_neg hm]
        exact h
    unfold Mem.act
    simpa using hmoved.erase ⟨some b, e⟩
  | scanActive k e rest active =>
    cases rest with
    | nil => cases k <;> cases active <;> exact h
    | cons cr rest =>
      unfold Mem.act
      dsimp only
      split <;> exact h
  | scanEpoch k e cr rest =>
    unfold Mem.act
    dsimp only
    split
    · exact h
    · cases k <;> exact h
  | pollStore e =>
    have hnil : Plain e (m.sections i) := by
      rw [hk.2.2]
      exact nofun
    unfold Mem.act
    simpa using hnil
  | pollCas e =>
    unfold Mem.act
    simp only [Mem.tick]
    split <;> exact h
  | synchronizeReload e n delta cr rest =>
    unfold Mem.act
    dsimp only
    split
    · exact h
    · split <;> exact h
  | synchronizeCas e n delta =>
    unfold Mem.act
    simp only [Mem.tick]
    split <;> split <;> exact h
  | _ => exact h

theorem step_plain (h : SteadyStep records i m pc m' pc') (hat : At i m pc)
    (hp : Plain (m.record i).epoch (m.sections i)) : Plain (m'.record i).epoch (m'.sections i) := by
  obtain ⟨hstep, steady⟩ := h
  cases hstep with
  | act running => exact act_plain hat steady hp
  | _ => exact hp

theorem steady_invariant (hall : ∀ i, i ∈ records) :
    Invariant (SteadyStep records) Few (fun _ => True)
      (fun i m pc => At i m pc ∧ Plain (m.record i).epoch (m.sections i)) where
  own hstep few _ hat :=
    ⟨trivial, step_at (hall _) hstep.1 few hat.1, step_plain hstep hat.1 hat.2⟩
  other hstep _ _ _ := by
    intro j q hj hq
    have hf := step_frame hstep.1
    refine ⟨hq.1.frame hf hj, ?_⟩
    rw [hf.record j hj, hf.sections j hj]
    exact hq.2

/-- A record is never in a newer epoch than an open section with an object has begun in. In the
runs in which it is not moved past an open section without one, this holds of all sections. -/
theorem epoch_not_newer (hall : ∀ i, i ∈ records) :
    (∀ s, System.Reachable (Step records) Few start s → ∀ i, ∀ x ∈ s.mem.sections i,
      x.bucket ≠ none → (s.mem.record i).epoch ≤ x.began) ∧
    (∀ s, System.Reachable (SteadyStep records) Few start s → ∀ i, ∀ x ∈ s.mem.sections i,
      (s.mem.record i).epoch ≤ x.began) := by
  have hsound : ∀ {s : System (Mem ι) (Pc ι) ι} {i : ι} {x : Section}, At i s.mem (s.pc i) →
      x ∈ s.mem.sections i → x.bucket ≠ none → (s.mem.record i).epoch ≤ x.began := by
    intro s i x hat hx hb
    obtain ⟨b, hb⟩ := Option.ne_none_iff_exists'.mp hb
    obtain ⟨hle, hle'⟩ := hat.1.bucket x hx b hb
    exact hle.trans hle'
  have hfew : ∀ i : ι, Few i init (.idle : Pc ι) := fun _ => Nat.two_pow_pos 32
  constructor
  · intro s hr i x hx hb
    obtain ⟨-, hat⟩ := (invariant hall).reachable hr hfew trivial fun _ => init_at
    exact hsound (hat i).2 hx hb
  · intro s hr i x hx
    obtain ⟨-, hat⟩ := (steady_invariant hall).reachable hr hfew trivial fun _ =>
      ⟨init_at, nofun⟩
    by_cases hb : x.bucket = none
    · exact (hat i).2.2 x hx hb
    · exact hsound (hat i).2.1 hx hb

theorem act_resting (h : pc.Resting) : m.act records i pc = (m, pc) := by
  cases pc <;> first | rfl | exact h.elim

/-- A thread makes `n` accesses of its call. -/
theorem acts_reachable {ok : ι → Mem ι → Pc ι → Prop} {s : System (Mem ι) (Pc ι) ι}
    (hr : System.Reachable (Step records) ok start s) (i : ι) (n : Nat)
    (good : ∀ k < n + 1, ∀ j, ok j (s.acts (Mem.act records) i k).mem
      ((s.acts (Mem.act records) i k).pc j)) :
    System.Reachable (Step records) ok start (s.acts (Mem.act records) i n) := by
  refine System.Reachable.acts hr i n (fun k hk m pc _ _ => ?_) good
  by_cases h : pc.Resting
  · exact .inl (act_resting h)
  · exact .inr (.act h)

/-- The same, when it does not move its record past a section without an object. -/
theorem steady_acts_reachable {s : System (Mem ι) (Pc ι) ι}
    (hr : System.Reachable (SteadyStep records) Few start s) (i : ι) (n : Nat)
    (steady : ∀ k < n, ¬ Overtakes i (s.acts (Mem.act records) i k).mem
      ((s.acts (Mem.act records) i k).pc i))
    (few : ∀ k < n + 1, ∀ j, Few j (s.acts (Mem.act records) i k).mem
      ((s.acts (Mem.act records) i k).pc j)) :
    System.Reachable (SteadyStep records) Few start (s.acts (Mem.act records) i n) := by
  refine System.Reachable.acts hr i n (fun k hk m pc hm hpc => ?_) few
  by_cases h : pc.Resting
  · exact .inl (act_resting h)
  · have hsteady := steady k hk
    rw [hm, hpc] at hsteady
    exact .inr ⟨.act h, hsteady⟩

end Steps

instance {ι : Type} (i : ι) (m : Mem ι) (pc : Pc ι) : Decidable (Few i m pc) :=
  inferInstanceAs (Decidable (_ < _))

/-- A section with an object and one without begin in the epoch 1, and one with an object in the
epoch 2. When the first two have ended the record is moved on. -/
theorem epoch_not_newer_moved : ∃ s : System (Mem Bool) (Pc Bool) Bool,
    System.Reachable (SteadyStep [false, true]) Few start s ∧
      s.mem.sections true = [⟨some 0, 2⟩] ∧ (s.mem.record true).epoch = 2 ∧
      ∀ i, ∀ x ∈ s.mem.sections i, (s.mem.record i).epoch ≤ x.began := by
  have h₀ : System.Reachable (SteadyStep [false, true]) Few start (start (ι := Bool)) := .refl
  have h₁ := h₀.extend true ⟨.beginSection true trivial, id⟩ (by decide)
  have h₂ := steady_acts_reachable h₁ true 4 (by decide) (by decide)
  have h₃ := h₂.extend true ⟨.beginSection false trivial, id⟩ (by decide)
  have h₄ := steady_acts_reachable h₃ true 1 (by decide) (by decide)
  -- the other thread advances the epoch
  have h₅ := h₄.extend false ⟨.poll trivial, id⟩ (by decide)
  have h₆ := steady_acts_reachable h₅ false 6 (by decide) (by decide)
  have h₇ := h₆.extend true ⟨.beginSection true trivial, id⟩ (by decide)
  have h₈ := steady_acts_reachable h₇ true 2 (by decide) (by decide)
  have h₉ := h₈.extend true ⟨.endSection ⟨none, 1⟩ (by decide) trivial, id⟩ (by decide)
  have h₁₀ := steady_acts_reachable h₉ true 1 (by decide) (by decide)
  have h₁₁ := h₁₀.extend true ⟨.endSection ⟨some 1, 1⟩ (by decide) trivial, id⟩ (by decide)
  have h₁₂ := steady_acts_reachable h₁₁ true 2 (by decide) (by decide)
  exact ⟨_, h₁₂, by decide, by decide,
    (epoch_not_newer (by decide : ∀ i, i ∈ [false, true])).2 _ h₁₂⟩

/-- The first section with an object ends while the one without, which has begun in the same
epoch, is open. -/
theorem moved_past : ∃ s : System (Mem Bool) (Pc Bool) Bool,
    System.Reachable (Step [false, true]) Few start s ∧
      ∃ x ∈ s.mem.sections true, x.began < (s.mem.record true).epoch := by
  have h₀ : System.Reachable (Step [false, true]) Few start (start (ι := Bool)) := .refl
  have h₁ := h₀.extend true (.beginSection true trivial) (by decide)
  have h₂ := acts_reachable h₁ true 4 (by decide)
  have h₃ := h₂.extend true (.beginSection false trivial) (by decide)
  have h₄ := acts_reachable h₃ true 1 (by decide)
  have h₅ := h₄.extend false (.poll trivial) (by decide)
  have h₆ := acts_reachable h₅ false 6 (by decide)
  have h₇ := h₆.extend true (.beginSection true trivial) (by decide)
  have h₈ := acts_reachable h₇ true 2 (by decide)
  have h₉ := h₈.extend true (.endSection ⟨some 1, 1⟩ (by decide) trivial) (by decide)
  have h₁₀ := acts_reachable h₉ true 2 (by decide)
  exact ⟨_, h₁₀, ⟨none, 1⟩, by decide, by decide⟩

/-- Both threads are idle with sections without objects, which have begun in the epoch 1: one of
the first thread and `n + 1` of the second. -/
def nested (n : Nat) : System (Mem Bool) (Pc Bool) Bool where
  mem :=
    { epoch := 1
      record := fun i => ⟨1, if i then (n + 1) % 2 ^ 32 else 1, fun _ => ⟨0, 0⟩⟩
      sections := fun i => List.replicate (if i then n + 1 else 1) ⟨none, 1⟩ }
  pc := fun _ => .idle

/-- One more section begins. -/
theorem nested_act {n : Nat} (hne : ¬ (n + 1) % 2 ^ 32 = 0) :
    (nested n).mem.act [false, true] true (.beginActive false) =
      ((nested (n + 1)).mem, .idle) := by
  have h : ¬ ((nested n).mem.record true).active = 0 := hne
  unfold Mem.act
  simp only [if_neg h, Bool.false_eq_true, if_false]
  refine Prod.ext ?_ rfl
  simp only [nested, Mem.push, Mem.set]
  congr 1
  · funext i
    cases i
    · rfl
    · simp [inc]
  · funext i
    cases i
    · rfl
    · simp [List.replicate_succ]

theorem nested_reachable {n : Nat} (hn : n < 2 ^ 32) :
    System.Reachable (Step [false, true]) (fun _ _ _ => True) start (nested n) := by
  induction n with
  | zero =>
    have h₀ : System.Reachable (Step [false, true]) (fun _ _ _ => True) start
        (start (ι := Bool)) := .refl
    have h₁ := h₀.extend false (.beginSection false trivial) (fun _ => trivial)
    have h₂ := acts_reachable h₁ false 3 (fun _ _ _ => trivial)
    have h₃ := h₂.extend true (.beginSection false trivial) (fun _ => trivial)
    have h₄ := acts_reachable h₃ true 3 (fun _ _ _ => trivial)
    convert h₄ using 1
    unfold nested
    congr 1
    · congr 1 <;> funext i <;> cases i <;> rfl
    · funext i
      cases i <;> rfl
  | succ n ih =>
    have h₁ := (ih (by omega)).extend true (.beginSection false trivial) (fun _ => trivial)
    have hstep : Step [false, true] true (nested n).mem (.beginActive false)
        ((nested n).mem.act [false, true] true (.beginActive false)).1
        ((nested n).mem.act [false, true] true (.beginActive false)).2 := .act id
    rw [nested_act (by omega), ← Function.update_self true (.beginActive false) (nested n).pc]
      at hstep
    have h₂ := h₁.extend true hstep (fun _ => trivial)
    convert h₂ using 1
    unfold nested
    congr 1
    funext i
    cases i <;> rfl

/-- `2 ^ 32` sections are open, and the record is not active. The other thread advances the epoch,
and the next section begins like the first one. -/
theorem full_turn : ∃ s : System (Mem Bool) (Pc Bool) Bool,
    System.Reachable (Step [false, true]) (fun _ _ _ => True) start s ∧
      (∀ i, ∀ x ∈ s.mem.sections i, x.bucket = none) ∧
      ∃ x ∈ s.mem.sections true, x.began < (s.mem.record true).epoch := by
  have h₁ := (nested_reachable (n := 2 ^ 32 - 1) (by decide)).extend false (.poll trivial)
    (fun _ => trivial)
  have h₂ := acts_reachable h₁ false 6 (fun _ _ _ => trivial)
  have h₃ := h₂.extend true (.beginSection false trivial) (fun _ => trivial)
  have h₄ := acts_reachable h₃ true 3 (fun _ _ _ => trivial)
  have hmem : ∀ i, ∀ x ∈ (nested (2 ^ 32 - 1)).mem.sections i, x.bucket = none := by
    intro i x hx
    rw [List.eq_of_mem_replicate hx]
  refine ⟨_, h₄, ?_, ⟨none, 1⟩, ?_, ?_⟩
  · intro i x hx
    cases i with
    | false => exact hmem false x hx
    | true =>
      rcases List.mem_cons.mp hx with rfl | hx
      · rfl
      · exact hmem true x hx
  · refine List.mem_cons_of_mem _ ?_
    show (⟨none, 1⟩ : Section) ∈ List.replicate (2 ^ 32 - 1 + 1) ⟨none, 1⟩
    rw [List.replicate_succ]
    exact List.mem_cons_self
  · exact Nat.lt_succ_self 1

/-- A record in a newer epoch than an open section without an object: it has been moved past the
section, or `active` has made a full turn. -/
theorem newer_than_section :
    (∃ s : System (Mem Bool) (Pc Bool) Bool,
      System.Reachable (Step [false, true]) Few start s ∧
        ∃ x ∈ s.mem.sections true, x.began < (s.mem.record true).epoch) ∧
    (∃ s : System (Mem Bool) (Pc Bool) Bool,
      System.Reachable (Step [false, true]) (fun _ _ _ => True) start s ∧
        (∀ i, ∀ x ∈ s.mem.sections i, x.bucket = none) ∧
        ∃ x ∈ s.mem.sections true, x.began < (s.mem.record true).epoch) :=
  ⟨moved_past, full_turn⟩

end ConcurrencyKit.Epoch
