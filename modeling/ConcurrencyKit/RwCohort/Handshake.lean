import ConcurrencyKit.RwCohort.Model

/-!
# Counted readers and writers with a lock

What the three kinds of locks have in common. A writer has the cohort lock and has found
`read_counter` to be zero. A reader is counted there, and has then been told that the cohort lock
is free, or has had it itself when it was counted. What a thread has done so far of this is its
`Role`, and a `Role.Step` is one more act. No more is needed for exclusion, nor for the counters to
come back to zero.
-/

namespace ConcurrencyKit.RwCohort

variable {ι : Type}

/-- What a thread has done of the handshake. -/
structure Role where
  /-- It has the cohort lock. -/
  holds : Bool := false
  /-- It has found no readers, and has had the cohort lock since. -/
  writes : Bool := false
  /-- It is counted in `readCounter`. -/
  counted : Bool := false
  /-- It has raised the barrier. -/
  raised : Bool := false
  /-- It has been told that there is no writer, and has been counted since. -/
  reads : Bool := false
  /-- It asks whether the cohort lock is locked and has made the first load. -/
  looking : Option (Option Nat) := none

/-- One act of thread `i`. -/
inductive Role.Step [DecidableEq ι] (i : ι) : Mem ι → Role → Mem ι → Role → Prop
  | stay {m : Mem ι} {r : Role} : Step i m r m r
  | take {m : Mem ι} {r : Role} (free : m.holder = none) (h : r.writes = false) :
      Step i m r (m.take i) { r with holds := true }
  | release {m : Mem ι} {r : Role} (h : r.holds = true) :
      Step i m r m.release { r with holds := false, writes := false }
  | write {m : Mem ι} {r : Role} (h : r.holds = true) (hzero : m.readCounter = 0) :
      Step i m r m.write { r with writes := true }
  | incCounter {m : Mem ι} {r : Role} (h : r.counted = false) :
      Step i m r (m.incCounter i) { r with counted := true }
  | decCounter {m : Mem ι} {r : Role} (h : r.counted = true) :
      Step i m r (m.decCounter i) { r with counted := false, reads := false, looking := none }
  | incBarrier {m : Mem ι} {r : Role} (h : r.raised = false) :
      Step i m r (m.incBarrier i) { r with raised := true }
  | decBarrier {m : Mem ι} {r : Role} (h : r.raised = true) :
      Step i m r (m.decBarrier i) { r with raised := false }
  /-- The first load. -/
  | look {m : Mem ι} {r : Role} (h : r.counted = true) :
      Step i m r m { r with looking := some m.held }
  /-- The answer is that the cohort lock is locked. -/
  | locked {m : Mem ι} {r : Role} : Step i m r m { r with looking := none }
  /-- The answer is that it is not. -/
  | unlocked {m : Mem ι} {r : Role} {seen : Option Nat} (h : r.looking = some seen)
      (hfree : ¬ m.Throughout seen) : Step i m r m { r with looking := none, reads := true }
  /-- A thread that has been counted while it had the cohort lock releases it. -/
  | pass {m : Mem ι} {r : Role} (h : r.holds = true) (hwrites : r.writes = false)
      (hcounted : r.counted = true) :
      Step i m r m.release { r with holds := false, reads := true }

/-- The two counters. -/
structure Counted (m : Mem ι) : Prop where
  readers : Counter.Counts (2 ^ 32) m.readCounter m.counted
  raisers : Counter.Counts (2 ^ 32) m.barrier m.raised

/-- Whether a thread is counted. -/
structure CountedAt (i : ι) (m : Mem ι) (r : Role) : Prop where
  counted : i ∈ m.counted ↔ r.counted = true
  raised : i ∈ m.raised ↔ r.raised = true

/-- Whether a thread has the cohort lock. -/
structure HoldsAt (i : ι) (m : Mem ι) (r : Role) : Prop where
  holds : m.holder = some i ↔ r.holds = true
  writes : r.writes = true → r.holds = true

/-- A writer has the cohort lock. -/
def Locked (m : Mem ι) : Prop := m.writing = true → m.holder ≠ none

/-- What is true of a thread. -/
structure At (i : ι) (m : Mem ι) (r : Role) : Prop extends HoldsAt i m r where
  writing : r.holds = true → m.writing = r.writes
  looking : ∀ seen, r.looking = some seen →
    r.counted = true ∧ (m.writing = true → m.Throughout seen)
  reads : r.reads = true → r.counted = true ∧ m.writing = false

/-- The counter of the readers is as many as there are. -/
def Few {P : Type} (_ : ι) (m : Mem ι) (_ : P) : Prop := m.counted.card < 2 ^ 32

section Steps

variable [DecidableEq ι] {i : ι} {m m' : Mem ι} {r r' : Role}

/-! ## The counters -/

theorem Role.Step.countedOther (h : Role.Step i m r m' r') {j : ι} (hj : j ≠ i) {q : Role}
    (hq : CountedAt j m q) : CountedAt j m' q := by
  cases h with
  | incCounter => exact ⟨by simpa [Mem.incCounter, hj] using hq.counted, hq.raised⟩
  | decCounter => exact ⟨by simpa [Mem.decCounter, hj] using hq.counted, hq.raised⟩
  | incBarrier => exact ⟨hq.counted, by simpa [Mem.incBarrier, hj] using hq.raised⟩
  | decBarrier => exact ⟨hq.counted, by simpa [Mem.decBarrier, hj] using hq.raised⟩
  | _ => exact ⟨hq.counted, hq.raised⟩

theorem Role.Step.countedOwn (h : Role.Step i m r m' r') (hinv : Counted m)
    (hat : CountedAt i m r) : Counted m' ∧ CountedAt i m' r' := by
  cases h with
  | incCounter h =>
    have hnot : i ∉ m.counted := by simp [hat.counted, h]
    exact ⟨⟨hinv.readers.insert hnot, hinv.raisers⟩, by simp [Mem.incCounter], hat.raised⟩
  | decCounter h =>
    have hmem := hat.counted.mpr h
    exact ⟨⟨hinv.readers.erase hmem, hinv.raisers⟩, by simp [Mem.decCounter], hat.raised⟩
  | incBarrier h =>
    have hnot : i ∉ m.raised := by simp [hat.raised, h]
    exact ⟨⟨hinv.readers, hinv.raisers.insert hnot⟩, hat.counted, by simp [Mem.incBarrier]⟩
  | decBarrier h =>
    have hmem := hat.raised.mpr h
    exact ⟨⟨hinv.readers, hinv.raisers.erase hmem⟩, hat.counted, by simp [Mem.decBarrier]⟩
  | _ => exact ⟨⟨hinv.readers, hinv.raisers⟩, hat.counted, hat.raised⟩

theorem counted_invariant :
    Threads.Invariant Role.Step (fun _ _ _ => True) (Counted (ι := ι)) CountedAt where
  own h _ hinv hat := h.countedOwn hinv hat
  other h _ _ _ _ _ hj hq := h.countedOther hj hq

/-! ## The cohort lock -/

theorem Role.Step.holdsOther (h : Role.Step i m r m' r') (hat : HoldsAt i m r) {j : ι} (hj : j ≠ i)
    {q : Role} (hq : HoldsAt j m q) : HoldsAt j m' q := by
  refine ⟨Iff.trans ?_ hq.holds, hq.writes⟩
  cases h with
  | take free => simp [Mem.take, free, Ne.symm hj]
  | release h | pass h => simp [Mem.release, hat.holds.mpr h, Ne.symm hj]
  | _ => exact Iff.rfl

theorem Role.Step.holdsOwn (h : Role.Step i m r m' r') (hat : HoldsAt i m r) :
    HoldsAt i m' r' := by
  cases h with
  | take => exact ⟨by simp [Mem.take], fun _ => rfl⟩
  | release => exact ⟨by simp [Mem.release], fun h => by cases h⟩
  | pass _ hwrites => exact ⟨by simp [Mem.release], fun h => by simp [hwrites] at h⟩
  | write h => exact ⟨hat.holds, fun _ => h⟩
  | _ => exact ⟨hat.holds, hat.writes⟩

theorem holds_invariant :
    Threads.Invariant Role.Step (fun _ _ _ => True) (fun _ : Mem ι => True) HoldsAt where
  own h _ _ hat := ⟨trivial, h.holdsOwn hat⟩
  other h _ _ hat _ _ hj hq := h.holdsOther hat hj hq

/-! ## Exclusion -/

/-- What a step leaves to the other threads. -/
structure Leaves (i : ι) (m m' : Mem ι) : Prop where
  writing : ∀ j, j ≠ i → m.holder = some j → m'.writing = m.writing
  begins : m'.writing = true → m.writing = true ∧ m'.held = m.held ∨ m.counted = ∅

omit [DecidableEq ι] in
theorem Leaves.of_eq (hholder : m'.holder = m.holder) (htaken : m'.taken = m.taken)
    (hwriting : m'.writing = m.writing) : Leaves i m m' where
  writing _ _ _ := hwriting
  begins h := .inl ⟨hwriting ▸ h, by rw [Mem.held, Mem.held, hholder, htaken]⟩

omit [DecidableEq ι] in
/-- A thread that has the cohort lock releases it. -/
theorem Leaves.release (h : m.holder = some i) : Leaves i m m.release := by
  refine ⟨fun j hj heq => ?_, by simp [Mem.release]⟩
  rw [h] at heq
  exact absurd (Option.some.inj heq).symm hj

theorem Role.Step.leaves (h : Role.Step i m r m' r') (hfew : m.counted.card < 2 ^ 32)
    (hcounted : Counted m) (hlocked : Locked m) (hat : At i m r) : Leaves i m m' := by
  cases h with
  | take free =>
    refine ⟨fun _ _ _ => rfl, fun hwriting => ?_⟩
    exact absurd free (hlocked hwriting)
  | release h | pass h => exact .release (hat.holds.mpr h)
  | write h hzero =>
    refine ⟨fun j hj heq => ?_, fun _ => .inr (hcounted.readers.eq_empty hfew hzero)⟩
    rw [hat.holds.mpr h] at heq
    exact absurd (Option.some.inj heq).symm hj
  | _ => exact .of_eq rfl rfl rfl

omit [DecidableEq ι] in
/-- A step of another thread. -/
theorem Leaves.other (h : Leaves i m m') {j : ι} (hj : j ≠ i) {q : Role}
    (hcounted : CountedAt j m q) (hholds : HoldsAt j m' q) (hq : At j m q) : At j m' q := by
  -- a thread that is counted does not let a writer begin
  have before : q.counted = true → m'.writing = true → m.writing = true ∧ m'.held = m.held := by
    intro hc hwriting
    refine (h.begins hwriting).resolve_right fun hempty => ?_
    have hmem := hcounted.counted.mpr hc
    simp [hempty] at hmem
  refine ⟨hholds, ?_, ?_, ?_⟩
  · intro hlock
    rw [h.writing j hj (hq.holds.mpr hlock)]
    exact hq.writing hlock
  · intro seen hseen
    obtain ⟨hc, hthroughout⟩ := hq.looking seen hseen
    refine ⟨hc, fun hwriting => ?_⟩
    obtain ⟨hbefore, hheld⟩ := before hc hwriting
    rw [Mem.Throughout, hheld]
    exact hthroughout hbefore
  · intro hreads
    obtain ⟨hc, hnot⟩ := hq.reads hreads
    refine ⟨hc, Bool.eq_false_iff.mpr fun hwriting => ?_⟩
    rw [(before hc hwriting).1] at hnot
    cases hnot

omit [DecidableEq ι] in
/-- A writer has the cohort lock already when another thread makes its first load. -/
theorem Locked.throughout (hlocked : Locked m) (h : m.writing = true) : m.Throughout m.held := by
  refine ⟨?_, rfl⟩
  simpa [Mem.held] using hlocked h

omit [DecidableEq ι] in
theorem Locked.release (m : Mem ι) : Locked m.release := by
  intro h
  cases h

omit [DecidableEq ι] in
/-- What is true of a thread while nobody writes. -/
theorem At.of_not_writing (hholds : HoldsAt i m' r') (hwrites : r'.writes = false)
    (hwriting : m'.writing = false) (hlooking : ∀ seen, r'.looking = some seen → r'.counted = true)
    (hreads : r'.reads = true → r'.counted = true) : At i m' r' :=
  ⟨hholds, fun _ => hwriting.trans hwrites.symm,
    fun seen h => ⟨hlooking seen h, fun hw => by simp [hwriting] at hw⟩,
    fun h => ⟨hreads h, hwriting⟩⟩

theorem Role.Step.own (h : Role.Step i m r m' r') (hfew : m.counted.card < 2 ^ 32)
    (hcounted : Counted m) (hlocked : Locked m) (hcountedAt : CountedAt i m r) (hat : At i m r) :
    Locked m' ∧ At i m' r' := by
  have counted : (∀ seen, r.looking = some seen → r.counted = true) ∧
      (r.reads = true → r.counted = true) :=
    ⟨fun seen h => (hat.looking seen h).1, fun h => (hat.reads h).1⟩
  have hholds := h.holdsOwn hat.toHoldsAt
  cases h with
  | stay => exact ⟨hlocked, hat⟩
  | take free h =>
    have hwriting : m.writing = false :=
      Bool.eq_false_iff.mpr fun hwriting => hlocked hwriting free
    exact ⟨fun _ => by simp [Mem.take],
      .of_not_writing hholds h hwriting counted.1 counted.2⟩
  | release h => exact ⟨.release m, .of_not_writing hholds rfl rfl counted.1 counted.2⟩
  | pass h hwrites hc =>
    exact ⟨.release m, .of_not_writing hholds hwrites rfl counted.1 fun _ => hc⟩
  | write h hzero =>
    have hholder := hat.holds.mpr h
    have hnot : ¬ r.counted = true := by
      have hempty := hcounted.readers.eq_empty hfew hzero
      simp [← hcountedAt.counted, hempty]
    exact ⟨fun _ => by simp [Mem.write, hholder],
      hholds, fun _ => rfl, fun seen hseen => absurd (counted.1 seen hseen) hnot,
      fun hreads => absurd (counted.2 hreads) hnot⟩
  | incCounter h =>
    refine ⟨hlocked, hholds, hat.writing, ?_, ?_⟩
    · intro seen hseen
      exact ⟨rfl, (hat.looking seen hseen).2⟩
    · intro hreads
      exact ⟨rfl, (hat.reads hreads).2⟩
  | decCounter h => exact ⟨hlocked, hholds, hat.writing, by simp, by simp⟩
  | incBarrier | decBarrier =>
    exact ⟨hlocked, hholds, hat.writing, hat.looking, hat.reads⟩
  | look h =>
    refine ⟨hlocked, hholds, hat.writing, ?_, hat.reads⟩
    intro seen hseen
    cases hseen
    exact ⟨h, hlocked.throughout⟩
  | locked => exact ⟨hlocked, hholds, hat.writing, by simp, hat.reads⟩
  | unlocked h hfree =>
    obtain ⟨hc, hthroughout⟩ := hat.looking _ h
    refine ⟨hlocked, hholds, hat.writing, by simp, fun _ => ⟨hc, ?_⟩⟩
    exact Bool.eq_false_iff.mpr fun hwriting => hfree (hthroughout hwriting)

theorem invariant :
    Threads.Invariant Role.Step Few (fun m : Mem ι => Counted m ∧ Locked m)
      (fun i m r => CountedAt i m r ∧ At i m r) where
  own h hfew hinv hat := by
    obtain ⟨hcounted, hcountedAt⟩ := h.countedOwn hinv.1 hat.1
    obtain ⟨hlocked, hat'⟩ := h.own hfew hinv.1 hinv.2 hat.1 hat.2
    exact ⟨⟨hcounted, hlocked⟩, hcountedAt, hat'⟩
  other h hfew hinv hat _ _ hj hq :=
    ⟨h.countedOther hj hq.1, (h.leaves hfew hinv.1 hinv.2 hat.2).other hj hq.1
      (h.holdsOther hat.2.toHoldsAt hj hq.2.toHoldsAt) hq.2⟩

end Steps

end ConcurrencyKit.RwCohort
