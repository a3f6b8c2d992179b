import ConcurrencyKit.RwCohort.Handshake

/-!
# Exclusion in the locks of `ck_rwcohort`

Every kind of lock plays the handshake: where a thread stands says what it has done of it, and a
step of the thread is one of its acts.
-/

namespace ConcurrencyKit.RwCohort

variable {ι : Type} [DecidableEq ι]

/-- The steps of a kind of lock are acts of the handshake. -/
structure Plays (k : Kind ι) where
  role : k.Pc → Role
  idle : role k.idle = {}
  reading : (role k.reading).reads = true
  writing : (role k.writing).writes = true
  step : ∀ {i m pc m' pc'}, k.Step i m pc m' pc' → Role.Step i m (role pc) m' (role pc')

namespace Plays

variable {k : Kind ι} {waitLimit : Nat} {s : Threads.System (Mem ι) k.Pc ι}

theorem countedAt_start (p : Plays k) (waitLimit : Nat) (i : ι) :
    CountedAt i (k.start waitLimit).mem (((k.start waitLimit).map p.role).pc i) := by
  have hrole : ((k.start waitLimit).map p.role).pc i = {} := p.idle
  rw [hrole]
  constructor <;> simp [Kind.start]

theorem at_start (p : Plays k) (waitLimit : Nat) (i : ι) :
    At i (k.start waitLimit).mem (((k.start waitLimit).map p.role).pc i) := by
  have hrole : ((k.start waitLimit).map p.role).pc i = {} := p.idle
  have hholds : HoldsAt i (k.start waitLimit).mem {} := by
    constructor <;> simp [Kind.start]
  rw [hrole]
  exact ⟨hholds, by simp, by simp, by simp⟩

/-- When all threads are outside, the counters are zero. -/
theorem quiet (p : Plays k)
    (hr : Threads.System.Reachable k.Step (fun _ _ _ => True) (k.start waitLimit) s)
    (hidle : ∀ i, s.pc i = k.idle) : s.mem.readCounter = 0 ∧ s.mem.barrier = 0 := by
  have hrole : Threads.System.Reachable Role.Step (fun _ _ _ => True)
      ((k.start waitLimit).map p.role) (s.map p.role) :=
    hr.map p.role (fun _ _ _ _ _ h => p.step h) fun _ _ _ h => h
  have hinv : Counted (k.start waitLimit).mem := ⟨.empty _, .empty _⟩
  obtain ⟨hcounted, hall⟩ :=
    counted_invariant.reachable hrole (fun _ => trivial) hinv (p.countedAt_start waitLimit)
  have hout : ∀ i, (s.map p.role).pc i = {} := by
    intro i
    change p.role (s.pc i) = {}
    rw [hidle i, p.idle]
  have hnobody : s.mem.counted = ∅ ∧ s.mem.raised = ∅ := by
    constructor <;> rw [Finset.eq_empty_iff_forall_notMem] <;> intro i hi
    · have hrole := (hall i).2.counted.mp hi
      rw [hout i] at hrole
      cases hrole
    · have hrole := (hall i).2.raised.mp hi
      rw [hout i] at hrole
      cases hrole
  exact ⟨hcounted.readers.eq_zero hnobody.1, hcounted.raisers.eq_zero hnobody.2⟩

/-- A thread that writes has the cohort lock, so that it excludes the other writers. -/
theorem writers (p : Plays k)
    (hr : Threads.System.Reachable k.Step (fun _ _ _ => True) (k.start waitLimit) s) {i j : ι}
    (hi : s.pc i = k.writing) (hj : s.pc j = k.writing) : i = j := by
  have hrole : Threads.System.Reachable Role.Step (fun _ _ _ => True)
      ((k.start waitLimit).map p.role) (s.map p.role) :=
    hr.map p.role (fun _ _ _ _ _ h => p.step h) fun _ _ _ h => h
  have hall := (holds_invariant.reachable hrole (fun _ => trivial) trivial
    fun i => (p.at_start waitLimit i).toHoldsAt).2
  have writer : ∀ i, s.pc i = k.writing → s.mem.holder = some i := by
    intro i hi
    have hwrites : ((s.map p.role).pc i).writes = true := by
      change (p.role (s.pc i)).writes = true
      rw [hi, p.writing]
    exact (hall i).2.holds.mpr ((hall i).2.writes hwrites)
  exact Option.some.inj ((writer i hi).symm.trans (writer j hj))

/-- A writer excludes the readers. -/
theorem readers (p : Plays k)
    (hr : Threads.System.Reachable k.Step Few (k.start waitLimit) s) {i j : ι}
    (hi : s.pc i = k.writing) : s.pc j ≠ k.reading := by
  have hrole : Threads.System.Reachable Role.Step Few ((k.start waitLimit).map p.role)
      (s.map p.role) :=
    hr.map p.role (fun _ _ _ _ _ h => p.step h) fun _ _ _ h => h
  have hinv : Counted (k.start waitLimit).mem ∧ Locked (k.start waitLimit).mem :=
    ⟨⟨.empty _, .empty _⟩, fun h => by cases h⟩
  have hfew : ∀ i, Few i (k.start waitLimit).mem (((k.start waitLimit).map p.role).pc i) :=
    fun _ => by simp [Few, Kind.start]
  have hall := (invariant.reachable hrole hfew hinv fun i =>
    ⟨p.countedAt_start waitLimit i, p.at_start waitLimit i⟩).2
  intro hj
  have hwrites : ((s.map p.role).pc i).writes = true := by
    change (p.role (s.pc i)).writes = true
    rw [hi, p.writing]
  have hreads : ((s.map p.role).pc j).reads = true := by
    change (p.role (s.pc j)).reads = true
    rw [hj, p.reading]
  have hat := (hall i).2.2
  have hwriting := (hat.writing (hat.writes hwrites)).trans hwrites
  rw [((hall j).2.2.reads hreads).2] at hwriting
  cases hwriting

end Plays

/-! ## The three kinds -/

/-- What a thread has done of the handshake, by writer preference. -/
def Wp.Pc.role : Wp.Pc → Role
  | idle | writeBarrier | writeCohort => {}
  | reading | readUnlock => { counted := true, reads := true }
  | writing | writeUnlock => { holds := true, writes := true }
  | writeCounter => { holds := true }
  | readInc w => { raised := w.raised }
  | readLocked w seen => { counted := true, raised := w.raised, looking := seen }
  | readDec w => { counted := true, raised := w.raised }
  | spinLocked w _ => { raised := w.raised }
  | raiseBarrier _ => {}
  | lowerBarrier => { counted := true, raised := true, reads := true }

theorem Wp.Step.role {i : ι} {m m' : Mem ι} {pc pc' : Wp.Pc} (h : Wp.Step i m pc m' pc') :
    Role.Step i m pc.role m' pc'.role := by
  cases h with
  | writeLock | writeUnlock | readLock | readUnlock => exact .stay
  | readGlobal w => exact .look rfl
  | readTrue w seen => exact .locked
  | readFalse w seen h =>
    have hunlocked : Role.Step i m (Pc.readLocked w (some seen)).role m
        { counted := true, raised := w.raised, reads := true } := .unlocked rfl h
    cases hw : w.raised <;> rw [hw] at hunlocked <;> exact hunlocked
  | spinGlobal w => exact .stay
  | spinTrue w seen =>
    split
    case isTrue h =>
      have hraised : w.raised = false := h.2
      simp only [Pc.role, hraised]
      exact .stay
    case isFalse => exact .stay
  | spinFalse w seen h => exact .stay
  | act =>
    cases pc with
    | idle | reading | writing | readLocked | spinLocked => exact .stay
    | writeBarrier =>
      simp only [Wp.act]
      split <;> exact .stay
    | writeCohort =>
      simp only [Wp.act]
      split
      case isTrue h => exact .take h rfl
      case isFalse => exact .stay
    | writeCounter =>
      simp only [Wp.act]
      split
      case isTrue => exact .stay
      case isFalse h => exact .write rfl (Nat.eq_zero_of_not_pos h)
    | writeUnlock => exact .release rfl
    | readInc w => exact .incCounter rfl
    | readDec w => exact .decCounter rfl
    | raiseBarrier waitCount => exact .incBarrier rfl
    | lowerBarrier => exact .decBarrier rfl
    | readUnlock => exact .decCounter rfl

/-- What a thread has done of the handshake, by reader preference. -/
def Rp.Pc.role : Rp.Pc → Role
  | idle | readBarrier | readInc => {}
  | reading | readUnlock => { counted := true, reads := true }
  | writing | writeUnlock => { holds := true, writes := true }
  | writeCohort w => { raised := w.raised }
  | writeCounter w => { holds := true, raised := w.raised }
  | writeBack w => { holds := true, raised := w.raised }
  | writeSpin w => { raised := w.raised }
  | raiseBarrier _ => {}
  | lowerBarrier => { holds := true, writes := true, raised := true }
  | readLocked seen => { counted := true, looking := seen }

theorem Rp.Step.role {i : ι} {m m' : Mem ι} {pc pc' : Rp.Pc} (h : Rp.Step i m pc m' pc') :
    Role.Step i m pc.role m' pc'.role := by
  cases h with
  | writeLock | writeUnlock | readLock | readUnlock => exact .stay
  | readGlobal => exact .look rfl
  | readTrue seen => exact .locked
  | readFalse seen h => exact .unlocked rfl h
  | act =>
    cases pc with
    | idle | reading | writing | readLocked => exact .stay
    | writeCohort w =>
      simp only [Rp.act]
      split
      case isTrue h => exact .take h rfl
      case isFalse => exact .stay
    | writeCounter w =>
      simp only [Rp.act]
      split
      case isTrue h =>
        have hwrite : Role.Step i m (Pc.writeCounter w).role m.write
            { holds := true, writes := true, raised := w.raised } := .write rfl h
        cases hw : w.raised <;> rw [hw] at hwrite <;> exact hwrite
      case isFalse => exact .stay
    | writeBack w => exact .release rfl
    | writeSpin w =>
      simp only [Rp.act]
      split
      case isTrue =>
        split
        case isTrue h =>
          have hraised : w.raised = false := h.2
          simp only [Pc.role, hraised]
          exact .stay
        case isFalse => exact .stay
      case isFalse => exact .stay
    | raiseBarrier waitCount => exact .incBarrier rfl
    | lowerBarrier => exact .decBarrier rfl
    | writeUnlock => exact .release rfl
    | readBarrier =>
      simp only [Rp.act]
      split <;> exact .stay
    | readInc => exact .incCounter rfl
    | readUnlock => exact .decCounter rfl

/-- What a thread has done of the handshake, by the neutral lock. -/
def Neutral.Pc.role : Neutral.Pc → Role
  | idle | writeCohort | readCohort => {}
  | reading | readUnlock => { counted := true, reads := true }
  | writing | writeUnlock => { holds := true, writes := true }
  | writeCounter | readInc => { holds := true }
  | readBack => { holds := true, counted := true }

theorem Neutral.Step.role {i : ι} {m m' : Mem ι} {pc pc' : Neutral.Pc}
    (h : Neutral.Step i m pc m' pc') : Role.Step i m pc.role m' pc'.role := by
  cases h with
  | writeLock | writeUnlock | readLock | readUnlock => exact .stay
  | act =>
    cases pc with
    | idle | reading | writing => exact .stay
    | writeCohort | readCohort =>
      simp only [Neutral.act]
      split
      case isTrue h => exact .take h rfl
      case isFalse => exact .stay
    | writeCounter =>
      simp only [Neutral.act]
      split
      case isTrue => exact .stay
      case isFalse h => exact .write rfl (Nat.eq_zero_of_not_pos h)
    | writeUnlock => exact .release rfl
    | readInc => exact .incCounter rfl
    | readBack => exact .pass rfl rfl rfl
    | readUnlock => exact .decCounter rfl

/-- The three kinds of locks. -/
def kinds (ι : Type) [DecidableEq ι] : List (Kind ι) := [wp ι, rp ι, neutral ι]

def wpPlays : Plays (wp ι) := ⟨Wp.Pc.role, rfl, rfl, rfl, Wp.Step.role⟩

def rpPlays : Plays (rp ι) := ⟨Rp.Pc.role, rfl, rfl, rfl, Rp.Step.role⟩

def neutralPlays : Plays (neutral ι) := ⟨Neutral.Pc.role, rfl, rfl, rfl, Neutral.Step.role⟩

theorem plays_of_mem {k : Kind ι} (h : k ∈ kinds ι) : Nonempty (Plays k) := by
  simp only [kinds, List.mem_cons, List.not_mem_nil, or_false] at h
  rcases h with rfl | rfl | rfl
  · exact ⟨wpPlays⟩
  · exact ⟨rpPlays⟩
  · exact ⟨neutralPlays⟩

/-- In all three kinds of locks the counters are zero when all threads are outside, and a writer
excludes the other writers. While fewer threads are counted in `read_counter` than it has values,
it excludes the readers, too. -/
theorem kinds_exclude {k : Kind ι} (hk : k ∈ kinds ι) (waitLimit : Nat) :
    (∀ s, Threads.System.Reachable k.Step (fun _ _ _ => True) (k.start waitLimit) s →
      (∀ i, s.pc i = k.idle) → s.mem.readCounter = 0 ∧ s.mem.barrier = 0) ∧
    (∀ s, Threads.System.Reachable k.Step (fun _ _ _ => True) (k.start waitLimit) s →
      ∀ i j, s.pc i = k.writing → s.pc j = k.writing → i = j) ∧
    ∀ s, Threads.System.Reachable k.Step Few (k.start waitLimit) s →
      ∀ i j, s.pc i = k.writing → s.pc j ≠ k.reading := by
  obtain ⟨p⟩ := plays_of_mem hk
  exact ⟨fun _ hr => p.quiet hr, fun _ hr _ _ hi hj => p.writers hr hi hj,
    fun _ hr _ _ hi => p.readers hr hi⟩

/-- A run in which a thread makes `n` more accesses. -/
theorem Wp.acts_reachable {ok : ι → Mem ι → Wp.Pc → Prop}
    {s₀ s : Threads.System (Mem ι) Wp.Pc ι} (hr : Threads.System.Reachable Wp.Step ok s₀ s) (i : ι)
    (n : Nat)
    (good : ∀ k < n + 1, ∀ j, ok j (s.acts Wp.act i k).mem ((s.acts Wp.act i k).pc j)) :
    Threads.System.Reachable Wp.Step ok s₀ (s.acts Wp.act i n) :=
  hr.acts i n (fun _ _ _ _ _ _ => .inr .act) good

theorem few_bool {P : Type} (i : Bool) (m : Mem Bool) (p : P) : Few i m p :=
  Nat.lt_of_le_of_lt (Finset.card_le_univ _) (by decide)

/-- A reader finds the cohort lock taken and goes back, and the writer that has taken it goes on. -/
theorem kinds_exclude_wp : ∃ s : Threads.System (Mem Bool) Wp.Pc Bool,
    s.pc true = .writing ∧ s.mem.readCounter = 0 ∧ s.pc false ≠ .writing ∧
      s.pc false ≠ .reading := by
  have h₀ : Threads.System.Reachable Wp.Step Few ((wp Bool).start 0) ((wp Bool).start 0) := .refl
  have h₁ := h₀.call true .writeLock fun _ => few_bool _ _ _
  have h₂ := Wp.acts_reachable h₁ true 2 fun _ _ _ => few_bool _ _ _
  have h₃ := h₂.call false .readLock fun _ => few_bool _ _ _
  have h₄ := Wp.acts_reachable h₃ false 1 fun _ _ _ => few_bool _ _ _
  have h₅ := h₄.call false (.readTrue .init none) fun _ => few_bool _ _ _
  have h₆ := Wp.acts_reachable h₅ false 1 fun _ _ _ => few_bool _ _ _
  have h₇ := Wp.acts_reachable h₆ true 1 fun _ _ _ => few_bool _ _ _
  have hrun : Threads.System.Reachable Wp.Step (fun _ _ _ => True) ((wp Bool).start 0) _ :=
    h₇.map id (fun _ _ _ _ _ h => h) fun _ _ _ _ => trivial
  obtain ⟨-, hwriters, hreaders⟩ := kinds_exclude (k := wp Bool) (.head _) 0
  exact ⟨_, rfl, rfl, fun hfalse => absurd (hwriters _ hrun true false rfl hfalse) (by decide),
    hreaders _ h₇ true false rfl⟩

/-! ## More readers than the counter has values -/

section Crowd

variable {s₀ s : Threads.System (Mem ι) Wp.Pc ι} {i : ι}

/-- A thread that finds the cohort lock free gets in to read. -/
theorem reader_enters (hr : Threads.System.Reachable Wp.Step (fun _ _ _ => True) s₀ s)
    (hidle : s.pc i = .idle) (hfree : s.mem.holder = none) :
    Threads.System.Reachable Wp.Step (fun _ _ _ => True) s₀
      ⟨s.mem.incCounter i, Function.update s.pc i .reading⟩ := by
  have hnot : ¬ (s.mem.incCounter i).Throughout (s.mem.incCounter i).held := by
    simp [Mem.Throughout, Mem.held, Mem.incCounter, hfree]
  have h₁ := hr.call i (p := .readInc .init) (by rw [hidle]; exact .readLock) fun _ => trivial
  have h₂ := Wp.acts_reachable h₁ i 1 fun _ _ _ => trivial
  simp only [Threads.System.acts, Threads.System.call, Function.update_self, Wp.act,
    Function.update_idem] at h₂
  have h₃ := h₂.call i (p := .readLocked .init (some (s.mem.incCounter i).held))
    (by simpa using Wp.Step.readGlobal (i := i) (m := s.mem.incCounter i) .init) fun _ => trivial
  have h₄ := h₃.call i (p := .reading)
    (by simpa [Threads.System.call, Wait.init] using
      Wp.Step.readFalse (i := i) (m := s.mem.incCounter i) .init _ hnot) fun _ => trivial
  simpa [Threads.System.call] using h₄

/-- A thread that finds the counters to be zero and the cohort lock free gets in to write. -/
theorem writer_enters (hr : Threads.System.Reachable Wp.Step (fun _ _ _ => True) s₀ s)
    (hidle : s.pc i = .idle) (hfree : s.mem.holder = none) (hbarrier : s.mem.barrier = 0)
    (hzero : s.mem.readCounter = 0) :
    Threads.System.Reachable Wp.Step (fun _ _ _ => True) s₀
      ⟨(s.mem.take i).write, Function.update s.pc i .writing⟩ := by
  have h₁ := hr.call i (p := .writeBarrier) (by rw [hidle]; exact .writeLock) fun _ => trivial
  have h₂ := Wp.acts_reachable h₁ i 3 fun _ _ _ => trivial
  simpa [Threads.System.acts, Threads.System.call, Wp.act, hbarrier, hfree, hzero, Mem.take]
    using h₂

end Crowd

/-- The first `n` threads read. -/
def crowd (n : Nat) : Threads.System (Mem Nat) Wp.Pc Nat where
  mem := ⟨n % 2 ^ 32, 0, 0, none, 0, false, Finset.range n, ∅⟩
  pc := fun i => if i < n then .reading else .idle

theorem crowd_pc {n i : Nat} (h : i < n) : (crowd n).pc i = .reading := by
  simp [crowd, h]

theorem crowd_reachable (n : Nat) :
    Threads.System.Reachable Wp.Step (fun _ _ _ => True) ((wp Nat).start 0) (crowd n) := by
  induction n with
  | zero => exact .refl
  | succ n ih =>
    have hnext := reader_enters (i := n) ih (by simp [crowd]) rfl
    have hmem : (crowd n).mem.incCounter n = (crowd (n + 1)).mem := by
      simp only [crowd, Mem.incCounter, Counter.inc_mod, Finset.range_add_one]
    have hpc : Function.update (crowd n).pc n .reading = (crowd (n + 1)).pc := by
      funext i
      by_cases hi : i = n
      · simp [crowd, hi]
      · have hle : i ≤ n ↔ i < n := by omega
        simp [crowd, hi, hle]
    rw [hmem, hpc] at hnext
    exact hnext

/-- As many threads read as `read_counter` has values. It is zero, and a writer gets in. -/
theorem crowd_intrudes : ∃ s : Threads.System (Mem Nat) Wp.Pc Nat,
    Threads.System.Reachable (wp Nat).Step (fun _ _ _ => True) ((wp Nat).start 0) s ∧
      ∃ i j, s.pc i = .writing ∧ s.pc j = .reading := by
  have hr := writer_enters (i := 2 ^ 32) (crowd_reachable (2 ^ 32)) (by simp [crowd]) rfl rfl
    (Nat.mod_self _)
  have hlt : 0 < 2 ^ 32 := by decide
  have hreads : Function.update (crowd (2 ^ 32)).pc (2 ^ 32) .writing 0 = .reading := by
    rw [Function.update_of_ne (Nat.ne_of_lt hlt)]
    exact crowd_pc hlt
  exact ⟨_, hr, 2 ^ 32, 0, Function.update_self .., hreads⟩

end ConcurrencyKit.RwCohort
