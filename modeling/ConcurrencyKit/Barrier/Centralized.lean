import ConcurrencyKit.Barrier.Roster
import ConcurrencyKit.Misc.Threads

/-!
# The centralized barrier

`ck_barrier_centralized` from `src/ck_barrier_centralized.c`, one access at a time. The threads
count themselves in one word. The last one clears the word for the next call and reverses the sense
of the barrier, on which the other ones wait.

Next to the words a `Mem` keeps which threads have counted themselves in the present round, which
one of them was the last, and how many rounds are over.
-/

namespace ConcurrencyKit.Barrier.Centralized

/-- `struct ck_barrier_centralized`, and what has happened in the present round. -/
structure Mem (ι : Type) where
  value : Nat
  sense : BitVec 32
  /-- So many rounds are over. -/
  rounds : Nat
  /-- The threads that have counted themselves. -/
  arrived : Finset ι
  /-- The thread that has been the last one to do so. -/
  last : Option ι
  /-- It has cleared the word. -/
  cleared : Bool

/-- Where a thread stands that has returned from `n` calls. Its `state->sense` is `sense`. -/
inductive Pc where
  | idle (sense : BitVec 32) (n : Nat)
  /-- `ck_barrier_centralized`. -/
  | count (sense : BitVec 32) (n : Nat)
  | clear (sense : BitVec 32) (n : Nat)
  | reverse (sense : BitVec 32) (n : Nat)
  | wait (sense : BitVec 32) (n : Nat)
  deriving DecidableEq, Repr

namespace Pc

/-- The number of calls that the thread has returned from. -/
def returned : Pc → Nat
  | idle _ n | count _ n | clear _ n | reverse _ n | wait _ n => n

/-- The number of calls that it has started. -/
def started : Pc → Nat
  | idle _ n => n
  | count _ n | clear _ n | reverse _ n | wait _ n => n + 1

end Pc

variable {ι : Type}

namespace Mem

/-- `n_threads - 1`. -/
def isLast (nthr : Nat) (m : Mem ι) : Prop := m.value = (nthr + (2 ^ 32 - 1)) % 2 ^ 32

instance (nthr : Nat) (m : Mem ι) : Decidable (m.isLast nthr) :=
  inferInstanceAs (Decidable (_ = _))

/-- `ck_pr_faa_uint(&barrier->value, 1)`. -/
def faa [DecidableEq ι] (nthr : Nat) (i : ι) (m : Mem ι) : Mem ι :=
  { m with
    value := (m.value + 1) % 2 ^ 32
    arrived := insert i m.arrived
    last := if m.isLast nthr then some i else m.last }

/-- `ck_pr_store_uint(&barrier->value, 0)`. -/
def clear (m : Mem ι) : Mem ι := { m with value := 0, cleared := true }

/-- `ck_pr_store_uint(&barrier->sense, sense)`, which ends the round. -/
def reverse (sense : BitVec 32) (m : Mem ι) : Mem ι where
  value := m.value
  sense := sense
  rounds := m.rounds + 1
  arrived := ∅
  last := none
  cleared := false

end Mem

/-- `CK_BARRIER_CENTRALIZED_INITIALIZER`, and all threads with
`CK_BARRIER_CENTRALIZED_STATE_INITIALIZER`. -/
def start (ι : Type) : Threads.System (Mem ι) Pc ι where
  mem := ⟨0, 0, 0, ∅, none, false⟩
  pc _ := .idle 0 0

section Steps

variable [DecidableEq ι]

/-- One access of thread `i`: `ck_barrier_centralized` (`ck_barrier_centralized.c:31-59`). -/
def act (nthr : Nat) (i : ι) (m : Mem ι) : Pc → Mem ι × Pc
  | .count sense n =>
    (m.faa nthr i, if m.isLast nthr then .clear sense n else .wait sense n)
  | .clear sense n => (m.clear, .reverse sense n)
  | .reverse sense n => (m.reverse sense, .idle sense (n + 1))
  | .wait sense n => (m, if sense ≠ m.sense then .wait sense n else .idle sense (n + 1))
  | p => (m, p)

/-- One step of thread `i` of a barrier for `nthr` threads: it calls `ck_barrier_centralized`, which
reverses `state->sense`, or makes the next access of its call. -/
inductive Step (nthr : Nat) (i : ι) : Mem ι → Pc → Mem ι → Pc → Prop
  | call (m : Mem ι) (sense : BitVec 32) (n : Nat) :
      Step nthr i m (.idle sense n) m (.count (~~~ sense) n)
  | act (m : Mem ι) (p : Pc) : Step nthr i m p (act nthr i m p).1 (act nthr i m p).2

/-- States that are reached by the threads of `ι`, when `n_threads` is their number. -/
def Reachable [Fintype ι] (s : Threads.System (Mem ι) Pc ι) : Prop :=
  Threads.System.Reachable (Step (Fintype.card ι)) (fun _ _ _ => True) (start ι) s

end Steps

/-! ## The invariant -/

section Invariant

variable [Fintype ι] {i j : ι} {m : Mem ι} {p : Pc} {sense : BitVec 32} {n : Nat}

/-- What the words say about the present round. -/
structure Inv (m : Mem ι) : Prop where
  value : m.value = if m.cleared then 0 else m.arrived.card
  sense : m.sense = Barrier.sense (m.rounds + 1)
  last : m.last.isSome ↔ m.arrived = Finset.univ
  cleared : m.cleared = true → m.last.isSome

/-- What is known about thread `i` from where it stands. -/
def At (i : ι) (m : Mem ι) : Pc → Prop
  | .idle sense n => sense = Barrier.sense (n + 1) ∧ n = m.rounds ∧ i ∉ m.arrived
  | .count sense n => sense = Barrier.sense n ∧ n = m.rounds ∧ i ∉ m.arrived
  | .clear sense n =>
    sense = Barrier.sense n ∧ n = m.rounds ∧ m.last = some i ∧ m.cleared = false
  | .reverse sense n =>
    sense = Barrier.sense n ∧ n = m.rounds ∧ m.last = some i ∧ m.cleared = true
  | .wait sense n =>
    sense = Barrier.sense n ∧
      ((n = m.rounds ∧ i ∈ m.arrived ∧ m.last ≠ some i) ∨ (n + 1 = m.rounds ∧ i ∉ m.arrived))

/-- While a thread has not counted itself, nobody is the last one. -/
theorem Inv.last_eq_none (hinv : Inv m) (hi : i ∉ m.arrived) : m.last = none := by
  rw [← Option.not_isSome_iff_eq_none, hinv.last]
  intro huniv
  exact hi (huniv ▸ Finset.mem_univ i)

theorem Inv.not_cleared (hinv : Inv m) (hi : i ∉ m.arrived) : m.cleared = false := by
  rw [← Bool.not_eq_true]
  intro hcleared
  have hsome := hinv.cleared hcleared
  rw [hinv.last_eq_none hi] at hsome
  cases hsome

theorem Inv.mem_arrived (hinv : Inv m) (hlast : m.last = some i) (j : ι) : j ∈ m.arrived := by
  have huniv := hinv.last.mp (by rw [hlast]; rfl)
  exact huniv ▸ Finset.mem_univ j

/-- The last thread finds that it is the last one. -/
theorem Inv.isLast_iff [DecidableEq ι] (hinv : Inv m) (hcard : Fintype.card ι < 2 ^ 32)
    (hi : i ∉ m.arrived) :
    m.isLast (Fintype.card ι) ↔ insert i m.arrived = Finset.univ := by
  have hle := Finset.card_le_univ (insert i m.arrived)
  rw [Finset.card_insert_of_notMem hi] at hle
  rw [← Finset.card_eq_iff_eq_univ, Finset.card_insert_of_notMem hi, Mem.isLast, hinv.value,
    hinv.not_cleared hi, if_neg Bool.false_ne_true]
  omega

variable [DecidableEq ι]

theorem Inv.faa (hinv : Inv m) (hcard : Fintype.card ι < 2 ^ 32) (hi : i ∉ m.arrived) :
    Inv (m.faa (Fintype.card ι) i) where
  value := by
    have hle := Finset.card_le_univ (insert i m.arrived)
    rw [Finset.card_insert_of_notMem hi] at hle
    have hvalue := hinv.value
    simp only [hinv.not_cleared hi, Bool.false_eq_true, if_false] at hvalue
    simp only [Mem.faa, hinv.not_cleared hi, Bool.false_eq_true, if_false, hvalue,
      Finset.card_insert_of_notMem hi]
    exact Nat.mod_eq_of_lt (by omega)
  sense := hinv.sense
  last := by
    simp only [Mem.faa]
    rw [← hinv.isLast_iff hcard hi, hinv.last_eq_none hi]
    split
    case isTrue h => exact iff_of_true rfl h
    case isFalse h => exact iff_of_false (by simp) h
  cleared hcleared := by
    have := hinv.not_cleared hi
    simp only [Mem.faa] at hcleared
    rw [this] at hcleared
    cases hcleared

omit [DecidableEq ι] in
theorem Inv.clear (hinv : Inv m) (hlast : m.last = some i) : Inv m.clear where
  value := by simp [Mem.clear]
  sense := hinv.sense
  last := hinv.last
  cleared _ := by
    simp only [Mem.clear]
    rw [hlast]
    rfl

omit [DecidableEq ι] in
theorem Inv.reverse [Nonempty ι] (hinv : Inv m) (hcleared : m.cleared = true) :
    Inv (m.reverse (Barrier.sense m.rounds)) where
  value := by simp [Mem.reverse, hinv.value, hcleared]
  sense := by
    simp only [Mem.reverse]
    exact sense_eq_iff.mpr (by omega)
  last := by simp [Mem.reverse, Finset.univ_nonempty.ne_empty.symm]
  cleared h := by cases h

theorem At.other_faa (hinv : Inv m) (hi : i ∉ m.arrived) (hj : j ≠ i) (h : At j m p) :
    At j (m.faa (Fintype.card ι) i) p := by
  have hmem : j ∈ insert i m.arrived ↔ j ∈ m.arrived := by
    rw [Finset.mem_insert, or_iff_right hj]
  have hnone := hinv.last_eq_none hi
  cases p with
  | idle | count =>
    obtain ⟨hsense, hn, hnot⟩ := h
    exact ⟨hsense, hn, fun hin => hnot (hmem.mp hin)⟩
  | clear | reverse =>
    obtain ⟨-, -, hlast, -⟩ := h
    rw [hnone] at hlast
    cases hlast
  | wait =>
    obtain ⟨hsense, ⟨hn, hin, hne⟩ | ⟨hn, hnot⟩⟩ := h
    · refine ⟨hsense, .inl ⟨hn, hmem.mpr hin, ?_⟩⟩
      simp only [Mem.faa]
      split
      case isTrue => exact fun heq => hj (Option.some.inj heq).symm
      case isFalse => exact hne
    · exact ⟨hsense, .inr ⟨hn, fun hin => hnot (hmem.mp hin)⟩⟩

omit [Fintype ι] [DecidableEq ι] in
theorem At.other_clear (hlast : m.last = some i) (hj : j ≠ i) (h : At j m p) : At j m.clear p := by
  cases p with
  | idle | count | wait => exact h
  | clear | reverse =>
    obtain ⟨-, -, hlast', -⟩ := h
    exact absurd (Option.some.inj (hlast'.symm.trans hlast)) hj

omit [DecidableEq ι] in
theorem At.other_reverse (hinv : Inv m) (hlast : m.last = some i) (hj : j ≠ i) (h : At j m p) :
    At j (m.reverse sense) p := by
  have hin := hinv.mem_arrived hlast j
  cases p with
  | idle | count => exact absurd hin h.2.2
  | clear | reverse =>
    obtain ⟨-, -, hlast', -⟩ := h
    exact absurd (Option.some.inj (hlast'.symm.trans hlast)) hj
  | wait =>
    obtain ⟨hsense, ⟨hn, -, -⟩ | ⟨-, hnot⟩⟩ := h
    · exact ⟨hsense, .inr ⟨congrArg (· + 1) hn, Finset.notMem_empty j⟩⟩
    · exact absurd hin hnot

/-- The step of a thread by its own program counter. -/
theorem act_own (hcard : Fintype.card ι < 2 ^ 32) (hinv : Inv m) (h : At i m p) :
    Inv (act (Fintype.card ι) i m p).1 ∧
      At i (act (Fintype.card ι) i m p).1 (act (Fintype.card ι) i m p).2 := by
  have : Nonempty ι := ⟨i⟩
  cases p with
  | idle => exact ⟨hinv, h⟩
  | count sense n =>
    obtain ⟨hsense, hn, hnot⟩ := h
    refine ⟨hinv.faa hcard hnot, ?_⟩
    simp only [act]
    split
    case isTrue hlast =>
      exact ⟨hsense, hn, if_pos hlast, hinv.not_cleared hnot⟩
    case isFalse hlast =>
      refine ⟨hsense, .inl ⟨hn, Finset.mem_insert_self i _, ?_⟩⟩
      simp only [Mem.faa]
      rw [if_neg hlast, hinv.last_eq_none hnot]
      exact (Option.some_ne_none i).symm
  | clear sense n =>
    obtain ⟨hsense, hn, hlast, -⟩ := h
    exact ⟨hinv.clear hlast, hsense, hn, hlast, rfl⟩
  | reverse sense n =>
    obtain ⟨rfl, rfl, -, hcleared⟩ := h
    refine ⟨hinv.reverse hcleared, sense_eq_iff.mpr (by omega), rfl, ?_⟩
    exact Finset.notMem_empty i
  | wait sense n =>
    refine ⟨hinv, ?_⟩
    simp only [act]
    split
    case isTrue => exact h
    case isFalse heq =>
      obtain ⟨hsense, ⟨hn, -, -⟩ | ⟨hn, hnot⟩⟩ := h
      · -- the sense of the barrier is still the one of the round before
        have := sense_eq_iff.mp (hsense.symm.trans ((not_not.mp heq).trans hinv.sense))
        omega
      · exact ⟨hsense.trans (sense_eq_iff.mpr (by omega)), hn, hnot⟩

theorem act_other (hinv : Inv m) (h : At i m p) {q : Pc} (hj : j ≠ i) (hother : At j m q) :
    At j (act (Fintype.card ι) i m p).1 q := by
  cases p with
  | idle | wait => exact hother
  | count sense n => exact hother.other_faa hinv h.2.2 hj
  | clear sense n => exact hother.other_clear h.2.2.1 hj
  | reverse sense n => exact hother.other_reverse hinv h.2.2.1 hj

theorem invariant (hcard : Fintype.card ι < 2 ^ 32) :
    Threads.Invariant (Step (ι := ι) (Fintype.card ι)) (fun _ _ _ => True) Inv At where
  own hstep _ hinv h := by
    cases hstep with
    | call sense n =>
      obtain ⟨hsense, hn, hnot⟩ := h
      refine ⟨hinv, ?_, hn, hnot⟩
      rw [hsense, not_sense]
      exact sense_eq_iff.mpr (by omega)
    | act => exact act_own hcard hinv h
  other hstep _ hinv h _ _ hj hother := by
    cases hstep with
    | call => exact hother
    | act => exact act_other hinv h hj hother

omit [DecidableEq ι] in
theorem inv_start [Nonempty ι] : Inv (start ι).mem where
  value := rfl
  sense := by simp [start, Barrier.sense]
  last := by simp [start, Finset.univ_nonempty.ne_empty.symm]
  cleared h := by cases h

theorem reachable_inv [Nonempty ι] (hcard : Fintype.card ι < 2 ^ 32)
    {s : Threads.System (Mem ι) Pc ι} (hr : Reachable s) :
    Inv s.mem ∧ ∀ i, At i s.mem (s.pc i) := by
  have hat : ∀ i, At i (start ι).mem ((start ι).pc i) :=
    fun i => ⟨by simp [Barrier.sense], rfl, Finset.notMem_empty i⟩
  obtain ⟨hinv, hall⟩ := (invariant hcard).reachable hr (fun _ => trivial) inv_start hat
  exact ⟨hinv, fun i => (hall i).2⟩

end Invariant

/-! ## Every run -/

section Runs

variable {i : ι} {m : Mem ι} {p : Pc}

/-- A thread has returned from no more calls than there are rounds that are over. -/
theorem At.returned_le (h : At i m p) : p.returned ≤ m.rounds := by
  cases p with
  | idle | count | clear | reverse => exact h.2.1.le
  | wait =>
    obtain ⟨-, ⟨hn, -⟩ | ⟨hn, -⟩⟩ := h
    · exact hn.le
    · exact (Nat.le_succ _).trans hn.le

/-- It has started at least as many. -/
theorem At.le_started (h : At i m p) : m.rounds ≤ p.started := by
  cases p with
  | idle => exact h.2.1.ge
  | count | clear | reverse => exact h.2.1.ge.trans (Nat.le_succ _)
  | wait =>
    obtain ⟨-, ⟨hn, -⟩ | ⟨hn, -⟩⟩ := h
    · exact hn.ge.trans (Nat.le_succ _)
    · exact hn.ge

variable [Fintype ι]

/-- The last thread of a round is at one of its two stores. -/
theorem At.of_last (hinv : Inv m) (hlast : m.last = some i) (h : At i m p) :
    ∃ sense, p = .clear sense m.rounds ∨ p = .reverse sense m.rounds := by
  have hin := hinv.mem_arrived hlast i
  cases p with
  | idle | count => exact absurd hin h.2.2
  | clear sense n => exact ⟨sense, .inl (by rw [h.2.1])⟩
  | reverse sense n => exact ⟨sense, .inr (by rw [h.2.1])⟩
  | wait =>
    obtain ⟨-, ⟨-, -, hne⟩ | ⟨-, hnot⟩⟩ := h
    · exact absurd hlast hne
    · exact absurd hin hnot

variable [DecidableEq ι] {s : Threads.System (Mem ι) Pc ι}

/-- As long as the number of the threads fits into a word, none returns from a call before every
other one has started the call with the same number, however often the barrier is used. -/
theorem centralized_separates (hcard : Fintype.card ι < 2 ^ 32) (hr : Reachable s) (i j : ι) :
    (s.pc i).returned ≤ (s.pc j).started := by
  have : Nonempty ι := ⟨i⟩
  have hat := (reachable_inv hcard hr).2
  exact (hat i).returned_le.trans (hat j).le_started

/-- A thread that spins in a call waits for one that has not started it, or for one that can go on
in it. -/
theorem centralized_progress (hcard : Fintype.card ι < 2 ^ 32) (hr : Reachable s)
    {sense : BitVec 32} {n : Nat} (hwait : s.pc i = .wait sense n)
    (hspin : (act (Fintype.card ι) i s.mem (s.pc i)).2 = s.pc i) :
    ∃ j, (s.pc j).started ≤ n ∨
      (s.pc j).returned = n ∧ (act (Fintype.card ι) j s.mem (s.pc j)).2 ≠ s.pc j := by
  have : Nonempty ι := ⟨i⟩
  obtain ⟨hinv, hat⟩ := reachable_inv hcard hr
  have hn : n = s.mem.rounds := by
    have hi := hat i
    rw [hwait] at hi hspin
    obtain ⟨hsense, ⟨hn, -⟩ | ⟨hn, -⟩⟩ := hi
    · exact hn
    · -- its round is over, and it has seen this
      have heq : sense = s.mem.sense := by
        rw [hsense, hinv.sense, ← hn]
        exact sense_eq_iff.mpr (by omega)
      simp [act, heq] at hspin
  cases hlast : s.mem.last with
  | some j =>
    refine ⟨j, .inr ?_⟩
    obtain ⟨sense, hj | hj⟩ := (hat j).of_last hinv hlast <;> rw [hj]
    · exact ⟨hn.symm, by simp [act]⟩
    · exact ⟨hn.symm, by simp [act]⟩
  | none =>
    have hnot : s.mem.arrived ≠ Finset.univ := by
      rw [Ne, ← hinv.last, hlast]
      exact Bool.false_ne_true
    obtain ⟨j, hj⟩ : ∃ j, j ∉ s.mem.arrived := by
      by_contra! hall
      exact hnot (Finset.eq_univ_iff_forall.mpr hall)
    refine ⟨j, ?_⟩
    have hatj := hat j
    cases hpc : s.pc j with
    | idle =>
      rw [hpc] at hatj
      exact .inl (hatj.2.1.trans hn.symm).le
    | count =>
      rw [hpc] at hatj
      refine .inr ⟨hatj.2.1.trans hn.symm, ?_⟩
      simp only [act]
      split <;> simp
    | clear | reverse =>
      rw [hpc] at hatj
      exact absurd (hatj.2.2.1.symm.trans hlast) (Option.some_ne_none j)
    | wait =>
      rw [hpc] at hatj
      obtain ⟨-, ⟨-, hin, -⟩ | ⟨hnj, -⟩⟩ := hatj
      · exact absurd hin hj
      · exact .inl (hnj.trans hn.symm).le

omit [Fintype ι] in
/-- A run in which a thread makes `n` more accesses. -/
theorem acts_reachable {nthr : Nat} {s₀ s : Threads.System (Mem ι) Pc ι}
    (hr : Threads.System.Reachable (Step nthr) (fun _ _ _ => True) s₀ s) (i : ι) (n : Nat) :
    Threads.System.Reachable (Step nthr) (fun _ _ _ => True) s₀ (s.acts (act nthr) i n) :=
  hr.acts i n (fun _ _ _ _ _ _ => .inr (.act _ _)) fun _ _ _ => trivial

end Runs

/-- The first of two threads waits, and the second one has not started the call. -/
theorem centralized_progress_two : ∃ s : Threads.System (Mem Bool) Pc Bool,
    Reachable s ∧ s.pc false = .wait (~~~0) 0 ∧
      ∃ j, (s.pc j).started ≤ 0 ∨
        (s.pc j).returned = 0 ∧ (act (Fintype.card Bool) j s.mem (s.pc j)).2 ≠ s.pc j := by
  have h₀ : Reachable (start Bool) := .refl
  have h₁ := h₀.call false (.call _ 0 0) fun _ => trivial
  have h₂ : Reachable _ := acts_reachable h₁ false 1
  exact ⟨_, h₂, rfl, centralized_progress (i := false) (by decide) h₂ rfl rfl⟩

/-- The second one calls, too, and returns. -/
theorem centralized_separates_two : ∃ s : Threads.System (Mem Bool) Pc Bool,
    Reachable s ∧ (s.pc true).returned = 1 ∧ (s.pc true).returned ≤ (s.pc false).started := by
  have h₀ : Reachable (start Bool) := .refl
  have h₁ := h₀.call false (.call _ 0 0) fun _ => trivial
  have h₂ := acts_reachable h₁ false 1
  have h₃ := h₂.call true (.call _ 0 0) fun _ => trivial
  have h₄ : Reachable _ := acts_reachable h₃ true 3
  exact ⟨_, h₄, rfl, centralized_separates (by decide) h₄ true false⟩

end ConcurrencyKit.Barrier.Centralized
