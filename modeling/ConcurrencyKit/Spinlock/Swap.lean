import ConcurrencyKit.Misc.Threads

/-!
# The two-valued locks of `ck_spinlock`

The functions of `include/spinlock/cas.h` and `include/spinlock/fas.h`, one access at a time, for
any number of threads. The two locks differ in how `lock` makes its attempts. `ck_spinlock_t` is the
one of `fas.h`.

Next to the word a `Mem` keeps the thread that has the lock.
-/

namespace ConcurrencyKit.Spinlock.Swap

/-- `struct ck_spinlock_cas` and `struct ck_spinlock_fas`. -/
inductive Kind where
  | cas
  | fas
  deriving DecidableEq, Repr

/-- What an attempt of `lock` makes of the word, and whether it succeeds:
`ck_pr_cas_uint(&lock->value, false, true)`, or `ck_pr_fas_uint(&lock->value, true)` with a result
other than `true`. -/
def Kind.attempt (value : Nat) : Kind → Nat × Bool
  | cas => if value = 0 then (1, true) else (value, false)
  | fas => (1, value ≠ 1)

/-- The word, and the thread that has the lock. -/
structure Mem (ι : Type) where
  value : Nat
  holder : Option ι

/-- `ck_spinlock_cas_locked` and `ck_spinlock_fas_locked` of a word that has been loaded. -/
def locked (value : Nat) : Bool := value ≠ 0

/-- Where a thread stands. -/
inductive Pc where
  | idle
  | inside
  /-- `ck_spinlock_cas_trylock` and `ck_spinlock_fas_trylock`. -/
  | tryFas
  /-- `ck_spinlock_cas_lock` and `ck_spinlock_fas_lock`, or `ck_spinlock_cas_lock_eb` and
  `ck_spinlock_fas_lock_eb` where `eb` is set. -/
  | lockAttempt (eb : Bool)
  | lockLoad
  /-- `ck_spinlock_cas_unlock` and `ck_spinlock_fas_unlock`. -/
  | unlockStore
  deriving DecidableEq, Repr

/-- The thread has got the lock and has not given it back. -/
def Pc.Holds (p : Pc) : Prop := p = .inside ∨ p = .unlockStore

instance (p : Pc) : Decidable p.Holds := inferInstanceAs (Decidable (_ ∨ _))

variable {ι : Type} {kind : Kind} {i j : ι} {m : Mem ι} {p : Pc}

/-- A lock after `ck_spinlock_cas_init` or `ck_spinlock_fas_init`. -/
def init (ι : Type) : Mem ι := ⟨0, none⟩

/-- The word is set to `value`, which gives the thread the lock or not. -/
def Mem.store (i : ι) (value : Nat) (got : Bool) (m : Mem ι) : Mem ι where
  value := value
  holder := if got then some i else m.holder

/-- One access of thread `i` (`cas.h:57-109`, `fas.h:55-109`). A waiting thread of a lock with
backoff makes its next attempt without looking at the word. -/
def act (kind : Kind) (i : ι) (m : Mem ι) : Pc → Mem ι × Pc
  | .tryFas => (m.store i 1 (m.value = 0), if m.value = 0 then .inside else .idle)
  | .lockAttempt eb =>
    (m.store i (kind.attempt m.value).1 (kind.attempt m.value).2,
      if (kind.attempt m.value).2 then .inside
      else if eb then .lockAttempt eb else .lockLoad)
  | .lockLoad => (m, if m.value = 1 then .lockLoad else .lockAttempt false)
  | .unlockStore => (⟨0, none⟩, .idle)
  | p => (m, p)

/-- One step of thread `i`: it calls a function, or makes the next access of its call. -/
inductive Step (kind : Kind) (i : ι) : Mem ι → Pc → Mem ι → Pc → Prop
  | trylock (m : Mem ι) : Step kind i m .idle m .tryFas
  | lock (m : Mem ι) (eb : Bool) : Step kind i m .idle m (.lockAttempt eb)
  | unlock (m : Mem ι) : Step kind i m .inside m .unlockStore
  | act (m : Mem ι) (p : Pc) : Step kind i m p (act kind i m p).1 (act kind i m p).2

/-! ## The invariant -/

/-- The word says whether somebody has the lock. -/
def Inv (m : Mem ι) : Prop := m.value = if m.holder.isSome then 1 else 0

/-- What is known about thread `i` from where it stands. -/
def At (i : ι) (m : Mem ι) (p : Pc) : Prop := m.holder = some i ↔ p.Holds

theorem inv_init : Inv (init ι) := rfl

theorem at_init : At i (init ι) .idle :=
  iff_of_false (Option.some_ne_none i).symm (show ¬ Pc.idle.Holds by decide)

theorem Inv.value_iff (hinv : Inv m) : m.value = 0 ↔ m.holder = none := by
  rw [Inv] at hinv
  cases hholder : m.holder <;> simp [hinv, hholder]

/-- An attempt succeeds when nobody has the lock, and sets the word in any case. -/
theorem Inv.attempt (hinv : Inv m) :
    kind.attempt m.value = (1, decide (m.holder = none)) := by
  rw [Inv] at hinv
  cases kind <;> cases hholder : m.holder <;> simp [Kind.attempt, hinv, hholder]

theorem Inv.store (i : ι) (m : Mem ι) : Inv (m.store i 1 (m.holder = none)) := by
  cases hholder : m.holder <;> simp [Inv, Mem.store, hholder]

/-- A thread that gets the lock if nobody has it. -/
theorem At.own_store {p' : Pc} (h : At i m p) (hp : ¬ p.Holds) (hp' : ¬ p'.Holds) :
    At i (m.store i 1 (m.holder = none)) (if m.holder = none then .inside else p') := by
  unfold At
  cases hholder : m.holder with
  | none => exact iff_of_true (by simp [Mem.store]) (by simp [Pc.Holds])
  | some k =>
    have hne : ¬ some k = some i := fun heq => hp (h.mp (hholder.trans heq))
    exact iff_of_false (by simpa [Mem.store, hholder] using hne) (by simpa using hp')

theorem At.other_store (hj : j ≠ i) (h : At j m p) :
    At j (m.store i 1 (m.holder = none)) p := by
  refine Iff.trans ?_ h
  cases hholder : m.holder with
  | none => simp [Mem.store, hj.symm]
  | some k => simp [Mem.store, hholder]

/-- The access of a thread gives it the lock if nobody has it, takes it back, or leaves it. -/
theorem act_cases (kind : Kind) (hinv : Inv m) (h : At i m p) :
    (∃ p' : Pc, ¬ p.Holds ∧ ¬ p'.Holds ∧ act kind i m p =
      (m.store i 1 (m.holder = none), if m.holder = none then .inside else p')) ∨
    (p.Holds ∧ act kind i m p = (⟨0, none⟩, .idle)) ∨
    (∃ p' : Pc, (p'.Holds ↔ p.Holds) ∧ act kind i m p = (m, p')) := by
  cases p with
  | idle | inside => exact .inr (.inr ⟨_, Iff.rfl, rfl⟩)
  | tryFas =>
    refine .inl ⟨.idle, by decide, by decide, ?_⟩
    simp only [act, hinv.value_iff]
  | lockAttempt eb =>
    refine .inl ⟨if eb then .lockAttempt eb else .lockLoad, ?_, ?_, ?_⟩
    · cases eb <;> decide
    · cases eb <;> decide
    · simp only [act, hinv.attempt, decide_eq_true_eq]
  | lockLoad =>
    refine .inr (.inr ⟨if m.value = 1 then .lockLoad else .lockAttempt false, ?_, rfl⟩)
    split <;> decide
  | unlockStore => exact .inr (.inl ⟨by decide, rfl⟩)

theorem step_own {m' : Mem ι} {p' : Pc} (hstep : Step kind i m p m' p') (hinv : Inv m)
    (h : At i m p) : Inv m' ∧ At i m' p' := by
  cases hstep with
  | trylock | unlock => exact ⟨hinv, h.trans (by decide)⟩
  | lock eb => exact ⟨hinv, h.trans (by cases eb <;> decide)⟩
  | act =>
    obtain ⟨p', hp, hp', heq⟩ | ⟨-, heq⟩ | ⟨p', hp, heq⟩ := act_cases kind hinv h <;>
      rw [heq]
    · exact ⟨.store i m, h.own_store hp hp'⟩
    · exact ⟨inv_init, at_init⟩
    · exact ⟨hinv, h.trans hp.symm⟩

theorem step_other {m' : Mem ι} {p' q : Pc} (hstep : Step kind i m p m' p') (hinv : Inv m)
    (h : At i m p) (hj : j ≠ i) (hother : At j m q) : At j m' q := by
  cases hstep with
  | trylock | lock | unlock => exact hother
  | act =>
    obtain ⟨p', -, -, heq⟩ | ⟨hp, heq⟩ | ⟨p', -, heq⟩ := act_cases kind hinv h <;>
      rw [heq]
    · exact hother.other_store hj
    · refine Iff.trans (iff_of_false (Option.some_ne_none j).symm ?_) hother
      rw [h.mpr hp]
      exact fun heq => hj (Option.some.inj heq).symm
    · exact hother

theorem invariant (kind : Kind) :
    Threads.Invariant (Step (ι := ι) kind) (fun _ _ _ => True) Inv At where
  own hstep _ hinv h := step_own hstep hinv h
  other hstep _ hinv h _ _ hj hother := step_other hstep hinv h hj hother

/-- At most one thread has the lock. -/
theorem At.unique {q : Pc} (hi : At i m p) (hj : At j m q) (hp : p.Holds) (hq : q.Holds) : i = j :=
  Option.some.inj ((hi.mpr hp).symm.trans (hj.mpr hq))

end ConcurrencyKit.Spinlock.Swap
