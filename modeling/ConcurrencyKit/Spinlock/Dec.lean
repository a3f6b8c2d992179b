import ConcurrencyKit.Misc.Threads
import Mathlib.Data.Fintype.Card

/-!
# The decrement lock of `ck_spinlock`

The functions of `include/spinlock/dec.h`, one access at a time, for any number of threads. The word
is one while the lock is free. A thread that wants the lock decrements it, and has the lock when it
gets to zero. The word goes on below zero while others try, and must not come round to one.

Next to the word a `Mem` keeps the thread that has the lock, and the threads that have decremented
the word in vain since it was zero.
-/

namespace ConcurrencyKit.Spinlock.Dec

/-- `struct ck_spinlock_dec`, and who has got and tried to get the lock. -/
structure Mem (ι : Type) where
  value : Nat
  holder : Option ι
  failed : Finset ι

/-- `ck_spinlock_dec_locked` of a word that has been loaded (`dec.h:69-77`). -/
def locked (value : Nat) : Bool := value ≠ 1

/-- Where a thread stands. -/
inductive Pc where
  | idle
  | inside
  /-- `ck_spinlock_dec_trylock`. -/
  | tryFas
  /-- `ck_spinlock_dec_lock` and `ck_spinlock_dec_lock_eb`. -/
  | lockDec
  | lockLoad
  /-- `ck_spinlock_dec_unlock`. -/
  | unlockStore
  deriving DecidableEq, Repr

/-- The thread has got the lock and has not given it back. -/
def Pc.Holds (p : Pc) : Prop := p = .inside ∨ p = .unlockStore

instance (p : Pc) : Decidable p.Holds := inferInstanceAs (Decidable (_ ∨ _))

variable {ι : Type}

/-- A lock after `ck_spinlock_dec_init`, with all threads idle. -/
def start (ι : Type) : Threads.System (Mem ι) Pc ι where
  mem := ⟨1, none, ∅⟩
  pc _ := .idle

namespace Mem

/-- `ck_pr_fas_uint(&lock->value, 0)`. -/
def fas (i : ι) (m : Mem ι) : Mem ι where
  value := 0
  holder := if m.value = 1 then some i else m.holder
  failed := ∅

/-- The word that `ck_pr_dec_uint_zero(&lock->value, &r)` leaves, where `r` says whether it is
zero. -/
def pred (m : Mem ι) : Nat := (m.value + (2 ^ 32 - 1)) % 2 ^ 32

/-- `ck_pr_dec_uint_zero(&lock->value, &r)`. -/
def dec [DecidableEq ι] (i : ι) (m : Mem ι) : Mem ι where
  value := m.pred
  holder := if m.pred = 0 then some i else m.holder
  failed := if m.pred = 0 then ∅ else insert i m.failed

/-- `ck_pr_store_uint(&lock->value, 1)`. -/
def store (_ : Mem ι) : Mem ι := ⟨1, none, ∅⟩

end Mem

section Steps

variable [DecidableEq ι]

/-- One access of thread `i`: `ck_spinlock_dec_trylock`, `ck_spinlock_dec_lock` and
`ck_spinlock_dec_unlock` (`dec.h:59-134`). The loop of `ck_spinlock_dec_lock_eb` makes the same
accesses. -/
def act (i : ι) (m : Mem ι) : Pc → Mem ι × Pc
  | .tryFas => (m.fas i, if m.value = 1 then .inside else .idle)
  | .lockDec => (m.dec i, if m.pred = 0 then .inside else .lockLoad)
  | .lockLoad => (m, if m.value ≠ 1 then .lockLoad else .lockDec)
  | .unlockStore => (m.store, .idle)
  | p => (m, p)

/-- One step of thread `i`: it calls a function, or makes the next access of its call. -/
inductive Step (i : ι) : Mem ι → Pc → Mem ι → Pc → Prop
  | trylock (m : Mem ι) : Step i m .idle m .tryFas
  | lock (m : Mem ι) : Step i m .idle m .lockDec
  | unlock (m : Mem ι) : Step i m .inside m .unlockStore
  | act (m : Mem ι) (p : Pc) : Step i m p (act i m p).1 (act i m p).2

/-- States that are reached by the threads of `ι`. -/
def Reachable (s : Threads.System (Mem ι) Pc ι) : Prop :=
  Threads.System.Reachable Step (fun _ _ _ => True) (start ι) s

end Steps

/-! ## The invariant -/

variable {i j : ι} {m : Mem ι} {p : Pc}

/-- What the word says about the threads. -/
structure Inv (m : Mem ι) : Prop where
  free : m.holder = none → m.value = 1 ∧ m.failed = ∅
  held : ∀ i, m.holder = some i → m.value = (2 ^ 32 - m.failed.card) % 2 ^ 32 ∧ i ∉ m.failed

/-- What is known about thread `i` from where it stands. A thread does not decrement the word twice
while another one has the lock. -/
structure At (i : ι) (m : Mem ι) (p : Pc) : Prop where
  holds : m.holder = some i ↔ p.Holds
  failed : i ∈ m.failed → p = .lockLoad

/-- With at most as many threads as the word can count, it is one only when the lock is free. -/
theorem Inv.value_iff [Fintype ι] (hinv : Inv m) (hcard : Fintype.card ι < 2 ^ 32) :
    m.value = 1 ↔ m.holder = none := by
  refine ⟨fun hvalue => ?_, fun hnone => (hinv.free hnone).1⟩
  by_contra hsome
  obtain ⟨i, hi⟩ := Option.ne_none_iff_exists'.mp hsome
  obtain ⟨hword, hnot⟩ := hinv.held i hi
  -- the holder is not among those that have tried
  have hlt := Finset.card_lt_univ_of_notMem hnot
  omega

theorem Inv.pred_iff [Fintype ι] (hinv : Inv m) (hcard : Fintype.card ι < 2 ^ 32) :
    m.pred = 0 ↔ m.holder = none := by
  rw [← hinv.value_iff hcard, Mem.pred]
  have hlt : m.value < 2 ^ 32 := by
    cases hholder : m.holder with
    | none => rw [(hinv.free hholder).1]; norm_num
    | some i =>
      rw [(hinv.held i hholder).1]
      exact Nat.mod_lt _ (Nat.two_pow_pos 32)
  omega

/-- What a step of another thread leaves as it is. -/
theorem At.frame {m' : Mem ι} (h : At i m p) (hholder : m'.holder = some i ↔ m.holder = some i)
    (hfailed : i ∈ m'.failed → i ∈ m.failed) : At i m' p where
  holds := hholder.trans h.holds
  failed hi := h.failed (hfailed hi)

section Threads

variable [Fintype ι]

theorem Inv.fas (hinv : Inv m) (hcard : Fintype.card ι < 2 ^ 32) : Inv (m.fas i) where
  free hnone := by
    simp only [Mem.fas] at hnone
    split at hnone
    case isTrue => cases hnone
    case isFalse hvalue => exact absurd ((hinv.value_iff hcard).mpr hnone) hvalue
  held _ _ := ⟨by simp [Mem.fas], Finset.notMem_empty _⟩

theorem At.other_fas (hinv : Inv m) (hcard : Fintype.card ι < 2 ^ 32) (hj : j ≠ i)
    (h : At j m p) : At j (m.fas i) p := by
  refine h.frame ?_ fun hmem => absurd hmem (Finset.notMem_empty j)
  simp only [Mem.fas]
  split
  case isTrue hvalue =>
    rw [(hinv.value_iff hcard).mp hvalue]
    exact iff_of_false (fun heq => hj (Option.some.inj heq).symm) (Option.some_ne_none j).symm
  case isFalse => rfl

variable [DecidableEq ι]

theorem Inv.dec (hinv : Inv m) (hcard : Fintype.card ι < 2 ^ 32) (hi : i ∉ m.failed)
    (hholder : m.holder ≠ some i) : Inv (m.dec i) where
  free hnone := by
    simp only [Mem.dec] at hnone
    split at hnone
    case isTrue => cases hnone
    case isFalse hpred => exact absurd ((hinv.pred_iff hcard).mpr hnone) hpred
  held k hk := by
    simp only [Mem.dec] at hk ⊢
    split at hk
    case isTrue hpred =>
      simp only [hpred, if_true]
      exact ⟨by simp, Finset.notMem_empty k⟩
    case isFalse hpred =>
      obtain ⟨hvalue, hnot⟩ := hinv.held k hk
      have hne : k ≠ i := by
        rintro rfl
        exact hholder hk
      have hnot' : k ∉ insert i m.failed := by simp [hne, hnot]
      have hlt := Finset.card_lt_univ_of_notMem hnot'
      have hsucc := Finset.card_insert_of_notMem hi
      rw [if_neg hpred]
      refine ⟨?_, hnot'⟩
      rw [Mem.pred, hvalue, hsucc]
      omega

theorem At.other_dec (hinv : Inv m) (hcard : Fintype.card ι < 2 ^ 32) (hj : j ≠ i)
    (h : At j m p) : At j (m.dec i) p := by
  refine h.frame ?_ ?_
  · simp only [Mem.dec]
    split
    case isTrue hpred =>
      rw [(hinv.pred_iff hcard).mp hpred]
      exact iff_of_false (fun heq => hj (Option.some.inj heq).symm) (Option.some_ne_none j).symm
    case isFalse => rfl
  · simp only [Mem.dec]
    split
    case isTrue => exact fun hmem => absurd hmem (Finset.notMem_empty j)
    case isFalse => exact fun hmem => (Finset.mem_insert.mp hmem).resolve_left hj

omit [Fintype ι] [DecidableEq ι] in
/-- A thread that does not have the lock and makes a step without getting it. -/
theorem At.stay {p' : Pc} (h : At i m p) (hp : ¬ p.Holds) (hp' : ¬ p'.Holds)
    (hfailed : i ∈ m.failed → p' = .lockLoad) : At i m p' where
  holds := h.holds.trans (iff_of_false hp hp')
  failed := hfailed

omit [Fintype ι] [DecidableEq ι] in
theorem At.notMem (h : At i m p) (hp : p ≠ .lockLoad) : i ∉ m.failed := fun hi => hp (h.failed hi)

/-- The step of a thread by its own program counter. -/
theorem act_own (hcard : Fintype.card ι < 2 ^ 32) (hinv : Inv m) (h : At i m p) :
    Inv (act i m p).1 ∧ At i (act i m p).1 (act i m p).2 := by
  cases p with
  | idle | inside => exact ⟨hinv, h⟩
  | tryFas =>
    have hnot : m.holder ≠ some i := mt h.holds.mp (by decide)
    refine ⟨hinv.fas hcard, ?_, fun hmem => absurd hmem (Finset.notMem_empty i)⟩
    simp only [act, Mem.fas]
    split
    case isTrue => exact iff_of_true rfl (by decide)
    case isFalse => exact iff_of_false hnot (by decide)
  | lockDec =>
    have hnot : m.holder ≠ some i := mt h.holds.mp (by decide)
    refine ⟨hinv.dec hcard (h.notMem (by decide)) hnot, ?_, ?_⟩
    · simp only [act, Mem.dec]
      split
      case isTrue => exact iff_of_true rfl (by decide)
      case isFalse => exact iff_of_false hnot (by decide)
    · simp only [act, Mem.dec]
      split
      case isTrue => exact fun hmem => absurd hmem (Finset.notMem_empty i)
      case isFalse => exact fun _ => rfl
  | lockLoad =>
    refine ⟨hinv, ?_⟩
    simp only [act]
    split
    case isTrue => exact h
    case isFalse hvalue =>
      -- the lock has been free, so that nobody has tried in vain
      have hfree := hinv.free ((hinv.value_iff hcard).mp (not_not.mp hvalue))
      refine h.stay (by decide) (by decide) fun hmem => ?_
      rw [hfree.2] at hmem
      exact absurd hmem (Finset.notMem_empty i)
  | unlockStore =>
    have hempty : i ∉ m.store.failed := Finset.notMem_empty i
    refine ⟨⟨fun _ => ⟨rfl, rfl⟩, fun k hk => ?_⟩, ?_, fun hmem => absurd hmem hempty⟩
    · cases hk
    · exact iff_of_false (Option.some_ne_none i).symm (show ¬ Pc.idle.Holds by decide)

theorem act_other (hcard : Fintype.card ι < 2 ^ 32) (hinv : Inv m) (h : At i m p) {q : Pc}
    (hj : j ≠ i) (hother : At j m q) : At j (act i m p).1 q := by
  cases p with
  | idle | inside | lockLoad => exact hother
  | tryFas => exact hother.other_fas hinv hcard hj
  | lockDec => exact hother.other_dec hinv hcard hj
  | unlockStore =>
    have hi : m.holder = some i := h.holds.mpr (by decide)
    refine hother.frame (iff_of_false (Option.some_ne_none j).symm ?_) fun hmem =>
      absurd hmem (Finset.notMem_empty j)
    rw [hi]
    exact fun heq => hj (Option.some.inj heq).symm

theorem invariant (hcard : Fintype.card ι < 2 ^ 32) :
    Threads.Invariant (Step (ι := ι)) (fun _ _ _ => True) Inv At where
  own hstep _ hinv h := by
    cases hstep with
    | trylock | lock =>
      exact ⟨hinv, h.stay (by decide) (by decide) fun hi => absurd (h.failed hi) (by decide)⟩
    | unlock =>
      refine ⟨hinv, h.holds.trans (iff_of_true (by decide) (by decide)), fun hi => ?_⟩
      exact absurd (h.failed hi) (by decide)
    | act => exact act_own hcard hinv h
  other hstep _ hinv h _ _ hj hother := by
    cases hstep with
    | trylock | lock | unlock => exact hother
    | act => exact act_other hcard hinv h hj hother

end Threads

/-! ## Every run -/

section Runs

variable [DecidableEq ι] {s : Threads.System (Mem ι) Pc ι}

theorem reachable_inv [Fintype ι] (hcard : Fintype.card ι < 2 ^ 32) (hr : Reachable s) :
    Inv s.mem ∧ ∀ i, At i s.mem (s.pc i) := by
  have hinv : Inv (start ι).mem := ⟨fun _ => ⟨rfl, rfl⟩, fun i hi => by cases hi⟩
  have hat : ∀ i, At i (start ι).mem ((start ι).pc i) := fun i =>
    ⟨iff_of_false (Option.some_ne_none i).symm (show ¬ Pc.idle.Holds by decide), fun hi =>
      absurd hi (Finset.notMem_empty i)⟩
  obtain ⟨hinv', hall⟩ := (invariant hcard).reachable hr (fun _ => trivial) hinv hat
  exact ⟨hinv', fun i => (hall i).2⟩

/-- What the functions of the lock promise in a state: at most one thread has the lock, an attempt
to get it succeeds if nobody has it, and `ck_spinlock_dec_locked` says whether somebody has. -/
structure Sound (s : Threads.System (Mem ι) Pc ι) : Prop where
  unique : ∀ i j, (s.pc i).Holds → (s.pc j).Holds → i = j
  attempt : ∀ i, s.pc i = .tryFas ∨ s.pc i = .lockDec →
    ((act i s.mem (s.pc i)).2 = .inside ↔ ∀ j, ¬ (s.pc j).Holds)
  locked : locked s.mem.value = true ↔ ∃ i, (s.pc i).Holds

theorem reachable_sound [Fintype ι] (hcard : Fintype.card ι < 2 ^ 32) (hr : Reachable s) :
    Sound s := by
  obtain ⟨hinv, hat⟩ := reachable_inv hcard hr
  have hholder : s.mem.holder = none ↔ ∀ j, ¬ (s.pc j).Holds := by
    simp only [← fun j => (hat j).holds, Option.eq_none_iff_forall_ne_some]
  refine ⟨fun i j hi hj => ?_, fun i hi => ?_, ?_⟩
  · exact Option.some.inj (((hat i).holds.mpr hi).symm.trans ((hat j).holds.mpr hj))
  · rw [← hholder]
    rcases hi with hi | hi <;> rw [hi]
    · rw [← hinv.value_iff hcard]
      simp [act]
    · rw [← hinv.pred_iff hcard]
      simp [act]
  · rw [locked, decide_eq_true_iff, Ne, hinv.value_iff hcard, hholder]
    simp

/-! ## Too many threads -/

/-- A thread calls `ck_spinlock_dec_lock` and decrements the word. -/
theorem Reachable.lock (hr : Reachable s) (hi : s.pc i = .idle) :
    Reachable ⟨s.mem.dec i,
      Function.update s.pc i (if s.mem.pred = 0 then .inside else .lockLoad)⟩ := by
  have hcall : Reachable (s.call i .lockDec) :=
    Threads.System.Reachable.call hr i (hi ▸ .lock s.mem) fun _ => trivial
  have hdec := Threads.System.Reachable.extend hcall i (.act _ _) fun _ => trivial
  simp only [Threads.System.call, Function.update_self, Function.update_idem, act] at hdec
  exact hdec

/-- A thread that waits sees that the word is one, and decrements it again. -/
theorem again {s₀ : Threads.System (Mem ι) Pc ι}
    (hr : Threads.System.Reachable Step (fun _ _ _ => True) s₀ s) (hi : s.pc i = .lockLoad)
    (hvalue : s.mem.value = 1) :
    Threads.System.Reachable Step (fun _ _ _ => True) s₀
      ⟨s.mem.dec i, Function.update s.pc i .inside⟩ := by
  have hload := Threads.System.Reachable.extend hr i (.act _ _) fun _ => trivial
  have hdec := Threads.System.Reachable.extend hload i (.act _ _) fun _ => trivial
  have hpred : s.mem.pred = 0 := by
    rw [Mem.pred, hvalue]
    norm_num
  simp only [Function.update_self, Function.update_idem, act, hi, hvalue, hpred, ne_eq,
    not_true_eq_false, if_false, if_true] at hdec
  exact hdec

/-- Thread `t 0` has the lock, and each of the next `k` threads has decremented the word once. -/
structure Crowd (t : Nat → ι) (k : Nat) (s : Threads.System (Mem ι) Pc ι) : Prop where
  reachable : Reachable s
  value : s.mem.value = (2 ^ 32 - k) % 2 ^ 32
  holds : s.pc (t 0) = .inside
  load : ∀ j, 1 ≤ j → j ≤ k → s.pc (t j) = .lockLoad
  idle : ∀ j, k < j → j < 2 ^ 32 → s.pc (t j) = .idle

/-- One thread after the other calls `ck_spinlock_dec_lock`. -/
theorem exists_crowd {t : Nat → ι} (ht : ∀ a < 2 ^ 32, ∀ b < 2 ^ 32, t a = t b → a = b) {k : Nat}
    (hk : k < 2 ^ 32) : ∃ s, Crowd t k s := by
  induction k with
  | zero =>
    have hpred : (start ι).mem.pred = 0 := by
      rw [start, Mem.pred]
      norm_num
    refine ⟨_, Reachable.lock (i := t 0) .refl rfl, hpred.trans (by norm_num), ?_, ?_, ?_⟩
    · dsimp only
      rw [Function.update_self, if_pos hpred]
    · intro j hj hle
      omega
    · intro j hj hlt
      exact Function.update_of_ne (fun heq => hj.ne' (ht j hlt 0 hk heq)) _ _
  | succ k ih =>
    obtain ⟨s, hs⟩ := ih (by omega)
    have hpred : s.mem.pred = 2 ^ 32 - (k + 1) := by
      rw [Mem.pred, hs.value]
      omega
    have hne : ∀ j < 2 ^ 32, j ≠ k + 1 → t j ≠ t (k + 1) :=
      fun j hj hjk heq => hjk (ht j hj (k + 1) hk heq)
    refine ⟨_, hs.reachable.lock (hs.idle (k + 1) (Nat.lt_succ_self k) hk), ?_, ?_, ?_, ?_⟩
    · exact hpred.trans (Nat.mod_eq_of_lt (by omega)).symm
    · exact (Function.update_of_ne (hne 0 (by omega) (by omega)) _ _).trans hs.holds
    · intro j hj hle
      rcases Nat.eq_or_lt_of_le hle with rfl | hlt
      · dsimp only
        rw [Function.update_self, if_neg (by omega)]
      · exact (Function.update_of_ne (hne j (by omega) (by omega)) _ _).trans
          (hs.load j hj (by omega))
    · intro j hj hlt
      exact (Function.update_of_ne (hne j hlt (by omega)) _ _).trans (hs.idle j (by omega) hlt)

/-- Thread `i` has the lock, the word has come round to one, and thread `j` gets the lock too. -/
def Intrudes (i j : ι) : Prop :=
  ∃ s s' : Threads.System (Mem ι) Pc ι, Reachable s ∧ (s.pc i).Holds ∧ s.mem.value = 1 ∧
    Threads.System.Reachable Step (fun _ _ _ => True) s s' ∧ (s'.pc i).Holds ∧ (s'.pc j).Holds

/-- When all other threads have decremented the word once. -/
theorem intrudes {t : Nat → ι} (ht : ∀ a < 2 ^ 32, ∀ b < 2 ^ 32, t a = t b → a = b) :
    t 0 ≠ t 1 ∧ Intrudes (t 0) (t 1) := by
  obtain ⟨s, hs⟩ := exists_crowd ht (show 2 ^ 32 - 1 < 2 ^ 32 by norm_num)
  have hvalue : s.mem.value = 1 := by
    rw [hs.value]
    norm_num
  have hload := hs.load 1 le_rfl (by norm_num)
  have hholds : (s.pc (t 0)).Holds := by
    rw [hs.holds]
    exact .inl rfl
  have hne : t 0 ≠ t 1 := fun heq => absurd (ht 0 (by norm_num) 1 (by norm_num) heq) (by decide)
  refine ⟨hne, s, _, hs.reachable, hholds, hvalue, again .refl hload hvalue, ?_, ?_⟩ <;> dsimp only
  · rw [Function.update_of_ne hne]
    exact hholds
  · rw [Function.update_self]
    exact .inl rfl

/-- The lock keeps its promises in every run exactly if there are fewer than `2 ^ 32` threads.
Otherwise two of them can get it. -/
theorem dec_sound_iff [Fintype ι] :
    ((∀ s : Threads.System (Mem ι) Pc ι, Reachable s → Sound s) ↔ Fintype.card ι < 2 ^ 32) ∧
      (Fintype.card ι < 2 ^ 32 ∨ ∃ i j : ι, i ≠ j ∧ Intrudes i j) := by
  by_cases hcard : Fintype.card ι < 2 ^ 32
  · exact ⟨iff_of_true (fun s hr => reachable_sound hcard hr) hcard, .inl hcard⟩
  · have hfin : Fintype.card (Fin (2 ^ 32)) ≤ Fintype.card ι := by
      rwa [Fintype.card_fin, ← Nat.not_lt]
    obtain ⟨f⟩ := Function.Embedding.nonempty_of_card_le hfin
    let t : Nat → ι := fun a => f (Fin.ofNat (2 ^ 32) a)
    have ht : ∀ a < 2 ^ 32, ∀ b < 2 ^ 32, t a = t b → a = b := by
      intro a ha b hb heq
      have hval := congrArg Fin.val (f.injective heq)
      rwa [Fin.val_ofNat, Fin.val_ofNat, Nat.mod_eq_of_lt ha, Nat.mod_eq_of_lt hb] at hval
    obtain ⟨hne, hintrudes⟩ := intrudes ht
    refine ⟨iff_of_false (fun hsound => hne ?_) hcard, .inr ⟨_, _, hne, hintrudes⟩⟩
    obtain ⟨s, s', hr, -, -, hr', hi, hj⟩ := hintrudes
    exact (hsound s' (hr.trans hr')).unique _ _ hi hj

end Runs

end ConcurrencyKit.Spinlock.Dec
