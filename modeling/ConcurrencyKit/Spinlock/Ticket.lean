import ConcurrencyKit.Misc.Packed
import ConcurrencyKit.Misc.Threads
import ConcurrencyKit.Misc.Visits

/-!
# The ticket locks of `ck_spinlock` in a single word

The functions of `include/spinlock/ticket.h` for machines with `ck_spinlock_ticket_trylock`, one
access at a time, for any number of threads. The upper half of the word is the next ticket, and the
lower half the ticket of the thread that has the lock. A half has `w` bits: 16, or 32 where the word
has 64.

Next to the word a `Mem` keeps the tickets that are out. Their numbers are not cut off.
-/

namespace ConcurrencyKit.Spinlock.Ticket

open Packed (pack)
open Visits (Visit)

/-- `CK_SPINLOCK_TICKET_INCREMENT`. -/
def increment (w : Nat) : Nat := 1 <<< w

/-- `CK_SPINLOCK_TICKET_MASK`. -/
def mask (w : Nat) : Nat := 2 ^ w - 1

/-- The lower half of a word. -/
def position (w value : Nat) : Nat := value &&& mask w

/-- The upper half of a word. -/
def request (w value : Nat) : Nat := value >>> w

/-- `ck_spinlock_ticket_locked` of a word that has been loaded (`ticket.h:86-97`). -/
def locked (w value : Nat) : Bool := request w value ≠ position w value

/-- A lock and the tickets that are out. -/
structure Mem (ι : Type) where
  value : Nat
  tickets : Visits ι Unit

/-- Where a thread stands. A thread with a ticket `t` knows its last bits as `request`. -/
inductive Pc (ι : Type) where
  | idle
  | inside (t : Visit ι Unit)
  /-- `ck_spinlock_ticket_lock`. -/
  | lockFaa
  | lockLoad (t : Visit ι Unit) (request : Nat)
  /-- `ck_spinlock_ticket_lock_pb`. -/
  | pbFaa (c : Nat)
  | pbLoad (c : Nat) (t : Visit ι Unit) (request : Nat)
  | pbBackoff (c : Nat) (t : Visit ι Unit) (request position backoff : Nat)
  /-- `ck_spinlock_ticket_trylock`. -/
  | tryLoad
  | tryCas (snapshot : Nat)
  /-- `ck_spinlock_ticket_unlock`. -/
  | unlockInc (t : Visit ι Unit)
  deriving DecidableEq

namespace Pc

variable {ι : Type}

/-- The ticket of a thread that waits for the lock or has it. -/
def ticket : Pc ι → Option (Visit ι Unit)
  | inside t | lockLoad t _ | pbLoad _ t _ | pbBackoff _ t _ _ _ | unlockInc t => some t
  | _ => none

/-- The ticket of a thread that has the lock. -/
def held : Pc ι → Option (Visit ι Unit)
  | inside t | unlockInc t => some t
  | _ => none

end Pc

variable {ι : Type}

namespace Mem

/-- The ticket that a thread would get. -/
def visit (i : ι) (m : Mem ι) : Visit ι Unit := ⟨i, m.tickets.arrived, ()⟩

variable [DecidableEq ι]

/-- `CK_SPINLOCK_TICKET_FAA(&ticket->value, CK_SPINLOCK_TICKET_INCREMENT)`, or a successful
`CK_SPINLOCK_TICKET_CAS` that stores the same value. -/
def faa (w : Nat) (i : ι) (m : Mem ι) : Mem ι where
  value := (m.value + increment w) % 2 ^ (w + w)
  tickets := m.tickets.arrive i ()

/-- `CK_SPINLOCK_TICKET_INC((CK_SPINLOCK_TICKET_TYPE_BASE *)(void *)&ticket->value)`, which is the
lower half of the word. -/
def inc (w : Nat) (t : Visit ι Unit) (m : Mem ι) : Mem ι where
  value := pack w (request w m.value) ((position w m.value + 1) % 2 ^ w)
  tickets := m.tickets.leave t

end Mem

variable [DecidableEq ι]

/-- One access of thread `i`: `ck_spinlock_ticket_lock`, `ck_spinlock_ticket_lock_pb`,
`ck_spinlock_ticket_trylock` and `ck_spinlock_ticket_unlock` (`ticket.h:99-176`). A turn of the loop
of `ck_backoff_eb` is a step of its own. -/
def act (w : Nat) (i : ι) (m : Mem ι) : Pc ι → Mem ι × Pc ι
  | .lockFaa =>
    (m.faa w i,
      if request w m.value ≠ position w m.value then .lockLoad (m.visit i) (request w m.value)
      else .inside (m.visit i))
  | .lockLoad t request =>
    (m, if request ≠ position w m.value then .lockLoad t request else .inside t)
  | .pbFaa c =>
    (m.faa w i,
      if request w m.value ≠ position w m.value then .pbLoad c (m.visit i) (request w m.value)
      else .inside (m.visit i))
  | .pbLoad c t request =>
    (m, .pbBackoff c t request (position w m.value)
      (((request + 2 ^ (w + w) - position w m.value) &&& mask w) <<< c % 2 ^ 32))
  | .pbBackoff c t request position (backoff + 1) => (m, .pbBackoff c t request position backoff)
  | .pbBackoff c t request position 0 =>
    (m, if request ≠ position then .pbLoad c t request else .inside t)
  | .tryLoad =>
    (m, if position w m.value ≠ request w m.value then .idle else .tryCas m.value)
  | .tryCas snapshot =>
    if m.value = snapshot then (m.faa w i, .inside (m.visit i)) else (m, .idle)
  | .unlockInc t => (m.inc w t, .idle)
  | pc => (m, pc)

/-- One step of thread `i`: it calls a function, or makes the next access of its call. -/
inductive Step (w : Nat) (i : ι) : Mem ι → Pc ι → Mem ι → Pc ι → Prop
  | lock {m : Mem ι} : Step w i m .idle m .lockFaa
  | lockPb {m : Mem ι} (c : Nat) : Step w i m .idle m (.pbFaa c)
  | trylock {m : Mem ι} : Step w i m .idle m .tryLoad
  | unlock {m : Mem ι} (t : Visit ι Unit) : Step w i m (.inside t) m (.unlockInc t)
  | act {m : Mem ι} {pc : Pc ι} : Step w i m pc (act w i m pc).1 (act w i m pc).2

omit [DecidableEq ι] in
/-- Fewer than `2 ^ w` threads have the lock or wait for it. -/
def Few (w : Nat) (_ : ι) (m : Mem ι) (_ : Pc ι) : Prop := m.tickets.present.card < 2 ^ w

omit [DecidableEq ι] in
instance (w : Nat) (i : ι) (m : Mem ι) (pc : Pc ι) : Decidable (Few w i m pc) :=
  inferInstanceAs (Decidable (_ < _))

/-- A new lock, with all threads idle. -/
def start (ι : Type) : Threads.System (Mem ι) (Pc ι) ι where
  mem := ⟨0, .empty ι Unit⟩
  pc := fun _ => .idle

/-! ## Words -/

/-- The word after so many tickets have been given out and given back. -/
def word (w arrived left : Nat) : Nat := pack w (arrived % 2 ^ w) (left % 2 ^ w)

section Words

variable {w n k : Nat}

theorem position_word : position w (word w n k) = k % 2 ^ w := by
  rw [position, mask, Nat.and_two_pow_sub_one_eq_mod, word, pack, Nat.mul_add_mod, Nat.mod_mod]

theorem request_word : request w (word w n k) = n % 2 ^ w := by
  have hlt := Nat.mod_lt k (Nat.two_pow_pos w)
  rw [request, Nat.shiftRight_eq_div_pow, word, pack, Nat.mul_add_div (Nat.two_pow_pos w),
    Nat.div_eq_of_lt hlt, Nat.add_zero]

/-- The upper half wraps without the lower one. -/
theorem word_faa : (word w n k + increment w) % 2 ^ (w + w) = word w (n + 1) k := by
  have hk := Nat.mod_lt k (Nat.two_pow_pos w)
  have hn := Nat.mod_lt n (Nat.two_pow_pos w)
  have hincr : increment w = 2 ^ w * 1 := by rw [increment, Nat.one_shiftLeft, Nat.mul_one]
  rw [word, hincr, Packed.pack_add_high, word, ← Nat.mod_add_mod n (2 ^ w) 1]
  by_cases hlast : n % 2 ^ w + 1 = 2 ^ w
  · have hle : 2 ^ w ≤ 2 ^ w * 2 ^ w := Nat.le_mul_of_pos_left _ (Nat.two_pow_pos w)
    rw [hlast, Nat.mod_self, pack, pack, Nat.pow_add, Nat.add_mod_left, Nat.mul_zero, Nat.zero_add]
    exact Nat.mod_eq_of_lt (hk.trans_le hle)
  · have hlt : n % 2 ^ w + 1 < 2 ^ w := by omega
    rw [Nat.mod_eq_of_lt (Packed.pack_lt hk hlt), Nat.mod_eq_of_lt hlt]

theorem word_inc :
    pack w (request w (word w n k)) ((position w (word w n k) + 1) % 2 ^ w) = word w n (k + 1) := by
  rw [request_word, position_word, Nat.mod_add_mod, word]

end Words

/-! ## The invariant -/

omit [DecidableEq ι]

variable {w : Nat} {i j : ι} {m m' : Mem ι} {pc pc' : Pc ι} {t u : Visit ι Unit}

/-- What the word says about the tickets. -/
structure Inv (w : Nat) (m : Mem ι) : Prop where
  value : m.value = word w m.tickets.arrived m.tickets.left
  valid : m.tickets.Valid
  inOrder : m.tickets.InOrder

/-- What a thread knows about its ticket. -/
def Knows (w : Nat) (m : Mem ι) : Pc ι → Prop
  | .inside t | .unlockInc t => t.number = m.tickets.left
  | .lockLoad t request | .pbLoad _ t request => request = t.number % 2 ^ w
  | .pbBackoff _ t request position _ =>
    request = t.number % 2 ^ w ∧ (request = position → t.number = m.tickets.left)
  | .tryCas snapshot => position w snapshot = request w snapshot
  | _ => True

/-- What is known about thread `i` from where it stands. -/
structure At (w : Nat) (i : ι) (m : Mem ι) (pc : Pc ι) : Prop where
  owns : m.tickets.Owns i pc.ticket
  knows : Knows w m pc

theorem inv_start : Inv w (start ι).mem where
  value := by simp [start, Visits.empty, word, pack]
  valid := .empty ι Unit
  inOrder := by simp [start, Visits.empty, Visits.InOrder]

theorem at_start : At w i (start ι).mem .idle where
  owns := Visits.Owns.empty i
  knows := trivial

theorem At.mem (h : At w i m pc) (ht : pc.ticket = some t) :
    t ∈ m.tickets.present ∧ t.owner = i :=
  (h.owns t).mpr ht

/-- The lock is free when the halves are equal. -/
theorem Inv.free (hinv : Inv w m) (hfew : m.tickets.present.card < 2 ^ w)
    (heq : position w m.value = request w m.value) : m.tickets.arrived = m.tickets.left := by
  have hcard := hinv.valid.card
  rw [hinv.value, position_word, request_word] at heq
  exact (Threads.eq_of_mod_eq (by omega) (by omega) heq).symm

/-- A thread whose ticket is the position is the first one. -/
theorem Inv.first (hinv : Inv w m) (hfew : m.tickets.present.card < 2 ^ w)
    (ht : t ∈ m.tickets.present) (heq : t.number % 2 ^ w = position w m.value) :
    t.number = m.tickets.left := by
  rw [hinv.value, position_word] at heq
  exact hinv.inOrder.first hinv.valid ht hfew heq.symm

/-- What a step has to leave as it is for another thread. -/
theorem At.frame (h : At w j m pc) (howns : m'.tickets.Owns j pc.ticket)
    (hleft : ∀ t, t ∈ m.tickets.present → t.owner = j → t.number = m.tickets.left →
      t.number = m'.tickets.left) : At w j m' pc where
  owns := howns
  knows := by
    have hknows := h.knows
    cases pc with
    | idle | lockFaa | pbFaa | tryLoad | tryCas | lockLoad | pbLoad => exact hknows
    | inside t | unlockInc t =>
      obtain ⟨hmem, hj⟩ := h.mem rfl
      exact hleft t hmem hj hknows
    | pbBackoff c t request position backoff =>
      obtain ⟨hmem, hj⟩ := h.mem rfl
      exact ⟨hknows.1, fun heq => hleft t hmem hj (hknows.2 heq)⟩

/-! ## Steps -/

section Steps

variable [DecidableEq ι]

theorem Inv.faa (hinv : Inv w m) : Inv w (m.faa w i) where
  value := by
    simp only [Mem.faa, Visits.arrive]
    rw [hinv.value, word_faa]
  valid := hinv.valid.arrive
  inOrder := hinv.inOrder.arrive hinv.valid

theorem Inv.inc (hinv : Inv w m) (ht : t ∈ m.tickets.present) (hfirst : t.number = m.tickets.left) :
    Inv w (m.inc w t) where
  value := by
    simp only [Mem.inc, Visits.leave]
    rw [hinv.value, word_inc]
  valid := hinv.valid.leave ht
  inOrder := hinv.inOrder.leave hinv.valid ht hfirst

theorem At.other_faa (hj : j ≠ i) (h : At w j m pc) : At w j (m.faa w i) pc :=
  h.frame (h.owns.arrive_other hj) fun _ _ _ heq => heq

theorem At.other_inc (hinv : Inv w m) (hj : j ≠ i) (ht : t ∈ m.tickets.present) (hi : t.owner = i)
    (hfirst : t.number = m.tickets.left) (h : At w j m pc) : At w j (m.inc w t) pc := by
  refine h.frame (h.owns.leave_other (hi.trans_ne hj.symm)) fun u hu huj heq => ?_
  -- there is only one first ticket
  have hut := hinv.valid.unique u hu t ht (heq.trans hfirst.symm)
  exact absurd (huj.symm.trans ((congrArg Visit.owner hut).trans hi)) hj

/-- A thread that has taken a ticket has just this one. -/
theorem At.taken (h : At w i m pc) (hpc : pc.ticket = none) (hpc' : pc'.ticket = some (m.visit i))
    (hknows : Knows w (m.faa w i) pc') : At w i (m.faa w i) pc' where
  owns := by
    have howns := h.owns
    rw [hpc] at howns
    rw [hpc']
    exact howns.arrive
  knows := hknows

/-- A thread that has given its ticket back has none. -/
theorem At.given (h : At w i m (.unlockInc t)) : At w i (m.inc w t) .idle where
  owns := h.owns.leave
  knows := trivial

omit [DecidableEq ι] in
/-- A thread that makes a step without a store. -/
theorem At.stay (h : At w i m pc) (hpc : pc'.ticket = pc.ticket) (hknows : Knows w m pc') :
    At w i m pc' where
  owns := hpc ▸ h.owns
  knows := hknows

/-- What a thread knows when it has taken a ticket from a word whose halves are equal. -/
theorem Inv.visit_first (hinv : Inv w m) (hfew : m.tickets.present.card < 2 ^ w)
    (heq : position w m.value = request w m.value) :
    (m.visit i).number = (m.faa w i).tickets.left :=
  hinv.free hfew heq

omit [DecidableEq ι] in
theorem Inv.visit_request (hinv : Inv w m) : request w m.value = (m.visit i).number % 2 ^ w := by
  rw [hinv.value, request_word]
  rfl

theorem step_own (hfew : Few w i m pc) (hinv : Inv w m) (h : At w i m pc) :
    Inv w (act w i m pc).1 ∧ At w i (act w i m pc).1 (act w i m pc).2 := by
  have hknows := h.knows
  cases pc with
  | idle | inside => exact ⟨hinv, h⟩
  | lockFaa =>
    simp only [act]
    refine ⟨hinv.faa, ?_⟩
    split
    case isTrue => exact h.taken rfl rfl hinv.visit_request
    case isFalse heq => exact h.taken rfl rfl (hinv.visit_first hfew (not_not.mp heq).symm)
  | pbFaa c =>
    simp only [act]
    refine ⟨hinv.faa, ?_⟩
    split
    case isTrue => exact h.taken rfl rfl hinv.visit_request
    case isFalse heq => exact h.taken rfl rfl (hinv.visit_first hfew (not_not.mp heq).symm)
  | lockLoad t request =>
    simp only [act]
    refine ⟨hinv, ?_⟩
    split
    case isTrue => exact h
    case isFalse heq =>
      have hmem := (h.mem rfl).1
      exact h.stay rfl (hinv.first hfew hmem (hknows.symm.trans (not_not.mp heq)))
  | pbLoad c t request =>
    have hmem := (h.mem rfl).1
    exact ⟨hinv, h.stay rfl ⟨hknows, fun heq => hinv.first hfew hmem (hknows.symm.trans heq)⟩⟩
  | pbBackoff c t request position backoff =>
    cases backoff with
    | succ backoff => exact ⟨hinv, h.stay rfl hknows⟩
    | zero =>
      simp only [act]
      refine ⟨hinv, ?_⟩
      split
      case isTrue => exact h.stay rfl hknows.1
      case isFalse heq => exact h.stay rfl (hknows.2 (not_not.mp heq))
  | tryLoad =>
    simp only [act]
    refine ⟨hinv, ?_⟩
    split
    case isTrue => exact h.stay rfl trivial
    case isFalse heq => exact h.stay rfl (not_not.mp heq)
  | tryCas snapshot =>
    simp only [act]
    split
    case isTrue heq =>
      subst heq
      exact ⟨hinv.faa, h.taken rfl rfl (hinv.visit_first hfew hknows)⟩
    case isFalse => exact ⟨hinv, h.stay rfl trivial⟩
  | unlockInc t =>
    have hmem := (h.mem rfl).1
    exact ⟨hinv.inc hmem hknows, h.given⟩

theorem step_other (hinv : Inv w m) (h : At w i m pc) (hj : j ≠ i) (hother : At w j m pc') :
    At w j (act w i m pc).1 pc' := by
  cases pc with
  | idle | inside | lockLoad | pbLoad | tryLoad => exact hother
  | lockFaa | pbFaa => exact hother.other_faa hj
  | pbBackoff c t request position backoff =>
    cases backoff with
    | zero | succ => exact hother
  | tryCas snapshot =>
    simp only [act]
    split
    case isTrue => exact hother.other_faa hj
    case isFalse => exact hother
  | unlockInc t =>
    obtain ⟨hmem, howner⟩ := h.mem rfl
    exact hother.other_inc hinv hj hmem howner h.knows

theorem invariant (w : Nat) : Threads.Invariant (Step (ι := ι) w) (Few w) (Inv w) (At w) where
  own hstep hfew hinv h := by
    cases hstep with
    | lock | lockPb | trylock => exact ⟨hinv, h.stay rfl trivial⟩
    | unlock t => exact ⟨hinv, h.stay rfl h.knows⟩
    | act => exact step_own hfew hinv h
  other hstep _ hinv h _ _ hj hother := by
    cases hstep with
    | lock | lockPb | trylock | unlock => exact hother
    | act => exact step_other hinv h hj hother

end Steps

/-! ## Every run -/

theorem Pc.ticket_of_held (h : pc.held = some t) : pc.ticket = some t := by
  cases pc <;> first | exact h | exact absurd h.symm (Option.some_ne_none t)

theorem At.held (h : At w i m pc) (ht : pc.held = some t) : t.number = m.tickets.left := by
  have hknows := h.knows
  cases pc with
  | inside u | unlockInc u =>
    obtain rfl : u = t := Option.some.inj ht
    exact hknows
  | idle | lockFaa | lockLoad | pbFaa | pbLoad | pbBackoff | tryLoad | tryCas =>
    exact absurd ht.symm (Option.some_ne_none t)

/-- The lock is free exactly when nobody has a ticket. -/
theorem Inv.locked_iff (hinv : Inv w m) (hfew : m.tickets.present.card < 2 ^ w) :
    locked w m.value = true ↔ m.tickets.present ≠ ∅ := by
  have hcard := hinv.valid.card
  rw [locked, decide_eq_true_iff, not_iff_not]
  constructor
  · intro heq
    have hfree := hinv.free hfew heq.symm
    exact Finset.card_eq_zero.mp (by omega)
  · intro hempty
    rw [hempty, Finset.card_empty] at hcard
    rw [hinv.value, position_word, request_word, ← hcard, Nat.add_zero]

variable [DecidableEq ι]

/-- Whoever has the lock has the oldest ticket that is out, so that the lock is given to one thread
at a time and in the order of the tickets. `ck_spinlock_ticket_unlock` leaves the upper half alone
and `ck_spinlock_ticket_locked` says whether somebody has a ticket. -/
theorem ticket_in_order {s : Threads.System (Mem ι) (Pc ι) ι}
    (hr : Threads.System.Reachable (Step w) (Few w) (start ι) s) :
    (∀ i j t u, i ≠ j → (s.pc i).held = some t → (s.pc j).ticket = some u → t.number < u.number) ∧
      (∀ i t, (s.pc i).held = some t → t.number = s.mem.tickets.left) ∧
      (∀ i t, s.pc i = .unlockInc t → request w (act w i s.mem (s.pc i)).1.value =
        request w s.mem.value) ∧
      (locked w s.mem.value = true ↔ ∃ i t, (s.pc i).ticket = some t) := by
  have hfew : ∀ i, Few w i (start ι).mem ((start ι).pc i) := by
    simp [Few, start, Visits.empty]
  obtain ⟨hinv, hall⟩ := (invariant w).reachable hr hfew inv_start fun _ => at_start
  have hat := fun i => (hall i).2
  refine ⟨fun i j t u hij hi hj => ?_, fun i t => (hat i).held, fun i t hi => ?_, ?_⟩
  · obtain ⟨ht, hti⟩ := (hat i).mem (Pc.ticket_of_held hi)
    obtain ⟨hu, huj⟩ := (hat j).mem hj
    refine hinv.inOrder.lt hinv.valid ht ((hat i).held hi) hu ?_
    rwa [hti, huj]
  · rw [hi]
    simp only [act, Mem.inc]
    rw [hinv.value, word_inc, request_word, request_word]
  · have hcard : s.mem.tickets.present.card < 2 ^ w := by
      rcases isEmpty_or_nonempty ι with hempty | ⟨⟨i⟩⟩
      · have hnone : s.mem.tickets.present = ∅ :=
          Finset.eq_empty_of_forall_notMem fun t _ => hempty.false t.owner
        rw [hnone, Finset.card_empty]
        exact Nat.two_pow_pos w
      · exact (hall i).1
    rw [hinv.locked_iff hcard, ← Finset.nonempty_iff_ne_empty]
    constructor
    · rintro ⟨t, ht⟩
      exact ⟨t.owner, t, ((hat t.owner).owns t).mp ⟨ht, rfl⟩⟩
    · rintro ⟨i, t, ht⟩
      exact ⟨t, ((hat i).mem ht).1⟩

/-- A run in which a thread makes `n` more accesses. -/
theorem acts_reachable {s₀ s : Threads.System (Mem ι) (Pc ι) ι}
    (hr : Threads.System.Reachable (Step w) (Few w) s₀ s) (i : ι) (n : Nat)
    (good : ∀ k < n + 1, ∀ j, Few w j (s.acts (act w) i k).mem ((s.acts (act w) i k).pc j)) :
    Threads.System.Reachable (Step w) (Few w) s₀ (s.acts (act w) i n) :=
  hr.acts i n (fun _ _ _ _ _ _ => .inr .act) good

/-- A thread that has got the lock without waiting, and one that waits for it. -/
theorem ticket_in_order_waiting : ∃ s : Threads.System (Mem Bool) (Pc Bool) Bool,
    s.pc true = .unlockInc ⟨true, 0, ()⟩ ∧ s.pc false = .lockLoad ⟨false, 1, ()⟩ 1 ∧
      (∀ i j t u, i ≠ j → (s.pc i).held = some t → (s.pc j).ticket = some u →
        t.number < u.number) ∧
      (∀ i t, (s.pc i).held = some t → t.number = s.mem.tickets.left) ∧
      (∀ i t, s.pc i = .unlockInc t → request 16 (act 16 i s.mem (s.pc i)).1.value =
        request 16 s.mem.value) ∧
      (locked 16 s.mem.value = true ↔ ∃ i t, (s.pc i).ticket = some t) := by
  have h₀ : Threads.System.Reachable (Step 16) (Few 16) (start Bool) (start Bool) := .refl
  have h₁ := h₀.call true .trylock (by decide +kernel)
  have h₂ := acts_reachable h₁ true 2 (by decide +kernel)
  have h₃ := h₂.call false .lock (by decide +kernel)
  have h₄ := acts_reachable h₃ false 2 (by decide +kernel)
  have h₅ := h₄.call true (.unlock ⟨true, 0, ()⟩) (by decide +kernel)
  exact ⟨_, by decide +kernel, by decide +kernel, ticket_in_order h₅⟩

end ConcurrencyKit.Spinlock.Ticket
