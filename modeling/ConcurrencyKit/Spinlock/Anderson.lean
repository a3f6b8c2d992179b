import ConcurrencyKit.Misc.Threads
import ConcurrencyKit.Misc.Visits
import Mathlib.Data.Nat.Bitwise

/-!
# The array locks of `ck_spinlock`

The functions of `include/spinlock/anderson.h`, one access at a time, for any number of threads. A
thread takes a ticket from the counter `next`, and waits at the slot that the ticket stands for. The
counter is a word. Where the number of slots is not a power of two it does not go on from its last
value to zero, but to one that stands for the next slot.

Next to the lock a `Mem` keeps the tickets that are out. Their numbers are not cut off.
-/

namespace ConcurrencyKit.Spinlock.Anderson

open Visits (Visit)

/-- `UINT_MAX`. -/
def uintMax : Nat := 2 ^ 32 - 1

/-- `struct ck_spinlock_anderson_thread`. -/
structure Slot where
  locked : Bool
  position : Nat

/-- `struct ck_spinlock_anderson`. -/
structure Lock where
  slots : Nat → Slot
  count : Nat
  wrap : Nat
  mask : Nat
  next : Nat

/-- `ck_spinlock_anderson_init` of slots that hold anything (`anderson.h:57-88`). -/
def init (slots : Nat → Slot) (count : Nat) : Lock where
  slots i := if i < count then ⟨i ≠ 0, i⟩ else slots i
  count := count
  mask := count - 1
  next := 0
  wrap := if count &&& (count - 1) ≠ 0 then uintMax % count + 1 else 0

namespace Lock

/-- `ck_pr_store_uint(&lock->slots[position].locked, locked)`. -/
def setLocked (position : Nat) (locked : Bool) (l : Lock) : Lock :=
  { l with
    slots := Function.update l.slots position ⟨locked, (l.slots position).position⟩ }

/-- The value of the counter after `position`. -/
def succ (position : Nat) (l : Lock) : Nat :=
  if l.wrap ≠ 0 then (if position = uintMax then l.wrap else position + 1)
  else (position + 1) % 2 ^ 32

/-- The slot that a value of the counter stands for. -/
def slotOf (position : Nat) (l : Lock) : Nat :=
  if l.wrap ≠ 0 then position % l.count else position &&& l.mask

/-- The slot after one with this position. -/
def slotAfter (position : Nat) (l : Lock) : Nat :=
  if l.wrap = 0 then (position + 1) &&& l.mask else (position + 1) % l.count

end Lock

/-- A lock and the tickets that are out. -/
structure Mem (ι : Type) where
  lock : Lock
  tickets : Visits ι Unit
  /-- The thread with the oldest ticket has seen that its slot is unlocked, and has locked it. -/
  taken : Bool

/-- Where a thread stands. A thread with a ticket `t` knows its slot as `position`. -/
inductive Pc (ι : Type) where
  | idle
  | inside (t : Visit ι Unit) (position : Nat)
  /-- `ck_spinlock_anderson_lock`. -/
  | lockNext
  | lockCas (position : Nat)
  | lockLoad (t : Visit ι Unit) (position : Nat)
  | lockStore (t : Visit ι Unit) (position : Nat)
  /-- `ck_spinlock_anderson_unlock`. -/
  | unlockStore (t : Visit ι Unit) (position : Nat)
  deriving DecidableEq

namespace Pc

variable {ι : Type}

/-- The ticket of a thread that waits for the lock or has it, and its slot. -/
def ticket : Pc ι → Option (Visit ι Unit)
  | inside t _ | lockLoad t _ | lockStore t _ | unlockStore t _ => some t
  | _ => none

/-- The slot of a thread with a ticket. -/
def slot : Pc ι → Option Nat
  | inside _ p | lockLoad _ p | lockStore _ p | unlockStore _ p => some p
  | _ => none

/-- The ticket of a thread that has the lock. -/
def held : Pc ι → Option (Visit ι Unit)
  | inside t _ | unlockStore t _ => some t
  | _ => none

end Pc

variable {ι : Type}

namespace Mem

/-- The ticket that a thread would get. -/
def visit (i : ι) (m : Mem ι) : Visit ι Unit := ⟨i, m.tickets.arrived, ()⟩

/-- `ck_pr_store_uint(&lock->slots[position].locked, true)`. -/
def lockSlot (position : Nat) (m : Mem ι) : Mem ι :=
  { m with lock := m.lock.setLocked position true, taken := true }

variable [DecidableEq ι]

/-- A thread takes a ticket. -/
def take (i : ι) (m : Mem ι) : Mem ι :=
  { m with
    lock := { m.lock with next := m.lock.succ m.lock.next }
    tickets := m.tickets.arrive i () }

/-- `ck_pr_store_uint(&lock->slots[position].locked, false)`. -/
def unlockSlot (t : Visit ι Unit) (position : Nat) (m : Mem ι) : Mem ι where
  lock := m.lock.setLocked position false
  tickets := m.tickets.leave t
  taken := false

end Mem

variable [DecidableEq ι]

/-- One access of thread `i`: `ck_spinlock_anderson_lock` and `ck_spinlock_anderson_unlock`
(`anderson.h:102-165`). -/
def act (i : ι) (m : Mem ι) : Pc ι → Mem ι × Pc ι
  | .lockNext =>
    if m.lock.wrap ≠ 0 then (m, .lockCas m.lock.next)
    else (m.take i, .lockLoad (m.visit i) (m.lock.slotOf m.lock.next))
  | .lockCas position =>
    if m.lock.next = position then (m.take i, .lockLoad (m.visit i) (m.lock.slotOf position))
    else (m, .lockCas m.lock.next)
  | .lockLoad t position =>
    (m, if (m.lock.slots position).locked = true then .lockLoad t position
      else .lockStore t position)
  | .lockStore t position => (m.lockSlot position, .inside t position)
  | .unlockStore t position =>
    (m.unlockSlot t (m.lock.slotAfter (m.lock.slots position).position), .idle)
  | pc => (m, pc)

/-- One step of thread `i`: it calls a function, or makes the next access of its call. -/
inductive Step (i : ι) : Mem ι → Pc ι → Mem ι → Pc ι → Prop
  | lock {m : Mem ι} : Step i m .idle m .lockNext
  | unlock {m : Mem ι} (t : Visit ι Unit) (position : Nat) :
    Step i m (.inside t position) m (.unlockStore t position)
  | act {m : Mem ι} {pc : Pc ι} : Step i m pc (act i m pc).1 (act i m pc).2

omit [DecidableEq ι] in
/-- At most `count` threads have the lock or wait for it. -/
def Few (_ : ι) (m : Mem ι) (_ : Pc ι) : Prop := m.tickets.present.card ≤ m.lock.count

omit [DecidableEq ι] in
instance (i : ι) (m : Mem ι) (pc : Pc ι) : Decidable (Few i m pc) :=
  inferInstanceAs (Decidable (_ ≤ _))

/-- A new lock with slots that have held anything, with all threads idle. -/
def start (ι : Type) (slots : Nat → Slot) (count : Nat) : Threads.System (Mem ι) (Pc ι) ι where
  mem := ⟨init slots count, .empty ι Unit, false⟩
  pc := fun _ => .idle

/-! ## Slots -/

/-- The lock has been made for `count` slots. -/
structure Lock.Made (count : Nat) (l : Lock) : Prop where
  count_eq : l.count = count
  wrap_eq : l.wrap = (init l.slots count).wrap
  mask_eq : l.mask = count - 1
  position : ∀ p < count, (l.slots p).position = p

section Slots

variable {count n p q : Nat} {l : Lock} {b : Bool}

/-- The number of slots is a power of two, or the counter skips some values when it wraps. -/
theorem Lock.Made.cases (hl : l.Made count) (hpos : 1 ≤ count) (hlt : count < 2 ^ 32) :
    (l.wrap = 0 ∧ ∃ k, k < 32 ∧ count = 2 ^ k) ∨ l.wrap = uintMax % count + 1 := by
  have hwrap := hl.wrap_eq
  simp only [init] at hwrap
  split at hwrap
  case isTrue => exact .inr hwrap
  case isFalse hand =>
    obtain ⟨k, hk⟩ := (Nat.and_sub_one_eq_zero_iff_isPowerOfTwo (by omega)).mp (not_not.mp hand)
    refine .inl ⟨hwrap, k, ?_, hk⟩
    rw [hk] at hlt
    exact (Nat.pow_lt_pow_iff_right (by decide)).mp hlt

/-- The slot of a value of the counter is its remainder. -/
theorem Lock.Made.slotOf_eq (hl : l.Made count) (hpos : 1 ≤ count) (hlt : count < 2 ^ 32)
    (n : Nat) : l.slotOf n = n % count := by
  rcases hl.cases hpos hlt with ⟨hwrap, k, -, rfl⟩ | hwrap
  · rw [Lock.slotOf, if_neg (not_not.mpr hwrap), hl.mask_eq, Nat.and_two_pow_sub_one_eq_mod]
  · rw [Lock.slotOf, if_pos (by omega), hl.count_eq]

/-- The slots are given back in a circle. -/
theorem Lock.Made.slotAfter_eq (hl : l.Made count) (hpos : 1 ≤ count) (hlt : count < 2 ^ 32)
    (p : Nat) : l.slotAfter p = (p + 1) % count := by
  rcases hl.cases hpos hlt with ⟨hwrap, k, -, rfl⟩ | hwrap
  · rw [Lock.slotAfter, if_pos hwrap, hl.mask_eq, Nat.and_two_pow_sub_one_eq_mod]
  · rw [Lock.slotAfter, if_neg (by omega), hl.count_eq]

/-- The counter goes on to the next slot, also where it wraps. -/
theorem Lock.Made.succ_mod (hl : l.Made count) (hpos : 1 ≤ count) (hlt : count < 2 ^ 32)
    (n : Nat) : l.succ n % count = (n + 1) % count := by
  rcases hl.cases hpos hlt with ⟨hwrap, k, hk, rfl⟩ | hwrap
  · rw [Lock.succ, if_neg (not_not.mpr hwrap)]
    exact Nat.mod_mod_of_dvd _ (Nat.pow_dvd_pow 2 hk.le)
  · rw [Lock.succ, if_pos (by omega)]
    split
    case isTrue hmax => rw [hwrap, hmax, Nat.mod_add_mod]
    case isFalse => rfl

theorem Lock.Made.setLocked (hl : l.Made count) (p : Nat) (b : Bool) :
    (l.setLocked p b).Made count where
  count_eq := hl.count_eq
  wrap_eq := hl.wrap_eq
  mask_eq := hl.mask_eq
  position q hq := by
    simp only [Lock.setLocked, Function.update_apply]
    split
    case isTrue heq => exact heq ▸ hl.position q hq
    case isFalse => exact hl.position q hq

theorem Lock.Made.setNext (hl : l.Made count) (n : Nat) :
    Lock.Made count { l with next := n } where
  count_eq := hl.count_eq
  wrap_eq := hl.wrap_eq
  mask_eq := hl.mask_eq
  position := hl.position

theorem locked_setLocked (l : Lock) (p q : Nat) (b : Bool) :
    ((l.setLocked p b).slots q).locked = if q = p then b else (l.slots q).locked := by
  simp only [Lock.setLocked, Function.update_apply]
  split <;> rfl

theorem made_init (slots : Nat → Slot) (count : Nat) : (init slots count).Made count where
  count_eq := rfl
  wrap_eq := rfl
  mask_eq := rfl
  position p hp := by simp [init, hp]

end Slots

/-! ## The invariant -/

omit [DecidableEq ι]

variable {count : Nat} {slots : Nat → Slot} {i j : ι} {m m' : Mem ι} {pc pc' : Pc ι}
  {t u : Visit ι Unit} {p : Nat}

/-- What the lock says about the tickets. -/
structure Inv (count : Nat) (m : Mem ι) : Prop where
  made : m.lock.Made count
  next : m.lock.next % count = m.tickets.arrived % count
  valid : m.tickets.Valid
  inOrder : m.tickets.InOrder
  unlocked : ∀ p < count,
    (m.lock.slots p).locked = false ↔ p = m.tickets.left % count ∧ m.taken = false

/-- What a thread knows about its ticket. -/
def Knows (count : Nat) (m : Mem ι) : Pc ι → Prop
  | .lockLoad t p => p = t.number % count
  | .lockStore t p => p = t.number % count ∧ t.number = m.tickets.left ∧ m.taken = false
  | .inside t p | .unlockStore t p =>
    p = t.number % count ∧ t.number = m.tickets.left ∧ m.taken = true
  | _ => True

/-- What is known about thread `i` from where it stands. -/
structure At (count : Nat) (i : ι) (m : Mem ι) (pc : Pc ι) : Prop where
  owns : m.tickets.Owns i pc.ticket
  knows : Knows count m pc

theorem inv_start : Inv count (start ι slots count).mem where
  made := made_init slots count
  next := rfl
  valid := .empty ι Unit
  inOrder := by simp [start, Visits.empty, Visits.InOrder]
  unlocked p hp := by simp [start, init, hp, Visits.empty]

theorem at_start : At count i (start ι slots count).mem .idle where
  owns := Visits.Owns.empty i
  knows := trivial

theorem At.mem (h : At count i m pc) (ht : pc.ticket = some t) :
    t ∈ m.tickets.present ∧ t.owner = i :=
  (h.owns t).mpr ht

/-- A thread that finds its slot unlocked has the oldest ticket. -/
theorem Inv.first (hinv : Inv count m) (hpos : 1 ≤ count)
    (hfew : m.tickets.present.card ≤ count ∨ m.taken = true) (ht : t ∈ m.tickets.present)
    (hunlocked : (m.lock.slots (t.number % count)).locked = false) :
    t.number = m.tickets.left ∧ m.taken = false := by
  obtain ⟨hmod, htaken⟩ := (hinv.unlocked _ (Nat.mod_lt _ hpos)).mp hunlocked
  have hfew := hfew.resolve_right (by rw [htaken]; exact Bool.false_ne_true)
  have hle := hinv.inOrder t ht
  have hlt := hinv.valid.lt t ht
  have hcard := hinv.valid.card
  exact ⟨(Threads.eq_of_mod_eq hle (by omega) hmod.symm).symm, htaken⟩

/-- What a step has to leave as it is for another thread. -/
theorem At.frame (h : At count j m pc) (howns : m'.tickets.Owns j pc.ticket)
    (hfirst : ∀ t, t ∈ m.tickets.present → t.owner = j → t.number = m.tickets.left →
      t.number = m'.tickets.left ∧ m'.taken = m.taken) : At count j m' pc where
  owns := howns
  knows := by
    have hknows := h.knows
    cases pc with
    | idle | lockNext | lockCas | lockLoad => exact hknows
    | lockStore t p | inside t p | unlockStore t p =>
      obtain ⟨hp, hleft, htaken⟩ := hknows
      obtain ⟨hmem, hj⟩ := h.mem rfl
      obtain ⟨hleft', htaken'⟩ := hfirst t hmem hj hleft
      exact ⟨hp, hleft', htaken'.trans htaken⟩

/-! ## Steps -/

theorem Inv.lockSlot (hinv : Inv count m) (hp : p = m.tickets.left % count) :
    Inv count (m.lockSlot p) where
  made := hinv.made.setLocked p true
  next := hinv.next
  valid := hinv.valid
  inOrder := hinv.inOrder
  unlocked q hq := by
    refine iff_of_false (fun hunlocked => ?_) fun h => Bool.noConfusion h.2
    simp only [Mem.lockSlot, locked_setLocked] at hunlocked
    split at hunlocked
    case isTrue => exact Bool.noConfusion hunlocked
    case isFalse hne => exact hne (((hinv.unlocked q hq).mp hunlocked).1.trans hp.symm)

/-- There is only one oldest ticket. -/
theorem Inv.first_unique (hinv : Inv count m) (ht : t ∈ m.tickets.present)
    (hfirst : t.number = m.tickets.left) (hu : u ∈ m.tickets.present)
    (hfirst' : u.number = m.tickets.left) : t.owner = u.owner :=
  congrArg Visit.owner (hinv.valid.unique t ht u hu (hfirst.trans hfirst'.symm))

theorem At.other_lockSlot (hinv : Inv count m) (hj : j ≠ t.owner) (ht : t ∈ m.tickets.present)
    (hfirst : t.number = m.tickets.left) (h : At count j m pc) : At count j (m.lockSlot p) pc :=
  h.frame h.owns fun _ hu huj hfirst' =>
    absurd (huj.symm.trans (hinv.first_unique ht hfirst hu hfirst').symm) hj

/-- A thread that makes a step without a store. -/
theorem At.stay (h : At count i m pc) (hpc : pc'.ticket = pc.ticket) (hknows : Knows count m pc') :
    At count i m pc' where
  owns := hpc ▸ h.owns
  knows := hknows

section Steps

variable [DecidableEq ι]

theorem Inv.take (hinv : Inv count m) (hpos : 1 ≤ count) (hlt : count < 2 ^ 32) :
    Inv count (m.take i) where
  made := hinv.made.setNext _
  next := by
    simp only [Mem.take, Visits.arrive]
    rw [hinv.made.succ_mod hpos hlt, ← Nat.mod_add_mod, hinv.next, Nat.mod_add_mod]
  valid := hinv.valid.arrive
  inOrder := hinv.inOrder.arrive hinv.valid
  unlocked := hinv.unlocked

theorem Inv.unlockSlot (hinv : Inv count m) (hpos : 1 ≤ count) (hlt : count < 2 ^ 32)
    (ht : t ∈ m.tickets.present) (hfirst : t.number = m.tickets.left) (htaken : m.taken = true)
    (hp : p = t.number % count) :
    Inv count (m.unlockSlot t (m.lock.slotAfter (m.lock.slots p).position)) where
  made := hinv.made.setLocked _ false
  next := hinv.next
  valid := hinv.valid.leave ht
  inOrder := hinv.inOrder.leave hinv.valid ht hfirst
  unlocked q hq := by
    have hposition := hinv.made.position p (hp ▸ Nat.mod_lt _ hpos)
    have hafter : (p + 1) % count = (m.tickets.left + 1) % count := by
      rw [hp, hfirst, Nat.mod_add_mod]
    simp only [Mem.unlockSlot, locked_setLocked, Visits.leave, and_true]
    rw [hposition, hinv.made.slotAfter_eq hpos hlt, hafter]
    split
    case isTrue heq => exact iff_of_true rfl heq
    case isFalse hne =>
      refine iff_of_false (fun hunlocked => ?_) hne
      rw [((hinv.unlocked q hq).mp hunlocked).2] at htaken
      exact Bool.noConfusion htaken

theorem At.other_take (hj : j ≠ i) (h : At count j m pc) : At count j (m.take i) pc :=
  h.frame (h.owns.arrive_other hj) fun _ _ _ heq => ⟨heq, rfl⟩

theorem At.other_unlockSlot (hinv : Inv count m) (hj : j ≠ t.owner) (ht : t ∈ m.tickets.present)
    (hfirst : t.number = m.tickets.left) (h : At count j m pc) :
    At count j (m.unlockSlot t p) pc :=
  h.frame (h.owns.leave_other hj.symm) fun _ hu huj hfirst' =>
    absurd (huj.symm.trans (hinv.first_unique ht hfirst hu hfirst').symm) hj

/-- A thread that takes a ticket goes on to the slot that it stands for. -/
theorem At.taken (hinv : Inv count m) (hpos : 1 ≤ count) (hlt : count < 2 ^ 32)
    (h : At count i m pc) (hpc : pc.ticket = none) :
    At count i (m.take i) (.lockLoad (m.visit i) (m.lock.slotOf m.lock.next)) where
  owns := by
    have howns := h.owns
    rw [hpc] at howns
    exact howns.arrive
  knows := (hinv.made.slotOf_eq hpos hlt _).trans hinv.next

theorem step_own (hpos : 1 ≤ count) (hlt : count < 2 ^ 32)
    (hfew : m.tickets.present.card ≤ count ∨ m.taken = true) (hinv : Inv count m)
    (h : At count i m pc) :
    Inv count (act i m pc).1 ∧ At count i (act i m pc).1 (act i m pc).2 := by
  have hknows := h.knows
  cases pc with
  | idle | inside => exact ⟨hinv, h⟩
  | lockNext =>
    simp only [act]
    split
    case isTrue => exact ⟨hinv, h.stay rfl trivial⟩
    case isFalse => exact ⟨hinv.take hpos hlt, h.taken hinv hpos hlt rfl⟩
  | lockCas position =>
    simp only [act]
    split
    case isTrue heq =>
      subst heq
      exact ⟨hinv.take hpos hlt, h.taken hinv hpos hlt rfl⟩
    case isFalse => exact ⟨hinv, h.stay rfl trivial⟩
  | lockLoad t p =>
    simp only [act]
    refine ⟨hinv, ?_⟩
    split
    case isTrue => exact h
    case isFalse hunlocked =>
      have hmem := (h.mem rfl).1
      rw [Bool.not_eq_true, show p = t.number % count from hknows] at hunlocked
      exact h.stay rfl ⟨hknows, hinv.first hpos hfew hmem hunlocked⟩
  | lockStore t p =>
    obtain ⟨hp, hfirst, htaken⟩ := hknows
    exact ⟨hinv.lockSlot (hfirst ▸ hp), h.owns, hp, hfirst, rfl⟩
  | unlockStore t p =>
    obtain ⟨hp, hfirst, htaken⟩ := hknows
    have hmem := (h.mem rfl).1
    exact ⟨hinv.unlockSlot hpos hlt hmem hfirst htaken hp, h.owns.leave, trivial⟩

theorem step_other (hinv : Inv count m) (h : At count i m pc) (hj : j ≠ i)
    (hother : At count j m pc') : At count j (act i m pc).1 pc' := by
  have hknows := h.knows
  cases pc with
  | idle | inside | lockLoad => exact hother
  | lockNext =>
    simp only [act]
    split
    case isTrue => exact hother
    case isFalse => exact hother.other_take hj
  | lockCas position =>
    simp only [act]
    split
    case isTrue => exact hother.other_take hj
    case isFalse => exact hother
  | lockStore t p =>
    obtain ⟨hmem, howner⟩ := h.mem rfl
    exact hother.other_lockSlot hinv (howner ▸ hj) hmem hknows.2.1
  | unlockStore t p =>
    obtain ⟨hmem, howner⟩ := h.mem rfl
    exact hother.other_unlockSlot hinv (howner ▸ hj) hmem hknows.2.1

theorem Step.own (hpos : 1 ≤ count) (hlt : count < 2 ^ 32) (hstep : Step i m pc m' pc')
    (hfew : m.tickets.present.card ≤ count ∨ m.taken = true) (hinv : Inv count m)
    (h : At count i m pc) : Inv count m' ∧ At count i m' pc' := by
  cases hstep with
  | lock => exact ⟨hinv, h.stay rfl trivial⟩
  | unlock t position => exact ⟨hinv, h.stay rfl h.knows⟩
  | act => exact step_own hpos hlt hfew hinv h

theorem Step.other (hstep : Step i m pc m' pc') (hinv : Inv count m) (h : At count i m pc)
    (hj : j ≠ i) {q : Pc ι} (hother : At count j m q) : At count j m' q := by
  cases hstep with
  | lock | unlock => exact hother
  | act => exact step_other hinv h hj hother

theorem invariant (hpos : 1 ≤ count) (hlt : count < 2 ^ 32) :
    Threads.Invariant (Step (ι := ι)) Few (Inv count) (At count) where
  own hstep hfew hinv h := hstep.own hpos hlt (.inl (hinv.made.count_eq ▸ hfew)) hinv h
  other hstep _ hinv h _ _ hj hother := hstep.other hinv h hj hother

end Steps

/-! ## Every run -/

theorem Pc.ticket_of_held (h : pc.held = some t) : pc.ticket = some t := by
  cases pc <;> first | exact h | exact absurd h.symm (Option.some_ne_none t)

theorem At.held (h : At count i m pc) (ht : pc.held = some t) : t.number = m.tickets.left := by
  have hknows := h.knows
  cases pc with
  | inside u p | unlockStore u p =>
    obtain rfl : u = t := Option.some.inj ht
    exact hknows.2.1
  | idle | lockNext | lockCas | lockLoad | lockStore => exact absurd ht.symm (Option.some_ne_none t)

theorem At.slot (h : At count i m pc) (ht : pc.ticket = some t) :
    pc.slot = some (t.number % count) := by
  have hknows := h.knows
  cases pc with
  | lockLoad u p =>
    obtain rfl : u = t := Option.some.inj ht
    exact congrArg some hknows
  | lockStore u p | inside u p | unlockStore u p =>
    obtain rfl : u = t := Option.some.inj ht
    exact congrArg some hknows.1
  | idle | lockNext | lockCas => exact absurd ht.symm (Option.some_ne_none t)

variable [DecidableEq ι]

/-- Whoever has the lock has the oldest ticket that is out, so that the lock is given to one thread
at a time and in the order of the tickets. The tickets stand for the slots in a circle, and at most
one slot is not locked. -/
theorem anderson_in_order (hpos : 1 ≤ count) (hlt : count < 2 ^ 32)
    {s : Threads.System (Mem ι) (Pc ι) ι}
    (hr : Threads.System.Reachable Step Few (start ι slots count) s) :
    (∀ i j t u, i ≠ j → (s.pc i).held = some t → (s.pc j).ticket = some u → t.number < u.number) ∧
      (∀ i t, (s.pc i).held = some t → t.number = s.mem.tickets.left) ∧
      (∀ i t, (s.pc i).ticket = some t → (s.pc i).slot = some (t.number % count)) ∧
      ∀ p < count, ∀ q < count, (s.mem.lock.slots p).locked = false →
        (s.mem.lock.slots q).locked = false → p = q := by
  have hfew : ∀ i, Few i (start ι slots count).mem ((start ι slots count).pc i) := by
    simp [Few, start, Visits.empty]
  obtain ⟨hinv, hall⟩ :=
    (invariant hpos hlt).reachable hr hfew inv_start fun _ => at_start
  have hat := fun i => (hall i).2
  refine ⟨fun i j t u hij hi hj => ?_, fun i t => (hat i).held, fun i t => (hat i).slot,
    fun p hp q hq hp' hq' => ?_⟩
  · obtain ⟨ht, hti⟩ := (hat i).mem (Pc.ticket_of_held hi)
    obtain ⟨hu, huj⟩ := (hat j).mem hj
    refine hinv.inOrder.lt hinv.valid ht ((hat i).held hi) hu ?_
    rwa [hti, huj]
  · exact ((hinv.unlocked p hp).mp hp').1.trans ((hinv.unlocked q hq).mp hq').1.symm

/-- A run in which a thread makes `n` more accesses. -/
theorem acts_reachable {s₀ s : Threads.System (Mem ι) (Pc ι) ι}
    (hr : Threads.System.Reachable Step Few s₀ s) (i : ι) (n : Nat)
    (good : ∀ k < n + 1, ∀ j, Few j (s.acts act i k).mem ((s.acts act i k).pc j)) :
    Threads.System.Reachable Step Few s₀ (s.acts act i n) :=
  hr.acts i n (fun _ _ _ _ _ _ => .inr .act) good

/-- A thread with the first one of three slots, and one that waits at the second one. -/
theorem anderson_in_order_waiting : ∃ s : Threads.System (Mem Bool) (Pc Bool) Bool,
    s.pc true = .inside ⟨true, 0, ()⟩ 0 ∧ s.pc false = .lockLoad ⟨false, 1, ()⟩ 1 ∧
      (∀ i j t u, i ≠ j → (s.pc i).held = some t → (s.pc j).ticket = some u →
        t.number < u.number) ∧
      (∀ i t, (s.pc i).held = some t → t.number = s.mem.tickets.left) ∧
      (∀ i t, (s.pc i).ticket = some t → (s.pc i).slot = some (t.number % 3)) ∧
      ∀ p < 3, ∀ q < 3, (s.mem.lock.slots p).locked = false →
        (s.mem.lock.slots q).locked = false → p = q := by
  have h₀ : Threads.System.Reachable Step Few (start Bool (fun _ => ⟨false, 0⟩) 3)
      (start Bool (fun _ => ⟨false, 0⟩) 3) := .refl
  have h₁ := h₀.call true .lock (by decide +kernel)
  have h₂ := acts_reachable h₁ true 4 (by decide +kernel)
  have h₃ := h₂.call false .lock (by decide +kernel)
  have h₄ := acts_reachable h₃ false 3 (by decide +kernel)
  exact ⟨_, by decide +kernel, by decide +kernel, anderson_in_order (by decide) (by decide) h₄⟩

end ConcurrencyKit.Spinlock.Anderson
