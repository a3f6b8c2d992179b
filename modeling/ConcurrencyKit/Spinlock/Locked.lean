import ConcurrencyKit.Misc.Serial
import ConcurrencyKit.Spinlock.Anderson

/-!
# Whether an array lock is locked

`ck_spinlock_anderson_locked` looks at the slot that the counter stands for. It finds it with the
mask whatever the number of slots is, while the other functions take the remainder where the number
is not a power of two. The two are the same slot for some values of the counter only.

Threads take turns here, and a thread that waits for the lock has its turn until it gets the lock.
-/

namespace ConcurrencyKit.Spinlock.Anderson

open Threads (System)
open Visits (Visit)

namespace Lock

/-- `ck_spinlock_anderson_locked` (`anderson.h:90-100`). -/
def locked (l : Lock) : Bool :=
  (l.slots (l.next &&& l.mask)).locked

end Lock

/-- The thread is not in a call. -/
def Pc.Resting {ι : Type} : Pc ι → Prop
  | .idle | .inside _ _ => True
  | _ => False

variable {ι : Type} {count : Nat} {slots : Nat → Slot} {i j : ι} {m : Mem ι} {pc : Pc ι}
  {t : Visit ι Unit}

/-- Some thread has the lock. -/
def Held (s : System (Mem ι) (Pc ι) ι) : Prop := ∃ i t, (s.pc i).held = some t

/-- What holds between the turns and, apart from the rest of the threads, during a turn. -/
structure Turning (count : Nat) (s : System (Mem ι) (Pc ι) ι) : Prop where
  inv : Inv count s.mem
  all : ∀ i, At count i s.mem (s.pc i)
  held : s.mem.taken = true → Held s

theorem Pc.Resting.ticket (h : pc.Resting) : pc.ticket = pc.held := by
  cases pc with
  | idle | inside => rfl
  | lockNext | lockCas | lockLoad | lockStore | unlockStore => exact False.elim h

/-- While the other threads rest, at most one thread has a ticket, or the lock is taken. -/
theorem Turning.few {s : System (Mem ι) (Pc ι) ι} (h : Turning count s) (hpos : 1 ≤ count)
    (hrest : ∀ j, j ≠ i → (s.pc j).Resting) :
    s.mem.tickets.present.card ≤ count ∨ s.mem.taken = true := by
  by_cases htaken : s.mem.taken = true
  · exact .inr htaken
  · refine .inl ((Finset.card_le_one.mpr ?_).trans hpos)
    have hown : ∀ t ∈ s.mem.tickets.present, (s.pc i).ticket = some t := by
      intro t ht
      have hticket := ((h.all t.owner).owns t).mp ⟨ht, rfl⟩
      by_cases howner : t.owner = i
      · rwa [howner] at hticket
      · -- another thread with a ticket would have the lock
        exfalso
        have hheld := (hrest _ howner).ticket.symm.trans hticket
        have hknows := (h.all t.owner).knows
        cases hpc : s.pc t.owner with
        | inside u p =>
          rw [hpc] at hknows
          exact htaken hknows.2.2
        | unlockStore u p =>
          rw [hpc] at hknows
          exact htaken hknows.2.2
        | idle | lockNext | lockCas | lockLoad | lockStore =>
          rw [hpc] at hheld
          exact Option.some_ne_none t hheld.symm
    intro t ht u hu
    exact Option.some.inj ((hown t ht).symm.trans (hown u hu))

theorem Turning.taken_iff {s : System (Mem ι) (Pc ι) ι} (h : Turning count s) :
    s.mem.taken = true ↔ Held s := by
  refine ⟨h.held, ?_⟩
  rintro ⟨i, t, ht⟩
  have hknows := (h.all i).knows
  cases hpc : s.pc i with
  | inside u p | unlockStore u p =>
    rw [hpc] at hknows
    exact hknows.2.2
  | idle | lockNext | lockCas | lockLoad | lockStore =>
    rw [hpc] at ht
    exact absurd ht.symm (Option.some_ne_none t)

/-- When no thread has the lock, all tickets have been given back. -/
theorem Turning.arrived_eq {s : System (Mem ι) (Pc ι) ι} (h : Turning count s)
    (hrest : ∀ i, (s.pc i).Resting) (hfree : ¬ Held s) :
    s.mem.tickets.arrived = s.mem.tickets.left := by
  have hnone : s.mem.tickets.present = ∅ := by
    refine Finset.eq_empty_of_forall_notMem fun t ht => hfree ⟨t.owner, t, ?_⟩
    rw [← (hrest t.owner).ticket]
    exact ((h.all t.owner).owns t).mp ⟨ht, rfl⟩
  have hcard := h.inv.valid.card
  rw [hnone, Finset.card_empty] at hcard
  exact hcard.symm

/-- All slots are locked while a thread has the lock, and otherwise all but the one that the
counter stands for. -/
theorem Turning.locked_iff {s : System (Mem ι) (Pc ι) ι} (h : Turning count s)
    (hrest : ∀ i, (s.pc i).Resting) {p : Nat} (hp : p < count) :
    (s.mem.lock.slots p).locked = true ↔ Held s ∨ p ≠ s.mem.lock.next % count := by
  rw [← Bool.not_eq_false, (h.inv.unlocked p hp), h.inv.next, ← h.taken_iff]
  by_cases hfree : s.mem.taken = true
  · rw [hfree]
    exact iff_of_true (fun hne => Bool.noConfusion hne.2) (.inl rfl)
  · rw [h.arrived_eq hrest (mt h.taken_iff.mpr hfree), Bool.not_eq_true] at *
    simp [hfree]

/-- The queried slot is the one that the counter stands for, or it does not matter which one it
is. -/
theorem Turning.exact_iff {s : System (Mem ι) (Pc ι) ι} (hpos : 1 ≤ count) (h : Turning count s)
    (hrest : ∀ i, (s.pc i).Resting) :
    (s.mem.lock.locked = true ↔ Held s) ↔
      Held s ∨ s.mem.lock.next &&& (count - 1) = s.mem.lock.next % count := by
  have hmask : s.mem.lock.next &&& (count - 1) < count :=
    Nat.lt_of_le_of_lt Nat.and_le_right (by omega)
  rw [Lock.locked, h.inv.made.mask_eq, h.locked_iff hrest hmask]
  by_cases hheld : Held s
  · exact iff_of_true (iff_of_true (.inl hheld) hheld) (.inl hheld)
  · simp only [hheld, false_or, iff_false, not_not]

variable [DecidableEq ι]

theorem Held.update {s : System (Mem ι) (Pc ι) ι} (h : Held s) {mem : Mem ι} {p : Pc ι}
    (hp : (s.pc i).held ≠ none → p.held ≠ none) :
    Held (ι := ι) ⟨mem, Function.update s.pc i p⟩ := by
  obtain ⟨j, t, hj⟩ := h
  by_cases hji : j = i
  · subst hji
    obtain ⟨u, hu⟩ := Option.ne_none_iff_exists'.mp (hp (hj ▸ Option.some_ne_none t))
    exact ⟨j, u, by simpa using hu⟩
  · exact ⟨j, t, by simpa [Function.update_of_ne hji] using hj⟩

/-- A step leaves the lock taken only if a thread has it. -/
theorem step_held {s : System (Mem ι) (Pc ι) ι} (h : s.mem.taken = true → Held s) {mem : Mem ι}
    {p : Pc ι} (hstep : Step i s.mem (s.pc i) mem p) (htaken : mem.taken = true) :
    Held (ι := ι) ⟨mem, Function.update s.pc i p⟩ := by
  generalize hpc : s.pc i = pc at hstep
  cases hstep with
  | lock => exact (h htaken).update (by rw [hpc]; exact fun hne => absurd rfl hne)
  | unlock t p => exact (h htaken).update fun _ => Option.some_ne_none t
  | act =>
    cases pc with
    | idle | inside => exact (h htaken).update (by rw [hpc]; exact id)
    | lockLoad t p => exact (h htaken).update (by rw [hpc]; exact fun hne => absurd rfl hne)
    | lockNext | lockCas =>
      refine (h ?_).update (by rw [hpc]; exact fun hne => absurd rfl hne)
      simp only [act] at htaken
      split at htaken <;> exact htaken
    | lockStore t p => exact ⟨i, t, by simp only [Function.update_self]; rfl⟩
    | unlockStore t p => cases htaken

/-- A step of the thread whose turn it is. -/
theorem Turning.step {s : System (Mem ι) (Pc ι) ι} (hpos : 1 ≤ count) (hlt : count < 2 ^ 32)
    (h : Turning count s) (hrest : ∀ j, j ≠ i → (s.pc j).Resting) {mem : Mem ι} {p : Pc ι}
    (hstep : Step i s.mem (s.pc i) mem p) :
    Turning (ι := ι) count ⟨mem, Function.update s.pc i p⟩ := by
  have hown := hstep.own hpos hlt (h.few hpos hrest) h.inv (h.all i)
  refine ⟨hown.1, fun j => ?_, step_held h.held hstep⟩
  by_cases hj : j = i
  · subst hj
    simpa using hown.2
  · simpa [Function.update_of_ne hj] using hstep.other h.inv (h.all i) hj (h.all j)

/-- The threads take turns, and rest in between. -/
theorem serial_turning (hpos : 1 ≤ count) (hlt : count < 2 ^ 32) {s : System (Mem ι) (Pc ι) ι}
    (hr : System.Serial Step Pc.Resting (start ι slots count) s) :
    (∀ i, (s.pc i).Resting) ∧ Turning count s := by
  refine hr.induction (R := fun s => (∀ i, (s.pc i).Resting) ∧ Turning count s)
    (Q := fun i s => (∀ j, j ≠ i → (s.pc j).Resting) ∧ Turning count s)
    ?begins ?moves ?ends ?start
  case begins => exact fun i s h => ⟨fun j _ => h.1 j, h.2⟩
  case moves =>
    intro i s h mem p hstep
    refine ⟨fun j hj => ?_, h.2.step hpos hlt h.1 hstep⟩
    simpa [Function.update_of_ne hj] using h.1 j hj
  case ends =>
    intro i s h hi
    refine ⟨fun j => ?_, h.2⟩
    by_cases hj : j = i
    · exact hj ▸ hi
    · exact h.1 j hj
  case start =>
    exact ⟨fun _ => trivial, inv_start, fun _ => at_start, fun h => absurd h Bool.false_ne_true⟩

/-- With a power of two of slots the answer is right between all turns. -/
theorem locked_powerOfTwo {k : Nat} (hk : k < 32) {s : System (Mem ι) (Pc ι) ι}
    (hr : System.Serial Step Pc.Resting (start ι slots (2 ^ k)) s) :
    s.mem.lock.locked = true ↔ Held s := by
  have hpos : 1 ≤ 2 ^ k := Nat.one_le_two_pow
  obtain ⟨hrest, h⟩ := serial_turning hpos (Nat.pow_lt_pow_right (by omega) hk) hr
  exact (h.exact_iff hpos hrest).mpr (.inr (Nat.and_two_pow_sub_one_eq_mod _ k))

/-- Where threads take turns, `ck_spinlock_anderson_locked` tells in between whether some thread has
the lock exactly if one has, or the mask finds the slot that the next ticket stands for. -/
theorem locked_exact_iff (hpos : 1 ≤ count) (hlt : count < 2 ^ 32) {s : System (Mem ι) (Pc ι) ι}
    (hr : System.Serial Step Pc.Resting (start ι slots count) s) :
    (s.mem.lock.locked = true ↔ Held s) ↔
      Held s ∨ s.mem.lock.next &&& (count - 1) = s.mem.lock.next % count := by
  obtain ⟨hrest, h⟩ := serial_turning hpos hlt hr
  exact h.exact_iff hpos hrest

/-- A lock of three slots that thread `true` has got. -/
def lockedOnce : System (Mem Bool) (Pc Bool) Bool :=
  ((start Bool (fun _ => ⟨false, 0⟩) 3).call true .lockNext).acts act true 4

/-- The same lock after it has been given back. -/
def unlockedOnce : System (Mem Bool) (Pc Bool) Bool :=
  (lockedOnce.call true (.unlockStore ⟨true, 0, ()⟩ 0)).acts act true 1

theorem serial_lockedOnce :
    System.Serial Step Pc.Resting (start Bool (fun _ => ⟨false, 0⟩) 3) lockedOnce :=
  .single (.mk true (.head (.mk .lock) (System.moves_acts fun _ _ => .act)) trivial)

theorem serial_unlockedOnce :
    System.Serial Step Pc.Resting (start Bool (fun _ => ⟨false, 0⟩) 3) unlockedOnce :=
  .tail serial_lockedOnce
    (.mk true (.head (.mk (.unlock _ _)) (System.moves_acts fun _ _ => .act)) trivial)

theorem locked_exact_iff_held : lockedOnce.mem.lock.locked = true ∧ Held lockedOnce := by
  have hheld : Held lockedOnce := ⟨true, ⟨true, 0, ()⟩, by decide +kernel⟩
  exact ⟨((locked_exact_iff (by decide) (by decide) serial_lockedOnce).mpr (.inl hheld)).mpr hheld,
    hheld⟩

/-- The counter stands for the second slot, and the mask finds the first one. -/
theorem locked_not_held : ∃ s : System (Mem Bool) (Pc Bool) Bool,
    System.Serial Step Pc.Resting (start Bool (fun _ => ⟨false, 0⟩) 3) s ∧
      s.mem.lock.locked = true ∧ ¬ Held s := by
  refine ⟨unlockedOnce, serial_unlockedOnce, by decide +kernel, ?_⟩
  have hidle : ∀ i, (unlockedOnce.pc i).held = none := by decide +kernel
  rintro ⟨i, t, ht⟩
  rw [hidle i] at ht
  cases ht

end ConcurrencyKit.Spinlock.Anderson
