import ConcurrencyKit.Misc.Packed
import ConcurrencyKit.Misc.Threads
import ConcurrencyKit.Misc.Visits

/-!
# The task-fair locks of `ck_tflock`

The functions of `include/ck_tflock.h`, one access at a time, for any number of threads. A request
takes a ticket, which is the word `request` before it has added itself, and waits until the word
`completion` says that all conflicting requests before it have been completed: a writer compares
both counters, a reader the one of the writers.

The two counters of a word are 16 bits wide. The upper bit of a counter is cleared before one is
added, so that it never carries into its neighbour.

Next to the words a `Mem` keeps the outstanding requests. The note of a reader is the number of the
writers that have come before it, and the other way round.
-/

namespace ConcurrencyKit.Tflock

open Visits (Visit)

/-- `CK_TFLOCK_TICKET_RC_INCR`. -/
def rcIncr : Nat := 0x10000

/-- `CK_TFLOCK_TICKET_WC_INCR`. -/
def wcIncr : Nat := 0x1

/-- `CK_TFLOCK_TICKET_W_MASK`. -/
def wMask : Nat := 0xffff

/-- `CK_TFLOCK_TICKET_WC_TOPMSK`. -/
def wcTopmsk : Nat := 0x8000

/-- `CK_TFLOCK_TICKET_RC_TOPMSK`. -/
def rcTopmsk : Nat := 0x80000000

/-- The value that `ck_tflock_ticket_fca_32` stores in place of `snapshot`
(`ck_tflock.h:55-70`). -/
def fca (snapshot mask delta : Nat) : Nat :=
  ((snapshot &&& ((2 ^ 32 - 1) ^^^ mask)) + delta) % 2 ^ 32

/-- A lock and its outstanding requests. -/
structure Mem (ι : Type) where
  readers : Visits ι Nat
  writers : Visits ι Nat
  request : Nat
  completion : Nat

/-- Where a thread stands. A thread with a ticket keeps it as `t`, and the word that it has found as
`previous`. -/
inductive Pc (ι : Type) where
  | idle
  | reading (t : Visit ι Nat)
  | writing (t : Visit ι Nat)
  /-- `ck_tflock_ticket_write_lock`. -/
  | writeLoad
  | writeCas (snapshot : Nat)
  | writeWait (t : Visit ι Nat) (previous : Nat)
  /-- `ck_tflock_ticket_write_unlock`. -/
  | writeDoneLoad (t : Visit ι Nat)
  | writeDoneCas (t : Visit ι Nat) (snapshot : Nat)
  /-- `ck_tflock_ticket_read_lock`. -/
  | readLoad
  | readCas (snapshot : Nat)
  | readWait (t : Visit ι Nat) (previous : Nat)
  /-- `ck_tflock_ticket_read_unlock`. -/
  | readDoneLoad (t : Visit ι Nat)
  | readDoneCas (t : Visit ι Nat) (snapshot : Nat)
  deriving DecidableEq

namespace Pc

variable {ι : Type}

/-- The ticket of an outstanding request of a reader. -/
def readTicket : Pc ι → Option (Visit ι Nat)
  | reading t | readWait t _ | readDoneLoad t | readDoneCas t _ => some t
  | _ => none

/-- The ticket of an outstanding request of a writer. -/
def writeTicket : Pc ι → Option (Visit ι Nat)
  | writing t | writeWait t _ | writeDoneLoad t | writeDoneCas t _ => some t
  | _ => none

end Pc

variable {ι : Type}

namespace Mem

/-- The ticket that a reader would get. -/
def readVisit (i : ι) (m : Mem ι) : Visit ι Nat := ⟨i, m.readers.arrived, m.writers.arrived⟩

/-- The ticket that a writer would get. -/
def writeVisit (i : ι) (m : Mem ι) : Visit ι Nat := ⟨i, m.writers.arrived, m.readers.arrived⟩

variable [DecidableEq ι]

/-- A reader takes a ticket. -/
def readRequest (i : ι) (m : Mem ι) : Mem ι :=
  { m with
    request := fca m.request rcTopmsk rcIncr
    readers := m.readers.arrive i m.writers.arrived }

/-- A writer takes a ticket. -/
def writeRequest (i : ι) (m : Mem ι) : Mem ι :=
  { m with
    request := fca m.request wcTopmsk wcIncr
    writers := m.writers.arrive i m.readers.arrived }

/-- The request of a reader is completed. -/
def readDone (t : Visit ι Nat) (m : Mem ι) : Mem ι :=
  { m with completion := fca m.completion rcTopmsk rcIncr, readers := m.readers.leave t }

/-- The request of a writer is completed. -/
def writeDone (t : Visit ι Nat) (m : Mem ι) : Mem ι :=
  { m with completion := fca m.completion wcTopmsk wcIncr, writers := m.writers.leave t }

end Mem

variable [DecidableEq ι]

/-- One access of thread `i`: `ck_tflock_ticket_write_lock`, `ck_tflock_ticket_write_unlock`,
`ck_tflock_ticket_read_lock` and `ck_tflock_ticket_read_unlock` (`ck_tflock.h:81-134`). -/
def act (i : ι) (m : Mem ι) : Pc ι → Mem ι × Pc ι
  | .writeLoad => (m, .writeCas m.request)
  | .writeCas snapshot =>
    if m.request = snapshot then (m.writeRequest i, .writeWait (m.writeVisit i) snapshot)
    else (m, .writeCas m.request)
  | .writeWait t previous =>
    (m, if m.completion ≠ previous then .writeWait t previous else .writing t)
  | .writeDoneLoad t => (m, .writeDoneCas t m.completion)
  | .writeDoneCas t snapshot =>
    if m.completion = snapshot then (m.writeDone t, .idle)
    else (m, .writeDoneCas t m.completion)
  | .readLoad => (m, .readCas m.request)
  | .readCas snapshot =>
    if m.request = snapshot then
      (m.readRequest i, .readWait (m.readVisit i) (snapshot &&& wMask))
    else (m, .readCas m.request)
  | .readWait t previous =>
    (m, if m.completion &&& wMask ≠ previous then .readWait t previous else .reading t)
  | .readDoneLoad t => (m, .readDoneCas t m.completion)
  | .readDoneCas t snapshot =>
    if m.completion = snapshot then (m.readDone t, .idle)
    else (m, .readDoneCas t m.completion)
  | pc => (m, pc)

/-- One step of thread `i`: it calls a function, or makes the next access of its call. -/
inductive Step (i : ι) : Mem ι → Pc ι → Mem ι → Pc ι → Prop
  | writeLock {m : Mem ι} : Step i m .idle m .writeLoad
  | writeUnlock {m : Mem ι} (t : Visit ι Nat) : Step i m (.writing t) m (.writeDoneLoad t)
  | readLock {m : Mem ι} : Step i m .idle m .readLoad
  | readUnlock {m : Mem ι} (t : Visit ι Nat) : Step i m (.reading t) m (.readDoneLoad t)
  | act {m : Mem ι} {pc : Pc ι} : Step i m pc (act i m pc).1 (act i m pc).2

/-- Fewer than `0x8000` read requests and fewer than `0x8000` write requests are outstanding. -/
def Few (_ : ι) (m : Mem ι) (_ : Pc ι) : Prop :=
  m.readers.present.card < 0x8000 ∧ m.writers.present.card < 0x8000

omit [DecidableEq ι] in
instance (i : ι) (m : Mem ι) (pc : Pc ι) : Decidable (Few i m pc) :=
  inferInstanceAs (Decidable (_ ∧ _))

/-- A new lock, with all threads idle. -/
def start (ι : Type) : Threads.System (Mem ι) (Pc ι) ι where
  mem := ⟨.empty ι Nat, .empty ι Nat, 0, 0⟩
  pc := fun _ => .idle

end ConcurrencyKit.Tflock
