import ConcurrencyKit.Misc.Packed
import ConcurrencyKit.Misc.Threads
import ConcurrencyKit.Misc.Visits

/-!
# The phase-fair locks of `ck_pflock`

The functions of `include/ck_pflock.h`, one access at a time, for any number of threads. Writers
take tickets. The one whose turn it is announces itself in the lower bits of `rin`, with a bit that
is another one for the next writer, and waits until `rout` says that all readers which came before
that have left. A reader that finds a writer announced waits until these bits change.

Next to the words a `Mem` keeps who has come and not left, what has become of the writer whose turn
it is, and how many write sections there were. The note of a reader is the number of the writer that
it has found announced.
-/

namespace ConcurrencyKit.Pflock

open Visits (Visit)

/-- `CK_PFLOCK_LSB`. -/
def lsb : Nat := 0xFFFFFFF0

/-- `CK_PFLOCK_RINC`. -/
def rinc : Nat := 0x100

/-- `CK_PFLOCK_WBITS`. -/
def wbits : Nat := 0x3

/-- `CK_PFLOCK_PRES`. -/
def pres : Nat := 0x2

/-- `CK_PFLOCK_PHID`. -/
def phid : Nat := 0x1

/-- How far the writer has got whose turn it is. -/
inductive Phase where
  /-- It has not announced itself. -/
  | quiet
  /-- It has announced itself after so many readers. -/
  | announced (n : Nat)
  /-- It has taken back the announcement. -/
  | cleared
  deriving DecidableEq, Repr

/-- A lock and who uses it. -/
structure Mem (ι : Type) where
  readers : Visits ι (Option Nat)
  writers : Visits ι Unit
  phase : Phase
  /-- How many write sections have been entered. -/
  entered : Nat
  /-- How many of them have been left. -/
  finished : Nat
  rin : Nat
  rout : Nat
  win : Nat
  wout : Nat

/-- Where a thread stands. -/
inductive Pc (ι : Type) where
  | idle
  | reading (t : Visit ι (Option Nat))
  | writing (t : Visit ι Unit)
  /-- `ck_pflock_write_lock`. -/
  | writeWin
  | writeWout (t : Visit ι Unit) (ticket : Nat)
  | writeRin (t : Visit ι Unit) (ticket : Nat)
  | writeRout (t : Visit ι Unit) (ticket : Nat)
  /-- `ck_pflock_write_unlock`. -/
  | unlockRin (t : Visit ι Unit)
  | unlockWout (t : Visit ι Unit)
  /-- `ck_pflock_read_lock`. -/
  | readRin
  | readWait (t : Visit ι (Option Nat)) (w : Nat)
  /-- `ck_pflock_read_unlock`. -/
  | unlockRout (t : Visit ι (Option Nat))
  deriving DecidableEq

/-- The ticket of a writer that has not given its turn to the next one. -/
def Pc.writeTicket {ι : Type} : Pc ι → Option (Visit ι Unit)
  | writing t | writeWout t _ | writeRin t _ | writeRout t _ | unlockRin t | unlockWout t => some t
  | _ => none

variable {ι : Type}

namespace Mem

/-- The writer that a reader finds announced. -/
def seen (m : Mem ι) : Option Nat :=
  match m.phase with
  | .announced _ => some m.writers.left
  | _ => none

/-- The visit of a reader that comes now. -/
def readVisit (i : ι) (m : Mem ι) : Visit ι (Option Nat) := ⟨i, m.readers.arrived, m.seen⟩

/-- The visit of a writer that comes now. -/
def writeVisit (i : ι) (m : Mem ι) : Visit ι Unit := ⟨i, m.writers.arrived, ()⟩

/-- `ck_pr_faa_32(&pf->rin, (ticket & CK_PFLOCK_PHID) | CK_PFLOCK_PRES)`. -/
def announce (ticket : Nat) (m : Mem ι) : Mem ι :=
  { m with
    rin := (m.rin + ((ticket &&& phid) ||| pres)) % 2 ^ 32
    phase := .announced m.readers.arrived }

/-- A writer enters its section. -/
def enter (m : Mem ι) : Mem ι := { m with entered := m.entered + 1 }

/-- A writer leaves its section. -/
def finish (m : Mem ι) : Mem ι := { m with finished := m.finished + 1 }

/-- `ck_pr_and_32(&pf->rin, CK_PFLOCK_LSB)`. -/
def clear (m : Mem ι) : Mem ι := { m with rin := m.rin &&& lsb, phase := .cleared }

variable [DecidableEq ι]

/-- `ck_pr_faa_32(&pf->win, 1)`. -/
def faaWin (i : ι) (m : Mem ι) : Mem ι :=
  { m with win := (m.win + 1) % 2 ^ 32, writers := m.writers.arrive i () }

/-- `ck_pr_faa_32(&pf->wout, 1)`. -/
def faaWout (t : Visit ι Unit) (m : Mem ι) : Mem ι :=
  { m with wout := (m.wout + 1) % 2 ^ 32, writers := m.writers.leave t, phase := .quiet }

/-- `ck_pr_faa_32(&pf->rin, CK_PFLOCK_RINC)`. -/
def faaRin (i : ι) (m : Mem ι) : Mem ι :=
  { m with rin := (m.rin + rinc) % 2 ^ 32, readers := m.readers.arrive i m.seen }

/-- `ck_pr_faa_32(&pf->rout, CK_PFLOCK_RINC)`. -/
def faaRout (t : Visit ι (Option Nat)) (m : Mem ι) : Mem ι :=
  { m with rout := (m.rout + rinc) % 2 ^ 32, readers := m.readers.leave t }

end Mem

variable [DecidableEq ι]

/-- One access of thread `i`: `ck_pflock_write_unlock`, `ck_pflock_write_lock`,
`ck_pflock_read_unlock` and `ck_pflock_read_lock` (`ck_pflock.h:70-140`). -/
def act (i : ι) (m : Mem ι) : Pc ι → Mem ι × Pc ι
  | .writeWin => (m.faaWin i, .writeWout (m.writeVisit i) m.win)
  | .writeWout t ticket =>
    (m, if m.wout ≠ ticket then .writeWout t ticket else .writeRin t ticket)
  | .writeRin t ticket => (m.announce ticket, .writeRout t m.rin)
  | .writeRout t ticket =>
    if m.rout ≠ ticket then (m, .writeRout t ticket) else (m.enter, .writing t)
  | .unlockRin t => (m.clear, .unlockWout t)
  | .unlockWout t => (m.faaWout t, .idle)
  | .readRin =>
    (m.faaRin i,
      if m.rin &&& wbits = 0 then .reading (m.readVisit i)
      else .readWait (m.readVisit i) (m.rin &&& wbits))
  | .readWait t w => (m, if m.rin &&& wbits = w then .readWait t w else .reading t)
  | .unlockRout t => (m.faaRout t, .idle)
  | pc => (m, pc)

/-- One step of thread `i`: it calls a function, or makes the next access of its call. -/
inductive Step (i : ι) : Mem ι → Pc ι → Mem ι → Pc ι → Prop
  | writeLock {m : Mem ι} : Step i m .idle m .writeWin
  | writeUnlock {m : Mem ι} (t : Visit ι Unit) : Step i m (.writing t) m.finish (.unlockRin t)
  | readLock {m : Mem ι} : Step i m .idle m .readRin
  | readUnlock {m : Mem ι} (t : Visit ι (Option Nat)) : Step i m (.reading t) m (.unlockRout t)
  | act {m : Mem ι} {pc : Pc ι} : Step i m pc (act i m pc).1 (act i m pc).2

omit [DecidableEq ι] in
/-- Fewer than `2 ^ 24` readers and fewer than `2 ^ 32` writers are outstanding. -/
def Few (_ : ι) (m : Mem ι) (_ : Pc ι) : Prop :=
  m.readers.present.card < 2 ^ 24 ∧ m.writers.present.card < 2 ^ 32

omit [DecidableEq ι] in
instance (i : ι) (m : Mem ι) (pc : Pc ι) : Decidable (Few i m pc) :=
  inferInstanceAs (Decidable (_ ∧ _))

/-- A new lock, with all threads idle. -/
def start (ι : Type) : Threads.System (Mem ι) (Pc ι) ι where
  mem := ⟨.empty ι (Option Nat), .empty ι Unit, .quiet, 0, 0, 0, 0, 0, 0⟩
  pc := fun _ => .idle

end ConcurrencyKit.Pflock
