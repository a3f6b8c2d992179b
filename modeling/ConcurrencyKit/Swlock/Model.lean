import ConcurrencyKit.Misc.Counter
import ConcurrencyKit.Misc.Packed
import ConcurrencyKit.Misc.Threads

/-!
# The single-writer locks of `ck_swlock`

The functions of `include/ck_swlock.h`, one access at a time. There may be any number of writers, of
which one at a time is in its operations and its section. The readers are given as a set; a thread
that calls `ck_swlock_write_downgrade` goes on as a reader, so it is one of them.

A reader adds itself to the word before it knows whether it may enter. If it may not, it takes
itself out again, unless the latch bit is set: then the writer's `ck_swlock_write_unlatch` clears
the whole word.

Next to the word a `Mem` keeps who the writer is, how far it has got, and which readers the word
counts.
-/

namespace ConcurrencyKit.Swlock

open Packed (pack)

/-- `CK_SWLOCK_WRITER_BIT`. -/
def writerBit : Nat := 1 <<< 31

/-- `CK_SWLOCK_LATCH_BIT`. -/
def latchBit : Nat := 1 <<< 30

/-- `CK_SWLOCK_WRITER_MASK`. -/
def writerMask : Nat := latchBit ||| writerBit

/-- `CK_SWLOCK_READER_MASK`. -/
def readerMask : Nat := (2 ^ 32 - 1) ^^^ writerMask

theorem writerBit_eq : writerBit = pack 30 2 0 := by decide

theorem writerMask_eq : writerMask = pack 30 3 0 := by decide

theorem readerMask_eq : readerMask = pack 30 0 (2 ^ 30 - 1) := by decide

/-- What the two upper bits of the word say. -/
inductive Mode where
  | free
  | writer
  | latched
  deriving DecidableEq, Repr

/-- The two upper bits of the word. -/
def Mode.bits : Mode → Nat
  | .free => 0
  | .writer => 2
  | .latched => 3

/-- A lock and who uses it. -/
structure Mem (ι : Type) where
  value : Nat
  /-- The thread that has called one of the write functions and may be in its section. -/
  writer : Option ι
  mode : Mode
  /-- The readers that have added themselves and have not been taken out. -/
  counted : Finset ι
  /-- The readers among them that have been let in. -/
  inside : Finset ι

/-- Where a thread stands. -/
inductive Pc where
  | idle
  | reading
  | locked
  | latched
  /-- `ck_swlock_write_trylock`. -/
  | writeTry
  /-- `ck_swlock_write_lock`. -/
  | lockOr
  | lockWait
  /-- `ck_swlock_write_unlock`. -/
  | unlockAnd
  /-- `ck_swlock_write_downgrade`. -/
  | downInc
  | downAnd
  /-- `ck_swlock_write_latch`. -/
  | latchOr
  | latchCas
  | latchSpin
  /-- `ck_swlock_write_unlatch`. -/
  | unlatchStore
  /-- `ck_swlock_read_trylock`. -/
  | tryLoad
  | tryFaa
  | tryDec
  /-- `ck_swlock_read_lock`. -/
  | readLoad
  | readFaa
  | readDec
  /-- `ck_swlock_read_unlock`. -/
  | readUnlock
  deriving DecidableEq, Repr

variable {ι : Type}

namespace Mem

/-- A call of a write function begins. -/
def begin (i : ι) (m : Mem ι) : Mem ι := { m with writer := some i }

/-- The writer has returned from its last call. -/
def finish (m : Mem ι) : Mem ι := { m with writer := none }

/-- A successful `ck_pr_cas_32(&rw->value, 0, CK_SWLOCK_WRITER_BIT)`. -/
def setWriter (m : Mem ι) : Mem ι := { m with value := writerBit, mode := .writer }

/-- `ck_pr_or_32(&rw->value, CK_SWLOCK_WRITER_BIT)`. -/
def orWriter (m : Mem ι) : Mem ι := { m with value := m.value ||| writerBit, mode := .writer }

/-- `ck_pr_and_32(&rw->value, CK_SWLOCK_READER_MASK)`. -/
def andReader (m : Mem ι) : Mem ι := { m with value := m.value &&& readerMask, mode := .free }

/-- A successful `ck_pr_cas_32(&rw->value, CK_SWLOCK_WRITER_BIT, CK_SWLOCK_WRITER_MASK)`. -/
def latch (m : Mem ι) : Mem ι := { m with value := writerMask, mode := .latched }

/-- `ck_pr_store_32(&rw->value, 0)`. -/
def unlatch (m : Mem ι) : Mem ι := { m with value := 0, mode := .free, counted := ∅ }

variable [DecidableEq ι]

/-- One is added to the word by a reader that is let in. -/
def enter (i : ι) (m : Mem ι) : Mem ι :=
  { m with
    value := Counter.inc (2 ^ 32) m.value
    counted := insert i m.counted
    inside := insert i m.inside }

/-- One is added to the word by a reader that is not let in. -/
def knock (i : ι) (m : Mem ι) : Mem ι :=
  { m with value := Counter.inc (2 ^ 32) m.value, counted := insert i m.counted }

/-- `ck_pr_faa_32(&rw->value, 1)`. -/
def faa (i : ι) (m : Mem ι) : Mem ι :=
  if m.value &&& writerMask = 0 then m.enter i else m.knock i

/-- `ck_pr_dec_32(&rw->value)`. -/
def dec (i : ι) (m : Mem ι) : Mem ι :=
  { m with
    value := Counter.dec (2 ^ 32) m.value
    counted := m.counted.erase i
    inside := m.inside.erase i }

end Mem

variable [DecidableEq ι]

/-- One access of thread `i`: `ck_swlock_write_unlock`, `ck_swlock_write_downgrade`,
`ck_swlock_write_trylock`, `ck_swlock_write_lock`, `ck_swlock_write_latch` and
`ck_swlock_write_unlatch` (`ck_swlock.h:57-146`), `ck_swlock_read_trylock`, `ck_swlock_read_lock`
and `ck_swlock_read_unlock` (`ck_swlock.h:152-212`). -/
def act (i : ι) (m : Mem ι) : Pc → Mem ι × Pc
  | .writeTry => if m.value = 0 then (m.setWriter, .locked) else (m.finish, .idle)
  | .lockOr => (m.orWriter, .lockWait)
  | .lockWait => (m, if m.value &&& readerMask ≠ 0 then .lockWait else .locked)
  | .unlockAnd => (m.andReader.finish, .idle)
  | .downInc => (m.enter i, .downAnd)
  | .downAnd => (m.andReader.finish, .reading)
  | .latchOr => (m.orWriter, .latchCas)
  | .latchCas => if m.value = writerBit then (m.latch, .latched) else (m, .latchSpin)
  | .latchSpin => (m, if m.value ≠ writerBit then .latchSpin else .latchCas)
  | .unlatchStore => (m.unlatch.finish, .idle)
  | .tryLoad => (m, if m.value &&& writerBit ≠ 0 then .idle else .tryFaa)
  | .tryFaa =>
    (m.faa i,
      if m.value &&& writerMask = writerBit then .tryDec
      else if m.value &&& writerMask = 0 then .reading
      else .idle)
  | .tryDec => (m.dec i, .idle)
  | .readLoad => (m, if m.value &&& writerBit ≠ 0 then .readLoad else .readFaa)
  | .readFaa =>
    (m.faa i,
      if m.value &&& writerMask = 0 then .reading
      else if m.value &&& writerMask = writerBit then .readDec
      else .readLoad)
  | .readDec => (m.dec i, .readLoad)
  | .readUnlock => (m.dec i, .idle)
  | pc => (m, pc)

/-- One step of thread `i`: it calls a function, or makes the next access of its call. A write
function is called while no other thread is the writer. -/
inductive Step (readers : Finset ι) (i : ι) : Mem ι → Pc → Mem ι → Pc → Prop
  | writeTry {m : Mem ι} (h : m.writer = none) : Step readers i m .idle (m.begin i) .writeTry
  | writeLock {m : Mem ι} (h : m.writer = none) : Step readers i m .idle (m.begin i) .lockOr
  | writeLatch {m : Mem ι} (h : m.writer = none) : Step readers i m .idle (m.begin i) .latchOr
  | writeUnlock {m : Mem ι} : Step readers i m .locked m .unlockAnd
  | writeDowngrade {m : Mem ι} (h : i ∈ readers) : Step readers i m .locked m .downInc
  | writeUnlatch {m : Mem ι} : Step readers i m .latched m .unlatchStore
  | readTry {m : Mem ι} (h : i ∈ readers) : Step readers i m .idle m .tryLoad
  | readLock {m : Mem ι} (h : i ∈ readers) : Step readers i m .idle m .readLoad
  | readUnlock {m : Mem ι} : Step readers i m .reading m .readUnlock
  | act {m : Mem ι} {pc : Pc} : Step readers i m pc (act i m pc).1 (act i m pc).2

/-- A new lock, with all threads idle. -/
def start (ι : Type) : Threads.System (Mem ι) Pc ι where
  mem := ⟨0, none, .free, ∅, ∅⟩
  pc := fun _ => .idle

/-- States reached by the writers and by these readers. -/
def Reachable (readers : Finset ι) (s : Threads.System (Mem ι) Pc ι) : Prop :=
  Threads.System.Reachable (Step readers) (fun _ _ _ => True) (start ι) s

end ConcurrencyKit.Swlock
