import ConcurrencyKit.Misc.Counter
import ConcurrencyKit.Misc.Threads

/-!
# The lock of `ck_bytelock`

The operations of `include/ck_bytelock.h`, one access at a time, for any number of threads. A
thread has a slot of its own in `readers`, or the number that all threads without one share and
with which they use the counter `n_readers`, a machine word.

Next to the lock a `Mem` keeps what the code does not have: the thread that has made itself the
owner, the threads that are counted in `n_readers`, and those that hold the lock for reading.
-/

namespace ConcurrencyKit.Bytelock

/-- `CK_BYTELOCK_UNSLOTTED`, which is `UINT_MAX`. -/
def unslotted : Nat := 2 ^ 32 - 1

/-- The array `readers`: so many words, each of so many bytes. -/
structure Layout where
  words : Nat
  length : Nat
  small : words * length < unslotted

/-- `sizeof bytelock->readers`. -/
def Layout.size (l : Layout) : Nat := l.words * l.length

/-- The slot numbers of the threads. -/
structure Slots (l : Layout) (ι : Type) where
  slot : ι → Nat
  pos : ∀ i, 0 < slot i
  valid : ∀ i, slot i ≤ l.size ∨ slot i = unslotted
  unique : ∀ i j, slot i ≤ l.size → slot i = slot j → i = j

/-- Where a thread stands. -/
inductive Pc where
  | idle
  /-- It holds the lock for reading. -/
  | reading
  /-- It holds the lock for writing. -/
  | writing
  /-- `ck_bytelock_write_lock`, of a reader if `up`. -/
  | writeCas (up : Bool)
  | writeClear (up : Bool)
  | writeScan (i : Nat)
  | writeCount
  | writeUnlock
  /-- `ck_bytelock_read_lock`, of a writer if `down`. -/
  | readOwner (down : Bool)
  | ownStore
  | ownRelease
  | countInc
  | countCheck
  | countDec
  | countWait
  | slotSet
  | slotCheck
  | slotClear
  | slotWait
  | readUnlock
  deriving DecidableEq, Repr

namespace Pc

/-- The thread is between two calls. -/
def Resting : Pc → Prop
  | idle | reading | writing => True
  | _ => False

/-- The thread is the owner: from its compare-and-swap to the store that resets `owner`. -/
def Owns : Pc → Prop
  | writing | writeClear _ | writeScan _ | writeCount | writeUnlock | readOwner true | ownStore
  | ownRelease => True
  | _ => False

/-- The thread holds the lock for writing, until the store that resets `owner`. -/
def Writes : Pc → Prop
  | writing | writeUnlock | readOwner true | ownStore | ownRelease => True
  | _ => False

/-- The thread holds the lock for reading, until the store or decrement that says otherwise. -/
def Reads : Pc → Prop
  | reading | writeCas true | writeClear true | readUnlock => True
  | _ => False

instance : DecidablePred Resting := fun pc => by
  cases pc <;> unfold Resting <;> infer_instance

instance : DecidablePred Writes := fun pc => by
  unfold Writes
  split <;> infer_instance

instance : DecidablePred Reads := fun pc => by
  unfold Reads
  split <;> infer_instance

end Pc

/-- `struct ck_bytelock`, and who uses it. -/
structure Mem (ι : Type) where
  owner : Nat
  nReaders : Nat
  readers : Nat → Bool
  /-- The thread that has made itself the owner. -/
  holder : Option ι
  /-- The threads that are counted in `nReaders`. -/
  counted : Finset ι
  /-- The thread holds the lock for reading. -/
  reads : ι → Bool

variable {ι : Type}

namespace Mem

/-- `ck_pr_store_8(&bytelock->readers[k], b)`. -/
def storeReader (k : Nat) (b : Bool) (m : Mem ι) : Mem ι :=
  { m with readers := Function.update m.readers k b }

/-- The thread becomes the owner. -/
def take (i : ι) (slot : Nat) (m : Mem ι) : Mem ι :=
  { m with owner := slot, holder := some i }

/-- `ck_pr_store_uint(&bytelock->owner, 0)`. -/
def release (m : Mem ι) : Mem ι :=
  { m with owner := 0, holder := none }

variable [DecidableEq ι]

/-- The thread begins or ends to hold the lock for reading. -/
def setReads (i : ι) (b : Bool) (m : Mem ι) : Mem ι :=
  { m with reads := Function.update m.reads i b }

/-- `ck_pr_inc_uint(&bytelock->n_readers)`. -/
def incReaders (i : ι) (m : Mem ι) : Mem ι :=
  { m with nReaders := Counter.inc (2 ^ 32) m.nReaders, counted := insert i m.counted }

/-- `ck_pr_dec_uint(&bytelock->n_readers)`. -/
def decReaders (i : ι) (m : Mem ι) : Mem ι :=
  { m with nReaders := Counter.dec (2 ^ 32) m.nReaders, counted := m.counted.erase i }

end Mem

variable [DecidableEq ι] {l : Layout}

/-- One access of thread `i`: `ck_bytelock_write_lock` (`ck_bytelock.h:81-113`),
`ck_bytelock_write_unlock` (`ck_bytelock.h:119-126`), `ck_bytelock_read_lock`
(`ck_bytelock.h:128-180`) and `ck_bytelock_read_unlock` (`ck_bytelock.h:182-194`). -/
def act (s : Slots l ι) (i : ι) (m : Mem ι) : Pc → Mem ι × Pc
  | .writeCas up =>
    if m.owner = 0 then
      (m.take i (s.slot i), if s.slot i ≤ l.size then .writeClear up else .writeScan 0)
    else (m, .writeCas up)
  | .writeClear _ => ((m.storeReader (s.slot i - 1) false).setReads i false, .writeScan 0)
  | .writeScan k =>
    if k < l.words then
      (m, if ∀ b < l.length, m.readers (k * l.length + b) = false then .writeScan (k + 1)
        else .writeScan k)
    -- the words are done: the load of the counter comes next
    else (m, if m.nReaders = 0 then .writing else .writeCount)
  | .writeCount => (m, if m.nReaders = 0 then .writing else .writeCount)
  | .writeUnlock => (m.release, .idle)
  | .readOwner _ =>
    (m, if m.owner = s.slot i then .ownStore
      else if s.slot i > l.size then .countInc else .slotSet)
  | .ownStore => (m.storeReader (s.slot i - 1) true, .ownRelease)
  | .ownRelease => (m.release.setReads i true, .reading)
  | .countInc => (m.incReaders i, .countCheck)
  | .countCheck => if m.owner = 0 then (m.setReads i true, .reading) else (m, .countDec)
  | .countDec => (m.decReaders i, .countWait)
  | .countWait => (m, if m.owner ≠ 0 then .countWait else .countInc)
  | .slotSet => (m.storeReader (s.slot i - 1) true, .slotCheck)
  | .slotCheck => if m.owner = 0 then (m.setReads i true, .reading) else (m, .slotClear)
  | .slotClear => (m.storeReader (s.slot i - 1) false, .slotWait)
  | .slotWait => (m, if m.owner ≠ 0 then .slotWait else .slotSet)
  | .readUnlock =>
    if s.slot i > l.size then ((m.decReaders i).setReads i false, .idle)
    else ((m.storeReader (s.slot i - 1) false).setReads i false, .idle)
  | pc => (m, pc)

/-- One step of thread `i`: it calls a function that it may call where it stands, or makes the next
access of its call. A reader with a slot may call `ck_bytelock_write_lock`, and a writer may call
`ck_bytelock_read_lock`. -/
inductive Step (s : Slots l ι) (i : ι) : Mem ι → Pc → Mem ι → Pc → Prop
  | writeLock {m : Mem ι} : Step s i m .idle m (.writeCas false)
  | upgrade {m : Mem ι} (slotted : s.slot i ≤ l.size) : Step s i m .reading m (.writeCas true)
  | writeUnlock {m : Mem ι} : Step s i m .writing m .writeUnlock
  | readLock {m : Mem ι} : Step s i m .idle m (.readOwner false)
  | downgrade {m : Mem ι} : Step s i m .writing m (.readOwner true)
  | readUnlock {m : Mem ι} : Step s i m .reading m .readUnlock
  | act {m : Mem ι} {pc : Pc} (running : ¬ pc.Resting) :
      Step s i m pc (act s i m pc).1 (act s i m pc).2

/-- The index is one that the next access of thread `i` reads or writes in `readers`. -/
def Touches (s : Slots l ι) (i : ι) (k : Nat) : Pc → Prop
  | .writeClear _ | .ownStore | .slotSet | .slotClear => k = s.slot i - 1
  | .writeScan w => w < l.words ∧ w * l.length ≤ k ∧ k < (w + 1) * l.length
  | .readUnlock => s.slot i ≤ l.size ∧ k = s.slot i - 1
  | _ => False

instance (s : Slots l ι) (i : ι) (k : Nat) (pc : Pc) : Decidable (Touches s i k pc) := by
  unfold Touches
  split <;> infer_instance

/-- The memory after `ck_bytelock_init`. -/
def init (ι : Type) : Mem ι where
  owner := 0
  nReaders := 0
  readers := fun _ => false
  holder := none
  counted := ∅
  reads := fun _ => false

/-- A new lock, with all threads idle. -/
def start (ι : Type) : Threads.System (Mem ι) Pc ι where
  mem := init ι
  pc := fun _ => .idle

end ConcurrencyKit.Bytelock
