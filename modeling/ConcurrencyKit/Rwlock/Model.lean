import ConcurrencyKit.Misc.Counter
import ConcurrencyKit.Misc.Threads
import Mathlib.Data.Multiset.AddSub
import Mathlib.Data.Multiset.Count

/-!
# The reader-writer locks of `ck_rwlock`

The functions of `include/ck_rwlock.h`, one access at a time, for any number of threads: the plain
lock, and the one that a writer may lock again (`ck_rwlock_recursive`). They have the functions of
the readers in common, and differ in those of the writers. A thread may read any number of times at
once.

Next to the words a `Mem` keeps who has stored to `writer`, who is counted in `n_readers`, and who
has been let in.
-/

namespace ConcurrencyKit.Rwlock

/-- `struct ck_rwlock`, with `wc` of `struct ck_rwlock_recursive`, and who uses it. -/
structure Mem (ι : Type) where
  writer : Nat
  nReaders : Nat
  wc : Nat
  /-- The thread that `writer` is about. -/
  owner : Option ι
  /-- The threads that are counted in `n_readers`, each as often as it is counted. -/
  counted : Multiset ι
  /-- The readers that have been let in. -/
  inside : Multiset ι

/-- How often a thread reads, and how often it has locked the lock for writing. -/
structure Held where
  reads : Nat
  depth : Nat
  deriving DecidableEq, Repr

namespace Held

/-- The thread has been let in as a reader. -/
def enter (h : Held) : Held := { h with reads := h.reads + 1 }

/-- The thread has returned from `ck_rwlock_read_unlock`. -/
def leave (h : Held) : Held := { h with reads := h.reads - 1 }

/-- The thread has locked the lock for writing. -/
def lock (h : Held) : Held := { h with depth := h.depth + 1 }

/-- The thread has unlocked the lock for writing. -/
def unlock (h : Held) : Held := { h with depth := h.depth - 1 }

end Held

/-- Where a thread stands, and what it holds. The functions of writers have the places `W`. -/
inductive Pc (W : Type) where
  | outside (h : Held)
  | write (w : W) (h : Held)
  /-- `ck_rwlock_read_trylock`. -/
  | tryLoad (h : Held)
  | tryInc (h : Held)
  | tryCheck (h : Held)
  | tryDec (h : Held)
  /-- `ck_rwlock_read_lock`. -/
  | readLoad (h : Held)
  | readInc (h : Held)
  | readCheck (h : Held)
  | readDec (h : Held)
  /-- `ck_rwlock_read_unlock`. -/
  | readUnlock (h : Held)
  deriving DecidableEq

/-- What a thread holds. -/
def Pc.held {W : Type} : Pc W → Held
  | outside h | write _ h | tryLoad h | tryInc h | tryCheck h | tryDec h | readLoad h | readInc h
  | readCheck h | readDec h | readUnlock h => h

variable {ι : Type}

namespace Mem

/-- An access that stores `value` to `writer`, which was zero. -/
def own (i : ι) (value : Nat) (m : Mem ι) : Mem ι := { m with writer := value, owner := some i }

/-- `ck_pr_store_uint(&rw->writer, 0)`. -/
def disown (m : Mem ι) : Mem ι := { m with writer := 0, owner := none }

/-- `ck_pr_inc_uint(&rw->n_readers)`. -/
def inc (i : ι) (m : Mem ι) : Mem ι :=
  { m with nReaders := Counter.inc (2 ^ 32) m.nReaders, counted := i ::ₘ m.counted }

/-- A reader that is counted is let in. -/
def enter (i : ι) (m : Mem ι) : Mem ι := { m with inside := i ::ₘ m.inside }

/-- `rw->wc++`. -/
def incWc (m : Mem ι) : Mem ι := { m with wc := Counter.inc (2 ^ 32) m.wc }

/-- `--rw->wc`. -/
def decWc (m : Mem ι) : Mem ι := { m with wc := Counter.dec (2 ^ 32) m.wc }

variable [DecidableEq ι]

/-- `ck_pr_dec_uint(&rw->n_readers)` of a reader that has not been let in. -/
def dec (i : ι) (m : Mem ι) : Mem ι :=
  { m with nReaders := Counter.dec (2 ^ 32) m.nReaders, counted := m.counted.erase i }

/-- `ck_pr_dec_uint(&rw->n_readers)` of a reader that leaves. -/
def leave (i : ι) (m : Mem ι) : Mem ι := { m.dec i with inside := m.inside.erase i }

end Mem

/-- The functions of writers: where they may be called, and how they go on. -/
structure Kind (ι : Type) where
  W : Type
  Call : W → Held → Prop
  act : ι → Mem ι → W → Held → Mem ι × Pc W

/-! ## The plain lock -/

namespace Plain

/-- Where a writer stands. -/
inductive W where
  /-- `ck_rwlock_write_lock`. -/
  | lockFas
  | lockSpin
  /-- `ck_rwlock_write_trylock`. -/
  | tryFas
  | tryReaders
  | tryUnlock
  /-- `ck_rwlock_write_unlock`. -/
  | unlock
  /-- `ck_rwlock_write_downgrade`. -/
  | downInc
  | downUnlock
  deriving DecidableEq

/-- What the writers may call. A thread that unlocks or downgrades has the lock. -/
def Call : W → Held → Prop
  | .lockFas, _ | .tryFas, _ => True
  | .unlock, h | .downInc, h => 0 < h.depth
  | _, _ => False

/-- One access of thread `i`: `ck_rwlock_write_unlock`, `ck_rwlock_write_downgrade`,
`ck_rwlock_write_trylock` and `ck_rwlock_write_lock` (`ck_rwlock.h:47-127`). -/
def act (i : ι) (m : Mem ι) : W → Held → Mem ι × Pc W
  | .lockFas, h =>
    if m.writer ≠ 0 then ({ m with writer := 1 }, .write .lockFas h)
    else (m.own i 1, .write .lockSpin h)
  | .lockSpin, h => (m, if m.nReaders ≠ 0 then .write .lockSpin h else .outside h.lock)
  | .tryFas, h =>
    if m.writer ≠ 0 then ({ m with writer := 1 }, .outside h)
    else (m.own i 1, .write .tryReaders h)
  | .tryReaders, h => (m, if m.nReaders ≠ 0 then .write .tryUnlock h else .outside h.lock)
  | .tryUnlock, h => (m.disown, .outside h)
  | .unlock, h => (m.disown, .outside h.unlock)
  | .downInc, h => (m.inc i, .write .downUnlock h)
  | .downUnlock, h => (m.disown.enter i, .outside h.unlock.enter)

end Plain

/-- The plain lock. -/
def plain (ι : Type) : Kind ι := ⟨Plain.W, Plain.Call, Plain.act⟩

/-! ## The lock that may be locked again -/

namespace Recursive

/-- Where a writer stands. -/
inductive W where
  /-- `ck_rwlock_recursive_write_lock`. -/
  | lockLoad
  | lockCas
  | lockSpin
  | lockWc
  /-- `ck_rwlock_recursive_write_trylock`. -/
  | tryLoad
  | tryCas
  | tryReaders
  | tryStore
  | tryWc
  /-- `ck_rwlock_recursive_write_unlock`. -/
  | unlockWc
  | unlockStore
  deriving DecidableEq

/-- What the writers may call. A thread that unlocks has the lock; one that locks has not locked it
as often yet as `wc` can count. -/
def Call : W → Held → Prop
  | .lockLoad, h | .tryLoad, h => h.depth + 1 < 2 ^ 32
  | .unlockWc, h => 0 < h.depth
  | _, _ => False

/-- One access of thread `i`: `ck_rwlock_recursive_write_lock`,
`ck_rwlock_recursive_write_trylock` and `ck_rwlock_recursive_write_unlock`
(`ck_rwlock.h:219-277`). -/
def act (tid : ι → Nat) (i : ι) (m : Mem ι) : W → Held → Mem ι × Pc W
  | .lockLoad, h => (m, .write (if m.writer = tid i then .lockWc else .lockCas) h)
  | .lockCas, h =>
    if m.writer = 0 then (m.own i (tid i), .write .lockSpin h) else (m, .write .lockCas h)
  | .lockSpin, h => (m, .write (if m.nReaders ≠ 0 then .lockSpin else .lockWc) h)
  | .lockWc, h => (m.incWc, .outside h.lock)
  | .tryLoad, h => (m, .write (if m.writer = tid i then .tryWc else .tryCas) h)
  | .tryCas, h =>
    if m.writer = 0 then (m.own i (tid i), .write .tryReaders h) else (m, .outside h)
  | .tryReaders, h => (m, .write (if m.nReaders ≠ 0 then .tryStore else .tryWc) h)
  | .tryStore, h => (m.disown, .outside h)
  | .tryWc, h => (m.incWc, .outside h.lock)
  | .unlockWc, h =>
    (m.decWc,
      if m.decWc.wc = 0 then .write .unlockStore h.unlock else .outside h.unlock)
  | .unlockStore, h => (m.disown, .outside h)

end Recursive

/-- The lock that a thread may lock again that uses the number `tid` for itself. -/
def recursive (tid : ι → Nat) : Kind ι := ⟨Recursive.W, Recursive.Call, Recursive.act tid⟩

/-! ## Runs -/

variable [DecidableEq ι] {k : Kind ι}

/-- One access of thread `i`: `ck_rwlock_read_trylock`, `ck_rwlock_read_lock` and
`ck_rwlock_read_unlock` (`ck_rwlock.h:133-202`), or a function of writers. -/
def act (k : Kind ι) (i : ι) (m : Mem ι) : Pc k.W → Mem ι × Pc k.W
  | .outside h => (m, .outside h)
  | .write w h => k.act i m w h
  | .tryLoad h => (m, if m.writer ≠ 0 then .outside h else .tryInc h)
  | .tryInc h => (m.inc i, .tryCheck h)
  | .tryCheck h => if m.writer = 0 then (m.enter i, .outside h.enter) else (m, .tryDec h)
  | .tryDec h => (m.dec i, .outside h)
  | .readLoad h => (m, if m.writer ≠ 0 then .readLoad h else .readInc h)
  | .readInc h => (m.inc i, .readCheck h)
  | .readCheck h => if m.writer = 0 then (m.enter i, .outside h.enter) else (m, .readDec h)
  | .readDec h => (m.dec i, .readLoad h)
  | .readUnlock h => (m.leave i, .outside h.leave)

/-- One step of thread `i`: it calls a function, or makes the next access of its call. -/
inductive Step (k : Kind ι) (i : ι) : Mem ι → Pc k.W → Mem ι → Pc k.W → Prop
  | write {m : Mem ι} {w : k.W} {h : Held} (hcall : k.Call w h) :
    Step k i m (.outside h) m (.write w h)
  | readTry {m : Mem ι} {h : Held} : Step k i m (.outside h) m (.tryLoad h)
  | readLock {m : Mem ι} {h : Held} : Step k i m (.outside h) m (.readLoad h)
  | readUnlock {m : Mem ι} {h : Held} (hreads : 0 < h.reads) :
    Step k i m (.outside h) m (.readUnlock h)
  | act {m : Mem ι} {pc : Pc k.W} : Step k i m pc (act k i m pc).1 (act k i m pc).2

/-- A new lock, with all threads outside. -/
def start (k : Kind ι) : Threads.System (Mem ι) (Pc k.W) ι where
  mem := ⟨0, 0, 0, none, 0, 0⟩
  pc := fun _ => .outside ⟨0, 0⟩

end ConcurrencyKit.Rwlock
