import ConcurrencyKit.Misc.Counter
import ConcurrencyKit.Misc.Threads

/-!
# The reader-writer locks of `ck_rwcohort`

The functions that the three prototypes of `include/ck_rwcohort.h` define, one access at a time, for
any number of threads: writer preference (`Wp`), reader preference (`Rp`) and neutral (`Neutral`).

The cohort lock that they are used with is any lock that excludes the threads of all cohorts.
`CK_COHORT_LOCKED` is two loads. Its answer may be wrong, except that it is yes if one thread has
had the lock throughout.

Next to the members a `Mem` keeps who has the cohort lock and who is counted where.
-/

namespace ConcurrencyKit.RwCohort

/-- A reader-writer lock, the cohort lock that its calls are given, and who uses them. -/
structure Mem (ι : Type) where
  readCounter : Nat
  /-- `write_barrier` or `read_barrier`. -/
  barrier : Nat
  waitLimit : Nat
  /-- The thread that has the cohort lock. -/
  holder : Option ι
  /-- How often the cohort lock has been taken. -/
  taken : Nat
  /-- The thread that has the cohort lock has found no readers. -/
  writing : Bool
  /-- The threads that are counted in `readCounter`. -/
  counted : Finset ι
  /-- The threads that have raised `barrier`. -/
  raised : Finset ι

variable {ι : Type}

namespace Mem

/-- Which taking of the cohort lock lasts. -/
def held (m : Mem ι) : Option Nat := m.holder.map fun _ => m.taken

/-- A thread has had the cohort lock since the first load found it as it was. -/
def Throughout (m : Mem ι) (seen : Option Nat) : Prop := seen ≠ none ∧ m.held = seen

instance (m : Mem ι) (seen : Option Nat) : Decidable (m.Throughout seen) :=
  inferInstanceAs (Decidable (seen ≠ none ∧ m.held = seen))

/-- `CK_COHORT_LOCK` returns. -/
def take (i : ι) (m : Mem ι) : Mem ι :=
  { m with holder := some i, taken := m.taken + 1 }

/-- `CK_COHORT_UNLOCK` is called. -/
def release (m : Mem ι) : Mem ι :=
  { m with holder := none, writing := false }

/-- The thread that has the cohort lock finds no readers. -/
def write (m : Mem ι) : Mem ι := { m with writing := true }

variable [DecidableEq ι]

/-- `ck_pr_inc_uint(&rw_cohort->read_counter)`. -/
def incCounter (i : ι) (m : Mem ι) : Mem ι :=
  { m with readCounter := Counter.inc (2 ^ 32) m.readCounter, counted := insert i m.counted }

/-- `ck_pr_dec_uint(&rw_cohort->read_counter)`. -/
def decCounter (i : ι) (m : Mem ι) : Mem ι :=
  { m with readCounter := Counter.dec (2 ^ 32) m.readCounter, counted := m.counted.erase i }

/-- `ck_pr_inc_uint` of the barrier. -/
def incBarrier (i : ι) (m : Mem ι) : Mem ι :=
  { m with barrier := Counter.inc (2 ^ 32) m.barrier, raised := insert i m.raised }

/-- `ck_pr_dec_uint` of the barrier. -/
def decBarrier (i : ι) (m : Mem ι) : Mem ι :=
  { m with barrier := Counter.dec (2 ^ 32) m.barrier, raised := m.raised.erase i }

end Mem

/-- `wait_count` and `raised` of a call. -/
structure Wait where
  waitCount : Nat
  raised : Bool
  deriving DecidableEq, Repr

namespace Wait

/-- At the beginning of a call. -/
def init : Wait := ⟨0, false⟩

/-- `++wait_count`. -/
def next (w : Wait) : Wait := { w with waitCount := Counter.inc (2 ^ 32) w.waitCount }

/-- `wait_count > rw_cohort->wait_limit && raised == false`. -/
def Raises (limit : Nat) (w : Wait) : Prop := w.waitCount > limit ∧ w.raised = false

instance (limit : Nat) (w : Wait) : Decidable (w.Raises limit) :=
  inferInstanceAs (Decidable (w.waitCount > limit ∧ w.raised = false))

end Wait

/-- A kind of lock: where a thread can stand, where it is between two calls, and how it goes on. -/
structure Kind (ι : Type) where
  Pc : Type
  idle : Pc
  reading : Pc
  writing : Pc
  Step : ι → Mem ι → Pc → Mem ι → Pc → Prop

/-- A new lock, with all threads idle. -/
def Kind.start (k : Kind ι) (waitLimit : Nat) : Threads.System (Mem ι) k.Pc ι where
  mem := ⟨0, 0, waitLimit, none, 0, false, ∅, ∅⟩
  pc := fun _ => k.idle

variable [DecidableEq ι]

/-! ## Writer preference -/

namespace Wp

/-- Where a thread stands. A call to `CK_COHORT_LOCKED` keeps what its first load has found. -/
inductive Pc where
  | idle
  | reading
  | writing
  /-- `ck_rwcohort_wp_##N##_write_lock`. -/
  | writeBarrier
  | writeCohort
  | writeCounter
  | writeUnlock
  /-- `ck_rwcohort_wp_##N##_read_lock`. -/
  | readInc (w : Wait)
  | readLocked (w : Wait) (seen : Option (Option Nat))
  | readDec (w : Wait)
  | spinLocked (w : Wait) (seen : Option (Option Nat))
  | raiseBarrier (waitCount : Nat)
  | lowerBarrier
  | readUnlock
  deriving DecidableEq

/-- One access of thread `i`: `write_lock` (`ck_rwcohort.h:72-87`), `write_unlock`
(`ck_rwcohort.h:88-97`), `read_lock` (`ck_rwcohort.h:98-130`) and `read_unlock`
(`ck_rwcohort.h:131-138`). -/
def act (i : ι) (m : Mem ι) : Pc → Mem ι × Pc
  | .writeBarrier => (m, if m.barrier > 0 then .writeBarrier else .writeCohort)
  | .writeCohort => if m.holder = none then (m.take i, .writeCounter) else (m, .writeCohort)
  | .writeCounter => if m.readCounter > 0 then (m, .writeCounter) else (m.write, .writing)
  | .writeUnlock => (m.release, .idle)
  | .readInc w => (m.incCounter i, .readLocked w none)
  | .readDec w => (m.decCounter i, .spinLocked w none)
  | .raiseBarrier waitCount => (m.incBarrier i, .spinLocked ⟨waitCount, true⟩ none)
  | .lowerBarrier => (m.decBarrier i, .reading)
  | .readUnlock => (m.decCounter i, .idle)
  | pc => (m, pc)

/-- One step of thread `i`: it calls a function, or makes the next access of its call. -/
inductive Step (i : ι) : Mem ι → Pc → Mem ι → Pc → Prop
  | writeLock {m : Mem ι} : Step i m .idle m .writeBarrier
  | writeUnlock {m : Mem ι} : Step i m .writing m .writeUnlock
  | readLock {m : Mem ι} : Step i m .idle m (.readInc .init)
  | readUnlock {m : Mem ι} : Step i m .reading m .readUnlock
  | act {m : Mem ι} {pc : Pc} : Step i m pc (act i m pc).1 (act i m pc).2
  /-- The first load of `CK_COHORT_LOCKED` is false. -/
  | readGlobal {m : Mem ι} (w : Wait) :
      Step i m (.readLocked w none) m (.readLocked w (some m.held))
  | readTrue {m : Mem ι} (w : Wait) (seen : Option (Option Nat)) :
      Step i m (.readLocked w seen) m (.readDec w)
  | readFalse {m : Mem ι} (w : Wait) (seen : Option Nat) (h : ¬ m.Throughout seen) :
      Step i m (.readLocked w (some seen)) m (if w.raised then .lowerBarrier else .reading)
  | spinGlobal {m : Mem ι} (w : Wait) :
      Step i m (.spinLocked w none) m (.spinLocked w (some m.held))
  | spinTrue {m : Mem ι} (w : Wait) (seen : Option (Option Nat)) :
      Step i m (.spinLocked w seen) m
        (if w.next.Raises m.waitLimit then .raiseBarrier w.next.waitCount
          else .spinLocked w.next none)
  | spinFalse {m : Mem ι} (w : Wait) (seen : Option Nat) (h : ¬ m.Throughout seen) :
      Step i m (.spinLocked w (some seen)) m (.readInc w)

end Wp

/-- `CK_RWCOHORT_WP_PROTOTYPE`. -/
def wp (ι : Type) [DecidableEq ι] : Kind ι := ⟨Wp.Pc, .idle, .reading, .writing, Wp.Step⟩

/-! ## Reader preference -/

namespace Rp

/-- Where a thread stands. A call to `CK_COHORT_LOCKED` keeps what its first load has found. -/
inductive Pc where
  | idle
  | reading
  | writing
  /-- `ck_rwcohort_rp_##N##_write_lock`. -/
  | writeCohort (w : Wait)
  | writeCounter (w : Wait)
  | writeBack (w : Wait)
  | writeSpin (w : Wait)
  | raiseBarrier (waitCount : Nat)
  | lowerBarrier
  | writeUnlock
  /-- `ck_rwcohort_rp_##N##_read_lock`. -/
  | readBarrier
  | readInc
  | readLocked (seen : Option (Option Nat))
  | readUnlock
  deriving DecidableEq

/-- One access of thread `i`: `write_lock` (`ck_rwcohort.h:176-204`), `write_unlock`
(`ck_rwcohort.h:205-213`), `read_lock` (`ck_rwcohort.h:214-231`) and `read_unlock`
(`ck_rwcohort.h:232-239`). -/
def act (i : ι) (m : Mem ι) : Pc → Mem ι × Pc
  | .writeCohort w => if m.holder = none then (m.take i, .writeCounter w) else (m, .writeCohort w)
  | .writeCounter w =>
    if m.readCounter = 0 then (m.write, if w.raised then .lowerBarrier else .writing)
    else (m, .writeBack w)
  | .writeBack w => (m.release, .writeSpin w)
  | .writeSpin w =>
    (m, if m.readCounter > 0 then
        if w.next.Raises m.waitLimit then .raiseBarrier w.next.waitCount else .writeSpin w.next
      else .writeCohort w)
  | .raiseBarrier waitCount => (m.incBarrier i, .writeSpin ⟨waitCount, true⟩)
  | .lowerBarrier => (m.decBarrier i, .writing)
  | .writeUnlock => (m.release, .idle)
  | .readBarrier => (m, if m.barrier > 0 then .readBarrier else .readInc)
  | .readInc => (m.incCounter i, .readLocked none)
  | .readUnlock => (m.decCounter i, .idle)
  | pc => (m, pc)

/-- One step of thread `i`: it calls a function, or makes the next access of its call. -/
inductive Step (i : ι) : Mem ι → Pc → Mem ι → Pc → Prop
  | writeLock {m : Mem ι} : Step i m .idle m (.writeCohort .init)
  | writeUnlock {m : Mem ι} : Step i m .writing m .writeUnlock
  | readLock {m : Mem ι} : Step i m .idle m .readBarrier
  | readUnlock {m : Mem ι} : Step i m .reading m .readUnlock
  | act {m : Mem ι} {pc : Pc} : Step i m pc (act i m pc).1 (act i m pc).2
  /-- The first load of `CK_COHORT_LOCKED` is false. -/
  | readGlobal {m : Mem ι} : Step i m (.readLocked none) m (.readLocked (some m.held))
  | readTrue {m : Mem ι} (seen : Option (Option Nat)) :
      Step i m (.readLocked seen) m (.readLocked none)
  | readFalse {m : Mem ι} (seen : Option Nat) (h : ¬ m.Throughout seen) :
      Step i m (.readLocked (some seen)) m .reading

end Rp

/-- `CK_RWCOHORT_RP_PROTOTYPE`. -/
def rp (ι : Type) [DecidableEq ι] : Kind ι := ⟨Rp.Pc, .idle, .reading, .writing, Rp.Step⟩

/-! ## Neutral -/

namespace Neutral

/-- Where a thread stands. -/
inductive Pc where
  | idle
  | reading
  | writing
  /-- `ck_rwcohort_neutral_##N##_write_lock`. -/
  | writeCohort
  | writeCounter
  | writeUnlock
  /-- `ck_rwcohort_neutral_##N##_read_lock`. -/
  | readCohort
  | readInc
  | readBack
  | readUnlock
  deriving DecidableEq

/-- One access of thread `i`: `write_lock` (`ck_rwcohort.h:272-283`), `write_unlock`
(`ck_rwcohort.h:284-292`), `read_lock` (`ck_rwcohort.h:293-303`) and `read_unlock`
(`ck_rwcohort.h:304-311`). -/
def act (i : ι) (m : Mem ι) : Pc → Mem ι × Pc
  | .writeCohort => if m.holder = none then (m.take i, .writeCounter) else (m, .writeCohort)
  | .writeCounter => if m.readCounter > 0 then (m, .writeCounter) else (m.write, .writing)
  | .writeUnlock => (m.release, .idle)
  | .readCohort => if m.holder = none then (m.take i, .readInc) else (m, .readCohort)
  | .readInc => (m.incCounter i, .readBack)
  | .readBack => (m.release, .reading)
  | .readUnlock => (m.decCounter i, .idle)
  | pc => (m, pc)

/-- One step of thread `i`: it calls a function, or makes the next access of its call. -/
inductive Step (i : ι) : Mem ι → Pc → Mem ι → Pc → Prop
  | writeLock {m : Mem ι} : Step i m .idle m .writeCohort
  | writeUnlock {m : Mem ι} : Step i m .writing m .writeUnlock
  | readLock {m : Mem ι} : Step i m .idle m .readCohort
  | readUnlock {m : Mem ι} : Step i m .reading m .readUnlock
  | act {m : Mem ι} {pc : Pc} : Step i m pc (act i m pc).1 (act i m pc).2

end Neutral

/-- `CK_RWCOHORT_NEUTRAL_PROTOTYPE`. -/
def neutral (ι : Type) [DecidableEq ι] : Kind ι :=
  ⟨Neutral.Pc, .idle, .reading, .writing, Neutral.Step⟩

end ConcurrencyKit.RwCohort
