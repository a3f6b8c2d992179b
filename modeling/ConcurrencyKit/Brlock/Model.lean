import ConcurrencyKit.Misc.Counter
import ConcurrencyKit.Misc.Threads

/-!
# The big-reader lock

The functions of `include/ck_brlock.h`, one access at a time, for any number of threads. A thread
uses one reader object and may also write. `ck_brlock_write_lock` is a function of its own and a
part of `ck_brlock_read_register` and `ck_brlock_read_unregister`; it differs from
`ck_brlock_write_trylock`, as `ck_brlock_read_lock` does from `ck_brlock_read_trylock`, in that it
does not give up.

Next to the words a `Mem` keeps the readers that are in the list, who has stored to `writer`, and
how often a reader has been let in.
-/

namespace ConcurrencyKit.Brlock

/-- `struct ck_brlock` and the fields of the readers. The reader of a thread is called as the
thread. -/
structure Mem (ι : Type) where
  readers : Option ι
  writer : Bool
  nReaders : ι → Nat
  previous : ι → Option ι
  next : ι → Option ι
  /-- The readers that are in the list. -/
  list : List ι
  /-- The thread that `writer` is about. -/
  owner : Option ι
  /-- How often a reader has been let in and has not left. -/
  depth : ι → Nat

/-- What a thread has done: its reader is registered, it reads so many times, it writes. -/
structure Held where
  registered : Bool
  depth : Nat
  writing : Bool
  deriving DecidableEq, Repr

/-- How long a call goes on: for ever, or until `steps` reaches `factor`. -/
inductive Budget where
  | unlimited
  | limited (factor steps : Nat)
  deriving DecidableEq, Repr

/-- `if (++steps >= factor) return false;`, where nothing comes of a call that returns. -/
def Budget.spend : Budget → Option Budget
  | unlimited => some unlimited
  | limited factor steps =>
    if factor ≤ Counter.inc (2 ^ 32) steps then none
    else some (limited factor (Counter.inc (2 ^ 32) steps))

/-- What a thread locks the lock for writing for. -/
inductive Use where
  | write (b : Budget)
  | register
  | unregister
  deriving DecidableEq, Repr

/-- The use may give up. -/
def Use.spend : Use → Option Use
  | write b => b.spend.map write
  | u => some u

/-- Where a thread stands. -/
inductive Pc (ι : Type) where
  | outside (h : Held)
  /-- `ck_brlock_write_lock` and `ck_brlock_write_trylock`. -/
  | fas (u : Use) (h : Held)
  | loadReaders (u : Use) (h : Held)
  | loadCount (u : Use) (cursor : ι) (h : Held)
  | loadNext (u : Use) (cursor : ι) (h : Held)
  | giveUp (h : Held)
  /-- `ck_brlock_write_unlock`. -/
  | unlock (h : Held)
  /-- `ck_brlock_read_register`. -/
  | regCount (h : Held)
  | regPrevious (h : Held)
  | regNext (h : Held)
  | regLink (h : Held)
  | regHead (h : Held)
  | regUnlock (h : Held)
  /-- `ck_brlock_read_unregister`. -/
  | unregPrevious (h : Held)
  | unregNext (h : Held)
  | unregUnlock (h : Held)
  /-- `ck_brlock_read_lock` and `ck_brlock_read_trylock`. -/
  | readTest (b : Budget) (h : Held)
  | readNest (h : Held)
  | readWriter (b : Budget) (h : Held)
  | readStore (b : Budget) (h : Held)
  | readCheck (b : Budget) (h : Held)
  | readBack (b : Budget) (h : Held)
  /-- `ck_brlock_read_unlock`. -/
  | readUnlock (h : Held)
  deriving DecidableEq, Repr

variable {ι : Type}

namespace Pc

/-- What a thread has done when it has called the function that it is in. -/
def held : Pc ι → Held
  | outside h | fas _ h | loadReaders _ h | loadCount _ _ h | loadNext _ _ h | giveUp h | unlock h
  | regCount h | regPrevious h | regNext h | regLink h | regHead h | regUnlock h | unregPrevious h
  | unregNext h | unregUnlock h | readTest _ h | readNest h | readWriter _ h | readStore _ h
  | readCheck _ h | readBack _ h | readUnlock h => h

/-- The thread registers its reader, or takes it out of the list. -/
def Changes : Pc ι → Prop
  | fas .register _ | loadReaders .register _ | loadCount .register _ _ | loadNext .register _ _
  | fas .unregister _ | loadReaders .unregister _ | loadCount .unregister _ _
  | loadNext .unregister _ _ | regCount _ | regPrevious _ | regNext _ | regLink _ | regHead _
  | regUnlock _ | unregPrevious _ | unregNext _ | unregUnlock _ => True
  | _ => False

end Pc

namespace Held

def enter (h : Held) : Held := { h with depth := h.depth + 1 }

def leave (h : Held) : Held := { h with depth := h.depth - 1 }

end Held

variable [DecidableEq ι]

namespace Mem

/-- A fetch-and-store of `writer`, which was not set. -/
def own (i : ι) (m : Mem ι) : Mem ι := { m with writer := true, owner := some i }

/-- `ck_brlock_write_unlock`. -/
def disown (m : Mem ι) : Mem ι := { m with writer := false, owner := none }

/-- Stores to the fields of a reader. -/
def setCount (i : ι) (n : Nat) (m : Mem ι) : Mem ι :=
  { m with nReaders := Function.update m.nReaders i n }

def setPrevious (i : ι) (v : Option ι) (m : Mem ι) : Mem ι :=
  { m with previous := Function.update m.previous i v }

def setNext (i : ι) (v : Option ι) (m : Mem ι) : Mem ι :=
  { m with next := Function.update m.next i v }

/-- `ck_pr_store_ptr(&br->readers, reader)`. -/
def insert (i : ι) (m : Mem ι) : Mem ι := { m with readers := some i, list := i :: m.list }

/-- The store that takes a reader out of the list: to the field `next` of the one before it, or to
`readers`. -/
def remove (i : ι) (m : Mem ι) : Mem ι :=
  match m.previous i with
  | some a => { m.setNext a (m.next i) with list := m.list.erase i }
  | none => { m with readers := m.next i, list := m.list.erase i }

/-- The reader that comes after this one gets to know the one before it. -/
def setPreviousOf (o v : Option ι) (m : Mem ι) : Mem ι :=
  match o with
  | some a => m.setPrevious a v
  | none => m

/-- A reader is let in once more, or leaves. -/
def setDepth (i : ι) (n : Nat) (m : Mem ι) : Mem ι :=
  { m with depth := Function.update m.depth i n }

end Mem

/-- Where a thread is when it has found the end of the list. -/
def Use.locked (u : Use) (h : Held) : Pc ι :=
  match u with
  | .write _ => .outside { h with writing := true }
  | .register => .regNext h
  | .unregister => .unregPrevious h

/-- The condition of the loop over the readers. -/
def Use.visit (u : Use) (cursor : Option ι) (h : Held) : Pc ι :=
  match cursor with
  | some c => .loadCount u c h
  | none => u.locked h

/-- One access of thread `i` (`ck_brlock.h:74-277`). -/
def act (i : ι) (m : Mem ι) : Pc ι → Mem ι × Pc ι
  | .outside h => (m, .outside h)
  | .fas u h =>
    if m.writer = true then (m, match u.spend with
      | some u => .fas u h
      | none => .outside h)
    else (m.own i, .loadReaders u h)
  | .loadReaders u h => (m, u.visit m.readers h)
  | .loadCount u c h =>
    (m, if m.nReaders c ≠ 0 then
      (match u.spend with
      | some u => .loadCount u c h
      | none => .giveUp h)
      else .loadNext u c h)
  | .loadNext u c h => (m, u.visit (m.next c) h)
  | .giveUp h => (m.disown, .outside h)
  | .unlock h => (m.disown, .outside { h with writing := false })
  | .regCount h => (m.setCount i 0, .regPrevious h)
  | .regPrevious h => (m.setPrevious i none, .fas .register h)
  | .regNext h => (m.setNext i m.readers, .regLink h)
  | .regLink h => (m.setPreviousOf (m.next i) (some i), .regHead h)
  | .regHead h => (m.insert i, .regUnlock h)
  | .regUnlock h => (m.disown, .outside { h with registered := true })
  | .unregPrevious h => (m.setPreviousOf (m.next i) (m.previous i), .unregNext h)
  | .unregNext h => (m.remove i, .unregUnlock h)
  | .unregUnlock h => (m.disown, .outside { h with registered := false })
  | .readTest b h => (m, if 1 ≤ m.nReaders i then .readNest h else .readWriter b h)
  | .readNest h =>
    ((m.setCount i (Counter.inc (2 ^ 32) (m.nReaders i))).setDepth i (h.depth + 1),
      .outside h.enter)
  | .readWriter b h =>
    (m, if m.writer = true then
      (match b.spend with
      | some b => .readWriter b h
      | none => .outside h)
      else .readStore b h)
  | .readStore b h => (m.setCount i 1, .readCheck b h)
  | .readCheck b h =>
    if m.writer = false then (m.setDepth i (h.depth + 1), .outside h.enter)
    else (m, .readBack b h)
  | .readBack b h =>
    (m.setCount i 0, match b.spend with
      | some b => .readWriter b h
      | none => .outside h)
  | .readUnlock h =>
    ((m.setCount i (Counter.dec (2 ^ 32) (m.nReaders i))).setDepth i (h.depth - 1),
      .outside h.leave)

/-- One step of thread `i`: it calls a function, or makes the next access of its call. A thread
reads with a reader that is registered, and takes it out of the list when it does not read. -/
inductive Step (i : ι) : Mem ι → Pc ι → Mem ι → Pc ι → Prop
  | writeLock {m : Mem ι} {h : Held} : Step i m (.outside h) m (.fas (.write .unlimited) h)
  | writeTrylock {m : Mem ι} {h : Held} (factor : Nat) :
    Step i m (.outside h) m (.fas (.write (.limited factor 0)) h)
  | writeUnlock {m : Mem ι} {h : Held} (hwriting : h.writing = true) :
    Step i m (.outside h) m (.unlock h)
  | readRegister {m : Mem ι} {h : Held} (hnew : h.registered = false) :
    Step i m (.outside h) m (.regCount h)
  | readUnregister {m : Mem ι} {h : Held} (hold : h.registered = true) (hdepth : h.depth = 0) :
    Step i m (.outside h) m (.fas .unregister h)
  | readLock {m : Mem ι} {h : Held} (hold : h.registered = true) :
    Step i m (.outside h) m (.readTest .unlimited h)
  | readTrylock {m : Mem ι} {h : Held} (hold : h.registered = true) (factor : Nat) :
    Step i m (.outside h) m (.readTest (.limited factor 0) h)
  | readUnlock {m : Mem ι} {h : Held} (hdepth : 0 < h.depth) :
    Step i m (.outside h) m (.readUnlock h)
  | act {m : Mem ι} {pc : Pc ι} : Step i m pc (act i m pc).1 (act i m pc).2

/-- A new lock and readers whose fields hold anything, with all threads outside. -/
def start (nReaders : ι → Nat) (previous next : ι → Option ι) :
    Threads.System (Mem ι) (Pc ι) ι where
  mem := ⟨none, false, nReaders, previous, next, [], none, fun _ => 0⟩
  pc _ := .outside ⟨false, 0, false⟩

end ConcurrencyKit.Brlock
