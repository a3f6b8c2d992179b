import ConcurrencyKit.Barrier.Roster
import ConcurrencyKit.Misc.Threads

/-!
# The MCS tree barrier

The functions of `src/ck_barrier_mcs.c`, one access at a time. A thread waits for its up to four
children in the tree of arrivals, arms their flags again, and clears its own flag at its parent. The
thread at the root then wakes its two children in the other tree, and they theirs.

Next to the words a `Mem` keeps in how many calls each thread has started, has told its parent, has
armed the flag of a child again and has been woken.
-/

namespace ConcurrencyKit.Barrier.Mcs

/-- The words of `barrier[i]` that other threads store to. -/
inductive Loc where
  | childnotready (i j : Nat)
  | dummy (i : Nat)
  | parentsense (i : Nat)
  deriving DecidableEq, Repr

/-- `barrier[i].havechild[j]` (`ck_barrier_mcs.c:46`). -/
def havechild (nthr i j : Nat) : BitVec 32 :=
  if ((i <<< 2) % 2 ^ 32 + j) % 2 ^ 32 < nthr - 1 then ~~~0 else 0

/-- `barrier[i].parent` (`ck_barrier_mcs.c:56-58`). -/
def parent (i : Nat) : Loc :=
  if i = 0 then .dummy i else .childnotready ((i - 1) >>> 2) ((i - 1) &&& 3)

/-- `barrier[i].children[c]` (`ck_barrier_mcs.c:61-67`). -/
def children (nthr i c : Nat) : Loc :=
  let child := ((i <<< 1) % 2 ^ 32 + (c + 1)) % 2 ^ 32
  if child ≥ nthr then .dummy i else .parentsense child

/-- The words of the barrier, and how far the threads have come. -/
structure Mem (ι : Type) where
  /-- Thread `t` has started so many calls. -/
  calls : Nat → Nat
  /-- Thread `t` has told its parent in so many calls. -/
  reports : Nat → Nat
  /-- Thread `t` has armed the flag of child `j` again in so many calls. -/
  rearms : Nat → Nat → Nat
  /-- Thread `t` has been woken in so many calls. -/
  woken : Nat → Nat
  roster : Roster ι
  word : Loc → BitVec 32

/-- `struct ck_barrier_mcs_state`. -/
structure State where
  sense : BitVec 32
  vpid : Nat
  deriving DecidableEq, Repr

/-- Where a thread stands that has returned from `n` calls. -/
inductive Pc where
  | new
  | idle (state : State) (n : Nat)
  /-- `ck_barrier_mcs_check_children`. -/
  | check (state : State) (n j : Nat)
  /-- `ck_barrier_mcs_reinitialize_children`. -/
  | reinit (state : State) (n j : Nat)
  /-- `ck_barrier_mcs`. -/
  | report (state : State) (n : Nat)
  | wait (state : State) (n : Nat)
  | wake (state : State) (n c : Nat)
  deriving DecidableEq, Repr

namespace Pc

/-- The number of calls that the thread has returned from. -/
def returned : Pc → Nat
  | new => 0
  | idle _ n | check _ n _ | reinit _ n _ | report _ n | wait _ n | wake _ n _ => n

/-- The number of calls that it has started. -/
def started : Pc → Nat
  | new => 0
  | idle _ n => n
  | check _ n _ | reinit _ n _ | report _ n | wait _ n | wake _ n _ => n + 1

end Pc

variable {ι : Type}

namespace Mem

/-- `ck_pr_store_uint`. -/
def store (d : Loc) (v : BitVec 32) (m : Mem ι) : Mem ι :=
  { m with word := Function.update m.word d v }

/-- Thread `t` starts a call. -/
def call (t : Nat) (m : Mem ι) : Mem ι :=
  { m with calls := Function.update m.calls t (m.calls t + 1) }

/-- Thread `t` arms the flag of child `j` again. -/
def rearm (nthr t j : Nat) (m : Mem ι) : Mem ι :=
  { m.store (.childnotready t j) (havechild nthr t j) with
    rearms := Function.update m.rearms t (Function.update (m.rearms t) j (m.rearms t j + 1)) }

/-- Thread `t` tells its parent. -/
def report (t : Nat) (m : Mem ι) : Mem ι :=
  { m.store (parent t) 0 with reports := Function.update m.reports t (m.reports t + 1) }

/-- Thread `t` has been woken. -/
def wake (t : Nat) (m : Mem ι) : Mem ι :=
  { m with woken := Function.update m.woken t (m.woken t + 1) }

end Mem

/-- `ck_barrier_mcs_init` (`ck_barrier_mcs.c:34-73`). -/
def init (nthr : Nat) : Mem ι where
  calls _ := 0
  reports _ := 0
  rearms _ _ := 0
  woken _ := 0
  roster := ⟨[], 0⟩
  word
    | .childnotready i j => havechild nthr i j
    | .dummy _ => 0
    | .parentsense _ => 0

/-- `ck_barrier_mcs_subscribe` (`ck_barrier_mcs.c:76-82`). -/
def subscribe (i : ι) (m : Mem ι) : Mem ι × Pc :=
  ({ m with roster := m.roster.subscribe i }, .idle ⟨~~~0, m.roster.tid⟩ 0)

/-- One access of a thread: `ck_barrier_mcs` (`ck_barrier_mcs.c:84-141`). -/
def act (nthr : Nat) (m : Mem ι) : Pc → Mem ι × Pc
  | .check state n j =>
    (m, if m.word (.childnotready state.vpid j) ≠ 0 then .check state n 0
      else if j < 3 then .check state n (j + 1) else .reinit state n 0)
  | .reinit state n j =>
    (m.rearm nthr state.vpid j,
      if j < 3 then .reinit state n (j + 1) else .report state n)
  | .report state n =>
    (m.report state.vpid, if state.vpid ≠ 0 then .wait state n else .wake state n 0)
  | .wait state n =>
    if m.word (.parentsense state.vpid) ≠ state.sense then (m, .wait state n)
    else (m.wake state.vpid, .wake state n 0)
  | .wake state n c =>
    (m.store (children nthr state.vpid c) state.sense,
      if c = 0 then .wake state n 1 else .idle ⟨~~~ state.sense, state.vpid⟩ (n + 1))
  | p => (m, p)

/-- One step of thread `i` of a barrier for `nthr` threads. -/
inductive Step (nthr : Nat) (i : ι) : Mem ι → Pc → Mem ι → Pc → Prop
  | subscribe (m : Mem ι) : Step nthr i m .new (subscribe i m).1 (subscribe i m).2
  | call (m : Mem ι) (state : State) (n : Nat) :
      Step nthr i m (.idle state n) (m.call state.vpid) (.check state n 0)
  | act {m : Mem ι} {p : Pc} (h : p.started = p.returned + 1) :
      Step nthr i m p (act nthr m p).1 (act nthr m p).2

end ConcurrencyKit.Barrier.Mcs
