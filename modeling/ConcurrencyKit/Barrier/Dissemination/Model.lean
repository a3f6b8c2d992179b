import ConcurrencyKit.Barrier.Roster
import ConcurrencyKit.Internal
import ConcurrencyKit.Misc.Threads

/-!
# The dissemination barrier

The functions of `src/ck_barrier_dissemination.c`, one access at a time. In round `k` of a call a
thread sets a flag of the thread that is `2 ^ k` places further on, and waits for the one of its own
that the thread `2 ^ k` places before it sets. There are two sets of flags, which the calls use in
turn.

Next to the words a `Mem` keeps how many calls the threads have started, and in how many calls they
have set their flag of a round.
-/

namespace ConcurrencyKit.Barrier.Dissemination

/-- `barrier->size` (`ck_barrier_dissemination.c:44`). -/
def size (nthr : Nat) : Nat := logUp nthr

/-- The thread `j` whose flag the thread `i` sets in round `k`
(`ck_barrier_dissemination.c:52-66`). -/
def partner (nthr i k : Nat) : Nat :=
  let offset := (1 <<< k) % 2 ^ 32
  if nthr &&& (nthr - 1) = 0 then ((i + offset) % 2 ^ 32) &&& (nthr - 1)
  else ((i + offset) % 2 ^ 32) % nthr

/-- The flags `barrier[t].flags[parity][k].tflag`, the word `barrier->tid`, and how far the threads
have come. -/
structure Mem (ι : Type) where
  /-- Thread `t` has started so many calls. -/
  calls : Nat → Nat
  /-- Thread `t` has set its flag of round `k` in so many calls. -/
  wrote : Nat → Nat → Nat
  roster : Roster ι
  tflag : Nat → Nat → Nat → BitVec 32

/-- `struct ck_barrier_dissemination_state`. -/
structure State where
  parity : Nat
  sense : BitVec 32
  tid : Nat
  deriving DecidableEq, Repr

/-- Where a thread stands that has returned from `n` calls. -/
inductive Pc where
  | new
  | idle (state : State) (n : Nat)
  /-- `ck_barrier_dissemination`, round `i`. -/
  | signal (state : State) (n i : Nat)
  | wait (state : State) (n i : Nat)
  | leave (state : State) (n : Nat)
  deriving DecidableEq, Repr

namespace Pc

/-- The number of calls that the thread has returned from. -/
def returned : Pc → Nat
  | new => 0
  | idle _ n | signal _ n _ | wait _ n _ | leave _ n => n

/-- The number of calls that it has started. -/
def started : Pc → Nat
  | new => 0
  | idle _ n => n
  | signal _ n _ | wait _ n _ | leave _ n => n + 1

end Pc

/-- `for (i = 0; i < size; ++i)`. -/
def round (nthr : Nat) (state : State) (n i : Nat) : Pc :=
  if i < size nthr then .signal state n i else .leave state n

variable {ι : Type}

namespace Mem

/-- Thread `t` starts a call. -/
def call (t : Nat) (m : Mem ι) : Mem ι :=
  { m with calls := Function.update m.calls t (m.calls t + 1) }

/-- `ck_pr_store_uint(pflag, state->sense)`, in round `k` of the thread `t`. -/
def signal (nthr p k t : Nat) (sense : BitVec 32) (m : Mem ι) : Mem ι :=
  { m with
    wrote := Function.update m.wrote k (Function.update (m.wrote k) t (m.wrote k t + 1))
    tflag := Function.update m.tflag p (Function.update (m.tflag p) k
      (Function.update (m.tflag p k) (partner nthr t k) sense)) }

end Mem

/-- `ck_barrier_dissemination_init` (`ck_barrier_dissemination.c:36-76`). -/
def init : Mem ι where
  calls _ := 0
  wrote _ _ := 0
  roster := ⟨[], 0⟩
  tflag _ _ _ := 0

/-- `ck_barrier_dissemination_subscribe` (`ck_barrier_dissemination.c:79-87`). -/
def subscribe (i : ι) (m : Mem ι) : Mem ι × Pc :=
  ({ m with roster := m.roster.subscribe i }, .idle ⟨0, ~~~0, m.roster.tid⟩ 0)

/-- One access of a thread: `ck_barrier_dissemination` (`ck_barrier_dissemination.c:97-130`). -/
def act (nthr : Nat) (m : Mem ι) : Pc → Mem ι × Pc
  | .signal state n i => (m.signal nthr state.parity i state.tid state.sense, .wait state n i)
  | .wait state n i =>
    (m, if m.tflag state.parity i state.tid ≠ state.sense then .wait state n i
      else round nthr state n (i + 1))
  | .leave state n =>
    (m, .idle ⟨1 - state.parity, if state.parity = 1 then ~~~ state.sense else state.sense,
      state.tid⟩ (n + 1))
  | p => (m, p)

/-- One step of thread `i` of a barrier for `nthr` threads. -/
inductive Step (nthr : Nat) (i : ι) : Mem ι → Pc → Mem ι → Pc → Prop
  | subscribe (m : Mem ι) : Step nthr i m .new (subscribe i m).1 (subscribe i m).2
  | call (m : Mem ι) (state : State) (n : Nat) :
      Step nthr i m (.idle state n) (m.call state.tid) (round nthr state n 0)
  | act {m : Mem ι} {p : Pc} (h : p.started = p.returned + 1) :
      Step nthr i m p (act nthr m p).1 (act nthr m p).2

end ConcurrencyKit.Barrier.Dissemination
