import ConcurrencyKit.Barrier.Roster
import ConcurrencyKit.Internal
import ConcurrencyKit.Misc.Threads

/-!
# The tournament barrier

The functions of `src/ck_barrier_tournament.c`, one access at a time. In a call a thread climbs from
round to round: as a winner it waits for its opponent, as a loser it sets the flag of its opponent
and waits on its own one. The champion ends the climb, and everybody sets the flags of the opponents
that he has won against on the way down.

Where `ck_barrier_tournament_init` leaves a role or an opponent out, the memory keeps what has been
there (`junk`). Next to the flags a `Mem` keeps in how many calls each thread has started, has told
that all threads below it have come, and has been woken.
-/

namespace ConcurrencyKit.Barrier.Tournament

/-- The roles. A word that has not been set may hold none of them. -/
inductive Role where
  | bye
  | champion
  | dropout
  | loser
  | winner
  | other
  deriving DecidableEq, Repr

/-- `role` and `opponent` of `struct ck_barrier_tournament_round`, where an opponent is the flag of
a thread in a round. -/
structure Round where
  role : Role
  opponent : Nat × Nat
  deriving DecidableEq, Repr

/-- `ck_barrier_tournament_size` (`ck_barrier_tournament.c:102-106`). -/
def size (nthr : Nat) : Nat := logUp nthr + 1

/-- `rounds[i][k].role` after `ck_barrier_tournament_init` (`ck_barrier_tournament.c:71-89`). -/
def role (junk : Nat → Nat → Round) (nthr i k : Nat) : Role :=
  if k = 0 then .dropout
  else
    let twok := 2 ^ k % 2 ^ 32
    let twokm1 := 2 ^ (k - 1) % 2 ^ 32
    let imod2k := i &&& (twok - 1)
    let first :=
      if imod2k = 0 then
        if (i + twokm1) % 2 ^ 32 < nthr ∧ twok < nthr then .winner
        else if (i + twokm1) % 2 ^ 32 ≥ nthr then .bye
        else (junk i k).role
      else (junk i k).role
    if imod2k = twokm1 then .loser
    else if i = 0 ∧ twok ≥ nthr then .champion
    else first

/-- `rounds[i][k].opponent` after `ck_barrier_tournament_init`
(`ck_barrier_tournament.c:91-95`). -/
def opponent (junk : Nat → Nat → Round) (nthr i k : Nat) : Nat × Nat :=
  let twokm1 := 2 ^ (k - 1) % 2 ^ 32
  if role junk nthr i k = .loser then ((i + (2 ^ 32 - twokm1)) % 2 ^ 32, k)
  else if role junk nthr i k = .winner ∨ role junk nthr i k = .champion then
    ((i + twokm1) % 2 ^ 32, k)
  else (junk i k).opponent

/-- The flags `rounds[i][k].flag`, and how far the threads have come. -/
structure Mem (ι : Type) where
  /-- Thread `t` has started so many calls. -/
  calls : Nat → Nat
  /-- Thread `t` has told its opponent, or has become the champion, in so many calls. -/
  reports : Nat → Nat
  /-- Thread `t` has been woken in so many calls. -/
  woken : Nat → Nat
  roster : Roster ι
  flag : Nat × Nat → BitVec 32

/-- `struct ck_barrier_tournament_state`. -/
structure State where
  sense : BitVec 32
  vpid : Nat
  deriving DecidableEq, Repr

/-- Where a thread stands that has returned from `n` calls. -/
inductive Pc where
  | new
  | idle (state : State) (n : Nat)
  /-- `barrier->size == 1`. -/
  | quit (state : State) (n : Nat)
  /-- The switch of the first loop, and its waits. -/
  | climb (state : State) (n round : Nat)
  | win (state : State) (n round : Nat)
  | lose (state : State) (n round : Nat)
  | champion (state : State) (n round : Nat)
  | crown (state : State) (n round : Nat)
  /-- The switch of the second loop. -/
  | descend (state : State) (n round : Nat)
  | leave (state : State) (n : Nat)
  deriving DecidableEq, Repr

namespace Pc

/-- The number of calls that the thread has returned from. -/
def returned : Pc → Nat
  | new => 0
  | idle _ n | quit _ n | climb _ n _ | win _ n _ | lose _ n _ | champion _ n _ | crown _ n _
  | descend _ n _ | leave _ n => n

/-- The number of calls that it has started. -/
def started : Pc → Nat
  | new => 0
  | idle _ n => n
  | quit _ n | climb _ n _ | win _ n _ | lose _ n _ | champion _ n _ | crown _ n _
  | descend _ n _ | leave _ n => n + 1

end Pc

variable {ι : Type}

namespace Mem

/-- `ck_pr_store_uint` to the flag of an opponent. -/
def store (d : Nat × Nat) (v : BitVec 32) (m : Mem ι) : Mem ι :=
  { m with flag := Function.update m.flag d v }

/-- Thread `t` starts a call. -/
def call (t : Nat) (m : Mem ι) : Mem ι :=
  { m with calls := Function.update m.calls t (m.calls t + 1) }

/-- All threads below thread `t` have come. -/
def report (t : Nat) (m : Mem ι) : Mem ι :=
  { m with reports := Function.update m.reports t (m.reports t + 1) }

/-- Thread `t` has been woken. -/
def wake (t : Nat) (m : Mem ι) : Mem ι :=
  { m with woken := Function.update m.woken t (m.woken t + 1) }

end Mem

/-- The flags after `ck_barrier_tournament_init` (`ck_barrier_tournament.c:60-99`). -/
def init : Mem ι where
  calls _ := 0
  reports _ := 0
  woken _ := 0
  roster := ⟨[], 0⟩
  flag _ := 0

/-- `ck_barrier_tournament_subscribe` (`ck_barrier_tournament.c:50-57`). -/
def subscribe (i : ι) (m : Mem ι) : Mem ι × Pc :=
  ({ m with roster := m.roster.subscribe i }, .idle ⟨~~~0, m.roster.tid⟩ 0)

/-- One access of a thread: `ck_barrier_tournament` (`ck_barrier_tournament.c:109-184`). -/
def act (junk : Nat → Nat → Round) (nthr : Nat) (m : Mem ι) : Pc → Mem ι × Pc
  | .quit state n => (m, .idle state (n + 1))
  | .climb state n round =>
    match role junk nthr state.vpid round with
    | .bye | .dropout | .other => (m, .climb state n (round + 1))
    | .champion => (m, .champion state n round)
    | .loser =>
      ((m.store (opponent junk nthr state.vpid round) state.sense).report state.vpid,
        .lose state n round)
    | .winner => (m, .win state n round)
  | .win state n round =>
    (m, if m.flag (state.vpid, round) ≠ state.sense then .win state n round
      else .climb state n (round + 1))
  | .lose state n round =>
    if m.flag (state.vpid, round) ≠ state.sense then (m, .lose state n round)
    else (m.wake state.vpid, .descend state n (round - 1))
  | .champion state n round =>
    if m.flag (state.vpid, round) ≠ state.sense then (m, .champion state n round)
    else (m.report state.vpid, .crown state n round)
  | .crown state n round =>
    (m.store (opponent junk nthr state.vpid round) state.sense, .descend state n (round - 1))
  | .descend state n round =>
    match role junk nthr state.vpid round with
    | .bye | .champion | .loser | .other => (m, .descend state n (round - 1))
    | .dropout => (m, .leave state n)
    | .winner =>
      (m.store (opponent junk nthr state.vpid round) state.sense, .descend state n (round - 1))
  | .leave state n => (m, .idle ⟨~~~ state.sense, state.vpid⟩ (n + 1))
  | p => (m, p)

/-- One step of thread `i` of a barrier for `nthr` threads. -/
inductive Step (junk : Nat → Nat → Round) (nthr : Nat) (i : ι) :
    Mem ι → Pc → Mem ι → Pc → Prop
  | subscribe (m : Mem ι) : Step junk nthr i m .new (subscribe i m).1 (subscribe i m).2
  | call (m : Mem ι) (state : State) (n : Nat) :
      Step junk nthr i m (.idle state n) (m.call state.vpid)
        (if size nthr = 1 then .quit state n else .climb state n 1)
  | act {m : Mem ι} {p : Pc} (h : p.started = p.returned + 1) :
      Step junk nthr i m p (act junk nthr m p).1 (act junk nthr m p).2

end ConcurrencyKit.Barrier.Tournament
