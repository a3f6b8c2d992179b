import ConcurrencyKit.Misc.Threads
import ConcurrencyKit.EventCount.Format

/-!
# The event count of `ck_ec`

The increments and additions of `include/ck_ec.h` and the slow path of a wait from
`src/ck_ec.c`, one access at a time, for any number of producers and waiters. In multi-producer
mode the update of the counter is one step. In single-producer mode it is a load and a store, and
only the one producer makes them. Deadlines are not modelled: where the code compares the time
with one, the call may end. A sleeping thread may go on at any time.

Next to the counter a `Mem` keeps a history that the code does not have: the words that the
counter has held, when the current wait of a thread began, which threads have yet to make a
wake-up call, and the updates and wake-up calls in order.
-/

namespace ConcurrencyKit.EventCount

variable {f : Format} {ι : Type}

/-- The operations of a producer. -/
inductive Op (f : Format) where
  | inc
  | add (delta : BitVec f.bits)
  deriving DecidableEq

namespace Op

/-- What is added to the value. -/
def delta : Op f → BitVec f.bits
  | inc => 1
  | add d => d

/-- The wake-up call is made, from the word before. -/
def wakes : Op f → BitVec f.bits → Bool
  | inc, old => f.incWakes old
  | add _, old => f.addWakes old

/-- What the operation returns, from the word before. -/
def ret : Op f → BitVec f.bits → Option (BitVec f.bits)
  | inc, _ => none
  | add _, old => some (f.value old)

end Op

/-- What a producer has done. -/
inductive Event (f : Format) (ι : Type) where
  | update (i : ι) (delta old : BitVec f.bits)
  /-- The single producer has added zero. -/
  | read (i : ι) (old : BitVec f.bits)
  | wake (i : ι)
  deriving DecidableEq

/-- The arguments of a wait: the value that is known, and `busy_loop_iter`. -/
structure Call (f : Format) where
  old : BitVec f.bits
  iter : Nat
  deriving DecidableEq

namespace Call

/-- `unflagged_word`. -/
def unflagged (c : Call f) : BitVec f.bits := f.word c.old

/-- `flagged_word`. -/
def flagged (c : Call f) : BitVec f.bits := f.flaggedWord c.old

end Call

/-- Where a thread stands, with the local variables that are live. -/
inductive Pc (f : Format) where
  | idle
  | fetch (op : Op f)
  | store (op : Op f) (old : BitVec f.bits)
  | wakeAnd (ret : Option (BitVec f.bits))
  | wakeCall (ret : Option (BitVec f.bits))
  | returned (ret : Option (BitVec f.bits))
  | waitValue (c : Call f)
  | deadline (c : Call f)
  /-- The first `ck_ec_wait_easy`, after `n` rounds of its loop. -/
  | spin (c : Call f) (n : Nat)
  | cas (c : Call f)
  /-- The second `ck_ec_wait_easy`, after `n` rounds of its loop. -/
  | spinFlagged (c : Call f) (n : Nat)
  | backoff (c : Call f)
  | reread (c : Call f)
  | sleepCall (c : Call f)
  | sleeping (c : Call f)
  | recheck (c : Call f)
  | again (c : Call f)
  | waited (c : Call f) (result : Int)
  deriving DecidableEq

namespace Pc

/-- The thread is between two calls. -/
def Resting : Pc f → Prop
  | idle | returned _ | waited _ _ => True
  | _ => False

/-- The thread has yet to make the wake-up call of an update. -/
def Waking : Pc f → Prop
  | wakeAnd _ | wakeCall _ => True
  | _ => False

/-- The thread is inside an operation of a producer. -/
def Producing : Pc f → Prop
  | fetch _ | store _ _ | wakeAnd _ | wakeCall _ => True
  | _ => False

/-- The code compares the time with the deadline: before the first wait, and in each round of
`exponential_backoff`. -/
def timed : Pc f → Option (Call f)
  | deadline c | backoff c => some c
  | _ => none

instance : DecidablePred (Resting (f := f)) := fun pc => by
  cases pc <;> unfold Resting <;> infer_instance

end Pc

/-- `struct ck_ec32` or `struct ck_ec64`, and the history of its use. -/
structure Mem (f : Format) (ι : Type) where
  counter : BitVec f.bits
  /-- The thread is asleep in `ops->wait32` or `ops->wait64`. -/
  asleep : ι → Bool
  /-- The words that the counter has held. -/
  history : List (BitVec f.bits)
  /-- The place in `history` where the current wait of a thread began. -/
  since : ι → Nat
  /-- The thread has yet to make a wake-up call. -/
  waking : ι → Bool
  log : List (Event f ι)

namespace Mem

/-- Write to the counter. -/
def write (word : BitVec f.bits) (m : Mem f ι) : Mem f ι :=
  { m with counter := word, history := m.history ++ [word] }

variable [DecidableEq ι]

/-- Thread `i` updates the counter, which had the value `old` when it was loaded. -/
def update (i : ι) (op : Op f) (old : BitVec f.bits) (m : Mem f ι) : Mem f ι :=
  { m.write (old + f.amount op.delta) with
    waking := Function.update m.waking i (op.wakes old)
    log := m.log ++ [.update i op.delta old] }

/-- Thread `i` begins to wait. -/
def begin (i : ι) (m : Mem f ι) : Mem f ι :=
  { m with since := Function.update m.since i (m.history.length - 1) }

/-- Thread `i` falls asleep, or goes on. -/
def setAsleep (i : ι) (b : Bool) (m : Mem f ι) : Mem f ι :=
  { m with asleep := Function.update m.asleep i b }

/-- `ops->wake32` or `ops->wake64`: nobody sleeps any more. -/
def wakeAll (i : ι) (m : Mem f ι) : Mem f ι :=
  { m with
    asleep := fun _ => false
    waking := Function.update m.waking i false
    log := m.log ++ [.wake i] }

end Mem

/-- Where a producer goes from its update: `ck_ec32_add_epilogue` (`ck_ec.h:686-700`),
`ck_ec_add64_epilogue` (`ck_ec.h:835-846`) and the end of `ck_ec32_inc` (`ck_ec.h:678-683`). -/
def afterUpdate (op : Op f) (old : BitVec f.bits) : Pc f :=
  if op.wakes old then .wakeAnd (op.ret old) else .returned (op.ret old)

/-- `ck_ec_upgrade` up to its compare-and-swap (`ck_ec.c:233-259`). -/
def upgrade (c : Call f) (current : BitVec f.bits) : Pc f :=
  if current = c.flagged then .spinFlagged c 0
  else if current ≠ c.unflagged then .waited c 0
  else .cas c

variable [DecidableEq ι]

/-- One access of thread `i`. The producer's operations are `ck_ec32_inc` (`ck_ec.h:624-684`),
`ck_ec32_add_mp`, `ck_ec32_add_sp` (`ck_ec.h:702-735`) and their 64-bit versions
(`ck_ec.h:827-881`), with `ck_ec32_wake` and `ck_ec64_wake` (`ck_ec.c:34-60`). The waiter's are
those of `ck_ec32_wait_pred_slow` and `ck_ec64_wait_pred_slow` without a predicate
(`ck_ec.c:126-422`). In single-producer mode `mode` is the producer. -/
def act (mode : Option ι) (i : ι) (m : Mem f ι) : Pc f → Mem f ι × Pc f
  | .fetch op =>
    match mode with
    | none => (m.update i op m.counter, afterUpdate op m.counter)
    | some _ =>
      if op = .add 0 then
        ({ m with log := m.log ++ [.read i m.counter] }, .returned (some (f.value m.counter)))
      else (m, .store op m.counter)
  | .store op old => (m.update i op old, afterUpdate op old)
  | .wakeAnd ret => (m.write (m.counter &&& ~~~f.flag), .wakeCall ret)
  | .wakeCall ret => (m.wakeAll i, .returned ret)
  | .waitValue c => (m, if f.value m.counter ≠ c.old then .waited c 0 else .deadline c)
  | .deadline c => (m, .spin c 0)
  | .spin c n =>
    (m, if m.counter = c.unflagged ∧ n < c.iter then .spin c (n + 1) else upgrade c m.counter)
  | .cas c =>
    if m.counter = c.unflagged then (m.write c.flagged, .spinFlagged c 0)
    else (m, if m.counter ≠ c.flagged then .waited c 0 else .spinFlagged c 0)
  | .spinFlagged c n =>
    (m, if m.counter = c.flagged ∧ n < c.iter then .spinFlagged c (n + 1)
      -- the whole word is compared here, with the flag
      else if m.counter ≠ c.flagged then .waited c 0
      else .backoff c)
  | .backoff c => (m, if f.rereads then .reread c else .sleepCall c)
  | .reread c => (m, if m.counter ≠ c.flagged then .again c else .sleepCall c)
  | .sleepCall c =>
    if m.counter = c.flagged then (m.setAsleep i true, .sleeping c) else (m, .recheck c)
  | .recheck c => (m, if m.counter ≠ c.flagged then .again c else .backoff c)
  | .again c => (m, if f.value m.counter ≠ c.old then .waited c 0 else .spin c 0)
  | pc => (m, pc)

/-- One step of thread `i`: it begins an operation, makes the next access of its call, runs into
its deadline, or goes on after sleeping. -/
inductive Step (mode : Option ι) (i : ι) : Mem f ι → Pc f → Mem f ι → Pc f → Prop
  | produce {m : Mem f ι} {pc : Pc f} (op : Op f) (allowed : ∀ p ∈ mode, p = i)
      (resting : pc.Resting) : Step mode i m pc m (.fetch op)
  | wait {m : Mem f ι} {pc : Pc f} (c : Call f) (resting : pc.Resting) :
      Step mode i m pc (m.begin i) (.waitValue c)
  | act {m : Mem f ι} {pc : Pc f} (running : ¬ pc.Resting) :
      Step mode i m pc (act mode i m pc).1 (act mode i m pc).2
  | timeout {m : Mem f ι} {pc : Pc f} {c : Call f} (h : pc.timed = some c) :
      Step mode i m pc m (.waited c (-1))
  | wakeUp {m : Mem f ι} {c : Call f} :
      Step mode i m (.sleeping c) (m.setAsleep i false) (.recheck c)

theorem act_resting {mode : Option ι} {i : ι} {m : Mem f ι} {pc : Pc f} (h : pc.Resting) :
    act mode i m pc = (m, pc) := by
  cases pc with
  | idle | returned | waited => rfl
  | _ => exact h.elim

/-- The memory after `ck_ec32_init` or `ck_ec64_init`. -/
def init (f : Format) (ι : Type) (value : BitVec f.bits) : Mem f ι where
  counter := f.init value
  asleep := fun _ => false
  history := [f.init value]
  since := fun _ => 0
  waking := fun _ => false
  log := []

/-- A new event count, with all threads idle. -/
def start (f : Format) (ι : Type) (value : BitVec f.bits) : Threads.System (Mem f ι) (Pc f) ι where
  mem := init f ι value
  pc := fun _ => .idle

/-- A thread makes `n` accesses of its call. -/
theorem acts_reachable {mode : Option ι} {ok : ι → Mem f ι → Pc f → Prop}
    {s₀ s : Threads.System (Mem f ι) (Pc f) ι} (hr : Threads.System.Reachable (Step mode) ok s₀ s)
    (i : ι) (n : Nat)
    (good : ∀ k < n + 1, ∀ j, ok j (s.acts (act mode) i k).mem ((s.acts (act mode) i k).pc j)) :
    Threads.System.Reachable (Step mode) ok s₀ (s.acts (act mode) i n) := by
  refine hr.acts i n (fun k hk m pc _ _ => ?_) good
  by_cases h : pc.Resting
  · exact .inl (act_resting h)
  · exact .inr (.act h)

end ConcurrencyKit.EventCount
