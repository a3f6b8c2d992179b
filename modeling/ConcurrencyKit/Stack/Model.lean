import ConcurrencyKit.Misc.Threads
import ConcurrencyKit.Misc.Lifo

/-!
# The stack of `ck_stack`

The operations of `include/ck_stack.h` for many producers and consumers, one access at a time:
every load and store, every compare-and-swap of `head` or of the pair `(head, generation)`, and
each of the two updates of `ck_stack_batch_pop_mpmc_wf` is one step. The generation is a machine
word with `W` values.

Next to the memory a `Mem` keeps a history that the code does not have: what is on the stack,
where each entry is, how often the generation has been advanced and how often
`ck_stack_batch_pop_mpmc_wf` has swapped `head`, and the operations in the order in which they take
effect. An operation takes effect with its last access, in the same step in which it returns.
-/

namespace ConcurrencyKit.Stack

open Lifo (Op)

/-- Where an entry is. -/
inductive Place (ι : Type) where
  | outside
  /-- Thread `i` is about to push it. -/
  | held (i : ι)
  | inside
  deriving DecidableEq, Repr

/-- `struct ck_stack` and its entries, and the history of their use. -/
structure Mem (N ι : Type) where
  next : N → Option N
  head : Option N
  generation : Nat
  /-- What is on the stack, from the top. -/
  contents : List N
  place : N → Place ι
  /-- How often the generation has been advanced. -/
  removals : Nat
  /-- How often `ck_stack_batch_pop_mpmc_wf` has swapped `head`. -/
  swaps : Nat
  /-- The value of `swaps` when the thread has last taken a snapshot of `head`. -/
  seen : ι → Nat
  /-- The value of `removals` when the current call of a thread began. -/
  born : ι → Nat
  events : List (ι × Op N)

/-- The push operations: until it succeeds, or one attempt. -/
inductive Pusher where
  | push
  | tryPush
  deriving DecidableEq, Repr

/-- The operations that compare and swap the pair. -/
inductive Popper where
  | pop
  | tryPop
  | batchPop
  deriving DecidableEq, Repr

/-- The operations. -/
inductive Kind where
  | push (k : Pusher)
  | pop (k : Popper)
  | batchPopWf
  deriving DecidableEq, Repr

/-- Where a thread stands, with the local variables that are live. -/
inductive Pc (N : Type) where
  | idle
  | pushHead (k : Pusher) (entry : N)
  | pushNext (k : Pusher) (entry : N) (stack : Option N)
  | pushCas (k : Pusher) (entry : N) (stack : Option N)
  | popGeneration (k : Popper)
  | popHead (k : Popper) (generation : Nat)
  | popNext (k : Popper) (generation : Nat) (head : N)
  | popCas (k : Popper) (generation : Nat) (head : N) (next : Option N)
  | wfAdd
  | wfSwap
  | done (op : Op N)

variable {N ι : Type}

/-- The thread is between two calls. -/
def Pc.Resting : Pc N → Prop
  | .idle | .done _ => True
  | _ => False

/-- What an operation returns that finds the stack empty. -/
def Popper.empty : Popper → Op N
  | .pop => .pop none
  | .tryPop => .miss
  | .batchPop => .popAll []

namespace Mem

/-- An operation of thread `i` takes effect. -/
def finish (i : ι) (op : Op N) (m : Mem N ι) : Mem N ι :=
  { m with events := m.events ++ [(i, op)] }

/-- All entries leave the stack. -/
def clear [DecidableEq N] (m : Mem N ι) : Mem N ι :=
  { m with
    head := none
    contents := []
    place := fun x => if x ∈ m.contents then .outside else m.place x }

/-- Advance the generation. -/
def advance (W : Nat) (m : Mem N ι) : Mem N ι :=
  { m with generation := (m.generation + 1) % W, removals := m.removals + 1 }

variable [DecidableEq N]

/-- The entry leaves the top of the stack. -/
def take (entry : N) (next : Option N) (m : Mem N ι) : Mem N ι :=
  { m with
    head := next
    contents := m.contents.tail
    place := Function.update m.place entry .outside }

/-- The entry comes to the top of the stack. -/
def put (entry : N) (m : Mem N ι) : Mem N ι :=
  { m with
    head := some entry
    contents := entry :: m.contents
    place := Function.update m.place entry .inside }

/-- Write to the `next` of an entry. -/
def storeNext (entry : N) (value : Option N) (m : Mem N ι) : Mem N ι :=
  { m with next := Function.update m.next entry value }

/-- The place of an entry changes. -/
def move (entry : N) (p : Place ι) (m : Mem N ι) : Mem N ι :=
  { m with place := Function.update m.place entry p }

variable [DecidableEq ι]

/-- Thread `i` enters a call. -/
def begin (i : ι) (m : Mem N ι) : Mem N ι :=
  { m with born := Function.update m.born i m.removals }

/-- Thread `i` takes a snapshot of `head`. -/
def see (i : ι) (m : Mem N ι) : Mem N ι :=
  { m with seen := Function.update m.seen i m.swaps }

/-- `ck_pr_fas_ptr(&target->head, NULL)`. -/
def swap (m : Mem N ι) : Mem N ι := { m.clear with swaps := m.swaps + 1 }

omit [DecidableEq N] in
/-- A consumer has loaded the pair, or `head` after the generation. -/
def look (i : ι) (k : Popper) (generation : Nat) (m : Mem N ι) : Mem N ι × Pc N :=
  match m.head with
  | none => (m.finish i k.empty, .done k.empty)
  | some h =>
    (m.see i, if k = .batchPop then .popCas k generation h none else .popNext k generation h)

/-- One access of thread `i`: `ck_stack_push_mpmc` and `ck_stack_trypush_mpmc`
(`ck_stack.h:53-88`), `ck_stack_pop_mpmc` and `ck_stack_trypop_mpmc` (`ck_stack.h:203-258`),
`ck_stack_batch_pop_mpmc_wf` (`ck_stack.h:278-289`) and `ck_stack_batch_pop_mpmc`
(`ck_stack.h:312-335`). -/
def act (W : Nat) (i : ι) (m : Mem N ι) : Pc N → Mem N ι × Pc N
  | .pushHead k e => (m, .pushNext k e m.head)
  | .pushNext k e stack => (m.storeNext e stack, .pushCas k e stack)
  | .pushCas k e stack =>
    if m.head = stack then ((m.put e).finish i (.push e), .done (.push e))
    else if k = .tryPush then ((m.move e .outside).finish i .miss, .done .miss)
    else (m, .pushNext k e m.head)
  | .popGeneration k => (m, .popHead k m.generation)
  | .popHead k g => m.look i k g
  | .popNext k g h => (m, .popCas k g h (m.next h))
  | .popCas k g h n =>
    if m.head = some h ∧ m.generation = g then
      if k = .batchPop then
        ((m.clear.advance W).finish i (.popAll m.contents), .done (.popAll m.contents))
      else (((m.take h n).advance W).finish i (.pop (some h)), .done (.pop (some h)))
    else if k = .tryPop then (m.finish i .miss, .done .miss)
    -- a failed compare-and-swap has loaded the pair
    else m.look i k m.generation
  | .wfAdd => (m.advance W, .wfSwap)
  | .wfSwap => (m.swap.finish i (.popAll m.contents), .done (.popAll m.contents))
  | pc => (m, pc)

end Mem

/-- One step of thread `i`: it enters a call that it may make, pushing an entry that is outside
the stack, or makes the next access of its call. -/
inductive Step [DecidableEq N] [DecidableEq ι] (W : Nat) (may : Kind → Prop) (i : ι) :
    Mem N ι → Pc N → Mem N ι → Pc N → Prop
  | push {m : Mem N ι} {pc : Pc N} (k : Pusher) (e : N) (allowed : may (.push k))
      (resting : pc.Resting) (outside : m.place e = .outside) :
      Step W may i m pc ((m.move e (.held i)).begin i) (.pushHead k e)
  | pop {m : Mem N ι} {pc : Pc N} (k : Popper) (allowed : may (.pop k)) (resting : pc.Resting) :
      Step W may i m pc (m.begin i) (.popGeneration k)
  | batchPopWf {m : Mem N ι} {pc : Pc N} (allowed : may .batchPopWf) (resting : pc.Resting) :
      Step W may i m pc (m.begin i) .wfAdd
  | act {m : Mem N ι} {pc : Pc N} (running : ¬ pc.Resting) :
      Step W may i m pc (m.act W i pc).1 (m.act W i pc).2

/-- The generation does not wrap during a call. -/
def Timely (W : Nat) (i : ι) (m : Mem N ι) (pc : Pc N) : Prop :=
  ¬ pc.Resting → m.removals < m.born i + W

/-- The memory after `CK_STACK_INITIALIZER`. -/
def init (next : N → Option N) : Mem N ι where
  next := next
  head := none
  generation := 0
  contents := []
  place := fun _ => .outside
  removals := 0
  swaps := 0
  seen := fun _ => 0
  born := fun _ => 0
  events := []

/-- The stack with all threads idle. -/
def start (next : N → Option N) : Threads.System (Mem N ι) (Pc N) ι where
  mem := init next
  pc := fun _ => .idle

end ConcurrencyKit.Stack
