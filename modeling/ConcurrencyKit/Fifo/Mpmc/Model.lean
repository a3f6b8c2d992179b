import ConcurrencyKit.Misc.Threads
import ConcurrencyKit.Misc.Window
import ConcurrencyKit.Misc.Queue

/-!
# The queue of `ck_fifo_mpmc`

The operations of `include/ck_fifo.h:226-472`, one access at a time: every load and store of a
pointer, a generation or a value, and every compare-and-swap of a pair is one step. A generation
is a machine word with `W` values. It is kept as a natural number of which the word is the
remainder, so that the code compares remainders, and a call is `Timely` as long as no generation
that it holds has gone round since.

Next to the memory a `Mem` keeps a history that the code does not have. The nodes in the order
in which they are linked form a sequence; the window of it that begins at `head` is the queue.
For each node the history says where it is and whether it has ever been linked, and for each
thread whether the queue was empty at some moment of its current call.
-/

namespace ConcurrencyKit.Fifo.Mpmc

open Linear (History)
open Queue (Op)

/-- Where a node is. -/
inductive Place (ι : Type) where
  | outside
  /-- Thread `i` is about to enqueue it. -/
  | held (i : ι)
  | inside
  deriving DecidableEq, Repr

/-- `struct ck_fifo_mpmc` and its entries, and the history of their use. -/
structure Mem (N V ι : Type) where
  head : N
  headGen : Nat
  tail : N
  tailGen : Nat
  value : N → V
  next : N → Option N
  nextGen : N → Nat
  /-- The nodes in the order in which they are linked, from `head` on. -/
  nodes : Window N
  /-- The position of `tail`. -/
  tailPos : Nat
  /-- The value enqueued with the node of a position. -/
  filed : Nat → V
  place : N → Place ι
  used : N → Bool
  sawEmpty : ι → Bool
  history : History ι (Op V)

/-- The enqueue operations: until it succeeds, or one attempt. -/
inductive Enqueuer where
  | enqueue
  | tryEnqueue
  deriving DecidableEq, Repr

/-- The dequeue operations: until it succeeds or the queue is empty, or one attempt. -/
inductive Dequeuer where
  | dequeue
  | tryDequeue
  deriving DecidableEq, Repr

/-- Where a thread stands, with the local variables that are live. -/
inductive Pc (N V : Type) where
  | idle
  | enqValue (k : Enqueuer) (entry : N) (value : V)
  | enqPointer (k : Enqueuer) (entry : N) (value : V)
  | enqSeed (k : Enqueuer) (entry : N) (value : V)
  | enqGeneration (k : Enqueuer) (entry : N) (value : V) (seed : Nat)
  | enqTailGen (k : Enqueuer) (entry : N) (value : V)
  | enqTail (k : Enqueuer) (entry : N) (value : V) (tailGen : Nat)
  | enqNextGen (k : Enqueuer) (entry : N) (value : V) (tailGen : Nat) (tail : N)
  | enqNext (k : Enqueuer) (entry : N) (value : V) (tailGen : Nat) (tail : N) (nextGen : Nat)
  | enqCheck (k : Enqueuer) (entry : N) (value : V) (tailGen : Nat) (tail : N) (nextGen : Nat)
      (next : Option N)
  | enqHelp (k : Enqueuer) (entry : N) (value : V) (tailGen : Nat) (tail next : N)
  | enqLink (k : Enqueuer) (entry : N) (value : V) (tailGen : Nat) (tail : N) (nextGen : Nat)
  | enqForward (entry : N) (value : V) (tailGen : Nat) (tail : N)
  | deqHeadGen (k : Dequeuer)
  | deqHead (k : Dequeuer) (headGen : Nat)
  | deqTailGen (k : Dequeuer) (headGen : Nat) (head : N)
  | deqTail (k : Dequeuer) (headGen : Nat) (head : N) (tailGen : Nat)
  | deqNextGen (k : Dequeuer) (headGen : Nat) (head : N) (tailGen : Nat) (tail : N)
  | deqNext (k : Dequeuer) (headGen : Nat) (head : N) (tailGen : Nat) (tail : N)
  | deqCheck (headGen : Nat)
  | deqHelp (k : Dequeuer) (tailGen : Nat) (tail next : N)
  | deqValue (k : Dequeuer) (headGen : Nat) (head next : N)
  | deqCas (k : Dequeuer) (headGen : Nat) (head next : N) (value : V)
  /-- The call has returned: what it did and the garbage it returned. -/
  | enqueued (ok : Bool)
  | dequeued (k : Dequeuer) (result : Option (V × N))

variable {N V ι : Type}

/-- The thread is between two calls. -/
def Pc.Resting : Pc N V → Prop
  | .idle | .enqueued _ | .dequeued _ _ => True
  | _ => False

instance : (pc : Pc N V) → Decidable pc.Resting
  | .idle | .enqueued _ | .dequeued _ _ => isTrue trivial
  | .enqValue .. | .enqPointer .. | .enqSeed .. | .enqGeneration .. | .enqTailGen .. | .enqTail ..
  | .enqNextGen .. | .enqNext .. | .enqCheck .. | .enqHelp .. | .enqLink .. | .enqForward ..
  | .deqHeadGen .. | .deqHead .. | .deqTailGen .. | .deqTail .. | .deqNextGen .. | .deqNext ..
  | .deqCheck .. | .deqHelp .. | .deqValue .. | .deqCas .. => isFalse id

/-- The operation that has taken effect and not yet returned. -/
def Pc.pending : Pc N V → Option (Op V)
  | .enqForward _ v _ _ => some (.enqueue v)
  | _ => none

namespace Mem

/-- Every thread takes notice of an empty queue. -/
def observe (m : Mem N V ι) : Mem N V ι :=
  { m with sawEmpty := fun i => m.sawEmpty i || m.nodes.first == m.nodes.last }

/-- Move `tail` on to a node. -/
def forward (n : N) (m : Mem N V ι) : Mem N V ι :=
  { m with tail := n, tailGen := m.tailGen + 1, tailPos := m.tailPos + 1 }

/-- Try to move `tail` on from a snapshot of it. -/
def casTail [DecidableEq N] (W : Nat) (tail : N) (tailGen : Nat) (n : N) (m : Mem N V ι) :
    Mem N V ι :=
  if m.tail = tail ∧ m.tailGen % W = tailGen % W then m.forward n else m

variable [DecidableEq N]

/-- Store the value of a node. -/
def storeValue (e : N) (v : V) (m : Mem N V ι) : Mem N V ι :=
  { m with value := Function.update m.value e v }

/-- Clear the `next` pointer of a node. -/
def clearNext (e : N) (m : Mem N V ι) : Mem N V ι :=
  { m with next := Function.update m.next e none }

/-- Store the generation of the `next` of a node. -/
def storeGen (e : N) (g : Nat) (m : Mem N V ι) : Mem N V ι :=
  { m with nextGen := Function.update m.nextGen e g }

/-- The place of a node changes. -/
def move (e : N) (p : Place ι) (m : Mem N V ι) : Mem N V ι :=
  { m with place := Function.update m.place e p }

variable [DecidableEq ι]

/-- Thread `i` enters a call. -/
def begin (i : ι) (m : Mem N V ι) : Mem N V ι :=
  { m with sawEmpty := Function.update m.sawEmpty i false }

/-- Thread `i` links a node behind the node `t`. -/
def link (i : ι) (t e : N) (v : V) (m : Mem N V ι) : Mem N V ι :=
  { m with
    next := Function.update m.next t (some e)
    nextGen := Function.update m.nextGen t (m.nextGen t + 1)
    nodes := m.nodes.push e
    filed := Function.update m.filed (m.nodes.last + 1) v
    place := Function.update m.place e .inside
    used := Function.update m.used e true
    history := m.history.effect i (.enqueue v) }

/-- Thread `i` moves `head` on to a node and returns the old one. -/
def take (i : ι) (h n : N) (v : V) (m : Mem N V ι) : Mem N V ι :=
  { m with
    head := n
    headGen := m.headGen + 1
    nodes := m.nodes.pop
    place := Function.update m.place h .outside
    history := (m.history.effect i (.dequeue v)).complete i (.dequeue v) }

/-- Thread `i` returns from an enqueue. -/
def finish (i : ι) (v : V) (m : Mem N V ι) : Mem N V ι :=
  { m with history := m.history.complete i (.enqueue v) }

/-- An enqueue has to start over, or has failed. -/
def again (k : Enqueuer) (e : N) (v : V) (m : Mem N V ι) : Mem N V ι × Pc N V :=
  if k = .tryEnqueue then (m.move e .outside, .enqueued false) else (m, .enqTailGen k e v)

omit [DecidableEq N] [DecidableEq ι] in
/-- A dequeue has to start over, or has failed. -/
def restart (k : Dequeuer) (m : Mem N V ι) : Mem N V ι × Pc N V :=
  if k = .tryDequeue then (m, .dequeued k none) else (m, .deqHeadGen k)

/-- One access of thread `i`: `ck_fifo_mpmc_enqueue` and `ck_fifo_mpmc_tryenqueue`
(`ck_fifo.h:244-354`), `ck_fifo_mpmc_dequeue` and `ck_fifo_mpmc_trydequeue`
(`ck_fifo.h:356-472`). -/
def act (W : Nat) (i : ι) (m : Mem N V ι) : Pc N V → Mem N V ι × Pc N V
  | .enqValue k e v => (m.storeValue e v, .enqPointer k e v)
  | .enqPointer k e v => (m.clearNext e, .enqSeed k e v)
  | .enqSeed k e v => (m, .enqGeneration k e v m.tailGen)
  | .enqGeneration k e v s => (m.storeGen e s, .enqTailGen k e v)
  | .enqTailGen k e v => (m, .enqTail k e v m.tailGen)
  | .enqTail k e v tg => (m, .enqNextGen k e v tg m.tail)
  | .enqNextGen k e v tg t => (m, .enqNext k e v tg t (m.nextGen t))
  | .enqNext k e v tg t ng => (m, .enqCheck k e v tg t ng (m.next t))
  | .enqCheck k e v tg t ng n =>
    if m.tailGen % W = tg % W then
      match n with
      | some n => (m, .enqHelp k e v tg t n)
      | none => (m, .enqLink k e v tg t ng)
    else m.again k e v
  | .enqHelp k e v tg t n => (m.casTail W t tg n).again k e v
  | .enqLink k e v tg t ng =>
    if m.next t = none ∧ m.nextGen t % W = ng % W then (m.link i t e v, .enqForward e v tg t)
    else m.again k e v
  | .enqForward e v tg t => ((m.casTail W t tg e).finish i v, .enqueued true)
  | .deqHeadGen k => (m, .deqHead k m.headGen)
  | .deqHead k hg => (m, .deqTailGen k hg m.head)
  | .deqTailGen k hg h => (m, .deqTail k hg h m.tailGen)
  | .deqTail k hg h tg => (m, .deqNextGen k hg h tg m.tail)
  -- the generation of the `next` is loaded and not used
  | .deqNextGen k hg h tg t => (m, .deqNext k hg h tg t)
  | .deqNext k hg h tg t =>
    if h = t then
      match m.next h with
      | none => if k = .tryDequeue then (m, .dequeued k none) else (m, .deqCheck hg)
      | some n => (m, .deqHelp k tg t n)
    else
      match m.next h with
      | none => m.restart k
      | some n => (m, .deqValue k hg h n)
  | .deqCheck hg =>
    if m.headGen % W = hg % W then (m, .dequeued .dequeue none)
    else (m, .deqHeadGen .dequeue)
  | .deqHelp k tg t n => (m.casTail W t tg n).restart k
  | .deqValue k hg h n => (m, .deqCas k hg h n (m.value n))
  | .deqCas k hg h n v =>
    if m.head = h ∧ m.headGen % W = hg % W then (m.take i h n v, .dequeued k (some (v, h)))
    else m.restart k
  | pc => (m, pc)

end Mem

/-- One step of thread `i`: it enters a call, enqueueing a node that is outside the queue, or
makes the next access of its call. -/
inductive Step [DecidableEq N] [DecidableEq ι] (W : Nat) (i : ι) :
    Mem N V ι → Pc N V → Mem N V ι → Pc N V → Prop
  | enqueue {m : Mem N V ι} {pc : Pc N V} (k : Enqueuer) (e : N) (v : V) (resting : pc.Resting)
      (outside : m.place e = .outside) :
      Step W i m pc ((m.move e (.held i)).begin i).observe (.enqValue k e v)
  | dequeue {m : Mem N V ι} {pc : Pc N V} (k : Dequeuer) (resting : pc.Resting) :
      Step W i m pc (m.begin i).observe (.deqHeadGen k)
  | act {m : Mem N V ι} {pc : Pc N V} (running : ¬ pc.Resting) :
      Step W i m pc (m.act W i pc).1.observe (m.act W i pc).2

/-- The generation of `tail` has not gone round since it was `tg`. -/
def TailTimely (W : Nat) (m : Mem N V ι) (tg : Nat) : Prop := m.tailGen < tg + W

/-- The generation of `head` has not gone round since it was `hg`. -/
def HeadTimely (W : Nat) (m : Mem N V ι) (hg : Nat) : Prop := m.headGen < hg + W

/-- No generation goes round while a call holds a value of it. -/
def Timely (W : Nat) (_ : ι) (m : Mem N V ι) : Pc N V → Prop
  | .enqTail _ _ _ tg | .enqNextGen _ _ _ tg _ | .enqHelp _ _ _ tg _ _ | .enqForward _ _ tg _
  | .deqHelp _ tg _ _ => TailTimely W m tg
  | .enqNext _ _ _ tg t ng | .enqCheck _ _ _ tg t ng _ | .enqLink _ _ _ tg t ng =>
    TailTimely W m tg ∧ m.nextGen t < ng + W
  | .deqHead _ hg | .deqTailGen _ hg _ | .deqCheck hg | .deqValue _ hg _ _ | .deqCas _ hg _ _ _ =>
    HeadTimely W m hg
  | .deqTail _ hg _ tg | .deqNextGen _ hg _ tg _ | .deqNext _ hg _ tg _ =>
    HeadTimely W m hg ∧ TailTimely W m tg
  | _ => True

instance (W : Nat) (i : ι) (m : Mem N V ι) : (pc : Pc N V) → Decidable (Timely W i m pc)
  | .enqTail _ _ _ tg | .enqNextGen _ _ _ tg _ | .enqHelp _ _ _ tg _ _ | .enqForward _ _ tg _
  | .deqHelp _ tg _ _ => inferInstanceAs (Decidable (m.tailGen < tg + W))
  | .enqNext _ _ _ tg t ng | .enqCheck _ _ _ tg t ng _ | .enqLink _ _ _ tg t ng =>
    inferInstanceAs (Decidable (m.tailGen < tg + W ∧ m.nextGen t < ng + W))
  | .deqHead _ hg | .deqTailGen _ hg _ | .deqCheck hg | .deqValue _ hg _ _ | .deqCas _ hg _ _ _ =>
    inferInstanceAs (Decidable (m.headGen < hg + W))
  | .deqTail _ hg _ tg | .deqNextGen _ hg _ tg _ | .deqNext _ hg _ tg _ =>
    inferInstanceAs (Decidable (m.headGen < hg + W ∧ m.tailGen < tg + W))
  | .idle | .enqValue .. | .enqPointer .. | .enqSeed .. | .enqGeneration .. | .enqTailGen ..
  | .deqHeadGen .. | .enqueued .. | .dequeued .. => isTrue trivial

/-- The memory after `ck_fifo_mpmc_init`, with other nodes as they happen to be. -/
def init [DecidableEq N] (stub : N) (value : N → V) (next : N → Option N) (nextGen : N → Nat) :
    Mem N V ι where
  head := stub
  headGen := 0
  tail := stub
  tailGen := 0
  value := value
  next := Function.update next stub none
  nextGen := Function.update nextGen stub 0
  nodes := ⟨fun _ => stub, 0, 0⟩
  tailPos := 0
  filed := fun _ => value stub
  place := Function.update (fun _ => .outside) stub .inside
  used := Function.update (fun _ => false) stub true
  sawEmpty := fun _ => true
  history := ⟨[], fun _ => []⟩

/-- The queue with all threads idle. -/
def start [DecidableEq N] (stub : N) (value : N → V) (next : N → Option N) (nextGen : N → Nat) :
    Threads.System (Mem N V ι) (Pc N V) ι where
  mem := init stub value next nextGen
  pc := fun _ => .idle

end ConcurrencyKit.Fifo.Mpmc
