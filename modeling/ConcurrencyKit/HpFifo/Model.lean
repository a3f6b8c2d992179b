import ConcurrencyKit.Misc.Threads
import ConcurrencyKit.Misc.Window
import ConcurrencyKit.Misc.Queue

/-!
# The queue of `ck_hp_fifo`

The operations of `include/ck_hp_fifo.h`, one access at a time: every load, store and
compare-and-swap of a pointer, of a value or of a hazard slot is one step. Each thread has a
record with two hazard slots.

A node that has been taken from the queue may be enqueued again after a scan in the manner of
`ck_hp_reclaim` (`src/ck_hp.c:164-291`): every hazard slot is loaded after the node was taken,
in any order, and none of them points to the node. The threads scan between their calls.

Next to the memory a `Mem` keeps a history that the code does not have. The nodes in the order
in which they are linked form a sequence, and the queue is the window of it that begins at
`head`.
-/

namespace ConcurrencyKit.HpFifo

open Linear (History)
open Queue (Op)

/-- Where a node is. -/
inductive Place (ι : Type) where
  | outside
  /-- Thread `i` is about to enqueue it. -/
  | held (i : ι)
  | inside
  /-- It has been taken and not yet been found to be free of hazards. -/
  | retired
  deriving DecidableEq, Repr

/-- The hazard slots of a record. -/
inductive Slot where
  | zero
  | one
  deriving DecidableEq, Repr

/-- `struct ck_hp_fifo`, its entries and the hazard slots, and the history of their use. -/
structure Mem (N V ι : Type) where
  head : Option N
  tail : Option N
  value : N → V
  next : N → Option N
  hazard : ι → Slot → Option N
  /-- The nodes in the order in which they are linked, from `head` on. -/
  nodes : Window N
  /-- The position of `tail`. -/
  tailPos : Nat
  /-- The value enqueued with the node of a position. -/
  filed : Nat → V
  place : N → Place ι
  /-- The slots that have been found not to point to a node since it was taken. -/
  scanned : N → ι → Slot → Bool
  sawEmpty : ι → Bool
  history : History ι (Op V)

/-- The enqueue operations: until it succeeds, or one attempt. -/
inductive Enqueuer where
  | enqueue
  | tryEnqueue
  deriving DecidableEq, Repr

/-- The dequeue operations: until it succeeds or the queue is empty, or one attempt. -/
inductive Dequeuer where
  | dequeue
  | tryDequeue
  deriving DecidableEq, Repr

/-- Where a thread stands, with the local variables that are live. Beside a `tail` loaded by
`ck_hp_fifo_trydequeue_mpmc` stands the position of `head` at that moment, and beside a node
whose value is about to be loaded the value that was enqueued with it. -/
inductive Pc (N V : Type) where
  | idle
  | enqValue (k : Enqueuer) (entry : N) (value : V)
  | enqClear (k : Enqueuer) (entry : N) (value : V)
  | enqTail (k : Enqueuer) (entry : N) (value : V)
  | enqHazard (k : Enqueuer) (entry : N) (value : V) (tail : Option N)
  | enqCheck (k : Enqueuer) (entry : N) (value : V) (tail : Option N)
  | enqNext (k : Enqueuer) (entry : N) (value : V) (tail : Option N)
  | enqRecheck (entry : N) (value : V) (tail : N) (next : Option N)
  | enqHelp (k : Enqueuer) (entry : N) (value : V) (tail next : N)
  | enqLink (k : Enqueuer) (entry : N) (value : V) (tail : N)
  | enqForward (entry : N) (value : V) (tail : N)
  | enqueued (ok : Bool)
  | deqHead
  | deqHazard (head : Option N)
  | deqCheck (head : Option N)
  | deqTail (head : Option N)
  | tryHead
  | tryTail (head : Option N)
  | tryHazard (head tail : Option N) (position : Nat)
  | tryCheck (head tail : Option N) (position : Nat)
  | deqNext (k : Dequeuer) (head tail : Option N)
  | deqProtect (k : Dequeuer) (head : N) (tail next : Option N)
  | deqRecheck (k : Dequeuer) (head : N) (tail next : Option N)
  | deqReset
  | deqResetNext
  | deqHelp (k : Dequeuer) (tail next : N)
  | deqCas (k : Dequeuer) (head : N) (next : Option N)
  | deqValue (k : Dequeuer) (head : N) (next : Option N) (value : V)
  | dequeued (k : Dequeuer) (result : Option (V × N))
  /-- A null pointer has been followed. -/
  | crashed

variable {N V ι : Type}

/-- The thread is between two calls. -/
def Pc.Resting : Pc N V → Prop
  | .idle | .enqueued _ | .dequeued _ _ => True
  | _ => False

instance : (pc : Pc N V) → Decidable pc.Resting
  | .idle | .enqueued _ | .dequeued _ _ => isTrue trivial
  | .enqValue .. | .enqClear .. | .enqTail .. | .enqHazard .. | .enqCheck .. | .enqNext ..
  | .enqRecheck .. | .enqHelp .. | .enqLink .. | .enqForward .. | .deqHead | .deqHazard ..
  | .deqCheck .. | .deqTail .. | .tryHead | .tryTail .. | .tryHazard .. | .tryCheck ..
  | .deqNext .. | .deqProtect .. | .deqRecheck .. | .deqReset | .deqResetNext | .deqHelp ..
  | .deqCas .. | .deqValue .. | .crashed => isFalse id

/-- The operation that has taken effect and not yet returned. -/
def Pc.pending : Pc N V → Option (Op V)
  | .enqForward _ v _ => some (.enqueue v)
  | .deqValue _ _ _ v => some (.dequeue v)
  | _ => none

namespace Mem

/-- Every thread takes notice of an empty queue. -/
def observe (m : Mem N V ι) : Mem N V ι :=
  { m with sawEmpty := fun i => m.sawEmpty i || m.nodes.first == m.nodes.last }

/-- Try to move `tail` on. -/
def casTail [DecidableEq N] (t n : N) (m : Mem N V ι) : Mem N V ι :=
  if m.tail = some t then { m with tail := some n, tailPos := m.tailPos + 1 } else m

section Nodes

variable [DecidableEq N]

/-- Store the value of a node. -/
def storeValue (e : N) (v : V) (m : Mem N V ι) : Mem N V ι :=
  { m with value := Function.update m.value e v }

/-- Clear the `next` of a node. -/
def clearNext (e : N) (m : Mem N V ι) : Mem N V ι :=
  { m with next := Function.update m.next e none }

/-- The place of a node changes. -/
def move (e : N) (p : Place ι) (m : Mem N V ι) : Mem N V ι :=
  { m with place := Function.update m.place e p }

end Nodes

variable [DecidableEq ι]

/-- Thread `i` enters a call. -/
def begin (i : ι) (m : Mem N V ι) : Mem N V ι :=
  { m with sawEmpty := Function.update m.sawEmpty i false }

/-- `ck_hp_set` and `ck_hp_set_fence` (`ck_hp.h:77-97`). -/
def setHazard (i : ι) (s : Slot) (x : Option N) (m : Mem N V ι) : Mem N V ι :=
  { m with hazard := Function.update m.hazard i (Function.update (m.hazard i) s x) }

/-- Thread `i` returns from an operation. -/
def finish (i : ι) (op : Op V) (m : Mem N V ι) : Mem N V ι :=
  { m with history := m.history.complete i op }

variable [DecidableEq N]

/-- A scan finds that a slot does not point to a node. -/
def scan (x : N) (j : ι) (s : Slot) (m : Mem N V ι) : Mem N V ι :=
  { m with
    scanned := Function.update m.scanned x
      (Function.update (m.scanned x) j (Function.update (m.scanned x j) s true)) }

/-- Thread `i` links a node behind the node `t`. -/
def link (i : ι) (t e : N) (v : V) (m : Mem N V ι) : Mem N V ι :=
  { m with
    next := Function.update m.next t (some e)
    nodes := m.nodes.push e
    filed := Function.update m.filed (m.nodes.last + 1) v
    place := Function.update m.place e .inside
    history := m.history.effect i (.enqueue v) }

/-- Thread `i` moves `head` on from the node `h`. -/
def take (i : ι) (h : N) (n : Option N) (m : Mem N V ι) : Mem N V ι :=
  { m with
    head := n
    nodes := m.nodes.pop
    place := Function.update m.place h .retired
    scanned := Function.update m.scanned h fun _ _ => false
    history := m.history.effect i (.dequeue (m.filed (m.nodes.first + 1))) }

omit [DecidableEq ι] in
/-- An enqueue has to start over, or has failed. -/
def again (k : Enqueuer) (e : N) (v : V) (m : Mem N V ι) : Mem N V ι × Pc N V :=
  if k = .tryEnqueue then (m.move e .outside, .enqueued false) else (m, .enqTail k e v)

omit [DecidableEq N] [DecidableEq ι] in
/-- A dequeue has to start over, or has failed. -/
def restart (k : Dequeuer) (m : Mem N V ι) : Mem N V ι × Pc N V :=
  if k = .tryDequeue then (m, .dequeued k none) else (m, .deqHead)

/-- One access of thread `i`: `ck_hp_fifo_enqueue_mpmc` and `ck_hp_fifo_tryenqueue_mpmc`
(`ck_hp_fifo.h:77-149`), `ck_hp_fifo_dequeue_mpmc` (`ck_hp_fifo.h:151-190`) and
`ck_hp_fifo_trydequeue_mpmc` (`ck_hp_fifo.h:192-222`). -/
def act (i : ι) (m : Mem N V ι) : Pc N V → Mem N V ι × Pc N V
  | .enqValue k e v => (m.storeValue e v, .enqClear k e v)
  | .enqClear k e v => (m.clearNext e, .enqTail k e v)
  | .enqTail k e v => (m, .enqHazard k e v m.tail)
  | .enqHazard k e v t => (m.setHazard i .zero t, .enqCheck k e v t)
  | .enqCheck k e v t => if t = m.tail then (m, .enqNext k e v t) else m.again k e v
  | .enqNext k e v (some t) =>
    if k = .tryEnqueue then
      match m.next t with
      | some n => (m, .enqHelp k e v t n)
      | none => (m, .enqLink k e v t)
    else (m, .enqRecheck e v t (m.next t))
  | .enqNext _ _ _ none => (m, .crashed)
  | .enqRecheck e v t n =>
    if m.tail = some t then
      match n with
      | some n => (m, .enqHelp .enqueue e v t n)
      | none => (m, .enqLink .enqueue e v t)
    else (m, .enqTail .enqueue e v)
  | .enqHelp k e v t n => (m.casTail t n).again k e v
  | .enqLink k e v t =>
    if m.next t = none then (m.link i t e v, .enqForward e v t) else m.again k e v
  | .enqForward e v t => ((m.casTail t e).finish i (.enqueue v), .enqueued true)
  | .deqHead => (m, .deqHazard m.head)
  | .deqHazard h => (m.setHazard i .zero h, .deqCheck h)
  | .deqCheck h => if h = m.head then (m, .deqTail h) else (m, .deqHead)
  | .deqTail h => (m, .deqNext .dequeue h m.tail)
  | .tryHead => (m, .tryTail m.head)
  | .tryTail h => (m, .tryHazard h m.tail m.nodes.first)
  | .tryHazard h t p => (m.setHazard i .zero h, .tryCheck h t p)
  | .tryCheck h t _ =>
    if h = m.head then (m, .deqNext .tryDequeue h t) else (m, .dequeued .tryDequeue none)
  | .deqNext k (some h) t => (m, .deqProtect k h t (m.next h))
  | .deqNext _ none _ => (m, .crashed)
  | .deqProtect k h t n => (m.setHazard i .one n, .deqRecheck k h t n)
  | .deqRecheck k h t n =>
    if m.head = some h then
      match n with
      | none =>
        if k = .dequeue then (m, .deqReset)
        else if t = some h then (m, .dequeued k none)
        else (m, .deqCas k h none)
      | some n => if t = some h then (m, .deqHelp k h n) else (m, .deqCas k h (some n))
    else m.restart k
  | .deqReset => (m.setHazard i .zero none, .deqResetNext)
  | .deqResetNext => (m.setHazard i .one none, .dequeued .dequeue none)
  | .deqHelp k t n => (m.casTail t n).restart k
  | .deqCas k h n =>
    if m.head = some h then (m.take i h n, .deqValue k h n (m.filed (m.nodes.first + 1)))
    else m.restart k
  | .deqValue k h (some n) _ =>
    (m.finish i (.dequeue (m.value n)), .dequeued k (some (m.value n, h)))
  | .deqValue _ _ none _ => (m, .crashed)
  | pc => (m, pc)

/-- The tail is still the one that the thread has protected. -/
theorem act_enqCheck_of_eq (i : ι) {m : Mem N V ι} {t : Option N} (h : t = m.tail) (k : Enqueuer)
    (e : N) (v : V) : m.act i (.enqCheck k e v t) = (m, .enqNext k e v t) := by
  simp only [act, if_pos h]

theorem act_enqCheck_of_ne (i : ι) {m : Mem N V ι} {t : Option N} (h : t ≠ m.tail) (k : Enqueuer)
    (e : N) (v : V) : m.act i (.enqCheck k e v t) = m.again k e v := by
  simp only [act, if_neg h]

end Mem

/-- One step of thread `i`: it enters a call, enqueueing a node that is outside the queue, takes
part in a scan, or makes the next access of its call. -/
inductive Step [DecidableEq N] [DecidableEq ι] (i : ι) :
    Mem N V ι → Pc N V → Mem N V ι → Pc N V → Prop
  | enqueue {m : Mem N V ι} {pc : Pc N V} (k : Enqueuer) (e : N) (v : V) (resting : pc.Resting)
      (outside : m.place e = .outside) :
      Step i m pc ((m.move e (.held i)).begin i).observe (.enqValue k e v)
  | dequeue {m : Mem N V ι} {pc : Pc N V} (resting : pc.Resting) :
      Step i m pc (m.begin i).observe .deqHead
  | tryDequeue {m : Mem N V ι} {pc : Pc N V} (resting : pc.Resting) :
      Step i m pc (m.begin i).observe .tryHead
  | scan {m : Mem N V ι} {pc : Pc N V} (x : N) (j : ι) (s : Slot) (resting : pc.Resting)
      (retired : m.place x = .retired) (clear : m.hazard j s ≠ some x) :
      Step i m pc (m.scan x j s).observe pc
  | reclaim {m : Mem N V ι} {pc : Pc N V} (x : N) (resting : pc.Resting)
      (retired : m.place x = .retired) (clear : ∀ j s, m.scanned x j s = true) :
      Step i m pc (m.move x .outside).observe pc
  | act {m : Mem N V ι} {pc : Pc N V} (running : ¬ pc.Resting) :
      Step i m pc (m.act i pc).1.observe (m.act i pc).2

/-- The memory after `ck_hp_fifo_init`, with empty hazard slots and other nodes as they happen
to be. -/
def init [DecidableEq N] (stub : N) (value : N → V) (next : N → Option N) : Mem N V ι where
  head := some stub
  tail := some stub
  value := value
  next := Function.update next stub none
  hazard := fun _ _ => none
  nodes := ⟨fun _ => stub, 0, 0⟩
  tailPos := 0
  filed := fun _ => value stub
  place := Function.update (fun _ => .outside) stub .inside
  scanned := fun _ _ _ => false
  sawEmpty := fun _ => true
  history := ⟨[], fun _ => []⟩

/-- The queue with all threads idle. -/
def start [DecidableEq N] (stub : N) (value : N → V) (next : N → Option N) :
    Threads.System (Mem N V ι) (Pc N V) ι where
  mem := init stub value next
  pc := fun _ => .idle

end ConcurrencyKit.HpFifo
