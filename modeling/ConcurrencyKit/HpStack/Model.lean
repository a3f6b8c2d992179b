import ConcurrencyKit.Stack.Model

/-!
# The stack of `ck_hp_stack`

The operations of `include/ck_hp_stack.h`, one access at a time: every load and store, every
compare-and-swap of `head` and every store to a hazard slot is one step. Each thread has a
record with one hazard slot. The push operations are those of `ck_stack`.

An entry that has been popped may be pushed again after a scan in the manner of `ck_hp_reclaim`
(`src/ck_hp.c:164-291`): every hazard slot is loaded after the entry was popped, in any order,
and none of them points to the entry. The threads scan, and change their slots, between their
calls.

Next to the memory a `Mem` keeps a history that the code does not have: what is on the stack,
where each entry is, and the operations in the order in which they take effect. An operation
takes effect with its last access.
-/

namespace ConcurrencyKit.HpStack

open Lifo (Op)
open Stack (Pusher)

/-- Where an entry is. -/
inductive Place (ι : Type) where
  | outside
  /-- Thread `i` is about to push it. -/
  | held (i : ι)
  | inside
  /-- It has been popped and not yet been found to be free of hazards. -/
  | retired
  deriving DecidableEq, Repr

/-- `struct ck_stack`, its entries and the hazard slots, and the history of their use. -/
structure Mem (N ι : Type) where
  next : N → Option N
  head : Option N
  hazard : ι → Option N
  /-- What is on the stack, from the top. -/
  contents : List N
  place : N → Place ι
  /-- The slots that have been found not to point to an entry since it was popped. -/
  scanned : N → ι → Bool
  /-- The thread has last loaded the `next` of an entry that was on the stack and in its slot. -/
  sound : ι → Bool
  events : List (ι × Op N)

/-- The pop operations: until it succeeds or the stack is empty, or one attempt. -/
inductive Popper where
  | pop
  | tryPop
  deriving DecidableEq, Repr

/-- Where a thread stands, with the local variables that are live. -/
inductive Pc (N : Type) where
  | idle
  | pushHead (k : Pusher) (entry : N)
  | pushNext (k : Pusher) (entry : N) (stack : Option N)
  | pushCas (k : Pusher) (entry : N) (stack : Option N)
  | popHead
  | popHazard (entry : N)
  | popCheck (entry : N)
  | popAgain (entry : N)
  | popUpdate (entry : N)
  | popFollow (update : Option N)
  | popReload (entry : Option N)
  | tryHead
  | tryHazard (entry : N)
  | tryCheck (entry : N)
  | popNext (k : Popper) (entry : N)
  | popCas (k : Popper) (entry : N) (next : Option N)
  | leave
  | done (op : Op N)

variable {N ι : Type}

/-- The thread is between two calls. -/
def Pc.Resting : Pc N → Prop
  | .idle | .done _ => True
  | _ => False

namespace Mem

/-- An operation of thread `i` takes effect. -/
def finish (i : ι) (op : Op N) (m : Mem N ι) : Mem N ι :=
  { m with events := m.events ++ [(i, op)] }

section Entries

variable [DecidableEq N]

/-- The entry comes to the top of the stack. -/
def put (entry : N) (m : Mem N ι) : Mem N ι :=
  { m with
    head := some entry
    contents := entry :: m.contents
    place := Function.update m.place entry .inside }

/-- The entry leaves the top of the stack. -/
def take (entry : N) (next : Option N) (m : Mem N ι) : Mem N ι :=
  { m with
    head := next
    contents := m.contents.tail
    place := Function.update m.place entry .retired
    scanned := Function.update m.scanned entry fun _ => false }

/-- Write to the `next` of an entry. -/
def storeNext (entry : N) (value : Option N) (m : Mem N ι) : Mem N ι :=
  { m with next := Function.update m.next entry value }

/-- The place of an entry changes. -/
def move (entry : N) (p : Place ι) (m : Mem N ι) : Mem N ι :=
  { m with place := Function.update m.place entry p }

end Entries

variable [DecidableEq ι]

/-- `ck_hp_set` and `ck_hp_set_fence` (`ck_hp.h:77-97`). -/
def setHazard (i : ι) (x : Option N) (m : Mem N ι) : Mem N ι :=
  { m with hazard := Function.update m.hazard i x }

variable [DecidableEq N]

/-- A scan finds that a slot does not point to an entry. -/
def scan (x : N) (j : ι) (m : Mem N ι) : Mem N ι :=
  { m with scanned := Function.update m.scanned x (Function.update (m.scanned x) j true) }

/-- Thread `i` has loaded the `next` of an entry. -/
def loaded (i : ι) (entry : N) (m : Mem N ι) : Mem N ι :=
  { m with
    sound := Function.update m.sound i
      (decide (m.hazard i = some entry) && decide (entry ∈ m.contents)) }

/-- One access of thread `i`: `ck_hp_stack_push_mpmc` and `ck_hp_stack_trypush_mpmc`
(`ck_hp_stack.h:39-52`, `ck_stack.h:53-88`), `ck_hp_stack_pop_mpmc` (`ck_hp_stack.h:54-84`) and
`ck_hp_stack_trypop_mpmc` (`ck_hp_stack.h:86-108`). -/
def act (i : ι) (m : Mem N ι) : Pc N → Mem N ι × Pc N
  | .pushHead k e => (m, .pushNext k e m.head)
  | .pushNext k e stack => (m.storeNext e stack, .pushCas k e stack)
  | .pushCas k e stack =>
    if m.head = stack then ((m.put e).finish i (.push e), .done (.push e))
    else if k = .tryPush then ((m.move e .outside).finish i .miss, .done .miss)
    else (m, .pushNext k e m.head)
  | .popHead =>
    match m.head with
    | none => (m.finish i (.pop none), .done (.pop none))
    | some e => (m, .popHazard e)
  | .popHazard e => (m.setHazard i (some e), .popCheck e)
  | .popCheck e => if m.head = some e then (m, .popNext .pop e) else (m, .popHead)
  | .popAgain e => (m.setHazard i (some e), .popUpdate e)
  -- the first `update` is not compared with NULL
  | .popUpdate e => if m.head = some e then (m, .popNext .pop e) else (m, .popFollow m.head)
  | .popFollow update => (m.setHazard i update, .popReload update)
  | .popReload e =>
    match m.head with
    | none => (m.finish i (.pop none), .done (.pop none))
    | some u => if e = some u then (m, .popNext .pop u) else (m, .popFollow (some u))
  | .tryHead =>
    match m.head with
    | none => (m.finish i .miss, .done .miss)
    | some e => (m, .tryHazard e)
  | .tryHazard e => (m.setHazard i (some e), .tryCheck e)
  | .tryCheck e => if m.head = some e then (m, .popNext .tryPop e) else (m, .leave)
  | .popNext k e => (m.loaded i e, .popCas k e (m.next e))
  | .popCas k e n =>
    if m.head = some e then ((m.take e n).finish i (.pop (some e)), .done (.pop (some e)))
    else if k = .tryPop then (m, .leave)
    -- a failed compare-and-swap has loaded `head`
    else
      match m.head with
      | none => (m.finish i (.pop none), .done (.pop none))
      | some h => (m, .popAgain h)
  | .leave => ((m.setHazard i none).finish i .miss, .done .miss)
  | pc => (m, pc)

end Mem

/-- One step of thread `i`: it enters a call, pushing an entry that is outside the stack, takes
part in a scan, changes its slot, or makes the next access of its call. -/
inductive Step [DecidableEq N] [DecidableEq ι] (i : ι) :
    Mem N ι → Pc N → Mem N ι → Pc N → Prop
  | push {m : Mem N ι} {pc : Pc N} (k : Pusher) (e : N) (resting : pc.Resting)
      (outside : m.place e = .outside) : Step i m pc (m.move e (.held i)) (.pushHead k e)
  | pop {m : Mem N ι} {pc : Pc N} (resting : pc.Resting) : Step i m pc m .popHead
  | tryPop {m : Mem N ι} {pc : Pc N} (resting : pc.Resting) : Step i m pc m .tryHead
  | set {m : Mem N ι} {pc : Pc N} (x : Option N) (resting : pc.Resting) :
      Step i m pc (m.setHazard i x) pc
  | scan {m : Mem N ι} {pc : Pc N} (x : N) (j : ι) (resting : pc.Resting)
      (retired : m.place x = .retired) (clear : m.hazard j ≠ some x) :
      Step i m pc (m.scan x j) pc
  | reclaim {m : Mem N ι} {pc : Pc N} (x : N) (resting : pc.Resting)
      (retired : m.place x = .retired) (clear : ∀ j, m.scanned x j = true) :
      Step i m pc (m.move x .outside) pc
  | act {m : Mem N ι} {pc : Pc N} (running : ¬ pc.Resting) :
      Step i m pc (m.act i pc).1 (m.act i pc).2

/-- The memory after `CK_STACK_INITIALIZER`, with empty hazard slots and the entries as they
happen to be. -/
def init (next : N → Option N) : Mem N ι where
  next := next
  head := none
  hazard := fun _ => none
  contents := []
  place := fun _ => .outside
  scanned := fun _ _ => false
  sound := fun _ => false
  events := []

/-- The stack with all threads idle. -/
def start (next : N → Option N) : Threads.System (Mem N ι) (Pc N) ι where
  mem := init next
  pc := fun _ => .idle

end ConcurrencyKit.HpStack
