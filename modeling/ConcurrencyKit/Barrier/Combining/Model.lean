import ConcurrencyKit.Barrier.Roster
import ConcurrencyKit.Misc.Threads

/-!
# The combining tree barrier

The functions of `src/ck_barrier_combining.c`. Groups of threads form a binary tree that
`ck_barrier_combining_group_init` grows level by level. In a call the thread that is the last one to
arrive at a group goes on to the parent of the group. On its way back it clears the counts of the
groups that it represents, and turns their senses.

Next to the words a `Mem` keeps how often each member of a group, a thread or a group below it, has
arrived there, and which thread represents the group.
-/

namespace ConcurrencyKit.Barrier.Combining

variable {γ ι : Type}

/-! ## Groups -/

/-- The fields of `struct ck_barrier_combining_group`, by the groups. -/
structure Groups (γ : Type) where
  k : γ → BitVec 32
  count : γ → BitVec 32
  sense : γ → BitVec 32
  parent : γ → Option γ
  left : γ → Option γ
  right : γ → Option γ
  next : γ → Option γ

/-- `struct ck_barrier_combining_queue`. -/
structure Queue (γ : Type) where
  head : Option γ
  tail : Option γ

/-- The pointer of a group that `ck_barrier_combining_insert` stores to. -/
inductive Child where
  | left
  | right
  deriving DecidableEq, Repr

/-- `ck_barrier_combining_queue_dequeue` (`ck_barrier_combining.c:38-49`). -/
def queueDequeue (g : Groups γ) (queue : Queue γ) : Option γ × Queue γ :=
  match queue.head with
  | none => (none, queue)
  | some front => (some front, { queue with head := g.next front })

section Init

variable [DecidableEq γ]

/-- `ck_barrier_combining_insert` (`ck_barrier_combining.c:51-67`). -/
def insert (parent tnode : γ) (child : Child) (g : Groups γ) : Groups γ :=
  let g := match child with
    | .left => { g with left := Function.update g.left parent (some tnode) }
    | .right => { g with right := Function.update g.right parent (some tnode) }
  { g with
    parent := Function.update g.parent tnode (some parent)
    k := Function.update g.k parent (g.k parent + 1) }

/-- `ck_barrier_combining_queue_enqueue` (`ck_barrier_combining.c:74-90`). -/
def queueEnqueue (nodeValue : γ) : Groups γ × Queue γ → Groups γ × Queue γ
  | (g, queue) =>
    let g := { g with next := Function.update g.next nodeValue none }
    match queue.head, queue.tail with
    | none, _ => (g, ⟨some nodeValue, some nodeValue⟩)
    | some _, some tail =>
      ({ g with next := Function.update g.next tail (some nodeValue) },
        { queue with tail := some nodeValue })
    -- a queue with a head has a tail
    | some _, none => (g, queue)

/-- The loop of `ck_barrier_combining_group_init` (`ck_barrier_combining.c:116-137`), at most `fuel`
times. -/
def link (tnode : γ) : Nat → Groups γ × Queue γ → Option (Groups γ)
  | 0, _ => none
  | fuel + 1, (g, queue) =>
    match queueDequeue g queue with
    | (none, _) => some g
    | (some node, queue) =>
      match g.left node, g.right node with
      | none, _ => some (insert node tnode .left g)
      | some _, none => some (insert node tnode .right g)
      | some left, some right =>
        link tnode fuel (queueEnqueue right (queueEnqueue left (g, queue)))

/-- `ck_barrier_combining_group_init` (`ck_barrier_combining.c:93-141`), where the lock makes one
call wait for another. -/
def groupInit (fuel : Nat) (root tnode : γ) (nthr : BitVec 32) (g : Groups γ) :
    Option (Groups γ) :=
  let g := { g with
    k := Function.update g.k tnode nthr
    count := Function.update g.count tnode 0
    sense := Function.update g.sense tnode 0
    left := Function.update g.left tnode none
    right := Function.update g.right tnode none }
  link tnode fuel (queueEnqueue root (g, ⟨none, none⟩))

/-- `ck_barrier_combining_init` (`ck_barrier_combining.c:143-155`). -/
def init (initRoot : γ) (g : Groups γ) : Groups γ :=
  { g with
    k := Function.update g.k initRoot 0
    count := Function.update g.count initRoot 0
    sense := Function.update g.sense initRoot 0
    parent := Function.update g.parent initRoot none
    left := Function.update g.left initRoot none
    right := Function.update g.right initRoot none }

/-- Calls of `ck_barrier_combining_group_init` in a row, with the groups and the numbers of their
threads. -/
def groupInits (fuel : Nat) (root : γ) : List (γ × BitVec 32) → Groups γ → Option (Groups γ)
  | [], g => some g
  | (tnode, nthr) :: calls, g =>
    (groupInit fuel root tnode nthr g).bind (groupInits fuel root calls)

end Init

/-! ## The barrier -/

/-- The groups, and how far the threads have come. -/
structure Mem (γ ι : Type) where
  /-- A thread, or the thread that represents a group, has arrived so often. -/
  arrivals : ι ⊕ γ → Nat
  /-- The count of a group has been cleared so often. -/
  resets : γ → Nat
  /-- The sense of a group has been turned so often. -/
  turns : γ → Nat
  /-- The thread that was the last one to arrive at a group, until it turns the sense. -/
  holder : γ → Option ι
  groups : Groups γ

/-- Where a thread stands that has returned from `n` calls. In a call of `ck_barrier_combining_aux`
for the group `tnode` the groups on `path` are those of the calls that it returns to. -/
inductive Pc (γ : Type) where
  | idle (sense : BitVec 32) (n : Nat)
  /-- The fetch-and-add of the count. -/
  | arrive (sense : BitVec 32) (n : Nat) (path : List γ) (tnode : γ)
  | wait (sense : BitVec 32) (n : Nat) (path : List γ) (tnode : γ)
  | reset (sense : BitVec 32) (n : Nat) (path : List γ) (tnode : γ)
  /-- The load in `~tnode->sense`. -/
  | load (sense : BitVec 32) (n : Nat) (path : List γ) (tnode : γ)
  | turn (sense : BitVec 32) (n : Nat) (path : List γ) (tnode : γ) (old : BitVec 32)

namespace Pc

/-- The number of calls that the thread has returned from. -/
def returned : Pc γ → Nat
  | idle _ n | arrive _ n _ _ | wait _ n _ _ | reset _ n _ _ | load _ n _ _ | turn _ n _ _ _ => n

/-- The number of calls that it has started. -/
def started : Pc γ → Nat
  | idle _ n => n
  | arrive _ n _ _ | wait _ n _ _ | reset _ n _ _ | load _ n _ _ | turn _ n _ _ _ => n + 1

/-- What follows when `ck_barrier_combining_aux` returns. -/
def back (sense : BitVec 32) (n : Nat) : List γ → Pc γ
  | [] => idle (~~~ sense) (n + 1)
  | tnode :: path => reset sense n path tnode

end Pc

/-- The member of a group as which a thread arrives there. -/
def member (i : ι) : List γ → ι ⊕ γ
  | [] => .inl i
  | tnode :: _ => .inr tnode

variable [DecidableEq γ] [DecidableEq ι]

namespace Mem

/-- `ck_pr_faa_uint(&tnode->count, 1)`. -/
def arrive (x : ι ⊕ γ) (tnode : γ) (m : Mem γ ι) : Mem γ ι :=
  { m with
    arrivals := Function.update m.arrivals x (m.arrivals x + 1)
    groups := { m.groups with
      count := Function.update m.groups.count tnode (m.groups.count tnode + 1) } }

/-- Thread `i` represents a group from now on. -/
def hold (i : ι) (tnode : γ) (m : Mem γ ι) : Mem γ ι :=
  { m with holder := Function.update m.holder tnode (some i) }

/-- `ck_pr_store_uint(&tnode->count, 0)`. -/
def reset (tnode : γ) (m : Mem γ ι) : Mem γ ι :=
  { m with
    resets := Function.update m.resets tnode (m.resets tnode + 1)
    groups := { m.groups with count := Function.update m.groups.count tnode 0 } }

/-- `ck_pr_store_uint(&tnode->sense, ..)`. -/
def turn (tnode : γ) (v : BitVec 32) (m : Mem γ ι) : Mem γ ι :=
  { m with
    turns := Function.update m.turns tnode (m.turns tnode + 1)
    holder := Function.update m.holder tnode none
    groups := { m.groups with sense := Function.update m.groups.sense tnode v } }

end Mem

/-- The memory before the first call. -/
def start (g : Groups γ) : Mem γ ι where
  arrivals _ := 0
  resets _ := 0
  turns _ := 0
  holder _ := none
  groups := g

/-- One access of a thread: `ck_barrier_combining_aux` (`ck_barrier_combining.c:157-193`). -/
def act (i : ι) (m : Mem γ ι) : Pc γ → Mem γ ι × Pc γ
  | .arrive sense n path tnode =>
    if m.groups.count tnode = m.groups.k tnode - 1 then
      ((m.arrive (member i path) tnode).hold i tnode,
        match m.groups.parent tnode with
        | some parent => .arrive sense n (tnode :: path) parent
        | none => .reset sense n path tnode)
    else (m.arrive (member i path) tnode, .wait sense n path tnode)
  | .wait sense n path tnode =>
    (m, if sense ≠ m.groups.sense tnode then .wait sense n path tnode else .back sense n path)
  | .reset sense n path tnode => (m.reset tnode, .load sense n path tnode)
  | .load sense n path tnode => (m, .turn sense n path tnode (m.groups.sense tnode))
  | .turn sense n path tnode old => (m.turn tnode (~~~ old), .back sense n path)
  | .idle sense n => (m, .idle sense n)

/-- One step of thread `i`, which is in the group `group i`: `ck_barrier_combining`
(`ck_barrier_combining.c:195-207`) begins with the state that
`CK_BARRIER_COMBINING_STATE_INITIALIZER` has set. -/
inductive Step (group : ι → γ) (i : ι) : Mem γ ι → Pc γ → Mem γ ι → Pc γ → Prop
  | call (m : Mem γ ι) (sense : BitVec 32) (n : Nat) :
      Step group i m (.idle sense n) m (.arrive sense n [] (group i))
  | act {m : Mem γ ι} {p : Pc γ} (h : p.started = p.returned + 1) :
      Step group i m p (act i m p).1 (act i m p).2

end ConcurrencyKit.Barrier.Combining
