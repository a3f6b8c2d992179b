import ConcurrencyKit.Misc.Threads

/-!
# The hierarchical CLH lock

The functions of `include/spinlock/hclh.h`, one access at a time, for any number of clusters with a
local queue each. A thread enters the local queue of its cluster with a node. The first thread of
those that have entered since the last time puts them all into the global queue at once.

Next to the words a `Mem` keeps in which order the threads get the lock that are in the global
queue, and which ones are in a local queue only.
-/

namespace ConcurrencyKit.Hclh

/-- The objects of type `struct ck_spinlock_hclh`: those that `ck_spinlock_hclh_init` gets for the
global queue and the local queues, and those that the threads bring with them. -/
inductive Node (ι κ : Type) where
  | global
  | cluster (c : κ)
  | thread (i : ι)
  deriving DecidableEq, Repr

/-- The fields of the nodes, the queues, and who is in them. -/
structure Mem (ι κ : Type) where
  /-- The threads in the global queue in the order in which they get the lock. -/
  order : List ι
  /-- The threads in a local queue that are not in the global queue yet. -/
  todo : κ → List ι
  /-- The node of the thread that has released the lock last. -/
  popped : Node ι κ
  /-- The node of the thread of a cluster that has released the lock last. -/
  last : κ → Node ι κ
  node : ι → Node ι κ
  /-- The node before the one of a thread in the local queue, and in the global queue. -/
  localPrev : ι → Node ι κ
  globalPrev : ι → Node ι κ
  /-- A thread has put the threads of its cluster into the global queue. -/
  head : ι → Bool
  /-- The node that a thread has put into the global queue and has not marked yet. -/
  marking : ι → Option (Node ι κ)
  globQueue : Node ι κ
  localQueue : κ → Node ι κ
  wait : Node ι κ → Bool
  splice : Node ι κ → Bool
  clusterId : Node ι κ → Int
  previous : Node ι κ → Option (Node ι κ)

/-- Where a thread stands. In a call `me` is what `thread` points to. -/
inductive Pc (ι κ : Type) where
  | idle (me : Node ι κ)
  /-- The stores to the own node (`hclh.h:81-85`). -/
  | setWait (me : Node ι κ)
  | setSplice (me : Node ι κ)
  | loadQueue (me : Node ι κ)
  | loadId (me tail : Node ι κ)
  | setId (me : Node ι κ) (id : Int)
  | loadTail (me : Node ι κ)
  | setPrevious (me tail : Node ι κ)
  /-- The fetch-and-store of `local_queue`, and what follows up to the loop. -/
  | enter (me : Node ι κ)
  | link (me previous : Node ι κ)
  | check (me previous : Node ι κ)
  /-- The condition of the loop (`hclh.h:97-99`). -/
  | spinWait (me previous : Node ι κ)
  | spinId (me previous : Node ι κ)
  | spinOwn (me previous : Node ι κ) (id : Int)
  | spinSplice (me previous : Node ι κ)
  /-- The condition after the loop (`hclh.h:105-106`). -/
  | testId (me previous : Node ι κ)
  | testOwn (me previous : Node ι κ) (id : Int)
  | testSplice (me previous : Node ι κ)
  /-- From the load of `local_tail` on. -/
  | loadLocal (me : Node ι κ)
  | swap (me localTail : Node ι κ)
  | mark (me localTail previous : Node ι κ)
  | waitGlobal (me previous : Node ι κ)
  | critical (me : Node ι κ)
  /-- `ck_spinlock_hclh_unlock`. -/
  | unlock (me : Node ι κ)
  | release (me : Node ι κ) (previous : Option (Node ι κ))
  deriving DecidableEq, Repr

variable {ι κ : Type}

namespace Pc

/-- What `thread` points to. -/
def me : Pc ι κ → Node ι κ
  | idle me | setWait me | setSplice me | loadQueue me | loadId me _ | setId me _ | loadTail me
  | setPrevious me _ | enter me | link me _ | check me _ | spinWait me _ | spinId me _
  | spinOwn me _ _ | spinSplice me _ | testId me _ | testOwn me _ _ | testSplice me _
  | loadLocal me | swap me _ | mark me _ _ | waitGlobal me _ | critical me | unlock me
  | release me _ => me

/-- The thread has the lock. -/
def Inside : Pc ι κ → Prop
  | critical _ | unlock _ | release _ _ => True
  | _ => False

/-- The thread initializes its node for the next call. -/
def Initializes : Pc ι κ → Prop
  | setWait _ | setSplice _ | loadQueue _ | loadId _ _ | setId _ _ | loadTail _
  | setPrevious _ _ | enter _ => True
  | _ => False

/-- The thread may still read a node as the one before its own in the local queue, or in the global
queue. -/
def MayRead : Pc ι κ → Node ι κ → Prop
  | link _ previous, n | check _ previous, n | spinWait _ previous, n | spinId _ previous, n
  | spinOwn _ previous _, n | spinSplice _ previous, n | testId _ previous, n
  | testOwn _ previous _, n | testSplice _ previous, n | mark _ _ previous, n
  | waitGlobal _ previous, n => n = previous
  | _, _ => False

end Pc

section Steps

variable [DecidableEq ι] [DecidableEq κ]

namespace Mem

/-- Stores to the fields of a node. -/
def setWait (n : Node ι κ) (v : Bool) (m : Mem ι κ) : Mem ι κ :=
  { m with wait := Function.update m.wait n v }

def setSplice (n : Node ι κ) (v : Bool) (m : Mem ι κ) : Mem ι κ :=
  { m with splice := Function.update m.splice n v }

def setId (n : Node ι κ) (v : Int) (m : Mem ι κ) : Mem ι κ :=
  { m with clusterId := Function.update m.clusterId n v }

def setPrevious (n : Node ι κ) (v : Node ι κ) (m : Mem ι κ) : Mem ι κ :=
  { m with previous := Function.update m.previous n (some v) }

/-- `ck_pr_fas_ptr(local_queue, thread)`: thread `i` enters the local queue of cluster `c`. -/
def enter (i : ι) (c : κ) (me : Node ι κ) (m : Mem ι κ) : Mem ι κ :=
  { m with
    todo := Function.update m.todo c (m.todo c ++ [i])
    localPrev := Function.update m.localPrev i (m.localQueue c)
    localQueue := Function.update m.localQueue c me }

/-- How many threads of a cluster are there up to the one with a node. -/
def upTo (c : κ) (localTail : Node ι κ) (m : Mem ι κ) : Nat :=
  (m.todo c).findIdx (fun i => m.node i = localTail) + 1

/-- `ck_pr_fas_ptr(glob_queue, local_tail)`: thread `i` puts the threads of cluster `c` up to the
one with the node `local_tail` into the global queue. -/
def swap (i : ι) (c : κ) (localTail : Node ι κ) (m : Mem ι κ) : Mem ι κ :=
  { m with
    order := m.order ++ (m.todo c).take (m.upTo c localTail)
    todo := Function.update m.todo c ((m.todo c).drop (m.upTo c localTail))
    globalPrev := fun j =>
      if j = i then m.globQueue
      else if j ∈ (m.todo c).take (m.upTo c localTail) then m.localPrev j else m.globalPrev j
    head := Function.update m.head i true
    marking := Function.update m.marking i (some localTail)
    globQueue := localTail }

/-- `ck_pr_store_uint(&local_tail->splice, true)` by thread `i`. -/
def mark (i : ι) (localTail : Node ι κ) (m : Mem ι κ) : Mem ι κ :=
  { m with
    marking := Function.update m.marking i none
    splice := Function.update m.splice localTail true }

/-- `ck_pr_store_uint(&(*thread)->wait, false)` by thread `i` of cluster `c`, which takes the node
before its own over. -/
def release (i : ι) (c : κ) (me : Node ι κ) (previous : Node ι κ) (m : Mem ι κ) : Mem ι κ :=
  { m with
    order := m.order.tail
    popped := me
    last := Function.update m.last c me
    node := Function.update m.node i previous
    head := Function.update m.head i false
    wait := Function.update m.wait me false }

end Mem

/-- One access of thread `i`: `ck_spinlock_hclh_lock` (`hclh.h:73-122`) and
`ck_spinlock_hclh_unlock` (`hclh.h:124-149`). -/
def act (cluster : ι → κ) (i : ι) (m : Mem ι κ) : Pc ι κ → Mem ι κ × Pc ι κ
  | .setWait me => (m.setWait me true, .setSplice me)
  | .setSplice me => (m.setSplice me false, .loadQueue me)
  | .loadQueue me => (m, .loadId me (m.localQueue (cluster i)))
  | .loadId me tail => (m, .setId me (m.clusterId tail))
  | .setId me id => (m.setId me id, .loadTail me)
  | .loadTail me => (m, .setPrevious me (m.localQueue (cluster i)))
  | .setPrevious me tail => (m.setPrevious me tail, .enter me)
  | .enter me => (m.enter i (cluster i) me, .link me (m.localQueue (cluster i)))
  | .link me previous => (m.setPrevious me previous, .check me previous)
  | .check me previous =>
    (m, if m.previous previous ≠ none then .spinWait me previous else .loadLocal me)
  | .spinWait me previous =>
    (m, if m.wait previous = true then .spinId me previous else .testId me previous)
  | .spinId me previous => (m, .spinOwn me previous (m.clusterId previous))
  | .spinOwn me previous id =>
    (m, if id = m.clusterId me then .spinSplice me previous else .testId me previous)
  | .spinSplice me previous =>
    (m, if m.splice previous = false then .spinWait me previous else .testId me previous)
  | .testId me previous => (m, .testOwn me previous (m.clusterId previous))
  | .testOwn me previous id =>
    (m, if id = m.clusterId me then .testSplice me previous else .loadLocal me)
  | .testSplice me previous =>
    (m, if m.splice previous = false then .critical me else .loadLocal me)
  | .loadLocal me => (m, .swap me (m.localQueue (cluster i)))
  | .swap me localTail => (m.swap i (cluster i) localTail, .mark me localTail m.globQueue)
  | .mark me localTail previous => (m.mark i localTail, .waitGlobal me previous)
  | .waitGlobal me previous =>
    (m, if m.wait previous = true then .waitGlobal me previous else .critical me)
  | .unlock me => (m, .release me (m.previous me))
  | .release me (some previous) =>
    (m.release i (cluster i) me previous, .idle previous)
  -- a thread that has entered a queue has a node before its own
  | .release me none => (m, .release me none)
  | .idle me => (m, .idle me)
  | .critical me => (m, .critical me)

/-- One step of thread `i`, which may begin a call or access the memory. -/
inductive Step (cluster : ι → κ) (i : ι) :
    Mem ι κ → Pc ι κ → Mem ι κ → Pc ι κ → Prop
  | lock (m : Mem ι κ) (me : Node ι κ) : Step cluster i m (.idle me) m (.setWait me)
  | unlock (m : Mem ι κ) (me : Node ι κ) : Step cluster i m (.critical me) m (.unlock me)
  | act (m : Mem ι κ) (p : Pc ι κ) :
      Step cluster i m p (act cluster i m p).1 (act cluster i m p).2

end Steps

/-- The memory after `ck_spinlock_hclh_init` (`hclh.h:46-59`) of the queues, where the identifiers
of the clusters are `id`. What the nodes of the threads hold is left open. -/
def init (id : κ → Int) (globalId : Int) (junk : ι → Bool × Bool × Int × Option (Node ι κ)) :
    Mem ι κ where
  order := []
  todo _ := []
  popped := .global
  last := .cluster
  node := .thread
  localPrev := .thread
  globalPrev := .thread
  head _ := false
  marking _ := none
  globQueue := .global
  localQueue := .cluster
  wait
    | .thread i => (junk i).1
    | _ => false
  splice
    | .thread i => (junk i).2.1
    | _ => false
  clusterId
    | .thread i => (junk i).2.2.1
    | .cluster c => id c
    | .global => globalId
  previous
    | .thread i => (junk i).2.2.2
    | _ => none

end ConcurrencyKit.Hclh
