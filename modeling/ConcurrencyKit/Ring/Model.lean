import ConcurrencyKit.Misc.Threads

/-!
# The ring of `ck_ring`

The internal operations of `include/ck_ring.h`, one access at a time: every load, store and
compare-and-swap of a counter and every copy of a slot is one step of the thread that makes
it. The counters are 32-bit words that run freely; `size` is a power of two, so that
`x & mask` is written `x % size`. The entries have `ts` bytes, and a slot is where
`ts * (x & mask)`, again a 32-bit word, points into the buffer.

Next to the memory of the ring a `Mem` keeps a history that the code does not have: how often
each counter has been incremented, the value filed under each ticket, who holds a ticket,
what has been dequeued, and for each thread since when its current call runs and what it
could have seen of the counters.
-/

namespace ConcurrencyKit.Ring

/-- A byte of the buffer. -/
abbrev Byte := BitVec 8

/-- An entry of `ts` bytes. -/
abbrev Value (ts : Nat) := Fin ts → Byte

/-- The slot of a counter, `ts * (counter & mask)`: the product of two `unsigned int`. -/
def offset (ts size counter : Nat) : Nat := ts * (counter % size) % 2 ^ 32

/-- `struct ck_ring` with its buffer, and the history of its use. -/
structure Mem (ts : Nat) (ι : Type) where
  cHead : Nat
  pTail : Nat
  pHead : Nat
  bytes : Nat → Byte
  /-- How often `c_head`, `p_tail` and `p_head` have been incremented. -/
  consumed : Nat
  committed : Nat
  claimed : Nat
  /-- The value copied into the ring for each position. -/
  log : Nat → Option (Value ts)
  /-- The producer that holds the ticket for a position. -/
  holder : Nat → Option ι
  /-- The dequeued values in the order of the increments of `c_head`. -/
  dequeued : List (Value ts)
  /-- The number of increments before the current call of a thread. -/
  born : ι → Nat
  /-- Whether `size - 1` slots were taken, `size - 1` values were in the ring, or `p_tail` was
  `c_head`, at some moment of the current call of a thread. -/
  sawFull : ι → Bool
  sawFilled : ι → Bool
  sawEmpty : ι → Bool

/-- The enqueue operations: for a single producer or for many. -/
inductive Producer where
  | sp
  | mp
  deriving DecidableEq, Repr

/-- The dequeue operations: for a single consumer, for many, or one attempt for many. -/
inductive Consumer where
  | sc
  | mc
  | tryMc
  deriving DecidableEq, Repr

/-- The part of the interface that an operation belongs to. -/
inductive Kind where
  | enqueue (k : Producer)
  | dequeue (k : Consumer)
  deriving DecidableEq, Repr

/-- A call of the interface. Without a value an enqueue only reserves a slot; the caller then
writes to it and commits. -/
inductive Call (ts : Nat) where
  | enqueueSp (v : Option (Value ts))
  | enqueueMp (v : Option (Value ts))
  | dequeue (k : Consumer)

/-- Where a thread stands, with the local variables that are live. A ticket is kept both as the
code has it and as the number of the position it stands for. -/
inductive Pc (ts : Nat) where
  | idle
  | spConsumer (v : Option (Value ts))
  | spProducer (v : Option (Value ts)) (consumer : Nat)
  | spCopy (v : Value ts) (producer size : Nat)
  | spStore (producer size : Nat)
  | spReserved (slot size : Nat)
  | spWritten
  | spCommit
  | spCommitStore (tail : Nat)
  | mpHead (v : Option (Value ts))
  | mpConsumer (v : Option (Value ts)) (producer : Nat)
  | mpCas (v : Option (Value ts)) (producer consumer : Nat)
  | mpReload (v : Option (Value ts)) (producer consumer : Nat)
  | mpCopy (v : Value ts) (producer size ticket : Nat)
  | mpReserved (producer size ticket : Nat)
  | mpWritten (producer ticket : Nat)
  | mpWait (producer size ticket : Nat)
  | mpPublish (producer size ticket : Nat)
  | enqueued (k : Producer) (ok : Bool) (size : Nat)
  | deqHead (k : Consumer)
  | deqTail (k : Consumer) (consumer : Nat)
  | deqCopy (k : Consumer) (consumer : Nat)
  | deqStore (k : Consumer) (consumer : Nat) (data : Value ts)
  | dequeued (k : Consumer) (data : Option (Value ts))

variable {ts : Nat} {ι : Type}

/-- Difference of two `unsigned int`. -/
def sub32 (a b : Nat) : Nat := (a + 2 ^ 32 - b) % 2 ^ 32

namespace Call

/-- The first access of a call. -/
def entry : Call ts → Pc ts
  | .enqueueSp v => .spConsumer v
  | .enqueueMp v => .mpHead v
  | .dequeue k => .deqHead k

def kind : Call ts → Kind
  | .enqueueSp _ => .enqueue .sp
  | .enqueueMp _ => .enqueue .mp
  | .dequeue k => .dequeue k

end Call

namespace Pc

/-- The thread is between two calls and holds no reservation. -/
def Resting : Pc ts → Prop
  | .idle | .enqueued _ _ _ | .dequeued _ _ => True
  | _ => False

/-- The thread is between a reservation and its commit. -/
def Holding : Pc ts → Prop
  | .spReserved _ _ | .spWritten | .mpReserved _ _ _ | .mpWritten _ _ => True
  | _ => False

/-- The part of the interface a thread is using. -/
def kind : Pc ts → Option Kind
  | .spConsumer _ | .spProducer _ _ | .spCopy _ _ _ | .spStore _ _ | .spReserved _ _ | .spWritten
  | .spCommit | .spCommitStore _ => some (.enqueue .sp)
  | .mpHead _ | .mpConsumer _ _ | .mpCas _ _ _ | .mpReload _ _ _ | .mpCopy _ _ _ _
  | .mpReserved _ _ _ | .mpWritten _ _ | .mpWait _ _ _ | .mpPublish _ _ _ => some (.enqueue .mp)
  | .deqHead k | .deqTail k _ | .deqCopy k _ | .deqStore k _ _ => some (.dequeue k)
  | .idle | .enqueued _ _ _ | .dequeued _ _ => none

theorem kind_of_running {pc : Pc ts} (h : ¬ pc.Resting) : ∃ k, pc.kind = some k := by
  cases pc with
  | idle | enqueued | dequeued => exact absurd trivial h
  | _ => exact ⟨_, rfl⟩

/-- A thread in a dequeue operation, or one that has returned from it. -/
def InDequeue (k : Consumer) (pc : Pc ts) : Prop :=
  pc.kind = some (.dequeue k) ∨ ∃ data, pc = .dequeued k data

/-- A thread in an enqueue operation, or one that has returned from it. -/
def InEnqueue (k : Producer) (pc : Pc ts) : Prop :=
  pc.kind = some (.enqueue k) ∨ pc = .idle ∨ ∃ ok sz, pc = .enqueued k ok sz

end Pc

namespace Mem

/-- The increments of all counters. -/
def total (m : Mem ts ι) : Nat := m.consumed + m.committed + m.claimed

/-- Every thread takes notice of a full and of an empty ring. -/
def observe (size : Nat) (m : Mem ts ι) : Mem ts ι :=
  { m with
    sawFull := fun i => m.sawFull i || sub32 m.pHead m.cHead == size - 1
    sawFilled := fun i => m.sawFilled i || sub32 m.pTail m.cHead == size - 1
    sawEmpty := fun i => m.sawEmpty i || m.pTail == m.cHead }

/-- The entry in a slot. -/
def read (slot : Nat) (m : Mem ts ι) : Value ts := fun k => m.bytes (slot + k)

variable [DecidableEq ι]

/-- Thread `i` enters a call. -/
def begin (i : ι) (m : Mem ts ι) : Mem ts ι :=
  { m with
    born := Function.update m.born i m.total
    sawFull := Function.update m.sawFull i false
    sawFilled := Function.update m.sawFilled i false
    sawEmpty := Function.update m.sawEmpty i false }

/-- Copy the value of a position into its slot. -/
def copy (slot position : Nat) (v : Value ts) (m : Mem ts ι) : Mem ts ι :=
  { m with
    bytes := fun a =>
      if h : slot ≤ a ∧ a < slot + ts then v ⟨a - slot, by omega⟩ else m.bytes a
    log := Function.update m.log position (some v) }

/-- Store `p_tail`. -/
def storeTail (value : Nat) (m : Mem ts ι) : Mem ts ι :=
  { m with pTail := value, committed := m.committed + 1 }

/-- Advance `c_head` past a value. -/
def storeHead (value : Nat) (data : Value ts) (m : Mem ts ι) : Mem ts ι :=
  { m with cHead := value, consumed := m.consumed + 1, dequeued := m.dequeued ++ [data] }

/-- Advance `p_head` for thread `i`. -/
def claim (i : ι) (value : Nat) (m : Mem ts ι) : Mem ts ι :=
  { m with
    pHead := value
    claimed := m.claimed + 1
    holder := Function.update m.holder m.claimed (some i) }

omit [DecidableEq ι] in
@[simp] theorem total_observe (size : Nat) (m : Mem ts ι) : (m.observe size).total = m.total := rfl

omit [DecidableEq ι] in
@[simp] theorem total_storeTail (value : Nat) (m : Mem ts ι) :
    (m.storeTail value).total = m.total + 1 := by
  simp only [total, storeTail]
  omega

omit [DecidableEq ι] in
@[simp] theorem total_storeHead (value : Nat) (data : Value ts) (m : Mem ts ι) :
    (m.storeHead value data).total = m.total + 1 := by
  simp only [total, storeHead]
  omega

omit [DecidableEq ι] in
@[simp] theorem total_claim (i : ι) (value : Nat) (m : Mem ts ι) :
    (m.claim i value).total = m.total + 1 := by
  simp only [total, claim]
  omega

/-- One access of thread `i`. The operations are `_ck_ring_enqueue_reserve_sp`,
`_ck_ring_enqueue_commit_sp` and `_ck_ring_enqueue_sp` (`ck_ring.h:142-205`),
`_ck_ring_dequeue_sc` (`ck_ring.h:222-256`), `_ck_ring_enqueue_reserve_mp`,
`_ck_ring_enqueue_commit_mp` and `_ck_ring_enqueue_mp` (`ck_ring.h:258-401`), and
`_ck_ring_trydequeue_mc` and `_ck_ring_dequeue_mc` (`ck_ring.h:418-489`). -/
def act (size : Nat) (i : ι) (m : Mem ts ι) : Pc ts → Mem ts ι × Pc ts
  | .spConsumer v => (m, .spProducer v m.cHead)
  | .spProducer v consumer =>
    let taken := sub32 m.pTail consumer % size
    if (m.pTail + 1) % 2 ^ 32 % size = consumer % size then (m, .enqueued .sp false taken)
    else
      match v with
      | some v => (m, .spCopy v m.pTail taken)
      | none => (m, .spReserved (offset ts size m.pTail) taken)
  | .spCopy v producer taken =>
    (m.copy (offset ts size producer) m.committed v, .spStore producer taken)
  | .spStore producer taken =>
    (m.storeTail ((producer + 1) % 2 ^ 32), .enqueued .sp true taken)
  | .spCommit => (m, .spCommitStore m.pTail)
  | .spCommitStore tail => (m.storeTail ((tail + 1) % 2 ^ 32), .idle)
  | .mpHead v => (m, .mpConsumer v m.pHead)
  | .mpConsumer v producer =>
    -- only try to CAS if the producer is not stale and the buffer not full
    if sub32 producer m.cHead < size - 1 then (m, .mpCas v producer m.cHead)
    else (m, .mpReload v producer m.cHead)
  | .mpCas v producer consumer =>
    if m.pHead = producer then
      let taken := sub32 producer consumer % size
      (m.claim i ((producer + 1) % 2 ^ 32),
        match v with
        | some v => .mpCopy v producer taken m.claimed
        | none => .mpReserved producer taken m.claimed)
    else (m, .mpConsumer v m.pHead)
  | .mpReload v producer consumer =>
    if producer = m.pHead then (m, .enqueued .mp false (sub32 producer consumer % size))
    else (m, .mpConsumer v m.pHead)
  | .mpCopy v producer taken ticket =>
    (m.copy (offset ts size producer) ticket v, .mpWait producer taken ticket)
  | .mpWait producer taken ticket =>
    if m.pTail = producer then (m, .mpPublish producer taken ticket)
    else (m, .mpWait producer taken ticket)
  | .mpPublish producer taken _ =>
    (m.storeTail ((producer + 1) % 2 ^ 32), .enqueued .mp true taken)
  | .deqHead k => (m, .deqTail k m.cHead)
  | .deqTail k consumer =>
    if consumer = m.pTail then (m, .dequeued k none) else (m, .deqCopy k consumer)
  | .deqCopy k consumer => (m, .deqStore k consumer (m.read (offset ts size consumer)))
  | .deqStore .sc consumer data =>
    (m.storeHead ((consumer + 1) % 2 ^ 32) data, .dequeued .sc (some data))
  | .deqStore k consumer data =>
    if m.cHead = consumer then
      (m.storeHead ((consumer + 1) % 2 ^ 32) data, .dequeued k (some data))
    else if k = .tryMc then (m, .dequeued k none)
    else (m, .deqTail k m.cHead)
  | pc => (m, pc)

end Mem

/-- One step of thread `i`: it enters a call that it may make, writes to the slot it has
reserved, commits it, or makes the next access of its call. -/
inductive Step [DecidableEq ι] (size : Nat) (may : ι → Kind → Prop) (i : ι) :
    Mem ts ι → Pc ts → Mem ts ι → Pc ts → Prop
  | call {m : Mem ts ι} {pc : Pc ts} (c : Call ts) (resting : pc.Resting)
      (allowed : may i c.kind) : Step size may i m pc ((m.begin i).observe size) c.entry
  | writeSp {m : Mem ts ι} {slot taken : Nat} (v : Value ts) :
      Step size may i m (.spReserved slot taken) ((m.copy slot m.committed v).observe size)
        .spWritten
  | writeMp {m : Mem ts ι} {producer taken ticket : Nat} (v : Value ts) :
      Step size may i m (.mpReserved producer taken ticket)
        ((m.copy (offset ts size producer) ticket v).observe size) (.mpWritten producer ticket)
  | commitSp {m : Mem ts ι} : Step size may i m .spWritten ((m.begin i).observe size) .spCommit
  | commitMp {m : Mem ts ι} {producer ticket : Nat} :
      Step size may i m (.mpWritten producer ticket) ((m.begin i).observe size)
        (.mpWait producer 0 ticket)
  | act {m : Mem ts ι} {pc : Pc ts} (running : ¬ pc.Resting ∧ ¬ pc.Holding) :
      Step size may i m pc ((m.act size i pc).1.observe size) (m.act size i pc).2

/-- The memory after `ck_ring_init` (`ck_ring.h:122-132`) over a buffer with some contents. -/
def init (bytes : Nat → Byte) : Mem ts ι where
  cHead := 0
  pTail := 0
  pHead := 0
  bytes := bytes
  consumed := 0
  committed := 0
  claimed := 0
  log := fun _ => none
  holder := fun _ => none
  dequeued := []
  born := fun _ => 0
  sawFull := fun _ => true
  sawFilled := fun _ => true
  sawEmpty := fun _ => true

/-- The ring with all threads idle. -/
def start (bytes : Nat → Byte) : Threads.System (Mem ts ι) (Pc ts) ι where
  mem := init bytes
  pc := fun _ => .idle

end ConcurrencyKit.Ring
