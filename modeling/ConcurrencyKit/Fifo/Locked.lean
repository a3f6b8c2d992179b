import ConcurrencyKit.Fifo.Spsc
import ConcurrencyKit.Misc.Guarded
import ConcurrencyKit.Spinlock.Swap

/-!
# The locks of `ck_fifo_spsc`

A `struct ck_fifo_spsc` has a lock for either end: `ck_fifo_spsc_enqueue_lock` and
`ck_fifo_spsc_enqueue_trylock` take the one for the calls of `ck_fifo_spsc_enqueue` and
`ck_fifo_spsc_recycle`, and `ck_fifo_spsc_dequeue_lock` and `ck_fifo_spsc_dequeue_trylock` the one
for `ck_fifo_spsc_dequeue` (`include/ck_fifo.h:57-99`). With the locks any number of threads can use
the queue.
-/

namespace ConcurrencyKit.Fifo.Spsc

open Threads (System)

variable {ι N V : Type}

/-- `m_tail` and `m_head`, which are of type `ck_spinlock_t`. -/
def endLock (ι : Type) : Guarded.Lock ι (Spinlock.Swap.Mem ι) Spinlock.Swap.Pc where
  step := Spinlock.Swap.Step .fas
  free := .idle
  Held p := p = .inside

instance (p : Spinlock.Swap.Pc) : Decidable ((endLock ι).Held p) :=
  inferInstanceAs (Decidable (p = .inside))

theorem endLock_exclusive (ι : Type) :
    (endLock ι).Exclusive Spinlock.Swap.Inv Spinlock.Swap.At where
  invariant := Spinlock.Swap.invariant .fas
  unique hi hj hp hq := hi.unique hj (.inl hp) (.inl hq)

section Ends

variable [DecidableEq N]

theorem Step.of_resting {side : Side} {m m' : Mem N V} {p p' q : Pc N V} (hp : p.Resting)
    (hq : q.Resting) (h : Step side m p m' p') : Step side m q m' p' := by
  cases h with
  | enqueue e v hside _ mine => exact .enqueue e v hside hq mine
  | recycle hside => exact .recycle hside hq
  | dequeue hside => exact .dequeue hside hq
  | act running => exact absurd hp running

/-- The two ends of a queue. -/
def ends (N V : Type) [DecidableEq N] : Guarded.Component Side (Mem N V) (Pc N V) where
  step := Step
  idle := .idle
  Rest := Pc.Resting
  rest_idle := trivial
  rest_step := Step.of_resting

/-- The queue after `ck_fifo_spsc_init`, with all threads outside. -/
def lockedStart (ι : Type) (stub : N) (next : N → Option N) (value : N → V) :
    System (Guarded.Mem Side (Spinlock.Swap.Mem ι) (Mem N V))
      (Guarded.Pc Side Spinlock.Swap.Pc (Pc N V)) ι where
  mem := ⟨init stub next value, fun _ => Spinlock.Swap.init ι⟩
  pc _ := .outside .enqueuer .idle

variable [DecidableEq ι]

/-- States of a queue that is used by the threads of `ι` with its locks. -/
def LockedReachable (stub : N) (next : N → Option N) (value : N → V)
    (s : System (Guarded.Mem Side (Spinlock.Swap.Mem ι) (Mem N V))
      (Guarded.Pc Side Spinlock.Swap.Pc (Pc N V)) ι) : Prop :=
  System.Reachable (Guarded.Step (endLock ι) (ends N V)) (fun _ _ _ => True)
    (lockedStart ι stub next value) s

/-- What holds of a queue that is shared by any number of threads. -/
structure Shared (s : System (Guarded.Mem Side (Spinlock.Swap.Mem ι) (Mem N V))
    (Guarded.Pc Side Spinlock.Swap.Pc (Pc N V)) ι) : Prop where
  /-- What the threads have dequeued is what they have enqueued first. -/
  in_order : s.mem.mem.dequeued <+: enqueued s.mem.mem
  /-- The values that are still to be dequeued are in the nodes behind `head`. -/
  pending : ∀ k v, s.mem.mem.dequeued.length ≤ k → (enqueued s.mem.mem)[k]? = some v →
    s.mem.mem.value (s.mem.mem.nodes.seq (k + 1)) = v
  /-- No recycled node can be reached from `head`, and none is returned twice. -/
  unreachable : ∀ x ∈ s.mem.mem.recycled, ∀ h, s.mem.mem.head = some h →
    ¬ Window.Path s.mem.mem.next h x
  once : s.mem.mem.recycled.Nodup
  alive : ∀ i side q, s.pc i ≠ .inside side q .crashed
  /-- One thread at a time is at an end. -/
  exclusive : ∀ i j side q q' p p', s.pc i = .inside side q p → s.pc j = .inside side q' p' → i = j

variable {stub : N} {next : N → Option N} {value : N → V}
  {s : System (Guarded.Mem Side (Spinlock.Swap.Mem ι) (Mem N V))
    (Guarded.Pc Side Spinlock.Swap.Pc (Pc N V)) ι}

end Ends

end ConcurrencyKit.Fifo.Spsc
