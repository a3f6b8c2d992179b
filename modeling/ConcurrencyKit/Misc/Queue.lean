import ConcurrencyKit.Misc.Linear

/-!
# Queues

The sequential specification of an unbounded queue. In a legal history the values that come out
are those that went in, in the same order.
-/

namespace ConcurrencyKit.Queue

open Linear (Legal)

variable {V : Type}

/-- The operations of a queue with their results. -/
inductive Op (V : Type) where
  | enqueue (v : V)
  | dequeue (v : V)
  deriving DecidableEq, Repr

/-- What an operation does to a queue. -/
inductive Next : List V → Op V → List V → Prop
  | enqueue (q : List V) (v : V) : Next q (.enqueue v) (q ++ [v])
  | dequeue (v : V) (q : List V) : Next (v :: q) (.dequeue v) q

/-- The value that an operation puts in. -/
def Op.input : Op V → Option V
  | .enqueue v => some v
  | .dequeue _ => none

/-- The value that an operation takes out. -/
def Op.output : Op V → Option V
  | .enqueue _ => none
  | .dequeue v => some v

/-- What went in is what came out, followed by what is in the queue. -/
theorem legal_fifo {ops : List (Op V)} {q : List V} (h : Legal Next [] ops q) :
    ops.filterMap Op.input = ops.filterMap Op.output ++ q := by
  induction h with
  | nil => rfl
  | snoc op _ hn ih =>
    rw [List.filterMap_append, List.filterMap_append, ih]
    cases hn with
    | enqueue q v => simp [Op.input, Op.output]
    | dequeue v q => simp [Op.input, Op.output]

end ConcurrencyKit.Queue
