import ConcurrencyKit.Misc.Chain

/-!
# The lists of `ck_queue.h`

The operations of `CK_SLIST`, `CK_STAILQ` and `CK_LIST` from `include/ck_queue.h` that store to the
lists. An operation is a script: the stores that it makes, one after the other, each with the
accesses that say what it stores. A script fails where the code would follow a null pointer. The
loop of a removal makes no stores, so it comes before the script; its length is bounded by `fuel`.

There may be any number of heads and of elements.
-/

namespace ConcurrencyKit

open Chain (Loc Cells)
open Chain.Loc (head next)

/-- The stores of an operation. -/
abbrev Script (M : Type) := List (M → Option M)

namespace Script

/-- The memory after the stores. -/
def run {M : Type} : Script M → M → Option M
  | [], m => some m
  | f :: fs, m => (f m).bind (run fs)

end Script

variable {η α : Type} [DecidableEq η] [DecidableEq α]

/-- `while (curelm->next != elm) curelm = curelm->next`. -/
def walk (c : Cells η α) (elm : α) : Nat → Option α → Option α
  | 0, _ => none
  | _ + 1, none => none
  | fuel + 1, some curelm =>
    if c (next curelm) = some elm then some curelm else walk c elm fuel (c (next curelm))

/-! ## Singly-linked lists -/

namespace CkSlist

/-- `cslh_first` of the heads and `csle_next` of the elements. -/
abbrev Mem (η α : Type) := Cells η α

/-- `ck_pr_store_ptr`. -/
def store (d : Loc η α) (v : Option α) (m : Mem η α) : Mem η α := Function.update m d v

/-- The operations that change a list. -/
inductive Op (η α : Type) where
  | insertAfter (a b : α)
  | insertHead (h : η) (elm : α)
  | insertPrevptr (prevp : Loc η α) (slistelm : Option α) (elm : α)
  | removeAfter (elm : α)
  | remove (h : η) (elm : α)
  | removeHead (h : η)
  | removePrevptr (prevp : Loc η α) (elm : α)
  deriving DecidableEq, Repr

/-- `CK_SLIST_REMOVE_AFTER` (`ck_queue.h:194-197`). -/
def removeAfter (elm : α) : Script (Mem η α) :=
  [fun m => (m (next elm)).map fun b => store (next elm) (m (next b)) m]

/-- `CK_SLIST_REMOVE_HEAD` (`ck_queue.h:210-213`). -/
def removeHead (h : η) : Script (Mem η α) :=
  [fun m => (m (head h)).map fun b => store (head h) (m (next b)) m]

/-- `CK_SLIST_INSERT_AFTER`, `CK_SLIST_INSERT_HEAD`, `CK_SLIST_INSERT_PREVPTR`,
`CK_SLIST_REMOVE_AFTER`, `CK_SLIST_REMOVE`, `CK_SLIST_REMOVE_HEAD` and `CK_SLIST_REMOVE_PREVPTR`
(`ck_queue.h:176-217`). -/
def script (fuel : Nat) (m : Mem η α) : Op η α → Option (Script (Mem η α))
  | .insertAfter a b =>
    some [fun m => some (store (next b) (m (next a)) m),
      fun m => some (store (next a) (some b) m)]
  | .insertHead h elm =>
    some [fun m => some (store (next elm) (m (head h)) m),
      fun m => some (store (head h) (some elm) m)]
  | .insertPrevptr prevp slistelm elm =>
    some [fun m => some (store (next elm) slistelm m),
      fun m => some (store prevp (some elm) m)]
  | .removeAfter elm => some (removeAfter elm)
  | .remove h elm =>
    if m (head h) = some elm then some (removeHead h)
    else (walk m elm fuel (m (head h))).map removeAfter
  | .removeHead h => some (removeHead h)
  | .removePrevptr prevp elm => some [fun m => some (store prevp (m (next elm)) m)]

end CkSlist

/-! ## Singly-linked tail queues -/

namespace CkStailq

/-- `cstqh_first` of the heads and `cstqe_next` of the elements, and `cstqh_last` of the heads. -/
structure Mem (η α : Type) where
  cell : Cells η α
  last : η → Loc η α

/-- `ck_pr_store_ptr`. -/
def store (d : Loc η α) (v : Option α) (m : Mem η α) : Mem η α :=
  { m with cell := Function.update m.cell d v }

/-- A store to `cstqh_last`. -/
def setLast (h : η) (d : Loc η α) (m : Mem η α) : Mem η α :=
  { m with last := Function.update m.last h d }

/-- `if (cell == NULL) (head)->cstqh_last = d`. -/
def setLastIf (e : Loc η α) (h : η) (d : Loc η α) (m : Mem η α) : Option (Mem η α) :=
  some (if m.cell e = none then setLast h d m else m)

/-- The operations that change queues. -/
inductive Op (η α : Type) where
  | init (h : η)
  | insertAfter (h : η) (tqelm elm : α)
  | insertHead (h : η) (elm : α)
  | insertTail (h : η) (elm : α)
  | removeAfter (h : η) (elm : α)
  | remove (h : η) (elm : α)
  | removeHead (h : η)
  | concat (head1 head2 : η)
  | move (head1 head2 : η)
  | swap (head1 head2 : η)
  deriving DecidableEq, Repr

/-- `CK_STAILQ_INIT` (`ck_queue.h:283-287`). -/
def init (h : η) : Script (Mem η α) :=
  [fun m => some (store (head h) none m), fun m => some (setLast h (head h) m)]

/-- `CK_STAILQ_REMOVE_AFTER` (`ck_queue.h:326-331`). -/
def removeAfter (h : η) (elm : α) : Script (Mem η α) :=
  [fun m => (m.cell (next elm)).map fun b => store (next elm) (m.cell (next b)) m,
    setLastIf (next elm) h (next elm)]

/-- `CK_STAILQ_REMOVE_HEAD` (`ck_queue.h:333-338`). -/
def removeHead (h : η) : Script (Mem η α) :=
  [fun m => (m.cell (head h)).map fun b => store (head h) (m.cell (next b)) m,
    setLastIf (head h) h (head h)]

/-- `CK_STAILQ_CONCAT` (`ck_queue.h:254-261`), `CK_STAILQ_INSERT_AFTER`, `CK_STAILQ_INSERT_HEAD`,
`CK_STAILQ_INSERT_TAIL`, `CK_STAILQ_REMOVE`, `CK_STAILQ_MOVE` and `CK_STAILQ_SWAP`
(`ck_queue.h:289-364`). -/
def script (fuel : Nat) (m : Mem η α) : Op η α → Option (Script (Mem η α))
  | .init h => some (init h)
  | .insertAfter h tqelm elm =>
    some [fun m => some (store (next elm) (m.cell (next tqelm)) m),
      fun m => some (store (next tqelm) (some elm) m),
      setLastIf (next elm) h (next elm)]
  | .insertHead h elm =>
    some [fun m => some (store (next elm) (m.cell (head h)) m),
      fun m => some (store (head h) (some elm) m),
      setLastIf (next elm) h (next elm)]
  | .insertTail h elm =>
    some [fun m => some (store (next elm) none m),
      fun m => some (store (m.last h) (some elm) m),
      fun m => some (setLast h (next elm) m)]
  | .removeAfter h elm => some (removeAfter h elm)
  | .remove h elm =>
    if m.cell (head h) = some elm then some (removeHead h)
    else (walk m.cell elm fuel (m.cell (head h))).map (removeAfter h)
  | .removeHead h => some (removeHead h)
  | .concat head1 head2 =>
    some
      (if m.cell (head head2) ≠ none then
        [fun m => some (store (m.last head1) (m.cell (head head2)) m),
          fun m => some (setLast head1 (m.last head2) m)] ++ init head2
      else [])
  | .move head1 head2 =>
    some [fun m => some (store (head head1) (m.cell (head head2)) m),
      fun m => some (setLast head1 (m.last head2) m),
      fun m => some (if m.last head2 = head head2 then setLast head1 (head head1) m else m)]
  | .swap head1 head2 =>
    let swapFirst := m.cell (head head1)
    let swapLast := m.last head1
    some [fun m => some (store (head head1) (m.cell (head head2)) m),
      fun m => some (setLast head1 (m.last head2) m),
      fun m => some (store (head head2) swapFirst m),
      fun m => some (setLast head2 swapLast m),
      setLastIf (head head1) head1 (head head1),
      setLastIf (head head2) head2 (head head2)]

end CkStailq

/-! ## Lists -/

namespace CkList

/-- `clh_first` of the heads and `cle_next` of the elements, and `cle_prev` of the elements. -/
structure Mem (η α : Type) where
  cell : Cells η α
  prev : α → Loc η α

/-- `ck_pr_store_ptr`. -/
def store (d : Loc η α) (v : Option α) (m : Mem η α) : Mem η α :=
  { m with cell := Function.update m.cell d v }

/-- A store to `cle_prev`. -/
def setPrev (a : α) (d : Loc η α) (m : Mem η α) : Mem η α :=
  { m with prev := Function.update m.prev a d }

/-- `if (cell != NULL) (cell)->field.cle_prev = d`. -/
def setPrevOf (e d : Loc η α) (m : Mem η α) : Option (Mem η α) :=
  some (match m.cell e with
    | some a => setPrev a d m
    | none => m)

/-- The operations that change lists. -/
inductive Op (η α : Type) where
  | init (h : η)
  | insertAfter (listelm elm : α)
  | insertBefore (listelm elm : α)
  | insertHead (h : η) (elm : α)
  | remove (elm : α)
  | move (head1 head2 : η)
  | swap (head1 head2 : η)
  deriving DecidableEq, Repr

/-- `CK_LIST_INIT` (`ck_queue.h:402-405`), `CK_LIST_INSERT_AFTER`, `CK_LIST_INSERT_BEFORE`,
`CK_LIST_INSERT_HEAD`, `CK_LIST_REMOVE`, `CK_LIST_MOVE` and `CK_LIST_SWAP`
(`ck_queue.h:407-462`). -/
def script (m : Mem η α) : Op η α → Script (Mem η α)
  | .init h => [fun m => some (store (head h) none m)]
  | .insertAfter listelm elm =>
    [fun m => some (store (next elm) (m.cell (next listelm)) m),
      fun m => some (setPrev elm (next listelm) m),
      setPrevOf (next listelm) (next elm),
      fun m => some (store (next listelm) (some elm) m)]
  | .insertBefore listelm elm =>
    [fun m => some (setPrev elm (m.prev listelm) m),
      fun m => some (store (next elm) (some listelm) m),
      fun m => some (store (m.prev listelm) (some elm) m),
      fun m => some (setPrev listelm (next elm) m)]
  | .insertHead h elm =>
    [fun m => some (store (next elm) (m.cell (head h)) m),
      fun m =>
        if m.cell (next elm) ≠ none then (m.cell (head h)).map fun b => setPrev b (next elm) m
        else some m,
      fun m => some (store (head h) (some elm) m),
      fun m => some (setPrev elm (head h) m)]
  | .remove elm =>
    [fun m => some (store (m.prev elm) (m.cell (next elm)) m),
      fun m => setPrevOf (next elm) (m.prev elm) m]
  | .move head1 head2 =>
    [fun m => some (store (head head1) (m.cell (head head2)) m),
      setPrevOf (head head1) (head head1)]
  | .swap head1 head2 =>
    let swapTmp := m.cell (head head1)
    [fun m => some (store (head head1) (m.cell (head head2)) m),
      fun m => some (store (head head2) swapTmp m),
      setPrevOf (head head1) (head head1),
      setPrevOf (head head2) (head head2)]

end CkList

end ConcurrencyKit
