import ConcurrencyKit.Misc.Chain

/-!
# The deferred calls of `ck_epoch`

`ck_epoch_call` and the functions that dispatch (`include/ck_epoch.h`, `src/ck_epoch.c`), on a
record that only its owner uses. The entries of a pending slot are linked through the entries. The
other threads advance the global epoch at any time, and what the scan of the records finds is up to
them.

The callback that the dispatch runs may defer entries on the record. So a callback is a state in
which `ck_epoch_call` may be called, like the one between two functions.

The calls of `ck_epoch_call` are numbered in their order. Which call has deferred an entry, and
which calls have been dispatched, is in the state, next to what the code has. As soon as its call
has been dispatched an entry is the program's again, which may store to it or defer it once more.
-/

namespace ConcurrencyKit.Epoch.Calls

open Chain (Cells)
open Chain.Loc (head next)

/-- The stacks: a slot of `pending`, or one that the program passes to `ck_epoch_poll_deferred`. -/
inductive Stack (σ : Type) where
  | pending (slot : Fin 4)
  | deferred (stack : σ)
  deriving DecidableEq, Repr

/-- What comes after one call of `ck_epoch_dispatch`: its argument `deferred`, the epochs that
`ck_epoch_dispatch` is still to be called with, and the result of the function that calls it. -/
structure Caller (σ : Type) where
  deferred : Option σ
  epochs : List (BitVec 32)
  result : Option Bool

/-- Where the owner stands, with the local variables that are live. -/
inductive Pc (σ α φ : Type) where
  /-- Between two functions, with the result of the last one. -/
  | idle (result : Option Bool)
  /-- `ck_epoch_poll_deferred`, before its scan. -/
  | poll (deferred : Option σ) (epoch : BitVec 32)
  /-- `ck_epoch_barrier`, in `ck_epoch_synchronize`. -/
  | synchronize
  /-- Before the next call of `ck_epoch_dispatch`. -/
  | dispatch (caller : Caller σ)
  /-- The loop of `ck_epoch_dispatch`. -/
  | walk (caller : Caller σ) (cursor : Option α) (i : BitVec 32)
  /-- In the callback `function` of an entry. -/
  | callback (caller : Caller σ) (function : φ) (next : Option α) (i : BitVec 32)

/-- The owner may call a function that takes the record. -/
def Pc.Free {σ α φ : Type} : Pc σ α φ → Prop
  | .idle _ | .callback .. => True
  | _ => False

/-- No call of `ck_epoch_dispatch` is in progress. -/
def Pc.Outside {σ α φ : Type} : Pc σ α φ → Prop
  | .walk .. | .callback .. => False
  | _ => True

/-- The global epoch, the record of the owner and the memory of the entries. -/
structure State (σ α φ : Type) where
  global : BitVec 32
  epoch : BitVec 32
  nPending : BitVec 32
  nPeak : BitVec 32
  nDispatch : BitVec 32
  /-- The heads of the stacks, and `stack_entry.next` of the entries. -/
  cell : Cells (Stack σ) α
  function : α → φ
  pc : Pc σ α φ
  /-- The entry of each call of `ck_epoch_call`, and the slot that it has been pushed to. -/
  calls : List (α × Fin 4)
  /-- The last call that has deferred an entry. -/
  number : α → Option ℕ
  /-- The calls that have been dispatched. -/
  dispatched : List ℕ

/-- `e & (CK_EPOCH_LENGTH - 1)`. -/
def slot (e : BitVec 32) : Fin 4 := Fin.ofNat 4 (e &&& 3#32).toNat

/-- What `ck_epoch_scan` finds. -/
inductive Scan where
  | blocked
  | inactive
  | active
  deriving DecidableEq, Repr

variable {σ α φ : Type}

/-- `ck_epoch_pending` (`ck_epoch.h:318-331`). -/
def pending (c : Cells (Stack σ) α) : BitVec 32 :=
  (List.finRange 4).foldl
    (fun p i => if (c (head (.pending i))).isNone = false then p ||| 1#32 <<< i.val else p) 0

/-- `ck_epoch_dispatched` (`ck_epoch.h:340-346`), with what it stores to `*p`. -/
def dispatched (c : Cells (Stack σ) α) (p : BitVec 32) : BitVec 32 × Bool :=
  (p &&& pending c, p &&& pending c == 0)

namespace State

/-- An entry that has been deferred and has not been dispatched since then. -/
def Outstanding (s : State σ α φ) (x : α) : Prop := ∃ n, s.number x = some n ∧ n ∉ s.dispatched

/-- The call `n` has deferred the entry `x` into the slot `k`, and has not been dispatched. -/
def Deferred (s : State σ α φ) (n : ℕ) (x : α) (k : Fin 4) : Prop :=
  s.calls[n]? = some (x, k) ∧ n ∉ s.dispatched

/-- The end of `ck_epoch_dispatch` (`ck_epoch.c:391-404`). -/
def account (i : BitVec 32) (s : State σ α φ) : State σ α φ :=
  let s := if s.nPending > s.nPeak then { s with nPeak := s.nPending } else s
  if i > 0 then { s with
    nDispatch := s.nDispatch + i
    nPending := s.nPending - i }
  else s

/-- The entry is handed to the program. -/
def release (x : α) (s : State σ α φ) : State σ α φ :=
  { s with dispatched := s.dispatched ++ (s.number x).toList }

/-- `ck_epoch_poll_deferred` from its scan on (`ck_epoch.c:608-639`). -/
def scanned (deferred : Option σ) (epoch : BitVec 32) (s : State σ α φ) : Scan → State σ α φ
  | .blocked => { s with pc := .idle (some false) }
  | .inactive => { s with
      epoch := epoch
      pc := .dispatch ⟨deferred, [0, 1, 2, 3], some true⟩ }
  | .active => { s with
      global := if s.global = epoch then epoch + 1 else s.global
      pc := .dispatch ⟨deferred, [epoch - 2], some true⟩ }

/-- The state in which `ck_epoch_reclaim` starts (`ck_epoch.c:410-420`). -/
def reclaim (s : State σ α φ) : State σ α φ := { s with pc := .dispatch ⟨none, [0, 1, 2, 3], none⟩ }

variable [DecidableEq σ] [DecidableEq α]

/-- `ck_stack_push_spnc` (`ck_stack.h:373-380`). -/
def push (s : State σ α φ) (h : Stack σ) (x : α) : State σ α φ :=
  { s with
    cell := Function.update (Function.update s.cell (next x) (s.cell (head h))) (head h) (some x) }

section Push

variable {s : State σ α φ} {g h : Stack σ} {x y : α}

theorem push_first : (s.push h x).cell (head h) = some x := Function.update_self ..

theorem push_head (hg : g ≠ h) : (s.push h x).cell (head g) = s.cell (head g) := by
  unfold push
  dsimp only
  rw [Function.update_of_ne (by simpa using hg), Function.update_of_ne (by simp)]

theorem push_behind : (s.push h x).cell (next x) = s.cell (head h) := by
  unfold push
  dsimp only
  rw [Function.update_of_ne (by simp), Function.update_self]

theorem push_next (hy : y ≠ x) : (s.push h x).cell (next y) = s.cell (next y) := by
  unfold push
  dsimp only
  rw [Function.update_of_ne (by simp), Function.update_of_ne (by simpa using hy)]

end Push

/-- `ck_epoch_call` (`ck_epoch.h:271-285`). -/
def call (entry : α) (function : φ) (s : State σ α φ) : State σ α φ :=
  { s.push (.pending (slot s.global)) entry with
    nPending := s.nPending + 1
    function := Function.update s.function entry function
    number := Function.update s.number entry (some s.calls.length)
    calls := s.calls ++ [(entry, slot s.global)] }

/-- The start of `ck_epoch_dispatch`, with `ck_stack_batch_pop_upmc` (`ck_epoch.c:374-379`). -/
def batchPop (e : BitVec 32) (caller : Caller σ) (s : State σ α φ) : State σ α φ :=
  { s with
    cell := Function.update s.cell (head (.pending (slot e))) none
    pc := .walk caller (s.cell (head (.pending (slot e)))) 0 }

/-- One turn of the loop in `ck_epoch_dispatch`, up to the call of the callback
(`ck_epoch.c:379-389`). -/
def visit (caller : Caller σ) (x : α) (i : BitVec 32) (s : State σ α φ) : State σ α φ :=
  match caller.deferred with
  | some d => { (s.release x).push (.deferred d) x with
      pc := .walk caller (s.cell (next x)) (i + 1) }
  | none => { s.release x with pc := .callback caller (s.function x) (s.cell (next x)) i }

/-- The owner goes on with the function that it is in. -/
def run (scan : Scan) (s : State σ α φ) : State σ α φ :=
  match s.pc with
  | .idle _ => s
  | .poll deferred epoch => s.scanned deferred epoch scan
  | .synchronize => s.reclaim
  | .dispatch caller =>
    match caller.epochs with
    | [] => { s with pc := .idle caller.result }
    | e :: epochs => s.batchPop e { caller with epochs := epochs }
  | .walk caller none i => { s.account i with pc := .dispatch caller }
  | .walk caller (some x) i => s.visit caller x i
  | .callback caller _ cursor i => { s with pc := .walk caller cursor (i + 1) }

end State

/-- One step of the owner, or of the other threads. -/
inductive Step [DecidableEq σ] [DecidableEq α] : State σ α φ → State σ α φ → Prop
  | call {s : State σ α φ} (entry : α) (function : φ) (hpc : s.pc.Free)
      (hentry : ¬ s.Outstanding entry) : Step s (s.call entry function)
  | poll {s : State σ α φ} {r : Option Bool} (deferred : Option σ) (hpc : s.pc = .idle r) :
      Step s { s with pc := .poll deferred s.global }
  | reclaim {s : State σ α φ} {r : Option Bool} (hpc : s.pc = .idle r) : Step s s.reclaim
  | barrier {s : State σ α φ} {r : Option Bool} (hpc : s.pc = .idle r) :
      Step s { s with pc := .synchronize }
  | run {s : State σ α φ} (scan : Scan) : Step s (s.run scan)
  /-- The global epoch is advanced. -/
  | tick {s : State σ α φ} : Step s { s with global := s.global + 1 }
  /-- The program stores to its own memory: the entries that are not outstanding, and its stacks. -/
  | store {s : State σ α φ} (cell : Cells (Stack σ) α) (function : α → φ)
      (hpending : ∀ k, cell (head (.pending k)) = s.cell (head (.pending k)))
      (hentry : ∀ x, s.Outstanding x → cell (next x) = s.cell (next x) ∧
        function x = s.function x) :
      Step s { s with
        cell := cell
        function := function }

/-- A record after `ck_epoch_register`. -/
structure Registered (s : State σ α φ) : Prop where
  nPending : s.nPending = 0
  nPeak : s.nPeak = 0
  nDispatch : s.nDispatch = 0
  empty : ∀ k, s.cell (head (.pending k)) = none
  idle : s.pc = .idle none
  calls : s.calls = []
  number : ∀ x, s.number x = none
  dispatched : s.dispatched = []

/-- The states that are reached from the registration of the record. -/
inductive Reachable [DecidableEq σ] [DecidableEq α] : State σ α φ → Prop
  | registered {s : State σ α φ} (h : Registered s) : Reachable s
  | step {s s' : State σ α φ} (h : Reachable s) (hstep : Step s s') : Reachable s'

/-- A snapshot that has been taken in the state `s₀` is `p` in the state `s`, where the owner has
narrowed it any number of times. -/
inductive Snapshot [DecidableEq σ] [DecidableEq α] (s₀ : State σ α φ) :
    State σ α φ → BitVec 32 → Prop
  | taken : Snapshot s₀ s₀ (pending s₀.cell)
  | step {s s' : State σ α φ} {p : BitVec 32} (h : Snapshot s₀ s p) (hstep : Step s s') :
      Snapshot s₀ s' p
  | narrow {s : State σ α φ} {p : BitVec 32} (h : Snapshot s₀ s p) :
      Snapshot s₀ s (dispatched s.cell p).1

end ConcurrencyKit.Epoch.Calls
