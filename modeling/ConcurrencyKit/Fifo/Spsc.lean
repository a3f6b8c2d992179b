import ConcurrencyKit.Misc.Threads
import ConcurrencyKit.Misc.Window

/-!
# The queue of `ck_fifo_spsc`

One thread enqueues and recycles nodes, another one dequeues (`include/ck_fifo.h:102-178`).
Every load and store is one step. The fields `tail`, `head_snapshot` and `garbage` belong to
the first thread and `head` to the second one; the recycler follows `head` through a snapshot
that may be old.

The nodes that have been linked so far form a sequence, and the four fields point into a
window of it: `garbage` to its first node, and the others to later ones, in the order
`head_snapshot`, `head`, `tail`. Only while the enqueuer has linked a node and not yet moved
`tail` to it may `head` already be there, one node past `tail`. A `Mem` keeps the sequence and
these positions as history.
-/

namespace ConcurrencyKit.Fifo.Spsc

open Threads (Invariant System)

/-- `struct ck_fifo_spsc` and its entries, and the history of their use. -/
structure Mem (N V : Type) where
  next : N → Option N
  value : N → V
  head : Option N
  tail : Option N
  headSnapshot : Option N
  garbage : Option N
  /-- The nodes in the order in which they are linked, from `garbage` on. -/
  nodes : Window N
  /-- The positions of `head_snapshot`, `head` and `tail`. -/
  snapshot : Nat
  taken : Nat
  published : Nat
  /-- The value enqueued with the node of a position. -/
  filed : Nat → V
  /-- All values returned by `ck_fifo_spsc_dequeue`, oldest first. -/
  dequeued : List V
  /-- The nodes that have been given to the queue at some time. -/
  used : List N
  /-- The nodes that `ck_fifo_spsc_recycle` has returned and that have not been enqueued again
  since. -/
  recycled : List N

/-- The two threads. -/
inductive Side where
  | enqueuer
  | dequeuer
  deriving DecidableEq, Repr

/-- Where a thread stands, with the local variables that are live, and with the position of
the `head` that a recycler has loaded. -/
inductive Pc (N V : Type) where
  | idle
  | enqueueValue (entry : N) (value : V)
  | enqueueNext (entry : N) (value : V)
  | enqueueTail (entry : N) (value : V)
  | enqueueLink (entry : N) (value : V) (tail : Option N)
  | enqueueStore (entry : N)
  | enqueued
  | recycleSnapshot
  | recycleGarbage (snapshot : Option N)
  | recycleHead
  | recycleStore (head : Option N) (position : Nat)
  | recycleReload
  | recycleCompare (snapshot : Option N)
  | recycleTake
  | recycleNext (garbage : Option N)
  | recycleAdvance (garbage : N) (next : Option N)
  | recycled (garbage : Option N)
  | dequeueHead
  | dequeueNext (head : Option N)
  | dequeueValue (entry : N)
  | dequeueStore (entry : N) (value : V)
  | dequeued (value : Option V)
  /-- A null pointer has been followed. -/
  | crashed

variable {N V : Type}

/-- The thread is between two calls. -/
def Pc.Resting : Pc N V → Prop
  | .idle | .enqueued | .recycled _ | .dequeued _ => True
  | _ => False

namespace Mem

variable [DecidableEq N]

/-- The caller gives a node to the queue. -/
def give (e : N) (m : Mem N V) : Mem N V :=
  { m with used := e :: m.used, recycled := m.recycled.erase e }

/-- Store the value of a node. -/
def storeValue (e : N) (v : V) (m : Mem N V) : Mem N V :=
  { m with value := Function.update m.value e v }

/-- Clear the `next` of a node. -/
def clearNext (e : N) (m : Mem N V) : Mem N V :=
  { m with next := Function.update m.next e none }

/-- Link a node behind the node `t`. -/
def link (t e : N) (v : V) (m : Mem N V) : Mem N V :=
  { m with
    next := Function.update m.next t (some e)
    nodes := m.nodes.push e
    filed := Function.update m.filed (m.nodes.last + 1) v }

/-- Store `tail`. -/
def storeTail (e : N) (m : Mem N V) : Mem N V :=
  { m with tail := some e, published := m.published + 1 }

/-- Store `head_snapshot`, which has been loaded when `head` was at position `k`. -/
def storeSnapshot (h : Option N) (k : Nat) (m : Mem N V) : Mem N V :=
  { m with headSnapshot := h, snapshot := k }

/-- Store `garbage` and return the node that it pointed to. -/
def storeGarbage (g : N) (n : Option N) (m : Mem N V) : Mem N V :=
  { m with garbage := n, nodes := m.nodes.pop, recycled := g :: m.recycled }

/-- Store `head` and return the value of its node. -/
def storeHead (e : N) (v : V) (m : Mem N V) : Mem N V :=
  { m with head := some e, taken := m.taken + 1, dequeued := m.dequeued ++ [v] }

/-- One access. -/
def act (m : Mem N V) : Pc N V → Mem N V × Pc N V
  | .enqueueValue e v => (m.storeValue e v, .enqueueNext e v)
  | .enqueueNext e v => (m.clearNext e, .enqueueTail e v)
  | .enqueueTail e v => (m, .enqueueLink e v m.tail)
  | .enqueueLink e v (some t) => (m.link t e v, .enqueueStore e)
  | .enqueueLink _ _ none => (m, .crashed)
  | .enqueueStore e => (m.storeTail e, .enqueued)
  | .recycleSnapshot => (m, .recycleGarbage m.headSnapshot)
  | .recycleGarbage snapshot =>
    if snapshot = m.garbage then (m, .recycleHead) else (m, .recycleTake)
  | .recycleHead => (m, .recycleStore m.head m.taken)
  | .recycleStore h k => (m.storeSnapshot h k, .recycleReload)
  | .recycleReload => (m, .recycleCompare m.headSnapshot)
  | .recycleCompare snapshot =>
    if snapshot = m.garbage then (m, .recycled none) else (m, .recycleTake)
  | .recycleTake => (m, .recycleNext m.garbage)
  | .recycleNext (some g) => (m, .recycleAdvance g (m.next g))
  | .recycleNext none => (m, .crashed)
  | .recycleAdvance g n => (m.storeGarbage g n, .recycled (some g))
  | .dequeueHead => (m, .dequeueNext m.head)
  | .dequeueNext (some h) =>
    match m.next h with
    | some e => (m, .dequeueValue e)
    | none => (m, .dequeued none)
  | .dequeueNext none => (m, .crashed)
  | .dequeueValue e => (m, .dequeueStore e (m.value e))
  | .dequeueStore e v => (m.storeHead e v, .dequeued (some v))
  | pc => (m, pc)

end Mem

/-- One step of a thread: it enters a call of its own, with a node that is new or recycled
where it enqueues, or makes the next access of its call. -/
inductive Step [DecidableEq N] (i : Side) : Mem N V → Pc N V → Mem N V → Pc N V → Prop
  | enqueue {m : Mem N V} {pc : Pc N V} (e : N) (v : V) (side : i = .enqueuer)
      (resting : pc.Resting) (mine : e ∉ m.used ∨ e ∈ m.recycled) :
      Step i m pc (m.give e) (.enqueueValue e v)
  | recycle {m : Mem N V} {pc : Pc N V} (side : i = .enqueuer) (resting : pc.Resting) :
      Step i m pc m .recycleSnapshot
  | dequeue {m : Mem N V} {pc : Pc N V} (side : i = .dequeuer) (resting : pc.Resting) :
      Step i m pc m .dequeueHead
  | act {m : Mem N V} {pc : Pc N V} (running : ¬ pc.Resting) :
      Step i m pc (m.act pc).1 (m.act pc).2

/-- The memory after `ck_fifo_spsc_init`. -/
def init [DecidableEq N] (stub : N) (next : N → Option N) (value : N → V) : Mem N V where
  next := Function.update next stub none
  value := value
  head := some stub
  tail := some stub
  headSnapshot := some stub
  garbage := some stub
  nodes := ⟨fun _ => stub, 0, 0⟩
  snapshot := 0
  taken := 0
  published := 0
  filed := fun _ => value stub
  dequeued := []
  used := [stub]
  recycled := []

/-- The queue with both threads idle. -/
def start [DecidableEq N] (stub : N) (next : N → Option N) (value : N → V) :
    System (Mem N V) (Pc N V) Side where
  mem := init stub next value
  pc := fun _ => .idle

/-! ## The invariant -/

/-- The four fields point into the window, in this order. -/
structure Inv (m : Mem N V) : Prop where
  valid : m.nodes.Valid
  linked : m.nodes.Linked m.next
  garbage : m.garbage = some (m.nodes.seq m.nodes.first)
  headSnapshot : m.headSnapshot = some (m.nodes.seq m.snapshot)
  head : m.head = some (m.nodes.seq m.taken)
  tail : m.tail = some (m.nodes.seq m.published)
  first_le : m.nodes.first ≤ m.snapshot
  snapshot_le : m.snapshot ≤ m.taken
  taken_le : m.taken ≤ m.nodes.last
  published_le : m.published ≤ m.nodes.last
  snapshot_le_published : m.snapshot ≤ m.published
  last_le : m.nodes.last ≤ m.published + 1
  /-- The nodes behind `head` carry the values that were filed with them. -/
  filed : ∀ k, m.taken < k → k ≤ m.nodes.last → m.value (m.nodes.seq k) = m.filed k
  dequeued : m.dequeued = (List.range m.taken).map fun k => m.filed (k + 1)
  used : ∀ x, m.nodes.Has x ∨ x ∈ m.recycled → x ∈ m.used
  recycled : ∀ x ∈ m.recycled, ¬ m.nodes.Has x
  nodup : m.recycled.Nodup

/-- A node that the enqueuer has in hand. -/
def Mine (m : Mem N V) (e : N) : Prop := ¬ m.nodes.Has e ∧ e ∉ m.recycled ∧ e ∈ m.used

/-- What the enqueuer knows. -/
def AtEnqueuer (m : Mem N V) : Pc N V → Prop
  | .idle | .enqueued | .recycled _ | .recycleSnapshot | .recycleReload =>
    m.published = m.nodes.last
  | .enqueueValue e _ => m.published = m.nodes.last ∧ Mine m e
  | .enqueueNext e v => m.published = m.nodes.last ∧ Mine m e ∧ m.value e = v
  | .enqueueTail e v => m.published = m.nodes.last ∧ Mine m e ∧ m.value e = v ∧ m.next e = none
  | .enqueueLink e v t => m.published = m.nodes.last ∧ Mine m e ∧ m.value e = v ∧
      m.next e = none ∧ t = m.tail
  | .enqueueStore e => m.nodes.last = m.published + 1 ∧ e = m.nodes.seq m.nodes.last
  | .recycleGarbage s | .recycleCompare s => m.published = m.nodes.last ∧ s = m.headSnapshot
  | .recycleHead => m.published = m.nodes.last ∧ m.nodes.first = m.snapshot
  | .recycleStore h k => m.published = m.nodes.last ∧ m.snapshot ≤ k ∧ k ≤ m.taken ∧
      h = some (m.nodes.seq k)
  | .recycleTake => m.published = m.nodes.last ∧ m.nodes.first < m.snapshot
  | .recycleNext g => m.published = m.nodes.last ∧ m.nodes.first < m.snapshot ∧ g = m.garbage
  | .recycleAdvance g n => m.published = m.nodes.last ∧ m.nodes.first < m.snapshot ∧
      m.garbage = some g ∧ n = some (m.nodes.seq (m.nodes.first + 1))
  | _ => False

/-- What the dequeuer knows. -/
def AtDequeuer (m : Mem N V) : Pc N V → Prop
  | .idle | .dequeueHead | .dequeued _ => True
  | .dequeueNext h => h = m.head
  | .dequeueValue e => m.taken < m.nodes.last ∧ e = m.nodes.seq (m.taken + 1)
  | .dequeueStore e v => m.taken < m.nodes.last ∧ e = m.nodes.seq (m.taken + 1) ∧
      v = m.filed (m.taken + 1)
  | _ => False

/-- What a thread knows. -/
def At : Side → Mem N V → Pc N V → Prop
  | .enqueuer => AtEnqueuer
  | .dequeuer => AtDequeuer

section Changes

variable [DecidableEq N] {m m' : Mem N V} {e g : N} {v : V}

/-- What a step of the enqueuer can do to the queue. -/
inductive Change (m : Mem N V) : Mem N V → Prop
  | stay : Change m m
  | give (e : N) (mine : e ∉ m.used ∨ e ∈ m.recycled) : Change m (m.give e)
  | storeValue (e : N) (v : V) (mine : Mine m e) : Change m (m.storeValue e v)
  | clearNext (e : N) (mine : Mine m e) : Change m (m.clearNext e)
  | link (e : N) (mine : Mine m e) (clear : m.next e = none) (last : m.published = m.nodes.last) :
      Change m (m.link (m.nodes.seq m.nodes.last) e (m.value e))
  | storeTail (last : m.nodes.last = m.published + 1) :
      Change m (m.storeTail (m.nodes.seq m.nodes.last))
  | storeSnapshot (k : Nat) (le : m.snapshot ≤ k) (le_taken : k ≤ m.taken)
      (last : m.published = m.nodes.last) :
      Change m (m.storeSnapshot (some (m.nodes.seq k)) k)
  | storeGarbage (lt : m.nodes.first < m.snapshot) :
      Change m (m.storeGarbage (m.nodes.seq m.nodes.first)
        (some (m.nodes.seq (m.nodes.first + 1))))

theorem Inv.give (hi : Inv m) (mine : e ∉ m.used ∨ e ∈ m.recycled) :
    Inv (m.give e) ∧ Mine (m.give e) e := by
  have hwin : ¬ m.nodes.Has e := by
    intro hh
    rcases mine with h | h
    · exact h (hi.used e (.inl hh))
    · exact hi.recycled e h hh
  refine ⟨{ hi with used := ?_, recycled := ?_, nodup := hi.nodup.erase e }, hwin, ?_, ?_⟩
  · rintro x (h | h)
    · exact List.mem_cons_of_mem _ (hi.used x (.inl h))
    · exact List.mem_cons_of_mem _ (hi.used x (.inr (List.mem_of_mem_erase h)))
  · intro x hx
    exact hi.recycled x (List.mem_of_mem_erase hx)
  · exact hi.nodup.not_mem_erase
  · exact List.mem_cons_self

omit [DecidableEq N] in
theorem Mine.ne (hmine : Mine m e) {k : Nat} (h : m.nodes.first ≤ k) (h' : k ≤ m.nodes.last) :
    m.nodes.seq k ≠ e :=
  fun he => hmine.1 ⟨k, h, h', he⟩

theorem Inv.storeValue (hi : Inv m) (mine : Mine m e) : Inv (m.storeValue e v) where
  __ := hi
  filed k h h' := by
    have h1 := hi.first_le
    have h2 := hi.snapshot_le
    have hk : m.taken < k := h
    show Function.update m.value e v (m.nodes.seq k) = m.filed k
    rw [Function.update_of_ne (mine.ne (by omega) h')]
    exact hi.filed k h h'

theorem Inv.clearNext (hi : Inv m) (mine : Mine m e) : Inv (m.clearNext e) where
  __ := hi
  linked := hi.linked.update mine.1 hi.valid.le none

theorem Inv.link (hi : Inv m) (mine : Mine m e) (clear : m.next e = none)
    (last : m.published = m.nodes.last) :
    Inv (m.link (m.nodes.seq m.nodes.last) e (m.value e)) := by
  have h1 := hi.first_le
  have h2 := hi.snapshot_le
  have h3 := hi.taken_le
  have hseq : ∀ {k}, k ≤ m.nodes.last → (m.nodes.push e).seq k = m.nodes.seq k :=
    fun h => Window.push_seq_of_le e h
  refine
    { valid := hi.valid.push mine.1
      linked := hi.linked.push hi.valid mine.1 clear
      garbage := hi.garbage.trans (congrArg some (hseq hi.valid.le).symm)
      headSnapshot := hi.headSnapshot.trans (congrArg some (hseq (h2.trans h3)).symm)
      head := hi.head.trans (congrArg some (hseq h3).symm)
      tail := hi.tail.trans (congrArg some (hseq last.le).symm)
      first_le := h1
      snapshot_le := h2
      taken_le := h3.trans (Nat.le_succ _)
      published_le := hi.published_le.trans (Nat.le_succ _)
      snapshot_le_published := hi.snapshot_le_published
      last_le := Nat.succ_le_succ last.ge
      filed := fun k h h' => ?_
      dequeued := ?_
      used := fun x hx => ?_
      recycled := fun x hx hh => ?_
      nodup := hi.nodup }
  · have hk : m.taken < k := h
    have hk' : k ≤ m.nodes.last + 1 := h'
    show m.value ((m.nodes.push e).seq k) = Function.update m.filed (m.nodes.last + 1) (m.value e) k
    rcases Nat.lt_or_ge m.nodes.last k with hlt | hge
    · obtain rfl : k = m.nodes.last + 1 := by omega
      rw [Window.push_seq_last, Function.update_self]
    · rw [hseq hge, Function.update_of_ne (by omega)]
      exact hi.filed k hk hge
  · show m.dequeued = (List.range m.taken).map fun k =>
      Function.update m.filed (m.nodes.last + 1) (m.value e) (k + 1)
    rw [hi.dequeued]
    apply List.map_congr_left
    intro k hk
    have := List.mem_range.mp hk
    rw [Function.update_of_ne (by omega)]
  · rcases hx with h | h
    · rcases (Window.has_push hi.valid.le).mp h with h | rfl
      · exact hi.used x (.inl h)
      · exact mine.2.2
    · exact hi.used x (.inr h)
  · rcases (Window.has_push hi.valid.le).mp hh with h | rfl
    · exact hi.recycled x hx h
    · exact mine.2.1 hx

omit [DecidableEq N] in
theorem Inv.storeGarbage (hi : Inv m) (lt : m.nodes.first < m.snapshot) :
    Inv (m.storeGarbage (m.nodes.seq m.nodes.first)
      (some (m.nodes.seq (m.nodes.first + 1)))) := by
  have h2 := hi.snapshot_le
  have h3 := hi.taken_le
  have hfirst : m.nodes.Has (m.nodes.seq m.nodes.first) := .mk le_rfl hi.valid.le
  refine
    { hi with
      valid := hi.valid.pop (by omega)
      linked := hi.linked.pop
      garbage := rfl
      first_le := lt
      used := fun x hx => ?_
      recycled := fun x hx hh => ?_
      nodup := List.nodup_cons.mpr ⟨fun h => hi.recycled _ h hfirst, hi.nodup⟩ }
  · rcases hx with h | h
    · exact hi.used x (.inl h.of_pop)
    · rcases List.mem_cons.mp h with rfl | h
      · exact hi.used _ (.inl hfirst)
      · exact hi.used x (.inr h)
  · rcases List.mem_cons.mp hx with rfl | hx
    · exact hi.valid.not_has_pop hh
    · exact hi.recycled x hx hh.of_pop

theorem Change.inv (hi : Inv m) (h : Change m m') : Inv m' := by
  cases h with
  | stay => exact hi
  | give e mine => exact (hi.give mine).1
  | storeValue e v mine => exact hi.storeValue mine
  | clearNext e mine => exact hi.clearNext mine
  | link e mine clear last => exact hi.link mine clear last
  | storeTail last =>
    exact
      { hi with
        tail := congrArg (fun k => some (m.nodes.seq k)) last
        published_le := last.ge
        snapshot_le_published := hi.snapshot_le_published.trans (Nat.le_succ _)
        last_le := last.le.trans (Nat.le_succ _) }
  | storeSnapshot k le le_taken last =>
    exact
      { hi with
        headSnapshot := rfl
        first_le := hi.first_le.trans le
        snapshot_le := le_taken
        snapshot_le_published := le_taken.trans (hi.taken_le.trans last.ge) }
  | storeGarbage lt => exact hi.storeGarbage lt

/-- The dequeuer sees nodes being linked behind the last one, and nothing else. -/
theorem Change.atDequeuer (h : Change m m') {pc : Pc N V} (hat : AtDequeuer m pc) :
    AtDequeuer m' pc := by
  cases h with
  | link e mine clear last =>
    cases pc with
    | dequeueValue e' =>
      obtain ⟨hlt, he⟩ := hat
      exact ⟨hlt.trans (Nat.lt_succ_self _), he.trans (Window.push_seq_of_le e hlt).symm⟩
    | dequeueStore e' v =>
      obtain ⟨hlt, he, hv⟩ := hat
      refine ⟨hlt.trans (Nat.lt_succ_self _), he.trans (Window.push_seq_of_le e hlt).symm, ?_⟩
      rw [hv]
      exact (Function.update_of_ne (by omega) _ _).symm
    | _ => exact hat
  | _ => cases pc <;> exact hat

omit [DecidableEq N] in
theorem Inv.storeHead (hi : Inv m) (hlt : m.taken < m.nodes.last) :
    Inv (m.storeHead (m.nodes.seq (m.taken + 1)) (m.filed (m.taken + 1))) where
  __ := hi
  head := rfl
  snapshot_le := hi.snapshot_le.trans (Nat.le_succ _)
  taken_le := hlt
  filed k h h' := hi.filed k ((Nat.lt_succ_self _).trans h) h'
  dequeued := by
    show m.dequeued ++ [m.filed (m.taken + 1)] =
      (List.range (m.taken + 1)).map fun k => m.filed (k + 1)
    rw [hi.dequeued, List.range_succ, List.map_append]
    rfl

omit [DecidableEq N] in
/-- The enqueuer sees `head` moving on, and nothing else. -/
theorem atEnqueuer_storeHead {pc : Pc N V} (hat : AtEnqueuer m pc) :
    AtEnqueuer (m.storeHead e v) pc := by
  cases pc with
  | recycleStore h k =>
    obtain ⟨h1, h2, h3, h4⟩ := hat
    exact ⟨h1, h2, h3.trans (Nat.le_succ _), h4⟩
  | _ => exact hat

omit [DecidableEq N] in
/-- Whether the snapshot is the garbage tells whether there is something to recycle. -/
theorem Inv.snapshot_eq_garbage (hi : Inv m) :
    m.headSnapshot = m.garbage ↔ m.nodes.first = m.snapshot := by
  have h1 := hi.first_le
  have h2 := hi.snapshot_le
  have h3 := hi.taken_le
  rw [hi.headSnapshot, hi.garbage, Option.some_inj]
  constructor
  · intro he
    exact (hi.valid.inj h1 (h2.trans h3) le_rfl hi.valid.le he).symm
  · intro he
    rw [he]

/-- One access of the enqueuer. -/
theorem enqueuer_act (hi : Inv m) {pc : Pc N V} (running : ¬ pc.Resting)
    (hat : AtEnqueuer m pc) : Change m (m.act pc).1 ∧ AtEnqueuer (m.act pc).1 (m.act pc).2 := by
  have h1 := hi.first_le
  have h2 := hi.snapshot_le
  have h3 := hi.taken_le
  cases pc with
  | enqueueValue e v =>
    exact ⟨.storeValue e v hat.2, hat.1, hat.2, Function.update_self _ _ _⟩
  | enqueueNext e v =>
    obtain ⟨hp, hmine, hv⟩ := hat
    exact ⟨.clearNext e hmine, hp, hmine, hv, Function.update_self _ _ _⟩
  | enqueueTail e v =>
    obtain ⟨hp, hmine, hv, hn⟩ := hat
    exact ⟨.stay, hp, hmine, hv, hn, rfl⟩
  | enqueueLink e v t =>
    obtain ⟨hp, hmine, rfl, hn, rfl⟩ := hat
    simp only [hi.tail, hp, Mem.act]
    exact ⟨.link e hmine hn hp, congrArg (· + 1) hp.symm, (Window.push_seq_last e m.nodes).symm⟩
  | enqueueStore e =>
    obtain ⟨hl, rfl⟩ := hat
    exact ⟨.storeTail hl, hl.symm⟩
  | recycleSnapshot => exact ⟨.stay, hat, rfl⟩
  | recycleGarbage sn =>
    obtain ⟨hp, rfl⟩ := hat
    by_cases he : m.headSnapshot = m.garbage
    · simp only [Mem.act, if_pos he]
      exact ⟨.stay, hp, hi.snapshot_eq_garbage.mp he⟩
    · simp only [Mem.act, if_neg he]
      refine ⟨.stay, hp, lt_of_le_of_ne h1 ?_⟩
      exact fun h => he (hi.snapshot_eq_garbage.mpr h)
  | recycleHead =>
    exact ⟨.stay, hat.1, h2, le_rfl, hi.head⟩
  | recycleStore h k =>
    obtain ⟨hp, hle, hle', rfl⟩ := hat
    exact ⟨.storeSnapshot k hle hle' hp, hp⟩
  | recycleReload => exact ⟨.stay, hat, rfl⟩
  | recycleCompare sn =>
    obtain ⟨hp, rfl⟩ := hat
    by_cases he : m.headSnapshot = m.garbage
    · simp only [Mem.act, if_pos he]
      exact ⟨.stay, hp⟩
    · simp only [Mem.act, if_neg he]
      refine ⟨.stay, hp, lt_of_le_of_ne h1 ?_⟩
      exact fun h => he (hi.snapshot_eq_garbage.mpr h)
  | recycleTake => exact ⟨.stay, hat.1, hat.2, rfl⟩
  | recycleNext g =>
    obtain ⟨hp, hlt, rfl⟩ := hat
    simp only [hi.garbage, Mem.act]
    exact ⟨.stay, hp, hlt, hi.garbage, hi.linked.succ _ le_rfl (by omega)⟩
  | recycleAdvance g n =>
    obtain ⟨hp, hlt, hg, rfl⟩ := hat
    rw [hi.garbage] at hg
    cases hg
    exact ⟨.storeGarbage hlt, hp⟩
  | idle => exact absurd trivial running
  | enqueued => exact absurd trivial running
  | recycled g => exact absurd trivial running
  | _ => exact hat.elim

/-- One access of the dequeuer. -/
theorem dequeuer_act (hi : Inv m) {pc : Pc N V} (running : ¬ pc.Resting)
    (hat : AtDequeuer m pc) :
    ((m.act pc).1 = m ∨ m.taken < m.nodes.last ∧
      (m.act pc).1 = m.storeHead (m.nodes.seq (m.taken + 1)) (m.filed (m.taken + 1))) ∧
      AtDequeuer (m.act pc).1 (m.act pc).2 := by
  have h1 := hi.first_le
  have h2 := hi.snapshot_le
  cases pc with
  | dequeueHead => exact ⟨.inl rfl, rfl⟩
  | dequeueNext h =>
    obtain rfl : h = m.head := hat
    simp only [hi.head, Mem.act]
    rcases Nat.lt_or_ge m.taken m.nodes.last with hlt | hge
    · simp only [hi.linked.succ m.taken (by omega) hlt]
      exact ⟨.inl trivial, hlt, rfl⟩
    · have hlast : m.taken = m.nodes.last := le_antisymm hi.taken_le hge
      simp only [hlast, hi.linked.ends]
      exact ⟨.inl trivial, trivial⟩
  | dequeueValue e =>
    obtain ⟨hlt, rfl⟩ := hat
    exact ⟨.inl rfl, hlt, rfl, hi.filed _ (Nat.lt_succ_self _) hlt⟩
  | dequeueStore e v =>
    obtain ⟨hlt, rfl, rfl⟩ := hat
    exact ⟨.inr ⟨hlt, rfl⟩, trivial⟩
  | idle => exact absurd trivial running
  | dequeued v => exact absurd trivial running
  | _ => exact hat.elim

end Changes

/-! ## Runs -/

section Runs

variable [DecidableEq N]

/-- A step of the enqueuer. -/
theorem step_enqueuer {m m' : Mem N V} {pc pc' : Pc N V} (h : Step .enqueuer m pc m' pc')
    (hi : Inv m) (hat : AtEnqueuer m pc) : Change m m' ∧ AtEnqueuer m' pc' := by
  have hrest : pc.Resting → m.published = m.nodes.last := by
    intro hr
    cases pc with
    | idle => exact hat
    | enqueued => exact hat
    | recycled => exact hat
    | dequeued => exact hat.elim
    | _ => exact hr.elim
  cases h with
  | enqueue e v side resting mine =>
    exact ⟨.give e mine, hrest resting, (hi.give mine).2⟩
  | recycle side resting => exact ⟨.stay, hrest resting⟩
  | dequeue side resting => cases side
  | act running => exact enqueuer_act hi running hat

/-- A step of the dequeuer. -/
theorem step_dequeuer {m m' : Mem N V} {pc pc' : Pc N V} (h : Step .dequeuer m pc m' pc')
    (hi : Inv m) (hat : AtDequeuer m pc) :
    (m' = m ∨ m.taken < m.nodes.last ∧
      m' = m.storeHead (m.nodes.seq (m.taken + 1)) (m.filed (m.taken + 1))) ∧
      AtDequeuer m' pc' := by
  cases h with
  | enqueue e v side resting mine => cases side
  | recycle side resting => cases side
  | dequeue side resting => exact ⟨.inl rfl, trivial⟩
  | act running => exact dequeuer_act hi running hat

theorem invariant :
    Invariant (Step (N := N) (V := V)) (fun _ _ _ => True) Inv At where
  own {i _ _ _ _} hstep _ hi hat := by
    cases i with
    | enqueuer =>
      obtain ⟨hch, hat'⟩ := step_enqueuer hstep hi hat
      exact ⟨hch.inv hi, hat'⟩
    | dequeuer =>
      obtain ⟨rfl | ⟨hlt, rfl⟩, hat'⟩ := step_dequeuer hstep hi hat
      · exact ⟨hi, hat'⟩
      · exact ⟨hi.storeHead hlt, hat'⟩
  other {i _ _ _ _} hstep _ hi hat {j _} hj hq := by
    cases i with
    | enqueuer =>
      cases j with
      | enqueuer => exact absurd rfl hj
      | dequeuer => exact (step_enqueuer hstep hi hat).1.atDequeuer hq
    | dequeuer =>
      cases j with
      | dequeuer => exact absurd rfl hj
      | enqueuer =>
        obtain ⟨rfl | ⟨-, rfl⟩, -⟩ := step_dequeuer hstep hi hat
        · exact hq
        · exact atEnqueuer_storeHead hq

theorem init_inv (stub : N) (next : N → Option N) (value : N → V) :
    Inv (init stub next value) where
  valid := ⟨le_rfl, fun {j k} _ hj _ hk _ => by
    have hj' : j ≤ 0 := hj
    have hk' : k ≤ 0 := hk
    omega⟩
  linked := ⟨fun _ _ h => absurd h (Nat.not_lt_zero _), Function.update_self _ _ _⟩
  garbage := rfl
  headSnapshot := rfl
  head := rfl
  tail := rfl
  first_le := le_rfl
  snapshot_le := le_rfl
  taken_le := le_rfl
  published_le := le_rfl
  snapshot_le_published := le_rfl
  last_le := Nat.zero_le _
  filed k h h' := absurd (Nat.lt_of_lt_of_le h h') (Nat.lt_irrefl _)
  dequeued := rfl
  used := by
    rintro x (⟨_, _, _, rfl⟩ | h)
    · exact List.mem_singleton_self _
    · cases h
  recycled _ h := by cases h
  nodup := List.nodup_nil

/-- All values that have been enqueued, oldest first. -/
def enqueued (m : Mem N V) : List V := (List.range m.nodes.last).map fun k => m.filed (k + 1)

/-- What holds at every moment of a run. -/
structure Recycling (s : System (Mem N V) (Pc N V) Side) : Prop where
  /-- What has been dequeued is what was enqueued first. -/
  in_order : s.mem.dequeued <+: enqueued s.mem
  /-- The values that are still to be dequeued are in the nodes behind `head`. -/
  pending : ∀ k v, s.mem.dequeued.length ≤ k → (enqueued s.mem)[k]? = some v →
    s.mem.value (s.mem.nodes.seq (k + 1)) = v
  /-- `garbage`, `head_snapshot`, `head` and `tail` are on one path, in this order; except that
  `head` may be one node past `tail` before an enqueue has stored `tail`. -/
  ordered : ∃ g sn h t, s.mem.garbage = some g ∧ s.mem.headSnapshot = some sn ∧
    s.mem.head = some h ∧ s.mem.tail = some t ∧ Window.Path s.mem.next g sn ∧
    Window.Path s.mem.next sn h ∧ Window.Path s.mem.next sn t ∧
    (Window.Path s.mem.next h t ∨
      (∃ e, s.pc .enqueuer = .enqueueStore e) ∧ s.mem.next t = some h)
  /-- No recycled node can be reached from `head`, and none is returned twice. -/
  unreachable : ∀ x ∈ s.mem.recycled, ∀ h, s.mem.head = some h → ¬ Window.Path s.mem.next h x
  once : s.mem.recycled.Nodup
  alive : ∀ i, s.pc i ≠ .crashed

omit [DecidableEq N] in
/-- A node is linked before `tail` is stored, and only then. -/
theorem enqueueStore_of_lt {m : Mem N V} {pc : Pc N V} (hat : AtEnqueuer m pc)
    (hlt : m.published < m.nodes.last) : ∃ e, pc = .enqueueStore e := by
  cases pc with
  | enqueueStore e => exact ⟨e, rfl⟩
  | idle => exact absurd hat hlt.ne
  | enqueued => exact absurd hat hlt.ne
  | recycled g => exact absurd hat hlt.ne
  | recycleSnapshot => exact absurd hat hlt.ne
  | recycleReload => exact absurd hat hlt.ne
  | dequeueHead => exact hat.elim
  | dequeueNext => exact hat.elim
  | dequeueValue => exact hat.elim
  | dequeueStore => exact hat.elim
  | dequeued => exact hat.elim
  | crashed => exact hat.elim
  | _ => exact absurd hat.1 hlt.ne

theorem reachable_inv {stub : N} {next : N → Option N} {value : N → V}
    {s : System (Mem N V) (Pc N V) Side}
    (hr : System.Reachable Step (fun _ _ _ => True) (start stub next value) s) :
    Inv s.mem ∧ ∀ i, At i s.mem (s.pc i) := by
  obtain ⟨hi, hat⟩ := invariant.reachable hr (fun _ => trivial) (init_inv stub next value)
    (fun i => by cases i <;> trivial)
  exact ⟨hi, fun i => (hat i).2⟩

omit [DecidableEq N] in
theorem Inv.recycling {s : System (Mem N V) (Pc N V) Side} (hi : Inv s.mem)
    (hat : ∀ i, At i s.mem (s.pc i)) : Recycling s := by
  have h1 := hi.first_le
  have h2 := hi.snapshot_le
  have h3 := hi.taken_le
  have h4 := hi.published_le
  have h5 := hi.last_le
  have h6 := hi.snapshot_le_published
  refine ⟨?_, fun k v hk hv => ?_, ?_, fun x hx h hh hp => ?_, hi.nodup, fun i hc => ?_⟩
  · have hsplit : s.mem.nodes.last = s.mem.taken + (s.mem.nodes.last - s.mem.taken) := by omega
    rw [hi.dequeued, enqueued, hsplit, List.range_add, List.map_append]
    exact List.prefix_append _ _
  · rw [hi.dequeued, List.length_map, List.length_range] at hk
    obtain ⟨hlt, he⟩ := List.getElem?_eq_some_iff.mp hv
    rw [enqueued, List.length_map, List.length_range] at hlt
    rw [hi.filed (k + 1) (by omega) hlt, ← he]
    simp [enqueued]
  · refine ⟨_, _, _, _, hi.garbage, hi.headSnapshot, hi.head, hi.tail, ?_, ?_, ?_, ?_⟩
    · exact hi.linked.path le_rfl (by omega) h1
    · exact hi.linked.path h1 h3 h2
    · exact hi.linked.path h1 h4 h6
    · rcases Nat.lt_or_ge s.mem.published s.mem.taken with hlt | hge
      · refine .inr ⟨enqueueStore_of_lt (hat .enqueuer) (by omega), ?_⟩
        have htaken : s.mem.taken = s.mem.published + 1 := by omega
        rw [htaken]
        exact hi.linked.succ _ (by omega) (by omega)
      · exact .inl (hi.linked.path (by omega) h4 hge)
  · rw [hi.head] at hh
    cases hh
    obtain ⟨k, hk, hk', rfl⟩ := hi.linked.of_path (by omega) h3 hp
    exact hi.recycled _ hx ⟨k, by omega, hk', rfl⟩
  · have := hat i
    rw [hc] at this
    cases i <;> exact this

end Runs

/-! ## A queue with stub 0 -/

section Small

/-- The queue of numbers with stub 0. -/
def small : System (Mem Nat Nat) (Pc Nat Nat) Side := start 0 (fun _ => none) (fun _ => 0)

/-- Runs of the queue of numbers. -/
def Run (s : System (Mem Nat Nat) (Pc Nat Nat) Side) : Prop :=
  System.Reachable Step (fun _ _ _ => True) small s

/-- A thread makes `n` accesses of its call. -/
theorem Run.acts {s : System (Mem Nat Nat) (Pc Nat Nat) Side} (hr : Run s) (i : Side) (n : Nat) :
    Run (s.acts (fun _ => Mem.act) i n) := by
  refine System.Reachable.acts hr i n (fun _ _ m pc _ _ => ?_) (fun _ _ _ => trivial)
  by_cases h : pc.Resting
  · left
    cases pc <;> first | rfl | exact h.elim
  · exact .inr (.act h)

end Small

end ConcurrencyKit.Fifo.Spsc
