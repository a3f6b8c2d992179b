import ConcurrencyKit.Spinlock.Clh

/-!
# The MCS locks of `ck_spinlock`

The functions of `include/spinlock/mcs.h`, one access at a time, for any number of threads. A thread
enters the queue with a node that is not in use, and waits at it for the thread before it. The
pointer to its node that this thread needs is stored after the thread has entered.

Next to the words a `Mem` keeps the nodes in the order in which they have entered the queue, and who
uses them. With the CLH locks these are the queue locks of a single level.
-/

namespace ConcurrencyKit.Spinlock.Mcs

open Line (Follows)

/-- The fields of the nodes and the queue. -/
structure Mem (ι ν : Type) where
  queue : Option ν
  locked : ν → Bool
  next : ν → Option ν
  /-- The nodes that are in the queue, in the order in which they have entered. -/
  line : List ν
  /-- The thread that uses a node. -/
  user : ν → Option ι

/-- Where a thread stands with its node. -/
inductive Pc (ν : Type) where
  | idle
  | inside (node : ν)
  /-- `ck_spinlock_mcs_trylock`. -/
  | tryLocked (node : ν)
  | tryNext (node : ν)
  | tryCas (node : ν)
  /-- `ck_spinlock_mcs_lock`. -/
  | lockLocked (node : ν)
  | lockNext (node : ν)
  | swap (node : ν)
  | link (node previous : ν)
  | spin (node : ν)
  /-- `ck_spinlock_mcs_unlock`. -/
  | unlock (node : ν)
  | unlockQueue (node : ν)
  | unlockCas (node : ν)
  | unlockWait (node : ν)
  | wake (node next : ν)
  deriving DecidableEq, Repr

variable {ι ν : Type}

namespace Pc

/-- The node that a thread uses. -/
def node : Pc ν → Option ν
  | idle => none
  | inside n | tryLocked n | tryNext n | tryCas n | lockLocked n | lockNext n | swap n | link n _
  | spin n | unlock n | unlockQueue n | unlockCas n | unlockWait n | wake n _ => some n

/-- The thread has the lock. -/
def Inside : Pc ν → Prop
  | inside _ | unlock _ | unlockQueue _ | unlockCas _ | unlockWait _ | wake _ _ => True
  | _ => False

/-- The thread has a new request that has not entered the queue. -/
def Initializes : Pc ν → Prop
  | tryLocked _ | tryNext _ | tryCas _ | lockLocked _ | lockNext _ | swap _ => True
  | _ => False

/-- The nodes that the thread may still read or write in the call that it is in, or has to return
from when it has the lock. -/
def MayAccess : Pc ν → ν → Prop
  | link node previous, n => n = node ∨ n = previous
  | wake node next, n => n = node ∨ n = next
  | p, n => p.node = some n

end Pc

variable [DecidableEq ν]

namespace Mem

/-- Stores to the fields of a node. -/
def setLocked (n : ν) (v : Bool) (m : Mem ι ν) : Mem ι ν :=
  { m with locked := Function.update m.locked n v }

def setNext (n : ν) (v : Option ν) (m : Mem ι ν) : Mem ι ν :=
  { m with next := Function.update m.next n v }

/-- Thread `i` uses a node from now on. -/
def take (i : ι) (n : ν) (m : Mem ι ν) : Mem ι ν :=
  { m with user := Function.update m.user n (some i) }

/-- A call that returns without the lock leaves its node. -/
def leave (n : ν) (m : Mem ι ν) : Mem ι ν :=
  { m with user := Function.update m.user n none }

/-- A node enters the queue: `ck_pr_fas_ptr(queue, node)`, or a successful
`ck_pr_cas_ptr(queue, NULL, node)`. -/
def enter (n : ν) (m : Mem ι ν) : Mem ι ν :=
  { m with
    queue := some n
    line := m.line ++ [n] }

/-- A successful `ck_pr_cas_ptr(queue, node, NULL)`. -/
def clear (n : ν) (m : Mem ι ν) : Mem ι ν :=
  { m.leave n with
    queue := none
    line := m.line.tail }

/-- `ck_pr_store_uint(&next->locked, false)` of the thread that uses `n`. -/
def wake (n next : ν) (m : Mem ι ν) : Mem ι ν :=
  { (m.leave n).setLocked next false with line := m.line.tail }

end Mem

/-- One access of a thread: `ck_spinlock_mcs_trylock`, `ck_spinlock_mcs_lock` and
`ck_spinlock_mcs_unlock` (`mcs.h:56-153`). -/
def act (m : Mem ι ν) : Pc ν → Mem ι ν × Pc ν
  | .idle => (m, .idle)
  | .inside n => (m, .inside n)
  | .tryLocked n => (m.setLocked n true, .tryNext n)
  | .tryNext n => (m.setNext n none, .tryCas n)
  | .tryCas n => if m.queue = none then (m.enter n, .inside n) else (m.leave n, .idle)
  | .lockLocked n => (m.setLocked n true, .lockNext n)
  | .lockNext n => (m.setNext n none, .swap n)
  | .swap n =>
    (m.enter n, match m.queue with
      | some previous => .link n previous
      | none => .inside n)
  | .link n previous => (m.setNext previous (some n), .spin n)
  | .spin n => (m, if m.locked n = true then .spin n else .inside n)
  | .unlock n =>
    (m, match m.next n with
      | none => .unlockQueue n
      | some next => .wake n next)
  | .unlockQueue n => (m, if m.queue = some n then .unlockCas n else .unlockWait n)
  | .unlockCas n => if m.queue = some n then (m.clear n, .idle) else (m, .unlockWait n)
  | .unlockWait n =>
    (m, match m.next n with
      | none => .unlockWait n
      | some next => .wake n next)
  | .wake n next => (m.wake n next, .idle)

/-- One step of thread `i`: it calls a function, for which it needs a node that is not in use, or
makes the next access of its call. -/
inductive Step (i : ι) : Mem ι ν → Pc ν → Mem ι ν → Pc ν → Prop
  | trylock {m : Mem ι ν} (n : ν) (hfree : m.user n = none) :
    Step i m .idle (m.take i n) (.tryLocked n)
  | lock {m : Mem ι ν} (n : ν) (hfree : m.user n = none) :
    Step i m .idle (m.take i n) (.lockLocked n)
  | unlock {m : Mem ι ν} (n : ν) : Step i m (.inside n) m (.unlock n)
  | act {m : Mem ι ν} {p : Pc ν} : Step i m p (act m p).1 (act m p).2

/-- A new lock, and nodes that hold anything. -/
def start (locked : ν → Bool) (next : ν → Option ν) : Threads.System (Mem ι ν) (Pc ν) ι where
  mem := ⟨none, locked, next, [], fun _ => none⟩
  pc _ := .idle

/-! ## The invariant -/

omit [DecidableEq ν]

variable {m m' : Mem ι ν} {i j : ι} {p : Pc ν} {n : ν}

/-- What the words say about the line. A node may be there before the one before it knows it. -/
structure Inv (m : Mem ι ν) : Prop where
  nodup : m.line.Nodup
  queue : m.queue = m.line.getLast?
  next : ∀ a ∈ m.line, ∀ b, m.next a = some b → Follows m.line a b
  waits : ∀ a b, Follows m.line a b → m.locked b = true
  used : ∀ a ∈ m.line, m.user a ≠ none

/-- What the program counter of a thread says about the memory. -/
def Body (m : Mem ι ν) : Pc ν → Prop
  | .idle => True
  | .tryLocked n | .lockLocked n => n ∉ m.line
  | .tryNext n | .lockNext n => n ∉ m.line ∧ m.locked n = true
  | .tryCas n | .swap n => (n ∉ m.line ∧ m.locked n = true) ∧ m.next n = none
  | .link n previous => Follows m.line previous n ∧ m.next previous = none
  | .spin n => n ∈ m.line
  | .inside n | .unlock n | .unlockQueue n | .unlockCas n | .unlockWait n =>
    m.line.head? = some n
  | .wake n next => m.line.head? = some n ∧ m.next n = some next

/-- What a thread knows about the memory. -/
structure At (i : ι) (m : Mem ι ν) (p : Pc ν) : Prop where
  user : ∀ n, m.user n = some i ↔ p.node = some n
  body : Body m p

theorem inv_start (locked : ν → Bool) (next : ν → Option ν) :
    Inv (start locked next : Threads.System (Mem ι ν) (Pc ν) ι).mem where
  nodup := List.nodup_nil
  queue := rfl
  next := fun _ h => absurd h List.not_mem_nil
  waits := fun _ _ h => absurd h.mem_left List.not_mem_nil
  used := fun _ h => absurd h List.not_mem_nil

theorem at_start (locked : ν → Bool) (next : ν → Option ν) (i : ι) :
    At i (start locked next : Threads.System (Mem ι ν) (Pc ν) ι).mem .idle :=
  ⟨fun _ => ⟨nofun, nofun⟩, trivial⟩

/-- A node of one thread is not that of another one. -/
theorem At.node_ne (h : At i m p) {q : Pc ν} (hq : At j m q) (hj : j ≠ i) {a b : ν}
    (ha : p.node = some a) (hb : q.node = some b) : b ≠ a := by
  rintro rfl
  have huser := (h.user b).mpr ha
  rw [(hq.user b).mpr hb] at huser
  exact hj (Option.some.inj huser)

/-- A node that has been woken is the first one. -/
theorem Inv.first (hi : Inv m) (h : n ∈ m.line) (hlocked : m.locked n ≠ true) :
    m.line.head? = some n := by
  rcases Line.first_or_follows h with hfirst | ⟨a, ha⟩
  · exact hfirst
  · exact absurd (hi.waits a n ha) hlocked

/-- The last node does not know another one. -/
theorem Inv.next_last (hi : Inv m) (h : m.queue = some n) : m.next n = none := by
  have hlast := hi.queue.symm.trans h
  cases hnext : m.next n with
  | none => rfl
  | some b =>
    have hfollows := hi.next n (List.mem_of_getLast? hlast) b hnext
    exact absurd hlast (hfollows.ne_last hi.nodup)

/-- The only node in the queue is the first one and the last one. -/
theorem Inv.alone (hi : Inv m) (hfirst : m.line.head? = some n) (hqueue : m.queue = some n) :
    m.line = [n] := by
  obtain ⟨l, hl⟩ := List.head?_eq_some_iff.mp hfirst
  have hlast := hi.queue.symm.trans hqueue
  have hnodup := hi.nodup
  rw [hl] at hlast hnodup ⊢
  cases l with
  | nil => rfl
  | cons a l =>
    have hmem : n ∈ a :: l := by
      have hlast' : (a :: l).getLast? = some n := by simpa using hlast
      exact List.mem_of_getLast? hlast'
    exact absurd hmem (List.nodup_cons.mp hnodup).1

/-- The node that is woken is the second one. -/
theorem Inv.second {next : ν} (hi : Inv m) (hfirst : m.line.head? = some n)
    (hnext : m.next n = some next) : ∃ l, m.line = n :: next :: l := by
  obtain ⟨l, hl⟩ := List.head?_eq_some_iff.mp hfirst
  have hfollows := hi.next n (List.mem_of_mem_head? hfirst) next hnext
  have hnodup := hi.nodup
  rw [hl] at hfollows hnodup
  obtain ⟨l', rfl⟩ := List.head?_eq_some_iff.mp (hfollows.head hnodup)
  exact ⟨l', hl⟩

/-! ## Steps of other threads -/

/-- What a step of another thread leaves to the thread that uses `n`. -/
structure Frame (n : ν) (m m' : Mem ι ν) : Prop where
  out : n ∉ m.line → n ∉ m'.line ∧ m'.locked n = m.locked n ∧ m'.next n = m.next n
  mem : n ∈ m.line → n ∈ m'.line
  first : m.line.head? = some n → m'.line.head? = some n ∧
    ∀ b, m.next n = some b → m'.next n = some b
  link : ∀ a, Follows m.line a n → m.next a = none → Follows m'.line a n ∧ m'.next a = none

/-- What a thread knows stays true. -/
theorem Frame.mono (h : Body m p) (hf : ∀ n, p.node = some n → Frame n m m') : Body m' p := by
  cases p with
  | idle => trivial
  | tryLocked n | lockLocked n => exact ((hf n rfl).out h).1
  | tryNext n | lockNext n =>
    obtain ⟨hout, hlocked, -⟩ := (hf n rfl).out h.1
    exact ⟨hout, hlocked.trans h.2⟩
  | tryCas n | swap n =>
    obtain ⟨hout, hlocked, hnext⟩ := (hf n rfl).out h.1.1
    exact ⟨⟨hout, hlocked.trans h.1.2⟩, hnext.trans h.2⟩
  | link n previous => exact (hf n rfl).link previous h.1 h.2
  | spin n => exact (hf n rfl).mem h
  | inside n | unlock n | unlockQueue n | unlockCas n | unlockWait n =>
    exact ((hf n rfl).first h).1
  | wake n next =>
    obtain ⟨hfirst, hnext⟩ := (hf n rfl).first h.1
    exact ⟨hfirst, hnext next h.2⟩

/-- A step that leaves the line as it is. -/
theorem Frame.of_line (hline : m'.line = m.line) (hlocked : n ∉ m.line → m'.locked n = m.locked n)
    (hnext : ∀ a, a ∈ m.line ∨ a = n → m'.next a = m.next a) : Frame n m m' where
  out h := ⟨hline ▸ h, hlocked h, hnext n (.inr rfl)⟩
  mem h := hline ▸ h
  first h := ⟨hline ▸ h, fun _ => (hnext n (.inr rfl)).trans⟩
  link a h ha := ⟨hline ▸ h, (hnext a (.inl h.mem_left)).trans ha⟩

/-! ## Stores -/

/-- A node enters the line at its end. -/
theorem Inv.enter (hi : Inv m) (h : n ∉ m.line) (hlocked : m.locked n = true)
    (hnext : m.next n = none) (hused : m.user n ≠ none) : Inv (m.enter n) where
  nodup := hi.nodup.append (List.nodup_singleton n) (List.disjoint_singleton.mpr h)
  queue := by
    simp only [Mem.enter, List.getLast?_concat]
  next a ha b hab := by
    rcases List.mem_append.mp ha with ha | ha
    · exact (hi.next a ha b hab).concat
    · rw [List.mem_singleton.mp ha] at hab
      exact absurd (hnext.symm.trans hab) (Option.some_ne_none b).symm
  waits a b hab := by
    rcases Line.Follows.of_concat hab with hab | ⟨-, rfl⟩
    · exact hi.waits a b hab
    · exact hlocked
  used a ha := by
    rcases List.mem_append.mp ha with ha | ha
    · exact hi.used a ha
    · rw [List.mem_singleton.mp ha]
      exact hused

theorem frame_enter {x : ν} (hx : x ≠ n) : Frame x m (m.enter n) where
  out h := by
    refine ⟨fun hmem => ?_, rfl, rfl⟩
    rcases List.mem_append.mp hmem with hmem | hmem
    · exact h hmem
    · exact hx (List.mem_singleton.mp hmem)
  mem h := List.mem_append_left _ h
  first h := by
    obtain ⟨l, hl⟩ := List.head?_eq_some_iff.mp h
    refine ⟨?_, fun _ => id⟩
    simp only [Mem.enter, hl, List.cons_append, List.head?_cons]
  link a h ha := ⟨h.concat, ha⟩

variable [DecidableEq ν] {x previous next : ν}

/-- Outside the line a node may be used and initialized. -/
theorem Inv.take (hi : Inv m) : Inv (m.take i n) where
  nodup := hi.nodup
  queue := hi.queue
  next := hi.next
  waits := hi.waits
  used a ha := by
    by_cases han : a = n
    · rw [han]
      exact (Function.update_self ..).trans_ne (Option.some_ne_none i)
    · exact (Function.update_of_ne han ..).trans_ne (hi.used a ha)

theorem Inv.leave (hi : Inv m) (h : n ∉ m.line) : Inv (m.leave n) where
  nodup := hi.nodup
  queue := hi.queue
  next := hi.next
  waits := hi.waits
  used a ha := by
    have han : a ≠ n := fun han => h (han ▸ ha)
    exact (Function.update_of_ne han ..).trans_ne (hi.used a ha)

theorem Inv.setLocked (hi : Inv m) (h : n ∉ m.line) (v : Bool) : Inv (m.setLocked n v) where
  nodup := hi.nodup
  queue := hi.queue
  next := hi.next
  waits a b hab := by
    have hbn : b ≠ n := fun hbn => h (hbn ▸ hab.mem_right)
    exact (Function.update_of_ne hbn ..).trans (hi.waits a b hab)
  used := hi.used

theorem Inv.setNext (hi : Inv m) (h : n ∉ m.line) (v : Option ν) : Inv (m.setNext n v) where
  nodup := hi.nodup
  queue := hi.queue
  next a ha b hab := by
    have han : a ≠ n := fun han => h (han ▸ ha)
    exact hi.next a ha b ((Function.update_of_ne han ..).symm.trans hab)
  waits := hi.waits
  used := hi.used

theorem frame_take : Frame x m (m.take i n) := .of_line rfl (fun _ => rfl) fun _ _ => rfl

theorem frame_leave : Frame x m (m.leave n) := .of_line rfl (fun _ => rfl) fun _ _ => rfl

theorem frame_setLocked (hx : x ≠ n) (v : Bool) : Frame x m (m.setLocked n v) :=
  .of_line rfl (fun _ => Function.update_of_ne hx ..) fun _ _ => rfl

theorem frame_setNext (h : n ∉ m.line) (hx : x ≠ n) (v : Option ν) : Frame x m (m.setNext n v) := by
  refine .of_line rfl (fun _ => rfl) fun a ha => ?_
  have han : a ≠ n := by
    rcases ha with ha | rfl
    · exact fun han => h (han ▸ ha)
    · exact hx
  exact Function.update_of_ne han ..

/-- A node gets to know the one that follows it. -/
theorem Inv.link (hi : Inv m) (h : Follows m.line previous n) :
    Inv (m.setNext previous (some n)) where
  nodup := hi.nodup
  queue := hi.queue
  next a ha b hab := by
    by_cases hap : a = previous
    · subst hap
      have hself : (m.setNext a (some n)).next a = some n := Function.update_self ..
      obtain rfl : n = b := Option.some.inj (hself.symm.trans hab)
      exact h
    · exact hi.next a ha b ((Function.update_of_ne hap ..).symm.trans hab)
  waits := hi.waits
  used := hi.used

theorem frame_link (hi : Inv m) (h : Follows m.line previous n) (hnext : m.next previous = none)
    (hx : x ≠ n) : Frame x m (m.setNext previous (some n)) := by
  have hne : ∀ a, a ≠ previous → (m.setNext previous (some n)).next a = m.next a :=
    fun a ha => Function.update_of_ne ha ..
  refine ⟨fun hout => ⟨hout, rfl, hne x ?_⟩, id, fun hfirst => ⟨hfirst, fun b hb => ?_⟩,
    fun a ha hanone => ⟨ha, ?_⟩⟩
  · exact fun hxp => hout (hxp ▸ h.mem_left)
  · have hxp : x ≠ previous := by
      rintro rfl
      exact absurd (hnext.symm.trans hb) (Option.some_ne_none b).symm
    exact (hne x hxp).trans hb
  · have hap : a ≠ previous := by
      rintro rfl
      exact hx (ha.unique h hi.nodup)
    exact (hne a hap).trans hanone

theorem Inv.clear (hi : Inv m) (hfirst : m.line.head? = some n) (hqueue : m.queue = some n) :
    Inv (m.clear n) := by
  have hline : (m.clear n).line = [] := by
    simp only [Mem.clear, hi.alone hfirst hqueue, List.tail_cons]
  refine ⟨?_, ?_, fun a ha => ?_, fun a b hab => ?_, fun a ha => ?_⟩
  · rw [hline]
    exact List.nodup_nil
  · rw [hline]
    rfl
  · rw [hline] at ha
    exact absurd ha List.not_mem_nil
  · rw [hline] at hab
    exact absurd hab.mem_left List.not_mem_nil
  · rw [hline] at ha
    exact absurd ha List.not_mem_nil

theorem frame_clear (hi : Inv m) (hfirst : m.line.head? = some n) (hqueue : m.queue = some n)
    (hx : x ≠ n) : Frame x m (m.clear n) := by
  have hout : x ∉ m.line := by
    rw [hi.alone hfirst hqueue]
    exact fun hmem => hx (List.mem_singleton.mp hmem)
  exact ⟨fun _ => ⟨fun hmem => hout (List.mem_of_mem_tail hmem), rfl, rfl⟩,
    fun hmem => absurd hmem hout, fun h => absurd (List.mem_of_mem_head? h) hout,
    fun _ h => absurd h.mem_right hout⟩

theorem Inv.wake (hi : Inv m) (hfirst : m.line.head? = some n) (hnext : m.next n = some next) :
    Inv (m.wake n next) := by
  obtain ⟨l, hl⟩ := hi.second hfirst hnext
  have hnodup := hi.nodup
  rw [hl] at hnodup
  obtain ⟨hn, hnodup⟩ := List.nodup_cons.mp hnodup
  have hline : (m.wake n next).line = next :: l := by simp only [Mem.wake, hl, List.tail_cons]
  have hmem : ∀ a, a ∈ next :: l → a ∈ m.line := fun a ha => hl ▸ List.mem_cons_of_mem n ha
  refine ⟨?_, ?_, fun a ha b hab => ?_, fun a b hab => ?_, fun a ha => ?_⟩ <;>
    rw [hline] at *
  · exact hnodup
  · change m.queue = _
    rw [hi.queue, hl, List.getLast?_cons_cons]
  · have hfollows := hi.next a (hmem a ha) b hab
    rw [hl] at hfollows
    rcases hfollows.of_cons with ⟨rfl, -⟩ | hfollows
    · exact absurd ha hn
    · exact hfollows
  · have hb : b ≠ next := by
      rintro rfl
      exact absurd rfl (hab.ne_head hnodup)
    have hfollows : Follows m.line a b := hl ▸ hab.cons
    exact (Function.update_of_ne hb ..).trans (hi.waits a b hfollows)
  · have han : a ≠ n := fun han => hn (han ▸ ha)
    exact (Function.update_of_ne han ..).trans_ne (hi.used a (hmem a ha))

theorem frame_wake (hi : Inv m) (hfirst : m.line.head? = some n) (hnext : m.next n = some next)
    (hx : x ≠ n) : Frame x m (m.wake n next) := by
  obtain ⟨l, hl⟩ := hi.second hfirst hnext
  have hline : (m.wake n next).line = next :: l := by simp only [Mem.wake, hl, List.tail_cons]
  refine ⟨fun hout => ⟨fun hmem => hout (List.mem_of_mem_tail hmem), ?_, rfl⟩, fun hmem => ?_,
    fun hfirst' => ?_, fun a ha hanone => ?_⟩
  · have hxnext : x ≠ next := by
      rintro rfl
      exact hout (hl ▸ List.mem_cons_of_mem n List.mem_cons_self)
    exact Function.update_of_ne hxnext ..
  · rw [hl] at hmem
    rw [hline]
    exact (List.mem_cons.mp hmem).resolve_left hx
  · exact absurd (Option.some.inj (hfirst'.symm.trans hfirst)) hx
  · rw [hl] at ha
    rw [hline]
    rcases ha.of_cons with ⟨rfl, -⟩ | ha
    · exact absurd (hanone.symm.trans hnext) (Option.some_ne_none next).symm
    · exact ⟨ha, hanone⟩

/-! ## Steps -/

omit [DecidableEq ν] in
/-- A step that leaves the users of the nodes as they are. -/
theorem At.step {q : Pc ν} (h : At i m p) (huser : m'.user = m.user) (hnode : q.node = p.node)
    (hbody : Body m' q) : At i m' q :=
  ⟨fun k => by rw [huser, hnode]; exact h.user k, hbody⟩

/-- A thread that returns without the lock uses no node. -/
theorem At.leave (h : At i m p) (hnode : p.node = some n)
    (huser : m'.user = Function.update m.user n none) : At i m' .idle := by
  refine ⟨fun k => ⟨fun hk => ?_, nofun⟩, trivial⟩
  rw [huser] at hk
  by_cases hkn : k = n
  · rw [hkn, Function.update_self] at hk
    cases hk
  · rw [Function.update_of_ne hkn, h.user k, hnode] at hk
    exact absurd (Option.some.inj hk).symm hkn

/-- A thread that begins a call uses a node. -/
theorem At.take {q : Pc ν} (h : At i m .idle) (hfree : m.user n = none) (hi : Inv m)
    (hnode : q.node = some n) (hbody : n ∉ m.line → Body m q) : At i (m.take i n) q := by
  have hout : n ∉ m.line := fun hmem => hi.used n hmem hfree
  refine ⟨fun k => ?_, Frame.mono (hbody hout) fun _ _ => frame_take⟩
  rw [hnode]
  by_cases hkn : k = n
  · subst hkn
    exact ⟨fun _ => rfl, fun _ => Function.update_self ..⟩
  · have hsame : (m.take i n).user k = m.user k := Function.update_of_ne hkn ..
    rw [hsame, h.user k]
    exact ⟨nofun, fun hnk => absurd (Option.some.inj hnk).symm hkn⟩

omit [DecidableEq ν] in
theorem At.used (h : At i m p) (hnode : p.node = some n) : m.user n ≠ none :=
  ((h.user n).mpr hnode).trans_ne (Option.some_ne_none i)

theorem own_step (hi : Inv m) (h : At i m p) :
    Inv (act m p).1 ∧ At i (act m p).1 (act m p).2 := by
  have hbody := h.body
  cases p with
  | idle | inside n => exact ⟨hi, h⟩
  | tryLocked n =>
    exact ⟨hi.setLocked hbody true, h.step rfl rfl ⟨hbody, Function.update_self ..⟩⟩
  | lockLocked n =>
    exact ⟨hi.setLocked hbody true, h.step rfl rfl ⟨hbody, Function.update_self ..⟩⟩
  | tryNext n =>
    exact ⟨hi.setNext hbody.1 none, h.step rfl rfl ⟨hbody, Function.update_self ..⟩⟩
  | lockNext n =>
    exact ⟨hi.setNext hbody.1 none, h.step rfl rfl ⟨hbody, Function.update_self ..⟩⟩
  | tryCas n =>
    obtain ⟨⟨hout, hlocked⟩, hnext⟩ := hbody
    unfold act
    dsimp only
    split
    case isTrue hqueue =>
      have hline : m.line = [] := List.getLast?_eq_none_iff.mp (hi.queue.symm.trans hqueue)
      refine ⟨hi.enter hout hlocked hnext (h.used rfl), h.step rfl rfl ?_⟩
      simp [Body, Mem.enter, hline]
    case isFalse => exact ⟨hi.leave hout, h.leave rfl rfl⟩
  | swap n =>
    obtain ⟨⟨hout, hlocked⟩, hnext⟩ := hbody
    have hinv := hi.enter hout hlocked hnext (h.used rfl)
    unfold act
    dsimp only
    cases hqueue : m.queue with
    | none =>
      have hline : m.line = [] := List.getLast?_eq_none_iff.mp (hi.queue.symm.trans hqueue)
      refine ⟨hinv, h.step rfl rfl ?_⟩
      simp [Body, Mem.enter, hline]
    | some previous =>
      have hlast := hi.queue.symm.trans hqueue
      exact ⟨hinv, h.step rfl rfl ⟨Line.follows_concat hlast, hi.next_last hqueue⟩⟩
  | link n previous => exact ⟨hi.link hbody.1, h.step rfl rfl hbody.1.mem_right⟩
  | spin n =>
    unfold act
    dsimp only
    split
    case isTrue => exact ⟨hi, h⟩
    case isFalse hlocked => exact ⟨hi, h.step rfl rfl (hi.first hbody hlocked)⟩
  | unlock n =>
    unfold act
    dsimp only
    cases hnext : m.next n with
    | none => exact ⟨hi, h.step rfl rfl hbody⟩
    | some next => exact ⟨hi, h.step rfl rfl ⟨hbody, hnext⟩⟩
  | unlockQueue n =>
    unfold act
    dsimp only
    split <;> exact ⟨hi, h.step rfl rfl hbody⟩
  | unlockCas n =>
    unfold act
    dsimp only
    split
    case isTrue hqueue => exact ⟨hi.clear hbody hqueue, h.leave rfl rfl⟩
    case isFalse => exact ⟨hi, h.step rfl rfl hbody⟩
  | unlockWait n =>
    unfold act
    dsimp only
    cases hnext : m.next n with
    | none => exact ⟨hi, h⟩
    | some next => exact ⟨hi, h.step rfl rfl ⟨hbody, hnext⟩⟩
  | wake n next => exact ⟨hi.wake hbody.1 hbody.2, h.leave rfl rfl⟩

/-- What an access of a thread leaves to the thread that uses another node. -/
theorem frame_step (hi : Inv m) (h : Body m p) (hx : ∀ n, p.node = some n → x ≠ n) :
    Frame x m (act m p).1 := by
  have hrefl : Frame x m m := .of_line rfl (fun _ => rfl) fun _ _ => rfl
  cases p with
  | idle | inside n | spin n | unlock n | unlockQueue n | unlockWait n => exact hrefl
  | tryLocked n | lockLocked n => exact frame_setLocked (hx n rfl) true
  | tryNext n | lockNext n => exact frame_setNext h.1 (hx n rfl) none
  | tryCas n =>
    unfold act
    dsimp only
    split
    case isTrue => exact frame_enter (hx n rfl)
    case isFalse => exact frame_leave
  | swap n => exact frame_enter (hx n rfl)
  | link n previous => exact frame_link hi h.1 h.2 (hx n rfl)
  | unlockCas n =>
    unfold act
    dsimp only
    split
    case isTrue hqueue => exact frame_clear hi h hqueue (hx n rfl)
    case isFalse => exact hrefl
  | wake n next => exact frame_wake hi h.1 h.2 (hx n rfl)

/-- An access changes at most the user of the own node, to nobody. -/
theorem user_step (h : At i m p) (hj : j ≠ i) (k : ν) :
    (act m p).1.user k = some j ↔ m.user k = some j := by
  have hleave : ∀ n, p.node = some n → (Function.update m.user n none k = some j ↔
      m.user k = some j) := by
    intro n hnode
    by_cases hkn : k = n
    · subst hkn
      rw [Function.update_self, (h.user k).mpr hnode]
      exact ⟨nofun, fun hij => absurd (Option.some.inj hij).symm hj⟩
    · rw [Function.update_of_ne hkn]
  cases p with
  | tryCas n | unlockCas n =>
    unfold act
    dsimp only
    split
    all_goals first | exact .rfl | exact hleave n rfl
  | wake n next => exact hleave n rfl
  | _ => exact .rfl

theorem other_step (hi : Inv m) (h : At i m p) {q : Pc ν} (hj : j ≠ i) (hq : At j m q) :
    At j (act m p).1 q where
  user k := (user_step h hj k).trans (hq.user k)
  body := Frame.mono hq.body fun _ hx =>
    frame_step hi h.body fun _ hn => h.node_ne hq hj hn hx

theorem other_take (hfree : m.user n = none) {q : Pc ν} (hj : j ≠ i) (hq : At j m q) :
    At j (m.take i n) q where
  user k := by
    refine .trans ?_ (hq.user k)
    by_cases hkn : k = n
    · subst hkn
      have hself : (m.take i k).user k = some i := Function.update_self ..
      rw [hself, hfree]
      exact ⟨fun hij => absurd (Option.some.inj hij).symm hj, nofun⟩
    · exact iff_of_eq (congrArg (· = some j) (Function.update_of_ne hkn ..))
  body := Frame.mono hq.body fun _ _ => frame_take

theorem invariant :
    Threads.Invariant (M := Mem ι ν) Step (fun _ _ _ => True) Inv At where
  own h _ hi hat := by
    cases h with
    | trylock n hfree => exact ⟨hi.take, hat.take hfree hi rfl id⟩
    | lock n hfree => exact ⟨hi.take, hat.take hfree hi rfl id⟩
    | unlock n => exact ⟨hi, hat.step rfl rfl hat.body⟩
    | act => exact own_step hi hat
  other h _ hi hat _ _ hj hq := by
    cases h with
    | trylock n hfree | lock n hfree => exact other_take hfree hj hq
    | unlock n => exact hq
    | act => exact other_step hi hat hj hq

/-! ## Every run -/

omit [DecidableEq ν] in
/-- The node of a thread that has the lock is the first one in the line. -/
theorem At.first (h : At i m p) (hinside : p.Inside) : m.line.head? = p.node := by
  have hbody := h.body
  cases p with
  | inside n | unlock n | unlockQueue n | unlockCas n | unlockWait n => exact hbody
  | wake n next => exact hbody.1
  | _ => exact hinside.elim

omit [DecidableEq ν] in
/-- A node that a thread initializes is not in the line. -/
theorem At.out (h : At i m p) (hinit : p.Initializes) (hnode : p.node = some n) :
    n ∉ m.line := by
  have hbody := h.body
  cases p with
  | tryLocked a | lockLocked a =>
    obtain rfl : a = n := Option.some.inj hnode
    exact hbody
  | tryNext a | lockNext a =>
    obtain rfl : a = n := Option.some.inj hnode
    exact hbody.1
  | tryCas a | swap a =>
    obtain rfl : a = n := Option.some.inj hnode
    exact hbody.1.1
  | _ => exact hinit.elim

omit [DecidableEq ν] in
/-- A node that a thread may access is its own, or in the line. -/
theorem At.access (hi : Inv m) (h : At i m p) (haccess : p.MayAccess n) :
    p.node = some n ∨ n ∈ m.line := by
  have hbody := h.body
  cases p with
  | link a previous =>
    rcases haccess with rfl | rfl
    · exact .inl rfl
    · exact .inr hbody.1.mem_left
  | wake a next =>
    rcases haccess with rfl | rfl
    · exact .inl rfl
    · have hmem := List.mem_of_mem_head? hbody.1
      exact .inr (hi.next a hmem _ hbody.2).mem_right
  | _ => exact .inl haccess

variable [DecidableEq ι]

/-- The lock is given to one thread at a time, in the order in which their nodes have entered the
queue. Nobody else has to do with a node that a thread initializes. -/
structure InOrder (s : Threads.System (Mem ι ν) (Pc ν) ι) : Prop where
  alone : ∀ i j, (s.pc i).Inside → (s.pc j).Inside → i = j
  first : ∀ i, (s.pc i).Inside → s.mem.line.head? = (s.pc i).node
  fresh : ∀ i j n, i ≠ j → (s.pc i).Initializes → (s.pc i).node = some n → ¬ (s.pc j).MayAccess n

omit [DecidableEq ν] in
theorem Pc.node_ne_none (h : p.Inside) : p.node ≠ none := by
  cases p with
  | idle => exact h.elim
  | _ => exact Option.some_ne_none _

theorem inOrder {locked : ν → Bool} {next : ν → Option ν}
    {s : Threads.System (Mem ι ν) (Pc ν) ι}
    (hr : Threads.System.Reachable Step (fun _ _ _ => True) (start locked next) s) :
    InOrder s := by
  obtain ⟨hinv, hall⟩ :=
    invariant.reachable hr (fun _ => trivial) (inv_start locked next) (at_start locked next)
  have hat := fun i => (hall i).2
  have hfirst : ∀ i, (s.pc i).Inside → s.mem.line.head? = (s.pc i).node := fun i => (hat i).first
  refine ⟨fun i j hi hj => ?_, hfirst, fun i j n hij hinit hnode haccess => ?_⟩
  · obtain ⟨n, hn⟩ := Option.ne_none_iff_exists'.mp (Pc.node_ne_none hi)
    have hsame : (s.pc j).node = some n := ((hfirst j hj).symm.trans (hfirst i hi)).trans hn
    have huser := ((hat i).user n).mpr hn
    rw [((hat j).user n).mpr hsame] at huser
    exact (Option.some.inj huser).symm
  · rcases (hat j).access hinv haccess with hown | hmem
    · exact (hat i).node_ne (hat j) hij.symm hnode hown rfl
    · exact (hat i).out hinit hnode hmem

/-- A run in which a thread makes `n` more accesses. -/
theorem acts_reachable {s₀ s : Threads.System (Mem ι ν) (Pc ν) ι}
    (hr : Threads.System.Reachable Step (fun _ _ _ => True) s₀ s) (i : ι) (n : Nat) :
    Threads.System.Reachable Step (fun _ _ _ => True) s₀ (s.acts (fun _ => act) i n) :=
  hr.acts i n (fun _ _ _ _ _ _ => .inr .act) fun _ _ _ => trivial

end ConcurrencyKit.Spinlock.Mcs

namespace ConcurrencyKit.Spinlock

/-- Both queue locks are given to one thread at a time in the order of the swaps, and the node of a
request is not used again before everybody else is done with it. -/
theorem queue_locks_in_order {ι : Type} [DecidableEq ι] :
    (∀ (ν : Type) [DecidableEq ν] (locked : ν → Bool) (next : ν → Option ν)
      (s : Threads.System (Mcs.Mem ι ν) (Mcs.Pc ν) ι),
      Threads.System.Reachable Mcs.Step (fun _ _ _ => True) (Mcs.start locked next) s →
        Mcs.InOrder s) ∧
    ∀ (junk : ι → Bool × Option (Clh.Node ι)) (s : Threads.System (Clh.Mem ι) (Clh.Pc ι) ι),
      Threads.System.Reachable Clh.Step (fun _ _ _ => True) (Clh.start junk) s →
        Clh.InOrder s :=
  ⟨fun _ _ _ _ _ hr => Mcs.inOrder hr, fun _ _ hr => Clh.inOrder hr⟩

/-- A thread unlocks that has seen nobody behind it, while another one has entered the queue. And a
thread takes a node for its next request over, while another one still reads its last one. -/
theorem queue_locks_in_order_behind :
    (∃ s : Threads.System (Mcs.Mem Bool Bool) (Mcs.Pc Bool) Bool,
      s.pc true = .unlockWait true ∧ s.pc false = .link false true ∧ Mcs.InOrder s) ∧
    ∃ s : Threads.System (Clh.Mem Bool) (Clh.Pc Bool) Bool,
      s.pc true = .setWait .unowned ∧ s.pc false = .spin (.thread false) (.thread true) ∧
        Clh.InOrder s := by
  have hm₀ : Threads.System.Reachable Mcs.Step (fun (_ : Bool) _ _ => True)
      (Mcs.start (fun _ : Bool => false) fun _ => none)
      (Mcs.start (fun _ : Bool => false) fun _ => none) := .refl
  have hm₁ := hm₀.extend true (.lock true rfl) fun _ => trivial
  have hm₂ := Mcs.acts_reachable hm₁ true 3
  have hm₃ := hm₂.call true (.unlock true) fun _ => trivial
  have hm₄ := Mcs.acts_reachable hm₃ true 2
  have hm₅ := hm₄.extend false (.lock false rfl) fun _ => trivial
  have hm₆ := Mcs.acts_reachable hm₅ false 3
  have hm₇ := Mcs.acts_reachable hm₆ true 1
  have hc₀ : Threads.System.Reachable Clh.Step (fun (_ : Bool) _ _ => True)
      (Clh.start fun _ => (false, none)) (Clh.start fun _ => (false, none)) := .refl
  have hc₁ := hc₀.call true (.lock (.thread true)) fun _ => trivial
  have hc₂ := Clh.acts_reachable hc₁ true 4
  have hc₃ := hc₂.call false (.lock (.thread false)) fun _ => trivial
  have hc₄ := Clh.acts_reachable hc₃ false 4
  have hc₅ := hc₄.call true (.unlock (.thread true)) fun _ => trivial
  have hc₆ := Clh.acts_reachable hc₅ true 2
  have hc₇ := hc₆.call true (.lock .unowned) fun _ => trivial
  exact ⟨⟨_, by decide +kernel, by decide +kernel, queue_locks_in_order.1 Bool _ _ _ hm₇⟩,
    _, by decide +kernel, by decide +kernel, queue_locks_in_order.2 _ _ hc₇⟩

end ConcurrencyKit.Spinlock
