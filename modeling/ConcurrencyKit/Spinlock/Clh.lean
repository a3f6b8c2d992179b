import ConcurrencyKit.Misc.Line
import ConcurrencyKit.Misc.Threads

/-!
# The CLH locks of `ck_spinlock`

The functions of `include/spinlock/clh.h`, one access at a time, for any number of threads. A thread
enters the queue with a node and waits at the node before it, which it takes over when it leaves.

Next to the words a `Mem` keeps the threads in the order in which they have entered the queue, and
what each of them has got to know.
-/

namespace ConcurrencyKit.Spinlock.Clh

open Line (Linked endOf)

/-- The objects of type `ck_spinlock_clh_t`: the one that `ck_spinlock_clh_init` gets, and those
that the threads bring with them. -/
inductive Node (ι : Type) where
  | unowned
  | thread (i : ι)
  deriving DecidableEq, Repr

/-- The fields of the nodes and the queue. -/
structure Mem (ι : Type) where
  queue : Node ι
  wait : Node ι → Bool
  previous : Node ι → Option (Node ι)
  /-- The threads that have the lock or wait for it, in the order in which they have entered. -/
  line : List ι
  /-- The node of the thread that has released the lock last. -/
  popped : Node ι
  /-- The node of a thread, and the one that it has found in the queue. -/
  node : ι → Node ι
  prev : ι → Node ι

/-- Where a thread stands. `me` is what `thread` points to. -/
inductive Pc (ι : Type) where
  | idle (me : Node ι)
  | inside (me : Node ι)
  /-- `ck_spinlock_clh_lock`. -/
  | setWait (me : Node ι)
  | swap (me : Node ι)
  | setPrevious (me previous : Node ι)
  | spin (me previous : Node ι)
  /-- `ck_spinlock_clh_unlock`. -/
  | unlock (me : Node ι)
  | release (me : Node ι) (previous : Option (Node ι))
  deriving DecidableEq, Repr

variable {ι : Type}

namespace Pc

/-- What `thread` points to. -/
def me : Pc ι → Node ι
  | idle me | inside me | setWait me | swap me | setPrevious me _ | spin me _ | unlock me
  | release me _ => me

/-- The thread has the lock. -/
def Inside : Pc ι → Prop
  | inside _ | unlock _ | release _ _ => True
  | _ => False

/-- The thread has a new request that has not entered the queue. -/
def Initializes : Pc ι → Prop
  | setWait _ | swap _ => True
  | _ => False

/-- The nodes that the thread may still read or write in the call that it is in, or has to return
from when it has the lock. -/
def MayAccess : Pc ι → Node ι → Prop
  | idle _, _ => False
  | setPrevious me previous, n | spin me previous, n => n = me ∨ n = previous
  | inside me, n | setWait me, n | swap me, n | unlock me, n | release me _, n => n = me

end Pc

variable [DecidableEq ι]

namespace Mem

/-- `wait` of a node is stored to. -/
def setWait (n : Node ι) (v : Bool) (m : Mem ι) : Mem ι :=
  { m with wait := Function.update m.wait n v }

def setPrevious (n v : Node ι) (m : Mem ι) : Mem ι :=
  { m with previous := Function.update m.previous n (some v) }

/-- `ck_pr_fas_ptr(queue, thread)` of thread `i`. -/
def swap (i : ι) (me : Node ι) (m : Mem ι) : Mem ι :=
  { m with
    queue := me
    line := m.line ++ [i]
    prev := Function.update m.prev i m.queue }

/-- `ck_pr_store_uint(&(*thread)->wait, false)` of thread `i`, which takes the node `previous`
over. -/
def release (i : ι) (me previous : Node ι) (m : Mem ι) : Mem ι :=
  { m.setWait me false with
    line := m.line.tail
    popped := me
    node := Function.update m.node i previous }

end Mem

/-- One access of thread `i`: `ck_spinlock_clh_lock` and `ck_spinlock_clh_unlock`
(`clh.h:68-120`). -/
def act (i : ι) (m : Mem ι) : Pc ι → Mem ι × Pc ι
  | .idle me => (m, .idle me)
  | .inside me => (m, .inside me)
  | .setWait me => (m.setWait me true, .swap me)
  | .swap me => (m.swap i me, .setPrevious me m.queue)
  | .setPrevious me previous => (m.setPrevious me previous, .spin me previous)
  | .spin me previous => (m, if m.wait previous = true then .spin me previous else .inside me)
  | .unlock me => (m, .release me (m.previous me))
  | .release me (some previous) => (m.release i me previous, .idle previous)
  -- a thread that has the lock has a node before its own
  | .release me none => (m, .release me none)

/-- One step of thread `i`: it calls a function, or makes the next access of its call. -/
inductive Step (i : ι) : Mem ι → Pc ι → Mem ι → Pc ι → Prop
  | lock {m : Mem ι} (me : Node ι) : Step i m (.idle me) m (.setWait me)
  | unlock {m : Mem ι} (me : Node ι) : Step i m (.inside me) m (.unlock me)
  | act {m : Mem ι} {pc : Pc ι} : Step i m pc (act i m pc).1 (act i m pc).2

/-- A new lock and threads with nodes that hold anything. -/
def start (junk : ι → Bool × Option (Node ι)) : Threads.System (Mem ι) (Pc ι) ι where
  mem :=
    { queue := .unowned
      wait
        | .unowned => false
        | .thread i => (junk i).1
      previous
        | .unowned => none
        | .thread i => (junk i).2
      line := []
      popped := .unowned
      node := .thread
      prev := .thread }
  pc i := .idle (.thread i)

/-! ## The invariant -/

omit [DecidableEq ι]

variable {m m' : Mem ι} {i j : ι} {p : Pc ι} {me previous : Node ι}

/-- The threads form a line from the node that has been released last to the queue. -/
structure Inv (m : Mem ι) : Prop where
  nodup : m.line.Nodup
  node_inj : Function.Injective m.node
  node_ne_popped : ∀ i, m.node i ≠ m.popped
  linked : Linked m.node m.prev m.popped m.line
  queue : m.queue = endOf m.node m.popped m.line
  waits : ∀ i ∈ m.line, m.wait (m.node i) = true

/-- What the program counter of a thread says about the memory. -/
def Body (i : ι) (m : Mem ι) : Pc ι → Prop
  | .idle _ | .setWait _ => i ∉ m.line
  | .swap me => i ∉ m.line ∧ m.wait me = true
  | .setPrevious _ previous => i ∈ m.line ∧ previous = m.prev i
  | .spin me previous => (i ∈ m.line ∧ previous = m.prev i) ∧ m.previous me = some (m.prev i)
  | .inside me | .unlock me => m.line.head? = some i ∧ m.previous me = some (m.prev i)
  | .release _ previous => m.line.head? = some i ∧ previous = some (m.prev i)

/-- What a thread knows about the memory. -/
structure At (i : ι) (m : Mem ι) (p : Pc ι) : Prop where
  me : p.me = m.node i
  body : Body i m p

theorem inv_start [DecidableEq ι] (junk : ι → Bool × Option (Node ι)) : Inv (start junk).mem where
  nodup := List.nodup_nil
  node_inj := fun _ _ h => by injection h
  node_ne_popped := fun _ => nofun
  linked := trivial
  queue := rfl
  waits := fun _ h => absurd h List.not_mem_nil

theorem at_start [DecidableEq ι] (junk : ι → Bool × Option (Node ι)) (i : ι) :
    At i (start junk).mem ((start junk).pc i) :=
  ⟨rfl, List.not_mem_nil⟩

/-- A thread whose predecessor has released the lock is the first one in the line. -/
theorem Inv.first (hi : Inv m) (h : i ∈ m.line) (hwait : m.wait (m.prev i) ≠ true) :
    m.line.head? = some i := by
  rcases hi.linked.prev_cases h with ⟨l, hl, -⟩ | ⟨k, hk, heq⟩
  · rw [hl, List.head?_cons]
  · rw [heq] at hwait
    exact absurd (hi.waits k hk) hwait

/-- The node before the first thread is the one that has been released last. -/
theorem Inv.prev_first (hi : Inv m) (h : m.line.head? = some i) : m.prev i = m.popped := by
  obtain ⟨l, hl⟩ := List.head?_eq_some_iff.mp h
  have hlinked := hi.linked
  rw [hl] at hlinked
  exact hlinked.1

/-- No thread in the line knows the node of one that is not. -/
theorem Inv.prev_ne (hi : Inv m) (h : i ∈ m.line) (hj : j ∉ m.line) : m.prev i ≠ m.node j := by
  rcases hi.linked.prev_cases h with ⟨-, -, heq⟩ | ⟨k, hk, heq⟩
  · rw [heq]
    exact (hi.node_ne_popped j).symm
  · rw [heq]
    exact fun hkj => hj (hi.node_inj hkj ▸ hk)

/-! ## Steps of other threads -/

/-- What a step of another thread leaves to thread `i`. -/
structure Frame (i : ι) (m m' : Mem ι) : Prop where
  node : m'.node i = m.node i
  prev : m'.prev i = m.prev i
  out : i ∉ m.line → i ∉ m'.line
  mem : i ∈ m.line → i ∈ m'.line
  first : m.line.head? = some i → m'.line.head? = some i
  wait : m'.wait (m.node i) = m.wait (m.node i)
  previous : m'.previous (m.node i) = m.previous (m.node i)

/-- What a thread knows stays true. -/
theorem Frame.mono (hf : Frame i m m') (h : At i m p) : At i m' p := by
  obtain ⟨hme, hbody⟩ := h
  refine ⟨hme.trans hf.node.symm, ?_⟩
  cases p with
  | idle me | setWait me => exact hf.out hbody
  | swap me =>
    obtain rfl : me = m.node i := hme
    exact ⟨hf.out hbody.1, hf.wait.trans hbody.2⟩
  | setPrevious me previous => exact ⟨hf.mem hbody.1, hbody.2.trans hf.prev.symm⟩
  | spin me previous =>
    obtain rfl : me = m.node i := hme
    obtain ⟨⟨hmem, hprev⟩, hprevious⟩ := hbody
    refine ⟨⟨hf.mem hmem, hprev.trans hf.prev.symm⟩, ?_⟩
    rw [hf.previous, hf.prev, hprevious]
  | inside me | unlock me =>
    obtain rfl : me = m.node i := hme
    refine ⟨hf.first hbody.1, ?_⟩
    rw [hf.previous, hf.prev, hbody.2]
  | release me previous => exact ⟨hf.first hbody.1, hbody.2.trans (congrArg some hf.prev.symm)⟩

/-! ## Steps -/

variable [DecidableEq ι]

/-- A thread that is not in the line may store to its node. -/
theorem Inv.setWait (hi : Inv m) (h : i ∉ m.line) (v : Bool) : Inv (m.setWait (m.node i) v) where
  nodup := hi.nodup
  node_inj := hi.node_inj
  node_ne_popped := hi.node_ne_popped
  linked := hi.linked
  queue := hi.queue
  waits k hk := by
    have hne : m.node k ≠ m.node i := fun hki => h (hi.node_inj hki ▸ hk)
    exact (Function.update_of_ne hne ..).trans (hi.waits k hk)

theorem Inv.setPrevious (hi : Inv m) (n v : Node ι) : Inv (m.setPrevious n v) :=
  ⟨hi.nodup, hi.node_inj, hi.node_ne_popped, hi.linked, hi.queue, hi.waits⟩

/-- A thread enters the line at its end. -/
theorem Inv.swap (hi : Inv m) (h : i ∉ m.line) (hwait : m.wait (m.node i) = true) :
    Inv (m.swap i (m.node i)) where
  nodup := by
    have hdisj : m.line.Disjoint [i] := List.disjoint_singleton.mpr h
    exact hi.nodup.append (List.nodup_singleton i) hdisj
  node_inj := hi.node_inj
  node_ne_popped := hi.node_ne_popped
  linked := by
    have hcongr : Linked m.node (Function.update m.prev i m.queue) m.popped m.line :=
      hi.linked.congr (fun _ _ => rfl) fun k hk =>
        Function.update_of_ne (fun hki : k = i => h (hki ▸ hk)) ..
    exact hcongr.concat ((Function.update_self ..).trans hi.queue)
  queue := by
    simp only [Mem.swap]
    exact Line.endOf_concat.symm
  waits k hk := by
    rcases List.mem_append.mp hk with hk | hk
    · exact hi.waits k hk
    · rw [List.mem_singleton.mp hk]
      exact hwait

/-- The first thread leaves and takes the node before its own over. -/
theorem Inv.release (hi : Inv m) (h : m.line.head? = some i) :
    Inv (m.release i (m.node i) (m.prev i)) := by
  obtain ⟨l, hl⟩ := List.head?_eq_some_iff.mp h
  have hprev := hi.prev_first h
  obtain ⟨hil, hnodup⟩ := List.nodup_cons.mp (hl ▸ hi.nodup)
  have hother : ∀ k, k ≠ i → (m.release i (m.node i) (m.prev i)).node k = m.node k :=
    fun k hk => Function.update_of_ne hk ..
  have hself : (m.release i (m.node i) (m.prev i)).node i = m.popped :=
    (Function.update_self ..).trans hprev
  have hmem : ∀ k ∈ l, (m.release i (m.node i) (m.prev i)).node k = m.node k :=
    fun k hk => hother k fun hki => hil (hki ▸ hk)
  have htail : m.line.tail = l := by rw [hl, List.tail_cons]
  refine ⟨?_, ?_, ?_, ?_, ?_, ?_⟩
  · simp only [Mem.release, htail]
    exact hnodup
  · intro j k hjk
    by_cases hj : j = i <;> by_cases hk : k = i
    · exact hj.trans hk.symm
    · rw [hj, hself, hother k hk] at hjk
      exact absurd hjk.symm (hi.node_ne_popped k)
    · rw [hk, hself, hother j hj] at hjk
      exact absurd hjk (hi.node_ne_popped j)
    · rw [hother j hj, hother k hk] at hjk
      exact hi.node_inj hjk
  · intro k
    change (m.release i (m.node i) (m.prev i)).node k ≠ m.node i
    by_cases hk : k = i
    · rw [hk, hself]
      exact (hi.node_ne_popped i).symm
    · rw [hother k hk]
      exact fun hki => hk (hi.node_inj hki)
  · have hlinked := hi.linked
    rw [hl] at hlinked
    simp only [Mem.release, htail]
    exact hlinked.2.congr hmem fun _ _ => rfl
  · simp only [Mem.release, htail]
    have hqueue : m.queue = endOf m.node (m.node i) l := by rw [hi.queue, hl, endOf]
    exact hqueue.trans (Line.endOf_congr hmem).symm
  · simp only [Mem.release, htail]
    intro k hk
    have hki : m.node k ≠ m.node i := fun hki => hil (hi.node_inj hki ▸ hk)
    have hnode := hmem k hk
    simp only [Mem.release] at hnode
    rw [hnode]
    exact (Function.update_of_ne hki ..).trans (hi.waits k (hl ▸ List.mem_cons_of_mem i hk))

theorem own_step (hi : Inv m) (h : At i m p) :
    Inv (act i m p).1 ∧ At i (act i m p).1 (act i m p).2 := by
  obtain ⟨hme, hbody⟩ := h
  cases p with
  | idle me | inside me => exact ⟨hi, hme, hbody⟩
  | setWait me =>
    obtain rfl : me = m.node i := hme
    exact ⟨hi.setWait hbody true, rfl, hbody, Function.update_self ..⟩
  | swap me =>
    obtain rfl : me = m.node i := hme
    have hprev : (m.swap i (m.node i)).prev i = m.queue := Function.update_self ..
    exact ⟨hi.swap hbody.1 hbody.2, rfl, List.mem_append_right _ (List.mem_singleton_self i),
      hprev.symm⟩
  | setPrevious me previous =>
    obtain ⟨hmem, rfl⟩ := hbody
    exact ⟨hi.setPrevious _ _, hme, ⟨hmem, rfl⟩, Function.update_self ..⟩
  | spin me previous =>
    obtain ⟨⟨hmem, hprev⟩, hprevious⟩ := hbody
    simp only [act]
    split
    case isTrue => exact ⟨hi, hme, ⟨hmem, hprev⟩, hprevious⟩
    case isFalse hwait => exact ⟨hi, hme, hi.first hmem (hprev ▸ hwait), hprevious⟩
  | unlock me => exact ⟨hi, hme, hbody⟩
  | release me previous =>
    obtain rfl : me = m.node i := hme
    obtain ⟨hfirst, rfl⟩ := hbody
    have hnode : (m.release i (m.node i) (m.prev i)).node i = m.prev i := Function.update_self ..
    refine ⟨hi.release hfirst, hnode.symm, ?_⟩
    obtain ⟨l, hl⟩ := List.head?_eq_some_iff.mp hfirst
    have hil := (List.nodup_cons.mp (hl ▸ hi.nodup)).1
    change i ∉ m.line.tail
    rwa [hl, List.tail_cons]

/-- A step is a step of another thread for the others. -/
theorem frame_step (hi : Inv m) (h : At i m p) (hj : j ≠ i) : Frame j m (act i m p).1 := by
  obtain ⟨hme, hbody⟩ := h
  have hnode : m.node j ≠ m.node i := fun heq => hj (hi.node_inj heq)
  cases p with
  | idle me | inside me | spin me previous | unlock me =>
    exact ⟨rfl, rfl, id, id, id, rfl, rfl⟩
  | setWait me =>
    obtain rfl : me = m.node i := hme
    exact ⟨rfl, rfl, id, id, id, Function.update_of_ne hnode .., rfl⟩
  | swap me =>
    refine ⟨rfl, Function.update_of_ne hj .., fun hout hmem => ?_, List.mem_append_left _,
      fun hfirst => ?_, rfl, rfl⟩
    · rcases List.mem_append.mp hmem with hmem | hmem
      · exact hout hmem
      · exact hj (List.mem_singleton.mp hmem)
    · obtain ⟨l, hl⟩ := List.head?_eq_some_iff.mp hfirst
      simp only [act, Mem.swap, hl, List.cons_append, List.head?_cons]
  | setPrevious me previous =>
    obtain rfl : me = m.node i := hme
    exact ⟨rfl, rfl, id, id, id, rfl, Function.update_of_ne hnode ..⟩
  | release me previous =>
    obtain rfl : me = m.node i := hme
    obtain ⟨hfirst, rfl⟩ := hbody
    obtain ⟨l, hl⟩ := List.head?_eq_some_iff.mp hfirst
    have htail : m.line.tail = l := by rw [hl, List.tail_cons]
    refine ⟨Function.update_of_ne hj .., rfl, fun hout => ?_, fun hmem => ?_, fun hfirst' => ?_,
      Function.update_of_ne hnode .., rfl⟩
    · exact fun hmem => hout (List.mem_of_mem_tail hmem)
    · change j ∈ m.line.tail
      rw [hl] at hmem
      rw [htail]
      exact (List.mem_cons.mp hmem).resolve_left hj
    · exact absurd (Option.some.inj (hfirst'.symm.trans hfirst)) hj

theorem invariant : Threads.Invariant Step (fun (_ : ι) _ _ => True) Inv At where
  own h _ hi hat := by
    cases h with
    | lock me | unlock me => exact ⟨hi, hat.me, hat.body⟩
    | act => exact own_step hi hat
  other h _ hi hat _ _ hj hother := by
    cases h with
    | lock me | unlock me => exact hother
    | act => exact (frame_step hi hat hj).mono hother

/-! ## Every run -/

omit [DecidableEq ι] in
/-- A thread that has the lock is the first one in the line. -/
theorem At.first (h : At i m p) (hinside : p.Inside) : m.line.head? = some i := by
  have hbody := h.body
  cases p with
  | inside me | unlock me | release me previous => exact hbody.1
  | idle me | setWait me | swap me | setPrevious me previous | spin me previous =>
    exact hinside.elim

omit [DecidableEq ι] in
/-- A node that another thread may access is its own, or the one before it in the line. -/
theorem At.access (hi : Inv m) (h : At j m p) (hj : j ≠ i) (haccess : p.MayAccess (m.node i)) :
    j ∈ m.line ∧ m.prev j = m.node i := by
  have hme : m.node i ≠ p.me := fun heq => hj (hi.node_inj (heq.trans h.me)).symm
  have hbody := h.body
  cases p with
  | idle me => exact haccess.elim
  | inside me | setWait me | swap me | unlock me | release me previous =>
    exact absurd haccess hme
  | setPrevious me previous =>
    exact ⟨hbody.1, hbody.2.symm.trans (haccess.resolve_left hme).symm⟩
  | spin me previous =>
    exact ⟨hbody.1.1, hbody.1.2.symm.trans (haccess.resolve_left hme).symm⟩

omit [DecidableEq ι] in
/-- Nobody else has to do with the node of a thread that has not entered the line. -/
theorem At.fresh (hi : Inv m) (hat : At i m p) (hinit : p.Initializes) {q : Pc ι} (hj : j ≠ i)
    (hother : At j m q) : ¬ q.MayAccess p.me := by
  intro haccess
  have hout : i ∉ m.line := by
    have hbody := hat.body
    cases p with
    | setWait me => exact hbody
    | swap me => exact hbody.1
    | idle me | inside me | setPrevious me previous | spin me previous | unlock me
    | release me previous => exact hinit.elim
  rw [hat.me] at haccess
  obtain ⟨hmem, heq⟩ := hother.access hi hj haccess
  exact hi.prev_ne hmem hout heq

omit [DecidableEq ι] in
/-- A thread in the line that knows the node of another one is right behind it. -/
theorem Inv.behind (hi : Inv m) (hj : j ∈ m.line) (heq : m.prev j = m.node i) :
    ∃ l₁ l₂, m.line = l₁ ++ i :: j :: l₂ := by
  rcases hi.linked.behind hj with ⟨-, -, hfirst⟩ | ⟨l₁, k, l₂, hl, hprev⟩
  · exact absurd (heq.symm.trans hfirst) (hi.node_ne_popped i)
  · obtain rfl : k = i := hi.node_inj (hprev.symm.trans heq)
    exact ⟨l₁, l₂, hl⟩

/-- The lock is given to one thread at a time, in the order in which they have entered the queue.
Nobody else has to do with a node that a thread initializes; and when it stores the node before its
own, only the thread that has entered right behind it does. -/
structure InOrder (s : Threads.System (Mem ι) (Pc ι) ι) : Prop where
  alone : ∀ i j, (s.pc i).Inside → (s.pc j).Inside → i = j
  first : ∀ i, (s.pc i).Inside → s.mem.line.head? = some i
  fresh : ∀ i j, i ≠ j → (s.pc i).Initializes → ¬ (s.pc j).MayAccess (s.pc i).me
  behind : ∀ i j me previous, i ≠ j → s.pc i = .setPrevious me previous → (s.pc j).MayAccess me →
    ∃ l₁ l₂, s.mem.line = l₁ ++ i :: j :: l₂

theorem inOrder {junk : ι → Bool × Option (Node ι)} {s : Threads.System (Mem ι) (Pc ι) ι}
    (hr : Threads.System.Reachable Step (fun _ _ _ => True) (start junk) s) : InOrder s := by
  obtain ⟨hinv, hall⟩ := invariant.reachable hr (fun _ => trivial) (inv_start junk) (at_start junk)
  have hat := fun i => (hall i).2
  have hfirst : ∀ i, (s.pc i).Inside → s.mem.line.head? = some i := fun i => (hat i).first
  refine ⟨fun i j hi hj => ?_, hfirst,
    fun i j hij hinit => (hat i).fresh hinv hinit hij.symm (hat j),
    fun i j me previous hij hi haccess => ?_⟩
  · exact Option.some.inj ((hfirst i hi).symm.trans (hfirst j hj))
  · have hme := (hat i).me
    rw [hi] at hme
    obtain rfl : me = s.mem.node i := hme
    obtain ⟨hmem, heq⟩ := (hat j).access hinv hij.symm haccess
    exact hinv.behind hmem heq

/-- A run in which a thread makes `n` more accesses. -/
theorem acts_reachable {s₀ s : Threads.System (Mem ι) (Pc ι) ι}
    (hr : Threads.System.Reachable Step (fun _ _ _ => True) s₀ s) (i : ι) (n : Nat) :
    Threads.System.Reachable Step (fun _ _ _ => True) s₀ (s.acts act i n) :=
  hr.acts i n (fun _ _ _ _ _ _ => .inr .act) fun _ _ _ => trivial

end ConcurrencyKit.Spinlock.Clh
