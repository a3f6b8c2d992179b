import ConcurrencyKit.Misc.Lifo
import ConcurrencyKit.Misc.Places
import ConcurrencyKit.Misc.Threads
import ConcurrencyKit.Stack.Model

/-!
# The stack without concurrent consumers

`ck_stack_push_mpnc` swaps `head` and only then stores `next`, so that the chain has gaps while
entries are pushed (`include/ck_stack.h:356-367`). Its producers may run beside each other, but no
consumer beside them. `ck_stack_push_spnc`, `ck_stack_pop_npsc` and `ck_stack_batch_pop_npsc` run
with nobody beside them (`ck_stack.h:374-411`).

A `Mem` keeps a history next to the memory: what is on the stack, where each entry is, what was at
`head` when it was pushed, who has yet to store its `next`, who is in `ck_stack_push_mpnc`, and who
is in a function that must have the stack for itself.
-/

namespace ConcurrencyKit.Stack.Exclusive

open Lifo (Op Next Chain)
open Linear (Legal History)
open Threads (Invariant System)

/-- `struct ck_stack` and its entries, and the history of their use. -/
structure Mem (N ι : Type) where
  next : N → Option N
  head : Option N
  /-- What is on the stack, from the top. -/
  contents : List N
  place : N → Place ι
  /-- What was at `head` when the entry was pushed. -/
  below : N → Option N
  /-- The thread that has pushed the entry and has not yet stored its `next`. -/
  linker : N → Option ι
  /-- The thread is in `ck_stack_push_mpnc`. -/
  pushing : ι → Bool
  /-- The thread that is in a function which runs alone. -/
  alone : Option ι
  history : History ι (Op N)

/-- Where a thread stands, with the local variables that are live. -/
inductive Pc (N : Type) where
  | idle
  | mpncClear (entry : N)
  | mpncSwap (entry : N)
  | mpncLink (entry : N) (stack : Option N)
  | spncLoad (entry : N)
  | spncNext (entry : N) (head : Option N)
  | spncHead (entry : N)
  | npscTest
  | npscLoad
  | npscNext (n : Option N)
  | npscHead (n : N) (next : Option N)
  | batchLoad
  | batchHead (n : Option N)
  /-- The `next` of a null pointer has been loaded. -/
  | fault
  | done (op : Op N)

variable {N ι : Type}

namespace Pc

/-- The thread is between two calls. -/
def Resting : Pc N → Prop
  | .idle | .done _ => True
  | _ => False

/-- The thread is in `ck_stack_push_mpnc`. -/
def pushes : Pc N → Bool
  | .mpncClear _ | .mpncSwap _ | .mpncLink _ _ => true
  | _ => false

/-- The thread is in a function that runs alone. -/
def alone : Pc N → Bool
  | .spncLoad _ | .spncNext _ _ | .spncHead _ => true
  | .npscTest | .npscLoad | .npscNext _ | .npscHead _ _ => true
  | .batchLoad | .batchHead _ | .fault => true
  | _ => false

/-- The entry that has been pushed and whose `next` the thread is about to store. -/
def linking : Pc N → Option N
  | .mpncLink e _ => some e
  | _ => none

/-- The operation that has taken effect and has not returned. -/
def pending (pc : Pc N) : Option (Op N) := pc.linking.map .push

end Pc

namespace Mem

variable [DecidableEq ι]

/-- An operation of thread `i` takes effect and returns. -/
def finish (i : ι) (op : Op N) (m : Mem N ι) : Mem N ι :=
  { m with alone := none, history := (m.history.effect i op).complete i op }

/-- Thread `i` has the stack for itself. -/
def enter (i : ι) (m : Mem N ι) : Mem N ι := { m with alone := some i }

/-- All entries leave the stack. -/
def clear [DecidableEq N] (m : Mem N ι) : Mem N ι :=
  { m with
    head := none
    contents := []
    place := fun x => if x ∈ m.contents then .outside else m.place x }

variable [DecidableEq N]

/-- The place of an entry changes. -/
def move (entry : N) (p : Place ι) (m : Mem N ι) : Mem N ι :=
  { m with place := Function.update m.place entry p }

/-- Write to the `next` of an entry. -/
def storeNext (entry : N) (value : Option N) (m : Mem N ι) : Mem N ι :=
  { m with next := Function.update m.next entry value }

/-- The entry comes to the top of the stack. -/
def put (entry : N) (m : Mem N ι) : Mem N ι :=
  { m with
    head := some entry
    contents := entry :: m.contents
    place := Function.update m.place entry .inside
    below := Function.update m.below entry m.head }

/-- The entry leaves the top of the stack. -/
def take (entry : N) (next : Option N) (m : Mem N ι) : Mem N ι :=
  { m with
    head := next
    contents := m.contents.tail
    place := Function.update m.place entry .outside }

/-- Thread `i` is about to push the entry beside others. -/
def join (i : ι) (entry : N) (m : Mem N ι) : Mem N ι :=
  { m.move entry (.held i) with pushing := Function.update m.pushing i true }

/-- `ck_pr_fas_ptr(&target->head, entry)`. -/
def swap (i : ι) (entry : N) (m : Mem N ι) : Mem N ι :=
  { m.put entry with
    linker := Function.update m.linker entry (some i)
    history := m.history.effect i (.push entry) }

/-- `ck_pr_store_ptr(&entry->next, stack)`. -/
def link (i : ι) (entry : N) (stack : Option N) (m : Mem N ι) : Mem N ι :=
  { m.storeNext entry stack with
    linker := Function.update m.linker entry none
    pushing := Function.update m.pushing i false
    history := m.history.complete i (.push entry) }

/-- One access of thread `i`: `ck_stack_push_mpnc` (`ck_stack.h:356-367`), `ck_stack_push_spnc`,
`ck_stack_pop_npsc` and `ck_stack_batch_pop_npsc` (`ck_stack.h:374-411`). -/
def act (i : ι) (m : Mem N ι) : Pc N → Mem N ι × Pc N
  | .mpncClear e => (m.storeNext e none, .mpncSwap e)
  | .mpncSwap e => (m.swap i e, .mpncLink e m.head)
  | .mpncLink e stack => (m.link i e stack, .done (.push e))
  | .spncLoad e => (m, .spncNext e m.head)
  | .spncNext e stack => (m.storeNext e stack, .spncHead e)
  | .spncHead e => ((m.put e).finish i (.push e), .done (.push e))
  | .npscTest =>
    if m.head = none then (m.finish i (.pop none), .done (.pop none)) else (m, .npscLoad)
  | .npscLoad => (m, .npscNext m.head)
  | .npscNext none => (m, .fault)
  | .npscNext (some n) => (m, .npscHead n (m.next n))
  | .npscHead n next => ((m.take n next).finish i (.pop (some n)), .done (.pop (some n)))
  | .batchLoad => (m, .batchHead m.head)
  | .batchHead _ => (m.clear.finish i (.popAll m.contents), .done (.popAll m.contents))
  | pc => (m, pc)

end Mem

/-- One step of thread `i`: it calls `ck_stack_push_mpnc` with an entry that is outside the stack
while no function runs alone, calls a function that runs alone while nobody is in a call, or makes
the next access of its call. -/
inductive Step [DecidableEq N] [DecidableEq ι] (i : ι) :
    Mem N ι → Pc N → Mem N ι → Pc N → Prop
  | pushMpnc {m : Mem N ι} {pc : Pc N} (e : N) (resting : pc.Resting)
      (outside : m.place e = .outside) (free : m.alone = none) :
      Step i m pc (m.join i e) (.mpncClear e)
  | pushSpnc {m : Mem N ι} {pc : Pc N} (e : N) (resting : pc.Resting)
      (outside : m.place e = .outside) (free : m.alone = none)
      (quiet : ∀ j, m.pushing j = false) :
      Step i m pc ((m.move e (.held i)).enter i) (.spncLoad e)
  | popNpsc {m : Mem N ι} {pc : Pc N} (resting : pc.Resting) (free : m.alone = none)
      (quiet : ∀ j, m.pushing j = false) : Step i m pc (m.enter i) .npscTest
  | batchPopNpsc {m : Mem N ι} {pc : Pc N} (resting : pc.Resting) (free : m.alone = none)
      (quiet : ∀ j, m.pushing j = false) : Step i m pc (m.enter i) .batchLoad
  | act {m : Mem N ι} {pc : Pc N} (running : ¬ pc.Resting) :
      Step i m pc (m.act i pc).1 (m.act i pc).2

/-- The stack after `ck_stack_init`, with all threads idle. -/
def start (next : N → Option N) : System (Mem N ι) (Pc N) ι where
  mem :=
    { next := next
      head := none
      contents := []
      place _ := .outside
      below _ := none
      linker _ := none
      pushing _ := false
      alone := none
      history := ⟨[], fun _ => []⟩ }
  pc _ := .idle

/-! ## What the stack relies on -/

variable {i j : ι} {m m' : Mem N ι} {e x : N} {n : Option N} {pc pc' : Pc N}

structure Inv (m : Mem N ι) : Prop where
  /-- The chain that `next` forms where nobody has yet to store it. -/
  chain : Chain m.below m.head m.contents
  linked : ∀ x, m.linker x = none → x ∈ m.contents → m.next x = m.below x
  linking : ∀ x j, m.linker x = some j → x ∈ m.contents ∧ m.pushing j = true
  apart : ∀ i, m.alone = some i → ∀ j, m.pushing j = false
  inside : ∀ x, m.place x = .inside ↔ x ∈ m.contents
  legal : Legal Next [] (m.history.events.map Prod.snd) m.contents

/-- What thread `i` knows. -/
def Knows (i : ι) (m : Mem N ι) : Pc N → Prop
  | .mpncClear e | .spncLoad e => m.place e = .held i
  | .mpncSwap e => m.place e = .held i ∧ m.next e = none
  | .mpncLink e stack => m.below e = stack ∧ m.next e = none
  | .spncNext e stack => m.place e = .held i ∧ stack = m.head
  | .spncHead e => m.place e = .held i ∧ m.next e = m.head
  | .npscLoad => m.head ≠ none
  | .npscNext n => n ≠ none ∧ n = m.head
  | .npscHead n next => m.head = some n ∧ m.next n = next
  | .batchHead n => n = m.head
  | .fault => False
  | _ => True

section History

variable [DecidableEq ι]

structure At (i : ι) (m : Mem N ι) (pc : Pc N) : Prop where
  pushing : m.pushing i = pc.pushes
  alone : m.alone = some i ↔ pc.alone = true
  linker : ∀ x, m.linker x = some i ↔ pc.linking = some x
  consistent : m.history.Consistent i pc.pending
  knows : Knows i m pc

/-- What the threads that do not make a step can rely on. -/
structure Frame (i : ι) (m m' : Mem N ι) : Prop where
  pushing : ∀ j ≠ i, m'.pushing j = m.pushing j
  calm : ∀ j ≠ i, m.alone ≠ some j ∧ m'.alone ≠ some j
  held : ∀ j ≠ i, ∀ x, m.place x = .held j → m'.place x = .held j
  linker : ∀ j ≠ i, ∀ x, m'.linker x = some j ↔ m.linker x = some j
  below : ∀ j ≠ i, ∀ x, m.linker x = some j → m'.below x = m.below x
  next : ∀ j ≠ i, ∀ x, m.place x = .held j ∨ m.linker x = some j → m'.next x = m.next x
  consistent : ∀ j ≠ i, ∀ p, m.history.Consistent j p → m'.history.Consistent j p

/-- What a thread knows outlasts the steps of the others. -/
theorem At.frame (h : At j m pc) (hf : Frame i m m') (hj : j ≠ i) : At j m' pc := by
  obtain ⟨hcalm, hcalm'⟩ := hf.calm j hj
  have hpc : pc.alone ≠ true := fun hpc => hcalm (h.alone.mpr hpc)
  refine ⟨(hf.pushing j hj).trans h.pushing,
    ⟨fun ha => absurd ha hcalm', fun ha => absurd ha hpc⟩,
    fun x => (hf.linker j hj x).trans (h.linker x), hf.consistent j hj _ h.consistent, ?_⟩
  have hknows := h.knows
  cases pc with
  | mpncClear e => exact hf.held j hj e hknows
  | mpncSwap e =>
    exact ⟨hf.held j hj e hknows.1, (hf.next j hj e (.inl hknows.1)).trans hknows.2⟩
  | mpncLink e stack =>
    have hlinker := (h.linker e).mpr rfl
    exact ⟨(hf.below j hj e hlinker).trans hknows.1,
      (hf.next j hj e (.inr hlinker)).trans hknows.2⟩
  | idle => trivial
  | done op => trivial
  | _ => exact absurd rfl hpc

end History

theorem Inv.nodup (hi : Inv m) : m.contents.Nodup := Lifo.legal_nodup hi.legal

/-- The history with one more operation. -/
theorem Inv.legal_snoc (hi : Inv m) {op : Op N} {contents : List N}
    (h : Next m.contents op contents) :
    Legal Next [] ((m.history.events ++ [(i, op)]).map Prod.snd) contents := by
  rw [List.map_append]
  exact hi.legal.snoc op h

/-- An entry that is not inside is not on the stack. -/
theorem Inv.not_mem (hi : Inv m) {p : Place ι} (h : m.place e = p) (hp : p ≠ .inside) :
    e ∉ m.contents :=
  Places.not_mem hi.inside h hp

/-- Nobody has yet to store a `next` while a function runs alone. -/
theorem Inv.settled (hi : Inv m) (halone : m.alone = some i) (x : N) : m.linker x = none := by
  cases hx : m.linker x with
  | none => rfl
  | some j =>
    have hpushing := (hi.linking x j hx).2
    rw [hi.apart i halone j] at hpushing
    cases hpushing

/-- What follows an entry at `head`. -/
theorem Inv.top (hi : Inv m) (h : m.head = some e) :
    ∃ rest, m.contents = e :: rest ∧ Chain m.below (m.below e) rest := by
  have hchain := hi.chain
  rw [h] at hchain
  exact hchain.cons_of_some

theorem Inv.empty (hi : Inv m) (h : m.head = none) : m.contents = [] := by
  have hchain := hi.chain
  rw [h] at hchain
  exact hchain.nil_of_none

/-- Following `next` from `head` while nobody has yet to store one. -/
theorem Inv.chain_next (hi : Inv m) (h : ∀ x, m.linker x = none) :
    Chain m.next m.head m.contents :=
  hi.chain.congr fun x hx => hi.linked x (h x) hx

/-! ### The changes of the stack -/

section Changes

variable [DecidableEq N] [DecidableEq ι]

/-- What a step of thread `i` can do to the stack. -/
inductive Change (i : ι) (m : Mem N ι) : Mem N ι → Prop
  | stay : Change i m m
  | join (e : N) (outside : m.place e = .outside) (free : m.alone = none) :
      Change i m (m.join i e)
  | hold (e : N) (outside : m.place e = .outside) (quiet : ∀ j, m.pushing j = false) :
      Change i m ((m.move e (.held i)).enter i)
  | enter (quiet : ∀ j, m.pushing j = false) : Change i m (m.enter i)
  | store (e : N) (v : Option N) (held : m.place e = .held i) : Change i m (m.storeNext e v)
  | swap (e : N) (held : m.place e = .held i) (pushing : m.pushing i = true) :
      Change i m (m.swap i e)
  | link (e : N) (linker : ∀ x, m.linker x = some i ↔ e = x) :
      Change i m (m.link i e (m.below e))
  | put (e : N) (held : m.place e = .held i) (mine : m.alone = some i)
      (linked : m.next e = m.head) : Change i m ((m.put e).finish i (.push e))
  | empty (top : m.contents = []) : Change i m (m.finish i (.pop none))
  | take (n : N) (mine : m.alone = some i) (top : m.head = some n) :
      Change i m ((m.take n (m.next n)).finish i (.pop (some n)))
  | clear (mine : m.alone = some i) : Change i m (m.clear.finish i (.popAll m.contents))

omit [DecidableEq ι] in
theorem Inv.move {p q : Place ι} (hi : Inv m) (he : m.place e = p) (hp : p ≠ .inside)
    (hq : q ≠ .inside) : Inv (m.move e q) :=
  { hi with inside := Places.elsewhere hi.inside he hp hq }

omit [DecidableEq N] [DecidableEq ι] in
theorem Inv.enter (hi : Inv m) (quiet : ∀ j, m.pushing j = false) : Inv (m.enter i) :=
  { hi with apart := fun _ _ => quiet }

/-- A thread comes to push an entry while no function runs alone. -/
theorem Inv.join (hi : Inv m) (outside : m.place e = .outside) (free : m.alone = none) :
    Inv (m.join i e) := by
  have hmove := hi.move (q := .held i) outside (fun h => by cases h) (fun h => by cases h)
  refine { hmove with linking := fun x j hx => ?_, apart := fun j hj => ?_ }
  · obtain ⟨hmem, hpushing⟩ := hi.linking x j hx
    refine ⟨hmem, ?_⟩
    show Function.update m.pushing i true j = true
    by_cases hj : j = i
    · rw [hj, Function.update_self]
    · rw [Function.update_of_ne hj, hpushing]
  · cases free.symm.trans hj

omit [DecidableEq ι] in
/-- What is stored to an entry that is not on the stack does not matter. -/
theorem Inv.store (hi : Inv m) (held : m.place e = .held i) (v : Option N) :
    Inv (m.storeNext e v) := by
  refine { hi with linked := fun x hx hm => ?_ }
  have hne : x ≠ e := by
    rintro rfl
    exact hi.not_mem held (fun h => by cases h) hm
  exact (Function.update_of_ne hne _ _).trans (hi.linked x hx hm)

omit [DecidableEq ι] in
/-- The entry at the top is followed by what has been there before. -/
theorem Inv.chain_put (hi : Inv m) (habsent : e ∉ m.contents) :
    Chain (Function.update m.below e m.head) (some e) (e :: m.contents) := by
  refine ⟨rfl, ?_⟩
  rw [Function.update_self]
  exact hi.chain.update habsent _

omit [DecidableEq ι] in
/-- The entry is on the stack before its `next` has been stored. -/
theorem Inv.swap (hi : Inv m) (held : m.place e = .held i) (pushing : m.pushing i = true) :
    Inv (m.swap i e) := by
  have habsent : e ∉ m.contents := hi.not_mem held (fun h => by cases h)
  refine ⟨hi.chain_put habsent, fun x hx hm => ?_, fun x j hx => ?_, hi.apart, fun x => ?_,
    hi.legal_snoc (.push e habsent)⟩
  · have hx' : Function.update m.linker e (some i) x = none := hx
    have hne : x ≠ e := by
      rintro rfl
      rw [Function.update_self] at hx'
      cases hx'
    rw [Function.update_of_ne hne] at hx'
    show m.next x = Function.update m.below e m.head x
    rw [Function.update_of_ne hne]
    exact hi.linked x hx' ((List.mem_cons.mp hm).resolve_left hne)
  · have hx' : Function.update m.linker e (some i) x = some j := hx
    by_cases hne : x = e
    · subst hne
      rw [Function.update_self] at hx'
      cases hx'
      exact ⟨List.mem_cons_self, pushing⟩
    · rw [Function.update_of_ne hne] at hx'
      obtain ⟨hmem, hpushing⟩ := hi.linking x j hx'
      exact ⟨List.mem_cons_of_mem _ hmem, hpushing⟩
  · show Function.update m.place e .inside x = .inside ↔ x ∈ e :: m.contents
    rw [List.mem_cons]
    exact Places.arrive hi.inside x

/-- The `next` of an entry on the stack comes to be what was at `head` before it. -/
theorem Inv.link (hi : Inv m) (linker : ∀ x, m.linker x = some i ↔ e = x) :
    Inv (m.link i e (m.below e)) := by
  refine { hi with linked := fun x hx hm => ?_, linking := fun x j hx => ?_, apart := ?_ }
  · show Function.update m.next e (m.below e) x = m.below x
    by_cases hne : x = e
    · rw [hne, Function.update_self]
    · rw [Function.update_of_ne hne]
      exact hi.linked x ((Function.update_of_ne hne _ _).symm.trans hx) hm
  · have hx' : Function.update m.linker e none x = some j := hx
    have hne : x ≠ e := by
      rintro rfl
      rw [Function.update_self] at hx'
      cases hx'
    rw [Function.update_of_ne hne] at hx'
    obtain ⟨hmem, hpushing⟩ := hi.linking x j hx'
    have hj : j ≠ i := by
      rintro rfl
      exact hne ((linker x).mp hx').symm
    exact ⟨hmem, (Function.update_of_ne hj _ _).trans hpushing⟩
  · intro j hj k
    show Function.update m.pushing i false k = false
    by_cases hk : k = i
    · rw [hk, Function.update_self]
    · rw [Function.update_of_ne hk]
      exact hi.apart j hj k

omit [DecidableEq N] in
theorem Inv.finish (hi : Inv m) {op : Op N} (legal : Next m.contents op m.contents) :
    Inv (m.finish i op) :=
  { hi with apart := fun _ h => (by cases h), legal := hi.legal_snoc legal }

/-- An entry whose `next` is what is at `head` comes to `head`. -/
theorem Inv.put (hi : Inv m) (held : m.place e = .held i) (mine : m.alone = some i)
    (linked : m.next e = m.head) : Inv ((m.put e).finish i (.push e)) := by
  have habsent : e ∉ m.contents := hi.not_mem held (fun h => by cases h)
  refine ⟨hi.chain_put habsent, fun x hx hm => ?_, fun x j hx => ?_, fun _ h => (by cases h),
    fun x => ?_, hi.legal_snoc (.push e habsent)⟩
  · show m.next x = Function.update m.below e m.head x
    by_cases hne : x = e
    · rw [hne, Function.update_self, linked]
    · rw [Function.update_of_ne hne]
      exact hi.linked x hx ((List.mem_cons.mp hm).resolve_left hne)
  · cases (hi.settled mine x).symm.trans hx
  · show Function.update m.place e .inside x = .inside ↔ x ∈ e :: m.contents
    rw [List.mem_cons]
    exact Places.arrive hi.inside x

/-- The entry at the top leaves, and what follows it stays. -/
theorem Inv.take (hi : Inv m) (mine : m.alone = some i) (top : m.head = some e) :
    Inv ((m.take e (m.next e)).finish i (.pop (some e))) := by
  obtain ⟨rest, hcontents, hchain⟩ := hi.top top
  have htail : m.contents.tail = rest := by rw [hcontents]; rfl
  have hnodup := hi.nodup
  rw [hcontents] at hnodup
  obtain ⟨hout, -⟩ := List.nodup_cons.mp hnodup
  have hnext : m.next e = m.below e :=
    hi.linked e (hi.settled mine e) (hcontents ▸ List.mem_cons_self)
  refine ⟨?_, fun x hx hm => ?_, fun x j hx => ?_, fun _ h => (by cases h), fun x => ?_,
    hi.legal_snoc ?_⟩
  · show Chain m.below (m.next e) m.contents.tail
    rw [htail, hnext]
    exact hchain
  · exact hi.linked x hx (List.mem_of_mem_tail hm)
  · cases (hi.settled mine x).symm.trans hx
  · show Function.update m.place e .outside x = .inside ↔ x ∈ m.contents.tail
    rw [Places.depart (q := .outside) hi.inside (fun h => by cases h), htail, hcontents,
      List.mem_cons]
    refine ⟨fun h => h.2.resolve_left h.1, fun hm => ⟨?_, .inr hm⟩⟩
    rintro rfl
    exact hout hm
  · show Next m.contents _ m.contents.tail
    rw [htail, hcontents]
    exact .pop e rest

/-- All entries leave. -/
theorem Inv.clear (hi : Inv m) (mine : m.alone = some i) :
    Inv (m.clear.finish i (.popAll m.contents)) := by
  refine ⟨rfl, fun x _ hm => absurd hm List.not_mem_nil, fun x j hx => ?_,
    fun _ h => (by cases h), fun x => ?_, hi.legal_snoc (.popAll _)⟩
  · cases (hi.settled mine x).symm.trans hx
  · show (if x ∈ m.contents then Place.outside else m.place x) = .inside ↔ x ∈ []
    by_cases hx : x ∈ m.contents
    · simp [hx]
    · simp [hx, hi.inside]

theorem Change.inv (hi : Inv m) (h : Change i m m') : Inv m' := by
  cases h with
  | stay => exact hi
  | join e outside free => exact hi.join outside free
  | hold e outside quiet =>
    exact (hi.move outside (fun h => by cases h) (fun h => by cases h)).enter quiet
  | enter quiet => exact hi.enter quiet
  | store e v held => exact hi.store held v
  | swap e held pushing => exact hi.swap held pushing
  | link e linker => exact hi.link linker
  | put e held mine linked => exact hi.put held mine linked
  | empty top => exact hi.finish (top ▸ .empty)
  | take n mine top => exact hi.take mine top
  | clear mine => exact hi.clear mine

/-! ### What the other threads can rely on -/

theorem Change.pushing (h : Change i m m') (hj : j ≠ i) : m'.pushing j = m.pushing j := by
  cases h with
  | join | link => exact Function.update_of_ne hj _ _
  | _ => rfl

/-- Nobody else comes to have the stack for itself. -/
theorem Change.calm (h : Change i m m') (hj : j ≠ i) (hcalm : m.alone ≠ some j) :
    m'.alone ≠ some j := by
  cases h with
  | hold | enter => exact fun he => hj (Option.some.inj he).symm
  | put | empty | take | clear => exact fun he => by cases he
  | _ => exact hcalm

theorem Change.held (hi : Inv m) (h : Change i m m') (hj : j ≠ i) (he : m.place x = .held j) :
    m'.place x = .held j := by
  have hne : ∀ {y}, m.place y = .held i → m.place y ≠ .held j := by
    intro y hy hy'
    cases hy.symm.trans hy'
    exact hj rfl
  cases h with
  | join e outside => exact Places.stays he (outside ▸ fun h => by cases h)
  | hold e outside => exact Places.stays he (outside ▸ fun h => by cases h)
  | swap e held => exact Places.stays he (hne held)
  | put e held => exact Places.stays he (hne held)
  | take n mine top =>
    obtain ⟨rest, hcontents, -⟩ := hi.top top
    have hin : m.place n = .inside := (hi.inside n).mpr (hcontents ▸ List.mem_cons_self)
    exact Places.stays he (hin ▸ fun h => by cases h)
  | clear =>
    show (if x ∈ m.contents then Place.outside else m.place x) = _
    rw [if_neg (hi.not_mem he (fun h => by cases h)), he]
  | stay | enter | store | link | empty => exact he

theorem Change.linker (hi : Inv m) (h : Change i m m') (hj : j ≠ i) :
    m'.linker x = some j ↔ m.linker x = some j := by
  cases h with
  | swap e held =>
    show Function.update m.linker e (some i) x = some j ↔ _
    by_cases hx : x = e
    · subst hx
      rw [Function.update_self]
      refine ⟨fun he => absurd (Option.some.inj he).symm hj, fun he => ?_⟩
      exact absurd (hi.linking x j he).1 (hi.not_mem held (fun h => by cases h))
    · rw [Function.update_of_ne hx]
  | link e linker =>
    show Function.update m.linker e none x = some j ↔ _
    by_cases hx : x = e
    · subst hx
      rw [Function.update_self, (linker x).mpr rfl]
      exact ⟨fun he => (by cases he), fun he => absurd (Option.some.inj he).symm hj⟩
    · rw [Function.update_of_ne hx]
  | _ => exact Iff.rfl

theorem Change.below (hi : Inv m) (h : Change i m m') (hx : m.linker x = some j) :
    m'.below x = m.below x := by
  have hne : ∀ {y}, m.place y = .held i → x ≠ y := by
    rintro y hy rfl
    exact hi.not_mem hy (fun h => by cases h) (hi.linking x j hx).1
  cases h with
  | swap e held | put e held => exact Function.update_of_ne (hne held) _ _
  | _ => rfl

/-- Nobody else writes to an entry that a thread has yet to push, or to link. -/
theorem Change.next (hi : Inv m) (h : Change i m m') (hj : j ≠ i)
    (hx : m.place x = .held j ∨ m.linker x = some j) : m'.next x = m.next x := by
  cases h with
  | store e v held =>
    have hne : x ≠ e := by
      rintro rfl
      rcases hx with hx | hx
      · cases held.symm.trans hx
        exact hj rfl
      · exact hi.not_mem held (fun h => by cases h) (hi.linking x j hx).1
    exact Function.update_of_ne hne _ _
  | link e linker =>
    have hlinker := (linker e).mpr rfl
    have hne : x ≠ e := by
      rintro rfl
      rcases hx with hx | hx
      · exact hi.not_mem hx (fun h => by cases h) (hi.linking x i hlinker).1
      · exact hj (Option.some.inj (hx.symm.trans hlinker))
    exact Function.update_of_ne hne _ _
  | _ => rfl

theorem Change.consistent (h : Change i m m') (hj : j ≠ i) {p : Option (Op N)}
    (hp : m.history.Consistent j p) : m'.history.Consistent j p := by
  cases h with
  | swap => exact hp.other_effect hj
  | link => exact hp.other_complete hj
  | put | empty | take | clear => exact (hp.other_effect hj).other_complete hj
  | stay | join | hold | enter | store => exact hp

/-- While a thread makes a step no other one has the stack for itself. -/
theorem Change.frame (hi : Inv m) (h : Change i m m') (hcalm : ∀ j ≠ i, m.alone ≠ some j) :
    Frame i m m' where
  pushing _ hj := h.pushing hj
  calm j hj := ⟨hcalm j hj, h.calm hj (hcalm j hj)⟩
  held _ hj _ := h.held hi hj
  linker _ hj _ := h.linker hi hj
  below _ _ _ := h.below hi
  next _ hj _ := h.next hi hj
  consistent _ hj _ := h.consistent hj

/-! ### The steps -/

/-- The outcome of a step: a change of the stack, and what the thread knows afterwards. -/
def Leads (i : ι) (m : Mem N ι) (r : Mem N ι × Pc N) : Prop := Change i m r.1 ∧ At i r.1 r.2

/-- A call that goes on without a change of the stack. -/
theorem At.goes (hat : At i m pc) (hpushes : pc'.pushes = pc.pushes) (halone : pc'.alone = pc.alone)
    (hlinking : pc'.linking = pc.linking) (hknows : Knows i m pc') : Leads i m (m, pc') := by
  refine ⟨.stay, hat.pushing.trans hpushes.symm, ?_, fun x => ?_, ?_, hknows⟩
  · rw [halone]
    exact hat.alone
  · rw [hlinking]
    exact hat.linker x
  · unfold Pc.pending
    rw [hlinking]
    exact hat.consistent

omit [DecidableEq N] in
/-- The function that runs alone returns. -/
theorem At.returns (hat : At i m pc) (hpushes : pc.pushes = false) (hlinking : pc.linking = none)
    (m₁ : Mem N ι) (hp : m₁.pushing = m.pushing) (hl : m₁.linker = m.linker)
    (hh : m₁.history = m.history) (op : Op N) : At i (m₁.finish i op) (.done op) := by
  refine ⟨?_, ⟨fun h => (by cases h), fun h => by cases h⟩, fun x => ?_, ?_, trivial⟩
  · exact (congrFun hp i).trans (hat.pushing.trans hpushes)
  · refine Iff.trans ?_ ((hat.linker x).trans ?_)
    · exact Eq.congr_left (congrFun hl x)
    · rw [hlinking]
      exact ⟨fun h => (by cases h), fun h => by cases h⟩
  · have hc := hat.consistent
    unfold Pc.pending at hc
    rw [hlinking] at hc
    show ((m₁.history.effect i op).complete i op).Consistent i none
    rw [hh]
    exact hc.effect.complete

theorem swap_leads (hat : At i m (.mpncSwap e)) : Leads i m (m.act i (.mpncSwap e)) := by
  refine ⟨.swap e hat.knows.1 hat.pushing, hat.pushing, hat.alone, fun x => ?_,
    hat.consistent.effect, Function.update_self _ _ _, hat.knows.2⟩
  show Function.update m.linker e (some i) x = some i ↔ some e = some x
  by_cases hx : x = e
  · simp [hx]
  · rw [Function.update_of_ne hx, hat.linker]
    exact ⟨fun h => (by cases h), fun h => absurd (Option.some.inj h).symm hx⟩

theorem link_leads {stack : Option N} (hat : At i m (.mpncLink e stack)) :
    Leads i m (m.act i (.mpncLink e stack)) := by
  have hlinker : ∀ x, m.linker x = some i ↔ e = x := fun x =>
    (hat.linker x).trans (Option.some.injEq e x ▸ Iff.rfl)
  have hbelow : m.below e = stack := hat.knows.1
  subst hbelow
  refine ⟨.link e hlinker, Function.update_self _ _ _, hat.alone, fun x => ?_,
    hat.consistent.complete, trivial⟩
  show Function.update m.linker e none x = some i ↔ none = some x
  by_cases hx : x = e
  · simp [hx]
  · rw [Function.update_of_ne hx, hlinker]
    exact ⟨fun h => absurd h.symm hx, fun h => by cases h⟩

/-- One access of a thread. -/
theorem act_leads (hi : Inv m) (running : ¬ pc.Resting) (hat : At i m pc) :
    Leads i m (m.act i pc) := by
  have hknows := hat.knows
  cases pc with
  | mpncClear e => exact ⟨.store e none hknows, hat.pushing, hat.alone, hat.linker,
      hat.consistent, hknows, Function.update_self _ _ _⟩
  | mpncSwap e => exact swap_leads hat
  | mpncLink e stack => exact link_leads hat
  | spncLoad e => exact hat.goes rfl rfl rfl ⟨hknows, rfl⟩
  | spncNext e stack =>
    obtain ⟨hheld, rfl⟩ := hknows
    exact ⟨.store e m.head hheld, hat.pushing, hat.alone, hat.linker, hat.consistent, hheld,
      Function.update_self _ _ _⟩
  | spncHead e =>
    exact ⟨.put e hknows.1 (hat.alone.mpr rfl) hknows.2,
      hat.returns rfl rfl (m.put e) rfl rfl rfl _⟩
  | npscTest =>
    unfold Mem.act
    dsimp only
    split
    · next h => exact ⟨.empty (hi.empty h), hat.returns rfl rfl m rfl rfl rfl _⟩
    · next h => exact hat.goes rfl rfl rfl h
  | npscLoad => exact hat.goes rfl rfl rfl ⟨hknows, rfl⟩
  | npscNext n =>
    cases n with
    | none => exact absurd rfl hknows.1
    | some n => exact hat.goes rfl rfl rfl ⟨hknows.2.symm, rfl⟩
  | npscHead n next =>
    obtain ⟨htop, rfl⟩ := hknows
    exact ⟨.take n (hat.alone.mpr rfl) htop,
      hat.returns rfl rfl (m.take n (m.next n)) rfl rfl rfl _⟩
  | batchLoad => exact hat.goes rfl rfl rfl rfl
  | batchHead n =>
    exact ⟨.clear (hat.alone.mpr rfl), hat.returns rfl rfl m.clear rfl rfl rfl _⟩
  | fault => exact hknows.elim
  | idle => exact absurd trivial running
  | done op => exact absurd trivial running

omit [DecidableEq N] in
/-- A thread between two calls. -/
theorem At.resting (hat : At i m pc) (h : pc.Resting) :
    m.pushing i = false ∧ (∀ x, m.linker x ≠ some i) ∧ m.history.Consistent i none := by
  have hpushing := hat.pushing
  have hlinker := hat.linker
  have hconsistent := hat.consistent
  cases pc with
  | idle | done =>
    refine ⟨hpushing, fun x hx => ?_, hconsistent⟩
    cases (hlinker x).mp hx
  | _ => exact h.elim

/-- A step of thread `i`. -/
theorem step_leads (h : Step i m pc m' pc') (hi : Inv m) (hat : At i m pc) :
    Leads i m (m', pc') := by
  cases h with
  | pushMpnc e resting outside free =>
    obtain ⟨-, hlinker, hconsistent⟩ := hat.resting resting
    refine ⟨.join e outside free, Function.update_self _ _ _,
      ⟨fun h => ?_, fun h => by cases h⟩,
      fun x => ⟨fun h => absurd h (hlinker x), fun h => by cases h⟩, hconsistent,
      Function.update_self _ _ _⟩
    cases free.symm.trans h
  | pushSpnc e resting outside free quiet =>
    obtain ⟨hpushing, hlinker, hconsistent⟩ := hat.resting resting
    exact ⟨.hold e outside quiet, hpushing, ⟨fun _ => rfl, fun _ => rfl⟩,
      fun x => ⟨fun h => absurd h (hlinker x), fun h => by cases h⟩, hconsistent,
      Function.update_self _ _ _⟩
  | popNpsc resting free quiet | batchPopNpsc resting free quiet =>
    obtain ⟨hpushing, hlinker, hconsistent⟩ := hat.resting resting
    exact ⟨.enter quiet, hpushing, ⟨fun _ => rfl, fun _ => rfl⟩,
      fun x => ⟨fun h => absurd h (hlinker x), fun h => by cases h⟩, hconsistent, trivial⟩
  | act running => exact act_leads hi running hat

/-- While a thread makes a step no other one has the stack for itself. -/
theorem step_calm (h : Step i m pc m' pc') (hi : Inv m) (hat : At i m pc) (hj : j ≠ i) :
    m.alone ≠ some j := by
  intro halone
  cases h with
  | pushMpnc e resting outside free => cases free.symm.trans halone
  | pushSpnc e resting outside free => cases free.symm.trans halone
  | popNpsc resting free => cases free.symm.trans halone
  | batchPopNpsc resting free => cases free.symm.trans halone
  | act running =>
    by_cases hpc : pc.alone = true
    · cases (hat.alone.mpr hpc).symm.trans halone
      exact hj rfl
    · have hpushes : pc.pushes = true := by
        cases pc with
        | mpncClear | mpncSwap | mpncLink => rfl
        | idle | done => exact absurd trivial running
        | _ => exact absurd rfl hpc
      cases (hi.apart j halone i).symm.trans (hat.pushing.trans hpushes)

theorem invariant : Invariant (Step (N := N) (ι := ι)) (fun _ _ _ => True) Inv At where
  own hstep _ hi hat := by
    obtain ⟨hch, hat'⟩ := step_leads hstep hi hat
    exact ⟨hch.inv hi, hat'⟩
  other hstep _ hi hat := by
    intro j q hj hq
    refine hq.frame ((step_leads hstep hi hat).1.frame hi fun k hk => ?_) hj
    exact step_calm hstep hi hat hk

/-! ## Runs -/

/-- What holds at every moment of a run. -/
structure IsStack (s : System (Mem N ι) (Pc N) ι) : Prop where
  legal : Legal Next [] (s.mem.history.events.map Prod.snd) s.mem.contents
  /-- The operations of a thread take effect in the order of its calls, before they return. -/
  consistent : ∀ i, s.mem.history.Consistent i (s.pc i).pending
  /-- Following `next` from `head` gives what is on the stack, as soon as nobody has an entry whose
  `next` is yet to be stored. -/
  chain : (∀ i, (s.pc i).linking = none) → Chain s.mem.next s.mem.head s.mem.contents
  /-- The chain has no gaps but at the entries whose `next` is yet to be stored. -/
  gaps : ∀ front x back, s.mem.contents = front ++ x :: back →
    (∀ i, (s.pc i).linking ≠ some x) → s.mem.next x = back.head?
  /-- There it ends. -/
  ends : ∀ i x, (s.pc i).linking = some x → x ∈ s.mem.contents ∧ s.mem.next x = none
  /-- The chain that `ck_stack_batch_pop_npsc` returns is what is on the stack. -/
  batch : ∀ i n, s.pc i = .batchHead n → Chain s.mem.next n s.mem.contents
  /-- No `next` of a null pointer is loaded. -/
  sound : ∀ i, s.pc i ≠ .fault
  /-- Between two operations that return an entry it is pushed. -/
  once : ∀ x front first mid second back,
    s.mem.history.events.map Prod.snd = front ++ first :: (mid ++ second :: back) →
    first.Returns x → second.Returns x → .push x ∈ mid
  /-- An entry that has been pushed and not been returned since is on the stack. -/
  kept : ∀ x front back, s.mem.history.events.map Prod.snd = front ++ .push x :: back →
    (∀ op ∈ back, ¬ op.Returns x) → x ∈ s.mem.contents

theorem act_resting (h : pc.Resting) : m.act i pc = (m, pc) := by
  cases pc <;> first | rfl | exact h.elim

/-- A thread makes `n` accesses of its call. -/
theorem acts_reachable {next : N → Option N} {s : System (Mem N ι) (Pc N) ι}
    (hr : System.Reachable Step (fun _ _ _ => True) (start next) s) (i : ι) (n : Nat) :
    System.Reachable Step (fun _ _ _ => True) (start next) (s.acts Mem.act i n) := by
  refine System.Reachable.acts hr i n (fun k hk m pc _ _ => ?_) fun k hk j => trivial
  by_cases h : pc.Resting
  · exact .inl (act_resting h)
  · exact .inr (.act h)

end Changes

end ConcurrencyKit.Stack.Exclusive
