import ConcurrencyKit.Misc.Lifo
import ConcurrencyKit.Misc.Places
import ConcurrencyKit.Misc.Threads
import ConcurrencyKit.Stack.Model

/-!
# The stack without a generation

`ck_stack_push_upmc`, `ck_stack_pop_upmc` and their kin compare and swap `head` alone
(`include/ck_stack.h:50-158`). An entry that has been popped is pushed again only after a grace
period: the pop operations that were going on when it was popped have come to their end. So a pop
that has loaded an entry from `head` and finds it there again has had it on the stack meanwhile.

Next to the memory a `Mem` keeps what is on the stack, where each entry is, which threads are in a
pop operation, and for which of them an entry that has been popped has to wait.
-/

namespace ConcurrencyKit.Stack.Grace

open Lifo (Op Next Chain)
open Linear (Legal)
open Threads (Invariant System)

/-- Where an entry is. -/
inductive Place (ι : Type) where
  | outside
  /-- Thread `i` is about to push it. -/
  | held (i : ι)
  | inside
  /-- It has been popped, and its grace period has not been found to be over. -/
  | retired
  deriving DecidableEq, Repr

/-- `struct ck_stack` and its entries, and the history of their use. -/
structure Mem (N ι : Type) where
  next : N → Option N
  head : Option N
  /-- What is on the stack, from the top. -/
  contents : List N
  place : N → Place ι
  /-- The thread is in a pop operation. -/
  popping : ι → Bool
  /-- The pop operation has gone on since the entry was popped. -/
  awaited : N → ι → Bool
  events : List (ι × Op N)

/-- The pop operations: until it succeeds or the stack is empty, or one attempt. -/
inductive Popper where
  | pop
  | tryPop
  deriving DecidableEq, Repr

/-- Where a thread stands, with the local variables that are live. -/
inductive Pc (N : Type) where
  | idle
  | pushHead (k : Pusher) (entry : N)
  | pushNext (k : Pusher) (entry : N) (stack : Option N)
  | pushCas (k : Pusher) (entry : N) (stack : Option N)
  | popHead (k : Popper)
  | popNext (k : Popper) (entry : N)
  | popCas (k : Popper) (entry : N) (next : Option N)
  | batchPop
  | done (op : Op N)

variable {N ι : Type}

/-- The thread is between two calls. -/
def Pc.Resting : Pc N → Prop
  | .idle | .done _ => True
  | _ => False

/-- The thread compares and swaps `head` with an entry that it has loaded. -/
def Pc.pops : Pc N → Bool
  | .popHead _ | .popNext _ _ | .popCas _ _ _ => true
  | _ => false

/-- What a pop operation returns that finds the stack empty. -/
def Popper.empty : Popper → Op N
  | .pop => .pop none
  | .tryPop => .miss

namespace Mem

/-- An operation of thread `i` takes effect. -/
def finish (i : ι) (op : Op N) (m : Mem N ι) : Mem N ι :=
  { m with events := m.events ++ [(i, op)] }

section Entries

variable [DecidableEq N]

/-- The place of an entry changes. -/
def move (entry : N) (p : Place ι) (m : Mem N ι) : Mem N ι :=
  { m with place := Function.update m.place entry p }

/-- Write to the `next` of an entry. -/
def storeNext (entry : N) (value : Option N) (m : Mem N ι) : Mem N ι :=
  { m with next := Function.update m.next entry value }

/-- The entry comes to the top of the stack. -/
def put (entry : N) (m : Mem N ι) : Mem N ι :=
  { m with
    head := some entry
    contents := entry :: m.contents
    place := Function.update m.place entry .inside }

/-- The entry leaves the top of the stack. It waits for the pop operations that are going on. -/
def take (entry : N) (next : Option N) (m : Mem N ι) : Mem N ι :=
  { m with
    head := next
    contents := m.contents.tail
    place := Function.update m.place entry .retired
    awaited := Function.update m.awaited entry m.popping }

/-- `ck_pr_fas_ptr(&target->head, NULL)`: all entries leave the stack. -/
def clear (m : Mem N ι) : Mem N ι :=
  { m with
    head := none
    contents := []
    place := fun x => if x ∈ m.contents then .retired else m.place x
    awaited := fun x => if x ∈ m.contents then m.popping else m.awaited x }

end Entries

variable [DecidableEq ι]

/-- Thread `i` begins a pop operation. -/
def enter (i : ι) (m : Mem N ι) : Mem N ι :=
  { m with popping := Function.update m.popping i true }

/-- The pop operation of thread `i` comes to its end. -/
def leave (i : ι) (m : Mem N ι) : Mem N ι :=
  { m with
    popping := Function.update m.popping i false
    awaited := fun x => Function.update (m.awaited x) i false }

/-- A pop operation has loaded `head`. -/
def look (i : ι) (k : Popper) (m : Mem N ι) : Mem N ι × Pc N :=
  match m.head with
  | none => ((m.leave i).finish i k.empty, .done k.empty)
  | some e => (m, .popNext k e)

variable [DecidableEq N]

/-- One access of thread `i`: `ck_stack_push_upmc` and `ck_stack_trypush_upmc`
(`ck_stack.h:53-88`), `ck_stack_pop_upmc` and `ck_stack_trypop_upmc` (`ck_stack.h:95-142`), and
`ck_stack_batch_pop_upmc` (`ck_stack.h:158-166`). -/
def act (i : ι) (m : Mem N ι) : Pc N → Mem N ι × Pc N
  | .pushHead k e => (m, .pushNext k e m.head)
  | .pushNext k e stack => (m.storeNext e stack, .pushCas k e stack)
  | .pushCas k e stack =>
    if m.head = stack then ((m.put e).finish i (.push e), .done (.push e))
    else if k = .tryPush then ((m.move e .outside).finish i .miss, .done .miss)
    else (m, .pushNext k e m.head)
  | .popHead k => m.look i k
  | .popNext k e => (m, .popCas k e (m.next e))
  | .popCas k e n =>
    if m.head = some e then
      (((m.leave i).take e n).finish i (.pop (some e)), .done (.pop (some e)))
    else if k = .tryPop then ((m.leave i).finish i .miss, .done .miss)
    -- a failed compare-and-swap has loaded `head`
    else m.look i k
  | .batchPop => (m.clear.finish i (.popAll m.contents), .done (.popAll m.contents))
  | pc => (m, pc)

end Mem

/-- One step of thread `i`: it calls a function, pushing an entry that is outside the stack, finds
that the grace period of an entry is over, or makes the next access of its call. -/
inductive Step [DecidableEq N] [DecidableEq ι] (i : ι) :
    Mem N ι → Pc N → Mem N ι → Pc N → Prop
  | push {m : Mem N ι} {pc : Pc N} (k : Pusher) (e : N) (resting : pc.Resting)
      (outside : m.place e = .outside) : Step i m pc (m.move e (.held i)) (.pushHead k e)
  | pop {m : Mem N ι} {pc : Pc N} (k : Popper) (resting : pc.Resting) :
      Step i m pc (m.enter i) (.popHead k)
  | batchPop {m : Mem N ι} {pc : Pc N} (resting : pc.Resting) : Step i m pc m .batchPop
  | recycle {m : Mem N ι} {pc : Pc N} (e : N) (resting : pc.Resting)
      (retired : m.place e = .retired) (grace : ∀ j, m.awaited e j = false) :
      Step i m pc (m.move e .outside) pc
  | act {m : Mem N ι} {pc : Pc N} (running : ¬ pc.Resting) :
      Step i m pc (m.act i pc).1 (m.act i pc).2

/-- The stack after `ck_stack_init`, with all threads idle. -/
def start (next : N → Option N) : System (Mem N ι) (Pc N) ι where
  mem :=
    { next := next
      head := none
      contents := []
      place _ := .outside
      popping _ := false
      awaited _ _ := false
      events := [] }
  pc _ := .idle

/-! ## What the stack relies on -/

variable {i j : ι} {m m' : Mem N ι} {e x : N} {n : Option N} {pc pc' : Pc N}

/-- The chain of entries from `head` is what is on the stack. -/
structure Inv (m : Mem N ι) : Prop where
  chain : Chain m.next m.head m.contents
  nodup : m.contents.Nodup
  inside : ∀ x, m.place x = .inside ↔ x ∈ m.contents
  legal : Legal Next [] (m.events.map Prod.snd) m.contents

/-- The pop operation of thread `i` keeps the entry from being pushed. -/
def Keeps (m : Mem N ι) (i : ι) (x : N) : Prop :=
  m.place x = .inside ∨ m.place x = .retired ∧ m.awaited x i = true

/-- What thread `i` knows. -/
def Knows (i : ι) (m : Mem N ι) : Pc N → Prop
  | .pushHead _ e | .pushNext _ e _ => m.place e = .held i
  | .pushCas _ e stack => m.place e = .held i ∧ m.next e = stack
  | .popNext _ e => Keeps m i e
  | .popCas _ e n => Keeps m i e ∧ (e ∈ m.contents → m.next e = n)
  | _ => True

structure At (i : ι) (m : Mem N ι) (pc : Pc N) : Prop where
  popping : m.popping i = pc.pops
  knows : Knows i m pc

/-- What the threads that do not make a step can rely on. -/
structure Frame (i : ι) (m m' : Mem N ι) : Prop where
  popping : ∀ j ≠ i, m'.popping j = m.popping j
  held : ∀ j ≠ i, ∀ e, m.place e = .held j → m'.place e = .held j ∧ m'.next e = m.next e
  keeps : ∀ j ≠ i, m.popping j = true → ∀ x, Keeps m j x → Keeps m' j x
  /-- An entry that nobody is about to push and that is on the stack has been there before. -/
  stays : ∀ x, (∀ j, m.place x ≠ .held j) → x ∈ m'.contents → x ∈ m.contents ∧
    m'.next x = m.next x

theorem Keeps.not_held (h : Keeps m i x) (j : ι) : m.place x ≠ .held j := by
  intro hx
  rcases h with h | ⟨h, -⟩ <;> cases hx.symm.trans h

/-- What a thread knows outlasts the steps of the others. -/
theorem At.frame (h : At j m pc) (hf : Frame i m m') (hj : j ≠ i) : At j m' pc := by
  have hpopping := (hf.popping j hj).trans h.popping
  have hknows := h.knows
  cases pc with
  | pushHead k e => exact ⟨hpopping, (hf.held j hj e hknows).1⟩
  | pushNext k e stack => exact ⟨hpopping, (hf.held j hj e hknows).1⟩
  | pushCas k e stack =>
    obtain ⟨hplace, hnext⟩ := hf.held j hj e hknows.1
    exact ⟨hpopping, hplace, hnext.trans hknows.2⟩
  | popNext k e => exact ⟨hpopping, hf.keeps j hj h.popping e hknows⟩
  | popCas k e n =>
    obtain ⟨hkeeps, hn⟩ := hknows
    refine ⟨hpopping, hf.keeps j hj h.popping e hkeeps, fun hm => ?_⟩
    obtain ⟨hm', hnext⟩ := hf.stays e hkeeps.not_held hm
    exact hnext.trans (hn hm')
  | idle | popHead | batchPop | done => exact ⟨hpopping, trivial⟩

/-- The history with one more operation. -/
theorem Inv.legal_snoc (hi : Inv m) {op : Op N} {contents : List N}
    (h : Next m.contents op contents) :
    Legal Next [] ((m.events ++ [(i, op)]).map Prod.snd) contents := by
  rw [List.map_append]
  exact hi.legal.snoc op h

/-- What a consumer finds at `head`. -/
theorem Inv.top (hi : Inv m) (h : m.head = some e) : ∃ rest, m.contents = e :: rest := by
  have hchain := hi.chain
  rw [h] at hchain
  obtain ⟨rest, he, -⟩ := hchain.cons_of_some
  exact ⟨rest, he⟩

theorem Inv.top_inside (hi : Inv m) (h : m.head = some e) : m.place e = .inside := by
  obtain ⟨rest, he⟩ := hi.top h
  exact (hi.inside e).mpr (he ▸ List.mem_cons_self)

theorem Inv.empty (hi : Inv m) (h : m.head = none) : m.contents = [] := by
  have hchain := hi.chain
  rw [h] at hchain
  exact hchain.nil_of_none

/-! ### The changes of the stack -/

section Changes

variable [DecidableEq N] [DecidableEq ι]

/-- What a step of thread `i` can do to the stack. -/
inductive Change (i : ι) (m : Mem N ι) : Mem N ι → Prop
  | stay : Change i m m
  | hold (e : N) (outside : m.place e = .outside) : Change i m (m.move e (.held i))
  | store (e : N) (v : Option N) (held : m.place e = .held i) : Change i m (m.storeNext e v)
  | put (e : N) (held : m.place e = .held i) (linked : m.next e = m.head) :
      Change i m ((m.put e).finish i (.push e))
  | release (e : N) (held : m.place e = .held i) :
      Change i m ((m.move e .outside).finish i .miss)
  | enter : Change i m (m.enter i)
  | leave (op : Op N) (legal : Next m.contents op m.contents) :
      Change i m ((m.leave i).finish i op)
  | take (h : N) (rest : List N) (top : m.contents = h :: rest) :
      Change i m (((m.leave i).take h (m.next h)).finish i (.pop (some h)))
  | clear : Change i m (m.clear.finish i (.popAll m.contents))
  | recycle (x : N) (retired : m.place x = .retired) (grace : ∀ j, m.awaited x j = false) :
      Change i m (m.move x .outside)

omit [DecidableEq N] [DecidableEq ι] in
/-- An entry that is not inside is not on the stack. -/
theorem Inv.not_mem (hi : Inv m) {p : Place ι} (h : m.place e = p) (hp : p ≠ .inside) :
    e ∉ m.contents :=
  Places.not_mem hi.inside h hp

omit [DecidableEq ι] in
theorem Inv.move {p q : Place ι} (hi : Inv m) (he : m.place e = p) (hp : p ≠ .inside)
    (hq : q ≠ .inside) : Inv (m.move e q) :=
  { hi with inside := Places.elsewhere hi.inside he hp hq }

omit [DecidableEq ι] in
theorem Inv.put (hi : Inv m) (held : m.place e = .held i) (linked : m.next e = m.head) :
    Inv ((m.put e).finish i (.push e)) := by
  have habsent : e ∉ m.contents := hi.not_mem held (fun h => by cases h)
  refine ⟨⟨rfl, ?_⟩, List.nodup_cons.mpr ⟨habsent, hi.nodup⟩, fun x => ?_,
    hi.legal_snoc (.push e habsent)⟩
  · show Chain m.next (m.next e) m.contents
    rw [linked]
    exact hi.chain
  · show Function.update m.place e .inside x = .inside ↔ x ∈ e :: m.contents
    rw [List.mem_cons]
    exact Places.arrive hi.inside x

/-- The entry at the top leaves, and what follows it stays. -/
theorem Inv.take (hi : Inv m) {rest : List N} (top : m.contents = e :: rest) :
    Inv (((m.leave i).take e (m.next e)).finish i (.pop (some e))) := by
  have hchain := hi.chain
  have hnodup := hi.nodup
  rw [top] at hchain hnodup
  obtain ⟨hout, hrest⟩ := List.nodup_cons.mp hnodup
  have htail : m.contents.tail = rest := by rw [top]; rfl
  refine ⟨?_, ?_, fun x => ?_, hi.legal_snoc ?_⟩
  · show Chain m.next (m.next e) m.contents.tail
    rw [htail]
    exact hchain.2
  · show m.contents.tail.Nodup
    rw [htail]
    exact hrest
  · show Function.update m.place e .retired x = .inside ↔ x ∈ m.contents.tail
    rw [Places.depart (q := .retired) hi.inside (fun h => by cases h), htail, top, List.mem_cons]
    refine ⟨fun ⟨hne, hm⟩ => hm.resolve_left hne, fun hm => ⟨?_, .inr hm⟩⟩
    rintro rfl
    exact hout hm
  · show Next m.contents _ m.contents.tail
    rw [htail, top]
    exact .pop e rest

omit [DecidableEq ι] in
/-- All entries leave. -/
theorem Inv.clear (hi : Inv m) : Inv (m.clear.finish i (.popAll m.contents)) := by
  refine ⟨rfl, List.nodup_nil, fun x => ?_, hi.legal_snoc (.popAll _)⟩
  show (if x ∈ m.contents then Place.retired else m.place x) = .inside ↔ x ∈ []
  by_cases hx : x ∈ m.contents
  · simp [hx]
  · simp [hx, hi.inside]

theorem Change.inv (hi : Inv m) (h : Change i m m') : Inv m' := by
  cases h with
  | stay => exact hi
  | hold e outside => exact hi.move outside (fun h => by cases h) (fun h => by cases h)
  | store e v held =>
    exact { hi with chain := hi.chain.update (hi.not_mem held (fun h => by cases h)) v }
  | put e held linked => exact hi.put held linked
  | release e held =>
    have hmove := hi.move (q := .outside) held (fun h => by cases h) (fun h => by cases h)
    exact { hmove with legal := hi.legal_snoc (.miss _) }
  | enter => exact { hi with }
  | leave op legal => exact { hi with legal := hi.legal_snoc legal }
  | take h rest top => exact hi.take top
  | clear => exact hi.clear
  | recycle x retired grace =>
    exact hi.move retired (fun h => by cases h) (fun h => by cases h)

/-! ### What a pop operation keeps from being pushed -/

omit [DecidableEq ι] in
/-- An entry that is neither on the stack nor retired goes to another place. -/
theorem Keeps.move {p q : Place ι} (h : Keeps m j x) (he : m.place e = p) (hin : p ≠ .inside)
    (hret : p ≠ .retired) : Keeps (m.move e q) j x := by
  rcases h with h | ⟨h, ha⟩
  · exact .inl (Places.stays h (he ▸ hin))
  · exact .inr ⟨Places.stays h (he ▸ hret), ha⟩

omit [DecidableEq N] in
/-- Another thread's operation has come to its end. -/
theorem Keeps.leave (h : Keeps m j x) (hj : j ≠ i) : Keeps (m.leave i) j x := by
  rcases h with h | ⟨h, ha⟩
  · exact .inl h
  · exact .inr ⟨h, (Function.update_of_ne hj _ _).trans ha⟩

omit [DecidableEq ι] in
/-- An entry that is popped waits for the operations that are going on. -/
theorem Keeps.take (h : Keeps m j x) (hpop : m.popping j = true) (n : Option N) :
    Keeps (m.take e n) j x := by
  show Function.update m.place e .retired x = .inside ∨
    Function.update m.place e .retired x = .retired ∧
      Function.update m.awaited e m.popping x j = true
  by_cases hx : x = e
  · subst hx
    rw [Function.update_self, Function.update_self]
    exact .inr ⟨rfl, hpop⟩
  · rw [Function.update_of_ne hx, Function.update_of_ne hx]
    exact h

omit [DecidableEq ι] in
theorem Keeps.clear (h : Keeps m j x) (hpop : m.popping j = true) : Keeps m.clear j x := by
  show (if x ∈ m.contents then Place.retired else m.place x) = .inside ∨
    (if x ∈ m.contents then Place.retired else m.place x) = .retired ∧
      (if x ∈ m.contents then m.popping else m.awaited x) j = true
  by_cases hx : x ∈ m.contents
  · simp [hx, hpop]
  · simp only [if_neg hx]
    exact h

omit [DecidableEq ι] in
/-- The grace period of an entry that an operation keeps is not over. -/
theorem Keeps.recycle (h : Keeps m j x) (retired : m.place e = .retired)
    (grace : ∀ j, m.awaited e j = false) : Keeps (m.move e .outside) j x := by
  have hne : x ≠ e := by
    rintro rfl
    rcases h with h | ⟨-, ha⟩
    · cases retired.symm.trans h
    · cases (grace j).symm.trans ha
  show Function.update m.place e .outside x = .inside ∨
    Function.update m.place e .outside x = .retired ∧ m.awaited x j = true
  rw [Function.update_of_ne hne]
  exact h

theorem Change.keeps (h : Change i m m') (hj : j ≠ i) (hpop : m.popping j = true)
    (hk : Keeps m j x) : Keeps m' j x := by
  cases h with
  | stay => exact hk
  | hold e outside => exact hk.move outside (fun h => by cases h) (fun h => by cases h)
  | store e v held => exact hk
  | put e held linked =>
    exact hk.move (q := .inside) held (fun h => by cases h) (fun h => by cases h)
  | release e held =>
    exact hk.move (q := .outside) held (fun h => by cases h) (fun h => by cases h)
  | enter => exact hk
  | leave op legal => exact hk.leave hj
  | take h rest top =>
    have hpop' : (m.leave i).popping j = true := (Function.update_of_ne hj _ _).trans hpop
    exact (hk.leave hj).take hpop' (m.next h)
  | clear => exact hk.clear hpop
  | recycle y retired grace => exact hk.recycle retired grace

/-! ### What the other threads can rely on -/

omit [DecidableEq N] [DecidableEq ι] in
theorem held_ne (hj : j ≠ i) (h : m.place e = .held i) : m.place e ≠ .held j := by
  intro he
  cases h.symm.trans he
  exact hj rfl

theorem Change.popping (h : Change i m m') (hj : j ≠ i) : m'.popping j = m.popping j := by
  cases h with
  | enter | leave | take => exact Function.update_of_ne hj _ _
  | _ => rfl

/-- What another thread is about to push stays in its hands. -/
theorem Change.held (hi : Inv m) (h : Change i m m') (hj : j ≠ i) (he : m.place x = .held j) :
    m'.place x = .held j ∧ m'.next x = m.next x := by
  cases h with
  | hold e outside => exact ⟨Places.stays he (outside ▸ fun h => by cases h), rfl⟩
  | store e v held =>
    refine ⟨he, Function.update_of_ne ?_ _ _⟩
    rintro rfl
    exact held_ne hj held he
  | put e held linked => exact ⟨Places.stays he (held_ne hj held), rfl⟩
  | release e held => exact ⟨Places.stays he (held_ne hj held), rfl⟩
  | take h rest top =>
    have hin : m.place h = .inside := (hi.inside h).mpr (top ▸ List.mem_cons_self)
    exact ⟨Places.stays he (hin ▸ fun h => by cases h), rfl⟩
  | clear =>
    refine ⟨?_, rfl⟩
    show (if x ∈ m.contents then Place.retired else m.place x) = _
    rw [if_neg (hi.not_mem he (fun h => by cases h)), he]
  | recycle y retired grace => exact ⟨Places.stays he (retired ▸ fun h => by cases h), rfl⟩
  | stay | enter | leave => exact ⟨he, rfl⟩

/-- An entry comes to the stack only through the thread that is about to push it. -/
theorem Change.stays (h : Change i m m') (hx : ∀ j, m.place x ≠ .held j)
    (hm : x ∈ m'.contents) : x ∈ m.contents ∧ m'.next x = m.next x := by
  cases h with
  | store e v held =>
    refine ⟨hm, Function.update_of_ne ?_ _ _⟩
    rintro rfl
    exact hx i held
  | put e held linked =>
    refine ⟨(List.mem_cons.mp hm).resolve_left ?_, rfl⟩
    rintro rfl
    exact hx i held
  | take h rest top => exact ⟨List.mem_of_mem_tail hm, rfl⟩
  | clear => exact absurd hm List.not_mem_nil
  | _ => exact ⟨hm, rfl⟩

theorem Change.frame (hi : Inv m) (h : Change i m m') : Frame i m m' where
  popping _ hj := h.popping hj
  held _ hj _ := h.held hi hj
  keeps _ hj hpop _ := h.keeps hj hpop
  stays _ := h.stays

/-! ### The steps -/

/-- The outcome of an access: a change of the stack, and what the thread knows afterwards. -/
def Leads (i : ι) (m : Mem N ι) (r : Mem N ι × Pc N) : Prop := Change i m r.1 ∧ At i r.1 r.2

omit [DecidableEq N] in
theorem leave_popping : (m.leave i).popping i = false := Function.update_self _ _ _

/-- A pop operation that has loaded `head`. -/
theorem look_leads (hi : Inv m) (k : Popper) (hpop : m.popping i = true) :
    Leads i m (m.look i k) := by
  unfold Mem.look
  cases h : m.head with
  | none =>
    refine ⟨.leave _ ?_, leave_popping, trivial⟩
    cases k with
    | pop => exact hi.empty h ▸ .empty
    | tryPop => exact .miss _
  | some e => exact ⟨.stay, hpop, .inl (hi.top_inside h)⟩

theorem pushCas_leads {k : Pusher} {stack : Option N} (hat : At i m (.pushCas k e stack)) :
    Leads i m (m.act i (.pushCas k e stack)) := by
  obtain ⟨hpop, hheld, hnext⟩ := hat
  unfold Mem.act
  dsimp only
  split
  · next he => exact ⟨.put e hheld (hnext.trans he.symm), hpop, trivial⟩
  · split
    · exact ⟨.release e hheld, hpop, trivial⟩
    · exact ⟨.stay, hpop, hheld⟩

/-- The compare-and-swap that takes an entry. -/
theorem popCas_leads (hi : Inv m) {k : Popper} (hat : At i m (.popCas k e n)) :
    Leads i m (m.act i (.popCas k e n)) := by
  obtain ⟨hpop, -, hn⟩ := hat
  unfold Mem.act
  dsimp only
  split
  · next h =>
    obtain ⟨rest, htop⟩ := hi.top h
    have hnext : m.next e = n := hn (htop ▸ List.mem_cons_self)
    subst hnext
    exact ⟨.take e rest htop, leave_popping, trivial⟩
  · split
    · exact ⟨.leave _ (.miss _), leave_popping, trivial⟩
    · exact look_leads hi k hpop

/-- One access of a thread. -/
theorem act_leads (hi : Inv m) (running : ¬ pc.Resting) (hat : At i m pc) :
    Leads i m (m.act i pc) := by
  have hpop := hat.popping
  have hknows := hat.knows
  cases pc with
  | pushHead k e => exact ⟨.stay, hpop, hknows⟩
  | pushNext k e stack =>
    exact ⟨.store e stack hknows, hpop, hknows, Function.update_self _ _ _⟩
  | pushCas k e stack => exact pushCas_leads hat
  | popHead k => exact look_leads hi k hpop
  | popNext k e => exact ⟨.stay, hpop, hknows, fun _ => rfl⟩
  | popCas k e n => exact popCas_leads hi hat
  | batchPop => exact ⟨.clear, hpop, trivial⟩
  | idle => exact absurd trivial running
  | done op => exact absurd trivial running

omit [DecidableEq N] [DecidableEq ι] in
/-- A thread between two calls is not in a pop operation. -/
theorem At.resting (hat : At i m pc) (h : pc.Resting) : m.popping i = false := by
  have hpop := hat.popping
  cases pc <;> first | exact hpop | exact h.elim

omit [DecidableEq N] [DecidableEq ι] in
theorem At.rests (hpop : m.popping i = false) (h : pc.Resting) : At i m pc := by
  cases pc <;> first | exact ⟨hpop, trivial⟩ | exact h.elim

/-- A step of thread `i`. -/
theorem step_leads (h : Step i m pc m' pc') (hi : Inv m) (hat : At i m pc) :
    Leads i m (m', pc') := by
  cases h with
  | push k e resting outside =>
    exact ⟨.hold e outside, hat.resting resting, Function.update_self _ _ _⟩
  | pop k resting => exact ⟨.enter, Function.update_self _ _ _, trivial⟩
  | batchPop resting => exact ⟨.stay, hat.resting resting, trivial⟩
  | recycle x resting retired grace =>
    exact ⟨.recycle x retired grace, .rests (hat.resting resting) resting⟩
  | act running => exact act_leads hi running hat

theorem invariant : Invariant (Step (N := N) (ι := ι)) (fun _ _ _ => True) Inv At where
  own hstep _ hi hat := by
    obtain ⟨hch, hat'⟩ := step_leads hstep hi hat
    exact ⟨hch.inv hi, hat'⟩
  other hstep _ hi hat := by
    intro j q hj hq
    exact hq.frame ((step_leads hstep hi hat).1.frame hi) hj

/-! ## Runs -/

/-- A thread that comes to rest has finished an operation; in all other steps none takes effect. -/
def Records (i : ι) (m m' : Mem N ι) (pc pc' : Pc N) : Prop :=
  (∃ op, ¬ pc.Resting ∧ pc' = .done op ∧ m'.events = m.events ++ [(i, op)]) ∨
    (pc'.Resting → pc' = pc) ∧ m'.events = m.events

/-- The outcome of a call's access: it is over, with an operation that has taken effect, or it
goes on. -/
theorem act_records (running : ¬ pc.Resting) :
    Records i m (m.act i pc).1 pc (m.act i pc).2 := by
  cases pc with
  | idle | done => exact absurd trivial running
  | pushHead | pushNext | popNext => exact .inr ⟨False.elim, rfl⟩
  | batchPop => exact .inl ⟨_, id, rfl, rfl⟩
  | pushCas k e stack =>
    unfold Mem.act
    dsimp only
    split
    · exact .inl ⟨_, id, rfl, rfl⟩
    · split
      · exact .inl ⟨_, id, rfl, rfl⟩
      · exact .inr ⟨False.elim, rfl⟩
  | popHead k =>
    unfold Mem.act Mem.look
    dsimp only
    split
    · exact .inl ⟨_, id, rfl, rfl⟩
    · exact .inr ⟨False.elim, rfl⟩
  | popCas k e n =>
    unfold Mem.act Mem.look
    dsimp only
    split
    · exact .inl ⟨_, id, rfl, rfl⟩
    · split
      · exact .inl ⟨_, id, rfl, rfl⟩
      · split
        · exact .inl ⟨_, id, rfl, rfl⟩
        · exact .inr ⟨False.elim, rfl⟩

/-- Every operation takes effect once, in the step in which it returns. -/
theorem step_records (h : Step i m pc m' pc') : Records i m m' pc pc' := by
  cases h with
  | push | pop | batchPop => exact .inr ⟨False.elim, rfl⟩
  | recycle => exact .inr ⟨fun _ => rfl, rfl⟩
  | act running => exact act_records running

/-- What holds at every moment of a run. -/
structure IsStack (s : System (Mem N ι) (Pc N) ι) : Prop where
  legal : Legal Next [] (s.mem.events.map Prod.snd) s.mem.contents
  /-- Following `next` from `head` gives what is on the stack. -/
  chain : Chain s.mem.next s.mem.head s.mem.contents
  nodup : s.mem.contents.Nodup
  /-- Between two operations that return an entry it is pushed. -/
  once : ∀ x front first mid second back,
    s.mem.events.map Prod.snd = front ++ first :: (mid ++ second :: back) →
    first.Returns x → second.Returns x → .push x ∈ mid
  /-- An entry that has been pushed and not been returned since is on the stack. -/
  kept : ∀ x front back, s.mem.events.map Prod.snd = front ++ .push x :: back →
    (∀ op ∈ back, ¬ op.Returns x) → x ∈ s.mem.contents
  records : ∀ i m' pc', Step i s.mem (s.pc i) m' pc' → Records i s.mem m' (s.pc i) pc'
  /-- A compare-and-swap that is about to take an entry has the `next` of the entry. -/
  sound : ∀ i k e n, s.pc i = .popCas k e n → s.mem.head = some e → s.mem.next e = n
  /-- The entry that a pop operation has loaded is not pushed meanwhile. -/
  unheld : ∀ i k e, s.pc i = .popNext k e → ∀ j, s.mem.place e ≠ .held j

theorem act_resting (h : pc.Resting) : m.act i pc = (m, pc) := by
  cases pc <;> first | rfl | exact h.elim

/-- A thread makes `n` accesses of its call. -/
theorem acts_reachable {next : N → Option N} {s : System (Mem N ι) (Pc N) ι}
    (hr : System.Reachable Step (fun _ _ _ => True) (start next) s) (i : ι) (n : Nat) :
    System.Reachable Step (fun _ _ _ => True) (start next) (s.acts Mem.act i n) := by
  refine System.Reachable.acts hr i n (fun k hk m pc _ _ => ?_) fun k hk j => trivial
  by_cases h : pc.Resting
  · exact .inl (act_resting h)
  · exact .inr (.act h)

end Changes

end ConcurrencyKit.Stack.Grace
