import ConcurrencyKit.HpFifo.Model
import ConcurrencyKit.Misc.Places

/-!
# What the queue of `ck_hp_fifo` relies on

A thread that has stored a node in a hazard slot and then found it in the queue is its `Guard`:
until the slot is overwritten the node is not enqueued again, so it stays at its position, or is
retired and keeps its `next` and its value. A pointer that is compared with `head` or `tail`
then stands for one position of the sequence of nodes.
-/

namespace ConcurrencyKit.HpFifo

open Linear (History Legal)
open Queue (Op)
open Threads (Invariant System)

variable {N V ι : Type}

/-- The values in the queue, oldest first. -/
def contents (m : Mem N V ι) : List V := m.nodes.contents m.filed

/-- The nodes from `head` on are linked and `tail` is one of the last two. -/
structure Core (m : Mem N V ι) : Prop where
  valid : m.nodes.Valid
  linked : m.nodes.Linked m.next
  head : m.head = some (m.nodes.seq m.nodes.first)
  tail : m.tail = some (m.nodes.seq m.tailPos)
  first_le : m.nodes.first ≤ m.tailPos
  tail_le : m.tailPos ≤ m.nodes.last
  last_le : m.nodes.last ≤ m.tailPos + 1
  filed : ∀ k, m.nodes.first ≤ k → k ≤ m.nodes.last → m.value (m.nodes.seq k) = m.filed k
  inside : ∀ x, m.place x = .inside ↔ m.nodes.Has x
  legal : Legal Queue.Next [] (m.history.events.map Prod.snd) (contents m)

/-- Every thread has taken notice of an empty queue. -/
def Noticed (m : Mem N V ι) : Prop :=
  m.nodes.first = m.nodes.last → ∀ i, m.sawEmpty i = true

/-- A slot of thread `i` protects the node `x` of position `p`. -/
structure Guard (m : Mem N V ι) (i : ι) (s : Slot) (x : N) (p : Nat) : Prop where
  hazard : m.hazard i s = some x
  seq : m.nodes.seq p = x
  le : p ≤ m.nodes.last
  kept : m.nodes.first ≤ p ∨
    p < m.nodes.first ∧ m.place x = .retired ∧ m.scanned x i s = false ∧
      m.next x = some (m.nodes.seq (p + 1)) ∧ m.value x = m.filed p

/-- The node is prepared and in the hands of thread `i`. -/
def Ready (m : Mem N V ι) (i : ι) (e : N) (v : V) : Prop :=
  m.place e = .held i ∧ m.value e = v ∧ m.next e = none

/-- `tail` was the node `y` when `head` was at position `p`, or later. -/
def Behind (m : Mem N V ι) (p : Nat) (y : N) : Prop :=
  m.nodes.seq p ≠ y → p < m.tailPos

/-- The node at `p` was protected while `head` was there, and `n` was loaded from its `next`. -/
def Looked (m : Mem N V ι) (i : ι) (h : N) (t n : Option N) : Prop :=
  ∃ p y, t = some y ∧ Guard m i .zero h p ∧ p ≤ m.nodes.first ∧
    (m.nodes.first = p → Behind m p y) ∧
    (∀ z, n = some z → p < m.nodes.last ∧ z = m.nodes.seq (p + 1)) ∧
    (n = none → h = y ∧ m.sawEmpty i = true)

/-- What thread `i` knows about the queue. -/
def Knows (i : ι) (m : Mem N V ι) : Pc N V → Prop
  | .enqValue _ e _ => m.place e = .held i
  | .enqClear _ e v => m.place e = .held i ∧ m.value e = v
  | .enqTail _ e v | .enqHazard _ e v _ => Ready m i e v
  | .enqCheck _ e v t => Ready m i e v ∧ m.hazard i .zero = t
  | .enqNext _ e v t => Ready m i e v ∧
      ∃ x p, t = some x ∧ Guard m i .zero x p ∧ p ≤ m.tailPos
  | .enqRecheck e v t n => Ready m i e v ∧
      ∃ p, Guard m i .zero t p ∧ p ≤ m.tailPos ∧
        ∀ z, n = some z → p < m.nodes.last ∧ z = m.nodes.seq (p + 1)
  | .enqHelp _ e v t n => Ready m i e v ∧
      ∃ p, Guard m i .zero t p ∧ p < m.nodes.last ∧ n = m.nodes.seq (p + 1)
  | .enqLink _ e v t => Ready m i e v ∧ ∃ p, Guard m i .zero t p ∧ p ≤ m.tailPos
  | .enqForward e _ t => ∃ p, Guard m i .zero t p ∧ p < m.nodes.last ∧ e = m.nodes.seq (p + 1)
  | .deqCheck h => m.hazard i .zero = h
  | .deqTail h => ∃ x p, h = some x ∧ Guard m i .zero x p ∧ p ≤ m.nodes.first
  | .tryHazard _ t p => p ≤ m.nodes.first ∧ ∃ y, t = some y ∧ Behind m p y
  | .tryCheck h t p => m.hazard i .zero = h ∧ p ≤ m.nodes.first ∧ ∃ y, t = some y ∧ Behind m p y
  | .deqNext _ h t => ∃ x p y, h = some x ∧ t = some y ∧ Guard m i .zero x p ∧
      p ≤ m.nodes.first ∧ (m.nodes.first = p → Behind m p y)
  | .deqProtect _ h t n => Looked m i h t n
  | .deqRecheck _ h t n => Looked m i h t n ∧ m.hazard i .one = n
  | .deqReset | .deqResetNext | .dequeued .dequeue none => m.sawEmpty i = true
  | .deqHelp _ t n => ∃ p, Guard m i .zero t p ∧ p < m.nodes.last ∧ n = m.nodes.seq (p + 1)
  | .deqCas _ h n => ∃ p z, n = some z ∧ Guard m i .zero h p ∧ Guard m i .one z (p + 1) ∧
      p ≤ m.nodes.first ∧ (m.nodes.first = p → p < m.tailPos)
  | .deqValue _ _ n v => ∃ z p, n = some z ∧ Guard m i .one z p ∧ v = m.filed p
  | .crashed => False
  | _ => True

section Guards

variable {i j : ι} {m m' : Mem N V ι} {s : Slot} {x y e h : N} {p k : Nat} {v : V}

theorem Core.not_has (hc : Core m) {q : Place ι} (h : m.place e = q) (hq : q ≠ .inside) :
    ¬ m.nodes.Has e := by
  intro hh
  rw [← hc.inside, h] at hh
  exact hq hh

theorem Core.ne_seq (hc : Core m) {q : Place ι} (h : m.place e = q) (hq : q ≠ .inside)
    (h1 : m.nodes.first ≤ k) (h2 : k ≤ m.nodes.last) : m.nodes.seq k ≠ e :=
  fun he => hc.not_has h hq ⟨k, h1, h2, he⟩

/-- The `next` of a node that is protected. -/
theorem Guard.next (hc : Core m) (hg : Guard m i s x p) :
    p < m.nodes.last ∧ m.next x = some (m.nodes.seq (p + 1)) ∨
      p = m.nodes.last ∧ m.nodes.first ≤ p ∧ m.next x = none := by
  have hle := hc.valid.le
  rcases hg.kept with hin | ⟨hlt, -, -, hn, -⟩
  · rcases Nat.lt_or_ge p m.nodes.last with hlt | hge
    · rw [← hg.seq]
      exact .inl ⟨hlt, hc.linked.succ p hin hlt⟩
    · obtain rfl : p = m.nodes.last := le_antisymm hg.le hge
      rw [← hg.seq]
      exact .inr ⟨rfl, hin, hc.linked.ends⟩
  · exact .inl ⟨by omega, hn⟩

/-- The value of a node that is protected. -/
theorem Guard.value (hc : Core m) (hg : Guard m i s x p) : m.value x = m.filed p := by
  rcases hg.kept with hin | ⟨-, -, -, -, hv⟩
  · rw [← hg.seq]
    exact hc.filed p hin hg.le
  · exact hv

/-- A node that is protected and in the queue is at its position. -/
theorem Guard.position (hc : Core m) (hg : Guard m i s x p) (h1 : m.nodes.first ≤ k)
    (h2 : k ≤ m.nodes.last) (he : m.nodes.seq k = x) : k = p := by
  rcases hg.kept with hin | ⟨-, hret, -⟩
  · exact hc.valid.inj h1 h2 hin hg.le (he.trans hg.seq.symm)
  · exact absurd he (hc.ne_seq hret nofun h1 h2)

/-- A node in the queue that is in a hazard slot is protected. -/
theorem Guard.mk_inside (h1 : m.nodes.first ≤ p) (h2 : p ≤ m.nodes.last)
    (hh : m.hazard i s = some (m.nodes.seq p)) : Guard m i s (m.nodes.seq p) p :=
  ⟨hh, rfl, h2, .inl h1⟩

end Guards

section Changes

variable [DecidableEq N] [DecidableEq ι]

/-- What one part of a step of thread `i` can do to the queue. -/
inductive Change (i : ι) (m : Mem N V ι) : Mem N V ι → Prop
  | enter : Change i m (m.begin i)
  | hold (e : N) (outside : m.place e = .outside) : Change i m (m.move e (.held i))
  | release (e : N) (held : m.place e = .held i) : Change i m (m.move e .outside)
  | storeValue (e : N) (v : V) (held : m.place e = .held i) : Change i m (m.storeValue e v)
  | clearNext (e : N) (held : m.place e = .held i) : Change i m (m.clearNext e)
  | setHazard (s : Slot) (x : Option N) : Change i m (m.setHazard i s x)
  | scan (x : N) (j : ι) (s : Slot) (clear : m.hazard j s ≠ some x) : Change i m (m.scan x j s)
  | reclaim (x : N) (retired : m.place x = .retired) (clear : ∀ j s, m.scanned x j s = true) :
      Change i m (m.move x .outside)
  | forward (lt : m.tailPos < m.nodes.last) :
      Change i m
        { m with tail := some (m.nodes.seq (m.tailPos + 1)), tailPos := m.tailPos + 1 }
  | link (e : N) (v : V) (ready : Ready m i e v) (last : m.tailPos = m.nodes.last) :
      Change i m (m.link i (m.nodes.seq m.nodes.last) e v)
  | take (lt : m.nodes.first < m.tailPos) :
      Change i m (m.take i (m.nodes.seq m.nodes.first) (some (m.nodes.seq (m.nodes.first + 1))))
  | finish (op : Op V) : Change i m (m.finish i op)

variable {i j : ι} {m m' : Mem N V ι} {s : Slot} {x e : N} {p : Nat} {v : V}

/-! ### The invariant of the queue -/

omit [DecidableEq ι] in
theorem Core.inside_move (hc : Core m) {q q' : Place ι} (h : m.place e = q) (hq : q ≠ .inside)
    (hq' : q' ≠ .inside) (x : N) :
    Function.update m.place e q' x = .inside ↔ m.nodes.Has x :=
  Places.elsewhere hc.inside h hq hq' x

omit [DecidableEq ι] in
theorem Core.link (hc : Core m) (ready : Ready m i e v) (last : m.tailPos = m.nodes.last) :
    Core (m.link i (m.nodes.seq m.nodes.last) e v) := by
  obtain ⟨held, hv, hn⟩ := ready
  have hout := hc.not_has held nofun
  have hseq : ∀ {k}, k ≤ m.nodes.last → (m.nodes.push e).seq k = m.nodes.seq k :=
    fun h => Window.push_seq_of_le e h
  refine
    { valid := hc.valid.push hout
      linked := hc.linked.push hc.valid hout hn
      head := hc.head.trans (congrArg some (hseq hc.valid.le).symm)
      tail := hc.tail.trans (congrArg some (hseq hc.tail_le).symm)
      first_le := hc.first_le
      tail_le := hc.tail_le.trans (Nat.le_succ _)
      last_le := Nat.succ_le_succ last.ge
      filed := fun k h h' => ?_
      inside := fun x => ?_
      legal := ?_ }
  · have hk' : k ≤ m.nodes.last + 1 := h'
    show m.value ((m.nodes.push e).seq k) = Function.update m.filed (m.nodes.last + 1) v k
    rcases Nat.lt_or_ge m.nodes.last k with hlt | hge
    · obtain rfl : k = m.nodes.last + 1 := by omega
      rw [Window.push_seq_last, Function.update_self]
      exact hv
    · rw [hseq hge, Function.update_of_ne (by omega)]
      exact hc.filed k h hge
  · show Function.update m.place e .inside x = .inside ↔ (m.nodes.push e).Has x
    rw [Window.has_push hc.valid.le, Places.arrive hc.inside, or_comm]
  · show Legal Queue.Next [] ((m.history.events ++ [(i, Op.enqueue v)]).map Prod.snd)
      ((m.nodes.push e).contents (Function.update m.filed (m.nodes.last + 1) v))
    rw [List.map_append, Window.contents_push hc.valid.le]
    exact hc.legal.snoc _ (.enqueue _ _)

omit [DecidableEq ι] in
theorem Core.take (hc : Core m) (lt : m.nodes.first < m.tailPos) :
    Core (m.take i (m.nodes.seq m.nodes.first) (some (m.nodes.seq (m.nodes.first + 1)))) := by
  have hlast := hc.tail_le
  refine
    { hc with
      valid := hc.valid.pop (by omega)
      linked := hc.linked.pop
      head := rfl
      first_le := lt
      filed := fun k h h' => hc.filed k ((Nat.le_succ _).trans h) h'
      inside := fun x => ?_
      legal := ?_ }
  · show Function.update m.place (m.nodes.seq m.nodes.first) .retired x = .inside ↔
      m.nodes.pop.Has x
    rw [hc.valid.has_pop, Places.depart hc.inside (by simp)]
  · show Legal Queue.Next [] ((m.history.events ++ [(i, Op.dequeue _)]).map Prod.snd) _
    rw [List.map_append]
    refine hc.legal.snoc _ ?_
    rw [contents, Window.contents_pop (by omega)]
    exact .dequeue _ _

theorem Change.core (hc : Core m) (h : Change i m m') : Core m' := by
  cases h with
  | enter => exact { hc with }
  | hold e outside => exact { hc with inside := hc.inside_move outside nofun nofun }
  | release e held => exact { hc with inside := hc.inside_move held nofun nofun }
  | storeValue e v held =>
    refine { hc with filed := fun k h h' => ?_ }
    show Function.update m.value e v (m.nodes.seq k) = m.filed k
    rw [Function.update_of_ne (hc.ne_seq held nofun h h')]
    exact hc.filed k h h'
  | clearNext e held =>
    exact { hc with linked := hc.linked.update (hc.not_has held nofun) hc.valid.le none }
  | setHazard s x => exact { hc with }
  | scan x j s clear => exact { hc with }
  | reclaim x retired clear => exact { hc with inside := hc.inside_move retired nofun nofun }
  | forward lt =>
    exact
      { hc with
        tail := rfl
        first_le := hc.first_le.trans (Nat.le_succ _)
        tail_le := lt
        last_le := hc.last_le.trans (Nat.le_succ _) }
  | link e v ready last => exact hc.link ready last
  | take lt => exact hc.take lt
  | finish op => exact { hc with }

/-! ### Protected nodes -/

omit [DecidableEq ι] in
/-- Moving a node that is not retired. -/
theorem Guard.move (hg : Guard m j s x p) {q : Place ι} (h : m.place e ≠ .retired) :
    Guard (m.move e q) j s x p where
  __ := hg
  kept := by
    rcases hg.kept with hin | ⟨hlt, hret, hrest⟩
    · exact .inl hin
    · refine .inr ⟨hlt, (Function.update_of_ne ?_ _ _).trans hret, hrest⟩
      rintro rfl
      exact h hret

/-- A node that is protected does not pass a scan. -/
theorem Guard.scan (hg : Guard m j s x p) {y : N} {j' : ι} {s' : Slot}
    (clear : m.hazard j' s' ≠ some y) : Guard (m.scan y j' s') j s x p where
  __ := hg
  kept := by
    rcases hg.kept with hin | ⟨hlt, hret, hscan, hrest⟩
    · exact .inl hin
    · refine .inr ⟨hlt, hret, ?_, hrest⟩
      show Function.update m.scanned y _ x j s = false
      by_cases hx : x = y
      · subst hx
        rw [Function.update_self]
        by_cases hj : j = j'
        · subst hj
          rw [Function.update_self, Function.update_of_ne]
          · exact hscan
          · rintro rfl
            exact clear hg.hazard
        · rw [Function.update_of_ne hj]
          exact hscan
      · rw [Function.update_of_ne hx]
        exact hscan

omit [DecidableEq ι] in
theorem Guard.link (hc : Core m) (hg : Guard m j s x p) (held : m.place e = .held i) :
    Guard (m.link i (m.nodes.seq m.nodes.last) e v) j s x p where
  hazard := hg.hazard
  seq := (Window.push_seq_of_le e hg.le).trans hg.seq
  le := hg.le.trans (Nat.le_succ _)
  kept := by
    rcases hg.kept with hin | ⟨hlt, hret, hscan, hn, hv⟩
    · exact .inl hin
    · have hle := hc.valid.le
      have hne : x ≠ e := by
        rintro rfl
        rw [hret] at held
        cases held
      have hlast : x ≠ m.nodes.seq m.nodes.last := (hc.ne_seq hret nofun hle le_rfl).symm
      refine .inr ⟨hlt, (Function.update_of_ne hne _ _).trans hret, hscan, ?_, ?_⟩
      · show Function.update m.next _ (some e) x = some ((m.nodes.push e).seq (p + 1))
        rw [Function.update_of_ne hlast, Window.push_seq_of_le e (by omega)]
        exact hn
      · show m.value x = Function.update m.filed (m.nodes.last + 1) v p
        rw [Function.update_of_ne (by omega)]
        exact hv

omit [DecidableEq ι] in
/-- A node that is taken is retired, and its scan begins. -/
theorem Guard.take (hc : Core m) (hg : Guard m j s x p) (lt : m.nodes.first < m.tailPos)
    (n : Option N) : Guard (m.take i (m.nodes.seq m.nodes.first) n) j s x p where
  hazard := hg.hazard
  seq := hg.seq
  le := hg.le
  kept := by
    have hlast := hc.tail_le
    rcases hg.kept with hin | ⟨hlt, hret, hscan, hn, hv⟩
    · rcases Nat.eq_or_lt_of_le hin with heq | hlt
      · right
        have hx : x = m.nodes.seq m.nodes.first := by rw [heq, hg.seq]
        refine ⟨heq.ge.trans_lt (Nat.lt_succ_self _), ?_, ?_, ?_, ?_⟩
        · show Function.update m.place _ .retired x = .retired
          rw [hx, Function.update_self]
        · show Function.update m.scanned _ _ x j s = false
          rw [hx, Function.update_self]
        · show m.next x = some (m.nodes.seq (p + 1))
          rw [← hg.seq]
          exact hc.linked.succ p hin (by omega)
        · have hval := hg.value hc
          exact hval
      · exact .inl hlt
    · have hne : x ≠ m.nodes.seq m.nodes.first := (hc.ne_seq hret nofun le_rfl hc.valid.le).symm
      refine .inr ⟨hlt.trans (Nat.lt_succ_self _), (Function.update_of_ne hne _ _).trans hret, ?_,
        hn, hv⟩
      show Function.update m.scanned _ _ x j s = false
      rw [Function.update_of_ne hne]
      exact hscan

omit [DecidableEq N] in
/-- A slot that is not overwritten protects what it did. -/
theorem Guard.setHazard (hg : Guard m j s x p) {s' : Slot} {y : Option N}
    (hne : j ≠ i ∨ s ≠ s') : Guard (m.setHazard i s' y) j s x p where
  __ := hg
  hazard := by
    show Function.update m.hazard i _ j s = some x
    by_cases hj : j = i
    · subst hj
      rw [Function.update_self, Function.update_of_ne (hne.resolve_left (· rfl))]
      exact hg.hazard
    · rw [Function.update_of_ne hj]
      exact hg.hazard

theorem Change.guard (hc : Core m) (h : Change i m m') (hj : j ≠ i) (hg : Guard m j s x p) :
    Guard m' j s x p := by
  cases h with
  | enter => exact { hg with }
  | hold e outside => exact hg.move (by rw [outside]; exact nofun)
  | release e held => exact hg.move (by rw [held]; exact nofun)
  | storeValue e v held =>
    refine { hg with kept := ?_ }
    rcases hg.kept with hin | ⟨hlt, hret, hscan, hn, hv⟩
    · exact .inl hin
    · refine .inr ⟨hlt, hret, hscan, hn, (Function.update_of_ne ?_ _ _).trans hv⟩
      rintro rfl
      rw [hret] at held
      cases held
  | clearNext e held =>
    refine { hg with kept := ?_ }
    rcases hg.kept with hin | ⟨hlt, hret, hscan, hn, hv⟩
    · exact .inl hin
    · refine .inr ⟨hlt, hret, hscan, (Function.update_of_ne ?_ _ _).trans hn, hv⟩
      rintro rfl
      rw [hret] at held
      cases held
  | setHazard s' y => exact hg.setHazard (.inl hj)
  | scan y j' s' clear => exact hg.scan clear
  | reclaim y retired clear =>
    refine { hg with kept := ?_ }
    rcases hg.kept with hin | ⟨hlt, hret, hscan, hrest⟩
    · exact .inl hin
    · refine .inr ⟨hlt, (Function.update_of_ne ?_ _ _).trans hret, hscan, hrest⟩
      rintro rfl
      rw [clear j s] at hscan
      cases hscan
  | forward lt => exact { hg with }
  | link e v ready last => exact hg.link hc ready.1
  | take lt => exact hg.take hc lt _
  | finish op => exact { hg with }

/-! ### What the other threads see -/

/-- What a step of a thread shows to the others. -/
structure Frame (i : ι) (m m' : Mem N V ι) : Prop where
  first_le : m.nodes.first ≤ m'.nodes.first
  tailPos_le : m.tailPos ≤ m'.tailPos
  last_le : m.nodes.last ≤ m'.nodes.last
  seq : ∀ k ≤ m.nodes.last, m'.nodes.seq k = m.nodes.seq k
  filed : ∀ k ≤ m.nodes.last, m'.filed k = m.filed k
  held : ∀ e, (∃ j ≠ i, m.place e = .held j) →
    m'.place e = m.place e ∧ m'.value e = m.value e ∧ m'.next e = m.next e
  hazard : ∀ j ≠ i, m'.hazard j = m.hazard j
  sawEmpty : ∀ j ≠ i, m.sawEmpty j = true → m'.sawEmpty j = true

omit [DecidableEq N] [DecidableEq ι] in
theorem Frame.refl (i : ι) (m : Mem N V ι) : Frame i m m where
  first_le := le_rfl
  tailPos_le := le_rfl
  last_le := le_rfl
  seq _ _ := rfl
  filed _ _ := rfl
  held _ _ := ⟨rfl, rfl, rfl⟩
  hazard _ _ := rfl
  sawEmpty _ _ h := h

omit [DecidableEq N] [DecidableEq ι] in
theorem ne_of_held (hx : ∃ j ≠ i, m.place x = .held j) (hfree : ∀ j ≠ i, m.place e ≠ .held j) :
    x ≠ e := by
  rintro rfl
  obtain ⟨j, hj, hx⟩ := hx
  exact hfree j hj hx

omit [DecidableEq N] [DecidableEq ι] in
theorem held_free (held : m.place e = .held i) : ∀ j ≠ i, m.place e ≠ .held j := by
  intro j hj he
  rw [held] at he
  cases he
  exact hj rfl

omit [DecidableEq ι] in
theorem frame_move {q : Place ι} (hfree : ∀ j ≠ i, m.place e ≠ .held j) :
    Frame i m (m.move e q) where
  __ := Frame.refl i m
  held _ hx := ⟨Function.update_of_ne (ne_of_held hx hfree) _ _, rfl, rfl⟩

omit [DecidableEq ι] in
theorem frame_link (hc : Core m) (held : m.place e = .held i) :
    Frame i m (m.link i (m.nodes.seq m.nodes.last) e v) where
  __ := Frame.refl i m
  last_le := Nat.le_succ _
  seq k hk := Window.push_seq_of_le e hk
  filed k hk := Function.update_of_ne (by omega) _ _
  held x hx := by
    have hne := ne_of_held hx (held_free held)
    obtain ⟨j, -, hx⟩ := hx
    have hlast : x ≠ m.nodes.seq m.nodes.last := (hc.ne_seq hx nofun hc.valid.le le_rfl).symm
    exact ⟨Function.update_of_ne hne _ _, rfl, Function.update_of_ne hlast _ _⟩

theorem Change.frame (hc : Core m) (h : Change i m m') : Frame i m m' := by
  cases h with
  | enter =>
    exact { Frame.refl i m with sawEmpty := fun j hj h => (Function.update_of_ne hj _ _).trans h }
  | hold e outside => exact frame_move fun j _ => by rw [outside]; exact nofun
  | release e held => exact frame_move (held_free held)
  | storeValue e v held =>
    exact
      { Frame.refl i m with
        held := fun x hx =>
          ⟨rfl, Function.update_of_ne (ne_of_held hx (held_free held)) _ _, rfl⟩ }
  | clearNext e held =>
    exact
      { Frame.refl i m with
        held := fun x hx =>
          ⟨rfl, rfl, Function.update_of_ne (ne_of_held hx (held_free held)) _ _⟩ }
  | setHazard s x =>
    exact { Frame.refl i m with hazard := fun j hj => Function.update_of_ne hj _ _ }
  | scan x j s clear => exact { Frame.refl i m with }
  | reclaim x retired clear => exact frame_move fun j _ => by rw [retired]; exact nofun
  | forward lt => exact { Frame.refl i m with tailPos_le := Nat.le_succ _ }
  | link e v ready last => exact frame_link hc ready.1
  | take lt =>
    refine { Frame.refl i m with first_le := Nat.le_succ _, held := fun x hx => ?_ }
    obtain ⟨j, -, hx⟩ := hx
    have hne : x ≠ m.nodes.seq m.nodes.first := (hc.ne_seq hx nofun le_rfl hc.valid.le).symm
    exact ⟨Function.update_of_ne hne _ _, rfl, rfl⟩
  | finish op => exact { Frame.refl i m with }

omit [DecidableEq N] [DecidableEq ι] in
theorem Ready.frame (hf : Frame i m m') (hj : j ≠ i) (hr : Ready m j e v) : Ready m' j e v := by
  obtain ⟨hp, hv, hn⟩ := hr
  obtain ⟨hp', hv', hn'⟩ := hf.held e ⟨j, hj, hp⟩
  exact ⟨hp'.trans hp, hv'.trans hv, hn'.trans hn⟩

omit [DecidableEq N] [DecidableEq ι] in
theorem Behind.frame (hf : Frame i m m') (hp : p ≤ m.nodes.last) {y : N} (hb : Behind m p y) :
    Behind m' p y := by
  intro hne
  rw [hf.seq p hp] at hne
  exact (hb hne).trans_le hf.tailPos_le

omit [DecidableEq N] [DecidableEq ι] in
/-- The node behind a position stays where it is. -/
theorem Frame.succ (hf : Frame i m m') {z : N}
    (h : p < m.nodes.last ∧ z = m.nodes.seq (p + 1)) :
    p < m'.nodes.last ∧ z = m'.nodes.seq (p + 1) :=
  ⟨h.1.trans_le hf.last_le, h.2.trans (hf.seq _ h.1).symm⟩

theorem Looked.change (hc : Core m) (h : Change i m m') (hj : j ≠ i) {t n : Option N}
    (hl : Looked m j x t n) : Looked m' j x t n := by
  have hf := h.frame hc
  have hfl := hf.first_le
  obtain ⟨p, y, ht, hg, hle, hb, hz, hnone⟩ := hl
  refine ⟨p, y, ht, h.guard hc hj hg, hle.trans hfl, fun he => ?_, fun z hn => hf.succ (hz z hn),
    fun hn => ⟨(hnone hn).1, hf.sawEmpty j hj (hnone hn).2⟩⟩
  exact (hb (by omega)).frame hf hg.le

/-- What a thread knows outlasts the steps of the others. -/
theorem Knows.change (hc : Core m) (h : Change i m m') (hj : j ≠ i) {pc : Pc N V}
    (hk : Knows j m pc) : Knows j m' pc := by
  have hf := h.frame hc
  have hfirst := hf.first_le
  have hpos := hf.tailPos_le
  have hle := hc.valid.le
  cases pc with
  | enqValue k e v => exact (hf.held e ⟨j, hj, hk⟩).1.trans hk
  | enqClear k e v =>
    obtain ⟨hp, hv, -⟩ := hf.held e ⟨j, hj, hk.1⟩
    exact ⟨hp.trans hk.1, hv.trans hk.2⟩
  | enqTail k e v => exact Ready.frame hf hj hk
  | enqHazard k e v t => exact Ready.frame hf hj hk
  | enqCheck k e v t =>
    exact ⟨hk.1.frame hf hj, (congrFun (hf.hazard j hj) _).trans hk.2⟩
  | enqNext k e v t =>
    obtain ⟨hr, x, p, ht, hg, hp⟩ := hk
    exact ⟨hr.frame hf hj, x, p, ht, h.guard hc hj hg, hp.trans hpos⟩
  | enqRecheck e v t n =>
    obtain ⟨hr, p, hg, hp, hz⟩ := hk
    exact ⟨hr.frame hf hj, p, h.guard hc hj hg, hp.trans hpos, fun z hn => hf.succ (hz z hn)⟩
  | enqHelp k e v t n =>
    obtain ⟨hr, p, hg, hn⟩ := hk
    exact ⟨hr.frame hf hj, p, h.guard hc hj hg, hf.succ hn⟩
  | enqLink k e v t =>
    obtain ⟨hr, p, hg, hp⟩ := hk
    exact ⟨hr.frame hf hj, p, h.guard hc hj hg, hp.trans hpos⟩
  | enqForward e v t =>
    obtain ⟨p, hg, hn⟩ := hk
    exact ⟨p, h.guard hc hj hg, hf.succ hn⟩
  | deqCheck h' => exact (congrFun (hf.hazard j hj) _).trans hk
  | deqTail h' =>
    obtain ⟨x, p, hh, hg, hp⟩ := hk
    exact ⟨x, p, hh, h.guard hc hj hg, hp.trans hfirst⟩
  | tryHazard h' t p =>
    obtain ⟨hp, y, ht, hb⟩ := hk
    exact ⟨hp.trans hfirst, y, ht, hb.frame hf (hp.trans hle)⟩
  | tryCheck h' t p =>
    obtain ⟨hh, hp, y, ht, hb⟩ := hk
    exact ⟨(congrFun (hf.hazard j hj) _).trans hh, hp.trans hfirst, y, ht,
      hb.frame hf (hp.trans hle)⟩
  | deqNext k h' t =>
    obtain ⟨x, p, y, hh, ht, hg, hp, hb⟩ := hk
    refine ⟨x, p, y, hh, ht, h.guard hc hj hg, hp.trans hfirst, fun he => ?_⟩
    exact (hb (by omega)).frame hf hg.le
  | deqProtect k h' t n => exact Looked.change hc h hj hk
  | deqRecheck k h' t n =>
    exact ⟨hk.1.change hc h hj, (congrFun (hf.hazard j hj) _).trans hk.2⟩
  | deqReset => exact hf.sawEmpty j hj hk
  | deqResetNext => exact hf.sawEmpty j hj hk
  | deqHelp k t n =>
    obtain ⟨p, hg, hn⟩ := hk
    exact ⟨p, h.guard hc hj hg, hf.succ hn⟩
  | deqCas k h' n =>
    obtain ⟨p, z, hn, hg, hg', hp, hlt⟩ := hk
    refine ⟨p, z, hn, h.guard hc hj hg, h.guard hc hj hg', hp.trans hfirst, fun he => ?_⟩
    exact (hlt (by omega)).trans_le hpos
  | deqValue k h' n v =>
    obtain ⟨z, p, hn, hg, hv⟩ := hk
    exact ⟨z, p, hn, h.guard hc hj hg, hv.trans (hf.filed p hg.le).symm⟩
  | dequeued k r =>
    cases k <;> cases r <;> first | trivial | exact hf.sawEmpty j hj hk
  | crashed => exact hk
  | _ => trivial

/-- The history of the threads that do not make a step. -/
theorem Change.history (h : Change i m m') (hj : j ≠ i) {q : Option (Op V)}
    (hq : m.history.Consistent j q) : m'.history.Consistent j q := by
  cases h with
  | link e v ready last => exact hq.other_effect hj
  | take lt => exact hq.other_effect hj
  | finish op => exact hq.other_complete hj
  | _ => exact hq

end Changes

end ConcurrencyKit.HpFifo
