import ConcurrencyKit.Fifo.Mpmc.Model
import ConcurrencyKit.Misc.Places

/-!
# What the queue of `ck_fifo_mpmc` relies on

A snapshot of `head` or `tail` is current as long as the generation that was loaded first is.
A snapshot of the `next` of the last node is compared as a pair. What excludes that the pair
comes back after the node has been linked, taken and prepared for another enqueue is that the
generation of a `next` never decreases: it starts from a generation of `tail`, is advanced once
when the node is linked, and by then `tail` has to pass the node, which advances the generation
from which the next use of the node starts.
-/

namespace ConcurrencyKit.Fifo.Mpmc

open Linear (History Legal)
open Queue (Op)
open Threads (Invariant System)

variable {N V ι : Type}

/-- The values in the queue, oldest first. -/
def contents (m : Mem N V ι) : List V := m.nodes.contents m.filed

/-- The nodes from `head` on are linked, `tail` is one of the last two, and the generation of a
`next` does not exceed that of `tail`, except between linking a node and moving `tail`. -/
structure Core (m : Mem N V ι) : Prop where
  valid : m.nodes.Valid
  linked : m.nodes.Linked m.next
  head : m.head = m.nodes.seq m.nodes.first
  tail : m.tail = m.nodes.seq m.tailPos
  first_le : m.nodes.first ≤ m.tailPos
  tail_le : m.tailPos ≤ m.nodes.last
  last_le : m.nodes.last ≤ m.tailPos + 1
  filed : ∀ k, m.nodes.first < k → k ≤ m.nodes.last → m.value (m.nodes.seq k) = m.filed k
  inside : ∀ x, m.place x = .inside ↔ m.nodes.Has x
  used : ∀ x, m.nodes.Has x → m.used x = true
  gens : ∀ x, m.used x = true → m.nextGen x ≤ m.tailGen ∨
    m.tailPos < m.nodes.last ∧ x = m.nodes.seq m.tailPos ∧ m.nextGen x ≤ m.tailGen + 1
  legal : Legal Queue.Next [] (m.history.events.map Prod.snd) (contents m)

/-- Every thread has taken notice of an empty queue. -/
def Noticed (m : Mem N V ι) : Prop :=
  m.nodes.first = m.nodes.last → ∀ i, m.sawEmpty i = true

/-- The node is prepared and in the hands of thread `i`. -/
def Ready (m : Mem N V ι) (i : ι) (e : N) (v : V) : Prop :=
  m.place e = .held i ∧ m.value e = v ∧ m.next e = none ∧ m.nextGen e ≤ m.tailGen

/-- `tail` was `t` in the generation `tg`. -/
def TailSnap (m : Mem N V ι) (tg : Nat) (t : N) : Prop :=
  tg ≤ m.tailGen ∧ (tg = m.tailGen → t = m.tail) ∧ m.used t = true

/-- The node behind `tail` was `n` in the generation `tg`. -/
def Ahead (m : Mem N V ι) (tg : Nat) (n : N) : Prop :=
  tg ≤ m.tailGen ∧
    (tg = m.tailGen → m.tailPos < m.nodes.last ∧ n = m.nodes.seq (m.tailPos + 1))

/-- The `next` of `t` was null in the generation `ng`, and `t` the last node. -/
def Snap (m : Mem N V ι) (t : N) (ng : Nat) : Prop :=
  m.used t = true ∧
    (m.next t = none ∧ m.nextGen t = ng ∧ t = m.nodes.seq m.nodes.last ∧
      m.tailPos = m.nodes.last ∨ ng < m.nextGen t)

/-- `head` was `h` in the generation `hg`. -/
def HeadSnap (m : Mem N V ι) (hg : Nat) (h : N) : Prop :=
  hg ≤ m.headGen ∧ (hg = m.headGen → h = m.head)

/-- What thread `i` knows about the queue. -/
def Knows (i : ι) (m : Mem N V ι) : Pc N V → Prop
  | .enqValue _ e _ => m.place e = .held i
  | .enqPointer _ e v => m.place e = .held i ∧ m.value e = v
  | .enqSeed _ e v => m.place e = .held i ∧ m.value e = v ∧ m.next e = none
  | .enqGeneration _ e v s => m.place e = .held i ∧ m.value e = v ∧ m.next e = none ∧
      s ≤ m.tailGen ∧ (m.used e = true → m.nextGen e ≤ s)
  | .enqTailGen _ e v => Ready m i e v
  | .enqTail _ e v tg => Ready m i e v ∧ tg ≤ m.tailGen
  | .enqNextGen _ e v tg t => Ready m i e v ∧ TailSnap m tg t
  | .enqNext _ e v tg t ng => Ready m i e v ∧ TailSnap m tg t ∧
      (tg = m.tailGen → m.next t = none → m.nextGen t = ng)
  | .enqCheck _ e v tg t ng none => Ready m i e v ∧ TailSnap m tg t ∧
      (tg = m.tailGen → Snap m t ng)
  | .enqCheck _ e v tg _ _ (some n) => Ready m i e v ∧ Ahead m tg n
  | .enqHelp _ e v tg _ n => Ready m i e v ∧ Ahead m tg n
  | .enqLink _ e v tg t ng => Ready m i e v ∧ TailSnap m tg t ∧ Snap m t ng
  | .enqForward e _ tg _ => Ahead m tg e
  | .deqHead _ hg => hg ≤ m.headGen
  | .deqTailGen _ hg h => HeadSnap m hg h
  | .deqTail _ hg h tg => HeadSnap m hg h ∧ tg ≤ m.tailGen
  | .deqNextGen _ hg h tg t | .deqNext _ hg h tg t => HeadSnap m hg h ∧ TailSnap m tg t ∧
      (hg = m.headGen → h ≠ t → m.nodes.first < m.tailPos)
  | .deqCheck hg => hg ≤ m.headGen ∧ (hg = m.headGen → m.sawEmpty i = true)
  | .deqHelp _ tg _ n => Ahead m tg n
  | .deqValue _ hg _ n => hg ≤ m.headGen ∧
      (hg = m.headGen → m.nodes.first < m.tailPos ∧ n = m.nodes.seq (m.nodes.first + 1))
  | .deqCas _ hg _ n v => hg ≤ m.headGen ∧
      (hg = m.headGen → m.nodes.first < m.tailPos ∧ n = m.nodes.seq (m.nodes.first + 1) ∧
        v = m.filed (m.nodes.first + 1))
  | .dequeued .dequeue none => m.sawEmpty i = true
  | _ => True

/-- What a step of a thread shows to the others. -/
structure Frame (i : ι) (m m' : Mem N V ι) : Prop where
  tailGen_le : m.tailGen ≤ m'.tailGen
  tail_same : m'.tailGen = m.tailGen → m'.tail = m.tail ∧ m'.tailPos = m.tailPos
  tailPos_le : m.tailPos ≤ m'.tailPos
  headGen_le : m.headGen ≤ m'.headGen
  head_same : m'.headGen = m.headGen → m'.head = m.head ∧ m'.nodes.first = m.nodes.first
  last_le : m.nodes.last ≤ m'.nodes.last
  seq : ∀ k ≤ m.nodes.last, m'.nodes.seq k = m.nodes.seq k
  filed : ∀ k ≤ m.nodes.last, m'.filed k = m.filed k
  used : ∀ x, m.used x = true → m'.used x = true
  /-- The generation of a `next` never decreases. -/
  gens : ∀ x, m.used x = true → m.nextGen x ≤ m'.nextGen x
  held : ∀ e, (∃ j ≠ i, m.place e = .held j) → m'.place e = m.place e ∧ m'.value e = m.value e ∧
    m'.next e = m.next e ∧ m'.nextGen e = m.nextGen e ∧ m'.used e = m.used e
  /-- The last node stays the last one, or the generation of its `next` is advanced. -/
  lastNode : m.tailPos = m.nodes.last →
    m'.tailPos = m'.nodes.last ∧ m'.nodes.last = m.nodes.last ∧
      m'.next (m.nodes.seq m.nodes.last) = m.next (m.nodes.seq m.nodes.last) ∧
      m'.nextGen (m.nodes.seq m.nodes.last) = m.nextGen (m.nodes.seq m.nodes.last) ∨
    m.nextGen (m.nodes.seq m.nodes.last) < m'.nextGen (m.nodes.seq m.nodes.last)
  tailNode : m'.tailGen = m.tailGen → m'.next m.tail = none →
    m.next m.tail = none ∧ m'.nextGen m.tail = m.nextGen m.tail
  sawEmpty : ∀ j ≠ i, m.sawEmpty j = true → m'.sawEmpty j = true

section Frames

variable {i j : ι} {m m' : Mem N V ι} {tg ng hg : Nat} {t n e h : N} {v : V}

theorem Ready.frame (hf : Frame i m m') (hj : j ≠ i) (hr : Ready m j e v) : Ready m' j e v := by
  obtain ⟨hp, hv, hn, hg⟩ := hr
  obtain ⟨hp', hv', hn', hg', -⟩ := hf.held e ⟨j, hj, hp⟩
  exact ⟨hp'.trans hp, hv'.trans hv, hn'.trans hn, hg'.le.trans (hg.trans hf.tailGen_le)⟩

/-- A generation of `tail` that is current after a step was current before it. -/
theorem Frame.tail_current (hf : Frame i m m') (hle : tg ≤ m.tailGen) (he : tg = m'.tailGen) :
    tg = m.tailGen ∧ m'.tailGen = m.tailGen := by
  have := hf.tailGen_le
  omega

theorem Frame.head_current (hf : Frame i m m') (hle : hg ≤ m.headGen) (he : hg = m'.headGen) :
    hg = m.headGen ∧ m'.headGen = m.headGen := by
  have := hf.headGen_le
  omega

theorem TailSnap.frame (hf : Frame i m m') (hs : TailSnap m tg t) : TailSnap m' tg t := by
  obtain ⟨hle, ht, hu⟩ := hs
  refine ⟨hle.trans hf.tailGen_le, fun he => ?_, hf.used t hu⟩
  obtain ⟨hcur, hsame⟩ := hf.tail_current hle he
  exact (ht hcur).trans (hf.tail_same hsame).1.symm

theorem Ahead.frame (hf : Frame i m m') (hs : Ahead m tg n) : Ahead m' tg n := by
  obtain ⟨hle, hn⟩ := hs
  refine ⟨hle.trans hf.tailGen_le, fun he => ?_⟩
  obtain ⟨hcur, hsame⟩ := hf.tail_current hle he
  obtain ⟨hlt, hnode⟩ := hn hcur
  have hlast := hf.last_le
  rw [(hf.tail_same hsame).2]
  exact ⟨by omega, hnode.trans (hf.seq _ hlt).symm⟩

theorem Snap.frame (hf : Frame i m m') (hs : Snap m t ng) : Snap m' t ng := by
  obtain ⟨hu, ⟨hn, hg, rfl, htail⟩ | hlt⟩ := hs
  · refine ⟨hf.used _ hu, ?_⟩
    rcases hf.lastNode htail with ⟨htail', hlast, hn', hg'⟩ | hlt
    · refine .inl ⟨hn'.trans hn, hg'.trans hg, ?_, htail'⟩
      rw [hlast, hf.seq _ le_rfl]
    · exact .inr (hg ▸ hlt)
  · exact ⟨hf.used t hu, .inr (hlt.trans_le (hf.gens t hu))⟩

theorem HeadSnap.frame (hf : Frame i m m') (hs : HeadSnap m hg h) : HeadSnap m' hg h := by
  obtain ⟨hle, hh⟩ := hs
  refine ⟨hle.trans hf.headGen_le, fun he => ?_⟩
  obtain ⟨hcur, hsame⟩ := hf.head_current hle he
  exact (hh hcur).trans (hf.head_same hsame).1.symm

/-- What a thread knows outlasts the steps of the others. -/
theorem Knows.frame (hc : Core m) (hf : Frame i m m') (hj : j ≠ i) {pc : Pc N V}
    (hk : Knows j m pc) : Knows j m' pc := by
  have hlast := hc.tail_le
  have hpos := hf.tailPos_le
  cases pc with
  | enqValue k e v => exact (hf.held e ⟨j, hj, hk⟩).1.trans hk
  | enqPointer k e v =>
    obtain ⟨hp, hv, -⟩ := hf.held e ⟨j, hj, hk.1⟩
    exact ⟨hp.trans hk.1, hv.trans hk.2⟩
  | enqSeed k e v =>
    obtain ⟨hp, hv, hn, -⟩ := hf.held e ⟨j, hj, hk.1⟩
    exact ⟨hp.trans hk.1, hv.trans hk.2.1, hn.trans hk.2.2⟩
  | enqGeneration k e v s =>
    obtain ⟨hp, hv, hn, hg, hu⟩ := hf.held e ⟨j, hj, hk.1⟩
    obtain ⟨hp', hv', hn', hle, hs⟩ := hk
    refine ⟨hp.trans hp', hv.trans hv', hn.trans hn', hle.trans hf.tailGen_le, fun h => ?_⟩
    exact hg.le.trans (hs (hu.symm.trans h))
  | enqTailGen k e v => exact Ready.frame hf hj hk
  | enqTail k e v tg => exact ⟨hk.1.frame hf hj, hk.2.trans hf.tailGen_le⟩
  | enqNextGen k e v tg t => exact ⟨hk.1.frame hf hj, hk.2.frame hf⟩
  | enqNext k e v tg t ng =>
    obtain ⟨hr, hs, hn⟩ := hk
    refine ⟨hr.frame hf hj, hs.frame hf, fun he hnone => ?_⟩
    obtain ⟨hcur, hsame⟩ := hf.tail_current hs.1 he
    obtain rfl := hs.2.1 hcur
    obtain ⟨hnone', hg⟩ := hf.tailNode hsame hnone
    exact hg.trans (hn hcur hnone')
  | enqCheck k e v tg t ng n =>
    cases n with
    | none =>
      obtain ⟨hr, hs, hn⟩ := hk
      refine ⟨hr.frame hf hj, hs.frame hf, fun he => ?_⟩
      exact (hn (hf.tail_current hs.1 he).1).frame hf
    | some n => exact ⟨hk.1.frame hf hj, hk.2.frame hf⟩
  | enqHelp k e v tg t n => exact ⟨hk.1.frame hf hj, hk.2.frame hf⟩
  | enqLink k e v tg t ng => exact ⟨hk.1.frame hf hj, hk.2.1.frame hf, hk.2.2.frame hf⟩
  | enqForward e v tg t => exact Ahead.frame hf hk
  | deqHead k hg => exact le_trans hk hf.headGen_le
  | deqTailGen k hg h => exact HeadSnap.frame hf hk
  | deqTail k hg h tg => exact ⟨hk.1.frame hf, hk.2.trans hf.tailGen_le⟩
  | deqNextGen k hg h tg t =>
    obtain ⟨hs, ht, hlt⟩ := hk
    refine ⟨hs.frame hf, ht.frame hf, fun he hne => ?_⟩
    obtain ⟨hcur, hsame⟩ := hf.head_current hs.1 he
    rw [(hf.head_same hsame).2]
    exact (hlt hcur hne).trans_le hpos
  | deqNext k hg h tg t =>
    obtain ⟨hs, ht, hlt⟩ := hk
    refine ⟨hs.frame hf, ht.frame hf, fun he hne => ?_⟩
    obtain ⟨hcur, hsame⟩ := hf.head_current hs.1 he
    rw [(hf.head_same hsame).2]
    exact (hlt hcur hne).trans_le hpos
  | deqCheck hg =>
    obtain ⟨hle, hs⟩ := hk
    exact ⟨hle.trans hf.headGen_le, fun he => hf.sawEmpty j hj (hs (hf.head_current hle he).1)⟩
  | deqHelp k tg t n => exact Ahead.frame hf hk
  | deqValue k hg h n =>
    obtain ⟨hle, hn⟩ := hk
    refine ⟨hle.trans hf.headGen_le, fun he => ?_⟩
    obtain ⟨hcur, hsame⟩ := hf.head_current hle he
    obtain ⟨hlt, hnode⟩ := hn hcur
    rw [(hf.head_same hsame).2]
    exact ⟨by omega, hnode.trans (hf.seq _ (by omega)).symm⟩
  | deqCas k hg h n v =>
    obtain ⟨hle, hn⟩ := hk
    refine ⟨hle.trans hf.headGen_le, fun he => ?_⟩
    obtain ⟨hcur, hsame⟩ := hf.head_current hle he
    obtain ⟨hlt, hnode, hv⟩ := hn hcur
    rw [(hf.head_same hsame).2]
    exact ⟨by omega, hnode.trans (hf.seq _ (by omega)).symm, hv.trans (hf.filed _ (by omega)).symm⟩
  | dequeued k r =>
    cases k <;> cases r <;> first | trivial | exact hf.sawEmpty j hj hk
  | _ => trivial

end Frames

section Changes

variable [DecidableEq N] [DecidableEq ι]

/-- What one part of a step of thread `i` can do to the queue. -/
inductive Change (i : ι) (m : Mem N V ι) : Mem N V ι → Prop
  | enter : Change i m (m.begin i)
  | hold (e : N) (outside : m.place e = .outside) : Change i m (m.move e (.held i))
  | release (e : N) (held : m.place e = .held i) : Change i m (m.move e .outside)
  | storeValue (e : N) (v : V) (held : m.place e = .held i) : Change i m (m.storeValue e v)
  | clearNext (e : N) (held : m.place e = .held i) : Change i m (m.clearNext e)
  | storeGen (e : N) (s : Nat) (held : m.place e = .held i) (le : s ≤ m.tailGen)
      (mono : m.used e = true → m.nextGen e ≤ s) : Change i m (m.storeGen e s)
  | forward (lt : m.tailPos < m.nodes.last) :
      Change i m (m.forward (m.nodes.seq (m.tailPos + 1)))
  | link (e : N) (v : V) (ready : Ready m i e v) (last : m.tailPos = m.nodes.last) :
      Change i m (m.link i (m.nodes.seq m.nodes.last) e v)
  | take (lt : m.nodes.first < m.tailPos) :
      Change i m (m.take i (m.nodes.seq m.nodes.first) (m.nodes.seq (m.nodes.first + 1))
        (m.filed (m.nodes.first + 1)))
  | finish (v : V) : Change i m (m.finish i v)

variable {i j : ι} {m m' : Mem N V ι} {e : N} {v : V}

omit [DecidableEq N] [DecidableEq ι] in
theorem Core.not_has (hc : Core m) {p : Place ι} (h : m.place e = p) (hp : p ≠ .inside) :
    ¬ m.nodes.Has e := by
  intro hh
  rw [← hc.inside, h] at hh
  exact hp hh

omit [DecidableEq ι] in
theorem Core.inside_move (hc : Core m) {p q : Place ι} (h : m.place e = p) (hp : p ≠ .inside)
    (hq : q ≠ .inside) (x : N) : Function.update m.place e q x = .inside ↔ m.nodes.Has x :=
  Places.elsewhere hc.inside h hp hq x

omit [DecidableEq N] [DecidableEq ι] in
theorem Core.ne_of_held (hc : Core m) (held : m.place e = .held i) {k : Nat}
    (h : m.nodes.first ≤ k) (h' : k ≤ m.nodes.last) : m.nodes.seq k ≠ e :=
  fun he => hc.not_has held nofun ⟨k, h, h', he⟩

omit [DecidableEq N] [DecidableEq ι] in
/-- A node that is not in the queue has an old generation. -/
theorem Core.gen_le (hc : Core m) (hu : m.used e = true) (hout : ¬ m.nodes.Has e) :
    m.nextGen e ≤ m.tailGen := by
  rcases hc.gens e hu with h | ⟨-, rfl, -⟩
  · exact h
  · exact absurd (.mk hc.first_le hc.tail_le) hout

omit [DecidableEq ι] in
theorem Core.storeValue (hc : Core m) (held : m.place e = .held i) : Core (m.storeValue e v) where
  __ := hc
  filed k h h' := by
    show Function.update m.value e v (m.nodes.seq k) = m.filed k
    rw [Function.update_of_ne (hc.ne_of_held held h.le h')]
    exact hc.filed k h h'

omit [DecidableEq ι] in
theorem Core.clearNext (hc : Core m) (held : m.place e = .held i) : Core (m.clearNext e) where
  __ := hc
  linked := hc.linked.update (hc.not_has held nofun) hc.valid.le none

omit [DecidableEq ι] in
theorem Core.storeGen (hc : Core m) {s : Nat} (held : m.place e = .held i) (le : s ≤ m.tailGen) :
    Core (m.storeGen e s) where
  __ := hc
  gens x hx := by
    by_cases he : x = e
    · subst he
      left
      show Function.update m.nextGen x s x ≤ m.tailGen
      rw [Function.update_self]
      exact le
    · show Function.update m.nextGen e s x ≤ m.tailGen ∨ m.tailPos < m.nodes.last ∧
        x = m.nodes.seq m.tailPos ∧ Function.update m.nextGen e s x ≤ m.tailGen + 1
      rw [Function.update_of_ne he]
      exact hc.gens x hx

omit [DecidableEq N] [DecidableEq ι] in
theorem Core.forward (hc : Core m) (lt : m.tailPos < m.nodes.last) :
    Core (m.forward (m.nodes.seq (m.tailPos + 1))) where
  __ := hc
  tail := rfl
  first_le := hc.first_le.trans (Nat.le_succ _)
  tail_le := lt
  last_le := hc.last_le.trans (Nat.le_succ _)
  gens x hx := by
    left
    show m.nextGen x ≤ m.tailGen + 1
    rcases hc.gens x hx with h | ⟨-, -, h⟩
    · omega
    · exact h

omit [DecidableEq ι] in
theorem Core.link (hc : Core m) (ready : Ready m i e v) (last : m.tailPos = m.nodes.last) :
    Core (m.link i (m.nodes.seq m.nodes.last) e v) := by
  obtain ⟨held, hv, hn, hg⟩ := ready
  have hout := hc.not_has held nofun
  have hfirst := hc.first_le
  have hne : m.nodes.seq m.nodes.last ≠ e := hc.ne_of_held held hc.valid.le le_rfl
  have hseq : ∀ {k}, k ≤ m.nodes.last → (m.nodes.push e).seq k = m.nodes.seq k :=
    fun h => Window.push_seq_of_le e h
  refine
    { valid := hc.valid.push hout
      linked := hc.linked.push hc.valid hout hn
      head := hc.head.trans (hseq hc.valid.le).symm
      tail := hc.tail.trans (hseq hc.tail_le).symm
      first_le := hfirst
      tail_le := hc.tail_le.trans (Nat.le_succ _)
      last_le := Nat.succ_le_succ last.ge
      filed := fun k h h' => ?_
      inside := fun x => ?_
      used := fun x hx => ?_
      gens := fun x hx => ?_
      legal := ?_ }
  · have hk : m.nodes.first < k := h
    have hk' : k ≤ m.nodes.last + 1 := h'
    show m.value ((m.nodes.push e).seq k) = Function.update m.filed (m.nodes.last + 1) v k
    rcases Nat.lt_or_ge m.nodes.last k with hlt | hge
    · obtain rfl : k = m.nodes.last + 1 := by omega
      rw [Window.push_seq_last, Function.update_self]
      exact hv
    · rw [hseq hge, Function.update_of_ne (by omega)]
      exact hc.filed k hk hge
  · show Function.update m.place e .inside x = .inside ↔ (m.nodes.push e).Has x
    rw [Window.has_push hc.valid.le, Places.arrive hc.inside, or_comm]
  · show Function.update m.used e true x = true
    by_cases hxe : x = e
    · subst hxe
      exact Function.update_self _ _ _
    · rw [Function.update_of_ne hxe]
      exact hc.used x (((Window.has_push hc.valid.le).mp hx).resolve_right hxe)
  · show Function.update m.nextGen (m.nodes.seq m.nodes.last) _ x ≤ m.tailGen ∨
      m.tailPos < m.nodes.last + 1 ∧ x = (m.nodes.push e).seq m.tailPos ∧
      Function.update m.nextGen (m.nodes.seq m.nodes.last) _ x ≤ m.tailGen + 1
    by_cases hxl : x = m.nodes.seq m.nodes.last
    · -- the generation of the node behind which `e` is linked is ahead of `tail` for a while
      subst hxl
      right
      rw [Function.update_self, last, hseq le_rfl]
      refine ⟨by omega, rfl, ?_⟩
      rcases hc.gens _ (hc.used _ (.mk hc.valid.le le_rfl)) with h | ⟨h, -⟩
      · omega
      · omega
    · left
      rw [Function.update_of_ne hxl]
      by_cases hxe : x = e
      · subst hxe
        exact hg
      · have hux : m.used x = true := by
          have hu : Function.update m.used e true x = true := hx
          rwa [Function.update_of_ne hxe] at hu
        rcases hc.gens x hux with h | ⟨h, -⟩
        · exact h
        · omega
  · show Legal Queue.Next [] ((m.history.events ++ [(i, Op.enqueue v)]).map Prod.snd)
      ((m.nodes.push e).contents (Function.update m.filed (m.nodes.last + 1) v))
    rw [List.map_append, Window.contents_push hc.valid.le]
    exact hc.legal.snoc _ (.enqueue _ _)

theorem Core.take (hc : Core m) (lt : m.nodes.first < m.tailPos) :
    Core (m.take i (m.nodes.seq m.nodes.first) (m.nodes.seq (m.nodes.first + 1))
      (m.filed (m.nodes.first + 1))) := by
  have hlast := hc.tail_le
  refine
    { hc with
      valid := hc.valid.pop (by omega)
      linked := hc.linked.pop
      head := rfl
      first_le := lt
      filed := fun k h h' => hc.filed k ((Nat.lt_succ_self _).trans h) h'
      inside := fun x => ?_
      used := fun x hx => hc.used x hx.of_pop
      legal := ?_ }
  · show Function.update m.place (m.nodes.seq m.nodes.first) .outside x = .inside ↔
      m.nodes.pop.Has x
    rw [hc.valid.has_pop, Places.depart hc.inside (by simp)]
  · show Legal Queue.Next [] ((m.history.events ++ [(i, Op.dequeue _)]).map Prod.snd) _
    rw [List.map_append]
    refine hc.legal.snoc _ ?_
    rw [contents, Window.contents_pop (by omega)]
    exact .dequeue _ _

theorem Change.core (hc : Core m) (h : Change i m m') : Core m' := by
  cases h with
  | enter => exact { hc with }
  | hold e outside => exact { hc with inside := hc.inside_move outside nofun nofun }
  | release e held => exact { hc with inside := hc.inside_move held nofun nofun }
  | storeValue e v held => exact hc.storeValue held
  | clearNext e held => exact hc.clearNext held
  | storeGen e s held le mono => exact hc.storeGen held le
  | forward lt => exact hc.forward lt
  | link e v ready last => exact hc.link ready last
  | take lt => exact hc.take lt
  | finish v => exact { hc with }

omit [DecidableEq N] [DecidableEq ι] in
/-- Nothing happens that another thread could see. -/
theorem Frame.refl (i : ι) (m : Mem N V ι) : Frame i m m where
  tailGen_le := le_rfl
  tail_same _ := ⟨rfl, rfl⟩
  tailPos_le := le_rfl
  headGen_le := le_rfl
  head_same _ := ⟨rfl, rfl⟩
  last_le := le_rfl
  seq _ _ := rfl
  filed _ _ := rfl
  used _ h := h
  gens _ _ := le_rfl
  held _ _ := ⟨rfl, rfl, rfl, rfl, rfl⟩
  lastNode h := .inl ⟨h, rfl, rfl, rfl⟩
  tailNode _ h := ⟨h, rfl⟩
  sawEmpty _ _ h := h

omit [DecidableEq ι] in
/-- The place of a node that no other thread holds changes. -/
theorem frame_move {p : Place ι} (hfree : ∀ j ≠ i, m.place e ≠ .held j) :
    Frame i m (m.move e p) where
  __ := Frame.refl i m
  held x := by
    rintro ⟨j, hj, hx⟩
    refine ⟨Function.update_of_ne ?_ _ _, rfl, rfl, rfl, rfl⟩
    rintro rfl
    exact hfree j hj hx

omit [DecidableEq N] [DecidableEq ι] in
theorem held_ne (hj : j ≠ i) (held : m.place e = .held i) : m.place e ≠ .held j := by
  rw [held]
  intro he
  cases he
  exact hj rfl

omit [DecidableEq N] [DecidableEq ι] in
/-- A node that another thread holds is not one of this thread. -/
theorem ne_of_held {x : N} (hx : ∃ j ≠ i, m.place x = .held j) (held : m.place e = .held i) :
    x ≠ e := by
  rintro rfl
  obtain ⟨j, hj, hx⟩ := hx
  exact held_ne hj held hx

omit [DecidableEq ι] in
theorem frame_clearNext (hc : Core m) (held : m.place e = .held i) : Frame i m (m.clearNext e) where
  __ := Frame.refl i m
  held x hx := ⟨rfl, rfl, Function.update_of_ne (ne_of_held hx held) _ _, rfl, rfl⟩
  lastNode h := .inl ⟨h, rfl,
    Function.update_of_ne (hc.ne_of_held held hc.valid.le le_rfl) _ _, rfl⟩
  tailNode _ h := by
    have hne : m.tail ≠ e := by
      rw [hc.tail]
      exact hc.ne_of_held held hc.first_le hc.tail_le
    have hsame : (m.clearNext e).next m.tail = m.next m.tail := Function.update_of_ne hne _ _
    exact ⟨hsame.symm.trans h, rfl⟩

omit [DecidableEq ι] in
theorem frame_storeGen (hc : Core m) {s : Nat} (held : m.place e = .held i)
    (mono : m.used e = true → m.nextGen e ≤ s) : Frame i m (m.storeGen e s) where
  __ := Frame.refl i m
  gens x hx := by
    show m.nextGen x ≤ Function.update m.nextGen e s x
    by_cases he : x = e
    · subst he
      rw [Function.update_self]
      exact mono hx
    · rw [Function.update_of_ne he]
  held x hx := ⟨rfl, rfl, rfl, Function.update_of_ne (ne_of_held hx held) _ _, rfl⟩
  lastNode h := .inl ⟨h, rfl, rfl,
    Function.update_of_ne (hc.ne_of_held held hc.valid.le le_rfl) _ _⟩
  tailNode _ h := by
    have hne : m.tail ≠ e := by
      rw [hc.tail]
      exact hc.ne_of_held held hc.first_le hc.tail_le
    exact ⟨h, Function.update_of_ne hne _ _⟩

omit [DecidableEq N] [DecidableEq ι] in
theorem frame_forward (lt : m.tailPos < m.nodes.last) (n : N) : Frame i m (m.forward n) where
  __ := Frame.refl i m
  tailGen_le := Nat.le_succ _
  tail_same h := absurd h (Nat.succ_ne_self _)
  tailPos_le := Nat.le_succ _
  lastNode h := absurd h lt.ne
  tailNode h := absurd h (Nat.succ_ne_self _)

omit [DecidableEq ι] in
theorem frame_link (hc : Core m) (held : m.place e = .held i) (last : m.tailPos = m.nodes.last) :
    Frame i m (m.link i (m.nodes.seq m.nodes.last) e v) where
  __ := Frame.refl i m
  last_le := Nat.le_succ _
  seq k hk := Window.push_seq_of_le e hk
  filed k hk := Function.update_of_ne (by omega) _ _
  used x hx := by
    show Function.update m.used e true x = true
    by_cases he : x = e
    · rw [he, Function.update_self]
    · rw [Function.update_of_ne he]
      exact hx
  gens x _ := by
    show m.nextGen x ≤ Function.update m.nextGen (m.nodes.seq m.nodes.last) _ x
    by_cases he : x = m.nodes.seq m.nodes.last
    · rw [he, Function.update_self]
      exact Nat.le_succ _
    · rw [Function.update_of_ne he]
  held x hx := by
    have hne := ne_of_held hx held
    obtain ⟨j, -, hx⟩ := hx
    have hlast : x ≠ m.nodes.seq m.nodes.last := (hc.ne_of_held hx hc.valid.le le_rfl).symm
    exact ⟨Function.update_of_ne hne _ _, rfl, Function.update_of_ne hlast _ _,
      Function.update_of_ne hlast _ _, Function.update_of_ne hne _ _⟩
  lastNode _ := by
    right
    show _ < Function.update m.nextGen (m.nodes.seq m.nodes.last) _ (m.nodes.seq m.nodes.last)
    rw [Function.update_self]
    exact Nat.lt_succ_self _
  tailNode _ h := by
    have hsome : Function.update m.next (m.nodes.seq m.nodes.last) (some e) m.tail = none := h
    rw [hc.tail, last, Function.update_self] at hsome
    cases hsome

theorem frame_take (hc : Core m) (n : N) (v : V) :
    Frame i m (m.take i (m.nodes.seq m.nodes.first) n v) where
  __ := Frame.refl i m
  headGen_le := Nat.le_succ _
  head_same h := absurd h (Nat.succ_ne_self _)
  held x hx := by
    obtain ⟨j, -, hx⟩ := hx
    have hne : x ≠ m.nodes.seq m.nodes.first := (hc.ne_of_held hx le_rfl hc.valid.le).symm
    exact ⟨Function.update_of_ne hne _ _, rfl, rfl, rfl, rfl⟩

theorem Change.frame (hc : Core m) (h : Change i m m') : Frame i m m' := by
  cases h with
  | enter =>
    exact { Frame.refl i m with sawEmpty := fun j hj h => (Function.update_of_ne hj _ _).trans h }
  | hold e outside =>
    refine frame_move fun j _ h => ?_
    rw [outside] at h
    cases h
  | release e held => exact frame_move fun j hj => held_ne hj held
  | storeValue e v held =>
    exact
      { Frame.refl i m with
        held := fun x hx => ⟨rfl, Function.update_of_ne (ne_of_held hx held) _ _, rfl, rfl, rfl⟩ }
  | clearNext e held => exact frame_clearNext hc held
  | storeGen e s held le mono => exact frame_storeGen hc held mono
  | forward lt => exact frame_forward lt _
  | link e v ready last => exact frame_link hc ready.1 last
  | take lt => exact frame_take hc _ _
  | finish v => exact { Frame.refl i m with }

/-- The history of the threads that do not make a step. -/
theorem Change.history (h : Change i m m') (hj : j ≠ i) {p : Option (Op V)}
    (hp : m.history.Consistent j p) : m'.history.Consistent j p := by
  cases h with
  | link e v ready last => exact hp.other_effect hj
  | take lt => exact (hp.other_effect hj).other_complete hj
  | finish v => exact hp.other_complete hj
  | _ => exact hp

end Changes

end ConcurrencyKit.Fifo.Mpmc
