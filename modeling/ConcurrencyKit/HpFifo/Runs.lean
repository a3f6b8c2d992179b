import ConcurrencyKit.HpFifo.Invariant

/-!
# Runs of `ck_hp_fifo`

`ck_hp_fifo_trydequeue_mpmc` loads `tail` before it protects the node it has found at `head`.
If that node is taken, recycled and back at `head` when it is checked, the `tail` that was loaded
says nothing about the queue any more. In the runs where this does not happen the queue is
linearizable, with nodes that are recycled through scans of the hazard slots; where it does
happen, `head` can become null.
-/

namespace ConcurrencyKit.HpFifo

open Linear (History Legal)
open Queue (Op)
open Threads (Invariant System)

variable {N V ι : Type} [DecidableEq N] [DecidableEq ι] {i j : ι} {m m' : Mem N V ι} {t n e h : N}
  {v : V} {p : Nat}

/-- What a step of thread `i` does to the queue. -/
def Changes (i : ι) : Mem N V ι → Mem N V ι → Prop := Relation.ReflTransGen (Change i)

/-- The outcome of an access: changes of the queue, and what the thread knows afterwards. -/
def Leads (i : ι) (m : Mem N V ι) (r : Mem N V ι × Pc N V) : Prop :=
  Changes i m r.1 ∧ Knows i r.1 r.2 ∧ r.1.history.Consistent i r.2.pending

theorem Leads.stay {q : Pc N V} (hk : Knows i m q) (hh : m.history.Consistent i q.pending) :
    Leads i m (m, q) :=
  ⟨.refl, hk, hh⟩

omit [DecidableEq ι] in
theorem Ready.casTail (hr : Ready m i e v) : Ready (m.casTail t n) i e v := by
  unfold Mem.casTail
  split <;> exact hr

omit [DecidableEq ι] in
theorem casTail_history : (m.casTail t n).history = m.history := by
  unfold Mem.casTail
  split <;> rfl

/-- A compare-and-swap of `tail` that succeeds moves it to the node behind it. -/
theorem casTail_changes (hc : Core m) (hg : Guard m i .zero t p)
    (hn : p < m.nodes.last ∧ n = m.nodes.seq (p + 1)) : Changes i m (m.casTail t n) := by
  unfold Mem.casTail
  split
  · rename_i hcas
    rw [hc.tail] at hcas
    obtain rfl := hg.position hc hc.first_le hc.tail_le (Option.some.inj hcas)
    rw [hn.2]
    exact .single (.forward hn.1)
  · exact .refl

theorem again_leads {k : Enqueuer} (hch : Changes i m m') (hr : Ready m' i e v)
    (hh : m'.history.Consistent i none) : Leads i m (m'.again k e v) := by
  unfold Mem.again
  split
  · exact ⟨hch.tail (.release e hr.1), trivial, hh⟩
  · exact ⟨hch, hr, hh⟩

theorem restart_leads {k : Dequeuer} (hch : Changes i m m') (hh : m'.history.Consistent i none) :
    Leads i m (m'.restart k) := by
  unfold Mem.restart
  split
  · rename_i hk
    subst hk
    exact ⟨hch, trivial, hh⟩
  · exact ⟨hch, trivial, hh⟩

/-! ## Enqueueing -/

theorem enqCheck_leads (hc : Core m) {k : Enqueuer} {t : Option N}
    (hk : Knows i m (.enqCheck k e v t)) (hh : m.history.Consistent i none) :
    Leads i m (m.act i (.enqCheck k e v t)) := by
  by_cases he : t = m.tail
  · rw [Mem.act_enqCheck_of_eq i he]
    have hz := hk.2
    rw [he, hc.tail] at hz
    refine .stay ⟨hk.1, _, m.tailPos, he.trans hc.tail, ?_, le_rfl⟩ hh
    exact .mk_inside hc.first_le hc.tail_le hz
  · rw [Mem.act_enqCheck_of_ne i he]
    exact again_leads .refl hk.1 hh

omit [DecidableEq N] [DecidableEq ι] in
/-- What a thread finds in the `next` of the node that it protects. -/
theorem Guard.loaded (hc : Core m) (hg : Guard m i .zero t p) :
    ∀ z, m.next t = some z → p < m.nodes.last ∧ z = m.nodes.seq (p + 1) := by
  intro z hz
  rcases hg.next hc with ⟨hlt, hn⟩ | ⟨-, -, hn⟩
  · rw [hn] at hz
    exact ⟨hlt, (Option.some.inj hz).symm⟩
  · rw [hn] at hz
    cases hz

theorem enqNext_leads (hc : Core m) {k : Enqueuer} {t : Option N}
    (hk : Knows i m (.enqNext k e v t)) (hh : m.history.Consistent i none) :
    Leads i m (m.act i (.enqNext k e v t)) := by
  obtain ⟨hr, x, p, rfl, hg, hp⟩ := hk
  by_cases hkk : k = .tryEnqueue
  · cases hn : m.next x with
    | none =>
      unfold Mem.act
      simp only [if_pos hkk, hn]
      exact .stay ⟨hr, p, hg, hp⟩ hh
    | some n =>
      unfold Mem.act
      simp only [if_pos hkk, hn]
      exact .stay ⟨hr, p, hg, hg.loaded hc n hn⟩ hh
  · unfold Mem.act
    simp only [if_neg hkk]
    exact .stay ⟨hr, p, hg, hp, hg.loaded hc⟩ hh

theorem enqRecheck_leads {n : Option N} (hk : Knows i m (.enqRecheck e v t n))
    (hh : m.history.Consistent i none) : Leads i m (m.act i (.enqRecheck e v t n)) := by
  obtain ⟨hr, p, hg, hp, hz⟩ := hk
  by_cases he : m.tail = some t
  · cases n with
    | none =>
      unfold Mem.act
      simp only [if_pos he]
      exact .stay ⟨hr, p, hg, hp⟩ hh
    | some n =>
      unfold Mem.act
      simp only [if_pos he]
      exact .stay ⟨hr, p, hg, hz n rfl⟩ hh
  · unfold Mem.act
    simp only [if_neg he]
    exact .stay (q := .enqTail .enqueue e v) hr hh

theorem enqLink_leads (hc : Core m) {k : Enqueuer} (hk : Knows i m (.enqLink k e v t))
    (hh : m.history.Consistent i none) : Leads i m (m.act i (.enqLink k e v t)) := by
  obtain ⟨hr, p, hg, hp⟩ := hk
  have htail := hc.tail_le
  by_cases he : m.next t = none
  · unfold Mem.act
    simp only [if_pos he]
    rcases hg.next hc with ⟨-, hn⟩ | ⟨rfl, hin, -⟩
    · rw [he] at hn
      cases hn
    · have hlast : m.tailPos = m.nodes.last := le_antisymm htail hp
      have hseq := hg.seq
      subst hseq
      refine ⟨.single (.link e v hr hlast), ⟨m.nodes.last, hg.link hc hr.1, ?_, ?_⟩, hh.effect⟩
      · exact Nat.lt_succ_self _
      · exact (Window.push_seq_last e m.nodes).symm
  · unfold Mem.act
    simp only [if_neg he]
    exact again_leads .refl hr hh

/-! ## Dequeueing -/

theorem deqCheck_leads (hc : Core m) {h : Option N} (hk : Knows i m (.deqCheck h))
    (hh : m.history.Consistent i none) : Leads i m (m.act i (.deqCheck h)) := by
  by_cases he : h = m.head
  · unfold Mem.act
    simp only [if_pos he]
    have hz : m.hazard i .zero = h := hk
    rw [he, hc.head] at hz
    refine .stay ⟨_, m.nodes.first, he.trans hc.head, ?_, le_rfl⟩ hh
    exact .mk_inside le_rfl hc.valid.le hz
  · unfold Mem.act
    simp only [if_neg he]
    exact .stay trivial hh

theorem deqTail_leads (hc : Core m) {h : Option N} (hk : Knows i m (.deqTail h))
    (hh : m.history.Consistent i none) : Leads i m (m.act i (.deqTail h)) := by
  obtain ⟨x, p, rfl, hg, hp⟩ := hk
  refine .stay ⟨x, p, _, rfl, hc.tail, hg, hp, fun he hne => ?_⟩ hh
  refine lt_of_le_of_ne (he ▸ hc.first_le) fun hpos => hne ?_
  rw [hpos]

theorem tryTail_leads (hc : Core m) {h : Option N} (hh : m.history.Consistent i none) :
    Leads i m (m.act i (.tryTail h)) := by
  refine .stay ⟨le_rfl, _, hc.tail, fun hne => ?_⟩ hh
  refine lt_of_le_of_ne hc.first_le fun hpos => hne ?_
  rw [hpos]

/-- The position of `head` has not changed since `tail` was loaded. -/
theorem tryCheck_leads (hc : Core m) {h t : Option N} (hk : Knows i m (.tryCheck h t p))
    (calm : h = m.head → m.nodes.first = p) (hh : m.history.Consistent i none) :
    Leads i m (m.act i (.tryCheck h t p)) := by
  obtain ⟨hz, hp, y, rfl, hb⟩ := hk
  by_cases he : h = m.head
  · unfold Mem.act
    simp only [if_pos he]
    obtain rfl := calm he
    rw [he, hc.head] at hz
    refine .stay ⟨_, m.nodes.first, y, he.trans hc.head, rfl, ?_, le_rfl, fun _ => hb⟩ hh
    exact .mk_inside le_rfl hc.valid.le hz
  · unfold Mem.act
    simp only [if_neg he]
    exact .stay trivial hh

theorem deqNext_leads (hc : Core m) (hno : Noticed m) {k : Dequeuer} {h t : Option N}
    (hk : Knows i m (.deqNext k h t)) (hh : m.history.Consistent i none) :
    Leads i m (m.act i (.deqNext k h t)) := by
  obtain ⟨x, p, y, rfl, rfl, hg, hp, hb⟩ := hk
  refine .stay ⟨p, y, rfl, hg, hp, hb, hg.loaded hc, fun hn => ?_⟩ hh
  -- a null `next` is that of the last node, so `head` is still there
  rcases hg.next hc with ⟨-, hsome⟩ | ⟨hlast, hin, -⟩
  · rw [hn] at hsome
    cases hsome
  · have hfirst : m.nodes.first = p := le_antisymm hin hp
    refine ⟨?_, hno (hfirst.trans hlast) i⟩
    by_contra hne
    have hlt := hb hfirst (by rw [hg.seq]; exact hne)
    have htail := hc.tail_le
    omega

theorem deqProtect_leads {k : Dequeuer} {t n : Option N} (hk : Knows i m (.deqProtect k h t n))
    (hh : m.history.Consistent i none) : Leads i m (m.act i (.deqProtect k h t n)) := by
  obtain ⟨p, y, ht, hg, hp, hb, hz, hnone⟩ := hk
  refine ⟨.single (.setHazard .one n), ⟨⟨p, y, ht, ?_, hp, hb, hz, hnone⟩, ?_⟩, hh⟩
  · exact hg.setHazard (.inr nofun)
  · show Function.update m.hazard i _ i .one = n
    rw [Function.update_self, Function.update_self]

theorem deqRecheck_leads (hc : Core m) {k : Dequeuer} {t n : Option N}
    (hk : Knows i m (.deqRecheck k h t n)) (hh : m.history.Consistent i none) :
    Leads i m (m.act i (.deqRecheck k h t n)) := by
  obtain ⟨⟨p, y, rfl, hg, hp, hb, hz, hnone⟩, hone⟩ := hk
  by_cases he : m.head = some h
  · have hfirst : m.nodes.first = p := by
      rw [hc.head] at he
      exact hg.position hc le_rfl hc.valid.le (Option.some.inj he)
    cases n with
    | none =>
      obtain ⟨rfl, hempty⟩ := hnone rfl
      cases k with
      | dequeue =>
        unfold Mem.act
        simp only [if_pos he, if_true]
        exact .stay hempty hh
      | tryDequeue =>
        unfold Mem.act
        simp only [if_pos he, reduceCtorEq, if_false, if_true]
        exact .stay trivial hh
    | some n =>
      obtain ⟨hlt, rfl⟩ := hz n rfl
      by_cases hy : some y = some h
      · unfold Mem.act
        simp only [if_pos he, if_pos hy]
        exact .stay ⟨p, hg, hlt, rfl⟩ hh
      · unfold Mem.act
        simp only [if_pos he, if_neg hy]
        refine .stay ⟨p, _, rfl, hg, .mk_inside (by omega) hlt hone, hp, fun _ => ?_⟩ hh
        refine hb hfirst fun hseq => hy ?_
        rw [← hseq, hg.seq]
  · unfold Mem.act
    simp only [if_neg he]
    exact restart_leads .refl hh

theorem deqCas_leads (hc : Core m) {k : Dequeuer} {n : Option N}
    (hk : Knows i m (.deqCas k h n)) (hh : m.history.Consistent i none) :
    Leads i m (m.act i (.deqCas k h n)) := by
  obtain ⟨p, z, rfl, hg, hg', hp, hlt⟩ := hk
  by_cases he : m.head = some h
  · unfold Mem.act
    simp only [if_pos he]
    rw [hc.head] at he
    obtain rfl := hg.position hc le_rfl hc.valid.le (Option.some.inj he)
    have hseq := hg'.seq
    subst hseq
    cases he
    refine ⟨.single (.take (hlt rfl)), ⟨_, m.nodes.first + 1, rfl, ?_, rfl⟩, hh.effect⟩
    exact hg'.take hc (hlt rfl) _
  · unfold Mem.act
    simp only [if_neg he]
    exact restart_leads .refl hh

/-- The node that `head` was moved to is still protected when its value is loaded. -/
theorem deqValue_leads (hc : Core m) {k : Dequeuer} {n : Option N}
    (hk : Knows i m (.deqValue k h n v)) (hh : m.history.Consistent i (some (.dequeue v))) :
    Leads i m (m.act i (.deqValue k h n v)) := by
  obtain ⟨z, p, rfl, hg, rfl⟩ := hk
  unfold Mem.act
  dsimp only
  rw [hg.value hc]
  refine ⟨.single (.finish _), ?_, hh.complete⟩
  cases k <;> trivial

/-! ## Steps and runs -/

/-- Where `ck_hp_fifo_trydequeue_mpmc` finds the node it has loaded from `head` there again,
`head` has not been moved since `tail` was loaded. -/
def Calm (m : Mem N V ι) : Pc N V → Prop
  | .tryCheck h _ p => h = m.head → m.nodes.first = p
  | _ => True

/-- One access of a thread. -/
theorem act_leads (hc : Core m) (hno : Noticed m) {pc : Pc N V} (running : ¬ pc.Resting)
    (calm : Calm m pc) (hk : Knows i m pc) (hh : m.history.Consistent i pc.pending) :
    Leads i m (m.act i pc) := by
  cases pc with
  | enqValue k e v =>
    exact ⟨.single (.storeValue e v hk), ⟨hk, Function.update_self _ _ _⟩, hh⟩
  | enqClear k e v =>
    exact ⟨.single (.clearNext e hk.1), ⟨hk.1, hk.2, Function.update_self _ _ _⟩, hh⟩
  | enqTail k e v => exact .stay (q := .enqHazard k e v m.tail) hk hh
  | enqHazard k e v t =>
    refine ⟨.single (.setHazard .zero t), ⟨hk, ?_⟩, hh⟩
    show Function.update m.hazard i _ i .zero = t
    rw [Function.update_self, Function.update_self]
  | enqCheck k e v t => exact enqCheck_leads hc hk hh
  | enqNext k e v t => exact enqNext_leads hc hk hh
  | enqRecheck e v t n => exact enqRecheck_leads hk hh
  | enqHelp k e v t n =>
    obtain ⟨hr, p, hg, hn⟩ := hk
    refine again_leads (casTail_changes hc hg hn) hr.casTail ?_
    rw [casTail_history]
    exact hh
  | enqLink k e v t => exact enqLink_leads hc hk hh
  | enqForward e v t =>
    obtain ⟨p, hg, hn⟩ := hk
    refine ⟨(casTail_changes hc hg hn).tail (.finish _), trivial, ?_⟩
    refine History.Consistent.complete ?_
    rw [casTail_history]
    exact hh
  | deqHead => exact .stay (q := .deqHazard m.head) trivial hh
  | deqHazard h =>
    refine ⟨.single (.setHazard .zero h), ?_, hh⟩
    show Function.update m.hazard i _ i .zero = h
    rw [Function.update_self, Function.update_self]
  | deqCheck h => exact deqCheck_leads hc hk hh
  | deqTail h => exact deqTail_leads hc hk hh
  | tryHead => exact .stay (q := .tryTail m.head) trivial hh
  | tryTail h => exact tryTail_leads hc hh
  | tryHazard h t p =>
    obtain ⟨hp, hy⟩ := hk
    refine ⟨.single (.setHazard .zero h), ⟨?_, hp, hy⟩, hh⟩
    show Function.update m.hazard i _ i .zero = h
    rw [Function.update_self, Function.update_self]
  | tryCheck h t p => exact tryCheck_leads hc hk calm hh
  | deqNext k h t => exact deqNext_leads hc hno hk hh
  | deqProtect k h t n => exact deqProtect_leads hk hh
  | deqRecheck k h t n => exact deqRecheck_leads hc hk hh
  | deqReset => exact ⟨.single (.setHazard .zero none), hk, hh⟩
  | deqResetNext => exact ⟨.single (.setHazard .one none), hk, hh⟩
  | deqHelp k t n =>
    obtain ⟨p, hg, hn⟩ := hk
    refine restart_leads (casTail_changes hc hg hn) ?_
    rw [casTail_history]
    exact hh
  | deqCas k h n => exact deqCas_leads hc hk hh
  | deqValue k h n v => exact deqValue_leads hc hk hh
  | idle => exact absurd trivial running
  | enqueued ok => exact absurd trivial running
  | dequeued k r => exact absurd trivial running
  | crashed => exact hk.elim

theorem Changes.core (hc : Core m) (h : Changes i m m') : Core m' := by
  induction h with
  | refl => exact hc
  | tail _ hch ih => exact hch.core ih

theorem Changes.knows (hc : Core m) (h : Changes i m m') (hj : j ≠ i) {pc : Pc N V}
    (hk : Knows j m pc) : Knows j m' pc := by
  induction h with
  | refl => exact hk
  | tail hs hch ih => exact ih.change (Changes.core hc hs) hch hj

theorem Changes.history (h : Changes i m m') (hj : j ≠ i) {q : Option (Op V)}
    (hq : m.history.Consistent j q) : m'.history.Consistent j q := by
  induction h with
  | refl => exact hq
  | tail _ hch ih => exact hch.history hj ih

omit [DecidableEq N] [DecidableEq ι] in
theorem observe_noticed (m : Mem N V ι) : Noticed m.observe := by
  intro h i
  have h' : m.nodes.first = m.nodes.last := h
  simp [Mem.observe, h']

omit [DecidableEq N] [DecidableEq ι] in
theorem Guard.observe {s : Slot} (hg : Guard m i s t p) : Guard m.observe i s t p := { hg with }

omit [DecidableEq N] [DecidableEq ι] in
theorem Knows.observe {pc : Pc N V} (hk : Knows i m pc) : Knows i m.observe pc := by
  have hmono : m.sawEmpty i = true → m.observe.sawEmpty i = true := by
    intro h
    simp [Mem.observe, h]
  have hlooked : ∀ {h t n}, Looked m i h t n → Looked m.observe i h t n := by
    rintro h t n ⟨p, y, ht, hg, hp, hb, hz, hnone⟩
    exact ⟨p, y, ht, hg.observe, hp, hb, hz, fun hn => ⟨(hnone hn).1, hmono (hnone hn).2⟩⟩
  cases pc with
  | enqNext k e v t =>
    obtain ⟨hr, x, p, ht, hg, hp⟩ := hk
    exact ⟨hr, x, p, ht, hg.observe, hp⟩
  | enqRecheck e v t n =>
    obtain ⟨hr, p, hg, hp⟩ := hk
    exact ⟨hr, p, hg.observe, hp⟩
  | enqHelp k e v t n =>
    obtain ⟨hr, p, hg, hp⟩ := hk
    exact ⟨hr, p, hg.observe, hp⟩
  | enqLink k e v t =>
    obtain ⟨hr, p, hg, hp⟩ := hk
    exact ⟨hr, p, hg.observe, hp⟩
  | enqForward e v t =>
    obtain ⟨p, hg, hp⟩ := hk
    exact ⟨p, hg.observe, hp⟩
  | deqTail h =>
    obtain ⟨x, p, hh, hg, hp⟩ := hk
    exact ⟨x, p, hh, hg.observe, hp⟩
  | deqNext k h t =>
    obtain ⟨x, p, y, hh, ht, hg, hp⟩ := hk
    exact ⟨x, p, y, hh, ht, hg.observe, hp⟩
  | deqProtect k h t n => exact hlooked hk
  | deqRecheck k h t n => exact ⟨hlooked hk.1, hk.2⟩
  | deqReset => exact hmono hk
  | deqResetNext => exact hmono hk
  | deqHelp k t n =>
    obtain ⟨p, hg, hp⟩ := hk
    exact ⟨p, hg.observe, hp⟩
  | deqCas k h n =>
    obtain ⟨p, z, hn, hg, hg', hp⟩ := hk
    exact ⟨p, z, hn, hg.observe, hg'.observe, hp⟩
  | deqValue k h n v =>
    obtain ⟨z, p, hn, hg, hv⟩ := hk
    exact ⟨z, p, hn, hg.observe, hv⟩
  | dequeued k r =>
    cases k <;> cases r <;> first | trivial | exact hmono hk
  | _ => exact hk

/-- What thread `i` knows, and its part of the history. -/
def At (i : ι) (m : Mem N V ι) (pc : Pc N V) : Prop :=
  Knows i m pc ∧ m.history.Consistent i pc.pending

/-- What a step does to the queue and to the knowledge of the thread that makes it. -/
theorem step_changes {pc pc' : Pc N V} (hs : Step i m pc m' pc') (calm : Calm m pc) (hc : Core m)
    (hno : Noticed m) (hat : At i m pc) :
    ∃ m₁, m' = m₁.observe ∧ Changes i m m₁ ∧ At i m' pc' := by
  have hrest : pc.Resting → m.history.Consistent i none := by
    intro hr
    have hh := hat.2
    cases pc <;> first | exact hh | exact hr.elim
  cases hs with
  | enqueue k e v resting outside =>
    exact ⟨_, rfl, (Relation.ReflTransGen.single (.hold e outside)).tail .enter,
      Function.update_self _ _ _, hrest resting⟩
  | dequeue resting => exact ⟨_, rfl, .single .enter, trivial, hrest resting⟩
  | tryDequeue resting => exact ⟨_, rfl, .single .enter, trivial, hrest resting⟩
  | scan x j s resting retired clear =>
    refine ⟨_, rfl, .single (.scan x j s clear), Knows.observe ?_, hat.2⟩
    have hk := hat.1
    cases pc with
    | dequeued k r => cases k <;> cases r <;> exact hk
    | idle => trivial
    | enqueued => trivial
    | _ => exact resting.elim
  | reclaim x resting retired clear =>
    refine ⟨_, rfl, .single (.reclaim x retired clear), Knows.observe ?_, hat.2⟩
    have hk := hat.1
    cases pc with
    | dequeued k r => cases k <;> cases r <;> exact hk
    | idle => trivial
    | enqueued => trivial
    | _ => exact resting.elim
  | act running =>
    obtain ⟨hch, hk, hh⟩ := act_leads hc hno running calm hat.1 hat.2
    exact ⟨_, rfl, hch, hk.observe, hh⟩

/-- A step in which a `tail` that was loaded too early is not relied on. -/
def CalmStep (i : ι) (m : Mem N V ι) (pc : Pc N V) (m' : Mem N V ι) (pc' : Pc N V) : Prop :=
  Step i m pc m' pc' ∧ Calm m pc

theorem invariant : Invariant (CalmStep (N := N) (V := V) (ι := ι)) (fun _ _ _ => True)
    (fun m => Core m ∧ Noticed m) At where
  own hstep _ hi hat := by
    obtain ⟨m₁, rfl, hch, hat'⟩ := step_changes hstep.1 hstep.2 hi.1 hi.2 hat
    exact ⟨⟨{ hch.core hi.1 with }, observe_noticed m₁⟩, hat'⟩
  other hstep _ hi hat := by
    intro j q hj hq
    obtain ⟨m₁, rfl, hch, -⟩ := step_changes hstep.1 hstep.2 hi.1 hi.2 hat
    exact ⟨(hch.knows hi.1 hj hq.1).observe, hch.history hj hq.2⟩

omit [DecidableEq ι] in
theorem init_core (stub : N) (value : N → V) (next : N → Option N) :
    Core (init (ι := ι) stub value next) where
  valid := ⟨le_rfl, fun {j k} _ hj _ hk _ => by
    have hj' : j ≤ 0 := hj
    have hk' : k ≤ 0 := hk
    omega⟩
  linked := ⟨fun _ _ h => absurd h (Nat.not_lt_zero _), Function.update_self _ _ _⟩
  head := rfl
  tail := rfl
  first_le := le_rfl
  tail_le := le_rfl
  last_le := Nat.zero_le _
  filed _ _ _ := rfl
  inside x := by
    show Function.update (fun _ => (Place.outside : Place ι)) stub .inside x = .inside ↔ _
    by_cases hx : x = stub
    · subst hx
      rw [Function.update_self]
      exact ⟨fun _ => ⟨0, le_rfl, le_rfl, rfl⟩, fun _ => rfl⟩
    · rw [Function.update_of_ne hx]
      refine ⟨nofun, ?_⟩
      rintro ⟨k, -, -, he⟩
      exact absurd he.symm hx
  legal := .nil

/-- What holds at every moment of a run. -/
structure IsQueue (s : System (Mem N V ι) (Pc N V) ι) : Prop where
  head_ne_none : s.mem.head ≠ none
  tail_ne_none : s.mem.tail ≠ none
  /-- The operations in the order in which they take effect are a history of a queue. -/
  legal : Legal Queue.Next [] (s.mem.history.events.map Prod.snd) (contents s.mem)
  /-- What has been enqueued is what has been dequeued, followed by what is in the queue. -/
  in_order : (s.mem.history.events.map Prod.snd).filterMap Op.input =
    (s.mem.history.events.map Prod.snd).filterMap Op.output ++ contents s.mem
  /-- Every operation takes effect once, between its call and its return. -/
  consistent : ∀ i, s.mem.history.Consistent i (s.pc i).pending
  /-- `ck_hp_fifo_dequeue_mpmc` has failed only if the queue was empty at some moment. -/
  empty : ∀ i, s.pc i = .dequeued .dequeue none → s.mem.sawEmpty i = true
  alive : ∀ i, s.pc i ≠ .crashed

section Small

/-- One access of thread `i`, and its effect on what the threads have seen. -/
def access (i : ι) (m : Mem N V ι) (pc : Pc N V) : Mem N V ι × Pc N V :=
  ((m.act i pc).1.observe, (m.act i pc).2)

omit [DecidableEq ι] in
instance (m : Mem N V ι) : (pc : Pc N V) → Decidable (Calm m pc)
  | .tryCheck h _ p => inferInstanceAs (Decidable (h = m.head → m.nodes.first = p))
  | .idle | .enqValue .. | .enqClear .. | .enqTail .. | .enqHazard .. | .enqCheck .. | .enqNext ..
  | .enqRecheck .. | .enqHelp .. | .enqLink .. | .enqForward .. | .enqueued .. | .deqHead
  | .deqHazard .. | .deqCheck .. | .deqTail .. | .tryHead | .tryTail .. | .tryHazard ..
  | .deqNext .. | .deqProtect .. | .deqRecheck .. | .deqReset | .deqResetNext | .deqHelp ..
  | .deqCas .. | .deqValue .. | .dequeued .. | .crashed => isTrue trivial

variable {s₀ s : System (Mem N V ι) (Pc N V) ι}

/-- Thread `i` makes `n` accesses of its call. -/
theorem acts_reachable (hr : System.Reachable Step (fun _ _ _ => True) s₀ s) (i : ι) (n : Nat)
    (running : ∀ k < n, ¬ ((s.acts access i k).pc i).Resting) :
    System.Reachable Step (fun _ _ _ => True) s₀ (s.acts access i n) := by
  refine hr.acts i n (fun k hk m pc _ hpc => .inr ?_) (fun _ _ _ => trivial)
  have hrun := running k hk
  rw [hpc] at hrun
  exact .act hrun

/-- Thread `i` makes `n` accesses of its call that rely on nothing old. -/
theorem calm_acts_reachable (hr : System.Reachable CalmStep (fun _ _ _ => True) s₀ s) (i : ι)
    (n : Nat) (running : ∀ k < n, ¬ ((s.acts access i k).pc i).Resting)
    (calm : ∀ k < n, Calm (s.acts access i k).mem ((s.acts access i k).pc i)) :
    System.Reachable CalmStep (fun _ _ _ => True) s₀ (s.acts access i n) := by
  refine hr.acts i n (fun k hk m pc hm hpc => .inr ?_) (fun _ _ _ => trivial)
  have hrun := running k hk
  have hcalm := calm k hk
  rw [hm, hpc] at hcalm
  rw [hpc] at hrun
  exact ⟨.act hrun, hcalm⟩

end Small

end ConcurrencyKit.HpFifo
