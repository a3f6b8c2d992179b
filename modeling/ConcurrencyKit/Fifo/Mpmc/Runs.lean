import ConcurrencyKit.Fifo.Mpmc.Invariant

/-!
# Runs of `ck_fifo_mpmc`

Every interleaving of any number of threads is linearizable to a queue. An enqueue takes effect
when its node is linked, a dequeue when `head` is moved; a dequeue that finds the queue empty
has looked at the `next` of the first node while it was the last one.
-/

namespace ConcurrencyKit.Fifo.Mpmc

open Linear (History Legal)
open Queue (Op)
open Threads (Invariant System eq_of_mod_eq)

variable {N V ι : Type} [DecidableEq N] [DecidableEq ι] {W : Nat} {i j : ι} {m m' : Mem N V ι}
  {t n e h : N} {v : V} {tg ng hg : Nat}

/-- What a step of thread `i` does to the queue. -/
def Changes (i : ι) : Mem N V ι → Mem N V ι → Prop := Relation.ReflTransGen (Change i)

/-- The outcome of an access: changes of the queue, and what the thread knows afterwards. -/
def Leads (i : ι) (m : Mem N V ι) (r : Mem N V ι × Pc N V) : Prop :=
  Changes i m r.1 ∧ Knows i r.1 r.2 ∧ r.1.history.Consistent i r.2.pending

theorem Leads.stay {q : Pc N V} (hk : Knows i m q) (hh : m.history.Consistent i q.pending) :
    Leads i m (m, q) :=
  ⟨.refl, hk, hh⟩

omit [DecidableEq ι] in
theorem Ready.casTail (hr : Ready m i e v) : Ready (m.casTail W t tg n) i e v := by
  unfold Mem.casTail
  split
  · exact ⟨hr.1, hr.2.1, hr.2.2.1, hr.2.2.2.trans (Nat.le_succ _)⟩
  · exact hr

omit [DecidableEq ι] in
theorem casTail_history : (m.casTail W t tg n).history = m.history := by
  unfold Mem.casTail
  split <;> rfl

/-- A compare-and-swap of `tail` that succeeds moves it to the node behind it. -/
theorem casTail_changes (ht : TailTimely W m tg) (ha : Ahead m tg n) :
    Changes i m (m.casTail W t tg n) := by
  unfold Mem.casTail
  split
  · rename_i hcas
    obtain ⟨hlt, rfl⟩ := ha.2 (eq_of_mod_eq ha.1 ht hcas.2.symm)
    exact .single (.forward hlt)
  · exact .refl

theorem again_leads {k : Enqueuer} (hch : Changes i m m') (hr : Ready m' i e v)
    (hh : m'.history.Consistent i none) : Leads i m (m'.again k e v) := by
  unfold Mem.again
  split
  · exact ⟨hch.tail (.release e hr.1), trivial, hh⟩
  · exact ⟨hch, hr, hh⟩

theorem restart_leads {k : Dequeuer} (hch : Changes i m m') (hh : m'.history.Consistent i none) :
    Leads i m (m'.restart k) := by
  unfold Mem.restart
  split
  · rename_i h
    subst h
    exact ⟨hch, trivial, hh⟩
  · exact ⟨hch, trivial, hh⟩

omit [DecidableEq N] [DecidableEq ι] in
/-- The `next` of `tail` is null if and only if `tail` is the last node. -/
theorem Core.next_tail (hc : Core m) :
    m.tailPos = m.nodes.last ∧ m.next m.tail = none ∨
      m.tailPos < m.nodes.last ∧ m.next m.tail = some (m.nodes.seq (m.tailPos + 1)) := by
  rw [hc.tail]
  rcases Nat.lt_or_ge m.tailPos m.nodes.last with hlt | hge
  · exact .inr ⟨hlt, hc.linked.succ _ hc.first_le hlt⟩
  · have heq := le_antisymm hc.tail_le hge
    rw [heq]
    exact .inl ⟨rfl, hc.linked.ends⟩

omit [DecidableEq N] [DecidableEq ι] in
/-- The `next` of `head` is null if and only if the queue is empty. -/
theorem Core.next_head (hc : Core m) :
    m.nodes.first = m.nodes.last ∧ m.next m.head = none ∨
      m.nodes.first < m.nodes.last ∧ m.next m.head = some (m.nodes.seq (m.nodes.first + 1)) := by
  rw [hc.head]
  rcases Nat.lt_or_ge m.nodes.first m.nodes.last with hlt | hge
  · exact .inr ⟨hlt, hc.linked.succ _ le_rfl hlt⟩
  · have heq := le_antisymm hc.valid.le hge
    rw [heq]
    exact .inl ⟨rfl, hc.linked.ends⟩

/-- One access of an enqueue operation. -/
theorem enqNext_leads (hc : Core m) {k : Enqueuer}
    (hk : Knows i m (.enqNext k e v tg t ng)) (hh : m.history.Consistent i none) :
    Leads i m (m.act W i (.enqNext k e v tg t ng)) := by
  obtain ⟨hr, hs, hg⟩ := hk
  refine .stay (q := .enqCheck k e v tg t ng (m.next t)) ?_ hh
  cases hn : m.next t with
  | none =>
    refine ⟨hr, hs, fun he => ⟨hs.2.2, .inl ⟨hn, hg he hn, ?_⟩⟩⟩
    obtain rfl := hs.2.1 he
    rcases hc.next_tail with ⟨hpos, -⟩ | ⟨-, hsome⟩
    · rw [hc.tail, hpos]
      exact ⟨rfl, rfl⟩
    · rw [hn] at hsome
      cases hsome
  | some n =>
    refine ⟨hr, hs.1, fun he => ?_⟩
    obtain rfl := hs.2.1 he
    rcases hc.next_tail with ⟨-, hnone⟩ | ⟨hlt, hsome⟩
    · rw [hn] at hnone
      cases hnone
    · rw [hn] at hsome
      exact ⟨hlt, Option.some.inj hsome⟩

theorem enqLink_leads (hc : Core m) {k : Enqueuer} (hlt : m.nextGen t < ng + W)
    (hk : Knows i m (.enqLink k e v tg t ng)) (hh : m.history.Consistent i none) :
    Leads i m (m.act W i (.enqLink k e v tg t ng)) := by
  obtain ⟨hr, hs, -, hsnap⟩ := hk
  by_cases hcas : m.next t = none ∧ m.nextGen t % W = ng % W
  · obtain ⟨-, -, rfl, hpos⟩ | hgt := hsnap
    · unfold Mem.act
      simp only [if_pos hcas]
      refine ⟨.single (.link e v hr hpos), ⟨hs.1, fun he => ⟨?_, ?_⟩⟩, hh.effect⟩
      · exact Nat.lt_succ_of_le hc.tail_le
      · show e = (m.nodes.push e).seq (m.tailPos + 1)
        rw [hpos, Window.push_seq_last]
    · exact absurd (eq_of_mod_eq hgt.le hlt hcas.2.symm) hgt.ne
  · unfold Mem.act
    simp only [if_neg hcas]
    exact again_leads .refl hr hh

theorem deqNext_leads (hc : Core m) (hno : Noticed m) {k : Dequeuer}
    (hk : Knows i m (.deqNext k hg h tg t)) (hh : m.history.Consistent i none) :
    Leads i m (m.act W i (.deqNext k hg h tg t)) := by
  obtain ⟨hs, ht, hlt⟩ := hk
  by_cases he : h = t
  · subst he
    cases hn : m.next h with
    | none =>
      by_cases hkk : k = .tryDequeue
      · unfold Mem.act
        simp only [if_true, hn, if_pos hkk]
        subst hkk
        exact .stay trivial hh
      · unfold Mem.act
        simp only [if_true, hn, if_neg hkk]
        refine .stay ⟨hs.1, fun hcur => ?_⟩ hh
        obtain rfl := hs.2 hcur
        rcases hc.next_head with ⟨hempty, -⟩ | ⟨-, hsome⟩
        · exact hno hempty i
        · rw [hn] at hsome
          cases hsome
    | some n =>
      unfold Mem.act
      simp only [if_true, hn]
      refine .stay ⟨ht.1, fun hcur => ?_⟩ hh
      obtain rfl := ht.2.1 hcur
      rcases hc.next_tail with ⟨-, hnone⟩ | ⟨hlt', hsome⟩
      · rw [hn] at hnone
        cases hnone
      · rw [hn] at hsome
        exact ⟨hlt', Option.some.inj hsome⟩
  · cases hn : m.next h with
    | none =>
      unfold Mem.act
      simp only [if_neg he, hn]
      exact restart_leads .refl hh
    | some n =>
      unfold Mem.act
      simp only [if_neg he, hn]
      refine .stay ⟨hs.1, fun hcur => ⟨hlt hcur he, ?_⟩⟩ hh
      obtain rfl := hs.2 hcur
      rcases hc.next_head with ⟨-, hnone⟩ | ⟨-, hsome⟩
      · rw [hn] at hnone
        cases hnone
      · rw [hn] at hsome
        exact Option.some.inj hsome

theorem deqCas_leads (hc : Core m) {k : Dequeuer} (ht : HeadTimely W m hg)
    (hk : Knows i m (.deqCas k hg h n v)) (hh : m.history.Consistent i none) :
    Leads i m (m.act W i (.deqCas k hg h n v)) := by
  by_cases hcas : m.head = h ∧ m.headGen % W = hg % W
  · obtain ⟨hlt, rfl, rfl⟩ := hk.2 (eq_of_mod_eq hk.1 ht hcas.2.symm)
    unfold Mem.act
    simp only [if_pos hcas]
    rw [← hcas.1, hc.head]
    refine ⟨.single (.take hlt), ?_, hh.effect.complete⟩
    cases k <;> trivial
  · unfold Mem.act
    simp only [if_neg hcas]
    exact restart_leads .refl hh

/-- One access of a thread. -/
theorem act_leads (hc : Core m) (hno : Noticed m) {pc : Pc N V} (running : ¬ pc.Resting)
    (ht : Timely W i m pc) (hk : Knows i m pc) (hh : m.history.Consistent i pc.pending) :
    Leads i m (m.act W i pc) := by
  cases pc with
  | enqValue k e v =>
    exact ⟨.single (.storeValue e v hk), ⟨hk, Function.update_self _ _ _⟩, hh⟩
  | enqPointer k e v =>
    exact ⟨.single (.clearNext e hk.1), ⟨hk.1, hk.2, Function.update_self _ _ _⟩, hh⟩
  | enqSeed k e v =>
    refine .stay ⟨hk.1, hk.2.1, hk.2.2, le_rfl, fun hu => ?_⟩ hh
    exact hc.gen_le hu (hc.not_has hk.1 nofun)
  | enqGeneration k e v s =>
    obtain ⟨held, hv, hn, hle, hmono⟩ := hk
    refine ⟨.single (.storeGen e s held hle hmono), ⟨held, hv, hn, ?_⟩, hh⟩
    show Function.update m.nextGen e s e ≤ m.tailGen
    rw [Function.update_self]
    exact hle
  | enqTailGen k e v => exact .stay ⟨hk, le_rfl⟩ hh
  | enqTail k e v tg =>
    refine .stay ⟨hk.1, hk.2, fun _ => rfl, ?_⟩ hh
    rw [hc.tail]
    exact hc.used _ (.mk hc.first_le hc.tail_le)
  | enqNextGen k e v tg t => exact .stay ⟨hk.1, hk.2, fun _ _ => rfl⟩ hh
  | enqNext k e v tg t ng => exact enqNext_leads hc hk hh
  | enqCheck k e v tg t ng n =>
    by_cases he : m.tailGen % W = tg % W
    · cases n with
      | none =>
        unfold Mem.act
        simp only [if_pos he]
        exact .stay ⟨hk.1, hk.2.1, hk.2.2 (eq_of_mod_eq hk.2.1.1 ht.1 he.symm)⟩ hh
      | some n =>
        unfold Mem.act
        simp only [if_pos he]
        exact .stay hk hh
    · unfold Mem.act
      simp only [if_neg he]
      refine again_leads .refl ?_ hh
      cases n <;> exact hk.1
  | enqHelp k e v tg t n =>
    refine again_leads (casTail_changes ht hk.2) hk.1.casTail ?_
    rw [casTail_history]
    exact hh
  | enqLink k e v tg t ng => exact enqLink_leads hc ht.2 hk hh
  | enqForward e v tg t =>
    refine ⟨(casTail_changes ht hk).tail (.finish v), trivial, ?_⟩
    refine History.Consistent.complete ?_
    rw [casTail_history]
    exact hh
  | deqHeadGen k => exact .stay (q := .deqHead k m.headGen) le_rfl hh
  | deqHead k hg => exact .stay ⟨hk, fun _ => rfl⟩ hh
  | deqTailGen k hg h => exact .stay ⟨hk, le_rfl⟩ hh
  | deqTail k hg h tg =>
    refine .stay ⟨hk.1, ⟨hk.2, fun _ => rfl, ?_⟩, fun hcur hne => ?_⟩ hh
    · rw [hc.tail]
      exact hc.used _ (.mk hc.first_le hc.tail_le)
    · refine lt_of_le_of_ne hc.first_le fun hpos => hne ?_
      rw [hk.1.2 hcur, hc.head, hc.tail, hpos]
  | deqNextGen k hg h tg t => exact .stay hk hh
  | deqNext k hg h tg t => exact deqNext_leads hc hno hk hh
  | deqCheck hg =>
    by_cases he : m.headGen % W = hg % W
    · unfold Mem.act
      simp only [if_pos he]
      exact .stay (hk.2 (eq_of_mod_eq hk.1 ht he.symm)) hh
    · unfold Mem.act
      simp only [if_neg he]
      exact .stay trivial hh
  | deqHelp k tg t n =>
    refine restart_leads (casTail_changes ht hk) ?_
    rw [casTail_history]
    exact hh
  | deqValue k hg h n =>
    refine .stay ⟨hk.1, fun hcur => ?_⟩ hh
    obtain ⟨hlt, hn⟩ := hk.2 hcur
    have hlast := hc.tail_le
    refine ⟨hlt, hn, ?_⟩
    rw [hn]
    exact hc.filed _ (by omega) (by omega)
  | deqCas k hg h n v => exact deqCas_leads hc ht hk hh
  | idle => exact absurd trivial running
  | enqueued ok => exact absurd trivial running
  | dequeued k r => exact absurd trivial running

/-! ## The invariant of a run -/

theorem Changes.core (hc : Core m) (h : Changes i m m') : Core m' := by
  induction h with
  | refl => exact hc
  | tail _ hch ih => exact hch.core ih

theorem Changes.knows (hc : Core m) (h : Changes i m m') (hj : j ≠ i) {pc : Pc N V}
    (hk : Knows j m pc) : Knows j m' pc := by
  induction h with
  | refl => exact hk
  | tail hs hch ih => exact ih.frame (Changes.core hc hs) (hch.frame (Changes.core hc hs)) hj

theorem Changes.history (h : Changes i m m') (hj : j ≠ i) {p : Option (Op V)}
    (hp : m.history.Consistent j p) : m'.history.Consistent j p := by
  induction h with
  | refl => exact hp
  | tail _ hch ih => exact hch.history hj ih

omit [DecidableEq N] [DecidableEq ι] in
theorem Core.observe (hc : Core m) : Core m.observe := { hc with }

omit [DecidableEq N] [DecidableEq ι] in
theorem observe_noticed (m : Mem N V ι) : Noticed m.observe := by
  intro h i
  have h' : m.nodes.first = m.nodes.last := h
  simp [Mem.observe, h']

omit [DecidableEq N] [DecidableEq ι] in
theorem Knows.observe {pc : Pc N V} (hk : Knows i m pc) : Knows i m.observe pc := by
  have hmono : m.sawEmpty i = true → m.observe.sawEmpty i = true := by
    intro h
    simp [Mem.observe, h]
  cases pc with
  | enqCheck k e v tg t ng n => cases n <;> exact hk
  | deqCheck hg => exact ⟨hk.1, fun he => hmono (hk.2 he)⟩
  | dequeued k r =>
    cases k <;> cases r <;> first | trivial | exact hmono hk
  | _ => exact hk

/-- What thread `i` knows, and its part of the history. -/
def At (i : ι) (m : Mem N V ι) (pc : Pc N V) : Prop :=
  Knows i m pc ∧ m.history.Consistent i pc.pending

/-- What a step does to the queue and to the knowledge of the thread that makes it. -/
theorem step_changes {pc pc' : Pc N V} (hs : Step W i m pc m' pc') (ht : Timely W i m pc)
    (hc : Core m) (hno : Noticed m) (hat : At i m pc) :
    ∃ m₁, m' = m₁.observe ∧ Changes i m m₁ ∧ At i m' pc' := by
  have hrest : pc.Resting → pc.pending = none := by
    intro hr
    cases pc <;> first | rfl | exact hr.elim
  cases hs with
  | enqueue k e v resting outside =>
    refine ⟨_, rfl, (Relation.ReflTransGen.single (.hold e outside)).tail .enter,
      Function.update_self _ _ _, ?_⟩
    have hh := hat.2
    rw [hrest resting] at hh
    exact hh
  | dequeue k resting =>
    refine ⟨_, rfl, .single .enter, trivial, ?_⟩
    have hh := hat.2
    rw [hrest resting] at hh
    exact hh
  | act running =>
    obtain ⟨hch, hk, hh⟩ := act_leads hc hno running ht hat.1 hat.2
    exact ⟨_, rfl, hch, hk.observe, hh⟩

theorem invariant : Invariant (Step (N := N) (V := V) (ι := ι) W) (Timely W)
    (fun m => Core m ∧ Noticed m) At where
  own hstep ht hi hat := by
    obtain ⟨m₁, rfl, hch, hat'⟩ := step_changes hstep ht hi.1 hi.2 hat
    exact ⟨⟨(hch.core hi.1).observe, observe_noticed m₁⟩, hat'⟩
  other hstep ht hi hat := by
    intro j q hj hq
    obtain ⟨m₁, rfl, hch, -⟩ := step_changes hstep ht hi.1 hi.2 hat
    exact ⟨(hch.knows hi.1 hj hq.1).observe, hch.history hj hq.2⟩

omit [DecidableEq ι] in
theorem init_core (stub : N) (value : N → V) (next : N → Option N) (nextGen : N → Nat) :
    Core (init (ι := ι) stub value next nextGen) where
  valid := ⟨le_rfl, fun {j k} _ hj _ hk _ => by
    have hj' : j ≤ 0 := hj
    have hk' : k ≤ 0 := hk
    omega⟩
  linked := ⟨fun _ _ h => absurd h (Nat.not_lt_zero _), Function.update_self _ _ _⟩
  head := rfl
  tail := rfl
  first_le := le_rfl
  tail_le := le_rfl
  last_le := Nat.zero_le _
  filed k h h' := absurd (Nat.lt_of_lt_of_le h h') (Nat.lt_irrefl _)
  inside x := by
    show Function.update (fun _ => (Place.outside : Place ι)) stub .inside x = .inside ↔ _
    by_cases hx : x = stub
    · subst hx
      rw [Function.update_self]
      exact ⟨fun _ => ⟨0, le_rfl, le_rfl, rfl⟩, fun _ => rfl⟩
    · rw [Function.update_of_ne hx]
      refine ⟨nofun, ?_⟩
      rintro ⟨k, -, -, he⟩
      exact absurd he.symm hx
  used := by
    rintro x ⟨k, -, -, rfl⟩
    show Function.update (fun _ => false) stub true stub = true
    rw [Function.update_self]
  gens x hx := by
    left
    show Function.update nextGen stub 0 x ≤ 0
    by_cases he : x = stub
    · rw [he, Function.update_self]
    · have hx' : Function.update (fun _ => false) stub true x = true := hx
      rw [Function.update_of_ne he] at hx'
      cases hx'
  legal := .nil

/-- What holds at every moment of a run, and what the next step can return. -/
structure IsQueue (W : Nat) (s : System (Mem N V ι) (Pc N V) ι) : Prop where
  /-- The operations in the order in which they take effect are a history of a queue. -/
  legal : Legal Queue.Next [] (s.mem.history.events.map Prod.snd) (contents s.mem)
  /-- What has been enqueued is what has been dequeued, followed by what is in the queue. -/
  in_order : (s.mem.history.events.map Prod.snd).filterMap Op.input =
    (s.mem.history.events.map Prod.snd).filterMap Op.output ++ contents s.mem
  /-- Every operation takes effect once, between its call and its return. -/
  consistent : ∀ i, s.mem.history.Consistent i (s.pc i).pending
  /-- `ck_fifo_mpmc_dequeue` has failed only if the queue was empty at some moment. -/
  empty : ∀ i, s.pc i = .dequeued .dequeue none → s.mem.sawEmpty i = true
  /-- `tail` can be reached from `head`, and nodes outside the queue cannot. -/
  tail_reachable : Window.Path s.mem.next s.mem.head s.mem.tail
  unreachable : ∀ x, s.mem.place x ≠ .inside → ¬ Window.Path s.mem.next s.mem.head x
  /-- A dequeue returns the first value, and a node that is outside the queue from then on. -/
  returned : ∀ i m' k v g, Step W i s.mem (s.pc i) m' (.dequeued k (some (v, g))) →
    contents s.mem = v :: contents m' ∧ m'.place g = .outside ∧ ¬ Window.Path m'.next m'.head g

omit [DecidableEq N] [DecidableEq ι] in
theorem Core.unreachable (hc : Core m) {x : N} (hx : m.place x ≠ .inside) :
    ¬ Window.Path m.next m.head x := by
  intro hp
  rw [hc.head] at hp
  obtain ⟨k, hk, hk', rfl⟩ := hc.linked.of_path le_rfl hc.valid.le hp
  exact hx ((hc.inside _).mpr (.mk hk hk'))

/-- The step with which a dequeue succeeds. -/
theorem step_returns {pc : Pc N V} {k : Dequeuer} {g : N}
    (hs : Step W i m pc m' (.dequeued k (some (v, g)))) (ht : Timely W i m pc) (hc : Core m)
    (hk : Knows i m pc) :
    contents m = v :: contents m' ∧ m'.place g = .outside := by
  generalize hpc' : Pc.dequeued k (some (v, g)) = pc' at hs
  cases hs with
  | enqueue => cases hpc'
  | dequeue => cases hpc'
  | act running =>
    have hrestart : ∀ {m : Mem N V ι} {k'}, (m.restart k').2 ≠ Pc.dequeued k (some (v, g)) := by
      intro m k'
      unfold Mem.restart
      split <;> exact nofun
    have hagain : ∀ {m : Mem N V ι} {k' e v'},
        (m.again k' e v').2 ≠ Pc.dequeued k (some (v, g)) := by
      intro m k' e v'
      unfold Mem.again
      split <;> exact nofun
    cases pc with
    | deqCas k' hg h n v' =>
      by_cases hcas : m.head = h ∧ m.headGen % W = hg % W
      · unfold Mem.act at hpc' ⊢
        simp only [if_pos hcas] at hpc' ⊢
        cases hpc'
        obtain ⟨hlt, -, rfl⟩ := hk.2 (eq_of_mod_eq hk.1 ht hcas.2.symm)
        have hlast := hc.tail_le
        refine ⟨?_, Function.update_self _ _ _⟩
        exact Window.contents_pop (by omega) m.filed
      · unfold Mem.act at hpc'
        simp only [if_neg hcas] at hpc'
        exact absurd hpc'.symm hrestart
    | deqNext k' hg h tg t =>
      unfold Mem.act at hpc'
      dsimp only at hpc'
      split at hpc'
      · split at hpc'
        · split at hpc' <;> cases hpc'
        · cases hpc'
      · split at hpc'
        · exact absurd hpc'.symm hrestart
        · cases hpc'
    | deqCheck hg =>
      unfold Mem.act at hpc'
      dsimp only at hpc'
      split at hpc' <;> cases hpc'
    | deqHelp k' tg t n => exact absurd hpc'.symm hrestart
    | enqCheck k' e v' tg t ng n =>
      unfold Mem.act at hpc'
      dsimp only at hpc'
      split at hpc'
      · split at hpc' <;> cases hpc'
      · exact absurd hpc'.symm hagain
    | enqHelp k' e v' tg t n => exact absurd hpc'.symm hagain
    | enqLink k' e v' tg t ng =>
      unfold Mem.act at hpc'
      dsimp only at hpc'
      split at hpc'
      · cases hpc'
      · exact absurd hpc'.symm hagain
    | idle => exact absurd trivial running
    | enqueued ok => exact absurd trivial running
    | dequeued k r => exact absurd trivial running
    | _ => cases hpc'

/-- One access of thread `i`, and its effect on what the threads have seen. -/
def access (W : Nat) (i : ι) (m : Mem N V ι) (pc : Pc N V) : Mem N V ι × Pc N V :=
  ((m.act W i pc).1.observe, (m.act W i pc).2)

/-- Thread `i` makes `n` accesses of its call, while no generation goes round. -/
theorem acts_reachable {s₀ s : System (Mem N V ι) (Pc N V) ι}
    (hr : System.Reachable (Step W) (Timely W) s₀ s) (i : ι) (n : Nat)
    (running : ∀ k < n, ¬ ((s.acts (access W) i k).pc i).Resting)
    (timely : ∀ k < n + 1, ∀ j,
      Timely W j (s.acts (access W) i k).mem ((s.acts (access W) i k).pc j)) :
    System.Reachable (Step W) (Timely W) s₀ (s.acts (access W) i n) := by
  refine hr.acts i n (fun k hk m pc _ hpc => .inr ?_) timely
  have hrun := running k hk
  rw [hpc] at hrun
  exact .act hrun

end ConcurrencyKit.Fifo.Mpmc
