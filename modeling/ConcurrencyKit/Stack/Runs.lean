import ConcurrencyKit.Stack.Invariant

/-!
# Runs of `ck_stack`

Without `ck_stack_batch_pop_mpmc_wf` every interleaving is linearizable to a stack, with entries
that may be pushed again as soon as they have been popped. With it, this holds of the runs in
which no consumer succeeds with a snapshot of `head` that such a batch has swapped since. A snapshot
that was taken between the two steps of the batch can, and may bring an entry back that the batch
has returned.
-/

namespace ConcurrencyKit.Stack

open Lifo (Op Next Chain)
open Linear (Legal)
open Threads (Invariant System eq_of_mod_eq)

variable {N ι : Type} [DecidableEq N] [DecidableEq ι] {W : Nat} {may : Kind → Prop} {i : ι}
  {m m' : Mem N ι}

omit [DecidableEq N] [DecidableEq ι] in
theorem Loaded.now (hi : Inv W m) (hb : m.born i ≤ m.removals) :
    Loaded W m i m.generation m.removals :=
  ⟨hi.generation, hb, le_rfl⟩

omit [DecidableEq N] [DecidableEq ι] in
/-- A generation that has not wrapped tells whether something has been removed. -/
theorem Loaded.eq_removals (hi : Inv W m) (ht : m.removals < m.born i + W) {g n : Nat}
    (hl : Loaded W m i g n) (h : m.generation = g) : n = m.removals := by
  obtain ⟨hg, hb, hle⟩ := hl
  rw [hi.generation, hg] at h
  exact eq_of_mod_eq hle (by omega) h.symm

/-- A consumer looks at `head`. -/
theorem look_change (hi : Inv W m) {k : Popper} {g n : Nat} (hl : Loaded W m i g n) :
    Change W may i m (m.look i k g).1 ∧ At W i (m.look i k g).1 (m.look i k g).2 := by
  have hchain := hi.chain
  cases hh : m.head with
  | none =>
    rw [hh] at hchain
    have hempty : Next m.contents (k.empty (N := N)) m.contents := by
      rw [hchain.nil_of_none]
      cases k with
      | pop => exact .empty
      | tryPop => exact .miss []
      | batchPop => exact .popAll []
    simp only [Mem.look, hh]
    exact ⟨.note _ hempty, trivial⟩
  | some h =>
    rw [hh] at hchain
    obtain ⟨rest, hrest, -⟩ := hchain.cons_of_some
    have hmem : h ∈ m.contents := by
      rw [hrest]
      exact List.mem_cons_self
    simp only [Mem.look, hh]
    refine ⟨.look, ?_⟩
    split
    · next hk => exact ⟨n, hl, fun hk' => absurd hk hk'⟩
    · next hk => exact ⟨hk, n, hl, fun _ _ => hmem⟩

/-- A compare-and-swap of the pair that succeeds takes the top of the stack. -/
theorem cas_change (hi : Inv W m) (ht : m.removals < m.born i + W) {k : Popper} {g : Nat} {h : N}
    {next : Option N} (hat : At W i m (.popCas k g h next))
    (hcas : m.head = some h ∧ m.generation = g) (hk : k ≠ .batchPop) (hs : m.seen i = m.swaps) :
    Change W may i m (((m.take h next).advance W).finish i (.pop (some h))) := by
  obtain ⟨n, hl, hn⟩ := hat
  obtain ⟨-, rfl⟩ := hn hk (hl.eq_removals hi ht hcas.2) hs
  have hchain := hi.chain
  rw [hcas.1] at hchain
  obtain ⟨rest, hrest, -⟩ := hchain.cons_of_some
  exact .take h rest hrest

/-- The thread is in an operation that it may make. -/
def Role (may : Kind → Prop) (pc : Pc N) : Prop := pc = .wfAdd ∨ pc = .wfSwap → may .batchPopWf

/-- One access of thread `i`. -/
theorem act_change (hi : Inv W m) {pc : Pc N} (running : ¬ pc.Resting) (role : Role may pc)
    (ht : m.removals < m.born i + W) (hstale : ¬ Stale i m pc) (hat : At W i m pc) :
    Change W may i m (m.act W i pc).1 ∧ At W i (m.act W i pc).1 (m.act W i pc).2 := by
  cases pc with
  | pushHead k e => exact ⟨.stay, hat⟩
  | pushNext k e stack => exact ⟨.store e stack hat, hat, Function.update_self _ _ _⟩
  | pushCas k e stack =>
    obtain ⟨hheld, hnext⟩ := hat
    by_cases he : m.head = stack
    · unfold Mem.act
      simp only [if_pos he]
      exact ⟨.put e hheld (by rw [hnext, he]), trivial⟩
    · by_cases hk : k = .tryPush
      · unfold Mem.act
        simp only [if_neg he, if_pos hk]
        exact ⟨.release e hheld, trivial⟩
      · unfold Mem.act
        simp only [if_neg he, if_neg hk]
        exact ⟨.stay, hheld⟩
  | popGeneration k => exact ⟨.stay, m.removals, .now hi hat⟩
  | popHead k g =>
    obtain ⟨n, hl⟩ := hat
    exact look_change hi hl
  | popNext k g h =>
    obtain ⟨hk, n, hl, hn⟩ := hat
    exact ⟨.stay, n, hl, fun _ he hs => ⟨hn he hs, rfl⟩⟩
  | popCas k g h next =>
    by_cases hcas : m.head = some h ∧ m.generation = g
    · by_cases hk : k = .batchPop
      · unfold Mem.act
        simp only [if_pos hcas, if_pos hk]
        exact ⟨.clear, trivial⟩
      · unfold Mem.act
        simp only [if_pos hcas, if_neg hk]
        have hseen : m.seen i = m.swaps := not_not.mp fun hs => hstale ⟨hk, hcas, hs⟩
        exact ⟨cas_change hi ht hat hcas hk hseen, trivial⟩
    · by_cases hk : k = .tryPop
      · unfold Mem.act
        simp only [if_neg hcas, if_pos hk]
        exact ⟨.note .miss (.miss _), trivial⟩
      · unfold Mem.act
        simp only [if_neg hcas, if_neg hk]
        obtain ⟨n, hl, -⟩ := hat
        exact look_change hi (.now hi (hl.2.1.trans hl.2.2))
  | wfAdd => exact ⟨.add, trivial⟩
  | wfSwap => exact ⟨.swap (role (.inr rfl)), trivial⟩
  | idle => exact absurd trivial running
  | done op => exact absurd trivial running

theorem Role.act {pc : Pc N} (running : ¬ pc.Resting) (role : Role may pc) :
    Role may (m.act W i pc).2 := by
  have hlook : ∀ k g, Role may (m.look i k g).2 := by
    intro k g
    unfold Mem.look
    split
    · exact nofun
    · dsimp only
      split <;> exact nofun
  cases pc with
  | pushCas k e stack =>
    unfold Mem.act
    dsimp only
    split
    · exact nofun
    · split <;> exact nofun
  | popCas k g h next =>
    unfold Mem.act
    dsimp only
    split
    · split <;> exact nofun
    · split
      · exact nofun
      · exact hlook _ _
  | popHead k g => exact hlook k g
  | wfAdd => exact fun _ => role (.inl rfl)
  | idle => exact absurd trivial running
  | done op => exact absurd trivial running
  | _ => exact nofun

/-- A step of thread `i` that does not succeed with a stale snapshot. -/
theorem step_change {pc pc' : Pc N} (h : Step W may i m pc m' pc') (hi : Inv W m)
    (ht : Timely W i m pc) (hstale : ¬ Stale i m pc) (hat : Role may pc ∧ At W i m pc) :
    Change W may i m m' ∧ Role may pc' ∧ At W i m' pc' := by
  cases h with
  | push k e allowed resting outside =>
    exact ⟨.hold e outside, nofun, Function.update_self _ _ _⟩
  | pop k allowed resting =>
    refine ⟨.enter, nofun, ?_⟩
    show Function.update m.born i m.removals i ≤ m.removals
    rw [Function.update_self]
  | batchPopWf allowed resting => exact ⟨.enter, fun _ => allowed, trivial⟩
  | act running =>
    obtain ⟨hch, hat'⟩ := act_change hi running hat.1 (ht running) hstale hat.2
    exact ⟨hch, hat.1.act running, hat'⟩

/-- A thread that is at rest after a step has finished an operation with it. -/
def Records (i : ι) (m m' : Mem N ι) (pc' : Pc N) : Prop :=
  (∃ op, pc' = .done op ∧ m'.events = m.events ++ [(i, op)]) ∨
    ¬ pc'.Resting ∧ m'.events = m.events

/-- Every operation takes effect once, in the step in which it returns. -/
theorem step_records {pc pc' : Pc N} (h : Step W may i m pc m' pc') : Records i m m' pc' := by
  have hlook : ∀ k g, Records i m (m.look i k g).1 (m.look i k g).2 := by
    intro k g
    unfold Mem.look
    split
    · exact .inl ⟨_, rfl, rfl⟩
    · dsimp only
      split <;> exact .inr ⟨id, rfl⟩
  cases h with
  | push k e allowed resting outside => exact .inr ⟨id, rfl⟩
  | pop k allowed resting => exact .inr ⟨id, rfl⟩
  | batchPopWf allowed resting => exact .inr ⟨id, rfl⟩
  | act running =>
    cases pc with
    | pushCas k e stack =>
      unfold Mem.act
      dsimp only
      split
      · exact .inl ⟨_, rfl, rfl⟩
      · split
        · exact .inl ⟨_, rfl, rfl⟩
        · exact .inr ⟨id, rfl⟩
    | popCas k g h next =>
      unfold Mem.act
      dsimp only
      split
      · split <;> exact .inl ⟨_, rfl, rfl⟩
      · split
        · exact .inl ⟨_, rfl, rfl⟩
        · exact hlook _ _
    | popHead k g => exact hlook k g
    | wfSwap => exact .inl ⟨_, rfl, rfl⟩
    | idle => exact absurd trivial running
    | done op => exact absurd trivial running
    | _ => exact .inr ⟨id, rfl⟩

/-- What holds at every moment of a run: the operations so far, in the order in which they take
effect, are a history of a stack. -/
structure IsStack (W : Nat) (may : Kind → Prop) (s : System (Mem N ι) (Pc N) ι) : Prop where
  legal : Legal Next [] (s.mem.events.map Prod.snd) s.mem.contents
  /-- Following `next` from `head` gives what is on the stack. -/
  chain : Chain s.mem.next s.mem.head s.mem.contents
  nodup : s.mem.contents.Nodup
  /-- Between two operations that return an entry it is pushed. -/
  once : ∀ x front first mid second back,
    s.mem.events.map Prod.snd = front ++ first :: (mid ++ second :: back) →
    first.Returns x → second.Returns x → .push x ∈ mid
  /-- An entry that has been pushed and not been returned since is on the stack. -/
  kept : ∀ x front back, s.mem.events.map Prod.snd = front ++ .push x :: back →
    (∀ op ∈ back, ¬ op.Returns x) → x ∈ s.mem.contents
  records : ∀ i m' pc', Step W may i s.mem (s.pc i) m' pc' → Records i s.mem m' pc'

theorem Inv.isStack {s : System (Mem N ι) (Pc N) ι} (hi : Inv W s.mem) : IsStack W may s where
  legal := hi.legal
  chain := hi.chain
  nodup := hi.nodup
  once x front first mid second back he := by
    have hlegal := hi.legal
    rw [he] at hlegal
    exact Lifo.legal_once hlegal
  kept x front back he := by
    have hlegal := hi.legal
    rw [he] at hlegal
    exact Lifo.legal_kept hlegal
  records i m' pc' := step_records

omit [DecidableEq N] [DecidableEq ι] in
theorem init_inv (next : N → Option N) : Inv W (init (ι := ι) next) where
  chain := rfl
  nodup := List.nodup_nil
  generation := (Nat.zero_mod W).symm
  seen _ := le_rfl
  inside _ := ⟨nofun, fun h => absurd h List.not_mem_nil⟩
  legal := .nil

/-! ## Without the wait-free batch -/

/-- All operations but `ck_stack_batch_pop_mpmc_wf`. -/
def withoutWf (k : Kind) : Prop := k ≠ .batchPopWf

/-- No batch swaps `head`. -/
structure Unswapped (m : Mem N ι) : Prop where
  swaps : m.swaps = 0
  seen : ∀ i, m.seen i = 0

omit [DecidableEq N] [DecidableEq ι] in
theorem Unswapped.not_stale (hu : Unswapped m) (pc : Pc N) : ¬ Stale i m pc := by
  intro hs
  cases pc with
  | popCas k g h next => exact hs.2.2 ((hu.seen i).trans hu.swaps.symm)
  | _ => exact hs

theorem Change.unswapped (hu : Unswapped m) (h : Change W withoutWf i m m') : Unswapped m' := by
  cases h with
  | look =>
    refine ⟨hu.swaps, fun j => ?_⟩
    show Function.update m.seen i m.swaps j = 0
    by_cases hj : j = i
    · rw [hj, Function.update_self, hu.swaps]
    · rw [Function.update_of_ne hj, hu.seen]
  | swap allowed => exact absurd rfl allowed
  | _ => exact ⟨hu.swaps, hu.seen⟩

theorem invariant : Invariant (Step (N := N) (ι := ι) W withoutWf) (Timely W)
    (fun m => Inv W m ∧ Unswapped m) (fun i m pc => Role withoutWf pc ∧ At W i m pc) where
  own hstep ht hi hat := by
    obtain ⟨hch, hat'⟩ := step_change hstep hi.1 ht (hi.2.not_stale _) hat
    exact ⟨⟨hch.inv hi.1, hch.unswapped hi.2⟩, hat'⟩
  other hstep ht hi hat := by
    intro j q hj hq
    obtain ⟨hch, -⟩ := step_change hstep hi.1 ht (hi.2.not_stale _) hat
    exact ⟨hq.1, hq.2.frame hi.1 (hch.frame hi.1) hj⟩

theorem act_resting {pc : Pc N} (h : pc.Resting) : m.act W i pc = (m, pc) := by
  cases pc <;> first | rfl | exact h.elim

/-- A thread makes `n` accesses of its call, before the generation wraps. -/
theorem acts_reachable {next : N → Option N} {s : System (Mem N ι) (Pc N) ι}
    (hr : System.Reachable (Step W may) (Timely W) (start next) s) (i : ι) (n : Nat)
    (early : ∀ k < n + 1, (s.acts (Mem.act W) i k).mem.removals < W) :
    System.Reachable (Step W may) (Timely W) (start next) (s.acts (Mem.act W) i n) := by
  refine System.Reachable.acts hr i n (fun k hk m pc _ _ => ?_) fun k hk j _ => ?_
  · by_cases h : pc.Resting
    · exact .inl (act_resting h)
    · exact .inr (.act h)
  · exact Nat.lt_of_lt_of_le (early k hk) (Nat.le_add_left _ _)

/-- A step in which no consumer takes an entry with a snapshot of `head` that a batch has swapped
since. -/
def FreshStep (W : Nat) (may : Kind → Prop) (i : ι) (m : Mem N ι) (pc : Pc N) (m' : Mem N ι)
    (pc' : Pc N) : Prop :=
  Step W may i m pc m' pc' ∧ ¬ Stale i m pc

theorem fresh_invariant : Invariant (FreshStep (N := N) (ι := ι) W may) (Timely W) (Inv W)
    (fun i m pc => Role may pc ∧ At W i m pc) where
  own hstep ht hi hat := by
    obtain ⟨hch, hat'⟩ := step_change hstep.1 hi ht hstep.2 hat
    exact ⟨hch.inv hi, hat'⟩
  other hstep ht hi hat := by
    intro j q hj hq
    obtain ⟨hch, -⟩ := step_change hstep.1 hi ht hstep.2 hat
    exact ⟨hq.1, hq.2.frame hi (hch.frame hi) hj⟩

/-- A thread makes `n` accesses of its call, none with a stale snapshot. -/
theorem fresh_acts_reachable {next : N → Option N} {s : System (Mem N ι) (Pc N) ι}
    (hr : System.Reachable (FreshStep W may) (Timely W) (start next) s) (i : ι) (n : Nat)
    (fresh : ∀ k < n,
      ¬ Stale i (s.acts (Mem.act W) i k).mem ((s.acts (Mem.act W) i k).pc i))
    (early : ∀ k < n + 1, (s.acts (Mem.act W) i k).mem.removals < W) :
    System.Reachable (FreshStep W may) (Timely W) (start next) (s.acts (Mem.act W) i n) := by
  refine System.Reachable.acts hr i n (fun k hk m pc hm hpc => ?_) fun k hk j _ => ?_
  · by_cases h : pc.Resting
    · exact .inl (act_resting h)
    · have hfresh := fresh k hk
      rw [hm, hpc] at hfresh
      exact .inr ⟨.act h, hfresh⟩
  · exact Nat.lt_of_lt_of_le (early k hk) (Nat.le_add_left _ _)

/-- The operations `ck_stack_push_mpmc`, `ck_stack_pop_mpmc` and `ck_stack_batch_pop_mpmc_wf`. -/
def withWf (k : Kind) : Prop := k = .push .push ∨ k = .pop .pop ∨ k = .batchPopWf

end ConcurrencyKit.Stack
