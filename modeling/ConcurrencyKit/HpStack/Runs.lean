import ConcurrencyKit.HpStack.Invariant

/-!
# Runs of `ck_hp_stack`

Every interleaving is linearizable to a stack, with entries that are recycled through scans of
the hazard slots. Every way into the compare-and-swap of a consumer goes through a load of `head`
that has found the entry after it was stored in the slot.
-/

namespace ConcurrencyKit.HpStack

open Lifo (Op Next Chain)
open Linear (Legal)
open Threads (Invariant System)

variable {N ι : Type} [DecidableEq N] [DecidableEq ι] {i j : ι} {m m' : Mem N ι} {e : N}

omit [DecidableEq N] [DecidableEq ι] in
/-- What a consumer finds at `head`. -/
theorem Inv.top (hi : Inv m) (h : m.head = some e) : ∃ rest, m.contents = e :: rest := by
  have hchain := hi.chain
  rw [h] at hchain
  obtain ⟨rest, he, -⟩ := hchain.cons_of_some
  exact ⟨rest, he⟩

omit [DecidableEq N] [DecidableEq ι] in
theorem Inv.mem_top (hi : Inv m) (h : m.head = some e) : e ∈ m.contents := by
  obtain ⟨rest, he⟩ := hi.top h
  exact he ▸ List.mem_cons_self

omit [DecidableEq N] [DecidableEq ι] in
/-- An entry that is in the slot and at the top of the stack is protected. -/
theorem Inv.guard_top (hi : Inv m) (hz : m.hazard i = some e) (h : m.head = some e) :
    Guard m i e :=
  ⟨hz, .inl ((hi.inside e).mpr (hi.mem_top h))⟩

/-- The outcome of an access: a change of the stack, and what the thread knows afterwards. -/
def Leads (i : ι) (m : Mem N ι) (r : Mem N ι × Pc N) : Prop := Change i m r.1 ∧ At i r.1 r.2

/-- A consumer that finds the stack empty. -/
theorem empty_leads (hi : Inv m) (h : m.head = none) :
    Leads i m (m.finish i (.pop none), .done (.pop none)) := by
  have hchain := hi.chain
  rw [h] at hchain
  refine ⟨.note _ ?_, trivial⟩
  rw [hchain.nil_of_none]
  exact .empty

theorem setHazard_leads (x : Option N) {pc : Pc N}
    (h : ∀ m' : Mem N ι, m'.hazard i = x → At i m' pc) : Leads i m (m.setHazard i x, pc) :=
  ⟨.set x, h _ (Function.update_self _ _ _)⟩

theorem pushCas_leads {k : Stack.Pusher} {stack : Option N} (hat : At i m (.pushCas k e stack)) :
    Leads i m (m.act i (.pushCas k e stack)) := by
  obtain ⟨hheld, hnext⟩ := hat
  by_cases he : m.head = stack
  · unfold Mem.act
    simp only [if_pos he]
    exact ⟨.put e hheld (hnext.trans he.symm), trivial⟩
  · by_cases hk : k = .tryPush
    · unfold Mem.act
      simp only [if_neg he, if_pos hk]
      exact ⟨.release e hheld, trivial⟩
    · unfold Mem.act
      simp only [if_neg he, if_neg hk]
      exact ⟨.stay, hheld⟩

theorem popHead_leads (hi : Inv m) : Leads i m (m.act i .popHead) := by
  cases h : m.head with
  | none =>
    unfold Mem.act
    simp only [h]
    exact empty_leads hi h
  | some e =>
    unfold Mem.act
    simp only [h]
    exact ⟨.stay, trivial⟩

theorem popCheck_leads (hi : Inv m) (hat : At i m (.popCheck e)) :
    Leads i m (m.act i (.popCheck e)) := by
  by_cases h : m.head = some e
  · unfold Mem.act
    simp only [if_pos h]
    exact ⟨.stay, hi.guard_top hat h⟩
  · unfold Mem.act
    simp only [if_neg h]
    exact ⟨.stay, trivial⟩

theorem popUpdate_leads (hi : Inv m) (hat : At i m (.popUpdate e)) :
    Leads i m (m.act i (.popUpdate e)) := by
  by_cases h : m.head = some e
  · unfold Mem.act
    simp only [if_pos h]
    exact ⟨.stay, hi.guard_top hat h⟩
  · unfold Mem.act
    simp only [if_neg h]
    exact ⟨.stay, trivial⟩

/-- The inner loop ends with an entry that is at `head` and in the slot. -/
theorem popReload_leads (hi : Inv m) {x : Option N} (hat : At i m (.popReload x)) :
    Leads i m (m.act i (.popReload x)) := by
  cases h : m.head with
  | none =>
    unfold Mem.act
    simp only [h]
    exact empty_leads hi h
  | some u =>
    by_cases hx : x = some u
    · unfold Mem.act
      simp only [h, if_pos hx]
      exact ⟨.stay, hi.guard_top (hat.trans hx) h⟩
    · unfold Mem.act
      simp only [h, if_neg hx]
      exact ⟨.stay, trivial⟩

theorem tryHead_leads : Leads i m (m.act i .tryHead) := by
  cases h : m.head with
  | none =>
    unfold Mem.act
    simp only [h]
    exact ⟨.note .miss (.miss _), trivial⟩
  | some e =>
    unfold Mem.act
    simp only [h]
    exact ⟨.stay, trivial⟩

theorem tryCheck_leads (hi : Inv m) (hat : At i m (.tryCheck e)) :
    Leads i m (m.act i (.tryCheck e)) := by
  by_cases h : m.head = some e
  · unfold Mem.act
    simp only [if_pos h]
    exact ⟨.stay, hi.guard_top hat h⟩
  · unfold Mem.act
    simp only [if_neg h]
    exact ⟨.stay, trivial⟩

/-- The `next` of a protected entry is loaded. -/
theorem popNext_leads {k : Popper} (hg : Guard m i e) : Leads i m (m.act i (.popNext k e)) := by
  refine ⟨.load e, { hg with }, fun hm => ⟨?_, rfl⟩⟩
  have hm' : e ∈ m.contents := hm
  show Function.update m.sound i _ i = true
  rw [Function.update_self, decide_eq_true hg.hazard, decide_eq_true hm']
  rfl

/-- The compare-and-swap that takes an entry. -/
theorem popCas_leads (hi : Inv m) {k : Popper} {n : Option N} (hat : At i m (.popCas k e n)) :
    Leads i m (m.act i (.popCas k e n)) := by
  by_cases h : m.head = some e
  · unfold Mem.act
    simp only [if_pos h]
    obtain ⟨rest, htop⟩ := hi.top h
    obtain ⟨-, rfl⟩ := hat.2 (hi.mem_top h)
    exact ⟨.take e rest htop, trivial⟩
  · by_cases hk : k = .tryPop
    · unfold Mem.act
      simp only [if_neg h, if_pos hk]
      exact ⟨.stay, trivial⟩
    · unfold Mem.act
      simp only [if_neg h, if_neg hk]
      cases hh : m.head with
      | none => exact empty_leads hi hh
      | some u => exact ⟨.stay, trivial⟩

/-- One access of a thread. -/
theorem act_leads (hi : Inv m) {pc : Pc N} (running : ¬ pc.Resting) (hat : At i m pc) :
    Leads i m (m.act i pc) := by
  cases pc with
  | pushHead k e => exact ⟨.stay, hat⟩
  | pushNext k e stack => exact ⟨.store e stack hat, hat, Function.update_self _ _ _⟩
  | pushCas k e stack => exact pushCas_leads hat
  | popHead => exact popHead_leads hi
  | popHazard e => exact setHazard_leads _ fun _ h => h
  | popCheck e => exact popCheck_leads hi hat
  | popAgain e => exact setHazard_leads _ fun _ h => h
  | popUpdate e => exact popUpdate_leads hi hat
  | popFollow x => exact setHazard_leads _ fun _ h => h
  | popReload x => exact popReload_leads hi hat
  | tryHead => exact tryHead_leads
  | tryHazard e => exact setHazard_leads _ fun _ h => h
  | tryCheck e => exact tryCheck_leads hi hat
  | popNext k e => exact popNext_leads hat
  | popCas k e n => exact popCas_leads hi hat
  | leave => exact ⟨.leave, trivial⟩
  | idle => exact absurd trivial running
  | done op => exact absurd trivial running

omit [DecidableEq N] [DecidableEq ι] in
theorem At.resting {pc : Pc N} (h : pc.Resting) : At i m pc := by
  cases pc <;> trivial

/-- A step of thread `i`. -/
theorem step_leads {pc pc' : Pc N} (h : Step i m pc m' pc') (hi : Inv m) (hat : At i m pc) :
    Leads i m (m', pc') := by
  cases h with
  | push k e resting outside => exact ⟨.hold e outside, Function.update_self _ _ _⟩
  | pop resting => exact ⟨.stay, trivial⟩
  | tryPop resting => exact ⟨.stay, trivial⟩
  | set x resting => exact ⟨.set x, .resting resting⟩
  | scan x j resting retired clear => exact ⟨.scan x j clear, .resting resting⟩
  | reclaim x resting retired clear => exact ⟨.reclaim x retired clear, .resting resting⟩
  | act running => exact act_leads hi running hat

/-! ## Runs -/

theorem invariant : Invariant (Step (N := N) (ι := ι)) (fun _ _ _ => True) Inv At where
  own hstep _ hi hat := by
    obtain ⟨hch, hat'⟩ := step_leads hstep hi hat
    exact ⟨hch.inv hi, hat'⟩
  other hstep _ hi hat := by
    intro j q hj hq
    exact hq.frame ((step_leads hstep hi hat).1.frame hi) hj

/-- A thread that comes to rest has finished an operation; in all other steps none takes effect. -/
def Records (i : ι) (m m' : Mem N ι) (pc pc' : Pc N) : Prop :=
  (∃ op, ¬ pc.Resting ∧ pc' = .done op ∧ m'.events = m.events ++ [(i, op)]) ∨
    (pc'.Resting → pc' = pc) ∧ m'.events = m.events

/-- Every operation takes effect once, in the step in which it returns. -/
theorem step_records {pc pc' : Pc N} (h : Step i m pc m' pc') : Records i m m' pc pc' := by
  cases h with
  | push k e resting outside => exact .inr ⟨False.elim, rfl⟩
  | pop resting => exact .inr ⟨False.elim, rfl⟩
  | tryPop resting => exact .inr ⟨False.elim, rfl⟩
  | set x resting => exact .inr ⟨fun _ => rfl, rfl⟩
  | scan x j resting retired clear => exact .inr ⟨fun _ => rfl, rfl⟩
  | reclaim x resting retired clear => exact .inr ⟨fun _ => rfl, rfl⟩
  | act running =>
    cases pc with
    | pushCas k e stack =>
      unfold Mem.act
      dsimp only
      split
      · exact .inl ⟨_, id, rfl, rfl⟩
      · split
        · exact .inl ⟨_, id, rfl, rfl⟩
        · exact .inr ⟨False.elim, rfl⟩
    | popHead =>
      unfold Mem.act
      dsimp only
      split
      · exact .inl ⟨_, id, rfl, rfl⟩
      · exact .inr ⟨False.elim, rfl⟩
    | popCheck e =>
      unfold Mem.act
      dsimp only
      split <;> exact .inr ⟨False.elim, rfl⟩
    | popUpdate e =>
      unfold Mem.act
      dsimp only
      split <;> exact .inr ⟨False.elim, rfl⟩
    | popReload x =>
      unfold Mem.act
      dsimp only
      split
      · exact .inl ⟨_, id, rfl, rfl⟩
      · split <;> exact .inr ⟨False.elim, rfl⟩
    | tryHead =>
      unfold Mem.act
      dsimp only
      split
      · exact .inl ⟨_, id, rfl, rfl⟩
      · exact .inr ⟨False.elim, rfl⟩
    | tryCheck e =>
      unfold Mem.act
      dsimp only
      split <;> exact .inr ⟨False.elim, rfl⟩
    | popCas k e n =>
      unfold Mem.act
      dsimp only
      split
      · exact .inl ⟨_, id, rfl, rfl⟩
      · split
        · exact .inr ⟨False.elim, rfl⟩
        · split
          · exact .inl ⟨_, id, rfl, rfl⟩
          · exact .inr ⟨False.elim, rfl⟩
    | leave => exact .inl ⟨_, id, rfl, rfl⟩
    | idle => exact absurd trivial running
    | done op => exact absurd trivial running
    | _ => exact .inr ⟨False.elim, rfl⟩

/-- What holds at every moment of a run: the operations so far, in the order in which they take
effect, are a history of a stack. -/
structure IsStack (s : System (Mem N ι) (Pc N) ι) : Prop where
  legal : Legal Next [] (s.mem.events.map Prod.snd) s.mem.contents
  /-- Following `next` from `head` gives what is on the stack. -/
  chain : Chain s.mem.next s.mem.head s.mem.contents
  nodup : s.mem.contents.Nodup
  /-- Between two operations that return an entry it is pushed. -/
  once : ∀ x front first mid second back,
    s.mem.events.map Prod.snd = front ++ first :: (mid ++ second :: back) →
    first.Returns x → second.Returns x → .push x ∈ mid
  /-- An entry that has been pushed and not been returned since is on the stack. -/
  kept : ∀ x front back, s.mem.events.map Prod.snd = front ++ .push x :: back →
    (∀ op ∈ back, ¬ op.Returns x) → x ∈ s.mem.contents
  records : ∀ i m' pc', Step i s.mem (s.pc i) m' pc' → Records i s.mem m' (s.pc i) pc'
  /-- A compare-and-swap that is about to take an entry has the `next` of the entry, which was
  loaded while the entry was on the stack and in the slot, and the entry is still in the slot. -/
  sound : ∀ i k e n, s.pc i = .popCas k e n → s.mem.head = some e →
    s.mem.hazard i = some e ∧ s.mem.sound i = true ∧ s.mem.next e = n

theorem act_resting {pc : Pc N} (h : pc.Resting) : m.act i pc = (m, pc) := by
  cases pc <;> first | rfl | exact h.elim

/-- A thread makes `n` accesses of its call. -/
theorem acts_reachable {next : N → Option N} {s : System (Mem N ι) (Pc N) ι}
    (hr : System.Reachable Step (fun _ _ _ => True) (start next) s) (i : ι) (n : Nat) :
    System.Reachable Step (fun _ _ _ => True) (start next) (s.acts Mem.act i n) := by
  refine System.Reachable.acts hr i n (fun k hk m pc _ _ => ?_) fun k hk j => trivial
  by_cases h : pc.Resting
  · exact .inl (act_resting h)
  · exact .inr (.act h)

end ConcurrencyKit.HpStack
