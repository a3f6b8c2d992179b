import ConcurrencyKit.Misc.Threads

/-!
# History variables

What a proof has to know of the past of a run, and the memory does not tell, is recorded beside the
memory. Every step updates the record by a function of what the step has done. The program does not
look at it, so there are as many runs with the record as without (`Reachable.recorded`,
`Reachable.forget`).

The proof rule adds assertions about the record to an invariant of the program
(`Invariant.recording`).
-/

namespace ConcurrencyKit.Threads

variable {M P G ι : Type}

/-- The steps of a program with a record, which has the value `record i m p g` after a step of
thread `i` to the memory `m` and the program counter `p`. -/
inductive Recording (step : ι → M → P → M → P → Prop) (record : ι → M → P → G → G) (i : ι) :
    M × G → P → M × G → P → Prop
  | mk {m m' : M} {p p' : P} (g : G) (h : step i m p m' p') :
      Recording step record i (m, g) p (m', record i m' p' g) p'

/-- The condition of a run, which does not look at the record. -/
def Apart (ok : ι → M → P → Prop) (i : ι) (r : M × G) (p : P) : Prop := ok i r.1 p

/-- The system with a record. -/
def System.record (g : G) (s : System M P ι) : System (M × G) P ι := ⟨(s.mem, g), s.pc⟩

/-- The system without the record. -/
def System.forget (s : System (M × G) P ι) : System M P ι := ⟨s.mem.1, s.pc⟩

variable {step : ι → M → P → M → P → Prop} {record : ι → M → P → G → G}
  {ok : ι → M → P → Prop}

section Runs

variable [DecidableEq ι]

/-- A run with the record is a run. -/
theorem System.Reachable.forget {s₀ s : System (M × G) P ι}
    (hr : System.Reachable (Recording step record) (Apart ok) s₀ s) :
    System.Reachable step ok s₀.forget s.forget := by
  induction hr with
  | refl => exact .refl
  | @tail t _ _ h ih =>
    obtain ⟨⟨m, g⟩, pc⟩ := t
    cases h with
    | run i h good =>
      cases h with
      | mk _ h => exact ih.extend i h good

/-- Every run can be recorded. -/
theorem System.Reachable.recorded {s₀ s : System M P ι} (hr : System.Reachable step ok s₀ s)
    (g : G) : ∃ g', System.Reachable (Recording step record) (Apart ok) (s₀.record g)
      (s.record g') := by
  induction hr with
  | refl => exact ⟨g, .refl⟩
  | tail _ h ih =>
    obtain ⟨g', hg⟩ := ih
    cases h with
    | run i h good => exact ⟨_, hg.extend i (.mk g' h) good⟩

end Runs

/-- Assertions about the record that every step keeps, where the program keeps an invariant of its
own. -/
theorem Invariant.recording {Inv : M → Prop} {At : ι → M → P → Prop}
    (hi : Invariant step ok Inv At) (RInv : M × G → Prop) (RAt : ι → M × G → P → Prop)
    (own : ∀ {i m p m' p' g}, step i m p m' p' → ok i m p → Inv m → At i m p → RInv (m, g) →
      RAt i (m, g) p → RInv (m', record i m' p' g) ∧ RAt i (m', record i m' p' g) p')
    (other : ∀ {i m p m' p' g}, step i m p m' p' → ok i m p → Inv m → At i m p → RInv (m, g) →
      ∀ {j q}, j ≠ i → At j m q → RAt j (m, g) q → RAt j (m', record i m' p' g) q) :
    Invariant (Recording step record) (Apart ok) (fun r => Inv r.1 ∧ RInv r)
      (fun i r p => At i r.1 p ∧ RAt i r p) where
  own hstep hok hinv hat := by
    cases hstep with
    | mk g h =>
      obtain ⟨hinv', hat'⟩ := hi.own h hok hinv.1 hat.1
      obtain ⟨hrinv, hrat⟩ := own h hok hinv.1 hat.1 hinv.2 hat.2
      exact ⟨⟨hinv', hrinv⟩, hat', hrat⟩
  other hstep hok hinv hat := by
    intro j q hj hq
    cases hstep with
    | mk g h =>
      exact ⟨hi.other h hok hinv.1 hat.1 hj hq.1,
        other h hok hinv.1 hat.1 hinv.2 hj hq.1 hq.2⟩

end ConcurrencyKit.Threads
