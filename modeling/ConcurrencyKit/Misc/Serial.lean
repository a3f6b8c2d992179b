import ConcurrencyKit.Misc.Threads

/-!
# Calls that are made one after another

Threads that take turns: while one of them makes the steps of its calls, all others rest. A thread
may rest between its calls and wherever else it gives the turn away.

The proof rule is the one for a loop. What holds between the turns is what a turn starts from, the
steps of the turn keep an assertion of their own, and where the turn ends the first one holds again
(`Serial.induction`).
-/

namespace ConcurrencyKit.Threads

variable {M P ι : Type} [DecidableEq ι]

/-- Thread `i` makes a step. -/
inductive System.Moves (step : ι → M → P → M → P → Prop) (i : ι) :
    System M P ι → System M P ι → Prop
  | mk {s : System M P ι} {mem : M} {p : P} (h : step i s.mem (s.pc i) mem p) :
      Moves step i s ⟨mem, Function.update s.pc i p⟩

/-- Thread `i` makes steps until it rests. -/
inductive System.Turn (step : ι → M → P → M → P → Prop) (rest : P → Prop) :
    System M P ι → System M P ι → Prop
  | mk {s s' : System M P ι} (i : ι) (h : Relation.ReflTransGen (Moves step i) s s')
      (ends : rest (s'.pc i)) : Turn step rest s s'

/-- States reached from `s₀` by threads that take turns. -/
def System.Serial (step : ι → M → P → M → P → Prop) (rest : P → Prop)
    (s₀ s : System M P ι) : Prop :=
  Relation.ReflTransGen (System.Turn step rest) s₀ s

variable {step : ι → M → P → M → P → Prop} {rest : P → Prop}

/-- What holds between the turns. -/
theorem System.Serial.induction {R : System M P ι → Prop} {Q : ι → System M P ι → Prop}
    (begins : ∀ i s, R s → Q i s)
    (moves : ∀ i s, Q i s → ∀ mem p, step i s.mem (s.pc i) mem p →
      Q i ⟨mem, Function.update s.pc i p⟩)
    (ends : ∀ i s, Q i s → rest (s.pc i) → R s) {s₀ s : System M P ι} (h₀ : R s₀)
    (hr : System.Serial step rest s₀ s) : R s := by
  induction hr with
  | refl => exact h₀
  | tail _ hturn ih =>
    cases hturn with
    | mk i h hrest =>
      refine ends i _ ?_ hrest
      clear hrest
      induction h with
      | refl => exact begins i _ ih
      | tail _ hmove ih' =>
        cases hmove with
        | mk h => exact moves i _ ih' _ _ h

/-- An assertion `Inv` about the memory, and one `At` about the memory and the program counter of
a thread, that the steps of a turn keep, the second one also for threads that rest. -/
structure SerialInvariant (step : ι → M → P → M → P → Prop) (rest : P → Prop) (Inv : M → Prop)
    (At : ι → M → P → Prop) : Prop where
  own : ∀ {i m p m' p'}, step i m p m' p' → Inv m → At i m p → Inv m' ∧ At i m' p'
  other : ∀ {i m p m' p'}, step i m p m' p' → Inv m → At i m p →
    ∀ {j q}, j ≠ i → rest q → At j m q → At j m' q

theorem SerialInvariant.serial {Inv : M → Prop} {At : ι → M → P → Prop}
    (hi : SerialInvariant step rest Inv At) {s₀ s : System M P ι}
    (hr : System.Serial step rest s₀ s) (hrest : ∀ i, rest (s₀.pc i)) (hinv : Inv s₀.mem)
    (hat : ∀ i, At i s₀.mem (s₀.pc i)) :
    (∀ i, rest (s.pc i)) ∧ Inv s.mem ∧ ∀ i, At i s.mem (s.pc i) := by
  refine hr.induction
    (R := fun s => (∀ i, rest (s.pc i)) ∧ Inv s.mem ∧ ∀ i, At i s.mem (s.pc i))
    (Q := fun i s => (∀ j, j ≠ i → rest (s.pc j)) ∧ Inv s.mem ∧ ∀ j, At j s.mem (s.pc j))
    ?begins ?moves ?ends ⟨hrest, hinv, hat⟩
  case begins => exact fun i s h => ⟨fun j _ => h.1 j, h.2⟩
  case moves =>
    rintro i s ⟨hrest, hinv, hat⟩ mem p hstep
    obtain ⟨hnew, hown⟩ := hi.own hstep hinv (hat i)
    refine ⟨fun j hj => ?_, hnew, fun j => ?_⟩
    · dsimp only
      rw [Function.update_of_ne hj]
      exact hrest j hj
    · dsimp only
      by_cases hj : j = i
      · subst hj
        rw [Function.update_self]
        exact hown
      · rw [Function.update_of_ne hj]
        exact hi.other hstep hinv (hat i) hj (hrest j hj) (hat j)
  case ends =>
    rintro i s ⟨hrest, h⟩ hend
    refine ⟨fun j => ?_, h⟩
    by_cases hj : j = i
    · exact hj ▸ hend
    · exact hrest j hj

/-- The accesses that a thread makes in a row. -/
theorem System.moves_acts {act : ι → M → P → M × P} {i : ι} {n : Nat} {s : System M P ι}
    (hact : ∀ m p, step i m p (act i m p).1 (act i m p).2) :
    Relation.ReflTransGen (Moves step i) s (s.acts act i n) := by
  induction n generalizing s with
  | zero => exact .refl
  | succ n ih => exact .head (.mk (hact _ _)) ih

end ConcurrencyKit.Threads
