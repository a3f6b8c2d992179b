import ConcurrencyKit.Misc.Threads
import Mathlib.Order.WellFounded

/-!
# Fair runs

An infinite run of threads that share a memory. In each turn one thread makes a step, or nothing
happens. The run is `Fair` when every thread that is not idle takes its turn again and again, and
does not hold for ever what the others may be waiting for.

What comes to pass in a fair run is shown with a `Ranking`: in every state one of the threads is the
helper, every step keeps the rank or lowers it, and the next step of the helper lowers it.
-/

namespace ConcurrencyKit.Fairness

open Threads (System)

variable {M P ι : Type} [DecidableEq ι]

/-- What can happen in a turn. -/
inductive Turn (step : ι → M → P → M → P → Prop) (ok : ι → M → P → Prop) :
    Option ι → System M P ι → System M P ι → Prop
  | rest (s : System M P ι) : Turn step ok none s s
  | run {s : System M P ι} (i : ι) {mem : M} {p : P} (h : step i s.mem (s.pc i) mem p)
      (good : ∀ j, ok j mem (Function.update s.pc i p j)) :
      Turn step ok (some i) s ⟨mem, Function.update s.pc i p⟩

/-- An infinite run from `s₀`. -/
structure Run (step : ι → M → P → M → P → Prop) (ok : ι → M → P → Prop) (s₀ : System M P ι) where
  state : Nat → System M P ι
  turn : Nat → Option ι
  start : state 0 = s₀
  next : ∀ n, Turn step ok (turn n) (state n) (state (n + 1))

variable {step : ι → M → P → M → P → Prop} {ok : ι → M → P → Prop} {s₀ s s' : System M P ι}
  {idle holds : P → Prop} {i j : ι} {n m : Nat}

namespace Run

theorem reachable_of_le (r : Run step ok s₀) (h : n ≤ m) :
    System.Reachable step ok (r.state n) (r.state m) := by
  induction h with
  | refl => exact .refl
  | @step m _ ih =>
    have hnext := r.next m
    generalize r.turn m = o, r.state (m + 1) = s' at hnext
    cases hnext with
    | rest => exact ih
    | run i h good => exact ih.tail (.run i h good)

theorem reachable (r : Run step ok s₀) (n : Nat) : System.Reachable step ok s₀ (r.state n) := by
  have h := r.reachable_of_le (Nat.zero_le n)
  rwa [r.start] at h

/-- The program counter of a thread changes in its turns only. -/
theorem pc_eq (r : Run step ok s₀) (h : r.turn n ≠ some i) :
    (r.state (n + 1)).pc i = (r.state n).pc i := by
  have hnext := r.next n
  generalize ho : r.turn n = o at hnext
  generalize r.state (n + 1) = s' at hnext
  cases hnext with
  | rest => rfl
  | run j hstep good =>
    refine Function.update_of_ne ?_ _ _
    rintro rfl
    exact h ho

theorem step_of_turn (r : Run step ok s₀) (h : r.turn n = some i) :
    step i (r.state n).mem ((r.state n).pc i) (r.state (n + 1)).mem
      ((r.state (n + 1)).pc i) := by
  have hnext := r.next n
  rw [h] at hnext
  generalize r.state (n + 1) = s' at hnext
  cases hnext with
  | run _ hstep good =>
    dsimp only
    rwa [Function.update_self]

/-- What a thread does until it is done. -/
theorem stays (r : Run step ok s₀) {C D : P → Prop}
    (hstep : ∀ m p m' p', C p → step i m p m' p' → C p' ∨ D p') (h : C ((r.state n).pc i))
    (hle : n ≤ m) : C ((r.state m).pc i) ∨ ∃ k, n ≤ k ∧ D ((r.state k).pc i) := by
  induction hle with
  | refl => exact .inl h
  | @step m hm ih =>
    rcases ih with hc | hd
    · by_cases hturn : r.turn m = some i
      · rcases hstep _ _ _ _ hc (r.step_of_turn hturn) with hc | hd
        · exact .inl hc
        · exact .inr ⟨m + 1, Nat.le_succ_of_le hm, hd⟩
      · exact .inl (r.pc_eq hturn ▸ hc)
    · exact .inr hd

/-- Thread `i` makes a step that is not one of those in which it goes on to hold what it holds. -/
def Moves (r : Run step ok s₀) (holds : P → Prop) (n : Nat) (i : ι) : Prop :=
  r.turn n = some i ∧ (holds ((r.state n).pc i) → ¬ holds ((r.state (n + 1)).pc i))

end Run

/-- Every thread that is not idle goes on. -/
def Fair (idle holds : P → Prop) (r : Run step ok s₀) : Prop :=
  ∀ n i, ¬ idle ((r.state n).pc i) → ∃ m, n ≤ m ∧ r.Moves holds m i

/-- A run in which every thread is idle again and again is fair. -/
theorem fair_of_idle {r : Run step ok s₀} (hdisj : ∀ p, idle p → ¬ holds p)
    (h : ∀ n i, ∃ m, n ≤ m ∧ idle ((r.state m).pc i)) : Fair idle holds r := by
  classical
  intro n i hbusy
  -- the first state in which the thread is idle
  let k := Nat.find (h n i)
  obtain ⟨hle, hidle⟩ : n ≤ k ∧ idle ((r.state k).pc i) := Nat.find_spec (h n i)
  have hne : n ≠ k := fun he => hbusy (he ▸ hidle)
  obtain ⟨d, hd⟩ : ∃ d, k = d + 1 := ⟨k - 1, by omega⟩
  have hbefore : ¬ idle ((r.state d).pc i) := fun hd' =>
    Nat.find_min (h n i) (m := d) (by omega) ⟨by omega, hd'⟩
  rw [hd] at hidle
  refine ⟨d, by omega, ?_, fun _ => hdisj _ hidle⟩
  by_contra hturn
  rw [r.pc_eq hturn] at hidle
  exact hbefore hidle

/-- A thread that is in a call makes the next step of it. -/
theorem Fair.goes {r : Run step ok s₀} (hf : Fair idle holds r) (hidle : ¬ idle ((r.state n).pc i))
    (hholds : ¬ holds ((r.state n).pc i)) :
    ∃ m, n ≤ m ∧ (r.state m).pc i = (r.state n).pc i ∧
      step i (r.state m).mem ((r.state n).pc i) (r.state (m + 1)).mem
        ((r.state (m + 1)).pc i) := by
  obtain ⟨m, hle, hmoves, -⟩ := hf n i hidle
  obtain ⟨d, rfl⟩ := Nat.exists_eq_add_of_le hle
  -- the first of its turns
  induction d generalizing n with
  | zero =>
    exact ⟨n, le_refl n, rfl, r.step_of_turn hmoves⟩
  | succ d ih =>
    by_cases hturn : r.turn n = some i
    · exact ⟨n, le_refl n, rfl, r.step_of_turn hturn⟩
    · have hpc := r.pc_eq hturn
      obtain ⟨m, hm, hsame, hstep⟩ := ih (hpc ▸ hidle) (hpc ▸ hholds) (by omega)
        (by rwa [Nat.add_right_comm])
      exact ⟨m, by omega, hsame.trans hpc, hpc ▸ hstep⟩

/-- A call that nobody can keep from going on, since each of its steps lowers its rank. -/
theorem Fair.ends {r : Run step ok s₀} (hf : Fair idle holds r) {C D : P → Prop} (rank : P → Nat)
    (hidle : ∀ p, C p → ¬ idle p) (hholds : ∀ p, C p → ¬ holds p)
    (hstep : ∀ m p m' p', C p → step i m p m' p' → D p' ∨ C p' ∧ rank p' < rank p)
    (h : C ((r.state n).pc i)) : ∃ m, n ≤ m ∧ D ((r.state m).pc i) := by
  induction ha : rank ((r.state n).pc i) using Nat.strong_induction_on generalizing n with
  | _ a ih =>
    obtain ⟨k, hk, -, hgoes⟩ := hf.goes (hidle _ h) (hholds _ h)
    rcases hstep _ _ _ _ h hgoes with hd | ⟨hc, hless⟩
    · exact ⟨k + 1, by omega, hd⟩
    · obtain ⟨m, hm, hd⟩ := ih _ (ha ▸ hless) hc rfl
      exact ⟨m, by omega, hd⟩

/-! ## What comes to pass -/

section Ranking

variable {α : Type} [LT α]

/-- `Helps a j s` says that the rank is `a` and that thread `j` can lower it. A step leads to the
aim, or to a lower rank, or it leaves rank and helper alone; a step of the helper does so only when
it goes on to hold what it holds. -/
structure Ranking (step : ι → M → P → M → P → Prop) (idle holds : P → Prop)
    (good Aim : System M P ι → Prop) (Helps : α → ι → System M P ι → Prop) : Prop where
  busy : ∀ {a j s}, good s → Helps a j s → ¬ idle (s.pc j)
  next : ∀ {a i j mem p} {s : System M P ι}, good s → good ⟨mem, Function.update s.pc i p⟩ →
    step i s.mem (s.pc i) mem p → Helps a j s →
    Aim ⟨mem, Function.update s.pc i p⟩ ∨
      (∃ b k, b < a ∧ Helps b k ⟨mem, Function.update s.pc i p⟩) ∨
      Helps a j ⟨mem, Function.update s.pc i p⟩ ∧ (i = j → holds (s.pc i) ∧ holds p)

variable {good Aim : System M P ι → Prop} {Helps : α → ι → System M P ι → Prop} {a : α}

/-- What a turn does to the rank. -/
theorem Ranking.turn (hk : Ranking step idle holds good Aim Helps) (r : Run step ok s₀)
    (hgood : ∀ n, good (r.state n)) (h : Helps a j (r.state n)) :
    Aim (r.state (n + 1)) ∨ (∃ b k, b < a ∧ Helps b k (r.state (n + 1))) ∨
      Helps a j (r.state (n + 1)) ∧ ¬ r.Moves holds n j := by
  have hnext := r.next n
  have hgood' := hgood (n + 1)
  have hmoves : r.Moves holds n j ↔
      r.turn n = some j ∧ (holds ((r.state n).pc j) → ¬ holds ((r.state (n + 1)).pc j)) := .rfl
  generalize ho : r.turn n = o at hnext hmoves
  generalize r.state (n + 1) = s' at hnext hgood' hmoves
  cases hnext with
  | rest =>
    refine .inr (.inr ⟨h, fun hm => ?_⟩)
    cases (hmoves.mp hm).1
  | run i hstep good =>
    rcases hk.next (hgood n) hgood' hstep h with haim | hless | ⟨hsame, hholds⟩
    · exact .inl haim
    · exact .inr (.inl hless)
    · refine .inr (.inr ⟨hsame, fun hm => ?_⟩)
      obtain ⟨hij, hleaves⟩ := hmoves.mp hm
      have hij : i = j := Option.some.inj hij
      subst hij
      obtain ⟨hbefore, hafter⟩ := hholds rfl
      refine hleaves hbefore ?_
      dsimp only
      rwa [Function.update_self]

/-- The aim of a ranking comes to pass in a fair run. -/
theorem Ranking.reached [WellFoundedLT α] (hk : Ranking step idle holds good Aim Helps)
    {r : Run step ok s₀} (hf : Fair idle holds r) (hgood : ∀ n, good (r.state n))
    (h : Helps a j (r.state n)) : ∃ m, n ≤ m ∧ Aim (r.state m) := by
  induction a using WellFoundedLT.induction generalizing j n with
  | ind a ih =>
    obtain ⟨m, hle, hmoves⟩ := hf n j (hk.busy (hgood n) h)
    obtain ⟨d, rfl⟩ := Nat.exists_eq_add_of_le hle
    -- until the helper makes its step
    induction d generalizing n with
    | zero =>
      rcases hk.turn r hgood h with haim | ⟨b, k, hb, hless⟩ | ⟨-, hno⟩
      · exact ⟨n + 1, Nat.le_succ n, haim⟩
      · obtain ⟨m, hm, haim⟩ := ih b hb hless
        exact ⟨m, by omega, haim⟩
      · exact absurd hmoves hno
    | succ d ihd =>
      rcases hk.turn r hgood h with haim | ⟨b, k, hb, hless⟩ | ⟨hsame, -⟩
      · exact ⟨n + 1, Nat.le_succ n, haim⟩
      · obtain ⟨m, hm, haim⟩ := ih b hb hless
        exact ⟨m, by omega, haim⟩
      · obtain ⟨m, hm, haim⟩ := ihd hsame (by omega) (by rwa [Nat.add_right_comm])
        exact ⟨m, by omega, haim⟩

end Ranking

/-! ## Runs that come to an end -/

/-- Nothing happens. -/
def Run.rest (s : System M P ι) : Run step ok s :=
  ⟨fun _ => s, fun _ => none, rfl, fun _ => .rest s⟩

/-- A turn before a run. -/
theorem Run.cons (h : System.Step step ok s s') (r : Run step ok s') :
    ∃ r' : Run step ok s, ∀ n, r'.state (n + 1) = r.state n := by
  cases h with
  | run i hstep good =>
    refine ⟨⟨fun n => n.casesOn s r.state, fun n => n.casesOn (some i) r.turn, rfl, fun n => ?_⟩,
      fun n => rfl⟩
    cases n with
    | zero =>
      show Turn step ok (some i) s (r.state 0)
      rw [r.start]
      exact .run i hstep good
    | succ n => exact r.next n

/-- A finite run is the beginning of one in which nothing happens any more. -/
theorem Run.of_reachable (h : System.Reachable step ok s s') :
    ∃ r : Run step ok s, ∃ n, ∀ m, n ≤ m → r.state m = s' := by
  induction h using Relation.ReflTransGen.head_induction_on with
  | refl => exact ⟨.rest s', 0, fun _ _ => rfl⟩
  | head hstep _ ih =>
    obtain ⟨r, n, hr⟩ := ih
    obtain ⟨r', hr'⟩ := r.cons hstep
    refine ⟨r', n + 1, fun m hm => ?_⟩
    obtain ⟨d, rfl⟩ := Nat.exists_eq_add_of_le hm
    rw [show n + 1 + d = (n + d) + 1 by omega, hr', hr _ (Nat.le_add_right n d)]

/-- A finite run, with a state in it, that ends with all threads idle is the beginning of a fair
one. -/
theorem fair_of_reachable (idle holds : P → Prop) (hdisj : ∀ p, idle p → ¬ holds p)
    (h : System.Reachable step ok s₀ s)
    (h' : System.Reachable step ok s s') (hidle : ∀ i, idle (s'.pc i)) :
    ∃ r : Run step ok s₀, Fair idle holds r ∧ ∃ n, r.state n = s := by
  have hrun : ∃ r : Run step ok s₀, (∃ n, r.state n = s) ∧ ∃ n, ∀ m, n ≤ m → r.state m = s' := by
    induction h using Relation.ReflTransGen.head_induction_on with
    | refl =>
      obtain ⟨r, hr⟩ := Run.of_reachable h'
      exact ⟨r, ⟨0, r.start⟩, hr⟩
    | head hstep _ ih =>
      obtain ⟨r, ⟨k, hk⟩, n, hr⟩ := ih
      obtain ⟨r', hr'⟩ := r.cons hstep
      refine ⟨r', ⟨k + 1, (hr' k).trans hk⟩, n + 1, fun m hm => ?_⟩
      obtain ⟨d, rfl⟩ := Nat.exists_eq_add_of_le hm
      rw [show n + 1 + d = (n + d) + 1 by omega, hr', hr _ (Nat.le_add_right n d)]
  obtain ⟨r, hmid, n, hr⟩ := hrun
  refine ⟨r, fair_of_idle hdisj fun k i => ⟨max k n, le_max_left k n, ?_⟩, hmid⟩
  rw [hr _ (le_max_right k n)]
  exact hidle i

end ConcurrencyKit.Fairness
