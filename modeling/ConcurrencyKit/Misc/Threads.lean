import Mathlib.Logic.Relation
import Mathlib.Logic.Function.Basic
import Mathlib.Tactic

/-!
# Threads that share a memory

Any number of threads run programs over one memory, and in each step one of them makes one
access. A program is a relation between the memory and the thread's program counter before
and after a step. Runs may be restricted to states in which every thread satisfies a
condition, such as a bound on how long its call has been going on.

The proof rule is the usual one for interleavings. An assertion about the memory and an
assertion about the memory and one program counter are an `Invariant` when a step keeps
both for the thread that makes it, and keeps the second for every other thread.

A thread tells by a counter whether another one has been there. The counter is a machine word; it
tells as long as it does not make a full turn meanwhile (`eq_of_mod_eq`).
-/

namespace ConcurrencyKit.Threads

/-- Two values of a counter that are less than a full turn of its word apart are equal if their
words are. -/
theorem eq_of_mod_eq {W n N : Nat} (hle : n ≤ N) (hlt : N < n + W) (h : n % W = N % W) :
    n = N := by
  have hdvd : W ∣ N - n := (Nat.modEq_iff_dvd' hle).mp h
  have := Nat.eq_zero_of_dvd_of_lt hdvd (by omega)
  omega

variable {M P ι : Type}

/-- The memory and the program counters. -/
structure System (M P ι : Type) where
  mem : M
  pc : ι → P

section Runs

variable [DecidableEq ι]

/-- One step of thread `i` according to its program, after which every thread meets `ok`. -/
inductive System.Step (step : ι → M → P → M → P → Prop) (ok : ι → M → P → Prop) :
    System M P ι → System M P ι → Prop
  | run {s : System M P ι} (i : ι) {mem : M} {p : P} (h : step i s.mem (s.pc i) mem p)
      (good : ∀ j, ok j mem (Function.update s.pc i p j)) :
      Step step ok s ⟨mem, Function.update s.pc i p⟩

/-- States reached from `s₀` by steps of the threads. -/
def System.Reachable (step : ι → M → P → M → P → Prop) (ok : ι → M → P → Prop)
    (s₀ s : System M P ι) : Prop :=
  Relation.ReflTransGen (System.Step step ok) s₀ s

end Runs

/-- An assertion `Inv` about the memory, and one `At` about the memory and the program counter
of a thread, that every step keeps. -/
structure Invariant (step : ι → M → P → M → P → Prop) (ok : ι → M → P → Prop) (Inv : M → Prop)
    (At : ι → M → P → Prop) : Prop where
  own : ∀ {i m p m' p'}, step i m p m' p' → ok i m p → Inv m → At i m p →
    Inv m' ∧ At i m' p'
  other : ∀ {i m p m' p'}, step i m p m' p' → ok i m p → Inv m → At i m p →
    ∀ {j q}, j ≠ i → At j m q → At j m' q

/-- The same, where the steps may rely on `ok` in the state that they lead to. -/
structure GuardedInvariant (step : ι → M → P → M → P → Prop) (ok : ι → M → P → Prop)
    (Inv : M → Prop) (At : ι → M → P → Prop) : Prop where
  own : ∀ {i m p m' p'}, step i m p m' p' → ok i m p → ok i m' p' → Inv m → At i m p →
    Inv m' ∧ At i m' p'
  other : ∀ {i m p m' p'}, step i m p m' p' → ok i m p → Inv m → At i m p →
    ∀ {j q}, j ≠ i → ok j m' q → At j m q → At j m' q

variable {step : ι → M → P → M → P → Prop} {ok : ι → M → P → Prop} {Inv : M → Prop}
  {At : ι → M → P → Prop}

/-- What holds at the start of a run and is kept by its steps holds throughout. -/
theorem GuardedInvariant.reachable [DecidableEq ι] (hi : GuardedInvariant step ok Inv At)
    {s₀ s : System M P ι} (hr : System.Reachable step ok s₀ s)
    (hok : ∀ i, ok i s₀.mem (s₀.pc i)) (hinv : Inv s₀.mem) (hat : ∀ i, At i s₀.mem (s₀.pc i)) :
    Inv s.mem ∧ ∀ i, ok i s.mem (s.pc i) ∧ At i s.mem (s.pc i) := by
  induction hr with
  | refl => exact ⟨hinv, fun i => ⟨hok i, hat i⟩⟩
  | tail _ hstep ih =>
    obtain ⟨hinv', hat'⟩ := ih
    cases hstep with
    | run i h good =>
      have hself := good i
      rw [Function.update_self] at hself
      obtain ⟨hnew, hown⟩ := hi.own h (hat' i).1 hself hinv' (hat' i).2
      refine ⟨hnew, fun j => ⟨good j, ?_⟩⟩
      dsimp only
      by_cases hj : j = i
      · subst hj
        rw [Function.update_self]
        exact hown
      · have hgood := good j
        rw [Function.update_of_ne hj] at hgood ⊢
        exact hi.other h (hat' i).1 hinv' (hat' i).2 hj hgood (hat' j).2

theorem Invariant.guarded (hi : Invariant step ok Inv At) : GuardedInvariant step ok Inv At where
  own h hok _ := hi.own h hok
  other h hok hinv hat _ _ hj _ := hi.other h hok hinv hat hj

theorem Invariant.reachable [DecidableEq ι] (hi : Invariant step ok Inv At)
    {s₀ s : System M P ι} (hr : System.Reachable step ok s₀ s)
    (hok : ∀ i, ok i s₀.mem (s₀.pc i)) (hinv : Inv s₀.mem) (hat : ∀ i, At i s₀.mem (s₀.pc i)) :
    Inv s.mem ∧ ∀ i, ok i s.mem (s.pc i) ∧ At i s.mem (s.pc i) :=
  hi.guarded.reachable hr hok hinv hat

/-- A program with fewer steps and a stronger condition keeps it, too. -/
theorem GuardedInvariant.mono (hi : GuardedInvariant step ok Inv At)
    {step' : ι → M → P → M → P → Prop} {ok' : ι → M → P → Prop}
    (hstep : ∀ {i m p m' p'}, step' i m p m' p' → step i m p m' p')
    (hok : ∀ {i m p}, ok' i m p → ok i m p) : GuardedInvariant step' ok' Inv At where
  own h h₁ h₂ := hi.own (hstep h) (hok h₁) (hok h₂)
  other h h₁ hinv hat _ _ hj h₂ := hi.other (hstep h) (hok h₁) hinv hat hj (hok h₂)

/-- In a run the steps may rely on an invariant as well. -/
theorem GuardedInvariant.strengthen [DecidableEq ι] (hi : GuardedInvariant step ok Inv At)
    {s₀ s : System M P ι} (hr : System.Reachable step ok s₀ s)
    (hok : ∀ i, ok i s₀.mem (s₀.pc i)) (hinv : Inv s₀.mem) (hat : ∀ i, At i s₀.mem (s₀.pc i)) :
    System.Reachable step (fun i m p => ok i m p ∧ Inv m ∧ At i m p) s₀ s := by
  induction hr with
  | refl => exact .refl
  | tail hmid h ih =>
    obtain ⟨hinv', hat'⟩ := hi.reachable (hmid.tail h) hok hinv hat
    cases h with
    | run i h good => exact ih.tail (.run i h fun j => ⟨good j, hinv', (hat' j).2⟩)

/-- A relation that every step keeps between the memory before and after it holds between any two
states of a run. -/
theorem Invariant.monotone [DecidableEq ι] (hi : Invariant step ok Inv At) {R : M → M → Prop}
    (hrefl : ∀ m, R m m) (htrans : ∀ {a b c}, R a b → R b c → R a c)
    (hstep : ∀ {i m p m' p'}, step i m p m' p' → ok i m p → Inv m → At i m p → R m m')
    {s₀ s s' : System M P ι} (hr : System.Reachable step ok s₀ s)
    (hr' : System.Reachable step ok s s') (hok : ∀ i, ok i s₀.mem (s₀.pc i)) (hinv : Inv s₀.mem)
    (hat : ∀ i, At i s₀.mem (s₀.pc i)) : R s.mem s'.mem := by
  induction hr' with
  | refl => exact hrefl _
  | tail hmid h ih =>
    obtain ⟨hinv', hat'⟩ := hi.reachable (hr.trans hmid) hok hinv hat
    cases h with
    | run i h good => exact htrans ih (hstep h (hat' i).1 hinv' (hat' i).2)

/-- The same memory, and what a function says of the program counters. -/
def System.map {Q : Type} (f : P → Q) (s : System M P ι) : System M Q ι := ⟨s.mem, f ∘ s.pc⟩

/-- A program whose steps are steps of another one, seen through a function of the program counter,
has no other runs. -/
theorem System.Reachable.map [DecidableEq ι] {Q : Type} {step' : ι → M → Q → M → Q → Prop}
    {ok' : ι → M → Q → Prop} (f : P → Q)
    (hstep : ∀ i m p m' p', step i m p m' p' → step' i m (f p) m' (f p'))
    (hok : ∀ i m p, ok i m p → ok' i m (f p)) {s₀ s : System M P ι}
    (hr : System.Reachable step ok s₀ s) : System.Reachable step' ok' (s₀.map f) (s.map f) := by
  induction hr with
  | refl => exact .refl
  | tail _ h ih =>
    cases h with
    | @run i mem p h good =>
      have hupdate : ∀ g : ι → P, f ∘ Function.update g i p = Function.update (f ∘ g) i (f p) :=
        fun g => Function.comp_update f g i p
      refine .tail ih ?_
      simp only [System.map, hupdate]
      refine .run i (hstep _ _ _ _ _ h) fun j => ?_
      rw [← hupdate]
      exact hok _ _ _ (good j)

section Steps

variable [DecidableEq ι]

/-- One more step of thread `i` at the end of a run. -/
theorem System.Reachable.extend {s₀ s : System M P ι} (hr : System.Reachable step ok s₀ s) (i : ι)
    {mem : M} {p : P} (h : step i s.mem (s.pc i) mem p)
    (good : ∀ j, ok j mem (Function.update s.pc i p j)) :
    System.Reachable step ok s₀ ⟨mem, Function.update s.pc i p⟩ :=
  Relation.ReflTransGen.tail hr (.run i h good)

/-- Thread `i` calls a function, and nothing else happens. -/
def System.call (i : ι) (p : P) (s : System M P ι) : System M P ι :=
  ⟨s.mem, Function.update s.pc i p⟩

/-- A run in which thread `i` calls a function. -/
theorem System.Reachable.call {s₀ s : System M P ι} (hr : System.Reachable step ok s₀ s) (i : ι)
    {p : P} (h : step i s.mem (s.pc i) s.mem p)
    (good : ∀ j, ok j s.mem (Function.update s.pc i p j)) :
    System.Reachable step ok s₀ (s.call i p) :=
  hr.extend i h good

/-- Thread `i` makes `n` accesses in a row, each of which is determined by where it stands. -/
def System.acts (act : ι → M → P → M × P) (i : ι) : Nat → System M P ι → System M P ι
  | 0, s => s
  | n + 1, s =>
    System.acts act i n
      ⟨(act i s.mem (s.pc i)).1, Function.update s.pc i (act i s.mem (s.pc i)).2⟩

/-- A run in which thread `i` makes `n` more accesses. A thread that has nothing to do stays
where it is. -/
theorem System.Reachable.acts {act : ι → M → P → M × P} {s₀ s : System M P ι}
    (hr : System.Reachable step ok s₀ s) (i : ι) (n : Nat)
    (hact : ∀ k < n, ∀ m p, (s.acts act i k).mem = m → (s.acts act i k).pc i = p →
      act i m p = (m, p) ∨ step i m p (act i m p).1 (act i m p).2)
    (good : ∀ k < n + 1, ∀ j, ok j (s.acts act i k).mem ((s.acts act i k).pc j)) :
    System.Reachable step ok s₀ (s.acts act i n) := by
  induction n generalizing s with
  | zero => exact hr
  | succ n ih =>
    apply ih
    · rcases hact 0 (by omega) _ _ rfl rfl with h | h
      · have hmem : (act i s.mem (s.pc i)).1 = s.mem := congrArg Prod.fst h
        have hpc : (act i s.mem (s.pc i)).2 = s.pc i := congrArg Prod.snd h
        rw [hmem, hpc, Function.update_eq_self]
        exact hr
      · exact hr.extend i h (good 1 (by omega))
    · intro k hk
      exact hact (k + 1) (by omega)
    · intro k hk
      exact good (k + 1) (by omega)

end Steps

end ConcurrencyKit.Threads
