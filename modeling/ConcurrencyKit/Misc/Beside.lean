import Mathlib.Logic.Relation
import Mathlib.Tactic

/-!
# Read-only calls beside a writer

One writer changes a shared memory step by step while any number of readers run calls of a
read-only program, one load at a time. A call keeps a record of the memory at each of its moments,
so that what it returns can be compared with what was there meanwhile.

The proof rule: an invariant of the memory that the writer keeps, and an invariant of the memory
and one call that the writer and the call itself keep, hold in every state that is reached.
-/

namespace ConcurrencyKit.Beside

variable {σ κ α ι : Type}

/-- A program of the readers. `load` is one step of a call with argument `κ`, with at most one
load from the memory, and `done` tells the program counters of calls that have returned. -/
structure Program (σ κ α : Type) where
  start : α
  load : σ → κ → α → α
  done : α → Bool

/-- A call: its argument, where it stands, the memory when it was invoked, and the memory at each
moment of the call so far, the latest first and the invocation last. -/
structure Call (σ κ α : Type) where
  key : κ
  pc : α
  start : σ
  moments : List σ

/-- A call that runs witnesses one more state of the memory. -/
def Call.observe (P : Program σ κ α) (mem : σ) (c : Call σ κ α) : Call σ κ α :=
  if P.done c.pc then c else { c with moments := mem :: c.moments }

/-- The memory and the latest call of each reader. -/
structure System (σ κ α ι : Type) where
  mem : σ
  calls : ι → Option (Call σ κ α)

section Runs

variable [DecidableEq ι]

/-- One step of the writer or of one reader. -/
inductive System.Step (P : Program σ κ α) (write : σ → σ → Prop) :
    System σ κ α ι → System σ κ α ι → Prop
  | write {s : System σ κ α ι} {mem : σ} (h : write s.mem mem) :
      Step P write s ⟨mem, fun i => (s.calls i).map (Call.observe P mem)⟩
  | invoke {s : System σ κ α ι} (i : ι) (key : κ)
      (idle : ∀ c, s.calls i = some c → P.done c.pc = true) :
      Step P write s
        ⟨s.mem, Function.update s.calls i (some ⟨key, P.start, s.mem, [s.mem]⟩)⟩
  | load {s : System σ κ α ι} (i : ι) {c : Call σ κ α} (h : s.calls i = some c)
      (running : P.done c.pc = false) :
      Step P write s
        ⟨s.mem, Function.update s.calls i (some { c with pc := P.load s.mem c.key c.pc })⟩

/-- States reached from memory `mem` with no call made. -/
def System.Reachable (P : Program σ κ α) (write : σ → σ → Prop) (mem : σ)
    (s : System σ κ α ι) : Prop :=
  Relation.ReflTransGen (System.Step P write) ⟨mem, fun _ => none⟩ s

end Runs

section Scripts

variable [DecidableEq ι] {P : Program σ κ α} {W : σ → σ → Prop} {mem : σ}
  {s : System σ κ α ι}

/-- The writer takes the memory to `mem`. -/
def System.write (P : Program σ κ α) (mem : σ) (s : System σ κ α ι) : System σ κ α ι :=
  ⟨mem, fun i => (s.calls i).map (Call.observe P mem)⟩

/-- Reader `i` starts a call. -/
def System.invoke (P : Program σ κ α) (i : ι) (key : κ) (s : System σ κ α ι) : System σ κ α ι :=
  ⟨s.mem, Function.update s.calls i (some ⟨key, P.start, s.mem, [s.mem]⟩)⟩

/-- Reader `i` makes `n` steps of its call, or as many as there are. -/
def System.loads (P : Program σ κ α) (i : ι) : Nat → System σ κ α ι → System σ κ α ι
  | 0, s => s
  | n + 1, s =>
    match s.calls i with
    | none => s
    | some c =>
      if P.done c.pc then s
      else System.loads P i n
        ⟨s.mem, Function.update s.calls i (some { c with pc := P.load s.mem c.key c.pc })⟩

theorem System.Reachable.write {mem' : σ} (hr : System.Reachable P W mem s)
    (hw : W s.mem mem') : System.Reachable P W mem (s.write P mem') :=
  hr.tail (.write hw)

theorem System.Reachable.invoke (hr : System.Reachable P W mem s) (i : ι) (key : κ)
    (idle : ∀ c, s.calls i = some c → P.done c.pc = true) :
    System.Reachable P W mem (s.invoke P i key) :=
  hr.tail (.invoke i key idle)

theorem System.Reachable.loads (hr : System.Reachable P W mem s) (i : ι) (n : Nat) :
    System.Reachable P W mem (s.loads P i n) := by
  induction n generalizing s with
  | zero => exact hr
  | succ n ih =>
    unfold System.loads
    split
    · exact hr
    · rename_i c hc
      split
      · exact hr
      · rename_i hrun
        exact ih (hr.tail (.load i hc (Bool.eq_false_iff.mpr hrun)))

end Scripts

/-- The invariants of a memory and of a call on it. -/
structure Invariant (P : Program σ κ α) (write : σ → σ → Prop) (Inv : σ → Prop)
    (At : σ → Call σ κ α → Prop) : Prop where
  inv : ∀ {s s'}, Inv s → write s s' → Inv s'
  invoke : ∀ {s} (key : κ), Inv s → At s ⟨key, P.start, s, [s]⟩
  write : ∀ {s s' c}, Inv s → write s s' → P.done c.pc = false → s ∈ c.moments → At s c →
    At s' { c with moments := s' :: c.moments }
  load : ∀ {s c}, Inv s → P.done c.pc = false → s ∈ c.moments → At s c →
    At s { c with pc := P.load s c.key c.pc }
  done : ∀ {s s' c}, P.done c.pc = true → At s c → At s' c

section Rule

variable [DecidableEq ι] {P : Program σ κ α} {write : σ → σ → Prop} {Inv : σ → Prop}
  {At : σ → Call σ κ α → Prop} {mem : σ} {s : System σ κ α ι}

/-- The invariant of the memory holds now and at every moment of every call; the present moment
is one of those of a running call. -/
theorem reachable_moments (hr : System.Reachable P write mem s) (hinit : Inv mem)
    (inv : ∀ {s s'}, Inv s → write s s' → Inv s') :
    Inv s.mem ∧ ∀ i c, s.calls i = some c →
      (P.done c.pc = false → s.mem ∈ c.moments) ∧ ∀ m ∈ c.moments, Inv m := by
  induction hr with
  | refl => exact ⟨hinit, fun i c hc => by cases hc⟩
  | tail _ hstep ih =>
    obtain ⟨hinv, hcalls⟩ := ih
    cases hstep with
    | write hw =>
      refine ⟨inv hinv hw, fun i c hc => ?_⟩
      obtain ⟨c', hc', rfl⟩ := Option.map_eq_some_iff.mp hc
      obtain ⟨hmem, hall⟩ := hcalls i c' hc'
      unfold Call.observe
      split
      · rename_i hd
        refine ⟨fun hrun => ?_, hall⟩
        rw [hd] at hrun
        cases hrun
      · refine ⟨fun _ => List.mem_cons_self, fun m hm => ?_⟩
        rcases List.mem_cons.mp hm with rfl | hm'
        · exact inv hinv hw
        · exact hall m hm'
    | invoke i key idle =>
      refine ⟨hinv, fun j c hc => ?_⟩
      by_cases hj : j = i
      · subst hj
        simp only [Function.update_self, Option.some.injEq] at hc
        subst hc
        refine ⟨fun _ => List.mem_singleton.mpr rfl, fun m hm => ?_⟩
        rw [List.mem_singleton.mp hm]
        exact hinv
      · simp only [Function.update_of_ne hj] at hc
        exact hcalls j c hc
    | load i hc running =>
      refine ⟨hinv, fun j c' hc' => ?_⟩
      by_cases hj : j = i
      · subst hj
        simp only [Function.update_self, Option.some.injEq] at hc'
        obtain ⟨hmem, hall⟩ := hcalls j _ hc
        subst hc'
        exact ⟨fun _ => hmem running, hall⟩
      · simp only [Function.update_of_ne hj] at hc'
        exact hcalls j c' hc'

/-- What the writer and the readers keep holds of every call in every state reached. -/
theorem Invariant.reachable (hi : Invariant P write Inv At)
    (hr : System.Reachable P write mem s) (hinit : Inv mem) :
    ∀ i c, s.calls i = some c → At s.mem c := by
  induction hr with
  | refl => exact fun i c hc => by cases hc
  | tail hrun hstep ih =>
    obtain ⟨hinv, hmoments⟩ := reachable_moments hrun hinit hi.inv
    cases hstep with
    | write hw =>
      intro i c hc
      obtain ⟨c', hc', rfl⟩ := Option.map_eq_some_iff.mp hc
      unfold Call.observe
      split
      · exact hi.done ‹_› (ih i c' hc')
      · rename_i hd
        have hd' := Bool.eq_false_iff.mpr hd
        exact hi.write hinv hw hd' ((hmoments i c' hc').1 hd') (ih i c' hc')
    | invoke i key idle =>
      intro j c hc
      by_cases hj : j = i
      · subst hj
        simp only [Function.update_self, Option.some.injEq] at hc
        exact hc ▸ hi.invoke key hinv
      · simp only [Function.update_of_ne hj] at hc
        exact ih j c hc
    | load i hc running =>
      intro j c' hc'
      by_cases hj : j = i
      · subst hj
        simp only [Function.update_self, Option.some.injEq] at hc'
        exact hc' ▸ hi.load hinv running ((hmoments j _ hc).1 running) (ih j _ hc)
      · simp only [Function.update_of_ne hj] at hc'
        exact ih j c' hc'

end Rule

end ConcurrencyKit.Beside
