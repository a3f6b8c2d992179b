import ConcurrencyKit.Misc.Threads

/-!
# Roles that are guarded by locks

A component is made for a fixed set of roles: in each role one thread at a time may make its calls.
Where any number of threads are to use it, there is a lock for each role. A thread takes the lock
before it makes calls in the role, and gives it back afterwards.

If a lock is given to one thread at a time, the threads do nothing to the component that its roles
cannot do (`Guarded.reachable_roles`), so that what holds in the runs of the component holds in the
runs of the threads, too.
-/

namespace ConcurrencyKit.Guarded

open Threads (System)

/-- A lock for the threads of `ι`: its program, where a thread stands that has nothing to do with
it, and where one stands that has it. -/
structure Lock (ι L Q : Type) where
  step : ι → L → Q → L → Q → Prop
  free : Q
  Held : Q → Prop

/-- A reason why the lock is given to one thread at a time: an invariant of its program. -/
structure Lock.Exclusive {ι L Q : Type} (lock : Lock ι L Q) (Inv : L → Prop)
    (At : ι → L → Q → Prop) : Prop where
  invariant : Threads.Invariant lock.step (fun _ _ _ => True) Inv At
  unique : ∀ {i j l q q'}, At i l q → At j l q' → lock.Held q → lock.Held q' → i = j

/-- A component with the program of each role. A role is at rest between two calls, where the next
call does not depend on the one before. -/
structure Component (ρ M P : Type) where
  step : ρ → M → P → M → P → Prop
  idle : P
  Rest : P → Prop
  rest_idle : Rest idle
  rest_step : ∀ {r m p m' p' q}, Rest p → Rest q → step r m p m' p' → step r m q m' p'

/-- The component and the locks of its roles. -/
structure Mem (ρ L M : Type) where
  mem : M
  locks : ρ → L

/-- Where a thread stands that has the lock of a role or has not. -/
inductive Pc (ρ Q P : Type) where
  | outside (r : ρ) (q : Q)
  | inside (r : ρ) (q : Q) (p : P)

variable {ι ρ M P L Q : Type}

/-- Where the thread stands with respect to the lock of each role. -/
def Pc.view [DecidableEq ρ] (free : Q) : Pc ρ Q P → ρ → Q
  | .outside r q | .inside r q _ => Function.update (fun _ => free) r q

section Steps

variable [DecidableEq ρ] (lock : Lock ι L Q) (c : Component ρ M P)

/-- One step of a thread. Outside it turns to another role or goes on with a lock. Inside it goes on
with a call of the role, and gives the lock back when the role is at rest. -/
inductive Step (i : ι) : Mem ρ L M → Pc ρ Q P → Mem ρ L M → Pc ρ Q P → Prop
  | turn {m : Mem ρ L M} {r : ρ} (r' : ρ) :
      Step i m (.outside r lock.free) m (.outside r' lock.free)
  | wait {m : Mem ρ L M} {r : ρ} {q q' : Q} {l : L} (h : lock.step i (m.locks r) q l q')
      (hq : ¬ lock.Held q') :
      Step i m (.outside r q) { m with locks := Function.update m.locks r l } (.outside r q')
  | enter {m : Mem ρ L M} {r : ρ} {q q' : Q} {l : L} (h : lock.step i (m.locks r) q l q')
      (hq : lock.Held q') :
      Step i m (.outside r q) { m with locks := Function.update m.locks r l }
        (.inside r q' c.idle)
  | work {m : Mem ρ L M} {r : ρ} {q : Q} {p p' : P} {m' : M} (h : c.step r m.mem p m' p') :
      Step i m (.inside r q p) { m with mem := m' } (.inside r q p')
  | leave {m : Mem ρ L M} {r : ρ} {q q' : Q} {p : P} {l : L} (rest : c.Rest p)
      (h : lock.step i (m.locks r) q l q') (hq : ¬ lock.Held q') :
      Step i m (.inside r q p) { m with locks := Function.update m.locks r l } (.outside r q')

end Steps

/-! ## Exclusion -/

section Exclusion

variable [DecidableEq ρ] {lock : Lock ι L Q} {c : Component ρ M P} {LInv : L → Prop}
  {LAt : ι → L → Q → Prop} {i j : ι} {m m' : Mem ρ L M} {pc pc' : Pc ρ Q P} {r : ρ}

/-- The invariant of each lock. -/
def Inv (LInv : L → Prop) (m : Mem ρ L M) : Prop := ∀ r, LInv (m.locks r)

/-- The assertion of each lock about a thread, which has the lock of the role that it is in. -/
structure At (lock : Lock ι L Q) (LAt : ι → L → Q → Prop) (i : ι) (m : Mem ρ L M)
    (pc : Pc ρ Q P) : Prop where
  view : ∀ r, LAt i (m.locks r) (pc.view lock.free r)
  held : ∀ r q p, pc = .inside r q p → lock.Held q

/-- A step of one lock, as the threads see all of them. -/
theorem lock_own (hx : lock.Exclusive LInv LAt) {l : L} {q' : Q}
    (h : lock.step i (m.locks r) (pc.view lock.free r) l q') (hinv : Inv LInv m)
    (hat : At lock LAt i m pc) (hview : pc'.view lock.free = Function.update
      (pc.view lock.free) r q') (hheld : ∀ r q p, pc' = .inside r q p → lock.Held q) :
    Inv LInv { m with locks := Function.update m.locks r l } ∧
      At lock LAt i { m with locks := Function.update m.locks r l } pc' := by
  obtain ⟨hl, hq⟩ := hx.invariant.own h trivial (hinv r) (hat.view r)
  refine ⟨fun r' => ?_, fun r' => ?_, hheld⟩
  · by_cases hr : r' = r
    · subst hr
      simpa using hl
    · simpa [Function.update_of_ne hr] using hinv r'
  · rw [hview]
    by_cases hr : r' = r
    · subst hr
      simpa using hq
    · simpa [Function.update_of_ne hr] using hat.view r'

theorem lock_other (hx : lock.Exclusive LInv LAt) {l : L} {q' : Q}
    (h : lock.step i (m.locks r) (pc.view lock.free r) l q') (hinv : Inv LInv m)
    (hat : At lock LAt i m pc) (hj : j ≠ i) (hother : At lock LAt j m pc') :
    At lock LAt j { m with locks := Function.update m.locks r l } pc' := by
  refine ⟨fun r' => ?_, hother.held⟩
  by_cases hr : r' = r
  · subst hr
    simpa using hx.invariant.other h trivial (hinv r') (hat.view r') hj (hother.view r')
  · simpa [Function.update_of_ne hr] using hother.view r'

theorem invariant (hx : lock.Exclusive LInv LAt) :
    Threads.Invariant (Step lock c) (fun _ _ _ => True) (Inv LInv) (At lock LAt) where
  own hstep _ hinv hat := by
    cases hstep with
    | turn r' =>
      refine ⟨hinv, fun r => ?_, fun _ _ _ h => by cases h⟩
      have hview := hat.view r
      simp only [Pc.view, Function.update_eq_self] at hview ⊢
      exact hview
    | wait h =>
      refine lock_own hx (by simpa [Pc.view] using h) hinv hat ?_ fun _ _ _ h => by cases h
      simp [Pc.view]
    | enter h hq =>
      refine lock_own hx (by simpa [Pc.view] using h) hinv hat ?_ fun _ _ _ h => ?_
      · simp [Pc.view]
      · cases h
        exact hq
    | work h =>
      refine ⟨hinv, hat.view, fun _ _ _ h => ?_⟩
      cases h
      exact hat.held _ _ _ rfl
    | leave _ h =>
      refine lock_own hx (by simpa [Pc.view] using h) hinv hat ?_ fun _ _ _ h => by cases h
      simp [Pc.view]
  other hstep _ hinv hat _ _ hj hother := by
    cases hstep with
    | turn => exact hother
    | wait h | enter h | leave _ h =>
      exact lock_other hx (by simpa [Pc.view] using h) hinv hat hj hother
    | work => exact ⟨hother.view, hother.held⟩

/-- The states of the threads that start outside, with the locks in their first states. -/
structure Starts (lock : Lock ι L Q) (LInv : L → Prop) (LAt : ι → L → Q → Prop)
    (s : System (Mem ρ L M) (Pc ρ Q P) ι) : Prop where
  inv : ∀ r, LInv (s.mem.locks r)
  free : ∀ i r, LAt i (s.mem.locks r) lock.free
  outside : ∀ i, ∃ r, s.pc i = .outside r lock.free

variable [DecidableEq ι] {s₀ s : System (Mem ρ L M) (Pc ρ Q P) ι}

theorem reachable_at (hx : lock.Exclusive LInv LAt) (h₀ : Starts lock LInv LAt s₀)
    (hr : System.Reachable (Step lock c) (fun _ _ _ => True) s₀ s) :
    ∀ i, At lock LAt i s.mem (s.pc i) := by
  have hat : ∀ i, At lock LAt i s₀.mem (s₀.pc i) := by
    intro i
    obtain ⟨r, hpc⟩ := h₀.outside i
    rw [hpc]
    refine ⟨fun r' => ?_, fun _ _ _ h => by cases h⟩
    rw [Pc.view, Function.update_eq_self]
    exact h₀.free i r'
  exact fun i => (((invariant hx).reachable hr (fun _ => trivial) h₀.inv hat).2 i).2

omit [DecidableEq ι] in
/-- Two threads are not in the same role. -/
theorem At.unique (hx : lock.Exclusive LInv LAt) {q q' : Q} {p p' : P}
    (hi : At lock LAt i m (.inside r q p)) (hj : At lock LAt j m (.inside r q' p')) : i = j := by
  have hvi := hi.view r
  have hvj := hj.view r
  simp only [Pc.view, Function.update_self] at hvi hvj
  exact hx.unique hvi hvj (hi.held _ _ _ rfl) (hj.held _ _ _ rfl)

end Exclusion

/-! ## Simulation -/

section Simulation

variable {lock : Lock ι L Q} {c : Component ρ M P} {LInv : L → Prop} {LAt : ι → L → Q → Prop}
  {s₀ s : System (Mem ρ L M) (Pc ρ Q P) ι} {a : System M P ρ} {i : ι} {r : ρ} {mem : Mem ρ L M}

/-- Two program counters of a role that the next call cannot tell apart. -/
def Component.Like (c : Component ρ M P) (p q : P) : Prop := p = q ∨ c.Rest p ∧ c.Rest q

/-- The component is in the state that its roles would have brought it to. A role is where the
thread stands that is in it. -/
structure Sim (c : Component ρ M P) (s : System (Mem ρ L M) (Pc ρ Q P) ι) (a : System M P ρ) :
    Prop where
  mem : a.mem = s.mem.mem
  busy : ∀ i r q p, s.pc i = .inside r q p → c.Like p (a.pc r)
  spare : ∀ r, (∀ i q p, s.pc i ≠ .inside r q p) → c.Rest (a.pc r)

theorem Component.Like.rest {p q : P} (h : c.Like p q) (hp : c.Rest p) : c.Rest q := by
  rcases h with rfl | h
  · exact hp
  · exact h.2

variable [DecidableEq ι]

/-- A thread stays outside. -/
theorem Sim.outside (hsim : Sim c s a) {r' : ρ} {q q' : Q}
    (hmem : mem.mem = s.mem.mem) (hpc : s.pc i = .outside r q) :
    Sim c ⟨mem, Function.update s.pc i (.outside r' q')⟩ a := by
  refine ⟨hsim.mem.trans hmem.symm, fun j r₁ q₁ p₁ h => ?_, fun r₁ hnone => ?_⟩
  · by_cases hj : j = i
    · subst hj
      simp at h
    · exact hsim.busy j r₁ q₁ p₁ (by simpa [hj] using h)
  · refine hsim.spare r₁ fun j q₁ p₁ h => ?_
    by_cases hj : j = i
    · subst hj
      rw [hpc] at h
      cases h
    · exact hnone j q₁ p₁ (by simpa [hj] using h)

/-- A thread takes a role that nobody is in. -/
theorem Sim.enter (hsim : Sim c s a) {q' : Q}
    (hmem : mem.mem = s.mem.mem) (hfree : ∀ j q p, s.pc j ≠ .inside r q p)
    (hpc : ∀ r q p, s.pc i ≠ .inside r q p) :
    Sim c ⟨mem, Function.update s.pc i (.inside r q' c.idle)⟩ a := by
  refine ⟨hsim.mem.trans hmem.symm, fun j r₁ q₁ p₁ h => ?_, fun r₁ hnone => ?_⟩
  · by_cases hj : j = i
    · subst hj
      simp only [Function.update_self] at h
      cases h
      exact .inr ⟨c.rest_idle, hsim.spare r hfree⟩
    · exact hsim.busy j r₁ q₁ p₁ (by simpa [hj] using h)
  · refine hsim.spare r₁ fun j q₁ p₁ h => ?_
    by_cases hj : j = i
    · subst hj
      exact hpc r₁ q₁ p₁ h
    · exact hnone j q₁ p₁ (by simpa [hj] using h)

/-- The thread in a role gives it up. -/
theorem Sim.leave (hsim : Sim c s a) {q q' : Q} {p : P}
    (hmem : mem.mem = s.mem.mem) (hpc : s.pc i = .inside r q p) (hrest : c.Rest p) :
    Sim c ⟨mem, Function.update s.pc i (.outside r q')⟩ a := by
  refine ⟨hsim.mem.trans hmem.symm, fun j r₁ q₁ p₁ h => ?_, fun r₁ hnone => ?_⟩
  · by_cases hj : j = i
    · subst hj
      simp at h
    · exact hsim.busy j r₁ q₁ p₁ (by simpa [hj] using h)
  · by_cases hr : r₁ = r
    · subst hr
      exact (hsim.busy i r₁ q p hpc).rest hrest
    · refine hsim.spare r₁ fun j q₁ p₁ h => ?_
      by_cases hj : j = i
      · subst hj
        rw [hpc] at h
        cases h
        exact hr rfl
      · exact hnone j q₁ p₁ (by simpa [hj] using h)

variable [DecidableEq ρ]

/-- The thread in a role goes on with a call. -/
theorem Sim.work (hsim : Sim c s a) {q : Q} {p p' : P} {m' : M}
    (hmem : mem.mem = m') (hpc : s.pc i = .inside r q p)
    (hother : ∀ j q p, s.pc j = .inside r q p → j = i) :
    Sim c ⟨mem, Function.update s.pc i (.inside r q p')⟩ ⟨m', Function.update a.pc r p'⟩ := by
  refine ⟨hmem.symm, fun j r₁ q₁ p₁ h => ?_, fun r₁ hnone => ?_⟩
  · by_cases hj : j = i
    · subst hj
      simp only [Function.update_self] at h
      cases h
      refine .inl ?_
      dsimp only
      rw [Function.update_self]
    · have h' : s.pc j = .inside r₁ q₁ p₁ := by simpa [hj] using h
      have hr : r₁ ≠ r := by
        rintro rfl
        exact hj (hother j q₁ p₁ h')
      simpa only [Function.update_of_ne hr] using hsim.busy j r₁ q₁ p₁ h'
  · have hr : r₁ ≠ r := by
      rintro rfl
      exact hnone i q p' (Function.update_self ..)
    simp only [Function.update_of_ne hr]
    refine hsim.spare r₁ fun j q₁ p₁ h => ?_
    by_cases hj : j = i
    · subst hj
      rw [hpc] at h
      cases h
      exact hr rfl
    · exact hnone j q₁ p₁ (by simpa [hj] using h)

/-- A step of a thread is a step of the role that it is in, or nothing to the component. -/
theorem sim_step (hx : lock.Exclusive LInv LAt) (hat : ∀ i, At lock LAt i s.mem (s.pc i))
    {s' : System (Mem ρ L M) (Pc ρ Q P) ι} (hat' : ∀ i, At lock LAt i s'.mem (s'.pc i))
    (hsim : Sim c s a) (h : System.Step (Step lock c) (fun _ _ _ => True) s s') :
    ∃ a', Relation.ReflTransGen (System.Step c.step fun _ _ _ => True) a a' ∧ Sim c s' a' := by
  cases h with
  | @run i mem p h good =>
    generalize hpc : s.pc i = pc at h
    generalize hmem : s.mem = m at h
    cases h with
    | turn | wait => exact ⟨a, .refl, hsim.outside (by rw [hmem]) hpc⟩
    | @enter r q q' l h hq =>
      have hi := hat' i
      simp only [Function.update_self] at hi
      have hpc' : ∀ r q p, s.pc i ≠ .inside r q p := by
        intro _ _ _ hin
        rw [hpc] at hin
        cases hin
      refine ⟨a, .refl, hsim.enter (by rw [hmem]) (fun j q p hj => ?_) hpc'⟩
      have hne : j ≠ i := by
        rintro rfl
        exact hpc' _ _ _ hj
      have hatj := hat' j
      simp only [Function.update_of_ne hne, hj] at hatj
      exact hne (hatj.unique hx hi)
    | @work r q p p' m' h =>
      have hi := hat i
      rw [hpc] at hi
      have hstep : c.step r a.mem (a.pc r) m' p' := by
        rw [hsim.mem, hmem]
        rcases hsim.busy i r q p hpc with heq | ⟨hp, hq⟩
        · exact heq ▸ h
        · exact c.rest_step hp hq h
      refine ⟨⟨m', Function.update a.pc r p'⟩, .single (.run r hstep fun _ => trivial),
        hsim.work rfl hpc fun j q' p'' hj => ?_⟩
      have hatj := hat j
      rw [hj] at hatj
      exact hatj.unique hx hi
    | leave rest => exact ⟨a, .refl, hsim.leave (by rw [hmem]) hpc rest⟩

/-- What the threads do to the component, its roles can do. -/
theorem reachable_roles (hx : lock.Exclusive LInv LAt) (h₀ : Starts lock LInv LAt s₀)
    (a₀ : System M P ρ) (hmem : a₀.mem = s₀.mem.mem) (hrest : ∀ r, c.Rest (a₀.pc r))
    (hr : System.Reachable (Step lock c) (fun _ _ _ => True) s₀ s) :
    ∃ a, System.Reachable c.step (fun _ _ _ => True) a₀ a ∧ Sim c s a := by
  induction hr with
  | refl =>
    refine ⟨a₀, .refl, hmem, fun i r q p h => ?_, fun r _ => hrest r⟩
    obtain ⟨r', hpc⟩ := h₀.outside i
    rw [hpc] at h
    cases h
  | tail hr hstep ih =>
    obtain ⟨a, ha, hsim⟩ := ih
    obtain ⟨a', ha', hsim'⟩ := sim_step hx (reachable_at hx h₀ hr)
      (reachable_at hx h₀ (hr.tail hstep)) hsim hstep
    exact ⟨a', ha.trans ha', hsim'⟩

end Simulation

end ConcurrencyKit.Guarded
