import ConcurrencyKit.Cohort.Model

/-!
# Exclusion among cohorts

A thread that gets the local lock of its cohort relies on `release_state`: it says whether the
global lock is held on behalf of the cohort (`Agrees`). It does so whenever nobody has the local
lock. What the thread that has it knows is an assertion about each point of its call (`Knows`); the
steps of all others leave it alone, since they have other local locks.
-/

namespace ConcurrencyKit.Cohort

variable {κ ι : Type}

/-- The cohort whose local lock the thread has. -/
def Pc.holds : Pc κ → Option κ
  | inside c | lockDec c | lockState c | lockGlobal c | count c | tryDec c true | tryState c
  | tryGlobal c | tryUnlock c | unlockWaiting c | unlockCount c | unlockKeep c | unlockGlobal c
  | unlockState c | unlockReset c | unlockLocal c => some c
  | _ => none

/-- The state says whether the global lock is held on behalf of the cohort. -/
def Agrees (m : Mem κ ι) (c : κ) : Prop :=
  (m.inst c).releaseState = .stateLocal ↔ m.globalLock = some c

/-- What a thread that has a local lock knows about the global lock. -/
def Knows (m : Mem κ ι) : Pc κ → Prop
  | .lockDec c | .lockState c | .tryDec c true | .tryState c | .unlockLocal c => Agrees m c
  | .lockGlobal c | .tryGlobal c | .tryUnlock c | .unlockReset c =>
    (m.inst c).releaseState = .stateGlobal ∧ m.globalLock ≠ some c
  | .inside c | .count c | .unlockWaiting c | .unlockCount c | .unlockKeep c | .unlockGlobal c =>
    m.globalLock = some c
  | .unlockState c => m.globalLock ≠ some c
  | _ => True

/-- Whoever gets a local lock can rely on the state. -/
def Inv (m : Mem κ ι) : Prop := ∀ c, m.localLock c = none → Agrees m c

/-- What is true of a thread. -/
structure At (i : ι) (m : Mem κ ι) (pc : Pc κ) : Prop where
  holds : ∀ c, m.localLock c = some i ↔ pc.holds = some c
  knows : Knows m pc

theorem Agrees.of_global {m : Mem κ ι} {c : κ} (h : (m.inst c).releaseState = .stateGlobal)
    (hglobal : m.globalLock ≠ some c) : Agrees m c := by
  simp [Agrees, h, hglobal]

theorem Agrees.of_local {m : Mem κ ι} {c : κ} (h : (m.inst c).releaseState = .stateLocal)
    (hglobal : m.globalLock = some c) : Agrees m c := by
  simp [Agrees, h, hglobal]

theorem Agrees.not_held {m : Mem κ ι} {c : κ} (h : Agrees m c)
    (hstate : (m.inst c).releaseState = .stateGlobal) : m.globalLock ≠ some c := by
  intro hglobal
  rw [h.mpr hglobal] at hstate
  cases hstate

theorem ReleaseState.eq_local {st : ReleaseState} (h : st ≠ .stateGlobal) : st = .stateLocal := by
  cases st with
  | stateGlobal => exact absurd rfl h
  | stateLocal => rfl

/-- What a thread knows is about the cohort whose local lock it has. -/
theorem Knows.congr {m m' : Mem κ ι} {pc : Pc κ} (h : Knows m pc)
    (hstate : ∀ c, pc.holds = some c → (m'.inst c).releaseState = (m.inst c).releaseState)
    (hglobal : ∀ c, pc.holds = some c → (m'.globalLock = some c ↔ m.globalLock = some c)) :
    Knows m' pc := by
  cases pc with
  | tryDec c trylockResult =>
    cases trylockResult with
    | true => simpa [Knows, Agrees, hstate c rfl, hglobal c rfl] using h
    | false => trivial
  | idle | lockInc | lockLocal | tryInc | tryLocal => trivial
  | inside c | lockDec c | lockState c | lockGlobal c | count c | tryState c | tryGlobal c
  | tryUnlock c | unlockWaiting c | unlockCount c | unlockKeep c | unlockGlobal c | unlockState c
  | unlockReset c | unlockLocal c =>
    simpa [Knows, Agrees, hstate c rfl, hglobal c rfl] using h

section Steps

variable [DecidableEq κ] [DecidableEq ι] {i : ι} {m m' : Mem κ ι} {pc pc' : Pc κ}

/-- What a step of thread `i` leaves to the others. -/
structure Leaves (i : ι) (pc : Pc κ) (m m' : Mem κ ι) : Prop where
  localLock : ∀ c j, j ≠ i → (m'.localLock c = some j ↔ m.localLock c = some j)
  state : ∀ c, pc.holds ≠ some c → (m'.inst c).releaseState = (m.inst c).releaseState
  globalLock : ∀ c, pc.holds ≠ some c → (m'.globalLock = some c ↔ m.globalLock = some c)

omit [DecidableEq κ] [DecidableEq ι] in
theorem Leaves.of_eq (hlocal : m'.localLock = m.localLock)
    (hstate : ∀ c, (m'.inst c).releaseState = (m.inst c).releaseState)
    (hglobal : m'.globalLock = m.globalLock) : Leaves i pc m m' where
  localLock _ _ _ := by rw [hlocal]
  state c _ := hstate c
  globalLock _ _ := by rw [hglobal]

omit [DecidableEq κ] [DecidableEq ι] in
theorem Leaves.refl (i : ι) (pc : Pc κ) (m : Mem κ ι) : Leaves i pc m m :=
  .of_eq rfl (fun _ => rfl) rfl

omit [DecidableEq ι] in
/-- A store to another member than `release_state`. -/
theorem modify_state (c : κ) {f : Instance → Instance}
    (hf : ∀ inst, (f inst).releaseState = inst.releaseState) (c' : κ) :
    ((m.modify c f).inst c').releaseState = (m.inst c').releaseState := by
  by_cases h : c' = c
  · subst h
    simp [Mem.modify, hf]
  · simp [Mem.modify, h]

omit [DecidableEq ι] in
theorem Leaves.setState {c : κ} (h : pc.holds = some c) (st : ReleaseState) :
    Leaves i pc m (m.modify c (.setState st)) where
  localLock _ _ _ := Iff.rfl
  state c' hc' := by
    have hne : c' ≠ c := by
      intro heq
      exact hc' (heq ▸ h)
    simp [Mem.modify, hne]
  globalLock _ _ := Iff.rfl

omit [DecidableEq ι] in
/-- A local lock that is free, or that the thread has, changes hands. -/
theorem Leaves.setLocal {c : κ} {holder : Option ι}
    (hlocal : m'.localLock = Function.update m.localLock c holder) (hinst : m'.inst = m.inst)
    (hglobal : m'.globalLock = m.globalLock) (hbefore : ∀ j, j ≠ i → m.localLock c ≠ some j)
    (hafter : ∀ j, j ≠ i → holder ≠ some j) : Leaves i pc m m' where
  localLock c' j hj := by
    rw [hlocal]
    by_cases h : c' = c
    · simp [h, hbefore j hj, hafter j hj]
    · simp [h]
  state _ _ := by rw [hinst]
  globalLock _ _ := by rw [hglobal]

omit [DecidableEq κ] [DecidableEq ι] in
theorem Leaves.setGlobal {c : κ} {holder : Option κ} (h : pc.holds = some c)
    (hbefore : ∀ c', c' ≠ c → m.globalLock ≠ some c') (hafter : ∀ c', c' ≠ c → holder ≠ some c') :
    Leaves i pc m (m.setGlobal holder) where
  localLock _ _ _ := Iff.rfl
  state _ _ := rfl
  globalLock c' hc' := by
    have hne : c' ≠ c := by
      intro heq
      exact hc' (heq ▸ h)
    simp [Mem.setGlobal, hbefore c' hne, hafter c' hne]

omit [DecidableEq κ] [DecidableEq ι] in
/-- The local lock that a thread has is nobody else's. -/
theorem At.local_ne (hat : At i m pc) {c : κ} (h : pc.holds = some c) (j : ι) (hj : j ≠ i) :
    m.localLock c ≠ some j := by
  intro hlocal
  rw [(hat.holds c).mpr h] at hlocal
  exact hj (Option.some.inj hlocal).symm

theorem act_leaves (hat : At i m pc) : Leaves i pc m (act i m pc).1 := by
  have free : ∀ {c : κ}, m.globalLock = none → ∀ c', c' ≠ c → m.globalLock ≠ some c' := by
    intro c h c' _
    simp [h]
  have one : ∀ {α : Type} {a : α}, ∀ b, b ≠ a → some a ≠ some b := by
    intro α a b hb heq
    exact hb (Option.some.inj heq).symm
  have nobody : ∀ {α : Type} {a : α}, ∀ b, b ≠ a → (none : Option α) ≠ some b := by
    intro α a b _
    simp
  cases pc with
  | lockInc c | tryInc c => exact .of_eq rfl (modify_state c fun _ => rfl) rfl
  | lockDec c | tryDec c _ | count c | unlockReset c =>
    exact .of_eq rfl (modify_state c fun _ => rfl) rfl
  | lockLocal c | tryLocal c =>
    simp only [act]
    split
    case isTrue h => exact .setLocal rfl rfl rfl (fun j _ => by simp [h]) one
    case isFalse => exact .refl i _ m
  | lockGlobal c | tryGlobal c =>
    simp only [act]
    split
    case isTrue h => exact .setGlobal rfl (free h) one
    case isFalse => exact .refl i _ m
  | unlockGlobal c =>
    refine .setGlobal rfl (fun c' hc' h => ?_) nobody
    exact hc' (Option.some.inj (h.symm.trans hat.knows))
  | unlockKeep c | unlockState c => exact .setState rfl _
  | tryUnlock c | unlockLocal c => exact .setLocal rfl rfl rfl (hat.local_ne rfl) nobody
  | _ => exact .refl i _ m

theorem Step.leaves (h : Step i m pc m' pc') (hat : At i m pc) : Leaves i pc m m' := by
  cases h with
  | act => exact act_leaves hat
  | _ => exact .refl i _ m

omit [DecidableEq κ] [DecidableEq ι] in
/-- A step of another thread. -/
theorem Leaves.other (h : Leaves i pc m m') (hat : At i m pc) {j : ι} (hj : j ≠ i) {q : Pc κ}
    (hq : At j m q) : At j m' q := by
  have apart : ∀ c, q.holds = some c → pc.holds ≠ some c := fun c hc hpc =>
    hat.local_ne hpc j hj ((hq.holds c).mpr hc)
  exact ⟨fun c => (h.localLock c j hj).trans (hq.holds c), hq.knows.congr
    (fun c hc => h.state c (apart c hc)) fun c hc => h.globalLock c (apart c hc)⟩

omit [DecidableEq κ] [DecidableEq ι] in
/-- A step keeps the states of all cohorts in order if it does so when it gives a local lock
back. -/
theorem Leaves.inv (h : Leaves i pc m m') (hat : At i m pc) (hinv : Inv m)
    (hback : ∀ c, pc.holds = some c → m'.localLock c = none → Agrees m' c) : Inv m' := by
  intro c hnone
  by_cases hc : pc.holds = some c
  · exact hback c hc hnone
  · have hbefore : m.localLock c = none := by
      by_contra hsome
      obtain ⟨j, hj⟩ := Option.ne_none_iff_exists'.mp hsome
      have hji : j ≠ i := by
        intro heq
        subst heq
        exact hc ((hat.holds c).mp hj)
      rw [(h.localLock c j hji).mpr hj] at hnone
      cases hnone
    have hagrees := hinv c hbefore
    rwa [Agrees, h.state c hc, h.globalLock c hc]

/-! ## The steps of the thread itself -/

omit [DecidableEq κ] [DecidableEq ι] in
/-- The thread keeps its local lock, or has none. -/
theorem At.go (hat : At i m pc) (hlocal : m'.localLock = m.localLock)
    (hholds : pc'.holds = pc.holds) (hknows : Knows m' pc') : At i m' pc' := by
  refine ⟨fun c => ?_, hknows⟩
  rw [hlocal, hholds]
  exact hat.holds c

omit [DecidableEq ι] in
/-- A thread that has no local lock takes one. -/
theorem At.takeLocal (hat : At i m pc) (hnone : pc.holds = none) {c : κ}
    (hlocal : m'.localLock = Function.update m.localLock c (some i)) (hholds : pc'.holds = some c)
    (hknows : Knows m' pc') : At i m' pc' := by
  refine ⟨fun c' => ?_, hknows⟩
  rw [hlocal, hholds]
  by_cases h : c' = c
  · simp [h]
  · have hno := hat.holds c'
    simp [hnone] at hno
    simp [h, hno, Ne.symm h]

omit [DecidableEq ι] in
/-- A thread gives its local lock back. -/
theorem At.giveLocal (hat : At i m pc) {c : κ} (hc : pc.holds = some c) :
    At i (m.setLocal c none) .idle := by
  refine ⟨fun c' => ?_, trivial⟩
  by_cases h : c' = c
  · simp [Mem.setLocal, h, Pc.holds]
  · have hno := hat.holds c'
    simp [hc, Ne.symm h] at hno
    simp [Mem.setLocal, h, Pc.holds, hno]

theorem act_at (hinv : Inv m) (hat : At i m pc) : At i (act i m pc).1 (act i m pc).2 := by
  have hknows := hat.knows
  cases pc with
  | lockInc | tryInc => exact hat.go rfl rfl trivial
  | lockLocal c | tryLocal c =>
    simp only [act]
    split
    case isTrue h => exact hat.takeLocal rfl rfl rfl (hinv c h)
    case isFalse => exact hat.go rfl rfl trivial
  | lockDec c => exact hat.go rfl rfl (by simpa [Knows, Agrees, act, Mem.modify] using hknows)
  | tryDec c trylockResult =>
    cases trylockResult with
    | true => exact hat.go rfl rfl (by simpa [Knows, Agrees, act, Mem.modify] using hknows)
    | false => exact hat.go rfl rfl trivial
  | lockState c | tryState c =>
    simp only [act]
    split
    case isTrue h => exact hat.go rfl rfl ⟨h, Agrees.not_held hknows h⟩
    case isFalse h => exact hat.go rfl rfl (hknows.mp (ReleaseState.eq_local h))
  | lockGlobal c =>
    simp only [act]
    split
    case isTrue => exact hat.go rfl rfl rfl
    case isFalse => exact hat
  | tryGlobal c =>
    simp only [act]
    split
    case isTrue => exact hat.go rfl rfl rfl
    case isFalse => exact hat.go rfl rfl hknows
  | count c => exact hat.go rfl rfl hknows
  | unlockWaiting c | unlockCount c =>
    simp only [act]
    split <;> exact hat.go rfl rfl hknows
  | unlockKeep c =>
    exact hat.go rfl rfl (.of_local (by simp [act, Mem.modify]) hknows)
  | unlockGlobal c => exact hat.go rfl rfl (by simp [Knows, act, Mem.setGlobal])
  | unlockState c => exact hat.go rfl rfl ⟨by simp [act, Mem.modify], hknows⟩
  | unlockReset c =>
    exact hat.go rfl rfl (.of_global (by simpa [act, Mem.modify] using hknows.1) hknows.2)
  | tryUnlock c | unlockLocal c => exact hat.giveLocal rfl
  | _ => exact hat

theorem act_inv (hinv : Inv m) (hat : At i m pc) : Inv (act i m pc).1 := by
  refine (act_leaves hat).inv hat hinv ?_
  intro c hc hnone
  have hknows := hat.knows
  have hheld := (hat.holds c).mpr hc
  by_cases hback : pc = .tryUnlock c ∨ pc = .unlockLocal c
  · rcases hback with rfl | rfl
    · exact .of_global hknows.1 hknows.2
    · exact hknows
  · -- the other steps of a thread that has the local lock do not give it back
    have hkept : (act i m pc).1.localLock = m.localLock := by
      cases pc with
      | lockLocal | tryLocal => cases hc
      | tryUnlock => simp_all [Pc.holds]
      | unlockLocal => simp_all [Pc.holds]
      | lockGlobal | tryGlobal =>
        simp only [act]
        split <;> rfl
      | _ => rfl
    rw [hkept, hheld] at hnone
    cases hnone

theorem Step.own (h : Step i m pc m' pc') (hinv : Inv m) (hat : At i m pc) :
    Inv m' ∧ At i m' pc' := by
  cases h with
  | act => exact ⟨act_inv hinv hat, act_at hinv hat⟩
  | lock | trylock | localFails => exact ⟨hinv, hat.go rfl rfl trivial⟩
  | unlock | globalFails => exact ⟨hinv, hat.go rfl rfl hat.knows⟩

theorem invariant : Threads.Invariant Step (fun _ _ _ => True) (Inv (κ := κ) (ι := ι)) At where
  own h _ hinv hat := h.own hinv hat
  other h _ _ hat _ _ hj hq := (h.leaves hat).other hat hj hq

end Steps

variable [DecidableEq κ] [DecidableEq ι] {passLimit : κ → Nat}
  {s : Threads.System (Mem κ ι) (Pc κ) ι}

theorem reachable_at
    (hr : Threads.System.Reachable Step (fun _ _ _ => True) (start κ ι passLimit) s) :
    Inv s.mem ∧ ∀ i, At i s.mem (s.pc i) := by
  have hinv : Inv (start κ ι passLimit).mem := by
    intro c _
    exact .of_global rfl (by simp [start])
  have hat : ∀ i, At i (start κ ι passLimit).mem ((start κ ι passLimit).pc i) := fun i =>
    ⟨by simp [start, Pc.holds], trivial⟩
  obtain ⟨hnow, hall⟩ := invariant.reachable hr (fun _ => trivial) hinv hat
  exact ⟨hnow, fun i => (hall i).2⟩

omit [DecidableEq κ] [DecidableEq ι] in
/-- A thread that has the local lock of a cohort whose state is local has the global lock, unless
it is just giving it back. -/
theorem At.global_of_local {i : ι} {m : Mem κ ι} {pc : Pc κ} (hat : At i m pc) {c : κ}
    (hlocal : m.localLock c = some i) (hstate : (m.inst c).releaseState = .stateLocal)
    (hpc : pc ≠ .unlockState c) : m.globalLock = some c := by
  have hholds := (hat.holds c).mp hlocal
  have hknows := hat.knows
  cases pc with
  | idle | lockInc | lockLocal | tryInc | tryLocal => cases hholds
  | tryDec c' trylockResult =>
    cases trylockResult with
    | true =>
      cases hholds
      exact hknows.mp hstate
    | false => cases hholds
  | lockDec | lockState | tryState | unlockLocal =>
    cases hholds
    exact hknows.mp hstate
  | lockGlobal | tryGlobal | tryUnlock | unlockReset =>
    cases hholds
    rw [hknows.1] at hstate
    cases hstate
  | unlockState =>
    cases hholds
    exact absurd rfl hpc
  | inside | count | unlockWaiting | unlockCount | unlockKeep | unlockGlobal =>
    cases hholds
    exact hknows

/-- Of all threads of all cohorts at most one is between a successful call to lock or to try and
its call to unlock. A thread that has the local lock of a cohort finds it in the state
`CK_COHORT_STATE_LOCAL` only while the global lock is held on behalf of the cohort, and until it has
stored the new state after it has released the global lock. -/
theorem cohorts_exclude
    (hr : Threads.System.Reachable Step (fun _ _ _ => True) (start κ ι passLimit) s) :
    (∀ i j c c', s.pc i = .inside c → s.pc j = .inside c' → i = j) ∧
      ∀ i c, s.mem.localLock c = some i → (s.mem.inst c).releaseState = .stateLocal →
        s.pc i ≠ .unlockState c → s.mem.globalLock = some c := by
  obtain ⟨-, hall⟩ := reachable_at hr
  refine ⟨?_, fun i c => (hall i).global_of_local⟩
  intro i j c c' hi hj
  have hati := hall i
  have hatj := hall j
  rw [hi] at hati
  rw [hj] at hatj
  have hcohort : some c = some c' := hati.knows.symm.trans hatj.knows
  have hlocali := (hati.holds c).mpr rfl
  have hlocalj := (hatj.holds c).mpr hcohort.symm
  rw [hlocali] at hlocalj
  exact Option.some.inj hlocalj

/-- While a thread has locked its cohort, `ck_cohort_##N##_locked` is true of every cohort. -/
theorem locked_of_inside
    (hr : Threads.System.Reachable Step (fun _ _ _ => True) (start κ ι passLimit) s) {i : ι} {c : κ}
    (h : s.pc i = .inside c) (c' : κ) : locked s.mem c' = true := by
  have hat := (reachable_at hr).2 i
  rw [h] at hat
  have hglobal : s.mem.globalLock = some c := hat.knows
  simp [locked, hglobal]

/-- Two threads of one cohort. The first one has locked the cohort, the second one waits for it, and
the first one hands the global lock on to it. -/
def handedOn : Threads.System (Mem Unit Bool) (Pc Unit) Bool :=
  let locked := ((start Unit Bool fun _ => 10).call false (.lockInc ())).acts act false 6
  let waiting := (locked.call true (.lockInc ())).acts act true 1
  ((waiting.call false (.unlockWaiting ())).acts act false 4).acts act true 4

theorem handedOn_reachable :
    Threads.System.Reachable Step (fun _ _ _ => True) (start Unit Bool fun _ => 10) handedOn := by
  have h₀ : Threads.System.Reachable Step (fun _ _ _ => True) (start Unit Bool fun _ => 10)
      (start Unit Bool fun _ => 10) := .refl
  have h₁ := h₀.call false (.lock ()) fun _ => trivial
  have h₂ := acts_reachable h₁ false 6 fun _ _ _ => trivial
  have h₃ := h₂.call true (.lock ()) fun _ => trivial
  have h₄ := acts_reachable h₃ true 1 fun _ _ _ => trivial
  have h₅ := h₄.call false (.unlock ()) fun _ => trivial
  have h₆ := acts_reachable h₅ false 4 fun _ _ _ => trivial
  exact acts_reachable h₆ true 4 fun _ _ _ => trivial

/-- The second thread has the lock. -/
theorem cohorts_exclude_handedOn :
    handedOn.pc true = .inside () ∧ handedOn.mem.globalLock = some () ∧
      handedOn.pc false ≠ .inside () := by
  have hexcl := cohorts_exclude handedOn_reachable
  have htrue : handedOn.pc true = .inside () := by decide +kernel
  refine ⟨htrue, hexcl.2 true () (by decide +kernel) (by decide +kernel) (by simp [htrue]), ?_⟩
  intro hfalse
  cases hexcl.1 false true () () hfalse htrue

/-- The second thread has given the global lock back and has yet to say so. -/
theorem local_unheld : ∃ s : Threads.System (Mem Unit Bool) (Pc Unit) Bool,
    Threads.System.Reachable Step (fun _ _ _ => True) (start Unit Bool fun _ => 10) s ∧
      s.mem.localLock () = some true ∧ (s.mem.inst ()).releaseState = .stateLocal ∧
      s.mem.globalLock = none := by
  have h₁ := handedOn_reachable.call true (p := .unlockWaiting ()) (.unlock ()) fun _ => trivial
  have h₂ := acts_reachable h₁ true 2 fun _ _ _ => trivial
  exact ⟨_, h₂, by decide +kernel, by decide +kernel, by decide +kernel⟩

end ConcurrencyKit.Cohort
