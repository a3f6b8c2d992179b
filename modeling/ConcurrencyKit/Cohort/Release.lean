import ConcurrencyKit.Cohort.Exclusion

/-!
# Release of the global lock of a cohort

`ck_cohort_##N##_unlock` keeps the global lock if threads are counted in `waiting_threads`. Those in
`ck_cohort_##N##_lock` cannot leave before they have got the local lock, and then find the global
lock theirs. Those in `ck_cohort_##N##_trylock` are counted too, before their attempt and after it.
In the runs considered here the lock is kept only if somebody is there to take it.
-/

namespace ConcurrencyKit.Cohort

variable {κ ι : Type}

/-- A cohort in the local state has a thread that has its local lock or that waits for it in
`ck_cohort_##N##_lock`. -/
def Taken (m : Mem κ ι) : Prop :=
  ∀ c, (m.inst c).releaseState = .stateLocal → m.localLock c ≠ none ∨ (m.waits c).Nonempty

/-- The thread is counted among those that wait where it does. -/
def WaitsAt (i : ι) (m : Mem κ ι) (pc : Pc κ) : Prop := ∀ c, i ∈ m.waits c ↔ pc = .lockLocal c

section Steps

variable [DecidableEq κ] [DecidableEq ι] {i : ι} {m m' : Mem κ ι} {pc pc' : Pc κ}

/-- A step of a thread. It gives the local lock back while the global one is kept only if a thread
waits for it. -/
def KeepStep (i : ι) (m : Mem κ ι) (pc : Pc κ) (m' : Mem κ ι) (pc' : Pc κ) : Prop :=
  (∀ c, pc = .unlockLocal c → (m.inst c).releaseState = .stateLocal → (m.waits c).Nonempty) ∧
    Step i m pc m' pc'

omit [DecidableEq ι] in
/-- What becomes of the threads that wait for one cohort. -/
theorem mem_setWaits {c : κ} {w : Finset ι} {j : ι}
    (hw : m'.waits = Function.update m.waits c w) (hj : j ∈ w ↔ j ∈ m.waits c) (c' : κ) :
    j ∈ m'.waits c' ↔ j ∈ m.waits c' := by
  rw [hw]
  by_cases h : c' = c
  · subst h
    simpa using hj
  · simp [h]

theorem act_waits {j : ι} (hj : j ≠ i) (c : κ) :
    j ∈ (act i m pc).1.waits c ↔ j ∈ m.waits c := by
  cases pc with
  | lockInc c' => exact mem_setWaits rfl (by simp [hj]) c
  | lockLocal c' =>
    simp only [act]
    split
    case isTrue => exact mem_setWaits rfl (by simp [hj]) c
    case isFalse => rfl
  | tryLocal | lockGlobal | tryGlobal =>
    simp only [act]
    split <;> rfl
  | _ => rfl

/-- A step of another thread. -/
theorem Step.waits (h : Step i m pc m' pc') {j : ι} (hj : j ≠ i) {q : Pc κ}
    (hwaits : WaitsAt j m q) : WaitsAt j m' q := by
  cases h with
  | act => exact fun c => (act_waits hj c).trans (hwaits c)
  | _ => exact hwaits

/-! ## The steps of the thread itself -/

omit [DecidableEq κ] [DecidableEq ι] in
theorem Taken.of_eq (h : Taken m)
    (hstate : ∀ c, (m'.inst c).releaseState = (m.inst c).releaseState)
    (hlocal : m'.localLock = m.localLock) (hwaits : m'.waits = m.waits) : Taken m' := by
  intro c
  rw [hstate, hlocal, hwaits]
  exact h c

omit [DecidableEq ι] in
/-- A thread stores a state while it has the local lock. -/
theorem Taken.setState (h : Taken m) {c : κ} (hlocal : m.localLock c ≠ none) (st : ReleaseState) :
    Taken (m.modify c (.setState st)) := by
  intro c' hstate
  by_cases heq : c' = c
  · subst heq
    exact .inl hlocal
  · refine h c' ?_
    simpa [Mem.modify, heq] using hstate

omit [DecidableEq ι] in
/-- A thread gives its local lock back. -/
theorem Taken.giveLocal (h : Taken m) {c : κ}
    (hkept : (m.inst c).releaseState = .stateLocal → (m.waits c).Nonempty) :
    Taken (m.setLocal c none) := by
  intro c' hstate
  by_cases heq : c' = c
  · subst heq
    exact .inr (hkept hstate)
  · simpa [Mem.setLocal, heq] using h c' hstate

theorem act_taken (htaken : Taken m) (hat : At i m pc)
    (hkept : ∀ c, pc = .unlockLocal c → (m.inst c).releaseState = .stateLocal →
      (m.waits c).Nonempty) : Taken (act i m pc).1 := by
  have mine : ∀ {c}, pc.holds = some c → m.localLock c ≠ none := by
    intro c h
    simp [(hat.holds c).mpr h]
  cases pc with
  | lockInc c =>
    intro c' hstate
    have hbefore : (m.inst c').releaseState = .stateLocal :=
      (modify_state (f := .incWaiting) c (fun _ => rfl) c').symm.trans hstate
    refine (htaken c' hbefore).imp_right fun hnonempty => ?_
    by_cases heq : c' = c
    · subst heq
      simp [act, Mem.setWaits]
    · simpa [act, Mem.setWaits, Mem.modify, heq] using hnonempty
  | lockLocal c =>
    simp only [act]
    split
    case isTrue h =>
      intro c' hstate
      by_cases heq : c' = c
      · subst heq
        exact .inl (by simp [Mem.setWaits, Mem.setLocal])
      · simpa [Mem.setWaits, Mem.setLocal, heq] using htaken c' hstate
    case isFalse => exact htaken
  | tryLocal c =>
    simp only [act]
    split
    case isTrue h =>
      intro c' hstate
      by_cases heq : c' = c
      · subst heq
        exact .inl (by simp [Mem.setLocal])
      · simpa [Mem.setLocal, heq] using htaken c' hstate
    case isFalse => exact htaken
  | lockDec c | tryInc c | tryDec c _ | count c | unlockReset c =>
    exact htaken.of_eq (modify_state c fun _ => rfl) rfl rfl
  | lockGlobal c | tryGlobal c =>
    simp only [act]
    split
    case isTrue => exact htaken.of_eq (fun _ => rfl) rfl rfl
    case isFalse => exact htaken
  | unlockGlobal c => exact htaken.of_eq (fun _ => rfl) rfl rfl
  | unlockKeep c | unlockState c => exact htaken.setState (mine rfl) _
  | tryUnlock c =>
    refine htaken.giveLocal fun hlocal => ?_
    rw [hat.knows.1] at hlocal
    cases hlocal
  | unlockLocal c => exact htaken.giveLocal (hkept c rfl)
  | _ => exact htaken

omit [DecidableEq κ] [DecidableEq ι] in
/-- The thread neither begins nor ends to wait. -/
theorem WaitsAt.go (hwaits : WaitsAt i m pc) (h : m'.waits = m.waits)
    (hbefore : ∀ c, pc ≠ .lockLocal c) (hafter : ∀ c, pc' ≠ .lockLocal c) : WaitsAt i m' pc' := by
  intro c
  rw [h]
  exact ⟨fun h => absurd ((hwaits c).mp h) (hbefore c), fun h => absurd h (hafter c)⟩

theorem act_waitsAt (hwaits : WaitsAt i m pc) : WaitsAt i (act i m pc).1 (act i m pc).2 := by
  cases pc with
  | lockInc c =>
    intro c'
    by_cases heq : c' = c
    · simp [act, Mem.setWaits, heq]
    · have hno := hwaits c'
      simp at hno
      simp [act, Mem.setWaits, Mem.modify, heq, hno, Ne.symm heq]
  | lockLocal c =>
    simp only [act]
    split
    case isTrue h =>
      intro c'
      by_cases heq : c' = c
      · simp [Mem.setWaits, heq]
      · have hno := hwaits c'
        simp [Ne.symm heq] at hno
        simp [Mem.setWaits, Mem.setLocal, heq, hno]
    case isFalse => exact hwaits
  | lockState | lockGlobal | tryDec | tryState | tryGlobal | unlockWaiting | unlockCount
  | tryLocal =>
    simp only [act]
    split <;> exact hwaits.go rfl (by simp) (by simp)
  | idle | inside => exact hwaits
  | _ => exact hwaits.go rfl (by simp) (by simp [act])

theorem KeepStep.own (h : KeepStep i m pc m' pc') (htaken : Taken m) (hat : At i m pc)
    (hwaits : WaitsAt i m pc) : Taken m' ∧ WaitsAt i m' pc' := by
  obtain ⟨hkept, hstep⟩ := h
  cases hstep with
  | act => exact ⟨act_taken htaken hat hkept, act_waitsAt hwaits⟩
  | _ => exact ⟨htaken, hwaits.go rfl (by simp) (by simp)⟩

theorem keep_invariant :
    Threads.Invariant KeepStep (fun _ _ _ => True) (fun m : Mem κ ι => Inv m ∧ Taken m)
      (fun i m pc => At i m pc ∧ WaitsAt i m pc) where
  own h _ hinv hat := by
    obtain ⟨hinv', hat'⟩ := h.2.own hinv.1 hat.1
    obtain ⟨htaken, hwaits⟩ := h.own hinv.2 hat.1 hat.2
    exact ⟨⟨hinv', htaken⟩, hat', hwaits⟩
  other h _ _ hat _ _ hj hq := ⟨(h.2.leaves hat.1).other hat.1 hj hq.1, h.2.waits hj hq.2⟩

end Steps

/-- The cohort whose local lock a thread has is the one of its call. -/
theorem Pc.cohort_of_holds {pc : Pc κ} {c : κ} (h : pc.holds = some c) : pc.cohort = some c := by
  cases pc with
  | tryDec c' trylockResult => cases trylockResult <;> simp_all [Pc.holds, Pc.cohort]
  | _ => simp_all [Pc.holds, Pc.cohort]

variable [DecidableEq κ] [DecidableEq ι] {passLimit : κ → Nat}
  {s : Threads.System (Mem κ ι) (Pc κ) ι}

/-- In the runs in which the local lock is given back while the global one is kept only if a thread
of the cohort waits for it in `ck_cohort_##N##_lock`, a cohort that no thread has locked and that no
call is about is in the state `CK_COHORT_STATE_GLOBAL`, and the global lock is not held on its
behalf. -/
theorem released
    (hr : Threads.System.Reachable KeepStep (fun _ _ _ => True) (start κ ι passLimit) s) {c : κ}
    (hout : ∀ i, (s.pc i).cohort ≠ some c) :
    (s.mem.inst c).releaseState = .stateGlobal ∧ s.mem.globalLock ≠ some c := by
  have hinv : Inv (start κ ι passLimit).mem ∧ Taken (start κ ι passLimit).mem := by
    refine ⟨fun c _ => .of_global rfl (by simp [start]), ?_⟩
    intro c hlocal
    cases hlocal
  have hat : ∀ i, At i (start κ ι passLimit).mem ((start κ ι passLimit).pc i) ∧
      WaitsAt i (start κ ι passLimit).mem ((start κ ι passLimit).pc i) := fun i =>
    ⟨⟨by simp [start, Pc.holds], trivial⟩, fun c => by simp [start]⟩
  obtain ⟨⟨hagree, htaken⟩, hall⟩ := keep_invariant.reachable hr (fun _ => trivial) hinv hat
  have hfree : s.mem.localLock c = none := by
    by_contra hsome
    obtain ⟨i, hi⟩ := Option.ne_none_iff_exists'.mp hsome
    exact hout i (Pc.cohort_of_holds (((hall i).2.1.holds c).mp hi))
  have hstate : (s.mem.inst c).releaseState = .stateGlobal := by
    by_contra hlocal
    rcases htaken c (ReleaseState.eq_local hlocal) with hheld | ⟨i, hi⟩
    · exact hheld hfree
    · have hpc := ((hall i).2.2 c).mp hi
      exact hout i (by simp [hpc, Pc.cohort])
  exact ⟨hstate, (hagree c hfree).not_held hstate⟩

theorem acts_kept {s₀ s : Threads.System (Mem κ ι) (Pc κ) ι}
    (hr : Threads.System.Reachable KeepStep (fun _ _ _ => True) s₀ s) (i : ι) (n : Nat)
    (hkept : ∀ k < n, ∀ c, (s.acts act i k).pc i = .unlockLocal c →
      ((s.acts act i k).mem.inst c).releaseState = .stateLocal →
        ((s.acts act i k).mem.waits c).Nonempty) :
    Threads.System.Reachable KeepStep (fun _ _ _ => True) s₀ (s.acts act i n) := by
  refine hr.acts i n (fun k hk m pc hm hpc => ?_) fun _ _ _ => trivial
  by_cases h : pc.Resting
  · exact .inl (act_resting i m h)
  · have hwaits := hkept k hk
    rw [hm, hpc] at hwaits
    exact .inr ⟨hwaits, .act h⟩

/-- A thread hands the global lock on to another one, which releases it. -/
theorem released_handedOn : ∃ s : Threads.System (Mem Unit Bool) (Pc Unit) Bool,
    Threads.System.Reachable KeepStep (fun _ _ _ => True) (start Unit Bool fun _ => 10) s ∧
      (s.mem.inst ()).releaseState = .stateGlobal ∧ s.mem.globalLock ≠ some () := by
  have h₀ : Threads.System.Reachable KeepStep (fun _ _ _ => True) (start Unit Bool fun _ => 10)
      (start Unit Bool fun _ => 10) := .refl
  have h₁ := h₀.call false ⟨by decide +kernel, .lock ()⟩ fun _ => trivial
  have h₂ := acts_kept h₁ false 6 (by decide +kernel)
  have h₃ := h₂.call true ⟨by decide +kernel, .lock ()⟩ fun _ => trivial
  have h₄ := acts_kept h₃ true 1 (by decide +kernel)
  have h₅ := h₄.call false ⟨by decide +kernel, .unlock ()⟩ fun _ => trivial
  have h₆ := acts_kept h₅ false 4 (by decide +kernel)
  have h₇ := acts_kept h₆ true 4 (by decide +kernel)
  have h₈ := h₇.call true ⟨by decide +kernel, .unlock ()⟩ fun _ => trivial
  have h₉ := acts_kept h₈ true 5 (by decide +kernel)
  exact ⟨_, h₉, released h₉ (c := ()) (by decide +kernel)⟩

/-- A thread keeps the global lock for another one whose attempt to lock the cohort has already
failed. Both leave, and the lock is held with nobody to release it. -/
theorem not_released : ∃ s : Threads.System (Mem Unit Bool) (Pc Unit) Bool,
    Threads.System.Reachable Step (fun _ _ _ => True) (start Unit Bool fun _ => 10) s ∧
      (∀ i, s.pc i = .idle) ∧ (s.mem.inst ()).releaseState = .stateLocal ∧
      s.mem.globalLock = some () := by
  have h₀ : Threads.System.Reachable Step (fun _ _ _ => True) (start Unit Bool fun _ => 10)
      (start Unit Bool fun _ => 10) := .refl
  have h₁ := h₀.call false (.lock ()) fun _ => trivial
  have h₂ := acts_reachable h₁ false 6 fun _ _ _ => trivial
  -- the attempt fails, and the thread is still counted
  have h₃ := h₂.call true (.trylock ()) fun _ => trivial
  have h₄ := acts_reachable h₃ true 2 fun _ _ _ => trivial
  have h₅ := h₄.call false (.unlock ()) fun _ => trivial
  have h₆ := acts_reachable h₅ false 4 fun _ _ _ => trivial
  have h₇ := acts_reachable h₆ true 1 fun _ _ _ => trivial
  exact ⟨_, h₇, by decide +kernel, by decide +kernel, by decide +kernel⟩

end ConcurrencyKit.Cohort
