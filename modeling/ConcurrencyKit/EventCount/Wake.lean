import ConcurrencyKit.EventCount.Model

/-!
# Sleeping threads and wake-up calls

In multi-producer mode a thread that sleeps on its flagged word is not forgotten: as long as the
counter is that word the next producer finds the flag, and when the counter becomes another word
it is by a producer that has found the flag, or that is on its way to its wake-up call and clears
it. Several producers may be on their way at once. Each makes a call of its own, and a call wakes
everybody, so one that has yet to come is enough.
-/

namespace ConcurrencyKit.EventCount

variable {f : Format} {ι : Type}

/-- A thread's flagged word has the flag. -/
theorem Call.flagged_flagged (c : Call f) : f.Flagged c.flagged := by
  have habsorb : (f.word c.old ||| f.flag) &&& f.flag = f.flag := by
    ext k hk
    simp only [BitVec.getElem_and, BitVec.getElem_or]
    cases f.flag[k] <;> simp
  rw [Format.Flagged, Call.flagged, Format.flaggedWord, habsorb]
  exact f.flag_ne_zero

/-- The call of a thread that has found its old value. -/
def Pc.begun : Pc f → Option (Call f)
  | .deadline c | .spin c _ | .cas c | .spinFlagged c _ | .backoff c | .reread c | .sleepCall c
  | .sleeping c | .recheck c | .again c => some c
  | _ => none

/-- The thread neither sleeps nor owes a wake-up call, nor is it between a load and a store. -/
def Pc.Awake : Pc f → Prop
  | .store _ _ | .wakeAnd _ | .wakeCall _ | .sleeping _ => False
  | _ => True

theorem Pc.Awake.not_waking {pc : Pc f} (h : pc.Awake) : ¬ pc.Waking := by
  cases pc <;> simp_all [Pc.Awake, Pc.Waking]

theorem Pc.Awake.ne_sleeping {pc : Pc f} (h : pc.Awake) (c : Call f) : pc ≠ .sleeping c := by
  intro heq
  subst heq
  exact h.elim

theorem Pc.Awake.ne_store {pc : Pc f} (h : pc.Awake) (op : Op f) (old : BitVec f.bits) :
    pc ≠ .store op old := by
  intro heq
  subst heq
  exact h.elim

theorem Pc.Resting.awake {pc : Pc f} (h : pc.Resting) : pc.Awake := by
  cases pc <;> simp_all [Pc.Resting, Pc.Awake]

theorem Pc.awake_of_timed {pc : Pc f} {c : Call f} (h : pc.timed = some c) : pc.Awake := by
  cases pc <;> simp_all [Pc.timed, Pc.Awake]

/-- What is true of a thread in multi-producer mode. -/
structure SleepAt (i : ι) (m : Mem f ι) (pc : Pc f) : Prop where
  waking : m.waking i = true ↔ pc.Waking
  awake : (∀ c, pc ≠ .sleeping c) → m.asleep i = false
  owed : ∀ c, pc = .sleeping c → m.asleep i = true →
    m.counter = c.flagged ∨ ∃ j, m.waking j = true
  inRange : ∀ c ∈ pc.begun, c.old.toNat < f.modulus
  noStore : ∀ op old, pc ≠ .store op old

section Steps

variable [DecidableEq ι] {i : ι} {m m' : Mem f ι} {pc pc' : Pc f}

/-- What a step leaves to the other threads. -/
structure Leaves (i : ι) (m m' : Mem f ι) : Prop where
  waking : ∀ j, j ≠ i → m'.waking j = m.waking j
  asleep : ∀ j, j ≠ i → m'.asleep j = true → m.asleep j = true
  owed : ∀ j, j ≠ i → m'.asleep j = true → ∀ w, f.Flagged w →
    m.counter = w ∨ (∃ k, m.waking k = true) → m'.counter = w ∨ ∃ k, m'.waking k = true

omit [DecidableEq ι] in
/-- A step that writes neither to the counter nor to `waking`. -/
theorem Leaves.of_eq (hcounter : m'.counter = m.counter) (hwaking : m'.waking = m.waking)
    (hasleep : ∀ j, j ≠ i → m'.asleep j = m.asleep j) : Leaves i m m' where
  waking _ _ := by rw [hwaking]
  asleep j hj h := by rw [← hasleep j hj, h]
  owed _ _ _ _ _ h := by rw [hcounter, hwaking]; exact h

theorem update_leaves {op : Op f} (hi : m.waking i = false) :
    Leaves i m (m.update i op m.counter) where
  waking j hj := Function.update_of_ne hj _ _
  asleep _ _ h := h
  owed j hj _ w hw h := by
    right
    rcases h with rfl | ⟨k, hk⟩
    · -- this producer has found the flag itself
      refine ⟨i, ?_⟩
      change Function.update m.waking i (op.wakes m.counter) i = true
      rw [Function.update_self]
      cases op with
      | inc => exact f.incWakes_of_flagged _ hw
      | add d => exact f.addWakes_of_flagged _ hw
    · refine ⟨k, ?_⟩
      have hne : k ≠ i := by
        intro heq
        rw [heq, hi] at hk
        cases hk
      exact (Function.update_of_ne hne _ _).trans hk

theorem act_leaves (hat : SleepAt i m pc) : Leaves i m (act none i m pc).1 := by
  have same : Leaves i m m := .of_eq rfl rfl fun _ _ => rfl
  cases pc with
  | fetch op =>
    apply update_leaves
    by_contra h
    exact hat.waking.mp (Bool.eq_true_of_not_eq_false h)
  | store op old => exact absurd rfl (hat.noStore op old)
  | wakeAnd ret =>
    exact ⟨fun _ _ => rfl, fun _ _ h => h, fun _ _ _ _ _ _ =>
      .inr ⟨i, hat.waking.mpr trivial⟩⟩
  | wakeCall ret =>
    refine ⟨fun j hj => Function.update_of_ne hj _ _, ?_, ?_⟩
    · intro j _ h
      cases h
    · intro j _ h
      cases h
  | cas c =>
    simp only [act]
    split
    case isTrue hunflagged =>
      refine ⟨fun _ _ => rfl, fun _ _ h => h, fun _ _ _ w hw h => h.imp_left fun heq => ?_⟩
      -- nobody sleeps on a word without the flag
      rw [← heq, hunflagged] at hw
      exact absurd (f.word_unflagged c.old (hat.inRange c rfl)) hw
    case isFalse => exact same
  | sleepCall c =>
    simp only [act]
    split
    case isTrue => exact .of_eq rfl rfl fun j hj => Function.update_of_ne hj _ _
    case isFalse => exact same
  | _ => exact same

theorem Step.leaves (h : Step none i m pc m' pc') (hat : SleepAt i m pc) : Leaves i m m' := by
  cases h with
  | produce => exact .of_eq rfl rfl fun _ _ => rfl
  | wait => exact .of_eq rfl rfl fun _ _ => rfl
  | act => exact act_leaves hat
  | timeout => exact .of_eq rfl rfl fun _ _ => rfl
  | wakeUp => exact .of_eq rfl rfl fun j hj => Function.update_of_ne hj _ _

omit [DecidableEq ι] in
/-- A step of another thread. -/
theorem Leaves.other (h : Leaves i m m') {j : ι} (hj : j ≠ i) {q : Pc f} (hq : SleepAt j m q) :
    SleepAt j m' q := by
  refine ⟨by rw [h.waking j hj]; exact hq.waking, ?_, ?_, hq.inRange, hq.noStore⟩
  · intro hawake
    by_contra hasleep
    have := h.asleep j hj (Bool.eq_true_of_not_eq_false hasleep)
    rw [hq.awake hawake] at this
    cases this
  · intro c heq hasleep
    exact h.owed j hj hasleep _ c.flagged_flagged (hq.owed c heq (h.asleep j hj hasleep))

omit [DecidableEq ι] in
/-- The thread goes on awake. -/
theorem SleepAt.go (hat : SleepAt i m pc) (hpc : pc.Awake) (hwaking : m'.waking = m.waking)
    (hasleep : m'.asleep = m.asleep) (hpc' : pc'.Awake)
    (hbegun : ∀ c ∈ pc'.begun, c.old.toNat < f.modulus) : SleepAt i m' pc' := by
  refine ⟨?_, ?_, fun c heq => absurd heq (hpc'.ne_sleeping c), hbegun, hpc'.ne_store⟩
  · rw [hwaking]
    exact ⟨fun h => absurd (hat.waking.mp h) hpc.not_waking, fun h => absurd h hpc'.not_waking⟩
  · intro _
    rw [hasleep]
    exact hat.awake hpc.ne_sleeping

theorem act_sleepAt (hat : SleepAt i m pc) :
    SleepAt i (act none i m pc).1 (act none i m pc).2 := by
  cases pc with
  | fetch op =>
    refine ⟨?_, ?_, ?_, ?_, ?_⟩
    · change Function.update m.waking i (op.wakes m.counter) i = true ↔
        (afterUpdate op m.counter).Waking
      rw [Function.update_self, afterUpdate]
      split
      case isTrue h => exact ⟨fun _ => trivial, fun _ => h⟩
      case isFalse h => exact ⟨fun h' => absurd h' h, fun h' => h'.elim⟩
    · intro _
      exact hat.awake (by simp)
    all_goals
      simp only [act, afterUpdate]
      split <;> simp [Pc.begun]
  | store op old => exact absurd rfl (hat.noStore op old)
  | wakeAnd ret =>
    refine ⟨hat.waking, fun _ => hat.awake (by simp), ?_, ?_, ?_⟩
    all_goals simp [act, Pc.begun]
  | wakeCall ret =>
    refine ⟨?_, fun _ => rfl, ?_, ?_, ?_⟩
    · change Function.update m.waking i false i = true ↔ False
      simp
    all_goals simp [act, Pc.begun]
  | waitValue c =>
    simp only [act]
    split
    case isTrue => exact hat.go trivial rfl rfl trivial (by simp [Pc.begun])
    case isFalse h =>
      refine hat.go trivial rfl rfl trivial ?_
      intro c' hc'
      cases hc'
      rw [← not_not.mp h]
      exact f.value_lt _
  | deadline c | backoff c | reread c | recheck c | again c =>
    have hrange := hat.inRange c rfl
    simp only [act]
    repeat' split
    all_goals exact hat.go trivial rfl rfl trivial (by simp [Pc.begun, hrange])
  | spin c n | spinFlagged c n =>
    have hrange := hat.inRange c rfl
    simp only [act, upgrade]
    repeat' split
    all_goals exact hat.go trivial rfl rfl trivial (by simp [Pc.begun, hrange])
  | cas c =>
    have hrange := hat.inRange c rfl
    simp only [act]
    repeat' split
    all_goals exact hat.go trivial rfl rfl trivial (by simp [Pc.begun, hrange])
  | sleepCall c =>
    have hrange := hat.inRange c rfl
    simp only [act]
    split
    case isTrue hflagged =>
      -- the thread falls asleep only on its flagged word
      refine ⟨hat.waking, fun h => absurd rfl (h c), ?_, ?_, by simp⟩
      · intro c' heq _
        cases heq
        exact .inl hflagged
      · simp [Pc.begun, hrange]
    case isFalse =>
      exact hat.go trivial rfl rfl trivial (by simp [Pc.begun, hrange])
  | _ => exact hat

theorem Step.sleepAt (h : Step none i m pc m' pc') (hat : SleepAt i m pc) : SleepAt i m' pc' := by
  cases h with
  | produce op allowed h =>
    exact hat.go h.awake rfl rfl trivial (by simp [Pc.begun])
  | wait c h =>
    exact hat.go h.awake rfl rfl trivial (by simp [Pc.begun])
  | act => exact act_sleepAt hat
  | timeout h =>
    exact hat.go (Pc.awake_of_timed h) rfl rfl trivial (by simp [Pc.begun])
  | wakeUp =>
    refine ⟨hat.waking, fun _ => Function.update_self .., ?_, ?_, by simp⟩
    · intro c' heq
      cases heq
    · exact hat.inRange

theorem sleep_invariant :
    Threads.Invariant (Step none) (fun _ _ _ => True) (fun _ : Mem f ι => True) SleepAt where
  own h _ _ hat := ⟨trivial, h.sleepAt hat⟩
  other h _ _ hat _ _ hj hq := (h.leaves hat).other hj hq

end Steps

variable [DecidableEq ι]

/-- In multi-producer mode, while a thread sleeps on its flagged word, the counter is that word or
some producer is between its update and its wake-up call. -/
theorem asleep_waking {v : BitVec f.bits} {s : Threads.System (Mem f ι) (Pc f) ι}
    (hr : Threads.System.Reachable (Step none) (fun _ _ _ => True) (start f ι v) s) {i : ι}
    (h : s.mem.asleep i = true) :
    ∃ c, s.pc i = .sleeping c ∧ (s.mem.counter = c.flagged ∨ ∃ j, (s.pc j).Waking) := by
  have hat : ∀ j, SleepAt j (start f ι v).mem ((start f ι v).pc j) := fun j =>
    ⟨by simp [start, init, Pc.Waking], fun _ => rfl, by simp [start], by simp [start, Pc.begun],
      by simp [start]⟩
  have hall := fun j => ((sleep_invariant.reachable hr (fun _ => trivial) trivial hat).2 j).2
  have hsleeping : ∃ c, s.pc i = .sleeping c := by
    by_contra hno
    push Not at hno
    rw [(hall i).awake hno] at h
    cases h
  obtain ⟨c, hc⟩ := hsleeping
  refine ⟨c, hc, ((hall i).owed c hc h).imp_right ?_⟩
  rintro ⟨j, hj⟩
  exact ⟨j, (hall j).waking.mp hj⟩

/-- A producer has increased the counter that a thread sleeps on, and has yet to wake it. -/
theorem asleep_waking_inc :
    ∃ s : Threads.System (Mem ec32 Bool) (Pc ec32) Bool, s.mem.counter.toNat = 2 ^ 31 + 1 ∧
      ∃ c, s.pc false = .sleeping c ∧ (s.mem.counter = c.flagged ∨ ∃ j, (s.pc j).Waking) := by
  have h₀ : Threads.System.Reachable (Step none) (fun _ _ _ => True) (start ec32 Bool 0#32)
      (start ec32 Bool 0#32) := .refl
  have h₁ := h₀.extend false (.wait ⟨0#32, 1⟩ trivial) fun _ => trivial
  have h₂ := acts_reachable h₁ false 9 fun _ _ _ => trivial
  have h₃ := h₂.extend true (.produce .inc (fun _ h => by cases h) (by decide +kernel))
    fun _ => trivial
  have h₄ := acts_reachable h₃ true 1 fun _ _ _ => trivial
  exact ⟨_, by decide +kernel, asleep_waking (i := false) h₄ (by decide +kernel)⟩

end ConcurrencyKit.EventCount
