import ConcurrencyKit.Misc.Linear
import ConcurrencyKit.Misc.Threads

/-!
# Loops around a compare-and-swap

Threads change a word by loops: they load it, compute from what they have found what is to be
there, and put it there by a compare-and-swap. Where that fails it has loaded the word again, and
the loop goes on. Other threads may change the same word in one access.

Each operation takes effect at once, with the compare-and-swap that succeeds (`Sound`). An attempt
fails only if an operation of another thread has taken effect since the word was loaded, so a call
has no more of them than there were such operations (`Sound.failed`).
-/

namespace ConcurrencyKit.Retry

open Linear (History Legal)
open Threads (System)

/-- What an operation leaves in the word, and what it returns, from what it finds there. -/
structure Update (V R : Type) where
  update : V → V
  result : V → R

/-- The word and what has been done to it. Of each thread it is known how many operations had
taken effect when its call began and when it loaded the word, and how many of its attempts have
failed. -/
structure Mem (ι V O R : Type) where
  word : V
  history : History ι (O × R)
  began : ι → Nat
  loaded : ι → Nat
  failed : ι → Nat

/-- Where a thread stands. -/
inductive Pc (V O R : Type) where
  | idle
  | load (op : O)
  | cas (op : O) (previous : V)
  | leave (op : O) (result : R)

variable {ι V O R : Type}

/-- An operation of a sequential history, with its result. -/
def Next (ops : O → Update V R) (v : V) (e : O × R) (v' : V) : Prop :=
  v' = (ops e.1).update v ∧ e.2 = (ops e.1).result v

/-- The operation of a thread that has taken effect and not yet returned. -/
def Pc.pending : Pc V O R → Option (O × R)
  | .leave op r => some (op, r)
  | _ => none

section Steps

variable [DecidableEq ι]

namespace Mem

/-- How many operations have taken effect. -/
def moment (m : Mem ι V O R) : Nat := m.history.events.length

/-- A call begins. -/
def call (i : ι) (m : Mem ι V O R) : Mem ι V O R :=
  { m with
    began := Function.update m.began i m.moment
    failed := Function.update m.failed i 0 }

/-- The word is loaded. -/
def load (i : ι) (m : Mem ι V O R) : Mem ι V O R :=
  { m with loaded := Function.update m.loaded i m.moment }

/-- A compare-and-swap has failed, and loaded the word. -/
def retry (i : ι) (m : Mem ι V O R) : Mem ι V O R :=
  { m.load i with failed := Function.update m.failed i (m.failed i + 1) }

/-- An operation takes effect. -/
def apply (ops : O → Update V R) (i : ι) (op : O) (m : Mem ι V O R) : Mem ι V O R :=
  { m with
    word := (ops op).update m.word
    history := m.history.effect i (op, (ops op).result m.word) }

/-- An operation returns. -/
def complete (i : ι) (op : O) (r : R) (m : Mem ι V O R) : Mem ι V O R :=
  { m with history := m.history.complete i (op, r) }

end Mem

variable [DecidableEq V]

/-- One access of thread `i`. -/
def act (ops : O → Update V R) (i : ι) (m : Mem ι V O R) :
    Pc V O R → Mem ι V O R × Pc V O R
  | .idle => (m, .idle)
  | .load op => (m.load i, .cas op m.word)
  | .cas op previous =>
    if m.word = previous then (m.apply ops i op, .leave op ((ops op).result previous))
    else (m.retry i, .cas op m.word)
  | .leave op r => (m.complete i op r, .idle)

/-- One step of thread `i`: it calls an operation, makes the next access of its loop, or changes
the word in one access. -/
inductive Step (ops : O → Update V R) (i : ι) :
    Mem ι V O R → Pc V O R → Mem ι V O R → Pc V O R → Prop
  | call {m : Mem ι V O R} (op : O) : Step ops i m .idle (m.call i) (.load op)
  | once {m : Mem ι V O R} (op : O) :
      Step ops i m .idle ((m.call i).apply ops i op) (.leave op ((ops op).result m.word))
  | act {m : Mem ι V O R} {pc : Pc V O R} :
      Step ops i m pc (act ops i m pc).1 (act ops i m pc).2

/-- The word has the value `v`, and no call has been made. -/
def start (v : V) : System (Mem ι V O R) (Pc V O R) ι where
  mem :=
    { word := v
      history := ⟨[], fun _ => []⟩
      began _ := 0
      loaded _ := 0
      failed _ := 0 }
  pc _ := .idle

/-- States that are reached by the threads of `ι`. -/
def Reachable (ops : O → Update V R) (v : V) (s : System (Mem ι V O R) (Pc V O R) ι) : Prop :=
  System.Reachable (Step ops) (fun _ _ _ => True) (start v) s

end Steps

/-! ## The invariant -/

variable {ops : O → Update V R} {v : V} {i j : ι} {m m' : Mem ι V O R} {pc pc' : Pc V O R}
  {op : O} {previous : V} {r : R}

/-- Each failed attempt of a thread belongs to an operation that has taken effect since its call
began, and was the last one to be seen. -/
structure Behind (i : ι) (m : Mem ι V O R) (previous : V) : Prop where
  failed : m.failed i + m.began i ≤ m.loaded i
  loaded : m.loaded i ≤ m.moment
  current : m.loaded i = m.moment → m.word = previous

/-- What is known about thread `i` from where it stands. -/
structure At [DecidableEq ι] (i : ι) (m : Mem ι V O R) (pc : Pc V O R) : Prop where
  consistent : m.history.Consistent i pc.pending
  begun : m.failed i + m.began i ≤ m.moment
  behind : ∀ op previous, pc = .cas op previous → Behind i m previous

/-- What a step of thread `i` does for the other ones. -/
structure Frame (i : ι) (m m' : Mem ι V O R) : Prop where
  began : ∀ j, j ≠ i → m'.began j = m.began j
  loaded : ∀ j, j ≠ i → m'.loaded j = m.loaded j
  failed : ∀ j, j ≠ i → m'.failed j = m.failed j
  moment : m.moment ≤ m'.moment
  word : m'.moment = m.moment → m'.word = m.word

theorem Frame.refl : Frame i m m where
  began _ _ := rfl
  loaded _ _ := rfl
  failed _ _ := rfl
  moment := le_rfl
  word _ := rfl

theorem Behind.frame (h : Behind j m previous) (hf : Frame i m m') (hj : j ≠ i) :
    Behind j m' previous where
  failed := by
    rw [hf.failed j hj, hf.began j hj, hf.loaded j hj]
    exact h.failed
  loaded := by
    rw [hf.loaded j hj]
    exact h.loaded.trans hf.moment
  current heq := by
    rw [hf.loaded j hj] at heq
    have hmoment : m'.moment = m.moment :=
      le_antisymm (heq ▸ h.loaded) hf.moment
    rw [hf.word hmoment]
    exact h.current (heq.trans hmoment)

section Steps

variable [DecidableEq ι]

theorem At.frame (h : At j m pc) (hf : Frame i m m') (hj : j ≠ i)
    (hconsistent : m'.history.Consistent j pc.pending) : At j m' pc where
  consistent := hconsistent
  begun := by
    rw [hf.failed j hj, hf.began j hj]
    exact h.begun.trans hf.moment
  behind op previous hpc := (h.behind op previous hpc).frame hf hj

omit [DecidableEq ι] in
theorem moment_apply : (m.apply ops i op).moment = m.moment + 1 := by
  simp [Mem.moment, Mem.apply, History.effect]

theorem frame_call : Frame i m (m.call i) where
  began _ hj := Function.update_of_ne hj _ _
  loaded _ _ := rfl
  failed _ hj := Function.update_of_ne hj _ _
  moment := le_rfl
  word _ := rfl

theorem frame_load : Frame i m (m.load i) where
  began _ _ := rfl
  loaded _ hj := Function.update_of_ne hj _ _
  failed _ _ := rfl
  moment := le_rfl
  word _ := rfl

theorem frame_retry : Frame i m (m.retry i) where
  began _ _ := rfl
  loaded _ hj := Function.update_of_ne hj _ _
  failed _ hj := Function.update_of_ne hj _ _
  moment := le_rfl
  word _ := rfl

omit [DecidableEq ι] in
theorem frame_apply : Frame i m (m.apply ops i op) where
  began _ _ := rfl
  loaded _ _ := rfl
  failed _ _ := rfl
  moment := by
    rw [moment_apply]
    exact Nat.le_succ _
  word h := by
    rw [moment_apply] at h
    exact absurd h (Nat.succ_ne_self _)

theorem frame_complete : Frame i m (m.complete i op r) where
  began _ _ := rfl
  loaded _ _ := rfl
  failed _ _ := rfl
  moment := le_rfl
  word _ := rfl

omit [DecidableEq ι] in
theorem Frame.trans {m'' : Mem ι V O R} (h : Frame i m m') (h' : Frame i m' m'') :
    Frame i m m'' where
  began j hj := (h'.began j hj).trans (h.began j hj)
  loaded j hj := (h'.loaded j hj).trans (h.loaded j hj)
  failed j hj := (h'.failed j hj).trans (h.failed j hj)
  moment := h.moment.trans h'.moment
  word heq := by
    have hmid : m'.moment = m.moment := le_antisymm (heq ▸ h'.moment) h.moment
    exact (h'.word (heq.trans hmid.symm)).trans (h.word hmid)

/-! ## What the steps do -/

/-- A call that begins has had no attempts. -/
theorem At.call (h : At i m .idle) : At i (m.call i) (.load op) where
  consistent := h.consistent
  begun := by simp [Mem.call, Mem.moment]
  behind _ _ hpc := by cases hpc

/-- The word has just been loaded. -/
theorem behind_load (h : m.failed i + m.began i ≤ m.moment) : Behind i (m.load i) m.word where
  failed := by simpa [Mem.load] using h
  loaded := by simp [Mem.load, Mem.moment]
  current _ := rfl

theorem At.load (h : At i m (.load op)) : At i (m.load i) (.cas op m.word) where
  consistent := h.consistent
  begun := h.begun
  behind op' previous hpc := by
    cases hpc
    exact behind_load h.begun

/-- Where an attempt fails, an operation has taken effect since the word was loaded. -/
theorem At.retry (h : At i m (.cas op previous)) (hne : m.word ≠ previous) :
    At i (m.retry i) (.cas op m.word) := by
  have hbehind := h.behind op previous rfl
  have hlt : m.loaded i < m.moment :=
    lt_of_le_of_ne hbehind.loaded fun heq => hne (hbehind.current heq)
  have hle : m.failed i + 1 + m.began i ≤ m.moment := by
    have hfailed := hbehind.failed
    omega
  refine ⟨h.consistent, ?_, fun op' previous' hpc => ?_⟩
  · simpa [Mem.retry, Mem.load, Mem.moment] using hle
  · cases hpc
    refine ⟨?_, ?_, fun _ => rfl⟩
    · simpa [Mem.retry, Mem.load, Mem.moment] using hle
    · simp [Mem.retry, Mem.load, Mem.moment]

/-- An operation takes effect between its call and its return. -/
theorem At.apply (h : At i m pc) (hpc : pc.pending = none) :
    At i (m.apply ops i op) (.leave op ((ops op).result m.word)) where
  consistent := by
    have hconsistent := h.consistent
    rw [hpc] at hconsistent
    exact hconsistent.effect
  begun := by
    rw [moment_apply]
    exact h.begun.trans (Nat.le_succ _)
  behind _ _ hpc := by cases hpc

theorem At.complete (h : At i m (.leave op r)) : At i (m.complete i op r) .idle where
  consistent := h.consistent.complete
  begun := h.begun
  behind _ _ hpc := by cases hpc

/-- The operations that have taken effect lead to the word. -/
def Inv (ops : O → Update V R) (v : V) (m : Mem ι V O R) : Prop :=
  Legal (Next ops) v (m.history.events.map Prod.snd) m.word

omit [DecidableEq ι] in
theorem Inv.apply (h : Inv ops v m) : Inv ops v (m.apply ops i op) := by
  rw [Inv, Mem.apply, History.effect, List.map_append]
  exact h.snoc _ ⟨rfl, rfl⟩

variable [DecidableEq V]

theorem act_own (hinv : Inv ops v m) (h : At i m pc) :
    Inv ops v (act ops i m pc).1 ∧ At i (act ops i m pc).1 (act ops i m pc).2 ∧
      Frame i m (act ops i m pc).1 := by
  cases pc with
  | idle => exact ⟨hinv, h, .refl⟩
  | load op => exact ⟨hinv, h.load, frame_load⟩
  | cas op previous =>
    by_cases heq : m.word = previous
    · subst heq
      rw [act, if_pos rfl]
      exact ⟨hinv.apply, h.apply rfl, frame_apply⟩
    · rw [act, if_neg heq]
      exact ⟨hinv, h.retry heq, frame_retry⟩
  | leave op r => exact ⟨hinv, h.complete, frame_complete⟩

theorem step_own (hstep : Step ops i m pc m' pc') (hinv : Inv ops v m) (h : At i m pc) :
    Inv ops v m' ∧ At i m' pc' ∧ Frame i m m' := by
  cases hstep with
  | call op => exact ⟨hinv, h.call, frame_call⟩
  | once op =>
    have hcall : At i (m.call i) (.load op) := h.call
    exact ⟨Inv.apply (m := m.call i) hinv, hcall.apply rfl, frame_call.trans frame_apply⟩
  | act => exact act_own hinv h

/-- The operations of the other threads are left alone. -/
theorem act_consistent {pending : Option (O × R)} (hj : j ≠ i)
    (h : m.history.Consistent j pending) : (act ops i m pc).1.history.Consistent j pending := by
  cases pc with
  | idle | load => exact h
  | cas op previous =>
    rw [act]
    split
    · exact h.other_effect hj
    · exact h
  | leave => exact h.other_complete hj

theorem step_consistent (hstep : Step ops i m pc m' pc') {pending : Option (O × R)} (hj : j ≠ i)
    (h : m.history.Consistent j pending) : m'.history.Consistent j pending := by
  cases hstep with
  | call => exact h
  | once => exact h.other_effect hj
  | act => exact act_consistent hj h

theorem invariant (ops : O → Update V R) (v : V) :
    Threads.Invariant (Step (ι := ι) ops) (fun _ _ _ => True) (Inv ops v) At where
  own hstep _ hinv h :=
    have hown := step_own hstep hinv h
    ⟨hown.1, hown.2.1⟩
  other hstep _ hinv h _ _ hj hother :=
    hother.frame (step_own hstep hinv h).2.2 hj (step_consistent hstep hj hother.consistent)

/-- What holds at every moment of a run. -/
structure Sound (ops : O → Update V R) (v : V) (s : System (Mem ι V O R) (Pc V O R) ι) :
    Prop where
  /-- The operations, in the order in which they have taken effect and with their results, are
  those of a word that is changed by one operation after the other. -/
  legal : Legal (Next ops) v (s.mem.history.events.map Prod.snd) s.mem.word
  /-- Each operation takes effect once, between its call and its return. -/
  consistent : ∀ i, s.mem.history.Consistent i (s.pc i).pending
  /-- A call has no more failed attempts than there were operations since it began. -/
  failed : ∀ i, s.mem.failed i + s.mem.began i ≤ s.mem.history.events.length

/-- Any interleaving of the loops is an interleaving of atomic operations. -/
theorem reachable_sound {s : System (Mem ι V O R) (Pc V O R) ι} (hr : Reachable ops v s) :
    Sound ops v s := by
  have hat : ∀ i, At i (start (ι := ι) (O := O) (R := R) v).mem .idle := fun i =>
    { consistent := rfl
      begun := le_rfl
      behind := fun _ _ hpc => by cases hpc }
  obtain ⟨hinv, hall⟩ := (invariant ops v).reachable hr (fun _ => trivial) .nil hat
  exact ⟨hinv, fun i => (hall i).2.consistent, fun i => (hall i).2.begun⟩

end Steps

end ConcurrencyKit.Retry
