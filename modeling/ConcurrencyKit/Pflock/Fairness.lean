import ConcurrencyKit.Pflock.Invariant

/-!
# Exclusion and phase fairness in `ck_pflock`

Write sections are numbered by the tickets of their writers, and each goes through the same phases
(`stage`). A reader that waits for the bits of an announced writer waits at one stage: the bits are
gone at the next one. The writer after that is not let in before the reader has left.
-/

namespace ConcurrencyKit.Pflock

open Visits (Visit)

variable {ι : Type} {i j : ι} {m m' : Mem ι} {pc pc' : Pc ι}
variable {t u : Visit ι (Option Nat)} {a b : Visit ι Unit}

/-- How far the writers have got. -/
def stage (m : Mem ι) : Nat :=
  3 * m.writers.left +
    match m.phase with
    | .quiet => 0
    | .announced _ => 1
    | .cleared => 2

/-- A reader waits at one stage. -/
theorem Inv.waits_stage (hinv : Inv m) (ht : t ∈ m.readers.present) {writer : Nat}
    (hnote : t.note = some writer) :
    (m.rin &&& wbits = phaseBits writer → stage m = 3 * writer + 1) ∧
      (m.rin &&& wbits ≠ phaseBits writer → 3 * writer + 1 < stage m) := by
  have hfollows := hinv.follows t ht writer hnote
  refine ⟨fun h => ?_, fun h => ?_⟩
  · obtain ⟨n, hn, -, hleft⟩ := (hinv.waits_iff ht hnote).mp h
    simp only [stage, hn, hleft]
  · unfold Follows at hfollows
    cases hphase : m.phase with
    | quiet | cleared =>
      simp only [hphase] at hfollows
      simp only [stage, hphase, hfollows]
      omega
    | announced n =>
      have hlt := hinv.ahead_of_ne ht hnote h n hphase
      simp only [hphase, if_pos hlt] at hfollows
      simp only [stage, hphase, hfollows]
      omega

variable [DecidableEq ι]

theorem stage_mono (h : Step i m pc m' pc') (hat : At i m pc) : stage m ≤ stage m' := by
  cases h with
  | writeLock | writeUnlock | readLock | readUnlock => exact le_refl _
  | act =>
    cases pc with
    | idle | reading | writing | writeWin | writeWout | readRin | readWait | unlockRout =>
      exact le_refl _
    | writeRin a ticket =>
      obtain ⟨-, -, -, hphase⟩ := hat
      simp [act, stage, Mem.announce, hphase]
    | writeRout a ticket =>
      simp only [act]
      split <;> exact le_refl _
    | unlockRin a =>
      obtain ⟨-, halone, -⟩ := hat
      obtain ⟨n, hn, -⟩ := halone.empty
      simp [act, stage, Mem.clear, hn]
    | unlockWout a =>
      obtain ⟨-, -, hphase⟩ := hat
      simp only [act, stage, Mem.faaWout, Visits.leave, hphase]
      omega

omit [DecidableEq ι] in
theorem inv_start : Inv (start ι).mem where
  rin := rfl
  rout := rfl
  win := rfl
  wout := rfl
  readers := .empty ι (Option Nat)
  writers := .empty ι Unit
  inOrder := by simp [start, Visits.empty, Visits.InOrder]
  fence := by simp [start]
  follows := by simp [start, Visits.empty]
  busy := by simp [start]
  quiet _ := ⟨rfl, rfl⟩
  cleared := by simp [start]
  finished := le_refl _
  entered := ⟨le_refl _, Nat.le_succ _⟩

omit [DecidableEq ι] in
theorem few_start (i : ι) : Few i (start ι).mem ((start ι).pc i) := by
  simp [Few, start, Visits.empty]

omit [DecidableEq ι] in
theorem At.writer (h : At i m pc) (ha : pc.writeTicket = some a) : Holds i m.writers a := by
  cases pc <;> simp only [Pc.writeTicket, Option.some.injEq, reduceCtorEq] at ha
  all_goals subst ha; exact h.1

/-- A writer is in its section alone; the writers enter in the order of their tickets; and for a
reader that is waiting there is at most one more write section before the bits that it waits for
are gone, and once they are gone they do not come back. -/
theorem phase_fair {s s' : Threads.System (Mem ι) (Pc ι) ι}
    (hr : Threads.System.Reachable Step Few (start ι) s)
    (hr' : Threads.System.Reachable Step Few s s') :
    (∀ i j a, i ≠ j → s.pc i = .writing a →
      (∀ b, s.pc j ≠ .writing b) ∧ ∀ t, s.pc j ≠ .reading t) ∧
    (∀ i j a b, i ≠ j → s.pc i = .writing a → (s.pc j).writeTicket = some b →
      a.number < b.number) ∧
    ∀ i t w, s.pc i = .readWait t w → s'.pc i = .readWait t w →
      (s.mem.rin &&& wbits ≠ w → s'.mem.rin &&& wbits ≠ w) ∧
        (s'.mem.rin &&& wbits = w → s'.mem.entered ≤ s.mem.entered + 1 ∧
          s'.mem.finished ≤ s.mem.finished + 1) := by
  obtain ⟨hinv, hall⟩ := invariant.reachable hr few_start inv_start fun _ => trivial
  obtain ⟨hinv', hall'⟩ := invariant.reachable (hr.trans hr') few_start inv_start fun _ => trivial
  have hat := fun i => (hall i).2
  have hmono : stage s.mem ≤ stage s'.mem :=
    invariant.monotone (R := fun m m' => stage m ≤ stage m') (fun m => le_refl (stage m)) le_trans
      (fun h _ _ hat => stage_mono h hat) hr hr' few_start inv_start fun _ => trivial
  have ordered : ∀ i j a b, i ≠ j → s.pc i = .writing a → (s.pc j).writeTicket = some b →
      a.number < b.number := by
    intro i j a b hij hi hb
    have hi' : At i s.mem (.writing a) := hi ▸ hat i
    obtain ⟨hholds, halone, -⟩ := hi'
    have hother := (hat j).writer hb
    have hle := hinv.inOrder b hother.1
    have hne : b.number ≠ s.mem.writers.left :=
      fun heq => hij (hinv.one_turn hholds hother halone.turn heq).symm
    have hturn := halone.turn
    omega
  refine ⟨fun i j a hij hi => ⟨fun b hj => ?_, fun t hj => ?_⟩, ordered, fun i t w hi hi' => ?_⟩
  · have hlt := ordered i j a b hij hi (by rw [hj]; rfl)
    have hgt := ordered j i b a (Ne.symm hij) hj (by rw [hi]; rfl)
    exact Nat.lt_asymm hlt hgt
  · have hi' : At i s.mem (.writing a) := hi ▸ hat i
    have hj' : At j s.mem (.reading t) := hj ▸ hat j
    obtain ⟨n, hn, hempty⟩ := hi'.2.1.empty
    have hmem := Visits.mem_before.mpr ⟨hj'.1.1, hj'.2 n hn⟩
    simp [hempty] at hmem
  · have hwait : At i s.mem (.readWait t w) := hi ▸ hat i
    have hwait' : At i s'.mem (.readWait t w) := hi' ▸ (hall' i).2
    obtain ⟨hholds, writer, hnote, rfl⟩ := hwait
    have hstage := hinv.waits_stage hholds.1 hnote
    have hstage' := hinv'.waits_stage hwait'.1.1 hnote
    refine ⟨fun hgone hback => ?_, fun hstill => ?_⟩
    · have h₁ := hstage.2 hgone
      have h₂ := hstage'.1 hback
      omega
    · have hleft : s'.mem.writers.left = writer := by
        obtain ⟨n, -, -, hleft⟩ := (hinv'.waits_iff hwait'.1.1 hnote).mp hstill
        exact hleft
      have hle : writer ≤ s.mem.writers.left := by
        by_cases hold : s.mem.rin &&& wbits = phaseBits writer
        · obtain ⟨n, -, -, hleft⟩ := (hinv.waits_iff hholds.1 hnote).mp hold
          exact hleft.ge
        · have h₁ := hstage.2 hold
          have h₂ := hstage'.1 hstill
          omega
      have h₁ := hinv.finished
      have h₂ := hinv.entered
      have h₃ := hinv'.entered
      omega

/-- A run in which a thread makes `n` more accesses. -/
theorem acts_reachable {s₀ s : Threads.System (Mem ι) (Pc ι) ι}
    (hr : Threads.System.Reachable Step Few s₀ s) (i : ι) (n : Nat)
    (good : ∀ k < n + 1, ∀ j, Few j (s.acts act i k).mem ((s.acts act i k).pc j)) :
    Threads.System.Reachable Step Few s₀ (s.acts act i n) :=
  hr.acts i n (fun _ _ _ _ _ _ => .inr .act) good

/-- A run in which a writer leaves its section. -/
theorem leave_reachable {s : Threads.System (Mem ι) (Pc ι) ι} (hi : s.pc i = .writing a)
    (good : ∀ j, Few j s.mem.finish (Function.update s.pc i (.unlockRin a) j)) :
    Threads.System.Reachable Step Few s ⟨s.mem.finish, Function.update s.pc i (.unlockRin a)⟩ :=
  Threads.System.Reachable.extend .refl i (hi ▸ .writeUnlock a) good

/-- A reader has come while a writer is in its section. It waits while the writer leaves the section
and until it has taken back its announcement. -/
theorem phase_fair_passed : ∃ s s' : Threads.System (Mem Bool) (Pc Bool) Bool,
    s.pc true = .readWait ⟨true, 0, some 0⟩ 2 ∧ s'.pc true = .readWait ⟨true, 0, some 0⟩ 2 ∧
      s.mem.finished = 0 ∧ s'.mem.finished = 1 ∧ s'.mem.rin &&& wbits = 2 ∧
      (∀ i j a, i ≠ j → s.pc i = .writing a →
        (∀ b, s.pc j ≠ .writing b) ∧ ∀ t, s.pc j ≠ .reading t) ∧
      (∀ i j a b, i ≠ j → s.pc i = .writing a → (s.pc j).writeTicket = some b →
        a.number < b.number) ∧
      ∀ i t w, s.pc i = .readWait t w → s'.pc i = .readWait t w →
        (s.mem.rin &&& wbits ≠ w → s'.mem.rin &&& wbits ≠ w) ∧
          (s'.mem.rin &&& wbits = w → s'.mem.entered ≤ s.mem.entered + 1 ∧
            s'.mem.finished ≤ s.mem.finished + 1) := by
  have h₀ : Threads.System.Reachable Step Few (start Bool) (start Bool) := .refl
  have h₁ := h₀.call false .writeLock (by decide +kernel)
  have h₂ := acts_reachable h₁ false 4 (by decide +kernel)
  have h₃ := h₂.call true .readLock (by decide +kernel)
  have h₄ := acts_reachable h₃ true 1 (by decide +kernel)
  exact ⟨_, _, by decide +kernel, by decide +kernel, by decide +kernel, by decide +kernel,
    by decide +kernel, phase_fair h₄
      (leave_reachable (i := false) (a := ⟨false, 0, ()⟩) (by decide +kernel) (by decide +kernel))⟩

end ConcurrencyKit.Pflock
