import ConcurrencyKit.Misc.Turns
import ConcurrencyKit.Spinlock.Anderson
import ConcurrencyKit.Spinlock.Ticket

/-!
# The ticket locks serve every thread

In a fair run in which no thread keeps the lock for ever, every thread that calls
`ck_spinlock_ticket_lock` gets the lock, and so does every thread that has taken a ticket in
`ck_spinlock_anderson_lock`. Where the number of slots is not a power of two, a ticket of the array
lock is taken with a compare-and-swap, which may fail again and again.
-/

namespace ConcurrencyKit.Spinlock

open Threads (System)
open Visits (Visit)
open Fairness (Fair Run)
open Turns (Queueing)

/-! ## The lock in a single word -/

namespace Ticket

variable {ι : Type} {w : Nat} {i j : ι} {m m' : Mem ι} {pc pc' : Pc ι} {t u : Visit ι Unit}

namespace Pc

/-- The thread has the lock and is in no call. -/
def Holds (pc : Pc ι) : Prop := ∃ t, pc = inside t

/-- The thread is in no call and does not have the lock. -/
def Idle (pc : Pc ι) : Prop := pc = idle

/-- The thread has the lock. -/
def Served (pc : Pc ι) : Prop := pc.held ≠ none

/-- The thread is in `ck_spinlock_ticket_lock` or `ck_spinlock_ticket_lock_pb`. -/
def Locks : Pc ι → Prop
  | lockFaa | lockLoad _ _ | pbFaa _ | pbLoad _ _ _ | pbBackoff _ _ _ _ _ => True
  | _ => False

/-- How far the thread with the first ticket is from giving it back: where it stands, and how long
it backs off. -/
def stage : Pc ι → Nat ×ₗ Nat
  | pbBackoff _ _ request position backoff =>
    toLex (if request = position then 2 else 4, backoff)
  | pbLoad _ _ _ => toLex (3, 0)
  | lockLoad _ _ => toLex (2, 0)
  | inside _ => toLex (1, 0)
  | _ => toLex (0, 0)

end Pc

theorem not_holds (pc : Pc ι) (h : pc.Idle) : ¬ pc.Holds := by
  rintro ⟨t, rfl⟩
  cases h

variable [DecidableEq ι]

/-- Only the thread that releases the lock changes who is the first. -/
theorem step_left (h : Step w i m pc m' pc') :
    m'.tickets.left = m.tickets.left ∨
      m'.tickets.left = m.tickets.left + 1 ∧ ∃ t, pc = .unlockInc t := by
  cases h with
  | lock | lockPb | trylock | unlock => exact .inl rfl
  | act =>
    cases pc with
    | unlockInc t => exact .inr ⟨rfl, t, rfl⟩
    | pbBackoff c t request position backoff => cases backoff <;> exact .inl rfl
    | tryCas snapshot =>
      refine .inl ?_
      simp only [act]
      split <;> rfl
    | idle | inside | lockFaa | lockLoad | pbFaa | pbLoad | tryLoad => exact .inl rfl

/-- A thread keeps its ticket until it has the lock. -/
theorem step_stays (h : Step w i m pc m' pc') (ht : pc.ticket = some t) (hs : ¬ pc.Served) :
    pc'.ticket = some t := by
  cases h with
  | lock | lockPb | trylock => exact absurd ht.symm (Option.some_ne_none t)
  | unlock u => exact ht
  | act =>
    cases pc with
    | idle | lockFaa | pbFaa | tryLoad | tryCas => exact absurd ht.symm (Option.some_ne_none t)
    | inside u | unlockInc u => exact absurd (Option.some_ne_none u) hs
    | pbLoad c u request => exact ht
    | lockLoad u request =>
      simp only [act]
      split <;> exact ht
    | pbBackoff c u request position backoff =>
      cases backoff with
      | succ backoff => exact ht
      | zero =>
        simp only [act]
        split <;> exact ht

/-- The thread with the first ticket comes nearer to giving it back, or goes on to hold the lock. -/
theorem step_first (hinv : Inv w m) (hat : At w i m pc) (h : Step w i m pc m' pc')
    (ht : pc.ticket = some t) (hfirst : t.number = m.tickets.left)
    (hleft : m'.tickets.left = m.tickets.left) :
    pc'.ticket = some t ∧ (pc'.stage < pc.stage ∨ pc'.stage = pc.stage ∧ pc.Holds ∧ pc'.Holds) := by
  have hknows := hat.knows
  have hposition : position w m.value = t.number % 2 ^ w := by
    rw [hinv.value, position_word, hfirst]
  cases h with
  | lock | lockPb | trylock => exact absurd ht.symm (Option.some_ne_none t)
  | unlock u => exact ⟨ht, .inl (by simp [Pc.stage, Prod.Lex.toLex_lt_toLex])⟩
  | act =>
    cases pc with
    | idle | lockFaa | pbFaa | tryLoad | tryCas => exact absurd ht.symm (Option.some_ne_none t)
    | unlockInc u => exact absurd hleft (Nat.succ_ne_self _)
    | inside u => exact ⟨ht, .inr ⟨rfl, ⟨u, rfl⟩, u, rfl⟩⟩
    | lockLoad u request =>
      obtain rfl : u = t := Option.some.inj ht
      obtain rfl : request = position w m.value := hknows.trans hposition.symm
      simp [act, Pc.ticket, Pc.stage, Prod.Lex.toLex_lt_toLex]
    | pbLoad c u request =>
      obtain rfl : u = t := Option.some.inj ht
      obtain rfl : request = position w m.value := hknows.trans hposition.symm
      simp [act, Pc.ticket, Pc.stage, Prod.Lex.toLex_lt_toLex]
    | pbBackoff c u request position backoff =>
      cases backoff with
      | succ backoff => exact ⟨ht, .inl (by simp [act, Pc.stage, Prod.Lex.toLex_lt_toLex])⟩
      | zero =>
        obtain rfl : u = t := Option.some.inj ht
        by_cases heq : request = position
        · simp [act, Pc.ticket, Pc.stage, Prod.Lex.toLex_lt_toLex, heq]
        · simp [act, Pc.ticket, Pc.stage, Prod.Lex.toLex_lt_toLex, heq]

/-- What holds in every state of a run. -/
structure Good (w : Nat) (s : System (Mem ι) (Pc ι) ι) : Prop where
  inv : Inv w s.mem
  all : ∀ i, At w i s.mem (s.pc i)

theorem queueing (w : Nat) : Queueing (Step (ι := ι) w) Pc.Holds (Good w) Mem.tickets Pc.ticket
    Pc.Served Pc.stage where
  valid hs := hs.inv.valid
  inOrder hs := hs.inv.inOrder
  owns hs i := (hs.all i).owns
  left := by
    intro s i m p hs hstep
    rcases step_left hstep with hleft | ⟨hleft, t, ht⟩
    · exact .inl hleft
    · have hat := hs.all i
      rw [ht] at hat ⊢
      exact .inr ⟨hleft, Option.some_ne_none t, t, rfl, hat.knows⟩
  stays _ hstep := step_stays hstep
  first hs hstep := step_first hs.inv (hs.all _) hstep

/-- The first step of a call that locks takes a ticket. -/
theorem step_locks (h : Step w i m pc m' pc') (hl : pc.Locks) : ∃ t, pc'.ticket = some t := by
  cases h with
  | lock | lockPb | trylock | unlock => exact hl.elim
  | act =>
    cases pc with
    | lockFaa | pbFaa | lockLoad =>
      simp only [act]
      split <;> exact ⟨_, rfl⟩
    | pbLoad => exact ⟨_, rfl⟩
    | pbBackoff c u request position backoff =>
      cases backoff with
      | succ backoff => exact ⟨u, rfl⟩
      | zero =>
        simp only [act]
        split <;> exact ⟨u, rfl⟩
    | idle | inside | tryLoad | tryCas | unlockInc => exact hl.elim

/-- In a fair run in which every thread that has the lock releases it in the end, every thread that
calls `ck_spinlock_ticket_lock` or `ck_spinlock_ticket_lock_pb` gets the lock. -/
theorem ticket_served {r : Run (Step w) (Few w) (start ι)} (hf : Fair Pc.Idle Pc.Holds r) {n : Nat}
    (hl : ((r.state n).pc i).Locks) : ∃ m, n ≤ m ∧ ((r.state m).pc i).Served := by
  have hfew : ∀ i, Few w i (start ι).mem ((start ι).pc i) := by
    simp [Few, start, Visits.empty]
  have hgood : ∀ n, Good w (r.state n) := fun n => by
    obtain ⟨hinv, hall⟩ := (invariant w).reachable (r.reachable n) hfew inv_start fun _ => at_start
    exact ⟨hinv, fun i => (hall i).2⟩
  have hbusy : ∀ p : Pc ι, p.Locks → ¬ p.Idle ∧ ¬ p.Holds := by
    rintro p hp
    refine ⟨?_, ?_⟩
    · rintro rfl
      exact hp
    · rintro ⟨t, rfl⟩
      exact hp
  -- it takes a ticket, or has one
  obtain ⟨k, hk, -, hstep⟩ := hf.goes (hbusy _ hl).1 (hbusy _ hl).2
  obtain ⟨t, ht⟩ := step_locks hstep hl
  have hidle : ∀ (p : Pc ι) t, p.ticket = some t → ¬ p.Idle := by
    rintro p t hp rfl
    exact Option.some_ne_none t hp.symm
  obtain ⟨m, hm, -, hserved⟩ := (queueing w).served hidle hf hgood ht
  exact ⟨m, by omega, hserved⟩

/-- A thread has the lock, and another one waits for it. -/
def waiting : System (Mem Bool) (Pc Bool) Bool :=
  ((((start Bool).call true .lockFaa).acts (act 16) true 1).call false (.pbFaa 3)).acts (act 16)
    false 1

/-- The thread releases the lock, and so does the one that has waited for it. -/
theorem ticket_served_waiting : ∃ r : Run (Step 16) (Few 16) (start Bool),
    Fair Pc.Idle Pc.Holds r ∧ ∃ n, r.state n = waiting ∧
      ∃ m, n ≤ m ∧ ((r.state m).pc false).Served := by
  have h₀ : System.Reachable (Step 16) (Few 16) (start Bool) (start Bool) := .refl
  have h₁ := h₀.call true .lock (by decide +kernel)
  have h₂ := acts_reachable h₁ true 1 (by decide +kernel)
  have h₃ := h₂.call false (.lockPb 3) (by decide +kernel)
  have h₄ := acts_reachable h₃ false 1 (by decide +kernel)
  have h₅ : System.Reachable (Step 16) (Few 16) waiting waiting := .refl
  have h₆ := h₅.call true (.unlock ⟨true, 0, ()⟩) (by decide +kernel)
  have h₇ := acts_reachable h₆ true 1 (by decide +kernel)
  have h₈ := acts_reachable h₇ false 2 (by decide +kernel)
  have h₉ := h₈.call false (.unlock ⟨false, 1, ()⟩) (by decide +kernel)
  have h₁₀ := acts_reachable h₉ false 1 (by decide +kernel)
  obtain ⟨r, hf, n, hn⟩ := Fairness.fair_of_reachable Pc.Idle Pc.Holds not_holds h₄ h₁₀
    (by unfold Pc.Idle; decide +kernel)
  refine ⟨r, hf, n, hn, ticket_served hf ?_⟩
  rw [hn]
  exact trivial

end Ticket

/-! ## The array lock -/

namespace Anderson

variable {ι : Type} {count : Nat} {slots : Nat → Slot} {i j : ι} {m m' : Mem ι} {pc pc' : Pc ι}
  {t u : Visit ι Unit}

namespace Pc

/-- The thread has the lock and is in no call. -/
def Holds (pc : Pc ι) : Prop := ∃ t p, pc = inside t p

/-- The thread is in no call and does not have the lock. -/
def Idle (pc : Pc ι) : Prop := pc = idle

/-- The thread has the lock. -/
def Served (pc : Pc ι) : Prop := pc.held ≠ none

/-- How far the thread with the first ticket is from giving it back. -/
def stage : Pc ι → Nat
  | lockLoad _ _ => 3
  | lockStore _ _ => 2
  | inside _ _ => 1
  | _ => 0

end Pc

theorem not_holds (pc : Pc ι) (h : pc.Idle) : ¬ pc.Holds := by
  rintro ⟨t, p, rfl⟩
  cases h

/-- The slot of the first ticket is unlocked until its thread has locked it. -/
def Unlocked (m : Mem ι) : Pc ι → Prop
  | .lockLoad t _ => t.number = m.tickets.left → m.taken = false
  | _ => True

/-- A lock that is taken has been taken by a thread that has a ticket. -/
def Present (m : Mem ι) : Prop := m.taken = true → m.tickets.left < m.tickets.arrived

/-- What the others may do to a thread that waits at its slot. -/
theorem Unlocked.other (h : Unlocked m pc)
    (hfirst : ∀ t p, pc = .lockLoad t p → t.number = m'.tickets.left → m'.taken = true →
      t.number = m.tickets.left ∧ m.taken = true) : Unlocked m' pc := by
  cases pc with
  | lockLoad t p =>
    intro ht
    by_contra htaken
    rw [Bool.not_eq_false] at htaken
    obtain ⟨hleft, htrue⟩ := hfirst t p rfl ht htaken
    rw [h hleft] at htrue
    exact Bool.noConfusion htrue
  | idle | inside | lockNext | lockCas | lockStore | unlockStore => trivial

variable [DecidableEq ι]

theorem unlocked_own (hinv : Inv count m) (hat : At count i m pc) (hp : Present m)
    (hu : Unlocked m pc) : Present (act i m pc).1 ∧ Unlocked (act i m pc).1 (act i m pc).2 := by
  have hcard := hinv.valid.card
  -- a thread that takes the first ticket finds the lock free
  have htake : Present (m.take i) ∧
      ∀ p, Unlocked (m.take i) (.lockLoad (m.visit i) p) := by
    refine ⟨fun htaken => Nat.lt_succ_of_lt (hp htaken), fun p ht => ?_⟩
    have ht : m.tickets.arrived = m.tickets.left := ht
    by_contra htaken
    have hlt := hp (Bool.not_eq_false _ ▸ htaken)
    omega
  cases pc with
  | idle | inside => exact ⟨hp, hu⟩
  | lockNext =>
    simp only [act]
    split
    · exact ⟨hp, trivial⟩
    · exact ⟨htake.1, htake.2 _⟩
  | lockCas position =>
    simp only [act]
    split
    · exact ⟨htake.1, htake.2 _⟩
    · exact ⟨hp, trivial⟩
  | lockLoad t p =>
    simp only [act]
    split
    · exact ⟨hp, hu⟩
    · exact ⟨hp, trivial⟩
  | lockStore t p =>
    refine ⟨fun _ => ?_, trivial⟩
    have hlt := hinv.valid.lt t (hat.mem rfl).1
    rwa [hat.knows.2.1] at hlt
  | unlockStore t p => exact ⟨fun h => Bool.noConfusion h, trivial⟩

theorem unlocked_other (hinv : Inv count m) (hat : At count i m pc) (hj : j ≠ i)
    (hother : At count j m pc') (hu : Unlocked m pc') : Unlocked (act i m pc).1 pc' := by
  cases pc with
  | idle | inside | lockLoad => exact hu
  | lockNext =>
    simp only [act]
    split
    · exact hu
    · exact hu.other fun t p _ ht htaken => ⟨ht, htaken⟩
  | lockCas position =>
    simp only [act]
    split
    · exact hu.other fun t p _ ht htaken => ⟨ht, htaken⟩
    · exact hu
  | lockStore t p =>
    refine hu.other fun u q hpc hu' _ => ?_
    obtain ⟨hmem, howner⟩ := hat.mem rfl
    subst hpc
    obtain ⟨hmem', howner'⟩ := hother.mem rfl
    -- there is only one first ticket
    have heq := hinv.first_unique hmem hat.knows.2.1 hmem' hu'
    exact absurd (howner'.symm.trans (heq.symm.trans howner)) hj
  | unlockStore t p => exact hu.other fun u q _ _ htaken => Bool.noConfusion htaken

/-- What holds in every state of a run. -/
structure Good (count : Nat) (s : System (Mem ι) (Pc ι) ι) : Prop where
  inv : Inv count s.mem
  all : ∀ i, At count i s.mem (s.pc i)
  unlocked : ∀ i, Unlocked s.mem (s.pc i)

theorem unlocked_invariant (hpos : 1 ≤ count) (hlt : count < 2 ^ 32) :
    Threads.Invariant (Step (ι := ι)) Few (fun m => Inv count m ∧ Present m)
      (fun i m pc => At count i m pc ∧ Unlocked m pc) where
  own hstep hfew := by
    rintro ⟨hinv, hp⟩ ⟨hat, hu⟩
    obtain ⟨hinv', hat'⟩ := (invariant hpos hlt).own hstep hfew hinv hat
    cases hstep with
    | lock | unlock => exact ⟨⟨hinv', hp⟩, hat', trivial⟩
    | act =>
      obtain ⟨hp', hu'⟩ := unlocked_own hinv hat hp hu
      exact ⟨⟨hinv', hp'⟩, hat', hu'⟩
  other hstep hfew := by
    rintro ⟨hinv, hp⟩ ⟨hat, hu⟩ j q hj ⟨hother, hu'⟩
    refine ⟨(invariant hpos hlt).other hstep hfew hinv hat hj hother, ?_⟩
    cases hstep with
    | lock | unlock => exact hu'
    | act => exact unlocked_other hinv hat hj hother hu'

/-- Only the thread that releases the lock changes who is the first. -/
theorem step_left (h : Step i m pc m' pc') :
    m'.tickets.left = m.tickets.left ∨
      m'.tickets.left = m.tickets.left + 1 ∧ ∃ t p, pc = .unlockStore t p := by
  cases h with
  | lock | unlock => exact .inl rfl
  | act =>
    cases pc with
    | unlockStore t p => exact .inr ⟨rfl, t, p, rfl⟩
    | lockNext | lockCas =>
      refine .inl ?_
      simp only [act]
      split <;> rfl
    | idle | inside | lockLoad | lockStore => exact .inl rfl

/-- A thread keeps its ticket until it has the lock. -/
theorem step_stays (h : Step i m pc m' pc') (ht : pc.ticket = some t) (hs : ¬ pc.Served) :
    pc'.ticket = some t := by
  cases h with
  | lock => exact absurd ht.symm (Option.some_ne_none t)
  | unlock => exact ht
  | act =>
    cases pc with
    | idle | lockNext | lockCas => exact absurd ht.symm (Option.some_ne_none t)
    | inside u | unlockStore u => exact absurd (Option.some_ne_none u) hs
    | lockStore => exact ht
    | lockLoad u p =>
      simp only [act]
      split <;> exact ht

/-- The thread with the first ticket comes nearer to giving it back, or goes on to hold the lock. -/
theorem step_first (hpos : 1 ≤ count) (hinv : Inv count m) (hat : At count i m pc)
    (hu : Unlocked m pc) (h : Step i m pc m' pc') (ht : pc.ticket = some t)
    (hfirst : t.number = m.tickets.left) (hleft : m'.tickets.left = m.tickets.left) :
    pc'.ticket = some t ∧ (pc'.stage < pc.stage ∨ pc'.stage = pc.stage ∧ pc.Holds ∧ pc'.Holds) := by
  cases h with
  | lock => exact absurd ht.symm (Option.some_ne_none t)
  | unlock u p => exact ⟨ht, .inl Nat.one_pos⟩
  | act =>
    cases pc with
    | idle | lockNext | lockCas => exact absurd ht.symm (Option.some_ne_none t)
    | unlockStore u p => exact absurd hleft (Nat.succ_ne_self _)
    | inside u p => exact ⟨ht, .inr ⟨rfl, ⟨u, p, rfl⟩, u, p, rfl⟩⟩
    | lockStore u p => exact ⟨ht, .inl (by simp [act, Pc.stage])⟩
    | lockLoad u p =>
      obtain rfl : u = t := Option.some.inj ht
      have hslot : p = m.tickets.left % count := hfirst ▸ hat.knows
      have hunlocked : (m.lock.slots p).locked = false :=
        (hinv.unlocked p (hslot ▸ Nat.mod_lt _ hpos)).mpr ⟨hslot, hu hfirst⟩
      simp [act, hunlocked, Pc.ticket, Pc.stage]

theorem queueing (hpos : 1 ≤ count) : Queueing (Step (ι := ι)) Pc.Holds (Good count) Mem.tickets
    Pc.ticket Pc.Served Pc.stage where
  valid hs := hs.inv.valid
  inOrder hs := hs.inv.inOrder
  owns hs i := (hs.all i).owns
  left := by
    intro s i m p hs hstep
    rcases step_left hstep with hleft | ⟨hleft, t, q, ht⟩
    · exact .inl hleft
    · have hat := hs.all i
      rw [ht] at hat ⊢
      exact .inr ⟨hleft, Option.some_ne_none t, t, rfl, hat.knows.2.1⟩
  stays _ hstep := step_stays hstep
  first hs hstep := step_first hpos hs.inv (hs.all _) (hs.unlocked _) hstep

/-- Where the number of slots is a power of two, the first step of a call takes a ticket. -/
theorem step_lockNext (hinv : Inv count m) (hpow : count &&& (count - 1) = 0)
    (h : Step i m .lockNext m' pc') : ∃ t, pc'.ticket = some t := by
  have hwrap : m.lock.wrap = 0 := by
    rw [hinv.made.wrap_eq, init]
    simp [hpow]
  cases h with
  | act => exact ⟨m.visit i, by simp [act, hwrap, Pc.ticket]⟩

/-- In a fair run in which every thread that has the lock releases it in the end, every thread that
has taken a ticket gets the lock. Where the number of slots is a power of two, this is every thread
that calls `ck_spinlock_anderson_lock`. -/
theorem anderson_served (hpos : 1 ≤ count) (hlt : count < 2 ^ 32)
    {r : Run Step Few (start ι slots count)} (hf : Fair Pc.Idle Pc.Holds r) (n : Nat) (i : ι) :
    (∀ t, ((r.state n).pc i).ticket = some t → ∃ m, n ≤ m ∧ ((r.state m).pc i).held = some t) ∧
      (count &&& (count - 1) = 0 → (r.state n).pc i = .lockNext →
        ∃ m, n ≤ m ∧ ((r.state m).pc i).Served) := by
  have hfew : ∀ i, Few i (start ι slots count).mem ((start ι slots count).pc i) := by
    simp [Few, start, Visits.empty]
  have hpresent : Present (start ι slots count).mem := fun h => Bool.noConfusion h
  have hgood : ∀ n, Good count (r.state n) := fun n => by
    obtain ⟨⟨hinv, -⟩, hall⟩ := (unlocked_invariant hpos hlt).reachable (r.reachable n) hfew
      ⟨inv_start, hpresent⟩ fun _ => ⟨at_start, trivial⟩
    exact ⟨hinv, fun i => (hall i).2.1, fun i => (hall i).2.2⟩
  have hidle : ∀ (p : Pc ι) t, p.ticket = some t → ¬ p.Idle := by
    rintro p t hp rfl
    exact Option.some_ne_none t hp.symm
  refine ⟨fun t ht => ?_, fun hpow hpc => ?_⟩
  · obtain ⟨m, hm, hticket, hserved⟩ := (queueing hpos).served hidle hf hgood ht
    obtain ⟨u, hu⟩ := Option.ne_none_iff_exists'.mp hserved
    have htu := (Pc.ticket_of_held hu).symm.trans hticket
    exact ⟨m, hm, hu.trans htu⟩
  · have hbusy : ¬ ((r.state n).pc i).Idle ∧ ¬ ((r.state n).pc i).Holds := by
      rw [hpc]
      refine ⟨fun h => (by cases h), ?_⟩
      rintro ⟨t, p, h⟩
      cases h
    obtain ⟨k, hk, -, hstep⟩ := hf.goes hbusy.1 hbusy.2
    rw [hpc] at hstep
    obtain ⟨t, ht⟩ := step_lockNext (hgood k).inv hpow hstep
    obtain ⟨m, hm, -, hserved⟩ := (queueing hpos).served hidle hf hgood ht
    exact ⟨m, by omega, hserved⟩

/-- A thread has the lock, and another one waits for it at the second one of three slots. -/
def waiting : System (Mem Bool) (Pc Bool) Bool :=
  ((((start Bool (fun _ => ⟨false, 0⟩) 3).call true .lockNext).acts act true 4).call false
    .lockNext).acts act false 3

/-- The thread releases the lock, and so does the one that has waited for it. -/
theorem anderson_served_waiting :
    ∃ r : Run Step Few (start Bool (fun _ => ⟨false, 0⟩) 3), Fair Pc.Idle Pc.Holds r ∧
      ∃ n, r.state n = waiting ∧
        ∃ m, n ≤ m ∧ ((r.state m).pc false).held = some ⟨false, 1, ()⟩ := by
  have h₀ : System.Reachable Step Few (start Bool (fun _ => ⟨false, 0⟩) 3)
      (start Bool (fun _ => ⟨false, 0⟩) 3) := .refl
  have h₁ := h₀.call true .lock (by decide +kernel)
  have h₂ := acts_reachable h₁ true 4 (by decide +kernel)
  have h₃ := h₂.call false .lock (by decide +kernel)
  have h₄ := acts_reachable h₃ false 3 (by decide +kernel)
  have h₅ : System.Reachable Step Few waiting waiting := .refl
  have h₆ := h₅.call true (.unlock ⟨true, 0, ()⟩ 0) (by decide +kernel)
  have h₇ := acts_reachable h₆ true 1 (by decide +kernel)
  have h₈ := acts_reachable h₇ false 2 (by decide +kernel)
  have h₉ := h₈.call false (.unlock ⟨false, 1, ()⟩ 1) (by decide +kernel)
  have h₁₀ := acts_reachable h₉ false 1 (by decide +kernel)
  obtain ⟨r, hf, n, hn⟩ := Fairness.fair_of_reachable Pc.Idle Pc.Holds not_holds h₄ h₁₀
    (by unfold Pc.Idle; decide +kernel)
  have hlt : 3 < 2 ^ 32 := by decide
  refine ⟨r, hf, n, hn, (anderson_served (by decide) hlt hf n false).1 _ ?_⟩
  rw [hn]
  rfl

end Anderson

end ConcurrencyKit.Spinlock
