import ConcurrencyKit.EventCount.Backoff

/-!
# How often a thread sleeps

As long as nobody wakes it, a thread in `exponential_backoff` (`ck_ec.c:129-195`) sleeps until the
deadline that it has asked for, and then reads the clock. Each deadline is later than the one
before, and from the first one that is a second after the first reading the next is that of the
caller. So there are not many rounds, whatever the clock reads, and each of them finds its deadline.
-/

namespace ConcurrencyKit.EventCount

open Timespec

/-- The rounds of a call that nobody has woken: how often it has slept, and until when. Every
reading of the clock was a normal time before the deadline of the caller. -/
inductive Slept (ops : Ops) (deadline : Timespec) : Nat → Option Timespec → Option Backoff → Prop
  | start : Slept ops deadline 0 none none
  | round {n fuel : Nat} {now partialDeadline : Timespec}
      {asleep : Option Timespec} {b : Option Backoff} {c c' : Backoff}
      (h : Slept ops deadline n asleep b) (normal : now.Normal)
      (woken : ∀ p ∈ asleep, timespecCmp p now ≤ 0) (before : timespecCmp now deadline < 0)
      (entered : Backoff.enter ops now b = some c)
      (next : c.next ops deadline now fuel = some (partialDeadline, c')) :
      Slept ops deadline (n + 1) (some partialDeadline) (some c')

variable {ops : Ops} {start now deadline : Timespec} {w : BitVec 32} {i j k n : Nat}

/-! ## The waits in order -/

/-- Waits that grow come to a second. -/
theorem Ops.waitAt_grows (hshift : ops.shiftCount < 32) (h : w < ops.scale w) (k : Nat) :
    (∃ i ≤ k, 10 ^ 9 ≤ (ops.waitAt w i).toNat) ∨
      k ≤ (ops.waitAt w k).toNat ∧ ops.waitAt w k < ops.scale (ops.waitAt w k) := by
  induction k with
  | zero => exact .inr ⟨Nat.zero_le _, h⟩
  | succ k ih =>
    rcases ih with ⟨i, hi, hlong⟩ | ⟨hle, hlt⟩
    · exact .inl ⟨i, by omega, hlong⟩
    · rw [waitAt_succ]
      have hlt' := BitVec.lt_def.mp hlt
      by_cases hlong : 10 ^ 9 ≤ (ops.scale (ops.waitAt w k)).toNat
      · refine .inl ⟨k + 1, le_rfl, ?_⟩
        rwa [waitAt_succ]
      · exact .inr ⟨by omega, Ops.scale_grows hshift hlt (by omega)⟩

theorem Ops.exists_second (hshift : ops.shiftCount < 32) (h : w < ops.scale w) :
    ∃ k ≤ 10 ^ 9, 10 ^ 9 ≤ (ops.waitAt w k).toNat := by
  rcases Ops.waitAt_grows hshift h (10 ^ 9) with hlong | ⟨hlong, -⟩
  · exact hlong
  · exact ⟨10 ^ 9, le_rfl, hlong⟩

/-! ## One round -/

/-- A time that comes after a wait of a second is the time at which the back-off stops. -/
theorem stop_nanos (hs : start.Normal) (hw : 10 ^ 9 ≤ w.toNat) {p stop : Timespec}
    (hp : timespecAddNs start w = some p) (hstop : timespecAdd start finalWaitTime = some stop) :
    p.Normal ∧ stop.Normal ∧ p.nanos = stop.nanos := by
  obtain ⟨p', hp', hpn, hpe⟩ := timespecAddNs_eq hs w
  obtain ⟨stop', hstop', hstopn, hstope⟩ := timespecAdd_eq hs finalWaitTime_normal
  cases hp.symm.trans hp'
  cases hstop.symm.trans hstop'
  have hsecond : finalWaitTime.nanos = (10 ^ 9 : Nat) := by decide
  exact ⟨hpn, hstopn, by rw [hpe, hstope, min_eq_right hw, hsecond]⟩

/-- A wait that is over is not one that is not. -/
theorem index_ne {last p : Timespec} (hlast : timespecAddNs start (ops.waitAt w k) = some last)
    (hnow : ¬ timespecCmp last now ≤ 0) (hp : timespecAddNs start (ops.waitAt w i) = some p)
    (hover : timespecCmp p now ≤ 0) : i ≠ k := by
  rintro rfl
  cases hp.symm.trans hlast
  exact hnow hover

/-- The loop finds a wait that is not over, and not behind one that is not. -/
theorem growLoop_index (hs : start.Normal) (hn : now.Normal) {last : Timespec}
    (hlast : timespecAddNs start (ops.waitAt w k) = some last) (hnow : ¬ timespecCmp last now ≤ 0)
    {fuel : Nat} (hi : i ≤ k) {r : Timespec × BitVec 32}
    (h : growLoop ops start now fuel (ops.waitAt w i) = some r) :
    ∃ j, i ≤ j ∧ j ≤ k ∧ timespecAddNs start (ops.waitAt w j) = some r.1 ∧
      r.2 = ops.waitAt w (j + 1) := by
  obtain ⟨j, hij, hj, hwait, -, hbetween⟩ := growLoop_wait hs hn h
  refine ⟨j, hij, ?_, hj, hwait⟩
  by_contra hjk
  exact hnow (hbetween k hi (by omega) last hlast)

/-- The loop comes to an end before a wait that is not over. -/
theorem growLoop_total (hs : start.Normal) {last : Timespec}
    (hlast : timespecAddNs start (ops.waitAt w k) = some last) (hnow : ¬ timespecCmp last now ≤ 0)
    {fuel : Nat} (hi : i ≤ k) (hfuel : k < i + fuel) :
    ∃ r, growLoop ops start now fuel (ops.waitAt w i) = some r := by
  induction fuel generalizing i with
  | zero => omega
  | succ fuel ih =>
    obtain ⟨p, hp, -, hstep⟩ := growLoop_succ ops now hs fuel (ops.waitAt w i)
    rw [hstep, ← Ops.waitAt_succ]
    split
    · rename_i hover
      have hne := index_ne hlast hnow hp hover
      exact ih (by omega) (by omega)
    · exact ⟨_, rfl⟩

section Rounds

variable {c c' : Backoff} {p : Timespec} {asleep : Option Timespec} {b : Option Backoff}
  {fuel : Nat}

/-- Before the back-off stops, a wait of a second is not over. -/
theorem Comes.last (hc : Comes ops i c) (hw : 10 ^ 9 ≤ w.toNat) (hn : now.Normal)
    (hbefore : ¬ timespecCmp now c.stopBackoff ≥ 0) :
    ∃ last, timespecAddNs c.start w = some last ∧ ¬ timespecCmp last now ≤ 0 := by
  obtain ⟨last, hlast, -⟩ := timespecAddNs_eq hc.normal w
  obtain ⟨hlastn, hstopn, hsame⟩ := stop_nanos hc.normal hw hlast hc.stop
  refine ⟨last, hlast, ?_⟩
  rw [(hlastn.cmp hn).2, hsame, not_le]
  exact (hn.cmp hstopn).1.mp (not_le.mp hbefore)

/-- A round of the back-off takes one of the waits that are left, or sleeps until the deadline of
the caller. -/
theorem Comes.next (hc : Comes ops i c) (hk : 10 ^ 9 ≤ (ops.waitAt ops.waitNs k).toNat)
    (hi : i ≤ k ∨ timespecCmp now c.stopBackoff ≥ 0) (hn : now.Normal)
    (h : c.next ops deadline now fuel = some (p, c')) :
    p = deadline ∨ ∃ j, i ≤ j ∧ j ≤ k ∧ Comes ops (j + 1) c' ∧
      timespecAddNs c'.start (ops.waitAt ops.waitNs j) = some p := by
  unfold Backoff.next at h
  split at h
  · cases h
    exact .inl rfl
  · rename_i hbefore
    obtain ⟨r, hloop, hr⟩ := Option.map_eq_some_iff.mp h
    cases hr
    obtain ⟨last, hlast, hnow⟩ := hc.last hk hn hbefore
    rw [hc.wait] at hloop
    obtain ⟨j, hij, hjk, hp, hwait⟩ :=
      growLoop_index hc.normal hn hlast hnow (hi.resolve_right hbefore) hloop
    exact .inr ⟨j, hij, hjk, ⟨hc.normal, hc.stop, hwait⟩, hp⟩

/-- A round of the back-off finds its deadline. -/
theorem Comes.total (hc : Comes ops i c) (hk : 10 ^ 9 ≤ (ops.waitAt ops.waitNs k).toNat)
    (hi : i ≤ k ∨ timespecCmp now c.stopBackoff ≥ 0) (hn : now.Normal) (deadline : Timespec) :
    ∃ r, c.next ops deadline now (k + 1) = some r := by
  unfold Backoff.next
  split
  · exact ⟨_, rfl⟩
  · rename_i hbefore
    obtain ⟨last, hlast, hnow⟩ := hc.last hk hn hbefore
    obtain ⟨r, hr⟩ := growLoop_total hc.normal hlast hnow (hi.resolve_right hbefore)
      (by omega : k < i + (k + 1))
    rw [hc.wait, hr]
    exact ⟨_, rfl⟩

/-! ## All rounds -/

/-- Where a call stands after `n` sleeps: at its beginning, asleep until the deadline of the caller,
or asleep until the end of the `j`-th wait. -/
def Rested (ops : Ops) (deadline : Timespec) (k n : Nat) (asleep : Option Timespec)
    (b : Option Backoff) : Prop :=
  (n = 0 ∧ asleep = none ∧ b = none) ∨ (n ≤ k + 2 ∧ asleep = some deadline) ∨
    ∃ c j p, b = some c ∧ asleep = some p ∧ n ≤ j + 1 ∧ j ≤ k ∧ Comes ops (j + 1) c ∧
      timespecAddNs c.start (ops.waitAt ops.waitNs j) = some p

theorem Rested.sleeps (h : Rested ops deadline k n asleep b) : n ≤ k + 2 := by
  rcases h with ⟨rfl, -⟩ | ⟨hn, -⟩ | ⟨c, j, p, -, -, hn, hj, -⟩
  · exact Nat.zero_le _
  · exact hn
  · omega

theorem not_before_of_woken {p now : Timespec} (h : timespecCmp p now ≤ 0) :
    ¬ timespecCmp now p < 0 := by
  unfold timespecCmp at *
  split_ifs at * <;> omega

/-- A thread that has slept long enough goes on with a later wait, or the back-off stops. -/
theorem Rested.ready (h : Rested ops deadline k n asleep b)
    (hk : 10 ^ 9 ≤ (ops.waitAt ops.waitNs k).toNat) (hn : now.Normal)
    (woken : ∀ p ∈ asleep, timespecCmp p now ≤ 0) (before : timespecCmp now deadline < 0) :
    ∃ c i, Backoff.enter ops now b = some c ∧ Comes ops i c ∧ n ≤ i ∧ i ≤ k + 1 ∧
      (i ≤ k ∨ timespecCmp now c.stopBackoff ≥ 0) := by
  rcases h with ⟨rfl, -, rfl⟩ | ⟨-, rfl⟩ | ⟨c, j, p, rfl, rfl, hnj, hj, hc, hp⟩
  · obtain ⟨stop, hstop, -⟩ := timespecAdd_eq hn finalWaitTime_normal
    refine ⟨⟨now, stop, ops.waitNs⟩, 0, ?_, ⟨hn, hstop, rfl⟩, le_rfl, Nat.zero_le _,
      .inl (Nat.zero_le _)⟩
    simp [Backoff.enter, hstop]
  · exact absurd before (not_before_of_woken (woken deadline rfl))
  · refine ⟨c, j + 1, rfl, hc, hnj, by omega, ?_⟩
    by_cases hjk : j = k
    · subst hjk
      obtain ⟨hpn, hstopn, hsame⟩ := stop_nanos hc.normal hk hp hc.stop
      refine .inr (not_lt.mp ?_)
      rw [(hn.cmp hstopn).1, ← hsame, not_lt]
      exact (hpn.cmp hn).2.mp (woken p rfl)
    · exact .inl (by omega)

theorem Slept.rested (hk : 10 ^ 9 ≤ (ops.waitAt ops.waitNs k).toNat)
    (h : Slept ops deadline n asleep b) : Rested ops deadline k n asleep b := by
  induction h with
  | start => exact .inl ⟨rfl, rfl, rfl⟩
  | round _ normal woken before entered next ih =>
    obtain ⟨c, i, hc, hcomes, hni, hik, hi⟩ := ih.ready hk normal woken before
    cases hc.symm.trans entered
    rcases hcomes.next hk hi normal next with rfl | ⟨j, hij, hjk, hcomes', hp⟩
    · exact .inr (.inl ⟨by omega, rfl⟩)
    · exact .inr (.inr ⟨_, j, _, rfl, rfl, by omega, hjk, hcomes', hp⟩)

end Rounds

/-- One more round, which looks at one wait. -/
theorem Slept.again {c c' : Backoff} {p : Timespec} {asleep : Option Timespec}
    {b : Option Backoff} (now : Timespec) (h : Slept ops deadline n asleep b)
    (normal : now.Normal) (woken : ∀ p ∈ asleep, timespecCmp p now ≤ 0)
    (before : timespecCmp now deadline < 0) (entered : Backoff.enter ops now b = some c)
    (next : c.next ops deadline now 1 = some (p, c')) :
    Slept ops deadline (n + 1) (some p) (some c') :=
  .round h normal woken before entered next

/-- A call that nobody has woken has not slept more often than so, and the next round finds its
deadline. -/
structure Ends (ops : Ops) (deadline : Timespec) (k n : Nat) (asleep : Option Timespec)
    (b : Option Backoff) : Prop where
  sleeps : n ≤ k + 2
  goes : ∀ now : Timespec, now.Normal → (∀ p ∈ asleep, timespecCmp p now ≤ 0) →
    timespecCmp now deadline < 0 → ∃ c r, Backoff.enter ops now b = some c ∧
      c.next ops deadline now (k + 1) = some r

/-- Waits that grow come to a second. If the `k`-th one does, then a thread that nobody wakes sleeps
at most `k + 2` times before the deadline of the caller has passed, whatever the clock reads, and
looks at no more than `k + 1` waits in a round. -/
theorem backoff_ends (ops : Ops) (deadline : Timespec) :
    (ops.shiftCount < 32 → 10 ^ 9 ≤ ops.waitNs.toNat ∨ ops.waitNs < ops.scale ops.waitNs →
      ∃ k ≤ 10 ^ 9, 10 ^ 9 ≤ (ops.waitAt ops.waitNs k).toNat) ∧
    ∀ k, 10 ^ 9 ≤ (ops.waitAt ops.waitNs k).toNat → ∀ n asleep b,
      Slept ops deadline n asleep b → Ends ops deadline k n asleep b := by
  refine ⟨fun hshift => ?_, fun k hk n asleep b h => ⟨(h.rested hk).sleeps, ?_⟩⟩
  · rintro (hlong | hgrow)
    · exact ⟨0, Nat.zero_le _, hlong⟩
    · exact Ops.exists_second hshift hgrow
  · intro now hn woken before
    obtain ⟨c, i, hc, hcomes, -, -, hi⟩ := (h.rested hk).ready hk hn woken before
    obtain ⟨r, hr⟩ := hcomes.total hk hi hn deadline
    exact ⟨c, r, hc, hr⟩

/-- With the defaults a thread sleeps at most five times, and does so if it is never late. -/
theorem backoff_ends_defaults :
    (∀ deadline n asleep b, Slept defaults deadline n asleep b → n ≤ 5) ∧
    ∃ asleep b, Slept defaults ⟨200, 0⟩ 5 asleep b := by
  refine ⟨fun deadline n asleep b h => ?_, ?_⟩
  · exact ((backoff_ends defaults deadline).2 3 (by decide) n asleep b h).sleeps
  · have h₀ : Slept defaults ⟨200, 0⟩ 0 none none := .start
    have h₁ := h₀.again ⟨100, 0⟩ (by constructor <;> decide) (by decide) (by decide) rfl rfl
    have h₂ := h₁.again ⟨100, 2000000⟩ (by constructor <;> decide) (by decide) (by decide) rfl rfl
    have h₃ := h₂.again ⟨100, 16000000⟩ (by constructor <;> decide) (by decide) (by decide) rfl rfl
    have h₄ := h₃.again ⟨100, 128000000⟩ (by constructor <;> decide) (by decide) (by decide) rfl rfl
    have h₅ := h₄.again ⟨101, 0⟩ (by constructor <;> decide) (by decide) (by decide) rfl rfl
    exact ⟨_, _, h₅⟩

end ConcurrencyKit.EventCount
