import ConcurrencyKit.EventCount.Time

/-!
# Exponential back-off

`exponential_backoff` of `src/ck_ec.c` without a predicate. A thread sleeps again and again, each
time until a deadline that is computed from the time of the first round, which grows by a factor.
After a second it sleeps until the deadline of the caller.

The clock is not modelled: its readings are given. The loop that looks for the next deadline is
followed for a number of rounds; it has come to an end when it has a result.
-/

namespace ConcurrencyKit.EventCount

open Timespec

/-- The fields of `struct ck_ec_ops` that the back-off reads. -/
structure Ops where
  initialWaitNs : BitVec 32
  waitScaleFactor : BitVec 32
  waitShiftCount : BitVec 32
  deriving DecidableEq, Repr

namespace Ops

/-- `DEFAULT_WAIT_SCALE_FACTOR` is used for zero. -/
def scaleFactor (ops : Ops) : BitVec 32 :=
  if ops.waitScaleFactor ≠ 0 then ops.waitScaleFactor else 8

/-- `DEFAULT_WAIT_SHIFT_COUNT` is used for zero. -/
def shiftCount (ops : Ops) : Nat :=
  if ops.waitShiftCount ≠ 0 then ops.waitShiftCount.toNat else 0

/-- `DEFAULT_INITIAL_WAIT_NS` is used for zero. -/
def waitNs (ops : Ops) : BitVec 32 :=
  if ops.initialWaitNs ≠ 0 then ops.initialWaitNs else 2000000

/-- The wait after `wait`. -/
def scale (ops : Ops) (wait : BitVec 32) : BitVec 32 :=
  waitTimeScale wait ops.scaleFactor ops.shiftCount

/-- The wait `k` rounds after `wait`. -/
def waitAt (ops : Ops) (wait : BitVec 32) : Nat → BitVec 32
  | 0 => wait
  | k + 1 => ops.waitAt (ops.scale wait) k

end Ops

/-- `final_wait_time` (`ck_ec.c:29-31`). -/
def finalWaitTime : Timespec := ⟨1, 0⟩

/-- The do-while loop of `exponential_backoff` (`ck_ec.c:168-175`): the deadline that comes after
`now`, and the next wait. -/
def growLoop (ops : Ops) (start now : Timespec) : Nat → BitVec 32 → Option (Timespec × BitVec 32)
  | 0, _ => none
  | fuel + 1, waitNs =>
    match timespecAddNs start waitNs with
    | none => none
    | some partialDeadline =>
      if timespecCmp partialDeadline now ≤ 0 then growLoop ops start now fuel (ops.scale waitNs)
      else some (partialDeadline, ops.scale waitNs)

/-- The local variables of `exponential_backoff` after the first reading of the clock. -/
structure Backoff where
  start : Timespec
  stopBackoff : Timespec
  waitNs : BitVec 32
  deriving DecidableEq, Repr

namespace Backoff

/-- The variables in a round in which the clock reads `now`: the first round sets them
(`ck_ec.c:155-160`). -/
def enter (ops : Ops) (now : Timespec) : Option Backoff → Option Backoff
  | some b => some b
  | none =>
    (timespecAdd now finalWaitTime).map fun stopBackoff => ⟨now, stopBackoff, ops.waitNs⟩

/-- The deadline for a round in which the clock reads `now`, before `deadline`
(`ck_ec.c:162-177`). -/
def next (ops : Ops) (deadline now : Timespec) (fuel : Nat) (b : Backoff) :
    Option (Timespec × Backoff) :=
  if timespecCmp now b.stopBackoff ≥ 0 then some (deadline, b)
  else (growLoop ops b.start now fuel b.waitNs).map fun r => (r.1, { b with waitNs := r.2 })

/-- The argument of the sleep function (`ck_ec.c:186-189`): `NULL` for a deadline in the far
future. -/
def sleepArg (partialDeadline : Timespec) : Option Timespec :=
  if partialDeadline.tvSec = timeMax then none else some partialDeadline

end Backoff

/-- The states in which `exponential_backoff` reads the clock, for a caller's deadline. Every
reading so far was a normal time before the deadline. -/
inductive Waits (ops : Ops) (deadline : Timespec) : Option Backoff → Prop
  | start : Waits ops deadline none
  | round {now partialDeadline : Timespec} {fuel : Nat} {b : Option Backoff} {c c' : Backoff}
      (h : Waits ops deadline b) (normal : now.Normal) (before : timespecCmp now deadline < 0)
      (entered : Backoff.enter ops now b = some c)
      (next : c.next ops deadline now fuel = some (partialDeadline, c')) :
      Waits ops deadline (some c')

variable {ops : Ops} {start now deadline : Timespec}

/-! ## The waits -/

theorem Ops.waitAt_succ (ops : Ops) (w : BitVec 32) (k : Nat) :
    ops.waitAt w (k + 1) = ops.scale (ops.waitAt w k) := by
  induction k generalizing w with
  | zero => rfl
  | succ k ih => exact ih (ops.scale w)

/-- A longer wait is scaled to one that is not shorter. -/
theorem Ops.scale_mono (hs : ops.shiftCount < 32) {v w : BitVec 32} (h : v ≤ w) :
    ops.scale v ≤ ops.scale w := by
  rw [BitVec.le_def] at h ⊢
  rw [scale, scale, toNat_waitTimeScale _ _ hs, toNat_waitTimeScale _ _ hs]
  exact min_le_min le_rfl (Nat.div_le_div_right (Nat.mul_le_mul_right _ h))

/-- A wait that grows goes on growing, up to the largest word. -/
theorem Ops.scale_grows (hs : ops.shiftCount < 32) {w : BitVec 32} (h : w < ops.scale w)
    (hmax : (ops.scale w).toNat < 2 ^ 32 - 1) : ops.scale w < ops.scale (ops.scale w) := by
  rw [BitVec.lt_def] at h ⊢
  generalize hv : ops.scale w = v at h hmax ⊢
  have hw := toNat_waitTimeScale w ops.scaleFactor hs
  rw [← scale, hv] at hw
  rw [scale, toNat_waitTimeScale _ _ hs]
  generalize ops.scaleFactor.toNat = factor at hw ⊢
  have hpos : 0 < 2 ^ ops.shiftCount := Nat.two_pow_pos _
  generalize 2 ^ ops.shiftCount = turn at hw hpos ⊢
  -- the scaled wait is exact, and so is more than the factor in whole turns
  have hexact : v.toNat = w.toNat * factor / turn := by omega
  have hprod : v.toNat * turn ≤ w.toNat * factor :=
    (Nat.le_div_iff_mul_le hpos).mp hexact.le
  have hfactor : turn < factor := by
    by_contra hle
    have h₁ : w.toNat * factor ≤ w.toNat * turn := Nat.mul_le_mul_left _ (Nat.le_of_not_lt hle)
    have h₂ : v.toNat ≤ w.toNat := Nat.le_of_mul_le_mul_right (hprod.trans h₁) hpos
    omega
  have hnext : v.toNat + 1 ≤ v.toNat * factor / turn := by
    rw [Nat.le_div_iff_mul_le hpos]
    have h₁ : (v.toNat - w.toNat) * factor + w.toNat * factor = v.toNat * factor := by
      rw [← Nat.add_mul, Nat.sub_add_cancel h.le]
    have h₂ : factor ≤ (v.toNat - w.toNat) * factor :=
      Nat.le_mul_of_pos_left _ (Nat.sub_pos_of_lt h)
    calc (v.toNat + 1) * turn = v.toNat * turn + turn := Nat.succ_mul _ _
      _ ≤ w.toNat * factor + factor := Nat.add_le_add hprod hfactor.le
      _ ≤ v.toNat * factor := by omega
  have := v.isLt
  omega

/-! ## The loop -/

theorem finalWaitTime_normal : finalWaitTime.Normal := by
  constructor <;> decide

/-- A longer wait does not end earlier. -/
theorem timespecAddNs_mono (hs : start.Normal) {v w : BitVec 32} (h : v ≤ w) {p q : Timespec}
    (hp : timespecAddNs start v = some p) (hq : timespecAddNs start w = some q) :
    p.Normal ∧ q.Normal ∧ p.nanos ≤ q.nanos := by
  obtain ⟨p', hp', hpn, hpe⟩ := timespecAddNs_eq hs v
  obtain ⟨q', hq', hqn, hqe⟩ := timespecAddNs_eq hs w
  cases hp.symm.trans hp'
  cases hq.symm.trans hq'
  rw [BitVec.le_def] at h
  refine ⟨hpn, hqn, ?_⟩
  rw [hpe, hqe]
  omega

theorem growLoop_succ (ops : Ops) (now : Timespec) (hs : start.Normal) (fuel : Nat)
    (w : BitVec 32) :
    ∃ p, timespecAddNs start w = some p ∧ p.Normal ∧
      growLoop ops start now (fuel + 1) w =
        if timespecCmp p now ≤ 0 then growLoop ops start now fuel (ops.scale w)
        else some (p, ops.scale w) := by
  obtain ⟨p, hp, hn, -⟩ := timespecAddNs_eq hs w
  exact ⟨p, hp, hn, by rw [growLoop, hp]⟩

/-- The loop does not end when the wait is over and does not grow. -/
theorem growLoop_stuck (hshift : ops.shiftCount < 32) (hs : start.Normal) (hn : now.Normal)
    {w : BitVec 32} {p : Timespec} (hp : timespecAddNs start w = some p)
    (hover : ¬ timespecCmp now p < 0) (hscale : ops.scale w ≤ w) (fuel : Nat) :
    growLoop ops start now fuel w = none := by
  -- all waits that follow are at most `w`
  suffices h : ∀ v ≤ w, growLoop ops start now fuel v = none from h w (BitVec.le_refl w)
  induction fuel with
  | zero => exact fun _ _ => rfl
  | succ fuel ih =>
    intro v hv
    obtain ⟨q, hq, hqn, hstep⟩ := growLoop_succ ops now hs fuel v
    obtain ⟨-, hpn, hle⟩ := timespecAddNs_mono hs hv hq hp
    rw [(hn.cmp hpn).1, not_lt] at hover
    rw [hstep, if_pos ((hqn.cmp hn).2.mpr (hle.trans hover))]
    exact ih _ (BitVec.le_trans (Ops.scale_mono hshift hv) hscale)

/-- The loop ends when the wait is not over or grows, because a second has not passed. -/
theorem growLoop_ends (hshift : ops.shiftCount < 32) (hs : start.Normal) (hn : now.Normal)
    {stop : Timespec} (hstop : timespecAdd start finalWaitTime = some stop)
    (hbefore : timespecCmp now stop < 0) {w : BitVec 32}
    (h : (∃ p, timespecAddNs start w = some p ∧ timespecCmp now p < 0) ∨ w < ops.scale w) :
    ∃ fuel r, growLoop ops start now fuel w = some r := by
  obtain ⟨stop', hstop', hstopn, hlast⟩ := timespecAdd_eq hs finalWaitTime_normal
  cases hstop.symm.trans hstop'
  rw [(hn.cmp hstopn).1, hlast] at hbefore
  generalize hleft : 2 ^ 32 - w.toNat = left
  induction left using Nat.strong_induction_on generalizing w with
  | _ left ih =>
    obtain ⟨p, hp, hpn, hnanos⟩ := timespecAddNs_eq hs w
    by_cases hnow : timespecCmp now p < 0
    · refine ⟨1, (p, ops.scale w), ?_⟩
      rw [growLoop, hp]
      refine if_neg ?_
      rw [(hpn.cmp hn).2, not_le]
      exact (hn.cmp hpn).1.mp hnow
    · have hgrow : w < ops.scale w := by
        refine h.resolve_left ?_
        rintro ⟨q, hq, hlt⟩
        cases hp.symm.trans hq
        exact hnow hlt
      have hgrow' := BitVec.lt_def.mp hgrow
      have hw := w.isLt
      have hv := (ops.scale w).isLt
      -- the next wait ends later or is the largest one, which is more than a second
      obtain ⟨fuel, r, hloop⟩ := ih (2 ^ 32 - (ops.scale w).toNat) (by omega) (w := ops.scale w) (by
        by_cases hmax : (ops.scale w).toNat < 2 ^ 32 - 1
        · exact .inr (Ops.scale_grows hshift hgrow hmax)
        · obtain ⟨q, hq, hqn, hqnanos⟩ := timespecAddNs_eq hs (ops.scale w)
          refine .inl ⟨q, hq, (hn.cmp hqn).1.mpr ?_⟩
          have hsecond : finalWaitTime.nanos = (10 ^ 9 : Nat) := by decide
          have hlong : min (ops.scale w).toNat (10 ^ 9) = 10 ^ 9 := min_eq_right (by omega)
          rwa [hqnanos, hlong, ← hsecond]) rfl
      refine ⟨fuel + 1, r, ?_⟩
      rw [growLoop, hp]
      dsimp only
      rw [if_pos ((hpn.cmp hn).2.mpr (not_lt.mp (mt (hn.cmp hpn).1.mpr hnow))), hloop]

/-- Within a second of the first round, the loop that looks for the next deadline ends if and only
if the wait is not over or is scaled to a longer one. -/
theorem growLoop_ends_iff (hshift : ops.shiftCount < 32) (hs : start.Normal) (hn : now.Normal)
    {stop : Timespec} (hstop : timespecAdd start finalWaitTime = some stop)
    (hbefore : timespecCmp now stop < 0) (w : BitVec 32) :
    (∃ fuel r, growLoop ops start now fuel w = some r) ↔
      (∃ p, timespecAddNs start w = some p ∧ timespecCmp now p < 0) ∨ w < ops.scale w := by
  refine ⟨?_, growLoop_ends hshift hs hn hstop hbefore⟩
  rintro ⟨fuel, r, hloop⟩
  obtain ⟨p, hp, -⟩ := timespecAddNs_eq hs w
  by_contra hnot
  rw [not_or] at hnot
  have hstuck := growLoop_stuck hshift hs hn hp (fun h => hnot.1 ⟨p, hp, h⟩)
    (BitVec.not_lt.mp hnot.2) fuel
  rw [hloop] at hstuck
  cases hstuck

/-- The defaults: two milliseconds, then eight times as long. -/
def defaults : Ops := ⟨0, 0, 0⟩

theorem growLoop_ends_iff_defaults :
    (∃ fuel r, growLoop defaults ⟨100, 0⟩ ⟨100, 3000000⟩ fuel defaults.waitNs = some r) ↔
      (∃ p, timespecAddNs ⟨100, 0⟩ defaults.waitNs = some p ∧
        timespecCmp ⟨100, 3000000⟩ p < 0) ∨ defaults.waitNs < defaults.scale defaults.waitNs :=
  growLoop_ends_iff (by decide) (by constructor <;> decide) (by constructor <;> decide)
    (by decide : timespecAdd ⟨100, 0⟩ finalWaitTime = some ⟨101, 0⟩) (by decide) _

/-- The back-off that does not grow. -/
def constant : Ops := ⟨2000000, 1, 0⟩

/-- The clock reads three milliseconds more in the second round, and the loop does not end. -/
theorem growLoop_constant_stuck :
    ∃ (b : Backoff) (now : Timespec), Waits constant ⟨200, 0⟩ (some b) ∧ now.Normal ∧
      timespecCmp now ⟨200, 0⟩ < 0 ∧ timespecCmp now b.stopBackoff < 0 ∧
      ∀ fuel, growLoop constant b.start now fuel b.waitNs = none := by
  have hfirst : Backoff.next constant ⟨200, 0⟩ ⟨100, 0⟩ 1 ⟨⟨100, 0⟩, ⟨101, 0⟩, 2000000⟩ =
      some (⟨100, 2000000⟩, ⟨⟨100, 0⟩, ⟨101, 0⟩, 2000000⟩) := by decide
  refine ⟨⟨⟨100, 0⟩, ⟨101, 0⟩, 2000000⟩, ⟨100, 3000000⟩,
    .round .start (by constructor <;> decide) (by decide)
      (by decide : Backoff.enter constant ⟨100, 0⟩ none = some ⟨⟨100, 0⟩, ⟨101, 0⟩, 2000000⟩)
      hfirst,
    by constructor <;> decide, by decide, by decide, ?_⟩
  exact growLoop_stuck (by decide) (by constructor <;> decide) (by constructor <;> decide)
    (by decide : timespecAddNs ⟨100, 0⟩ 2000000 = some ⟨100, 2000000⟩) (by decide) (by decide)

/-! ## The deadlines -/

/-- The loop goes over the waits that have ended, to the first one that has not. -/
theorem growLoop_wait (hs : start.Normal) (hn : now.Normal) {w : BitVec 32} {fuel i : Nat}
    {r : Timespec × BitVec 32} (h : growLoop ops start now fuel (ops.waitAt w i) = some r) :
    ∃ j, i ≤ j ∧ timespecAddNs start (ops.waitAt w j) = some r.1 ∧ r.2 = ops.waitAt w (j + 1) ∧
      timespecCmp now r.1 < 0 ∧ ∀ l, i ≤ l → l < j → ∀ q,
        timespecAddNs start (ops.waitAt w l) = some q → timespecCmp q now ≤ 0 := by
  induction fuel generalizing i with
  | zero => cases h
  | succ fuel ih =>
    obtain ⟨p, hp, hpn, hstep⟩ := growLoop_succ ops now hs fuel (ops.waitAt w i)
    rw [hstep, ← Ops.waitAt_succ] at h
    split at h
    · rename_i hover
      obtain ⟨j, hij, hj, hwait, hnow, hbetween⟩ := ih h
      refine ⟨j, by omega, hj, hwait, hnow, fun l hl hlj q hq => ?_⟩
      rcases Nat.eq_or_lt_of_le hl with rfl | hlt
      · cases hp.symm.trans hq
        exact hover
      · exact hbetween l hlt hlj q hq
    · rename_i hover
      cases h
      refine ⟨i, le_rfl, hp, rfl, ?_, fun l hl hli => by omega⟩
      rw [(hn.cmp hpn).1]
      rwa [(hpn.cmp hn).2, not_le] at hover

/-- The back-off goes on with its `i`-th wait. -/
structure Comes (ops : Ops) (i : Nat) (c : Backoff) : Prop where
  normal : c.start.Normal
  stop : timespecAdd c.start finalWaitTime = some c.stopBackoff
  wait : c.waitNs = ops.waitAt ops.waitNs i

theorem Comes.first (hn : now.Normal) {c : Backoff} (h : Backoff.enter ops now none = some c) :
    Comes ops 0 c ∧ c.start = now := by
  obtain ⟨stop, hstop, rfl⟩ := Option.map_eq_some_iff.mp h
  exact ⟨⟨hn, hstop, rfl⟩, rfl⟩

/-- The deadline that is passed to the sleep function is not later than that of the caller, and
later than the current time. Without one the deadline of the caller is in the far future. -/
def Timely (deadline now : Timespec) : Option Timespec → Prop
  | some d => timespecCmp d deadline ≤ 0 ∧ timespecCmp now d < 0
  | none => deadline.tvSec = timeMax

instance (deadline now : Timespec) : DecidablePred (Timely deadline now)
  | some d => inferInstanceAs (Decidable (timespecCmp d deadline ≤ 0 ∧ timespecCmp now d < 0))
  | none => inferInstanceAs (Decidable (deadline.tvSec = timeMax))

theorem timespecCmp_self (t : Timespec) : timespecCmp t t = 0 := by
  simp [timespecCmp]

/-- The order of the times, normal or not. -/
theorem timespecCmp_iff (x y : Timespec) :
    (timespecCmp x y < 0 ↔ x.tvSec < y.tvSec ∨ x.tvSec = y.tvSec ∧ x.tvNsec < y.tvNsec) ∧
      (timespecCmp x y ≤ 0 ↔ x.tvSec < y.tvSec ∨ x.tvSec = y.tvSec ∧ x.tvNsec ≤ y.tvNsec) := by
  unfold timespecCmp
  split_ifs <;> omega

/-- A round of a call whose first reading of the clock is `start`: the clock has read `now`, and `p`
is the deadline for the sleep function. The clock is monotone, and the deadline has not passed. -/
inductive Asks (ops : Ops) (deadline start : Timespec) : Timespec → Timespec → Backoff → Prop
  | first {fuel : Nat} {p : Timespec} {c c' : Backoff} (before : timespecCmp start deadline < 0)
      (entered : Backoff.enter ops start none = some c)
      (next : c.next ops deadline start fuel = some (p, c')) : Asks ops deadline start start p c'
  | again {fuel : Nat} {last now p p' : Timespec} {c c' : Backoff}
      (h : Asks ops deadline start last p c) (normal : now.Normal)
      (monotone : timespecCmp last now ≤ 0) (before : timespecCmp now deadline < 0)
      (next : c.next ops deadline now fuel = some (p', c')) : Asks ops deadline start now p' c'

/-- No wait of a back-off that starts at `start` ends after the deadline. -/
def WaitsFit (ops : Ops) (start deadline : Timespec) : Prop :=
  ∀ k, ∃ q, timespecAddNs start (ops.waitAt ops.waitNs k) = some q ∧ timespecCmp q deadline ≤ 0

section Asks

variable {c c' : Backoff} {p : Timespec} {fuel i k : Nat}

/-- A round asks for the deadline of the caller, or for the end of a wait. -/
theorem Comes.asks (hc : Comes ops i c) (hn : now.Normal) (before : timespecCmp now deadline < 0)
    (h : c.next ops deadline now fuel = some (p, c')) :
    timespecCmp now p < 0 ∧ c'.start = c.start ∧ (∃ j, Comes ops j c') ∧
      (p = deadline ∨ ∃ j, timespecAddNs c.start (ops.waitAt ops.waitNs j) = some p) := by
  unfold Backoff.next at h
  split at h
  · cases h
    exact ⟨before, rfl, ⟨i, hc⟩, .inl rfl⟩
  · obtain ⟨r, hloop, hr⟩ := Option.map_eq_some_iff.mp h
    cases hr
    rw [hc.wait] at hloop
    obtain ⟨j, -, hj, hwait, hnow, -⟩ := growLoop_wait hc.normal hn hloop
    exact ⟨hnow, rfl, ⟨j + 1, hc.normal, hc.stop, hwait⟩, .inr ⟨j, hj⟩⟩

/-- What a round of a call asks for. -/
theorem Asks.round (hs : start.Normal) (h : Asks ops deadline start now p c) :
    timespecCmp start deadline < 0 ∧ timespecCmp now p < 0 ∧ c.start = start ∧
      (∃ j, Comes ops j c) ∧
      (p = deadline ∨ ∃ j, timespecAddNs start (ops.waitAt ops.waitNs j) = some p) := by
  induction h with
  | first before entered next =>
    obtain ⟨hcomes, hstart⟩ := Comes.first hs entered
    obtain ⟨hnow, hkept, hnext, hp⟩ := hcomes.asks hs before next
    rw [hstart] at hkept hp
    exact ⟨before, hnow, hkept, hnext, hp⟩
  | again h normal monotone before next ih =>
    obtain ⟨hbefore, -, hstart, ⟨j, hcomes⟩, -⟩ := ih
    obtain ⟨hnow, hkept, hnext, hp⟩ := hcomes.asks normal before next
    rw [hstart] at hkept hp
    exact ⟨hbefore, hnow, hkept, hnext, hp⟩

/-- A sleep until a time that is not later than the deadline. -/
theorem timely_of_le (hmax : deadline.tvSec ≤ timeMax) (hnow : timespecCmp now p < 0)
    (hle : timespecCmp p deadline ≤ 0) : Timely deadline now (Backoff.sleepArg p) := by
  unfold Backoff.sleepArg
  split
  · rename_i hfar
    have hsec := (timespecCmp_iff p deadline).2.mp hle
    show deadline.tvSec = timeMax
    omega
  · exact ⟨hle, hnow⟩

/-- A sleep that may last into the far future. -/
theorem timely_of_far (hp : p.Normal) (hnow : timespecCmp now p < 0)
    (hfar : deadline.tvSec = timeMax) : Timely deadline now (Backoff.sleepArg p) := by
  unfold Backoff.sleepArg
  split
  · exact hfar
  · rename_i hnear
    have hsec := hp.secMax
    refine ⟨(timespecCmp_iff p deadline).2.mpr (.inl ?_), hnow⟩
    omega

/-- Unless the deadline is in the far future, the sleep ends before it has passed. -/
theorem Timely.le (h : Timely deadline now (Backoff.sleepArg p)) (hfar : deadline.tvSec ≠ timeMax) :
    timespecCmp p deadline ≤ 0 := by
  unfold Backoff.sleepArg at h
  split at h
  · exact absurd h hfar
  · exact h.1

/-- While the clock stands still, a round asks for the end of the next wait. -/
theorem Comes.still (hc : Comes ops i c) (hfar : c.start.tvSec < timeMax)
    (hwait : ops.waitAt ops.waitNs i ≠ 0) (deadline : Timespec) :
    ∃ p, timespecAddNs c.start (ops.waitAt ops.waitNs i) = some p ∧
      c.next ops deadline c.start 1 = some (p, { c with waitNs := ops.scale c.waitNs }) := by
  obtain ⟨stop, hstop, hstopn, hlast⟩ := timespecAdd_eq hc.normal finalWaitTime_normal
  cases hc.stop.symm.trans hstop
  obtain ⟨p, hp, hpn, hnanos⟩ := timespecAddNs_eq hc.normal (ops.waitAt ops.waitNs i)
  have hroom : c.start.nanos < farFuture.nanos := by
    have hnsec := hc.normal.nsecMax
    rw [nsecMax_eq] at hnsec
    rw [farFuture_nanos, nanos, nsecMax_eq]
    rw [timeMax_eq] at hfar
    omega
  have hpos : 0 < (ops.waitAt ops.waitNs i).toNat :=
    Nat.pos_of_ne_zero fun h => hwait (BitVec.eq_of_toNat_eq h)
  have hstopped : ¬ timespecCmp c.start c.stopBackoff ≥ 0 := by
    rw [not_le, (hc.normal.cmp hstopn).1, hlast]
    have hsecond : finalWaitTime.nanos = (10 ^ 9 : Nat) := by decide
    omega
  have hover : ¬ timespecCmp p c.start ≤ 0 := by
    rw [(hpn.cmp hc.normal).2, hnanos]
    omega
  refine ⟨p, hp, ?_⟩
  rw [Backoff.next, if_neg hstopped, growLoop, hc.wait, hp]
  simp only [if_neg hover, Option.map_some]

/-- While the clock stands still, a call asks for the end of every wait, as far as the waits are not
zero. -/
theorem asks_still (hs : start.Normal) (hfar : start.tvSec < timeMax)
    (before : timespecCmp start deadline < 0) (h : ∀ j ≤ k, ops.waitAt ops.waitNs j ≠ 0) :
    ∃ p c, timespecAddNs start (ops.waitAt ops.waitNs k) = some p ∧
      Asks ops deadline start start p c ∧ Comes ops (k + 1) c ∧ c.start = start := by
  induction k with
  | zero =>
    obtain ⟨stop, hstop, -⟩ := timespecAdd_eq hs finalWaitTime_normal
    have hcomes : Comes ops 0 ⟨start, stop, ops.waitNs⟩ := ⟨hs, hstop, rfl⟩
    obtain ⟨p, hp, hnext⟩ := hcomes.still hfar (h 0 le_rfl) deadline
    refine ⟨p, _, hp, .first before ?_ hnext, ⟨hs, hstop, rfl⟩, rfl⟩
    rw [Backoff.enter, hstop, Option.map_some]
  | succ k ih =>
    obtain ⟨q, c, -, hasks, hcomes, rfl⟩ := ih fun j hj => h j (by omega)
    obtain ⟨p, hp, hnext⟩ := hcomes.still hfar (h (k + 1) le_rfl) deadline
    refine ⟨p, _, hp, .again hasks hs (timespecCmp_self _).le before hnext,
      ⟨hs, hcomes.stop, ?_⟩, rfl⟩
    rw [Ops.waitAt_succ, hcomes.wait]

/-- After a wait of zero all waits are zero. -/
theorem waitAt_zero (hshift : ops.shiftCount < 32) {w : BitVec 32} {j : Nat}
    (h : ops.waitAt w j = 0) (hjk : j ≤ k) : ops.waitAt w k = 0 := by
  induction k, hjk using Nat.le_induction with
  | base => exact h
  | succ k _ ih =>
    rw [Ops.waitAt_succ, ih]
    apply BitVec.eq_of_toNat_eq
    rw [Ops.scale, toNat_waitTimeScale _ _ hshift]
    simp

/-- Where every call is timely, no wait ends after the deadline. -/
theorem WaitsFit.of_timely (hs : start.Normal) (hshift : ops.shiftCount < 32)
    (before : timespecCmp start deadline < 0) (hmax : deadline.tvSec < timeMax)
    (h : ∀ now p c, Asks ops deadline start now p c →
      Timely deadline now (Backoff.sleepArg p)) : WaitsFit ops start deadline := by
  intro k
  have hsec := (timespecCmp_iff start deadline).1.mp before
  by_cases hzero : ∃ j ≤ k, ops.waitAt ops.waitNs j = 0
  · obtain ⟨j, hjk, hj⟩ := hzero
    obtain ⟨q, hq, hqn, hnanos⟩ := timespecAddNs_eq hs (ops.waitAt ops.waitNs k)
    refine ⟨q, hq, ?_⟩
    have hstay : timespecCmp q start ≤ 0 := by
      rw [(hqn.cmp hs).2, hnanos, waitAt_zero hshift hj hjk]
      exact (min_le_left _ _).trans (by simp)
    have hle := (timespecCmp_iff q start).2.mp hstay
    rw [(timespecCmp_iff q deadline).2]
    omega
  · have hwaits : ∀ j ≤ k, ops.waitAt ops.waitNs j ≠ 0 := fun j hj h => hzero ⟨j, hj, h⟩
    obtain ⟨p, c, hp, hasks, -⟩ := asks_still hs (by omega) before hwaits
    exact ⟨p, hp, (h _ _ _ hasks).le (by omega)⟩

/-- Where the waits come to a second, all of them fit if the last one does. -/
theorem waitsFit_iff (hs : start.Normal) (hk : 10 ^ 9 ≤ (ops.waitAt ops.waitNs k).toNat) :
    WaitsFit ops start deadline ↔
      ∃ stop, timespecAdd start finalWaitTime = some stop ∧ timespecCmp stop deadline ≤ 0 := by
  obtain ⟨stop, hstop, hstopn, hlast⟩ := timespecAdd_eq hs finalWaitTime_normal
  have hsecond : finalWaitTime.nanos = (10 ^ 9 : Nat) := by decide
  rw [hsecond] at hlast
  constructor
  · intro h
    obtain ⟨q, hq, hle⟩ := h k
    obtain ⟨q', hq', hqn, hnanos⟩ := timespecAddNs_eq hs (ops.waitAt ops.waitNs k)
    cases hq.symm.trans hq'
    have hge : timespecCmp stop q ≤ 0 := by
      rw [(hstopn.cmp hqn).2, hlast, hnanos, min_eq_right hk]
    refine ⟨stop, hstop, ?_⟩
    rw [(timespecCmp_iff _ _).2] at hle hge ⊢
    omega
  · rintro ⟨stop', hstop', hle⟩ j
    cases hstop.symm.trans hstop'
    obtain ⟨q, hq, hqn, hnanos⟩ := timespecAddNs_eq hs (ops.waitAt ops.waitNs j)
    have hge : timespecCmp q stop ≤ 0 := by
      rw [(hqn.cmp hstopn).2, hlast, hnanos]
      omega
    refine ⟨q, hq, ?_⟩
    rw [(timespecCmp_iff _ _).2] at hle hge ⊢
    omega

end Asks

/-- A round always asks for a sleep that is not over. For a deadline of the caller, a first reading
of the clock and parameters, no call with a monotone clock asks for a later deadline than the
caller's if and only if the deadline has passed at the first reading, or is in the far future, or no
wait ends after it. Where the waits come to a second, it has to be a second later than the first
reading. -/
theorem sleeps_timely_iff (ops : Ops) (start deadline : Timespec) (hs : start.Normal)
    (hmax : deadline.tvSec ≤ timeMax) (hshift : ops.shiftCount < 32) :
    (∀ now p c, Asks ops deadline start now p c → timespecCmp now p < 0) ∧
    ((∀ now p c, Asks ops deadline start now p c → Timely deadline now (Backoff.sleepArg p)) ↔
      ¬ timespecCmp start deadline < 0 ∨ deadline.tvSec = timeMax ∨
        WaitsFit ops start deadline) ∧
    ∀ k, 10 ^ 9 ≤ (ops.waitAt ops.waitNs k).toNat → (WaitsFit ops start deadline ↔
      ∃ stop, timespecAdd start finalWaitTime = some stop ∧ timespecCmp stop deadline ≤ 0) := by
  refine ⟨fun now p c h => (h.round hs).2.1, ⟨fun h => ?_, fun h now p c hasks => ?_⟩,
    fun k hk => waitsFit_iff hs hk⟩
  · by_contra hnot
    obtain ⟨hbefore, hfar, hfit⟩ : timespecCmp start deadline < 0 ∧ deadline.tvSec ≠ timeMax ∧
        ¬ WaitsFit ops start deadline := by
      rwa [not_or, not_or, not_not] at hnot
    exact hfit (.of_timely hs hshift hbefore (by omega) h)
  · obtain ⟨hbefore, hnow, -, -, hp⟩ := hasks.round hs
    rcases hp with rfl | ⟨j, hj⟩
    · exact timely_of_le hmax hnow (timespecCmp_self _).le
    · rcases h with hpassed | hfar | hfit
      · exact absurd hbefore hpassed
      · obtain ⟨q, hq, hqn, -⟩ := timespecAddNs_eq hs (ops.waitAt ops.waitNs j)
        cases hj.symm.trans hq
        exact timely_of_far hqn hnow hfar
      · obtain ⟨q, hq, hle⟩ := hfit j
        cases hj.symm.trans hq
        exact timely_of_le hmax hnow hle

/-- With the defaults a deadline in a second is kept, here by a call that is woken early. -/
theorem sleeps_timely_iff_second :
    (∃ p c, Asks defaults ⟨101, 0⟩ ⟨100, 0⟩ ⟨100, 3000000⟩ p c) ∧
      ∀ now p c, Asks defaults ⟨101, 0⟩ ⟨100, 0⟩ now p c →
        Timely ⟨101, 0⟩ now (Backoff.sleepArg p) := by
  obtain ⟨-, hiff, hsecond⟩ := sleeps_timely_iff defaults ⟨100, 0⟩ ⟨101, 0⟩
    (by constructor <;> decide) (by decide) (by decide)
  refine ⟨?_, hiff.mpr (.inr (.inr ((hsecond 3 (by decide)).mpr ⟨⟨101, 0⟩, by decide, by decide⟩)))⟩
  have hfirst : Asks defaults ⟨101, 0⟩ ⟨100, 0⟩ ⟨100, 0⟩ ⟨100, 2000000⟩
      ⟨⟨100, 0⟩, ⟨101, 0⟩, 16000000⟩ :=
    .first (by decide) rfl (by decide : Backoff.next defaults ⟨101, 0⟩ ⟨100, 0⟩ 1
      ⟨⟨100, 0⟩, ⟨101, 0⟩, 2000000⟩ = some (⟨100, 2000000⟩, ⟨⟨100, 0⟩, ⟨101, 0⟩, 16000000⟩))
  exact ⟨_, _, hfirst.again (by constructor <;> decide) (by decide) (by decide)
    (by decide : Backoff.next defaults ⟨101, 0⟩ ⟨100, 3000000⟩ 1
      ⟨⟨100, 0⟩, ⟨101, 0⟩, 16000000⟩ = some (⟨100, 16000000⟩, ⟨⟨100, 0⟩, ⟨101, 0⟩, 128000000⟩))⟩

/-- A caller whose deadline is in a millisecond sleeps for two. -/
theorem sleep_not_timely :
    ∃ (b c : Backoff) (p : Timespec), Backoff.enter defaults ⟨100, 0⟩ none = some b ∧
      timespecCmp ⟨100, 0⟩ ⟨100, 1000000⟩ < 0 ∧
      b.next defaults ⟨100, 1000000⟩ ⟨100, 0⟩ 1 = some (p, c) ∧
      Backoff.sleepArg p = some ⟨100, 2000000⟩ ∧
      ¬ Timely ⟨100, 1000000⟩ ⟨100, 0⟩ (Backoff.sleepArg p) :=
  ⟨⟨⟨100, 0⟩, ⟨101, 0⟩, 2000000⟩, ⟨⟨100, 0⟩, ⟨101, 0⟩, 16000000⟩, ⟨100, 2000000⟩, by decide,
    by decide, by decide, by decide, by decide⟩

end ConcurrencyKit.EventCount
