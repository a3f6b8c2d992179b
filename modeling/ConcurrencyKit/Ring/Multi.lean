import ConcurrencyKit.Ring.Invariant

/-!
# Rings with any number of producers and consumers

Producers claim a position by advancing `p_head`, copy their value and publish it in the
order of the positions. `Change` says once what a step can do to the ring: claim the next
position while there is room, copy into a position that the thread holds, publish the
position at `p_tail`, or take the value at `c_head`. Everything else follows from it.
-/

namespace ConcurrencyKit.Ring.Multi

open Threads (Invariant System)

variable {ts : Nat} {ι : Type}

/-- The operations for many producers and consumers. -/
def may (_ : ι) (k : Kind) : Prop := k ≠ .enqueue .sp ∧ k ≠ .dequeue .sc

/-- No call spans `2 ^ 32` or more increments of counters. -/
def Timely (i : ι) (m : Mem ts ι) (pc : Pc ts) : Prop :=
  ¬ pc.Resting → ¬ pc.Holding → m.total < m.born i + 2 ^ 32

/-- Thread `i` holds the ticket for position `n`. -/
def Holds (m : Mem ts ι) (i : ι) (n : Nat) : Prop :=
  m.holder n = some i ∧ m.committed ≤ n ∧ n < m.claimed

/-- The invariant of the ring. -/
structure Inv (size : Nat) (m : Mem ts ι) : Prop where
  core : m.Core size
  pHead : m.pHead = m.claimed % 2 ^ 32
  committed_le : m.committed ≤ m.claimed
  claimed_le : m.claimed ≤ m.consumed + (size - 1)
  noticed : m.Noticed size

/-- Thread `i` has loaded `p` from `p_head` when it had been incremented `n` times. -/
def LoadedHead (m : Mem ts ι) (i : ι) (p n : Nat) : Prop :=
  p = n % 2 ^ 32 ∧ n ≤ m.claimed ∧ m.born i + (m.claimed - n) ≤ m.total

/-- What thread `i` knows in an enqueue operation. -/
def AtEnqueue (size : Nat) (i : ι) (m : Mem ts ι) : Pc ts → Prop
  | .mpHead _ => m.born i ≤ m.total
  | .mpConsumer _ p => ∃ n, LoadedHead m i p n
  | .mpCas _ p _ => ∃ n, LoadedHead m i p n ∧
      (n = m.claimed → m.claimed < m.consumed + (size - 1))
  | .mpReload _ p _ => ∃ n, LoadedHead m i p n ∧ (n = m.claimed → m.sawFull i = true)
  | .mpCopy _ p _ n | .mpReserved p _ n => p = n % 2 ^ 32 ∧ Holds m i n
  | .mpWritten p n | .mpWait p _ n => p = n % 2 ^ 32 ∧ Holds m i n ∧ m.Filed size n
  | .mpPublish p _ n => p = n % 2 ^ 32 ∧ Holds m i n ∧ m.Filed size n ∧ n = m.committed
  | .enqueued .mp false _ => m.sawFull i = true
  | _ => True

/-- What thread `i` knows. -/
structure At (size : Nat) (i : ι) (m : Mem ts ι) (pc : Pc ts) : Prop where
  role : ∀ k, pc.kind = some k → may i k
  enqueue : AtEnqueue size i m pc
  dequeue : Mem.AtDequeue size i m pc

variable [DecidableEq ι]

/-- What a step of thread `i` can do to the ring. -/
inductive Change (size : Nat) (i : ι) (m : Mem ts ι) : Mem ts ι → Prop
  | enter : Change size i m (m.begin i)
  | take {m' : Mem ts ι} (h : Mem.Takes size m m') : Change size i m m'
  | claim (room : m.claimed < m.consumed + (size - 1)) :
      Change size i m (m.claim i ((m.pHead + 1) % 2 ^ 32))
  | copy {n : Nat} (v : Value ts) (holds : Holds m i n) :
      Change size i m (m.copy (offset ts size n) n v)
  | publish (holds : Holds m i m.committed) (filed : m.Filed size m.committed) :
      Change size i m (m.storeTail ((m.pTail + 1) % 2 ^ 32))

section Changes

variable {size : Nat} {i j : ι} {m m' : Mem ts ι}

theorem Change.stay : Change size i m m := .take (.inl rfl)

omit [DecidableEq ι] in
/-- Positions that are taken are in different slots. -/
theorem Inv.slot_ne (hi : Inv size m) {a b : Nat} (ha : m.consumed ≤ a) (ha' : a < m.claimed)
    (hb : m.consumed ≤ b) (hb' : b < m.claimed) (hne : a ≠ b) : a % size ≠ b % size := by
  have := hi.claimed_le
  rcases Nat.lt_or_gt_of_ne hne with h | h
  · exact mod_ne_of_lt h (by omega)
  · exact (mod_ne_of_lt h (by omega)).symm

theorem Change.core (hs : IsSize size) (hi : Inv size m) (h : Change size i m m') :
    m'.Core size := by
  have hc := hi.core
  cases h with
  | enter => exact hc.begin
  | take h => exact h.core hc
  | claim room => exact ⟨hc.cHead, hc.pTail, hc.le, hc.lt, hc.slots, hc.dequeued⟩
  | @copy n v holds =>
    obtain ⟨-, hle, hlt⟩ := holds
    have hcle := hc.le
    refine ⟨hc.cHead, hc.pTail, hc.le, hc.lt, fun k h1 h2 => ?_, fun hslots => ?_⟩
    · -- the slot of a committed position is not the one written to
      have h1' : m.consumed ≤ k := h1
      have h2' : k < m.committed := h2
      have hcl := hi.committed_le
      exact (hc.slots k h1 h2).copy hs
        (hi.slot_ne h1' (by omega) (by omega) hlt (by omega)) v
    · show m.dequeued.map some = (List.range m.consumed).map (Function.update m.log n (some v))
      rw [hc.dequeued hslots]
      apply List.map_congr_left
      intro k hk
      have := List.mem_range.mp hk
      rw [Function.update_of_ne (by omega)]
  | publish holds filed =>
    have hlt := hi.claimed_le
    have hroom := holds.2.2
    refine ⟨hc.cHead, ?_, hc.le.trans (Nat.le_succ _), ?_, fun k h1 h2 => ?_, hc.dequeued⟩
    · show (m.pTail + 1) % 2 ^ 32 = (m.committed + 1) % 2 ^ 32
      rw [hc.pTail]
      omega
    · show m.committed + 1 ≤ m.consumed + (size - 1)
      omega
    · have h2' : k < m.committed + 1 := h2
      rcases Nat.lt_succ_iff_lt_or_eq.mp h2' with hk | rfl
      · exact hc.slots k h1 hk
      · exact filed

theorem Change.inv (hs : IsSize size) (hi : Inv size m) (h : Change size i m m') :
    Inv size (m'.observe size) := by
  have hc := (h.core hs hi).observe
  have hn := @Mem.observe_noticed _ _ size m'
  have hle := hi.claimed_le
  have hcl := hi.committed_le
  cases h with
  | enter => exact ⟨hc, hi.pHead, hcl, hle, hn⟩
  | take h =>
    rcases h with rfl | ⟨data, -, -, rfl⟩
    · exact ⟨hc, hi.pHead, hcl, hle, hn⟩
    · refine ⟨hc, hi.pHead, hcl, ?_, hn⟩
      show m.claimed ≤ m.consumed + 1 + (size - 1)
      omega
  | claim room =>
    refine ⟨hc, ?_, hcl.trans (Nat.le_succ _), room, hn⟩
    show (m.pHead + 1) % 2 ^ 32 = (m.claimed + 1) % 2 ^ 32
    rw [hi.pHead]
    omega
  | copy v holds => exact ⟨hc, hi.pHead, hcl, hle, hn⟩
  | publish holds filed => exact ⟨hc, hi.pHead, holds.2.2, hle, hn⟩

theorem Change.advance (h : Change size i m m') : Mem.Advance i m m' := by
  cases h with
  | enter => exact Mem.advance_begin
  | take h => exact h.advance
  | claim room =>
    exact ⟨le_rfl, le_rfl, Nat.le_succ _, fun _ _ => rfl, fun _ _ => rfl, fun _ _ h => h,
      fun _ _ h => h, fun _ _ h => h⟩
  | copy v holds =>
    refine ⟨le_rfl, le_rfl, le_rfl, fun k hk => ?_, fun _ _ => rfl, fun _ _ h => h,
      fun _ _ h => h, fun _ _ h => h⟩
    exact Function.update_of_ne (by have := holds.2.1; omega) _ _
  | publish holds filed =>
    exact ⟨le_rfl, Nat.le_succ _, le_rfl, fun _ _ => rfl, fun _ _ => rfl, fun _ _ h => h,
      fun _ _ h => h, fun _ _ h => h⟩

/-- A ticket stays with its holder. -/
theorem Change.holds (h : Change size i m m') (hj : j ≠ i) {n : Nat} (hn : Holds m j n) :
    Holds m' j n := by
  obtain ⟨hh, hle, hlt⟩ := hn
  cases h with
  | enter => exact ⟨hh, hle, hlt⟩
  | take h =>
    rcases h with rfl | ⟨data, -, -, rfl⟩
    · exact ⟨hh, hle, hlt⟩
    · exact ⟨hh, hle, hlt⟩
  | claim room =>
    exact ⟨(Function.update_of_ne (by omega) _ _).trans hh, hle, hlt.trans (Nat.lt_succ_self _)⟩
  | copy v holds => exact ⟨hh, hle, hlt⟩
  | publish holds filed =>
    refine ⟨hh, ?_, hlt⟩
    rcases Nat.eq_or_lt_of_le hle with he | hlt'
    · have := holds.1
      rw [he, hh] at this
      exact absurd (Option.some.inj this) hj
    · exact hlt'

/-- What a ticket holder has filed stays in its slot. -/
theorem Change.filed (hs : IsSize size) (hi : Inv size m) (h : Change size i m m') (hj : j ≠ i)
    {n : Nat} (hn : Holds m j n) (hf : m.Filed size n) : m'.Filed size n := by
  cases h with
  | take h =>
    rcases h with rfl | ⟨data, -, -, rfl⟩
    · exact hf
    · exact hf
  | @copy k v holds =>
    have hne : n ≠ k := by
      rintro rfl
      exact hj (Option.some.inj (hn.1.symm.trans holds.1))
    have hcle := hi.core.le
    have := hn.2.1
    have := holds.2.1
    exact hf.copy hs (hi.slot_ne (by omega) hn.2.2 (by omega) holds.2.2 hne) v
  | enter => exact hf
  | claim room => exact hf
  | publish holds filed => exact hf

omit [DecidableEq ι] in
theorem LoadedHead.advance {p n : Nat} (ha : Mem.Advance i m m') (hj : j ≠ i)
    (h : LoadedHead m j p n) : LoadedHead m' j p n := by
  obtain ⟨hp, hle, hspan⟩ := h
  have h1 := ha.consumed
  have h2 := ha.committed
  have h3 := ha.claimed
  refine ⟨hp, by omega, ?_⟩
  rw [ha.born j hj]
  unfold Mem.total at hspan ⊢
  omega

/-- What a producer knows outlasts the steps of the other threads. -/
theorem atEnqueue_change (hs : IsSize size) (hi : Inv size m) (h : Change size i m m')
    (hj : j ≠ i) {pc : Pc ts} (hat : AtEnqueue size j m pc) : AtEnqueue size j m' pc := by
  have ha := h.advance
  have h1 := ha.consumed
  have h3 := ha.claimed
  cases pc with
  | mpHead v =>
    have h2 := ha.committed
    simp only [AtEnqueue, Mem.total] at hat ⊢
    rw [ha.born j hj]
    omega
  | mpConsumer v p =>
    obtain ⟨n, hl⟩ := hat
    exact ⟨n, hl.advance ha hj⟩
  | mpCas v p c =>
    obtain ⟨n, hl, hroom⟩ := hat
    refine ⟨n, hl.advance ha hj, fun he => ?_⟩
    have := hroom (by have := hl.2.1; omega)
    have := hl.2.1
    omega
  | mpReload v p c =>
    obtain ⟨n, hl, hfull⟩ := hat
    refine ⟨n, hl.advance ha hj, fun he => ha.sawFull j hj (hfull ?_)⟩
    have := hl.2.1
    omega
  | mpCopy v p sz n => exact ⟨hat.1, h.holds hj hat.2⟩
  | mpReserved p sz n => exact ⟨hat.1, h.holds hj hat.2⟩
  | mpWritten p n => exact ⟨hat.1, h.holds hj hat.2.1, h.filed hs hi hj hat.2.1 hat.2.2⟩
  | mpWait p sz n => exact ⟨hat.1, h.holds hj hat.2.1, h.filed hs hi hj hat.2.1 hat.2.2⟩
  | mpPublish p sz n =>
    obtain ⟨hp, hh, hf, hn⟩ := hat
    refine ⟨hp, h.holds hj hh, h.filed hs hi hj hh hf, ?_⟩
    have := (h.holds hj hh).2.1
    have := ha.committed
    omega
  | enqueued k ok sz =>
    cases k <;> cases ok <;> first | trivial | exact ha.sawFull j hj hat
  | _ => trivial

omit [DecidableEq ι] in
theorem AtEnqueue.observe {pc : Pc ts} (h : AtEnqueue size i m pc) :
    AtEnqueue size i (m.observe size) pc := by
  have hmono : m.sawFull i = true → (m.observe size).sawFull i = true := by
    intro hf
    simp [Mem.observe, hf]
  cases pc with
  | mpReload v p c =>
    obtain ⟨n, hl, hfull⟩ := h
    exact ⟨n, hl, fun he => hmono (hfull he)⟩
  | enqueued k ok sz =>
    cases k <;> cases ok <;> first | trivial | exact hmono h
  | _ => exact h

omit [DecidableEq ι] in
theorem LoadedHead.now (hi : Inv size m) (hb : m.born i ≤ m.total) :
    LoadedHead m i m.pHead m.claimed :=
  ⟨hi.pHead, le_rfl, by omega⟩

omit [DecidableEq ι] in
/-- A loaded counter that has not wrapped tells whether `p_head` has moved. -/
theorem LoadedHead.eq_claimed {p n : Nat} (hi : Inv size m) (hl : LoadedHead m i p n)
    (ht : m.total < m.born i + 2 ^ 32) (h : m.pHead = p) : n = m.claimed := by
  obtain ⟨hp, hle, hspan⟩ := hl
  rw [hi.pHead, hp] at h
  exact Threads.eq_of_mod_eq hle (by omega) h.symm

omit [DecidableEq ι] in
/-- The number of slots that are taken, as a producer computes it. -/
theorem Inv.taken (hs : IsSize size) (hi : Inv size m) :
    sub32 m.pHead m.cHead = m.claimed - m.consumed := by
  have h1 := hi.core.le
  have h2 := hi.committed_le
  have h3 := hi.claimed_le
  have h4 := hs.le
  rw [hi.pHead, hi.core.cHead]
  exact sub32_of_le (by omega) (by omega)

/-- One access of an enqueue operation. -/
theorem enqueue_act (hs : IsSize size) (hi : Inv size m) {pc : Pc ts}
    (hpc : pc.kind = some (.enqueue .mp)) (hh : ¬ pc.Holding) (ht : m.total < m.born i + 2 ^ 32)
    (hat : AtEnqueue size i m pc) :
    Change size i m (m.act size i pc).1 ∧ AtEnqueue size i (m.act size i pc).1 (m.act size i pc).2 ∧
      (m.act size i pc).2.InEnqueue .mp := by
  cases pc with
  | mpHead v => exact ⟨.stay, ⟨m.claimed, .now hi hat⟩, .inl rfl⟩
  | mpConsumer v p =>
    obtain ⟨n, hl⟩ := hat
    -- if `p_head` has not moved, the difference is the number of slots taken
    have htaken : n = m.claimed → sub32 p m.cHead = m.claimed - m.consumed := by
      intro hn
      rw [hl.1, hn, ← hi.pHead, hi.taken hs]
    have hle := hi.claimed_le
    by_cases hlt : sub32 p m.cHead < size - 1
    · simp only [Mem.act, if_pos hlt]
      refine ⟨.stay, ⟨n, hl, fun hn => ?_⟩, .inl rfl⟩
      rw [htaken hn] at hlt
      omega
    · simp only [Mem.act, if_neg hlt]
      refine ⟨.stay, ⟨n, hl, fun hn => hi.noticed.full ?_ i⟩, .inl rfl⟩
      rw [htaken hn] at hlt
      rw [hi.taken hs]
      omega
  | mpCas v p c =>
    obtain ⟨n, hl, hroom⟩ := hat
    by_cases he : m.pHead = p
    · have hn := hl.eq_claimed hi ht he
      have hch : Change size i m (m.claim i ((p + 1) % 2 ^ 32)) := by
        rw [← he]
        exact .claim (hroom hn)
      have hnew : Holds (m.claim i ((p + 1) % 2 ^ 32)) i m.claimed :=
        ⟨Function.update_self _ _ _, hi.committed_le, Nat.lt_succ_self _⟩
      have hp : p = m.claimed % 2 ^ 32 := by rw [hl.1, hn]
      simp only [Mem.act, if_pos he]
      cases v with
      | none => exact ⟨hch, ⟨hp, hnew⟩, .inl rfl⟩
      | some v => exact ⟨hch, ⟨hp, hnew⟩, .inl rfl⟩
    · simp only [Mem.act, if_neg he]
      have hb := hl.2.2
      exact ⟨.stay, ⟨m.claimed, .now hi (by omega)⟩, .inl rfl⟩
  | mpReload v p c =>
    obtain ⟨n, hl, hfull⟩ := hat
    by_cases he : p = m.pHead
    · simp only [Mem.act, if_pos he]
      exact ⟨.stay, hfull (hl.eq_claimed hi ht he.symm), .inr (.inr ⟨_, _, rfl⟩)⟩
    · simp only [Mem.act, if_neg he]
      have hb := hl.2.2
      exact ⟨.stay, ⟨m.claimed, .now hi (by omega)⟩, .inl rfl⟩
  | mpCopy v p sz n =>
    obtain ⟨hp, hholds⟩ := hat
    have hslot : offset ts size p = offset ts size n := by rw [hp, hs.offset_mod]
    simp only [Mem.act, hslot]
    exact ⟨.copy v hholds, ⟨hp, hholds, Mem.filed_copy size n v m⟩, .inl rfl⟩
  | mpWait p sz n =>
    obtain ⟨hp, hholds, hfiled⟩ := hat
    by_cases he : m.pTail = p
    · simp only [Mem.act, if_pos he]
      refine ⟨.stay, ⟨hp, hholds, hfiled, ?_⟩, .inl rfl⟩
      -- fewer than `size` positions are taken
      have h1 := hi.claimed_le
      have h2 := hi.core.le
      have h3 := hs.le
      obtain ⟨-, hle, hlt⟩ := hholds
      rw [hi.core.pTail, hp] at he
      exact (Threads.eq_of_mod_eq hle (by omega) he).symm
    · simp only [Mem.act, if_neg he]
      exact ⟨.stay, ⟨hp, hholds, hfiled⟩, .inl rfl⟩
  | mpPublish p sz n =>
    obtain ⟨hp, hholds, hfiled, hn⟩ := hat
    have hpt : p = m.pTail := by rw [hp, hn, hi.core.pTail]
    simp only [Mem.act, hpt]
    exact ⟨.publish (hn ▸ hholds) (hn ▸ hfiled), trivial, .inr (.inr ⟨_, _, rfl⟩)⟩
  | mpReserved p sz n => exact absurd trivial hh
  | mpWritten p n => exact absurd trivial hh
  | _ => cases hpc

omit [DecidableEq ι] in
/-- Dequeue operations know nothing about enqueues. -/
theorem atEnqueue_of_dequeue {pc : Pc ts} {k : Consumer} (h : pc.InDequeue k) :
    AtEnqueue size i m pc := by
  rcases h with h | ⟨data, rfl⟩
  · cases pc with
    | deqHead => trivial
    | deqTail => trivial
    | deqCopy => trivial
    | deqStore => trivial
    | _ => cases h
  · trivial

end Changes

/-! ## Runs -/

section Runs

variable {size : Nat}

/-- The assertions outlast a change, for the threads that do not make it. -/
theorem At.change (hs : IsSize size) {i j : ι} {m m' : Mem ts ι} {pc : Pc ts} (hi : Inv size m)
    (h : Change size i m m') (hj : j ≠ i) (hat : At size j m pc) :
    At size j (m'.observe size) pc where
  role := hat.role
  enqueue := (atEnqueue_change hs hi h hj hat.enqueue).observe
  dequeue := by
    refine (Mem.atDequeue_advance h.advance hj (fun hk => ?_) hat.dequeue).observe
    exact absurd rfl (hat.role _ hk).2

/-- What a step of thread `i` does to the ring and to its own knowledge. -/
theorem step_change (hs : IsSize size) {i : ι} {m m' : Mem ts ι} {pc pc' : Pc ts}
    (hstep : Step size may i m pc m' pc') (ht : Timely i m pc) (hi : Inv size m)
    (hat : At size i m pc) :
    ∃ m₁, m' = m₁.observe size ∧ Change size i m m₁ ∧ At size i m' pc' := by
  cases hstep with
  | call c resting allowed =>
    refine ⟨_, rfl, .enter, ?_, ?_, ?_⟩
    · intro k hk
      cases c <;> cases hk <;> exact allowed
    · cases c with
      | enqueueMp v =>
        show Function.update m.born i m.total i ≤ m.total
        rw [Function.update_self]
      | _ => trivial
    · cases c with
      | dequeue k =>
        show Function.update m.born i m.total i ≤ m.total
        rw [Function.update_self]
      | _ => trivial
  | writeSp v => exact absurd rfl (hat.role _ rfl).1
  | @writeMp producer taken ticket v =>
    obtain ⟨hp, hholds⟩ := hat.enqueue
    have hslot : offset ts size producer = offset ts size ticket := by rw [hp, hs.offset_mod]
    rw [hslot]
    exact ⟨_, rfl, .copy v hholds, hat.role, ⟨hp, hholds, Mem.filed_copy size ticket v m⟩, trivial⟩
  | commitSp => exact absurd rfl (hat.role _ rfl).1
  | commitMp => exact ⟨_, rfl, .enter, hat.role, hat.enqueue, trivial⟩
  | act running =>
    have ht' := ht running.1 running.2
    obtain ⟨k, hk⟩ := Pc.kind_of_running running.1
    cases k with
    | enqueue k =>
      cases k with
      | sp => exact absurd rfl (hat.role _ hk).1
      | mp =>
        obtain ⟨hch, hat', hkind⟩ := enqueue_act hs hi hk running.2 ht' hat.enqueue
        refine ⟨_, rfl, hch, fun k' hk' => ?_, hat'.observe,
          (Mem.atDequeue_of_enqueue hkind).observe⟩
        rcases hkind with h | h | ⟨ok, sz, h⟩
        · rw [h] at hk'
          cases hk'
          exact ⟨nofun, nofun⟩
        · rw [h] at hk'; cases hk'
        · rw [h] at hk'; cases hk'
    | dequeue k =>
      obtain ⟨htk, hat', hkind⟩ :=
        Mem.dequeue_act hs hi.core hi.noticed hk (fun _ => ht') hat.dequeue
      refine ⟨_, rfl, .take htk, fun k' hk' => ?_, (atEnqueue_of_dequeue hkind).observe,
        hat'.observe⟩
      rcases hkind with h | ⟨data, h⟩
      · rw [h] at hk'
        cases hk'
        exact hat.role _ hk
      · rw [h] at hk'; cases hk'

theorem invariant (hs : IsSize size) :
    Invariant (Step size may : ι → Mem ts ι → Pc ts → Mem ts ι → Pc ts → Prop) Timely (Inv size)
      (At size) where
  own hstep ht hi hat := by
    obtain ⟨m₁, rfl, hch, hat'⟩ := step_change hs hstep ht hi hat
    exact ⟨hch.inv hs hi, hat'⟩
  other hstep ht hi hat := by
    intro j q hj hq
    obtain ⟨m₁, rfl, hch, -⟩ := step_change hs hstep ht hi hat
    exact hq.change hs hi hch hj

omit [DecidableEq ι] in
theorem init_inv (bytes : Nat → Byte) : Inv size (init bytes : Mem ts ι) := by
  refine ⟨⟨rfl, rfl, le_rfl, Nat.zero_le _, fun n _ hn => absurd hn (Nat.not_lt_zero n),
    fun _ => rfl⟩, rfl, le_rfl, Nat.zero_le _, fun _ _ => rfl, fun _ _ => rfl, fun _ _ => rfl⟩

theorem reachable_inv (hs : IsSize size) {bytes : Nat → Byte} {s : System (Mem ts ι) (Pc ts) ι}
    (hr : System.Reachable (Step size may) Timely (start bytes) s) :
    Inv size s.mem ∧ ∀ i, Timely i s.mem (s.pc i) ∧ At size i s.mem (s.pc i) :=
  (invariant hs).reachable hr (fun _ h => absurd trivial h) (init_inv bytes)
    (fun _ => ⟨fun _ h => (by cases h), trivial, trivial⟩)

/-- The values of the claimed positions in the order of the tickets, as far as they have been
copied into the ring. -/
def tickets (m : Mem ts ι) : List (Option (Value ts)) := (List.range m.claimed).map m.log

/-- What holds of the ring at every moment. -/
structure Fifo (size : Nat) (s : System (Mem ts ι) (Pc ts) ι) : Prop where
  /-- What has been dequeued is what was enqueued first. -/
  in_order : s.mem.dequeued.map some <+: tickets s.mem
  /-- `c_head`, `p_tail` and `p_head` are in this order and within one turn of the ring. -/
  tail_le : sub32 s.mem.pTail s.mem.cHead ≤ sub32 s.mem.pHead s.mem.cHead
  head_le : sub32 s.mem.pHead s.mem.cHead ≤ size - 1
  /-- A committed value stays in its slot until it is consumed. -/
  kept : ∀ n, s.mem.consumed ≤ n → n < s.mem.committed →
    s.mem.log n = some (s.mem.read (offset ts size n))
  /-- An enqueue has failed only if the ring was full at some moment of the call. -/
  full : ∀ i taken, s.pc i = .enqueued .mp false taken → s.mem.sawFull i = true
  /-- A dequeue has failed only if the ring was empty at some moment of the call. -/
  empty : ∀ i, s.pc i = .dequeued .mc none → s.mem.sawEmpty i = true

/-- A thread that makes the next access of its call, early in a run. -/
theorem act_reachable {bytes : Nat → Byte} {s : System (Mem ts ι) (Pc ts) ι}
    (hr : System.Reachable (Step size may) Timely (start bytes) s) (i : ι)
    (running : ¬ (s.pc i).Resting ∧ ¬ (s.pc i).Holding)
    (early : (s.mem.act size i (s.pc i)).1.total < 2 ^ 32) :
    System.Reachable (Step size may) Timely (start bytes)
      ⟨(s.mem.act size i (s.pc i)).1.observe size,
        Function.update s.pc i (s.mem.act size i (s.pc i)).2⟩ :=
  hr.extend i (.act running) fun _ _ _ => Nat.lt_of_lt_of_le early (Nat.le_add_left _ _)

end Runs

section Wrapped

variable {size n : Nat} {m m' : Mem ts Unit} {pc pc' : Pc ts} {value : Nat → Value ts}

/-- A single thread comes here. -/
def Reaches (size : Nat) (m : Mem ts Unit) (pc : Pc ts) : Prop :=
  System.Reachable (Step size may) Timely (start fun _ => 0) ⟨m, fun _ => pc⟩

theorem Reaches.step (h : Reaches size m pc) (hstep : Step size may () m pc m' pc')
    (early : m'.total < 2 ^ 32) : Reaches size m' pc' := by
  have hpc : Function.update (fun _ : Unit => pc) () pc' = fun _ => pc' :=
    funext fun _ => Function.update_self _ _ _
  have hnext := h.extend () hstep fun _ _ _ => Nat.lt_of_lt_of_le early (Nat.le_add_left _ _)
  rw [hpc] at hnext
  exact hnext

/-- The next access of the thread. -/
theorem Reaches.act (h : Reaches size m pc) (running : ¬ pc.Resting ∧ ¬ pc.Holding)
    (hact : m.act size () pc = (m', pc')) (early : m'.total < 2 ^ 32) :
    Reaches size (m'.observe size) pc' := by
  have hstep : Step size may () m pc _ _ := .act running
  rw [hact] at hstep
  exact h.step hstep early

/-- The thread has come here, and the ring is as it was. -/
structure Reads (size : Nat) (m m' : Mem ts Unit) (pc : Pc ts) : Prop where
  reaches : Reaches size m' pc
  cHead : m'.cHead = m.cHead
  pTail : m'.pTail = m.pTail
  pHead : m'.pHead = m.pHead
  bytes : m'.bytes = m.bytes
  consumed : m'.consumed = m.consumed
  committed : m'.committed = m.committed
  claimed : m'.claimed = m.claimed
  log : m'.log = m.log
  dequeued : m'.dequeued = m.dequeued

theorem Reads.total (h : Reads size m m' pc) : m'.total = m.total := by
  unfold Mem.total
  rw [h.consumed, h.committed, h.claimed]

theorem Reads.read (h : Reads size m m' pc) (slot : Nat) : m'.read slot = m.read slot := by
  unfold Mem.read
  rw [h.bytes]

theorem Reads.call (h : Reaches size m pc) (rest : pc.Resting) (c : Call ts)
    (allowed : may () c.kind) (early : m.total < 2 ^ 32) :
    Reads size m ((m.begin ()).observe size) c.entry :=
  ⟨h.step (.call c rest allowed) early, rfl, rfl, rfl, rfl, rfl, rfl, rfl, rfl, rfl⟩

theorem Reads.act (h : Reads size m m' pc) (running : ¬ pc.Resting ∧ ¬ pc.Holding)
    (hact : m'.act size () pc = (m', pc')) (early : m.total < 2 ^ 32) :
    Reads size m (m'.observe size) pc' :=
  ⟨h.reaches.act running hact (h.total ▸ early), h.cHead, h.pTail, h.pHead, h.bytes, h.consumed,
    h.committed, h.claimed, h.log, h.dequeued⟩

/-- A producer that claims a position while there is room. -/
theorem Reaches.claim (h : Reaches size m pc) (rest : pc.Resting) (v : Value ts)
    (room : sub32 m.pHead m.cHead < size - 1) (early : m.total + 1 < 2 ^ 32) :
    ∃ m' taken, Reaches size m' (.mpCopy v m.pHead taken m.claimed) ∧
      m'.cHead = m.cHead ∧ m'.pTail = m.pTail ∧ m'.pHead = (m.pHead + 1) % 2 ^ 32 ∧
      m'.total = m.total + 1 ∧ m'.consumed = m.consumed ∧ m'.committed = m.committed ∧
      m'.claimed = m.claimed + 1 ∧ m'.dequeued = m.dequeued ∧ m'.log = m.log := by
  have go : ¬ False ∧ ¬ False := ⟨id, id⟩
  have hlt : m.total < 2 ^ 32 := by omega
  have h₁ := Reads.call h rest (.enqueueMp (some v)) ⟨nofun, nofun⟩ hlt
  generalize (m.begin ()).observe size = m₁ at h₁
  have h₂ := h₁.act go rfl hlt
  generalize m₁.observe size = m₂ at h₂
  have h₃ := h₂.act go (if_pos (by rw [h₁.pHead, h₂.cHead]; exact room)) hlt
  generalize m₂.observe size = m₃ at h₃
  have htotal := h₃.total
  have h₄ := h₃.reaches.act go (if_pos (by rw [h₃.pHead, h₁.pHead]))
    (by rw [Mem.total_claim, htotal]; exact early)
  rw [h₁.pHead, h₃.claimed] at h₄
  refine ⟨_, _, h₄, ?_⟩
  rw [Mem.total_observe, Mem.total_claim, htotal]
  simp only [Mem.observe, Mem.claim, h₃.cHead, h₃.pTail, h₃.consumed, h₃.committed, h₃.claimed,
    h₃.dequeued, h₃.log, and_self]

/-- A producer that copies its value when its turn to publish has come. -/
theorem Reaches.publish {v : Value ts} {p taken ticket : Nat}
    (h : Reaches size m (.mpCopy v p taken ticket)) (turn : m.pTail = p)
    (early : m.total + 1 < 2 ^ 32) :
    ∃ m', Reaches size m' (.enqueued .mp true taken) ∧ m'.cHead = m.cHead ∧
      m'.pTail = (p + 1) % 2 ^ 32 ∧ m'.pHead = m.pHead ∧ m'.consumed = m.consumed ∧
      m'.committed = m.committed + 1 ∧ m'.claimed = m.claimed ∧ m'.dequeued = m.dequeued ∧
      m'.log = Function.update m.log ticket (some v) ∧ m'.read (offset ts size p) = v := by
  have go : ¬ False ∧ ¬ False := ⟨id, id⟩
  have h₁ : Reaches size ((m.copy (offset ts size p) ticket v).observe size)
      (.mpWait p taken ticket) := h.act go rfl (Nat.lt_of_succ_lt early)
  have h₂ := h₁.act go (if_pos turn) (Nat.lt_of_succ_lt early)
  have h₃ := h₂.act go rfl (by rw [Mem.total_storeTail]; exact early)
  refine ⟨_, h₃, ?_⟩
  have hread := Mem.read_copy (offset ts size p) ticket v m
  simp only [Mem.observe, Mem.storeTail, Mem.copy, true_and] at hread ⊢
  exact hread

/-- A consumer that takes the next value. -/
theorem Reaches.dequeue (h : Reaches size m pc) (rest : pc.Resting) (some_value : m.cHead ≠ m.pTail)
    (early : m.total + 1 < 2 ^ 32) :
    ∃ m' pc', Reaches size m' pc' ∧ m'.claimed = m.claimed ∧ m'.log = m.log ∧
      m'.dequeued = m.dequeued ++ [m.read (offset ts size m.cHead)] := by
  have go : ¬ False ∧ ¬ False := ⟨id, id⟩
  have hlt : m.total < 2 ^ 32 := by omega
  have h₁ := Reads.call h rest (.dequeue .mc) ⟨nofun, nofun⟩ hlt
  generalize (m.begin ()).observe size = m₁ at h₁
  have h₂ := h₁.act go rfl hlt
  generalize m₁.observe size = m₂ at h₂
  have h₃ := h₂.act go (if_neg (by rw [h₁.cHead, h₂.pTail]; exact some_value)) hlt
  generalize m₂.observe size = m₃ at h₃
  have h₄ := h₃.act go rfl hlt
  rw [h₃.read, h₁.cHead] at h₄
  generalize m₃.observe size = m₄ at h₄
  have h₅ := h₄.reaches.act go (if_pos h₄.cHead)
    (by rw [Mem.total_storeHead, h₄.total]; exact early)
  refine ⟨_, _, h₅, ?_⟩
  simp only [Mem.observe, Mem.storeHead, h₄.claimed, h₄.log, h₄.dequeued, and_self]

/-- `n` values have been enqueued and none has been dequeued. -/
structure Filled (size n : Nat) (value : Nat → Value ts) (m : Mem ts Unit) : Prop where
  cHead : m.cHead = 0
  pTail : m.pTail = n
  pHead : m.pHead = n
  consumed : m.consumed = 0
  committed : m.committed = n
  claimed : m.claimed = n
  dequeued : m.dequeued = []
  first : 0 < n → m.log 0 = some (value 0)
  last : 0 < n → m.read (offset ts size (n - 1)) = value (n - 1)

theorem Filled.total (hf : Filled size n value m) : m.total = n + n := by
  unfold Mem.total
  rw [hf.consumed, hf.committed, hf.claimed, Nat.zero_add]

/-- One more value. -/
theorem Filled.next (hf : Filled size n value m) (h : Reaches size m pc) (rest : pc.Resting)
    (hn : n < size - 1) (hsize : size ≤ 2 ^ 31) :
    ∃ m' pc', Reaches size m' pc' ∧ pc'.Resting ∧ Filled size (n + 1) value m' := by
  have htotal := hf.total
  have hroom : sub32 m.pHead m.cHead < size - 1 := by
    rw [hf.pHead, hf.cHead]
    unfold sub32
    omega
  obtain ⟨m₁, taken, h₁, hc₁, ht₁, hp₁, htotal₁, hcons₁, hcomm₁, hcl₁, hd₁, hl₁⟩ :=
    h.claim rest (value n) hroom (by omega)
  have hturn : m₁.pTail = m.pHead := by rw [ht₁, hf.pTail, hf.pHead]
  obtain ⟨m₂, h₂, hc₂, ht₂, hp₂, hcons₂, hcomm₂, hcl₂, hd₂, hl₂, hr₂⟩ :=
    h₁.publish hturn (by omega)
  have hpHead := hf.pHead
  refine ⟨m₂, _, h₂, trivial, ⟨?_, ?_, ?_, ?_, ?_, ?_, ?_, fun _ => ?_, fun _ => ?_⟩⟩
  · rw [hc₂, hc₁, hf.cHead]
  · omega
  · omega
  · rw [hcons₂, hcons₁, hf.consumed]
  · rw [hcomm₂, hcomm₁, hf.committed]
  · rw [hcl₂, hcl₁, hf.claimed]
  · rw [hd₂, hd₁, hf.dequeued]
  · rw [hl₂, hl₁, hf.claimed]
    rcases Nat.eq_zero_or_pos n with rfl | hpos
    · exact Function.update_self _ _ _
    · rw [Function.update_of_ne (by omega)]
      exact hf.first hpos
  · rw [hpHead] at hr₂
    exact hr₂

theorem filled_all (hsize : size ≤ 2 ^ 31) (value : Nat → Value ts) (hn : n ≤ size - 1) :
    ∃ m pc, Reaches size m pc ∧ pc.Resting ∧ Filled size n value m := by
  induction n with
  | zero =>
    exact ⟨init fun _ => 0, .idle, .refl, trivial,
      ⟨rfl, rfl, rfl, rfl, rfl, rfl, rfl, fun h => absurd h (lt_irrefl 0),
        fun h => absurd h (lt_irrefl 0)⟩⟩
  | succ n ih =>
    obtain ⟨m, pc, h, rest, hf⟩ := ih (by omega)
    exact hf.next h rest (by omega) hsize

/-- The last value has been copied over the first one. -/
theorem Filled.not_prefix (hf : Filled size (n + 1) value m) (h : Reaches size m pc)
    (rest : pc.Resting) (hn : n + 1 < 2 ^ 31) (wraps : offset ts size n = 0)
    (hne : value n ≠ value 0) :
    ∃ (m' : Mem ts Unit) (pc' : Pc ts), Reaches size m' pc' ∧
      ¬ m'.dequeued.map some <+: tickets m' := by
  have htotal := hf.total
  obtain ⟨m', pc', h', hclaimed, hlog, hdequeued⟩ := h.dequeue rest
    (by rw [hf.cHead, hf.pTail]; exact (Nat.succ_ne_zero n).symm) (by omega)
  refine ⟨m', pc', h', fun hprefix => ?_⟩
  have hread : m.read (offset ts size m.cHead) = value n := by
    have hlast := hf.last (Nat.succ_pos n)
    rw [Nat.add_sub_cancel, wraps] at hlast
    rw [hf.cHead, offset, Nat.zero_mod, Nat.mul_zero, Nat.zero_mod]
    exact hlast
  rw [tickets, hdequeued, hf.dequeued, hread, hclaimed, hf.claimed, hlog, List.range_succ_eq_map,
    List.map_cons, hf.first (Nat.succ_pos n)] at hprefix
  exact hne (Option.some.inj (List.cons_prefix_cons.mp hprefix).1)

end Wrapped

end ConcurrencyKit.Ring.Multi
