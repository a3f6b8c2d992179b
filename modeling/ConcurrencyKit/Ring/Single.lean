import ConcurrencyKit.Ring.Invariant

/-!
# Rings with a single producer

The producer decides whether there is room from a stale `c_head` and from masked counters; it
is right because `c_head` only moves away from it. `Change` says what a step can do to the
ring: write to the slot behind the last value while there is room, publish that slot, or take
the value at `c_head`. The consumers are those of `Ring.Invariant`: either one that stores
`c_head`, or any number that compare and swap it.

A compare-and-swap cannot tell a counter from itself after a full turn, so the consumers that
use one are followed only while their calls span fewer than `2 ^ 32` increments.
-/

namespace ConcurrencyKit.Ring.Single

open Threads (Invariant System)

variable {ts : Nat} {ι : Type}

/-- One producer, and either one consumer or consumers that do not use `_ck_ring_dequeue_sc`. -/
structure Roles (may : ι → Kind → Prop) : Prop where
  single : ∀ i, ¬ may i (.enqueue .mp)
  producer : ∀ i j, may i (.enqueue .sp) → may j (.enqueue .sp) → i = j
  consumer : ∀ i j k, may i (.dequeue .sc) → may j (.dequeue k) → i = j

/-- No call of `_ck_ring_dequeue_mc` or `_ck_ring_trydequeue_mc` spans `2 ^ 32` or more
increments of counters. -/
def Timely (i : ι) (m : Mem ts ι) (pc : Pc ts) : Prop :=
  ∀ k, pc.kind = some (.dequeue k) → k ≠ .sc → m.total < m.born i + 2 ^ 32

/-- The slot behind the last value is free. -/
def Room (size : Nat) (m : Mem ts ι) : Prop := m.committed < m.consumed + (size - 1)

/-- The invariant of the ring. -/
structure Inv (size : Nat) (m : Mem ts ι) : Prop where
  core : m.Core size
  noticed : m.Noticed size

/-- What the producer knows in an enqueue operation. -/
def AtEnqueue (size : Nat) (i : ι) (m : Mem ts ι) : Pc ts → Prop
  | .spProducer _ c => ∃ n, c = n % 2 ^ 32 ∧ n ≤ m.consumed ∧ n ≤ m.committed ∧
      m.committed ≤ n + (size - 1) ∧ (m.committed = n + (size - 1) → m.sawFilled i = true)
  | .spCopy _ p _ => p = m.committed % 2 ^ 32 ∧ Room size m
  | .spStore p _ | .spCommitStore p =>
    p = m.committed % 2 ^ 32 ∧ Room size m ∧ m.Filed size m.committed
  | .spReserved slot _ => slot = offset ts size m.committed ∧ Room size m
  | .spWritten | .spCommit => Room size m ∧ m.Filed size m.committed
  | .enqueued .sp false _ => m.sawFilled i = true
  | _ => True

/-- What thread `i` knows. -/
structure At (may : ι → Kind → Prop) (size : Nat) (i : ι) (m : Mem ts ι) (pc : Pc ts) : Prop where
  role : ∀ k, pc.kind = some k → may i k
  enqueue : AtEnqueue size i m pc
  dequeue : Mem.AtDequeue size i m pc

variable [DecidableEq ι]

/-- What a step of thread `i` can do to the ring. -/
inductive Change (may : ι → Kind → Prop) (size : Nat) (i : ι) (m : Mem ts ι) : Mem ts ι → Prop
  | stay : Change may size i m m
  | enter : Change may size i m (m.begin i)
  | take {m' : Mem ts ι} {k : Consumer} (role : may i (.dequeue k)) (h : Mem.Takes size m m') :
      Change may size i m m'
  | copy (v : Value ts) (role : may i (.enqueue .sp)) (room : Room size m) :
      Change may size i m (m.copy (offset ts size m.committed) m.committed v)
  | publish (role : may i (.enqueue .sp)) (room : Room size m)
      (filed : m.Filed size m.committed) :
      Change may size i m (m.storeTail ((m.pTail + 1) % 2 ^ 32))

section Changes

variable {may : ι → Kind → Prop} {size : Nat} {i j : ι} {m m' : Mem ts ι}

omit [DecidableEq ι] in
/-- The free slot is none of those that hold a value. -/
theorem Room.slot_ne (hr : Room size m) {n : Nat} (h : m.consumed ≤ n) (h' : n < m.committed) :
    n % size ≠ m.committed % size := by
  unfold Room at hr
  exact mod_ne_of_lt h' (by omega)

theorem Change.core (hs : IsSize size) (hc : m.Core size) (h : Change may size i m m') :
    m'.Core size := by
  cases h with
  | stay => exact hc
  | enter => exact hc.begin
  | take role h => exact h.core hc
  | copy v role room =>
    refine ⟨hc.cHead, hc.pTail, hc.le, hc.lt, fun n h1 h2 => ?_, fun hslots => ?_⟩
    · exact (hc.slots n h1 h2).copy hs (room.slot_ne h1 h2) v
    · show m.dequeued.map some =
        (List.range m.consumed).map (Function.update m.log m.committed (some v))
      rw [hc.dequeued hslots]
      apply List.map_congr_left
      intro n hn
      have := List.mem_range.mp hn
      have := hc.le
      rw [Function.update_of_ne (by omega)]
  | publish role room filed =>
    refine ⟨hc.cHead, ?_, hc.le.trans (Nat.le_succ _), room, fun n h1 h2 => ?_, hc.dequeued⟩
    · show (m.pTail + 1) % 2 ^ 32 = (m.committed + 1) % 2 ^ 32
      rw [hc.pTail]
      omega
    · have h2' : n < m.committed + 1 := h2
      rcases Nat.lt_succ_iff_lt_or_eq.mp h2' with hn | rfl
      · exact hc.slots n h1 hn
      · exact filed

theorem Change.inv (hs : IsSize size) (hi : Inv size m) (h : Change may size i m m') :
    Inv size (m'.observe size) :=
  ⟨(h.core hs hi.core).observe, Mem.observe_noticed m'⟩

theorem Change.advance (h : Change may size i m m') : Mem.Advance i m m' := by
  cases h with
  | stay => exact .refl i m
  | enter => exact Mem.advance_begin
  | take role h => exact h.advance
  | copy v role room =>
    refine ⟨le_rfl, le_rfl, le_rfl, fun n hn => ?_, fun _ _ => rfl, fun _ _ h => h,
      fun _ _ h => h, fun _ _ h => h⟩
    exact Function.update_of_ne (by omega) _ _
  | publish role room filed =>
    exact ⟨le_rfl, Nat.le_succ _, le_rfl, fun _ _ => rfl, fun _ _ => rfl, fun _ _ h => h,
      fun _ _ h => h, fun _ _ h => h⟩

/-- What the producer sees of a step of another thread: only `c_head` moves. -/
theorem Change.frame (h : Change may size i m m') (hr : ¬ may i (.enqueue .sp)) :
    m'.committed = m.committed ∧ m'.log = m.log ∧ m'.bytes = m.bytes := by
  cases h with
  | stay => exact ⟨rfl, rfl, rfl⟩
  | enter => exact ⟨rfl, rfl, rfl⟩
  | take role h =>
    rcases h with rfl | ⟨data, -, -, rfl⟩
    · exact ⟨rfl, rfl, rfl⟩
    · exact ⟨rfl, rfl, rfl⟩
  | copy v role room => exact absurd role hr
  | publish role room filed => exact absurd role hr

/-- A step of a thread that may not dequeue leaves `c_head` alone. -/
theorem Change.consumed (h : Change may size i m m') (hr : ∀ k, ¬ may i (.dequeue k)) :
    m'.consumed = m.consumed := by
  cases h with
  | take role h => exact absurd role (hr _)
  | stay => rfl
  | enter => rfl
  | copy v role room => rfl
  | publish role room filed => rfl

/-- What the producer knows outlasts the steps of the other threads. -/
theorem atEnqueue_change (h : Change may size i m m') (hj : j ≠ i) {pc : Pc ts}
    (hr : pc.kind = some (.enqueue .sp) → ¬ may i (.enqueue .sp)) (hat : AtEnqueue size j m pc) :
    AtEnqueue size j m' pc := by
  have ha := h.advance
  have h1 := ha.consumed
  have hroom : ¬ may i (.enqueue .sp) → Room size m → Room size m' := by
    intro hr hroom
    unfold Room at hroom ⊢
    rw [(h.frame hr).1]
    omega
  have hfiled : ¬ may i (.enqueue .sp) → m.Filed size m.committed →
      m'.Filed size m'.committed := by
    intro hr hf hslots
    obtain ⟨hc, hl, hb⟩ := h.frame hr
    unfold Mem.read
    rw [hc, hl, hb]
    exact hf hslots
  cases pc with
  | spProducer v c =>
    obtain ⟨n, hc, hle, hle', hlt, hfull⟩ := hat
    have hcm := (h.frame (hr rfl)).1
    exact ⟨n, hc, by omega, by omega, by omega, fun he => ha.sawFilled j hj (hfull (by omega))⟩
  | spCopy v p sz =>
    exact ⟨by rw [(h.frame (hr rfl)).1]; exact hat.1, hroom (hr rfl) hat.2⟩
  | spReserved slot sz =>
    exact ⟨by rw [(h.frame (hr rfl)).1]; exact hat.1, hroom (hr rfl) hat.2⟩
  | spStore p sz =>
    exact ⟨by rw [(h.frame (hr rfl)).1]; exact hat.1, hroom (hr rfl) hat.2.1,
      hfiled (hr rfl) hat.2.2⟩
  | spCommitStore p =>
    exact ⟨by rw [(h.frame (hr rfl)).1]; exact hat.1, hroom (hr rfl) hat.2.1,
      hfiled (hr rfl) hat.2.2⟩
  | spWritten => exact ⟨hroom (hr rfl) hat.1, hfiled (hr rfl) hat.2⟩
  | spCommit => exact ⟨hroom (hr rfl) hat.1, hfiled (hr rfl) hat.2⟩
  | enqueued k ok sz =>
    cases k <;> cases ok <;> first | trivial | exact ha.sawFilled j hj hat
  | _ => trivial

omit [DecidableEq ι] in
theorem AtEnqueue.observe {pc : Pc ts} (h : AtEnqueue size i m pc) :
    AtEnqueue size i (m.observe size) pc := by
  have hmono : m.sawFilled i = true → (m.observe size).sawFilled i = true := by
    intro hf
    simp [Mem.observe, hf]
  cases pc with
  | spProducer v c =>
    obtain ⟨n, hc, hle, hle', hlt, hfull⟩ := h
    exact ⟨n, hc, hle, hle', hlt, fun he => hmono (hfull he)⟩
  | enqueued k ok sz =>
    cases k <;> cases ok <;> first | trivial | exact hmono h
  | _ => exact h

/-- One access of an enqueue operation. -/
theorem enqueue_act (hs : IsSize size) (hi : Inv size m) {pc : Pc ts}
    (hpc : pc.kind = some (.enqueue .sp)) (hh : ¬ pc.Holding) (role : may i (.enqueue .sp))
    (hat : AtEnqueue size i m pc) :
    Change may size i m (m.act size i pc).1 ∧
      AtEnqueue size i (m.act size i pc).1 (m.act size i pc).2 ∧
      (m.act size i pc).2.InEnqueue .sp := by
  have hle := hi.core.le
  have hlt := hi.core.lt
  have hsize := hs.le
  cases pc with
  | spConsumer v =>
    refine ⟨.stay, ⟨m.consumed, hi.core.cHead, le_rfl, hle, hlt, fun he => ?_⟩, .inl rfl⟩
    refine hi.noticed.filled ?_ i
    have he' : m.committed = m.consumed + (size - 1) := he
    rw [hi.core.pTail, hi.core.cHead, sub32_of_le hle (by omega)]
    omega
  | spProducer v c =>
    obtain ⟨n, hc, hn, hn', hlt', hfull⟩ := hat
    have hmask : (m.pTail + 1) % 2 ^ 32 % size = (m.committed + 1) % size := by
      rw [hs.mod_mod, hi.core.pTail, Nat.add_mod, hs.mod_mod, ← Nat.add_mod]
    have hmask' : c % size = n % size := by rw [hc, hs.mod_mod]
    by_cases he : (m.pTail + 1) % 2 ^ 32 % size = c % size
    · simp only [Mem.act, if_pos he]
      refine ⟨.stay, hfull ?_, .inr (.inr ⟨_, _, rfl⟩)⟩
      -- closer positions would be in different slots
      rw [hmask, hmask'] at he
      by_contra hne
      exact mod_ne_of_lt (by omega) (by have := hs.pos; omega) he.symm
    · have hroom : Room size m := by
        unfold Room
        by_contra hge
        have heq : m.committed + 1 = n + size := by
          have := hs.pos
          omega
        refine he ?_
        rw [hmask, hmask', heq, Nat.add_mod_right]
      simp only [Mem.act, if_neg he]
      cases v with
      | none =>
        refine ⟨.stay, ⟨?_, hroom⟩, .inl rfl⟩
        rw [hi.core.pTail, hs.offset_mod]
      | some v => exact ⟨.stay, ⟨hi.core.pTail, hroom⟩, .inl rfl⟩
  | spCopy v p sz =>
    obtain ⟨hp, hroom⟩ := hat
    have hslot : offset ts size p = offset ts size m.committed := by rw [hp, hs.offset_mod]
    simp only [Mem.act, hslot]
    exact ⟨.copy v role hroom, ⟨hp, hroom, Mem.filed_copy size m.committed v m⟩, .inl rfl⟩
  | spStore p sz =>
    obtain ⟨hp, hroom, hfiled⟩ := hat
    have hpt : p = m.pTail := by rw [hp, hi.core.pTail]
    simp only [Mem.act, hpt]
    exact ⟨.publish role hroom hfiled, trivial, .inr (.inr ⟨_, _, rfl⟩)⟩
  | spCommit => exact ⟨.stay, ⟨hi.core.pTail, hat.1, hat.2⟩, .inl rfl⟩
  | spCommitStore p =>
    obtain ⟨hp, hroom, hfiled⟩ := hat
    have hpt : p = m.pTail := by rw [hp, hi.core.pTail]
    simp only [Mem.act, hpt]
    exact ⟨.publish role hroom hfiled, trivial, .inr (.inl rfl)⟩
  | spReserved slot sz => exact absurd trivial hh
  | spWritten => exact absurd trivial hh
  | _ => cases hpc

omit [DecidableEq ι] in
/-- Dequeue operations know nothing about enqueues. -/
theorem atEnqueue_of_dequeue {pc : Pc ts} {k : Consumer} (h : pc.InDequeue k) :
    AtEnqueue size i m pc := by
  rcases h with h | ⟨data, rfl⟩
  · cases pc with
    | deqHead => trivial
    | deqTail => trivial
    | deqCopy => trivial
    | deqStore => trivial
    | _ => cases h
  · trivial

end Changes

/-! ## Runs -/

section Runs

variable {may : ι → Kind → Prop} {size : Nat}

/-- The assertions outlast a change, for the threads that do not make it. -/
theorem At.change (roles : Roles may) {i j : ι} {m m' : Mem ts ι} {pc : Pc ts}
    (h : Change may size i m m') (hj : j ≠ i) (hat : At may size j m pc) :
    At may size j (m'.observe size) pc where
  role := hat.role
  enqueue := by
    refine (atEnqueue_change h hj (fun hk hi => ?_) hat.enqueue).observe
    exact hj (roles.producer j i (hat.role _ hk) hi)
  dequeue := by
    refine (Mem.atDequeue_advance h.advance hj (fun hk => h.consumed fun k hi => ?_)
      hat.dequeue).observe
    exact hj (roles.consumer j i k (hat.role _ hk) hi)

/-- What a step of thread `i` does to the ring and to its own knowledge. -/
theorem step_change (hs : IsSize size) (roles : Roles may) {i : ι} {m m' : Mem ts ι}
    {pc pc' : Pc ts} (hstep : Step size may i m pc m' pc') (ht : Timely i m pc) (hi : Inv size m)
    (hat : At may size i m pc) :
    ∃ m₁, m' = m₁.observe size ∧ Change may size i m m₁ ∧ At may size i m' pc' := by
  cases hstep with
  | call c resting allowed =>
    refine ⟨_, rfl, .enter, ?_, ?_, ?_⟩
    · intro k hk
      cases c <;> cases hk <;> exact allowed
    · cases c <;> trivial
    · cases c with
      | dequeue k =>
        show Function.update m.born i m.total i ≤ m.total
        rw [Function.update_self]
      | _ => trivial
  | @writeSp slot taken v =>
    obtain ⟨rfl, hroom⟩ := hat.enqueue
    exact ⟨_, rfl, .copy v (hat.role _ rfl) hroom, hat.role,
      ⟨hroom, Mem.filed_copy size m.committed v m⟩, trivial⟩
  | writeMp v => exact absurd (hat.role _ rfl) (roles.single i)
  | commitSp => exact ⟨_, rfl, .enter, hat.role, hat.enqueue, trivial⟩
  | commitMp => exact absurd (hat.role _ rfl) (roles.single i)
  | act running =>
    obtain ⟨k, hk⟩ := Pc.kind_of_running running.1
    cases k with
    | enqueue k =>
      cases k with
      | mp => exact absurd (hat.role _ hk) (roles.single i)
      | sp =>
        have hrole := hat.role _ hk
        obtain ⟨hch, hat', hkind⟩ := enqueue_act hs hi hk running.2 hrole hat.enqueue
        refine ⟨_, rfl, hch, fun k' hk' => ?_, hat'.observe,
          (Mem.atDequeue_of_enqueue hkind).observe⟩
        rcases hkind with h | h | ⟨ok, sz, h⟩
        · rw [h] at hk'
          cases hk'
          exact hrole
        · rw [h] at hk'; cases hk'
        · rw [h] at hk'; cases hk'
    | dequeue k =>
      have hrole := hat.role _ hk
      obtain ⟨htk, hat', hkind⟩ :=
        Mem.dequeue_act hs hi.core hi.noticed hk (fun h => ht k hk h) hat.dequeue
      refine ⟨_, rfl, .take hrole htk, fun k' hk' => ?_, (atEnqueue_of_dequeue hkind).observe,
        hat'.observe⟩
      rcases hkind with h | ⟨data, h⟩
      · rw [h] at hk'
        cases hk'
        exact hrole
      · rw [h] at hk'; cases hk'

theorem invariant (hs : IsSize size) (roles : Roles may) :
    Invariant (Step size may : ι → Mem ts ι → Pc ts → Mem ts ι → Pc ts → Prop) Timely (Inv size)
      (At may size) where
  own hstep ht hi hat := by
    obtain ⟨m₁, rfl, hch, hat'⟩ := step_change hs roles hstep ht hi hat
    exact ⟨hch.inv hs hi, hat'⟩
  other hstep ht hi hat := by
    intro j q hj hq
    obtain ⟨m₁, rfl, hch, -⟩ := step_change hs roles hstep ht hi hat
    exact hq.change roles hch hj

omit [DecidableEq ι] in
theorem init_inv (bytes : Nat → Byte) : Inv size (init bytes : Mem ts ι) :=
  ⟨⟨rfl, rfl, le_rfl, Nat.zero_le _, fun n _ hn => absurd hn (Nat.not_lt_zero n), fun _ => rfl⟩,
    fun _ _ => rfl, fun _ _ => rfl, fun _ _ => rfl⟩

theorem reachable_inv (hs : IsSize size) (roles : Roles may) {bytes : Nat → Byte}
    {s : System (Mem ts ι) (Pc ts) ι}
    (hr : System.Reachable (Step size may) Timely (start bytes) s) :
    Inv size s.mem ∧ ∀ i, Timely i s.mem (s.pc i) ∧ At may size i s.mem (s.pc i) :=
  (invariant hs roles).reachable hr (fun _ _ h => by cases h) (init_inv bytes)
    (fun _ => ⟨nofun, trivial, trivial⟩)

end Runs

/-! ## The queue that a ring implements -/

section Queue

/-- The values in the ring, oldest first. -/
def outstanding (m : Mem ts ι) : List (Option (Value ts)) :=
  (List.range' m.consumed (m.committed - m.consumed)).map m.log

/-- All values that have been enqueued, oldest first. -/
def enqueued (m : Mem ts ι) : List (Option (Value ts)) := (List.range m.committed).map m.log

/-- What a step does to a queue of at most `bound` values and to the values taken from it. -/
inductive Moves {V : Type} (bound : Nat) :
    List (Option V) → List V → List (Option V) → List V → Prop
  | stay (q : List (Option V)) (out : List V) : Moves bound q out q out
  | enqueue (q : List (Option V)) (out : List V) (v : V) (room : q.length < bound) :
      Moves bound q out (q ++ [some v]) out
  | dequeue (q : List (Option V)) (out : List V) (v : V) :
      Moves bound (some v :: q) out q (out ++ [v])

/-- A thread that is about to write to a slot of the ring. -/
def Writes (size : Nat) (pc : Pc ts) (slot : Nat) : Prop :=
  (∃ v producer taken, pc = .spCopy v producer taken ∧ slot = offset ts size producer) ∨
    ∃ taken, pc = .spReserved slot taken

/-- A thread that has reserved a slot and has not committed it. -/
def Reserves (pc : Pc ts) : Prop :=
  (∃ slot taken, pc = .spReserved slot taken) ∨ pc = .spWritten ∨ pc = .spCommit ∨
    ∃ tail, pc = .spCommitStore tail

variable {may : ι → Kind → Prop} {size : Nat}

/-- What holds of the ring at every moment, and what the next step can do. -/
structure Fifo (may : ι → Kind → Prop) (size : Nat) (s : System (Mem ts ι) (Pc ts) ι) : Prop where
  /-- What has been enqueued is what has been dequeued, followed by what is in the ring. -/
  in_order : enqueued s.mem = s.mem.dequeued.map some ++ outstanding s.mem
  /-- There is a value for every position that has been enqueued. -/
  values : ∀ v ∈ outstanding s.mem, v.isSome
  bounded : (outstanding s.mem).length ≤ size - 1
  /-- A slot is not written to while the value in it is unconsumed, and keeps that value. -/
  unwritten : ∀ i slot, Writes size (s.pc i) slot →
    ∀ n, s.mem.consumed ≤ n → n < s.mem.committed → Clear ts (offset ts size n) slot
  kept : ∀ n, s.mem.consumed ≤ n → n < s.mem.committed →
    s.mem.log n = some (s.mem.read (offset ts size n))
  /-- While a slot is reserved, it is not among those that are handed to a consumer. -/
  reserved : ∀ i, Reserves (s.pc i) →
    ∀ n, s.mem.consumed ≤ n → n < s.mem.committed →
      Clear ts (offset ts size n) (offset ts size s.mem.committed)
  /-- An enqueue has failed only if the ring was full at some moment of the call. -/
  full : ∀ i taken, s.pc i = .enqueued .sp false taken → s.mem.sawFilled i = true
  /-- A dequeue has failed only if the ring was empty at some moment of the call. -/
  empty : ∀ i k, s.pc i = .dequeued k none → k ≠ .tryMc → s.mem.sawEmpty i = true
  simulates : ∀ s', System.Step (Step size may) Timely s s' →
    Moves (size - 1) (outstanding s.mem) s.mem.dequeued (outstanding s'.mem) s'.mem.dequeued

omit [DecidableEq ι] in
theorem outstanding_length (m : Mem ts ι) :
    (outstanding m).length = m.committed - m.consumed := by
  simp [outstanding]

/-- A change of the ring is a step of the queue. -/
theorem Change.moves {i : ι} {m m' : Mem ts ι} (hslots : Addressed ts size) (hi : Inv size m)
    (h : Change may size i m m') :
    Moves (size - 1) (outstanding m) m.dequeued (outstanding m') m'.dequeued := by
  have hle := hi.core.le
  cases h with
  | stay => exact .stay _ _
  | enter => exact .stay _ _
  | take role h =>
    rcases h with rfl | ⟨data, hlt, hlog, rfl⟩
    · exact .stay _ _
    · have hcons : outstanding m =
          some data :: outstanding (m.storeHead ((m.cHead + 1) % 2 ^ 32) data) := by
        have hsucc : m.committed - m.consumed = (m.committed - (m.consumed + 1)) + 1 := by omega
        simp only [outstanding, Mem.storeHead]
        rw [hsucc, List.range'_succ, List.map_cons, hlog hslots]
      rw [hcons]
      exact .dequeue _ _ _
  | copy v role room =>
    have hsame :
        outstanding (m.copy (offset ts size m.committed) m.committed v) = outstanding m := by
      simp only [outstanding, Mem.copy]
      apply List.map_congr_left
      intro n hn
      have := (List.mem_range'_1.mp hn).2
      exact Function.update_of_ne (by omega) _ _
    rw [hsame]
    exact .stay _ _
  | publish role room filed =>
    have hsnoc : outstanding (m.storeTail ((m.pTail + 1) % 2 ^ 32)) =
        outstanding m ++ [some (m.read (offset ts size m.committed))] := by
      have hsucc : m.committed + 1 - m.consumed = (m.committed - m.consumed) + 1 := by omega
      have hlast : m.consumed + (m.committed - m.consumed) = m.committed := by omega
      simp only [outstanding, Mem.storeTail]
      rw [hsucc, List.range'_concat, List.map_append, Nat.one_mul, hlast]
      exact congrArg _ (congrArg (fun v => [v]) (filed hslots))
    rw [hsnoc]
    refine .enqueue _ _ _ ?_
    rw [outstanding_length]
    unfold Room at room
    omega

end Queue

/-! ## A ring of two slots -/

section Small

/-- Thread 0 produces and the others consume. -/
def someRoles (i : Fin 3) (k : Kind) : Prop :=
  if i = 0 then k = .enqueue .sp else k = .dequeue .mc

theorem someRoles_roles : Roles someRoles where
  single i h := by
    unfold someRoles at h
    split at h
    · cases h
    · cases h
  producer i j h h' := by
    unfold someRoles at h h'
    split at h
    · split at h'
      · rw [‹i = 0›, ‹j = 0›]
      · cases h'
    · cases h
  consumer i j k h _ := by
    unfold someRoles at h
    split at h
    · cases h
    · cases h

/-- A thread that makes the next access of its call, early in a run. -/
theorem act_reachable {s : System (Mem 1 (Fin 3)) (Pc 1) (Fin 3)}
    (hr : System.Reachable (Step 2 someRoles) Timely (start fun _ => 0) s) (i : Fin 3)
    (running : ¬ (s.pc i).Resting ∧ ¬ (s.pc i).Holding)
    (early : (s.mem.act 2 i (s.pc i)).1.total < 2 ^ 32) :
    System.Reachable (Step 2 someRoles) Timely (start fun _ => 0)
      ⟨(s.mem.act 2 i (s.pc i)).1.observe 2,
        Function.update s.pc i (s.mem.act 2 i (s.pc i)).2⟩ :=
  hr.extend i (.act running) fun _ _ _ _ => Nat.lt_of_lt_of_le early (Nat.le_add_left _ _)

/-- Runs in which calls may take as long as they like. -/
def Run (s : System (Mem 1 (Fin 3)) (Pc 1) (Fin 3)) : Prop :=
  System.Reachable (Step 2 someRoles) (fun _ _ _ => True) (start fun _ => 0) s

/-- After a run, thread `i` has come from `s` to `pc` and the ring is as it was. -/
structure Reads (s : System (Mem 1 (Fin 3)) (Pc 1) (Fin 3)) (i : Fin 3) (pc : Pc 1)
    (s' : System (Mem 1 (Fin 3)) (Pc 1) (Fin 3)) : Prop where
  run : Run s'
  pcs : s'.pc = Function.update s.pc i pc
  cHead : s'.mem.cHead = s.mem.cHead
  pTail : s'.mem.pTail = s.mem.pTail
  bytes : s'.mem.bytes = s.mem.bytes
  committed : s'.mem.committed = s.mem.committed
  dequeued : s'.mem.dequeued = s.mem.dequeued

variable {s s' : System (Mem 1 (Fin 3)) (Pc 1) (Fin 3)} {i : Fin 3} {pc : Pc 1}

/-- The next access of a thread. -/
theorem Run.act (hr : Run s) (hpc : s.pc i = pc) (running : ¬ pc.Resting ∧ ¬ pc.Holding) :
    ∃ s', Run s' ∧ s'.mem = (s.mem.act 2 i pc).1.observe 2 ∧
      s'.pc = Function.update s.pc i (s.mem.act 2 i pc).2 := by
  refine ⟨_, hr.extend i ?_ (fun _ => trivial), rfl, rfl⟩
  rw [hpc]
  exact .act running

theorem Reads.call (hr : Run s) (c : Call 1) (rest : (s.pc i).Resting)
    (role : someRoles i c.kind) : ∃ s', Reads s i c.entry s' :=
  ⟨_, hr.extend i (.call c rest role) (fun _ => trivial), rfl, rfl, rfl, rfl, rfl, rfl⟩

theorem Reads.here (h : Reads s i pc s') : s'.pc i = pc := by
  rw [h.pcs, Function.update_self]

theorem Reads.act (h : Reads s i pc s') (running : ¬ pc.Resting ∧ ¬ pc.Holding) {pc' : Pc 1}
    (hact : s'.mem.act 2 i pc = (s'.mem, pc')) : ∃ s'', Reads s i pc' s'' := by
  obtain ⟨s'', hrun, hmem, hpcs⟩ := h.run.act h.here running
  rw [hact] at hmem hpcs
  rw [h.pcs, Function.update_idem] at hpcs
  refine ⟨s'', hrun, hpcs, ?_, ?_, ?_, ?_, ?_⟩
  · rw [hmem]
    exact h.cHead
  · rw [hmem]
    exact h.pTail
  · rw [hmem]
    exact h.bytes
  · rw [hmem]
    exact h.committed
  · rw [hmem]
    exact h.dequeued

/-- Thread 0 enqueues a value into an empty ring. -/
theorem Run.enqueue (hr : Run s) (rest : (s.pc 0).Resting)
    (room : (s.mem.pTail + 1) % 2 ^ 32 % 2 ≠ s.mem.cHead % 2) (v : Value 1) :
    ∃ s', Run s' ∧ (s'.pc 0).Resting ∧ (∀ j ≠ 0, s'.pc j = s.pc j) ∧
      s'.mem.cHead = s.mem.cHead ∧ s'.mem.pTail = (s.mem.pTail + 1) % 2 ^ 32 ∧
      s'.mem.committed = s.mem.committed + 1 ∧ s'.mem.dequeued = s.mem.dequeued ∧
      s'.mem.read (offset 1 2 s.mem.pTail) = v := by
  have go : ¬ False ∧ ¬ False := ⟨id, id⟩
  obtain ⟨s₁, h₁⟩ := Reads.call (i := 0) hr (.enqueueSp (some v)) rest rfl
  obtain ⟨s₂, h₂⟩ := h₁.act go rfl
  obtain ⟨s₃, h₃⟩ := h₂.act go (if_neg (by rw [h₂.pTail, h₁.cHead]; exact room))
  obtain ⟨s₄, h₄, hm₄, hp₄⟩ := h₃.run.act h₃.here go
  have here : s₄.pc 0 = .spStore s₂.mem.pTail (sub32 s₂.mem.pTail s₁.mem.cHead % 2) := by
    rw [hp₄, Function.update_self]
    rfl
  obtain ⟨s₅, h₅, hm₅, hp₅⟩ := h₄.act here go
  have hread : s₅.mem.read (offset 1 2 s.mem.pTail) = v := by
    rw [hm₅, ← h₂.pTail]
    show s₄.mem.read _ = v
    rw [hm₄]
    exact Mem.read_copy _ s₃.mem.committed v s₃.mem
  refine ⟨s₅, h₅, ?_, fun j hj => ?_, ?_⟩
  · rw [hp₅, Function.update_self]
    trivial
  · rw [hp₅, Function.update_of_ne hj, hp₄, Function.update_of_ne hj, h₃.pcs,
      Function.update_of_ne hj]
  · rw [hread]
    simp [hm₅, hm₄, Mem.act, Mem.observe, Mem.storeTail, Mem.copy, h₃.cHead, h₂.pTail,
      h₃.committed, h₃.dequeued]

/-- A consumer takes the next value. -/
theorem Run.dequeue (hr : Run s) (i : Fin 3) (hi : i ≠ 0) (rest : (s.pc i).Resting)
    (some_value : s.mem.cHead ≠ s.mem.pTail) :
    ∃ s', Run s' ∧ (s'.pc i).Resting ∧ (∀ j ≠ i, s'.pc j = s.pc j) ∧
      s'.mem.cHead = (s.mem.cHead + 1) % 2 ^ 32 ∧ s'.mem.pTail = s.mem.pTail ∧
      s'.mem.committed = s.mem.committed ∧
      s'.mem.dequeued.length = s.mem.dequeued.length + 1 := by
  have go : ¬ False ∧ ¬ False := ⟨id, id⟩
  obtain ⟨s₁, h₁⟩ := Reads.call (i := i) hr (.dequeue .mc) rest (by rw [someRoles, if_neg hi]; rfl)
  obtain ⟨s₂, h₂⟩ := h₁.act go rfl
  obtain ⟨s₃, h₃⟩ := h₂.act go (if_neg (by rw [h₁.cHead, h₂.pTail]; exact some_value))
  obtain ⟨s₄, h₄⟩ := h₃.act go rfl
  obtain ⟨s₅, h₅, hm₅, hp₅⟩ := h₄.run.act h₄.here go
  have hcas : s₄.mem.cHead = s₁.mem.cHead := by rw [h₄.cHead, h₁.cHead]
  refine ⟨s₅, h₅, ?_, fun j hj => ?_, ?_⟩
  · rw [hp₅, Function.update_self]
    simp only [Mem.act, if_pos hcas]
    trivial
  · rw [hp₅, Function.update_of_ne hj, h₄.pcs, Function.update_of_ne hj]
  · simp [hm₅, Mem.act, Mem.observe, Mem.storeHead, hcas, h₁.cHead, h₄.pTail, h₄.committed,
      h₄.dequeued]

/-- Thread 1 is about to advance `c_head` past the first value, which it has copied. By now `n`
values have gone through the ring. -/
structure Paused (n : Nat) (s : System (Mem 1 (Fin 3)) (Pc 1) (Fin 3)) : Prop where
  run : Run s
  producer : (s.pc 0).Resting
  paused : s.pc 1 = .deqStore .mc 0 fun _ => 7
  consumer : (s.pc 2).Resting
  cHead : s.mem.cHead = n % 2 ^ 32
  pTail : s.mem.pTail = n % 2 ^ 32
  committed : s.mem.committed = n
  dequeued : s.mem.dequeued.length = n

/-- Thread 2 takes the value that thread 1 has copied. -/
theorem paused_one : ∃ s, Paused 1 s := by
  have go : ¬ False ∧ ¬ False := ⟨id, id⟩
  have h₀ : Run (start fun _ => 0) := .refl
  obtain ⟨s, hs, h0, hpc, hc, ht, hcm, hd, hv⟩ := h₀.enqueue trivial (by decide) fun _ => 7
  replace hc : s.mem.cHead = 0 := hc
  replace ht : s.mem.pTail = 1 := ht
  obtain ⟨s₁, h₁⟩ := Reads.call (i := 1) hs (.dequeue .mc) (by rw [hpc 1 (by decide)]; trivial) rfl
  obtain ⟨s₂, h₂⟩ := h₁.act go rfl
  obtain ⟨s₃, h₃⟩ := h₂.act go (if_neg (by rw [h₁.cHead, h₂.pTail, hc, ht]; decide))
  obtain ⟨s₄, h₄⟩ := h₃.act go rfl
  have hcopied : s₃.mem.read (offset 1 2 s₁.mem.cHead) = fun _ => 7 := by
    unfold Mem.read
    rw [h₃.bytes, h₁.cHead, hc]
    exact hv
  have hrest : (s₄.pc 2).Resting := by
    rw [h₄.pcs, Function.update_of_ne (by decide), hpc 2 (by decide)]
    trivial
  obtain ⟨s', hs', h2, hpc', hc', ht', hcm', hd'⟩ := h₄.run.dequeue 2 (by decide) hrest
    (by rw [h₄.cHead, h₄.pTail, hc, ht]; decide)
  refine ⟨s', hs', ?_, ?_, h2, ?_, ?_, ?_, ?_⟩
  · rw [hpc' 0 (by decide), h₄.pcs, Function.update_of_ne (by decide)]
    exact h0
  · rw [hpc' 1 (by decide), h₄.pcs, Function.update_self, hcopied, h₁.cHead, hc]
  · rw [hc', h₄.cHead, hc]
  · rw [ht', h₄.pTail, ht]
    rfl
  · rw [hcm', h₄.committed, hcm]
    rfl
  · rw [hd', h₄.dequeued, hd]
    rfl

/-- Another value goes through the ring. -/
theorem Paused.next {n : Nat} (h : Paused n s) : ∃ s', Paused (n + 1) s' := by
  obtain ⟨s₁, hs₁, h0, hpc, hc, ht, hcm, hd, -⟩ := h.run.enqueue h.producer
    (by rw [h.cHead, h.pTail]; omega) fun _ => 0
  obtain ⟨s₂, hs₂, h2, hpc', hc', ht', hcm', hd'⟩ := hs₁.dequeue 2 (by decide)
    (by rw [hpc 2 (by decide)]; exact h.consumer)
    (by rw [hc, ht, h.cHead, h.pTail]; omega)
  refine ⟨s₂, hs₂, ?_, ?_, h2, ?_, ?_, ?_, ?_⟩
  · rw [hpc' 0 (by decide)]
    exact h0
  · rw [hpc' 1 (by decide), hpc 1 (by decide)]
    exact h.paused
  · rw [hc', hc, h.cHead]
    omega
  · rw [ht', ht, h.pTail]
    omega
  · rw [hcm', hcm, h.committed]
  · rw [hd', hd, h.dequeued]

theorem paused_all (n : Nat) : ∃ s, Paused (n + 1) s := by
  induction n with
  | zero => exact paused_one
  | succ n ih =>
    obtain ⟨s, hs⟩ := ih
    exact hs.next

end Small

end ConcurrencyKit.Ring.Single
