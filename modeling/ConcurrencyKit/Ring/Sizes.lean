import ConcurrencyKit.Misc.Beside
import ConcurrencyKit.Misc.Recording
import ConcurrencyKit.Ring.Multi
import ConcurrencyKit.Ring.Single

/-!
# The sizes that the enqueue operations report

The `_size` variants of the enqueue operations report how many slots are taken, from a counter that
other threads may have advanced meanwhile (`ck_ring.h:151-155`, `ck_ring.h:287-300`,
`ck_ring.h:396-398`). The number has been right at a moment of the call: the values in the ring for
a single producer, and the slots that producers have claimed for many. `ck_ring_size` loads both
counters while others may be at work (`ck_ring.h:57-64`).

The moments of a call are a history variable: what the ring has been since the call began.
-/

namespace ConcurrencyKit.Ring

open Threads (Apart Invariant Recording System)

variable {ts : Nat} {ι : Type}

/-- What a thread has seen since its latest call began: the ring at each moment, the latest first.
`whole` tells an enqueue that copies its value from one that only reserves a slot. -/
structure Seen (ts : Nat) (ι : Type) where
  moments : List (Mem ts ι)
  whole : Bool

/-- One more moment. -/
def Seen.see (m : Mem ts ι) (seen : Seen ts ι) : Seen ts ι :=
  { seen with moments := m :: seen.moments }

/-- The first access of a call, and whether the call is an enqueue that copies its value. -/
def Pc.opens : Pc ts → Option Bool
  | .spConsumer v | .mpHead v => some v.isSome
  | .deqHead _ => some false
  | _ => none

/-- What the threads have seen after a step of thread `i`. -/
def remember [DecidableEq ι] (i : ι) (m : Mem ts ι) (pc : Pc ts) (seen : ι → Seen ts ι) (j : ι) :
    Seen ts ι :=
  if j = i then pc.opens.elim ((seen j).see m) fun whole => ⟨[m], whole⟩ else (seen j).see m

/-- The threads have made no call. -/
def unseen (_ : ι) : Seen ts ι := ⟨[], false⟩

section Record

variable [DecidableEq ι] {i j : ι} {m m₁ : Mem ts ι} {pc : Pc ts} {seen : ι → Seen ts ι}

theorem remember_opens {whole : Bool} (h : pc.opens = some whole) :
    remember i m pc seen i = ⟨[m], whole⟩ := by
  simp [remember, h]

theorem remember_inside (h : pc.opens = none) : remember i m pc seen i = (seen i).see m := by
  simp [remember, h]

theorem remember_other (hj : j ≠ i) : remember i m pc seen j = (seen j).see m := by
  simp [remember, hj]

/-- The moments are the present one and those before. -/
theorem mem_remember (h : m₁ ∈ (remember i m pc seen j).moments) :
    m₁ = m ∨ m₁ ∈ (seen j).moments := by
  unfold remember at h
  split at h
  · cases hpc : pc.opens with
    | none =>
      rw [hpc] at h
      exact List.mem_cons.mp h
    | some whole =>
      rw [hpc] at h
      exact .inl (List.mem_singleton.mp h)
  · exact List.mem_cons.mp h

end Record

namespace Multi

variable {size : Nat} {i j : ι} {m m' : Mem ts ι} {pc pc' : Pc ts} {seen : Seen ts ι} {p c : Nat}

/-- So many slots were taken at a moment of the call. -/
def Reports (seen : Seen ts ι) (taken : Nat) : Prop :=
  ∃ m ∈ seen.moments, taken = m.claimed - m.consumed

/-- Thread `i` has loaded `p` from `p_head`, and afterwards `c` from `c_head`. -/
def Looked (i : ι) (m : Mem ts ι) (seen : Seen ts ι) (p c : Nat) : Prop :=
  ∃ n, LoadedHead m i p n ∧ ∃ m₁ ∈ seen.moments, m₁.cHead = c ∧ n ≤ m₁.claimed ∧
    m₁.claimed ≤ m.claimed

/-- What a producer knows about the size that it is to report. -/
def Sized (size : Nat) (i : ι) (m : Mem ts ι) (seen : Seen ts ι) : Pc ts → Prop
  | .mpHead v | .mpConsumer v _ => seen.whole = v.isSome
  | .mpCas v p c => seen.whole = v.isSome ∧ Looked i m seen p c ∧ sub32 p c < size - 1
  | .mpReload v p c => seen.whole = v.isSome ∧ Looked i m seen p c ∧ size - 1 ≤ sub32 p c
  | .mpCopy _ _ taken _ => Reports seen taken ∧ taken < size - 1
  | .mpReserved _ taken _ => seen.whole = false ∧ Reports seen taken ∧ taken < size - 1
  | .mpWritten _ _ => seen.whole = false
  | .mpWait _ taken _ | .mpPublish _ taken _ | .enqueued .mp true taken =>
    seen.whole = true → Reports seen taken ∧ taken < size - 1
  | .enqueued .mp false taken => Reports seen taken ∧ taken = size - 1
  | _ => True

theorem Reports.see {taken : Nat} (h : Reports seen taken) : Reports (seen.see m) taken := by
  obtain ⟨m₁, hm, ht⟩ := h
  exact ⟨m₁, List.mem_cons_of_mem _ hm, ht⟩

/-- The size that the two loads yield, if `p_head` is where it was. -/
theorem Looked.taken (hs : IsSize size) (hi : Inv size m)
    (hseen : ∀ m₁ ∈ seen.moments, Inv size m₁) (hl : Looked i m seen p c)
    (ht : m.total < m.born i + 2 ^ 32) (he : m.pHead = p) :
    Reports seen (sub32 p c % size) ∧ sub32 p c ≤ size - 1 ∧ sub32 p c % size = sub32 p c := by
  obtain ⟨n, hload, m₁, hm, rfl, hn, hle⟩ := hl
  have hi₁ := hseen m₁ hm
  have hclaimed : m₁.claimed = m.claimed := by
    have := hload.eq_claimed hi ht he
    omega
  have hhead : m₁.pHead = p := by rw [hi₁.pHead, hclaimed, ← hi.pHead, he]
  have hsub : sub32 p m₁.cHead = m₁.claimed - m₁.consumed := by rw [← hhead, hi₁.taken hs]
  have hbound := hi₁.claimed_le
  have hpos := hs.pos
  have hmod : sub32 p m₁.cHead % size = sub32 p m₁.cHead := Nat.mod_eq_of_lt (by omega)
  refine ⟨⟨m₁, hm, ?_⟩, by omega, hmod⟩
  rw [hmod, hsub]

variable [DecidableEq ι]

omit [DecidableEq ι] in
theorem Looked.advance {m₁ : Mem ts ι} (hj : j ≠ i) (ha : Mem.Advance i m m')
    (h : Looked j m seen p c) : Looked j m' (seen.see m₁) p c := by
  obtain ⟨n, hload, m₂, hm, hc, hn, hle⟩ := h
  exact ⟨n, hload.advance ha hj, m₂, List.mem_cons_of_mem _ hm, hc, hn, hle.trans ha.claimed⟩

/-- What a producer knows outlasts the steps of the other threads. -/
theorem Sized.change (hj : j ≠ i) (h : Change size i m m') (hz : Sized size j m seen pc) :
    Sized size j (m'.observe size) (seen.see (m'.observe size)) pc := by
  have ha := h.advance
  have hlook : ∀ {p c}, Looked j m seen p c →
      Looked j (m'.observe size) (seen.see (m'.observe size)) p c := by
    intro p c hl
    exact (hl.advance hj ha : Looked j m' (seen.see (m'.observe size)) p c)
  cases pc with
  | mpHead v => exact hz
  | mpConsumer v p => exact hz
  | mpCas v p c => exact ⟨hz.1, hlook hz.2.1, hz.2.2⟩
  | mpReload v p c => exact ⟨hz.1, hlook hz.2.1, hz.2.2⟩
  | mpCopy v p taken n => exact ⟨hz.1.see, hz.2⟩
  | mpReserved p taken n => exact ⟨hz.1, hz.2.1.see, hz.2.2⟩
  | mpWritten p n => exact hz
  | mpWait p taken n => exact fun hw => ⟨(hz hw).1.see, (hz hw).2⟩
  | mpPublish p taken n => exact fun hw => ⟨(hz hw).1.see, (hz hw).2⟩
  | enqueued k ok taken =>
    cases k with
    | sp => trivial
    | mp =>
      cases ok with
      | true => exact fun hw => ⟨(hz hw).1.see, (hz hw).2⟩
      | false => exact ⟨hz.1.see, hz.2⟩
  | _ => trivial

omit [DecidableEq ι] in
/-- Dequeue operations know nothing about sizes. -/
theorem sized_of_dequeue {k : Consumer} (h : pc.InDequeue k) : Sized size i m seen pc := by
  rcases h with h | ⟨data, rfl⟩
  · cases pc with
    | deqHead => trivial
    | deqTail => trivial
    | deqCopy => trivial
    | deqStore => trivial
    | _ => cases h
  · trivial

omit [DecidableEq ι] in
/-- A producer that has loaded `c_head` looks at the present ring. -/
theorem Looked.now {n : Nat} (hload : LoadedHead m i p n) :
    Looked i (m.observe size) (seen.see (m.observe size)) p m.cHead :=
  ⟨n, hload, m.observe size, List.mem_cons_self, rfl, hload.2.1, le_rfl⟩

omit [DecidableEq ι] in
/-- One access of an enqueue operation. -/
theorem enqueue_sized (hs : IsSize size) (hi : Inv size m)
    (hseen : ∀ m₁ ∈ seen.moments, Inv size m₁) (hpc : pc.kind = some (.enqueue .mp))
    (hh : ¬ pc.Holding) (ht : m.total < m.born i + 2 ^ 32) (hat : AtEnqueue size i m pc)
    (hz : Sized size i m seen pc) :
    (m.act size i pc).2.opens = none ∧
      Sized size i ((m.act size i pc).1.observe size)
        (seen.see ((m.act size i pc).1.observe size)) (m.act size i pc).2 := by
  cases pc with
  | mpHead v => exact ⟨rfl, hz⟩
  | mpConsumer v p =>
    obtain ⟨n, hload⟩ := hat
    by_cases hlt : sub32 p m.cHead < size - 1
    · simp only [Mem.act, if_pos hlt]
      exact ⟨rfl, hz, .now hload, hlt⟩
    · simp only [Mem.act, if_neg hlt]
      exact ⟨rfl, hz, .now hload, Nat.le_of_not_lt hlt⟩
  | mpCas v p c =>
    obtain ⟨hwhole, hlook, hlt⟩ := hz
    by_cases he : m.pHead = p
    · simp only [Mem.act, if_pos he]
      obtain ⟨hreports, -, hmod⟩ := hlook.taken hs hi hseen ht he
      cases v with
      | some v => exact ⟨rfl, hreports.see, by omega⟩
      | none => exact ⟨rfl, hwhole, hreports.see, by omega⟩
    · simp only [Mem.act, if_neg he]
      exact ⟨rfl, hwhole⟩
  | mpReload v p c =>
    obtain ⟨hwhole, hlook, hle⟩ := hz
    by_cases he : p = m.pHead
    · simp only [Mem.act, if_pos he]
      obtain ⟨hreports, hbound, hmod⟩ := hlook.taken hs hi hseen ht he.symm
      exact ⟨rfl, hreports.see, by omega⟩
    · simp only [Mem.act, if_neg he]
      exact ⟨rfl, hwhole⟩
  | mpCopy v p taken n => exact ⟨rfl, fun _ => ⟨hz.1.see, hz.2⟩⟩
  | mpWait p taken n =>
    by_cases he : m.pTail = p
    · simp only [Mem.act, if_pos he]
      exact ⟨rfl, fun hw => ⟨(hz hw).1.see, (hz hw).2⟩⟩
    · simp only [Mem.act, if_neg he]
      exact ⟨rfl, fun hw => ⟨(hz hw).1.see, (hz hw).2⟩⟩
  | mpPublish p taken n => exact ⟨rfl, fun hw => ⟨(hz hw).1.see, (hz hw).2⟩⟩
  | mpReserved p taken n => exact absurd trivial hh
  | mpWritten p n => exact absurd trivial hh
  | _ => cases hpc

/-- What thread `i` knows after a step of its own. -/
theorem step_sized (hs : IsSize size) {seen : ι → Seen ts ι}
    (hstep : Step size may i m pc m' pc') (ht : Timely i m pc) (hi : Inv size m)
    (hat : At size i m pc) (hseen : ∀ m₁ ∈ (seen i).moments, Inv size m₁)
    (hz : Sized size i m (seen i) pc) :
    Sized size i m' (remember i m' pc' seen i) pc' := by
  cases hstep with
  | call c resting allowed =>
    cases c with
    | enqueueSp v => trivial
    | enqueueMp v =>
      show Sized size i _ (remember i _ (.mpHead v) seen i) (.mpHead v)
      rw [remember_opens (show (Pc.mpHead v).opens = some v.isSome from rfl)]
      rfl
    | dequeue k => trivial
  | writeSp v => trivial
  | writeMp v =>
    rw [remember_inside rfl]
    exact hz.1
  | commitSp => trivial
  | commitMp =>
    rw [remember_inside rfl]
    intro hw
    cases hw.symm.trans hz
  | act running =>
    have ht' := ht running.1 running.2
    obtain ⟨k, hk⟩ := Pc.kind_of_running running.1
    cases k with
    | enqueue k =>
      cases k with
      | sp => exact absurd rfl (hat.role _ hk).1
      | mp =>
        obtain ⟨hopens, hz'⟩ := enqueue_sized hs hi hseen hk running.2 ht' hat.enqueue hz
        rw [remember_inside hopens]
        exact hz'
    | dequeue k =>
      obtain ⟨-, -, hkind⟩ :=
        Mem.dequeue_act hs hi.core hi.noticed hk (fun _ => ht') hat.dequeue
      exact sized_of_dequeue hkind

/-- The invariant of the ring and of what the threads have seen. -/
theorem recorded_invariant (hs : IsSize size) :
    Invariant (Recording (Step size may : ι → Mem ts ι → Pc ts → Mem ts ι → Pc ts → Prop) remember)
      (Apart Timely)
      (fun r => Inv size r.1 ∧ ∀ i, ∀ m ∈ (r.2 i).moments, Inv size m)
      (fun i r pc => At size i r.1 pc ∧ Sized size i r.1 (r.2 i) pc) := by
  refine (invariant hs).recording
    (fun r : Mem ts ι × (ι → Seen ts ι) => ∀ i, ∀ m ∈ (r.2 i).moments, Inv size m)
    (fun i r pc => Sized size i r.1 (r.2 i) pc) ?own ?other
  case own =>
    intro i m p m' p' seen hstep ht hi hat hseen hz
    refine ⟨fun j m₁ hm => ?_, step_sized hs hstep ht hi hat (hseen i) hz⟩
    rcases mem_remember hm with rfl | hm
    · exact ((invariant hs).own hstep ht hi hat).1
    · exact hseen j m₁ hm
  case other =>
    intro i m p m' p' seen hstep ht hi hat _ j q hj _ hz
    obtain ⟨m₁, rfl, hch, -⟩ := step_change hs hstep ht hi hat
    show Sized size j (m₁.observe size) (remember i _ p' seen j) q
    rw [remember_other hj]
    exact hz.change hj hch

/-- The sizes that producers report. -/
structure Reported (size : Nat) (s : System (Mem ts ι × (ι → Seen ts ι)) (Pc ts) ι) : Prop where
  /-- A run of the ring. -/
  run : ∃ bytes, System.Reachable (Step size may) Timely (start bytes) s.forget
  /-- A reservation, with the slots that were taken before it. -/
  reserved : ∀ i p taken n, s.pc i = .mpReserved p taken n →
    Reports (s.mem.2 i) taken ∧ taken < size - 1
  /-- An enqueue that has copied its value. -/
  enqueued : ∀ i taken, s.pc i = .enqueued .mp true taken → (s.mem.2 i).whole = true →
    Reports (s.mem.2 i) taken ∧ taken < size - 1
  /-- An operation that has failed reports a full ring, and there was one. -/
  failed : ∀ i taken, s.pc i = .enqueued .mp false taken →
    Reports (s.mem.2 i) taken ∧ taken = size - 1

/-- In every interleaving the size that a producer reports is the number of the slots that were
taken at a moment of the call. -/
theorem sizes_reported_multi (hs : IsSize size) {bytes : Nat → Byte}
    {s : System (Mem ts ι × (ι → Seen ts ι)) (Pc ts) ι}
    (hr : System.Reachable (Recording (Step size may) remember) (Apart Timely)
      ((start bytes).record unseen) s) : Reported size s := by
  obtain ⟨-, hat⟩ := (recorded_invariant hs).reachable hr (fun _ h => absurd trivial h)
    ⟨init_inv bytes, fun _ _ hm => absurd hm List.not_mem_nil⟩
    (fun i => ⟨⟨fun _ h => (by cases h), trivial, trivial⟩, trivial⟩)
  have hz : ∀ {i pc}, s.pc i = pc → Sized size i s.mem.1 (s.mem.2 i) pc := by
    rintro i pc rfl
    exact (hat i).2.2
  exact ⟨⟨bytes, hr.forget⟩, fun i p taken n hpc => (hz hpc).2, fun i taken hpc => hz hpc,
    fun i taken hpc => hz hpc⟩

/-- While one value is in a ring of four slots, a slot is reserved. -/
theorem sizes_reported_multi_reserved :
    ∃ s : System (Mem 1 Bool × (Bool → Seen 1 Bool)) (Pc 1) Bool,
      System.Reachable (Recording (Step 4 may) remember) (Apart Timely)
        ((start fun _ => 0).record unseen) s ∧
      s.pc false = .mpReserved 1 1 1 ∧ Reported 4 s := by
  have small : IsSize 4 := ⟨2, by decide, rfl⟩
  have go : ¬ False ∧ ¬ False := ⟨id, id⟩
  have h₀ : System.Reachable (Step 4 may) Timely (start fun _ => 0)
      (start (fun _ => 0) : System (Mem 1 Bool) (Pc 1) Bool) := .refl
  have h₁ := h₀.extend true
    (.call (.enqueueMp (some fun _ => 7)) trivial ⟨fun h => (by cases h), fun h => (by cases h)⟩)
    (fun j _ _ => by cases j <;> decide)
  have h₂ := act_reachable h₁ true go (by decide)
  have h₃ := act_reachable h₂ true go (by decide)
  have h₄ := act_reachable h₃ true go (by decide)
  have h₅ := act_reachable h₄ true go (by decide)
  have h₆ := act_reachable h₅ true go (by decide)
  have h₇ := act_reachable h₆ true go (by decide)
  have h₈ := h₇.extend false
    (.call (.enqueueMp none) trivial ⟨fun h => (by cases h), fun h => (by cases h)⟩)
    (fun j _ _ => by cases j <;> decide)
  have h₉ := act_reachable h₈ false go (by decide)
  have h₁₀ := act_reachable h₉ false go (by decide)
  have h₁₁ := act_reachable h₁₀ false go (by decide)
  obtain ⟨seen, hseen⟩ := h₁₁.recorded unseen
  exact ⟨_, hseen, rfl, sizes_reported_multi small hseen⟩

end Multi

namespace Single

variable {may : ι → Kind → Prop} {size : Nat} {i j : ι} {m m' m₁ : Mem ts ι} {pc pc' : Pc ts}
  {seen : Seen ts ι}

/-- So many values were in the ring at a moment of the call. -/
def Reports (seen : Seen ts ι) (taken : Nat) : Prop :=
  ∃ m ∈ seen.moments, taken = m.committed - m.consumed

/-- The producer is about to enqueue and will report `taken`. There are not more values now. -/
def Counted (size : Nat) (m : Mem ts ι) (seen : Seen ts ι) (taken : Nat) : Prop :=
  Reports seen taken ∧ taken < size - 1 ∧ m.committed - m.consumed ≤ taken

/-- What the producer knows about the size that it is to report. -/
def Sized (size : Nat) (m : Mem ts ι) (seen : Seen ts ι) : Pc ts → Prop
  | .spProducer _ c => ∃ m₁ ∈ seen.moments, m₁.cHead = c ∧ m₁.committed = m.committed ∧
      m₁.consumed ≤ m.consumed
  | .spCopy _ _ taken | .spStore _ taken | .spReserved _ taken => Counted size m seen taken
  | .enqueued .sp true taken => Reports seen taken ∧ taken < size - 1
  | .enqueued .sp false taken => Reports seen taken ∧ taken = size - 1
  | _ => True

theorem Reports.see {taken : Nat} (h : Reports seen taken) : Reports (seen.see m) taken := by
  obtain ⟨m₁, hm, ht⟩ := h
  exact ⟨m₁, List.mem_cons_of_mem _ hm, ht⟩

theorem Counted.see {taken : Nat} (h : Counted size m seen taken) :
    Counted size (m.observe size) (seen.see m₁) taken :=
  ⟨h.1.see, h.2⟩

/-- The size that the producer computes from a `c_head` that was loaded before, and what its
comparison of slots says about it. -/
theorem taken_eq (hs : IsSize size) (hi : Inv size m) (hi₁ : Inv size m₁)
    (he : m₁.committed = m.committed) :
    sub32 m.pTail m₁.cHead % size = m₁.committed - m₁.consumed ∧
      ((m.pTail + 1) % 2 ^ 32 % size = m₁.cHead % size ↔
        m₁.committed - m₁.consumed = size - 1) := by
  have hle := hi₁.core.le
  have hlt := hi₁.core.lt
  have hsize := hs.le
  have hpos := hs.pos
  have htail : m.pTail = m₁.committed % 2 ^ 32 := by rw [hi.core.pTail, he]
  constructor
  · rw [htail, hi₁.core.cHead, sub32_of_le hle (by omega)]
    exact Nat.mod_eq_of_lt (by omega)
  · have hmask : (m.pTail + 1) % 2 ^ 32 % size = (m₁.committed + 1) % size := by
      rw [hs.mod_mod, htail, Nat.add_mod, hs.mod_mod, ← Nat.add_mod]
    have hmask' : m₁.cHead % size = m₁.consumed % size := by rw [hi₁.core.cHead, hs.mod_mod]
    rw [hmask, hmask']
    constructor
    · intro h
      by_contra hne
      -- closer positions would be in different slots
      exact mod_ne_of_lt (by omega) (by omega) h.symm
    · intro h
      have hfull : m₁.committed + 1 = m₁.consumed + size := by omega
      rw [hfull, Nat.add_mod_right]

variable [DecidableEq ι]

/-- What the producer knows outlasts the steps of the other threads: only `c_head` moves. -/
theorem Sized.change (h : Change may size i m m')
    (hr : pc.kind = some (.enqueue .sp) → ¬ may i (.enqueue .sp)) (hz : Sized size m seen pc) :
    Sized size (m'.observe size) (seen.see (m'.observe size)) pc := by
  have hcounted : ∀ {taken}, ¬ may i (.enqueue .sp) → Counted size m seen taken →
      Counted size (m'.observe size) (seen.see (m'.observe size)) taken := by
    intro taken hr hc
    refine ⟨hc.1.see, hc.2.1, ?_⟩
    show m'.committed - m'.consumed ≤ taken
    have hcommitted := (h.frame hr).1
    have hconsumed := h.advance.consumed
    have hnow := hc.2.2
    omega
  cases pc with
  | spProducer v c =>
    obtain ⟨m₁, hm, hc, he, hle⟩ := hz
    refine ⟨m₁, List.mem_cons_of_mem _ hm, hc, he.trans (h.frame (hr rfl)).1.symm, ?_⟩
    exact hle.trans h.advance.consumed
  | spCopy v p taken => exact hcounted (hr rfl) hz
  | spStore p taken => exact hcounted (hr rfl) hz
  | spReserved slot taken => exact hcounted (hr rfl) hz
  | enqueued k ok taken =>
    cases k with
    | mp => trivial
    | sp => cases ok <;> exact ⟨hz.1.see, hz.2⟩
  | _ => trivial

omit [DecidableEq ι] in
/-- Dequeue operations know nothing about sizes. -/
theorem sized_of_dequeue {k : Consumer} (h : pc.InDequeue k) : Sized size m seen pc := by
  rcases h with h | ⟨data, rfl⟩
  · cases pc with
    | deqHead => trivial
    | deqTail => trivial
    | deqCopy => trivial
    | deqStore => trivial
    | _ => cases h
  · trivial

omit [DecidableEq ι] in
/-- One access of an enqueue operation. -/
theorem enqueue_sized (hs : IsSize size) (hi : Inv size m)
    (hseen : ∀ m₁ ∈ seen.moments, Inv size m₁) (hpc : pc.kind = some (.enqueue .sp))
    (hh : ¬ pc.Holding) (hz : Sized size m seen pc) :
    (m.act size i pc).2.opens = none ∧
      Sized size ((m.act size i pc).1.observe size)
        (seen.see ((m.act size i pc).1.observe size)) (m.act size i pc).2 := by
  cases pc with
  | spConsumer v => exact ⟨rfl, m.observe size, List.mem_cons_self, rfl, rfl, le_rfl⟩
  | spProducer v c =>
    obtain ⟨m₁, hm, rfl, he, hle⟩ := hz
    have hi₁ := hseen m₁ hm
    obtain ⟨htaken, hfull⟩ := taken_eq hs hi hi₁ he
    have hreports : Reports seen (sub32 m.pTail m₁.cHead % size) := ⟨m₁, hm, htaken⟩
    by_cases hmask : (m.pTail + 1) % 2 ^ 32 % size = m₁.cHead % size
    · simp only [Mem.act, if_pos hmask]
      exact ⟨rfl, hreports.see, htaken.trans (hfull.mp hmask)⟩
    · have hcounted : Counted size m seen (sub32 m.pTail m₁.cHead % size) := by
        have hne : m₁.committed - m₁.consumed ≠ size - 1 := fun h => hmask (hfull.mpr h)
        have hbound := hi₁.core.lt
        exact ⟨hreports, by omega, by omega⟩
      simp only [Mem.act, if_neg hmask]
      cases v with
      | none => exact ⟨rfl, hcounted.see⟩
      | some v => exact ⟨rfl, hcounted.see⟩
  | spCopy v p taken => exact ⟨rfl, hz.see⟩
  | spStore p taken => exact ⟨rfl, hz.1.see, hz.2.1⟩
  | spCommit => exact ⟨rfl, trivial⟩
  | spCommitStore p => exact ⟨rfl, trivial⟩
  | spReserved slot taken => exact absurd trivial hh
  | spWritten => exact absurd trivial hh
  | _ => cases hpc

/-- What thread `i` knows after a step of its own. -/
theorem step_sized (hs : IsSize size) (roles : Roles may) {seen : ι → Seen ts ι}
    (hstep : Step size may i m pc m' pc') (ht : Timely i m pc) (hi : Inv size m)
    (hat : At may size i m pc) (hseen : ∀ m₁ ∈ (seen i).moments, Inv size m₁)
    (hz : Sized size m (seen i) pc) : Sized size m' (remember i m' pc' seen i) pc' := by
  cases hstep with
  | call c resting allowed => cases c <;> trivial
  | writeSp v => trivial
  | writeMp v => trivial
  | commitSp => trivial
  | commitMp => trivial
  | act running =>
    obtain ⟨k, hk⟩ := Pc.kind_of_running running.1
    cases k with
    | enqueue k =>
      cases k with
      | mp => exact absurd (hat.role _ hk) (roles.single i)
      | sp =>
        obtain ⟨hopens, hz'⟩ := enqueue_sized hs hi hseen hk running.2 hz
        rw [remember_inside hopens]
        exact hz'
    | dequeue k =>
      obtain ⟨-, -, hkind⟩ :=
        Mem.dequeue_act hs hi.core hi.noticed hk (fun h => ht k hk h) hat.dequeue
      exact sized_of_dequeue hkind

/-- The invariant of the ring and of what the threads have seen. -/
theorem recorded_invariant (hs : IsSize size) (roles : Roles may) :
    Invariant (Recording (Step size may : ι → Mem ts ι → Pc ts → Mem ts ι → Pc ts → Prop) remember)
      (Apart Timely)
      (fun r => Inv size r.1 ∧ ∀ i, ∀ m ∈ (r.2 i).moments, Inv size m)
      (fun i r pc => At may size i r.1 pc ∧ Sized size r.1 (r.2 i) pc) := by
  refine (invariant hs roles).recording
    (fun r : Mem ts ι × (ι → Seen ts ι) => ∀ i, ∀ m ∈ (r.2 i).moments, Inv size m)
    (fun i r pc => Sized size r.1 (r.2 i) pc) ?own ?other
  case own =>
    intro i m p m' p' seen hstep ht hi hat hseen hz
    refine ⟨fun j m₁ hm => ?_, step_sized hs roles hstep ht hi hat (hseen i) hz⟩
    rcases mem_remember hm with rfl | hm
    · exact ((invariant hs roles).own hstep ht hi hat).1
    · exact hseen j m₁ hm
  case other =>
    intro i m p m' p' seen hstep ht hi hat _ j q hj hq hz
    obtain ⟨m₁, rfl, hch, -⟩ := step_change hs roles hstep ht hi hat
    show Sized size (m₁.observe size) (remember i _ p' seen j) q
    rw [remember_other hj]
    exact hz.change hch fun hk hrole => hj (roles.producer j i (hq.role _ hk) hrole)

/-- The sizes that the producer reports. -/
structure Reported (may : ι → Kind → Prop) (size : Nat)
    (s : System (Mem ts ι × (ι → Seen ts ι)) (Pc ts) ι) : Prop where
  /-- A run of the ring. -/
  run : ∃ bytes, System.Reachable (Step size may) Timely (start bytes) s.forget
  /-- A reservation. Until it is committed there are not more values than that. -/
  reserved : ∀ i slot taken, s.pc i = .spReserved slot taken →
    Reports (s.mem.2 i) taken ∧ taken < size - 1 ∧ s.mem.1.committed - s.mem.1.consumed ≤ taken
  /-- An enqueue that has copied its value. -/
  enqueued : ∀ i taken, s.pc i = .enqueued .sp true taken →
    Reports (s.mem.2 i) taken ∧ taken < size - 1
  /-- An operation that has failed reports a full ring, and there was one. -/
  failed : ∀ i taken, s.pc i = .enqueued .sp false taken →
    Reports (s.mem.2 i) taken ∧ taken = size - 1

/-- In every interleaving the size that the producer reports is the number of the values that were
in the ring at a moment of the call. -/
theorem sizes_reported_single (hs : IsSize size) (roles : Roles may) {bytes : Nat → Byte}
    {s : System (Mem ts ι × (ι → Seen ts ι)) (Pc ts) ι}
    (hr : System.Reachable (Recording (Step size may) remember) (Apart Timely)
      ((start bytes).record unseen) s) : Reported may size s := by
  obtain ⟨-, hat⟩ := (recorded_invariant hs roles).reachable hr (fun _ _ h => by cases h)
    ⟨init_inv bytes, fun _ _ hm => absurd hm List.not_mem_nil⟩
    (fun i => ⟨⟨fun _ h => (by cases h), trivial, trivial⟩, trivial⟩)
  have hz : ∀ {i pc}, s.pc i = pc → Sized size s.mem.1 (s.mem.2 i) pc := by
    rintro i pc rfl
    exact (hat i).2.2
  exact ⟨⟨bytes, hr.forget⟩, fun i slot taken hpc => hz hpc, fun i taken hpc => hz hpc,
    fun i taken hpc => hz hpc⟩

/-- A ring of two slots has room for one value. -/
theorem sizes_reported_single_full :
    ∃ s : System (Mem 1 (Fin 3) × (Fin 3 → Seen 1 (Fin 3))) (Pc 1) (Fin 3),
      System.Reachable (Recording (Step 2 someRoles) remember) (Apart Timely)
        ((start fun _ => 0).record unseen) s ∧
      (∃ i, s.pc i = .enqueued .sp false 1) ∧ Reported someRoles 2 s := by
  have small : IsSize 2 := ⟨1, by decide, rfl⟩
  have go : ¬ False ∧ ¬ False := ⟨id, id⟩
  have h₀ : System.Reachable (Step 2 someRoles) Timely (start fun _ => 0)
      (start (fun _ => 0) : System (Mem 1 (Fin 3)) (Pc 1) (Fin 3)) := .refl
  have h₁ := h₀.extend 0 (.call (.enqueueSp (some fun _ => 7)) trivial rfl)
    (fun j _ _ _ => Nat.lt_of_lt_of_le (by decide) (Nat.le_add_left _ _))
  have h₂ := act_reachable h₁ 0 go (by decide)
  have h₃ := act_reachable h₂ 0 go (by decide)
  have h₄ := act_reachable h₃ 0 go (by decide)
  have h₅ := act_reachable h₄ 0 go (by decide)
  have h₆ := h₅.extend 0 (.call (.enqueueSp (some fun _ => 8)) trivial rfl)
    (fun j _ _ _ => Nat.lt_of_lt_of_le (by decide) (Nat.le_add_left _ _))
  have h₇ := act_reachable h₆ 0 go (by decide)
  have h₈ := act_reachable h₇ 0 go (by decide)
  obtain ⟨seen, hseen⟩ := h₈.recorded unseen
  exact ⟨_, hseen, ⟨0, rfl⟩, sizes_reported_single small someRoles_roles hseen⟩

end Single

/-! ## The size of a ring that is in use -/

section Size

/-- Where a call of `ck_ring_size` stands (`ck_ring.h:57-64`). -/
inductive SizePc where
  | consumer
  | producer (c : Nat)
  | done (taken : Nat)
  deriving DecidableEq, Repr

/-- `ck_ring_size`, which any thread may call beside those that use the ring. -/
def ckRingSize (size : Nat) : Beside.Program (System (Mem ts ι) (Pc ts) ι) Unit SizePc where
  start := .consumer
  load s _
    | .consumer => .producer s.mem.cHead
    | .producer c => .done (sub32 s.mem.pTail c % size)
    | .done taken => .done taken
  done
    | .done _ => true
    | _ => false

/-- The ways to use a ring. -/
inductive Usage : (ι → Kind → Prop) → (ι → Mem ts ι → Pc ts → Prop) → Prop
  | multi : Usage Multi.may Multi.Timely
  | single {may : ι → Kind → Prop} (roles : Single.Roles may) : Usage may Single.Timely

variable {may : ι → Kind → Prop} {ok : ι → Mem ts ι → Pc ts → Prop} {size : Nat}
  {s s' : System (Mem ts ι) (Pc ts) ι} {bytes : Nat → Byte}

/-- The counters of consumers and producers in two states, the first of which is not the later
one. -/
def Grows (s s' : System (Mem ts ι) (Pc ts) ι) : Prop :=
  s.mem.consumed ≤ s'.mem.consumed ∧ s.mem.committed ≤ s'.mem.committed

/-- The number of values in the ring. -/
def filled (s : System (Mem ts ι) (Pc ts) ι) : Nat := s.mem.committed - s.mem.consumed

variable [DecidableEq ι]

theorem Usage.core (hs : IsSize size) (hu : Usage may ok)
    (hr : System.Reachable (Step size may) ok (start bytes) s) : s.mem.Core size := by
  cases hu with
  | multi => exact (Multi.reachable_inv hs hr).1.core
  | single roles => exact (Single.reachable_inv hs roles hr).1.core

/-- No step takes a counter back. -/
theorem Usage.grows (hs : IsSize size) (hu : Usage may ok)
    (hr : System.Reachable (Step size may) ok (start bytes) s)
    (h : System.Step (Step size may) ok s s') : Grows s s' := by
  cases hu with
  | multi =>
    obtain ⟨hi, hat⟩ := Multi.reachable_inv hs hr
    cases h with
    | run i h good =>
      obtain ⟨m₁, rfl, hch, -⟩ := Multi.step_change hs h (hat i).1 hi (hat i).2
      exact ⟨hch.advance.consumed, hch.advance.committed⟩
  | single roles =>
    obtain ⟨hi, hat⟩ := Single.reachable_inv hs roles hr
    cases h with
    | run i h good =>
      obtain ⟨m₁, rfl, hch, -⟩ := Single.step_change hs roles h (hat i).1 hi (hat i).2
      exact ⟨hch.advance.consumed, hch.advance.committed⟩

/-- What a call of `ck_ring_size` knows. -/
def SizeAt (size : Nat) (s : System (Mem ts ι) (Pc ts) ι)
    (c : Beside.Call (System (Mem ts ι) (Pc ts) ι) Unit SizePc) : Prop :=
  match c.pc with
  | .consumer => True
  | .producer v => ∃ s₁ ∈ c.moments, s₁.mem.Core size ∧ v = s₁.mem.cHead ∧ Grows s₁ s
  | .done taken => ∃ s₁ ∈ c.moments, ∃ s₂ ∈ c.moments, s₁.mem.Core size ∧ s₂.mem.Core size ∧
      Grows s₁ s₂ ∧ taken = (s₂.mem.committed - s₁.mem.consumed) % size

omit [DecidableEq ι] in
/-- The difference of two counters, modulo the size, does not depend on how often they have
wrapped. -/
theorem sub32_mod (hs : IsSize size) {a b : Nat} (h : a ≤ b) :
    sub32 (b % 2 ^ 32) (a % 2 ^ 32) % size = (b - a) % size := by
  have hsub : sub32 (b % 2 ^ 32) (a % 2 ^ 32) = (b - a) % 2 ^ 32 := by
    unfold sub32
    omega
  rw [hsub, hs.mod_mod]

theorem sizeAt_invariant (bytes : Nat → Byte) (hs : IsSize size) (hu : Usage may ok) :
    Beside.Invariant (ckRingSize size : Beside.Program (System (Mem ts ι) (Pc ts) ι) Unit SizePc)
      (System.Step (Step size may) ok)
      (fun s => System.Reachable (Step size may) ok (start bytes) s) (SizeAt size) where
  inv hr h := hr.tail h
  invoke _ _ := trivial
  write {s s' c} hr h hrun _ hat := by
    obtain ⟨key, pc, first, moments⟩ := c
    cases pc with
    | consumer => trivial
    | producer v =>
      obtain ⟨s₁, hm, hcore, hv, hle⟩ := hat
      have hnext := hu.grows hs hr h
      exact ⟨s₁, List.mem_cons_of_mem _ hm, hcore, hv, hle.1.trans hnext.1, hle.2.trans hnext.2⟩
    | done taken => cases hrun
  load {s c} hr hrun hmem hat := by
    obtain ⟨key, pc, first, moments⟩ := c
    have hcore := hu.core hs hr
    cases pc with
    | consumer => exact ⟨s, hmem, hcore, rfl, le_rfl, le_rfl⟩
    | producer v =>
      obtain ⟨s₁, hm, hcore₁, hv, hle⟩ := hat
      refine ⟨s₁, hm, s, hmem, hcore₁, hcore, hle, ?_⟩
      subst hv
      rw [hcore.pTail, hcore₁.cHead]
      exact sub32_mod hs (hle.1.trans hcore.le)
    | done taken => cases hrun
  done {s s' c} hdone hat := by
    obtain ⟨key, pc, first, moments⟩ := c
    cases pc with
    | done taken => exact hat
    | _ => cases hdone

/-- What a call of `ck_ring_size` has returned. -/
structure SizeOf (size : Nat) (c : Beside.Call (System (Mem ts ι) (Pc ts) ι) Unit SizePc)
    (taken : Nat) : Prop where
  /-- The consumers' counter is older than the producers' one. -/
  between : ∃ s₁ ∈ c.moments, ∃ s₂ ∈ c.moments, Grows s₁ s₂ ∧
    taken = (s₂.mem.committed - s₁.mem.consumed) % size
  /-- Nothing has been dequeued meanwhile, as when the caller is the only consumer. -/
  consumer : (∀ s ∈ c.moments, s.mem.consumed = c.start.mem.consumed) →
    ∃ s ∈ c.moments, taken = filled s
  /-- Nothing has been enqueued meanwhile, as when the caller is the only producer. -/
  producer : (∀ s ∈ c.moments, s.mem.committed = c.start.mem.committed) →
    ∃ s ∈ c.moments, taken = filled s
  /-- Fewer values than the ring has slots have been in it during the call. -/
  few : (∀ s ∈ c.moments, ∀ s' ∈ c.moments, s'.mem.committed < s.mem.consumed + size) →
    ∃ s₁ ∈ c.moments, ∃ s₂ ∈ c.moments, Grows s₁ s₂ ∧ filled s₂ ≤ taken ∧
      taken = filled s₁ + (s₂.mem.committed - s₁.mem.committed)

omit [DecidableEq ι] in
theorem SizeAt.sizeOf (hs : IsSize size)
    {c : Beside.Call (System (Mem ts ι) (Pc ts) ι) Unit SizePc} {taken : Nat}
    (hat : SizeAt size s c) (hpc : c.pc = .done taken) : SizeOf size c taken := by
  obtain ⟨key, pc, first, moments⟩ := c
  cases hpc
  obtain ⟨s₁, hm₁, s₂, hm₂, hcore₁, hcore₂, hle, htaken⟩ := hat
  have hfew : s₂.mem.committed < s₁.mem.consumed + size →
      taken = s₂.mem.committed - s₁.mem.consumed := by
    intro h
    have hpos := hs.pos
    rw [htaken, Nat.mod_eq_of_lt (by omega)]
  have hpos := hs.pos
  have hlt₁ := hcore₁.lt
  have hlt₂ := hcore₂.lt
  have hle₁ := hcore₁.le
  refine ⟨⟨s₁, hm₁, s₂, hm₂, hle, htaken⟩, fun h => ⟨s₂, hm₂, ?_⟩, fun h => ⟨s₁, hm₁, ?_⟩,
    fun h => ⟨s₁, hm₁, s₂, hm₂, hle, ?_⟩⟩
  · have hsame : s₁.mem.consumed = s₂.mem.consumed := (h s₁ hm₁).trans (h s₂ hm₂).symm
    have hnow := hfew (by omega)
    unfold filled
    omega
  · have hsame : s₁.mem.committed = s₂.mem.committed := (h s₁ hm₁).trans (h s₂ hm₂).symm
    have hnow := hfew (by omega)
    unfold filled
    omega
  · have hnow := hfew (h s₁ hm₁ s₂ hm₂)
    have hconsumed := hle.1
    have hcommitted := hle.2
    unfold filled
    omega

/-- In every interleaving, and however the ring is used, `ck_ring_size` returns the number of the
values in the ring at a moment of the call if only producers or only consumers have been at work
meanwhile, and otherwise counts the values that have come in since. -/
theorem ring_size_sound (hs : IsSize size) (hu : Usage may ok) {κ : Type} [DecidableEq κ]
    {t : Beside.System (System (Mem ts ι) (Pc ts) ι) Unit SizePc κ}
    (hr : Beside.System.Reachable (ckRingSize size) (System.Step (Step size may) ok)
      (start bytes) t) (k : κ) (c : Beside.Call (System (Mem ts ι) (Pc ts) ι) Unit SizePc)
    (hc : t.calls k = some c) (taken : Nat) (hpc : c.pc = .done taken) : SizeOf size c taken :=
  ((sizeAt_invariant bytes hs hu).reachable hr .refl k c hc).sizeOf hs hpc

/-- A value comes in between the two loads. -/
theorem ring_size_sound_between :
    ∃ (t : Beside.System (System (Mem 1 Bool) (Pc 1) Bool) Unit SizePc Unit)
      (c : Beside.Call (System (Mem 1 Bool) (Pc 1) Bool) Unit SizePc),
      Beside.System.Reachable (ckRingSize 4) (System.Step (Step 4 Multi.may) Multi.Timely)
        (start fun _ => 0) t ∧
      t.calls () = some c ∧ c.pc = .done 1 ∧ c.start.mem.committed = 0 ∧ SizeOf 4 c 1 := by
  have small : IsSize 4 := ⟨2, by decide, rfl⟩
  have go : ¬ False ∧ ¬ False := ⟨id, id⟩
  have h₀ : Beside.System.Reachable (ι := Unit) (ckRingSize 4)
      (System.Step (Step 4 Multi.may) Multi.Timely)
      (start fun _ => 0 : System (Mem 1 Bool) (Pc 1) Bool)
      ⟨start fun _ => 0, fun _ => none⟩ := .refl
  have h₁ := h₀.invoke () () (fun _ h => by cases h)
  have h₂ := h₁.loads () 1
  have h₃ := h₂.write (.run true
    (.call (.enqueueMp (some fun _ => 7)) trivial ⟨fun h => (by cases h), fun h => (by cases h)⟩)
    (fun j _ _ => by cases j <;> decide))
  have h₄ := h₃.write (.run true (.act go) (fun j _ _ => by cases j <;> decide))
  have h₅ := h₄.write (.run true (.act go) (fun j _ _ => by cases j <;> decide))
  have h₆ := h₅.write (.run true (.act go) (fun j _ _ => by cases j <;> decide))
  have h₇ := h₆.write (.run true (.act go) (fun j _ _ => by cases j <;> decide))
  have h₈ := h₇.write (.run true (.act go) (fun j _ _ => by cases j <;> decide))
  have h₉ := h₈.write (.run true (.act go) (fun j _ _ => by cases j <;> decide))
  have h₁₀ := h₉.loads () 1
  exact ⟨_, _, h₁₀, rfl, rfl, rfl, ring_size_sound small .multi h₁₀ () _ rfl 1 rfl⟩

end Size

end ConcurrencyKit.Ring
