import ConcurrencyKit.Ring.Model

/-!
# What consumers of a ring rely on

The consumers only rely on `Core`: the counters are the increments modulo `2 ^ 32`, and the
slots between `c_head` and `p_tail` hold what was filed for their positions, as long as the slots
of a ring are `Addressed` apart. A consumer that copies a slot knows what it has copied only if
`c_head` is still what it has loaded. A step of another thread makes the ring `Advance`, which
keeps that knowledge (`atDequeue_advance`).
-/

namespace ConcurrencyKit.Ring

variable {ts : Nat} {ι : Type}

/-- A size that `ck_ring_init` accepts. -/
def IsSize (size : Nat) : Prop := ∃ k < 32, size = 2 ^ k

theorem IsSize.pos {size : Nat} (hs : IsSize size) : 0 < size := by
  obtain ⟨k, -, rfl⟩ := hs
  positivity

theorem IsSize.le {size : Nat} (hs : IsSize size) : size ≤ 2 ^ 31 := by
  obtain ⟨k, hk, rfl⟩ := hs
  exact Nat.pow_le_pow_right (by omega) (by omega)

/-- Masking a counter is masking the number of its increments. -/
theorem IsSize.mod_mod {size : Nat} (hs : IsSize size) (n : Nat) :
    n % 2 ^ 32 % size = n % size := by
  obtain ⟨k, hk, rfl⟩ := hs
  exact Nat.mod_mod_of_dvd n (Nat.pow_dvd_pow 2 (by omega))

/-- Positions fewer than `size` apart are in different slots. -/
theorem mod_ne_of_lt {size a b : Nat} (hlt : a < b) (hb : b < a + size) : a % size ≠ b % size := by
  intro h
  have hdvd : size ∣ b - a := (Nat.modEq_iff_dvd' hlt.le).mp h
  have := Nat.le_of_dvd (by omega) hdvd
  omega

/-- Two slots have no byte in common. -/
def Clear (ts a b : Nat) : Prop := a + ts ≤ b ∨ b + ts ≤ a

theorem Clear.symm {a b : Nat} (h : Clear ts a b) : Clear ts b a := Or.symm h

/-- No slot of the ring is so far into the buffer that its offset wraps. -/
def Addressed (ts size : Nat) : Prop := ts * (size - 1) < 2 ^ 32

/-- A ring whose buffer takes at most `2 ^ 32` bytes. -/
theorem addressed_of_le {size : Nat} (hs : IsSize size) (h : ts * size ≤ 2 ^ 32) :
    Addressed ts size := by
  have hpos := hs.pos
  unfold Addressed
  rcases Nat.eq_zero_or_pos ts with rfl | hts
  · omega
  · have hlt : ts * (size - 1) < ts * size := (Nat.mul_lt_mul_left hts).mpr (by omega)
    omega

/-- The slot of a counter is that of the number of its increments. -/
theorem IsSize.offset_mod {size : Nat} (hs : IsSize size) (ts n : Nat) :
    offset ts size (n % 2 ^ 32) = offset ts size n := by
  unfold offset
  rw [hs.mod_mod]

/-- Where no offset wraps, different slots have no byte in common. -/
theorem Addressed.clear {size a b : Nat} (ha : Addressed ts size) (hs : IsSize size)
    (hne : a % size ≠ b % size) : Clear ts (offset ts size a) (offset ts size b) := by
  have hpos := hs.pos
  have hwrap : ∀ n, offset ts size n = ts * (n % size) := by
    intro n
    have hlt := Nat.mod_lt n hpos
    exact Nat.mod_eq_of_lt ((Nat.mul_le_mul_left ts (by omega)).trans_lt ha)
  have hnext : ∀ {x y : Nat}, x < y → ts * x + ts ≤ ts * y := by
    intro x y hlt
    rw [← Nat.mul_succ]
    exact Nat.mul_le_mul_left ts hlt
  rw [hwrap, hwrap]
  rcases Nat.lt_or_gt_of_ne hne with h | h
  · exact .inl (hnext h)
  · exact .inr (hnext h)

theorem sub32_of_le {n N : Nat} (hle : n ≤ N) (hlt : N < n + 2 ^ 32) :
    sub32 (N % 2 ^ 32) (n % 2 ^ 32) = N - n := by
  unfold sub32
  omega

namespace Mem

/-- The value of position `n` is in its slot, if the slots are apart. -/
def Filed (size : Nat) (m : Mem ts ι) (n : Nat) : Prop :=
  Addressed ts size → m.log n = some (m.read (offset ts size n))

/-- The part of the invariant that the consumers rely on. -/
structure Core (size : Nat) (m : Mem ts ι) : Prop where
  cHead : m.cHead = m.consumed % 2 ^ 32
  pTail : m.pTail = m.committed % 2 ^ 32
  le : m.consumed ≤ m.committed
  lt : m.committed ≤ m.consumed + (size - 1)
  slots : ∀ n, m.consumed ≤ n → n < m.committed → m.Filed size n
  dequeued : Addressed ts size → m.dequeued.map some = (List.range m.consumed).map m.log

/-- Every thread has taken notice of the present state of the ring. -/
structure Noticed (size : Nat) (m : Mem ts ι) : Prop where
  empty : m.pTail = m.cHead → ∀ i, m.sawEmpty i = true
  full : sub32 m.pHead m.cHead = size - 1 → ∀ i, m.sawFull i = true
  filled : sub32 m.pTail m.cHead = size - 1 → ∀ i, m.sawFilled i = true

/-- Thread `i` has loaded `c` from `c_head` when it had been incremented `n` times. -/
def Loaded (size : Nat) (m : Mem ts ι) (i : ι) (c n : Nat) : Prop :=
  c = n % 2 ^ 32 ∧ n ≤ m.consumed ∧ ∃ t, t ≤ n + (size - 1) ∧ t ≤ m.committed ∧
    m.born i + (m.consumed - n) + (m.committed - t) ≤ m.total

/-- What thread `i` knows in a dequeue operation. The single consumer also knows that its
copy of `c_head` is current. -/
def AtDequeue (size : Nat) (i : ι) (m : Mem ts ι) : Pc ts → Prop
  | .deqHead _ => m.born i ≤ m.total
  | .deqTail k c => ∃ n, m.Loaded size i c n ∧ (k = .sc → n = m.consumed)
  | .deqCopy k c => ∃ n, m.Loaded size i c n ∧ (k = .sc → n = m.consumed) ∧
      (n = m.consumed → n < m.committed)
  | .deqStore k c data => ∃ n, m.Loaded size i c n ∧ (k = .sc → n = m.consumed) ∧
      (n = m.consumed → n < m.committed ∧ (Addressed ts size → m.log n = some data))
  | .dequeued k data => k ≠ .tryMc → data = none → m.sawEmpty i = true
  | _ => True

/-- What a step does to the ring in the eyes of the threads that do not make it. -/
structure Advance (i : ι) (m m' : Mem ts ι) : Prop where
  consumed : m.consumed ≤ m'.consumed
  committed : m.committed ≤ m'.committed
  claimed : m.claimed ≤ m'.claimed
  log : ∀ n < m.committed, m'.log n = m.log n
  born : ∀ j ≠ i, m'.born j = m.born j
  sawFull : ∀ j ≠ i, m.sawFull j = true → m'.sawFull j = true
  sawFilled : ∀ j ≠ i, m.sawFilled j = true → m'.sawFilled j = true
  sawEmpty : ∀ j ≠ i, m.sawEmpty j = true → m'.sawEmpty j = true

variable {size : Nat} {m m' : Mem ts ι} {i j : ι}

theorem Advance.refl (i : ι) (m : Mem ts ι) : Advance i m m :=
  ⟨le_rfl, le_rfl, le_rfl, fun _ _ => rfl, fun _ _ => rfl, fun _ _ h => h, fun _ _ h => h,
    fun _ _ h => h⟩

theorem Loaded.advance {c n : Nat} (ha : Advance i m m') (hj : j ≠ i)
    (h : m.Loaded size j c n) : m'.Loaded size j c n := by
  obtain ⟨hc, hle, t, ht, htc, hspan⟩ := h
  have h1 := ha.consumed
  have h2 := ha.committed
  have h3 := ha.claimed
  refine ⟨hc, by omega, t, ht, by omega, ?_⟩
  rw [ha.born j hj]
  unfold total at hspan ⊢
  omega

/-- The knowledge of a consumer outlasts the steps of the other threads. Where the consumer
is the only one, none of these advances `c_head`. -/
theorem atDequeue_advance (ha : Advance i m m') (hj : j ≠ i) {pc : Pc ts}
    (hsc : pc.kind = some (.dequeue .sc) → m'.consumed = m.consumed) (h : AtDequeue size j m pc) :
    AtDequeue size j m' pc := by
  have h1 := ha.consumed
  have h2 := ha.committed
  cases pc with
  | deqHead k =>
    simp only [AtDequeue, total] at h ⊢
    rw [ha.born j hj]
    have := ha.claimed
    omega
  | deqTail k c =>
    obtain ⟨n, hl, hk⟩ := h
    exact ⟨n, hl.advance ha hj, fun he => by rw [hk he, hsc (congrArg (some ∘ Kind.dequeue) he)]⟩
  | deqCopy k c =>
    obtain ⟨n, hl, hk, hn⟩ := h
    refine ⟨n, hl.advance ha hj, fun he => by rw [hk he, hsc (congrArg (some ∘ Kind.dequeue) he)],
      fun he => ?_⟩
    have := hn (by have := hl.2.1; omega)
    omega
  | deqStore k c data =>
    obtain ⟨n, hl, hk, hn⟩ := h
    refine ⟨n, hl.advance ha hj, fun he => by rw [hk he, hsc (congrArg (some ∘ Kind.dequeue) he)],
      fun he => ?_⟩
    obtain ⟨hlt, hlog⟩ := hn (by have := hl.2.1; omega)
    exact ⟨by omega, fun hslots => (ha.log n hlt).trans (hlog hslots)⟩
  | dequeued k data => exact fun hk hd => ha.sawEmpty j hj (h hk hd)
  | _ => trivial

theorem Loaded.now (hc : m.Core size) (hb : m.born i ≤ m.total) :
    m.Loaded size i m.cHead m.consumed :=
  ⟨hc.cHead, le_rfl, m.committed, hc.lt, le_rfl, by omega⟩

/-- A loaded counter that has not wrapped tells whether `c_head` has moved. -/
theorem Loaded.eq_consumed {c n : Nat} (hc : m.Core size) (hl : m.Loaded size i c n)
    (ht : m.total < m.born i + 2 ^ 32) (h : m.cHead = c) : n = m.consumed := by
  obtain ⟨hcn, hle, t, -, htc, hspan⟩ := hl
  rw [hc.cHead, hcn] at h
  exact Threads.eq_of_mod_eq hle (by omega) h.symm

/-- A consumer that finds the loaded `c_head` in `p_tail` looks at an empty ring. -/
theorem Loaded.empty {c n : Nat} (hs : IsSize size) (hc : m.Core size) (hl : m.Loaded size i c n)
    (ht : m.total < m.born i + 2 ^ 32) (h : c = m.pTail) : m.pTail = m.cHead := by
  obtain ⟨hcn, hle, t, htn, htc, hspan⟩ := hl
  have hsize := hs.le
  have h1 := hc.le
  have h2 := hc.lt
  rw [hc.pTail, hcn] at h
  have hn : n = m.committed := Threads.eq_of_mod_eq (by omega) (by omega) h
  rw [hc.pTail, hc.cHead]
  congr 1
  omega

/-- What has been copied into a slot is there. -/
theorem read_copy (slot n : Nat) (v : Value ts) (m : Mem ts ι) :
    (m.copy slot n v).read slot = v := by
  funext k
  have hin : slot ≤ slot + k ∧ slot + k < slot + ts := ⟨Nat.le_add_right _ _, by omega⟩
  show (if h : _ then _ else _) = _
  rw [dif_pos hin]
  congr 1
  exact Fin.ext (Nat.add_sub_cancel_left slot k)

/-- The other slots are as they were. -/
theorem read_copy_of_clear {slot other : Nat} (h : Clear ts other slot) (n : Nat) (v : Value ts)
    (m : Mem ts ι) : (m.copy slot n v).read other = m.read other := by
  funext k
  have hk := k.isLt
  unfold Clear at h
  exact dif_neg (by omega)

theorem filed_copy (size n : Nat) (v : Value ts) (m : Mem ts ι) :
    (m.copy (offset ts size n) n v).Filed size n := by
  intro _
  rw [read_copy]
  exact Function.update_self _ _ _

/-- A copy leaves alone what is in another slot. -/
theorem Filed.copy {a n : Nat} (hf : m.Filed size a) (hs : IsSize size)
    (hne : a % size ≠ n % size) (v : Value ts) :
    (m.copy (offset ts size n) n v).Filed size a := by
  intro hslots
  rw [read_copy_of_clear (hslots.clear hs hne), ← hf hslots]
  exact Function.update_of_ne (fun h => hne (congrArg (· % size) h)) _ _

theorem Core.observe (hc : m.Core size) : (m.observe size).Core size :=
  ⟨hc.cHead, hc.pTail, hc.le, hc.lt, hc.slots, hc.dequeued⟩

theorem observe_noticed (m : Mem ts ι) : (m.observe size).Noticed size := by
  constructor
  · intro h i
    have h' : m.pTail = m.cHead := h
    simp [Mem.observe, h']
  · intro h i
    have h' : sub32 m.pHead m.cHead = size - 1 := h
    simp [Mem.observe, h']
  · intro h i
    have h' : sub32 m.pTail m.cHead = size - 1 := h
    simp [Mem.observe, h']

theorem AtDequeue.observe {pc : Pc ts} (h : AtDequeue size i m pc) :
    AtDequeue size i (m.observe size) pc := by
  cases pc with
  | dequeued k data =>
    intro hk hd
    simp [Mem.observe, h hk hd]
  | _ => exact h

/-- Enqueue operations know nothing about dequeues. -/
theorem atDequeue_of_enqueue {pc : Pc ts} {k : Producer} (h : pc.InEnqueue k) :
    AtDequeue size i m pc := by
  rcases h with h | rfl | ⟨ok, sz, rfl⟩
  · cases pc with
    | deqHead => cases h
    | deqTail => cases h
    | deqCopy => cases h
    | deqStore => cases h
    | dequeued => cases h
    | _ => trivial
  · trivial
  · trivial

theorem Core.begin [DecidableEq ι] (hc : m.Core size) : (m.begin i).Core size :=
  ⟨hc.cHead, hc.pTail, hc.le, hc.lt, hc.slots, hc.dequeued⟩

theorem advance_begin [DecidableEq ι] : Advance i m (m.begin i) where
  consumed := le_rfl
  committed := le_rfl
  claimed := le_rfl
  log _ _ := rfl
  born _ hj := Function.update_of_ne hj _ _
  sawFull _ hj h := (Function.update_of_ne hj _ _).trans h
  sawFilled _ hj h := (Function.update_of_ne hj _ _).trans h
  sawEmpty _ hj h := (Function.update_of_ne hj _ _).trans h

/-- What a step of a consumer does to the ring: nothing, or it takes the next value. -/
def Takes (size : Nat) (m m' : Mem ts ι) : Prop :=
  m' = m ∨ ∃ data, m.consumed < m.committed ∧
    (Addressed ts size → m.log m.consumed = some data) ∧
    m' = m.storeHead ((m.cHead + 1) % 2 ^ 32) data

theorem Takes.core (hc : m.Core size) (h : Takes size m m') : m'.Core size := by
  rcases h with rfl | ⟨data, hlt, hlog, rfl⟩
  · exact hc
  · refine ⟨?_, hc.pTail, hlt, ?_, fun n h1 h2 => hc.slots n ?_ h2, fun hslots => ?_⟩
    · show (m.cHead + 1) % 2 ^ 32 = (m.consumed + 1) % 2 ^ 32
      rw [hc.cHead]
      omega
    · have := hc.lt
      show m.committed ≤ m.consumed + 1 + (size - 1)
      omega
    · exact (Nat.le_succ _).trans h1
    · show (m.dequeued ++ [data]).map some = (List.range (m.consumed + 1)).map m.log
      rw [List.map_append, hc.dequeued hslots, List.range_succ, List.map_append]
      simp [hlog hslots]

theorem Takes.advance (h : Takes size m m') : Advance i m m' := by
  rcases h with rfl | ⟨data, -, -, rfl⟩
  · exact .refl i m'
  · exact ⟨Nat.le_succ _, le_rfl, le_rfl, fun _ _ => rfl, fun _ _ => rfl, fun _ _ h => h,
      fun _ _ h => h, fun _ _ h => h⟩

/-- One access of a dequeue operation. -/
theorem dequeue_act (hs : IsSize size) (hc : m.Core size) (hn : m.Noticed size) {pc : Pc ts}
    {k : Consumer} (hpc : pc.kind = some (.dequeue k))
    (ht : k ≠ .sc → m.total < m.born i + 2 ^ 32) (hat : AtDequeue size i m pc) :
    Takes size m (m.act size i pc).1 ∧ AtDequeue size i (m.act size i pc).1 (m.act size i pc).2 ∧
      (m.act size i pc).2.InDequeue k := by
  cases pc with
  | deqHead k' =>
    refine ⟨.inl rfl, ⟨m.consumed, Loaded.now hc hat, fun _ => rfl⟩, .inl hpc⟩
  | deqTail k' c =>
    obtain ⟨n, hl, hsc⟩ := hat
    cases hpc
    by_cases he : c = m.pTail
    · simp only [Mem.act, if_pos he]
      refine ⟨.inl rfl, fun _ _ => hn.empty ?_ i, .inr ⟨_, rfl⟩⟩
      by_cases hk : k = .sc
      · -- the single consumer compares the counters as they are
        rw [← he, hl.1, hsc hk, hc.cHead]
      · exact hl.empty hs hc (ht hk) he
    · simp only [Mem.act, if_neg he]
      refine ⟨.inl rfl, ⟨n, hl, hsc, fun hnc => ?_⟩, .inl rfl⟩
      have hle := hc.le
      by_contra hge
      refine he ?_
      rw [hl.1, hc.pTail]
      congr 1
      omega
  | deqCopy k' c =>
    obtain ⟨n, hl, hsc, hlt⟩ := hat
    refine ⟨.inl rfl, ⟨n, hl, hsc, fun hnc => ⟨hlt hnc, ?_⟩⟩, .inl hpc⟩
    rw [hl.1, hs.offset_mod]
    exact hc.slots n hnc.ge (hlt hnc)
  | deqStore k' c data =>
    obtain ⟨n, hl, hsc, hdata⟩ := hat
    cases hpc
    -- whichever way `c_head` is advanced, the copy was current
    have htake : n = m.consumed →
        Takes size m (m.storeHead ((c + 1) % 2 ^ 32) data) := by
      intro hnc
      have hcn : c = m.cHead := by rw [hl.1, hnc, hc.cHead]
      obtain ⟨hlt, hlog⟩ := hdata hnc
      rw [hnc] at hlt hlog
      exact .inr ⟨data, hlt, hlog, by rw [hcn]⟩
    have hback : AtDequeue size i m (.deqTail k m.cHead) := by
      obtain ⟨-, -, t, -, -, hspan⟩ := hl
      exact ⟨m.consumed, Loaded.now hc (by omega), fun _ => rfl⟩
    cases k with
    | sc => refine ⟨htake (hsc rfl), fun _ => nofun, .inr ⟨_, rfl⟩⟩
    | mc =>
      by_cases he : m.cHead = c
      · simp only [Mem.act, if_pos he]
        exact ⟨htake (hl.eq_consumed hc (ht nofun) he), fun _ => nofun, .inr ⟨_, rfl⟩⟩
      · simp only [Mem.act, if_neg he, reduceCtorEq, if_false]
        exact ⟨.inl rfl, hback, .inl rfl⟩
    | tryMc =>
      by_cases he : m.cHead = c
      · simp only [Mem.act, if_pos he]
        exact ⟨htake (hl.eq_consumed hc (ht nofun) he), fun _ => nofun, .inr ⟨_, rfl⟩⟩
      · simp only [Mem.act, if_neg he, if_true]
        exact ⟨.inl rfl, fun h => absurd rfl h, .inr ⟨_, rfl⟩⟩
  | _ => cases hpc

end Mem

end ConcurrencyKit.Ring
