import ConcurrencyKit.Pflock.Model

/-!
# What the words of `ck_pflock` say

`rin` counts the readers that have come, above the bits of the announced writer, and `rout` those
that have left. The number of readers that a writer finds in `rin` is a fence: readers that come
later wait for it. When `rout` has got there, the readers before it have left.

A reader that waits has found a writer announced. Either this writer has not given its turn to the
next one; or the next one has the turn, and will wait for the reader.
-/

namespace ConcurrencyKit.Pflock

open Packed (pack)
open Visits (Visit)

/-! ## Words -/

/-- The bits of the writer with this number in `rin`. -/
def phaseBits (number : Nat) : Nat := 2 + number % 2

/-- `rin` or `rout` after so many increments, with these bits below. -/
def counter (n bits : Nat) : Nat := pack 8 (n % 2 ^ 24) bits

theorem phaseBits_lt (number : Nat) : phaseBits number < 2 ^ 8 := by
  unfold phaseBits
  omega

theorem phaseBits_ne_zero (number : Nat) : phaseBits number ≠ 0 := by
  unfold phaseBits
  omega

theorem phaseBits_succ (number : Nat) : phaseBits (number + 1) ≠ phaseBits number := by
  unfold phaseBits
  omega

/-- The bits that a writer with this ticket adds to `rin`. -/
theorem ticket_bits (number : Nat) :
    ((number % 2 ^ 32) &&& phid) ||| pres = phaseBits number := by
  have hand : (number % 2 ^ 32) &&& phid = number % 2 := by
    have hphid : phid = 2 ^ 1 - 1 := by decide
    rw [hphid, Nat.and_two_pow_sub_one_eq_mod]
    omega
  rw [hand]
  unfold phaseBits
  rcases Nat.mod_two_eq_zero_or_one number with h | h <;> rw [h] <;> rfl

theorem counter_add (n : Nat) {bits : Nat} (hbits : bits < 2 ^ 8) :
    (counter n bits + rinc) % 2 ^ 32 = counter (n + 1) bits := by
  unfold counter pack rinc
  omega

theorem counter_announce (n number : Nat) :
    (counter n 0 + phaseBits number) % 2 ^ 32 = counter n (phaseBits number) := by
  have hbits := phaseBits_lt number
  unfold counter pack
  omega

theorem counter_wbits (n : Nat) {bits : Nat} (hbits : bits < 2 ^ 8) :
    counter n bits &&& wbits = bits &&& 3 := by
  have hmask : wbits = pack 8 0 3 := by decide
  rw [hmask, counter, Packed.pack_and hbits (by decide), Nat.and_zero]
  simp [pack]

theorem phaseBits_and (number : Nat) : phaseBits number &&& 3 = phaseBits number := by
  unfold phaseBits
  rcases Nat.mod_two_eq_zero_or_one number with h | h <;> rw [h] <;> rfl

theorem phaseBits_lsb (number : Nat) : phaseBits number &&& 0xF0 = 0 := by
  unfold phaseBits
  rcases Nat.mod_two_eq_zero_or_one number with h | h <;> rw [h] <;> rfl

theorem counter_lsb (n number : Nat) : counter n (phaseBits number) &&& lsb = counter n 0 := by
  have hmask : lsb = pack 8 (2 ^ 24 - 1) 0xF0 := by decide
  rw [hmask, counter, Packed.pack_and (phaseBits_lt number) (by decide), phaseBits_lsb,
    Nat.and_two_pow_sub_one_eq_mod, Nat.mod_mod]
  rfl

theorem counter_inj {n n' : Nat} (h : counter n 0 = counter n' 0) : n % 2 ^ 24 = n' % 2 ^ 24 :=
  ((Packed.pack_inj (by decide) (by decide)).mp h).1

/-! ## The invariant -/

variable {ι : Type} {i j : ι} {m m' : Mem ι} {pc pc' : Pc ι}
variable {t u : Visit ι (Option Nat)} {a b : Visit ι Unit} {n number : Nat}

/-- The lower bits of `rin`. -/
def Mem.bits (m : Mem ι) : Nat :=
  match m.phase with
  | .announced _ => phaseBits m.writers.left
  | _ => 0

/-- A reader that has found a writer announced can wait for it only, and the next writer waits for
the reader. -/
def Follows (m : Mem ι) (number writer : Nat) : Prop :=
  match m.phase with
  | .quiet => m.writers.left = writer + 1
  | .announced n => if number < n then m.writers.left = writer + 1 else m.writers.left = writer
  | .cleared => m.writers.left = writer

/-- What the words say about the users. -/
structure Inv (m : Mem ι) : Prop where
  rin : m.rin = counter m.readers.arrived m.bits
  rout : m.rout = counter m.readers.left 0
  win : m.win = m.writers.arrived % 2 ^ 32
  wout : m.wout = m.writers.left % 2 ^ 32
  readers : m.readers.Valid
  writers : m.writers.Valid
  inOrder : m.writers.InOrder
  fence : ∀ n, m.phase = .announced n → m.readers.Fence n
  follows : ∀ t ∈ m.readers.present, ∀ writer, t.note = some writer → Follows m t.number writer
  /-- Only a writer that is there can be announced. -/
  busy : m.phase ≠ .quiet → m.writers.left < m.writers.arrived
  quiet : m.phase = .quiet → m.finished = m.writers.left ∧ m.entered = m.writers.left
  cleared : m.phase = .cleared → m.finished = m.writers.left + 1
  finished : m.writers.left ≤ m.finished
  entered : m.finished ≤ m.entered ∧ m.entered ≤ m.writers.left + 1

/-- Thread `i` has come with this visit, and has not left. -/
def Holds {τ : Type} (i : ι) (v : Visits ι τ) (t : Visit ι τ) : Prop :=
  t ∈ v.present ∧ t.owner = i

/-- An announced writer does not wait for readers that come later. -/
def Ahead (m : Mem ι) (number : Nat) : Prop := ∀ n, m.phase = .announced n → number < n

/-- The writer with this number has its turn, and all readers before its announcement have left. -/
structure Alone (m : Mem ι) (number : Nat) : Prop where
  turn : number = m.writers.left
  empty : ∃ n, m.phase = .announced n ∧ m.readers.before n = ∅

/-- What is known about thread `i` from where it stands. -/
def At (i : ι) (m : Mem ι) : Pc ι → Prop
  | .idle | .writeWin | .readRin => True
  | .readWait t w =>
    Holds i m.readers t ∧ ∃ writer, t.note = some writer ∧ w = phaseBits writer
  | .reading t | .unlockRout t => Holds i m.readers t ∧ Ahead m t.number
  | .writeWout a ticket =>
    Holds i m.writers a ∧ ticket = a.number % 2 ^ 32 ∧
      (a.number = m.writers.left → m.phase = .quiet)
  | .writeRin a ticket =>
    Holds i m.writers a ∧ ticket = a.number % 2 ^ 32 ∧ a.number = m.writers.left ∧
      m.phase = .quiet
  | .writeRout a ticket =>
    Holds i m.writers a ∧ a.number = m.writers.left ∧ m.entered = m.writers.left ∧
      ∃ n, m.phase = .announced n ∧ ticket = counter n 0
  | .writing a =>
    Holds i m.writers a ∧ Alone m a.number ∧ m.entered = m.writers.left + 1 ∧
      m.finished = m.writers.left
  | .unlockRin a =>
    Holds i m.writers a ∧ Alone m a.number ∧ m.finished = m.writers.left + 1
  | .unlockWout a => Holds i m.writers a ∧ a.number = m.writers.left ∧ m.phase = .cleared

/-! ## What a thread learns from the words -/

theorem Inv.rin_wbits (hinv : Inv m) : m.rin &&& wbits = m.bits := by
  rw [hinv.rin]
  unfold Mem.bits
  split
  · rw [counter_wbits _ (phaseBits_lt _), phaseBits_and]
  · rw [counter_wbits _ (by decide)]
    rfl

/-- A reader that finds no writer announced may enter. -/
theorem Inv.ahead_of_zero (hinv : Inv m) (h : m.rin &&& wbits = 0) (number : Nat) :
    Ahead m number := by
  intro n hn
  rw [hinv.rin_wbits] at h
  simp only [Mem.bits, hn] at h
  exact absurd h (phaseBits_ne_zero _)

/-- A reader that finds a writer announced has found the one whose turn it is. -/
theorem Inv.seen_of_ne_zero (hinv : Inv m) (h : m.rin &&& wbits ≠ 0) :
    m.seen = some m.writers.left ∧ m.rin &&& wbits = phaseBits m.writers.left := by
  rw [hinv.rin_wbits] at h ⊢
  cases hphase : m.phase with
  | announced n => simp [Mem.seen, Mem.bits, hphase]
  | quiet | cleared => simp [Mem.bits, hphase] at h

/-- The bits that a reader waits for are there as long as it may not enter. -/
theorem Inv.waits_iff (hinv : Inv m) (ht : t ∈ m.readers.present) {writer : Nat}
    (hnote : t.note = some writer) :
    m.rin &&& wbits = phaseBits writer ↔
      ∃ n, m.phase = .announced n ∧ n ≤ t.number ∧ m.writers.left = writer := by
  have hfollows := hinv.follows t ht writer hnote
  rw [hinv.rin_wbits]
  unfold Mem.bits Follows at *
  cases hphase : m.phase with
  | quiet | cleared => simp [(phaseBits_ne_zero writer).symm]
  | announced n =>
    simp only [hphase] at hfollows ⊢
    split at hfollows
    case isTrue hlt =>
      rw [hfollows]
      constructor
      · intro heq
        exact absurd heq (phaseBits_succ writer)
      · rintro ⟨n', hn', hle, -⟩
        cases hn'
        omega
    case isFalse hle =>
      rw [hfollows]
      exact iff_of_true rfl ⟨n, rfl, by omega, rfl⟩

/-- A reader whose bits are gone may enter. -/
theorem Inv.ahead_of_ne (hinv : Inv m) (ht : t ∈ m.readers.present) {writer : Nat}
    (hnote : t.note = some writer) (h : m.rin &&& wbits ≠ phaseBits writer) :
    Ahead m t.number := by
  intro n hn
  by_contra hle
  have hfollows := hinv.follows t ht writer hnote
  simp only [Follows, hn, if_neg hle] at hfollows
  exact h ((hinv.waits_iff ht hnote).mpr ⟨n, hn, Nat.not_lt.mp hle, hfollows⟩)

/-- When a writer finds as many readers gone as it has found in `rin`, these are gone. -/
theorem Inv.alone (hinv : Inv m) (hfew : Few i m pc) (hn : m.phase = .announced n)
    (h : m.rout = counter n 0) : m.readers.before n = ∅ :=
  (hinv.fence n hn).passed hinv.readers hfew.1 (counter_inj (hinv.rout.symm.trans h))

/-- When a writer finds its ticket in `wout`, it has its turn. -/
theorem Inv.turn (hinv : Inv m) (hfew : Few i m pc) (ha : a ∈ m.writers.present)
    (h : m.wout = a.number % 2 ^ 32) : a.number = m.writers.left :=
  hinv.inOrder.first hinv.writers ha hfew.2 (hinv.wout.symm.trans h)

/-! ## The writer that has its turn -/

/-- Only one writer has its turn. -/
theorem Inv.one_turn (hinv : Inv m) (ha : Holds i m.writers a) (hb : Holds j m.writers b)
    (hnumber : a.number = m.writers.left) (hnumber' : b.number = m.writers.left) : j = i := by
  have heq := hinv.writers.unique a ha.1 b hb.1 (hnumber.trans hnumber'.symm)
  rw [← ha.2, heq, hb.2]

theorem Inv.announce (hinv : Inv m) (hphase : m.phase = .quiet)
    (ha : Holds i m.writers a) (hnumber : a.number = m.writers.left) {ticket : Nat}
    (hticket : ticket = a.number % 2 ^ 32) : Inv (m.announce ticket) where
  rin := by
    have hrin := hinv.rin
    simp only [Mem.bits, hphase] at hrin
    simp only [Mem.announce, Mem.bits]
    rw [hrin, hticket, ticket_bits, hnumber, counter_announce]
  rout := hinv.rout
  win := hinv.win
  wout := hinv.wout
  readers := hinv.readers
  writers := hinv.writers
  inOrder := hinv.inOrder
  fence n hn := by
    cases hn
    exact hinv.readers.fence
  follows t ht writer hnote := by
    have hfollows := hinv.follows t ht writer hnote
    have hlt := hinv.readers.lt t ht
    simp only [Follows, hphase] at hfollows
    simp only [Follows, Mem.announce, if_pos hlt]
    exact hfollows
  busy _ := hnumber ▸ hinv.writers.lt a ha.1
  quiet h := by simp [Mem.announce] at h
  cleared h := by simp [Mem.announce] at h
  finished := hinv.finished
  entered := hinv.entered

theorem Inv.enter (hinv : Inv m) (hn : m.phase = .announced n)
    (hentered : m.entered = m.writers.left) : Inv m.enter where
  rin := hinv.rin
  rout := hinv.rout
  win := hinv.win
  wout := hinv.wout
  readers := hinv.readers
  writers := hinv.writers
  inOrder := hinv.inOrder
  fence := hinv.fence
  follows := hinv.follows
  busy := hinv.busy
  quiet h := by simp [Mem.enter, hn] at h
  cleared h := by simp [Mem.enter, hn] at h
  finished := hinv.finished
  entered := by
    have := hinv.entered
    simp only [Mem.enter]
    omega

theorem Inv.finish (hinv : Inv m) (hn : m.phase = .announced n)
    (hentered : m.entered = m.writers.left + 1) (hfinished : m.finished = m.writers.left) :
    Inv m.finish where
  rin := hinv.rin
  rout := hinv.rout
  win := hinv.win
  wout := hinv.wout
  readers := hinv.readers
  writers := hinv.writers
  inOrder := hinv.inOrder
  fence := hinv.fence
  follows := hinv.follows
  busy := hinv.busy
  quiet h := by simp [Mem.finish, hn] at h
  cleared h := by simp [Mem.finish, hn] at h
  finished := by
    simp only [Mem.finish]
    omega
  entered := by
    simp only [Mem.finish]
    omega

theorem Inv.clear (hinv : Inv m) (hn : m.phase = .announced n) (hempty : m.readers.before n = ∅)
    (hfinished : m.finished = m.writers.left + 1) : Inv m.clear where
  rin := by
    have hrin := hinv.rin
    simp only [Mem.bits, hn] at hrin
    simp only [Mem.clear, Mem.bits]
    rw [hrin, counter_lsb]
  rout := hinv.rout
  win := hinv.win
  wout := hinv.wout
  readers := hinv.readers
  writers := hinv.writers
  inOrder := hinv.inOrder
  fence n h := by simp [Mem.clear] at h
  follows t ht writer hnote := by
    -- the readers that are there have come after the announcement
    have hlate : ¬ t.number < n := fun hlt => by
      have hmem : t ∈ m.readers.before n := Visits.mem_before.mpr ⟨ht, hlt⟩
      simp [hempty] at hmem
    have hfollows := hinv.follows t ht writer hnote
    simp only [Follows, hn, if_neg hlate] at hfollows
    exact hfollows
  busy _ := hinv.busy (by simp [hn])
  quiet h := by simp [Mem.clear] at h
  cleared _ := hfinished
  finished := hinv.finished
  entered := hinv.entered

/-! ## Steps and the other threads -/

/-- What a step leaves as it is for a writer that has its turn. -/
structure Kept (m m' : Mem ι) : Prop where
  left : m'.writers.left = m.writers.left
  phase : m'.phase = m.phase
  entered : m'.entered = m.entered
  finished : m'.finished = m.finished
  before : ∀ n, m.phase = .announced n → m.readers.before n = ∅ → m'.readers.before n = ∅

theorem Alone.kept (h : Alone m number) (hkept : Kept m m') : Alone m' number := by
  obtain ⟨n, hn, hempty⟩ := h.empty
  exact ⟨h.turn.trans hkept.left.symm, n, hkept.phase.trans hn, hkept.before n hn hempty⟩

/-- What a step has to leave as it is for another thread. -/
theorem At.frame (h : At j m pc) (hreader : ∀ t, Holds j m.readers t → Holds j m'.readers t)
    (hwriter : ∀ a, Holds j m.writers a → Holds j m'.writers a)
    (hahead : ∀ t, Holds j m.readers t → Ahead m t.number → Ahead m' t.number)
    (hwait : ∀ a, Holds j m.writers a → (a.number = m.writers.left → m.phase = .quiet) →
      a.number = m'.writers.left → m'.phase = .quiet)
    (hturn : ∀ a, Holds j m.writers a → a.number = m.writers.left → Kept m m') : At j m' pc := by
  cases pc with
  | idle | writeWin | readRin => trivial
  | readWait t w => exact ⟨hreader t h.1, h.2⟩
  | reading t | unlockRout t => exact ⟨hreader t h.1, hahead t h.1 h.2⟩
  | writeWout a ticket =>
    obtain ⟨hholds, hticket, hquiet⟩ := h
    exact ⟨hwriter a hholds, hticket, hwait a hholds hquiet⟩
  | writeRin a ticket =>
    obtain ⟨hholds, hticket, hnumber, hphase⟩ := h
    have hkept := hturn a hholds hnumber
    exact ⟨hwriter a hholds, hticket, hnumber.trans hkept.left.symm, hkept.phase.trans hphase⟩
  | writeRout a ticket =>
    obtain ⟨hholds, hnumber, hentered, n, hn, hticket⟩ := h
    have hkept := hturn a hholds hnumber
    refine ⟨hwriter a hholds, hnumber.trans hkept.left.symm, ?_, n, hkept.phase.trans hn, hticket⟩
    rw [hkept.entered, hkept.left, hentered]
  | writing a =>
    obtain ⟨hholds, halone, hentered, hfinished⟩ := h
    have hkept := hturn a hholds halone.turn
    refine ⟨hwriter a hholds, halone.kept hkept, ?_, ?_⟩
    · rw [hkept.entered, hkept.left, hentered]
    · rw [hkept.finished, hkept.left, hfinished]
  | unlockRin a =>
    obtain ⟨hholds, halone, hfinished⟩ := h
    have hkept := hturn a hholds halone.turn
    refine ⟨hwriter a hholds, halone.kept hkept, ?_⟩
    rw [hkept.finished, hkept.left, hfinished]
  | unlockWout a =>
    obtain ⟨hholds, hnumber, hphase⟩ := h
    have hkept := hturn a hholds hnumber
    exact ⟨hwriter a hholds, hnumber.trans hkept.left.symm, hkept.phase.trans hphase⟩

/-- A step of the writer that has its turn, before it gives it to the next one. -/
theorem At.other_turn (hinv : Inv m) (hj : j ≠ i) (ha : Holds i m.writers a)
    (hnumber : a.number = m.writers.left) (hreaders : m'.readers = m.readers)
    (hwriters : m'.writers = m.writers)
    (hahead : ∀ t ∈ m.readers.present, Ahead m t.number → Ahead m' t.number) (h : At j m pc) :
    At j m' pc := by
  have hnot : ∀ b, Holds j m.writers b → b.number ≠ m.writers.left :=
    fun b hb heq => hj (hinv.one_turn ha hb hnumber heq)
  refine h.frame (fun t ht => by rwa [hreaders]) (fun b hb => by rwa [hwriters])
    (fun t ht => hahead t ht.1) (fun b hb _ heq => ?_) fun b hb heq => absurd heq (hnot b hb)
  rw [hwriters] at heq
  exact absurd heq (hnot b hb)

theorem At.other_announce (hinv : Inv m) (hj : j ≠ i) (ha : Holds i m.writers a)
    (hnumber : a.number = m.writers.left) (ticket : Nat) (h : At j m pc) :
    At j (m.announce ticket) pc := by
  refine h.other_turn hinv hj ha hnumber rfl rfl fun t ht _ n hn => ?_
  cases hn
  exact hinv.readers.lt t ht

theorem At.other_clear (hinv : Inv m) (hj : j ≠ i) (ha : Holds i m.writers a)
    (hnumber : a.number = m.writers.left) (h : At j m pc) : At j m.clear pc := by
  refine h.other_turn hinv hj ha hnumber rfl rfl fun t _ _ n hn => ?_
  simp [Mem.clear] at hn

variable [DecidableEq ι]

theorem Inv.faaWout (hinv : Inv m) (ha : a ∈ m.writers.present)
    (hnumber : a.number = m.writers.left) (hphase : m.phase = .cleared) : Inv (m.faaWout a) where
  rin := by
    have hrin := hinv.rin
    simp only [Mem.bits, hphase] at hrin
    exact hrin
  rout := hinv.rout
  win := hinv.win
  wout := by
    simp only [Mem.faaWout, Visits.leave]
    rw [hinv.wout, Nat.mod_add_mod]
  readers := hinv.readers
  writers := hinv.writers.leave ha
  inOrder := hinv.inOrder.leave hinv.writers ha hnumber
  fence n h := by simp [Mem.faaWout] at h
  follows t ht writer hnote := by
    have hfollows := hinv.follows t ht writer hnote
    simp only [Follows, hphase] at hfollows
    simp only [Follows, Mem.faaWout, Visits.leave, hfollows]
  busy h := by simp [Mem.faaWout] at h
  quiet _ := by
    have hfinished := hinv.cleared hphase
    have hentered := hinv.entered
    simp only [Mem.faaWout, Visits.leave]
    omega
  cleared h := by simp [Mem.faaWout] at h
  finished := by
    have hfinished := hinv.cleared hphase
    simp only [Mem.faaWout, Visits.leave]
    omega
  entered := by
    have hentered := hinv.entered
    simp only [Mem.faaWout, Visits.leave]
    omega

/-! ## Comers and leavers -/

theorem Inv.faaWin (hinv : Inv m) : Inv (m.faaWin i) where
  rin := hinv.rin
  rout := hinv.rout
  win := by
    simp only [Mem.faaWin, Visits.arrive]
    rw [hinv.win, Nat.mod_add_mod]
  wout := hinv.wout
  readers := hinv.readers
  writers := hinv.writers.arrive
  inOrder := hinv.inOrder.arrive hinv.writers
  fence := hinv.fence
  follows := hinv.follows
  busy h := Nat.lt_succ_of_lt (hinv.busy h)
  quiet := hinv.quiet
  cleared := hinv.cleared
  finished := hinv.finished
  entered := hinv.entered

theorem Inv.faaRin (hinv : Inv m) : Inv (m.faaRin i) where
  rin := by
    have hbits : (m.faaRin i).bits = m.bits := rfl
    have hlt : m.bits < 2 ^ 8 := by
      unfold Mem.bits
      split
      · exact phaseBits_lt _
      · decide
    rw [hbits]
    simp only [Mem.faaRin, Visits.arrive]
    rw [hinv.rin, counter_add _ hlt]
  rout := hinv.rout
  win := hinv.win
  wout := hinv.wout
  readers := hinv.readers.arrive
  writers := hinv.writers
  inOrder := hinv.inOrder
  fence n hn := (hinv.fence n hn).arrive
  follows t ht writer hnote := by
    rcases Visits.mem_arrive.mp ht with rfl | ht
    · cases hphase : m.phase with
      | quiet | cleared => simp [Mem.seen, hphase] at hnote
      | announced n =>
        have hle := (hinv.fence n hphase).1
        simp only [Mem.seen, hphase, Option.some.injEq] at hnote
        simp only [Follows, Mem.faaRin, hphase, if_neg (Nat.not_lt.mpr hle)]
        exact hnote
    · exact hinv.follows t ht writer hnote
  busy := hinv.busy
  quiet := hinv.quiet
  cleared := hinv.cleared
  finished := hinv.finished
  entered := hinv.entered

theorem Inv.faaRout (hinv : Inv m) (ht : t ∈ m.readers.present) (hahead : Ahead m t.number) :
    Inv (m.faaRout t) where
  rin := hinv.rin
  rout := by
    simp only [Mem.faaRout, Visits.leave]
    rw [hinv.rout, counter_add _ (by decide)]
  win := hinv.win
  wout := hinv.wout
  readers := hinv.readers.leave ht
  writers := hinv.writers
  inOrder := hinv.inOrder
  fence n hn := (hinv.fence n hn).leave ht (hahead n hn)
  follows u hu := hinv.follows u (Visits.mem_leave.mp hu).2
  busy := hinv.busy
  quiet := hinv.quiet
  cleared := hinv.cleared
  finished := hinv.finished
  entered := hinv.entered

theorem At.other_faaWout (hinv : Inv m) (hj : j ≠ i) (ha : Holds i m.writers a)
    (hnumber : a.number = m.writers.left) (h : At j m pc) : At j (m.faaWout a) pc := by
  have hne : ∀ b : Visit ι Unit, b.owner = j → b ≠ a := by
    rintro b hb rfl
    exact hj (hb.symm.trans ha.2)
  refine h.frame (fun _ ht => ht)
    (fun b hb => ⟨Visits.mem_leave.mpr ⟨hne b hb.2, hb.1⟩, hb.2⟩) (fun _ _ _ n hn => ?_)
    (fun _ _ _ _ => rfl) fun b hb heq => absurd (hinv.one_turn ha hb hnumber heq) hj
  simp [Mem.faaWout] at hn

theorem At.other_faaWin (h : At j m pc) : At j (m.faaWin i) pc :=
  h.frame (fun _ ht => ht) (fun _ ha => ⟨Visits.mem_arrive.mpr (.inr ha.1), ha.2⟩)
    (fun _ _ hahead => hahead) (fun _ _ hquiet heq => hquiet heq)
    fun _ _ _ => ⟨rfl, rfl, rfl, rfl, fun _ _ hempty => hempty⟩

theorem At.other_faaRin (hinv : Inv m) (h : At j m pc) : At j (m.faaRin i) pc := by
  refine h.frame (fun _ ht => ⟨Visits.mem_arrive.mpr (.inr ht.1), ht.2⟩) (fun _ ha => ha)
    (fun _ _ hahead => hahead) (fun _ _ hquiet heq => hquiet heq)
    fun _ _ _ => ⟨rfl, rfl, rfl, rfl, fun n hn hempty => ?_⟩
  exact (hinv.fence n hn).before_arrive.trans hempty

theorem At.other_faaRout (hj : j ≠ i) (ht : t.owner = i) (h : At j m pc) :
    At j (m.faaRout t) pc := by
  have hne : ∀ u : Visit ι (Option Nat), u.owner = j → u ≠ t := by
    rintro u hu rfl
    exact hj (hu.symm.trans ht)
  refine h.frame (fun u hu => ⟨Visits.mem_leave.mpr ⟨hne u hu.2, hu.1⟩, hu.2⟩) (fun _ ha => ha)
    (fun _ _ hahead => hahead) (fun _ _ hquiet heq => hquiet heq)
    fun _ _ _ => ⟨rfl, rfl, rfl, rfl, fun n _ hempty => ?_⟩
  change (m.readers.leave t).before n = ∅
  rw [Visits.before_leave, hempty, Finset.erase_empty]

/-! ## Runs -/

theorem invariant : Threads.Invariant (Step (ι := ι)) Few Inv At where
  own := by
    intro i m pc m' pc' hstep hfew hinv h
    cases hstep with
    | writeLock | readLock => exact ⟨hinv, trivial⟩
    | readUnlock t => exact ⟨hinv, h⟩
    | writeUnlock a =>
      obtain ⟨hholds, halone, hentered, hfinished⟩ := h
      obtain ⟨n, hn, hempty⟩ := halone.empty
      refine ⟨hinv.finish hn hentered hfinished, hholds, ⟨halone.turn, n, hn, hempty⟩, ?_⟩
      simp only [Mem.finish, hfinished]
    | act =>
      cases pc with
      | idle | reading | writing => exact ⟨hinv, h⟩
      | writeWin =>
        refine ⟨hinv.faaWin, ⟨Visits.mem_arrive.mpr (.inl rfl), rfl⟩, hinv.win, fun hfirst => ?_⟩
        by_contra hphase
        have hbusy := hinv.busy hphase
        simp only [act, Mem.writeVisit, Mem.faaWin, Visits.arrive] at hfirst
        omega
      | writeWout a ticket =>
        obtain ⟨hholds, hticket, hquiet⟩ := h
        simp only [act]
        split
        case isTrue => exact ⟨hinv, hholds, hticket, hquiet⟩
        case isFalse heq =>
          have hnumber := hinv.turn hfew hholds.1 ((not_not.mp heq).trans hticket)
          exact ⟨hinv, hholds, hticket, hnumber, hquiet hnumber⟩
      | writeRin a ticket =>
        obtain ⟨hholds, hticket, hnumber, hphase⟩ := h
        have hrin := hinv.rin
        simp only [Mem.bits, hphase] at hrin
        exact ⟨hinv.announce hphase hholds hnumber hticket, hholds, hnumber,
          (hinv.quiet hphase).2, m.readers.arrived, rfl, hrin⟩
      | writeRout a ticket =>
        obtain ⟨hholds, hnumber, hentered, n, hn, hticket⟩ := h
        simp only [act]
        split
        case isTrue => exact ⟨hinv, hholds, hnumber, hentered, n, hn, hticket⟩
        case isFalse heq =>
          have hempty := hinv.alone hfew hn ((not_not.mp heq).trans hticket)
          have hfinished : m.finished = m.writers.left := by
            have h₁ := hinv.finished
            have h₂ := hinv.entered
            omega
          refine ⟨hinv.enter hn hentered, hholds, ⟨hnumber, n, hn, hempty⟩, ?_, hfinished⟩
          simp only [Mem.enter, hentered]
      | unlockRin a =>
        obtain ⟨hholds, halone, hfinished⟩ := h
        obtain ⟨n, hn, hempty⟩ := halone.empty
        exact ⟨hinv.clear hn hempty hfinished, hholds, halone.turn, rfl⟩
      | unlockWout a =>
        obtain ⟨hholds, hnumber, hphase⟩ := h
        exact ⟨hinv.faaWout hholds.1 hnumber hphase, trivial⟩
      | readRin =>
        simp only [act]
        have hholds : Holds i (m.faaRin i).readers (m.readVisit i) :=
          ⟨Visits.mem_arrive.mpr (.inl rfl), rfl⟩
        split
        case isTrue hzero => exact ⟨hinv.faaRin, hholds, hinv.ahead_of_zero hzero _⟩
        case isFalse hne =>
          obtain ⟨hseen, hbits⟩ := hinv.seen_of_ne_zero hne
          exact ⟨hinv.faaRin, hholds, _, hseen, hbits⟩
      | readWait t w =>
        obtain ⟨hholds, writer, hnote, hw⟩ := h
        simp only [act]
        split
        case isTrue => exact ⟨hinv, hholds, writer, hnote, hw⟩
        case isFalse hne =>
          exact ⟨hinv, hholds, hinv.ahead_of_ne hholds.1 hnote (hw ▸ hne)⟩
      | unlockRout t => exact ⟨hinv.faaRout h.1.1 h.2, trivial⟩
  other := by
    intro i m pc m' pc' hstep _ hinv h j other hj hother
    cases hstep with
    | writeLock | readLock | readUnlock => exact hother
    | writeUnlock a =>
      exact hother.other_turn hinv hj h.1 h.2.1.turn rfl rfl fun _ _ hahead => hahead
    | act =>
      cases pc with
      | idle | reading | writing | writeWout | readWait => exact hother
      | writeWin => exact hother.other_faaWin
      | writeRin a ticket => exact hother.other_announce hinv hj h.1 h.2.2.1 ticket
      | writeRout a ticket =>
        simp only [act]
        split
        case isTrue => exact hother
        case isFalse => exact hother.other_turn hinv hj h.1 h.2.1 rfl rfl fun _ _ hahead => hahead
      | unlockRin a => exact hother.other_clear hinv hj h.1 h.2.1.turn
      | unlockWout a => exact hother.other_faaWout hinv hj h.1 h.2.1
      | readRin => exact hother.other_faaRin hinv
      | unlockRout t => exact hother.other_faaRout hj h.1.2

end ConcurrencyKit.Pflock
