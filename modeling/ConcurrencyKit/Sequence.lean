import ConcurrencyKit.Misc.Threads

/-!
# Sequence locks

The functions of `include/ck_sequence.h`, one access at a time. One writer at a time updates the
data, which may have any number of words, and any number of readers load from them. The sequence
number is odd during an update. It is a word, so a reader takes two numbers for the same that are a
full turn apart.

Next to the word a `Mem` keeps how many stores there have been to it, and what every version of the
data was.
-/

namespace ConcurrencyKit.Sequence

/-- A sequence lock, the data, and who updates them. -/
structure Mem (ι κ V : Type) where
  sequence : Nat
  data : κ → V
  /-- The thread that has the mutex of the writers. -/
  writer : Option ι
  /-- The number of the stores to `sequence`. -/
  stores : Nat
  /-- The data after so many updates. -/
  versions : Nat → κ → V

/-- Where a thread stands. A reader in a `CK_SEQUENCE_READ` loop has `loop` set. It keeps the value
of `version`, what it has loaded since `ck_sequence_read_begin`, and how many updates there had been
then. -/
inductive Pc (κ V : Type) where
  | idle
  /-- `ck_sequence_read_begin`. -/
  | begin (loop : Bool)
  | reading (loop : Bool) (version : Nat) (loaded : List (κ × V)) (since : Nat)
  /-- `ck_sequence_read_retry`. -/
  | retry (loop : Bool) (version : Nat) (loaded : List (κ × V)) (since : Nat)
  /-- The condition of `CK_SEQUENCE_READ`. -/
  | test (version : Nat) (loaded : List (κ × V)) (since : Nat)
  /-- `ck_sequence_read_retry` has returned false, or the loop has been left. -/
  | finished (loaded : List (κ × V)) (since : Nat)
  | locked
  /-- `ck_sequence_write_begin`. -/
  | writeBegin
  | writeBeginStore (sequence : Nat)
  | updating
  /-- `ck_sequence_write_end`. -/
  | writeEnd
  | writeEndStore (sequence : Nat)
  deriving DecidableEq

variable {ι κ V : Type}

namespace Mem

/-- How many updates have been completed. -/
def updates (m : Mem ι κ V) : Nat := m.stores / 2

/-- `ck_pr_store_uint(&sq->sequence, sq->sequence + 1)` at the beginning of an update. -/
def beginUpdate (sequence : Nat) (m : Mem ι κ V) : Mem ι κ V :=
  { m with sequence := (sequence + 1) % 2 ^ 32, stores := m.stores + 1 }

/-- `ck_pr_store_uint(&sq->sequence, sq->sequence + 1)` at the end of an update. -/
def endUpdate (sequence : Nat) (m : Mem ι κ V) : Mem ι κ V :=
  { m with
    sequence := (sequence + 1) % 2 ^ 32
    stores := m.stores + 1
    versions := Function.update m.versions ((m.stores + 1) / 2) m.data }

end Mem

/-- One access of a thread: `ck_sequence_read_begin`, `ck_sequence_read_retry` and
`CK_SEQUENCE_READ` (`ck_sequence.h:49-91`), `ck_sequence_write_begin` and `ck_sequence_write_end`
(`ck_sequence.h:96-123`). -/
def act (m : Mem ι κ V) : Pc κ V → Mem ι κ V × Pc κ V
  | .begin loop =>
    (m, if m.sequence &&& 1 = 0 then .reading loop m.sequence [] m.updates else .begin loop)
  | .retry true version loaded since =>
    (m, .test (if m.sequence ≠ version then 1 else 0) loaded since)
  | .retry false version loaded since =>
    (m, if m.sequence ≠ version then .idle else .finished loaded since)
  | .test version loaded since =>
    (m, if version ≠ 0 then .begin true else .finished loaded since)
  | .writeBegin => (m, .writeBeginStore m.sequence)
  | .writeBeginStore sequence => (m.beginUpdate sequence, .updating)
  | .writeEnd => (m, .writeEndStore m.sequence)
  | .writeEndStore sequence => (m.endUpdate sequence, .locked)
  | pc => (m, pc)

/-- One step of thread `i`: it calls a function, or makes the next access of its call; a reader
loads a word of the data, and a writer stores to one. -/
inductive Step [DecidableEq κ] (i : ι) : Mem ι κ V → Pc κ V → Mem ι κ V → Pc κ V → Prop
  | readBegin {m : Mem ι κ V} : Step i m .idle m (.begin false)
  | read {m : Mem ι κ V} : Step i m .idle m (.test 1 [] 0)
  | load {m : Mem ι κ V} {loop : Bool} {version : Nat} {loaded : List (κ × V)} {since : Nat}
    (x : κ) : Step i m (.reading loop version loaded since) m
      (.reading loop version ((x, m.data x) :: loaded) since)
  | readRetry {m : Mem ι κ V} {loop : Bool} {version : Nat} {loaded : List (κ × V)} {since : Nat} :
    Step i m (.reading loop version loaded since) m (.retry loop version loaded since)
  | finish {m : Mem ι κ V} {loaded : List (κ × V)} {since : Nat} :
    Step i m (.finished loaded since) m .idle
  | lock {m : Mem ι κ V} (h : m.writer = none) : Step i m .idle { m with writer := some i } .locked
  | unlock {m : Mem ι κ V} : Step i m .locked { m with writer := none } .idle
  | writeBegin {m : Mem ι κ V} : Step i m .locked m .writeBegin
  | store {m : Mem ι κ V} (x : κ) (v : V) :
    Step i m .updating { m with data := Function.update m.data x v } .updating
  | writeEnd {m : Mem ι κ V} : Step i m .updating m .writeEnd
  | act {m : Mem ι κ V} {pc : Pc κ V} : Step i m pc (act m pc).1 (act m pc).2

/-- Fewer than `2 ^ 31` updates are completed during a read. -/
def Few (_ : ι) (m : Mem ι κ V) : Pc κ V → Prop
  | .reading _ _ _ since | .retry _ _ _ since => m.updates < since + 2 ^ 31
  | _ => True

instance (i : ι) (m : Mem ι κ V) : (pc : Pc κ V) → Decidable (Few i m pc)
  | .reading .. | .retry .. => inferInstanceAs (Decidable (_ < _))
  | .idle | .begin _ | .test .. | .finished .. | .locked | .writeBegin | .writeBeginStore _
  | .updating | .writeEnd | .writeEndStore _ => inferInstanceAs (Decidable True)

/-- A new sequence lock of some data, with all threads idle. -/
def start (ι : Type) (data : κ → V) : Threads.System (Mem ι κ V) (Pc κ V) ι where
  mem := ⟨0, data, none, 0, fun _ => data⟩
  pc := fun _ => .idle

/-! ## The invariant -/

variable {i j : ι} {m m' : Mem ι κ V} {pc pc' : Pc κ V} {loaded : List (κ × V)}
  {sequence version since : Nat}

/-- The data are the last version, except during an update. -/
structure Inv (m : Mem ι κ V) : Prop where
  sequence : m.sequence = m.stores % 2 ^ 32
  data : m.stores % 2 = 0 → m.data = m.versions m.updates
  quiet : m.writer = none → m.stores % 2 = 0

/-- All that has been loaded is from one version of the data. -/
def From (m : Mem ι κ V) (loaded : List (κ × V)) (since : Nat) : Prop :=
  since ≤ m.updates ∧ ∀ p ∈ loaded, m.versions since p.1 = p.2

/-- All that has been loaded is from one version, unless there has been a store to the sequence
number since then. -/
def Unless (m : Mem ι κ V) (loaded : List (κ × V)) (since : Nat) : Prop :=
  2 * since ≤ m.stores ∧ (m.stores = 2 * since → From m loaded since)

/-- Whether a thread that has the mutex is in an update. -/
def Pc.phase : Pc κ V → Option Bool
  | .locked | .writeBegin | .writeBeginStore _ => some false
  | .updating | .writeEnd | .writeEndStore _ => some true
  | _ => none

/-- What a thread knows from what it has loaded. -/
def Knows (m : Mem ι κ V) : Pc κ V → Prop
  | .writeBeginStore sequence | .writeEndStore sequence => sequence = m.sequence
  | .reading _ version loaded since | .retry _ version loaded since =>
    version = 2 * since % 2 ^ 32 ∧ Unless m loaded since
  | .test version loaded since => version = 0 → From m loaded since
  | .finished loaded since => From m loaded since
  | _ => True

/-- What is known about thread `i` from where it stands. -/
structure At (i : ι) (m : Mem ι κ V) (pc : Pc κ V) : Prop where
  writer : m.writer = some i ↔ pc.phase ≠ none
  phase : ∀ b, pc.phase = some b → m.stores % 2 = b.toNat
  knows : Knows m pc

theorem inv_start (ι : Type) (data : κ → V) : Inv (start ι data).mem where
  sequence := rfl
  data _ := rfl
  quiet _ := rfl

theorem at_start (i : ι) (data : κ → V) : At i (start ι data).mem .idle where
  writer := by simp [start, Pc.phase]
  phase b h := by simp [Pc.phase] at h
  knows := trivial

/-! ## What a reader knows -/

/-- There have been more stores, and the versions are what they were. -/
structure Later (m m' : Mem ι κ V) : Prop where
  stores : m.stores ≤ m'.stores
  versions : ∀ k ≤ m.updates, m'.versions k = m.versions k

theorem Later.updates (h : Later m m') : m.updates ≤ m'.updates := Nat.div_le_div_right h.stores

theorem From.later (h : From m loaded since) (hl : Later m m') : From m' loaded since := by
  refine ⟨h.1.trans hl.updates, fun p hp => ?_⟩
  rw [hl.versions since h.1]
  exact h.2 p hp

theorem Unless.later (h : Unless m loaded since) (hl : Later m m') : Unless m' loaded since := by
  refine ⟨h.1.trans hl.stores, fun heq => ?_⟩
  have hsame : m.stores = 2 * since := le_antisymm (hl.stores.trans heq.le) h.1
  exact (h.2 hsame).later hl

/-- Nothing has been loaded when `ck_sequence_read_begin` returns. -/
theorem Inv.unless_begin (hinv : Inv m) (heven : m.sequence &&& 1 = 0) :
    m.sequence = 2 * m.updates % 2 ^ 32 ∧ Unless m [] m.updates := by
  rw [hinv.sequence, Nat.and_one_is_mod] at heven
  have hstores : 2 * m.updates = m.stores := by
    unfold Mem.updates
    omega
  rw [hstores]
  exact ⟨hinv.sequence, hstores.le, fun _ => ⟨le_rfl, fun p hp => absurd hp List.not_mem_nil⟩⟩

/-- A word that is loaded while there has been no store is from the same version. -/
theorem Unless.load (hinv : Inv m) (h : Unless m loaded since) (x : κ) :
    Unless m ((x, m.data x) :: loaded) since := by
  refine ⟨h.1, fun heq => ?_⟩
  have hupdates : m.updates = since := by
    unfold Mem.updates
    omega
  refine ⟨hupdates.ge, fun p hp => ?_⟩
  rcases List.mem_cons.mp hp with rfl | hp
  · rw [← hupdates, hinv.data (by omega)]
  · exact (h.2 heq).2 p hp

/-- A reader that finds the same number again has missed no store. -/
theorem Unless.retry (hinv : Inv m) (h : Unless m loaded since)
    (hfew : m.updates < since + 2 ^ 31) (hversion : version = 2 * since % 2 ^ 32)
    (heq : m.sequence = version) : From m loaded since := by
  have hlt : m.stores < 2 * since + 2 ^ 32 := by
    unfold Mem.updates at hfew
    omega
  refine h.2 (Threads.eq_of_mod_eq h.1 hlt ?_).symm
  rw [← hversion, ← heq, hinv.sequence]

/-! ## Steps -/

/-- What a step has to leave as it is for another thread. -/
theorem At.frame (h : At j m pc) (hl : Later m m')
    (hwriter : m'.writer = some j ↔ m.writer = some j)
    (hstores : m.writer = some j → m'.stores = m.stores ∧ m'.sequence = m.sequence) :
    At j m' pc where
  writer := hwriter.trans h.writer
  phase b hb := by
    have hwrites : m.writer = some j := h.writer.mpr (by simp [hb])
    rw [(hstores hwrites).1]
    exact h.phase b hb
  knows := by
    have hknows := h.knows
    cases pc with
    | idle | begin | locked | writeBegin | updating | writeEnd => trivial
    | reading loop version loaded since | retry loop version loaded since =>
      exact ⟨hknows.1, hknows.2.later hl⟩
    | test version loaded since => exact fun hv => (hknows hv).later hl
    | finished loaded since => exact From.later hknows hl
    | writeBeginStore sequence | writeEndStore sequence =>
      have hwrites : m.writer = some j := h.writer.mpr (by simp [Pc.phase])
      exact hknows.trans (hstores hwrites).2.symm

/-- A thread that makes a step without a store. -/
theorem At.stay (h : At i m pc) (hphase : pc'.phase = pc.phase) (hknows : Knows m pc') :
    At i m pc' where
  writer := hphase ▸ h.writer
  phase := hphase ▸ h.phase
  knows := hknows

/-- Only one thread has the mutex. -/
theorem At.not_writer (hi : At i m pc) (hphase : pc.phase ≠ none) (hj : j ≠ i) :
    m.writer ≠ some j := by
  rw [hi.writer.mpr hphase]
  exact fun heq => hj (Option.some.inj heq).symm

theorem Inv.beginUpdate (hinv : Inv m) (hwriter : m.writer = some i) (heven : m.stores % 2 = 0) :
    Inv (m.beginUpdate m.sequence) where
  sequence := by
    simp only [Mem.beginUpdate]
    rw [hinv.sequence, Nat.mod_add_mod]
  data h := by
    simp only [Mem.beginUpdate] at h
    omega
  quiet h := absurd (h.symm.trans hwriter) (Option.some_ne_none i).symm

theorem Inv.endUpdate (hinv : Inv m) (hodd : m.stores % 2 = 1) :
    Inv (m.endUpdate m.sequence) where
  sequence := by
    simp only [Mem.endUpdate]
    rw [hinv.sequence, Nat.mod_add_mod]
  data _ := by simp only [Mem.endUpdate, Mem.updates, Function.update_self]
  quiet _ := by
    simp only [Mem.endUpdate]
    omega

theorem later_endUpdate (hodd : m.stores % 2 = 1) : Later m (m.endUpdate sequence) where
  stores := Nat.le_succ _
  versions k hk := by
    refine Function.update_of_ne (ne_of_lt ?_) ..
    unfold Mem.updates at hk
    omega

theorem later_beginUpdate (m : Mem ι κ V) (sequence : Nat) : Later m (m.beginUpdate sequence) :=
  ⟨Nat.le_succ _, fun _ _ => rfl⟩

theorem step_own (hfew : Few i m pc) (hinv : Inv m) (h : At i m pc) :
    Inv (act m pc).1 ∧ At i (act m pc).1 (act m pc).2 := by
  have hknows := h.knows
  cases pc with
  | idle | reading | finished | locked | updating => exact ⟨hinv, h⟩
  | begin loop =>
    simp only [act]
    refine ⟨hinv, ?_⟩
    split
    case isTrue heven => exact h.stay rfl (hinv.unless_begin heven)
    case isFalse => exact h
  | retry loop version loaded since =>
    obtain ⟨hversion, hunless⟩ := hknows
    cases loop with
    | true =>
      refine ⟨hinv, h.stay rfl fun heq => ?_⟩
      by_cases hsame : m.sequence = version
      · exact hunless.retry hinv hfew hversion hsame
      · rw [if_pos hsame] at heq
        exact absurd heq one_ne_zero
    | false =>
      simp only [act]
      refine ⟨hinv, ?_⟩
      split
      case isTrue => exact h.stay rfl trivial
      case isFalse hsame => exact h.stay rfl (hunless.retry hinv hfew hversion (not_not.mp hsame))
  | test version loaded since =>
    simp only [act]
    refine ⟨hinv, ?_⟩
    split
    case isTrue => exact h.stay rfl trivial
    case isFalse hzero => exact h.stay rfl (hknows (not_not.mp hzero))
  | writeBegin | writeEnd => exact ⟨hinv, h.stay rfl rfl⟩
  | writeBeginStore sequence =>
    have hwriter : m.writer = some i := h.writer.mpr (by simp [Pc.phase])
    have heven := h.phase false rfl
    obtain rfl : sequence = m.sequence := hknows
    refine ⟨hinv.beginUpdate hwriter heven, iff_of_true hwriter (Option.some_ne_none true), ?_,
      trivial⟩
    intro b hb
    obtain rfl : true = b := Option.some.inj hb
    simp only [act, Mem.beginUpdate, Bool.toNat_true, Bool.toNat_false] at heven ⊢
    omega
  | writeEndStore sequence =>
    have hwriter : m.writer = some i := h.writer.mpr (by simp [Pc.phase])
    have hodd := h.phase true rfl
    obtain rfl : sequence = m.sequence := hknows
    refine ⟨hinv.endUpdate hodd, iff_of_true hwriter (Option.some_ne_none false), ?_, trivial⟩
    intro b hb
    obtain rfl : false = b := Option.some.inj hb
    simp only [act, Mem.endUpdate, Bool.toNat_true, Bool.toNat_false] at hodd ⊢
    omega

theorem step_other (h : At i m pc) (hj : j ≠ i) (hother : At j m pc') : At j (act m pc).1 pc' := by
  cases pc with
  | idle | reading | finished | locked | updating | begin | test | writeBegin | writeEnd =>
    exact hother
  | retry loop version loaded since => cases loop <;> exact hother
  | writeBeginStore sequence =>
    have hne := h.not_writer (by simp [Pc.phase]) hj
    exact hother.frame (later_beginUpdate m sequence) .rfl fun hw => absurd hw hne
  | writeEndStore sequence =>
    have hne := h.not_writer (by simp [Pc.phase]) hj
    exact hother.frame (later_endUpdate (h.phase true rfl)) .rfl fun hw => absurd hw hne

/-- The data change during an update only. -/
theorem Inv.store (hinv : Inv m) (hodd : m.stores % 2 = 1) (data : κ → V) :
    Inv { m with data := data } where
  sequence := hinv.sequence
  data h := absurd (h.symm.trans hodd) zero_ne_one
  quiet := hinv.quiet

variable [DecidableEq κ]

theorem invariant : Threads.Invariant (Step (ι := ι) (κ := κ) (V := V)) Few Inv At where
  own {i m pc m' pc'} hstep hfew hinv h := by
    cases hstep with
    | readBegin => exact ⟨hinv, h.stay rfl trivial⟩
    | read => exact ⟨hinv, h.stay rfl fun heq => absurd heq one_ne_zero⟩
    | load x => exact ⟨hinv, h.stay rfl ⟨h.knows.1, h.knows.2.load hinv x⟩⟩
    | readRetry => exact ⟨hinv, h.stay rfl h.knows⟩
    | finish => exact ⟨hinv, h.stay rfl trivial⟩
    | lock hfree =>
      refine ⟨⟨hinv.sequence, hinv.data, fun hnone => absurd hnone (Option.some_ne_none i)⟩, ?_⟩
      refine ⟨iff_of_true rfl (by simp [Pc.phase]), fun b hb => ?_, trivial⟩
      obtain rfl : false = b := Option.some.inj hb
      exact hinv.quiet hfree
    | unlock =>
      refine ⟨⟨hinv.sequence, hinv.data, fun _ => h.phase false rfl⟩, ?_⟩
      exact ⟨by simp [Pc.phase], fun b hb => by simp [Pc.phase] at hb, trivial⟩
    | writeBegin => exact ⟨hinv, h.stay rfl trivial⟩
    | store x v =>
      exact ⟨hinv.store (h.phase true rfl) _, h.writer, h.phase, trivial⟩
    | writeEnd => exact ⟨hinv, h.stay rfl trivial⟩
    | act => exact step_own hfew hinv h
  other {i m pc m' pc'} hstep _ _ h j q hj hother := by
    cases hstep with
    | readBegin | read | load | readRetry | finish | writeBegin | writeEnd => exact hother
    | lock hfree =>
      refine hother.frame ⟨le_rfl, fun _ _ => rfl⟩ (iff_of_false ?_ ?_) fun _ => ⟨rfl, rfl⟩
      · exact fun heq => hj (Option.some.inj heq).symm
      · exact fun heq => Option.some_ne_none j (heq.symm.trans hfree)
    | unlock =>
      have hne := h.not_writer (by simp [Pc.phase]) hj
      refine hother.frame ⟨le_rfl, fun _ _ => rfl⟩ (iff_of_false ?_ hne) fun _ => ⟨rfl, rfl⟩
      exact fun heq => Option.some_ne_none j heq.symm
    | store x v =>
      exact hother.frame ⟨le_rfl, fun _ _ => rfl⟩ .rfl fun _ => ⟨rfl, rfl⟩
    | act => exact step_other h hj hother

/-! ## Every run -/

/-- A reader whose `ck_sequence_read_retry` has returned false, or whose `CK_SEQUENCE_READ` loop has
been left, has loaded all words from one version of the data: the one that was there when
`ck_sequence_read_begin` returned. -/
theorem read_consistent [DecidableEq ι] {data : κ → V} {s : Threads.System (Mem ι κ V) (Pc κ V) ι}
    (hr : Threads.System.Reachable Step Few (start ι data) s) {i : ι} {loaded : List (κ × V)}
    {since : Nat} (hi : s.pc i = .finished loaded since) :
    since ≤ s.mem.updates ∧ ∀ p ∈ loaded, s.mem.versions since p.1 = p.2 := by
  obtain ⟨-, hall⟩ :=
    invariant.reachable hr (fun _ => trivial) (inv_start ι data) fun i => at_start i data
  have hat := (hall i).2.knows
  rw [hi] at hat
  exact hat

/-- A run in which a thread makes `n` more accesses. -/
theorem acts_reachable [DecidableEq ι] {s₀ s : Threads.System (Mem ι κ V) (Pc κ V) ι}
    (hr : Threads.System.Reachable Step Few s₀ s) (i : ι) (n : Nat)
    (good : ∀ k < n + 1, ∀ j,
      Few j (s.acts (fun _ => act) i k).mem ((s.acts (fun _ => act) i k).pc j)) :
    Threads.System.Reachable Step Few s₀ (s.acts (fun _ => act) i n) :=
  hr.acts i n (fun _ _ _ _ _ _ => .inr .act) good

/-- A loop that has loaded during an update, and again after it. -/
theorem read_consistent_again :
    ∃ s : Threads.System (Mem Bool Bool Nat) (Pc Bool Nat) Bool,
      Threads.System.Reachable Step Few (start Bool fun _ => 0) s ∧
        s.pc false = .finished [(true, 7), (false, 7)] 1 ∧
        1 ≤ s.mem.updates ∧
          ∀ p ∈ [(true, 7), (false, 7)], s.mem.versions 1 p.1 = p.2 := by
  have h₀ : Threads.System.Reachable Step Few (start Bool fun _ : Bool => 0)
      (start Bool fun _ : Bool => 0) := .refl
  have h₁ := acts_reachable (h₀.call false .read (by decide +kernel)) false 2 (by decide +kernel)
  have h₂ := h₁.extend true (.lock rfl) (by decide +kernel)
  have h₃ := acts_reachable (h₂.call true .writeBegin (by decide +kernel)) true 2
    (by decide +kernel)
  have h₄ := h₃.extend true (.store true 7) (by decide +kernel)
  have h₅ := h₄.extend false (.load true) (by decide +kernel)
  have h₆ := h₅.extend true (.store false 7) (by decide +kernel)
  have h₇ := acts_reachable (h₆.call true .writeEnd (by decide +kernel)) true 2 (by decide +kernel)
  -- the first turn of the loop fails
  have h₈ := acts_reachable (h₇.call false .readRetry (by decide +kernel)) false 3
    (by decide +kernel)
  have h₉ := (h₈.extend false (.load false) (by decide +kernel)).extend false (.load true)
    (by decide +kernel)
  have h := acts_reachable (h₉.call false .readRetry (by decide +kernel)) false 2
    (by decide +kernel)
  exact ⟨_, h, by decide +kernel, read_consistent (i := false) h (by decide +kernel)⟩

end ConcurrencyKit.Sequence
