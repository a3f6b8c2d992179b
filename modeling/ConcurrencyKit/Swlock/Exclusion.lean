import ConcurrencyKit.Swlock.Model

/-!
# Exclusion and accounting in `ck_swlock`

The word is the two bits of the writer and the number of the readers that are counted. A reader that
is let in stays counted until it leaves, and so does one that has to take itself out again; the
others are counted only while the writer has the latch, which it gets when nobody is counted.
-/

namespace ConcurrencyKit.Swlock

open Packed (pack)

/-! ## Words -/

section Words

variable {k n : Nat}

theorem and_readerMask (hn : n < 2 ^ 30) : pack 30 k n &&& readerMask = n := by
  rw [readerMask_eq, Packed.pack_and hn (by decide), Nat.and_two_pow_sub_one_eq_mod,
    Nat.mod_eq_of_lt hn]
  simp [pack]

theorem and_writerBit (mode : Mode) (hn : n < 2 ^ 30) :
    pack 30 mode.bits n &&& writerBit ≠ 0 ↔ mode ≠ .free := by
  rw [writerBit_eq, Packed.pack_and hn (by decide), Nat.and_zero]
  cases mode <;> decide

theorem and_writerMask (mode : Mode) (hn : n < 2 ^ 30) :
    pack 30 mode.bits n &&& writerMask = pack 30 mode.bits 0 := by
  rw [writerMask_eq, Packed.pack_and hn (by decide), Nat.and_zero]
  cases mode <;> rfl

theorem or_writerBit {mode : Mode} (hmode : mode ≠ .latched) (hn : n < 2 ^ 30) :
    pack 30 mode.bits n ||| writerBit = pack 30 Mode.writer.bits n := by
  rw [writerBit_eq, Packed.pack_or hn (by decide), Nat.or_zero]
  cases mode with
  | free | writer => rfl
  | latched => exact absurd rfl hmode

theorem pack_bits_lt (mode : Mode) (hn : n < 2 ^ 30) : pack 30 mode.bits n < 2 ^ 32 := by
  have hbits : mode.bits < 2 ^ 2 := by cases mode <;> decide
  exact Packed.pack_lt hn hbits

end Words

variable {ι : Type} {readers : Finset ι} {i j : ι} {m m' : Mem ι} {pc pc' : Pc}

/-! ## The invariant -/

/-- The two bits that a writer at this point has stored. -/
def Pc.mode : Pc → Option Mode
  | writeTry | lockOr | latchOr => some .free
  | lockWait | locked | unlockAnd | downInc | downAnd | latchCas | latchSpin => some .writer
  | latched | unlatchStore => some .latched
  | _ => none

/-- A writer at this point has made sure that no reader is let in. -/
def Pc.Excludes : Pc → Prop
  | locked | unlockAnd | downInc | latched | unlatchStore => True
  | _ => False

/-- A reader at this point has been let in. -/
def Pc.Inside : Pc → Prop
  | reading | readUnlock | downAnd => True
  | _ => False

/-- A reader at this point is going to take itself out. -/
def Pc.Leaving : Pc → Prop
  | tryDec | readDec => True
  | _ => False

/-- A reader at this point is going to add itself. -/
def Pc.Entering : Pc → Prop
  | tryFaa | readFaa => True
  | _ => False

/-- A thread at this point may add itself later. -/
def Pc.Reads : Pc → Prop
  | tryLoad | tryFaa | readLoad | readFaa | readDec | downInc => True
  | _ => False

/-- What the words say about the users. -/
structure Inv (readers : Finset ι) (m : Mem ι) : Prop where
  value : m.value = pack 30 m.mode.bits m.counted.card
  counted : m.counted ⊆ readers
  inside : m.inside ⊆ m.counted
  latched : m.mode = .latched → m.inside = ∅
  free : m.writer = none → m.mode = .free

/-- What is known about thread `i` from where it stands. -/
structure At (readers : Finset ι) (i : ι) (m : Mem ι) (pc : Pc) : Prop where
  reader : pc.Reads → i ∈ readers
  writer : m.writer = some i ↔ pc.mode ≠ none
  mode : ∀ mode, pc.mode = some mode → m.mode = mode
  excludes : pc.Excludes → m.inside = ∅
  inside : i ∈ m.inside ↔ pc.Inside
  leaving : pc.Leaving → i ∈ m.counted
  entering : pc.Entering → i ∉ m.counted
  /-- A reader that has failed to enter may be counted until the latch is released. -/
  stale : i ∈ m.counted → pc.Inside ∨ pc.Leaving ∨ m.mode = .latched
  settled : pc.Leaving → m.mode ≠ .latched

theorem Pc.mode_of_excludes (h : pc.Excludes) : ∃ mode, pc.mode = some mode ∧ mode ≠ .free := by
  cases pc <;> first | exact h.elim | exact ⟨_, rfl, by decide⟩

theorem Pc.mode_of_leaving (h : pc.Leaving) : pc.mode = none := by
  cases pc <;> first | exact h.elim | rfl

theorem Inv.card_lt (hinv : Inv readers m) (hfew : readers.card < 2 ^ 30) :
    m.counted.card < 2 ^ 30 :=
  lt_of_le_of_lt (Finset.card_le_card hinv.counted) hfew

/-- Adding a reader does not carry into the bits of the writer. -/
theorem Inv.insert_value [DecidableEq ι] (hinv : Inv readers m)
    (hfew : readers.card < 2 ^ 30) (hi : i ∈ readers) (hnot : i ∉ m.counted) :
    Counter.inc (2 ^ 32) m.value = pack 30 m.mode.bits (insert i m.counted).card := by
  have hsub : insert i m.counted ⊆ readers := Finset.insert_subset hi hinv.counted
  have hlt := pack_bits_lt m.mode (lt_of_le_of_lt (Finset.card_le_card hsub) hfew)
  rw [Finset.card_insert_of_notMem hnot, ← Packed.pack_add_low] at hlt ⊢
  rw [Counter.inc, hinv.value, Nat.mod_eq_of_lt hlt]

/-- Taking a reader out does not borrow from the bits of the writer. -/
theorem Inv.erase_value [DecidableEq ι] (hinv : Inv readers m) (hi : i ∈ m.counted) :
    Counter.dec (2 ^ 32) m.value = pack 30 m.mode.bits (m.counted.erase i).card := by
  rw [hinv.value, ← Finset.card_erase_add_one hi, ← Packed.pack_add_low]
  simp [Counter.dec]

/-! ## What a thread learns from the word -/

theorem Inv.mask_eq_zero (hinv : Inv readers m) (hfew : readers.card < 2 ^ 30) :
    m.value &&& writerMask = 0 ↔ m.mode = .free := by
  rw [hinv.value, and_writerMask _ (hinv.card_lt hfew)]
  cases m.mode <;> decide

theorem Inv.mask_eq_writerBit (hinv : Inv readers m) (hfew : readers.card < 2 ^ 30) :
    m.value &&& writerMask = writerBit ↔ m.mode = .writer := by
  rw [hinv.value, and_writerMask _ (hinv.card_lt hfew)]
  cases m.mode <;> decide

theorem Inv.bit_ne_zero (hinv : Inv readers m) (hfew : readers.card < 2 ^ 30) :
    m.value &&& writerBit ≠ 0 ↔ m.mode ≠ .free := by
  rw [hinv.value, and_writerBit _ (hinv.card_lt hfew)]

theorem Inv.readers_eq_zero (hinv : Inv readers m) (hfew : readers.card < 2 ^ 30) :
    m.value &&& readerMask = 0 ↔ m.counted = ∅ := by
  rw [hinv.value, and_readerMask (hinv.card_lt hfew), Finset.card_eq_zero]

theorem Inv.eq_writerBit (hinv : Inv readers m) (hfew : readers.card < 2 ^ 30)
    (h : m.value = writerBit) : m.counted = ∅ := by
  rw [hinv.value, writerBit_eq, Packed.pack_inj (hinv.card_lt hfew) (by decide)] at h
  exact Finset.card_eq_zero.mp h.2

theorem Inv.eq_zero (hinv : Inv readers m) (hfew : readers.card < 2 ^ 30) (h : m.value = 0) :
    m.counted = ∅ := by
  have hzero : (0 : Nat) = pack 30 0 0 := by decide
  rw [hinv.value, hzero, Packed.pack_inj (hinv.card_lt hfew) (by decide)] at h
  exact Finset.card_eq_zero.mp h.2

/-! ## Steps and the words -/

theorem Inv.begin (hinv : Inv readers m) : Inv readers (m.begin i) where
  value := hinv.value
  counted := hinv.counted
  inside := hinv.inside
  latched := hinv.latched
  free h := by simp [Mem.begin] at h

theorem Inv.finish (hinv : Inv readers m) (hm : m.mode = .free) : Inv readers m.finish where
  value := hinv.value
  counted := hinv.counted
  inside := hinv.inside
  latched := hinv.latched
  free _ := hm

theorem Inv.setWriter (hinv : Inv readers m) (hi : m.writer = some i) (hnobody : m.counted = ∅) :
    Inv readers m.setWriter where
  value := by
    simp only [Mem.setWriter, hnobody, Finset.card_empty]
    exact writerBit_eq
  counted := hinv.counted
  inside := hinv.inside
  latched h := by simp [Mem.setWriter] at h
  free h := by simp [Mem.setWriter, hi] at h

theorem Inv.orWriter (hinv : Inv readers m) (hfew : readers.card < 2 ^ 30)
    (hi : m.writer = some i) (hm : m.mode ≠ .latched) : Inv readers m.orWriter where
  value := by
    simp only [Mem.orWriter]
    rw [hinv.value, or_writerBit hm (hinv.card_lt hfew)]
  counted := hinv.counted
  inside := hinv.inside
  latched h := by simp [Mem.orWriter] at h
  free h := by simp [Mem.orWriter, hi] at h

theorem Inv.andReader (hinv : Inv readers m) (hfew : readers.card < 2 ^ 30) :
    Inv readers m.andReader where
  value := by
    simp only [Mem.andReader]
    rw [hinv.value, and_readerMask (hinv.card_lt hfew)]
    simp [pack, Mode.bits]
  counted := hinv.counted
  inside := hinv.inside
  latched h := by simp [Mem.andReader] at h
  free _ := rfl

theorem Inv.latch (hinv : Inv readers m) (hi : m.writer = some i) (hnobody : m.counted = ∅) :
    Inv readers m.latch where
  value := by
    simp only [Mem.latch, hnobody, Finset.card_empty]
    exact writerMask_eq
  counted := hinv.counted
  inside := hinv.inside
  latched _ := Finset.subset_empty.mp (hnobody ▸ hinv.inside)
  free h := by simp [Mem.latch, hi] at h

theorem Inv.unlatch (hinv : Inv readers m) (hm : m.mode = .latched) :
    Inv readers m.unlatch where
  value := by simp [Mem.unlatch, Mode.bits, pack]
  counted := by simp [Mem.unlatch]
  inside := by simp [Mem.unlatch, hinv.latched hm]
  latched h := by simp [Mem.unlatch] at h
  free _ := rfl

theorem Inv.enter [DecidableEq ι] (hinv : Inv readers m) (hfew : readers.card < 2 ^ 30)
    (hi : i ∈ readers) (hnot : i ∉ m.counted) (hm : m.mode ≠ .latched) :
    Inv readers (m.enter i) where
  value := hinv.insert_value hfew hi hnot
  counted := Finset.insert_subset hi hinv.counted
  inside := Finset.insert_subset_insert i hinv.inside
  latched h := absurd h hm
  free := hinv.free

theorem Inv.knock [DecidableEq ι] (hinv : Inv readers m) (hfew : readers.card < 2 ^ 30)
    (hi : i ∈ readers) (hnot : i ∉ m.counted) : Inv readers (m.knock i) where
  value := hinv.insert_value hfew hi hnot
  counted := Finset.insert_subset hi hinv.counted
  inside := hinv.inside.trans (Finset.subset_insert i m.counted)
  latched := hinv.latched
  free := hinv.free

theorem Inv.dec [DecidableEq ι] (hinv : Inv readers m) (hi : i ∈ m.counted) :
    Inv readers (m.dec i) where
  value := hinv.erase_value hi
  counted := (Finset.erase_subset i m.counted).trans hinv.counted
  inside := Finset.erase_subset_erase i hinv.inside
  latched h := by simp [Mem.dec, hinv.latched h]
  free := hinv.free

/-! ## Steps and the other threads -/

/-- What a step has to leave as it is for another thread. -/
theorem At.frame (h : At readers j m pc) (hwriter : m'.writer = some j ↔ m.writer = some j)
    (hmode : m.writer = some j → m'.mode = m.mode)
    (hempty : m.writer = some j → m.mode ≠ .free → m.inside = ∅ → m'.inside = ∅)
    (hinside : j ∈ m'.inside ↔ j ∈ m.inside) (hcounted : j ∈ m'.counted ↔ j ∈ m.counted)
    (hlatched : j ∈ m.counted → (m'.mode = .latched ↔ m.mode = .latched)) : At readers j m' pc where
  reader := h.reader
  writer := hwriter.trans h.writer
  mode mode hm := by
    have hwrites : m.writer = some j := h.writer.mpr (by simp [hm])
    exact (hmode hwrites).trans (h.mode mode hm)
  excludes hx := by
    obtain ⟨mode, hm, hne⟩ := Pc.mode_of_excludes hx
    have hwrites : m.writer = some j := h.writer.mpr (by simp [hm])
    exact hempty hwrites (h.mode mode hm ▸ hne) (h.excludes hx)
  inside := hinside.trans h.inside
  leaving hl := hcounted.mpr (h.leaving hl)
  entering he := fun hj => h.entering he (hcounted.mp hj)
  stale hj := by
    have hold := hcounted.mp hj
    rcases h.stale hold with hin | hl | hm
    · exact .inl hin
    · exact .inr (.inl hl)
    · exact .inr (.inr ((hlatched hold).mpr hm))
  settled hl := fun hm => h.settled hl ((hlatched (h.leaving hl)).mp hm)

theorem At.other_begin (hj : j ≠ i) (hnone : m.writer = none) (h : At readers j m pc) :
    At readers j (m.begin i) pc := by
  have hwriter : (m.begin i).writer = some j ↔ m.writer = some j := by
    simp [Mem.begin, hnone, hj.symm]
  exact h.frame hwriter (fun _ => rfl) (fun _ _ he => he) .rfl .rfl fun _ => .rfl

theorem At.other_finish (hj : j ≠ i) (hi : m.writer = some i) (h : At readers j m pc) :
    At readers j m.finish pc := by
  have hwriter : m.finish.writer = some j ↔ m.writer = some j := by
    simp [Mem.finish, hi, hj.symm]
  exact h.frame hwriter (fun _ => rfl) (fun _ _ he => he) .rfl .rfl fun _ => .rfl

/-- The writer may store its bit and clear it. -/
theorem At.other_mode (hj : j ≠ i) (hi : m.writer = some i) (hm : m.mode ≠ .latched) {value : Nat}
    {mode : Mode} (hmode : mode ≠ .latched) (h : At readers j m pc) :
    At readers j { m with value := value, mode := mode } pc := by
  have hwriter : m.writer ≠ some j := by simp [hi, hj.symm]
  refine h.frame .rfl (fun hw => absurd hw hwriter) (fun _ _ he => he) .rfl .rfl fun _ => ?_
  simp [hm, hmode]

theorem At.other_latch (hj : j ≠ i) (hi : m.writer = some i) (hnobody : m.counted = ∅)
    (h : At readers j m pc) : At readers j m.latch pc := by
  have hwriter : m.writer ≠ some j := by simp [hi, hj.symm]
  refine h.frame .rfl (fun hw => absurd hw hwriter) (fun _ _ he => he) .rfl .rfl fun hc => ?_
  simp [hnobody] at hc

theorem At.other_unlatch (hj : j ≠ i) (hi : m.writer = some i) (hm : m.mode = .latched)
    (h : At readers j m pc) : At readers j m.unlatch pc where
  reader := h.reader
  writer := h.writer
  mode mode hmode := by
    have hwrites : m.writer = some j := h.writer.mpr (by simp [hmode])
    simp [hi, hj.symm] at hwrites
  excludes := h.excludes
  inside := h.inside
  leaving hl := absurd hm (h.settled hl)
  entering _ := by simp [Mem.unlatch]
  stale hc := by simp [Mem.unlatch] at hc
  settled _ := by simp [Mem.unlatch]

theorem At.other_enter [DecidableEq ι] (hj : j ≠ i) (hm : m.writer = some j → m.mode = .free)
    (h : At readers j m pc) : At readers j (m.enter i) pc := by
  refine h.frame .rfl (fun _ => rfl) (fun hw hne => absurd (hm hw) hne) ?_ ?_ fun _ => .rfl
  · simp [Mem.enter, hj]
  · simp [Mem.enter, hj]

theorem At.other_knock [DecidableEq ι] (hj : j ≠ i) (h : At readers j m pc) :
    At readers j (m.knock i) pc := by
  refine h.frame .rfl (fun _ => rfl) (fun _ _ he => he) .rfl ?_ fun _ => .rfl
  simp [Mem.knock, hj]

theorem At.other_dec [DecidableEq ι] (hj : j ≠ i) (h : At readers j m pc) :
    At readers j (m.dec i) pc := by
  refine h.frame .rfl (fun _ => rfl) (fun _ _ he => ?_) ?_ ?_ fun _ => .rfl
  · simp [Mem.dec, he]
  · simp [Mem.dec, hj]
  · simp [Mem.dec, hj]

/-! ## Where a thread may stand -/

/-- Where a thread is that is no writer and is neither let in nor going to take itself out. -/
theorem At.toOutside (hpc : pc.mode = none) (hin : ¬ pc.Inside) (hleaving : ¬ pc.Leaving)
    (hreader : pc.Reads → i ∈ readers) (hwriter : m.writer ≠ some i) (hinside : i ∉ m.inside)
    (hentering : pc.Entering → i ∉ m.counted) (hstale : i ∈ m.counted → m.mode = .latched) :
    At readers i m pc where
  reader := hreader
  writer := by simp [hwriter, hpc]
  mode mode h := by simp [hpc] at h
  excludes h := by
    obtain ⟨mode, hm, -⟩ := Pc.mode_of_excludes h
    simp [hpc] at hm
  inside := iff_of_false hinside hin
  leaving h := absurd h hleaving
  entering := hentering
  stale h := .inr (.inr (hstale h))
  settled h := absurd h hleaving

/-- Where a reader is that is counted and will take itself out, from its section or at once. -/
theorem At.toCounted (hpc : pc.mode = none) (hin : pc.Inside ∨ pc.Leaving)
    (hreader : pc.Reads → i ∈ readers) (hwriter : m.writer ≠ some i)
    (hinside : i ∈ m.inside ↔ pc.Inside) (hentering : ¬ pc.Entering)
    (hcounted : i ∈ m.counted) (hmode : m.mode ≠ .latched) : At readers i m pc where
  reader := hreader
  writer := by simp [hwriter, hpc]
  mode mode h := by simp [hpc] at h
  excludes h := by
    obtain ⟨mode, hm, -⟩ := Pc.mode_of_excludes h
    simp [hpc] at hm
  inside := hinside
  leaving _ := hcounted
  entering h := absurd h hentering
  stale _ := hin.elim .inl fun h => .inr (.inl h)
  settled _ := hmode

/-- Where a writer is. It may still be counted as a reader if it has the latch. -/
theorem At.toWriter {mode : Mode} (hpc : pc.mode = some mode) (hreader : pc.Reads → i ∈ readers)
    (hwriter : m.writer = some i) (hmode : m.mode = mode) (hexcludes : pc.Excludes → m.inside = ∅)
    (hinside : i ∈ m.inside ↔ pc.Inside) (hstale : i ∈ m.counted → pc.Inside ∨ mode = .latched) :
    At readers i m pc where
  reader := hreader
  writer := by simp [hwriter, hpc]
  mode mode' h := by
    rw [hpc] at h
    rw [hmode, Option.some.inj h]
  excludes := hexcludes
  inside := hinside
  leaving h := by simp [Pc.mode_of_leaving h] at hpc
  entering h := by cases pc <;> first | exact h.elim | cases hpc
  stale h := by
    rcases hstale h with hin | hm
    · exact .inl hin
    · exact .inr (.inr (hmode.trans hm))
  settled h := by simp [Pc.mode_of_leaving h] at hpc

section Facts

variable (h : At readers i m pc)
include h

theorem At.notWriter (hpc : pc.mode = none) : m.writer ≠ some i :=
  fun hw => h.writer.mp hw hpc

theorem At.isWriter {mode : Mode} (hpc : pc.mode = some mode) : m.writer = some i :=
  h.writer.mpr (by simp [hpc])

theorem At.notInside (hpc : ¬ pc.Inside) : i ∉ m.inside := fun hi => hpc (h.inside.mp hi)

theorem At.latched_of_counted (hpc : ¬ pc.Inside) (hleaving : ¬ pc.Leaving)
    (hi : i ∈ m.counted) : m.mode = .latched := by
  rcases h.stale hi with hin | hl | hm
  · exact absurd hin hpc
  · exact absurd hl hleaving
  · exact hm

end Facts

/-- A thread that has only looked at the word. -/
theorem At.look (h : At readers i m pc) (hpc : pc.mode = none) (hin : ¬ pc.Inside)
    (hleaving : ¬ pc.Leaving) {next : Pc} (hmode : next.mode = none) (hout : ¬ next.Inside)
    (hstays : ¬ next.Leaving) (hreader : next.Reads → i ∈ readers)
    (hentering : next.Entering → m.mode = .free) : At readers i m next :=
  .toOutside hmode hout hstays hreader (h.notWriter hpc) (h.notInside hin)
    (fun he hc => by simp [h.latched_of_counted hin hleaving hc] at hentering; exact hentering he)
    (h.latched_of_counted hin hleaving)

/-- A writer without the latch that is not a reader goes on. -/
theorem At.write (h : At readers i m pc) {mode mode' : Mode} (hpc : pc.mode = some mode)
    (hin : ¬ pc.Inside) (hmode : mode ≠ .latched) {next : Pc} (hnext : next.mode = some mode')
    (hout : ¬ next.Inside) (hreader : next.Reads → i ∈ readers) {value : Nat}
    (hexcludes : next.Excludes → m.inside = ∅) :
    At readers i { m with value := value, mode := mode' } next := by
  have hnot : i ∉ m.counted := by
    intro hc
    have hleaving : ¬ pc.Leaving := fun hl => by simp [Pc.mode_of_leaving hl] at hpc
    exact hmode ((h.mode mode hpc).symm.trans (h.latched_of_counted hin hleaving hc))
  exact .toWriter hnext hreader (h.isWriter hpc) rfl hexcludes (iff_of_false (h.notInside hin) hout)
    fun hc => absurd hc hnot

/-- A writer goes on without storing anything. -/
theorem At.wait (h : At readers i m pc) {mode : Mode} (hpc : pc.mode = some mode)
    (hin : ¬ pc.Inside) {next : Pc} (hnext : next.mode = some mode) (hout : ¬ next.Inside)
    (hreader : next.Reads → i ∈ readers) (hexcludes : next.Excludes → m.inside = ∅) :
    At readers i m next := by
  have hleaving : ¬ pc.Leaving := fun hl => by simp [Pc.mode_of_leaving hl] at hpc
  have hmode := h.mode mode hpc
  exact .toWriter hnext hreader (h.isWriter hpc) hmode hexcludes
    (iff_of_false (h.notInside hin) hout)
    fun hc => .inr (hmode.symm.trans (h.latched_of_counted hin hleaving hc))

/-- Calling a function keeps what is known about the words and about the thread. -/
theorem begin_own (hinv : Inv readers m) (h : At readers i m .idle) (hnone : m.writer = none)
    {next : Pc} (hmode : next.mode = some .free) (hout : ¬ next.Inside)
    (hexcludes : ¬ next.Excludes) (hreads : ¬ next.Reads) :
    Inv readers (m.begin i) ∧ At readers i (m.begin i) next := by
  have hm := hinv.free hnone
  have hnot : i ∉ m.counted := fun hc => by
    have hlatched := h.latched_of_counted id id hc
    simp [hm] at hlatched
  exact ⟨hinv.begin, .toWriter hmode (fun hr => absurd hr hreads) rfl hm
    (fun hx => absurd hx hexcludes) (iff_of_false (h.notInside id) hout)
    fun hc => absurd hc hnot⟩

theorem inv_start (readers : Finset ι) : Inv readers (start ι).mem where
  value := by simp [start, pack, Mode.bits]
  counted := by simp [start]
  inside := by simp [start]
  latched _ := rfl
  free _ := rfl

theorem at_start (readers : Finset ι) (i : ι) : At readers i (start ι).mem ((start ι).pc i) :=
  .toOutside rfl id id False.elim (by simp [start]) (by simp [start]) False.elim (by simp [start])

/-! ## Steps -/

variable [DecidableEq ι]

/-- The step of a reader that adds itself keeps what is known about the words. -/
theorem Inv.faa (hinv : Inv readers m) (hfew : readers.card < 2 ^ 30) (hi : i ∈ readers)
    (hnot : i ∉ m.counted) : Inv readers (m.faa i) := by
  unfold Mem.faa
  split
  case isTrue h =>
    have hm : m.mode ≠ .latched := by simp [(hinv.mask_eq_zero hfew).mp h]
    exact hinv.enter hfew hi hnot hm
  case isFalse => exact hinv.knock hfew hi hnot

theorem At.other_faa (hinv : Inv readers m) (hfew : readers.card < 2 ^ 30) (hj : j ≠ i)
    (h : At readers j m pc) : At readers j (m.faa i) pc := by
  unfold Mem.faa
  split
  case isTrue hzero => exact h.other_enter hj fun _ => (hinv.mask_eq_zero hfew).mp hzero
  case isFalse => exact h.other_knock hj

/-- A reader that is let in adds itself. -/
theorem At.enter (h : At readers i m pc) (hpc : pc.mode = none) (hm : m.mode = .free) :
    At readers i (m.enter i) .reading :=
  .toCounted rfl (.inl trivial) False.elim (h.notWriter hpc)
    (iff_of_true (Finset.mem_insert_self i m.inside) trivial) id
    (Finset.mem_insert_self i m.counted) (by simp [Mem.enter, hm])

/-- A reader that is not let in adds itself, and goes to take itself out. -/
theorem At.knock (h : At readers i m pc) (hpc : pc.mode = none) (hin : ¬ pc.Inside)
    (hm : m.mode = .writer) {next : Pc} (hnext : next.Leaving) (hmode : next.mode = none)
    (hout : ¬ next.Inside) (hreader : next.Reads → i ∈ readers) (hentering : ¬ next.Entering) :
    At readers i (m.knock i) next :=
  .toCounted hmode (.inr hnext) hreader (h.notWriter hpc)
    (iff_of_false (h.notInside hin) hout) hentering (Finset.mem_insert_self i m.counted)
    (by simp [Mem.knock, hm])

/-- A reader that is not let in adds itself under the latch, and stays counted. -/
theorem At.knock_latched (h : At readers i m pc) (hpc : pc.mode = none) (hin : ¬ pc.Inside)
    (hm : m.mode = .latched) {next : Pc} (hmode : next.mode = none) (hout : ¬ next.Inside)
    (hleaving : ¬ next.Leaving) (hreader : next.Reads → i ∈ readers)
    (hentering : ¬ next.Entering) : At readers i (m.knock i) next :=
  .toOutside hmode hout hleaving hreader (h.notWriter hpc) (h.notInside hin)
    (fun he => absurd he hentering) fun _ => hm

/-- A reader takes itself out. -/
theorem At.dec (h : At readers i m pc) (hpc : pc.mode = none) {next : Pc}
    (hmode : next.mode = none) (hout : ¬ next.Inside) (hleaving : ¬ next.Leaving)
    (hreader : next.Reads → i ∈ readers) : At readers i (m.dec i) next :=
  .toOutside hmode hout hleaving hreader (h.notWriter hpc) (Finset.notMem_erase i m.inside)
    (fun _ => Finset.notMem_erase i m.counted)
    fun hc => absurd hc (Finset.notMem_erase i m.counted)

/-- One access of a thread keeps what is known about the words and about the thread. -/
theorem act_own (hfew : readers.card < 2 ^ 30) (hinv : Inv readers m) (h : At readers i m pc) :
    Inv readers (act i m pc).1 ∧ At readers i (act i m pc).1 (act i m pc).2 := by
  cases pc with
  | idle | reading | locked | latched => exact ⟨hinv, h⟩
  | writeTry =>
    have hwriter := h.isWriter rfl
    simp only [act]
    split
    case isTrue hzero =>
      have hnobody := hinv.eq_zero hfew hzero
      have hempty : m.inside = ∅ := Finset.subset_empty.mp (hnobody ▸ hinv.inside)
      exact ⟨hinv.setWriter hwriter hnobody,
        h.write rfl id (by decide) rfl id False.elim fun _ => hempty⟩
    case isFalse =>
      refine ⟨hinv.finish (h.mode .free rfl), ?_⟩
      exact .toOutside rfl id id False.elim (by simp [Mem.finish]) (h.notInside id) False.elim
        (h.latched_of_counted id id)
  | lockOr =>
    have hm : m.mode ≠ .latched := by simp [h.mode .free rfl]
    exact ⟨hinv.orWriter hfew (h.isWriter rfl) hm,
      h.write rfl id (by decide) rfl id False.elim False.elim⟩
  | lockWait =>
    simp only [act]
    split
    case isTrue => exact ⟨hinv, h⟩
    case isFalse hzero =>
      have hnobody := (hinv.readers_eq_zero hfew).mp (not_not.mp hzero)
      have hempty : m.inside = ∅ := Finset.subset_empty.mp (hnobody ▸ hinv.inside)
      exact ⟨hinv, h.wait rfl id rfl id False.elim fun _ => hempty⟩
  | unlockAnd =>
    have hm := h.mode .writer rfl
    refine ⟨(hinv.andReader hfew).finish rfl, ?_⟩
    refine .toOutside rfl id id False.elim (by simp [act, Mem.finish]) (h.notInside id)
      False.elim ?_
    intro hc
    have hlatched := h.latched_of_counted id id hc
    simp [hm] at hlatched
  | downInc =>
    have hm := h.mode .writer rfl
    have hnot : i ∉ m.counted := fun hc => by
      have hlatched := h.latched_of_counted id id hc
      simp [hm] at hlatched
    refine ⟨hinv.enter hfew (h.reader trivial) hnot (by simp [hm]), ?_⟩
    exact .toWriter rfl False.elim (h.isWriter rfl) hm False.elim
      (iff_of_true (Finset.mem_insert_self i m.inside) trivial) fun _ => .inl trivial
  | downAnd =>
    refine ⟨(hinv.andReader hfew).finish rfl, ?_⟩
    have hin : i ∈ m.inside := h.inside.mpr trivial
    exact .toCounted rfl (.inl trivial) False.elim (by simp [act, Mem.finish])
      (iff_of_true hin trivial) id (hinv.inside hin) (by simp [act, Mem.finish, Mem.andReader])
  | latchOr =>
    have hm : m.mode ≠ .latched := by simp [h.mode .free rfl]
    exact ⟨hinv.orWriter hfew (h.isWriter rfl) hm,
      h.write rfl id (by decide) rfl id False.elim False.elim⟩
  | latchCas =>
    simp only [act]
    split
    case isTrue heq =>
      have hnobody := hinv.eq_writerBit hfew heq
      have hempty : m.inside = ∅ := Finset.subset_empty.mp (hnobody ▸ hinv.inside)
      exact ⟨hinv.latch (h.isWriter rfl) hnobody,
        h.write rfl id (by decide) rfl id False.elim fun _ => hempty⟩
    case isFalse => exact ⟨hinv, h.wait rfl id rfl id False.elim False.elim⟩
  | latchSpin =>
    simp only [act]
    split
    case isTrue => exact ⟨hinv, h⟩
    case isFalse => exact ⟨hinv, h.wait rfl id rfl id False.elim False.elim⟩
  | unlatchStore =>
    have hm := h.mode .latched rfl
    refine ⟨(hinv.unlatch hm).finish rfl, ?_⟩
    exact .toOutside rfl id id False.elim (by simp [act, Mem.finish]) (h.notInside id) False.elim
      (by simp [act, Mem.finish, Mem.unlatch])
  | tryLoad =>
    simp only [act]
    split
    case isTrue => exact ⟨hinv, h.look rfl id id rfl id id False.elim False.elim⟩
    case isFalse hzero =>
      have hm : m.mode = .free := by
        by_contra hne
        exact hzero ((hinv.bit_ne_zero hfew).mpr hne)
      exact ⟨hinv, h.look rfl id id rfl id id (fun _ => h.reader trivial) fun _ => hm⟩
  | tryFaa =>
    have hnot := h.entering trivial
    refine ⟨hinv.faa hfew (h.reader trivial) hnot, ?_⟩
    simp only [act, Mem.faa, hinv.mask_eq_zero hfew, hinv.mask_eq_writerBit hfew]
    cases hm : m.mode with
    | free => exact h.enter rfl hm
    | writer => exact h.knock rfl id hm trivial rfl id False.elim id
    | latched => exact h.knock_latched rfl id hm rfl id id False.elim id
  | tryDec =>
    exact ⟨hinv.dec (h.leaving trivial), h.dec rfl rfl id id False.elim⟩
  | readLoad =>
    simp only [act]
    split
    case isTrue => exact ⟨hinv, h⟩
    case isFalse hzero =>
      have hm : m.mode = .free := by
        by_contra hne
        exact hzero ((hinv.bit_ne_zero hfew).mpr hne)
      exact ⟨hinv, h.look rfl id id rfl id id (fun _ => h.reader trivial) fun _ => hm⟩
  | readFaa =>
    have hnot := h.entering trivial
    have hreader := h.reader trivial
    refine ⟨hinv.faa hfew hreader hnot, ?_⟩
    simp only [act, Mem.faa, hinv.mask_eq_zero hfew, hinv.mask_eq_writerBit hfew]
    cases hm : m.mode with
    | free => exact h.enter rfl hm
    | writer => exact h.knock rfl id hm trivial rfl id (fun _ => hreader) id
    | latched => exact h.knock_latched rfl id hm rfl id id (fun _ => hreader) id
  | readDec =>
    exact ⟨hinv.dec (h.leaving trivial), h.dec rfl rfl id id fun _ => h.reader trivial⟩
  | readUnlock =>
    have hcounted := hinv.inside (h.inside.mpr trivial)
    exact ⟨hinv.dec hcounted, h.dec rfl rfl id id False.elim⟩

/-- One access of a thread keeps what is known about the other threads. -/
theorem act_other (hfew : readers.card < 2 ^ 30) (hinv : Inv readers m) (h : At readers i m pc)
    (hj : j ≠ i) {other : Pc} (hother : At readers j m other) :
    At readers j (act i m pc).1 other := by
  cases pc with
  | idle | reading | locked | latched | lockWait | latchSpin | tryLoad | readLoad => exact hother
  | writeTry =>
    have hwriter := h.isWriter rfl
    have hm : m.mode ≠ .latched := by simp [h.mode .free rfl]
    simp only [act]
    split
    case isTrue => exact hother.other_mode hj hwriter hm (by decide)
    case isFalse => exact hother.other_finish hj hwriter
  | lockOr | latchOr =>
    have hm : m.mode ≠ .latched := by simp [h.mode .free rfl]
    exact hother.other_mode hj (h.isWriter rfl) hm (by decide)
  | unlockAnd | downAnd =>
    have hwriter := h.isWriter rfl
    have hm : m.mode ≠ .latched := by simp [h.mode .writer rfl]
    have hand : At readers j m.andReader other := hother.other_mode hj hwriter hm (by decide)
    exact hand.other_finish hj hwriter
  | downInc =>
    have hwriter := h.isWriter rfl
    refine hother.other_enter hj fun hw => ?_
    exact absurd (Option.some.inj (hwriter.symm.trans hw)) (Ne.symm hj)
  | latchCas =>
    simp only [act]
    split
    case isTrue heq => exact hother.other_latch hj (h.isWriter rfl) (hinv.eq_writerBit hfew heq)
    case isFalse => exact hother
  | unlatchStore =>
    have hwriter := h.isWriter rfl
    exact (hother.other_unlatch hj hwriter (h.mode .latched rfl)).other_finish hj hwriter
  | tryFaa | readFaa => exact hother.other_faa hinv hfew hj
  | tryDec | readDec | readUnlock => exact hother.other_dec hj

theorem invariant (hfew : readers.card < 2 ^ 30) :
    Threads.Invariant (Step readers) (fun _ _ _ => True) (Inv readers) (At readers) where
  own := by
    intro i m pc m' pc' hstep _ hinv h
    cases hstep with
    | writeTry hnone => exact begin_own hinv h hnone rfl id id id
    | writeLock hnone => exact begin_own hinv h hnone rfl id id id
    | writeLatch hnone => exact begin_own hinv h hnone rfl id id id
    | writeUnlock =>
      exact ⟨hinv, h.wait rfl id rfl id False.elim fun _ => h.excludes trivial⟩
    | writeDowngrade hi =>
      exact ⟨hinv, h.wait rfl id rfl id (fun _ => hi) fun _ => h.excludes trivial⟩
    | writeUnlatch =>
      exact ⟨hinv, h.wait rfl id rfl id False.elim fun _ => h.excludes trivial⟩
    | readTry hi => exact ⟨hinv, h.look rfl id id rfl id id (fun _ => hi) False.elim⟩
    | readLock hi => exact ⟨hinv, h.look rfl id id rfl id id (fun _ => hi) False.elim⟩
    | readUnlock =>
      have hin := h.inside.mpr trivial
      have hm : m.mode ≠ .latched := fun hl => by simp [hinv.latched hl] at hin
      exact ⟨hinv, .toCounted rfl (.inl trivial) False.elim (h.notWriter rfl)
        (iff_of_true hin trivial) id (hinv.inside hin) hm⟩
    | act => exact act_own hfew hinv h
  other := by
    intro i m pc m' pc' hstep _ hinv h j other hj hother
    cases hstep with
    | writeTry hnone | writeLock hnone | writeLatch hnone => exact hother.other_begin hj hnone
    | writeUnlock | writeDowngrade | writeUnlatch | readTry | readLock | readUnlock => exact hother
    | act => exact act_other hfew hinv h hj hother

/-- While the writer is in a locked or a latched section no reader is in one, and when all threads
are outside the word is zero. -/
theorem readers_excluded (hfew : readers.card < 2 ^ 30) {s : Threads.System (Mem ι) Pc ι}
    (hr : Reachable readers s) :
    (∀ i j, s.pc i = .locked ∨ s.pc i = .latched → s.pc j ≠ .reading) ∧
      ((∀ i, s.pc i = .idle) → s.mem.value = 0) := by
  obtain ⟨hinv, hall⟩ := (invariant hfew).reachable hr (fun _ => trivial) (inv_start readers)
    (at_start readers)
  refine ⟨fun i j hi hj => ?_, fun hidle => ?_⟩
  · have hempty : s.mem.inside = ∅ := by
      rcases hi with hi | hi
      · exact (hi ▸ (hall i).2).excludes trivial
      · exact (hi ▸ (hall i).2).excludes trivial
    have hin : j ∈ s.mem.inside := (hj ▸ (hall j).2).inside.mpr trivial
    simp [hempty] at hin
  · have hat : ∀ i, At readers i s.mem .idle := fun i => hidle i ▸ (hall i).2
    have hfree : s.mem.mode = .free := by
      apply hinv.free
      cases hw : s.mem.writer with
      | none => rfl
      | some i => exact absurd hw ((hat i).notWriter rfl)
    have hnobody : s.mem.counted = ∅ := by
      rw [Finset.eq_empty_iff_forall_notMem]
      intro i hi
      have hlatched := (hat i).latched_of_counted id id hi
      simp [hfree] at hlatched
    rw [hinv.value, hfree, hnobody]
    rfl

/-- A run in which a thread makes `n` more accesses. -/
theorem Reachable.acts {s : Threads.System (Mem ι) Pc ι} (hr : Reachable readers s) (i : ι)
    (n : Nat) : Reachable readers (s.acts act i n) :=
  Threads.System.Reachable.acts hr i n (fun _ _ _ _ _ _ => .inr .act) fun _ _ _ => trivial

/-- A reader has come too late. It is counted while the writer has the latch. -/
theorem readers_excluded_late : ∃ s : Threads.System (Mem Bool) Pc Bool,
    s.pc false = .latched ∧ s.pc true = .readLoad ∧ s.mem.value = writerMask + 1 ∧
      (∀ i j, s.pc i = .locked ∨ s.pc i = .latched → s.pc j ≠ .reading) ∧
      ((∀ i, s.pc i = .idle) → s.mem.value = 0) := by
  have h₀ : Reachable {true} (start Bool) := .refl
  have h₁ : Reachable {true} _ := h₀.call true (.readLock (by decide)) fun _ => trivial
  have h₂ : Reachable {true} _ := (h₁.acts true 1).extend false (.writeLatch rfl) fun _ => trivial
  have h₃ := (h₂.acts false 2).acts true 1
  exact ⟨_, by decide +kernel, by decide +kernel, by decide +kernel,
    readers_excluded (by decide) h₃⟩

end ConcurrencyKit.Swlock
