import ConcurrencyKit.Bytelock.Model

/-!
# Exclusion in `ck_bytelock`

A thread that has made itself the owner waits for the slots one word after the other, and then for
the counter. A reader behind the point where it stands cannot appear again, since it would have to
find no owner. The readers that an owner has passed are the assertion about it (`Passed`).

`ck_bytelock_read_lock` takes a thread for a writer if its number is in `owner`. The threads
without a slot share theirs. In the runs considered here none of them finds it there.
-/

namespace ConcurrencyKit.Bytelock

variable {ι : Type} {l : Layout}

/-- The owner has seen that a thread with this slot number is no reader. -/
def Passed (l : Layout) (slot : Nat) : Pc → Prop
  | .writeScan k => slot ≤ l.size ∧ slot - 1 < k * l.length
  | .writeCount => slot ≤ l.size
  | .writing | .writeUnlock | .readOwner true | .ownStore | .ownRelease => True
  | _ => False

/-- The thread is counted in `n_readers`, if it is one without a slot. -/
def Pc.Counted : Pc → Prop
  | .countCheck | .countDec | .reading | .readUnlock => True
  | _ => False

/-- The code has found the slot number to be in `readers`. -/
def Pc.Slotted : Pc → Prop
  | .writeClear _ | .ownStore | .ownRelease | .slotSet | .slotCheck | .slotClear | .slotWait
  | .writeCas true => True
  | _ => False

/-- The code has found the slot number not to be in `readers`. -/
def Pc.Unslotted : Pc → Prop
  | .countInc | .countCheck | .countDec | .countWait => True
  | _ => False

/-- The thread has set its byte in `readers` and relies on it. -/
def Pc.Marked : Pc → Prop
  | .ownRelease | .slotCheck => True
  | _ => False

/-- The lock and what is known of its users. -/
structure Inv (s : Slots l ι) (m : Mem ι) : Prop where
  owner : m.owner = (m.holder.map s.slot).getD 0
  count : Counter.Counts (2 ^ 32) m.nReaders m.counted
  slotted : ∀ j, m.reads j = true → s.slot j ≤ l.size → m.readers (s.slot j - 1) = true
  counted : ∀ j, m.reads j = true → l.size < s.slot j → j ∈ m.counted

/-- What is true of a thread. -/
structure At (s : Slots l ι) (i : ι) (m : Mem ι) (pc : Pc) : Prop where
  owns : m.holder = some i ↔ pc.Owns
  reads : m.reads i = true ↔ pc.Reads
  counted : i ∈ m.counted ↔ l.size < s.slot i ∧ pc.Counted
  slotted : pc.Slotted → s.slot i ≤ l.size
  unslotted : pc.Unslotted → l.size < s.slot i
  marked : pc.Marked → m.readers (s.slot i - 1) = true
  passed : ∀ j, j ≠ i → Passed l (s.slot j) pc → m.reads j = false

/-- Whoever has passed readers is the owner. -/
theorem Passed.owns {slot : Nat} {pc : Pc} (h : Passed l slot pc) : pc.Owns := by
  cases pc with
  | readOwner down => cases down <;> simp_all [Passed, Pc.Owns]
  | _ => simp_all [Passed, Pc.Owns]

section Steps

variable [DecidableEq ι] {s : Slots l ι} {i : ι} {m m' : Mem ι} {pc pc' : Pc}

omit [DecidableEq ι] in
theorem Inv.owner_eq_zero (hinv : Inv s m) (h : m.owner = 0) : m.holder = none := by
  have howner := hinv.owner
  cases hh : m.holder with
  | none => rfl
  | some j =>
    have := s.pos j
    simp [hh] at howner
    omega

omit [DecidableEq ι] in
theorem Inv.owner_of_holder (hinv : Inv s m) {j : ι} (h : m.holder = some j) :
    m.owner = s.slot j := by
  simpa [h] using hinv.owner

/-- What a step leaves to the other threads. -/
structure Leaves (s : Slots l ι) (i : ι) (m m' : Mem ι) : Prop where
  holder : ∀ j, j ≠ i → (m'.holder = some j ↔ m.holder = some j)
  reads : ∀ j, j ≠ i → m'.reads j = m.reads j
  counted : ∀ j, j ≠ i → (j ∈ m'.counted ↔ j ∈ m.counted)
  readers : ∀ j, j ≠ i → s.slot j ≤ l.size →
    m'.readers (s.slot j - 1) = m.readers (s.slot j - 1)
  begins : m'.reads i = true → m.reads i = true ∨ ∀ j, j ≠ i → m.holder ≠ some j

omit [DecidableEq ι] in
theorem Leaves.refl (s : Slots l ι) (i : ι) (m : Mem ι) : Leaves s i m m :=
  ⟨fun _ _ => Iff.rfl, fun _ _ => rfl, fun _ _ => Iff.rfl, fun _ _ _ => rfl, .inl⟩

omit [DecidableEq ι] in
/-- The bytes of two threads are different ones. -/
theorem byte_ne {j : ι} (hj : j ≠ i) (hle : s.slot j ≤ l.size) :
    s.slot j - 1 ≠ s.slot i - 1 := by
  intro heq
  have hposj := s.pos j
  have hposi := s.pos i
  exact hj (s.unique j i hle (by omega))

omit [DecidableEq ι] in
/-- A store to the thread's own byte. -/
theorem Leaves.storeReader (b : Bool) (hreads : m'.reads i = true → m.reads i = true)
    (hholder : m'.holder = m.holder) (hother : ∀ j, j ≠ i → m'.reads j = m.reads j)
    (hcounted : m'.counted = m.counted)
    (hreaders : m'.readers = Function.update m.readers (s.slot i - 1) b) : Leaves s i m m' where
  holder _ _ := by rw [hholder]
  reads := hother
  counted _ _ := by rw [hcounted]
  readers j hj hle := by
    rw [hreaders]
    exact Function.update_of_ne (byte_ne hj hle) _ _
  begins h := .inl (hreads h)

theorem act_leaves (hinv : Inv s m) (hat : At s i m pc) : Leaves s i m (act s i m pc).1 := by
  have free : m.owner = 0 → ∀ j, j ≠ i → m.holder ≠ some j := by
    intro h j _
    simp [hinv.owner_eq_zero h]
  have mine : pc.Owns → ∀ j, j ≠ i → m.holder ≠ some j := by
    intro h j hj heq
    rw [hat.owns.mpr h] at heq
    exact hj (Option.some.inj heq).symm
  have released : pc.Owns → ∀ j, j ≠ i → ((none : Option ι) = some j ↔ m.holder = some j) := by
    intro h j hj
    simp [mine h j hj]
  have setReads : ∀ (b : Bool) (j : ι), j ≠ i → Function.update m.reads i b j = m.reads j :=
    fun b j hj => Function.update_of_ne hj _ _
  cases pc with
  | writeCas up =>
    unfold act
    dsimp only
    split
    case isTrue h =>
      refine ⟨?_, fun _ _ => rfl, fun _ _ => Iff.rfl, fun _ _ _ => rfl, .inl⟩
      intro j hj
      have hne : ¬ i = j := fun heq => hj heq.symm
      simp [Mem.take, hinv.owner_eq_zero h, hne]
    case isFalse => exact .refl s i m
  | writeClear up =>
    exact .storeReader false (by simp [act, Mem.setReads]) rfl (setReads false) rfl rfl
  | writeUnlock =>
    exact ⟨released trivial, fun _ _ => rfl, fun _ _ => Iff.rfl, fun _ _ _ => rfl, .inl⟩
  | ownRelease =>
    exact ⟨released trivial, setReads true, fun _ _ => Iff.rfl, fun _ _ _ => rfl,
      fun _ => .inr (mine trivial)⟩
  | countInc =>
    refine ⟨fun _ _ => Iff.rfl, fun _ _ => rfl, ?_, fun _ _ _ => rfl, .inl⟩
    intro j hj
    unfold act
    simp [Mem.incReaders, hj]
  | countDec =>
    refine ⟨fun _ _ => Iff.rfl, fun _ _ => rfl, ?_, fun _ _ _ => rfl, .inl⟩
    intro j hj
    unfold act
    simp [Mem.decReaders, hj]
  | countCheck | slotCheck =>
    unfold act
    dsimp only
    split
    case isTrue h =>
      exact ⟨fun _ _ => Iff.rfl, setReads true, fun _ _ => Iff.rfl, fun _ _ _ => rfl,
        fun _ => .inr (free h)⟩
    case isFalse => exact .refl s i m
  | readUnlock =>
    unfold act
    dsimp only
    split
    case isTrue =>
      refine ⟨fun _ _ => Iff.rfl, setReads false, ?_, fun _ _ _ => rfl, ?_⟩
      · intro j hj
        simp [Mem.setReads, Mem.decReaders, hj]
      · simp [Mem.setReads]
    case isFalse =>
      exact .storeReader false (by simp [Mem.setReads]) rfl (setReads false) rfl rfl
  | writeScan k =>
    unfold act
    dsimp only
    split <;> exact .refl s i m
  | ownStore | slotSet => exact .storeReader true id rfl (fun _ _ => rfl) rfl rfl
  | slotClear => exact .storeReader false id rfl (fun _ _ => rfl) rfl rfl
  | _ => exact .refl s i m

theorem Step.leaves (h : Step s i m pc m' pc') (hinv : Inv s m) (hat : At s i m pc) :
    Leaves s i m m' := by
  cases h with
  | act => exact act_leaves hinv hat
  | _ => exact .refl s i m

/-- A step of another thread. -/
theorem Leaves.other (h : Leaves s i m m') {j : ι} (hj : j ≠ i) {q : Pc} (hq : At s j m q) :
    At s j m' q := by
  refine ⟨(h.holder j hj).trans hq.owns, by rw [h.reads j hj]; exact hq.reads,
    (h.counted j hj).trans hq.counted, hq.slotted, hq.unslotted, ?_, ?_⟩
  · intro hmarked
    have hle : s.slot j ≤ l.size := hq.slotted (by cases q <;> simp_all [Pc.Marked, Pc.Slotted])
    rw [h.readers j hj hle]
    exact hq.marked hmarked
  intro k hk hpassed
  have hbefore := hq.passed k hk hpassed
  by_cases hki : k = i
  · -- the thread that made the step would have to find no owner to begin to read
    subst hki
    by_contra hreads
    rcases h.begins (Bool.eq_true_of_not_eq_false hreads) with hold | hfree
    · rw [hbefore] at hold
      cases hold
    · exact hfree j hj (hq.owns.mpr hpassed.owns)
  · rw [h.reads k hki, hbefore]

/-! ## The steps of the thread itself -/

/-- A store to the thread's own byte concerns no other reader. -/
theorem Inv.storeReader (hinv : Inv s m) {b : Bool}
    (hreads : b = true ∨ m.reads i = false) : Inv s (m.storeReader (s.slot i - 1) b) := by
  refine ⟨hinv.owner, hinv.count, ?_, hinv.counted⟩
  intro j hj hle
  by_cases hji : j = i
  · subst hji
    rcases hreads with rfl | hfalse
    · exact Function.update_self ..
    · change m.reads j = true at hj
      rw [hfalse] at hj
      cases hj
  · exact (Function.update_of_ne (byte_ne hji hle) _ _).trans (hinv.slotted j hj hle)

theorem Inv.setReads_false (hinv : Inv s m) (i : ι) : Inv s (m.setReads i false) := by
  have before : ∀ j, Function.update m.reads i false j = true → m.reads j = true := by
    intro j hj
    by_cases hji : j = i
    · simp [hji] at hj
    · rwa [Function.update_of_ne hji] at hj
  exact ⟨hinv.owner, hinv.count, fun j hj => hinv.slotted j (before j hj),
    fun j hj => hinv.counted j (before j hj)⟩

theorem Inv.setReads_true (hinv : Inv s m)
    (hslotted : s.slot i ≤ l.size → m.readers (s.slot i - 1) = true)
    (hcounted : l.size < s.slot i → i ∈ m.counted) : Inv s (m.setReads i true) := by
  have before : ∀ j, j ≠ i → Function.update m.reads i true j = true → m.reads j = true := by
    intro j hji hj
    rwa [Function.update_of_ne hji] at hj
  refine ⟨hinv.owner, hinv.count, ?_, ?_⟩
  · intro j hj
    by_cases hji : j = i
    · rw [hji]
      exact hslotted
    · exact hinv.slotted j (before j hji hj)
  · intro j hj
    by_cases hji : j = i
    · rw [hji]
      exact hcounted
    · exact hinv.counted j (before j hji hj)

theorem Inv.incReaders (hinv : Inv s m) (hi : i ∉ m.counted) : Inv s (m.incReaders i) := by
  refine ⟨hinv.owner, hinv.count.insert hi, hinv.slotted, ?_⟩
  intro j hj hlt
  exact Finset.mem_insert_of_mem (hinv.counted j hj hlt)

theorem Inv.decReaders (hinv : Inv s m) (hi : i ∈ m.counted) (hreads : m.reads i = false) :
    Inv s (m.decReaders i) := by
  refine ⟨hinv.owner, hinv.count.erase hi, hinv.slotted, ?_⟩
  intro j hj hlt
  have hji : j ≠ i := by
    intro heq
    rw [heq] at hj
    change m.reads i = true at hj
    rw [hreads] at hj
    cases hj
  exact Finset.mem_erase_of_ne_of_mem hji (hinv.counted j hj hlt)

omit [DecidableEq ι] in
theorem Inv.release (hinv : Inv s m) : Inv s m.release :=
  ⟨rfl, hinv.count, hinv.slotted, hinv.counted⟩

omit [DecidableEq ι] in
theorem Inv.take (hinv : Inv s m) (i : ι) : Inv s (m.take i (s.slot i)) :=
  ⟨rfl, hinv.count, hinv.slotted, hinv.counted⟩

/-- No unslotted thread finds the number of all unslotted threads in `owner` when it comes to
lock for reading. -/
def Calm (s : Slots l ι) (i : ι) (m : Mem ι) (pc : Pc) : Prop :=
  ∀ down, pc = .readOwner down → s.slot i = unslotted → m.owner ≠ unslotted

omit [DecidableEq ι] in
/-- The thread goes on and changes nothing. -/
theorem At.move (hat : At s i m pc) (howns : pc'.Owns ↔ pc.Owns) (hreads : pc'.Reads ↔ pc.Reads)
    (hcounted : pc'.Counted ↔ pc.Counted) (hslotted : pc'.Slotted → s.slot i ≤ l.size)
    (hunslotted : pc'.Unslotted → l.size < s.slot i) (hmarked : ¬ pc'.Marked)
    (hpassed : ∀ j, j ≠ i → Passed l (s.slot j) pc' → m.reads j = false) : At s i m pc' :=
  ⟨hat.owns.trans howns.symm, hat.reads.trans hreads.symm, by rw [hcounted]; exact hat.counted,
    hslotted, hunslotted, fun h => absurd h hmarked, hpassed⟩

omit [DecidableEq ι] in
/-- The owner has found all bytes of a word to be zero. -/
theorem passed_succ (hinv : Inv s m) {k : Nat} (hat : At s i m (.writeScan k))
    (hword : ∀ b < l.length, m.readers (k * l.length + b) = false) {j : ι} (hj : j ≠ i)
    (h : Passed l (s.slot j) (.writeScan (k + 1))) : m.reads j = false := by
  obtain ⟨hle, hlt⟩ := h
  by_cases hbefore : s.slot j - 1 < k * l.length
  · exact hat.passed j hj ⟨hle, hbefore⟩
  · by_contra hreads
    have hbyte := hinv.slotted j (Bool.eq_true_of_not_eq_false hreads) hle
    have hzero := hword (s.slot j - 1 - k * l.length) (by rw [Nat.succ_mul] at hlt; omega)
    rw [show k * l.length + (s.slot j - 1 - k * l.length) = s.slot j - 1 by omega, hbyte] at hzero
    cases hzero

omit [DecidableEq ι] in
/-- The counter is zero: no thread without a slot is a reader. -/
theorem reads_of_count (hinv : Inv s m) (hfew : m.counted.card < 2 ^ 32) (h : m.nReaders = 0)
    {j : ι} (hlt : l.size < s.slot j) : m.reads j = false := by
  by_contra hreads
  have hmem := hinv.counted j (Bool.eq_true_of_not_eq_false hreads) hlt
  rw [hinv.count.eq_empty hfew h] at hmem
  simp at hmem

omit [DecidableEq ι] in
/-- What is in `owner` is the number of the owner, except for threads without a slot. -/
theorem holder_of_owner (hinv : Inv s m) (h : m.owner = s.slot i)
    (hcalm : s.slot i = unslotted → m.owner ≠ unslotted) :
    m.holder = some i ∧ s.slot i ≤ l.size := by
  have hle : s.slot i ≤ l.size := by
    rcases s.valid i with hle | hun
    · exact hle
    · exact absurd (h.trans hun) (hcalm hun)
  refine ⟨?_, hle⟩
  have hpos := s.pos i
  cases hh : m.holder with
  | none =>
    have := hinv.owner
    simp [hh] at this
    omega
  | some j =>
    rw [hinv.owner_of_holder hh] at h
    rw [s.unique i j hle h.symm]

theorem writeScan_own (hinv : Inv s m) {k : Nat} (hat : At s i m (.writeScan k))
    (hfew : m.counted.card < 2 ^ 32) :
    Inv s (act s i m (.writeScan k)).1 ∧
      At s i (act s i m (.writeScan k)).1 (act s i m (.writeScan k)).2 := by
  unfold act
  dsimp only
  split
  case isTrue hk =>
    refine ⟨hinv, ?_⟩
    dsimp only
    split
    case isTrue hword =>
      exact hat.move Iff.rfl Iff.rfl Iff.rfl (fun h => h.elim) (fun h => h.elim) id
        fun j hj h => passed_succ hinv hat hword hj h
    case isFalse => exact hat
  case isFalse hk =>
    have hall : ∀ j, j ≠ i → s.slot j ≤ l.size → m.reads j = false := by
      intro j hj hle
      refine hat.passed j hj ⟨hle, ?_⟩
      have hpos := s.pos j
      have hmul : l.size ≤ k * l.length := Nat.mul_le_mul_right _ (Nat.le_of_not_lt hk)
      omega
    refine ⟨hinv, ?_⟩
    dsimp only
    split
    case isTrue hcount =>
      refine hat.move Iff.rfl Iff.rfl ?_ (fun h => h.elim) (fun h => h.elim) id ?_
      · simp [Pc.Counted]
      · intro j hj _
        by_cases hle : s.slot j ≤ l.size
        · exact hall j hj hle
        · exact reads_of_count hinv hfew hcount (Nat.lt_of_not_le hle)
    case isFalse =>
      exact hat.move Iff.rfl Iff.rfl Iff.rfl (fun h => h.elim) (fun h => h.elim) id hall

theorem readOwner_own (hinv : Inv s m) {down : Bool} (hat : At s i m (.readOwner down))
    (hcalm : Calm s i m (.readOwner down)) :
    At s i m (act s i m (.readOwner down)).2 := by
  have hfacts := hat.owns
  unfold act
  dsimp only
  split
  case isTrue h =>
    obtain ⟨hholder, hle⟩ := holder_of_owner hinv h (hcalm down rfl)
    have hown := hfacts.mp hholder
    cases down with
    | false => exact hown.elim
    | true =>
      exact hat.move Iff.rfl Iff.rfl Iff.rfl (fun _ => hle) (fun h => h.elim) id hat.passed
  case isFalse h =>
    cases down with
    | true => exact absurd (hinv.owner_of_holder (hfacts.mpr trivial)) h
    | false =>
      split
      case isTrue hlt =>
        exact hat.move Iff.rfl Iff.rfl Iff.rfl (fun h => h.elim) (fun _ => hlt) id
          fun _ _ h => h.elim
      case isFalse hlt =>
        exact hat.move Iff.rfl Iff.rfl Iff.rfl (fun _ => Nat.le_of_not_lt hlt) (fun h => h.elim) id
          fun _ _ h => h.elim

omit [DecidableEq ι] in
theorem At.notReads (hat : At s i m pc) (h : ¬ pc.Reads) : m.reads i = false := by
  by_contra hreads
  exact h (hat.reads.mp (Bool.eq_true_of_not_eq_false hreads))

theorem act_own (hinv : Inv s m) (hat : At s i m pc) (hfew : m.counted.card < 2 ^ 32)
    (hcalm : Calm s i m pc) :
    Inv s (act s i m pc).1 ∧ At s i (act s i m pc).1 (act s i m pc).2 := by
  have himpossible : ∀ {q : Prop}, False → q := fun h => h.elim
  cases pc with
  | idle | reading | writing => exact ⟨hinv, hat⟩
  | writeScan k => exact writeScan_own hinv hat hfew
  | readOwner down => exact ⟨hinv, readOwner_own hinv hat hcalm⟩
  | writeCas up =>
    unfold act
    dsimp only
    split
    case isFalse => exact ⟨hinv, hat⟩
    case isTrue h =>
      refine ⟨hinv.take i, ?_⟩
      dsimp only
      have hcounted : i ∉ m.counted := fun h => (hat.counted.mp h).2
      split
      case isTrue hle =>
        refine ⟨by simp [Mem.take, Pc.Owns], ?_, by simpa [Mem.take, Pc.Counted] using hcounted,
          fun _ => hle, himpossible, himpossible, fun _ _ => himpossible⟩
        have hreads := hat.reads
        cases up <;> simpa [Mem.take, Pc.Reads] using hreads
      case isFalse hle =>
        refine ⟨by simp [Mem.take, Pc.Owns], ?_, by simpa [Mem.take, Pc.Counted] using hcounted,
          himpossible, himpossible, himpossible, ?_⟩
        · have hreads := hat.reads
          have hslotted := hat.slotted
          cases up with
          | false => simpa [Mem.take, Pc.Reads] using hreads
          | true => exact absurd (hslotted trivial) hle
        · rintro j - ⟨-, hlt⟩
          omega
  | writeClear up =>
    have hle := hat.slotted trivial
    refine ⟨(hinv.setReads_false i).storeReader (.inr (Function.update_self ..)), hat.owns, ?_,
      hat.counted, himpossible, himpossible, himpossible, ?_⟩
    · unfold act
      simp [Mem.setReads, Pc.Reads]
    · rintro j - ⟨-, hlt⟩
      omega
  | writeCount =>
    unfold act
    dsimp only
    refine ⟨hinv, ?_⟩
    split
    case isTrue hcount =>
      refine hat.move Iff.rfl Iff.rfl (by simp [Pc.Counted]) himpossible himpossible id ?_
      intro j hj _
      by_cases hle : s.slot j ≤ l.size
      · exact hat.passed j hj hle
      · exact reads_of_count hinv hfew hcount (Nat.lt_of_not_le hle)
    case isFalse => exact hat
  | writeUnlock =>
    exact ⟨hinv.release, by simp [act, Mem.release, Pc.Owns], hat.reads, hat.counted,
      himpossible, himpossible, himpossible, fun _ _ => himpossible⟩
  | ownStore =>
    have hle := hat.slotted trivial
    exact ⟨hinv.storeReader (.inl rfl), hat.owns, hat.reads, hat.counted, fun _ => hle,
      himpossible, fun _ => Function.update_self .., hat.passed⟩
  | ownRelease =>
    have hle := hat.slotted trivial
    refine ⟨hinv.release.setReads_true (fun _ => hat.marked trivial) (fun h => by omega),
      by simp [act, Mem.release, Mem.setReads, Pc.Owns], ?_, ?_, himpossible, himpossible,
      himpossible, fun _ _ => himpossible⟩
    · unfold act
      simp [Mem.setReads, Pc.Reads]
    · have hcounted := hat.counted
      change i ∈ m.counted ↔ _
      simp [hcounted, Pc.Counted, hle]
  | countInc =>
    have hlt := hat.unslotted trivial
    have hcounted : i ∉ m.counted := fun h => (hat.counted.mp h).2
    refine ⟨hinv.incReaders hcounted, hat.owns, hat.reads, ?_, himpossible, fun _ => hlt,
      himpossible, fun _ _ => himpossible⟩
    unfold act
    simp [Mem.incReaders, Pc.Counted, hlt]
  | countCheck =>
    have hlt := hat.unslotted trivial
    unfold act
    dsimp only
    split
    case isTrue h =>
      refine ⟨hinv.setReads_true (fun h => by omega) (fun _ => hat.counted.mpr ⟨hlt, trivial⟩),
        ?_, ?_, ?_, himpossible, himpossible, himpossible, fun _ _ => himpossible⟩
      · exact hat.owns
      · simp [Mem.setReads, Pc.Reads]
      · exact hat.counted
    case isFalse =>
      exact ⟨hinv, hat.move Iff.rfl Iff.rfl Iff.rfl himpossible (fun _ => hlt) id
        fun _ _ => himpossible⟩
  | countDec =>
    have hlt := hat.unslotted trivial
    have hcounted := hat.counted.mpr ⟨hlt, trivial⟩
    refine ⟨hinv.decReaders hcounted (hat.notReads id), hat.owns, hat.reads, ?_, himpossible,
      fun _ => hlt, himpossible, fun _ _ => himpossible⟩
    unfold act
    simp [Mem.decReaders, Pc.Counted]
  | countWait =>
    have hlt := hat.unslotted trivial
    unfold act
    dsimp only
    refine ⟨hinv, ?_⟩
    split
    case isTrue => exact hat
    case isFalse =>
      exact hat.move Iff.rfl Iff.rfl Iff.rfl himpossible (fun _ => hlt) id fun _ _ => himpossible
  | slotSet =>
    have hle := hat.slotted trivial
    exact ⟨hinv.storeReader (.inl rfl), hat.owns, hat.reads, hat.counted, fun _ => hle,
      himpossible, fun _ => Function.update_self .., fun _ _ => himpossible⟩
  | slotCheck =>
    have hle := hat.slotted trivial
    unfold act
    dsimp only
    split
    case isTrue h =>
      refine ⟨hinv.setReads_true (fun _ => hat.marked trivial) (fun h => by omega), hat.owns, ?_,
        ?_, himpossible, himpossible, himpossible, fun _ _ => himpossible⟩
      · simp [Mem.setReads, Pc.Reads]
      · have hcounted := hat.counted
        change i ∈ m.counted ↔ _
        simp [hcounted, Pc.Counted, hle]
    case isFalse =>
      exact ⟨hinv, hat.move Iff.rfl Iff.rfl Iff.rfl (fun _ => hle) himpossible id
        fun _ _ => himpossible⟩
  | slotClear =>
    have hle := hat.slotted trivial
    exact ⟨hinv.storeReader (.inr (hat.notReads id)), hat.owns, hat.reads, hat.counted,
      fun _ => hle, himpossible, himpossible, fun _ _ => himpossible⟩
  | slotWait =>
    have hle := hat.slotted trivial
    unfold act
    dsimp only
    refine ⟨hinv, ?_⟩
    split
    case isTrue => exact hat
    case isFalse =>
      exact hat.move Iff.rfl Iff.rfl Iff.rfl (fun _ => hle) himpossible id fun _ _ => himpossible
  | readUnlock =>
    unfold act
    dsimp only
    split
    case isTrue hlt =>
      have hcounted := hat.counted.mpr ⟨hlt, trivial⟩
      refine ⟨(hinv.setReads_false i).decReaders hcounted (Function.update_self ..), hat.owns, ?_,
        ?_, himpossible, himpossible, himpossible, fun _ _ => himpossible⟩
      · simp [Mem.setReads, Pc.Reads]
      · simp [Mem.setReads, Mem.decReaders, Pc.Counted]
    case isFalse hlt =>
      refine ⟨(hinv.setReads_false i).storeReader (.inr (Function.update_self ..)), hat.owns, ?_,
        ?_, himpossible, himpossible, himpossible, fun _ _ => himpossible⟩
      · simp [Mem.setReads, Pc.Reads]
      · have hcounted := hat.counted
        change i ∈ m.counted ↔ _
        simp [hcounted, hlt]

/-- A step of a thread that is `Calm`. -/
def CalmStep (s : Slots l ι) (i : ι) (m : Mem ι) (pc : Pc) (m' : Mem ι) (pc' : Pc) : Prop :=
  Calm s i m pc ∧ Step s i m pc m' pc'

/-- The counter is as many as there are threads counted in it. -/
def Few (_ : ι) (m : Mem ι) (_ : Pc) : Prop := m.counted.card < 2 ^ 32

theorem Step.own (h : Step s i m pc m' pc') (hinv : Inv s m) (hat : At s i m pc)
    (hfew : m.counted.card < 2 ^ 32) (hcalm : Calm s i m pc) : Inv s m' ∧ At s i m' pc' := by
  have none : ∀ {q : Prop}, False → q := fun h => h.elim
  cases h with
  | writeLock | readLock =>
    exact ⟨hinv, hat.move Iff.rfl Iff.rfl Iff.rfl none none id fun _ _ => none⟩
  | upgrade slotted =>
    refine ⟨hinv, hat.owns, hat.reads, ?_, fun _ => slotted, none, none, fun _ _ => none⟩
    exact ⟨fun h => absurd (hat.counted.mp h).1 (Nat.not_lt_of_le slotted), fun h => h.2.elim⟩
  | writeUnlock | downgrade =>
    exact ⟨hinv, hat.move Iff.rfl Iff.rfl Iff.rfl none none id hat.passed⟩
  | readUnlock =>
    exact ⟨hinv, hat.move Iff.rfl Iff.rfl Iff.rfl none none id fun _ _ => none⟩
  | act => exact act_own hinv hat hfew hcalm

theorem invariant (s : Slots l ι) : Threads.Invariant (CalmStep s) Few (Inv s) (At s) where
  own h hfew hinv hat := h.2.own hinv hat hfew h.1
  other h _ hinv hat _ _ hj hq := (h.2.leaves hinv hat).other hj hq

end Steps

/-- A thread accesses no byte but those in `readers`. -/
theorem At.touches {s : Slots l ι} {i : ι} {m : Mem ι} {pc : Pc} (hat : At s i m pc) {k : Nat}
    (h : Touches s i k pc) : k < l.size := by
  have hpos := s.pos i
  cases pc with
  | writeClear | ownStore | slotSet | slotClear =>
    have hle := hat.slotted trivial
    change k = s.slot i - 1 at h
    omega
  | writeScan w =>
    obtain ⟨hw, -, hlt⟩ := h
    have hmul : (w + 1) * l.length ≤ l.size := Nat.mul_le_mul_right _ hw
    omega
  | readUnlock =>
    obtain ⟨hle, heq⟩ := h
    omega
  | _ => exact h.elim

theorem Pc.Writes.owns {pc : Pc} (h : pc.Writes) : pc.Owns := by
  cases pc with
  | readOwner down => cases down <;> simp_all [Pc.Writes, Pc.Owns]
  | _ => simp_all [Pc.Writes, Pc.Owns]

theorem Pc.Writes.passed {pc : Pc} (h : pc.Writes) (slot : Nat) : Passed l slot pc := by
  cases pc with
  | readOwner down => cases down <;> simp_all [Pc.Writes, Passed]
  | _ => simp_all [Pc.Writes, Passed]

variable [DecidableEq ι]

/-- In the runs in which no unslotted thread comes to lock for reading while it finds the number of
all unslotted threads in `owner`, and in which fewer threads than the counter has values are counted
in it, a writer excludes all other writers and readers, and no access is outside `readers`. -/
theorem writer_excludes {s : Slots l ι} {t : Threads.System (Mem ι) Pc ι}
    (hr : Threads.System.Reachable (CalmStep s) Few (start ι) t) :
    (∀ i j, i ≠ j → (t.pc i).Writes → ¬ (t.pc j).Writes ∧ ¬ (t.pc j).Reads) ∧
      ∀ i k, Touches s i k (t.pc i) → k < l.size := by
  have hinv : Inv s (start ι).mem :=
    ⟨rfl, .empty _, by simp [start, init], by simp [start, init]⟩
  have hat : ∀ i, At s i (start ι).mem ((start ι).pc i) := by
    intro i
    constructor <;> simp [start, init, Pc.Owns, Pc.Reads, Pc.Counted, Pc.Slotted, Pc.Unslotted,
      Pc.Marked]
  have hfew : ∀ i, Few i (start ι).mem ((start ι).pc i) := fun _ => by simp [Few, start, init]
  have hall := fun i => (((invariant s).reachable hr hfew hinv hat).2 i).2
  refine ⟨fun i j hij hi => ⟨fun hj => ?_, fun hj => ?_⟩, fun i k h => (hall i).touches h⟩
  · have heq := ((hall i).owns.mpr hi.owns).symm.trans ((hall j).owns.mpr hj.owns)
    exact hij (Option.some.inj heq)
  · have hreads := (hall i).passed j (Ne.symm hij) (hi.passed _)
    rw [(hall j).reads.mpr hj] at hreads
    cases hreads

instance (s : Slots l ι) (i : ι) (m : Mem ι) (pc : Pc) : Decidable (Calm s i m pc) :=
  inferInstanceAs (Decidable (∀ down, pc = .readOwner down → s.slot i = unslotted →
    m.owner ≠ unslotted))

theorem act_resting (s : Slots l ι) (i : ι) (m : Mem ι) {pc : Pc} (h : pc.Resting) :
    act s i m pc = (m, pc) := by
  cases pc with
  | idle | reading | writing => rfl
  | _ => exact h.elim

/-- A run in which a thread makes `n` more accesses. -/
theorem acts_reachable {s : Slots l ι} {ok : ι → Mem ι → Pc → Prop}
    {t₀ t : Threads.System (Mem ι) Pc ι} (hr : Threads.System.Reachable (Step s) ok t₀ t) (i : ι)
    (n : Nat) (good : ∀ k < n + 1, ∀ j, ok j (t.acts (act s) i k).mem ((t.acts (act s) i k).pc j)) :
    Threads.System.Reachable (Step s) ok t₀ (t.acts (act s) i n) := by
  refine hr.acts i n (fun k hk m pc _ _ => ?_) good
  by_cases h : pc.Resting
  · exact .inl (act_resting s i m h)
  · exact .inr (.act h)

theorem acts_calm {s : Slots l ι} {ok : ι → Mem ι → Pc → Prop}
    {t₀ t : Threads.System (Mem ι) Pc ι} (hr : Threads.System.Reachable (CalmStep s) ok t₀ t)
    (i : ι) (n : Nat)
    (calm : ∀ k < n, Calm s i (t.acts (act s) i k).mem ((t.acts (act s) i k).pc i))
    (good : ∀ k < n + 1, ∀ j, ok j (t.acts (act s) i k).mem ((t.acts (act s) i k).pc j)) :
    Threads.System.Reachable (CalmStep s) ok t₀ (t.acts (act s) i n) := by
  refine hr.acts i n (fun k hk m pc hm hpc => ?_) good
  by_cases h : pc.Resting
  · exact .inl (act_resting s i m h)
  · have hcalm := calm k hk
    rw [hm, hpc] at hcalm
    exact .inr ⟨hcalm, .act h⟩

/-- The array `readers` with cache lines of 64 bytes and words of 64 bits. -/
def layout : Layout := ⟨7, 8, by decide⟩

/-- One thread has the first slot, the other one has none. -/
def mixed : Slots layout Bool where
  slot i := if i then unslotted else 1
  pos := by decide +kernel
  valid := by decide +kernel
  unique := by decide +kernel

theorem few_bool (i : Bool) (m : Mem Bool) (pc : Pc) : Few i m pc :=
  Nat.lt_of_le_of_lt (Finset.card_le_univ _) (by decide)

/-- A reader without a slot has come too late and goes back. -/
theorem writer_excludes_mixed : ∃ t : Threads.System (Mem Bool) Pc Bool,
    t.pc false = .writing ∧ t.pc true = .countDec ∧
      (∀ i j, i ≠ j → (t.pc i).Writes → ¬ (t.pc j).Writes ∧ ¬ (t.pc j).Reads) ∧
      ∀ i k, Touches mixed i k (t.pc i) → k < layout.size := by
  have h₀ : Threads.System.Reachable (CalmStep mixed) Few (start Bool) (start Bool) := .refl
  have h₁ := h₀.extend true ⟨by decide +kernel, .readLock⟩ fun _ => few_bool _ _ _
  have h₂ := h₁.extend false ⟨by decide +kernel, .writeLock⟩ fun _ => few_bool _ _ _
  have h₃ := acts_calm h₂ true 1 (by decide +kernel) fun _ _ _ => few_bool _ _ _
  have h₄ := acts_calm h₃ false 10 (by decide +kernel) fun _ _ _ => few_bool _ _ _
  have h₅ := acts_calm h₄ true 2 (by decide +kernel) fun _ _ _ => few_bool _ _ _
  exact ⟨_, by decide +kernel, by decide +kernel, writer_excludes h₅⟩

/-- Two threads without a slot. -/
def shared : Slots layout Bool where
  slot _ := unslotted
  pos := by decide +kernel
  valid := by decide +kernel
  unique := by decide +kernel

/-- A thread without a slot comes to lock for reading while another one is the writer. It takes
itself for the owner, stores to a byte that is far behind `readers`, and then holds the lock for
reading next to the writer. -/
theorem unslotted_intrudes :
    (∃ t k, Threads.System.Reachable (Step shared) (fun _ _ _ => True) (start Bool) t ∧
      Touches shared true k (t.pc true) ∧ layout.size ≤ k) ∧
    ∃ t, Threads.System.Reachable (Step shared) (fun _ _ _ => True) (start Bool) t ∧
      (t.pc false).Writes ∧ (t.pc true).Reads := by
  have h₀ : Threads.System.Reachable (Step shared) (fun _ _ _ => True) (start Bool) (start Bool) :=
    .refl
  have h₁ := h₀.extend false .writeLock fun _ => trivial
  have h₂ := acts_reachable h₁ false 9 fun _ _ _ => trivial
  have h₃ := h₂.extend true .readLock fun _ => trivial
  have h₄ := acts_reachable h₃ true 1 fun _ _ _ => trivial
  have h₅ := acts_reachable h₄ true 2 fun _ _ _ => trivial
  exact ⟨⟨_, unslotted - 1, h₄, by decide +kernel, by decide +kernel⟩,
    ⟨_, h₅, by decide +kernel, by decide +kernel⟩⟩

end ConcurrencyKit.Bytelock
