import ConcurrencyKit.Tflock.Model

/-!
# Exclusion and task fairness in `ck_tflock`

After any number of increments each counter of a word says how many there were, up to turns of
`0x8000` (`turn`). The two words take the same values, so they agree when as many requests have been
completed as had come before the ticket was taken. Then these are the requests that have been
completed: readers that came after an outstanding writer are waiting for it, and writers complete
their requests in the order of their tickets.
-/

namespace ConcurrencyKit.Tflock

open Packed (pack)
open Visits (Visit)

/-! ## Words -/

/-- A counter after `n` increments. Zero is its first value only. -/
def turn (n : Nat) : Nat := if n = 0 then 0 else (n - 1) % 0x8000 + 1

/-- A word after `r` requests of readers and `w` requests of writers. -/
def word (r w : Nat) : Nat := pack 16 (turn r) (turn w)

theorem turn_le (n : Nat) : turn n ≤ 0x8000 := by
  unfold turn
  split
  · decide
  · have := Nat.mod_lt (n - 1) (by decide : 0 < 0x8000)
    omega

theorem turn_lt (n : Nat) : turn n < 2 ^ 16 := Nat.lt_of_le_of_lt (turn_le n) (by decide)

theorem turn_mod (n : Nat) : turn n % 0x8000 = n % 0x8000 := by
  unfold turn
  split
  case isTrue h => rw [h]
  case isFalse h => omega

theorem turn_succ (n : Nat) : (turn n &&& 0x7fff) + 1 = turn (n + 1) := by
  have hmask : 0x7fff = 2 ^ 15 - 1 := by decide
  rw [hmask, Nat.and_two_pow_sub_one_eq_mod]
  have hmod : turn n % 2 ^ 15 = n % 0x8000 := turn_mod n
  rw [hmod]
  simp [turn]

theorem turn_and (n : Nat) : turn n &&& 0xffff = turn n := by
  have hmask : 0xffff = 2 ^ 16 - 1 := by decide
  rw [hmask, Nat.and_two_pow_sub_one_eq_mod, Nat.mod_eq_of_lt (turn_lt n)]

theorem word_lt (r w : Nat) : word r w < 2 ^ 32 := Packed.pack_lt (turn_lt w) (turn_lt r)

theorem word_inj {r w r' w' : Nat} (h : word r w = word r' w') :
    r % 0x8000 = r' % 0x8000 ∧ w % 0x8000 = w' % 0x8000 := by
  obtain ⟨hr, hw⟩ := (Packed.pack_inj (turn_lt w) (turn_lt w')).mp h
  exact ⟨by rw [← turn_mod, hr, turn_mod], by rw [← turn_mod, hw, turn_mod]⟩

theorem word_wMask (r w : Nat) : word r w &&& wMask = turn w := by
  have hmask : wMask = pack 16 0 0xffff := by decide
  rw [hmask, word, Packed.pack_and (turn_lt w) (by decide), turn_and]
  simp [pack]

/-- Counting a reader does not change the counter of the writers. -/
theorem fca_readers (r w : Nat) : fca (word r w) rcTopmsk rcIncr = word (r + 1) w := by
  have hmask : (2 ^ 32 - 1) ^^^ rcTopmsk = pack 16 0x7fff 0xffff := by decide
  have hincr : rcIncr = 2 ^ 16 * 1 := by decide
  unfold fca
  rw [hmask, word, Packed.pack_and (turn_lt w) (by decide), turn_and, hincr, Packed.pack_add_high,
    turn_succ]
  exact Nat.mod_eq_of_lt (word_lt (r + 1) w)

/-- Counting a writer does not carry into the counter of the readers. -/
theorem fca_writers (r w : Nat) : fca (word r w) wcTopmsk wcIncr = word r (w + 1) := by
  have hmask : (2 ^ 32 - 1) ^^^ wcTopmsk = pack 16 0xffff 0x7fff := by decide
  have hincr : wcIncr = 1 := by decide
  unfold fca
  rw [hmask, word, Packed.pack_and (turn_lt w) (by decide), turn_and, hincr, Packed.pack_add_low,
    turn_succ]
  exact Nat.mod_eq_of_lt (word_lt r (w + 1))

/-! ## The invariant -/

variable {ι : Type} {i j : ι} {m m' : Mem ι} {pc pc' : Pc ι} {t u : Visit ι Nat}

/-- How many tickets had been taken before this one. -/
def taken (t : Visit ι Nat) : Nat := t.number + t.note

/-- What the words say about the outstanding requests. -/
structure Inv (m : Mem ι) : Prop where
  request : m.request = word m.readers.arrived m.writers.arrived
  completion : m.completion = word m.readers.left m.writers.left
  readers : m.readers.Valid
  writers : m.writers.Valid
  inOrder : m.writers.InOrder
  /-- No reader that came after an outstanding writer has completed its request. -/
  fence : ∀ u ∈ m.writers.present, m.readers.Fence u.note
  /-- Of a reader and a writer, both see who came first. -/
  order : ∀ t ∈ m.readers.present, ∀ u ∈ m.writers.present,
    t.number < u.note ↔ t.note ≤ u.number
  mono : ∀ t ∈ m.writers.present, ∀ u ∈ m.writers.present, t.number < u.number → t.note ≤ u.note
  /-- No writer that came after an outstanding reader has completed its request. -/
  pending : ∀ t ∈ m.readers.present, m.writers.left ≤ t.note ∧ t.note ≤ m.writers.arrived

/-- A writer is let in. All outstanding requests of readers came after it. -/
structure Writes (m : Mem ι) (t : Visit ι Nat) : Prop where
  first : t.number = m.writers.left
  after : ∀ u ∈ m.readers.present, t.number < u.note

/-- Thread `i` has this ticket, and its request is outstanding. -/
def Holds (i : ι) (v : Visits ι Nat) (t : Visit ι Nat) : Prop := t ∈ v.present ∧ t.owner = i

/-- What is known about thread `i` from where it stands. -/
def At (i : ι) (m : Mem ι) : Pc ι → Prop
  | .idle | .writeLoad | .writeCas _ | .readLoad | .readCas _ => True
  | .readWait t previous => Holds i m.readers t ∧ previous = turn t.note
  | .reading t | .readDoneLoad t | .readDoneCas t _ =>
    Holds i m.readers t ∧ t.note = m.writers.left
  | .writeWait t previous => Holds i m.writers t ∧ previous = word t.note t.number
  | .writing t | .writeDoneLoad t | .writeDoneCas t _ => Holds i m.writers t ∧ Writes m t

theorem At.reader (h : At i m pc) (ht : pc.readTicket = some t) : Holds i m.readers t := by
  cases pc <;> simp only [Pc.readTicket, Option.some.injEq, reduceCtorEq] at ht
  all_goals subst ht; exact h.1

theorem At.writer (h : At i m pc) (ht : pc.writeTicket = some t) : Holds i m.writers t := by
  cases pc <;> simp only [Pc.writeTicket, Option.some.injEq, reduceCtorEq] at ht
  all_goals subst ht; exact h.1

theorem inv_start : Inv (start ι).mem where
  request := rfl
  completion := rfl
  readers := .empty ι Nat
  writers := .empty ι Nat
  inOrder := by simp [start, Visits.empty, Visits.InOrder]
  fence := by simp [start, Visits.empty]
  order := by simp [start, Visits.empty]
  mono := by simp [start, Visits.empty]
  pending := by simp [start, Visits.empty]

/-- What a step has to leave as it is for another thread. -/
theorem At.frame (h : At j m pc) (hreader : ∀ t, Holds j m.readers t → Holds j m'.readers t)
    (hwriter : ∀ t, Holds j m.writers t → Holds j m'.writers t)
    (hreads : ∀ t, Holds j m.readers t → t.note = m.writers.left → t.note = m'.writers.left)
    (hwrites : ∀ t, Holds j m.writers t → Writes m t → Writes m' t) : At j m' pc := by
  cases pc with
  | idle | writeLoad | writeCas | readLoad | readCas => trivial
  | readWait t previous => exact ⟨hreader t h.1, h.2⟩
  | writeWait t previous => exact ⟨hwriter t h.1, h.2⟩
  | reading t | readDoneLoad t | readDoneCas t => exact ⟨hreader t h.1, hreads t h.1 h.2⟩
  | writing t | writeDoneLoad t | writeDoneCas t => exact ⟨hwriter t h.1, hwrites t h.1 h.2⟩

/-! ## What a waiting thread finds -/

/-- When a writer finds the word as it was, all requests before its own have been completed. -/
theorem Inv.admit_writer (hinv : Inv m) (hfew : Few i m pc) (ht : t ∈ m.writers.present)
    (heq : m.completion = word t.note t.number) : Writes m t := by
  rw [hinv.completion] at heq
  obtain ⟨hr, hw⟩ := word_inj heq
  have hfirst := hinv.inOrder.first hinv.writers ht hfew.2 hw
  have hpassed := (hinv.fence t ht).passed hinv.readers hfew.1 hr
  refine ⟨hfirst, fun u hu => ?_⟩
  by_contra hle
  have hlt : u.number < t.note := (hinv.order u hu t ht).mpr (Nat.not_lt.mp hle)
  have hmem := Visits.mem_before.mpr ⟨hu, hlt⟩
  rw [hpassed] at hmem
  simp at hmem

/-- When a reader finds the counter of the writers as it was, all writers before it have completed
their requests. -/
theorem Inv.admit_reader (hinv : Inv m) (hfew : Few i m pc) (ht : t ∈ m.readers.present)
    (heq : m.completion &&& wMask = turn t.note) : t.note = m.writers.left := by
  rw [hinv.completion, word_wMask] at heq
  have hmod : m.writers.left % 0x8000 = t.note % 0x8000 := by
    rw [← turn_mod, heq, turn_mod]
  obtain ⟨hle, hge⟩ := hinv.pending t ht
  have hcard := hinv.writers.card
  have hcount := hfew.2
  exact (Threads.eq_of_mod_eq hle (by omega) hmod).symm

/-! ## Who came first -/

/-- A writer that is let in took its ticket before all other outstanding writers. -/
theorem Writes.before_writer (hinv : Inv m) (hw : Writes m t) (ht : t ∈ m.writers.present)
    (hu : u ∈ m.writers.present) (hne : t ≠ u) : taken t < taken u := by
  have hle := hinv.inOrder u hu
  have hnumber : t.number ≠ u.number := fun heq => hne (hinv.writers.unique t ht u hu heq)
  have hlt : t.number < u.number := lt_of_le_of_ne (hw.first.symm ▸ hle) hnumber
  exact Nat.add_lt_add_of_lt_of_le hlt (hinv.mono t ht u hu hlt)

/-- A writer that is let in took its ticket before all outstanding readers. -/
theorem Writes.before_reader (hinv : Inv m) (hw : Writes m t) (ht : t ∈ m.writers.present)
    (hu : u ∈ m.readers.present) : taken t < taken u := by
  have hafter := hw.after u hu
  have hle : t.note ≤ u.number := by
    by_contra hlt
    exact Nat.not_lt.mpr ((hinv.order u hu t ht).mp (Nat.not_le.mp hlt)) hafter
  unfold taken
  omega

/-- A reader that is let in took its ticket before all outstanding writers. -/
theorem Inv.reader_before (hinv : Inv m) (ht : t ∈ m.readers.present)
    (hnote : t.note = m.writers.left) (hu : u ∈ m.writers.present) : taken t < taken u := by
  have hle : t.note ≤ u.number := hnote ▸ hinv.inOrder u hu
  have hlt := (hinv.order t ht u hu).mpr hle
  unfold taken
  omega

variable [DecidableEq ι]

/-! ## Tickets are taken -/

theorem Inv.readRequest (hinv : Inv m) : Inv (m.readRequest i) where
  request := by
    simp only [Mem.readRequest, Visits.arrive]
    rw [hinv.request, fca_readers]
  completion := hinv.completion
  readers := hinv.readers.arrive
  writers := hinv.writers
  inOrder := hinv.inOrder
  fence u hu := (hinv.fence u hu).arrive
  order t ht u hu := by
    rcases Visits.mem_arrive.mp ht with rfl | ht
    · have hle := (hinv.fence u hu).1
      have hlt := hinv.writers.lt u hu
      simp only
      omega
    · exact hinv.order t ht u hu
  mono := hinv.mono
  pending t ht := by
    rcases Visits.mem_arrive.mp ht with rfl | ht
    · have hcard := hinv.writers.card
      simp only [Mem.readRequest]
      omega
    · exact hinv.pending t ht

theorem Inv.writeRequest (hinv : Inv m) : Inv (m.writeRequest i) where
  request := by
    simp only [Mem.writeRequest, Visits.arrive]
    rw [hinv.request, fca_writers]
  completion := hinv.completion
  readers := hinv.readers
  writers := hinv.writers.arrive
  inOrder := hinv.inOrder.arrive hinv.writers
  fence u hu := by
    rcases Visits.mem_arrive.mp hu with rfl | hu
    · exact hinv.readers.fence
    · exact hinv.fence u hu
  order t ht u hu := by
    rcases Visits.mem_arrive.mp hu with rfl | hu
    · exact iff_of_true (hinv.readers.lt t ht) (hinv.pending t ht).2
    · exact hinv.order t ht u hu
  mono t ht u hu hlt := by
    rcases Visits.mem_arrive.mp ht with rfl | ht <;> rcases Visits.mem_arrive.mp hu with rfl | hu
    · exact le_refl _
    · have := hinv.writers.lt u hu
      simp only at hlt
      omega
    · exact (hinv.fence t ht).1
    · exact hinv.mono t ht u hu hlt
  pending t ht := by
    have hpending := hinv.pending t ht
    simp only [Mem.writeRequest, Visits.arrive]
    omega

theorem At.other_readRequest (hinv : Inv m) (h : At j m pc) : At j (m.readRequest i) pc := by
  refine h.frame (fun t ht => ⟨Visits.mem_arrive.mpr (.inr ht.1), ht.2⟩) (fun _ ht => ht)
    (fun _ _ heq => heq) fun t ht hw => ⟨hw.first, fun u hu => ?_⟩
  rcases Visits.mem_arrive.mp hu with rfl | hu
  · exact hinv.writers.lt t ht.1
  · exact hw.after u hu

theorem At.other_writeRequest (h : At j m pc) : At j (m.writeRequest i) pc :=
  h.frame (fun _ ht => ht) (fun _ ht => ⟨Visits.mem_arrive.mpr (.inr ht.1), ht.2⟩)
    (fun _ _ heq => heq) fun _ _ hw => ⟨hw.first, hw.after⟩

/-! ## Requests are completed -/

theorem Inv.readDone (hinv : Inv m) (ht : t ∈ m.readers.present)
    (hnote : t.note = m.writers.left) : Inv (m.readDone t) where
  request := hinv.request
  completion := by
    simp only [Mem.readDone, Visits.leave]
    rw [hinv.completion, fca_readers]
  readers := hinv.readers.leave ht
  writers := hinv.writers
  inOrder := hinv.inOrder
  fence u hu := by
    -- the reader came before all outstanding writers, as it waits for none of them
    have hlt : t.number < u.note := (hinv.order t ht u hu).mpr (hnote ▸ hinv.inOrder u hu)
    exact (hinv.fence u hu).leave ht hlt
  order u hu := hinv.order u (Visits.mem_leave.mp hu).2
  mono := hinv.mono
  pending u hu := hinv.pending u (Visits.mem_leave.mp hu).2

theorem Inv.writeDone (hinv : Inv m) (ht : t ∈ m.writers.present) (hw : Writes m t) :
    Inv (m.writeDone t) where
  request := hinv.request
  completion := by
    simp only [Mem.writeDone, Visits.leave]
    rw [hinv.completion, fca_writers]
  readers := hinv.readers
  writers := hinv.writers.leave ht
  inOrder := hinv.inOrder.leave hinv.writers ht hw.first
  fence u hu := hinv.fence u (Visits.mem_leave.mp hu).2
  order u hu v hv := hinv.order u hu v (Visits.mem_leave.mp hv).2
  mono u hu v hv := hinv.mono u (Visits.mem_leave.mp hu).2 v (Visits.mem_leave.mp hv).2
  pending u hu := by
    -- the outstanding readers came after the writer
    have hafter := hw.after u hu
    have hfirst := hw.first
    have hpending := (hinv.pending u hu).2
    simp only [Mem.writeDone, Visits.leave]
    omega

theorem At.other_readDone (hj : j ≠ i) (ht : t.owner = i) (h : At j m pc) :
    At j (m.readDone t) pc := by
  have hne : ∀ u : Visit ι Nat, u.owner = j → u ≠ t := by
    rintro u hu rfl
    exact hj (hu.symm.trans ht)
  exact h.frame (fun u hu => ⟨Visits.mem_leave.mpr ⟨hne u hu.2, hu.1⟩, hu.2⟩) (fun _ hu => hu)
    (fun _ _ heq => heq) fun _ _ hw => ⟨hw.first, fun u hu => hw.after u (Visits.mem_leave.mp hu).2⟩

theorem At.other_writeDone (hinv : Inv m) (hj : j ≠ i) (ht : Holds i m.writers t)
    (hw : Writes m t) (h : At j m pc) : At j (m.writeDone t) pc := by
  have hne : ∀ u : Visit ι Nat, u.owner = j → u ≠ t := by
    rintro u hu rfl
    exact hj (hu.symm.trans ht.2)
  refine h.frame (fun _ hu => hu) (fun u hu => ⟨Visits.mem_leave.mpr ⟨hne u hu.2, hu.1⟩, hu.2⟩)
    (fun u hu heq => ?_) fun u hu hw' => ?_
  · -- a reader that is let in has not come after the writer
    have hafter := hw.after u hu.1
    rw [hw.first, heq] at hafter
    exact absurd hafter (Nat.lt_irrefl _)
  · -- there is only one first writer
    have heq := hinv.writers.unique u hu.1 t ht.1 (hw'.first.trans hw.first.symm)
    exact absurd heq (hne u hu.2)

/-! ## Runs -/

theorem invariant : Threads.Invariant (Step (ι := ι)) Few Inv At where
  own := by
    intro i m pc m' pc' hstep hfew hinv h
    cases hstep with
    | writeLock | readLock => exact ⟨hinv, trivial⟩
    | writeUnlock t | readUnlock t => exact ⟨hinv, h⟩
    | act =>
      cases pc with
      | idle | reading | writing => exact ⟨hinv, h⟩
      | writeLoad | readLoad => exact ⟨hinv, trivial⟩
      | writeDoneLoad t | readDoneLoad t => exact ⟨hinv, h⟩
      | writeCas snapshot =>
        simp only [act]
        split
        case isTrue heq =>
          refine ⟨hinv.writeRequest, ⟨Visits.mem_arrive.mpr (.inl rfl), rfl⟩, ?_⟩
          exact heq.symm.trans hinv.request
        case isFalse => exact ⟨hinv, trivial⟩
      | readCas snapshot =>
        simp only [act]
        split
        case isTrue heq =>
          refine ⟨hinv.readRequest, ⟨Visits.mem_arrive.mpr (.inl rfl), rfl⟩, ?_⟩
          rw [← heq, hinv.request, word_wMask]
          rfl
        case isFalse => exact ⟨hinv, trivial⟩
      | writeWait t previous =>
        obtain ⟨hholds, hprevious⟩ := h
        simp only [act]
        split
        case isTrue => exact ⟨hinv, hholds, hprevious⟩
        case isFalse heq =>
          exact ⟨hinv, hholds,
            hinv.admit_writer hfew hholds.1 ((not_not.mp heq).trans hprevious)⟩
      | readWait t previous =>
        obtain ⟨hholds, hprevious⟩ := h
        simp only [act]
        split
        case isTrue => exact ⟨hinv, hholds, hprevious⟩
        case isFalse heq =>
          exact ⟨hinv, hholds,
            hinv.admit_reader hfew hholds.1 ((not_not.mp heq).trans hprevious)⟩
      | writeDoneCas t snapshot =>
        simp only [act]
        split
        case isTrue => exact ⟨hinv.writeDone h.1.1 h.2, trivial⟩
        case isFalse => exact ⟨hinv, h⟩
      | readDoneCas t snapshot =>
        simp only [act]
        split
        case isTrue => exact ⟨hinv.readDone h.1.1 h.2, trivial⟩
        case isFalse => exact ⟨hinv, h⟩
  other := by
    intro i m pc m' pc' hstep _ hinv h j other hj hother
    cases hstep with
    | writeLock | readLock | writeUnlock | readUnlock => exact hother
    | act =>
      cases pc with
      | idle | reading | writing | writeLoad | readLoad | writeDoneLoad | readDoneLoad
      | writeWait | readWait => exact hother
      | writeCas snapshot =>
        simp only [act]
        split
        case isTrue => exact hother.other_writeRequest
        case isFalse => exact hother
      | readCas snapshot =>
        simp only [act]
        split
        case isTrue => exact hother.other_readRequest hinv
        case isFalse => exact hother
      | writeDoneCas t snapshot =>
        simp only [act]
        split
        case isTrue => exact hother.other_writeDone hinv hj h.1 h.2
        case isFalse => exact hother
      | readDoneCas t snapshot =>
        simp only [act]
        split
        case isTrue => exact hother.other_readDone hj h.1.2
        case isFalse => exact hother

/-- A writer is in its section alone; and while a request is in its section, all conflicting
requests that have not been completed took their tickets after it. -/
theorem task_fair {s : Threads.System (Mem ι) (Pc ι) ι}
    (hr : Threads.System.Reachable Step Few (start ι) s) :
    (∀ i j t u, i ≠ j → s.pc i = .writing t → s.pc j ≠ .writing u ∧ s.pc j ≠ .reading u) ∧
      (∀ i j t u, i ≠ j → s.pc i = .writing t →
        (s.pc j).readTicket = some u ∨ (s.pc j).writeTicket = some u → taken t < taken u) ∧
      ∀ i j t u, s.pc i = .reading t → (s.pc j).writeTicket = some u → taken t < taken u := by
  have hfew : ∀ i, Few i (start ι).mem ((start ι).pc i) := by
    simp [Few, start, Visits.empty]
  obtain ⟨hinv, hall⟩ := invariant.reachable hr hfew inv_start fun _ => trivial
  have hat := fun i => (hall i).2
  have written : ∀ i j t u, i ≠ j → s.pc i = .writing t →
      (s.pc j).readTicket = some u ∨ (s.pc j).writeTicket = some u → taken t < taken u := by
    intro i j t u hij hi hu
    have hi' : At i s.mem (.writing t) := hi ▸ hat i
    obtain ⟨hholds, hw⟩ := hi'
    rcases hu with hu | hu
    · exact hw.before_reader hinv hholds.1 ((hat j).reader hu).1
    · have hother := (hat j).writer hu
      refine hw.before_writer hinv hholds.1 hother.1 fun heq => hij ?_
      rw [← hholds.2, heq, hother.2]
  have read : ∀ i j t u, s.pc i = .reading t → (s.pc j).writeTicket = some u →
      taken t < taken u := by
    intro i j t u hi hu
    have hi' : At i s.mem (.reading t) := hi ▸ hat i
    exact hinv.reader_before hi'.1.1 hi'.2 ((hat j).writer hu).1
  refine ⟨fun i j t u hij hi => ⟨fun hj => ?_, fun hj => ?_⟩, written, read⟩
  · have hlt := written i j t u hij hi (.inr (by rw [hj]; rfl))
    have hgt := written j i u t (Ne.symm hij) hj (.inr (by rw [hi]; rfl))
    exact Nat.lt_asymm hlt hgt
  · have hlt := written i j t u hij hi (.inl (by rw [hj]; rfl))
    have hgt := read j i u t hj (by rw [hi]; rfl)
    exact Nat.lt_asymm hlt hgt

/-- A run in which a thread makes `n` more accesses. -/
theorem acts_reachable {s₀ s : Threads.System (Mem ι) (Pc ι) ι}
    (hr : Threads.System.Reachable Step Few s₀ s) (i : ι) (n : Nat)
    (good : ∀ k < n + 1, ∀ j, Few j (s.acts act i k).mem ((s.acts act i k).pc j)) :
    Threads.System.Reachable Step Few s₀ (s.acts act i n) :=
  hr.acts i n (fun _ _ _ _ _ _ => .inr .act) good

/-- A writer waits for a reader that came before it. -/
theorem task_fair_waiting : ∃ s : Threads.System (Mem Bool) (Pc Bool) Bool,
    s.pc true = .reading ⟨true, 0, 0⟩ ∧ s.pc false = .writeWait ⟨false, 0, 1⟩ 0x10000 ∧
      (∀ i j t u, i ≠ j → s.pc i = .writing t → s.pc j ≠ .writing u ∧ s.pc j ≠ .reading u) ∧
      (∀ i j t u, i ≠ j → s.pc i = .writing t →
        (s.pc j).readTicket = some u ∨ (s.pc j).writeTicket = some u → taken t < taken u) ∧
      ∀ i j t u, s.pc i = .reading t → (s.pc j).writeTicket = some u → taken t < taken u := by
  have h₀ : Threads.System.Reachable Step Few (start Bool) (start Bool) := .refl
  have h₁ := h₀.call true .readLock (by decide +kernel)
  have h₂ := acts_reachable h₁ true 3 (by decide +kernel)
  have h₃ := h₂.call false .writeLock (by decide +kernel)
  have h₄ := acts_reachable h₃ false 3 (by decide +kernel)
  exact ⟨_, by decide +kernel, by decide +kernel, task_fair h₄⟩

end ConcurrencyKit.Tflock
