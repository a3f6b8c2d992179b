import ConcurrencyKit.Rwlock.Model

/-!
# The handshake of `ck_rwlock`

A writer stores to `writer` and then waits until nobody is counted. A reader counts itself and then
looks whether there is a writer. Of two that do so at once, one sees the other.

What a thread has done of this is its `Role`. The functions of the two locks are the steps of roles
(`Role.Step`), so that what is shown here holds of both.
-/

namespace ConcurrencyKit.Rwlock

/-- What a thread has done of the handshake. -/
structure Role where
  reads : Nat := 0
  /-- It is counted, and does not know yet whether it is let in. -/
  knocking : Bool := false
  /-- It has stored to `writer`. -/
  owns : Bool := false
  /-- It has seen since then that nobody is counted. -/
  writes : Bool := false
  depth : Nat := 0
  /-- The value of `wc` while it owns the lock. -/
  wc : Nat := 0

namespace Role

variable {ι : Type} [DecidableEq ι]

/-- One step of thread `i`, which stores its number or one to `writer`. -/
inductive Step (value : ι → Nat) (i : ι) : Mem ι → Role → Mem ι → Role → Prop
  | stay {m : Mem ι} {r : Role} : Step value i m r m r
  | own {m : Mem ι} {r : Role} (hfree : m.writer = 0) :
    Step value i m r (m.own i (value i)) { r with
        owns := true
        writes := false }
  /-- It finds that nobody is counted, and may be done with that. -/
  | write {m : Mem ι} {r : Role} (howns : r.owns = true) (hzero : m.nReaders = 0) (n : Nat) :
    Step value i m r m { r with
        writes := true
        depth := r.depth + n }
  | disown {m : Mem ι} {r : Role} (howns : r.owns = true) (hwc : r.wc = 0) :
    Step value i m r m.disown
      { r with
        owns := false
        writes := false
        depth := 0 }
  | incWc {m : Mem ι} {r : Role} (hwrites : r.writes = true) (hlt : r.wc + 1 < 2 ^ 32) :
    Step value i m r m.incWc
      { r with
        depth := r.depth + 1
        wc := r.wc + 1 }
  | decWc {m : Mem ι} {r : Role} (hwrites : r.writes = true) (hwc : 0 < r.wc) :
    Step value i m r m.decWc
      { r with
        depth := r.depth - 1
        wc := r.wc - 1
        writes := 0 < r.depth - 1 }
  | inc {m : Mem ι} {r : Role} (hknocking : r.knocking = false) :
    Step value i m r (m.inc i) { r with knocking := true }
  | enter {m : Mem ι} {r : Role} (hknocking : r.knocking = true) (hfree : m.writer = 0) :
    Step value i m r (m.enter i)
      { r with
        knocking := false
        reads := r.reads + 1 }
  | dec {m : Mem ι} {r : Role} (hknocking : r.knocking = true) :
    Step value i m r (m.dec i) { r with knocking := false }
  | leave {m : Mem ι} {r : Role} (hreads : 0 < r.reads) :
    Step value i m r (m.leave i) { r with reads := r.reads - 1 }
  | downgrade {m : Mem ι} {r : Role} (hknocking : r.knocking = true) (howns : r.owns = true)
    (hwc : r.wc = 0) :
    Step value i m r (m.disown.enter i)
      { r with
        owns := false
        writes := false
        depth := 0
        knocking := false
        reads := r.reads + 1 }

end Role

/-! ## The invariant -/

variable {ι : Type} {value : ι → Nat} {few : Bool} {i j : ι} {m m' : Mem ι} {r r' : Role}

/-- What the words say about the threads. -/
structure Inv (value : ι → Nat) (m : Mem ι) : Prop where
  writer : m.writer = (m.owner.map value).getD 0
  nReaders : m.nReaders = m.counted.card % 2 ^ 32
  inside : m.inside ≤ m.counted
  wc : m.owner = none → m.wc = 0

/-- What is known about a thread from its role. That no reader is inside next to a writer is only
known while there are `few` readers. -/
structure At (few : Bool) (i : ι) (m : Mem ι) (r : Role) [DecidableEq ι] : Prop where
  owner : m.owner = some i ↔ r.owns = true
  counted : m.counted.count i = r.reads + r.knocking.toNat
  inside : m.inside.count i = r.reads
  owns : r.writes = true → r.owns = true
  excludes : few = true → r.writes = true → m.inside = 0
  depth : 0 < r.depth → r.writes = true
  wc : r.owns = true → m.wc = r.wc
  idle : r.owns = false → r.wc = 0

/-- Fewer readers are counted than the word has values. -/
def Few {P : Type} (few : Bool) (_ : ι) (m : Mem ι) (_ : P) : Prop :=
  few = true → m.counted.card < 2 ^ 32

theorem Inv.counted_eq_zero (hinv : Inv value m) (hcard : m.counted.card < 2 ^ 32)
    (hzero : m.nReaders = 0) : m.counted = 0 := by
  have hmod := hinv.nReaders
  rw [hzero, Nat.mod_eq_of_lt hcard] at hmod
  exact Multiset.card_eq_zero.mp hmod.symm

/-- The writer stores a number that is not zero. -/
theorem Inv.owner_eq_none (hinv : Inv value m) (hvalue : ∀ i, value i ≠ 0) (hfree : m.writer = 0) :
    m.owner = none := by
  cases howner : m.owner with
  | none => rfl
  | some j =>
    have hwriter := hinv.writer
    rw [howner, hfree] at hwriter
    exact absurd hwriter.symm (hvalue j)

/-- To store one to `writer` when it is one changes nothing. -/
theorem Inv.writer_one (hinv : Inv (fun _ => 1) m) (hne : m.writer ≠ 0) :
    { m with writer := 1 } = m := by
  have hone : m.writer = 1 := by
    have hwriter := hinv.writer
    cases howner : m.owner with
    | none =>
      rw [howner] at hwriter
      exact absurd hwriter hne
    | some i => rwa [howner] at hwriter
  rw [← hone]

/-! ## What one step does -/

variable [DecidableEq ι]

/-- Only the owner writes, and while there are few readers it is alone. -/
theorem At.alone (hat : At few i m r) (hwrites : r.writes = true) : m.owner = some i :=
  hat.owner.mpr (hat.owns hwrites)

theorem At.mem_counted (hat : At few i m r) (hcounted : 0 < r.reads + r.knocking.toNat) :
    i ∈ m.counted := by
  rw [← Multiset.count_pos, hat.counted]
  exact hcounted

/-- A thread that has not found yet that nobody is counted has not locked the lock. -/
theorem At.depth_eq_zero (hat : At few i m r)
    (hwrites : r.writes = false) : r.depth = 0 := by
  rcases Nat.eq_zero_or_pos r.depth with hzero | hpos
  · exact hzero
  · have := hat.depth hpos
    simp [hwrites] at this

/-- One that is counted less is a turn of the word less. -/
theorem Inv.dec (hinv : Inv value m) (hmem : i ∈ m.counted) :
    (m.dec i).nReaders = (m.dec i).counted.card % 2 ^ 32 := by
  have hcard := Multiset.card_erase_add_one hmem
  have hcounts := hinv.nReaders
  rw [← hcard] at hcounts
  simp only [Mem.dec, hcounts, Counter.dec_mod]

/-- A thread that is counted may be let in. -/
theorem At.enter (hat : At few i m r) (hinv : Inv value m) (hknocking : r.knocking = true) :
    i ::ₘ m.inside ≤ m.counted := by
  rw [Multiset.le_iff_count]
  intro j
  have hle := Multiset.le_iff_count.mp hinv.inside j
  by_cases hj : j = i
  · subst hj
    simp [hat.inside, hat.counted, hknocking]
  · rwa [Multiset.count_cons_of_ne hj]

theorem Role.Step.inv (h : Role.Step value i m r m' r') (hinv : Inv value m)
    (hat : At few i m r) : Inv value m' := by
  cases h with
  | stay | write => exact hinv
  | own hfree =>
    refine ⟨rfl, hinv.nReaders, hinv.inside, fun hnone => ?_⟩
    cases hnone
  | disown howns hwc =>
    refine ⟨rfl, hinv.nReaders, hinv.inside, fun _ => ?_⟩
    exact (hat.wc howns).trans hwc
  | incWc hwrites | decWc hwrites =>
    refine ⟨hinv.writer, hinv.nReaders, hinv.inside, fun hnone => ?_⟩
    have howner : m.owner = some i := hat.alone hwrites
    exact absurd (howner.symm.trans hnone) (by simp)
  | inc =>
    refine ⟨hinv.writer, ?_, hinv.inside.trans (Multiset.le_cons_self _ _), hinv.wc⟩
    simp only [Mem.inc, hinv.nReaders, Counter.inc_mod, Multiset.card_cons]
  | enter hknocking => exact ⟨hinv.writer, hinv.nReaders, hat.enter hinv hknocking, hinv.wc⟩
  | dec hknocking =>
    have hmem : i ∈ m.counted := hat.mem_counted (by simp [hknocking])
    refine ⟨hinv.writer, hinv.dec hmem, ?_, hinv.wc⟩
    rw [Multiset.le_iff_count]
    intro j
    have hle := Multiset.le_iff_count.mp hinv.inside j
    by_cases hj : j = i
    · subst hj
      simp [Mem.dec, hat.inside, hat.counted, hknocking]
    · simpa [Mem.dec, Multiset.count_erase_of_ne hj] using hle
  | leave hreads =>
    have hmem : i ∈ m.counted := hat.mem_counted (by omega)
    exact ⟨hinv.writer, hinv.dec hmem, Multiset.erase_le_erase i hinv.inside, hinv.wc⟩
  | downgrade hknocking howns hwc =>
    exact ⟨rfl, hinv.nReaders, hat.enter hinv hknocking, fun _ => (hat.wc howns).trans hwc⟩

theorem Role.Step.self (h : Role.Step value i m r m' r') (hvalue : ∀ i, value i ≠ 0)
    (hfew : Few few i m r) (hinv : Inv value m) (hat : At few i m r) : At few i m' r' := by
  cases h with
  | stay => exact hat
  | own hfree =>
    have hnone := hinv.owner_eq_none hvalue hfree
    have howns : r.owns = false := by
      by_contra htrue
      have howner := hat.owner.mpr (by simpa using htrue)
      rw [hnone] at howner
      cases howner
    have hdepth : ¬ 0 < r.depth := by
      intro hpos
      have := hat.owns (hat.depth hpos)
      simp [howns] at this
    have hwc : m.wc = r.wc := by rw [hinv.wc hnone, hat.idle howns]
    exact ⟨by simp [Mem.own], hat.counted, hat.inside, Bool.false_ne_true.elim,
      fun _ => Bool.false_ne_true.elim, fun hpos => absurd hpos hdepth, fun _ => hwc,
      Bool.false_ne_true.symm.elim⟩
  | write howns hzero =>
    have hnobody : few = true → m.inside = 0 := by
      intro h
      have hle := hinv.inside
      rw [hinv.counted_eq_zero (hfew h) hzero] at hle
      exact Multiset.le_zero.mp hle
    exact ⟨hat.owner, hat.counted, hat.inside, fun _ => howns, fun h _ => hnobody h,
      fun _ => rfl, hat.wc, hat.idle⟩
  | disown howns hwc =>
    exact ⟨by simp [Mem.disown], hat.counted, hat.inside, Bool.false_ne_true.elim,
      fun _ => Bool.false_ne_true.elim, fun hpos => absurd hpos (Nat.lt_irrefl 0),
      Bool.false_ne_true.elim, fun _ => hwc⟩
  | incWc hwrites hlt =>
    have howns := hat.owns hwrites
    have hwc : Counter.inc (2 ^ 32) m.wc = r.wc + 1 := by
      rw [hat.wc howns, Counter.inc, Nat.mod_eq_of_lt hlt]
    exact ⟨hat.owner, hat.counted, hat.inside, hat.owns, hat.excludes, fun _ => hwrites,
      fun _ => hwc, fun hf => by simp [howns] at hf⟩
  | decWc hwrites hpos =>
    have howns := hat.owns hwrites
    have hwc : Counter.dec (2 ^ 32) m.wc = r.wc - 1 := by
      rw [hat.wc howns, Counter.dec, if_neg (by omega)]
    exact ⟨hat.owner, hat.counted, hat.inside, fun _ => howns, fun h _ => hat.excludes h hwrites,
      fun hd => by simpa using hd, fun _ => hwc, fun hf => by simp [howns] at hf⟩
  | inc hknocking =>
    refine ⟨hat.owner, ?_, hat.inside, hat.owns, hat.excludes, hat.depth, hat.wc, hat.idle⟩
    simp [Mem.inc, hat.counted, hknocking]
  | enter hknocking hfree =>
    have hnone := hinv.owner_eq_none hvalue hfree
    refine ⟨hat.owner, ?_, ?_, hat.owns, fun _ hw => ?_, hat.depth, hat.wc, hat.idle⟩
    · simp [Mem.enter, hat.counted, hknocking]
    · simp [Mem.enter, hat.inside]
    · have howner := hat.alone hw
      rw [hnone] at howner
      cases howner
  | dec hknocking =>
    refine ⟨hat.owner, ?_, hat.inside, hat.owns, hat.excludes, hat.depth, hat.wc, hat.idle⟩
    simp [Mem.dec, hat.counted, hknocking]
  | leave hreads =>
    refine ⟨hat.owner, ?_, ?_, hat.owns, fun h hw => ?_, hat.depth, hat.wc, hat.idle⟩
    · simp only [Mem.leave, Mem.dec, Multiset.count_erase_self, hat.counted]
      omega
    · simp [Mem.leave, Mem.dec, hat.inside]
    · simp [Mem.leave, Mem.dec, hat.excludes h hw]
  | downgrade hknocking howns hwc =>
    refine ⟨by simp [Mem.disown, Mem.enter], ?_, ?_, Bool.false_ne_true.elim,
      fun _ => Bool.false_ne_true.elim, fun hpos => absurd hpos (Nat.lt_irrefl 0),
      Bool.false_ne_true.elim, fun _ => hwc⟩
    · simp [Mem.disown, Mem.enter, hat.counted, hknocking]
    · simp [Mem.disown, Mem.enter, hat.inside]

/-! ## What the others notice of it -/

/-- What another thread has to see for its own role not to be affected. -/
theorem At.frame {q : Role} (hat : At few j m q) (howner : m'.owner = some j ↔ m.owner = some j)
    (hcounted : m'.counted.count j = m.counted.count j)
    (hinside : m'.inside.count j = m.inside.count j)
    (hexcludes : m.owner = some j → m.inside = 0 → m'.inside = 0)
    (hwc : m.owner = some j → m'.wc = m.wc) : At few j m' q where
  owner := howner.trans hat.owner
  counted := hcounted.trans hat.counted
  inside := hinside.trans hat.inside
  owns := hat.owns
  excludes h hw := hexcludes (hat.alone hw) (hat.excludes h hw)
  depth := hat.depth
  wc h := (hwc (hat.owner.mpr h)).trans (hat.wc h)
  idle := hat.idle

theorem Role.Step.other {q : Role} (h : Role.Step value i m r m' r') (hvalue : ∀ i, value i ≠ 0)
    (hinv : Inv value m) (hat : At few i m r) (hj : j ≠ i) (hq : At few j m q) :
    At few j m' q := by
  have hne : i ≠ j := fun h => hj h.symm
  cases h with
  | stay | write => exact hq
  | own hfree =>
    have hnone := hinv.owner_eq_none hvalue hfree
    exact hq.frame (by simp [Mem.own, hnone, hne]) rfl rfl (fun _ h => h) fun _ => rfl
  | disown howns =>
    have howner := hat.owner.mpr howns
    exact hq.frame (by simp [Mem.disown, howner, hne]) rfl rfl (fun _ h => h) fun _ => rfl
  | incWc hwrites | decWc hwrites =>
    have howner := hat.alone hwrites
    exact hq.frame .rfl rfl rfl (fun _ h => h) fun h => by simp [howner, hne] at h
  | inc => exact hq.frame .rfl (Multiset.count_cons_of_ne hj _) rfl (fun _ h => h) fun _ => rfl
  | enter hknocking hfree =>
    have hnone := hinv.owner_eq_none hvalue hfree
    exact hq.frame .rfl rfl (Multiset.count_cons_of_ne hj _) (fun h => by simp [hnone] at h)
      fun _ => rfl
  | dec =>
    exact hq.frame .rfl (Multiset.count_erase_of_ne hj _) rfl (fun _ h => h) fun _ => rfl
  | leave =>
    exact hq.frame .rfl (Multiset.count_erase_of_ne hj _) (Multiset.count_erase_of_ne hj _)
      (fun _ h => by simp [Mem.leave, Mem.dec, h]) fun _ => rfl
  | downgrade hknocking howns =>
    have howner := hat.owner.mpr howns
    exact hq.frame (by simp [Mem.disown, Mem.enter, howner, hne]) rfl
      (Multiset.count_cons_of_ne hj _) (fun h => by simp [howner, hne] at h) fun _ => rfl

end ConcurrencyKit.Rwlock
