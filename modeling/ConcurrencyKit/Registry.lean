import ConcurrencyKit.Misc.Threads
import Mathlib.Data.List.Nodup

/-!
# The records of `ck_hp` and `ck_epoch`

A thread gets a record by `ck_hp_register` or `ck_epoch_register`, which puts a new one on a list,
or by `ck_hp_recycle` or `ck_epoch_recycle`, which looks in the list for one that another thread
has given back by `ck_hp_unregister` or `ck_epoch_unregister` (`src/ck_hp.c:93-151`,
`src/ck_epoch.c:239-317`). The functions of the two files do the same, one access at a time, apart
from the fields of a record that no other thread looks at, and from the word `n_subscribers` of
`ck_hp`.

Next to the words a `Mem` keeps the records that each thread has got and not given back, and the
threads that have changed the state of a record and not yet the word `n_free`.
-/

namespace ConcurrencyKit.Registry

/-- `CK_HP_USED` and `CK_EPOCH_STATE_USED`, `CK_HP_FREE` and `CK_EPOCH_STATE_FREE`. -/
inductive State where
  | used
  | free
  deriving DecidableEq, Repr

/-- The list `subscribers` or `records`, its records, and the history of their use. -/
structure Mem (ι R : Type) where
  /-- The list, which grows at its head. -/
  records : List R
  state : R → State
  nFree : BitVec 32
  nSubscribers : BitVec 32
  /-- The records that a thread has got. -/
  mine : ι → Finset R
  /-- The threads that are about to decrement `n_free`, and those that are about to increment it. -/
  taking : Finset ι
  giving : Finset ι

/-- Where a thread stands. -/
inductive Pc (R : Type) where
  | idle
  /-- `ck_hp_register` and `ck_epoch_register`. -/
  | registerHead (r : R)
  | registerCas (r : R) (stack : List R)
  | registerInc
  /-- `ck_hp_recycle` and `ck_epoch_recycle`. -/
  | recycleFree
  | recycleHead
  | recycleState (rest : List R)
  | recycleFas (r : R) (rest : List R)
  | recycleDec (r : R)
  | recycled (r : Option R)
  /-- `ck_hp_unregister` and `ck_epoch_unregister`. -/
  | unregisterStore (r : R)
  | unregisterInc

variable {ι R : Type}

/-- The thread is between two calls. -/
def Pc.Resting : Pc R → Prop
  | .idle | .recycled _ => True
  | _ => False

section Steps

variable [DecidableEq ι] [DecidableEq R]

namespace Mem

omit [DecidableEq ι] in
/-- A compare-and-swap of the head, which puts the record on the list that has been loaded. -/
def push (r : R) (stack : List R) (m : Mem ι R) : Mem ι R := { m with records := r :: stack }

/-- Thread `i` has a record that is new or has been free. -/
def take (i : ι) (r : R) (m : Mem ι R) : Mem ι R :=
  { m with
    state := Function.update m.state r .used
    mine := Function.update m.mine i (insert r (m.mine i)) }

/-- `ck_pr_fas_uint(&record->state, CK_EPOCH_STATE_USED)` of a record that is free. -/
def fas (i : ι) (r : R) (m : Mem ι R) : Mem ι R :=
  { m.take i r with taking := insert i m.taking }

/-- `ck_pr_dec_uint(&global->n_free)`. -/
def dec (i : ι) (m : Mem ι R) : Mem ι R :=
  { m with nFree := m.nFree - 1, taking := m.taking.erase i }

/-- `ck_pr_store_uint(&record->state, CK_EPOCH_STATE_FREE)`. -/
def free (i : ι) (r : R) (m : Mem ι R) : Mem ι R :=
  { m with
    state := Function.update m.state r .free
    mine := Function.update m.mine i ((m.mine i).erase r)
    giving := insert i m.giving }

/-- `ck_pr_inc_uint(&global->n_free)`. -/
def inc (i : ι) (m : Mem ι R) : Mem ι R :=
  { m with nFree := m.nFree + 1, giving := m.giving.erase i }

omit [DecidableEq ι] [DecidableEq R] in
/-- `ck_pr_inc_uint(&state->n_subscribers)`, which is in `ck_hp_register` only. -/
def subscribe (m : Mem ι R) : Mem ι R := { m with nSubscribers := m.nSubscribers + 1 }

end Mem

/-- The next record that `recycle` looks at. -/
def visit (rest : List R) : Pc R := if rest = [] then .recycled none else .recycleState rest

/-- One access of thread `i`. With `hp` it is one of `ck_hp`, and one of `ck_epoch` otherwise. -/
def act (hp : Bool) (i : ι) (m : Mem ι R) : Pc R → Mem ι R × Pc R
  | .registerHead r => (m, .registerCas r m.records)
  | .registerCas r stack =>
    if m.records.head? = stack.head? then
      (m.push r stack, if hp then .registerInc else .idle)
    else (m, .registerCas r m.records)
  | .registerInc => (m.subscribe, .idle)
  | .recycleFree => (m, if m.nFree = 0 then .recycled none else .recycleHead)
  | .recycleHead => (m, visit m.records)
  | .recycleState (r :: rest) =>
    (m, if m.state r = .free then .recycleFas r rest else visit rest)
  | .recycleFas r rest =>
    if m.state r = .free then (m.fas i r, .recycleDec r) else (m, visit rest)
  | .recycleDec r => (m.dec i, .recycled (some r))
  | .unregisterStore r => (m.free i r, .unregisterInc)
  | .unregisterInc => (m.inc i, .idle)
  | pc => (m, pc)

/-- One step of thread `i`: it calls a function, with a new record where it registers one and with
one that it has got where it gives it back, or makes the next access of its call. -/
inductive Step (hp : Bool) (i : ι) : Mem ι R → Pc R → Mem ι R → Pc R → Prop
  | register {m : Mem ι R} {pc : Pc R} (r : R) (resting : pc.Resting) (new : r ∉ m.records)
      (nobody : ∀ j, r ∉ m.mine j) : Step hp i m pc (m.take i r) (.registerHead r)
  | recycle {m : Mem ι R} {pc : Pc R} (resting : pc.Resting) : Step hp i m pc m .recycleFree
  | unregister {m : Mem ι R} {pc : Pc R} (r : R) (resting : pc.Resting) (has : r ∈ m.mine i) :
      Step hp i m pc m (.unregisterStore r)
  | act {m : Mem ι R} {pc : Pc R} : Step hp i m pc (act hp i m pc).1 (act hp i m pc).2

/-- `ck_hp_init` and `ck_epoch_init`, with all threads idle. -/
def start (ι R : Type) : Threads.System (Mem ι R) (Pc R) ι where
  mem :=
    { records := []
      state _ := .used
      nFree := 0
      nSubscribers := 0
      mine _ := ∅
      taking := ∅
      giving := ∅ }
  pc _ := .idle

/-- States that are reached by the threads of `ι`. -/
def Reachable (hp : Bool) (s : Threads.System (Mem ι R) (Pc R) ι) : Prop :=
  Threads.System.Reachable (Step hp) (fun _ _ _ => True) (start ι R) s

end Steps

/-! ## The invariant -/

section Invariant

variable [DecidableEq R] {i j : ι} {m m' : Mem ι R} {pc pc' : Pc R} {r : R} {stack rest : List R}

/-- The records that are free. -/
def Mem.freeRecords (m : Mem ι R) : Finset R := m.records.toFinset.filter fun r => m.state r = .free

/-- A record that is used belongs to one thread, and one that is free to nobody. The word counts the
records that are free, apart from the changes that are still to come. -/
structure Inv (m : Mem ι R) : Prop where
  nodup : m.records.Nodup
  unique : ∀ i j r, r ∈ m.mine i → r ∈ m.mine j → i = j
  used : ∀ i r, r ∈ m.mine i → m.state r = .used
  owned : ∀ r ∈ m.records, m.state r = .used → ∃ i, r ∈ m.mine i
  count : m.nFree + BitVec.ofNat 32 m.giving.card =
    BitVec.ofNat 32 (m.freeRecords.card + m.taking.card)

/-- What a thread knows about the list. -/
def Knows (i : ι) (m : Mem ι R) : Pc R → Prop
  | .registerHead r => r ∈ m.mine i ∧ r ∉ m.records
  | .registerCas r stack => (r ∈ m.mine i ∧ r ∉ m.records) ∧ stack <:+ m.records
  | .recycleState rest => rest <:+ m.records
  | .recycleFas r rest => r :: rest <:+ m.records
  | .recycleDec r | .recycled (some r) => r ∈ m.mine i
  | .unregisterStore r => r ∈ m.mine i ∧ r ∈ m.records
  | _ => True

/-- The record that a thread is about to put on the list. -/
def Pc.registering : Pc R → Option R
  | .registerHead r | .registerCas r _ => some r
  | _ => none

/-- The thread is about to decrement `n_free`. -/
def Pc.takes : Pc R → Bool
  | .recycleDec _ => true
  | _ => false

/-- The thread is about to increment it. -/
def Pc.gives : Pc R → Bool
  | .unregisterInc => true
  | _ => false

/-- What is known about thread `i` from where it stands. -/
structure At (i : ι) (m : Mem ι R) (pc : Pc R) : Prop where
  knows : Knows i m pc
  listed : ∀ r ∈ m.mine i, pc.registering ≠ some r → r ∈ m.records
  taking : i ∈ m.taking ↔ pc.takes = true
  giving : i ∈ m.giving ↔ pc.gives = true

/-- What a step of thread `i` does for the other ones. -/
structure Frame (i : ι) (m m' : Mem ι R) : Prop where
  suffix : m.records <:+ m'.records
  added : ∀ r ∈ m'.records, r ∈ m.records ∨ r ∈ m.mine i
  mine : ∀ j, j ≠ i → m'.mine j = m.mine j
  taking : ∀ j, j ≠ i → (j ∈ m'.taking ↔ j ∈ m.taking)
  giving : ∀ j, j ≠ i → (j ∈ m'.giving ↔ j ∈ m.giving)

omit [DecidableEq R] in
theorem Knows.frame (h : Knows j m pc) (hunique : ∀ i j r, r ∈ m.mine i → r ∈ m.mine j → i = j)
    (hf : Frame i m m') (hj : j ≠ i) : Knows j m' pc := by
  have hnew : ∀ r, r ∈ m.mine j ∧ r ∉ m.records → r ∈ m'.mine j ∧ r ∉ m'.records := by
    rintro r ⟨hmine, hnot⟩
    refine ⟨hf.mine j hj ▸ hmine, fun hmem => ?_⟩
    rcases hf.added r hmem with hmem | hmem
    · exact hnot hmem
    · exact hj (hunique j i r hmine hmem)
  cases pc with
  | registerHead => exact hnew _ h
  | registerCas => exact ⟨hnew _ h.1, h.2.trans hf.suffix⟩
  | recycleState | recycleFas => exact List.IsSuffix.trans h hf.suffix
  | recycleDec r => exact (congrArg (r ∈ ·) (hf.mine j hj)).mpr h
  | recycled r =>
    cases r with
    | none => exact trivial
    | some r => exact (congrArg (r ∈ ·) (hf.mine j hj)).mpr h
  | unregisterStore => exact ⟨hf.mine j hj ▸ h.1, hf.suffix.subset h.2⟩
  | idle | registerInc | recycleFree | recycleHead | unregisterInc => exact trivial

theorem At.frame (h : At j m pc) (hinv : Inv m) (hf : Frame i m m') (hj : j ≠ i) :
    At j m' pc where
  knows := h.knows.frame hinv.unique hf hj
  listed r hmem hne := by
    rw [hf.mine j hj] at hmem
    exact hf.suffix.subset (h.listed r hmem hne)
  taking := (hf.taking j hj).trans h.taking
  giving := (hf.giving j hj).trans h.giving

omit [DecidableEq R] in
theorem Frame.refl (i : ι) (m : Mem ι R) : Frame i m m :=
  ⟨List.suffix_rfl, fun _ h => .inl h, fun _ _ => rfl, fun _ _ => Iff.rfl, fun _ _ => Iff.rfl⟩

theorem mem_freeRecords : r ∈ m.freeRecords ↔ r ∈ m.records ∧ m.state r = .free := by
  rw [Mem.freeRecords, Finset.mem_filter, List.mem_toFinset]

omit [DecidableEq R] in
/-- A thread that makes a step without a store. -/
theorem At.stay (h : At i m pc) (hknows : Knows i m pc')
    (hregistering : pc'.registering = pc.registering) (htakes : pc'.takes = pc.takes)
    (hgives : pc'.gives = pc.gives) : At i m pc' where
  knows := hknows
  listed r hmem hne := h.listed r hmem (hregistering ▸ hne)
  taking := htakes ▸ h.taking
  giving := hgives ▸ h.giving

/-! ## What the steps do -/

section Changes

variable [DecidableEq ι]

theorem mem_take {r' : R} : r' ∈ (m.take i r).mine j ↔ r' ∈ m.mine j ∨ j = i ∧ r' = r := by
  by_cases hj : j = i
  · subst hj
    simp [Mem.take, or_comm]
  · simp [Mem.take, hj]

/-- A record that belongs to nobody is given to a thread. -/
theorem Inv.take_fields (hinv : Inv m) (hnobody : ∀ j, r ∉ m.mine j) :
    (∀ i' j' r', r' ∈ (m.take i r).mine i' → r' ∈ (m.take i r).mine j' → i' = j') ∧
      (∀ i' r', r' ∈ (m.take i r).mine i' → (m.take i r).state r' = .used) ∧
      ∀ r' ∈ m.records, (m.take i r).state r' = .used → ∃ i', r' ∈ (m.take i r).mine i' := by
  refine ⟨fun i' j' r' hi hj => ?_, fun i' r' hmem => ?_, fun r' hmem hused => ?_⟩
  · rcases mem_take.mp hi with hmi | ⟨hii, hri⟩ <;> rcases mem_take.mp hj with hmj | ⟨hij, hrj⟩
    · exact hinv.unique i' j' r' hmi hmj
    · exact absurd (hrj ▸ hmi) (hnobody i')
    · exact absurd (hri ▸ hmj) (hnobody j')
    · exact hii.trans hij.symm
  · by_cases hr : r' = r
    · subst hr
      exact Function.update_self ..
    · rcases mem_take.mp hmem with hmem | ⟨-, heq⟩
      · exact (Function.update_of_ne hr _ _).trans (hinv.used i' r' hmem)
      · exact absurd heq hr
  · by_cases hr : r' = r
    · exact ⟨i, mem_take.mpr (.inr ⟨rfl, hr⟩)⟩
    · obtain ⟨i', hi'⟩ := hinv.owned r' hmem ((Function.update_of_ne hr _ _).symm.trans hused)
      exact ⟨i', mem_take.mpr (.inl hi')⟩

/-- A new record is used before it is on the list. -/
theorem Inv.take (hinv : Inv m) (hnew : r ∉ m.records) (hnobody : ∀ j, r ∉ m.mine j) :
    Inv (m.take i r) := by
  obtain ⟨hunique, hused, howned⟩ := hinv.take_fields (i := i) hnobody
  have hfree : (m.take i r).freeRecords = m.freeRecords := by
    ext r'
    rw [mem_freeRecords, mem_freeRecords]
    refine and_congr_right fun hmem => ?_
    have hr : r' ≠ r := by
      rintro rfl
      exact hnew hmem
    simp [Mem.take, hr]
  refine ⟨hinv.nodup, hunique, hused, howned, ?_⟩
  rw [hfree]
  exact hinv.count

theorem frame_take (i : ι) (r : R) (m : Mem ι R) : Frame i m (m.take i r) where
  suffix := List.suffix_rfl
  added _ h := .inl h
  mine _ hj := Function.update_of_ne hj _ _
  taking _ _ := Iff.rfl
  giving _ _ := Iff.rfl

/-- A record that is free is taken from the list. -/
theorem Inv.fas (hinv : Inv m) (hmem : r ∈ m.records) (hfree : m.state r = .free)
    (hi : i ∉ m.taking) : Inv (m.fas i r) := by
  have hnobody : ∀ j, r ∉ m.mine j := fun j hj => by
    cases hfree.symm.trans (hinv.used j r hj)
  obtain ⟨hunique, hused, howned⟩ := hinv.take_fields (i := i) hnobody
  have hrecords : (m.fas i r).freeRecords = m.freeRecords.erase r := by
    ext r'
    rw [Finset.mem_erase, mem_freeRecords, mem_freeRecords]
    by_cases hr : r' = r
    · subst hr
      simp [Mem.fas, Mem.take]
    · simp [Mem.fas, Mem.take, hr]
  have hcard : (m.fas i r).freeRecords.card + 1 = m.freeRecords.card := by
    rw [hrecords]
    exact Finset.card_erase_add_one (mem_freeRecords.mpr ⟨hmem, hfree⟩)
  have htaking : (m.fas i r).taking.card = m.taking.card + 1 := Finset.card_insert_of_notMem hi
  refine ⟨hinv.nodup, hunique, hused, howned, ?_⟩
  rw [htaking, ← Nat.add_assoc, Nat.add_right_comm, hcard]
  exact hinv.count

theorem frame_fas (i : ι) (r : R) (m : Mem ι R) : Frame i m (m.fas i r) where
  suffix := List.suffix_rfl
  added _ h := .inl h
  mine _ hj := Function.update_of_ne hj _ _
  taking _ hj := Finset.mem_insert.trans (or_iff_right hj)
  giving _ _ := Iff.rfl

omit [DecidableEq ι] in
/-- The compare-and-swap finds the head that has been loaded only if the list is the same. -/
theorem Inv.stack_eq (hinv : Inv m) (hsuffix : stack <:+ m.records)
    (hhead : m.records.head? = stack.head?) : stack = m.records := by
  obtain ⟨l, hl⟩ := hsuffix
  cases l with
  | nil => exact hl
  | cons r l =>
    rw [← hl, List.cons_append, List.head?_cons] at hhead
    have hmem : r ∈ stack := List.mem_of_mem_head? hhead.symm
    have hnodup := hl ▸ hinv.nodup
    rw [List.cons_append, List.nodup_cons] at hnodup
    exact absurd (List.mem_append_right l hmem) hnodup.1

omit [DecidableEq ι] in
theorem Inv.push (hinv : Inv m) (hmine : r ∈ m.mine i) (hnew : r ∉ m.records) :
    Inv (m.push r m.records) := by
  have hused := hinv.used i r hmine
  have hfree : (m.push r m.records).freeRecords = m.freeRecords := by
    ext r'
    rw [mem_freeRecords, mem_freeRecords]
    change r' ∈ r :: m.records ∧ m.state r' = .free ↔ _
    rw [List.mem_cons]
    refine and_congr_left fun hfree => or_iff_right ?_
    rintro rfl
    cases hused.symm.trans hfree
  refine ⟨List.nodup_cons.mpr ⟨hnew, hinv.nodup⟩, hinv.unique, hinv.used, fun r' hmem h => ?_, ?_⟩
  · rcases List.mem_cons.mp hmem with rfl | hmem
    · exact ⟨i, hmine⟩
    · exact hinv.owned r' hmem h
  · rw [hfree]
    exact hinv.count

omit [DecidableEq ι] [DecidableEq R] in
theorem frame_push (hmine : r ∈ m.mine i) : Frame i m (m.push r m.records) where
  suffix := List.suffix_cons _ _
  added _ h := (List.mem_cons.mp h).elim (fun heq => .inr (heq ▸ hmine)) .inl
  mine _ _ := rfl
  taking _ _ := Iff.rfl
  giving _ _ := Iff.rfl

theorem Inv.dec (hinv : Inv m) (hi : i ∈ m.taking) : Inv (m.dec i) where
  nodup := hinv.nodup
  unique := hinv.unique
  used := hinv.used
  owned := hinv.owned
  count := by
    have hcount := hinv.count
    rw [← Finset.card_erase_add_one hi] at hcount
    change m.nFree - 1 + BitVec.ofNat 32 m.giving.card =
      BitVec.ofNat 32 (m.freeRecords.card + (m.taking.erase i).card)
    bv_omega

omit [DecidableEq R] in
theorem frame_dec (i : ι) (m : Mem ι R) : Frame i m (m.dec i) where
  suffix := List.suffix_rfl
  added _ h := .inl h
  mine _ _ := rfl
  taking _ hj := Finset.mem_erase.trans (and_iff_right hj)
  giving _ _ := Iff.rfl

theorem mem_free {r' : R} :
    r' ∈ (m.free i r).mine j ↔ r' ∈ m.mine j ∧ (j = i → r' ≠ r) := by
  by_cases hj : j = i
  · subst hj
    simp [Mem.free, and_comm]
  · simp [Mem.free, hj]

/-- A record is given back. -/
theorem Inv.free (hinv : Inv m) (hmine : r ∈ m.mine i) (hmem : r ∈ m.records)
    (hi : i ∉ m.giving) : Inv (m.free i r) := by
  have hrecords : (m.free i r).freeRecords = insert r m.freeRecords := by
    ext r'
    rw [Finset.mem_insert, mem_freeRecords, mem_freeRecords]
    by_cases hr : r' = r
    · subst hr
      simp [Mem.free, hmem]
    · simp [Mem.free, hr]
  have hnot : r ∉ m.freeRecords := fun h => by
    cases (hinv.used i r hmine).symm.trans (mem_freeRecords.mp h).2
  have hcard : (m.free i r).freeRecords.card = m.freeRecords.card + 1 := by
    rw [hrecords]
    exact Finset.card_insert_of_notMem hnot
  have hgiving : (m.free i r).giving.card = m.giving.card + 1 := Finset.card_insert_of_notMem hi
  have hcount := hinv.count
  refine ⟨hinv.nodup, fun i' j' r' hi' hj' => ?_, fun i' r' h => ?_, fun r' hr' hused => ?_, ?_⟩
  · exact hinv.unique i' j' r' (mem_free.mp hi').1 (mem_free.mp hj').1
  · obtain ⟨hold, hne⟩ := mem_free.mp h
    have hr : r' ≠ r := fun heq => hne (hinv.unique i' i r' hold (heq ▸ hmine)) heq
    exact (Function.update_of_ne hr _ _).trans (hinv.used i' r' hold)
  · have hr : r' ≠ r := by
      rintro rfl
      simp [Mem.free] at hused
    obtain ⟨i', hi'⟩ := hinv.owned r' hr' ((Function.update_of_ne hr _ _).symm.trans hused)
    exact ⟨i', mem_free.mpr ⟨hi', fun _ => hr⟩⟩
  · rw [hcard, hgiving]
    change m.nFree + BitVec.ofNat 32 (m.giving.card + 1) =
      BitVec.ofNat 32 (m.freeRecords.card + 1 + m.taking.card)
    bv_omega

theorem frame_free (i : ι) (r : R) (m : Mem ι R) : Frame i m (m.free i r) where
  suffix := List.suffix_rfl
  added _ h := .inl h
  mine _ hj := Function.update_of_ne hj _ _
  taking _ _ := Iff.rfl
  giving _ hj := Finset.mem_insert.trans (or_iff_right hj)

theorem Inv.inc (hinv : Inv m) (hi : i ∈ m.giving) : Inv (m.inc i) where
  nodup := hinv.nodup
  unique := hinv.unique
  used := hinv.used
  owned := hinv.owned
  count := by
    have hcount := hinv.count
    rw [← Finset.card_erase_add_one hi] at hcount
    change m.nFree + 1 + BitVec.ofNat 32 (m.giving.erase i).card =
      BitVec.ofNat 32 (m.freeRecords.card + m.taking.card)
    bv_omega

omit [DecidableEq R] in
theorem frame_inc (i : ι) (m : Mem ι R) : Frame i m (m.inc i) where
  suffix := List.suffix_rfl
  added _ h := .inl h
  mine _ _ := rfl
  taking _ _ := Iff.rfl
  giving _ hj := Finset.mem_erase.trans (and_iff_right hj)

omit [DecidableEq ι] in
theorem Inv.subscribe (hinv : Inv m) : Inv m.subscribe := { hinv with }

end Changes

/-! ## Every run -/

section Runs

variable [DecidableEq ι] {hp : Bool}

omit [DecidableEq ι] [DecidableEq R] in
theorem At.visit (h : At i m pc) (hsuffix : rest <:+ m.records) (hpc : pc.registering = none)
    (htakes : pc.takes = false) (hgives : pc.gives = false) : At i m (visit rest) := by
  unfold Registry.visit
  split
  · exact h.stay trivial hpc.symm htakes.symm hgives.symm
  · exact h.stay hsuffix hpc.symm htakes.symm hgives.symm

/-- The next access of a thread in its call. -/
theorem act_own (hinv : Inv m) (h : At i m pc) :
    Inv (act hp i m pc).1 ∧ At i (act hp i m pc).1 (act hp i m pc).2 ∧
      Frame i m (act hp i m pc).1 := by
  have hknows := h.knows
  cases pc with
  | idle | recycled => exact ⟨hinv, h, .refl i m⟩
  | registerHead r =>
    exact ⟨hinv, h.stay ⟨hknows, List.suffix_rfl⟩ rfl rfl rfl, .refl i m⟩
  | registerCas r stack =>
    obtain ⟨⟨hmine, hnew⟩, hsuffix⟩ := hknows
    simp only [act]
    split
    case isTrue hhead =>
      rw [hinv.stack_eq hsuffix hhead]
      refine ⟨hinv.push hmine hnew, ⟨?_, fun r' hmem _ => ?_, ?_, ?_⟩, frame_push hmine⟩
      · cases hp <;> exact trivial
      · by_cases hr : r' = r
        · exact hr ▸ List.mem_cons_self
        · refine List.mem_cons_of_mem r (h.listed r' hmem ?_)
          simpa [Pc.registering, eq_comm] using hr
      · cases hp <;> exact h.taking
      · cases hp <;> exact h.giving
    case isFalse =>
      exact ⟨hinv, h.stay ⟨⟨hmine, hnew⟩, List.suffix_rfl⟩ rfl rfl rfl, .refl i m⟩
  | registerInc =>
    refine ⟨hinv.subscribe, ⟨trivial, h.listed, h.taking, h.giving⟩, ?_⟩
    exact { Frame.refl i m with }
  | recycleFree =>
    refine ⟨hinv, ?_, .refl i m⟩
    simp only [act]
    split
    · exact h.stay trivial rfl rfl rfl
    · exact h.stay trivial rfl rfl rfl
  | recycleHead => exact ⟨hinv, h.visit List.suffix_rfl rfl rfl rfl, .refl i m⟩
  | recycleState rest =>
    cases rest with
    | nil => exact ⟨hinv, h, .refl i m⟩
    | cons r rest =>
      refine ⟨hinv, ?_, .refl i m⟩
      simp only [act]
      split
      · exact h.stay hknows rfl rfl rfl
      · exact h.visit ((List.suffix_cons r rest).trans hknows) rfl rfl rfl
  | recycleFas r rest =>
    have hmem : r ∈ m.records := List.IsSuffix.subset hknows List.mem_cons_self
    simp only [act]
    split
    case isTrue hfree =>
      have hi : i ∉ m.taking := fun hi => Bool.false_ne_true (h.taking.mp hi)
      refine ⟨hinv.fas hmem hfree hi, ⟨?_, fun r' hr' _ => ?_, ?_, h.giving⟩, frame_fas i r m⟩
      · exact mem_take.mpr (.inr ⟨rfl, rfl⟩)
      · rcases mem_take.mp hr' with hr' | ⟨-, rfl⟩
        · exact h.listed r' hr' (Option.some_ne_none r').symm
        · exact hmem
      · exact iff_of_true (Finset.mem_insert_self i _) rfl
    case isFalse =>
      exact ⟨hinv, h.visit ((List.suffix_cons r rest).trans hknows) rfl rfl rfl, .refl i m⟩
  | recycleDec r =>
    refine ⟨hinv.dec (h.taking.mpr rfl), ⟨hknows, h.listed, ?_, h.giving⟩, frame_dec i m⟩
    exact iff_of_false (Finset.notMem_erase i _) Bool.false_ne_true
  | unregisterStore r =>
    have hi : i ∉ m.giving := fun hi => Bool.false_ne_true (h.giving.mp hi)
    refine ⟨hinv.free hknows.1 hknows.2 hi, ⟨trivial, fun r' hr' _ => ?_, h.taking, ?_⟩,
      frame_free i r m⟩
    · exact h.listed r' (mem_free.mp hr').1 (Option.some_ne_none r').symm
    · exact iff_of_true (Finset.mem_insert_self i _) rfl
  | unregisterInc =>
    refine ⟨hinv.inc (h.giving.mpr rfl), ⟨trivial, h.listed, h.taking, ?_⟩, frame_inc i m⟩
    exact iff_of_false (Finset.notMem_erase i _) Bool.false_ne_true

omit [DecidableEq ι] [DecidableEq R] in
/-- A thread that rests has put all its records on the list. -/
theorem At.resting (h : At i m pc) (hrest : pc.Resting) :
    (∀ r ∈ m.mine i, r ∈ m.records) ∧ i ∉ m.taking ∧ i ∉ m.giving := by
  cases pc with
  | idle | recycled =>
    exact ⟨fun r hr => h.listed r hr (Option.some_ne_none r).symm,
      fun hi => Bool.false_ne_true (h.taking.mp hi), fun hi => Bool.false_ne_true (h.giving.mp hi)⟩
  | _ => exact hrest.elim

theorem step_own (hstep : Step hp i m pc m' pc') (hinv : Inv m) (h : At i m pc) :
    Inv m' ∧ At i m' pc' ∧ Frame i m m' := by
  cases hstep with
  | register r resting new nobody =>
    obtain ⟨hlisted, htaking, hgiving⟩ := h.resting resting
    refine ⟨hinv.take new nobody, ⟨⟨mem_take.mpr (.inr ⟨rfl, rfl⟩), new⟩, fun r' hr' hne => ?_,
      iff_of_false htaking Bool.false_ne_true, iff_of_false hgiving Bool.false_ne_true⟩,
      frame_take i r m⟩
    rcases mem_take.mp hr' with hr' | ⟨-, rfl⟩
    · exact hlisted r' hr'
    · exact absurd rfl hne
  | recycle resting =>
    obtain ⟨hlisted, htaking, hgiving⟩ := h.resting resting
    exact ⟨hinv, ⟨trivial, fun r hr _ => hlisted r hr, iff_of_false htaking Bool.false_ne_true,
      iff_of_false hgiving Bool.false_ne_true⟩, .refl i m⟩
  | unregister r resting has =>
    obtain ⟨hlisted, htaking, hgiving⟩ := h.resting resting
    exact ⟨hinv, ⟨⟨has, hlisted r has⟩, fun r hr _ => hlisted r hr,
      iff_of_false htaking Bool.false_ne_true, iff_of_false hgiving Bool.false_ne_true⟩,
      .refl i m⟩
  | act => exact act_own hinv h

theorem invariant (hp : Bool) :
    Threads.Invariant (Step (ι := ι) (R := R) hp) (fun _ _ _ => True) Inv At where
  own hstep _ hinv h :=
    have hown := step_own hstep hinv h
    ⟨hown.1, hown.2.1⟩
  other hstep _ hinv h _ _ hj hother := hother.frame hinv (step_own hstep hinv h).2.2 hj

variable {s : Threads.System (Mem ι R) (Pc R) ι}

theorem reachable_inv (hr : Reachable hp s) : Inv s.mem ∧ ∀ i, At i s.mem (s.pc i) := by
  have hinv : Inv (start ι R).mem :=
    { nodup := List.nodup_nil
      unique := fun _ _ r h => absurd h (Finset.notMem_empty r)
      used := fun _ _ _ => rfl
      owned := fun _ h => absurd h List.not_mem_nil
      count := rfl }
  have hat : ∀ i, At i (start ι R).mem ((start ι R).pc i) := fun i =>
    { knows := trivial
      listed := fun r h => absurd h (Finset.notMem_empty r)
      taking := iff_of_false (Finset.notMem_empty i) Bool.false_ne_true
      giving := iff_of_false (Finset.notMem_empty i) Bool.false_ne_true }
  obtain ⟨hinv', hall⟩ := (invariant hp).reachable hr (fun _ => trivial) hinv hat
  exact ⟨hinv', fun i => (hall i).2⟩

/-- What holds at every moment of a run. -/
structure Sound (s : Threads.System (Mem ι R) (Pc R) ι) : Prop where
  /-- No record belongs to two threads. -/
  unique : ∀ i j r, r ∈ s.mem.mine i → r ∈ s.mem.mine j → i = j
  /-- The record that a thread gets from `recycle` is its own. -/
  recycled : ∀ i r, s.pc i = .recycled (some r) → r ∈ s.mem.mine i
  /-- On the list each record is either free or belongs to a thread. -/
  nodup : s.mem.records.Nodup
  free_iff : ∀ r ∈ s.mem.records, s.mem.state r = .free ↔ ∀ i, r ∉ s.mem.mine i
  /-- Between the calls `n_free` is the number of the records that are free. -/
  count : (∀ i, (s.pc i).Resting) → s.mem.nFree = BitVec.ofNat 32 s.mem.freeRecords.card

/-- Between the calls the word counts the records that are free. -/
theorem nFree_of_resting (hr : Reachable hp s) (hrest : ∀ i, (s.pc i).Resting) :
    s.mem.nFree = BitVec.ofNat 32 s.mem.freeRecords.card := by
  obtain ⟨hinv, hat⟩ := reachable_inv hr
  have htaking : s.mem.taking = ∅ :=
    Finset.eq_empty_of_forall_notMem fun i => ((hat i).resting (hrest i)).2.1
  have hgiving : s.mem.giving = ∅ :=
    Finset.eq_empty_of_forall_notMem fun i => ((hat i).resting (hrest i)).2.2
  have hcount := hinv.count
  rw [htaking, hgiving, Finset.card_empty, Nat.add_zero] at hcount
  rw [← hcount]
  exact (BitVec.add_zero _).symm

/-- In any interleaving of threads that register, recycle and give back records, each record is
handed out to one thread at a time, and none is lost. -/
theorem records_sound (hr : Reachable hp s) : Sound s := by
  obtain ⟨hinv, hat⟩ := reachable_inv hr
  refine ⟨hinv.unique, fun i r hpc => ?_, hinv.nodup, fun r hmem => ⟨fun hfree i hi => ?_,
    fun hnobody => ?_⟩, nFree_of_resting hr⟩
  · have hknows := (hat i).knows
    rw [hpc] at hknows
    exact hknows
  · cases hfree.symm.trans (hinv.used i r hi)
  · cases hstate : s.mem.state r with
    | free => rfl
    | used =>
      obtain ⟨i, hi⟩ := hinv.owned r hmem hstate
      exact absurd hi (hnobody i)

/-! ## A call without interference -/

/-- Thread `i` makes `n` accesses in a row. -/
def alone (hp : Bool) (i : ι) (n : Nat) (m : Mem ι R) (pc : Pc R) : Mem ι R × Pc R :=
  (fun x : Mem ι R × Pc R => act hp i x.1 x.2)^[n] (m, pc)

theorem alone_succ (n : Nat) : alone hp i (n + 1) m pc =
    alone hp i n (act hp i m pc).1 (act hp i m pc).2 := rfl

/-- The walk stops at the first record that is free. -/
theorem alone_visit (hp : Bool) (i : ι) (m : Mem ι R) (rest : List R) :
    ∃ n r, (alone hp i n m (visit rest)).2 = .recycled r ∧
      (r = none ↔ ∀ x ∈ rest, m.state x ≠ .free) ∧
      ∀ x, r = some x → x ∈ rest ∧ m.state x = .free := by
  induction rest with
  | nil => exact ⟨0, none, rfl, by simp, by simp⟩
  | cons y rest ih =>
    by_cases hfree : m.state y = .free
    · refine ⟨3, some y, ?_, ?_, ?_⟩
      · simp [alone, visit, act, hfree]
      · exact iff_of_false (Option.some_ne_none y) fun h => h y List.mem_cons_self hfree
      · rintro x ⟨⟩
        exact ⟨List.mem_cons_self, hfree⟩
    · obtain ⟨n, r, hrun, hnone, hsome⟩ := ih
      refine ⟨n + 1, r, ?_, ?_, fun x hx => ?_⟩
      · rw [alone_succ]
        simpa [visit, act, hfree] using hrun
      · rw [hnone, List.forall_mem_cons, and_iff_right hfree]
      · exact ⟨List.mem_cons_of_mem y (hsome x hx).1, (hsome x hx).2⟩

/-- A call of `recycle` that nobody interferes with finds a record if one is free. -/
theorem recycle_alone (hr : Reachable hp s) (hrest : ∀ i, (s.pc i).Resting)
    (hcard : s.mem.freeRecords.card < 2 ^ 32) (i : ι) :
    ∃ n r, (alone hp i n s.mem .recycleFree).2 = .recycled r ∧
      (r = none ↔ s.mem.freeRecords = ∅) ∧ ∀ x, r = some x → x ∈ s.mem.freeRecords := by
  have hcount := nFree_of_resting hr hrest
  by_cases hzero : s.mem.nFree = 0
  · refine ⟨1, none, by simp [alone, act, hzero], iff_of_true rfl ?_, by simp⟩
    rw [hzero] at hcount
    have hnat := congrArg BitVec.toNat hcount
    rw [BitVec.toNat_ofNat, Nat.mod_eq_of_lt hcard] at hnat
    exact Finset.card_eq_zero.mp hnat.symm
  · obtain ⟨n, r, hrun, hnone, hsome⟩ := alone_visit hp i s.mem s.mem.records
    refine ⟨n + 2, r, ?_, ?_, fun x hx => mem_freeRecords.mpr (hsome x hx)⟩
    · have hfirst : act hp i s.mem .recycleFree = (s.mem, .recycleHead) := by
        rw [act, if_neg hzero]
      rw [alone_succ, hfirst]
      exact hrun
    · rw [hnone, Finset.eq_empty_iff_forall_notMem]
      simp only [mem_freeRecords, not_and]

/-- A run in which a thread makes `n` more accesses. -/
theorem acts_reachable {s₀ : Threads.System (Mem ι R) (Pc R) ι}
    (hr : Threads.System.Reachable (Step hp) (fun _ _ _ => True) s₀ s) (i : ι) (n : Nat) :
    Threads.System.Reachable (Step hp) (fun _ _ _ => True) s₀ (s.acts (act hp) i n) :=
  hr.acts i n (fun _ _ _ _ _ _ => .inr .act) fun _ _ _ => trivial

end Runs

end Invariant

/-- One thread registers record 0 and gives it back. -/
def givenBack : Threads.System (Mem Bool Nat) (Pc Nat) Bool :=
  let s := start Bool Nat
  let s := (⟨s.mem.take false 0, Function.update s.pc false (.registerHead 0)⟩ :
    Threads.System (Mem Bool Nat) (Pc Nat) Bool).acts (act true) false 3
  (s.call false (.unregisterStore 0)).acts (act true) false 2

theorem givenBack_reachable : Reachable true givenBack := by
  have h₀ : Reachable true (start Bool Nat) := .refl
  have h₁ := h₀.extend false (.register 0 trivial (by decide) (by decide)) fun _ => trivial
  have h₂ := acts_reachable h₁ false 3
  have h₃ := h₂.call false (.unregister 0 trivial (by decide)) fun _ => trivial
  exact acts_reachable h₃ false 2

/-- The other thread recycles the record. -/
def takenOver : Threads.System (Mem Bool Nat) (Pc Nat) Bool :=
  (givenBack.call true .recycleFree).acts (act true) true 5

theorem records_sound_takenOver : takenOver.pc true = .recycled (some 0) ∧
    takenOver.mem.mine true = {0} ∧ takenOver.mem.nFree = 0 ∧ Sound takenOver := by
  have h₁ := givenBack_reachable.call true (.recycle trivial) fun _ => trivial
  exact ⟨rfl, by decide, by decide, records_sound (acts_reachable h₁ true 5)⟩

theorem recycle_alone_givenBack : ∃ n r,
    (alone true true n givenBack.mem .recycleFree).2 = .recycled r ∧
      (r = none ↔ givenBack.mem.freeRecords = ∅) ∧
      ∀ x, r = some x → x ∈ givenBack.mem.freeRecords :=
  recycle_alone givenBack_reachable (fun i => by cases i <;> exact trivial) (by decide) true

end ConcurrencyKit.Registry
