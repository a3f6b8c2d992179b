import Mathlib.Data.Multiset.AddSub
import Mathlib.Data.List.Perm.Basic
import Mathlib.Tactic

/-!
# The array of `ck_array`

The operations of `src/ck_array.c` for the one writer. The array is used in two ways. As long as
`transaction` is absent the writer changes the active buffer in place, above the committed values
that readers iterate over. The first removal that finds nothing pending copies the values to a
transaction buffer, which replaces the active one at the next commit.

A run is a sequence of calls by the writer, each with what the allocator gives it. What is
pending is a multiset: the writer may reorder the values. What readers see is a list.
-/

namespace ConcurrencyKit.Arrays

open scoped List

variable {V : Type}

/-- What an allocation of a call returns: `NULL`, or cells that hold anything. -/
abbrev Alloc (V : Type) := Option (Nat → V)

/-- Which functions of `struct ck_malloc` are there. -/
structure Malloc where
  malloc : Bool
  realloc : Bool
  free : Bool
  deriving DecidableEq, Repr

/-- `struct _ck_array`, with as many cells as its length says. -/
structure Buffer (V : Type) where
  nCommitted : Nat
  length : Nat
  values : List V
  cells : values.length = length

/-- `struct ck_array`. -/
structure CkArray (V : Type) where
  active : Buffer V
  nEntries : Nat
  transaction : Option (Buffer V)

namespace Buffer

/-- `ck_array_create` (`ck_array.c:34-47`). -/
def create (fresh : Alloc V) (length : Nat) : Option (Buffer V) :=
  fresh.map fun cells =>
    { nCommitted := 0, length, values := (List.range length).map cells, cells := by simp }

/-- `target->values[i] = value`. -/
def store (b : Buffer V) (i : Nat) (value : V) : Buffer V :=
  { b with values := b.values.set i value, cells := by simp [b.cells] }

/-- `target->values[i] = target->values[n]`. -/
def move (b : Buffer V) (i n : Nat) : Buffer V :=
  match b.values[n]? with
  | some value => b.store i value
  | none => b

/-- Copy the first `n` values of another buffer. -/
def memcpy (b : Buffer V) (source : List V) (n : Nat) : Buffer V :=
  { b with
    values := b.values.mapIdx fun j old => if j < n then source.getD j old else old
    cells := by simp [b.cells] }

/-- Move to an allocation of `size` cells: the header and the first `n` values are kept. -/
def realloc (b : Buffer V) (fresh : Alloc V) (n size : Nat) : Option (Buffer V) :=
  (create fresh size).map fun target =>
    { target.memcpy b.values n with nCommitted := b.nCommitted }

/-- Append a value to the first `n` ones (`ck_array.c:87-107`, and again at `109-125` for the
transaction). The length is an `unsigned int`. -/
def put (b : Buffer V) (fresh : Alloc V) (n : Nat) (value : V) : Option (Buffer V) :=
  if n = b.length then (b.realloc fresh n ((b.length <<< 1) % 2 ^ 32)).map (·.store n value)
  else some (b.store n value)

/-- The first of the first `n` values that equals `value`. -/
def search [DecidableEq V] (b : Buffer V) (n : Nat) (value : V) : Option Nat :=
  (b.values.take n).findIdx? (· = value)

end Buffer

namespace CkArray

/-- `ck_array_init` (`ck_array.c:49-71`). -/
def init (allocator : Malloc) (fresh : Alloc V) (length : Nat) : Option (CkArray V) :=
  if allocator.realloc = false ∨ allocator.malloc = false ∨ allocator.free = false ∨ length = 0
  then none
  else (Buffer.create fresh length).map fun active => ⟨active, 0, none⟩

/-- The buffer that `n_entries` indexes. -/
def target (a : CkArray V) : Buffer V :=
  a.transaction.getD a.active

/-- `ck_array_put` (`ck_array.c:73-126`). -/
def put (a : CkArray V) (fresh : Alloc V) (value : V) : CkArray V × Bool :=
  match a.transaction with
  | none =>
    match a.active.put fresh a.nEntries value with
    | none => (a, false)
    | some target => ({ a with active := target, nEntries := a.nEntries + 1 }, true)
  | some transaction =>
    match transaction.put fresh a.nEntries value with
    | none => (a, false)
    | some target => ({ a with transaction := some target, nEntries := a.nEntries + 1 }, true)

variable [DecidableEq V]

/-- `ck_array_put_unique` (`ck_array.c:128-147`). -/
def putUnique (a : CkArray V) (fresh : Alloc V) (value : V) : CkArray V × Int :=
  match a.target.search a.nEntries value with
  | some _ => (a, 1)
  | none => ((a.put fresh value).1, if (a.put fresh value).2 then 0 else -1)

/-- `ck_array_remove` (`ck_array.c:149-200`). -/
def remove (a : CkArray V) (fresh : Alloc V) (value : V) : CkArray V × Bool :=
  match a.transaction with
  | some target =>
    match target.search a.nEntries value with
    | none => (a, false)
    | some i =>
      ({ a with
          transaction := some (target.move i (a.nEntries - 1))
          nEntries := a.nEntries - 1 }, true)
  | none =>
    match a.active.search a.nEntries value with
    | none => (a, false)
    | some i =>
      if a.active.nCommitted ≠ a.nEntries then
        -- an addition is pending: the removal is made at once
        ({ a with active := a.active.move i (a.nEntries - 1), nEntries := a.nEntries - 1 }, true)
      else
        match Buffer.create fresh a.nEntries with
        | none => (a, false)
        | some target =>
          let copy := { target.memcpy a.active.values a.nEntries with nCommitted := a.nEntries }
          ({ a with
              transaction := some (copy.move i (a.nEntries - 1))
              nEntries := a.nEntries - 1 }, true)

omit [DecidableEq V] in
/-- `ck_array_commit` (`ck_array.c:202-224`). -/
def commit (a : CkArray V) : CkArray V × Bool :=
  match a.transaction with
  | some m => ({ a with active := { m with nCommitted := a.nEntries }, transaction := none }, true)
  | none => ({ a with active := { a.active with nCommitted := a.nEntries } }, true)

omit [DecidableEq V] in
/-- What readers iterate over (`CK_ARRAY_FOREACH`, `ck_array.h:110-126`). -/
def committed (a : CkArray V) : List V :=
  a.active.values.take a.active.nCommitted

omit [DecidableEq V] in
/-- What will be there after a commit. -/
def pending (a : CkArray V) : List V :=
  a.target.values.take a.nEntries

end CkArray

/-- The calls of the writer. -/
inductive Call (V : Type) where
  | put (value : V)
  | putUnique (value : V)
  | remove (value : V)
  | commit
  deriving DecidableEq, Repr

namespace Call

/-- What the call is for. -/
def effect [DecidableEq V] : Call V → Multiset V → Multiset V
  | put v, s => v ::ₘ s
  | putUnique v, s => if v ∈ s then s else v ::ₘ s
  | remove v, s => s.erase v
  | commit, s => s

/-- The results that report a failure. -/
def Failed : Call V → Int → Prop
  | putUnique _, r => r = -1
  | _, r => r = 0

instance (c : Call V) (r : Int) : Decidable (c.Failed r) := by
  cases c <;> exact Int.instDecidableEq _ _

end Call

/-- Apply the call if it succeeded. -/
def apply [DecidableEq V] (s : Multiset V) (e : Call V × Int) : Multiset V :=
  if e.1.Failed e.2 then s else e.1.effect s

/-- A `bool` as an `int`. -/
def ofBool (b : Bool) : Int := if b then 1 else 0

/-- One call, with what the allocator gives it. -/
def CkArray.call [DecidableEq V] (a : CkArray V) (fresh : Alloc V) : Call V → CkArray V × Int
  | .put v => ((a.put fresh v).1, ofBool (a.put fresh v).2)
  | .putUnique v => a.putUnique fresh v
  | .remove v => ((a.remove fresh v).1, ofBool (a.remove fresh v).2)
  | .commit => (a.commit.1, ofBool a.commit.2)

/-- The arrays reached from `ck_array_init`, with the calls made and their results, while there
are fewer than `2 ^ 31` entries. -/
inductive Reachable [DecidableEq V] (length : Nat) : CkArray V → List (Call V × Int) → Prop
  | init {a : CkArray V} (allocator : Malloc) (fresh : Alloc V)
      (h : CkArray.init allocator fresh length = some a) : Reachable length a []
  | call {a : CkArray V} {es : List (Call V × Int)} (h : Reachable length a es) (c : Call V)
      (fresh : Alloc V) (few : (a.call fresh c).1.nEntries < 2 ^ 31) :
      Reachable length (a.call fresh c).1 (es ++ [(c, (a.call fresh c).2)])

/-! ## Buffers -/

/-- The last value `w` takes the place of `v`: `v` is gone. -/
theorem cons_set_perm {xs : List V} {w v : V} {i : Nat} (h : (xs ++ [w])[i]? = some v) :
    v :: xs.set i w ~ xs ++ [w] := by
  have hlast : [w] ++ xs ~ xs ++ [w] := List.perm_append_comm
  by_cases hi : i < xs.length
  · rw [List.getElem?_append_left hi, List.getElem?_eq_getElem hi, Option.some.injEq] at h
    calc v :: xs.set i w ~ v :: w :: xs.eraseIdx i := (List.set_perm_cons_eraseIdx hi w).cons v
      _ ~ w :: v :: xs.eraseIdx i := List.Perm.swap w v _
      _ ~ w :: xs := (h ▸ List.getElem_cons_eraseIdx_perm hi).cons w
      _ ~ xs ++ [w] := hlast
  · have hw : v = w := by
      rw [List.getElem?_append_right (by omega)] at h
      have := List.mem_of_getElem? h
      simpa using this
    rw [List.set_eq_of_length_le (by omega), hw]
    exact hlast

namespace Buffer

theorem take_store (b : Buffer V) (i n : Nat) (value : V) :
    (b.store i value).values.take n = (b.values.take n).set i value :=
  List.take_set

theorem move_eq (b : Buffer V) (i : Nat) {n : Nat} (hn : n < b.values.length) :
    b.move i n = b.store i b.values[n] := by
  unfold move
  rw [List.getElem?_eq_getElem hn]

theorem create_length {fresh : Alloc V} {length : Nat} {b : Buffer V}
    (h : create fresh length = some b) : b.length = length := by
  obtain ⟨cells, -, rfl⟩ := Option.map_eq_some_iff.mp h
  rfl

theorem take_memcpy {b : Buffer V} {source : List V} {n : Nat} (hn : n ≤ source.length)
    (hroom : n ≤ b.length) : (b.memcpy source n).values.take n = source.take n := by
  apply List.ext_getElem
  · simp [memcpy, b.cells, hn, hroom]
  · intro j hj hj'
    simp only [List.length_take] at hj hj'
    simp [memcpy, show j < n by omega, show j < source.length by omega]

@[simp] theorem move_length (b : Buffer V) (i n : Nat) : (b.move i n).length = b.length := by
  unfold move
  split <;> rfl

@[simp] theorem move_nCommitted (b : Buffer V) (i n : Nat) :
    (b.move i n).nCommitted = b.nCommitted := by
  unfold move
  split <;> rfl

/-- A reallocation keeps the first values. -/
theorem realloc_spec {b t : Buffer V} {fresh : Alloc V} {n size : Nat}
    (h : b.realloc fresh n size = some t) (hn : n ≤ b.length) (hsize : n ≤ size) :
    t.nCommitted = b.nCommitted ∧ t.length = size ∧ t.values.take n = b.values.take n := by
  obtain ⟨created, hcreate, rfl⟩ := Option.map_eq_some_iff.mp h
  obtain ⟨cells, -, rfl⟩ := Option.map_eq_some_iff.mp hcreate
  exact ⟨rfl, rfl, take_memcpy (by rw [b.cells]; exact hn) hsize⟩

theorem put_eq_none {b : Buffer V} {fresh : Alloc V} {n : Nat} {value : V}
    (h : b.put fresh n value = none) : fresh = none := by
  unfold put at h
  split_ifs at h
  simpa [realloc, create] using h

/-- A value is appended to the first `n` ones, and there is room for it. -/
theorem put_spec {b t : Buffer V} {fresh : Alloc V} {n : Nat} {value : V}
    (h : b.put fresh n value = some t) (hn : n ≤ b.length) (hpos : 0 < b.length)
    (few : n < 2 ^ 31) :
    t.nCommitted = b.nCommitted ∧ n < t.length ∧ b.length ≤ t.length ∧
      t.values.take (n + 1) = b.values.take n ++ [value] := by
  have append : ∀ t : Buffer V, n < t.length →
      (t.store n value).values.take (n + 1) = t.values.take n ++ [value] := by
    intro t ht
    have hlen : (t.values.take n).length = n := by
      rw [List.length_take, t.cells]
      omega
    rw [take_store, List.take_add_one, List.getElem?_eq_getElem (by rw [t.cells]; exact ht),
      List.set_append_right n value (by omega), hlen]
    simp
  unfold put at h
  split at h
  case isTrue hfull =>
    have hsize : (b.length <<< 1) % 2 ^ 32 = 2 * n := by
      rw [Nat.shiftLeft_eq, ← hfull]
      omega
    rw [hsize] at h
    obtain ⟨grown, hrealloc, rfl⟩ := Option.map_eq_some_iff.mp h
    obtain ⟨hcommitted, hlength, htake⟩ := realloc_spec hrealloc hn (by omega)
    have hroom : n < grown.length := by omega
    rw [append grown hroom, htake]
    exact ⟨hcommitted, hroom, by simp only [store]; omega, rfl⟩
  case isFalse hfull =>
    cases h
    have hroom : n < b.length := by omega
    exact ⟨rfl, hroom, le_refl _, append b hroom⟩

theorem pos_of_found {values : List V} {n i : Nat} {value : V}
    (h : (values.take n)[i]? = some value) : 0 < n := by
  have := (List.getElem?_eq_some_iff.mp h).1
  simp only [List.length_take] at this
  omega

/-- The last of the first `n` values takes the place of one of them. -/
theorem move_perm {b : Buffer V} {n : Nat} {value : V} {i : Nat} (hn : n ≤ b.length)
    (h : (b.values.take n)[i]? = some value) :
    value :: (b.move i (n - 1)).values.take (n - 1) ~ b.values.take n := by
  have hi : i < n := by
    have := (List.getElem?_eq_some_iff.mp h).1
    simp only [List.length_take] at this
    omega
  have hlast : n - 1 < b.values.length := by rw [b.cells]; omega
  have hsplit : b.values.take n = b.values.take (n - 1) ++ [b.values[n - 1]] := by
    conv_lhs => rw [show n = n - 1 + 1 by omega, List.take_add_one,
      List.getElem?_eq_getElem hlast]
    rfl
  rw [move_eq b i hlast, take_store]
  rw [hsplit] at h ⊢
  exact cons_set_perm h

variable [DecidableEq V]

theorem search_eq_none {b : Buffer V} {n : Nat} {value : V} (h : b.search n value = none) :
    value ∉ b.values.take n := by
  intro hmem
  have := List.findIdx?_eq_none_iff.mp h value hmem
  simp at this

theorem search_eq_some {b : Buffer V} {n : Nat} {value : V} {i : Nat}
    (h : b.search n value = some i) :
    (b.values.take n)[i]? = some value ∧ ∀ j < i, (b.values.take n)[j]? ≠ some value := by
  obtain ⟨hi, hfound, hfirst⟩ := List.findIdx?_eq_some_iff_getElem.mp h
  refine ⟨?_, ?_⟩
  · rw [List.getElem?_eq_getElem hi]
    exact congrArg some (of_decide_eq_true hfound)
  · intro j hj heq
    rw [List.getElem?_eq_getElem (by omega), Option.some.injEq] at heq
    exact hfirst j hj (decide_eq_true heq)

end Buffer

/-! ## One call -/

namespace CkArray

/-- The indices stay within the buffers they are for. -/
structure Valid (a : CkArray V) : Prop where
  entries_le : a.nEntries ≤ a.target.length
  nonempty : 0 < a.target.length
  committed_le : a.active.nCommitted ≤ a.active.length
  committed_le_entries : a.transaction = none → a.active.nCommitted ≤ a.nEntries

theorem valid_init {allocator : Malloc} {fresh : Alloc V} {length : Nat} {a : CkArray V}
    (h : init allocator fresh length = some a) : a.Valid ∧ a.pending = [] := by
  unfold init at h
  split at h
  case isTrue => cases h
  case isFalse hlength =>
    obtain ⟨active, hcreate, rfl⟩ := Option.map_eq_some_iff.mp h
    obtain ⟨cells, -, rfl⟩ := Option.map_eq_some_iff.mp hcreate
    push Not at hlength
    refine ⟨⟨Nat.zero_le _, ?_, Nat.zero_le _, fun _ => Nat.zero_le _⟩, rfl⟩
    exact Nat.pos_of_ne_zero hlength.2.2.2

/-- The committed values come first among the pending ones, as long as there is no
transaction. -/
theorem Valid.committed_eq {a : CkArray V} (hv : a.Valid) (h : a.transaction = none) :
    a.committed = a.pending.take a.active.nCommitted := by
  have := hv.committed_le_entries h
  simp [committed, pending, target, h, List.take_take, this]

/-- A value is not added only where there is no memory. -/
theorem put_eq_false {a : CkArray V} {fresh : Alloc V} {value : V}
    (h : (a.put fresh value).2 = false) : fresh = none := by
  unfold put at h
  split at h
  · cases hput : a.active.put fresh a.nEntries value with
    | none => exact Buffer.put_eq_none hput
    | some target => simp [hput] at h
  · next transaction htransaction =>
    cases hput : transaction.put fresh a.nEntries value with
    | none => exact Buffer.put_eq_none hput
    | some target => simp [hput] at h

theorem put_cases {a : CkArray V} (hv : a.Valid) (few : a.nEntries < 2 ^ 31) (fresh : Alloc V)
    (value : V) :
    a.put fresh value = (a, false) ∨
      ∃ a', a.put fresh value = (a', true) ∧ a'.Valid ∧ a'.nEntries = a.nEntries + 1 ∧
        a'.pending = a.pending ++ [value] ∧ a'.committed = a.committed := by
  obtain ⟨active, nEntries, transaction⟩ := a
  obtain ⟨hentries, hpos, hcommitted, hle⟩ := hv
  cases transaction with
  | none =>
    cases hput : active.put fresh nEntries value with
    | none => exact .inl (by simp only [put, hput])
    | some t =>
      obtain ⟨hsame, hroom, hgrown, htake⟩ := Buffer.put_spec hput hentries hpos few
      have hle : active.nCommitted ≤ nEntries := hle rfl
      have hcommitted : active.nCommitted ≤ active.length := hcommitted
      refine .inr ⟨⟨t, nEntries + 1, none⟩, by simp only [put, hput], ⟨hroom, ?_, ?_, ?_⟩, rfl,
        htake, ?_⟩
      · exact Nat.lt_of_le_of_lt (Nat.zero_le _) hroom
      · simp only [hsame]
        omega
      · intro _
        simp only [hsame]
        omega
      · -- the committed values are among those that were there
        have hfirst : t.values.take nEntries = active.values.take nEntries := by
          have := congrArg (List.take nEntries) htake
          rw [List.take_take, Nat.min_eq_left (by omega)] at this
          rw [this, List.take_append_of_le_length, List.take_take, Nat.min_self]
          rw [List.length_take, active.cells]
          exact (Nat.min_eq_left hentries).ge
        simp only [committed, hsame]
        calc t.values.take active.nCommitted
            = (t.values.take nEntries).take active.nCommitted := by
              rw [List.take_take, Nat.min_eq_left hle]
          _ = active.values.take active.nCommitted := by
              rw [hfirst, List.take_take, Nat.min_eq_left hle]
  | some m =>
    cases hput : m.put fresh nEntries value with
    | none => exact .inl (by simp only [put, hput])
    | some t =>
      obtain ⟨hsame, hroom, hgrown, htake⟩ := Buffer.put_spec hput hentries hpos few
      refine .inr ⟨⟨active, nEntries + 1, some t⟩, by simp only [put, hput],
        ⟨hroom, ?_, hcommitted, ?_⟩, rfl, htake, rfl⟩
      · exact Nat.lt_of_le_of_lt (Nat.zero_le _) hroom
      · intro h
        cases h

variable [DecidableEq V]

/-- The removal is made at once, in what the readers see. -/
def Immediate (a : CkArray V) (value : V) : Prop :=
  a.transaction = none ∧ a.active.nCommitted ≠ a.nEntries ∧ value ∈ a.committed

instance (a : CkArray V) (value : V) : Decidable (a.Immediate value) := by
  unfold Immediate
  exact inferInstanceAs (Decidable (_ ∧ _ ∧ _))

omit [DecidableEq V] in
theorem getLast?_pending {a : CkArray V} (hv : a.Valid) {w : V}
    (h : a.target.values[a.nEntries - 1]? = some w) (hpos : 0 < a.nEntries) :
    a.pending.getLast? = some w := by
  have hlen : a.pending.length = a.nEntries := by
    rw [pending, List.length_take, a.target.cells]
    exact Nat.min_eq_left hv.entries_le
  rw [List.getLast?_eq_getElem?, hlen, pending, List.getElem?_take_of_lt (by omega), h]

/-- A value moves down in the active buffer: readers see that where the value removed is a
committed one. -/
theorem move_committed {a : CkArray V} (hv : a.Valid) (h : a.transaction = none)
    {i : Nat} {value : V} (hfound : (a.pending)[i]? = some value)
    (hfirst : ∀ j < i, (a.pending)[j]? ≠ some value)
    (hpending : a.active.nCommitted ≠ a.nEntries) :
    ((a.active.move i (a.nEntries - 1)).values.take a.active.nCommitted = a.committed ∧
        value ∉ a.committed) ∨
      value ∈ a.committed ∧ ∃ last, a.pending.getLast? = some last ∧
        (a.active.move i (a.nEntries - 1)).values.take a.active.nCommitted ~
          last :: a.committed.erase value := by
  have hle := hv.committed_le_entries h
  have hentries := hv.entries_le
  have htarget : a.target = a.active := by simp [target, h]
  rw [htarget] at hentries
  have hlast : a.nEntries - 1 < a.active.values.length := by rw [a.active.cells]; omega
  have hlen : a.committed.length = a.active.nCommitted := by
    rw [committed, List.length_take, a.active.cells]
    exact Nat.min_eq_left hv.committed_le
  have hget : ∀ j < a.active.nCommitted, a.pending[j]? = a.committed[j]? := by
    intro j hj
    rw [hv.committed_eq h, List.getElem?_take_of_lt hj]
  rw [Buffer.move_eq _ i hlast, Buffer.take_store]
  by_cases hi : i < a.active.nCommitted
  · -- the value is committed, and its slot is overwritten
    right
    rw [hget i hi] at hfound
    have hmem : value ∈ a.committed := List.mem_of_getElem? hfound
    refine ⟨hmem, a.active.values[a.nEntries - 1], getLast?_pending hv ?_ (by omega), ?_⟩
    · rw [htarget, List.getElem?_eq_getElem hlast]
    · obtain ⟨hlt, heq⟩ := List.getElem?_eq_some_iff.mp hfound
      refine (List.set_perm_cons_eraseIdx hlt _).trans (List.Perm.cons _ ?_)
      apply List.Perm.cons_inv (a := value)
      calc value :: a.committed.eraseIdx i ~ a.committed :=
            heq ▸ List.getElem_cons_eraseIdx_perm hlt
        _ ~ value :: a.committed.erase value := List.perm_cons_erase hmem
  · -- the first such value lies above the committed ones
    left
    refine ⟨List.set_eq_of_length_le (by rw [← committed, hlen]; omega), ?_⟩
    intro hmem
    obtain ⟨j, hj, heq⟩ := List.getElem_of_mem hmem
    apply hfirst j (by omega)
    rw [hget j (by omega), List.getElem?_eq_getElem hj, heq]

omit [DecidableEq V] in
/-- What is removed at once is pending. -/
theorem Immediate.mem_pending {a : CkArray V} (hv : a.Valid) {value : V} (h : a.Immediate value) :
    value ∈ a.pending := by
  have hmem := h.2.2
  rw [hv.committed_eq h.1] at hmem
  exact List.mem_of_mem_take hmem

theorem remove_cases {a : CkArray V} (hv : a.Valid) (fresh : Alloc V) (value : V) :
    a.remove fresh value = (a, false) ∧ (value ∉ a.pending ∨ fresh = none) ∧
        ¬ a.Immediate value ∨
      ∃ a', a.remove fresh value = (a', true) ∧ a'.Valid ∧ a'.nEntries < a.nEntries ∧
        value :: a'.pending ~ a.pending ∧
        (¬ a.Immediate value → a'.committed = a.committed) ∧
        (a.Immediate value → ∃ last, a.pending.getLast? = some last ∧
          a'.committed ~ last :: a.committed.erase value) := by
  have hv' := hv
  obtain ⟨active, nEntries, transaction⟩ := a
  obtain ⟨hentries, hpos, hcommitted, hle⟩ := hv
  cases transaction with
  | some m =>
    cases hsearch : m.search nEntries value with
    | none =>
      exact .inl ⟨by simp only [remove, hsearch], .inl (Buffer.search_eq_none hsearch),
        fun himm => Option.some_ne_none _ himm.1⟩
    | some i =>
      obtain ⟨hfound, -⟩ := Buffer.search_eq_some hsearch
      have hn : nEntries ≤ m.length := hentries
      have hsome : 0 < nEntries := Buffer.pos_of_found hfound
      refine .inr ⟨⟨active, nEntries - 1, some (m.move i (nEntries - 1))⟩,
        by simp only [remove, hsearch], ⟨?_, ?_, hcommitted, ?_⟩, by simp only; omega,
        Buffer.move_perm hn hfound, fun _ => rfl, ?_⟩
      · simp only [target, Option.getD_some, Buffer.move_length]
        omega
      · simpa [target] using hpos
      · intro h
        cases h
      · intro h
        cases h.1
  | none =>
    have hn : nEntries ≤ active.length := hentries
    have hle : active.nCommitted ≤ nEntries := hle rfl
    cases hsearch : active.search nEntries value with
    | none =>
      have habsent := Buffer.search_eq_none hsearch
      exact .inl ⟨by simp only [remove, hsearch], .inl habsent,
        fun himm => habsent (himm.mem_pending hv')⟩
    | some i =>
      obtain ⟨hfound, hfirst⟩ := Buffer.search_eq_some hsearch
      have hsome : 0 < nEntries := Buffer.pos_of_found hfound
      by_cases hpending : active.nCommitted ≠ nEntries
      · -- an addition is pending
        have hmove := move_committed hv' rfl hfound hfirst hpending
        refine .inr ⟨⟨active.move i (nEntries - 1), nEntries - 1, none⟩, ?_, ⟨?_, ?_, ?_, ?_⟩,
          by simp only; omega, Buffer.move_perm hn hfound, ?_, ?_⟩
        · simp only [remove, hsearch]
          rw [if_pos hpending]
        · simp only [target, Option.getD_none, Buffer.move_length]
          omega
        · simpa [target] using hpos
        · simpa using hcommitted
        · intro _
          simp only [Buffer.move_nCommitted]
          omega
        · intro himm
          rcases hmove with ⟨hsame, -⟩ | ⟨hmem, -⟩
          · simpa [committed] using hsame
          · exact absurd ⟨rfl, hpending, hmem⟩ himm
        · intro himm
          rcases hmove with ⟨-, hmem⟩ | ⟨-, hmove⟩
          · exact absurd himm.2.2 hmem
          · simpa [committed] using hmove
      · cases hcreate : Buffer.create fresh nEntries with
        | none =>
          refine .inl ⟨?_, .inr (Option.map_eq_none_iff.mp hcreate),
            fun himm => himm.2.1 (not_not.mp hpending)⟩
          simp only [remove, hsearch, hcreate]
          rw [if_neg hpending]
        | some t =>
          -- a transaction begins with a copy of the values
          have hremove : remove ⟨active, nEntries, none⟩ fresh value = (⟨active, nEntries - 1,
              some (({ t.memcpy active.values nEntries with nCommitted := nEntries } :
                Buffer V).move i (nEntries - 1))⟩, true) := by
            simp only [remove, hsearch, hcreate]
            rw [if_neg hpending]
          have hlength := Buffer.create_length hcreate
          have hcopy : (t.memcpy active.values nEntries).values.take nEntries =
              active.values.take nEntries :=
            Buffer.take_memcpy (by rw [active.cells]; exact hn) hlength.ge
          refine .inr ⟨_, hremove, ⟨?_, ?_, hcommitted, ?_⟩, by simp only; omega, ?_, fun _ => rfl,
            ?_⟩
          · simp only [target, Option.getD_some, Buffer.move_length, Buffer.memcpy]
            omega
          · simp only [target, Option.getD_some, Buffer.move_length, Buffer.memcpy]
            omega
          · intro h
            cases h
          · rw [← hcopy] at hfound
            have hperm := Buffer.move_perm
              (b := { t.memcpy active.values nEntries with nCommitted := nEntries }) hlength.ge
              hfound
            exact hperm.trans (List.Perm.of_eq hcopy)
          · intro himm
            exact absurd himm.2.1 hpending

theorem putUnique_cases {a : CkArray V} (hv : a.Valid) (few : a.nEntries < 2 ^ 31)
    (fresh : Alloc V) (value : V) :
    value ∈ a.pending ∧ a.putUnique fresh value = (a, 1) ∨
      value ∉ a.pending ∧ (a.putUnique fresh value = (a, -1) ∨
        ∃ a', a.putUnique fresh value = (a', 0) ∧ a'.Valid ∧ a'.nEntries = a.nEntries + 1 ∧
          a'.pending = a.pending ++ [value] ∧ a'.committed = a.committed) := by
  unfold putUnique
  cases hsearch : a.target.search a.nEntries value with
  | some i =>
    obtain ⟨hfound, -⟩ := Buffer.search_eq_some hsearch
    exact .inl ⟨List.mem_of_getElem? hfound, rfl⟩
  | none =>
    refine .inr ⟨Buffer.search_eq_none hsearch, ?_⟩
    rcases put_cases hv few fresh value with hput | ⟨a', hput, h⟩
    · exact .inl (by rw [hput]; rfl)
    · exact .inr ⟨a', by rw [hput]; rfl, h⟩

theorem putUnique_eq_neg_one {a : CkArray V} {fresh : Alloc V} {value : V}
    (h : (a.putUnique fresh value).2 = -1) : fresh = none := by
  unfold putUnique at h
  split at h
  · cases h
  · cases hput : (a.put fresh value).2 with
    | false => exact put_eq_false hput
    | true => simp [hput] at h

omit [DecidableEq V] in
theorem commit_spec {a : CkArray V} (hv : a.Valid) :
    a.commit.1.Valid ∧ a.commit.1.nEntries = a.nEntries ∧ a.commit.1.pending = a.pending ∧
      a.commit.1.committed = a.pending := by
  obtain ⟨active, nEntries, transaction⟩ := a
  obtain ⟨hentries, hpos, -, -⟩ := hv
  cases transaction with
  | none => exact ⟨⟨hentries, hpos, hentries, fun _ => le_refl _⟩, rfl, rfl, rfl⟩
  | some m => exact ⟨⟨hentries, hpos, hentries, fun _ => le_refl _⟩, rfl, rfl, rfl⟩

/-- The committed value that a call replaces, and by what. -/
def displaced (a : CkArray V) : Call V → List (V × V)
  | .remove value =>
    if a.Immediate value then (a.pending.getLast?.map fun last => (value, last)).toList else []
  | _ => []

/-- What one call does. -/
theorem call_spec {a : CkArray V} (hv : a.Valid) (few : a.nEntries < 2 ^ 31) (fresh : Alloc V)
    (c : Call V) :
    (a.call fresh c).1.Valid ∧
      ((a.call fresh c).1.pending : Multiset V) = apply a.pending (c, (a.call fresh c).2) ∧
      (c.Failed (a.call fresh c).2 → (a.call fresh c).1.pending = a.pending) ∧
      (c ≠ .commit → a.displaced c = [] → (a.call fresh c).1.committed = a.committed) ∧
      (∀ d ∈ a.displaced c, a.displaced c = [d] ∧
        (a.call fresh c).1.committed ~ d.2 :: a.committed.erase d.1) := by
  have add : ∀ value : V, ((a.pending ++ [value] : List V) : Multiset V) = value ::ₘ a.pending := by
    intro value
    have hperm : a.pending ++ [value] ~ [value] ++ a.pending := List.perm_append_comm
    exact Multiset.coe_eq_coe.mpr hperm
  cases c with
  | put value =>
    rcases put_cases hv few fresh value with hput | ⟨a', hput, hv', -, hpending, hcommitted⟩
    · simp [call, hput, hv, apply, Call.Failed, ofBool, displaced]
    · simp [call, hput, hv', apply, Call.Failed, ofBool, displaced, hpending, hcommitted, add,
        Call.effect]
  | putUnique value =>
    rcases putUnique_cases hv few fresh value with
      ⟨hmem, hput⟩ | ⟨hmem, hput | ⟨a', hput, hv', -, hpending, hcommitted⟩⟩
    · simp [call, hput, hv, apply, Call.Failed, displaced, Call.effect, hmem]
    · simp [call, hput, hv, apply, Call.Failed, displaced]
    · simp [call, hput, hv', apply, Call.Failed, displaced, hpending, hcommitted, add,
        Call.effect, hmem]
  | remove value =>
    rcases remove_cases hv fresh value with
      ⟨hremove, -, himm⟩ | ⟨a', hremove, hv', -, hpending, hsame, hreplace⟩
    · simp [call, hremove, hv, apply, Call.Failed, ofBool, displaced, himm]
    · have herase : (a'.pending : Multiset V) = (a.pending : Multiset V).erase value := by
        rw [← Multiset.coe_eq_coe.mpr hpending, ← Multiset.cons_coe, Multiset.erase_cons_head]
      by_cases himm : a.Immediate value
      · obtain ⟨last, hlast, hperm⟩ := hreplace himm
        simp [call, hremove, hv', apply, Call.Failed, ofBool, displaced, himm, Call.effect,
          herase, hlast, hperm]
      · simp [call, hremove, hv', apply, Call.Failed, ofBool, displaced, himm, Call.effect,
          herase, hsame himm]
  | commit =>
    obtain ⟨hv', -, hpending, -⟩ := commit_spec hv
    have hdone : a.commit.2 = true := by unfold commit; split <;> rfl
    simp [call, hv', apply, Call.Failed, ofBool, displaced, Call.effect, hpending, hdone]

end CkArray

/-! ## Runs -/

open CkArray

variable [DecidableEq V]

/-- What holds of the array after a run. -/
theorem Reachable.spec {length : Nat} {a : CkArray V} {es : List (Call V × Int)}
    (h : Reachable length a es) :
    a.Valid ∧ a.nEntries < 2 ^ 31 ∧ (a.pending : Multiset V) = es.foldl apply 0 := by
  induction h with
  | init allocator fresh h =>
    obtain ⟨hv, hempty⟩ := valid_init h
    refine ⟨hv, ?_, by simp [hempty]⟩
    unfold CkArray.init at h
    split at h
    case isTrue => cases h
    case isFalse =>
      obtain ⟨active, -, rfl⟩ := Option.map_eq_some_iff.mp h
      simp
  | call _ c fresh few ih =>
    obtain ⟨hv, hfew, hpending⟩ := ih
    obtain ⟨hv', hstep, -⟩ := call_spec hv hfew fresh c
    refine ⟨hv', few, ?_⟩
    rw [List.foldl_append, ← hpending]
    exact hstep

/-- The array over all runs: what is pending is what the successful calls make of nothing, and
what the next calls return fits it. -/
theorem contents_refine {length : Nat} {a : CkArray V} {es : List (Call V × Int)}
    (h : Reachable length a es) :
    (a.pending : Multiset V) = es.foldl apply 0 ∧ a.nEntries ≤ a.target.length ∧
      (∀ fresh value, (a.putUnique fresh value).2 = 1 ↔ value ∈ a.pending) ∧
      (∀ fresh value, (a.put fresh value).2 = false ∨ (a.putUnique fresh value).2 = -1 →
        fresh = none) ∧
      (∀ fresh value, (a.remove fresh value).2 = false → value ∉ a.pending ∨ fresh = none) ∧
      (∀ fresh c, c.Failed (a.call fresh c).2 → (a.call fresh c).1.pending = a.pending) ∧
      a.commit.1.committed = a.pending ∧ a.commit.1.pending = a.pending := by
  obtain ⟨hv, few, hpending⟩ := h.spec
  refine ⟨hpending, hv.entries_le, ?_, ?_, ?_, ?_, ?_⟩
  · intro fresh value
    rcases putUnique_cases hv few fresh value with
      ⟨hmem, hput⟩ | ⟨hmem, hput | ⟨a', hput, -⟩⟩
    all_goals simp [hput, hmem]
  · rintro fresh value (hfalse | hunique)
    · exact put_eq_false hfalse
    · exact putUnique_eq_neg_one hunique
  · intro fresh value hfalse
    rcases remove_cases hv fresh value with ⟨-, hwhy, -⟩ | ⟨a', hremove, -⟩
    · exact hwhy
    · rw [hremove] at hfalse
      cases hfalse
  · intro fresh c
    exact (call_spec hv few fresh c).2.2.1
  · obtain ⟨-, -, hsame, hcommitted⟩ := commit_spec hv
    exact ⟨hcommitted, hsame⟩

/-- Cells that are all zero. -/
def zeroed : Alloc Nat := some fun _ => 0

/-- The array after `ck_array_init`. -/
def fresh (length : Nat) : CkArray Nat :=
  ⟨⟨0, length, (List.range length).map fun _ => 0, by simp⟩, 0, none⟩

theorem reachable_fresh {length : Nat} (h : length ≠ 0) : Reachable length (fresh length) [] := by
  refine .init ⟨true, true, true⟩ zeroed ?_
  simp [CkArray.init, h, Buffer.create, zeroed, fresh]

/-- The second value does not fit into the one cell that there is. -/
theorem contents_refine_grown :
    (⟨⟨0, 2, [5, 7], rfl⟩, 2, none⟩ : CkArray Nat).pending = [5, 7] ∧
      (([5, 7] : List Nat) : Multiset Nat) = [(Call.put 5, 1), (Call.put 7, 1)].foldl apply 0 := by
  have h : Reachable 1 (⟨⟨0, 2, [5, 7], rfl⟩, 2, none⟩ : CkArray Nat)
      [(Call.put 5, 1), (Call.put 7, 1)] :=
    .call (.call (reachable_fresh one_ne_zero) (.put 5) none (by decide)) (.put 7) zeroed
      (by decide)
  exact ⟨rfl, (contents_refine h).1⟩

/-- The states between two commits, with the committed values that the calls have replaced. -/
inductive Between (a : CkArray V) : CkArray V → List (V × V) → Prop
  | refl : Between a a []
  | call {b : CkArray V} {ds : List (V × V)} (h : Between a b ds) (c : Call V) (fresh : Alloc V)
      (pending : c ≠ .commit) (few : (b.call fresh c).1.nEntries < 2 ^ 31) :
      Between a (b.call fresh c).1 (ds ++ b.displaced c)

/-- Replace one value of what readers see. -/
def replace (s : Multiset V) (d : V × V) : Multiset V :=
  d.2 ::ₘ s.erase d.1

/-- What readers see between two commits is what was committed, except for the values that a
removal has replaced at once by the last pending one. -/
theorem committed_between {length : Nat} {a b : CkArray V} {es : List (Call V × Int)}
    {ds : List (V × V)} (ha : Reachable length a es) (h : Between a b ds) :
    (b.committed : Multiset V) = ds.foldl replace a.committed ∧
      (ds = [] → b.committed = a.committed) := by
  have run : b.Valid ∧ b.nEntries < 2 ^ 31 ∧
      (b.committed : Multiset V) = ds.foldl replace a.committed ∧
      (ds = [] → b.committed = a.committed) := by
    induction h with
    | refl => exact ⟨ha.spec.1, ha.spec.2.1, rfl, fun _ => rfl⟩
    | @call b ds _ c fresh hopen few ih =>
      obtain ⟨hv, hfew, hcommitted, hsame⟩ := ih
      obtain ⟨hv', -, -, hkeep, hreplace⟩ := call_spec hv hfew fresh c
      refine ⟨hv', few, ?_, ?_⟩
      · cases hd : b.displaced c with
        | nil => rw [hkeep hopen hd, List.append_nil, hcommitted]
        | cons d rest =>
          obtain ⟨hone, hperm⟩ := hreplace d (by rw [hd]; exact List.mem_cons_self)
          rw [← hd, hone, List.foldl_append, ← hcommitted]
          exact Multiset.coe_eq_coe.mpr hperm
      · intro hnil
        obtain ⟨hds, hd⟩ := List.append_eq_nil_iff.mp hnil
        rw [hkeep hopen hd, hsame hds]
  exact ⟨run.2.2.1, run.2.2.2⟩

/-- With `1` committed and `2` pending, the removal of `1` puts `2` in its place. -/
theorem between_remove :
    Reachable 2 (⟨⟨1, 2, [1, 0], rfl⟩, 1, none⟩ : CkArray Nat) [(.put 1, 1), (.commit, 1)] ∧
      Between ⟨⟨1, 2, [1, 0], rfl⟩, 1, none⟩ ⟨⟨1, 2, [2, 2], rfl⟩, 1, none⟩ [(1, 2)] := by
  constructor
  · exact .call (.call (reachable_fresh two_ne_zero) (.put 1) none (by decide)) .commit none
      (by decide)
  · exact .call (.call .refl (.put 2) none (by decide) (by decide)) (.remove 1) none (by decide)
      (by decide)

/-- Readers see that before the next commit. -/
theorem committed_changes :
    ∃ a b : CkArray Nat, Reachable 2 a [(.put 1, 1), (.commit, 1)] ∧ Between a b [(1, 2)] ∧
      (a.committed : Multiset Nat) = {1} ∧ (b.committed : Multiset Nat) = {2} :=
  ⟨_, _, between_remove.1, between_remove.2, rfl, rfl⟩

theorem committed_between_replaced :
    (([2] : List Nat) : Multiset Nat) = [(1, 2)].foldl replace (([1] : List Nat) : Multiset Nat) :=
  (committed_between between_remove.1 between_remove.2).1

end ConcurrencyKit.Arrays
