import ConcurrencyKit.Internal

/-!
# The map of `ck_ht`

Data model of `src/ck_ht.c` and `include/ck_ht.h` on a 64-bit target with 64-byte cache lines
and 8-bit atomic loads and stores, with and without pointer packing. An entry is two or four
words, each of which is stored by itself, so the stores the single writer makes to a map are
stores of single words.
-/

namespace ConcurrencyKit.Ht

/-- A machine word. -/
abbrev Word := BitVec 64

abbrev Byte := BitVec 8

/-- `CK_HT_MODE_DIRECT` and `CK_HT_MODE_BYTESTRING`. -/
inductive Mode where
  | direct
  | bytestring
  deriving DecidableEq, Repr

/-- `CK_HT_KEY_EMPTY`. -/
def keyEmpty : Word := 0

/-- `CK_HT_KEY_TOMBSTONE`. -/
def keyTombstone : Word := ~~~keyEmpty

/-- `struct ck_ht_entry` (`ck_ht.h:67-77`). In a pointer-packing build the last two words do not
exist and are zero here. -/
@[ext] structure Entry where
  key : Word
  value : Word
  keyLength : Word
  hash : Word
  deriving DecidableEq, Repr

/-- The slot holds a key. -/
def Entry.live (e : Entry) : Bool := e.key != keyEmpty && e.key != keyTombstone

/-- An entry of a zeroed map. -/
def Entry.zero : Entry := ⟨0, 0, 0, 0⟩

/-- What a table is created with, and what it runs on. `workloadDelete` is the
`CK_HT_WORKLOAD_DELETE` bit, `vmaBits` is `CK_MD_VMA_BITS` for a pointer-packing build, `h` is
the hash callback at the table's seed and `memory` holds the strings that the keys of
byte-string mode point to. `malloc n` says whether the `n`-th allocation succeeds. `wideShift`
is the target's result of a right shift by the word size or more, which C leaves undefined.
`restarts` bounds how often a `restart` loop is followed round; a call that needs more is
reported as unfinished. -/
structure Config where
  mode : Mode
  workloadDelete : Bool
  vmaBits : Option Nat
  h : List Byte → Word
  memory : Word → Byte
  malloc : Nat → Bool
  wideShift : Word → Nat → Word
  restarts : Nat

/-- `CK_HT_WORD_MAX` for the 8-bit probe bound. -/
def wordMax : Nat := 255

/-- `CK_HT_TYPE_MAX`. -/
def typeMax : Nat := 2 ^ 64 - 1

/-- The bytes of a word in memory. -/
def wordBytes (w : Word) : List Byte := (List.range 8).map fun i => (w >>> (8 * i)).setWidth 8

namespace Config

variable (cfg : Config)

/-- `CK_HT_BUCKET_SHIFT` (`ck_ht.c:46-50`). -/
def bucketShift : Nat := if cfg.vmaBits.isSome then 2 else 1

/-- `CK_HT_BUCKET_LENGTH`. -/
def bucketLength : Nat := 2 ^ cfg.bucketShift

/-- The bytes at a pointer. -/
def string (pointer : Word) (length : Nat) : List Byte :=
  (List.range length).map fun i => cfg.memory (pointer + BitVec.ofNat 64 i)

/-- `memcmp(a, b, length) == 0`. -/
def memcmp (a b : Word) (length : Nat) : Bool := cfg.string a length == cfg.string b length

/-! ## Entries -/

/-- `ck_ht_entry_key` (`ck_ht.h:164-173`). -/
def entryKey (e : Entry) : Word :=
  match cfg.vmaBits with
  | none => e.key
  | some bits => e.key &&& BitVec.ofNat 64 (2 ^ bits - 1)

/-- `ck_ht_entry_key_length` (`ck_ht.h:175-184`). -/
def entryKeyLength (e : Entry) : BitVec 16 :=
  match cfg.vmaBits with
  | none => e.keyLength.setWidth 16
  | some bits => (e.key >>> bits).setWidth 16

/-- `ck_ht_entry_set` (`ck_ht.h:197-217`). -/
def entrySet (h key : Word) (keyLength : BitVec 16) (value : Word) : Entry :=
  match cfg.vmaBits with
  | none => ⟨key, value, keyLength.setWidth 64, h⟩
  | some bits =>
    ⟨key ||| keyLength.setWidth 64 <<< bits, value ||| (h >>> 32) <<< bits, 0, 0⟩

/-- `ck_ht_entry_set_direct` (`ck_ht.h:219-235`) on an entry whose `key_length` happens to be
`rest`. -/
def entrySetDirect (rest h key value : Word) : Entry :=
  match cfg.vmaBits with
  | none => ⟨key, value, rest, h⟩
  | some _ => ⟨key, value, 0, 0⟩

/-- What a call passes to the probe functions as the key: `(void *)entry->key` in direct mode,
`ck_ht_entry_key` in byte-string mode (`ck_ht.c:788-794`). -/
def keyArg (e : Entry) : Word :=
  match cfg.mode with
  | .direct => e.key
  | .bytestring => cfg.entryKey e

/-- The key length that goes with it: `sizeof(entry->key)` in direct mode. -/
def lengthArg (e : Entry) : BitVec 16 :=
  match cfg.mode with
  | .direct => 8
  | .bytestring => cfg.entryKeyLength e

/-- What names an entry: the bytes of its key word in direct mode, the string its key points to
in byte-string mode. -/
def ident (e : Entry) : List Byte :=
  match cfg.mode with
  | .direct => wordBytes e.key
  | .bytestring => cfg.string (cfg.entryKey e) (cfg.entryKeyLength e).toNat

/-- `ck_ht_hash_direct` and `ck_ht_hash` (`ck_ht.c:105-124`): the callback gets the bytes that
name the entry. -/
def hashOf (e : Entry) : Word := cfg.h (cfg.ident e)

/-- The hash value that `ck_ht_gc` and `ck_ht_grow_spmc` use for a stored entry: the memoized one,
or the callback in a pointer-packing build (`ck_ht.c:419-440`, `ck_ht.c:674-693`). -/
def entryHash (e : Entry) : Word :=
  match cfg.vmaBits with
  | none => e.hash
  | some _ => cfg.hashOf e

/-- The memoized portion of the hash value agrees (`ck_ht.c:349-355`). -/
def memoMatch (h : Word) (e : Entry) : Bool :=
  match cfg.vmaBits with
  | none => e.hash == h
  | some bits => e.value >>> bits == ((h >>> 32) &&& BitVec.ofNat 64 (2 ^ (64 - bits) - 1))

/-- The key test of the probe loops (`ck_ht.c:333-359`, `ck_ht.c:553-588`): the key word first,
then in byte-string mode the length, the memoized hash and the bytes. -/
def keyMatch (h key : Word) (keyLength : BitVec 16) (e : Entry) : Bool :=
  e.key == key ||
    (cfg.mode == .bytestring && (cfg.entryKeyLength e == keyLength && (cfg.memoMatch h e &&
      cfg.memcmp (cfg.entryKey e) key keyLength.toNat)))

/-- A slot the probe loops stop at as the one of entry `x`. -/
def hit (h : Word) (x e : Entry) : Bool :=
  e.live && cfg.keyMatch h (cfg.keyArg x) (cfg.lengthArg x) e

/-! ## The probe sequence -/

/-- Right shift of a 64-bit word on the target. -/
def shr (x : Word) (n : Nat) : Word := if n < 64 then x >>> n else cfg.wideShift x n

/-- `ck_ht_map_probe_next` (`ck_ht.c:229-243`) on a map of `capacity` slots. The bucket mask is a
32-bit constant, so its complement has 32 bits. -/
def probeNext (capacity offset : Nat) (h : Word) (probes : Nat) : Nat :=
  let level := probes >>> cfg.bucketShift
  let r := cfg.shr (cfg.shr h (ckCcFfsl capacity)) level
  let stride := (r &&& BitVec.ofNat 64 (2 ^ 32 - cfg.bucketLength)) <<< 1 |||
    (r &&& BitVec.ofNat 64 (cfg.bucketLength - 1))
  (BitVec.ofNat 64 offset + BitVec.ofNat 64 level +
    (stride ||| BitVec.ofNat 64 cfg.bucketLength)).toNat &&& (capacity - 1)

/-- `offset` in the `i`-th iteration of the outer probe loop. -/
def offset (capacity : Nat) (h : Word) : Nat → Nat
  | 0 => h.toNat &&& (capacity - 1)
  | i + 1 => cfg.probeNext capacity (offset capacity h i) h (cfg.bucketLength * (i + 1))

/-- The slot read at index `j` of the bucket of `offset`. `bucket` is the cache line of
`entries[offset]`. -/
def slotAt (offset j : Nat) : Nat :=
  offset / cfg.bucketLength * cfg.bucketLength + (j + offset) % cfg.bucketLength

/-- The slot read by probe number `n`, counted from zero. -/
def cursor (capacity : Nat) (h : Word) (n : Nat) : Nat :=
  cfg.slotAt (cfg.offset capacity h (n / cfg.bucketLength)) (n % cfg.bucketLength)

end Config

/-- `struct ck_ht_map` (`ck_ht.c:79-92`). `mode`, `mask`, `step` and `probe_limit` are functions
of the table and the capacity, which no operation changes; `size` is only passed to the
allocator. -/
structure Map where
  deletions : Nat
  probeMaximum : Nat
  nEntries : Nat
  capacity : Nat
  probeBound : Option (Nat → Nat)
  entries : Nat → Entry

/-- A store the writer makes to the table. `map` publishes a map built in private by
`ck_ht_map_create` or `ck_ht_grow_spmc`. -/
inductive Store where
  | key (slot : Nat) (word : Word)
  | value (slot : Nat) (word : Word)
  | keyLength (slot : Nat) (word : Word)
  | hash (slot : Nat) (word : Word)
  | deletions (value : Nat)
  | probeMaximum (value : Nat)
  | probeBound (home value : Nat)
  | nEntries (value : Nat)
  | map (update : Map)

namespace Map

/-- `map->probe_limit` (`ck_ht.c:168-169`). -/
def probeLimit (cfg : Config) (m : Map) : Nat := max (m.capacity >>> (cfg.bucketShift + 2)) 64

/-- The number of slots the probe loops read at most. -/
def probeSlots (cfg : Config) (m : Map) : Nat := cfg.bucketLength * m.probeLimit cfg

/-- `h.value & map->mask`. -/
def home (m : Map) (h : Word) : Nat := h.toNat &&& (m.capacity - 1)

/-- The map with another entry in a slot. -/
def put (m : Map) (slot : Nat) (e : Entry) : Map :=
  { m with entries := Function.update m.entries slot e }

def apply (m : Map) : Store → Map
  | .key slot word => m.put slot { m.entries slot with key := word }
  | .value slot word => m.put slot { m.entries slot with value := word }
  | .keyLength slot word => m.put slot { m.entries slot with keyLength := word }
  | .hash slot word => m.put slot { m.entries slot with hash := word }
  | .deletions value => { m with deletions := value }
  | .probeMaximum value => { m with probeMaximum := value }
  | .probeBound home value =>
    { m with probeBound := m.probeBound.map (fun b => Function.update b home value) }
  | .nEntries value => { m with nEntries := value }
  | .map update => update

def applyAll (m : Map) (stores : List Store) : Map := stores.foldl apply m

/-- `ck_ht_map_bound_get` (`ck_ht.c:204-219`). -/
def boundGet (m : Map) (h : Word) : Nat :=
  match m.probeBound with
  | some bound => if bound (m.home h) = wordMax then m.probeMaximum else bound (m.home h)
  | none => m.probeMaximum

/-- The stores of `ck_ht_map_bound_set` (`ck_ht.c:184-202`). -/
def boundSet (m : Map) (h : Word) (nProbes : Nat) : List Store :=
  (if m.probeMaximum < nProbes then [.probeMaximum nProbes] else []) ++
  match m.probeBound with
  | some bound =>
    if bound (m.home h) < nProbes then [.probeBound (m.home h) (min nProbes wordMax)] else []
  | none => []

/-- `CK_HT_TYPE_STORE(&map->deletions, map->deletions + 1)`. -/
def bump (m : Map) : Store := .deletions (inc 64 m.deletions)

/-- The stores of the two memoized words, which a pointer-packing build does not have. -/
def storeMemo (cfg : Config) (slot : Nat) (e : Entry) : List Store :=
  if cfg.vmaBits.isSome then [] else [.keyLength slot e.keyLength, .hash slot e.hash]

/-- The stores of the value and, last, the key. -/
def storePair (slot : Nat) (e : Entry) : List Store := [.value slot e.value, .key slot e.key]

/-- The stores by which an entry is written to a slot (`ck_ht.c:917-926`,
`ck_ht.c:1004-1014`). -/
def storeEntry (cfg : Config) (slot : Nat) (e : Entry) : List Store :=
  storeMemo cfg slot e ++ storePair slot e

/-- A freshly created map (`ck_ht_map_create`, `ck_ht.c:138-182`) for `entries` keys. -/
def create (cfg : Config) (entries : Nat) : Map where
  deletions := 0
  probeMaximum := 0
  nEntries := 0
  capacity := slotsFor cfg.bucketLength entries
  probeBound := if cfg.workloadDelete then some (fun _ => 0) else none
  entries := fun _ => .zero

end Map

/-- `struct ck_ht` with its allocator. `allocs` counts the allocations made so far, `peak` is
the largest capacity requested or created, and `stores` lists the stores to published
memory in program order; the code keeps none of the three. -/
structure State where
  map : Map
  allocs : Nat
  peak : Nat
  stores : List Store

namespace State

/-- Make the given stores, one after the other. -/
def exec (ht : State) (stores : List Store) : State :=
  { ht with map := ht.map.applyAll stores, stores := ht.stores ++ stores }

/-- `ck_ht_map_create` with its allocation (`ck_ht.c:138-182`). -/
def create (cfg : Config) (ht : State) (entries : Nat) : Option Map × State :=
  (if cfg.malloc ht.allocs then some (Map.create cfg entries) else none,
    { ht with
      allocs := ht.allocs + 1
      peak := max ht.peak (max entries (slotsFor cfg.bucketLength entries)) })

end State

/-! ## The probe sequence stays inside the map -/

section ProbeSequence

variable (cfg : Config)

theorem bucketLength_pos : 0 < cfg.bucketLength := Nat.two_pow_pos _

theorem offset_lt {capacity : Nat} (hcap : 0 < capacity) (h : Word) (i : Nat) :
    cfg.offset capacity h i < capacity := by
  cases i with
  | zero =>
    have : h.toNat &&& (capacity - 1) ≤ capacity - 1 := Nat.and_le_right
    simp only [Config.offset]
    omega
  | succ i =>
    simp only [Config.offset, Config.probeNext]
    refine lt_of_le_of_lt Nat.and_le_right ?_
    omega

theorem cursor_lt {capacity : Nat} (hcap : 0 < capacity) (hdvd : cfg.bucketLength ∣ capacity)
    (h : Word) (n : Nat) : cfg.cursor capacity h n < capacity := by
  have ho := offset_lt cfg hcap h (n / cfg.bucketLength)
  obtain ⟨c, rfl⟩ := hdvd
  simp only [Config.cursor, Config.slotAt]
  generalize cfg.offset _ h (n / cfg.bucketLength) = o at ho ⊢
  have hB := bucketLength_pos cfg
  have hrow : o / cfg.bucketLength < c := Nat.div_lt_of_lt_mul ho
  have hcol : (n % cfg.bucketLength + o) % cfg.bucketLength < cfg.bucketLength :=
    Nat.mod_lt _ hB
  calc o / cfg.bucketLength * cfg.bucketLength + (n % cfg.bucketLength + o) % cfg.bucketLength
      < o / cfg.bucketLength * cfg.bucketLength + cfg.bucketLength := by omega
    _ = (o / cfg.bucketLength + 1) * cfg.bucketLength := by ring
    _ ≤ c * cfg.bucketLength := Nat.mul_le_mul_right _ hrow
    _ = cfg.bucketLength * c := Nat.mul_comm _ _

end ProbeSequence

/-! ## Reading a map after some stores -/

section Apply

variable (m : Map)

theorem applyAll_nil : m.applyAll [] = m := rfl

theorem applyAll_append (xs ys : List Store) :
    m.applyAll (xs ++ ys) = (m.applyAll xs).applyAll ys := List.foldl_append

theorem put_put (s : Nat) (e e' : Entry) : (m.put s e).put s e' = m.put s e' := by
  unfold Map.put
  dsimp only
  rw [Function.update_idem]

@[simp] theorem put_entries_self (s : Nat) (e : Entry) : (m.put s e).entries s = e :=
  Function.update_self _ _ _

theorem put_entries_of_ne {s i : Nat} (h : i ≠ s) (e : Entry) :
    (m.put s e).entries i = m.entries i :=
  Function.update_of_ne h _ _

end Apply

end ConcurrencyKit.Ht
