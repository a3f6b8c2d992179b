import ConcurrencyKit.Callbacks

/-!
# The map of `ck_hs`

Data model of `src/ck_hs.c` on a 64-bit target with 64-byte cache lines and 8-bit atomic
loads and stores: the slots, the per-home probe bounds and the counters of
`struct ck_hs_map`, the probe sequence of a hash value, and the stores the single writer
makes to a map. Every change to a published map is a `Store`, so that the sequential
reading of an operation (apply all its stores) and the interleaved one (one store at a
time, readers in between) come from one definition.
-/

namespace ConcurrencyKit.Hs

/-- The word in a slot: `CK_HS_EMPTY`, `CK_HS_TOMBSTONE`, or a stored object. A packed word
(`ck_hs_marshal`, `ck_hs.c:586-606`) is kept as its two halves, the hash bits above
`CK_MD_VMA_BITS` and the object below; without packing the tag is zero. An object is any
value other than the two reserved encodings, which the constructors keep apart. -/
inductive Slot (V : Type) where
  | empty
  | tombstone
  | entry (tag : Nat) (obj : V)
  deriving DecidableEq, Repr

/-- The object in a slot. -/
def Slot.obj? {V : Type} : Slot V → Option V
  | .entry _ v => some v
  | _ => none

/-- What a hash set is created with, and what it runs on, besides its callbacks. `modeDelete`
is the `CK_HS_MODE_DELETE` bit. `malloc n` says whether the `n`-th allocation succeeds.
`wideShift` is the target's result of a right shift by the word size or more, which C leaves
undefined. `restarts` bounds how often a `restart` loop is followed round; a call that
needs more is reported as unfinished. -/
structure Config (V : Type) extends Callbacks V where
  modeDelete : Bool
  malloc : Nat → Bool
  wideShift : BitVec 64 → Nat → BitVec 64
  restarts : Nat

/-- `CK_HS_PROBE_L1`. -/
def probeL1 : Nat := 8

/-- `CK_HS_WORD_MAX` for the 8-bit probe bound. -/
def wordMax : Nat := 255

/-- `CK_HS_G`. -/
def generations : Nat := 2

namespace Config

variable {V : Type}

/-- A slot word the probe loop stops at as the wanted key (`ck_hs.c:549-567`). -/
def hit [DecidableEq V] (cfg : Config V) (h : BitVec 64) (key : V) : Slot V → Bool
  | .entry tag val => tag == cfg.tag h && cfg.keyMatch val key
  | _ => false

/-- `ck_hs_marshal` (`ck_hs.c:586-606`). -/
def marshal (cfg : Config V) (val : V) (h : BitVec 64) : Slot V := .entry (cfg.tag h) val

/-- Right shift of an `unsigned long` on the target. -/
def shr (cfg : Config V) (x : BitVec 64) (n : Nat) : BitVec 64 :=
  if n < 64 then x >>> n else cfg.wideShift x n

/-- `ck_hs_map_probe_next` (`ck_hs.c:312-326`) on a map of `capacity` slots. -/
def probeNext (cfg : Config V) (capacity offset : Nat) (h : BitVec 64) (level probes : Nat) :
    Nat :=
  let r := cfg.shr (cfg.shr h (ckCcFfsl capacity)) level
  let stride := (r &&& ~~~7#64) <<< 1 ||| (r &&& 7#64)
  ((BitVec.ofNat 64 offset + BitVec.ofNat 64 (probes >>> 3) + (stride ||| 8#64)).toNat) &&&
    (capacity - 1)

/-- `offset` in the `i`-th iteration of the outer probe loop. -/
def offset (cfg : Config V) (capacity : Nat) (h : BitVec 64) : Nat → Nat
  | 0 => h.toNat &&& (capacity - 1)
  | i + 1 => cfg.probeNext capacity (cfg.offset capacity h i) h i (probeL1 * (i + 1))

/-- The slot read by probe number `n`, counted from zero: iteration `j = n % 8` of the
inner loop in iteration `i = n / 8` of the outer one. `bucket` is the cache line of
`entries[offset]`, which holds eight slots. -/
def cursor (cfg : Config V) (capacity : Nat) (h : BitVec 64) (n : Nat) : Nat :=
  let offset := cfg.offset capacity h (n / probeL1)
  let bucket := offset / probeL1 * probeL1
  bucket + (n % probeL1 + offset) % probeL1

end Config

/-- `struct ck_hs_map` (`ck_hs.c:90-102`). `mask`, `step` and `probe_limit` are functions of
the capacity, which no operation changes; `size` is only passed to the allocator. -/
structure Map (V : Type) where
  generation : Nat → Nat
  probeMaximum : Nat
  tombstones : Nat
  nEntries : Nat
  capacity : Nat
  probeBound : Option (Nat → Nat)
  entries : Nat → Slot V

/-- A store the writer makes to the hash set. `map` publishes a map built in private by
`ck_hs_map_create` or `ck_hs_grow`. -/
inductive Store (V : Type) where
  | entry (slot : Nat) (word : Slot V)
  | generation (cell value : Nat)
  | probeMaximum (value : Nat)
  | probeBound (home value : Nat)
  | nEntries (value : Nat)
  | tombstones (value : Nat)
  | map (update : Map V)

namespace Map

variable {V : Type}

/-- `map->probe_limit` (`ck_hs.c:244-251`). -/
def probeLimit (m : Map V) : Nat := min (max (m.capacity >>> 5) 64) (2 ^ 32 - 1)

/-- `h & map->mask`. -/
def home (m : Map V) (h : BitVec 64) : Nat := h.toNat &&& (m.capacity - 1)

def apply (m : Map V) : Store V → Map V
  | .entry slot word => { m with entries := Function.update m.entries slot word }
  | .generation cell value => { m with generation := Function.update m.generation cell value }
  | .probeMaximum value => { m with probeMaximum := value }
  | .probeBound home value =>
    { m with probeBound := m.probeBound.map (fun b => Function.update b home value) }
  | .nEntries value => { m with nEntries := value }
  | .tombstones value => { m with tombstones := value }
  | .map update => update

def applyAll (m : Map V) (stores : List (Store V)) : Map V := stores.foldl apply m

/-- `ck_hs_map_bound_get` (`ck_hs.c:350-366`). -/
def boundGet (m : Map V) (h : BitVec 64) : Nat :=
  match m.probeBound with
  | some bound => if bound (m.home h) = wordMax then m.probeMaximum else bound (m.home h)
  | none => m.probeMaximum

/-- The stores of `ck_hs_map_bound_set` (`ck_hs.c:328-348`). -/
def boundSet (m : Map V) (h : BitVec 64) (nProbes : Nat) : List (Store V) :=
  (if m.probeMaximum < nProbes then [.probeMaximum nProbes] else []) ++
  match m.probeBound with
  | some bound =>
    if bound (m.home h) < nProbes then [.probeBound (m.home h) (min nProbes wordMax)] else []
  | none => []

/-- The store of `ck_hs_map_signal` (`ck_hs.c:104-126`). -/
def signal (m : Map V) (h : BitVec 64) : List (Store V) :=
  [.generation (h.toNat % generations) (inc 32 (m.generation (h.toNat % generations)))]

/-- A store through a slot pointer; the null pointer is never written through. -/
def storeAt (slot : Option Nat) (word : Slot V) : List (Store V) :=
  match slot with
  | some s => [.entry s word]
  | none => []

/-- A freshly created map (`ck_hs_map_create`, `ck_hs.c:220-280`) for `entries` keys. -/
def create (cfg : Config V) (entries : Nat) : Map V where
  generation := fun _ => 0
  probeMaximum := 0
  tombstones := 0
  nEntries := 0
  capacity := mapSlots entries
  probeBound := if cfg.modeDelete then some (fun _ => 0) else none
  entries := fun _ => .empty

end Map

/-- `struct ck_hs` with its allocator. `allocs` counts the allocations made so far, `peak` is
the largest capacity requested or created, and `stores` lists the stores to published
memory in program order; the code keeps none of the three. -/
structure State (V : Type) where
  map : Map V
  allocs : Nat
  peak : Nat
  stores : List (Store V)

namespace State

variable {V : Type}

/-- Make the given stores, one after the other. -/
def exec (hs : State V) (stores : List (Store V)) : State V :=
  { hs with map := hs.map.applyAll stores, stores := hs.stores ++ stores }

/-- `ck_hs_map_create` with its allocation (`ck_hs.c:220-280`). -/
def create (cfg : Config V) (hs : State V) (entries : Nat) : Option (Map V) × State V :=
  (if cfg.malloc hs.allocs then some (Map.create cfg entries) else none,
    { hs with allocs := hs.allocs + 1, peak := max hs.peak (max entries (mapSlots entries)) })

end State

/-! ## The probe sequence stays inside the map -/

section ProbeSequence

variable {V : Type} (cfg : Config V)

theorem offset_lt {capacity : Nat} (hcap : 0 < capacity) (h : BitVec 64) (i : Nat) :
    cfg.offset capacity h i < capacity := by
  cases i with
  | zero =>
    have : h.toNat &&& (capacity - 1) ≤ capacity - 1 := Nat.and_le_right
    simp only [Config.offset]
    omega
  | succ i =>
    simp only [Config.offset, Config.probeNext]
    refine lt_of_le_of_lt Nat.and_le_right ?_
    omega

theorem cursor_lt {capacity : Nat} (hcap : 0 < capacity) (h8 : 8 ∣ capacity) (h : BitVec 64)
    (n : Nat) : cfg.cursor capacity h n < capacity := by
  have ho := offset_lt cfg hcap h (n / probeL1)
  simp only [Config.cursor, probeL1] at ho ⊢
  generalize cfg.offset capacity h (n / 8) = o at ho ⊢
  omega

end ProbeSequence

/-! ## Reading a map after a store -/

section Apply

variable {V : Type} (m : Map V)

theorem applyAll_nil : m.applyAll [] = m := rfl

theorem applyAll_append (xs ys : List (Store V)) :
    m.applyAll (xs ++ ys) = (m.applyAll xs).applyAll ys := List.foldl_append

end Apply

end ConcurrencyKit.Hs
