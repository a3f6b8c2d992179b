import ConcurrencyKit.Callbacks

/-!
# The map of `ck_rhs`

Data model of `src/ck_rhs.c` on a 64-bit target with 64-byte cache lines and 8-bit atomic
loads and stores: the slots with their descriptors, the probe sequence of a home slot, and
the stores of the single writer. Every change to a map, also one that no reader looks at,
is a `Store`, so that the sequential reading of an operation (apply all its stores) and
the interleaved one (one store at a time, readers in between) come from one definition.

Offsets are masked with `map->mask` or `map->offset_mask`. Both are one less than a power of
two, and the masks are written as remainders.
-/

namespace ConcurrencyKit.Rhs

/-- The word in a slot that is not `CK_RHS_EMPTY`. A packed word (`ck_rhs_marshal`,
`ck_rhs.c:855-874`) is kept as its two halves, the hash bits above `CK_MD_VMA_BITS` and the
object below; without packing the tag is zero. -/
structure Word (V : Type) where
  tag : Nat
  obj : V
  deriving DecidableEq, Repr

/-- What a hash set is created with, and what it runs on, besides its callbacks. `readMostly`
is the `CK_RHS_MODE_READ_MOSTLY` bit. `malloc n` says whether the `n`-th allocation succeeds.
`restarts` bounds how often a loop that grows the map is followed round; a call that needs
more is reported as unfinished. -/
structure Config (V : Type) extends Callbacks V where
  readMostly : Bool
  malloc : Nat → Bool
  restarts : Nat

/-- `CK_RHS_WORD_MAX` for the 8-bit probe bound. -/
def wordMax : Nat := 255

/-- `CK_RHS_G`. -/
def generations : Nat := 1024

/-- `CK_RHS_MAX_WANTED`. -/
def maxWanted : Nat := 0xffff

/-- `CK_RHS_MAX_RH`. -/
def maxRh : Nat := 512

/-- `CK_RHS_DEFAULT_LOAD_FACTOR`. -/
def defaultLoadFactor : Nat := 50

namespace Config

variable {V : Type}

/-- `map->offset_mask + 1` (`ck_rhs.c:397`, `ck_rhs.c:404`): the slots in a cache line, eight
pointers of the read-mostly layout or four descriptors of the other one. -/
def line (cfg : Config V) : Nat := if cfg.readMostly then 8 else 4

/-- `ck_rhs_marshal` (`ck_rhs.c:855-874`). -/
def marshal (cfg : Config V) (val : V) (h : BitVec 64) : Word V := ⟨cfg.tag h, val⟩

/-- A slot word the probe loop stops at as the wanted key (`ck_rhs.c:702-722`). -/
def hit [DecidableEq V] (cfg : Config V) (h : BitVec 64) (key : V) (w : Word V) : Bool :=
  w.tag == cfg.tag h && cfg.keyMatch w.obj key

end Config

/-! ## The probe sequence -/

section Sequence

variable (line capacity : Nat)

/-- `ck_rhs_map_probe_next` (`ck_rhs.c:469-481`). -/
def probeNext (offset probes : Nat) : Nat :=
  if probes % line = 0 then (offset + probes) % capacity
  else offset / line * line + (offset + 1) % line

/-- `ck_rhs_map_probe_prev` (`ck_rhs.c:483-494`). -/
def probePrev (offset probes : Nat) : Nat :=
  if probes % line = 0 then (offset + (2 ^ 64 - probes)) % capacity
  else offset / line * line + (offset + (2 ^ 64 - 1)) % line

/-- The loop of `ck_rhs_get_first_offset` (`ck_rhs.c:941-952`), which goes back one cache line
in each iteration. -/
def firstOffsetLoop : Nat → Nat → Nat → Nat
  | fuel + 1, offset, probes =>
    if line < probes then
      let offset := (offset + (2 ^ 64 - (probes - 1) / line * line)) % capacity
      let offset := offset / line * line + (offset + (2 ^ 64 - (line - 1))) % line
      firstOffsetLoop fuel offset (probes - line)
    else offset / line * line + (offset + (2 ^ 64 - dec 32 probes)) % line
  | 0, offset, probes => offset / line * line + (offset + (2 ^ 64 - dec 32 probes)) % line

/-- `ck_rhs_get_first_offset` (`ck_rhs.c:941-952`). -/
def firstOffset (offset probes : Nat) : Nat := firstOffsetLoop line capacity probes offset probes

/-- The slot read by probe number `n`, counted from zero, of a key with home slot `home`. -/
def cursor (home : Nat) : Nat → Nat
  | 0 => home
  | n + 1 => probeNext line capacity (cursor home n) (n + 1)

end Sequence

/-- `struct ck_rhs_map` (`ck_rhs.c:113-133`) with the descriptors of its slots
(`ck_rhs.c:88-101`), field by field. `mask`, `step` and `probe_limit` are functions of the
capacity, which no operation changes, `offset_mask`, `read_mostly` and `probe_func` of the
mode; `size` is only passed to the allocator. -/
structure Map (V : Type) where
  generation : Nat → Nat
  probeMaximum : Nat
  nEntries : Nat
  maxEntries : Nat
  capacity : Nat
  entries : Nat → Option (Word V)
  probes : Nat → Nat
  wanted : Nat → Nat
  probeBound : Nat → Nat
  inRh : Nat → Bool

/-- A store the writer makes to the hash set. `map` publishes a map built in private by
`ck_rhs_map_create` or `ck_rhs_grow`. -/
inductive Store (V : Type) where
  | entry (slot : Nat) (word : Option (Word V))
  | generation (cell value : Nat)
  | probeMaximum (value : Nat)
  | probeBound (home value : Nat)
  | probes (slot value : Nat)
  | wanted (slot value : Nat)
  | inRh (slot : Nat) (value : Bool)
  | nEntries (value : Nat)
  | maxEntries (value : Nat)
  | map (update : Map V)

namespace Map

variable {V : Type}

/-- `map->probe_limit` (`ck_rhs.c:376-380`). -/
def probeLimit (m : Map V) : Nat := min (max (m.capacity >>> 5) 64) (2 ^ 32 - 1)

/-- `h & map->mask`. -/
def home (m : Map V) (h : BitVec 64) : Nat := h.toNat % m.capacity

def apply (m : Map V) : Store V → Map V
  | .entry slot word => { m with entries := Function.update m.entries slot word }
  | .generation cell value => { m with generation := Function.update m.generation cell value }
  | .probeMaximum value => { m with probeMaximum := value }
  | .probeBound home value => { m with probeBound := Function.update m.probeBound home value }
  | .probes slot value => { m with probes := Function.update m.probes slot value }
  | .wanted slot value => { m with wanted := Function.update m.wanted slot value }
  | .inRh slot value => { m with inRh := Function.update m.inRh slot value }
  | .nEntries value => { m with nEntries := value }
  | .maxEntries value => { m with maxEntries := value }
  | .map update => update

def applyAll (m : Map V) (stores : List (Store V)) : Map V := stores.foldl apply m

/-- `ck_rhs_map_bound_get` (`ck_rhs.c:522-536`) for the home slot `home`. -/
def boundGet (cfg : Config V) (m : Map V) (home : Nat) : Nat :=
  if cfg.readMostly then m.probeMaximum
  else if m.probeBound home = wordMax then m.probeMaximum
  else m.probeBound home

/-- The stores of `ck_rhs_map_bound_set` (`ck_rhs.c:497-520`) for the home slot `home`. -/
def boundSet (cfg : Config V) (m : Map V) (home nProbes : Nat) : List (Store V) :=
  (if m.probeMaximum < nProbes then [.probeMaximum nProbes] else []) ++
  (if cfg.readMostly = false ∧ m.probeBound home < nProbes then
    [.probeBound home (min nProbes wordMax)] else [])

/-- The store of `ck_pr_inc_uint(&map->generation[h & CK_RHS_G_MASK])`. -/
def signal (m : Map V) (h : Nat) : Store V :=
  .generation (h % generations) (inc 32 (m.generation (h % generations)))

/-- A freshly created map (`ck_rhs_map_init`, `ck_rhs.c:367-412`) for `entries` keys. -/
def create (loadFactor entries : Nat) : Map V where
  generation := fun _ => 0
  probeMaximum := 0
  nEntries := 0
  maxEntries := mapSlots entries * loadFactor / 100
  capacity := mapSlots entries
  entries := fun _ => none
  probes := fun _ => 0
  wanted := fun _ => 0
  probeBound := fun _ => 0
  inRh := fun _ => false

end Map

/-- `struct ck_rhs` with its allocator. `allocs` counts the allocations made so far, `peak` is
the largest capacity requested or created, and `stores` lists the stores to published maps
in program order; the code keeps none of the three. -/
structure State (V : Type) where
  map : Map V
  loadFactor : Nat
  allocs : Nat
  peak : Nat
  stores : List (Store V)

namespace State

variable {V : Type}

/-- Make the given stores, one after the other. -/
def exec (hs : State V) (stores : List (Store V)) : State V :=
  { hs with map := hs.map.applyAll stores, stores := hs.stores ++ stores }

/-- `ck_rhs_map_create` (`ck_rhs.c:414-427`). -/
def create (cfg : Config V) (hs : State V) (entries : Nat) : Option (Map V) × State V :=
  (if cfg.malloc hs.allocs then some (Map.create hs.loadFactor entries) else none,
    { hs with allocs := hs.allocs + 1, peak := max hs.peak (max entries (mapSlots entries)) })

end State

end ConcurrencyKit.Rhs
