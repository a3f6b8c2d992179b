import ConcurrencyKit.Ht.Refinement
import ConcurrencyKit.Misc.Beside

/-!
# Lookups beside the writer of `ck_ht`

The writer runs its calls store by store while any number of readers run `ck_ht_get_spmc` load by
load, in a build without pointer packing. A call of the writer makes the stores that the
sequential operation lists; a store to `ht->map` publishes a new map and retires the present one,
which stays readable.

The reader loads the deletion counter before it probes and again at the end. In byte-string mode
it also compares the counter around each candidate and starts the probe over when it has changed,
without resetting its probe count.
-/

namespace ConcurrencyKit.Ht

/-! ## The memory and the writer -/

/-- The maps published so far, with the stores that the present call of the writer has still to
make. `writer` is the state its last call ends in, unless that call ran out of restarts. The code
keeps neither `bumps`, the number of changes of deletion counters so far, nor `before`, the map
when the present call began. -/
structure Memory where
  maps : Nat → Map
  current : Nat
  todo : List Store
  writer : Option State
  bumps : Nat
  before : Map

namespace Memory

/-- The memory after `ck_ht_init`. -/
def start (ht : State) : Memory where
  maps := fun _ => ht.map
  current := 0
  todo := []
  writer := some ht
  bumps := 0
  before := ht.map

/-- The writer makes one store. -/
def store (mem : Memory) (rest : List Store) : Store → Memory
  | .map update =>
    { mem with
      maps := Function.update mem.maps (mem.current + 1) update
      current := mem.current + 1
      todo := rest }
  | .deletions value =>
    { mem with
      maps := Function.update mem.maps mem.current
        ((mem.maps mem.current).apply (.deletions value))
      todo := rest
      bumps := mem.bumps + 1 }
  | st =>
    { mem with
      maps := Function.update mem.maps mem.current ((mem.maps mem.current).apply st)
      todo := rest }

/-- The writer starts a call that will end as given. -/
def begin (mem : Memory) : Except State (Result × State) → Memory
  | .ok (_, ht) =>
    { mem with todo := ht.stores, writer := some ht, before := mem.maps mem.current }
  | .error ht =>
    { mem with todo := ht.stores, writer := none, before := mem.maps mem.current }

/-- A step of the writer: the next store of its call, or the start of a call that `ok` admits. -/
inductive Write (cfg : Config) (ok : Map → Op → Prop) : Memory → Memory → Prop
  | store {mem : Memory} {st : Store} {rest : List Store} (h : mem.todo = st :: rest) :
      Write cfg ok mem (mem.store rest st)
  | call {mem : Memory} {ht : State} (op : Op) (idle : mem.todo = [])
      (ready : mem.writer = some ht) (admitted : ok (mem.maps mem.current) op) :
      Write cfg ok mem (mem.begin (step cfg { ht with stores := [] } op))

/-- The map when the present call of the writer is done. -/
def after (mem : Memory) : Map := (mem.maps mem.current).applyAll mem.todo

end Memory

/-! ## The reader -/

/-- The local variables of the probe loops of `ck_ht_map_probe_rd`: the map, the counter that
`ck_ht_get_spmc` has loaded, the probe bound, the number of slots visited since the start of the
loops, `offset`, and `probes`. -/
structure Scan where
  map : Nat
  d : Nat
  bound : Nat
  n : Nat
  offset : Nat
  probes : Nat
  deriving DecidableEq, Repr

/-- Where a lookup stands, with the values it has loaded so far. -/
inductive Pc where
  | loadMap
  | loadDeletions (map : Nat)
  | loadBound (map d probes : Nat)
  | loadMaximum (map d probes : Nat)
  | slot (sc : Scan)
  | loadKey (sc : Scan) (d : Nat)
  | loadKeyLength (sc : Scan) (d : Nat) (key : Word)
  | loadHash (sc : Scan) (d : Nat) (key keyLength : Word)
  | loadValue (sc : Scan) (d : Nat) (key keyLength hash : Word)
  | recheck (sc : Scan) (d : Nat) (snapshot : Entry)
  | leave (map d : Nat) (snapshot : Option Entry)
  | done (result : Option Entry)
  deriving DecidableEq, Repr

/-- The slot a scan is at. -/
def Scan.cursor (cfg : Config) (sc : Scan) : Nat :=
  cfg.slotAt sc.offset (sc.n % cfg.bucketLength)

/-- The start of the probe loops (`ck_ht.c:513-515`). -/
def Scan.first (m : Map) (h : Word) (map d bound probes : Nat) : Scan where
  map := map
  d := d
  bound := bound
  n := 0
  offset := m.home h
  probes := probes

/-- The next slot, after `probes++`: in the same bucket or, with `ck_ht_map_probe_next`, in the
next one. -/
def Scan.next (cfg : Config) (m : Map) (h : Word) (sc : Scan) : Scan where
  map := sc.map
  d := sc.d
  bound := sc.bound
  n := sc.n + 1
  offset := if (sc.n + 1) % cfg.bucketLength = 0 then
    cfg.probeNext m.capacity sc.offset h (sc.probes + 1) else sc.offset
  probes := sc.probes + 1

/-- The reader goes on to the next slot, or leaves the loops at the probe limit. -/
def Scan.continue (cfg : Config) (m : Map) (h : Word) (sc : Scan) : Pc :=
  if sc.n + 1 < m.probeSlots cfg then .slot (sc.next cfg m h) else .leave sc.map sc.d none

/-- What the reader does with the four words of a slot (`ck_ht.c:551-588`). -/
def Scan.judge (cfg : Config) (m : Map) (x : Entry) (sc : Scan) (d : Nat) (snapshot : Entry) :
    Pc :=
  if snapshot.key = keyTombstone then sc.continue cfg m (cfg.hashOf x)
  else if snapshot.key = keyEmpty then .leave sc.map sc.d (some snapshot)
  else if snapshot.key = cfg.keyArg x then .leave sc.map sc.d (some snapshot)
  else if cfg.mode = .bytestring ∧ cfg.entryKeyLength snapshot = cfg.lengthArg x ∧
      cfg.memoMatch (cfg.hashOf x) snapshot then .recheck sc d snapshot
  else sc.continue cfg m (cfg.hashOf x)

/-- One step of `ck_ht_get_spmc` (`ck_ht.c:775-816`) for the key of entry `x`, with at most one
load from shared memory. -/
def Pc.load (cfg : Config) (mem : Memory) (x : Entry) : Pc → Pc
  | .loadMap => .loadDeletions mem.current
  | .loadDeletions map => .loadBound map (mem.maps map).deletions 0
  | .loadBound map d probes =>
    match (mem.maps map).probeBound with
    | none =>
      .slot (.first (mem.maps map) (cfg.hashOf x) map d (mem.maps map).probeMaximum probes)
    | some b =>
      if b ((mem.maps map).home (cfg.hashOf x)) = wordMax then .loadMaximum map d probes
      else .slot (.first (mem.maps map) (cfg.hashOf x) map d
        (b ((mem.maps map).home (cfg.hashOf x))) probes)
  | .loadMaximum map d probes =>
    .slot (.first (mem.maps map) (cfg.hashOf x) map d (mem.maps map).probeMaximum probes)
  | .slot sc =>
    if sc.bound < sc.probes then .leave sc.map sc.d none
    else .loadKey sc (mem.maps sc.map).deletions
  | .loadKey sc d => .loadKeyLength sc d ((mem.maps sc.map).entries (sc.cursor cfg)).key
  | .loadKeyLength sc d key =>
    .loadHash sc d key ((mem.maps sc.map).entries (sc.cursor cfg)).keyLength
  | .loadHash sc d key keyLength =>
    .loadValue sc d key keyLength ((mem.maps sc.map).entries (sc.cursor cfg)).hash
  | .loadValue sc d key keyLength hash =>
    sc.judge cfg (mem.maps sc.map) x d
      ⟨key, ((mem.maps sc.map).entries (sc.cursor cfg)).value, keyLength, hash⟩
  | .recheck sc d snapshot =>
    if d ≠ (mem.maps sc.map).deletions then .loadBound sc.map sc.d (sc.probes + 1)
    else if cfg.memcmp (cfg.entryKey snapshot) (cfg.keyArg x) (cfg.lengthArg x).toNat then
      .leave sc.map sc.d (some snapshot)
    else sc.continue cfg (mem.maps sc.map) (cfg.hashOf x)
  | .leave map d snapshot =>
    if d ≠ (mem.maps map).deletions then .loadMap
    else .done (snapshot.bind Entry.nonempty)
  | .done result => .done result

def Pc.isDone : Pc → Bool
  | .done _ => true
  | _ => false

/-- `ck_ht_get_spmc`. The argument of a call is an entry with the key to look up. -/
def getSpmc (cfg : Config) : Beside.Program Memory Entry Pc where
  start := .loadMap
  load := Pc.load cfg
  done := Pc.isDone

/-- A call of `ck_ht_get_spmc`. -/
abbrev Get := Beside.Call Memory Entry Pc

/-! ## What a lookup owes -/

/-- The key is associated, whichever of the states before and after the call of the writer that is
going on is taken as the present one. -/
def Memory.Associated (cfg : Config) (mem : Memory) (x : Entry) : Prop :=
  (∃ e ∈ mem.after.objects, cfg.ident e = cfg.ident x) ∧
    (mem.todo = [] ∨ ∃ e ∈ mem.before.objects, cfg.ident e = cfg.ident x)

/-- The entry is in a slot of the current map, and it is an association of the table before or
after the call of the writer that is going on. -/
def Memory.Current (mem : Memory) (e : Entry) : Prop :=
  e ∈ (mem.maps mem.current).objects ∧ (e ∈ mem.before.objects ∨ e ∈ mem.after.objects)

/-- All four words belonged to one association that was current at some moment of the call. -/
def Get.Saw (c : Get) (e : Entry) : Prop := ∃ mem ∈ c.moments, mem.Current e

/-- The key is associated throughout the call. -/
def Get.Throughout (cfg : Config) (c : Get) : Prop :=
  ∀ mem ∈ c.moments, mem.Associated cfg c.key

/-- A lookup that returned an entry has returned an association of its key that was current at
some moment of the call, and one that returned nothing did so because its key was not associated
throughout the call. -/
def Get.Consistent (cfg : Config) (c : Get) (result : Option Entry) : Prop :=
  (∀ e, result = some e → c.Saw e ∧ cfg.ident e = cfg.ident c.key) ∧
    (c.Throughout cfg → result ≠ none)

/-- The counters do not run through all their values during the call. -/
def Get.Brief (c : Get) : Prop := ∀ mem ∈ c.moments, mem.bumps < c.start.bumps + 2 ^ 64

/-- No key in the table during the call has the pointer of the requested key and another
length. -/
def Get.Unaliased (cfg : Config) (c : Get) : Prop :=
  ∀ mem ∈ c.moments, (mem.maps mem.current).Fits cfg c.key

end ConcurrencyKit.Ht
