import ConcurrencyKit.Ht.Map

/-!
# The operations of `ck_ht`

The two probe functions and the public operations of `src/ck_ht.c`, run by the single writer.
An operation maps a `State` to its result and the next `State`; what it does to published
memory is the list of stores it appends. The loops that grow the map and probe again are
followed round `restarts` times; a call that is not done then is reported with the state
reached.
-/

namespace ConcurrencyKit.Ht

/-- What `ck_ht_map_probe_wr` returns: the slot pointer and its out parameters `*snapshot`,
`*available`, `*probe_limit` and `*probe_wr`. The snapshot is taken only of a slot that was
found, and `*probe_wr` is read only after a tombstone or by `ck_ht_gc`. -/
structure ProbeResult where
  cursor : Option Nat
  snapshot : Entry
  available : Option Nat
  probes : Nat
  probesWr : Nat
  deriving DecidableEq, Repr

namespace Map

/-- The `leave` label of `ck_ht_map_probe_wr` (`ck_ht.c:365-379`). `first` holds the first
tombstone with its probe count. -/
def probeLeave (m : Map) (cursor : Option Nat) (probes : Nat) (first : Option (Nat × Nat)) :
    ProbeResult where
  cursor := cursor
  snapshot := (cursor.map m.entries).getD .zero
  available := first.map Prod.fst
  probes := probes
  probesWr := (first.map Prod.snd).getD probes

/-- The loops of `ck_ht_map_probe_wr` (`ck_ht.c:299-363`) with `remaining` slots to read and
`probes` read so far. A probe count above the limit leaves the inner loop only: what is left of
the outer loop reads nothing and counts one probe in each round. -/
def probeWrLoop (cfg : Config) (m : Map) (h key : Word) (keyLength : BitVec 16) (limit : Nat) :
    Nat → Nat → Option (Nat × Nat) → ProbeResult
  | 0, probes, first => m.probeLeave none probes first
  | remaining + 1, probes, first =>
    if limit < probes then
      m.probeLeave none (probes + (m.probeLimit cfg - probes / cfg.bucketLength)) first
    else
      let cursor := cfg.cursor m.capacity h probes
      let entry := m.entries cursor
      if entry.key = keyTombstone then
        probeWrLoop cfg m h key keyLength limit remaining (probes + 1)
          (first.or (some (cursor, probes + 1)))
      else if entry.key = keyEmpty ∨ cfg.keyMatch h key keyLength entry then
        m.probeLeave (some cursor) (probes + 1) first
      else
        probeWrLoop cfg m h key keyLength limit remaining (probes + 1) first

/-- `ck_ht_map_probe_wr` (`ck_ht.c:276-380`) for the key of entry `x`. -/
def probeWr (cfg : Config) (m : Map) (h : Word) (x : Entry) (limit : Nat) : ProbeResult :=
  m.probeWrLoop cfg h (cfg.keyArg x) (cfg.lengthArg x) limit (m.probeSlots cfg) 0 none

/-- The loops of `ck_ht_map_probe_rd` (`ck_ht.c:516-592`) with no concurrent writer, where the
deletion counter does not change. -/
def probeRdLoop (cfg : Config) (m : Map) (h key : Word) (keyLength : BitVec 16) (limit : Nat) :
    Nat → Nat → Option (Nat × Entry)
  | 0, _ => none
  | remaining + 1, probes =>
    if limit < probes then none
    else
      let cursor := cfg.cursor m.capacity h probes
      let snapshot := m.entries cursor
      if snapshot.key = keyTombstone then
        probeRdLoop cfg m h key keyLength limit remaining (probes + 1)
      else if snapshot.key = keyEmpty ∨ cfg.keyMatch h key keyLength snapshot then
        some (cursor, snapshot)
      else
        probeRdLoop cfg m h key keyLength limit remaining (probes + 1)

/-- `ck_ht_map_probe_rd` (`ck_ht.c:493-598`) for the key of entry `x`: the slot and the
snapshot. -/
def probeRd (cfg : Config) (m : Map) (h : Word) (x : Entry) : Option (Nat × Entry) :=
  m.probeRdLoop cfg h (cfg.keyArg x) (cfg.lengthArg x) (m.boundGet h) (m.probeSlots cfg) 0

/-- The counter change before a tombstone is used again (`ck_ht.c:883-886`,
`ck_ht.c:910-913`). -/
def bumpReuse (m : Map) (slot : Nat) : List Store :=
  if (m.entries slot).key = keyTombstone then [m.bump] else []

/-- The counter change before the old copy of an entry becomes a tombstone, and the tombstone
(`ck_ht.c:448-451`, `ck_ht.c:897-901`), after the stores `sts`. -/
def retire (m : Map) (sts : List Store) (slot : Nat) : List Store :=
  [(m.applyAll sts).bump, .key slot keyTombstone]

/-- The stores by which `ck_ht_gc` moves an entry from `slot` to the earlier slot `priority`
(`ck_ht.c:438-452`). -/
def gcMove (cfg : Config) (m : Map) (priority slot : Nat) : List Store :=
  let sts := m.bump :: storeEntry cfg priority (m.entries slot)
  sts ++ m.retire sts slot

/-- The stores by which `ck_ht_set_spmc` moves an entry from `slot` to the earlier slot
`priority` (`ck_ht.c:867-901`). The memoized words are stored before the counter changes. -/
def setMove (cfg : Config) (m : Map) (priority slot : Nat) (e : Entry) : List Store :=
  let sts := storeMemo cfg priority e ++ (m.bumpReuse priority ++ storePair priority e)
  sts ++ m.retire sts slot

/-- The stores of `ck_ht_set_spmc` to the slots and to `n_entries` (`ck_ht.c:846-934`). -/
def setStores (cfg : Config) (m : Map) (e : Entry) (r : ProbeResult) : List Store :=
  match r.cursor.or r.available with
  | none => []
  | some candidate =>
    let count := if (m.entries candidate).live then [] else [.nEntries (m.nEntries + 1)]
    match r.available with
    | some priority =>
      if (m.entries candidate).key ≠ keyEmpty ∧ candidate ≠ priority then
        m.setMove cfg priority candidate e
      else m.bumpReuse priority ++ (storeEntry cfg priority e ++ count)
    | none => storeEntry cfg candidate e ++ count

/-- The stores of `ck_ht_put_spmc` (`ck_ht.c:988-1016`). -/
def putStores (cfg : Config) (m : Map) (h : Word) (e : Entry) (r : ProbeResult) : List Store :=
  match r.available, r.cursor with
  | some priority, _ =>
    m.bump :: (m.boundSet h r.probesWr ++
      (storeEntry cfg priority e ++ [.nEntries (m.nEntries + 1)]))
  | none, some candidate =>
    m.boundSet h r.probes ++ (storeEntry cfg candidate e ++ [.nEntries (m.nEntries + 1)])
  | none, none => []

/-- The store that lowers `probe_maximum` after a scan (`ck_ht.c:466-467`). -/
def storeMaximum (m : Map) (maximum : Nat) : List Store :=
  if maximum = m.probeMaximum then [] else [.probeMaximum maximum]

/-- The stores that replace the probe bounds (`ck_ht.c:391-392`, `ck_ht.c:469-474`). -/
def storeBounds (m : Map) (bounds : Option (Nat → Nat)) : List Store :=
  match bounds with
  | none => []
  | some b => (List.range m.capacity).map (fun i => .probeBound i (b i))

/-- Search of `ck_ht_grow_spmc` for the first empty slot of `update` (`ck_ht.c:695-719`), with
`remaining` probes left before the probe limit. -/
def growPlace (cfg : Config) (h : Word) (e : Entry) : Nat → Map → Option Map
  | 0, _ => none
  | remaining + 1, update =>
    let probes := update.probeSlots cfg - (remaining + 1)
    let cursor := cfg.cursor update.capacity h probes
    if (update.entries cursor).key = keyEmpty then
      let filled := (update.put cursor e).apply (.nEntries (update.nEntries + 1))
      some (filled.applyAll (filled.boundSet h (probes + 1)))
    else
      growPlace cfg h e remaining update

/-- The `k`-th iteration of the copy loop of `ck_ht_grow_spmc` (`ck_ht.c:666-730`). -/
def growCopy (cfg : Config) (m : Map) (update : Map) (k : Nat) : Option Map :=
  if (m.entries k).live then
    growPlace cfg (cfg.entryHash (m.entries k)) (m.entries k) (update.probeSlots cfg) update
  else some update

end Map

namespace State

/-- `ck_ht_grow_spmc` (`ck_ht.c:645-741`). Each `restart` doubles a 64-bit capacity, which is
zero after 64 of them. -/
def growLoop (cfg : Config) : Nat → Nat → State → Bool × State
  | 0, _, ht => (false, ht)
  | fuel + 1, capacity, ht =>
    if capacity ≤ ht.map.capacity then (false, ht)
    else
      match ht.create cfg capacity with
      | (none, ht') => (false, ht')
      | (some update, ht') =>
        match (List.range ht.map.capacity).foldlM (ht.map.growCopy cfg) update with
        | some filled => (true, ht'.exec [.map filled])
        | none => growLoop cfg fuel (capacity * 2 % 2 ^ 64) ht'

/-- `ck_ht_grow_spmc`. -/
def grow (cfg : Config) (ht : State) (capacity : Nat) : Bool × State :=
  growLoop cfg 65 capacity ht

/-- The load factor of one half is enforced (`ck_ht.c:938-940`, `ck_ht.c:1018-1020`). -/
def enforceLoad (cfg : Config) (ht : State) : State :=
  if ht.map.capacity < ht.map.nEntries * 2 then (ht.grow cfg (ht.map.capacity * 2)).2 else ht

/-- The loop of `ck_ht_set_spmc` and `ck_ht_put_spmc` (`ck_ht.c:828-852`, `ck_ht.c:958-977`):
probe for a slot and grow the map until there is one. The result is `none` if the map cannot
grow. -/
def findSlot (cfg : Config) (h : Word) (x : Entry) :
    Nat → State → Except State (Option ProbeResult × State)
  | 0, ht => .error ht
  | fuel + 1, ht =>
    let r := ht.map.probeWr cfg h x typeMax
    if r.cursor = none ∧ r.available = none then
      match ht.grow cfg (ht.map.capacity * 2) with
      | (false, ht') => .ok (none, ht')
      | (true, ht') => findSlot cfg h x fuel ht'
    else .ok (some r, ht)

/-- `ck_ht_put_spmc` (`ck_ht.c:948-1023`). -/
def put (cfg : Config) (ht : State) (h : Word) (e : Entry) : Except State (Bool × State) := do
  match ← ht.findSlot cfg h e cfg.restarts with
  | (none, ht) => return (false, ht)
  | (some r, ht) =>
    -- a slot that was found and is not empty holds the key
    if r.cursor ≠ none ∧ r.snapshot.key ≠ keyEmpty then return (false, ht)
    return (true, (ht.exec (ht.map.putStores cfg h e r)).enforceLoad cfg)

/-- `ck_ht_set_spmc` (`ck_ht.c:818-946`): the result and `*entry`. -/
def set (cfg : Config) (ht : State) (h : Word) (e : Entry) :
    Except State ((Bool × Entry) × State) := do
  match ← ht.findSlot cfg h e cfg.restarts with
  | (none, ht) => return ((false, e), ht)
  | (some r, ht) =>
    let probes := if r.available.isSome then r.probesWr else r.probes
    let ht := ht.exec (ht.map.setStores cfg e r ++ ht.map.boundSet h probes)
    let entry := if r.cursor = none then { e with key := keyEmpty } else r.snapshot
    return ((true, entry), ht.enforceLoad cfg)

/-- `ck_ht_get_spmc` (`ck_ht.c:775-816`) with no concurrent writer, where one pass suffices. -/
def get (cfg : Config) (ht : State) (h : Word) (x : Entry) : Option Entry :=
  match ht.map.probeRd cfg h x with
  | none => none
  | some (_, snapshot) => if snapshot.key = keyEmpty then none else some snapshot

/-- `ck_ht_remove_spmc` (`ck_ht.c:743-773`): `*entry` if it returns true. -/
def remove (cfg : Config) (ht : State) (h : Word) (x : Entry) : Option Entry × State :=
  match ht.map.probeRd cfg h x with
  | none => (none, ht)
  | some (candidate, snapshot) =>
    if snapshot.key = keyEmpty then (none, ht)
    else (some snapshot,
      ht.exec [.key candidate keyTombstone, .nEntries (dec 64 ht.map.nEntries)])

/-- The local variables of `ck_ht_gc`. -/
structure GcLocals where
  cycles : Nat
  maximum : Nat
  bounds : Option (Nat → Nat)

/-- The bookkeeping of a full scan for an entry now at probe `probes` of the home slot `offset`
(`ck_ht.c:454-462`). -/
def GcLocals.record (l : GcLocals) (offset probes : Nat) : GcLocals where
  cycles := l.cycles
  maximum := max l.maximum probes
  bounds := l.bounds.map (fun b => Function.update b offset (max (b offset) (min probes wordMax)))

/-- The scan of `ck_ht_gc` (`ck_ht.c:411-465`) over the last `remaining` of the map's slots,
counted from `seed`. -/
def gcLoop (cfg : Config) (seed : Nat) : Nat → GcLocals → State → GcLocals × State
  | 0, l, ht => (l, ht)
  | remaining + 1, l, ht =>
    let i := ht.map.capacity - (remaining + 1)
    let entry := ht.map.entries ((i + seed) &&& (ht.map.capacity - 1))
    if entry.live then
      let h := cfg.entryHash entry
      let r := ht.map.probeWr cfg h entry (ht.map.boundGet h)
      let ht' := match r.available, r.cursor with
        | some priority, some slot => ht.exec (ht.map.gcMove cfg priority slot)
        | _, _ => ht
      if l.cycles = 0 then gcLoop cfg seed remaining (l.record (ht.map.home h) r.probesWr) ht'
      else if l.cycles = 1 then ({ l with cycles := 0 }, ht')
      else gcLoop cfg seed remaining { l with cycles := l.cycles - 1 } ht'
    else gcLoop cfg seed remaining l ht

/-- `ck_ht_gc` (`ck_ht.c:382-491`). -/
def gc (cfg : Config) (ht : State) (cycles seed : Nat) : Bool × State :=
  if ht.map.nEntries = 0 then
    (true, ht.exec (.probeMaximum 0 ::
      ht.map.storeBounds (ht.map.probeBound.map (fun _ => fun _ => 0))))
  else if cycles = 0 ∧ ht.map.probeBound.isSome then
    let ht' := { ht with allocs := ht.allocs + 1 }
    if cfg.malloc ht.allocs then
      let (l, ht) := gcLoop cfg seed ht.map.capacity ⟨0, 0, some (fun _ => 0)⟩ ht'
      let ht := ht.exec (ht.map.storeMaximum l.maximum)
      (true, ht.exec (ht.map.storeBounds l.bounds))
    else (false, ht')
  else
    let maximum := if cycles = 0 then 0 else ht.map.probeMaximum
    let (l, ht) := gcLoop cfg seed ht.map.capacity ⟨cycles, maximum, none⟩ ht
    (true, ht.exec (ht.map.storeMaximum l.maximum))

/-- `ck_ht_reset_spmc` (`ck_ht.c:620-643`). -/
def reset (cfg : Config) (ht : State) : Bool × State :=
  match ht.create cfg ht.map.capacity with
  | (none, ht) => (false, ht)
  | (some map, ht) => (true, ht.exec [.map map])

/-- `ck_ht_count` (`ck_ht.c:600-606`). -/
def count (ht : State) : Nat := ht.map.nEntries

end State

/-- `ck_ht_init` (`ck_ht.c:245-274`) for `entries` keys; the allocator is well formed. -/
def init (cfg : Config) (entries : Nat) : Option State :=
  if cfg.malloc 0 then
    some { map := Map.create cfg entries, allocs := 1,
           peak := max entries (slotsFor cfg.bucketLength entries), stores := [] }
  else none

/-! ## Calls -/

/-- What a caller passes: a key, its length in byte-string mode, a value where one is stored, and
in `rest` what its entry held as `key_length`, which direct mode does not set. -/
structure Request where
  key : Word
  length : BitVec 16
  value : Word
  rest : Word
  deriving DecidableEq, Repr

/-- The entry of a call, set up by `ck_ht_entry_set_direct` or `ck_ht_entry_set` with the hash
value of its key. -/
def Config.entryOf (cfg : Config) (r : Request) : Entry :=
  match cfg.mode with
  | .direct => cfg.entrySetDirect r.rest (cfg.h (wordBytes r.key)) r.key r.value
  | .bytestring =>
    cfg.entrySet (cfg.h (cfg.string r.key r.length.toNat)) r.key r.length r.value

/-- A call of the public interface. Every key is passed with its hash value. -/
inductive Op where
  | put (r : Request)
  | set (r : Request)
  | get (r : Request)
  | remove (r : Request)
  | gc (cycles seed : Nat)
  | grow (capacity : Nat)
  | reset
  deriving DecidableEq, Repr

/-- The result of a call: the returned truth value, and the entry that was found or replaced. -/
structure Result where
  ok : Bool
  entry : Option Entry
  deriving DecidableEq, Repr

/-- The entry left by `ck_ht_set_spmc`, as far as `ck_ht_entry_empty` (`ck_ht.h:128-133`) does
not call it empty. -/
def Entry.nonempty (e : Entry) : Option Entry := if e.key = keyEmpty then none else some e

/-- One call. -/
def step (cfg : Config) (ht : State) : Op → Except State (Result × State)
  | .put r => do
    let (ok, ht) ← ht.put cfg (cfg.hashOf (cfg.entryOf r)) (cfg.entryOf r)
    return (⟨ok, none⟩, ht)
  | .set r => do
    let ((ok, entry), ht) ← ht.set cfg (cfg.hashOf (cfg.entryOf r)) (cfg.entryOf r)
    return (⟨ok, if ok then entry.nonempty else none⟩, ht)
  | .get r =>
    let entry := ht.get cfg (cfg.hashOf (cfg.entryOf r)) (cfg.entryOf r)
    .ok (⟨entry.isSome, entry⟩, ht)
  | .remove r =>
    let (entry, ht) := ht.remove cfg (cfg.hashOf (cfg.entryOf r)) (cfg.entryOf r)
    .ok (⟨entry.isSome, entry⟩, ht)
  | .gc cycles seed =>
    let (ok, ht) := ht.gc cfg cycles seed
    .ok (⟨ok, none⟩, ht)
  | .grow capacity =>
    let (ok, ht) := ht.grow cfg capacity
    .ok (⟨ok, none⟩, ht)
  | .reset =>
    let (ok, ht) := ht.reset cfg
    .ok (⟨ok, none⟩, ht)

/-- A sequence of calls, with the results in order. -/
def run (cfg : Config) : State → List Op → Except State (List Result × State)
  | ht, [] => .ok ([], ht)
  | ht, op :: ops => do
    let (r, ht) ← step cfg ht op
    let (rs, ht) ← run cfg ht ops
    return (r :: rs, ht)

end ConcurrencyKit.Ht
