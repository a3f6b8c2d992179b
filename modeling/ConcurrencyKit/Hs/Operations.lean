import ConcurrencyKit.Hs.Map

/-!
# The operations of `ck_hs`

`ck_hs_map_probe` and the public operations of `src/ck_hs.c`, run by the single writer.
An operation maps a `State` to its result and the next `State`; what it does to published
memory is the list of stores it appends. The `restart` loops of the source grow the map
and probe again; a loop that is not done after `restarts` rounds is reported with the state
reached.
-/

namespace ConcurrencyKit.Hs

variable {V : Type} [DecidableEq V]

/-- `enum ck_hs_probe_behavior`. -/
inductive ProbeBehavior where
  | probe
  | tombstone
  | insert
  deriving DecidableEq, Repr

/-- What `ck_hs_map_probe` returns: the slot pointer and the three out parameters
`*object`, `*priority` and `*n_probes`. -/
structure ProbeResult (V : Type) where
  cursor : Option Nat
  object : Option V
  priority : Option Nat
  nProbes : Nat
  deriving DecidableEq, Repr

namespace Map

/-- The `leave` label of `ck_hs_map_probe` (`ck_hs.c:573-583`). `pr` holds the first
tombstone with its probe count. -/
def probeLeave (probes limit cursor : Nat) (object : Option V) (pr : Option (Nat × Nat)) :
    ProbeResult V where
  cursor := if limit < probes then none else some cursor
  object := if limit < probes then none else object
  priority := pr.map Prod.fst
  nProbes := (pr.map Prod.snd).getD probes

/-- The loop of `ck_hs_map_probe` (`ck_hs.c:507-571`) entered with `probes` slots read,
the limit in force, and the `past_bound` flag. -/
def probeLoop (cfg : Config V) (m : Map V) (h : BitVec 64) (key : V) (opl : Nat)
    (behavior : ProbeBehavior) :
    Nat → Nat → Nat → Bool → Option (Nat × Nat) → ProbeResult V
  | 0, probes, limit, _, pr => probeLeave (limit + probes + 1) limit 0 none pr
  | fuel + 1, probes, limit, pastBound, pr =>
    if probes = limit ∧ (limit = opl ∨ pr.isSome) then
      probeLeave (probes + 1) limit 0 none pr
    else
      -- past the probe bound only a free slot is searched for
      let pastBound := pastBound || decide (probes = limit)
      let limit := if probes = limit then opl else limit
      let cursor := cfg.cursor m.capacity h probes
      match m.entries cursor with
      | .empty => probeLeave (probes + 1) limit cursor none pr
      | .tombstone =>
        match pr with
        | some _ => probeLoop cfg m h key opl behavior fuel (probes + 1) limit pastBound pr
        | none =>
          if behavior = .tombstone ∨ pastBound then
            { cursor := none, object := none, priority := some cursor, nProbes := probes + 1 }
          else
            probeLoop cfg m h key opl behavior fuel (probes + 1) limit pastBound
              (some (cursor, probes + 1))
      | .entry tag val =>
        if cfg.hit h key (.entry tag val) then
          probeLeave (probes + 1) limit cursor (some val) pr
        else
          probeLoop cfg m h key opl behavior fuel (probes + 1) limit pastBound pr

/-- `ck_hs_map_probe` (`ck_hs.c:466-584`). -/
def probe (cfg : Config V) (m : Map V) (h : BitVec 64) (key : V) (probeLimit : Nat)
    (behavior : ProbeBehavior) : ProbeResult V :=
  let limit := if behavior = .insert then m.boundGet h else probeLimit
  probeLoop cfg m h key probeLimit behavior (probeLimit + limit + 1) 0 limit false none

/-- The stores by which an entry moves from `slot` to the earlier slot `first`
(`ck_hs.c:670-676`): the new copy, the signal, the tombstone. -/
def relocate (m : Map V) (h : BitVec 64) (first : Nat) (slot : Option Nat) (word : Slot V) :
    List (Store V) :=
  .entry first word :: m.signal h ++ storeAt slot .tombstone

/-- The stores by which `ck_hs_apply`, `ck_hs_set` and `ck_hs_put_internal` install a word
where the probe ended (`ck_hs.c:787-812`, `ck_hs.c:836-865`, `ck_hs.c:900-910`). -/
def install (m : Map V) (h : BitVec 64) (r : ProbeResult V) (word : Slot V) :
    List (Store V) :=
  m.boundSet h r.nProbes ++
  match r.priority with
  | some first =>
    if r.object.isSome then m.relocate h first r.cursor word
    else [.entry first word, .tombstones (dec 32 m.tombstones)]
  | none => storeAt r.cursor word

/-- The stores that delete the object found by a probe (`ck_hs.c:776-780`,
`ck_hs.c:980-985`). -/
def uninstall (m : Map V) (slot : Option Nat) : List (Store V) :=
  storeAt slot .tombstone ++
    [.nEntries (dec 64 m.nEntries), .tombstones (inc 32 m.tombstones)]

/-- The store that lowers `probe_maximum` after a scan (`ck_hs.c:695-696`). -/
def storeMaximum (m : Map V) (maximum : Nat) : List (Store V) :=
  if maximum = m.probeMaximum then [] else [.probeMaximum maximum]

/-- The stores that replace the probe bounds (`ck_hs.c:622-623`, `ck_hs.c:698-700`). -/
def storeBounds (m : Map V) (bounds : Option (Nat → Nat)) : List (Store V) :=
  match bounds with
  | none => []
  | some b => (List.range m.capacity).map (fun i => .probeBound i (b i))

/-- Search of `ck_hs_grow` for the first empty slot of `update` (`ck_hs.c:411-434`), with
`remaining` probes left before the probe limit. -/
def growPlace (cfg : Config V) (h : BitVec 64) (word : Slot V) :
    Nat → Map V → Option (Map V)
  | 0, _ => none
  | remaining + 1, update =>
    let probes := update.probeLimit - (remaining + 1)
    let cursor := cfg.cursor update.capacity h probes
    if update.entries cursor = .empty then
      let filled := (update.apply (.entry cursor word)).apply (.nEntries (update.nEntries + 1))
      some (filled.applyAll (filled.boundSet h (probes + 1)))
    else
      growPlace cfg h word remaining update

/-- The `k`-th iteration of the copy loop of `ck_hs_grow` (`ck_hs.c:396-441`). -/
def growCopy (cfg : Config V) (m : Map V) (update : Map V) (k : Nat) : Option (Map V) :=
  match m.entries k with
  | .entry tag val => growPlace cfg (cfg.hf val) (.entry tag val) update.probeLimit update
  | _ => some update

end Map

namespace State

/-- `ck_hs_grow` (`ck_hs.c:375-446`). Each `restart` doubles an `unsigned long`, which is
zero after 64 of them. -/
def growLoop (cfg : Config V) : Nat → Nat → State V → Bool × State V
  | 0, _, hs => (false, hs)
  | fuel + 1, capacity, hs =>
    if capacity < hs.map.capacity then (false, hs)
    else
      match hs.create cfg capacity with
      | (none, hs') => (false, hs')
      | (some update, hs') =>
        match (List.range hs.map.capacity).foldlM (hs.map.growCopy cfg) update with
        | some filled => (true, hs'.exec [.map filled])
        | none => growLoop cfg fuel (capacity * 2 % 2 ^ 64) hs'

/-- `ck_hs_grow`. -/
def grow (cfg : Config V) (hs : State V) (capacity : Nat) : Bool × State V :=
  growLoop cfg 65 capacity hs

/-- `ck_hs_rebuild` (`ck_hs.c:459-464`). -/
def rebuild (cfg : Config V) (hs : State V) : Bool × State V := hs.grow cfg hs.map.capacity

/-- `ck_hs_map_postinsert` (`ck_hs.c:448-457`). -/
def postinsert (cfg : Config V) (hs : State V) : State V :=
  let hs := hs.exec [.nEntries (hs.map.nEntries + 1)]
  if hs.map.capacity < hs.map.nEntries * 2 then (hs.grow cfg (hs.map.capacity * 2)).2 else hs

/-- The `restart` loop of `ck_hs_apply`, `ck_hs_set` and `ck_hs_put_internal`: probe for a
slot and grow the map until there is one. The result is `none` if the map cannot grow. -/
def findSlot (cfg : Config V) (h : BitVec 64) (key : V) (behavior : ProbeBehavior) :
    Nat → State V → Except (State V) (Option (ProbeResult V) × State V)
  | 0, hs => .error hs
  | fuel + 1, hs =>
    let r := hs.map.probe cfg h key hs.map.probeLimit behavior
    if r.cursor = none ∧ r.priority = none then
      match hs.grow cfg (hs.map.capacity * 2) with
      | (false, hs') => .ok (none, hs')
      | (true, hs') => findSlot cfg h key behavior fuel hs'
    else .ok (some r, hs)

/-- `ck_hs_put_internal` (`ck_hs.c:875-917`). -/
def putInternal (cfg : Config V) (hs : State V) (h : BitVec 64) (val : V)
    (behavior : ProbeBehavior) : Except (State V) (Bool × State V) := do
  match ← hs.findSlot cfg h val behavior cfg.restarts with
  | (none, hs) => return (false, hs)
  | (some r, hs) =>
    -- fail the operation if a match was found
    if r.object.isSome then return (false, hs)
    return (true, (hs.exec (hs.map.install h r (cfg.marshal val h))).postinsert cfg)

/-- `ck_hs_put` (`ck_hs.c:919-926`). -/
def put (cfg : Config V) (hs : State V) (h : BitVec 64) (val : V) :
    Except (State V) (Bool × State V) :=
  hs.putInternal cfg h val .insert

/-- `ck_hs_put_unique` (`ck_hs.c:928-935`). -/
def putUnique (cfg : Config V) (hs : State V) (h : BitVec 64) (val : V) :
    Except (State V) (Bool × State V) :=
  hs.putInternal cfg h val .tombstone

/-- `ck_hs_set` (`ck_hs.c:817-873`): the boolean result and `*previous`. -/
def set (cfg : Config V) (hs : State V) (h : BitVec 64) (val : V) :
    Except (State V) ((Bool × Option V) × State V) := do
  match ← hs.findSlot cfg h val .insert cfg.restarts with
  | (none, hs) => return ((false, none), hs)
  | (some r, hs) =>
    let hs := hs.exec (hs.map.install h r (cfg.marshal val h))
    return ((true, r.object), if r.object.isSome then hs else hs.postinsert cfg)

/-- `ck_hs_fas` (`ck_hs.c:697-729`): the boolean result and `*previous`. -/
def fas (cfg : Config V) (hs : State V) (h : BitVec 64) (val : V) :
    (Bool × Option V) × State V :=
  let r := hs.map.probe cfg h val (hs.map.boundGet h) .probe
  match r.object with
  | none => ((false, none), hs)
  | some object =>
    let word := cfg.marshal val h
    ((true, some object), hs.exec <| match r.priority with
      | some first => hs.map.relocate h first r.cursor word
      | none => Map.storeAt r.cursor word)

/-- `ck_hs_apply` (`ck_hs.c:743-815`) with the apply function `fn` at its closure. -/
def apply (cfg : Config V) (hs : State V) (h : BitVec 64) (key : V)
    (fn : Option V → Option V) : Except (State V) (Bool × State V) := do
  match ← hs.findSlot cfg h key .insert cfg.restarts with
  | (none, hs) => return (false, hs)
  | (some r, hs) =>
    match fn r.object with
    | none =>
      -- deletion was requested
      if r.object.isSome then return (true, hs.exec (hs.map.uninstall r.cursor))
      return (true, hs)
    | some delta =>
      if r.object = some delta then return (true, hs)
      let hs := hs.exec (hs.map.install h r (cfg.marshal delta h))
      return (true, if r.object.isSome then hs else hs.postinsert cfg)

/-- `ck_hs_get` (`ck_hs.c:937-966`) with no concurrent writer, where one pass suffices. -/
def get (cfg : Config V) (hs : State V) (h : BitVec 64) (key : V) : Option V :=
  (hs.map.probe cfg h key (hs.map.boundGet h) .probe).object

/-- `ck_hs_remove` (`ck_hs.c:968-986`). -/
def remove (cfg : Config V) (hs : State V) (h : BitVec 64) (key : V) : Option V × State V :=
  let r := hs.map.probe cfg h key (hs.map.boundGet h) .probe
  match r.object with
  | none => (none, hs)
  | some object => (some object, hs.exec (hs.map.uninstall r.cursor))

/-- The local variables of `ck_hs_gc`. -/
structure GcLocals where
  cycles : Nat
  maximum : Nat
  bounds : Option (Nat → Nat)

/-- The bookkeeping of a full scan for an entry now at probe `nProbes` of the home slot
`offset` (`ck_hs.c:679-686`). -/
def GcLocals.record (l : GcLocals) (offset nProbes : Nat) : GcLocals where
  cycles := l.cycles
  maximum := max l.maximum nProbes
  bounds := l.bounds.map (fun b => Function.update b offset (max (b offset) (min nProbes wordMax)))

/-- The scan of `ck_hs_gc` (`ck_hs.c:644-689`) over the last `remaining` of the map's
slots, counted from `seed`. -/
def gcLoop (cfg : Config V) (seed : Nat) : Nat → GcLocals → State V → GcLocals × State V
  | 0, l, hs => (l, hs)
  | remaining + 1, l, hs =>
    let i := hs.map.capacity - (remaining + 1)
    match hs.map.entries ((i + seed) &&& (hs.map.capacity - 1)) with
    | .entry _ entry =>
      let h := cfg.hf entry
      let r := hs.map.probe cfg h entry (hs.map.boundGet h) .probe
      let hs' := match r.priority with
        | some first => hs.exec (hs.map.relocate h first r.cursor (cfg.marshal entry h))
        | none => hs
      if l.cycles = 0 then gcLoop cfg seed remaining (l.record (hs.map.home h) r.nProbes) hs'
      else if l.cycles = 1 then ({ l with cycles := 0 }, hs')
      else gcLoop cfg seed remaining { l with cycles := l.cycles - 1 } hs'
    | _ => gcLoop cfg seed remaining l hs

/-- `ck_hs_gc` (`ck_hs.c:608-695`). -/
def gc (cfg : Config V) (hs : State V) (cycles seed : Nat) : Bool × State V :=
  if hs.map.nEntries = 0 then
    (true, hs.exec (.probeMaximum 0 ::
      hs.map.storeBounds (hs.map.probeBound.map (fun _ => fun _ => 0))))
  else if cycles = 0 ∧ hs.map.probeBound.isSome then
    let hs' := { hs with allocs := hs.allocs + 1 }
    if cfg.malloc hs.allocs then
      let (l, hs) := gcLoop cfg seed hs.map.capacity ⟨0, 0, some (fun _ => 0)⟩ hs'
      let hs := hs.exec (hs.map.storeMaximum l.maximum)
      (true, hs.exec (hs.map.storeBounds l.bounds))
    else (false, hs')
  else
    let maximum := if cycles = 0 then 0 else hs.map.probeMaximum
    let (l, hs) := gcLoop cfg seed hs.map.capacity ⟨cycles, maximum, none⟩ hs
    (true, hs.exec (hs.map.storeMaximum l.maximum))

/-- `ck_hs_reset` (`ck_hs.c:282-308`). -/
def reset (cfg : Config V) (hs : State V) : Bool × State V :=
  match hs.create cfg hs.map.capacity with
  | (none, hs) => (false, hs)
  | (some map, hs) => (true, hs.exec [.map map])

end State

/-- `ck_hs_init` (`ck_hs.c:1063-1083`) for `entries` keys; the options are well formed. -/
def init (cfg : Config V) (entries : Nat) : Option (State V) :=
  if cfg.malloc 0 then
    some { map := Map.create cfg entries, allocs := 1,
           peak := max entries (mapSlots entries), stores := [] }
  else none

/-! ## Calls -/

/-- A call of the public interface. Every key is passed with its hash value. -/
inductive Op (V : Type) where
  | put (val : V)
  | putUnique (val : V)
  | set (val : V)
  | fas (val : V)
  | apply (key : V) (fn : Option V → Option V)
  | remove (key : V)
  | get (key : V)
  | grow (capacity : Nat)
  | rebuild
  | gc (cycles seed : Nat)
  | reset

/-- The result of a call: the returned truth value, or `true` for a returned object, with the
object that was returned or stored in `*previous`. -/
structure Result (V : Type) where
  ok : Bool
  object : Option V
  deriving DecidableEq, Repr

/-- One call. -/
def step (cfg : Config V) (hs : State V) : Op V → Except (State V) (Result V × State V)
  | .put val => do
    let (ok, hs) ← hs.put cfg (cfg.hf val) val
    return (⟨ok, none⟩, hs)
  | .putUnique val => do
    let (ok, hs) ← hs.putUnique cfg (cfg.hf val) val
    return (⟨ok, none⟩, hs)
  | .set val => do
    let ((ok, previous), hs) ← hs.set cfg (cfg.hf val) val
    return (⟨ok, previous⟩, hs)
  | .fas val =>
    let ((ok, previous), hs) := hs.fas cfg (cfg.hf val) val
    .ok (⟨ok, previous⟩, hs)
  | .apply key fn => do
    let (ok, hs) ← hs.apply cfg (cfg.hf key) key fn
    return (⟨ok, none⟩, hs)
  | .remove key =>
    let (object, hs) := hs.remove cfg (cfg.hf key) key
    .ok (⟨true, object⟩, hs)
  | .get key => .ok (⟨true, hs.get cfg (cfg.hf key) key⟩, hs)
  | .grow capacity =>
    let (ok, hs) := hs.grow cfg capacity
    .ok (⟨ok, none⟩, hs)
  | .rebuild =>
    let (ok, hs) := hs.rebuild cfg
    .ok (⟨ok, none⟩, hs)
  | .gc cycles seed =>
    let (ok, hs) := hs.gc cfg cycles seed
    .ok (⟨ok, none⟩, hs)
  | .reset =>
    let (ok, hs) := hs.reset cfg
    .ok (⟨ok, none⟩, hs)

/-- A sequence of calls, with the results in order. -/
def run (cfg : Config V) : State V → List (Op V) → Except (State V) (List (Result V) × State V)
  | hs, [] => .ok ([], hs)
  | hs, op :: ops => do
    let (r, hs) ← step cfg hs op
    let (rs, hs) ← run cfg hs ops
    return (r :: rs, hs)

end ConcurrencyKit.Hs
