import ConcurrencyKit.Rhs.Map

/-!
# The operations of `ck_rhs`

The probe function, Robin Hood insertion, backward-shift deletion and the public operations
of `src/ck_rhs.c`, run by the single writer. An operation maps a `State` to its result and
the next `State`; what it does to published memory is the list of stores it appends. The
`restart` loops of the source grow the map and probe again; a loop that is not done after
`restarts` rounds is reported with the state reached. The other loops carry a count that
is enough for them to end by themselves.
-/

namespace ConcurrencyKit.Rhs

variable {V : Type} [DecidableEq V]

/-! ## Probing -/

/-- `enum ck_rhs_probe_behavior`. -/
inductive ProbeBehavior where
  | probe
  | rh
  | insert
  | robinHood
  | robinHoodNoRelocate
  | noRh
  deriving DecidableEq, Repr

namespace ProbeBehavior

/-- Whether a probe looks for a slot that a Robin Hood insertion may take
(`ck_rhs.c:683-684`). -/
def picks : ProbeBehavior → Bool
  | .noRh | .robinHoodNoRelocate => false
  | _ => true

/-- Whether a probe ends at the first such slot (`ck_rhs.c:692-696`). -/
def stops : ProbeBehavior → Bool
  | .rh | .robinHood => true
  | _ => false

end ProbeBehavior

/-- What the probe function returns: the slot, `none` for `-1`, and the three out parameters
`*priority`, `*object` and `*n_probes`. -/
structure ProbeResult (V : Type) where
  slot : Option Nat
  first : Option Nat
  object : Option V
  nProbes : Nat
  deriving DecidableEq, Repr

namespace Map

/-- The `leave` label of the probe function (`ck_rhs.c:726-736`). `pr` holds the slot picked
for a Robin Hood insertion with its probe count. -/
def probeLeave (probes limit offset : Nat) (object : Option V) (pr : Option (Nat × Nat)) :
    ProbeResult V where
  slot := if limit < probes then none else some offset
  first := pr.map Prod.fst
  object := if limit < probes then none else object
  nProbes := (pr.map Prod.snd).getD probes

/-- The test by which a probe that has read `probes` slots picks the last one for a Robin Hood
insertion (`ck_rhs.c:683-688`). -/
def picked (m : Map V) (behavior : ProbeBehavior) (offset probes : Nat)
    (pr : Option (Nat × Nat)) : Bool :=
  behavior.picks && pr.isNone && !m.inRh offset && decide (m.probes offset < probes)

/-- The loop of `ck_rhs_map_probe` and `ck_rhs_map_probe_rm` (`ck_rhs.c:668-725`,
`ck_rhs.c:784-842`), entered with `probes` slots read and the limit in force. `hit` is the
test for the key. -/
def probeLoop (cfg : Config V) (m : Map V) (hit : Word V → Bool) (opl : Nat)
    (behavior : ProbeBehavior) :
    Nat → Nat → Nat → Nat → Option (Nat × Nat) → ProbeResult V
  | 0, offset, probes, limit, pr => probeLeave (limit + probes + 1) limit offset none pr
  | fuel + 1, offset, probes, limit, pr =>
    if probes = limit ∧ (limit = opl ∨ pr.isSome) then
      probeLeave (probes + 1) limit offset none pr
    else
      -- no eligible slot yet: continue with the original probe limit
      let limit := if probes = limit then opl else limit
      match m.entries offset with
      | none => probeLeave (probes + 1) limit offset none pr
      | some w =>
        let pick := m.picked behavior offset (probes + 1) pr
        let pr := if pick then some (offset, probes + 1) else pr
        if pick ∧ behavior.stops then probeLeave (probes + 1) limit offset none pr
        else if hit w then
          probeLeave (probes + 1) limit offset (some w.obj) pr
        else
          probeLoop cfg m hit opl behavior fuel
            (probeNext cfg.line m.capacity offset (probes + 1)) (probes + 1) limit pr

/-- The limit a probe starts with. `ck_rhs_map_probe` lowers it to the probe bound for an
insertion (`ck_rhs.c:781-782`), which `ck_rhs_map_probe_rm` does not. -/
def startLimit (cfg : Config V) (m : Map V) (h : BitVec 64) (probeLimit : Nat)
    (behavior : ProbeBehavior) : Nat :=
  if behavior = .insert ∧ cfg.readMostly = false then m.boundGet cfg (m.home h) else probeLimit

/-- `ck_rhs_map_probe` and `ck_rhs_map_probe_rm` (`ck_rhs.c:624-737`, `ck_rhs.c:739-854`) for
a key, from its home slot. -/
def probe (cfg : Config V) (m : Map V) (h : BitVec 64) (key : V) (probeLimit : Nat)
    (behavior : ProbeBehavior) : ProbeResult V :=
  let limit := m.startLimit cfg h probeLimit behavior
  probeLoop cfg m (cfg.hit h key) probeLimit behavior (probeLimit + limit + 1) (m.home h) 0
    limit none

/-- The probe function for the entry in slot `priority` that was stored with `nProbes` probes:
it goes on from there (`ck_rhs.c:660-665`), and no key is compared (`ck_rhs.c:699-700`). -/
def probeFrom (cfg : Config V) (m : Map V) (priority nProbes : Nat) (behavior : ProbeBehavior) :
    ProbeResult V :=
  probeLoop cfg m (fun _ => false) m.probeLimit behavior (m.probeLimit + 1)
    (probeNext cfg.line m.capacity priority nProbes) nProbes m.probeLimit none

/-! ## Growing -/

/-- The inner loop of `ck_rhs_grow` (`ck_rhs.c:569-610`): file the word `prevSaved` with hash
value `h` in `update`, at `offset` with `probes` slots read. -/
def growInsert (cfg : Config V) :
    Nat → Word V → BitVec 64 → Nat → Nat → Map V → Option (Map V)
  | 0, _, _, _, _, _ => none
  | fuel + 1, prevSaved, h, offset, probes, update =>
    -- the map needs to be even larger
    if probes = update.probeLimit then none
    else
      match update.entries offset with
      | none =>
        let filled := update.applyAll [.entry offset (some prevSaved),
          .nEntries (update.nEntries + 1), .probes offset (probes + 1)]
        some (filled.applyAll (filled.boundSet cfg (update.home h) (probes + 1)))
      | some w =>
        if update.probes offset < probes + 1 then
          let swapped := update.apply (.entry offset (some prevSaved))
          let swapped := swapped.applyAll (swapped.boundSet cfg (update.home h) (probes + 1))
          let swapped := swapped.apply (.probes offset (probes + 1))
          growInsert cfg fuel w (cfg.hf w.obj) offset (update.probes offset - 1) swapped
        else
          growInsert cfg fuel prevSaved h (probeNext cfg.line update.capacity offset (probes + 1))
            (probes + 1) (update.apply (.wanted offset (inc 16 (update.wanted offset))))

/-- A count that `growInsert` does not use up: an entry that is put aside goes on from where it
was, so that each slot is taken at most once for each probe count. -/
def growFuel (update : Map V) : Nat := 2 * ((update.capacity + 1) * (update.probeLimit + 1))

/-- The `k`-th iteration of the copy loop of `ck_rhs_grow` (`ck_rhs.c:552-612`). -/
def growCopy (cfg : Config V) (m : Map V) (update : Map V) (k : Nat) : Option (Map V) :=
  match m.entries k with
  | none => some update
  | some w =>
    update.growInsert cfg update.growFuel w (cfg.hf w.obj) (update.home (cfg.hf w.obj)) 0

/-! ## Reading for a deletion -/

/-- The inner search of `ck_rhs_do_backward_shift_delete` (`ck_rhs.c:1071-1078`) from `offset`,
which is at probe index `probe`: an entry stored with one probe more. -/
def successorFrom (cfg : Config V) (m : Map V) : Nat → Nat → Nat → Option (Nat × Nat)
  | 0, _, _ => none
  | remaining + 1, probe, offset =>
    if m.probes offset = probe + 1 then some (probe, offset)
    else m.successorFrom cfg remaining (probe + 1)
      (probeNext cfg.line m.capacity offset (probe + 1))

/-- The search for an entry that can be moved back to `slot` (`ck_rhs.c:1068-1082`), with
`remaining` values of `wanted_probes` left. The result is `wanted_probes`, `probe` and
`offset`. -/
def successorLoop (cfg : Config V) (m : Map V) (slot : Nat) : Nat → Nat → Option (Nat × Nat × Nat)
  | 0, _ => none
  | remaining + 1, wantedProbes =>
    match m.successorFrom cfg (m.probeMaximum - wantedProbes) wantedProbes
        (probeNext cfg.line m.capacity slot wantedProbes) with
    | some (probe, offset) => some (wantedProbes, probe, offset)
    | none => m.successorLoop cfg slot remaining (wantedProbes + 1)

/-- The successor of `slot`, if it has one. -/
def successor (cfg : Config V) (m : Map V) (slot : Nat) : Option (Nat × Nat × Nat) :=
  m.successorLoop cfg slot (m.probeMaximum - 1) 1

/-- The loop that looks for another slot with home `h` (`ck_rhs.c:1107-1114`): the value of
`probe` at its end. -/
def scanHome (cfg : Config V) (m : Map V) (h : Nat) : Nat → Nat → Nat → Nat
  | 0, probe, _ => probe
  | remaining + 1, probe, tmpOffset =>
    if h = firstOffset cfg.line m.capacity tmpOffset (probe + 1) then probe
    else m.scanHome cfg h remaining (probe + 1)
      (probeNext cfg.line m.capacity tmpOffset (probe + 1))

/-- The stores that lower the probe bound of `h` after an entry with that home has been moved
back from `offset` to probe number `wantedProbes` (`ck_rhs.c:1091-1119`). -/
def lowerBound (cfg : Config V) (m : Map V) (h offset probe wantedProbes : Nat) :
    List (Store V) :=
  if wantedProbes < wordMax then
    if m.wanted h = 1 then [.probeBound h wantedProbes]
    else if m.probeBound h = wordMax ∨ m.probeBound h = m.probes offset then
      let maxProbes := if m.probeBound h = wordMax then m.probeMaximum else dec 32 (m.probeBound h)
      let last := m.scanHome cfg h (maxProbes - (probe + 1)) (probe + 1)
        (probeNext cfg.line m.capacity offset (probe + 1))
      if last = maxProbes then [.probeBound h wantedProbes] else []
    else []
  else []

/-- A count that the shift loop does not use up: every move lowers a probe count. -/
def shiftFuel (m : Map V) : Nat := ((List.range m.capacity).map m.probes).sum + 1

/-- The largest probe count of a slot (`ck_rhs.c:883-887`). -/
def maxProbes (m : Map V) : Nat := (List.range m.capacity).foldl (fun n i => max n (m.probes i)) 0

end Map

namespace State

/-- `ck_rhs_grow` (`ck_rhs.c:538-615`). Each `restart` doubles an `unsigned long`, which is
zero after 64 of them. -/
def growLoop (cfg : Config V) : Nat → Nat → State V → Bool × State V
  | 0, _, hs => (false, hs)
  | fuel + 1, capacity, hs =>
    if capacity < hs.map.capacity then (false, hs)
    else
      match hs.create cfg capacity with
      | (none, hs') => (false, hs')
      | (some update, hs') =>
        match (List.range hs.map.capacity).foldlM (hs.map.growCopy cfg) update with
        | some filled => (true, hs'.exec [.map filled])
        | none => growLoop cfg fuel (capacity * 2 % 2 ^ 64) hs'

/-- `ck_rhs_grow`. -/
def grow (cfg : Config V) (hs : State V) (capacity : Nat) : Bool × State V :=
  growLoop cfg 65 capacity hs

/-- `ck_rhs_rebuild` (`ck_rhs.c:617-622`). -/
def rebuild (cfg : Config V) (hs : State V) : Bool × State V := hs.grow cfg hs.map.capacity

/-! ## The counters of passing entries -/

/-- The loop of `ck_rhs_add_wanted` (`ck_rhs.c:906-916`). -/
def addWantedLoop (cfg : Config V) (endOffset : Nat) (oldSlot : Option Nat) :
    Nat → Nat → Nat → Bool → State V → State V
  | 0, _, _, _, hs => hs
  | fuel + 1, offset, probes, foundSlot, hs =>
    if offset = endOffset then hs
    else
      let foundSlot := foundSlot || decide (oldSlot = some offset)
      let hs := if foundSlot = true ∧ hs.map.wanted offset < maxWanted then
          hs.exec [.wanted offset (hs.map.wanted offset + 1)]
        else hs
      addWantedLoop cfg endOffset oldSlot fuel
        (probeNext cfg.line hs.map.capacity offset probes) (probes + 1) foundSlot hs

/-- `ck_rhs_add_wanted` (`ck_rhs.c:892-917`) from the home slot `home`; the walk gets to every
slot within `capacity` steps. -/
def addWanted (cfg : Config V) (hs : State V) (endOffset : Nat) (oldSlot : Option Nat)
    (home : Nat) : State V :=
  addWantedLoop cfg endOffset oldSlot hs.map.capacity home 1 oldSlot.isNone hs

/-- The loop of `ck_rhs_remove_wanted` (`ck_rhs.c:927-937`), entered with one probe more than
the first argument. -/
def removeWantedLoop (cfg : Config V) (limit : Option Nat) :
    Nat → Nat → Bool → State V → Nat × State V
  | 0, offset, _, hs => (offset, hs)
  | probes + 1, offset, doRemove, hs =>
    let offset := probePrev cfg.line hs.map.capacity offset (probes + 1)
    let doRemove := doRemove && decide (limit ≠ some offset)
    let hs := if doRemove = true ∧ hs.map.wanted offset ≠ maxWanted then
        hs.exec [.wanted offset (dec 16 (hs.map.wanted offset))]
      else hs
    removeWantedLoop cfg limit probes offset doRemove hs

/-- `ck_rhs_remove_wanted` (`ck_rhs.c:919-939`): the offset it returns, which is a home slot,
and the next state. -/
def removeWanted (cfg : Config V) (hs : State V) (offset : Nat) (limit : Option Nat) :
    Nat × State V :=
  removeWantedLoop cfg limit (hs.map.probes offset - 1) offset true hs

/-! ## Robin Hood insertion -/

/-- The value `ck_rhs_put_robin_hood` returns: `0`, `-1` or `1`. -/
inductive Relocation where
  | moved
  | failed
  | grown
  deriving DecidableEq, Repr

/-- The stores that undo the choice of slots when the map cannot grow (`ck_rhs.c:992-1001`).
The list has the pairs `prevs[i]`, `prev_probes[i]` from `i = 0` on, `old` is the probe count
to restore in the next slot of it, and `last` is `last_slot`. -/
def restoreStores (last : Nat) : Option Nat → List (Nat × Nat) → List (Store V)
  | old, [] => (old.map (Store.probes last)).toList
  | old, (prev, probes) :: rest =>
    (old.map (Store.probes prev)).toList ++
      .inRh prev false :: restoreStores last (some probes) rest

/-- The branch of `ck_rhs_put_robin_hood` that found no slot (`ck_rhs.c:990-1006`). `prevs` has
the arrays `prevs` and `prev_probes`, the last element first. -/
def relocationGrow (cfg : Config V) (hs : State V) (origSlot : Nat) (prevs : List (Nat × Nat)) :
    Relocation × State V :=
  match hs.grow cfg (hs.map.capacity * 2) with
  | (true, hs) => (.grown, hs)
  | (false, hs) =>
    (.failed, hs.exec (.inRh origSlot false :: restoreStores origSlot none prevs.reverse))

/-- The loop that moves the chosen entries, the last one first (`ck_rhs.c:1033-1046`). -/
def shiftChain (cfg : Config V) : List (Nat × Nat) → Nat → State V → State V
  | [], origSlot, hs => hs.exec [.inRh origSlot false]
  | (prev, _) :: prevs, origSlot, hs =>
    let hs := hs.exec [.entry origSlot (hs.map.entries prev)]
    let h := firstOffset cfg.line hs.map.capacity origSlot (hs.map.probes origSlot)
    let hs := hs.addWanted cfg origSlot (some prev) h
    let hs := hs.exec [hs.map.signal h, .inRh origSlot false]
    shiftChain cfg prevs prev hs

/-- The branch of `ck_rhs_put_robin_hood` that found the empty slot `slot`
(`ck_rhs.c:1022-1047`). -/
def relocationMove (cfg : Config V) (hs : State V) (origSlot slot nProbes : Nat)
    (prevs : List (Nat × Nat)) : State V :=
  let insert := hs.map.entries origSlot
  let h := firstOffset cfg.line hs.map.capacity slot nProbes
  let hs := hs.exec (hs.map.boundSet cfg h nProbes)
  let hs := hs.exec [.entry slot insert, hs.map.signal h, .probes slot nProbes,
    .inRh origSlot false]
  let hs := hs.addWanted cfg slot (some origSlot) h
  shiftChain cfg prevs origSlot hs

/-- The loop of `ck_rhs_put_robin_hood` (`ck_rhs.c:974-1020`) with `left` places left in
`prevs`; without one the probe chooses no further entry. -/
def putRobinHoodLoop (cfg : Config V) :
    Nat → Nat → Nat → List (Nat × Nat) → State V → Relocation × State V
  | 0, origSlot, nProbes, prevs, hs =>
    let hs := hs.exec [.inRh origSlot true]
    let r := hs.map.probeFrom cfg origSlot nProbes .robinHoodNoRelocate
    match r.slot with
    | none => hs.relocationGrow cfg origSlot prevs
    | some slot => (.moved, hs.relocationMove cfg origSlot slot r.nProbes prevs)
  | left + 1, origSlot, nProbes, prevs, hs =>
    let hs := hs.exec [.inRh origSlot true]
    let r := hs.map.probeFrom cfg origSlot nProbes .robinHood
    match r.first, r.slot with
    | some first, _ =>
      let oldProbes := hs.map.probes first
      let h := firstOffset cfg.line hs.map.capacity first r.nProbes
      let hs := hs.exec (.probes first r.nProbes :: hs.map.boundSet cfg h r.nProbes)
      putRobinHoodLoop cfg left first oldProbes ((origSlot, oldProbes) :: prevs) hs
    | none, none => hs.relocationGrow cfg origSlot prevs
    | none, some slot => (.moved, hs.relocationMove cfg origSlot slot r.nProbes prevs)

/-- `ck_rhs_put_robin_hood` (`ck_rhs.c:956-1048`): make room in `origSlot`. -/
def putRobinHood (cfg : Config V) (hs : State V) (origSlot : Nat) : Relocation × State V :=
  putRobinHoodLoop cfg maxRh origSlot (hs.map.probes origSlot) [] hs

/-! ## Backward-shift deletion -/

/-- The loop of `ck_rhs_do_backward_shift_delete` (`ck_rhs.c:1059-1123`): the slot that is left
over, the home slot of the entry that was there, and the next state. -/
def shiftLoop (cfg : Config V) : Nat → Nat → Nat → State V → Nat × Nat × State V
  | 0, slot, h, hs => (slot, h, hs)
  | fuel + 1, slot, h, hs =>
    if hs.map.wanted slot = 0 then (slot, h, hs)
    else
      match hs.map.successor cfg slot with
      | none => (slot, h, hs.exec [.wanted slot 0])
      | some (wantedProbes, probe, offset) =>
        let hs := hs.exec [.probes slot wantedProbes]
        let (h, hs) := hs.removeWanted cfg offset (some slot)
        let hs := hs.exec [.entry slot (hs.map.entries offset), hs.map.signal h]
        let hs := hs.exec (hs.map.lowerBound cfg h offset probe wantedProbes)
        let hs := if hs.map.wanted slot < maxWanted then
            hs.exec [.wanted slot (dec 16 (hs.map.wanted slot))]
          else hs
        shiftLoop cfg fuel offset h hs

/-- `ck_rhs_do_backward_shift_delete` (`ck_rhs.c:1050-1130`). -/
def doBackwardShiftDelete (cfg : Config V) (hs : State V) (slot : Nat) : State V :=
  let (h, hs) := hs.removeWanted cfg slot none
  let (slot, h, hs) := shiftLoop cfg hs.map.shiftFuel slot h hs
  let hs := hs.exec [.entry slot none]
  let hs := if dec 32 (hs.map.probes slot) < wordMax then
      hs.exec [.probeBound h (dec 32 (hs.map.probes slot))]
    else hs
  hs.exec [.probes slot 0]

/-! ## Insertion -/

/-- Set or clear `in_rh` of a slot, if there is one. -/
def markRh (hs : State V) (slot : Option Nat) (value : Bool) : State V :=
  match slot with
  | some s => hs.exec [.inRh s value]
  | none => hs

/-- How `ck_rhs_apply`, `ck_rhs_set` and `ck_rhs_put_internal` install a word where the probe
ended (`ck_rhs.c:1247-1296`, `ck_rhs.c:1332-1375`, `ck_rhs.c:1415-1434`). `guard` is the slot
that is kept out of the Robin Hood insertion, which only the first two have. -/
def install (cfg : Config V) (hs : State V) (h : BitVec 64) (r : ProbeResult V)
    (insert : Word V) (guard : Option Nat) : Relocation × State V :=
  let hs := hs.exec (hs.map.boundSet cfg (hs.map.home h) r.nProbes)
  match r.first, r.slot with
  | some first, slot =>
    match (hs.markRh guard true).putRobinHood cfg first with
    | (.grown, hs) => (.grown, hs)
    | (.failed, hs) => (.failed, hs.markRh guard false)
    | (.moved, hs) =>
      let hs := (hs.markRh guard false).exec [.entry first (some insert), .probes first r.nProbes]
      let hs := hs.addWanted cfg first none (hs.map.home h)
      match r.object, slot with
      | some _, some slot =>
        -- a duplicate is deleted after concurrent probes have been signalled
        let hs := hs.exec [hs.map.signal h.toNat]
        (.moved, hs.doBackwardShiftDelete cfg slot)
      | _, _ => (.moved, hs)
  | none, some slot =>
    let hs := hs.exec [.entry slot (some insert), .probes slot r.nProbes]
    (.moved, if r.object.isSome then hs else hs.addWanted cfg slot none (hs.map.home h))
  | none, none => (.failed, hs)

/-- The end of an insertion (`ck_rhs.c:1298-1302`, `ck_rhs.c:1377-1381`,
`ck_rhs.c:1437-1439`). -/
def postinsert (cfg : Config V) (hs : State V) : State V :=
  let hs := hs.exec [.nEntries (hs.map.nEntries + 1)]
  if hs.map.maxEntries < hs.map.nEntries then (hs.grow cfg (hs.map.capacity * 2)).2 else hs

/-- `ck_rhs_put_internal` (`ck_rhs.c:1387-1441`). -/
def putInternal (cfg : Config V) (h : BitVec 64) (key : V) (behavior : ProbeBehavior) :
    Nat → State V → Except (State V) (Bool × State V)
  | 0, hs => .error hs
  | fuel + 1, hs =>
    let r := hs.map.probe cfg h key hs.map.probeLimit behavior
    if r.slot = none ∧ r.first = none then
      match hs.grow cfg (hs.map.capacity * 2) with
      | (false, hs) => .ok (false, hs)
      | (true, hs) => putInternal cfg h key behavior fuel hs
    -- fail the operation if a match was found
    else if r.object.isSome then .ok (false, hs)
    else
      match hs.install cfg h r (cfg.marshal key h) none with
      | (.grown, hs) => putInternal cfg h key behavior fuel hs
      | (.failed, hs) => .ok (false, hs)
      | (.moved, hs) => .ok (true, hs.postinsert cfg)

/-- `ck_rhs_put` (`ck_rhs.c:1443-1450`). -/
def put (cfg : Config V) (hs : State V) (h : BitVec 64) (key : V) :
    Except (State V) (Bool × State V) :=
  putInternal cfg h key .insert cfg.restarts hs

/-- `ck_rhs_put_unique` (`ck_rhs.c:1452-1459`). -/
def putUnique (cfg : Config V) (hs : State V) (h : BitVec 64) (key : V) :
    Except (State V) (Bool × State V) :=
  putInternal cfg h key .rh cfg.restarts hs

/-- The loop of `ck_rhs_set` (`ck_rhs.c:1319-1385`). -/
def setLoop (cfg : Config V) (h : BitVec 64) (key : V) :
    Nat → State V → Except (State V) ((Bool × Option V) × State V)
  | 0, hs => .error hs
  | fuel + 1, hs =>
    let r := hs.map.probe cfg h key hs.map.probeLimit .insert
    if r.slot = none ∧ r.first = none then
      match hs.grow cfg (hs.map.capacity * 2) with
      | (false, hs) => .ok ((false, none), hs)
      | (true, hs) => setLoop cfg h key fuel hs
    else
      match hs.install cfg h r (cfg.marshal key h) r.slot with
      | (.grown, hs) => setLoop cfg h key fuel hs
      | (.failed, hs) => .ok ((false, none), hs)
      | (.moved, hs) =>
        .ok ((true, r.object), if r.object.isSome then hs else hs.postinsert cfg)

/-- `ck_rhs_set` (`ck_rhs.c:1306-1385`): the boolean result and `*previous`. -/
def set (cfg : Config V) (hs : State V) (h : BitVec 64) (key : V) :
    Except (State V) ((Bool × Option V) × State V) :=
  setLoop cfg h key cfg.restarts hs

/-- The loop of `ck_rhs_apply` (`ck_rhs.c:1215-1304`). `delta` is the value that the apply
function has returned, if it has been called. -/
def applyLoop (cfg : Config V) (h : BitVec 64) (key : V) (fn : Option V → Option V) :
    Nat → Option (Option V) → State V → Except (State V) (Bool × State V)
  | 0, _, hs => .error hs
  | fuel + 1, delta, hs =>
    let r := hs.map.probe cfg h key hs.map.probeLimit .insert
    if r.slot = none ∧ r.first = none then
      match hs.grow cfg (hs.map.capacity * 2) with
      | (false, hs) => .ok (false, hs)
      | (true, hs) => applyLoop cfg h key fn fuel delta hs
    else
      let delta := delta.getD (fn r.object)
      match delta with
      | none =>
        -- deletion was requested
        match r.object, r.slot with
        | some _, some slot => .ok (true, hs.doBackwardShiftDelete cfg slot)
        | _, _ => .ok (true, hs)
      | some insert =>
        if r.object = some insert then .ok (true, hs)
        else
          match hs.install cfg h r (cfg.marshal insert h) r.slot with
          | (.grown, hs) => applyLoop cfg h key fn fuel (some (some insert)) hs
          | (.failed, hs) => .ok (false, hs)
          | (.moved, hs) => .ok (true, if r.object.isSome then hs else hs.postinsert cfg)

/-- `ck_rhs_apply` (`ck_rhs.c:1201-1304`) with the apply function `fn` at its closure. -/
def apply (cfg : Config V) (hs : State V) (h : BitVec 64) (key : V)
    (fn : Option V → Option V) : Except (State V) (Bool × State V) :=
  applyLoop cfg h key fn cfg.restarts none hs

/-- The loop of `ck_rhs_fas` (`ck_rhs.c:1145-1186`). -/
def fasLoop (cfg : Config V) (h : BitVec 64) (key : V) :
    Nat → State V → Except (State V) ((Bool × Option V) × State V)
  | 0, hs => .error hs
  | fuel + 1, hs =>
    let r := hs.map.probe cfg h key (hs.map.boundGet cfg (hs.map.home h)) .probe
    match r.object, r.slot with
    | some object, some slot =>
      match r.first with
      | some first =>
        match (hs.markRh (some slot) true).putRobinHood cfg first with
        | (.grown, hs) => fasLoop cfg h key fuel hs
        | (.failed, hs) => .ok ((false, none), hs.markRh (some slot) false)
        | (.moved, hs) =>
          let hs := hs.markRh (some slot) false
          let hs := hs.exec [.entry first (some (cfg.marshal key h)), hs.map.signal h.toNat,
            .probes first r.nProbes]
          let hs := hs.addWanted cfg first none (hs.map.home h)
          .ok ((true, some object), hs.doBackwardShiftDelete cfg slot)
      | none =>
        .ok ((true, some object),
          hs.exec [.entry slot (some (cfg.marshal key h)), .probes slot r.nProbes])
    -- replacement presumes existence
    | _, _ => .ok ((false, none), hs)

/-- `ck_rhs_fas` (`ck_rhs.c:1132-1186`): the boolean result and `*previous`. -/
def fas (cfg : Config V) (hs : State V) (h : BitVec 64) (key : V) :
    Except (State V) ((Bool × Option V) × State V) :=
  fasLoop cfg h key cfg.restarts hs

/-! ## The other operations -/

/-- `ck_rhs_get` (`ck_rhs.c:1461-1488`) with no concurrent writer, where one pass suffices. -/
def get (cfg : Config V) (hs : State V) (h : BitVec 64) (key : V) : Option V :=
  (hs.map.probe cfg h key (hs.map.boundGet cfg (hs.map.home h)) .noRh).object

/-- `ck_rhs_remove` (`ck_rhs.c:1490-1508`). -/
def remove (cfg : Config V) (hs : State V) (h : BitVec 64) (key : V) : Option V × State V :=
  let r := hs.map.probe cfg h key (hs.map.boundGet cfg (hs.map.home h)) .noRh
  match r.object, r.slot with
  | some object, some slot =>
    let hs := hs.exec [.nEntries (dec 64 hs.map.nEntries)]
    (some object, hs.doBackwardShiftDelete cfg slot)
  | _, _ => (none, hs)

/-- `ck_rhs_gc` (`ck_rhs.c:877-890`). -/
def gc (hs : State V) : State V := hs.exec [.probeMaximum hs.map.maxProbes]

/-- The loop of `ck_rhs_set_load_factor` (`ck_rhs.c:262-266`). -/
def loadLoop (cfg : Config V) : Nat → State V → Except (State V) (Bool × State V)
  | 0, hs => .error hs
  | fuel + 1, hs =>
    if hs.map.maxEntries < hs.map.nEntries then
      match hs.grow cfg (hs.map.capacity * 2) with
      | (false, hs) => .ok (false, hs)
      | (true, hs) => loadLoop cfg fuel hs
    else .ok (true, hs)

/-- `ck_rhs_set_load_factor` (`ck_rhs.c:252-268`). -/
def setLoadFactor (cfg : Config V) (hs : State V) (loadFactor : Nat) :
    Except (State V) (Bool × State V) :=
  if loadFactor = 0 ∨ 100 < loadFactor then .ok (false, hs)
  else
    loadLoop cfg cfg.restarts ({ hs with loadFactor := loadFactor }.exec
      [.maxEntries (hs.map.capacity * loadFactor / 100)])

/-- `ck_rhs_reset` (`ck_rhs.c:429-450`). -/
def reset (cfg : Config V) (hs : State V) : Bool × State V :=
  match hs.create cfg hs.map.capacity with
  | (none, hs) => (false, hs)
  | (some map, hs) => (true, hs.exec [.map map])

end State

/-- `ck_rhs_init` (`ck_rhs.c:1531-1554`) for `entries` keys; the arguments are well formed. -/
def init (cfg : Config V) (entries : Nat) : Option (State V) :=
  if cfg.malloc 0 then
    some { map := Map.create defaultLoadFactor entries, loadFactor := defaultLoadFactor,
           allocs := 1, peak := max entries (mapSlots entries), stores := [] }
  else none

/-! ## Calls -/

/-- A call of the public interface. Every key is passed with its hash value. -/
inductive Op (V : Type) where
  | put (key : V)
  | putUnique (key : V)
  | set (key : V)
  | fas (key : V)
  | apply (key : V) (fn : Option V → Option V)
  | remove (key : V)
  | get (key : V)
  | grow (capacity : Nat)
  | rebuild
  | gc
  | setLoadFactor (loadFactor : Nat)
  | reset

/-- The result of a call: the returned truth value, or `true` for a returned object, with the
object that was returned or stored in `*previous`. -/
structure Result (V : Type) where
  ok : Bool
  object : Option V
  deriving DecidableEq, Repr

/-- One call. -/
def step (cfg : Config V) (hs : State V) : Op V → Except (State V) (Result V × State V)
  | .put key => do
    let (ok, hs) ← hs.put cfg (cfg.hf key) key
    return (⟨ok, none⟩, hs)
  | .putUnique key => do
    let (ok, hs) ← hs.putUnique cfg (cfg.hf key) key
    return (⟨ok, none⟩, hs)
  | .set key => do
    let ((ok, previous), hs) ← hs.set cfg (cfg.hf key) key
    return (⟨ok, previous⟩, hs)
  | .fas key => do
    let ((ok, previous), hs) ← hs.fas cfg (cfg.hf key) key
    return (⟨ok, previous⟩, hs)
  | .apply key fn => do
    let (ok, hs) ← hs.apply cfg (cfg.hf key) key fn
    return (⟨ok, none⟩, hs)
  | .remove key =>
    let (object, hs) := hs.remove cfg (cfg.hf key) key
    .ok (⟨true, object⟩, hs)
  | .get key => .ok (⟨true, hs.get cfg (cfg.hf key) key⟩, hs)
  | .grow capacity =>
    let (ok, hs) := hs.grow cfg capacity
    .ok (⟨ok, none⟩, hs)
  | .rebuild =>
    let (ok, hs) := hs.rebuild cfg
    .ok (⟨ok, none⟩, hs)
  | .gc => .ok (⟨true, none⟩, hs.gc)
  | .setLoadFactor loadFactor => do
    let (ok, hs) ← hs.setLoadFactor cfg loadFactor
    return (⟨ok, none⟩, hs)
  | .reset =>
    let (ok, hs) := hs.reset cfg
    .ok (⟨ok, none⟩, hs)

/-- A sequence of calls, with the results in order. -/
def run (cfg : Config V) : State V → List (Op V) → Except (State V) (List (Result V) × State V)
  | hs, [] => .ok ([], hs)
  | hs, op :: ops => do
    let (r, hs) ← step cfg hs op
    let (rs, hs) ← run cfg hs ops
    return (r :: rs, hs)

end ConcurrencyKit.Rhs
