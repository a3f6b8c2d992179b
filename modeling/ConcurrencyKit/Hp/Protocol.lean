import ConcurrencyKit.Hp.Reclaim
import ConcurrencyKit.Misc.Threads

/-!
# Hazard pointers

The functions of `include/ck_hp.h` and `src/ck_hp.c`, one access at a time, for any number of
records with their owners. An owner that wants to use an object loads a pointer to it from a source,
stores it to a hazard slot, and finds it in the source again. From then on, until it stores to the
slot, the object must not be destroyed. Whoever has removed an object from the sources retires it,
and looks through the slots of all records before the object is destroyed.

A pointer is an address, and zero is the null pointer. Next to the words a `Mem` keeps what has
become of the object at an address, and which pointers the owners rely on.
-/

namespace ConcurrencyKit.Hp

/-- What has become of the object at an address. -/
inductive Status (ι : Type) where
  /-- There is no object, or it has been destroyed. -/
  | unused
  | live
  /-- It is in the pending list of a record. -/
  | retired (i : ι)
  deriving DecidableEq, Repr

/-- `degree`, and the limit `CK_HP_CACHE`. -/
structure Config where
  degree : Nat
  limit : Nat

/-- The sources of the pointers, `struct ck_hp` and its records, which belong to the threads of
`ι`. -/
structure Mem (ι κ : Type) where
  source : κ → Nat
  /-- The list of subscribers, which grows at its head. -/
  subscribers : List ι
  threshold : BitVec 32
  state : ι → State
  pointers : ι → Option (Nat → Nat)
  pending : ι → List Hazard
  nPending : ι → BitVec 32
  /-- The calls of the destructor. -/
  destroyed : List Nat
  status : Nat → Status ι
  /-- What the owner of a record has found in a source after it had stored it to a slot. -/
  held : ι → Nat → Option Nat

/-- What the walk through the records looks at next. -/
inductive Point where
  | state
  | pointers
  | slot (i : Nat)
  deriving DecidableEq, Repr

/-- Where the owner of a record stands. In a walk `rest` are the records from the present one on. -/
inductive Pc (ι κ : Type) where
  | absent
  /-- `ck_hp_register`. -/
  | register
  /-- The record waits for `ck_hp_recycle`. -/
  | free
  | ready
  | protectSet (i : Nat) (c : κ) (pointer : Nat)
  | protectCheck (i : Nat) (c : κ) (pointer : Nat)
  /-- `ck_hp_clear`. -/
  | clear (i : Nat)
  /-- `ck_hp_reclaim`, which `ck_hp_purge` calls again while there are pending entries. -/
  | cacheHead (purge : Bool)
  | cache (purge : Bool) (rest : List ι) (point : Point) (cache : List Nat)
  | sweep (purge : Bool) (cache : List Nat) (marker : List ι) (kept todo : List Hazard)
  | scan (purge : Bool) (cache : List Nat) (marker : List ι) (kept : List Hazard) (hazard : Hazard)
      (todo : List Hazard) (rest : List ι) (point : Point)
  | destroy (purge : Bool) (cache : List Nat) (marker : List ι) (kept : List Hazard)
      (hazard : Hazard) (todo : List Hazard)
  /-- `ck_hp_unregister`. -/
  | unregister

variable {ι κ : Type}

/-- A slot of a record. -/
def Mem.slot (m : Mem ι κ) (r : ι) (i : Nat) : Nat := (m.pointers r).elim 0 (· i)

namespace Mem

variable [DecidableEq ι]

/-- The fields of a record before `ck_hp_register` puts it on the list. -/
def initRecord (i : ι) (m : Mem ι κ) : Mem ι κ :=
  { m with
    state := Function.update m.state i .used
    pointers := Function.update m.pointers i (some fun _ => 0)
    pending := Function.update m.pending i []
    nPending := Function.update m.nPending i 0 }

/-- `ck_stack_push_upmc(&state->subscribers, &entry->global_entry)`. -/
def push (i : ι) (m : Mem ι κ) : Mem ι κ := { m with subscribers := i :: m.subscribers }

/-- `ck_hp_set` and `ck_hp_set_fence` (`ck_hp.h:77-97`). -/
def set (i : ι) (k pointer : Nat) (m : Mem ι κ) : Mem ι κ :=
  { m with
    pointers := Function.update m.pointers i
      ((m.pointers i).map fun pointers => Function.update pointers k pointer)
    held := Function.update m.held i (Function.update (m.held i) k none) }

/-- The owner has found the pointer in a source again. -/
def hold (i : ι) (k pointer : Nat) (m : Mem ι κ) : Mem ι κ :=
  { m with held := Function.update m.held i (Function.update (m.held i) k (some pointer)) }

/-- The part of `ck_hp_retire` and `ck_hp_free` that they have in common
(`ck_hp.c:293-332`). -/
def retire (i : ι) (hazard : Hazard) (m : Mem ι κ) : Mem ι κ :=
  { m with
    pending := Function.update m.pending i (hazard :: m.pending i)
    nPending := Function.update m.nPending i (m.nPending i + 1)
    status := Function.update m.status hazard.pointer (.retired i) }

/-- An entry of the pending list is unlinked and destroyed. -/
def destroy (i : ι) (kept : List Hazard) (hazard : Hazard) (todo : List Hazard) (m : Mem ι κ) :
    Mem ι κ :=
  { m with
    pending := Function.update m.pending i (kept ++ todo)
    nPending := Function.update m.nPending i (m.nPending i - 1)
    destroyed := m.destroyed ++ [hazard.data]
    status := Function.update m.status hazard.pointer .unused }

/-- `ck_hp_unregister`, up to the store of `CK_HP_FREE`. Pending entries are forgotten. -/
def unregister (i : ι) (m : Mem ι κ) : Mem ι κ :=
  { m with
    state := Function.update m.state i .free
    pending := Function.update m.pending i []
    nPending := Function.update m.nPending i 0 }

/-- `ck_hp_recycle` gives the record to an owner. -/
def recycle (i : ι) (m : Mem ι κ) : Mem ι κ := { m with state := Function.update m.state i .used }

omit [DecidableEq ι] in
/-- A store to a source. -/
def link [DecidableEq κ] (c : κ) (pointer : Nat) (m : Mem ι κ) : Mem ι κ :=
  { m with source := Function.update m.source c pointer }

omit [DecidableEq ι] in
/-- A new object. -/
def alloc (pointer : Nat) (m : Mem ι κ) : Mem ι κ :=
  { m with status := Function.update m.status pointer .live }

omit [DecidableEq ι] in
/-- `ck_hp_set_threshold`. -/
def setThreshold (threshold : BitVec 32) (m : Mem ι κ) : Mem ι κ :=
  { m with threshold := threshold }

end Mem

/-- The pointer is found in the cache. -/
def Cached (pointer : Nat) (cache : List Nat) : Prop :=
  (Search.bsearch hazardCompare pointer cache).isSome = true

instance (pointer : Nat) (cache : List Nat) : Decidable (Cached pointer cache) :=
  inferInstanceAs (Decidable (_ = _))

section Steps

variable [DecidableEq ι]

/-- The end of `ck_hp_reclaim`, in `ck_hp_purge` or not. -/
def leave (i : ι) (purge : Bool) (m : Mem ι κ) : Pc ι κ :=
  if purge = true ∧ m.nPending i ≠ 0 then .cacheHead purge else .ready

/-- One access of the owner of record `i` in a call (`ck_hp.c:119-151, 164-291, 334-346`,
`ck_hp.h:77-109`). -/
def act (cfg : Config) (i : ι) (m : Mem ι κ) : Pc ι κ → Mem ι κ × Pc ι κ
  | .register => (m.push i, .ready)
  | .protectSet k c pointer => (m.set i k pointer, .protectCheck k c pointer)
  | .protectCheck k c pointer =>
    if m.source c = pointer then (if pointer = 0 then m else m.hold i k pointer, .ready)
    else (m, .protectSet k c (m.source c))
  | .clear k => if k < cfg.degree then (m.set i k 0, .clear (k + 1)) else (m, .ready)
  | .cacheHead purge => (m, .cache purge m.subscribers .state [])
  | .cache purge [] _ cache =>
    (m, .sweep purge (Search.qsort hazardCompare cache) [] [] (m.pending i))
  | .cache purge (r :: rest) .state cache =>
    (m, if m.state r = .free then .cache purge rest .state cache
      else .cache purge (r :: rest) .pointers cache)
  | .cache purge (r :: rest) .pointers cache =>
    (m, if m.pointers r = none then .cache purge rest .state cache
      else .cache purge (r :: rest) (.slot 0) cache)
  | .cache purge (r :: rest) (.slot k) cache =>
    (m, if k < cfg.degree then
        if cache.length ≥ cfg.limit then
          .sweep purge (Search.qsort hazardCompare cache) (r :: rest) [] (m.pending i)
        else .cache purge (r :: rest) (.slot (k + 1))
          (if m.slot r k ≠ 0 then cache ++ [m.slot r k] else cache)
      else .cache purge rest .state cache)
  | .sweep purge _ _ _ [] => (m, leave i purge m)
  | .sweep purge cache marker kept (hazard :: todo) =>
    (m, if Cached hazard.pointer cache then .sweep purge cache marker (kept ++ [hazard]) todo
      else if marker ≠ [] then .scan purge cache marker kept hazard todo marker .state
      else .destroy purge cache marker kept hazard todo)
  | .scan purge cache marker kept hazard todo [] _ =>
    (m, .destroy purge cache marker kept hazard todo)
  | .scan purge cache marker kept hazard todo (r :: rest) .state =>
    (m, if m.state r = .free then .scan purge cache marker kept hazard todo rest .state
      else .scan purge cache marker kept hazard todo (r :: rest) .pointers)
  | .scan purge cache marker kept hazard todo (r :: rest) .pointers =>
    (m, if m.pointers r = none then .scan purge cache marker kept hazard todo rest .state
      else .scan purge cache marker kept hazard todo (r :: rest) (.slot 0))
  | .scan purge cache marker kept hazard todo (r :: rest) (.slot k) =>
    (m, if k < cfg.degree then
        if m.slot r k = hazard.pointer then .sweep purge cache marker (kept ++ [hazard]) todo
        else .scan purge cache marker kept hazard todo (r :: rest) (.slot (k + 1))
      else .scan purge cache marker kept hazard todo rest .state)
  | .destroy purge cache marker kept hazard todo =>
    (m.destroy i kept hazard todo, .sweep purge cache marker kept todo)
  | .unregister => (m.unregister i, .free)
  | pc => (m, pc)

variable [DecidableEq κ]

/-- One step of the owner of record `i`: it calls a function, makes the next access of its call, or
stores to a source. It stores pointers to live objects only, and retires an object that is in no
source, once. When it gives its record back it relies on no pointer. -/
inductive Step (cfg : Config) (i : ι) : Mem ι κ → Pc ι κ → Mem ι κ → Pc ι κ → Prop
  | register (m : Mem ι κ) : Step cfg i m .absent (m.initRecord i) .register
  | recycle (m : Mem ι κ) (free : m.state i = .free) : Step cfg i m .free (m.recycle i) .ready
  | unregister (m : Mem ι κ) (none : ∀ k, m.held i k = none) : Step cfg i m .ready m .unregister
  | protect (m : Mem ι κ) (k : Nat) (c : κ) (lt : k < cfg.degree) :
      Step cfg i m .ready m (.protectSet k c (m.source c))
  | set (m : Mem ι κ) (k pointer : Nat) (lt : k < cfg.degree) :
      Step cfg i m .ready (m.set i k pointer) .ready
  | clear (m : Mem ι κ) : Step cfg i m .ready m (.clear 0)
  | retire (m : Mem ι κ) (hazard : Hazard) (live : m.status hazard.pointer = .live)
      (unlinked : ∀ c, m.source c ≠ hazard.pointer) :
      Step cfg i m .ready (m.retire i hazard) .ready
  | free (m : Mem ι κ) (hazard : Hazard) (live : m.status hazard.pointer = .live)
      (unlinked : ∀ c, m.source c ≠ hazard.pointer) :
      Step cfg i m .ready (m.retire i hazard)
        (if (m.retire i hazard).nPending i ≥ m.threshold then .cacheHead false else .ready)
  | reclaim (m : Mem ι κ) : Step cfg i m .ready m (.cacheHead false)
  | purge (m : Mem ι κ) : Step cfg i m .ready m (leave i true m)
  | link (m : Mem ι κ) (c : κ) (pointer : Nat) (live : pointer ≠ 0 → m.status pointer = .live) :
      Step cfg i m .ready (m.link c pointer) .ready
  | alloc (m : Mem ι κ) (pointer : Nat) (pos : pointer ≠ 0) (unused : m.status pointer = .unused) :
      Step cfg i m .ready (m.alloc pointer) .ready
  | setThreshold (m : Mem ι κ) (threshold : BitVec 32) :
      Step cfg i m .ready (m.setThreshold threshold) .ready
  | act (m : Mem ι κ) (pc : Pc ι κ) : Step cfg i m pc (act cfg i m pc).1 (act cfg i m pc).2

/-- `ck_hp_init`, before there are records and objects. -/
def start (ι κ : Type) (threshold : BitVec 32) : Threads.System (Mem ι κ) (Pc ι κ) ι where
  mem :=
    { source _ := 0
      subscribers := []
      threshold := threshold
      state _ := .used
      pointers _ := none
      pending _ := []
      nPending _ := 0
      destroyed := []
      status _ := .unused
      held _ _ := none }
  pc _ := .absent

/-- States that are reached by the owners of the records. -/
def Reachable (cfg : Config) (threshold : BitVec 32) (s : Threads.System (Mem ι κ) (Pc ι κ) ι) :
    Prop :=
  Threads.System.Reachable (Step cfg) (fun _ _ _ => True) (start ι κ threshold) s

end Steps

end ConcurrencyKit.Hp
