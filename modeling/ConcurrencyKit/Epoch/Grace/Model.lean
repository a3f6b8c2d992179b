import ConcurrencyKit.Epoch.Model

/-!
# Grace periods of `ck_epoch`

The sections of `Epoch.Model` together with the rest of `ck_epoch.c` that takes part in
reclamation, again one access to shared memory at a time: records are registered while others
are in use, `ck_epoch_observe` renews the observation of a record, `ck_epoch_call` and
`ck_epoch_call_strict` defer entries on it, and `ck_epoch_poll`, `ck_epoch_poll_deferred` and
`ck_epoch_barrier` dispatch them. Each thread has a record of its own; only `ck_epoch_call_strict`
is called with the record of another thread. A callback is client code like any other: it may
call every function, so that a thread keeps the calls of `ck_epoch_dispatch` that it is inside of.

A `Mem` also has what the code does not have: a clock that advances whenever a section or an
observation interval begins, the open sections, the moments at which they have begun and at which
entries have been deferred, the newest epoch that a record has stood for since it became active,
the polls and barriers that are under way, and the entries that have been dispatched. The
counters of a record and the links of its entries are in `Epoch.Calls`; no record is unregistered,
so that all of them are in use.
-/

namespace ConcurrencyKit.Epoch.Grace

/-- What the clock and the global epoch read. -/
structure Moment where
  clock : Nat
  epoch : Nat
  deriving DecidableEq, Repr

/-- An open section: the bucket in its section object, if one was passed, the global epoch that it
has begun in, and the beginning of its observation interval. -/
structure Section where
  bucket : Option (Fin 2)
  since : Nat
  begun : Moment
  deriving DecidableEq, Repr

/-- A poll or barrier that is under way: the moment at which it began, and the epochs that
`ck_epoch_dispatch` may still be called with. While it scans these are all. -/
structure Round where
  start : Moment
  ahead : List Nat
  deriving DecidableEq, Repr

/-- `struct ck_epoch` and its records, the newest one first. A deferred entry is given by the
moment of its `ck_epoch_call`. -/
structure Mem (ι : Type) where
  epoch : Nat
  records : List ι
  record : ι → Record
  pending : ι → Fin 4 → List Moment
  clock : Nat
  sections : ι → List Section
  reached : ι → Nat
  /-- The polls and barriers on the record. One that has been called from a callback of another
  stands before that one. -/
  rounds : ι → List Round
  dispatched : List (ι × Moment)

/-- The function that scans, with the local variables of `ck_epoch_synchronize_wait`. -/
inductive Scanner where
  | poll (deferred : Bool)
  | synchronize (barrier : Bool) (called : Moment) (i : Nat)
  deriving DecidableEq, Repr

/-- What comes after one call of `ck_epoch_dispatch`: whether its argument `deferred` is a stack,
the epochs that `ck_epoch_dispatch` is still to be called with, and the result of the function that
calls it. -/
structure Caller where
  deferred : Bool
  epochs : List Nat
  result : Option Bool
  deriving DecidableEq, Repr

/-- Where a thread stands, with the local variables that are live. -/
inductive Pc (ι : Type) where
  /-- Between two functions, or in a callback, with the result of the last function. -/
  | client (result : Option Bool)
  | beginActive (object : Bool)
  | beginLoad (object : Bool)
  | beginStore (object : Bool) (gEpoch : Nat)
  | addref
  | endActive (x : Section)
  | delref (bucket : Fin 2) (x : Section)
  | observeLoad
  | observeStore (gEpoch : Nat)
  | callLoad
  | callPush (entry : Moment)
  | strictLoad (record : ι)
  | strictPush (record : ι) (entry : Moment)
  | pollLoad (deferred : Bool)
  | synchronizeLoad (barrier : Bool)
  | scanFirst (k : Scanner) (epoch : Nat)
  | scanActive (k : Scanner) (epoch : Nat) (rest : List ι) (active : Bool)
  | scanEpoch (k : Scanner) (epoch : Nat) (cr : ι) (rest : List ι)
  | pollStore (deferred : Bool) (epoch : Nat)
  | pollCas (deferred : Bool) (epoch : Nat)
  | synchronizeReload (barrier : Bool) (called : Moment) (i delta : Nat) (cr : ι) (rest : List ι)
  | synchronizeCas (barrier : Bool) (called : Moment) (i delta : Nat)
  /-- `ck_epoch_synchronize_wait` has returned. -/
  | synchronized (barrier : Bool) (called : Moment)
  /-- Before the next call of `ck_epoch_dispatch`. -/
  | dispatch (caller : Caller)
  /-- The loop of `ck_epoch_dispatch`, with the entries that are left. -/
  | walk (caller : Caller) (batch : List Moment)

/-- A call of `ck_epoch_dispatch` that has called a callback. -/
structure Frame where
  caller : Caller
  batch : List Moment
  deriving DecidableEq, Repr

/-- A thread, with the callbacks that it is in. -/
structure Thread (ι : Type) where
  frames : List Frame
  pc : Pc ι

variable {ι : Type}

/-- Client code is running. -/
def Pc.Client : Pc ι → Prop
  | .client _ => True
  | _ => False

/-- The thread goes on elsewhere. -/
def Thread.go (t : Thread ι) (pc : Pc ι) : Thread ι := { t with pc := pc }

/-- `e & (CK_EPOCH_LENGTH - 1)`. -/
def slot (e : Nat) : Fin 4 := ⟨word e % 4, Nat.mod_lt _ (by decide)⟩

/-- The epochs of `ck_epoch_reclaim` (`ck_epoch.c:413-420`). -/
def allSlots : List Nat := [0, 1, 2, 3]

/-- `epoch - 2`. -/
def twoBefore (e : Nat) : Nat := word (e + (2 ^ 32 - 2))

namespace Mem

/-- What the clock and the global epoch read now. -/
def now (m : Mem ι) : Moment := ⟨m.clock, m.epoch⟩

/-- `ck_pr_cas_uint` of the global epoch, from `epoch` to `epoch + 1`. -/
def tick (epoch : Nat) (m : Mem ι) : Mem ι :=
  if word m.epoch = word epoch then { m with epoch := m.epoch + 1 } else m

variable [DecidableEq ι]

/-- A store of thread `i` to its record. -/
def set (i : ι) (r : Record) (m : Mem ι) : Mem ι :=
  { m with record := Function.update m.record i r }

/-- The record stands for the epoch `e`. -/
def reach (i : ι) (e : Nat) (m : Mem ι) : Mem ι :=
  { m with reached := Function.update m.reached i e }

/-- A store of thread `i` to the epoch of its record. -/
def advance (i : ι) (e : Nat) (m : Mem ι) : Mem ι :=
  (m.set i { m.record i with epoch := e }).reach i (max (m.reached i) e)

/-- The record of thread `i` becomes active. -/
def activate (i : ι) (m : Mem ι) : Mem ι :=
  (m.set i { m.record i with active := 1 }).reach i m.epoch

/-- A section begins on the record of thread `i`, in the epoch `e`. -/
def push (i : ι) (bucket : Option (Fin 2)) (e : Nat) (m : Mem ι) : Mem ι :=
  { m with
    sections := Function.update m.sections i (⟨bucket, e, ⟨m.clock, e⟩⟩ :: m.sections i)
    clock := m.clock + 1 }

/-- A section on the record of thread `i` ends. -/
def erase (i : ι) (x : Section) (m : Mem ι) : Mem ι :=
  { m with sections := Function.update m.sections i ((m.sections i).erase x) }

/-- The sections of thread `i` go on in an observation interval of the epoch `e`. -/
def renew (i : ι) (e : Nat) (m : Mem ι) : Mem ι :=
  { m with
    sections := Function.update m.sections i
      ((m.sections i).map fun x => { x with begun := ⟨m.clock, e⟩ })
    clock := m.clock + 1 }

/-- `_ck_epoch_delref` (`ck_epoch.c:150-183`). -/
def delref (i : ι) (b : Fin 2) (m : Mem ι) : Mem ι :=
  (m.set i ((m.record i).delref b)).reach i (max (m.reached i) ((m.record i).delref b).epoch)

/-- A poll or barrier on the record begins. -/
def enter (i : ι) (m : Mem ι) : Mem ι :=
  { m with rounds := Function.update m.rounds i (⟨m.now, allSlots⟩ :: m.rounds i) }

/-- `ck_epoch_dispatch` will be called with no other epochs. -/
def narrow (i : ι) (epochs : List Nat) (m : Mem ι) : Mem ι :=
  { m with
    rounds := Function.update m.rounds i ((m.rounds i).modifyHead fun R => ⟨R.start, epochs⟩) }

/-- The poll or barrier on the record that has begun last returns. -/
def leave (i : ι) (m : Mem ι) : Mem ι :=
  { m with rounds := Function.update m.rounds i (m.rounds i).tail }

/-- An entry is pushed to the slot of its epoch. -/
def file (r : ι) (entry : Moment) (m : Mem ι) : Mem ι :=
  { m with
    pending := Function.update m.pending r
      (Function.update (m.pending r) (slot entry.epoch)
        (entry :: m.pending r (slot entry.epoch))) }

/-- `ck_stack_batch_pop_upmc` leaves an empty slot. -/
def empty (r : ι) (e : Nat) (m : Mem ι) : Mem ι :=
  { m with
    pending := Function.update m.pending r (Function.update (m.pending r) (slot e) []) }

omit [DecidableEq ι] in
/-- An entry is handed to its callback, or to the caller of `ck_epoch_poll_deferred`. -/
def handOut (r : ι) (entry : Moment) (m : Mem ι) : Mem ι :=
  { m with dispatched := (r, entry) :: m.dispatched }

/-- `ck_epoch_register` (`ck_epoch.c:279-302`). -/
def register (i : ι) (m : Mem ι) : Mem ι :=
  { m with
    records := i :: m.records
    record := Function.update m.record i { epoch := 0, active := 0, bucket := fun _ => ⟨0, 0⟩ }
    pending := Function.update m.pending i fun _ => [] }

/-- The scan has passed all records. -/
def passed (m : Mem ι) (t : Thread ι) (epoch : Nat) (active : Bool) :
    Scanner → Mem ι × Thread ι
  | .poll deferred =>
    if active then (m, t.go (.pollCas deferred epoch)) else (m, t.go (.pollStore deferred epoch))
  | .synchronize barrier called n =>
    if active then (m, t.go (.synchronizeCas barrier called n epoch))
    else (m, t.go (.synchronized barrier called))

/-- The scan has found an active record that is not in its epoch. -/
def blocked (i : ι) (m : Mem ι) (t : Thread ι) (epoch : Nat) (cr : ι) (rest : List ι) :
    Scanner → Mem ι × Thread ι
  | .poll _ => (m.leave i, t.go (.client (some false)))
  | .synchronize barrier called n => (m, t.go (.synchronizeReload barrier called n epoch cr rest))

/-- One access of thread `i`: `ck_epoch_begin`, `ck_epoch_observe`, `ck_epoch_end`, `ck_epoch_call`
and `ck_epoch_call_strict` (`ck_epoch.h:125-305`), `ck_epoch_poll_deferred`
(`ck_epoch.c:577-640`), `ck_epoch_synchronize_wait` and `ck_epoch_barrier` (`ck_epoch.c:436-555`),
with `ck_epoch_scan` and `ck_epoch_dispatch` (`ck_epoch.c:320-405`). -/
def act (i : ι) (m : Mem ι) (t : Thread ι) : Mem ι × Thread ι :=
  match t.pc with
  | .client _ => (m, t)
  | .beginActive object =>
    if (m.record i).active = 0 then (m.activate i, t.go (.beginLoad object))
    else
      let m := m.set i { m.record i with active := inc 32 (m.record i).active }
      if object then (m, t.go .addref) else (m.push i none m.epoch, t.go (.client none))
  | .beginLoad object => (m, t.go (.beginStore object m.epoch))
  | .beginStore object e =>
    if object then (m.advance i e, t.go .addref)
    else ((m.advance i e).push i none e, t.go (.client none))
  | .addref =>
    ((m.set i ((m.record i).addref m.epoch)).push i (some (sense m.epoch)) m.epoch,
      t.go (.client none))
  | .endActive x =>
    let m := (m.set i { m.record i with active := dec 32 (m.record i).active }).erase i x
    match x.bucket with
    | some b => (m, t.go (.delref b x))
    | none => (m, t.go (.client (some (decide ((m.record i).active = 0)))))
  | .delref b _ =>
    (m.delref i b, t.go (.client (some (decide ((((m.record i).drop b).bucket b).count = 0)))))
  | .observeLoad => (m, t.go (.observeStore m.epoch))
  | .observeStore e => ((m.advance i e).renew i e, t.go (.client none))
  | .callLoad => (m, t.go (.callPush m.now))
  | .callPush entry => (m.file i entry, t.go (.client none))
  | .strictLoad r => (m, t.go (.strictPush r m.now))
  | .strictPush r entry => (m.file r entry, t.go (.client none))
  | .pollLoad deferred => (m.enter i, t.go (.scanFirst (.poll deferred) m.epoch))
  | .synchronizeLoad barrier =>
    (if barrier then m.enter i else m, t.go (.scanFirst (.synchronize barrier m.now 0) m.epoch))
  | .scanFirst k e => (m, t.go (.scanActive k e m.records false))
  | .scanActive k e [] active => m.passed t e active k
  | .scanActive k e (cr :: rest) active =>
    if (m.record cr).active = 0 then (m, t.go (.scanActive k e rest active))
    else (m, t.go (.scanEpoch k e cr rest))
  | .scanEpoch k e cr rest =>
    if word (m.record cr).epoch = word e then (m, t.go (.scanActive k e rest true))
    else m.blocked i t e cr rest k
  | .pollStore deferred e =>
    (m.advance i e, t.go (.dispatch ⟨deferred, allSlots, some true⟩))
  | .pollCas deferred e =>
    ((m.tick e).narrow i [twoBefore e], t.go (.dispatch ⟨deferred, [twoBefore e], some true⟩))
  | .synchronizeReload barrier called n delta cr rest =>
    if word m.epoch = word delta then
      (m, t.go (.scanActive (.synchronize barrier called n) delta (cr :: rest) true))
    else if word called.epoch < word (called.epoch + grace) ∧
        word (called.epoch + grace) ≤ word m.epoch then
      (m, t.go (.synchronized barrier called))
    else (m, t.go (.scanFirst (.synchronize barrier called n) m.epoch))
  | .synchronizeCas barrier called n delta =>
    let m := m.tick delta
    if n + 1 < grace - 1 then (m, t.go (.scanFirst (.synchronize barrier called (n + 1)) m.epoch))
    else (m, t.go (.synchronized barrier called))
  | .synchronized barrier _ =>
    if barrier then (m, t.go (.dispatch ⟨false, allSlots, none⟩)) else (m, t.go (.client none))
  | .dispatch caller =>
    match caller.epochs with
    | [] => (m.leave i, t.go (.client caller.result))
    | e :: epochs =>
      ((m.empty i e).narrow i epochs,
        t.go (.walk { caller with epochs := epochs } (m.pending i (slot e))))
  | .walk caller [] => (m, t.go (.dispatch caller))
  | .walk caller (entry :: batch) =>
    if caller.deferred then (m.handOut i entry, t.go (.walk caller batch))
    else (m.handOut i entry, ⟨⟨caller, batch⟩ :: t.frames, .client none⟩)

end Mem

/-- One step of thread `i`: its record is registered, client code calls a function or returns from a
callback, or the thread makes the next access of its call. -/
inductive Step [DecidableEq ι] (i : ι) : Mem ι → Thread ι → Mem ι → Thread ι → Prop
  | register {m : Mem ι} {t : Thread ι} (new : i ∉ m.records) (client : t.pc.Client) :
      Step i m t (m.register i) t
  | beginSection {m : Mem ι} {t : Thread ι} (object : Bool) (registered : i ∈ m.records)
      (client : t.pc.Client) : Step i m t m (t.go (.beginActive object))
  | endSection {m : Mem ι} {t : Thread ι} (x : Section) (mem : x ∈ m.sections i)
      (client : t.pc.Client) : Step i m t m (t.go (.endActive x))
  | observe {m : Mem ι} {t : Thread ι} (inside : m.sections i ≠ []) (client : t.pc.Client) :
      Step i m t m (t.go .observeLoad)
  | call {m : Mem ι} {t : Thread ι} (registered : i ∈ m.records) (client : t.pc.Client) :
      Step i m t m (t.go .callLoad)
  | callStrict {m : Mem ι} {t : Thread ι} (r : ι) (registered : r ∈ m.records)
      (client : t.pc.Client) : Step i m t m (t.go (.strictLoad r))
  | poll {m : Mem ι} {t : Thread ι} (deferred : Bool) (registered : i ∈ m.records)
      (client : t.pc.Client) : Step i m t m (t.go (.pollLoad deferred))
  | synchronize {m : Mem ι} {t : Thread ι} (barrier : Bool) (registered : i ∈ m.records)
      (client : t.pc.Client) : Step i m t m (t.go (.synchronizeLoad barrier))
  | leave {m : Mem ι} {t : Thread ι} (f : Frame) (frames : List Frame)
      (inside : t.frames = f :: frames) (client : t.pc.Client) :
      Step i m t m ⟨frames, .walk f.caller f.batch⟩
  | act {m : Mem ι} {t : Thread ι} (running : ¬ t.pc.Client) :
      Step i m t (m.act i t).1 (m.act i t).2

/-- The memory after `ck_epoch_init`. -/
def init : Mem ι where
  epoch := 1
  records := []
  record := fun _ => { epoch := 0, active := 0, bucket := fun _ => ⟨0, 0⟩ }
  pending := fun _ _ => []
  clock := 0
  sections := fun _ => []
  reached := fun _ => 0
  rounds := fun _ => []
  dispatched := []

/-- All threads are outside of the library. -/
def start : Threads.System (Mem ι) (Thread ι) ι where
  mem := init
  pc := fun _ => ⟨[], .client none⟩

end ConcurrencyKit.Epoch.Grace
