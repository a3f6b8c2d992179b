import ConcurrencyKit.Internal
import ConcurrencyKit.Misc.Threads

/-!
# The sections of `ck_epoch`

The begin and end of protected sections (`include/ck_epoch.h`) and the functions that advance the
global epoch (`src/ck_epoch.c`), one access to shared memory at a time. Each thread has a record;
it may have any number of sections open on it, which end in any order, and it may poll inside of
them.

An epoch is counted here without wrapping. The code holds its remainder by `2 ^ 32`, and it is on
the remainders that every test is made. Next to the records a `Mem` keeps the open sections with
the global epoch that each of them has begun in, which the code does not have. A section begins
with the last load of the global epoch in `ck_epoch_begin`, or with the store to `active` where the
call does not load it, and lasts until the last access of `ck_epoch_end`.
-/

namespace ConcurrencyKit.Epoch

/-- `struct ck_epoch_ref`. -/
structure Ref where
  epoch : Nat
  count : Nat
  deriving DecidableEq, Repr

/-- The part of `struct ck_epoch_record` that the sections and the scan use. -/
structure Record where
  epoch : Nat
  active : Nat
  bucket : Fin 2 → Ref

/-- An open section: the bucket that is stored in the section object, if one was passed, and the
global epoch that the section has begun in. -/
structure Section where
  bucket : Option (Fin 2)
  began : Nat
  deriving DecidableEq, Repr

/-- `struct ck_epoch` with its records, and the open sections. -/
structure Mem (ι : Type) where
  epoch : Nat
  record : ι → Record
  sections : ι → List Section

/-- The function that scans, with the local variables of `ck_epoch_synchronize_wait`. -/
inductive Scanner where
  | poll
  | synchronize (epoch i : Nat)
  deriving DecidableEq, Repr

/-- Where a thread stands, with the local variables that are live. The records that are still to be
scanned are listed. -/
inductive Pc (ι : Type) where
  | idle
  | beginActive (object : Bool)
  | beginLoad (object : Bool)
  | beginStore (object : Bool) (gEpoch : Nat)
  | addref
  | endActive (x : Section)
  | delref (bucket : Fin 2) (began : Nat)
  /-- `ck_epoch_end` has returned. -/
  | ended (last : Bool)
  | pollLoad
  | synchronizeLoad
  | scanActive (k : Scanner) (epoch : Nat) (rest : List ι) (active : Bool)
  | scanEpoch (k : Scanner) (epoch : Nat) (cr : ι) (rest : List ι)
  | pollStore (epoch : Nat)
  | pollCas (epoch : Nat)
  | synchronizeReload (epoch i delta : Nat) (cr : ι) (rest : List ι)
  | synchronizeCas (epoch i delta : Nat)
  | polled (result : Bool)
  | synchronized

variable {ι : Type}

/-- The thread is between two calls. -/
def Pc.Resting : Pc ι → Prop
  | .idle | .ended _ | .polled _ | .synchronized => True
  | _ => False

/-- The machine word of a number. -/
def word (n : Nat) : Nat := n % 2 ^ 32

/-- `epoch & CK_EPOCH_SENSE_MASK`. -/
def sense (epoch : Nat) : Fin 2 := Fin.ofNat 2 (word epoch)

/-- `CK_EPOCH_GRACE`. -/
def grace : Nat := 3

namespace Record

/-- The references of `_ck_epoch_addref` (`ck_epoch.c:185-226`), in the epoch `e`. -/
def addref (e : Nat) (r : Record) : Record :=
  { r with
    bucket := Function.update r.bucket (sense e)
      { epoch := if (r.bucket (sense e)).count = 0 then e else (r.bucket (sense e)).epoch
        count := inc 32 (r.bucket (sense e)).count } }

theorem addref_bucket_self (e : Nat) (r : Record) : (r.addref e).bucket (sense e) =
    { epoch := if (r.bucket (sense e)).count = 0 then e else (r.bucket (sense e)).epoch
      count := inc 32 (r.bucket (sense e)).count } :=
  Function.update_self _ _ _

theorem addref_bucket_of_ne {e : Nat} {b : Fin 2} (h : b ≠ sense e) (r : Record) :
    (r.addref e).bucket b = r.bucket b :=
  Function.update_of_ne h _ _

/-- One reference less in a bucket. -/
def drop (b : Fin 2) (r : Record) : Record :=
  { r with
    bucket := Function.update r.bucket b
      { r.bucket b with count := dec 32 (r.bucket b).count } }

theorem drop_bucket_self (b : Fin 2) (r : Record) :
    (r.drop b).bucket b = { r.bucket b with count := dec 32 (r.bucket b).count } :=
  Function.update_self _ _ _

theorem drop_bucket_of_ne {b c : Fin 2} (h : c ≠ b) (r : Record) :
    (r.drop b).bucket c = r.bucket c :=
  Function.update_of_ne h _ _

/-- The bucket is empty and the other one is in use and newer (`ck_epoch.c:171-180`). -/
def Moves (b : Fin 2) (r : Record) : Prop :=
  (r.bucket b).count = 0 ∧ 0 < (r.bucket (b + 1)).count ∧
    (BitVec.ofNat 32 (r.bucket b).epoch - BitVec.ofNat 32 (r.bucket (b + 1)).epoch).toInt < 0

instance (b : Fin 2) (r : Record) : Decidable (r.Moves b) :=
  inferInstanceAs (Decidable (_ ∧ _ ∧ _))

/-- `_ck_epoch_delref` (`ck_epoch.c:150-183`). -/
def delref (b : Fin 2) (r : Record) : Record :=
  if (r.drop b).Moves b then { r.drop b with epoch := ((r.drop b).bucket (b + 1)).epoch }
  else r.drop b

theorem delref_active (b : Fin 2) (r : Record) : (r.delref b).active = r.active := by
  unfold delref
  split <;> rfl

end Record

theorem eq_other {b c : Fin 2} (h : c ≠ b) : c = b + 1 := by
  revert b c
  decide

namespace Mem

/-- `ck_pr_cas_uint` of the global epoch, from `epoch` to `epoch + 1`. -/
def tick (epoch : Nat) (m : Mem ι) : Mem ι :=
  if word m.epoch = word epoch then { m with epoch := m.epoch + 1 } else m

variable [DecidableEq ι]

/-- A store of thread `i` to its record. -/
def set (i : ι) (r : Record) (m : Mem ι) : Mem ι :=
  { m with record := Function.update m.record i r }

/-- A section begins on the record of thread `i`. -/
def push (i : ι) (x : Section) (m : Mem ι) : Mem ι :=
  { m with sections := Function.update m.sections i (x :: m.sections i) }

/-- A section on the record of thread `i` ends. -/
def erase (i : ι) (x : Section) (m : Mem ι) : Mem ι :=
  { m with sections := Function.update m.sections i ((m.sections i).erase x) }

variable {m : Mem ι} {i : ι} {r : Record} {x : Section}

@[simp] theorem set_epoch : (m.set i r).epoch = m.epoch := rfl

@[simp] theorem set_record : (m.set i r).record i = r := Function.update_self _ _ _

@[simp] theorem set_sections : (m.set i r).sections = m.sections := rfl

@[simp] theorem push_epoch : (m.push i x).epoch = m.epoch := rfl

@[simp] theorem push_record : (m.push i x).record = m.record := rfl

@[simp] theorem push_sections : (m.push i x).sections i = x :: m.sections i :=
  Function.update_self _ _ _

@[simp] theorem erase_epoch : (m.erase i x).epoch = m.epoch := rfl

@[simp] theorem erase_record : (m.erase i x).record = m.record := rfl

@[simp] theorem erase_sections : (m.erase i x).sections i = (m.sections i).erase x :=
  Function.update_self _ _ _

omit [DecidableEq ι] in
/-- The scan has passed all records. -/
def passed (m : Mem ι) (epoch : Nat) (active : Bool) : Scanner → Mem ι × Pc ι
  | .poll => if active then (m, .pollCas epoch) else (m, .pollStore epoch)
  | .synchronize e n =>
    if active then (m, .synchronizeCas e n epoch) else (m, .synchronized)

omit [DecidableEq ι] in
/-- The scan has found an active record that is not in its epoch. -/
def blocked (m : Mem ι) (epoch : Nat) (cr : ι) (rest : List ι) : Scanner → Mem ι × Pc ι
  | .poll => (m, .polled false)
  | .synchronize e n => (m, .synchronizeReload e n epoch cr rest)

/-- One access of thread `i`: `ck_epoch_begin` and `ck_epoch_end` (`ck_epoch.h:125-248`), with
`_ck_epoch_addref` and `_ck_epoch_delref` (`ck_epoch.c:150-226`), `ck_epoch_poll`
(`ck_epoch.c:577-640`) without the dispatch, and `ck_epoch_synchronize_wait`
(`ck_epoch.c:436-538`), both with `ck_epoch_scan` (`ck_epoch.c:320-369`). -/
def act (records : List ι) (i : ι) (m : Mem ι) : Pc ι → Mem ι × Pc ι
  | .beginActive object =>
    if (m.record i).active = 0 then
      (m.set i { m.record i with active := 1 }, .beginLoad object)
    else
      let m := m.set i { m.record i with active := inc 32 (m.record i).active }
      if object then (m, .addref) else (m.push i ⟨none, m.epoch⟩, .idle)
  | .beginLoad object => (m, .beginStore object m.epoch)
  | .beginStore object e =>
    let m := m.set i { m.record i with epoch := e }
    if object then (m, .addref) else (m.push i ⟨none, e⟩, .idle)
  | .addref =>
    ((m.set i ((m.record i).addref m.epoch)).push i ⟨some (sense m.epoch), m.epoch⟩, .idle)
  | .endActive x =>
    let m := m.set i { m.record i with active := dec 32 (m.record i).active }
    match x.bucket with
    | some b => (m, .delref b x.began)
    | none => (m.erase i x, .ended (decide ((m.record i).active = 0)))
  | .delref b e =>
    ((m.set i ((m.record i).delref b)).erase i ⟨some b, e⟩,
      .ended (decide ((((m.record i).drop b).bucket b).count = 0)))
  | .pollLoad => (m, .scanActive .poll m.epoch records false)
  | .synchronizeLoad => (m, .scanActive (.synchronize m.epoch 0) m.epoch records false)
  | .scanActive k e [] active => m.passed e active k
  | .scanActive k e (cr :: rest) active =>
    if (m.record cr).active = 0 then (m, .scanActive k e rest active)
    else (m, .scanEpoch k e cr rest)
  | .scanEpoch k e cr rest =>
    if word (m.record cr).epoch = word e then (m, .scanActive k e rest true)
    else m.blocked e cr rest k
  | .pollStore e => (m.set i { m.record i with epoch := e }, .polled true)
  | .pollCas e => (m.tick e, .polled true)
  | .synchronizeReload e n delta cr rest =>
    if word m.epoch = word delta then (m, .scanActive (.synchronize e n) delta (cr :: rest) true)
    else if word e < word (e + grace) ∧ word (e + grace) ≤ word m.epoch then (m, .synchronized)
    else (m, .scanActive (.synchronize e n) m.epoch records false)
  | .synchronizeCas e n delta =>
    let m := m.tick delta
    if n + 1 < grace - 1 then (m, .scanActive (.synchronize e (n + 1)) m.epoch records false)
    else (m, .synchronized)
  | pc => (m, pc)

end Mem

/-- One step of thread `i`: it begins a section, ends one that is open, calls a function that may
advance the epoch, or makes the next access of its call. -/
inductive Step [DecidableEq ι] (records : List ι) (i : ι) :
    Mem ι → Pc ι → Mem ι → Pc ι → Prop
  | beginSection {m : Mem ι} {pc : Pc ι} (object : Bool) (resting : pc.Resting) :
      Step records i m pc m (.beginActive object)
  | endSection {m : Mem ι} {pc : Pc ι} (x : Section) (mem : x ∈ m.sections i)
      (resting : pc.Resting) : Step records i m pc m (.endActive x)
  | poll {m : Mem ι} {pc : Pc ι} (resting : pc.Resting) : Step records i m pc m .pollLoad
  | synchronize {m : Mem ι} {pc : Pc ι} (outside : m.sections i = []) (resting : pc.Resting) :
      Step records i m pc m .synchronizeLoad
  | act {m : Mem ι} {pc : Pc ι} (running : ¬ pc.Resting) :
      Step records i m pc (m.act records i pc).1 (m.act records i pc).2

/-- Fewer than `2 ^ 32` sections are open on the record of thread `i`. -/
def Few (i : ι) (m : Mem ι) (_ : Pc ι) : Prop := (m.sections i).length < 2 ^ 32

/-- The memory after `ck_epoch_init` and `ck_epoch_register` of all records. -/
def init : Mem ι where
  epoch := 1
  record := fun _ => { epoch := 0, active := 0, bucket := fun _ => ⟨0, 0⟩ }
  sections := fun _ => []

/-- All threads are idle. -/
def start : Threads.System (Mem ι) (Pc ι) ι where
  mem := init
  pc := fun _ => .idle

end ConcurrencyKit.Epoch
