import ConcurrencyKit.Misc.Counter
import ConcurrencyKit.Misc.Threads

/-!
# The cohort locks of `ck_cohort`

The functions that `CK_COHORT_TRYLOCK_PROTOTYPE` of `include/ck_cohort.h` defines, one access at a
time, for any number of cohorts that share a global lock. The locks are parameters of the macro.
Here they are what any correct one looks like to its users: nobody, or the one who has it. A call
to lock returns when nobody has the lock. A call to try may fail at any time.

The global lock may be released by another thread than the one that has taken it. It is held on
behalf of the cohort whose thread has taken it.
-/

namespace ConcurrencyKit.Cohort

/-- `enum ck_cohort_state`: `CK_COHORT_STATE_GLOBAL` and `CK_COHORT_STATE_LOCAL`. -/
inductive ReleaseState where
  | stateGlobal
  | stateLocal
  deriving DecidableEq, Repr

/-- The members of `CK_COHORT_INSTANCE` other than the locks. -/
structure Instance where
  releaseState : ReleaseState
  waitingThreads : Nat
  acquireCount : Nat
  localPassLimit : Nat

namespace Instance

/-- `ck_cohort_##N##_init`. -/
def init (passLimit : Nat) : Instance := ⟨.stateGlobal, 0, 0, passLimit⟩

/-- `ck_pr_inc_uint(&cohort->waiting_threads)`. -/
def incWaiting (c : Instance) : Instance :=
  { c with waitingThreads := Counter.inc (2 ^ 32) c.waitingThreads }

/-- `ck_pr_dec_uint(&cohort->waiting_threads)`. -/
def decWaiting (c : Instance) : Instance :=
  { c with waitingThreads := Counter.dec (2 ^ 32) c.waitingThreads }

/-- A store to `release_state`. -/
def setState (st : ReleaseState) (c : Instance) : Instance := { c with releaseState := st }

/-- A store to `acquire_count`. -/
def setCount (n : Nat) (c : Instance) : Instance := { c with acquireCount := n }

@[simp] theorem incWaiting_releaseState (c : Instance) :
    c.incWaiting.releaseState = c.releaseState := rfl

@[simp] theorem decWaiting_releaseState (c : Instance) :
    c.decWaiting.releaseState = c.releaseState := rfl

@[simp] theorem setState_releaseState (st : ReleaseState) (c : Instance) :
    (c.setState st).releaseState = st := rfl

@[simp] theorem setCount_releaseState (n : Nat) (c : Instance) :
    (c.setCount n).releaseState = c.releaseState := rfl

end Instance

/-- Where a thread stands. Its call is about the cohort. -/
inductive Pc (κ : Type) where
  | idle
  /-- It has locked the cohort and not yet begun to unlock it. -/
  | inside (c : κ)
  /-- `ck_cohort_##N##_lock`. -/
  | lockInc (c : κ)
  | lockLocal (c : κ)
  | lockDec (c : κ)
  | lockState (c : κ)
  | lockGlobal (c : κ)
  /-- `++cohort->acquire_count`, of `ck_cohort_##N##_lock` and `ck_cohort_##N##_trylock`. -/
  | count (c : κ)
  /-- `ck_cohort_##N##_trylock`. -/
  | tryInc (c : κ)
  | tryLocal (c : κ)
  | tryDec (c : κ) (trylockResult : Bool)
  | tryState (c : κ)
  | tryGlobal (c : κ)
  | tryUnlock (c : κ)
  /-- `ck_cohort_##N##_unlock`. -/
  | unlockWaiting (c : κ)
  | unlockCount (c : κ)
  | unlockKeep (c : κ)
  | unlockGlobal (c : κ)
  | unlockState (c : κ)
  | unlockReset (c : κ)
  | unlockLocal (c : κ)
  deriving DecidableEq, Repr

variable {κ ι : Type}

namespace Pc

/-- The thread is between two calls. -/
def Resting : Pc κ → Prop
  | idle | inside _ => True
  | _ => False

/-- The cohort that the thread has locked or that its call is about. -/
def cohort : Pc κ → Option κ
  | idle => none
  | inside c | lockInc c | lockLocal c | lockDec c | lockState c | lockGlobal c | count c
  | tryInc c | tryLocal c | tryDec c _ | tryState c | tryGlobal c | tryUnlock c
  | unlockWaiting c | unlockCount c | unlockKeep c | unlockGlobal c | unlockState c
  | unlockReset c | unlockLocal c => some c

end Pc

/-- The cohorts and the locks. -/
structure Mem (κ ι : Type) where
  inst : κ → Instance
  /-- The thread that has the local lock of a cohort. -/
  localLock : κ → Option ι
  /-- The cohort on whose behalf the global lock is held. -/
  globalLock : Option κ
  /-- The threads in `ck_cohort_##N##_lock` that are counted in `waiting_threads` and have not
  got the local lock. -/
  waits : κ → Finset ι

variable [DecidableEq κ]

namespace Mem

/-- A store to a member of a cohort. -/
def modify (c : κ) (f : Instance → Instance) (m : Mem κ ι) : Mem κ ι :=
  { m with inst := Function.update m.inst c (f (m.inst c)) }

def setLocal (c : κ) (holder : Option ι) (m : Mem κ ι) : Mem κ ι :=
  { m with localLock := Function.update m.localLock c holder }

def setGlobal (holder : Option κ) (m : Mem κ ι) : Mem κ ι :=
  { m with globalLock := holder }

/-- The threads of a cohort that wait in `ck_cohort_##N##_lock`. -/
def setWaits (c : κ) (w : Finset ι) (m : Mem κ ι) : Mem κ ι :=
  { m with waits := Function.update m.waits c w }

end Mem

variable [DecidableEq ι]

/-- One access of thread `i`: `ck_cohort_##N##_lock` (`ck_cohort.h:80-95`),
`ck_cohort_##N##_unlock` (`ck_cohort.h:97-115`) and `ck_cohort_##N##_trylock`
(`ck_cohort.h:125-150`). -/
def act (i : ι) (m : Mem κ ι) : Pc κ → Mem κ ι × Pc κ
  | .lockInc c =>
    ((m.modify c .incWaiting).setWaits c (insert i (m.waits c)), .lockLocal c)
  | .lockLocal c =>
    if m.localLock c = none then
      ((m.setLocal c (some i)).setWaits c ((m.waits c).erase i), .lockDec c)
    else (m, .lockLocal c)
  | .lockDec c => (m.modify c .decWaiting, .lockState c)
  | .lockState c =>
    (m, if (m.inst c).releaseState = .stateGlobal then .lockGlobal c else .count c)
  | .lockGlobal c =>
    if m.globalLock = none then (m.setGlobal (some c), .count c) else (m, .lockGlobal c)
  | .count c => (m.modify c (.setCount (Counter.inc (2 ^ 32) (m.inst c).acquireCount)), .inside c)
  | .tryInc c => (m.modify c .incWaiting, .tryLocal c)
  | .tryLocal c =>
    if m.localLock c = none then (m.setLocal c (some i), .tryDec c true) else (m, .tryDec c false)
  | .tryDec c trylockResult =>
    (m.modify c .decWaiting, if trylockResult then .tryState c else .idle)
  | .tryState c =>
    (m, if (m.inst c).releaseState = .stateGlobal then .tryGlobal c else .count c)
  | .tryGlobal c =>
    if m.globalLock = none then (m.setGlobal (some c), .count c) else (m, .tryUnlock c)
  | .tryUnlock c => (m.setLocal c none, .idle)
  | .unlockWaiting c =>
    (m, if (m.inst c).waitingThreads > 0 then .unlockCount c else .unlockGlobal c)
  | .unlockCount c =>
    (m, if (m.inst c).acquireCount < (m.inst c).localPassLimit then .unlockKeep c
      else .unlockGlobal c)
  | .unlockKeep c => (m.modify c (.setState .stateLocal), .unlockLocal c)
  | .unlockGlobal c => (m.setGlobal none, .unlockState c)
  | .unlockState c => (m.modify c (.setState .stateGlobal), .unlockReset c)
  | .unlockReset c => (m.modify c (.setCount 0), .unlockLocal c)
  | .unlockLocal c => (m.setLocal c none, .idle)
  | pc => (m, pc)

/-- One step of thread `i`: it calls a function that it may call where it stands, or makes the next
access of its call, or an attempt to take a lock fails. -/
inductive Step (i : ι) : Mem κ ι → Pc κ → Mem κ ι → Pc κ → Prop
  | lock {m : Mem κ ι} (c : κ) : Step i m .idle m (.lockInc c)
  | trylock {m : Mem κ ι} (c : κ) : Step i m .idle m (.tryInc c)
  | unlock {m : Mem κ ι} (c : κ) : Step i m (.inside c) m (.unlockWaiting c)
  | act {m : Mem κ ι} {pc : Pc κ} (running : ¬ pc.Resting) :
      Step i m pc (act i m pc).1 (act i m pc).2
  | localFails {m : Mem κ ι} (c : κ) : Step i m (.tryLocal c) m (.tryDec c false)
  | globalFails {m : Mem κ ι} (c : κ) : Step i m (.tryGlobal c) m (.tryUnlock c)

/-- `ck_cohort_##N##_locked`, of a cohort and in one look at both locks. -/
def locked (m : Mem κ ι) (c : κ) : Bool := m.globalLock.isSome || (m.localLock c).isSome

variable (κ ι) in
/-- New cohorts with their limits, and all threads idle. -/
def start (passLimit : κ → Nat) : Threads.System (Mem κ ι) (Pc κ) ι where
  mem := ⟨fun c => .init (passLimit c), fun _ => none, none, fun _ => ∅⟩
  pc := fun _ => .idle

theorem act_resting (i : ι) (m : Mem κ ι) {pc : Pc κ} (h : pc.Resting) :
    act i m pc = (m, pc) := by
  cases pc with
  | idle | inside => rfl
  | _ => exact h.elim

/-- A run in which a thread makes `n` more accesses. -/
theorem acts_reachable {ok : ι → Mem κ ι → Pc κ → Prop}
    {s₀ s : Threads.System (Mem κ ι) (Pc κ) ι} (hr : Threads.System.Reachable Step ok s₀ s) (i : ι)
    (n : Nat) (good : ∀ k < n + 1, ∀ j, ok j (s.acts act i k).mem ((s.acts act i k).pc j)) :
    Threads.System.Reachable Step ok s₀ (s.acts act i n) := by
  refine hr.acts i n (fun k hk m pc _ _ => ?_) good
  by_cases h : pc.Resting
  · exact .inl (act_resting i m h)
  · exact .inr (.act h)

end ConcurrencyKit.Cohort
