import ConcurrencyKit.Misc.Fairness
import ConcurrencyKit.Pflock.Fairness
import Mathlib.Algebra.BigOperators.Group.Finset.Basic
import Mathlib.Algebra.Order.BigOperators.Group.Finset
import Mathlib.Data.Prod.Lex

/-!
# `ck_pflock` serves every thread

In a fair run in which no reader and no writer keeps the lock for ever, the stages of the writers go
on as long as there is a writer: the one whose turn it is goes on by itself, except that it waits
for the readers that came before its announcement, and these do not wait for it. So every reader
and every writer gets the lock.
-/

namespace ConcurrencyKit.Pflock

open Threads (System)
open Visits (Visit)
open Fairness (Fair Ranking Run)

variable {ι : Type} {i j k x : ι} {m m' : Mem ι} {pc pc' : Pc ι}
variable {t u : Visit ι (Option Nat)} {a b : Visit ι Unit} {n S : Nat}

namespace Pc

/-- The thread has the lock and is in no call. -/
def Has (pc : Pc ι) : Prop := (∃ t, pc = reading t) ∨ ∃ a, pc = writing a

/-- The thread is in no call and does not have the lock. -/
def Idle (pc : Pc ι) : Prop := pc = idle

/-- The visit of a reader. -/
def readTicket : Pc ι → Option (Visit ι (Option Nat))
  | reading t | readWait t _ | unlockRout t => some t
  | _ => none

/-- How far the writer whose turn it is is from giving it to the next one. -/
def writeStage : Pc ι → Nat
  | writeWout _ _ => 6
  | writeRin _ _ => 5
  | writeRout _ _ => 4
  | writing _ => 3
  | unlockRin _ => 2
  | unlockWout _ => 1
  | _ => 0

/-- How far a reader is from leaving. -/
def readStage : Pc ι → Nat
  | readWait _ _ => 3
  | reading _ => 2
  | unlockRout _ => 1
  | _ => 0

end Pc

theorem not_has (pc : Pc ι) (h : pc.Idle) : ¬ pc.Has := by
  rintro (⟨t, rfl⟩ | ⟨a, rfl⟩) <;> cases h

/-- The visits of a thread are those that it knows of. -/
structure Owned (i : ι) (m : Mem ι) (pc : Pc ι) : Prop where
  readers : m.readers.Owns i pc.readTicket
  writers : m.writers.Owns i pc.writeTicket

variable [DecidableEq ι]

theorem owned_own (h : Owned i m pc) (hstep : Step i m pc m' pc') : Owned i m' pc' := by
  obtain ⟨hr, hw⟩ := h
  cases hstep with
  | writeLock | writeUnlock | readLock | readUnlock => exact ⟨hr, hw⟩
  | act =>
    cases pc with
    | idle | reading | writing | writeRin | unlockRin => exact ⟨hr, hw⟩
    | writeWin => exact ⟨hr, hw.arrive⟩
    | unlockWout a => exact ⟨hr, hw.leave⟩
    | unlockRout t => exact ⟨hr.leave, hw⟩
    | writeWout | writeRout | readWait =>
      simp only [act]
      split <;> exact ⟨hr, hw⟩
    | readRin =>
      simp only [act]
      split <;> exact ⟨hr.arrive, hw⟩

theorem owned_other (h : Owned i m pc) (hstep : Step i m pc m' pc') (hj : j ≠ i) {q : Pc ι}
    (hq : Owned j m q) : Owned j m' q := by
  obtain ⟨hr, hw⟩ := hq
  cases hstep with
  | writeLock | writeUnlock | readLock | readUnlock => exact ⟨hr, hw⟩
  | act =>
    cases pc with
    | idle | reading | writing | writeRin | unlockRin | writeWout | readWait => exact ⟨hr, hw⟩
    | writeWin => exact ⟨hr, hw.arrive_other hj⟩
    | readRin => exact ⟨hr.arrive_other hj, hw⟩
    | unlockWout a =>
      have howner := ((h.writers a).mpr rfl).2
      exact ⟨hr, hw.leave_other (howner ▸ hj.symm)⟩
    | unlockRout t =>
      have howner := ((h.readers t).mpr rfl).2
      exact ⟨hr.leave_other (howner ▸ hj.symm), hw⟩
    | writeRout =>
      simp only [act]
      split <;> exact ⟨hr, hw⟩

theorem owned_invariant : Threads.Invariant (Step (ι := ι)) Few Inv
    (fun i m pc => At i m pc ∧ Owned i m pc) where
  own hstep hfew hinv := by
    rintro ⟨hat, ho⟩
    obtain ⟨hinv', hat'⟩ := invariant.own hstep hfew hinv hat
    exact ⟨hinv', hat', owned_own ho hstep⟩
  other hstep hfew hinv := by
    rintro ⟨hat, ho⟩ j q hj ⟨hq, hoq⟩
    exact ⟨invariant.other hstep hfew hinv hat hj hq, owned_other ho hstep hj hoq⟩

/-- What holds in every state of a run. -/
structure Good (s : System (Mem ι) (Pc ι) ι) : Prop where
  inv : Inv s.mem
  few : ∀ i, Few i s.mem (s.pc i)
  all : ∀ i, At i s.mem (s.pc i)
  owned : ∀ i, Owned i s.mem (s.pc i)

/-! ## The readers that a writer waits for -/

/-- The readers that came before the announcement of a writer. -/
def fenced (m : Mem ι) : Finset (Visit ι (Option Nat)) :=
  match m.phase with
  | .announced n => m.readers.before n
  | _ => ∅

omit [DecidableEq ι] in
theorem mem_fenced : t ∈ fenced m ↔ ∃ n, m.phase = .announced n ∧ t ∈ m.readers.before n := by
  unfold fenced
  cases m.phase with
  | announced n => simp
  | quiet | cleared => simp

omit [DecidableEq ι] in
theorem fenced_congr (hphase : m'.phase = m.phase)
    (hbefore : ∀ n, m.phase = .announced n → m'.readers.before n = m.readers.before n) :
    fenced m' = fenced m := by
  ext t
  simp only [mem_fenced, hphase]
  refine ⟨?_, ?_⟩
  · rintro ⟨n, hn, ht⟩
    exact ⟨n, hn, hbefore n hn ▸ ht⟩
  · rintro ⟨n, hn, ht⟩
    exact ⟨n, hn, (hbefore n hn).symm ▸ ht⟩

/-- What a step does to the readers that a writer waits for, while the writers do not go on. -/
structure Calm (m m' : Mem ι) (pc : Pc ι) : Prop where
  left : m'.writers.left = m.writers.left
  fenced : (∃ t, pc = .unlockRout t ∧ fenced m' = (fenced m).erase t) ∨
    (∀ t, pc ≠ .unlockRout t) ∧ fenced m' = fenced m

theorem step_calm (hinv : Inv m) (hat : At i m pc) (h : Step i m pc m' pc') :
    stage m < stage m' ∨ Calm m m' pc := by
  cases h with
  | writeLock | readLock | writeUnlock | readUnlock =>
    exact .inr ⟨rfl, .inr ⟨fun t h => (by cases h), rfl⟩⟩
  | act =>
    cases pc with
    | idle | reading | writing | writeWin | writeWout | readWait =>
      exact .inr ⟨rfl, .inr ⟨fun t h => (by cases h), rfl⟩⟩
    | writeRout a ticket =>
      refine .inr ?_
      simp only [act]
      split <;> exact ⟨rfl, .inr ⟨fun t h => (by cases h), rfl⟩⟩
    | readRin =>
      refine .inr ⟨rfl, .inr ⟨fun t h => (by cases h), ?_⟩⟩
      refine fenced_congr (m := m) rfl fun n hn => ?_
      exact (hinv.fence n hn).before_arrive
    | unlockRout t =>
      refine .inr ⟨rfl, .inl ⟨t, rfl, ?_⟩⟩
      ext u
      simp only [mem_fenced, act, Mem.faaRout, Visits.before_leave, Finset.mem_erase]
      refine ⟨?_, ?_⟩
      · rintro ⟨n, hn, hne, hu⟩
        exact ⟨hne, n, hn, hu⟩
      · rintro ⟨hne, n, hn, hu⟩
        exact ⟨n, hn, hne, hu⟩
    | writeRin a ticket =>
      obtain ⟨-, -, -, hphase⟩ := hat
      exact .inl (by simp [act, stage, Mem.announce, hphase])
    | unlockRin a =>
      obtain ⟨-, halone, -⟩ := hat
      obtain ⟨n, hn, -⟩ := halone.empty
      exact .inl (by simp [act, stage, Mem.clear, hn])
    | unlockWout a =>
      obtain ⟨-, -, hphase⟩ := hat
      refine .inl ?_
      simp only [act, stage, Mem.faaWout, Visits.leave, hphase]
      omega

/-- A reader that a writer waits for comes nearer to leaving, or goes on to hold the lock. -/
theorem step_fenced (hinv : Inv m) (hat : At i m pc) (h : Step i m pc m' pc')
    (ht : pc.readTicket = some t) (hf : t ∈ fenced m) :
    pc = .unlockRout t ∨ pc'.readStage < pc.readStage ∨ pc' = pc ∧ pc.Has := by
  cases h with
  | writeLock | readLock | writeUnlock => exact absurd ht.symm (Option.some_ne_none t)
  | readUnlock u => exact .inr (.inl (Nat.lt_succ_self 1))
  | act =>
    cases pc with
    | idle | writing | writeWin | writeWout | writeRin | writeRout | unlockRin | unlockWout
    | readRin => exact absurd ht.symm (Option.some_ne_none t)
    | unlockRout u =>
      obtain rfl : u = t := Option.some.inj ht
      exact .inl rfl
    | reading u => exact .inr (.inr ⟨rfl, .inl ⟨u, rfl⟩⟩)
    | readWait u w =>
      obtain rfl : u = t := Option.some.inj ht
      obtain ⟨hholds, writer, hnote, rfl⟩ := hat
      obtain ⟨n, hn, hbefore⟩ := mem_fenced.mp hf
      have hlt := (Visits.mem_before.mp hbefore).2
      -- the writer that it waits for has given its turn to this one
      have hgone : m.rin &&& wbits ≠ phaseBits writer := by
        intro heq
        obtain ⟨n', hn', hle, -⟩ := (hinv.waits_iff hholds.1 hnote).mp heq
        rw [hn] at hn'
        cases hn'
        omega
      simp only [act, if_neg hgone]
      exact .inr (.inl (Nat.lt_succ_self 2))

/-- How far these readers are from leaving, all together. -/
def delay (s : System (Mem ι) (Pc ι) ι) : Nat :=
  ∑ t ∈ fenced s.mem, (s.pc t.owner).readStage

/-- Readers with other owners are where they were. -/
theorem delay_others {s : System (Mem ι) (Pc ι) ι} {mem : Mem ι} {p : Pc ι}
    (h : ∀ t ∈ fenced mem, t.owner ≠ x) :
    delay ⟨mem, Function.update s.pc x p⟩ = ∑ t ∈ fenced mem, (s.pc t.owner).readStage :=
  Finset.sum_congr rfl fun t ht => congrArg Pc.readStage (Function.update_of_ne (h t ht) ..)

omit [DecidableEq ι] in
theorem fenced_sub : fenced m ⊆ m.readers.present := by
  intro t ht
  obtain ⟨n, -, hbefore⟩ := mem_fenced.mp ht
  exact (Visits.mem_before.mp hbefore).1

omit [DecidableEq ι] in
theorem Good.reader {s : System (Mem ι) (Pc ι) ι} (hs : Good s) (ht : t ∈ fenced s.mem) :
    (s.pc t.owner).readTicket = some t :=
  ((hs.owned t.owner).readers t).mp ⟨fenced_sub ht, rfl⟩

/-- A step brings the readers nearer to leaving, all together, or leaves them where they are. -/
theorem delay_step {s : System (Mem ι) (Pc ι) ι} (hs : Good s) {mem : Mem ι} {p : Pc ι}
    (hstep : Step x s.mem (s.pc x) mem p) (hcalm : Calm s.mem mem (s.pc x)) :
    delay ⟨mem, Function.update s.pc x p⟩ < delay s ∨
      delay ⟨mem, Function.update s.pc x p⟩ = delay s ∧ fenced mem = fenced s.mem ∧
        ∀ t ∈ fenced s.mem, t.owner = x → p = s.pc x ∧ (s.pc x).Has := by
  have hticket : ∀ t ∈ fenced s.mem, t.owner = x → (s.pc x).readTicket = some t := by
    rintro t ht rfl
    exact hs.reader ht
  rcases hcalm.fenced with ⟨t, hpc, hfenced⟩ | ⟨hpc, hfenced⟩
  · have hothers : ∀ u ∈ (fenced s.mem).erase t, u.owner ≠ x := by
      intro u hu howner
      obtain ⟨hne, hu⟩ := Finset.mem_erase.mp hu
      have hu' := hticket u hu howner
      rw [hpc] at hu'
      exact hne (Option.some.inj hu').symm
    by_cases ht : t ∈ fenced s.mem
    · refine .inl ?_
      have howner : t.owner = x := by
        have hsome : (s.pc x).readTicket = some t := by rw [hpc]; rfl
        exact (((hs.owned x).readers t).mpr hsome).2
      rw [delay_others (hfenced ▸ hothers), hfenced, delay, ← Finset.add_sum_erase _ _ ht, howner,
        hpc]
      exact Nat.lt_add_of_pos_left Nat.one_pos
    · rw [Finset.erase_eq_of_notMem ht] at hfenced hothers
      refine .inr ⟨?_, hfenced, fun u hu howner => absurd howner (hothers u hu)⟩
      rw [delay_others (hfenced ▸ hothers), hfenced, delay]
  · by_cases hone : ∃ t ∈ fenced s.mem, t.owner = x
    · obtain ⟨t, ht, rfl⟩ := hone
      rcases step_fenced hs.inv (hs.all _) hstep (hs.reader ht) ht with h | hless | ⟨rfl, hhas⟩
      · exact absurd h (hpc t)
      · refine .inl ?_
        unfold delay
        dsimp only
        rw [hfenced]
        refine Finset.sum_lt_sum (fun u hu => ?_) ⟨t, ht, ?_⟩
        · by_cases hut : u.owner = t.owner
          · rw [hut, Function.update_self]
            exact hless.le
          · rw [Function.update_of_ne hut]
        · rwa [Function.update_self]
      · refine .inr ⟨?_, hfenced, fun _ _ _ => ⟨rfl, hhas⟩⟩
        unfold delay
        dsimp only
        rw [hfenced, Function.update_eq_self]
    · have hothers : ∀ t ∈ fenced s.mem, t.owner ≠ x := fun t ht h => hone ⟨t, ht, h⟩
      refine .inr ⟨?_, hfenced, fun t ht h => absurd h (hothers t ht)⟩
      rw [delay_others (hfenced ▸ hothers), hfenced, delay]

/-! ## The writer whose turn it is -/

/-- The writer whose turn it is goes on, or waits for readers that came before its announcement. -/
theorem step_turn (hinv : Inv m) (hat : At i m pc) (h : Step i m pc m' pc')
    (ha : pc.writeTicket = some a) (hnumber : a.number = m.writers.left)
    (hstage : ¬ stage m < stage m') :
    pc'.writeTicket = some a ∧ (pc'.writeStage < pc.writeStage ∨ pc' = pc ∧ m' = m ∧
      (pc.Has ∨ (∃ c ticket, pc = .writeRout c ticket) ∧ (fenced m).Nonempty)) := by
  cases h with
  | writeLock | readLock | readUnlock => exact absurd ha.symm (Option.some_ne_none a)
  | writeUnlock c => exact ⟨ha, .inl (Nat.lt_succ_self 2)⟩
  | act =>
    cases pc with
    | idle | reading | writeWin | readRin | readWait | unlockRout =>
      exact absurd ha.symm (Option.some_ne_none a)
    | writing c => exact ⟨ha, .inr ⟨rfl, rfl, .inl (.inr ⟨c, rfl⟩)⟩⟩
    | writeWout c ticket =>
      obtain rfl : c = a := Option.some.inj ha
      obtain ⟨-, rfl, -⟩ := hat
      have hwout : m.wout = c.number % 2 ^ 32 := by rw [hinv.wout, hnumber]
      simp [act, hwout, Pc.writeTicket, Pc.writeStage]
    | writeRin c ticket =>
      obtain ⟨-, -, -, hphase⟩ := hat
      exact absurd (by simp [act, stage, Mem.announce, hphase]) hstage
    | writeRout c ticket =>
      obtain rfl : c = a := Option.some.inj ha
      obtain ⟨-, -, -, n, hn, rfl⟩ := hat
      by_cases hrout : m.rout = counter n 0
      · simp [act, hrout, Pc.writeTicket, Pc.writeStage]
      · have hne : (fenced m).Nonempty := by
          rw [Finset.nonempty_iff_ne_empty]
          intro hempty
          simp only [fenced, hn] at hempty
          -- as many readers have left as have come before the announcement
          have hcard := (hinv.fence n hn).2
          rw [hempty, Finset.card_empty, Nat.add_zero] at hcard
          exact hrout (hcard ▸ hinv.rout)
        simp [act, hrout, Pc.writeTicket, hne]
    | unlockRin c =>
      obtain ⟨-, halone, -⟩ := hat
      obtain ⟨n, hn, -⟩ := halone.empty
      exact absurd (by simp [act, stage, Mem.clear, hn]) hstage
    | unlockWout c =>
      obtain ⟨-, -, hphase⟩ := hat
      refine absurd ?_ hstage
      simp only [act, stage, Mem.faaWout, Visits.leave, hphase]
      omega

/-- The writers are at the stage `S`, and thread `j` has to go on: the writer whose turn it is, or a
reader that this writer waits for. -/
structure Helps (S : Nat) (a : Nat ×ₗ Nat) (j : ι) (s : System (Mem ι) (Pc ι) ι) : Prop where
  stage : stage s.mem = S
  turn : ∃ k b, (s.pc k).writeTicket = some b ∧ b.number = s.mem.writers.left ∧
    a = toLex ((s.pc k).writeStage, delay s) ∧
    ((∃ t ∈ fenced s.mem, t.owner = j) ∨ j = k ∧ fenced s.mem = ∅)

omit [DecidableEq ι] in
/-- When it is the turn of a writer there is a thread that has to go on. -/
theorem Good.helps {s : System (Mem ι) (Pc ι) ι} (hb : (s.pc k).writeTicket = some b)
    (hnumber : b.number = s.mem.writers.left) :
    ∃ j, Helps (Pflock.stage s.mem) (toLex ((s.pc k).writeStage, delay s)) j s := by
  by_cases hempty : fenced s.mem = ∅
  · exact ⟨k, rfl, k, b, hb, hnumber, rfl, .inr ⟨rfl, hempty⟩⟩
  · obtain ⟨t, ht⟩ := Finset.nonempty_iff_ne_empty.mpr hempty
    exact ⟨t.owner, rfl, k, b, hb, hnumber, rfl, .inl ⟨t, ht, rfl⟩⟩

/-- The stage changes. -/
theorem ranking (S : Nat) : Ranking (Step (ι := ι)) Pc.Idle Pc.Has Good
    (fun s => S < stage s.mem) (Helps S) where
  busy := by
    rintro a j s hs ⟨-, k, b, hb, -, -, ⟨t, ht, rfl⟩ | ⟨rfl, -⟩⟩ hidle
    · have hreader := hs.reader ht
      rw [show s.pc t.owner = .idle from hidle] at hreader
      cases hreader
    · rw [show s.pc j = .idle from hidle] at hb
      cases hb
  next := by
    rintro a x j mem p s hs hs' hstep ⟨rfl, k, b, hb, hnumber, rfl, hj⟩
    by_cases haim : stage s.mem < stage mem
    · exact .inl haim
    refine .inr ?_
    have hcalm : Calm s.mem mem (s.pc x) :=
      (step_calm hs.inv (hs.all x) hstep).resolve_left haim
    have hsame : stage mem = stage s.mem :=
      le_antisymm (Nat.not_lt.mp haim) (stage_mono hstep (hs.all x))
    -- a step that lowers the rank
    have hless : (Function.update s.pc x p k).writeTicket = some b →
        toLex ((Function.update s.pc x p k).writeStage, delay ⟨mem, Function.update s.pc x p⟩) <
          toLex ((s.pc k).writeStage, delay s) →
        ∃ c j', c < toLex ((s.pc k).writeStage, delay s) ∧
          Helps (stage s.mem) c j' ⟨mem, Function.update s.pc x p⟩ := by
      intro hb' hlt
      obtain ⟨j', hj'⟩ := Good.helps (s := ⟨mem, Function.update s.pc x p⟩) hb'
        (hnumber.trans hcalm.left.symm)
      exact ⟨_, j', hlt, hsame ▸ hj'⟩
    by_cases hxk : x = k
    · subst hxk
      have hself : Function.update s.pc x p x = p := Function.update_self ..
      obtain ⟨hb', hturn⟩ := step_turn hs.inv (hs.all x) hstep hb hnumber haim
      rcases hturn with hlt | ⟨rfl, rfl, hstays⟩
      · refine .inl (hless ((congrArg Pc.writeTicket hself).trans hb') ?_)
        rw [Prod.Lex.toLex_lt_toLex, hself]
        exact .inl hlt
      · rw [Function.update_eq_self]
        refine .inr ⟨⟨rfl, x, b, hb, hnumber, rfl, hj⟩, ?_⟩
        rintro rfl
        rcases hstays with hhas | ⟨⟨c, ticket, hpc⟩, hne⟩
        · exact ⟨hhas, hhas⟩
        · rcases hj with ⟨t, ht, howner⟩ | ⟨-, hempty⟩
          · have hreader := hs.reader ht
            rw [howner, hpc] at hreader
            cases hreader
          · exact absurd hempty (Finset.nonempty_iff_ne_empty.mp hne)
    · have hother : Function.update s.pc x p k = s.pc k :=
        Function.update_of_ne (Ne.symm hxk) ..
      have hb' : (Function.update s.pc x p k).writeTicket = some b := by rwa [hother]
      rcases delay_step hs hstep hcalm with hlt | ⟨heq, hfenced, hreaders⟩
      · refine .inl (hless hb' ?_)
        rw [Prod.Lex.toLex_lt_toLex, hother]
        exact .inr ⟨rfl, hlt⟩
      · refine .inr ⟨⟨hsame, k, b, hb', hnumber.trans hcalm.left.symm, ?_, hfenced ▸ hj⟩, ?_⟩
        · rw [heq]
          simp only [hother]
        · rintro rfl
          rcases hj with ⟨t, ht, howner⟩ | ⟨hk, -⟩
          · obtain ⟨rfl, hhas⟩ := hreaders t ht howner
            exact ⟨hhas, hhas⟩
          · exact absurd hk hxk

/-! ## Runs -/

namespace Pc

/-- The thread waits with a ticket in `ck_pflock_write_lock`. -/
def WaitsWrite (a : Visit ι Unit) : Pc ι → Prop
  | writeWout b _ | writeRin b _ | writeRout b _ => b = a
  | _ => False

/-- The thread waits for the bits of a writer in `ck_pflock_read_lock`. -/
def WaitsRead (t : Visit ι (Option Nat)) : Pc ι → Prop
  | readWait u _ => u = t
  | _ => False

/-- The thread is in `ck_pflock_write_lock`. -/
def WriteLocks (pc : Pc ι) : Prop := pc = writeWin ∨ ∃ a, pc.WaitsWrite a

/-- The thread is in `ck_pflock_read_lock`. -/
def ReadLocks (pc : Pc ι) : Prop := pc = readRin ∨ ∃ t, pc.WaitsRead t

end Pc

omit [DecidableEq ι] in
theorem Pc.WaitsWrite.ticket (h : pc.WaitsWrite a) : pc.writeTicket = some a := by
  cases pc with
  | writeWout | writeRin | writeRout => exact congrArg some h
  | idle | reading | writing | writeWin | unlockRin | unlockWout | readRin | readWait
  | unlockRout => exact h.elim

theorem step_waitsWrite (m : Mem ι) (pc : Pc ι) (m' : Mem ι) (pc' : Pc ι)
    (hw : pc.WaitsWrite a) (h : Step i m pc m' pc') : pc'.WaitsWrite a ∨ pc' = .writing a := by
  cases h with
  | writeLock | readLock | writeUnlock | readUnlock => exact hw.elim
  | act =>
    cases pc with
    | writeRin b ticket => exact .inl hw
    | writeWout b ticket =>
      obtain rfl : b = a := hw
      simp only [act]
      split <;> exact .inl rfl
    | writeRout b ticket =>
      obtain rfl : b = a := hw
      simp only [act]
      split
      · exact .inl rfl
      · exact .inr rfl
    | idle | reading | writing | writeWin | unlockRin | unlockWout | readRin | readWait
    | unlockRout => exact hw.elim

theorem step_waitsRead (m : Mem ι) (pc : Pc ι) (m' : Mem ι) (pc' : Pc ι)
    (hw : pc.WaitsRead t) (h : Step i m pc m' pc') : pc'.WaitsRead t ∨ pc' = .reading t := by
  cases h with
  | writeLock | readLock | writeUnlock | readUnlock => exact hw.elim
  | act =>
    cases pc with
    | readWait u w =>
      obtain rfl : u = t := hw
      simp only [act]
      split
      · exact .inl rfl
      · exact .inr rfl
    | idle | reading | writing | writeWin | writeWout | writeRin | writeRout | unlockRin
    | unlockWout | readRin | unlockRout => exact hw.elim

theorem step_writeWin (h : Step i m .writeWin m' pc') : ∃ a, pc'.WaitsWrite a := by
  cases h with
  | act => exact ⟨_, rfl⟩

theorem step_readRin (h : Step i m .readRin m' pc') :
    ∃ t, pc' = .reading t ∨ pc'.WaitsRead t := by
  cases h with
  | act =>
    simp only [act]
    split
    · exact ⟨_, .inl rfl⟩
    · exact ⟨_, .inr rfl⟩

omit [DecidableEq ι] in
theorem not_has_writeWin : ¬ (Pc.writeWin : Pc ι).Has := by
  rintro (⟨t, h⟩ | ⟨a, h⟩) <;> cases h

omit [DecidableEq ι] in
theorem not_has_readRin : ¬ (Pc.readRin : Pc ι).Has := by
  rintro (⟨t, h⟩ | ⟨a, h⟩) <;> cases h

section Runs

variable {r : Run (Step (ι := ι)) Few (start ι)}

theorem good (r : Run (Step (ι := ι)) Few (start ι)) (n : Nat) : Good (r.state n) := by
  obtain ⟨hinv, hall⟩ := owned_invariant.reachable (r.reachable n) few_start inv_start
    fun i => ⟨trivial, Visits.Owns.empty i, Visits.Owns.empty i⟩
  exact ⟨hinv, fun i => (hall i).1, fun i => (hall i).2.1, fun i => (hall i).2.2⟩

/-- As long as there is a writer, the writers go on. -/
theorem stage_advances (hf : Fair Pc.Idle Pc.Has r) {a : Visit ι Unit}
    (ha : a ∈ (r.state n).mem.writers.present) :
    ∃ m, n ≤ m ∧ stage (r.state n).mem < stage (r.state m).mem := by
  have hgood := good r n
  obtain ⟨b, hb, hnumber⟩ := hgood.inv.inOrder.exists_first hgood.inv.writers ha
  have howns := ((hgood.owned b.owner).writers b).mp ⟨hb, rfl⟩
  obtain ⟨j, hj⟩ := Good.helps howns hnumber
  exact (ranking _).reached hf (good r) hj

theorem stage_le (r : Run (Step (ι := ι)) Few (start ι)) {n m : Nat} (h : n ≤ m) :
    stage (r.state n).mem ≤ stage (r.state m).mem :=
  invariant.monotone (R := fun m m' => stage m ≤ stage m') (fun m => le_refl (stage m)) le_trans
    (fun h _ _ hat => stage_mono h hat) (r.reachable n) (r.reachable_of_le h) few_start inv_start
    fun _ => trivial

/-- A writer that waits gets the lock. -/
theorem write_served (hf : Fair Pc.Idle Pc.Has r) (hw : ((r.state n).pc i).WaitsWrite a) :
    ∃ m, n ≤ m ∧ (r.state m).pc i = .writing a := by
  induction hd : 3 * a.number + 3 - stage (r.state n).mem using Nat.strong_induction_on
    generalizing n with
  | _ d ih =>
    have hgood := good r n
    have hmem := (((hgood.owned i).writers a).mpr hw.ticket).1
    obtain ⟨m, hle, hlt⟩ := stage_advances hf hmem
    rcases r.stays step_waitsWrite hw hle with hw' | ⟨k, hk, hdone⟩
    · -- the writer still waits, so it is not past its turn
      have hgood' := good r m
      have hmem' := (((hgood'.owned i).writers a).mpr hw'.ticket).1
      have hturn := hgood'.inv.inOrder a hmem'
      have hstage : stage (r.state m).mem ≤ 3 * (r.state m).mem.writers.left + 2 := by
        unfold stage
        split <;> omega
      obtain ⟨k, hk, hdone⟩ := ih _ (by omega) hw' rfl
      exact ⟨k, by omega, hdone⟩
    · exact ⟨k, hk, hdone⟩

/-- A reader enters when the writer has gone on that it has found announced. -/
theorem read_enters (hf : Fair Pc.Idle Pc.Has r) {writer : Nat}
    (hw : ((r.state n).pc i).WaitsRead t) (hnote : t.note = some writer)
    (hstage : 3 * writer + 1 < stage (r.state n).mem) :
    ∃ m, n ≤ m ∧ (r.state m).pc i = .reading t := by
  cases hpc : (r.state n).pc i with
  | readWait u w =>
    rw [hpc] at hw
    obtain rfl : u = t := hw
    have hbusy : ¬ ((r.state n).pc i).Idle ∧ ¬ ((r.state n).pc i).Has := by
      rw [hpc]
      refine ⟨fun h => (by cases h), ?_⟩
      rintro (⟨t, h⟩ | ⟨a, h⟩) <;> cases h
    obtain ⟨k, hk, hsame, hstep⟩ := hf.goes hbusy.1 hbusy.2
    have hgood := good r k
    have hat := hgood.all i
    rw [hsame, hpc] at hat
    rw [hpc] at hstep
    obtain ⟨hholds, writer', hnote', rfl⟩ := hat
    obtain rfl : writer' = writer := Option.some.inj (hnote'.symm.trans hnote)
    have hlt := lt_of_lt_of_le hstage (stage_le r hk)
    -- the bits that it waits for are gone
    have hgone : (r.state k).mem.rin &&& wbits ≠ phaseBits writer' := fun heq => by
      have := (hgood.inv.waits_stage hholds.1 hnote).1 heq
      omega
    refine ⟨k + 1, by omega, ?_⟩
    generalize (r.state (k + 1)).mem = m', (r.state (k + 1)).pc i = pc' at hstep
    cases hstep with
    | act => simp [act, hgone]
  | _ =>
    rw [hpc] at hw
    exact hw.elim

/-- A reader that waits gets the lock. -/
theorem read_served (hf : Fair Pc.Idle Pc.Has r) (hw : ((r.state n).pc i).WaitsRead t) :
    ∃ m, n ≤ m ∧ (r.state m).pc i = .reading t := by
  have hgood := good r n
  obtain ⟨hholds, writer, hnote⟩ : Holds i (r.state n).mem.readers t ∧ ∃ w, t.note = some w := by
    have hat := hgood.all i
    cases hpc : (r.state n).pc i with
    | readWait u w =>
      rw [hpc] at hw hat
      obtain rfl : u = t := hw
      exact ⟨hat.1, hat.2.imp fun _ h => h.1⟩
    | _ =>
      rw [hpc] at hw
      exact hw.elim
  obtain ⟨hstage, hpast⟩ := hgood.inv.waits_stage hholds.1 hnote
  by_cases hbits : (r.state n).mem.rin &&& wbits = phaseBits writer
  · -- the writer that it has found announced is still there
    obtain ⟨n', hn', -, -⟩ := (hgood.inv.waits_iff hholds.1 hnote).mp hbits
    have hbusy := hgood.inv.busy (by rw [hn']; exact fun h => by cases h)
    have hcard := hgood.inv.writers.card
    obtain ⟨a, ha⟩ : (r.state n).mem.writers.present.Nonempty := by
      rw [← Finset.card_pos]
      omega
    obtain ⟨m, hm, hlt⟩ := stage_advances hf ha
    rcases r.stays step_waitsRead hw hm with hw' | ⟨k, hk, hdone⟩
    · obtain ⟨k, hk, hdone⟩ := read_enters hf hw' hnote (by rw [← hstage hbits]; exact hlt)
      exact ⟨k, by omega, hdone⟩
    · exact ⟨k, hk, hdone⟩
  · exact read_enters hf hw hnote (hpast hbits)

/-- In a fair run in which every reader and every writer leaves in the end, every thread that calls
`ck_pflock_write_lock` or `ck_pflock_read_lock` gets the lock. -/
theorem pflock_served (hf : Fair Pc.Idle Pc.Has r) (n : Nat) (i : ι) :
    (((r.state n).pc i).WriteLocks → ∃ m, n ≤ m ∧ ∃ a, (r.state m).pc i = .writing a) ∧
      (((r.state n).pc i).ReadLocks → ∃ m, n ≤ m ∧ ∃ t, (r.state m).pc i = .reading t) := by
  constructor
  · rintro (hpc | ⟨a, hw⟩)
    · obtain ⟨k, hk, -, hstep⟩ := hf.goes (i := i) (n := n) (hpc ▸ fun h => by cases h)
        (hpc ▸ not_has_writeWin)
      obtain ⟨a, hw⟩ := step_writeWin (hpc ▸ hstep)
      obtain ⟨m, hm, hdone⟩ := write_served hf hw
      exact ⟨m, by omega, a, hdone⟩
    · obtain ⟨m, hm, hdone⟩ := write_served hf hw
      exact ⟨m, hm, a, hdone⟩
  · rintro (hpc | ⟨t, hw⟩)
    · obtain ⟨k, hk, -, hstep⟩ := hf.goes (i := i) (n := n) (hpc ▸ fun h => by cases h)
        (hpc ▸ not_has_readRin)
      obtain ⟨t, hdone | hw⟩ := step_readRin (hpc ▸ hstep)
      · exact ⟨k + 1, by omega, t, hdone⟩
      · obtain ⟨m, hm, hdone⟩ := read_served hf hw
        exact ⟨m, by omega, t, hdone⟩
    · obtain ⟨m, hm, hdone⟩ := read_served hf hw
      exact ⟨m, hm, t, hdone⟩

end Runs

/-- A writer waits for a reader, and a reader waits for the writer. -/
def waiting : System (Mem (Option Bool)) (Pc (Option Bool)) (Option Bool) :=
  ((((((start (Option Bool)).call none .readRin).acts act none 1).call (some false) .writeWin).acts
    act (some false) 3).call (some true) .readRin).acts act (some true) 1

/-- They leave one after the other. -/
theorem pflock_served_waiting : ∃ r : Run Step Few (start (Option Bool)), Fair Pc.Idle Pc.Has r ∧
    ∃ n, r.state n = waiting ∧ (∃ m, n ≤ m ∧ ∃ a, (r.state m).pc (some false) = .writing a) ∧
      ∃ m, n ≤ m ∧ ∃ t, (r.state m).pc (some true) = .reading t := by
  have h₀ : System.Reachable Step Few (start (Option Bool)) (start (Option Bool)) := .refl
  have h₁ := h₀.call none .readLock (by decide +kernel)
  have h₂ := acts_reachable h₁ none 1 (by decide +kernel)
  have h₃ := h₂.call (some false) .writeLock (by decide +kernel)
  have h₄ := acts_reachable h₃ (some false) 3 (by decide +kernel)
  have h₅ := h₄.call (some true) .readLock (by decide +kernel)
  have h₆ := acts_reachable h₅ (some true) 1 (by decide +kernel)
  have h₇ : System.Reachable Step Few waiting waiting := .refl
  have h₈ := h₇.call none (.readUnlock ⟨none, 0, none⟩) (by decide +kernel)
  have h₉ := acts_reachable h₈ none 1 (by decide +kernel)
  have h₁₀ := acts_reachable h₉ (some false) 1 (by decide +kernel)
  have h₁₁ := h₁₀.extend (some false) (.writeUnlock ⟨some false, 0, ()⟩) (by decide +kernel)
  have h₁₂ := acts_reachable h₁₁ (some false) 2 (by decide +kernel)
  have h₁₃ := acts_reachable h₁₂ (some true) 1 (by decide +kernel)
  have h₁₄ := h₁₃.call (some true) (.readUnlock ⟨some true, 1, some 0⟩) (by decide +kernel)
  have h₁₅ := acts_reachable h₁₄ (some true) 1 (by decide +kernel)
  obtain ⟨r, hf, n, hn⟩ := Fairness.fair_of_reachable Pc.Idle Pc.Has not_has (s := waiting) h₆ h₁₅
    (by unfold Pc.Idle; decide +kernel)
  refine ⟨r, hf, n, hn, (pflock_served hf n (some false)).1 (.inr ⟨⟨some false, 0, ()⟩, ?_⟩),
    (pflock_served hf n (some true)).2 (.inr ⟨⟨some true, 1, some 0⟩, ?_⟩)⟩
  · rw [hn]
    rfl
  · rw [hn]
    rfl

end ConcurrencyKit.Pflock
