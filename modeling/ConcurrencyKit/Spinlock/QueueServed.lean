import ConcurrencyKit.Misc.Fairness
import ConcurrencyKit.Spinlock.Mcs
import Mathlib.Data.Prod.Lex

/-!
# The queue locks serve every thread

In a fair run in which no thread keeps the lock for ever, every thread that calls
`ck_spinlock_clh_lock` or `ck_spinlock_mcs_lock` gets the lock. Here it is the thread at the head of
the line that has to go on, or, with an MCS lock, the one behind it, which has not made itself known
yet.
-/

namespace ConcurrencyKit.Spinlock

open Threads (System)
open Fairness (Fair Ranking Run)

/-! ## CLH locks -/

namespace Clh

variable {ι : Type} {m m' : Mem ι} {i j k : ι} {p p' : Pc ι}

namespace Pc

/-- The thread has the lock and is in no call. -/
def Holds (p : Pc ι) : Prop := ∃ me, p = inside me

/-- The thread is in no call and does not have the lock. -/
def Idle (p : Pc ι) : Prop := ∃ me, p = idle me

/-- The thread waits in the line. -/
def Waits : Pc ι → Prop
  | setPrevious _ _ | spin _ _ => True
  | _ => False

/-- The thread is in `ck_spinlock_clh_lock`. -/
def Locks (p : Pc ι) : Prop := p.Initializes ∨ p.Waits

/-- How far a thread that has not entered the line is from doing so. -/
def entry : Pc ι → Nat
  | setWait _ => 1
  | _ => 0

/-- How far the thread at the head of the line is from leaving it. -/
def stage : Pc ι → Nat
  | setPrevious _ _ => 4
  | spin _ _ => 3
  | inside _ => 2
  | unlock _ => 1
  | _ => 0

end Pc

theorem not_holds (p : Pc ι) (h : p.Idle) : ¬ p.Holds := by
  rintro ⟨me, rfl⟩
  obtain ⟨me, h⟩ := h
  cases h

theorem Pc.Waits.mem (h : p.Waits) (hat : At i m p) : i ∈ m.line := by
  have hbody := hat.body
  cases p with
  | setPrevious => exact hbody.1
  | spin => exact hbody.1.1
  | idle | inside | setWait | swap | unlock | release => exact h.elim

theorem Pc.Initializes.busy (h : p.Initializes) : ¬ p.Idle ∧ ¬ p.Holds := by
  refine ⟨?_, ?_⟩
  · rintro ⟨me, rfl⟩
    exact h
  · rintro ⟨me, rfl⟩
    exact h

variable [DecidableEq ι]

/-- A call comes to the line. -/
theorem step_enters (m : Mem ι) (p : Pc ι) (m' : Mem ι) (p' : Pc ι) (hp : p.Initializes)
    (h : Step i m p m' p') : p'.Waits ∨ p'.Initializes ∧ p'.entry < p.entry := by
  cases h with
  | lock | unlock => exact hp.elim
  | act =>
    cases p with
    | setWait me => exact .inr ⟨trivial, Nat.one_pos⟩
    | swap me => exact .inl trivial
    | idle | inside | setPrevious | spin | unlock | release => exact hp.elim

/-- The node that has been released last does not keep anybody waiting. -/
def Released (m : Mem ι) : Prop := m.wait m.popped = false

theorem released_act (hi : Inv m) (hr : Released m) (hat : At i m p) :
    Released (act i m p).1 := by
  cases p with
  | setWait me =>
    have hne : m.popped ≠ me := by
      rw [show me = m.node i from hat.me]
      exact (hi.node_ne_popped i).symm
    exact (Function.update_of_ne hne ..).trans hr
  | release me previous =>
    cases previous with
    | none => exact hr
    | some previous => exact Function.update_self ..
  | idle | inside | swap | setPrevious | spin | unlock => exact hr

theorem released_invariant : Threads.Invariant Step (fun (_ : ι) _ _ => True)
    (fun m => Inv m ∧ Released m) At where
  own h _ := by
    rintro ⟨hi, hr⟩ hat
    obtain ⟨hi', hat'⟩ := invariant.own h trivial hi hat
    refine ⟨⟨hi', ?_⟩, hat'⟩
    cases h with
    | lock | unlock => exact hr
    | act => exact released_act hi hr hat
  other h _ := by
    rintro ⟨hi, -⟩ hat j q hj hother
    exact invariant.other h trivial hi hat hj hother

/-- What holds in every state of a run. -/
structure Good (s : System (Mem ι) (Pc ι) ι) : Prop where
  inv : Inv s.mem
  released : Released s.mem
  all : ∀ i, At i s.mem (s.pc i)

/-- A step leaves the line alone, or a thread enters it, or the thread at its head leaves. -/
theorem step_line (hat : At i m p) (h : Step i m p m' p') :
    m'.line = m.line ∨ m'.line = m.line ++ [i] ∧ i ∉ m.line ∨
      m'.line = m.line.tail ∧ m.line.head? = some i ∧ ¬ p.Waits := by
  cases h with
  | lock | unlock => exact .inl rfl
  | act =>
    cases p with
    | swap me => exact .inr (.inl ⟨rfl, hat.body.1⟩)
    | release me previous =>
      cases previous with
      | none => exact .inl rfl
      | some previous => exact .inr (.inr ⟨rfl, hat.body.1, id⟩)
    | idle | inside | setWait | setPrevious | spin | unlock => exact .inl rfl

omit [DecidableEq ι] in
/-- A thread in the line that waits for the lock. -/
theorem Pc.not_idle_of_mem (hat : At i m p) (h : i ∈ m.line) : ¬ p.Idle := by
  rintro ⟨me, rfl⟩
  exact hat.body h

/-- A thread waits until it has the lock. -/
theorem step_waits (h : Step i m p m' p') (hw : p.Waits) : p'.Waits ∨ p'.Holds := by
  cases h with
  | lock | unlock => exact hw.elim
  | act =>
    cases p with
    | setPrevious => exact .inl trivial
    | spin me previous =>
      simp only [act]
      split
      · exact .inl trivial
      · exact .inr ⟨me, rfl⟩
    | idle | inside | setWait | swap | unlock | release => exact hw.elim

/-- The thread at the head of the line comes nearer to leaving it, or goes on to hold the lock. -/
theorem step_head (hi : Inv m) (hr : Released m) (hat : At i m p) (h : Step i m p m' p')
    (hhead : m.line.head? = some i) (hline : m'.line = m.line) :
    p'.stage < p.stage ∨ p'.stage = p.stage ∧ p.Holds ∧ p'.Holds := by
  have hmem : i ∈ m.line := List.mem_of_mem_head? hhead
  have hbody := hat.body
  cases h with
  | lock => exact absurd hmem hbody
  | unlock => exact .inl (Nat.lt_succ_self 1)
  | act =>
    cases p with
    | idle | setWait => exact absurd hmem hbody
    | swap => exact absurd hmem hbody.1
    | setPrevious => exact .inl (Nat.lt_succ_self 3)
    | inside me => exact .inr ⟨rfl, ⟨me, rfl⟩, me, rfl⟩
    | unlock => exact .inl Nat.one_pos
    | spin me previous =>
      -- the node before it has been released last
      have hwait : m.wait previous = false := by
        rw [hbody.1.2, hi.prev_first hhead]
        exact hr
      exact .inl (by simp [act, hwait, Pc.stage])
    | release me previous =>
      obtain ⟨-, rfl⟩ := hbody
      obtain ⟨l, hl⟩ := List.head?_eq_some_iff.mp hhead
      have htail : m.line.tail = m.line := hline
      rw [hl, List.tail_cons] at htail
      exact absurd htail (List.cons_ne_self i l).symm

/-- Thread `i` waits in the line, and thread `j` is at its head. -/
structure Helps (i : ι) (a : Nat ×ₗ Nat) (j : ι) (s : System (Mem ι) (Pc ι) ι) : Prop where
  waits : (s.pc i).Waits
  mem : i ∈ s.mem.line
  head : s.mem.line.head? = some j
  rank : a = toLex (s.mem.line.idxOf i, (s.pc j).stage)

theorem ranking (i : ι) : Ranking (Step (ι := ι)) Pc.Idle Pc.Holds Good
    (fun s => (s.pc i).Holds) (Helps i) where
  busy := by
    rintro a j s hs ⟨-, -, hhead, -⟩
    exact Pc.not_idle_of_mem (hs.all j) (List.mem_of_mem_head? hhead)
  next := by
    rintro a k j mem p s hs hs' hstep ⟨hwaits, hmem, hhead, rfl⟩
    by_cases haim : (Function.update s.pc k p i).Holds
    · exact .inl haim
    refine .inr ?_
    have hwaits' : (Function.update s.pc k p i).Waits := by
      by_cases hik : i = k
      · subst hik
        rw [Function.update_self] at haim ⊢
        exact (step_waits hstep hwaits).resolve_right haim
      · rwa [Function.update_of_ne hik]
    obtain ⟨l, hl⟩ := List.head?_eq_some_iff.mp hhead
    rcases step_line (hs.all k) hstep with hline | ⟨hline, hnew⟩ | ⟨hline, hfirst, hleaves⟩
    · by_cases hkj : k = j
      · subst hkj
        have hself : Function.update s.pc k p k = p := Function.update_self ..
        rcases step_head hs.inv hs.released (hs.all k) hstep hhead hline with hless | ⟨heq, hholds⟩
        · refine .inl ⟨_, k, ?_, hwaits', hline ▸ hmem, hline ▸ hhead, rfl⟩
          simp only [Prod.Lex.toLex_lt_toLex, hline, hself]
          exact .inr ⟨trivial, hless⟩
        · refine .inr ⟨⟨hwaits', hline ▸ hmem, hline ▸ hhead, ?_⟩, fun _ => hholds⟩
          simp only [hline, hself, heq]
      · have hother : Function.update s.pc k p j = s.pc j :=
          Function.update_of_ne (Ne.symm hkj) ..
        refine .inr ⟨⟨hwaits', hline ▸ hmem, hline ▸ hhead, ?_⟩, fun h => absurd h hkj⟩
        simp only [hline, hother]
    · -- another thread enters
      have hkj : k ≠ j := fun h => hnew (h ▸ List.mem_of_mem_head? hhead)
      have hother : Function.update s.pc k p j = s.pc j :=
        Function.update_of_ne (Ne.symm hkj) ..
      have hmem' : i ∈ mem.line := hline ▸ List.mem_append_left _ hmem
      have hhead' : mem.line.head? = some j := by rw [hline, hl, List.cons_append, List.head?_cons]
      refine .inr ⟨⟨hwaits', hmem', hhead', ?_⟩, fun h => absurd h hkj⟩
      simp only [hline, hother, List.idxOf_append_of_mem hmem]
    · -- the thread at the head leaves
      obtain rfl : j = k := Option.some.inj (hhead.symm.trans hfirst)
      have hij : i ≠ j := by
        rintro rfl
        exact hleaves hwaits
      rw [hl] at hmem
      have htail : mem.line = l := by rw [hline, hl, List.tail_cons]
      have hmem' : i ∈ l := (List.mem_cons.mp hmem).resolve_left hij
      obtain ⟨j', l', rfl⟩ := List.exists_cons_of_ne_nil (List.ne_nil_of_mem hmem')
      have hless : mem.line.idxOf i < s.mem.line.idxOf i := by
        rw [htail, hl, List.idxOf_cons_ne _ (Ne.symm hij)]
        exact Nat.lt_succ_self _
      refine .inl ⟨_, j', ?_, hwaits', htail ▸ hmem', by rw [htail, List.head?_cons], rfl⟩
      rw [Prod.Lex.toLex_lt_toLex]
      exact .inl hless

/-- In a fair run in which every thread that has the lock releases it in the end, every thread that
calls `ck_spinlock_clh_lock` gets the lock. -/
theorem served {junk : ι → Bool × Option (Node ι)} {r : Run Step (fun _ _ _ => True) (start junk)}
    (hf : Fair Pc.Idle Pc.Holds r) {n : Nat} (hl : ((r.state n).pc i).Locks) :
    ∃ m, n ≤ m ∧ ((r.state m).pc i).Holds := by
  have hgood : ∀ n, Good (r.state n) := fun n => by
    obtain ⟨⟨hi, hr⟩, hall⟩ := released_invariant.reachable (r.reachable n) (fun _ => trivial)
      ⟨inv_start junk, rfl⟩ (at_start junk)
    exact ⟨hi, hr, fun i => (hall i).2⟩
  -- it comes to the line
  obtain ⟨k, hk, hwaits⟩ : ∃ k, n ≤ k ∧ ((r.state k).pc i).Waits := by
    rcases hl with hinit | hwaits
    · exact hf.ends Pc.entry (fun _ hp => hp.busy.1) (fun _ hp => hp.busy.2) step_enters hinit
    · exact ⟨n, le_refl n, hwaits⟩
  have hmem : i ∈ (r.state k).mem.line := hwaits.mem ((hgood k).all i)
  obtain ⟨j, l, hline⟩ := List.exists_cons_of_ne_nil (List.ne_nil_of_mem hmem)
  have hhead : (r.state k).mem.line.head? = some j := by rw [hline, List.head?_cons]
  obtain ⟨m, hm, hholds⟩ := (ranking i).reached hf hgood ⟨hwaits, hmem, hhead, rfl⟩
  exact ⟨m, by omega, hholds⟩

end Clh

/-! ## MCS locks -/

namespace Mcs

open Line (Follows)

variable {ι ν : Type} {m m' : Mem ι ν} {i j k : ι} {p p' q : Pc ν} {n h b : ν}

namespace Pc

/-- The thread has the lock and is in no call. -/
def Holds (p : Pc ν) : Prop := ∃ n, p = inside n

/-- The thread is in no call and does not have the lock. -/
def Idle (p : Pc ν) : Prop := p = idle

/-- The thread waits in the line with the node `n`. -/
def Waits (n : ν) : Pc ν → Prop
  | link a _ | spin a => a = n
  | _ => False

/-- The thread is in `ck_spinlock_mcs_lock` and has not entered the line. -/
def Enters : Pc ν → Prop
  | lockLocked _ | lockNext _ | swap _ => True
  | _ => False

/-- How far a thread that has not entered the line is from doing so. -/
def entry : Pc ν → Nat
  | lockLocked _ => 2
  | lockNext _ => 1
  | _ => 0

end Pc

theorem not_holds (p : Pc ν) (h : p.Idle) : ¬ p.Holds := by
  rintro ⟨n, rfl⟩
  cases h

/-- How far the thread at the head of the line is from leaving it. -/
def stage (m : Mem ι ν) : Pc ν → Nat
  | .spin _ => 8
  | .inside _ => 7
  | .unlock _ => 6
  | .unlockQueue _ => 5
  | .unlockCas _ => 4
  | .unlockWait n => if m.next n = none then 3 else 2
  | .wake _ _ => 1
  | _ => 0

/-- A thread that has made itself known to the one before it is known to it, and it is woken when
it comes to the head of the line. -/
def Known (m : Mem ι ν) : Pc ν → Prop
  | .spin n => (∀ a, Follows m.line a n → m.next a = some n) ∧
      (m.line.head? = some n → m.locked n = false)
  | _ => True

theorem Known.of_line (hk : Known m q) (hline : m'.line = m.line)
    (hnext : ∀ n, q = .spin n → ∀ a, Follows m.line a n → m.next a = some n → m'.next a = some n)
    (hlocked : ∀ n, q = .spin n → m'.locked n = m.locked n) : Known m' q := by
  cases q with
  | spin n =>
    refine ⟨fun a ha => ?_, fun hhead => ?_⟩
    · rw [hline] at ha
      exact hnext n rfl a ha (hk.1 a ha)
    · rw [hline] at hhead
      exact (hlocked n rfl).trans (hk.2 hhead)
  | _ => trivial

variable [DecidableEq ν]

theorem known_own (hi : Inv m) (hat : At i m p) (hk : Known m p) :
    Known (act m p).1 (act m p).2 := by
  have hbody := hat.body
  cases p with
  | link n previous =>
    refine ⟨fun a ha => ?_, fun hhead => ?_⟩
    · obtain rfl : a = previous := Follows.left_unique ha hbody.1 hi.nodup
      exact Function.update_self ..
    · exact absurd hhead (hbody.1.ne_head hi.nodup)
  | spin n =>
    unfold act
    dsimp only
    split
    · exact hk
    · trivial
  | swap n =>
    unfold act
    dsimp only
    split <;> trivial
  | tryCas n | unlockQueue n | unlockCas n =>
    unfold act
    dsimp only
    split <;> trivial
  | unlock n | unlockWait n =>
    unfold act
    dsimp only
    split <;> trivial
  | _ => trivial

omit [DecidableEq ν] in
/-- A node enters the line behind the others. -/
theorem Known.enter (hk : Known m q) (hmem : ∀ a, q = .spin a → a ∈ m.line)
    (hne : ∀ a, q = .spin a → a ≠ n) : Known (m.enter n) q := by
  cases q with
  | spin a =>
    have ha := hmem a rfl
    refine ⟨fun c hc => ?_, fun hhead => hk.2 ?_⟩
    · rcases Follows.of_concat hc with hc | ⟨-, han⟩
      · exact hk.1 c hc
      · exact absurd han (hne a rfl)
    · obtain ⟨x, l, hl⟩ := List.exists_cons_of_ne_nil (List.ne_nil_of_mem ha)
      simp only [Mem.enter, hl, List.cons_append, List.head?_cons] at hhead ⊢
      exact hhead
  | _ => trivial

/-- The node at the head of the line leaves, and the next one is woken. -/
theorem Known.wake (hi : Inv m) (hfirst : m.line.head? = some n) (hnext : m.next n = some b)
    (hk : Known m q) : Known (m.wake n b) q := by
  obtain ⟨l, hl⟩ := hi.second hfirst hnext
  have hline : (m.wake n b).line = b :: l := by simp only [Mem.wake, hl, List.tail_cons]
  cases q with
  | spin a =>
    refine ⟨fun c hc => ?_, fun hhead => ?_⟩
    · rw [hline] at hc
      exact hk.1 c (hl ▸ hc.cons)
    · rw [hline, List.head?_cons] at hhead
      obtain rfl : b = a := Option.some.inj hhead
      exact Function.update_self ..
  | _ => trivial

theorem known_other (hi : Inv m) (hat : At i m p) (hj : j ≠ i) (hq : At j m q) (hk : Known m q) :
    Known (act m p).1 q := by
  have hbody := hat.body
  have hmem : ∀ a, q = .spin a → a ∈ m.line := by
    rintro a rfl
    exact hq.body
  have hne : ∀ c, p.node = some c → ∀ a, q = .spin a → a ≠ c := by
    rintro c hc a rfl
    exact hat.node_ne hq hj hc rfl
  cases p with
  | idle | inside | spin | unlock | unlockQueue | unlockWait => exact hk
  | tryLocked n | lockLocked n =>
    refine hk.of_line rfl (fun _ _ _ _ h => h) fun a ha => Function.update_of_ne ?_ ..
    exact hne n rfl a ha
  | tryNext n | lockNext n =>
    refine hk.of_line rfl (fun a ha c hc h => ?_) fun _ _ => rfl
    have hcn : c ≠ n := by
      rintro rfl
      exact hbody.1 hc.mem_left
    exact (Function.update_of_ne hcn ..).trans h
  | tryCas n =>
    unfold act
    dsimp only
    split
    · exact hk.enter hmem (hne n rfl)
    · exact hk.of_line rfl (fun _ _ _ _ h => h) fun _ _ => rfl
  | swap n => exact hk.enter hmem (hne n rfl)
  | link n previous =>
    refine hk.of_line rfl (fun a ha c hc h => ?_) fun _ _ => rfl
    have hcp : c ≠ previous := by
      rintro rfl
      exact hne n rfl a ha (hc.unique hbody.1 hi.nodup)
    exact (Function.update_of_ne hcp ..).trans h
  | unlockCas n =>
    unfold act
    dsimp only
    split
    case isTrue hqueue =>
      cases q with
      | spin a =>
        -- nobody else is in the line
        have ha := hmem a rfl
        rw [hi.alone hbody hqueue] at ha
        exact absurd (List.mem_singleton.mp ha) (hne n rfl a rfl)
      | _ => trivial
    case isFalse => exact hk
  | wake n b => exact hk.wake hi hbody.1 hbody.2

/-- What holds in every state of a run. -/
structure Good (s : System (Mem ι ν) (Pc ν) ι) : Prop where
  inv : Inv s.mem
  all : ∀ i, At i s.mem (s.pc i)
  known : ∀ i, Known s.mem (s.pc i)

theorem known_invariant : Threads.Invariant (M := Mem ι ν) Step (fun _ _ _ => True) Inv
    (fun i m p => At i m p ∧ Known m p) where
  own h _ hi := by
    rintro ⟨hat, hk⟩
    obtain ⟨hi', hat'⟩ := invariant.own h trivial hi hat
    refine ⟨hi', hat', ?_⟩
    cases h with
    | trylock | lock | unlock => trivial
    | act => exact known_own hi hat hk
  other h _ hi := by
    rintro ⟨hat, -⟩ j q hj ⟨hq, hk⟩
    refine ⟨invariant.other h trivial hi hat hj hq, ?_⟩
    cases h with
    | trylock n hfree | lock n hfree =>
      exact hk.of_line rfl (fun _ _ _ _ h => h) fun _ _ => rfl
    | unlock => exact hk
    | act => exact known_other hi hat hj hq hk

/-! ### The steps -/

/-- A step leaves the line alone, or a node enters it, or the node at its head leaves. -/
theorem step_line (hat : At i m p) (h : Step i m p m' p') :
    m'.line = m.line ∨ (∃ x, p.node = some x ∧ x ∉ m.line ∧ m'.line = m.line ++ [x]) ∨
      m'.line = m.line.tail ∧ p.Inside := by
  have hbody := hat.body
  cases h with
  | trylock | lock | unlock => exact .inl rfl
  | act =>
    cases p with
    | swap n => exact .inr (.inl ⟨n, rfl, hbody.1.1, rfl⟩)
    | wake n b => exact .inr (.inr ⟨rfl, trivial⟩)
    | tryCas n =>
      unfold act
      dsimp only
      split
      · exact .inr (.inl ⟨n, rfl, hbody.1.1, rfl⟩)
      · exact .inl rfl
    | unlockCas n =>
      unfold act
      dsimp only
      split
      · exact .inr (.inr ⟨rfl, trivial⟩)
      · exact .inl rfl
    | _ => exact .inl rfl

/-- A node in the line that knows the next one goes on to know it. -/
theorem step_next (hat : At i m p) (h : Step i m p m' p') {a : ν} (ha : a ∈ m.line) :
    m'.next a = m.next a ∨ m.next a = none ∧ m'.next a ≠ none := by
  have hbody := hat.body
  cases h with
  | trylock | lock | unlock => exact .inl rfl
  | act =>
    cases p with
    | tryNext n | lockNext n =>
      have han : a ≠ n := by
        rintro rfl
        exact hbody.1 ha
      exact .inl (Function.update_of_ne han ..)
    | link n previous =>
      by_cases hap : a = previous
      · subst hap
        have hself : (act m (.link n a)).1.next a = some n := Function.update_self ..
        exact .inr ⟨hbody.2, hself ▸ Option.some_ne_none n⟩
      · exact .inl (Function.update_of_ne hap ..)
    | tryCas n | unlockCas n =>
      unfold act
      dsimp only
      split <;> exact .inl rfl
    | _ => exact .inl rfl

theorem step_link (h : Step i m (.link b n) m' p') : m'.next n = some b := by
  cases h with
  | act => exact Function.update_self ..

/-- A thread waits until it has the lock. -/
theorem step_waits (h : Step i m p m' p') (hw : p.Waits n) : p'.Waits n ∨ p' = .inside n := by
  cases h with
  | trylock | lock | unlock => exact hw.elim
  | act =>
    cases p with
    | link a previous => exact .inl hw
    | spin a =>
      obtain rfl : a = n := hw
      unfold act
      dsimp only
      split
      · exact .inl rfl
      · exact .inr rfl
    | _ => exact hw.elim

/-- A call comes to the line. -/
theorem step_enters (m : Mem ι ν) (p : Pc ν) (m' : Mem ι ν) (p' : Pc ν) (hp : p.Enters)
    (h : Step i m p m' p') : (p'.Holds ∨ ∃ n, p'.Waits n) ∨ p'.Enters ∧ p'.entry < p.entry := by
  cases h with
  | trylock | lock | unlock => exact hp.elim
  | act =>
    cases p with
    | lockLocked n => exact .inr ⟨trivial, Nat.lt_succ_self 1⟩
    | lockNext n => exact .inr ⟨trivial, Nat.one_pos⟩
    | swap n =>
      unfold act
      dsimp only
      split
      · exact .inl (.inr ⟨n, rfl⟩)
      · exact .inl (.inl ⟨n, rfl⟩)
    | _ => exact hp.elim

omit [DecidableEq ν] in
theorem stage_unlockWait_le (m : Mem ι ν) (n : ν) : stage m (.unlockWait n) ≤ 3 := by
  show (if m.next n = none then 3 else 2) ≤ 3
  split
  · exact le_refl 3
  · exact Nat.le_succ 2

/-- The thread at the head of the line comes nearer to leaving it, or goes on to hold the lock, or
waits for the next one to make itself known. -/
theorem step_head (hi : Inv m) (hat : At i m p) (hk : Known m p) (hstep : Step i m p m' p')
    (hnode : p.node = some h) (hhead : m.line.head? = some h) (hline : m'.line = m.line) :
    p'.node = some h ∧ (stage m' p' < stage m p ∨ p' = p ∧ m' = m ∧
      (p.Holds ∨ p = .unlockWait h ∧ m.next h = none)) := by
  have hmem : h ∈ m.line := List.mem_of_mem_head? hhead
  have hbody := hat.body
  cases hstep with
  | trylock | lock => exact absurd hnode.symm (Option.some_ne_none h)
  | unlock n => exact ⟨hnode, .inl (Nat.lt_succ_self 6)⟩
  | act =>
    cases p with
    | idle => exact absurd hnode.symm (Option.some_ne_none h)
    | tryLocked n | lockLocked n =>
      obtain rfl : n = h := Option.some.inj hnode
      exact absurd hmem hbody
    | tryNext n | lockNext n =>
      obtain rfl : n = h := Option.some.inj hnode
      exact absurd hmem hbody.1
    | tryCas n | swap n =>
      obtain rfl : n = h := Option.some.inj hnode
      exact absurd hmem hbody.1.1
    | link n previous =>
      obtain rfl : n = h := Option.some.inj hnode
      exact absurd hhead (hbody.1.ne_head hi.nodup)
    | inside n => exact ⟨hnode, .inr ⟨rfl, rfl, .inl ⟨n, rfl⟩⟩⟩
    | spin n =>
      obtain rfl : n = h := Option.some.inj hnode
      simp [act, hk.2 hhead, stage, Pc.node]
    | unlock n =>
      obtain rfl : n = h := Option.some.inj hnode
      cases hnext : m.next n <;> simp [act, hnext, stage, Pc.node]
    | unlockQueue n =>
      unfold act
      dsimp only
      split
      · exact ⟨hnode, .inl (Nat.lt_succ_self 4)⟩
      · exact ⟨hnode, .inl (Nat.lt_succ_of_lt (Nat.lt_succ_of_le (stage_unlockWait_le m n)))⟩
    | unlockCas n =>
      obtain rfl : n = h := Option.some.inj hnode
      unfold act at hline ⊢
      dsimp only at hline ⊢
      split at hline
      · have htail : m.line.tail = m.line := hline
        obtain ⟨l, hl⟩ := List.head?_eq_some_iff.mp hhead
        rw [hl, List.tail_cons] at htail
        exact absurd htail (List.cons_ne_self n l).symm
      · next hqueue =>
        simp only [if_neg hqueue]
        exact ⟨rfl, .inl (Nat.lt_succ_of_le (stage_unlockWait_le m n))⟩
    | unlockWait n =>
      obtain rfl : n = h := Option.some.inj hnode
      cases hnext : m.next n with
      | none => simp [act, hnext, Pc.node]
      | some b => simp [act, hnext, stage, Pc.node]
    | wake n b =>
      have htail : m.line.tail = m.line := hline
      obtain ⟨l, hl⟩ := List.head?_eq_some_iff.mp hhead
      rw [hl, List.tail_cons] at htail
      exact absurd htail (List.cons_ne_self h l).symm

/-! ### The thread that has to go on -/

/-- Thread `i` waits with the node `n`, and thread `j` has to go on: the thread `k` at the head of
the line, or the one behind it when thread `k` waits for it. -/
structure Helps (i : ι) (n : ν) (a : Nat ×ₗ Nat) (j : ι) (s : System (Mem ι ν) (Pc ν) ι) :
    Prop where
  waits : (s.pc i).Waits n
  head : ∃ h k, s.mem.line.head? = some h ∧ (s.pc k).node = some h ∧
    a = toLex (s.mem.line.idxOf n, stage s.mem (s.pc k)) ∧
    (s.pc k = .unlockWait h ∧ s.mem.next h = none ∧ (∃ b, s.pc j = .link b h) ∨
      ¬ (s.pc k = .unlockWait h ∧ s.mem.next h = none) ∧ j = k)

variable {s : System (Mem ι ν) (Pc ν) ι}

omit [DecidableEq ν] in
theorem Pc.Waits.node (h : p.Waits n) : p.node = some n := by
  cases p with
  | link a previous | spin a => exact congrArg some h
  | _ => exact h.elim

omit [DecidableEq ν] in
theorem Pc.Waits.mem (h : p.Waits n) (hat : At i m p) : n ∈ m.line := by
  have hbody := hat.body
  cases p with
  | link a previous =>
    obtain rfl : a = n := h
    exact hbody.1.mem_right
  | spin a =>
    obtain rfl : a = n := h
    exact hbody
  | _ => exact h.elim

omit [DecidableEq ν] in
/-- The thread behind one that waits for it is about to make itself known. -/
theorem Good.second (hs : Good s) {l : List ν} (hl : s.mem.line = h :: b :: l)
    (hnext : s.mem.next h = none) : ∃ j, s.pc j = .link b h := by
  have hmem : b ∈ s.mem.line := by simp [hl]
  have hfollows : Follows s.mem.line h b := ⟨[], l, hl.symm⟩
  have hhead := hfollows.ne_head hs.inv.nodup
  obtain ⟨j, hj⟩ := Option.ne_none_iff_exists'.mp (hs.inv.used b hmem)
  have hnode := ((hs.all j).user b).mp hj
  have hbody := (hs.all j).body
  have hknown := hs.known j
  refine ⟨j, ?_⟩
  cases hpc : s.pc j with
  | idle =>
    rw [hpc] at hnode
    exact absurd hnode.symm (Option.some_ne_none b)
  | link n previous =>
    rw [hpc] at hnode hbody
    obtain rfl : n = b := Option.some.inj hnode
    rw [Follows.left_unique hbody.1 hfollows hs.inv.nodup]
  | spin n =>
    rw [hpc] at hnode hknown
    obtain rfl : n = b := Option.some.inj hnode
    exact absurd (hnext.symm.trans (hknown.1 h hfollows)) (Option.some_ne_none n).symm
  | tryLocked n | lockLocked n =>
    rw [hpc] at hnode hbody
    obtain rfl : n = b := Option.some.inj hnode
    exact absurd hmem hbody
  | tryNext n | lockNext n =>
    rw [hpc] at hnode hbody
    obtain rfl : n = b := Option.some.inj hnode
    exact absurd hmem hbody.1
  | tryCas n | swap n =>
    rw [hpc] at hnode hbody
    obtain rfl : n = b := Option.some.inj hnode
    exact absurd hmem hbody.1.1
  | inside n | unlock n | unlockQueue n | unlockCas n | unlockWait n =>
    rw [hpc] at hnode hbody
    obtain rfl : n = b := Option.some.inj hnode
    exact absurd hbody hhead
  | wake n next =>
    rw [hpc] at hnode hbody
    obtain rfl : n = b := Option.some.inj hnode
    exact absurd hbody.1 hhead

/-- While a thread waits there is one that has to go on. -/
theorem Good.helps (hs : Good s) (hw : (s.pc i).Waits n)
    (hhead : s.mem.line.head? = some h) (hnode : (s.pc k).node = some h) :
    ∃ j, Helps i n (toLex (s.mem.line.idxOf n, stage s.mem (s.pc k))) j s := by
  by_cases hwait : s.pc k = .unlockWait h ∧ s.mem.next h = none
  · have hmem := hw.mem (hs.all i)
    have hne : n ≠ h := by
      have hik : i ≠ k := by
        rintro rfl
        rw [hwait.1] at hw
        exact hw
      exact (hs.all k).node_ne (hs.all i) hik hnode hw.node
    obtain ⟨l, hl⟩ := List.head?_eq_some_iff.mp hhead
    rw [hl] at hmem
    obtain ⟨b, l', rfl⟩ :=
      List.exists_cons_of_ne_nil (List.ne_nil_of_mem ((List.mem_cons.mp hmem).resolve_left hne))
    obtain ⟨j, hj⟩ := hs.second hl hwait.2
    exact ⟨j, hw, h, k, hhead, hnode, rfl, .inl ⟨hwait.1, hwait.2, b, hj⟩⟩
  · exact ⟨k, hw, h, k, hhead, hnode, rfl, .inr ⟨hwait, rfl⟩⟩

omit [DecidableEq ν] in
theorem Good.head (hs : Good s) (hw : (s.pc i).Waits n) :
    ∃ h k, s.mem.line.head? = some h ∧ (s.pc k).node = some h := by
  obtain ⟨h, l, hl⟩ := List.exists_cons_of_ne_nil (List.ne_nil_of_mem (hw.mem (hs.all i)))
  have hmem : h ∈ s.mem.line := by simp [hl]
  obtain ⟨k, hk⟩ := Option.ne_none_iff_exists'.mp (hs.inv.used h hmem)
  exact ⟨h, k, by rw [hl, List.head?_cons], ((hs.all k).user h).mp hk⟩

variable [DecidableEq ι]

omit [DecidableEq ν] [DecidableEq ι] in
/-- What a step of another thread leaves to the one at the head of the line. -/
theorem stage_other (hnode : p.node = some h)
    (hnext : m'.next h = m.next h ∨ m.next h = none ∧ m'.next h ≠ none) :
    stage m' p < stage m p ∨ stage m' p = stage m p ∧
      (p = .unlockWait h ∧ m'.next h = none ↔ p = .unlockWait h ∧ m.next h = none) := by
  cases p with
  | unlockWait n =>
    obtain rfl : n = h := Option.some.inj hnode
    rcases hnext with heq | ⟨hnone, hsome⟩
    · exact .inr (by simp [stage, heq])
    · exact .inl (by simp [stage, hnone, hsome])
  | _ => exact .inr ⟨rfl, by simp⟩

theorem ranking (i : ι) (n : ν) : Ranking (M := Mem ι ν) Step Pc.Idle Pc.Holds Good
    (fun s => s.pc i = .inside n) (Helps i n) where
  busy := by
    rintro a j s - ⟨-, h, k, -, hnode, -, hj⟩ hidle
    rw [show s.pc j = .idle from hidle] at hj
    rcases hj with ⟨-, -, b, hb⟩ | ⟨-, rfl⟩
    · cases hb
    · rw [show s.pc j = .idle from hidle] at hnode
      cases hnode
  next := by
    rintro a x j mem p s hs hs' hstep ⟨hw, h, k, hhead, hnode, rfl, hj⟩
    by_cases haim : Function.update s.pc x p i = .inside n
    · exact .inl haim
    refine .inr ?_
    have hw' : (Function.update s.pc x p i).Waits n := by
      by_cases hix : i = x
      · subst hix
        rw [Function.update_self] at haim ⊢
        exact (step_waits hstep hw).resolve_right haim
      · rwa [Function.update_of_ne hix]
    have hmem := hw.mem (hs.all i)
    obtain ⟨l, hl⟩ := List.head?_eq_some_iff.mp hhead
    -- a step that lowers the rank
    have hless : ∀ h' k', mem.line.head? = some h' →
        (Function.update s.pc x p k').node = some h' →
        toLex (mem.line.idxOf n, stage mem (Function.update s.pc x p k')) <
          toLex (s.mem.line.idxOf n, stage s.mem (s.pc k)) →
        ∃ b j', b < toLex (s.mem.line.idxOf n, stage s.mem (s.pc k)) ∧
          Helps i n b j' ⟨mem, Function.update s.pc x p⟩ := by
      intro h' k' hhead' hnode' hlt
      obtain ⟨j', hj'⟩ := hs'.helps hw' hhead' hnode'
      exact ⟨_, j', hlt, hj'⟩
    by_cases htail : mem.line = s.mem.line.tail ∧ (s.pc x).Inside
    · -- the node at the head leaves
      obtain ⟨hline, hinside⟩ := htail
      have hix : i ≠ x := by
        rintro rfl
        cases hpc : s.pc i <;> rw [hpc] at hw hinside <;> first | exact hw | exact hinside
      have hnodex : (s.pc x).node = some h := ((hs.all x).first hinside).symm.trans hhead
      have hne : n ≠ h := (hs.all x).node_ne (hs.all i) hix hnodex hw.node
      have hidx : mem.line.idxOf n < s.mem.line.idxOf n := by
        rw [hline, hl, List.tail_cons, List.idxOf_cons_ne _ (Ne.symm hne)]
        exact Nat.lt_succ_self _
      obtain ⟨h', k', hhead', hnode'⟩ := hs'.head hw'
      refine .inl (hless h' k' hhead' hnode' ?_)
      rw [Prod.Lex.toLex_lt_toLex]
      exact .inl hidx
    · -- the line keeps its head
      have hkeeps : (mem.line.head? = some h ∧ mem.line.idxOf n = s.mem.line.idxOf n) ∧
          (x = k → mem.line = s.mem.line) := by
        rcases step_line (hs.all x) hstep with hline | ⟨y, hy, hout, hline⟩ | h'
        · rw [hline]
          exact ⟨⟨hhead, rfl⟩, fun _ => rfl⟩
        · refine ⟨⟨?_, ?_⟩, ?_⟩
          · rw [hline, hl, List.cons_append, List.head?_cons]
          · rw [hline, List.idxOf_append_of_mem hmem]
          · rintro rfl
            obtain rfl : y = h := Option.some.inj (hy.symm.trans hnode)
            exact absurd (List.mem_of_mem_head? hhead) hout
        · exact absurd h' htail
      obtain ⟨⟨hhead', hidx⟩, hline⟩ := hkeeps
      by_cases hxk : x = k
      · subst hxk
        have hself : Function.update s.pc x p x = p := Function.update_self ..
        obtain ⟨hnode', hstage⟩ :=
          step_head hs.inv (hs.all x) (hs.known x) hstep hnode hhead (hline rfl)
        rcases hstage with hlt | ⟨rfl, rfl, hstays⟩
        · refine .inl (hless h x hhead' ((congrArg Pc.node hself).trans hnode') ?_)
          rw [Prod.Lex.toLex_lt_toLex, hself]
          exact .inr ⟨hidx, hlt⟩
        · rw [Function.update_eq_self] at hw' ⊢
          refine .inr ⟨⟨hw, h, x, hhead, hnode, rfl, hj⟩, ?_⟩
          rintro rfl
          rcases hj with ⟨hpc, -, b, hb⟩ | ⟨hno, -⟩
          · cases hpc.symm.trans hb
          · have hholds := hstays.resolve_right hno
            exact ⟨hholds, hholds⟩
      · have hother : Function.update s.pc x p k = s.pc k :=
          Function.update_of_ne (Ne.symm hxk) ..
        have hhmem : h ∈ s.mem.line := List.mem_of_mem_head? hhead
        rcases stage_other hnode (step_next (hs.all x) hstep hhmem) with hlt | ⟨heq, hiff⟩
        · refine .inl (hless h k hhead' ((congrArg Pc.node hother).trans hnode) ?_)
          rw [Prod.Lex.toLex_lt_toLex, hother]
          exact .inr ⟨hidx, hlt⟩
        · have hxj : x ≠ j := by
            rintro rfl
            rcases hj with ⟨hpc, hnone, b, hb⟩ | ⟨-, hk⟩
            · rw [hb] at hstep
              have hsome := step_link hstep
              have hnone' := (hiff.mpr ⟨hpc, hnone⟩).2
              exact absurd (hnone'.symm.trans hsome) (Option.some_ne_none b).symm
            · exact hxk hk
          have hotherj : Function.update s.pc x p j = s.pc j :=
            Function.update_of_ne (Ne.symm hxj) ..
          refine .inr ⟨⟨hw', h, k, hhead', (congrArg Pc.node hother).trans hnode, ?_, ?_⟩,
            fun h => absurd h hxj⟩
          · simp only [hother, hidx, heq]
          · simp only [hother, hotherj]
            rcases hj with ⟨hpc, hnone, hb⟩ | ⟨hno, hk⟩
            · exact .inl ⟨hpc, (hiff.mpr ⟨hpc, hnone⟩).2, hb⟩
            · exact .inr ⟨fun h => hno (hiff.mp h), hk⟩

omit [DecidableEq ν] [DecidableEq ι] in
theorem Pc.Enters.busy (h : p.Enters) : ¬ p.Idle ∧ ¬ p.Holds := by
  refine ⟨?_, ?_⟩
  · rintro rfl
    exact h
  · rintro ⟨n, rfl⟩
    exact h

/-- In a fair run in which every thread that has the lock releases it in the end, every thread that
calls `ck_spinlock_mcs_lock` gets the lock. -/
theorem served {locked : ν → Bool} {next : ν → Option ν}
    {r : Run Step (fun _ _ _ => True) (start locked next : System (Mem ι ν) (Pc ν) ι)}
    (hf : Fair Pc.Idle Pc.Holds r) {k : Nat}
    (hl : ((r.state k).pc i).Enters ∨ ∃ n, ((r.state k).pc i).Waits n) :
    ∃ m, k ≤ m ∧ ((r.state m).pc i).Holds := by
  have hgood : ∀ n, Good (r.state n) := fun n => by
    obtain ⟨hi, hall⟩ := known_invariant.reachable (r.reachable n) (fun _ => trivial)
      (inv_start locked next) fun i => ⟨at_start locked next i, trivial⟩
    exact ⟨hi, fun i => (hall i).2.1, fun i => (hall i).2.2⟩
  -- it comes to the line
  obtain ⟨k', hk', hcomes⟩ : ∃ k', k ≤ k' ∧
      (((r.state k').pc i).Holds ∨ ∃ n, ((r.state k').pc i).Waits n) := by
    rcases hl with henters | hwaits
    · exact hf.ends Pc.entry (fun _ hp => hp.busy.1) (fun _ hp => hp.busy.2) step_enters henters
    · exact ⟨k, le_refl k, .inr hwaits⟩
  rcases hcomes with hholds | ⟨n, hw⟩
  · exact ⟨k', hk', hholds⟩
  · obtain ⟨h, x, hhead, hnode⟩ := (hgood k').head hw
    obtain ⟨j, hj⟩ := (hgood k').helps hw hhead hnode
    obtain ⟨m, hm, haim⟩ := (ranking i n).reached hf hgood hj
    exact ⟨m, by omega, n, haim⟩

end Mcs

/-- In a fair run in which every thread that has the lock releases it in the end, every thread that
calls `ck_spinlock_mcs_lock` or `ck_spinlock_clh_lock` gets the lock. -/
theorem queue_locks_served {ι : Type} [DecidableEq ι] :
    (∀ (ν : Type) [DecidableEq ν] (locked : ν → Bool) (next : ν → Option ν)
      (r : Run Mcs.Step (fun _ _ _ => True)
        (Mcs.start locked next : System (Mcs.Mem ι ν) (Mcs.Pc ν) ι)),
      Fair Mcs.Pc.Idle Mcs.Pc.Holds r → ∀ k i,
        (((r.state k).pc i).Enters ∨ ∃ n, ((r.state k).pc i).Waits n) →
          ∃ m, k ≤ m ∧ ((r.state m).pc i).Holds) ∧
    ∀ (junk : ι → Bool × Option (Clh.Node ι))
      (r : Run Clh.Step (fun _ _ _ => True) (Clh.start junk)),
      Fair Clh.Pc.Idle Clh.Pc.Holds r → ∀ k i, ((r.state k).pc i).Locks →
        ∃ m, k ≤ m ∧ ((r.state m).pc i).Holds :=
  ⟨fun _ _ _ _ _ hf _ _ hl => Mcs.served hf hl, fun _ _ hf _ _ hl => Clh.served hf hl⟩

/-- A thread unlocks and waits for the one behind it, which has entered the queue. -/
def Mcs.unlocking : System (Mcs.Mem Bool Bool) (Mcs.Pc Bool) Bool :=
  let s := (((⟨(Mcs.start (fun _ => false) fun _ => none).mem.take true true,
    Function.update (fun _ => .idle) true (.lockLocked true)⟩ :
    System (Mcs.Mem Bool Bool) (Mcs.Pc Bool) Bool).acts (fun _ => Mcs.act) true 3).call true
      (.unlock true)).acts (fun _ => Mcs.act) true 1
  (System.acts (fun _ => Mcs.act) false 3 ⟨s.mem.take false false,
    Function.update s.pc false (.lockLocked false)⟩).acts (fun _ => Mcs.act) true 1

/-- A thread has the lock and another one waits for it. -/
def Clh.waiting : System (Clh.Mem Bool) (Clh.Pc Bool) Bool :=
  ((((Clh.start fun _ => (false, none)).call true (.setWait (.thread true))).acts Clh.act true
    4).call false (.setWait (.thread false))).acts Clh.act false 4

/-- The thread releases the lock, and so does the one that has waited for it. -/
theorem queue_locks_served_waiting :
    (∃ r : Run Mcs.Step (fun _ _ _ => True)
        (Mcs.start (fun _ => false) fun _ => none : System (Mcs.Mem Bool Bool) (Mcs.Pc Bool) Bool),
      Fair Mcs.Pc.Idle Mcs.Pc.Holds r ∧ ∃ n, r.state n = Mcs.unlocking ∧
        ∃ m, n ≤ m ∧ ((r.state m).pc false).Holds) ∧
    ∃ r : Run Clh.Step (fun _ _ _ => True) (Clh.start fun _ : Bool => (false, none)),
      Fair Clh.Pc.Idle Clh.Pc.Holds r ∧ ∃ n, r.state n = Clh.waiting ∧
        ∃ m, n ≤ m ∧ ((r.state m).pc false).Holds := by
  have hm₀ : System.Reachable Mcs.Step (fun (_ : Bool) _ _ => True)
      (Mcs.start (fun _ : Bool => false) fun _ => none)
      (Mcs.start (fun _ : Bool => false) fun _ => none) := .refl
  have hm₁ := hm₀.extend true (.lock true rfl) fun _ => trivial
  have hm₂ := Mcs.acts_reachable hm₁ true 3
  have hm₃ := hm₂.call true (.unlock true) fun _ => trivial
  have hm₄ := Mcs.acts_reachable hm₃ true 1
  have hm₅ := hm₄.extend false (.lock false rfl) fun _ => trivial
  have hm₆ := Mcs.acts_reachable hm₅ false 3
  have hm₇ := Mcs.acts_reachable hm₆ true 1
  have hm₈ : System.Reachable Mcs.Step (fun (_ : Bool) _ _ => True) Mcs.unlocking
      Mcs.unlocking := .refl
  have hm₉ := Mcs.acts_reachable hm₈ false 1
  have hm₁₀ := Mcs.acts_reachable hm₉ true 2
  have hm₁₁ := Mcs.acts_reachable hm₁₀ false 1
  have hm₁₂ := hm₁₁.call false (.unlock false) fun _ => trivial
  have hm₁₃ := Mcs.acts_reachable hm₁₂ false 3
  have hc₀ : System.Reachable Clh.Step (fun (_ : Bool) _ _ => True)
      (Clh.start fun _ => (false, none)) (Clh.start fun _ => (false, none)) := .refl
  have hc₁ := hc₀.call true (.lock (.thread true)) fun _ => trivial
  have hc₂ := Clh.acts_reachable hc₁ true 4
  have hc₃ := hc₂.call false (.lock (.thread false)) fun _ => trivial
  have hc₄ := Clh.acts_reachable hc₃ false 4
  have hc₅ : System.Reachable Clh.Step (fun (_ : Bool) _ _ => True) Clh.waiting
      Clh.waiting := .refl
  have hc₆ := hc₅.call true (.unlock (.thread true)) fun _ => trivial
  have hc₇ := Clh.acts_reachable hc₆ true 2
  have hc₈ := Clh.acts_reachable hc₇ false 1
  have hc₉ := hc₈.call false (.unlock (.thread false)) fun _ => trivial
  have hc₁₀ := Clh.acts_reachable hc₉ false 2
  obtain ⟨r, hf, n, hn⟩ := Fairness.fair_of_reachable Mcs.Pc.Idle Mcs.Pc.Holds Mcs.not_holds
    (s := Mcs.unlocking) hm₇ hm₁₃ (by unfold Mcs.Pc.Idle; decide +kernel)
  obtain ⟨q, hg, k, hk⟩ := Fairness.fair_of_reachable Clh.Pc.Idle Clh.Pc.Holds Clh.not_holds
    (s := Clh.waiting) hc₄ hc₁₀ (by rintro (_ | _) <;> exact ⟨_, rfl⟩)
  refine ⟨⟨r, hf, n, hn, ?_⟩, q, hg, k, hk, ?_⟩
  · refine queue_locks_served.1 Bool _ _ r hf n false (.inr ⟨false, ?_⟩)
    rw [hn]
    rfl
  · refine queue_locks_served.2 _ q hg k false (.inr ?_)
    rw [hk]
    trivial

end ConcurrencyKit.Spinlock
