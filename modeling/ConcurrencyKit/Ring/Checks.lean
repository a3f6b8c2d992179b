import ConcurrencyKit.Misc.Serial
import ConcurrencyKit.Ring.Invariant

/-!
# The checks of a ring at rest

`ck_ring_valid` and `ck_ring_repair` look at `p_head`, which only the enqueue operations for many
producers maintain. Those for a single producer leave it at zero.

The calls are made one after another here. A reservation may stay open between them.
-/

namespace ConcurrencyKit.Ring

open Threads (System SerialInvariant)

variable {ts : Nat} {ι : Type}

namespace Mem

/-- `ck_ring_valid` (`ck_ring.h:97-120`). -/
def valid (size : Nat) (m : Mem ts ι) : Bool :=
  if size &&& (size - 1) ≠ 0 then false
  else if sub32 m.pHead m.cHead ≥ size then false
  else true

/-- `ck_ring_repair` (`ck_ring.h:78-89`). -/
def repair (m : Mem ts ι) : Mem ts ι × Bool :=
  if m.pTail ≠ m.pHead then ({ m with pTail := m.pHead }, true) else (m, false)

/-- The values in the ring. -/
def contents (size : Nat) (m : Mem ts ι) : List (Value ts) :=
  (List.range (sub32 m.pTail m.cHead)).map fun n =>
    m.read (offset ts size ((m.cHead + n) % 2 ^ 32))

end Mem

namespace Checks

/-- All enqueue operations are of one kind, and a single producer is a single thread. -/
structure Roles (k : Producer) (may : ι → Kind → Prop) : Prop where
  producer : ∀ i k', may i (.enqueue k') → k' = k
  single : k = .sp → ∀ i j, may i (.enqueue .sp) → may j (.enqueue .sp) → i = j

/-- The counters and who holds a ticket. -/
structure Counts (ι : Type) where
  cHead : Nat
  pTail : Nat
  pHead : Nat
  consumed : Nat
  committed : Nat
  claimed : Nat
  holder : Nat → Option ι

/-- The counters of a ring. -/
def counts (m : Mem ts ι) : Counts ι :=
  ⟨m.cHead, m.pTail, m.pHead, m.consumed, m.committed, m.claimed, m.holder⟩

namespace Counts

/-- Thread `i` holds the ticket for position `n`. -/
def Holds (c : Counts ι) (i : ι) (n : Nat) : Prop :=
  c.holder n = some i ∧ c.committed ≤ n ∧ n < c.claimed

/-- There is a free slot behind the last value. -/
def Room (size : Nat) (c : Counts ι) : Prop := c.committed < c.consumed + (size - 1)

/-- What holds of the counters. -/
structure Inv (k : Producer) (size : Nat) (c : Counts ι) : Prop where
  cHead : c.cHead = c.consumed % 2 ^ 32
  pTail : c.pTail = c.committed % 2 ^ 32
  pHead : c.pHead = c.claimed % 2 ^ 32
  le : c.consumed ≤ c.committed
  lt : c.committed ≤ c.consumed + (size - 1)
  sp : k = .sp → c.claimed = 0
  mp : k = .mp → c.committed ≤ c.claimed ∧ c.claimed ≤ c.consumed + (size - 1)
  held : k = .mp → ∀ n, c.committed ≤ n → n < c.claimed → c.holder n ≠ none

end Counts

/-- The ticket that a thread holds. -/
def ticket : Pc ts → Option Nat
  | .mpCopy _ _ _ n | .mpReserved _ _ n | .mpWritten _ n | .mpWait _ _ n | .mpPublish _ _ n =>
    some n
  | _ => none

/-- What a thread knows in its turn, while no other thread changes the counters, and from its
reservation to its commit. -/
def Knows (size : Nat) (i : ι) (c : Counts ι) : Pc ts → Prop
  | .spProducer _ consumer => consumer = c.cHead
  | .spCopy _ p _ | .spStore p _ | .spCommitStore p => p = c.pTail ∧ c.Room size
  | .spReserved _ _ | .spWritten | .spCommit => c.Room size
  | .mpConsumer _ p | .mpReload _ p _ => p = c.pHead
  | .mpCas _ p _ => p = c.pHead ∧ c.claimed < c.consumed + (size - 1)
  | .mpCopy _ p _ n | .mpReserved p _ n | .mpWritten p n | .mpWait p _ n =>
    p = n % 2 ^ 32 ∧ c.Holds i n
  | .mpPublish p _ n => p = c.pTail ∧ c.Holds i n ∧ n = c.committed
  | .deqTail _ h => h = c.cHead
  | .deqCopy _ h | .deqStore _ h _ => h = c.cHead ∧ c.consumed < c.committed
  | _ => True

/-- What holds for thread `i`. -/
structure At (may : ι → Kind → Prop) (size : Nat) (i : ι) (c : Counts ι) (pc : Pc ts) : Prop where
  role : ∀ k, pc.kind = some k → may i k
  knows : Knows size i c pc
  owns : ∀ n, c.Holds i n → ticket pc = some n

/-- What a step of thread `i` can do to the counters. -/
inductive Change (may : ι → Kind → Prop) (k : Producer) (size : Nat) (i : ι) (c : Counts ι) :
    Counts ι → Prop
  | stay : Change may k size i c c
  | take (some_value : c.consumed < c.committed) :
      Change may k size i c
        { c with cHead := (c.cHead + 1) % 2 ^ 32, consumed := c.consumed + 1 }
  | publishSp (hk : k = .sp) (role : may i (.enqueue .sp)) (room : c.Room size) :
      Change may k size i c
        { c with pTail := (c.pTail + 1) % 2 ^ 32, committed := c.committed + 1 }
  | publishMp (hk : k = .mp) (holds : c.Holds i c.committed) :
      Change may k size i c
        { c with pTail := (c.pTail + 1) % 2 ^ 32, committed := c.committed + 1 }
  | claim (hk : k = .mp) (room : c.claimed < c.consumed + (size - 1)) :
      Change may k size i c
        { c with
          pHead := (c.pHead + 1) % 2 ^ 32
          claimed := c.claimed + 1
          holder := Function.update c.holder c.claimed (some i) }

variable {may : ι → Kind → Prop} {k : Producer} {size : Nat} {i j : ι} {c c' : Counts ι}
  {m m' : Mem ts ι} {pc pc' : Pc ts}

theorem Change.inv (hinv : c.Inv k size) (h : Change may k size i c c') : c'.Inv k size := by
  obtain ⟨hcHead, hpTail, hpHead, hle, hlt, hsp, hmp, hheld⟩ := hinv
  have hne : Producer.sp ≠ .mp := by decide
  cases h with
  | stay => exact ⟨hcHead, hpTail, hpHead, hle, hlt, hsp, hmp, hheld⟩
  | take some_value =>
    refine ⟨?_, hpTail, hpHead, some_value, ?_, hsp, fun hk => ⟨(hmp hk).1, ?_⟩, hheld⟩
    · show (c.cHead + 1) % 2 ^ 32 = (c.consumed + 1) % 2 ^ 32
      omega
    · show c.committed ≤ c.consumed + 1 + (size - 1)
      omega
    · have := (hmp hk).2
      show c.claimed ≤ c.consumed + 1 + (size - 1)
      omega
  | publishSp hk role room =>
    subst hk
    refine ⟨hcHead, ?_, hpHead, hle.trans (Nat.le_succ _), room, hsp, fun h => absurd h hne,
      fun h => absurd h hne⟩
    show (c.pTail + 1) % 2 ^ 32 = (c.committed + 1) % 2 ^ 32
    omega
  | publishMp hk holds =>
    subst hk
    obtain ⟨-, -, hclaimed⟩ := holds
    have hroom := (hmp rfl).2
    refine ⟨hcHead, ?_, hpHead, hle.trans (Nat.le_succ _), ?_, fun h => absurd h.symm hne,
      fun _ => ⟨hclaimed, hroom⟩, fun _ n hn => hheld rfl n ((Nat.le_succ _).trans hn)⟩
    · show (c.pTail + 1) % 2 ^ 32 = (c.committed + 1) % 2 ^ 32
      omega
    · show c.committed + 1 ≤ c.consumed + (size - 1)
      omega
  | claim hk room =>
    subst hk
    refine ⟨hcHead, hpTail, ?_, hle, hlt, fun h => absurd h.symm hne,
      fun _ => ⟨(hmp rfl).1.trans (Nat.le_succ _), room⟩, fun _ n hn hn' => ?_⟩
    · show (c.pHead + 1) % 2 ^ 32 = (c.claimed + 1) % 2 ^ 32
      omega
    · show Function.update c.holder c.claimed (some i) n ≠ none
      by_cases heq : n = c.claimed
      · rw [heq, Function.update_self]
        exact Option.some_ne_none i
      · have hn' : n < c.claimed + 1 := hn'
        rw [Function.update_of_ne heq]
        exact hheld rfl n hn (by omega)

/-- A ticket stays with its holder, and nobody else gets it. -/
theorem Change.holds_iff (hinv : c.Inv k size) (h : Change may k size i c c') (hj : j ≠ i)
    (n : Nat) : c'.Holds j n ↔ c.Holds j n := by
  cases h with
  | stay | take => exact Iff.rfl
  | publishSp hk role room =>
    have hnone := hinv.sp hk
    refine iff_of_false (fun h => ?_) fun h => ?_
    · exact Nat.not_lt_zero n (hnone ▸ h.2.2)
    · exact Nat.not_lt_zero n (hnone ▸ h.2.2)
  | publishMp hk holds =>
    constructor
    · rintro ⟨hholder, hle, hlt⟩
      exact ⟨hholder, (Nat.le_succ _).trans hle, hlt⟩
    · rintro ⟨hholder, hle, hlt⟩
      refine ⟨hholder, Nat.lt_of_le_of_ne hle ?_, hlt⟩
      rintro rfl
      exact hj (Option.some.inj (hholder.symm.trans holds.1))
  | claim hk room =>
    constructor
    · rintro ⟨hholder, hle, hlt⟩
      have hholder : Function.update c.holder c.claimed (some i) n = some j := hholder
      have hlt : n < c.claimed + 1 := hlt
      by_cases heq : n = c.claimed
      · rw [heq, Function.update_self] at hholder
        exact absurd (Option.some.inj hholder).symm hj
      · rw [Function.update_of_ne heq] at hholder
        exact ⟨hholder, hle, by omega⟩
    · rintro ⟨hholder, hle, hlt⟩
      exact ⟨(Function.update_of_ne (by omega) _ _).trans hholder, hle, Nat.lt_succ_of_lt hlt⟩

/-- A free slot stays free while the thread that has reserved it is not the one that commits. -/
theorem Change.room (hroles : Roles k may) (h : Change may k size i c c') (hj : j ≠ i)
    (hrole : may j (.enqueue .sp)) (hroom : c.Room size) : c'.Room size := by
  unfold Counts.Room at hroom ⊢
  cases h with
  | stay => exact hroom
  | take =>
    dsimp only
    omega
  | publishSp hk role => exact absurd (hroles.single hk j i hrole role) hj
  | publishMp hk => exact absurd (hroles.producer j .sp hrole) (hk ▸ by decide)
  | claim => exact hroom

/-- What a thread knows while it rests outlasts the turns of the others. -/
theorem Change.at (hroles : Roles k may) (hinv : c.Inv k size) (h : Change may k size i c c')
    (hj : j ≠ i) (hrest : pc.Resting ∨ pc.Holding) (hat : At may size j c pc) :
    At may size j c' pc where
  role := hat.role
  owns n hn := hat.owns n ((h.holds_iff hinv hj n).mp hn)
  knows := by
    have hknows := hat.knows
    cases pc with
    | spReserved | spWritten => exact h.room hroles hj (hat.role _ rfl) hknows
    | mpReserved | mpWritten => exact ⟨hknows.1, (h.holds_iff hinv hj _).mpr hknows.2⟩
    | idle | enqueued | dequeued => trivial
    | _ => exact (hrest.elim id id).elim

/-! ## Turns -/

/-- A step that changes no counter and no ticket. -/
theorem At.next (h : At may size i c pc) (hkind : ∀ k, pc'.kind = some k → pc.kind = some k)
    (hknows : Knows size i c pc') (hticket : ticket pc' = ticket pc) : At may size i c pc' where
  role k hk := h.role k (hkind k hk)
  knows := hknows
  owns n hn := hticket.trans (h.owns n hn)

/-- A thread in a call that holds no ticket. -/
theorem At.of_none (hrole : ∀ k, pc'.kind = some k → may i k) (hknows : Knows size i c pc')
    (hnone : ∀ n, ¬ c.Holds i n) : At may size i c pc' where
  role := hrole
  knows := hknows
  owns n hn := absurd hn (hnone n)

theorem At.not_holds (h : At may size i c pc) (hpc : ticket pc = none) (n : Nat) :
    ¬ c.Holds i n := by
  intro hn
  rw [h.owns n hn] at hpc
  exact absurd hpc (Option.some_ne_none n)

namespace Counts

/-- The producer finds a free slot where the masked counters differ. -/
theorem Inv.room (hs : IsSize size) (h : c.Inv k size)
    (hne : (c.pTail + 1) % 2 ^ 32 % size ≠ c.cHead % size) : c.Room size := by
  obtain ⟨hpos, hle, hlt⟩ : 0 < size ∧ c.consumed ≤ c.committed ∧
      c.committed ≤ c.consumed + (size - 1) := ⟨hs.pos, h.le, h.lt⟩
  unfold Room
  by_contra hge
  refine hne ?_
  have heq : c.committed + 1 = c.consumed + size := by omega
  rw [h.pTail, h.cHead, hs.mod_mod, hs.mod_mod, Nat.add_mod, hs.mod_mod, ← Nat.add_mod, heq,
    Nat.add_mod_right]

/-- The positions that are claimed and not consumed. -/
theorem Inv.taken (hs : IsSize size) (h : c.Inv .mp size) :
    sub32 c.pHead c.cHead = c.claimed - c.consumed := by
  obtain ⟨hcommitted, hclaimed⟩ := h.mp rfl
  have hle := h.le
  have hsize := hs.le
  rw [h.pHead, h.cHead]
  exact sub32_of_le (by omega) (by omega)

/-- The values in the ring. -/
theorem Inv.filled (hs : IsSize size) (h : c.Inv k size) :
    sub32 c.pTail c.cHead = c.committed - c.consumed := by
  have hlt := h.lt
  have hsize := hs.le
  rw [h.pTail, h.cHead]
  exact sub32_of_le h.le (by omega)

/-- The ticket that `p_tail` has come to is the first one. -/
theorem Inv.first {n : Nat} (hs : IsSize size) (h : c.Inv .mp size) (hn : c.Holds i n)
    (heq : c.pTail = n % 2 ^ 32) : n = c.committed := by
  obtain ⟨-, hle, hlt⟩ := hn
  have hclaimed := (h.mp rfl).2
  have hcommitted := h.le
  have hsize := hs.le
  rw [h.pTail] at heq
  exact (Threads.eq_of_mod_eq hle (by omega) heq).symm

end Counts

/-- An access of a dequeue operation. -/
theorem dequeue_act (hinv : (counts m).Inv k size) {kind : Consumer}
    (hpc : pc.kind = some (.dequeue kind)) (hat : At may size i (counts m) pc) :
    Change may k size i (counts m) (counts (m.act size i pc).1) ∧
      At may size i (counts (m.act size i pc).1) (m.act size i pc).2 := by
  have hknows := hat.knows
  cases pc with
  | deqHead => exact ⟨.stay, hat.next (fun _ h => h) rfl rfl⟩
  | deqTail kind' h =>
    have hhead : h = m.cHead := hknows
    by_cases hempty : h = m.pTail
    · simp only [Mem.act, if_pos hempty]
      exact ⟨.stay, hat.next (fun _ h => by cases h) trivial rfl⟩
    · simp only [Mem.act, if_neg hempty]
      refine ⟨.stay, hat.next (fun _ h => h) ⟨hhead, ?_⟩ rfl⟩
      have hle := hinv.le
      refine Nat.lt_of_le_of_ne hle fun heq => hempty ?_
      rw [hhead]
      exact hinv.cHead.trans ((congrArg (· % 2 ^ 32) heq).trans hinv.pTail.symm)
  | deqCopy => exact ⟨.stay, hat.next (fun _ h => h) hknows rfl⟩
  | deqStore kind' h data =>
    obtain ⟨hhead, hsome⟩ : h = m.cHead ∧ m.consumed < m.committed := hknows
    have hnone := hat.not_holds rfl
    have htake : Change may k size i (counts m)
        (counts (m.storeHead ((m.cHead + 1) % 2 ^ 32) data)) := .take hsome
    have hnext : ∀ kind'', At may size i (counts (m.storeHead ((m.cHead + 1) % 2 ^ 32) data))
        (.dequeued kind'' (some data) : Pc ts) :=
      fun _ => .of_none (fun _ h => by cases h) trivial hnone
    subst hhead
    cases kind' with
    | sc => exact ⟨htake, hnext .sc⟩
    | mc | tryMc =>
      simp only [Mem.act, if_pos]
      exact ⟨htake, hnext _⟩
  | _ => cases hpc

/-- An access of an enqueue operation for a single producer. -/
theorem enqueueSp_act (hs : IsSize size) (hroles : Roles k may) (hinv : (counts m).Inv k size)
    (hpc : pc.kind = some (.enqueue .sp)) (hholding : ¬ pc.Holding)
    (hat : At may size i (counts m) pc) :
    Change may k size i (counts m) (counts (m.act size i pc).1) ∧
      At may size i (counts (m.act size i pc).1) (m.act size i pc).2 := by
  have hknows := hat.knows
  have hrole := hat.role _ hpc
  have hk : k = .sp := (hroles.producer i .sp hrole).symm
  have hnone : ∀ n, ¬ (counts m).Holds i n := by
    intro n hn
    exact Nat.not_lt_zero n ((hinv.sp hk).symm ▸ hn.2.2 : n < 0)
  have hpublish : (counts m).Room size → Change may k size i (counts m)
      (counts (m.storeTail ((m.pTail + 1) % 2 ^ 32))) := fun hroom => .publishSp hk hrole hroom
  have hdone : ∀ pc' : Pc ts, pc'.kind = none → Knows size i
      (counts (m.storeTail ((m.pTail + 1) % 2 ^ 32))) pc' →
      At may size i (counts (m.storeTail ((m.pTail + 1) % 2 ^ 32))) pc' := by
    intro pc' hkind hknows'
    refine .of_none (fun _ h => by rw [hkind] at h; cases h) hknows' fun n hn => ?_
    exact hnone n ⟨hn.1, (Nat.le_succ _).trans hn.2.1, hn.2.2⟩
  cases pc with
  | spConsumer v => exact ⟨.stay, hat.next (fun _ h => h) rfl rfl⟩
  | spProducer v consumer =>
    have hconsumer : consumer = m.cHead := hknows
    by_cases hfull : (m.pTail + 1) % 2 ^ 32 % size = consumer % size
    · simp only [Mem.act, if_pos hfull]
      exact ⟨.stay, hat.next (fun _ h => by cases h) trivial rfl⟩
    · simp only [Mem.act, if_neg hfull]
      rw [hconsumer] at hfull
      have hroom : (counts m).Room size := hinv.room hs hfull
      cases v with
      | none => exact ⟨.stay, hat.next (fun _ h => h) hroom rfl⟩
      | some v => exact ⟨.stay, hat.next (fun _ h => h) ⟨rfl, hroom⟩ rfl⟩
  | spCopy v p taken => exact ⟨.stay, hat.next (fun _ h => h) hknows rfl⟩
  | spStore p taken =>
    obtain ⟨htail, hroom⟩ : p = m.pTail ∧ (counts m).Room size := hknows
    subst htail
    exact ⟨hpublish hroom, hdone _ rfl trivial⟩
  | spCommit => exact ⟨.stay, hat.next (fun _ h => h) ⟨rfl, hknows⟩ rfl⟩
  | spCommitStore p =>
    obtain ⟨htail, hroom⟩ : p = m.pTail ∧ (counts m).Room size := hknows
    subst htail
    exact ⟨hpublish hroom, hdone _ rfl trivial⟩
  | spReserved | spWritten => exact absurd trivial hholding
  | _ => cases hpc

/-- A thread that publishes the value of its ticket holds no other one. -/
theorem At.publish (hat : At may size i (counts m) pc) {n taken : Nat} (hpc : ticket pc = some n)
    (hn : n = m.committed) :
    At may size i (counts (m.storeTail ((m.pTail + 1) % 2 ^ 32)))
      (.enqueued .mp true taken : Pc ts) := by
  refine .of_none (fun _ h => by cases h) trivial fun n' hn' => ?_
  obtain ⟨hholder, hle, hlt⟩ := hn'
  have hle : m.committed + 1 ≤ n' := hle
  have hown := hat.owns n' ⟨hholder, (Nat.le_succ _).trans hle, hlt⟩
  rw [hpc] at hown
  have := Option.some.inj hown
  omega

/-- A thread that claims a position holds its ticket. -/
theorem At.claim (hinv : (counts m).Inv .mp size) (hat : At may size i (counts m) pc)
    (hpc : ticket pc = none) (hkind : pc'.kind = some (.enqueue .mp))
    (hrole : may i (.enqueue .mp)) (hticket : ticket pc' = some m.claimed)
    (hknows : m.pHead = m.claimed % 2 ^ 32 →
      (counts (m.claim i ((m.pHead + 1) % 2 ^ 32))).Holds i m.claimed →
      Knows size i (counts (m.claim i ((m.pHead + 1) % 2 ^ 32))) pc') :
    At may size i (counts (m.claim i ((m.pHead + 1) % 2 ^ 32))) pc' where
  role k hk := by
    rw [hkind] at hk
    exact Option.some.inj hk ▸ hrole
  knows := hknows hinv.pHead
    ⟨Function.update_self _ _ _, (hinv.mp rfl).1, Nat.lt_succ_self _⟩
  owns n hn := by
    obtain ⟨hholder, hle, hlt⟩ := hn
    have hholder : Function.update m.holder m.claimed (some i) n = some i := hholder
    have hlt : n < m.claimed + 1 := hlt
    by_cases heq : n = m.claimed
    · rw [hticket, heq]
    · rw [Function.update_of_ne heq] at hholder
      exact absurd ⟨hholder, hle, by show n < m.claimed; omega⟩ (hat.not_holds hpc n)

/-- An access of an enqueue operation for many producers. -/
theorem enqueueMp_act (hs : IsSize size) (hroles : Roles k may) (hinv : (counts m).Inv k size)
    (hpc : pc.kind = some (.enqueue .mp)) (hholding : ¬ pc.Holding)
    (hat : At may size i (counts m) pc) :
    Change may k size i (counts m) (counts (m.act size i pc).1) ∧
      At may size i (counts (m.act size i pc).1) (m.act size i pc).2 := by
  have hknows := hat.knows
  have hrole := hat.role _ hpc
  have hk : k = .mp := (hroles.producer i .mp hrole).symm
  subst hk
  cases pc with
  | mpHead v => exact ⟨.stay, hat.next (fun _ h => h) rfl rfl⟩
  | mpConsumer v p =>
    have hhead : p = m.pHead := hknows
    by_cases hroom : sub32 p m.cHead < size - 1
    · simp only [Mem.act, if_pos hroom]
      refine ⟨.stay, hat.next (fun _ h => h) ⟨hhead, ?_⟩ rfl⟩
      have htaken : sub32 m.pHead m.cHead = m.claimed - m.consumed := hinv.taken hs
      rw [hhead, htaken] at hroom
      show m.claimed < m.consumed + (size - 1)
      omega
    · simp only [Mem.act, if_neg hroom]
      exact ⟨.stay, hat.next (fun _ h => h) hhead rfl⟩
  | mpCas v p consumer =>
    obtain ⟨hhead, hroom⟩ : p = m.pHead ∧ m.claimed < m.consumed + (size - 1) := hknows
    subst hhead
    have hclaim : Change may .mp size i (counts m)
        (counts (m.claim i ((m.pHead + 1) % 2 ^ 32))) := .claim rfl hroom
    simp only [Mem.act, if_pos]
    cases v with
    | none =>
      exact ⟨hclaim, hat.claim hinv rfl rfl hrole rfl fun hhead holds => ⟨hhead, holds⟩⟩
    | some v =>
      exact ⟨hclaim, hat.claim hinv rfl rfl hrole rfl fun hhead holds => ⟨hhead, holds⟩⟩
  | mpReload v p consumer =>
    by_cases hsame : p = m.pHead
    · simp only [Mem.act, if_pos hsame]
      exact ⟨.stay, hat.next (fun _ h => by cases h) trivial rfl⟩
    · exact absurd hknows hsame
  | mpCopy v p taken n => exact ⟨.stay, hat.next (fun _ h => h) hknows rfl⟩
  | mpWait p taken n =>
    obtain ⟨hp, hholds⟩ := hknows
    by_cases htail : m.pTail = p
    · simp only [Mem.act, if_pos htail]
      exact ⟨.stay, hat.next (fun _ h => h)
        ⟨htail.symm, hholds, hinv.first hs hholds (htail.trans hp)⟩ rfl⟩
    · simp only [Mem.act, if_neg htail]
      exact ⟨.stay, hat.next (fun _ h => h) ⟨hp, hholds⟩ rfl⟩
  | mpPublish p taken n =>
    obtain ⟨htail, hholds, hn⟩ : p = m.pTail ∧ (counts m).Holds i n ∧ n = m.committed := hknows
    subst htail hn
    exact ⟨.publishMp rfl hholds, hat.publish rfl rfl⟩
  | mpReserved | mpWritten => exact absurd trivial hholding
  | _ => cases hpc

variable [DecidableEq ι]

/-- A step of the thread whose turn it is. -/
theorem step_own (hs : IsSize size) (hroles : Roles k may) (hinv : (counts m).Inv k size)
    (hat : At may size i (counts m) pc) (hstep : Step size may i m pc m' pc') :
    Change may k size i (counts m) (counts m') ∧ At may size i (counts m') pc' := by
  cases hstep with
  | call c resting allowed =>
    have hnone : ticket pc = none := by
      cases pc with
      | idle | enqueued | dequeued => rfl
      | _ => exact resting.elim
    refine ⟨.stay, .of_none (fun kind hkind => ?_) ?_ (hat.not_holds hnone)⟩
    · cases c <;> exact Option.some.inj hkind ▸ allowed
    · cases c <;> trivial
  | writeSp v | writeMp v => exact ⟨.stay, hat.next (fun _ h => h) hat.knows rfl⟩
  | commitSp | commitMp => exact ⟨.stay, hat.next (fun _ h => h) hat.knows rfl⟩
  | act running =>
    obtain ⟨hresting, hholding⟩ := running
    obtain ⟨kind, hpc⟩ := Pc.kind_of_running hresting
    cases kind with
    | dequeue kind => exact dequeue_act hinv hpc hat
    | enqueue kind =>
      cases kind with
      | sp => exact enqueueSp_act hs hroles hinv hpc hholding hat
      | mp => exact enqueueMp_act hs hroles hinv hpc hholding hat

theorem invariant (hs : IsSize size) (hroles : Roles k may) :
    SerialInvariant (Step size may : ι → Mem ts ι → Pc ts → Mem ts ι → Pc ts → Prop)
      (fun pc => pc.Resting ∨ pc.Holding) (fun m => (counts m).Inv k size)
      fun i m pc => At may size i (counts m) pc where
  own hstep hinv hat := by
    obtain ⟨hchange, hown⟩ := step_own hs hroles hinv hat hstep
    exact ⟨hchange.inv hinv, hown⟩
  other hstep hinv hat _ _ hj hrest hother :=
    (step_own hs hroles hinv hat hstep).1.at hroles hinv hj hrest hother

/-- Between the calls the counters are right, and at rest no position is claimed that is not
committed. -/
theorem serial_inv (hs : IsSize size) (hroles : Roles k may) {bytes : Nat → Byte}
    {s : System (Mem ts ι) (Pc ts) ι}
    (hr : System.Serial (Step size may) (fun pc => pc.Resting ∨ pc.Holding) (start bytes) s)
    (hquiet : ∀ i, (s.pc i).Resting) :
    (counts s.mem).Inv k size ∧ (k = .mp → s.mem.claimed = s.mem.committed) := by
  have hinit : (counts (init bytes : Mem ts ι)).Inv k size :=
    ⟨rfl, rfl, rfl, le_refl _, Nat.zero_le _, fun _ => rfl, fun _ => ⟨le_refl _, Nat.zero_le _⟩,
      fun _ n _ hn => absurd hn (Nat.not_lt_zero n)⟩
  have hstart : ∀ i, At may size i (counts (init bytes : Mem ts ι)) (.idle : Pc ts) :=
    fun i => ⟨fun _ h => (by cases h), trivial, fun n hn => absurd hn.2.2 (Nat.not_lt_zero n)⟩
  obtain ⟨-, hinv, hat⟩ :=
    (invariant hs hroles).serial hr (fun _ => .inl trivial) hinit hstart
  refine ⟨hinv, fun hk => ?_⟩
  obtain ⟨hle, -⟩ := hinv.mp hk
  by_contra hne
  -- the first claimed position has a holder, which does not rest
  have hlt : s.mem.committed < s.mem.claimed := Nat.lt_of_le_of_ne hle (Ne.symm hne)
  obtain ⟨j, hj⟩ := Option.ne_none_iff_exists'.mp (hinv.held hk _ (le_refl _) hlt)
  have hticket := (hat j).owns s.mem.committed ⟨hj, le_refl _, hlt⟩
  have hrest := hquiet j
  cases hpc : s.pc j with
  | idle | enqueued | dequeued =>
    rw [hpc] at hticket
    cases hticket
  | _ =>
    rw [hpc] at hrest
    exact hrest.elim

omit [DecidableEq ι] in
/-- At rest `ck_ring_valid` returns true, and `ck_ring_repair` returns false and leaves the values
in the ring alone, exactly if `p_tail` is `p_head`. -/
theorem checks_iff (hs : IsSize size) (hinv : (counts m).Inv k size) :
    (m.valid size = true ∧ m.repair.2 = false ∧ m.repair.1.contents size = m.contents size) ↔
      m.pTail = m.pHead := by
  constructor
  · rintro ⟨-, hrepair, -⟩
    by_contra hne
    rw [Mem.repair, if_pos hne] at hrepair
    cases hrepair
  · intro heq
    have hrepair : m.repair = (m, false) := if_neg (not_not.mpr heq)
    refine ⟨?_, by rw [hrepair], by rw [hrepair]⟩
    have hpow : size &&& (size - 1) = 0 := by
      obtain ⟨n, -, rfl⟩ := hs
      rw [Nat.and_two_pow_sub_one_eq_mod, Nat.mod_self]
    have hfilled : sub32 m.pTail m.cHead = m.committed - m.consumed := hinv.filled hs
    have hlt : m.committed ≤ m.consumed + (size - 1) := hinv.lt
    have hpos := hs.pos
    rw [Mem.valid, if_neg (not_not.mpr hpow), if_neg]
    rw [← heq, hfilled]
    omega

/-- At rest the checks find the ring in order, and leave it alone, exactly if the enqueue operations
are those for many producers, or the number of values that have been enqueued is a multiple of
`2 ^ 32`. -/
theorem checks_agree_iff (hs : IsSize size) (hroles : Roles k may) {bytes : Nat → Byte}
    {s : System (Mem ts ι) (Pc ts) ι}
    (hr : System.Serial (Step size may) (fun pc => pc.Resting ∨ pc.Holding) (start bytes) s)
    (hquiet : ∀ i, (s.pc i).Resting) :
    (s.mem.valid size = true ∧ s.mem.repair.2 = false ∧
        s.mem.repair.1.contents size = s.mem.contents size) ↔
      k = .mp ∨ s.mem.committed % 2 ^ 32 = 0 := by
  obtain ⟨hinv, hclaimed⟩ := serial_inv hs hroles hr hquiet
  rw [checks_iff hs hinv, show s.mem.pTail = _ from hinv.pTail,
    show s.mem.pHead = _ from hinv.pHead]
  cases k with
  | sp =>
    have hzero : s.mem.claimed = 0 := hinv.sp rfl
    rw [show (counts s.mem).claimed = 0 from hzero]
    exact ⟨.inr, fun h => h.resolve_left (by decide)⟩
  | mp => exact iff_of_true (congrArg (· % 2 ^ 32) (hclaimed rfl).symm) (.inl rfl)

/-- A thread that makes the next access of its call. -/
theorem turn_act {s₀ s : System (Mem ts ι) (Pc ts) ι}
    (h : Relation.ReflTransGen (System.Moves (Step size may) i) s₀ s)
    (running : ¬ (s.pc i).Resting ∧ ¬ (s.pc i).Holding) :
    Relation.ReflTransGen (System.Moves (Step size may) i) s₀
      ⟨(s.mem.act size i (s.pc i)).1.observe size,
        Function.update s.pc i (s.mem.act size i (s.pc i)).2⟩ :=
  h.tail (.mk (.act running))

/-- One value has gone through the ring, the next one is in the other slot, and a producer has found
the ring full. -/
theorem checks_agree_iff_full : ∃ s : System (Mem 1 Unit) (Pc 1) Unit,
    s.pc () = .enqueued .mp false 1 ∧ s.mem.dequeued = [fun _ => 7] ∧
      s.mem.contents 2 = [fun _ => 8] ∧ s.mem.valid 2 = true ∧ s.mem.repair.2 = false ∧
      s.mem.repair.1.contents 2 = s.mem.contents 2 := by
  have go : ¬ False ∧ ¬ False := ⟨id, id⟩
  have hroles : Roles .mp fun (_ : Unit) kind => kind ≠ .enqueue .sp := by
    refine ⟨fun _ k' h => ?_, fun h => ?_⟩
    · cases k' with
      | sp => exact absurd rfl h
      | mp => rfl
    · cases h
  have h₁ : Relation.ReflTransGen
      (System.Moves (Step 2 fun (_ : Unit) kind => kind ≠ .enqueue .sp) ())
      (start fun _ => 0 : System (Mem 1 Unit) (Pc 1) Unit) _ :=
    .single (.mk (.call (.enqueueMp (some fun _ => 7)) trivial (by decide)))
  have h₂ := turn_act h₁ go
  have h₃ := turn_act h₂ go
  have h₄ := turn_act h₃ go
  have h₅ := turn_act h₄ go
  have h₆ := turn_act h₅ go
  have h₇ := turn_act h₆ go
  have h₈ := h₇.tail (.mk (.call (.dequeue .mc) trivial (by decide)))
  have h₉ := turn_act h₈ go
  have h₁₀ := turn_act h₉ go
  have h₁₁ := turn_act h₁₀ go
  have h₁₂ := turn_act h₁₁ go
  have h₁₃ := h₁₂.tail (.mk (.call (.enqueueMp (some fun _ => 8)) trivial (by decide)))
  have h₁₄ := turn_act h₁₃ go
  have h₁₅ := turn_act h₁₄ go
  have h₁₆ := turn_act h₁₅ go
  have h₁₇ := turn_act h₁₆ go
  have h₁₈ := turn_act h₁₇ go
  have h₁₉ := turn_act h₁₈ go
  have h₂₀ := h₁₉.tail (.mk (.call (.enqueueMp (some fun _ => 9)) trivial (by decide)))
  have h₂₁ := turn_act h₂₀ go
  have h₂₂ := turn_act h₂₁ go
  have h₂₃ := turn_act h₂₂ go
  exact ⟨_, rfl, by decide +kernel, by decide +kernel,
    (checks_agree_iff ⟨1, by decide, rfl⟩ hroles
      (.single (.mk () h₂₃ (.inl trivial))) fun _ => trivial).mpr (.inl rfl)⟩

/-- A single producer has enqueued a value: `ck_ring_repair` drops it. -/
theorem repair_drops_value : ∃ s : System (Mem 1 Unit) (Pc 1) Unit,
    System.Serial (Step 2 fun _ kind => kind = .enqueue .sp)
        (fun pc => pc.Resting ∨ pc.Holding) (start fun _ => 0) s ∧
      (∀ i, (s.pc i).Resting) ∧ s.mem.contents 2 = [fun _ => 7] ∧ s.mem.repair.2 = true ∧
      s.mem.repair.1.contents 2 = [] := by
  have go : ¬ False ∧ ¬ False := ⟨id, id⟩
  have h₁ : Relation.ReflTransGen
      (System.Moves (Step 2 fun (_ : Unit) kind => kind = .enqueue .sp) ())
      (start fun _ => 0 : System (Mem 1 Unit) (Pc 1) Unit) _ :=
    .single (.mk (.call (.enqueueSp (some fun _ => 7)) trivial rfl))
  have h₂ := turn_act h₁ go
  have h₃ := turn_act h₂ go
  have h₄ := turn_act h₃ go
  have h₅ := turn_act h₄ go
  exact ⟨_, .single (.mk () h₅ (.inl trivial)), fun _ => trivial, by decide +kernel,
    by decide +kernel, by decide +kernel⟩

end Checks

end ConcurrencyKit.Ring
