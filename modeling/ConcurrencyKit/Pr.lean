import ConcurrencyKit.Misc.Retry

/-!
# The operations of `ck_pr.h` that a port leaves out

A port of `ck_pr` has a compare-and-swap that says what it has found. Where it has no instruction
for one of the other operations, `include/ck_pr.h:222-1275` makes a loop around the
compare-and-swap. There is one macro for each kind of operation, which is expanded for the types of
`Width`. Words are unsigned here; for `int` the overflow of an operation is undefined in C.
-/

namespace ConcurrencyKit.Pr

open Linear (Legal)
open Retry (Mem Pc Update)
open Threads (System)

/-- The types of the words, on a machine with pointers of 64 bits. -/
inductive Width where
  | char
  | uint
  | ptr
  | w64
  | w32
  | w16
  | w8
  deriving DecidableEq, Repr

/-- The number of bits of a word. -/
def Width.bits : Width → Nat
  | .char | .w8 => 8
  | .w16 => 16
  | .uint | .w32 => 32
  | .ptr | .w64 => 64

/-- What an operation returns. -/
inductive Result (w : Nat) where
  | none
  | bool (b : Bool)
  | word (v : BitVec w)
  deriving DecidableEq, Repr

/-- The operations, with their arguments. The ones that end in `Zero` tell whether the word has
become zero: `ck_pr_inc_S_is_zero`, `ck_pr_dec_S_is_zero` and `ck_pr_neg_S_zero`. -/
inductive Op (w : Nat) where
  | add (value : BitVec w)
  | sub (value : BitVec w)
  | and (value : BitVec w)
  | xor (value : BitVec w)
  | or (value : BitVec w)
  | btc (offset : Nat)
  | btr (offset : Nat)
  | bts (offset : Nat)
  | inc
  | dec
  | incZero
  | decZero
  | not
  | neg
  | negZero
  | faa (delta : BitVec w)
  | fas (update : BitVec w)
  deriving DecidableEq, Repr

section Macros

variable {w : Nat}

/-- `CK_PR_BIN`. -/
def ckPrBin (p : BitVec w → BitVec w → BitVec w) (value : BitVec w) :
    Update (BitVec w) (Result w) where
  update previous := p previous value
  result _ := .none

/-- `CK_PR_BTX`. -/
def ckPrBtx (p : BitVec w → BitVec w → BitVec w) (r : BitVec w → BitVec w) (offset : Nat) :
    Update (BitVec w) (Result w) where
  update previous := p previous (r (1#w <<< offset))
  result previous := .bool ((previous >>> offset) &&& 1#w != 0#w)

/-- `CK_PR_UNARY_Z`. -/
def ckPrUnaryZ (p : BitVec w → BitVec w → BitVec w) (z : BitVec w) :
    Update (BitVec w) (Result w) where
  update previous := p previous 1#w
  result previous := .bool (previous == z)

/-- `CK_PR_N`. -/
def ckPrN (p : BitVec w → BitVec w) : Update (BitVec w) (Result w) where
  update previous := p previous
  result _ := .none

/-- `CK_PR_N_Z`. -/
def ckPrNZ : Update (BitVec w) (Result w) where
  update previous := -previous
  result previous := .bool (previous == 0#w)

/-- `CK_PR_FAA`. -/
def ckPrFaa (delta : BitVec w) : Update (BitVec w) (Result w) where
  update previous := previous + delta
  result previous := .word previous

/-- `CK_PR_FAS`. -/
def ckPrFas (update : BitVec w) : Update (BitVec w) (Result w) where
  update _ := update
  result previous := .word previous

end Macros

/-- The word that `CK_PR_UNARY_Z(inc, …)` compares with: `-1`, `UINT_MAX`, `UINT64_MAX`,
`UINT32_MAX`, `UINT16_MAX` or `UINT8_MAX`, and `UINT_MAX` for pointers, too. -/
def Width.last : (k : Width) → BitVec k.bits
  | .char => BitVec.ofInt 8 (-1)
  | .uint => 0xffffffff#32
  | .ptr => 0xffffffff#64
  | .w64 => 0xffffffffffffffff#64
  | .w32 => 0xffffffff#32
  | .w16 => 0xffff#16
  | .w8 => 0xff#8

/-- What the loops compute. -/
def fallback (k : Width) : Op k.bits → Update (BitVec k.bits) (Result k.bits)
  | .add value => ckPrBin (· + ·) value
  | .sub value => ckPrBin (· - ·) value
  | .and value => ckPrBin (· &&& ·) value
  | .xor value => ckPrBin (· ^^^ ·) value
  | .or value => ckPrBin (· ||| ·) value
  | .btc offset => ckPrBtx (· ^^^ ·) (fun bit => bit) offset
  | .btr offset => ckPrBtx (· &&& ·) (fun bit => ~~~bit) offset
  | .bts offset => ckPrBtx (· ||| ·) (fun bit => bit) offset
  -- `CK_PR_UNARY`
  | .inc => ckPrBin (· + ·) 1#k.bits
  | .dec => ckPrBin (· - ·) 1#k.bits
  | .incZero => ckPrUnaryZ (· + ·) k.last
  | .decZero => ckPrUnaryZ (· - ·) 1#k.bits
  | .not => ckPrN (~~~·)
  | .neg => ckPrN (-·)
  | .negZero => ckPrNZ
  | .faa delta => ckPrFaa delta
  | .fas update => ckPrFas update

/-! ## What the operations are for -/

/-- The bit that an operation on one bit works on is `b` afterwards, and the others are as they
were; it returns what the bit was. -/
def OneBit {w : Nat} (old new : BitVec w) (r : Result w) (offset : Nat) (b : Bool) : Prop :=
  new.getLsbD offset = b ∧ (∀ j, j ≠ offset → new.getLsbD j = old.getLsbD j) ∧
    r = .bool (old.getLsbD offset)

/-- What an operation does to a word, as its manual page describes it. Those that say that the
word has become zero do so exactly then, apart from the one that increments a pointer: it says so
when the pointer has become `2 ^ 32`. -/
def Does (k : Width) (old : BitVec k.bits) (e : Op k.bits × Result k.bits)
    (new : BitVec k.bits) : Prop :=
  match e.1 with
  | .add v => new = old + v ∧ e.2 = .none
  | .sub v => new = old - v ∧ e.2 = .none
  | .and v => (∀ j, new.getLsbD j = (old.getLsbD j && v.getLsbD j)) ∧ e.2 = .none
  | .xor v => (∀ j, new.getLsbD j = (old.getLsbD j ^^ v.getLsbD j)) ∧ e.2 = .none
  | .or v => (∀ j, new.getLsbD j = (old.getLsbD j || v.getLsbD j)) ∧ e.2 = .none
  | .btc offset => offset < k.bits → OneBit old new e.2 offset (!old.getLsbD offset)
  | .btr offset => offset < k.bits → OneBit old new e.2 offset false
  | .bts offset => offset < k.bits → OneBit old new e.2 offset true
  | .inc => new = old + 1 ∧ e.2 = .none
  | .dec => new = old - 1 ∧ e.2 = .none
  | .incZero => new = old + 1 ∧
      (e.2 = .bool true ↔ new.toNat = if k = .ptr then 2 ^ 32 else 0) ∧ ∃ b, e.2 = .bool b
  | .decZero => new = old - 1 ∧ (e.2 = .bool true ↔ new = 0) ∧ ∃ b, e.2 = .bool b
  | .not => (∀ j, j < k.bits → new.getLsbD j = !old.getLsbD j) ∧ e.2 = .none
  | .neg => new + old = 0 ∧ e.2 = .none
  | .negZero => new + old = 0 ∧ (e.2 = .bool true ↔ new = 0) ∧ ∃ b, e.2 = .bool b
  | .faa delta => new = old + delta ∧ e.2 = .word old
  | .fas update => new = update ∧ e.2 = .word old

section Bits

variable {w : Nat} {old : BitVec w} {j offset : Nat}

/-- `((previous >> offset) & 1)` is the bit of the word. -/
theorem shift_and_one : ((old >>> offset) &&& 1#w != 0#w) = old.getLsbD offset := by
  rw [Bool.eq_iff_iff, bne_iff_ne, Ne, BitVec.eq_of_getLsbD_eq_iff]
  constructor
  · intro h
    push Not at h
    obtain ⟨i, hi, h⟩ := h
    simp at h
    obtain ⟨h, -, rfl⟩ := h
    exact h
  · intro h hzero
    have hw : 0 < w := by
      have hlt := BitVec.lt_of_getLsbD h
      omega
    have hbit := hzero 0 hw
    simp [h, hw] at hbit

theorem getLsbD_one_shift (hj : j ≠ offset) : (1#w <<< offset).getLsbD j = false := by
  simp [BitVec.getLsbD_one]
  omega

theorem oneBit_btc (h : offset < w) :
    let u := ckPrBtx (· ^^^ ·) (fun bit => bit) offset
    OneBit old (u.update old) (u.result old) offset (!old.getLsbD offset) := by
  intro u
  refine ⟨?_, fun j hj => ?_, congrArg _ shift_and_one⟩
  · simp [u, ckPrBtx, h]
  · simp only [u, ckPrBtx, BitVec.getLsbD_xor, getLsbD_one_shift hj, Bool.xor_false]

theorem oneBit_btr (h : offset < w) :
    let u := ckPrBtx (· &&& ·) (fun bit => ~~~bit) offset
    OneBit old (u.update old) (u.result old) offset false := by
  intro u
  refine ⟨?_, fun j hj => ?_, congrArg _ shift_and_one⟩
  · simp [u, ckPrBtx, h]
  · simp only [u, ckPrBtx, BitVec.getLsbD_and, BitVec.getLsbD_not, getLsbD_one_shift hj]
    by_cases hlt : j < w
    · simp [hlt]
    · simp [BitVec.getLsbD_of_ge old j (Nat.le_of_not_lt hlt)]

theorem oneBit_bts (h : offset < w) :
    let u := ckPrBtx (· ||| ·) (fun bit => bit) offset
    OneBit old (u.update old) (u.result old) offset true := by
  intro u
  refine ⟨?_, fun j hj => ?_, congrArg _ shift_and_one⟩
  · simp [u, ckPrBtx, h]
  · simp only [u, ckPrBtx, BitVec.getLsbD_or, getLsbD_one_shift hj, Bool.or_false]

/-- A decrement leads to zero from one only. -/
theorem sub_one_eq_zero : old = 1#w ↔ old - 1#w = 0#w := by
  rw [BitVec.sub_eq_iff_eq_add, BitVec.zero_add]

end Bits

variable {k : Width}

/-- An increment leads to zero from the last word only. The pointer that is compared with
`UINT_MAX` leads to `2 ^ 32`. -/
theorem eq_last_iff (old : BitVec k.bits) :
    old = k.last ↔ (old + 1#k.bits).toNat = if k = .ptr then 2 ^ 32 else 0 := by
  have hlast : (k.last + 1#k.bits).toNat = if k = .ptr then 2 ^ 32 else 0 := by
    cases k <;> decide
  rw [← hlast]
  constructor
  · intro h
    rw [h]
  · intro h
    exact (BitVec.add_left_inj 1#k.bits).mp (BitVec.eq_of_toNat_eq h)

/-- The result of a comparison. -/
theorem bool_true_iff {w w' : Nat} {a b : BitVec w} :
    (.bool (a == b) : Result w') = .bool true ↔ a = b := by
  rw [Result.bool.injEq, beq_iff_eq]

/-- Each loop does to the word what the operation is for. -/
theorem fallback_does (op : Op k.bits) (old : BitVec k.bits) :
    Does k old (op, (fallback k op).result old) ((fallback k op).update old) := by
  cases op with
  | add | sub | inc | dec | faa | fas => exact ⟨rfl, rfl⟩
  | and => exact ⟨fun j => BitVec.getLsbD_and, rfl⟩
  | xor => exact ⟨fun j => BitVec.getLsbD_xor, rfl⟩
  | or => exact ⟨fun j => BitVec.getLsbD_or, rfl⟩
  | btc => exact oneBit_btc
  | btr => exact oneBit_btr
  | bts => exact oneBit_bts
  | incZero => exact ⟨rfl, bool_true_iff.trans (eq_last_iff old), _, rfl⟩
  | decZero => exact ⟨rfl, bool_true_iff.trans sub_one_eq_zero, _, rfl⟩
  | not =>
    refine ⟨fun j hj => ?_, rfl⟩
    simp [fallback, ckPrN, hj]
  | neg => exact ⟨BitVec.add_left_neg old, rfl⟩
  | negZero =>
    refine ⟨BitVec.add_left_neg old, bool_true_iff.trans ?_, _, rfl⟩
    exact BitVec.neg_eq_zero_iff.symm

/-! ## Runs -/

variable {ι : Type} [DecidableEq ι] {v : BitVec k.bits}

/-- What holds at every moment of a run. -/
structure Atomic (k : Width) (v : BitVec k.bits)
    (s : System (Mem ι (BitVec k.bits) (Op k.bits) (Result k.bits))
      (Pc (BitVec k.bits) (Op k.bits) (Result k.bits)) ι) : Prop where
  /-- The operations, in the order in which they have taken effect, are operations on one word. -/
  legal : Legal (Does k) v (s.mem.history.events.map Prod.snd) s.mem.word
  /-- Each of them takes effect once, between its call and its return, and returns its result. -/
  consistent : ∀ i, s.mem.history.Consistent i (s.pc i).pending
  /-- A call fails no more often than operations have taken effect since it began. -/
  failed : ∀ i, s.mem.failed i + s.mem.began i ≤ s.mem.history.events.length

/-- Any interleaving of the loops, and of instructions that do the same in one access, is a
sequence of operations that do what they are for. -/
theorem fallbacks_atomic {s : System (Mem ι (BitVec k.bits) (Op k.bits) (Result k.bits))
    (Pc (BitVec k.bits) (Op k.bits) (Result k.bits)) ι}
    (hr : Retry.Reachable (fallback k) v s) : Atomic k v s := by
  have hsound := Retry.reachable_sound hr
  refine ⟨hsound.legal.mono ?_, hsound.consistent, hsound.failed⟩
  intro old e new h
  obtain ⟨op, r⟩ := e
  obtain ⟨hnew, hr⟩ := h
  rw [hnew, show r = (fallback k op).result old from hr]
  exact fallback_does op old

/-- A thread makes `n` accesses of its call. -/
theorem acts_reachable {s : System (Mem ι (BitVec k.bits) (Op k.bits) (Result k.bits))
    (Pc (BitVec k.bits) (Op k.bits) (Result k.bits)) ι}
    (hr : Retry.Reachable (fallback k) v s) (i : ι) (n : Nat) :
    Retry.Reachable (fallback k) v (s.acts (Retry.act (fallback k)) i n) :=
  System.Reachable.acts hr i n (fun _ _ _ _ _ _ => .inr .act) fun _ _ _ => trivial

/-- Two threads increment a byte and ask whether it is zero. The first attempt of one of them
fails. -/
theorem fallbacks_atomic_wrapped :
    ∃ s : System (Mem Bool (BitVec 8) (Op 8) (Result 8)) (Pc (BitVec 8) (Op 8) (Result 8)) Bool,
      s.mem.history.events = [(true, (.incZero, .bool false)), (false, (.incZero, .bool true))] ∧
        s.mem.failed false = 1 ∧ Atomic .w8 0xfe#8 s := by
  have h₀ : Retry.Reachable (fallback .w8) 0xfe#8 (Retry.start (ι := Bool) 0xfe#8) := .refl
  have h₁ := h₀.extend false (.call .incZero) fun _ => trivial
  have h₂ := acts_reachable h₁ false 1
  have h₃ := h₂.extend true (.call .incZero) fun _ => trivial
  have h₄ := acts_reachable h₃ true 2
  have h₅ := acts_reachable h₄ false 2
  exact ⟨_, by decide, by decide, fallbacks_atomic h₅⟩

end ConcurrencyKit.Pr
