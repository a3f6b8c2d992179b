import Mathlib.Data.Nat.Bitwise
import Mathlib.Tactic

/-!
# The bitmap of `ck_bitmap`

The operations of `include/ck_bitmap.h`, the iterator and the population count. All of them but
the count work on whole blocks of 32 bits, so they rely on the bits of the last block that lie
behind the end of the bitmap being zero (`Padded`).

The operations keep that, except for the union with a bitmap that is longer and has a bit where
the last block of the shorter one has its padding (`padded_union_iff`).
-/

namespace ConcurrencyKit.Bitmaps

/-- An `unsigned int`. -/
abbrev Word := BitVec 32

/-- `CK_BITMAP_BLOCKS`. -/
def blocks (n : Nat) : Nat := (n + 31) / 32

/-- `ck_bitmap_base` (`ck_bitmap.h:122-127`). -/
def base (nBits : Nat) : Nat := blocks nBits * 4

/-- `CK_BITMAP_BIT`. -/
def bitAt (n : Nat) : Word := 1#32 <<< (n % 32)

/-- The first `n` bits of a word. -/
def mask (n : Nat) : Word := (1#32 <<< n) - 1#32

/-- `struct ck_bitmap`, with as many words as its bits need. -/
structure Bitmap where
  nBits : Nat
  map : List Word
  cells : map.length = blocks nBits

namespace Bitmap

/-- `map[n]`. -/
def load (b : Bitmap) (n : Nat) : Word := b.map.getD n 0

/-- Each word from `lo` on and before `hi` is replaced by `f` of its index and value. -/
def update (b : Bitmap) (lo hi : Nat) (f : Nat → Word → Word) : Bitmap :=
  { b with
    map := b.map.mapIdx fun n word => if lo ≤ n ∧ n < hi then f n word else word
    cells := by simp [b.cells] }

/-- `ck_bitmap_init` (`ck_bitmap.h:441-462`). -/
def init (nBits : Nat) (set : Bool) : Bitmap :=
  let bitmap : Bitmap :=
    { nBits
      map := List.replicate (blocks nBits) (if set then BitVec.allOnes 32 else 0)
      cells := by simp }
  if set then
    if nBits % 32 = 0 then bitmap
    else
      bitmap.update ((nBits - 1) / 32) ((nBits - 1) / 32 + 1) fun _ word =>
        word &&& mask (nBits % 32)
  else bitmap

/-- `ck_bitmap_set` (`ck_bitmap.h:162-168`). -/
def set (b : Bitmap) (n : Nat) : Bitmap :=
  b.update (n / 32) (n / 32 + 1) fun _ word => word ||| bitAt n

/-- `ck_bitmap_bts` (`ck_bitmap.h:176-182`). -/
def bts (b : Bitmap) (n : Nat) : Bitmap × Bool :=
  (b.update (n / 32) (n / 32 + 1) fun _ word => word ||| bitAt n,
    (b.load (n / 32)).getLsbD (n % 32))

/-- `ck_bitmap_reset` (`ck_bitmap.h:187-193`). -/
def reset (b : Bitmap) (n : Nat) : Bitmap :=
  b.update (n / 32) (n / 32 + 1) fun _ word => word &&& ~~~bitAt n

/-- `ck_bitmap_clear` (`ck_bitmap.h:296-307`). -/
def clear (b : Bitmap) : Bitmap :=
  b.update 0 (base b.nBits / 4) fun _ _ => 0

/-- `ck_bitmap_union` (`ck_bitmap.h:213-229`). -/
def union (dst src : Bitmap) : Bitmap :=
  let nBuckets := if src.nBits < dst.nBits then src.nBits else dst.nBits
  dst.update 0 (blocks nBuckets) fun n word => word ||| src.load n

/-- `ck_bitmap_intersection` (`ck_bitmap.h:236-258`). -/
def intersection (dst src : Bitmap) : Bitmap :=
  let nIntersect := blocks (if src.nBits < dst.nBits then src.nBits else dst.nBits)
  (dst.update 0 nIntersect fun n word => word &&& src.load n).update nIntersect
    (blocks dst.nBits) fun _ _ => 0

/-- `ck_bitmap_intersection_negate` (`ck_bitmap.h:265-282`). -/
def intersectionNegate (dst src : Bitmap) : Bitmap :=
  let nIntersect := if src.nBits < dst.nBits then src.nBits else dst.nBits
  dst.update 0 (blocks nIntersect) fun n word => word &&& ~~~src.load n

/-- `ck_bitmap_count` (`ck_bitmap.h:380-401`). -/
def count (b : Bitmap) (limit : Nat) : Nat :=
  let limit := if limit > b.nBits then b.nBits else limit
  let words := limit / 32
  let slop := limit % 32
  let count := ((List.range words).map fun i => (b.load i).cpop.toNat).sum
  if slop > 0 then count + (b.load words &&& mask slop).cpop.toNat else count

end Bitmap

/-- `struct ck_bitmap_iterator`. -/
structure Iterator where
  cache : Word
  nBlock : Nat
  nLimit : Nat
  deriving DecidableEq, Repr

namespace Bitmap

/-- `ck_bitmap_iterator_init` (`ck_bitmap.h:467-479`). -/
def iterator (b : Bitmap) : Iterator where
  cache := if blocks b.nBits > 0 then b.load 0 else 0
  nBlock := 0
  nLimit := blocks b.nBits

/-- The first of the `k` words from `n` on that is not zero, or the index behind them. -/
def skip (b : Bitmap) : Nat → Nat → Nat
  | n, 0 => n
  | n, k + 1 => if b.load n ≠ 0 then n else skip b (n + 1) k

/-- `ck_bitmap_next` (`ck_bitmap.h:484-518`). -/
def next (b : Bitmap) (i : Iterator) : Option Nat × Iterator :=
  let nonZero (cache : Word) (nBlock : Nat) : Option Nat × Iterator :=
    (some (32 * nBlock + cache.ctz.toNat), { i with cache := cache &&& (cache - 1), nBlock })
  if i.cache = 0 then
    if i.nBlock ≥ i.nLimit then (none, i)
    else
      let nBlock := b.skip (i.nBlock + 1) (i.nLimit - (i.nBlock + 1))
      if nBlock < i.nLimit then nonZero (b.load nBlock) nBlock
      else (none, { i with cache := 0, nBlock })
  else nonZero i.cache i.nBlock

/-- What the first `k` calls of `ck_bitmap_next` yield. -/
def yields (b : Bitmap) : Nat → Iterator → List Nat
  | 0, _ => []
  | k + 1, i =>
    match b.next i with
    | (none, _) => []
    | (some bit, i') => bit :: yields b k i'

/-- The bit at an index, behind the end of the bitmap as well. -/
def bit (b : Bitmap) (n : Nat) : Bool :=
  (b.load (n / 32)).getLsbD (n % 32)

/-- The bits behind the end of the bitmap are zero. -/
def Padded (b : Bitmap) : Prop :=
  ∀ n, b.nBits ≤ n → b.bit n = false

/-- The other bitmap has no bit where this one has its padding. -/
def Fits (dst src : Bitmap) : Prop :=
  ∀ n, dst.nBits ≤ n → n < 32 * blocks dst.nBits → src.bit n = false

end Bitmap

/-- The bitmaps made by the operations, with only those unions that meet a condition. -/
inductive Built (ok : Bitmap → Bitmap → Prop) : Bitmap → Prop
  | init (nBits : Nat) (set : Bool) : Built ok (.init nBits set)
  | set {b : Bitmap} (h : Built ok b) {n : Nat} (hn : n < b.nBits) : Built ok (b.set n)
  | bts {b : Bitmap} (h : Built ok b) {n : Nat} (hn : n < b.nBits) : Built ok (b.bts n).1
  | reset {b : Bitmap} (h : Built ok b) {n : Nat} (hn : n < b.nBits) : Built ok (b.reset n)
  | clear {b : Bitmap} (h : Built ok b) : Built ok b.clear
  | union {dst src : Bitmap} (h : Built ok dst) (h' : Built ok src) (fits : ok dst src) :
      Built ok (dst.union src)
  | intersection {dst src : Bitmap} (h : Built ok dst) (h' : Built ok src) :
      Built ok (dst.intersection src)
  | intersectionNegate {dst src : Bitmap} (h : Built ok dst) (h' : Built ok src) :
      Built ok (dst.intersectionNegate src)

/-! ## Bits of words -/

theorem getLsbD_bitAt (n : Nat) {i : Nat} (hi : i < 32) :
    (bitAt n).getLsbD i = decide (i = n % 32) := by
  simp only [bitAt, BitVec.getLsbD_shiftLeft, BitVec.getLsbD_one]
  by_cases h : i = n % 32
  · simp [h]
    omega
  · simp [h]
    omega

theorem getLsbD_mask {n i : Nat} (hn : n < 32) : (mask n).getLsbD i = decide (i < n) := by
  have hpow : 2 ^ n < 2 ^ 32 := Nat.pow_lt_pow_right (by omega) hn
  have hpos : 0 < 2 ^ n := Nat.two_pow_pos n
  have htoNat : (mask n).toNat = 2 ^ n - 1 := by
    simp only [mask, BitVec.toNat_sub, BitVec.toNat_shiftLeft, BitVec.toNat_ofNat,
      Nat.shiftLeft_eq]
    omega
  rw [← BitVec.testBit_toNat, htoNat, Nat.testBit_two_pow_sub_one]

/-- The population count of a word. -/
theorem toNat_cpop_eq (w : Word) : w.cpop.toNat = (List.range 32).countP w.getLsbD := by
  have hrec : ∀ n acc, w.cpopNatRec n acc = acc + (List.range n).countP w.getLsbD := by
    intro n
    induction n with
    | zero => intro acc; simp [BitVec.cpopNatRec]
    | succ n ih =>
      intro acc
      rw [BitVec.cpopNatRec, ih, List.range_succ, List.countP_append, List.countP_singleton]
      cases w.getLsbD n
      · simp
      · simp
        omega
  rw [BitVec.toNat_cpop, hrec, Nat.zero_add]

/-- A word that is not zero, from its lowest bit on. -/
theorem toNat_eq_of_ctz {w : Word} (hw : w ≠ 0) :
    ∃ q, w.toNat = 2 ^ (w.ctz.toNat + 1) * q + 2 ^ w.ctz.toNat := by
  refine ⟨w.toNat / 2 ^ (w.ctz.toNat + 1), ?_⟩
  have hlow : w.toNat % 2 ^ (w.ctz.toNat + 1) = 2 ^ w.ctz.toNat := by
    apply Nat.eq_of_testBit_eq
    intro i
    rw [Nat.testBit_mod_two_pow, Nat.testBit_two_pow, BitVec.testBit_toNat]
    rcases Nat.lt_trichotomy i w.ctz.toNat with hi | hi | hi
    · rw [BitVec.getLsbD_false_of_lt_ctz hi]
      simp [hi.ne']
    · rw [hi, BitVec.getLsbD_true_ctz_of_ne_zero hw]
      simp
    · simp [hi.ne, show ¬ i < w.ctz.toNat + 1 by omega]
  rw [← hlow, Nat.div_add_mod]

/-- `cache & (cache - 1)` clears the lowest bit. -/
theorem getLsbD_and_sub_one {w : Word} (hw : w ≠ 0) (i : Nat) :
    (w &&& (w - 1)).getLsbD i = (w.getLsbD i && decide (i ≠ w.ctz.toNat)) := by
  obtain ⟨q, hq⟩ := toNat_eq_of_ctz hw
  obtain ⟨t, ht⟩ : ∃ t, t = w.ctz.toNat := ⟨_, rfl⟩
  rw [← ht] at hq ⊢
  have hpos : 0 < 2 ^ t := Nat.two_pow_pos t
  have hsucc : 2 ^ t < 2 ^ (t + 1) := Nat.pow_lt_pow_right (by omega) (by omega)
  have hsub : (w - 1).toNat = 2 ^ (t + 1) * q + (2 ^ t - 1) := by
    have hlt := w.isLt
    rw [BitVec.toNat_sub, show (1 : Word).toNat = 1 from rfl]
    omega
  rw [BitVec.getLsbD_and, ← BitVec.testBit_toNat, ← BitVec.testBit_toNat, hsub, hq,
    Nat.testBit_two_pow_mul_add _ hsucc, Nat.testBit_two_pow_mul_add _ (by omega)]
  by_cases hi : i < t + 1
  · rw [if_pos hi, if_pos hi, Nat.testBit_two_pow, Nat.testBit_two_pow_sub_one]
    by_cases heq : t = i
    · simp [heq]
    · simp [heq]
  · rw [if_neg hi, if_neg hi, Bool.and_self, decide_eq_true (by omega), Bool.and_true]

/-! ## Bits of bitmaps -/

namespace Bitmap

theorem load_of_le {b : Bitmap} {n : Nat} (h : blocks b.nBits ≤ n) : b.load n = 0 := by
  rw [load, List.getD_eq_default _ _ (by rw [b.cells]; exact h)]

theorem load_update (b : Bitmap) (lo hi : Nat) (f : Nat → Word → Word) (n : Nat) :
    (b.update lo hi f).load n =
      if n < blocks b.nBits ∧ lo ≤ n ∧ n < hi then f n (b.load n) else b.load n := by
  by_cases hn : n < blocks b.nBits
  · have hlen : n < b.map.length := by rw [b.cells]; exact hn
    simp [load, update, hn, hlen]
  · rw [if_neg (by tauto), load_of_le (Nat.le_of_not_lt hn), load_of_le]
    exact Nat.le_of_not_lt hn

theorem bit_add (b : Bitmap) (n : Nat) {i : Nat} (hi : i < 32) :
    b.bit (32 * n + i) = (b.load n).getLsbD i := by
  rw [bit, show (32 * n + i) / 32 = n by omega, show (32 * n + i) % 32 = i by omega]

/-- The bits after an update, one by one. -/
theorem bit_update (b : Bitmap) (lo hi : Nat) (f : Nat → Word → Word) (n : Nat) :
    (b.update lo hi f).bit n =
      if n / 32 < blocks b.nBits ∧ lo ≤ n / 32 ∧ n / 32 < hi then
        (f (n / 32) (b.load (n / 32))).getLsbD (n % 32)
      else b.bit n := by
  rw [bit, load_update]
  split <;> rfl

theorem bit_set (b : Bitmap) {m : Nat} (hm : m < b.nBits) (n : Nat) :
    (b.set m).bit n = (b.bit n || decide (n = m)) := by
  rw [set, bit_update]
  by_cases h : n / 32 = m / 32
  · have hblock : n / 32 < blocks b.nBits := by
      unfold blocks
      omega
    rw [if_pos ⟨hblock, by omega, by omega⟩, BitVec.getLsbD_or,
      getLsbD_bitAt m (Nat.mod_lt n (by omega)), bit]
    congr 2
    exact propext ⟨fun _ => by omega, fun _ => by omega⟩
  · rw [if_neg (by omega), decide_eq_false (by intro heq; exact h (by rw [heq])), Bool.or_false]

theorem bit_reset (b : Bitmap) (m n : Nat) :
    (b.reset m).bit n = (b.bit n && !decide (n = m)) := by
  rw [reset, bit_update]
  by_cases h : n / 32 < blocks b.nBits ∧ n / 32 = m / 32
  · rw [if_pos ⟨h.1, by omega, by omega⟩, BitVec.getLsbD_and, BitVec.getLsbD_not,
      getLsbD_bitAt m (Nat.mod_lt n (by omega)), bit,
      decide_eq_true (Nat.mod_lt n (by omega)), Bool.true_and]
    congr 3
    exact propext ⟨fun _ => by omega, fun _ => by omega⟩
  · rw [if_neg (by omega)]
    by_cases heq : n = m
    · have hblock : blocks b.nBits ≤ n / 32 := by
        rw [heq] at h ⊢
        omega
      rw [bit, load_of_le hblock]
      simp
    · simp [heq]

theorem nBits_init (nBits : Nat) (set : Bool) : (init nBits set).nBits = nBits := by
  cases set with
  | false => rfl
  | true =>
    simp only [init, if_pos]
    split <;> rfl

/-- Every bit of a new bitmap has the default value, and the padding is zero. -/
theorem bit_init (nBits : Nat) (set : Bool) (n : Nat) :
    (init nBits set).bit n = (set && decide (n < nBits)) := by
  have hload : ∀ word : Word, ∀ k, (List.replicate (blocks nBits) word).getD k 0 =
      if k < blocks nBits then word else 0 := by
    intro word k
    rw [List.getD_eq_getElem?_getD, List.getElem?_replicate]
    split <;> rfl
  have hmod : n % 32 < 32 := Nat.mod_lt n (by omega)
  cases set with
  | false => simp [init, bit, load]
  | true =>
    simp only [init, if_pos, Bool.true_and]
    split
    case isTrue haligned =>
      rw [bit, load, hload]
      by_cases hn : n / 32 < blocks nBits
      · rw [if_pos hn, BitVec.getLsbD_allOnes, decide_eq_true hmod, decide_eq_true]
        unfold blocks at hn
        omega
      · rw [if_neg hn, decide_eq_false (by unfold blocks at hn; omega)]
        simp
    case isFalse haligned =>
      rw [bit_update]
      by_cases hlast : n / 32 = (nBits - 1) / 32
      · have hblock : n / 32 < blocks nBits := by unfold blocks; omega
        rw [if_pos ⟨hblock, by omega, by omega⟩, load, hload, if_pos hblock, BitVec.getLsbD_and,
          BitVec.getLsbD_allOnes, decide_eq_true hmod, Bool.true_and,
          getLsbD_mask (Nat.mod_lt _ (by omega))]
        exact decide_eq_decide.mpr (by omega)
      · rw [if_neg (by omega), bit, load, hload]
        by_cases hn : n / 32 < blocks nBits
        · rw [if_pos hn, BitVec.getLsbD_allOnes, decide_eq_true hmod, decide_eq_true]
          unfold blocks at hn
          omega
        · rw [if_neg hn, decide_eq_false (by unfold blocks at hn; omega)]
          simp

theorem bit_clear (b : Bitmap) (n : Nat) : b.clear.bit n = false := by
  rw [clear, bit_update]
  split
  case isTrue => simp
  case isFalse h =>
    have hblock : blocks b.nBits ≤ n / 32 := by
      simp only [base] at h
      omega
    rw [bit, load_of_le hblock]
    simp

/-- A number of bits that is cut down to another one. -/
theorem cut_eq_min (limit n : Nat) : (if n < limit then n else limit) = min limit n := by
  split
  case isTrue h => exact (Nat.min_eq_right h.le).symm
  case isFalse h => exact (Nat.min_eq_left (Nat.le_of_not_lt h)).symm

theorem blocks_mono {m n : Nat} (h : m ≤ n) : blocks m ≤ blocks n := by
  unfold blocks
  omega

theorem bit_union (dst src : Bitmap) (n : Nat) :
    (dst.union src).bit n =
      (dst.bit n || (decide (n / 32 < blocks (min dst.nBits src.nBits)) && src.bit n)) := by
  have hmono : blocks (min dst.nBits src.nBits) ≤ blocks dst.nBits :=
    blocks_mono (Nat.min_le_left _ _)
  rw [union, cut_eq_min, bit_update]
  by_cases h : n / 32 < blocks (min dst.nBits src.nBits)
  · rw [if_pos ⟨by omega, by omega, h⟩, decide_eq_true h, Bool.true_and, BitVec.getLsbD_or]
    rfl
  · rw [if_neg (by tauto), decide_eq_false h, Bool.false_and, Bool.or_false]

theorem bit_intersection (dst src : Bitmap) (n : Nat) :
    (dst.intersection src).bit n =
      (decide (n / 32 < blocks (min dst.nBits src.nBits)) && dst.bit n && src.bit n) := by
  have hmono : blocks (min dst.nBits src.nBits) ≤ blocks dst.nBits :=
    blocks_mono (Nat.min_le_left _ _)
  rw [intersection, cut_eq_min, bit_update]
  by_cases h : n / 32 < blocks (min dst.nBits src.nBits)
  · rw [if_neg (by omega), bit_update, if_pos ⟨by omega, by omega, h⟩, decide_eq_true h,
      Bool.true_and, BitVec.getLsbD_and]
    rfl
  · rw [decide_eq_false h, Bool.false_and, Bool.false_and]
    split
    case isTrue => simp
    case isFalse hblock =>
      have hzero : blocks dst.nBits ≤ n / 32 := by
        simp only [update] at hblock
        omega
      rw [bit_update, if_neg (by omega), bit, load_of_le hzero]
      simp

theorem bit_intersectionNegate (dst src : Bitmap) (n : Nat) :
    (dst.intersectionNegate src).bit n =
      (dst.bit n && !(decide (n / 32 < blocks (min dst.nBits src.nBits)) && src.bit n)) := by
  have hmono : blocks (min dst.nBits src.nBits) ≤ blocks dst.nBits :=
    blocks_mono (Nat.min_le_left _ _)
  rw [intersectionNegate, cut_eq_min, bit_update]
  by_cases h : n / 32 < blocks (min dst.nBits src.nBits)
  · rw [if_pos ⟨by omega, by omega, h⟩, decide_eq_true h, Bool.true_and, BitVec.getLsbD_and,
      BitVec.getLsbD_not, decide_eq_true (Nat.mod_lt n (by omega)), Bool.true_and]
    rfl
  · rw [if_neg (by tauto), decide_eq_false h, Bool.false_and, Bool.not_false, Bool.and_true]

/-! ## The padding -/

/-- What has no bits but those of a padded bitmap is padded. -/
theorem Padded.of_le {b b' : Bitmap} (hb : b.Padded) (hn : b'.nBits = b.nBits)
    (h : ∀ n, b.bit n = false → b'.bit n = false) : b'.Padded := by
  intro n hle
  exact h n (hb n (by omega))

/-- A union with a longer bitmap keeps the padding exactly if that bitmap fits. -/
theorem padded_union_iff {dst src : Bitmap} (hdst : dst.Padded) (hsrc : src.Padded) :
    (dst.union src).Padded ↔ dst.Fits src := by
  constructor
  · intro h n hle hlt
    have hbit := h n hle
    rw [bit_union, hdst n hle, Bool.false_or] at hbit
    by_cases hcommon : src.nBits ≤ n
    · exact hsrc n hcommon
    · have : n / 32 < blocks (min dst.nBits src.nBits) := by
        rw [Nat.min_eq_left (by omega)]
        omega
      rwa [decide_eq_true this, Bool.true_and] at hbit
  · intro h n hle
    change dst.nBits ≤ n at hle
    rw [bit_union, hdst n hle, Bool.false_or]
    by_cases hblock : n / 32 < blocks (min dst.nBits src.nBits)
    · rw [decide_eq_true hblock, Bool.true_and]
      have := blocks_mono (Nat.min_le_left dst.nBits src.nBits)
      exact h n hle (by omega)
    · rw [decide_eq_false hblock, Bool.false_and]

end Bitmap

theorem Built.padded {b : Bitmap} (h : Built Bitmap.Fits b) : b.Padded := by
  induction h with
  | init nBits set =>
    intro n hn
    rw [Bitmap.nBits_init] at hn
    rw [Bitmap.bit_init, decide_eq_false (by omega), Bool.and_false]
  | @set b _ _ hm ih =>
    intro n hn
    have hn : b.nBits ≤ n := hn
    rw [Bitmap.bit_set _ hm, ih n hn, Bool.false_or]
    exact decide_eq_false (by omega)
  | @bts b _ _ hm ih =>
    intro n hn
    have hn : b.nBits ≤ n := hn
    exact (Bitmap.bit_set _ hm n).trans (by rw [ih n hn, decide_eq_false (by omega)]; rfl)
  | reset _ _ ih =>
    refine ih.of_le rfl fun n hn => ?_
    rw [Bitmap.bit_reset, hn, Bool.false_and]
  | clear => exact fun n _ => Bitmap.bit_clear _ n
  | union _ _ fits ih ih' => exact (Bitmap.padded_union_iff ih ih').mpr fits
  | intersection _ _ ih =>
    refine ih.of_le rfl fun n hn => ?_
    rw [Bitmap.bit_intersection, hn, Bool.and_false, Bool.false_and]
  | intersectionNegate _ _ ih =>
    refine ih.of_le rfl fun n hn => ?_
    rw [Bitmap.bit_intersectionNegate, hn, Bool.false_and]

/-! ## Iteration -/

/-- The first index that passes a test comes first. -/
theorem filter_range_eq_cons {p : Nat → Bool} {t n : Nat} (ht : t < n) (hp : p t = true)
    (hlow : ∀ i < t, p i = false) :
    (List.range n).filter p = t :: (List.range n).filter fun i => p i && decide (i ≠ t) := by
  obtain ⟨r, rfl⟩ : ∃ r, n = t + (r + 1) := ⟨n - t - 1, by omega⟩
  have hnone : ∀ q : Nat → Bool, (List.range t).filter (fun i => p i && q i) = [] := by
    intro q
    apply List.filter_eq_nil_iff.mpr
    intro i hi
    simp [hlow i (List.mem_range.mp hi)]
  have hbelow : (List.range t).filter p = [] := by simpa using hnone fun _ => true
  rw [List.range_add, List.filter_append, List.filter_append, hnone, hbelow,
    List.range_succ_eq_map, List.map_cons, List.filter_cons_of_pos (by simpa using hp),
    List.filter_cons_of_neg (by simp), List.nil_append, List.nil_append, Nat.add_zero]
  congr 1
  apply List.filter_congr
  intro i hi
  have : i ≠ t := by
    intro heq
    simp [heq] at hi
  simp [this]

namespace Bitmap

/-- The indices of the bits of a word, if it is the `n`th one. -/
def bitsOf (n : Nat) (word : Word) : List Nat :=
  ((List.range 32).filter fun i => word.getLsbD i).map (32 * n + ·)

/-- The indices of the bits of the `k` words from `n` on. -/
def bitsFrom (b : Bitmap) : Nat → Nat → List Nat
  | _, 0 => []
  | n, k + 1 => bitsOf n (b.load n) ++ bitsFrom b (n + 1) k

/-- What the iterator has yet to yield. -/
def remaining (b : Bitmap) (i : Iterator) : List Nat :=
  bitsOf i.nBlock i.cache ++ b.bitsFrom (i.nBlock + 1) (i.nLimit - (i.nBlock + 1))

theorem bitsOf_zero (n : Nat) : bitsOf n 0 = [] := by
  simp [bitsOf]

/-- The lowest bit comes first. -/
theorem bitsOf_eq_cons {word : Word} (hw : word ≠ 0) (n : Nat) :
    bitsOf n word = (32 * n + word.ctz.toNat) :: bitsOf n (word &&& (word - 1)) := by
  have hlt : word.ctz.toNat < 32 := by
    have := BitVec.ctz_lt_iff_ne_zero.mpr hw
    simpa [BitVec.lt_def] using this
  have hrest : (fun i => (word &&& (word - 1)).getLsbD i) =
      fun i => word.getLsbD i && decide (i ≠ word.ctz.toNat) :=
    funext fun i => getLsbD_and_sub_one hw i
  rw [bitsOf, bitsOf, hrest, ← List.map_cons, ← filter_range_eq_cons hlt
    (BitVec.getLsbD_true_ctz_of_ne_zero hw) fun i hi => BitVec.getLsbD_false_of_lt_ctz hi]

/-- The search for a block that is not zero passes over nothing. -/
theorem skip_spec (b : Bitmap) (n k : Nat) :
    b.bitsFrom n k = b.bitsFrom (b.skip n k) (n + k - b.skip n k) ∧ b.skip n k ≤ n + k ∧
      (b.skip n k < n + k → b.load (b.skip n k) ≠ 0) := by
  induction k generalizing n with
  | zero => simp [skip]
  | succ k ih =>
    unfold skip
    split
    case isTrue hload =>
      exact ⟨by rw [show n + (k + 1) - n = k + 1 by omega], by omega, fun _ => hload⟩
    case isFalse hload =>
      obtain ⟨hbits, hle, hne⟩ := ih (n + 1)
      have hzero : b.load n = 0 := not_not.mp hload
      refine ⟨?_, by omega, fun hlt => hne (by omega)⟩
      rw [bitsFrom, hzero, bitsOf_zero, List.nil_append, hbits,
        show n + (k + 1) = n + 1 + k by omega]

/-- `ck_bitmap_next` yields the first of the remaining bits. -/
theorem next_spec (b : Bitmap) (i : Iterator) :
    match b.next i with
    | (none, _) => b.remaining i = []
    | (some bit, i') => b.remaining i = bit :: b.remaining i' := by
  have found : ∀ (cache : Word) (n : Nat), cache ≠ 0 →
      bitsOf n cache ++ b.bitsFrom (n + 1) (i.nLimit - (n + 1)) =
        (32 * n + cache.ctz.toNat) ::
          b.remaining { i with cache := cache &&& (cache - 1), nBlock := n } := by
    intro cache n hcache
    rw [bitsOf_eq_cons hcache]
    rfl
  unfold next
  by_cases hcache : i.cache = 0
  · rw [if_pos hcache]
    by_cases hend : i.nBlock ≥ i.nLimit
    · rw [if_pos hend]
      simp only [remaining, hcache, show i.nLimit - (i.nBlock + 1) = 0 by omega, bitsFrom,
        bitsOf_zero, List.append_nil]
    · rw [if_neg hend]
      obtain ⟨hbits, hle, hne⟩ := b.skip_spec (i.nBlock + 1) (i.nLimit - (i.nBlock + 1))
      rw [show i.nBlock + 1 + (i.nLimit - (i.nBlock + 1)) = i.nLimit by omega] at hbits hle hne
      have hrest : b.remaining i = b.bitsFrom (b.skip (i.nBlock + 1) (i.nLimit - (i.nBlock + 1)))
          (i.nLimit - b.skip (i.nBlock + 1) (i.nLimit - (i.nBlock + 1))) := by
        rw [remaining, hcache, bitsOf_zero, List.nil_append, hbits]
      generalize b.skip (i.nBlock + 1) (i.nLimit - (i.nBlock + 1)) = m at hrest hle hne
      rw [hrest]
      by_cases hm : m < i.nLimit
      · simp only [if_pos hm]
        rw [show i.nLimit - m = i.nLimit - (m + 1) + 1 by omega, bitsFrom]
        exact found (b.load m) m (hne hm)
      · simp only [if_neg hm]
        rw [show i.nLimit - m = 0 by omega, bitsFrom]
  · rw [if_neg hcache]
    exact found i.cache i.nBlock hcache

theorem yields_eq_take (b : Bitmap) (k : Nat) (i : Iterator) :
    b.yields k i = (b.remaining i).take k := by
  induction k generalizing i with
  | zero => rfl
  | succ k ih =>
    have hnext := b.next_spec i
    unfold yields
    split
    case h_1 i' h =>
      rw [h] at hnext
      simp [show b.remaining i = [] from hnext]
    case h_2 bit i' h =>
      rw [h] at hnext
      rw [show b.remaining i = bit :: b.remaining i' from hnext, ih, List.take_succ_cons]

theorem bitsFrom_eq (b : Bitmap) (n k : Nat) :
    b.bitsFrom n k = (List.range' (32 * n) (32 * k)).filter b.bit := by
  induction k generalizing n with
  | zero => rfl
  | succ k ih =>
    have hword : bitsOf n (b.load n) = (List.range' (32 * n) 32).filter b.bit := by
      rw [List.range'_eq_map_range, List.filter_map, bitsOf]
      congr 1
      apply List.filter_congr
      intro i hi
      exact (b.bit_add n (List.mem_range.mp hi)).symm
    rw [bitsFrom, hword, ih, ← List.filter_append, show 32 * (k + 1) = 32 + 32 * k by omega,
      show 32 * (n + 1) = 32 * n + 32 by omega]
    congr 1
    simp

/-- A new iterator has yet to yield the bits of all blocks. -/
theorem remaining_iterator (b : Bitmap) :
    b.remaining b.iterator = (List.range (32 * blocks b.nBits)).filter b.bit := by
  have hall : b.remaining b.iterator = b.bitsFrom 0 (blocks b.nBits) := by
    unfold remaining iterator
    by_cases h : blocks b.nBits > 0
    · simp only [if_pos h]
      conv_rhs => rw [show blocks b.nBits = blocks b.nBits - 1 + 1 by omega, bitsFrom]
    · simp only [show blocks b.nBits = 0 by omega]
      change bitsOf 0 0 ++ [] = []
      rw [List.append_nil, bitsOf_zero]
  rw [hall, bitsFrom_eq, List.range_eq_range']

/-- A new iterator of a padded bitmap has yet to yield its bits. -/
theorem Padded.remaining_iterator {b : Bitmap} (h : b.Padded) :
    b.remaining b.iterator = (List.range b.nBits).filter b.bit := by
  have hle : b.nBits ≤ 32 * blocks b.nBits := by unfold blocks; omega
  rw [b.remaining_iterator]
  obtain ⟨r, hr⟩ : ∃ r, 32 * blocks b.nBits = b.nBits + r := ⟨_, (Nat.add_sub_of_le hle).symm⟩
  have hpad : ((List.range r).map (b.nBits + ·)).filter b.bit = [] := by
    apply List.filter_eq_nil_iff.mpr
    intro n hn
    obtain ⟨i, -, rfl⟩ := List.mem_map.mp hn
    simp [h (b.nBits + i) (by omega)]
  rw [hr, List.range_add, List.filter_append, hpad, List.append_nil]

/-- A padded bitmap yields its bits. -/
theorem Padded.yields {b : Bitmap} (h : b.Padded) (k : Nat) :
    b.yields k b.iterator = ((List.range b.nBits).filter b.bit).take k := by
  rw [yields_eq_take, h.remaining_iterator]

/-- `ck_bitmap_count` counts the bits below the limit and within the bitmap. -/
theorem count_eq (b : Bitmap) (limit : Nat) :
    b.count limit = (List.range (min limit b.nBits)).countP b.bit := by
  have words : ∀ k, ((List.range k).map fun i => (b.load i).cpop.toNat).sum =
      (List.range (32 * k)).countP b.bit := by
    intro k
    induction k with
    | zero => rfl
    | succ k ih =>
      rw [List.range_succ, List.map_append, List.sum_append, ih, Nat.mul_succ, List.range_add,
        List.countP_append, List.countP_map, List.map_singleton, List.sum_singleton,
        toNat_cpop_eq]
      congr 1
      apply List.countP_congr
      intro i hi
      rw [Function.comp_apply, b.bit_add k (List.mem_range.mp hi)]
  have slop : ∀ k n, n < 32 → (b.load k &&& mask n).cpop.toNat =
      ((List.range n).map (32 * k + ·)).countP b.bit := by
    intro k n hn
    obtain ⟨r, hr⟩ : ∃ r, 32 = n + r := ⟨32 - n, by omega⟩
    have hnone : ((List.range r).map (n + ·)).countP (b.load k &&& mask n).getLsbD = 0 := by
      apply List.countP_eq_zero.mpr
      intro i hi
      obtain ⟨j, -, rfl⟩ := List.mem_map.mp hi
      simp [getLsbD_mask hn]
    have hcount : (List.range 32).countP (b.load k &&& mask n).getLsbD =
        (List.range n).countP (b.load k &&& mask n).getLsbD := by
      conv_lhs => rw [show List.range 32 = List.range (n + r) by rw [← hr], List.range_add]
      rw [List.countP_append, hnone, Nat.add_zero]
    rw [toNat_cpop_eq, hcount, List.countP_map]
    apply List.countP_congr
    intro i hi
    have hi := List.mem_range.mp hi
    rw [Function.comp_apply, b.bit_add k (by omega), BitVec.getLsbD_and, getLsbD_mask hn,
      decide_eq_true hi, Bool.and_true]
  unfold count
  simp only [cut_eq_min]
  generalize min limit b.nBits = n
  rw [words]
  split
  case isTrue hslop =>
    conv_rhs => rw [← Nat.div_add_mod n 32, List.range_add, List.countP_append]
    rw [slop _ _ (Nat.mod_lt n (by omega))]
  case isFalse hslop => rw [show 32 * (n / 32) = n by omega]

end Bitmap

/-- As long as no union brings a bit to where the padding is, the padding is zero, the iterator
yields the bits of the bitmap, and the count is their number. -/
theorem built_padded {b : Bitmap} (h : Built Bitmap.Fits b) :
    b.Padded ∧ (∀ k, ∀ bit ∈ b.yields k b.iterator, bit < b.nBits) ∧
      (∀ k, b.nBits ≤ k → (b.yields k b.iterator).length = b.count b.nBits) := by
  have hpad := h.padded
  refine ⟨hpad, ?_, ?_⟩
  · intro k bit hbit
    rw [hpad.yields] at hbit
    exact List.mem_range.mp (List.mem_filter.mp (List.mem_of_mem_take hbit)).1
  · intro k hk
    have hlen := List.length_filter_le b.bit (List.range b.nBits)
    rw [List.length_range] at hlen
    rw [hpad.yields, List.take_of_length_le (by omega), Bitmap.count_eq, Nat.min_self,
      List.countP_eq_length_filter]

theorem built_padded_shorter :
    ((((Bitmap.init 40 false).set 33).union (.init 5 true)).yields 40
      (((Bitmap.init 40 false).set 33).union (.init 5 true)).iterator).length =
        (((Bitmap.init 40 false).set 33).union (.init 5 true)).count 40 := by
  have hfits : ((Bitmap.init 40 false).set 33).Fits (.init 5 true) := by
    intro n hn _
    have hn : 40 ≤ n := hn
    simp [Bitmap.bit_init]
    omega
  exact (built_padded (.union (.set (.init 40 false) (by decide)) (.init 5 true) hfits)).2.2 40
    (by decide)

/-- Five bits, and twenty of which the eleventh is set: their union, cut to five bits, yields the
eleventh. -/
theorem built_union_not_padded :
    ∃ b : Bitmap, Built (fun _ _ => True) b ∧ ¬ b.Padded ∧ b.yields 1 b.iterator = [10] ∧
      b.nBits = 5 ∧ b.count 5 = 0 := by
  refine ⟨(Bitmap.init 5 false).union ((Bitmap.init 20 false).set 10),
    .union (.init 5 false) (.set (.init 20 false) (by decide)) trivial, ?_, by decide +kernel,
    by decide, by decide +kernel⟩
  intro h
  have : ((Bitmap.init 5 false).union ((Bitmap.init 20 false).set 10)).bit 10 = false :=
    h 10 (by decide)
  revert this
  decide +kernel

end ConcurrencyKit.Bitmaps
