import ConcurrencyKit.Bitmaps

/-!
# Queries of bitmaps

The queries of `include/ck_bitmap.h` read whole words, and of the last one only the bits below the
limit. What they return, what the iterator yields, and what the operations on two bitmaps leave is
stated here bit by bit.
-/

namespace ConcurrencyKit.Bitmaps

namespace Bitmap

/-- `ck_bitmap_empty` (`ck_bitmap.h:314-341`). -/
def empty (b : Bitmap) (limit : Nat) : Bool :=
  let limit := if limit > b.nBits then b.nBits else limit
  let words := limit / 32
  let slop := limit % 32
  if (List.range words).any fun i => b.load i ≠ 0 then false
  else if slop > 0 then decide (b.load words &&& mask slop = 0)
  else true

/-- `ck_bitmap_full` (`ck_bitmap.h:347-373`). -/
def full (b : Bitmap) (limit : Nat) : Bool :=
  let limit := if limit > b.nBits then b.nBits else limit
  let words := limit / 32
  let slop := limit % 32
  if (List.range words).any fun i => b.load i ≠ BitVec.allOnes 32 then false
  else if slop > 0 then decide (~~~b.load words &&& mask slop = 0)
  else true

/-- `ck_bitmap_count_intersect` (`ck_bitmap.h:403-434`). -/
def countIntersect (x y : Bitmap) (limit : Nat) : Nat :=
  let limit := if limit > x.nBits then x.nBits else limit
  let limit := if limit > y.nBits then y.nBits else limit
  let words := limit / 32
  let slop := limit % 32
  let count := ((List.range words).map fun i => (x.load i &&& y.load i).cpop.toNat).sum
  if slop > 0 then count + ((x.load words &&& y.load words) &&& mask slop).cpop.toNat else count

/-- The iterator after `k` calls of `ck_bitmap_next`. -/
def advance (b : Bitmap) : Nat → Iterator → Iterator
  | 0, i => i
  | k + 1, i => b.advance k (b.next i).2

/-! ## Words below a limit -/

theorem word_eq_zero_iff (w : Word) : w = 0 ↔ ∀ i < 32, w.getLsbD i = false := by
  constructor
  · rintro rfl i -
    exact BitVec.getLsbD_zero
  · intro h
    refine BitVec.eq_of_getLsbD_eq fun i hi => ?_
    rw [h i hi]
    exact BitVec.getLsbD_zero.symm

theorem and_mask_eq_zero_iff (w : Word) {n : Nat} (hn : n < 32) :
    w &&& mask n = 0 ↔ ∀ i < n, w.getLsbD i = false := by
  rw [word_eq_zero_iff]
  constructor
  · intro h i hi
    have hbit := h i (hi.trans hn)
    rwa [BitVec.getLsbD_and, getLsbD_mask hn, decide_eq_true hi, Bool.and_true] at hbit
  · intro h i _
    rw [BitVec.getLsbD_and, getLsbD_mask hn]
    by_cases hi : i < n
    · rw [h i hi, Bool.false_and]
    · rw [decide_eq_false hi, Bool.and_false]

/-- Whole words and the first bits of the next one. -/
theorem words_zero_iff (word : Nat → Word) (n : Nat) :
    ((∀ i < n / 32, word i = 0) ∧ (n % 32 > 0 → word (n / 32) &&& mask (n % 32) = 0)) ↔
      ∀ k < n, (word (k / 32)).getLsbD (k % 32) = false := by
  have hslop : n % 32 < 32 := Nat.mod_lt n (by omega)
  constructor
  · rintro ⟨hwords, hrest⟩ k hk
    by_cases hlast : k / 32 < n / 32
    · rw [hwords _ hlast]
      exact BitVec.getLsbD_zero
    · have hsame : k / 32 = n / 32 := by omega
      rw [hsame]
      exact (and_mask_eq_zero_iff _ hslop).mp (hrest (by omega)) _ (by omega)
  · intro h
    constructor
    · intro i hi
      refine (word_eq_zero_iff _).mpr fun j hj => ?_
      have hbit := h (32 * i + j) (by omega)
      rwa [show (32 * i + j) / 32 = i by omega, show (32 * i + j) % 32 = j by omega] at hbit
    · intro _
      refine (and_mask_eq_zero_iff _ hslop).mpr fun j hj => ?_
      have hbit := h (32 * (n / 32) + j) (by omega)
      rwa [show (32 * (n / 32) + j) / 32 = n / 32 by omega,
        show (32 * (n / 32) + j) % 32 = j by omega] at hbit

/-! ## The queries -/

/-- `ck_bitmap_empty` looks for a bit below the limit. -/
theorem empty_iff (b : Bitmap) (limit : Nat) :
    b.empty limit = true ↔ ∀ n < min limit b.nBits, b.bit n = false := by
  unfold bit
  rw [← words_zero_iff b.load]
  unfold empty
  simp only [cut_eq_min]
  generalize min limit b.nBits = n
  by_cases hwords : ∀ i < n / 32, b.load i = 0
  · rw [if_neg (by simpa using hwords)]
    by_cases hslop : n % 32 > 0
    · rw [if_pos hslop, decide_eq_true_iff]
      exact ⟨fun h => ⟨hwords, fun _ => h⟩, fun h => h.2 hslop⟩
    · rw [if_neg hslop]
      exact ⟨fun _ => ⟨hwords, fun h => absurd h hslop⟩, fun _ => rfl⟩
  · rw [if_pos (by simpa using hwords)]
    exact ⟨fun h => absurd h Bool.false_ne_true, fun h => absurd h.1 hwords⟩

theorem eq_allOnes_iff (w : Word) : w = BitVec.allOnes 32 ↔ ~~~w = 0 := by
  have hzero : (0 : Word) = ~~~BitVec.allOnes 32 := BitVec.not_allOnes.symm
  rw [hzero, BitVec.not_inj]

/-- `ck_bitmap_full` looks for a missing bit below the limit. -/
theorem full_iff (b : Bitmap) (limit : Nat) :
    b.full limit = true ↔ ∀ n < min limit b.nBits, b.bit n = true := by
  have hbits := words_zero_iff (fun i => ~~~b.load i) (min limit b.nBits)
  have hnot : ∀ k, (~~~b.load (k / 32)).getLsbD (k % 32) = false ↔ b.bit k = true := by
    intro k
    rw [BitVec.getLsbD_not, decide_eq_true (Nat.mod_lt k (by omega)), Bool.true_and,
      Bool.not_eq_false', bit]
  simp only [hnot] at hbits
  rw [← hbits]
  unfold full
  simp only [cut_eq_min, eq_allOnes_iff, ne_eq]
  generalize min limit b.nBits = n
  by_cases hwords : ∀ i < n / 32, ~~~b.load i = 0
  · rw [if_neg (by simpa using hwords)]
    by_cases hslop : n % 32 > 0
    · rw [if_pos hslop, decide_eq_true_iff]
      exact ⟨fun h => ⟨hwords, fun _ => h⟩, fun h => h.2 hslop⟩
    · rw [if_neg hslop]
      exact ⟨fun _ => ⟨hwords, fun h => absurd h hslop⟩, fun _ => rfl⟩
  · rw [if_pos (by simpa using hwords)]
    exact ⟨fun h => absurd h Bool.false_ne_true, fun h => absurd h.1 hwords⟩

/-- `ck_bitmap_count_intersect` counts what `ck_bitmap_intersection` would leave. -/
theorem countIntersect_eq (x y : Bitmap) (limit : Nat) :
    x.countIntersect y limit =
      (List.range (min limit (min x.nBits y.nBits))).countP fun n => x.bit n && y.bit n := by
  have hcommon : ∀ n < min x.nBits y.nBits,
      (x.intersection y).bit n = (x.bit n && y.bit n) := by
    intro n hn
    rw [bit_intersection, decide_eq_true (by unfold blocks; omega), Bool.true_and]
  have hload : ∀ i < blocks (min x.nBits y.nBits),
      (x.intersection y).load i = x.load i &&& y.load i := by
    intro i hi
    have hmono : blocks (min x.nBits y.nBits) ≤ blocks x.nBits :=
      blocks_mono (Nat.min_le_left _ _)
    rw [intersection, cut_eq_min, load_update, if_neg (by omega), load_update,
      if_pos ⟨by omega, by omega, hi⟩]
  have hlimit : min (min limit (min x.nBits y.nBits)) (x.intersection y).nBits =
      min limit (min x.nBits y.nBits) :=
    Nat.min_eq_left ((Nat.min_le_right _ _).trans (Nat.min_le_left _ _))
  have hcount : x.countIntersect y limit =
      (x.intersection y).count (min limit (min x.nBits y.nBits)) := by
    have hle : min limit (min x.nBits y.nBits) ≤ min x.nBits y.nBits := Nat.min_le_right _ _
    unfold countIntersect count
    simp only [cut_eq_min, hlimit, Nat.min_assoc]
    generalize min limit (min x.nBits y.nBits) = n at hle
    have hwords : (List.range (n / 32)).map (fun i => (x.load i &&& y.load i).cpop.toNat) =
        (List.range (n / 32)).map fun i => ((x.intersection y).load i).cpop.toNat := by
      refine List.map_congr_left fun i hi => ?_
      have hi := List.mem_range.mp hi
      rw [hload i (by unfold blocks; omega)]
    rw [hwords]
    split
    case isTrue hslop => rw [hload _ (by unfold blocks; omega)]
    case isFalse => rfl
  rw [hcount, count_eq, hlimit]
  refine List.countP_congr fun n hn => ?_
  rw [hcommon n (lt_of_lt_of_le (List.mem_range.mp hn) (Nat.min_le_right _ _))]

/-! ## Iteration to the end -/

/-- The iterator that has found no bit finds none later. -/
theorem remaining_of_next_none {b : Bitmap} {i i' : Iterator} (h : b.next i = (none, i')) :
    b.remaining i' = [] := by
  have hspec := b.next_spec i
  rw [h] at hspec
  have hnone : b.remaining i = [] := hspec
  unfold next at h
  by_cases hcache : i.cache = 0
  · rw [if_pos hcache] at h
    by_cases hend : i.nBlock ≥ i.nLimit
    · rw [if_pos hend] at h
      obtain ⟨-, rfl⟩ := Prod.mk.inj h
      exact hnone
    · rw [if_neg hend] at h
      by_cases hfound : b.skip (i.nBlock + 1) (i.nLimit - (i.nBlock + 1)) < i.nLimit
      · simp only [if_pos hfound] at h
        cases (Prod.mk.inj h).1
      · simp only [if_neg hfound] at h
        obtain ⟨-, rfl⟩ := Prod.mk.inj h
        generalize b.skip (i.nBlock + 1) (i.nLimit - (i.nBlock + 1)) = m at hfound
        rw [remaining, bitsOf_zero, show i.nLimit - (m + 1) = 0 by omega, bitsFrom,
          List.nil_append]
  · rw [if_neg hcache] at h
    cases (Prod.mk.inj h).1

/-- A call of `ck_bitmap_next` takes the first of the remaining bits. -/
theorem next_remaining (b : Bitmap) (i : Iterator) :
    (b.next i).1 = (b.remaining i)[0]? ∧ b.remaining (b.next i).2 = (b.remaining i).tail := by
  have hspec := b.next_spec i
  cases hnext : b.next i with
  | mk bit i' =>
    rw [hnext] at hspec
    cases bit with
    | none =>
      have hnone : b.remaining i = [] := hspec
      exact ⟨by rw [hnone]; rfl, by rw [hnone]; exact remaining_of_next_none hnext⟩
    | some bit =>
      have hsome : b.remaining i = bit :: b.remaining i' := hspec
      exact ⟨by rw [hsome]; rfl, by rw [hsome]; rfl⟩

/-- The call after `k` calls of `ck_bitmap_next` finds bit number `k` of those that remained. -/
theorem next_advance (b : Bitmap) (k : Nat) (i : Iterator) :
    (b.next (b.advance k i)).1 = (b.remaining i)[k]? := by
  induction k generalizing i with
  | zero => exact (b.next_remaining i).1
  | succ k ih => rw [advance, ih, (b.next_remaining i).2, List.getElem?_tail]

/-- The iterator of a padded bitmap finds its bits one after the other, and then none. -/
theorem Padded.next {b : Bitmap} (h : b.Padded) (k : Nat) :
    (b.next (b.advance k b.iterator)).1 = ((List.range b.nBits).filter b.bit)[k]? := by
  rw [next_advance, h.remaining_iterator]

/-! ## Operations on two bitmaps -/

/-- Within the bitmap, a padded second one has no bits but its own in the common blocks. -/
theorem Padded.common {dst src : Bitmap} (h : src.Padded) {n : Nat} (hn : n < dst.nBits) :
    (decide (n / 32 < blocks (min dst.nBits src.nBits)) && src.bit n) =
      (decide (n < src.nBits) && src.bit n) := by
  by_cases hsrc : n < src.nBits
  · rw [decide_eq_true hsrc, decide_eq_true (by unfold blocks; omega)]
  · rw [h n (Nat.le_of_not_lt hsrc), Bool.and_false, Bool.and_false]

end Bitmap

/-- The queries, the iterator and the operations on two bitmaps, bit by bit. -/
theorem bit_by_bit {x y : Bitmap} (hx : x.Padded) (hy : y.Padded) :
    (∀ limit, x.empty limit = true ↔ ∀ n < min limit x.nBits, x.bit n = false) ∧
      (∀ limit, x.full limit = true ↔ ∀ n < min limit x.nBits, x.bit n = true) ∧
      (∀ limit, x.count limit = (List.range (min limit x.nBits)).countP x.bit) ∧
      (∀ limit, x.countIntersect y limit =
        (List.range (min limit (min x.nBits y.nBits))).countP fun n => x.bit n && y.bit n) ∧
      (∀ k, (x.next (x.advance k x.iterator)).1 =
        ((List.range x.nBits).filter x.bit)[k]?) ∧
      ∀ n < x.nBits,
        (x.union y).bit n = (x.bit n || (decide (n < y.nBits) && y.bit n)) ∧
          (x.intersection y).bit n = (x.bit n && (decide (n < y.nBits) && y.bit n)) ∧
          (x.intersectionNegate y).bit n =
            (x.bit n && !(decide (n < y.nBits) && y.bit n)) := by
  refine ⟨x.empty_iff, x.full_iff, x.count_eq, x.countIntersect_eq y, hx.next, fun n hn => ?_⟩
  have hcommon := hy.common hn
  refine ⟨?_, ?_, ?_⟩
  · rw [Bitmap.bit_union, hcommon]
  · rw [Bitmap.bit_intersection, Bool.and_right_comm, hcommon, Bool.and_comm]
  · rw [Bitmap.bit_intersectionNegate, hcommon]

/-- Forty bits and twenty. -/
theorem bit_by_bit_shorter :
    (((Bitmap.init 40 true).intersectionNegate (.init 20 true)).bit 33 = true) ∧
      (((Bitmap.init 40 true).intersection (.init 20 true)).bit 33 = false) := by
  have hpadded : ∀ n, (Bitmap.init n true).Padded := fun n => (Built.init n true).padded
  obtain ⟨-, -, -, -, -, hops⟩ := bit_by_bit (hpadded 40) (hpadded 20)
  obtain ⟨-, hand, hnot⟩ := hops 33 (by decide)
  exact ⟨hnot.trans (by rw [Bitmap.bit_init]; decide), hand.trans (by decide)⟩

end ConcurrencyKit.Bitmaps
