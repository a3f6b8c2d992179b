import Mathlib.Data.List.Basic
import Mathlib.Tactic

/-!
# Sorting and searching

`qsort` and `bsearch` with a function that compares two elements: its result is negative, zero or
positive. When the function is an `Order`, a search in what has been sorted finds an element exactly
if there is one that compares as equal (`bsearch_qsort`).
-/

namespace ConcurrencyKit.Search

variable {α : Type}

/-- `qsort`. -/
def qsort (cmp : α → α → Int) (xs : List α) : List α := xs.mergeSort fun a b => decide (cmp a b ≤ 0)

/-- `bsearch` between two indices. -/
def bsearchFrom (cmp : α → α → Int) (key : α) (xs : List α) : Nat → Nat → Nat → Option α
  | 0, _, _ => none
  | fuel + 1, lo, hi =>
    if lo < hi then
      match xs[(lo + hi) / 2]? with
      | none => none
      | some y =>
        if cmp key y < 0 then bsearchFrom cmp key xs fuel lo ((lo + hi) / 2)
        else if 0 < cmp key y then bsearchFrom cmp key xs fuel ((lo + hi) / 2 + 1) hi
        else some y
    else none

/-- `bsearch`. -/
def bsearch (cmp : α → α → Int) (key : α) (xs : List α) : Option α :=
  bsearchFrom cmp key xs xs.length 0 xs.length

/-- The function compares by a total order. -/
structure Order (cmp : α → α → Int) : Prop where
  total : ∀ a b, cmp a b ≤ 0 ∨ cmp b a ≤ 0
  trans : ∀ a b c, cmp a b ≤ 0 → cmp b c ≤ 0 → cmp a c ≤ 0
  lt_trans : ∀ a b c, cmp a b < 0 → cmp b c ≤ 0 → cmp a c < 0
  gt_trans : ∀ a b c, cmp b c ≤ 0 → 0 < cmp a c → 0 < cmp a b

/-- Each element is at most as large as those that come later. -/
def Sorted (cmp : α → α → Int) (xs : List α) : Prop := xs.Pairwise fun a b => cmp a b ≤ 0

variable {cmp : α → α → Int} {key y : α} {xs : List α} {fuel lo hi : Nat}

theorem mem_qsort : y ∈ qsort cmp xs ↔ y ∈ xs := List.mem_mergeSort

theorem Order.sorted_qsort (h : Order cmp) (xs : List α) : Sorted cmp (qsort cmp xs) := by
  have hpairwise : (xs.mergeSort fun a b => decide (cmp a b ≤ 0)).Pairwise
      fun a b => decide (cmp a b ≤ 0) = true := by
    refine List.pairwise_mergeSort (fun a b c hab hbc => ?_) (fun a b => ?_) xs
    · simpa using h.trans a b c (by simpa using hab) (by simpa using hbc)
    · simpa using h.total a b
  exact hpairwise.imp fun hab => by simpa using hab

/-- An element that compares as equal can only be between the two indices. -/
structure Between (cmp : α → α → Int) (key : α) (xs : List α) (lo hi : Nat) : Prop where
  le : hi ≤ xs.length
  above : ∀ n y, n < lo → xs[n]? = some y → 0 < cmp key y
  below : ∀ n y, hi ≤ n → xs[n]? = some y → cmp key y < 0

theorem Sorted.le (h : Sorted cmp xs) {m n : Nat} {x : α} (hlt : m < n) (hx : xs[m]? = some x)
    (hy : xs[n]? = some y) : cmp x y ≤ 0 := by
  obtain ⟨hm, rfl⟩ := List.getElem?_eq_some_iff.mp hx
  obtain ⟨hn, rfl⟩ := List.getElem?_eq_some_iff.mp hy
  exact List.pairwise_iff_getElem.mp h m n hm hn hlt

/-- The search goes on below the middle. -/
theorem Between.left (h : Between cmp key xs lo hi) (ho : Order cmp) (hs : Sorted cmp xs) {m : Nat}
    (hm : m < hi) (hy : xs[m]? = some y) (hlt : cmp key y < 0) : Between cmp key xs lo m where
  le := hm.le.trans h.le
  above := h.above
  below n z hn hz := by
    rcases hn.lt_or_eq with hn | rfl
    · exact ho.lt_trans key y z hlt (hs.le hn hy hz)
    · rwa [Option.some.inj (hz.symm.trans hy)]

/-- The search goes on above the middle. -/
theorem Between.right (h : Between cmp key xs lo hi) (ho : Order cmp) (hs : Sorted cmp xs) {m : Nat}
    (hy : xs[m]? = some y) (hgt : 0 < cmp key y) : Between cmp key xs (m + 1) hi where
  le := h.le
  above n z hn hz := by
    rcases (Nat.le_of_lt_succ hn).lt_or_eq with hn | rfl
    · exact ho.gt_trans key z y (hs.le hn hz hy) hgt
    · rwa [Option.some.inj (hz.symm.trans hy)]
  below := h.below

/-- Between indices that have met there is nothing. -/
theorem Between.not_exists (h : Between cmp key xs lo hi) (hle : hi ≤ lo) :
    ¬ ∃ y ∈ xs, cmp key y = 0 := by
  rintro ⟨y, hy, heq⟩
  obtain ⟨n, hn⟩ := List.mem_iff_getElem?.mp hy
  by_cases hlo : n < lo
  · have := h.above n y hlo hn
    omega
  · have := h.below n y (by omega) hn
    omega

theorem bsearchFrom_isSome (ho : Order cmp) (hs : Sorted cmp xs)
    (h : Between cmp key xs lo hi) (hfuel : hi ≤ lo + fuel) :
    (bsearchFrom cmp key xs fuel lo hi).isSome = true ↔ ∃ y ∈ xs, cmp key y = 0 := by
  induction fuel generalizing lo hi with
  | zero => exact iff_of_false Bool.false_ne_true (h.not_exists hfuel)
  | succ fuel ih =>
    unfold bsearchFrom
    split
    case isFalse hlt => exact iff_of_false Bool.false_ne_true (h.not_exists (by omega))
    case isTrue hlt =>
      have hm : (lo + hi) / 2 < hi := by omega
      have hy := List.getElem?_eq_getElem (hm.trans_le h.le)
      rw [hy]
      dsimp only
      split
      case isTrue hneg => exact ih (h.left ho hs hm hy hneg) (by omega)
      case isFalse hneg =>
        split
        case isTrue hpos => exact ih (h.right ho hs hy hpos) (by omega)
        case isFalse hpos =>
          exact iff_of_true rfl ⟨_, List.getElem_mem (hm.trans_le h.le), by omega⟩

/-- `bsearch` finds an element of what has been sorted by `qsort` if there is one that compares as
equal. -/
theorem bsearch_qsort (ho : Order cmp) (key : α) (xs : List α) :
    (bsearch cmp key (qsort cmp xs)).isSome = true ↔ ∃ y ∈ xs, cmp key y = 0 := by
  have hall : Between cmp key (qsort cmp xs) 0 (qsort cmp xs).length := by
    refine ⟨le_rfl, fun n y hn => absurd hn (Nat.not_lt_zero n), fun n y hn hy => ?_⟩
    rw [List.getElem?_eq_none hn] at hy
    cases hy
  rw [bsearch, bsearchFrom_isSome ho (ho.sorted_qsort xs) hall (by omega)]
  simp only [mem_qsort]

end ConcurrencyKit.Search
