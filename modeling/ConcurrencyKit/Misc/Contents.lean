import Mathlib.Data.Multiset.Range
import Mathlib.Tactic

/-!
# What the cells of an array hold

`contents p f n` collects the words of the cells below `n` of the array `f` that satisfy `p`, with
their multiplicities. One store to the array replaces the word of one cell, and an array that is
filled from another one cell after the other ends up with its contents.
-/

namespace ConcurrencyKit

variable {α : Type} (p : α → Bool)

/-- A word, if it counts. -/
def single (a : α) : Multiset α := if p a = true then {a} else 0

/-- The words below `n` that count. -/
def contents (f : Nat → α) : Nat → Multiset α
  | 0 => 0
  | n + 1 => single p (f n) + contents f n

variable {p} {f g : Nat → α} {n : Nat}

theorem single_of_pos {a : α} (h : p a = true) : single p a = {a} := if_pos h

theorem single_of_neg {a : α} (h : p a = false) : single p a = 0 :=
  if_neg (Bool.eq_false_iff.mp h)

theorem mem_single {a b : α} : b ∈ single p a ↔ p a = true ∧ b = a := by
  unfold single
  split
  · rename_i h
    simp [h]
  · rename_i h
    simp [h]

theorem mem_contents {a : α} : a ∈ contents p f n ↔ p a = true ∧ ∃ i < n, f i = a := by
  induction n with
  | zero => simp [contents]
  | succ n ih =>
    rw [contents, Multiset.mem_add, mem_single, ih]
    constructor
    · rintro (⟨hp, rfl⟩ | ⟨hp, i, hi, hf⟩)
      · exact ⟨hp, n, Nat.lt_succ_self n, rfl⟩
      · exact ⟨hp, i, Nat.lt_succ_of_lt hi, hf⟩
    · rintro ⟨hp, i, hi, hf⟩
      rcases Nat.lt_succ_iff_lt_or_eq.mp hi with hlt | rfl
      · exact .inr ⟨hp, i, hlt, hf⟩
      · exact .inl ⟨hf ▸ hp, hf.symm⟩

theorem contents_congr (h : ∀ i < n, f i = g i) : contents p f n = contents p g n := by
  induction n with
  | zero => rfl
  | succ n ih =>
    rw [contents, contents, h n (Nat.lt_succ_self n), ih fun i hi => h i (Nat.lt_succ_of_lt hi)]

theorem contents_eq_zero (h : ∀ i < n, p (f i) = false) : contents p f n = 0 := by
  induction n with
  | zero => rfl
  | succ n ih =>
    rw [contents, single_of_neg (h n (Nat.lt_succ_self n)),
      ih fun i hi => h i (Nat.lt_succ_of_lt hi), add_zero]

/-- A store to cell `i` replaces the old word by the new one. -/
theorem contents_update {i : Nat} (hi : i < n) (a : α) :
    single p (f i) + contents p (Function.update f i a) n = single p a + contents p f n := by
  induction n with
  | zero => exact absurd hi (Nat.not_lt_zero i)
  | succ n ih =>
    rw [contents, contents]
    rcases Nat.lt_succ_iff_lt_or_eq.mp hi with hlt | rfl
    · rw [Function.update_of_ne hlt.ne', add_left_comm, ih hlt, add_left_comm]
    · have hsame : contents p (Function.update f i a) i = contents p f i :=
        contents_congr fun j hj => Function.update_of_ne hj.ne _ _
      rw [hsame, Function.update_self, add_left_comm]

/-- A word is put into a cell that holds none. -/
theorem contents_fill {i : Nat} (hi : i < n) (hp : p (f i) = false) {a : α} (ha : p a = true) :
    contents p (Function.update f i a) n = a ::ₘ contents p f n := by
  have hupdate := contents_update (p := p) (f := f) hi a
  rw [single_of_neg hp, single_of_pos ha, zero_add] at hupdate
  rw [hupdate, Multiset.singleton_add]

/-- A word takes the place of another one. -/
theorem contents_swap {i : Nat} (hi : i < n) (hp : p (f i) = true) {a : α} (ha : p a = true) :
    f i ::ₘ contents p (Function.update f i a) n = a ::ₘ contents p f n := by
  have hupdate := contents_update (p := p) (f := f) hi a
  rw [single_of_pos hp, single_of_pos ha] at hupdate
  rw [← Multiset.singleton_add, hupdate, Multiset.singleton_add]

/-- A word is moved from cell `j` to cell `i`, and `a` takes its place. -/
theorem contents_move {i j : Nat} (hi : i < n) (hj : j < n) (hij : i ≠ j) {a : α}
    (ha : p a = false) :
    contents p (Function.update (Function.update f i (f j)) j a) n =
      contents p (Function.update f i a) n := by
  have hout := contents_update (p := p) (f := Function.update f i a) hj a
  have hin := contents_update (p := p) (f := Function.update (Function.update f i a) j a) hi (f j)
  rw [Function.update_of_ne hij.symm, single_of_neg ha, zero_add] at hout
  rw [Function.update_of_ne hij, Function.update_self, single_of_neg ha, zero_add, hout,
    Function.update_comm hij.symm, Function.update_idem] at hin
  exact hin

/-- A loop over the cells of `f` each round of which adds the word of its cell. -/
theorem contents_foldlM {σ : Type} {body : σ → Nat → Option σ} (held : σ → Multiset α)
    (good : σ → Prop)
    (hbody : ∀ s k s', good s → body s k = some s' →
      good s' ∧ held s' = single p (f k) + held s)
    {s s' : σ} (hs : good s) (h : (List.range n).foldlM body s = some s') :
    good s' ∧ held s' = contents p f n + held s := by
  induction n generalizing s' with
  | zero =>
    cases h
    exact ⟨hs, (zero_add _).symm⟩
  | succ n ih =>
    rw [List.range_succ, List.foldlM_append] at h
    obtain ⟨mid, hmid, hlast⟩ := Option.bind_eq_some_iff.mp h
    obtain ⟨hgood, hheld⟩ := ih hmid
    have hlast' : body mid n = some s' := by simpa using hlast
    obtain ⟨hgood', hheld'⟩ := hbody mid n s' hgood hlast'
    exact ⟨hgood', by rw [hheld', hheld, contents, add_assoc]⟩

end ConcurrencyKit
