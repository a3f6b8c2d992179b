import Mathlib.Logic.Relation
import Mathlib.Logic.Function.Basic
import Mathlib.Tactic

/-!
# Windows of a sequence of nodes

A linked queue goes through a sequence of nodes: a node is linked behind the last one, and the
first one is cut off. What is linked at one moment is a window of that sequence. A node may
occur in the sequence many times, when it is used again, but only once in the window.
-/

namespace ConcurrencyKit

/-- The nodes `seq first, …, seq last`. -/
structure Window (N : Type) where
  seq : Nat → N
  first : Nat
  last : Nat

namespace Window

variable {N : Type} {w : Window N} {x y : N} {next : N → Option N} {j k : Nat}

/-- A node is in the window. -/
def Has (w : Window N) (x : N) : Prop := ∃ k, w.first ≤ k ∧ k ≤ w.last ∧ w.seq k = x

/-- The window is not empty, and its nodes are distinct. -/
structure Valid (w : Window N) : Prop where
  le : w.first ≤ w.last
  inj : ∀ {j k : Nat}, w.first ≤ j → j ≤ w.last → w.first ≤ k → k ≤ w.last →
    w.seq j = w.seq k → j = k

/-- Every node of the window points to the one behind it, and the last one to nothing. -/
structure Linked (next : N → Option N) (w : Window N) : Prop where
  succ : ∀ k, w.first ≤ k → k < w.last → next (w.seq k) = some (w.seq (k + 1))
  ends : next (w.seq w.last) = none

/-- One node can be reached from another. -/
def Path (next : N → Option N) : N → N → Prop :=
  Relation.ReflTransGen fun a b => next a = some b

/-- Link a node behind the last one. -/
def push (x : N) (w : Window N) : Window N :=
  { w with seq := Function.update w.seq (w.last + 1) x, last := w.last + 1 }

/-- Cut off the first node. -/
def pop (w : Window N) : Window N := { w with first := w.first + 1 }

@[simp] theorem push_first (x : N) (w : Window N) : (w.push x).first = w.first := rfl

@[simp] theorem push_last (x : N) (w : Window N) : (w.push x).last = w.last + 1 := rfl

@[simp] theorem pop_first (w : Window N) : w.pop.first = w.first + 1 := rfl

@[simp] theorem pop_last (w : Window N) : w.pop.last = w.last := rfl

@[simp] theorem pop_seq (w : Window N) : w.pop.seq = w.seq := rfl

theorem push_seq_of_le (x : N) (h : k ≤ w.last) : (w.push x).seq k = w.seq k :=
  Function.update_of_ne (by omega) _ _

@[simp] theorem push_seq_last (x : N) (w : Window N) : (w.push x).seq (w.last + 1) = x :=
  Function.update_self _ _ _

theorem Has.mk (h : w.first ≤ k) (h' : k ≤ w.last) : w.Has (w.seq k) := ⟨k, h, h', rfl⟩

theorem has_push (hle : w.first ≤ w.last) : (w.push x).Has y ↔ w.Has y ∨ y = x := by
  constructor
  · rintro ⟨k, h, h', rfl⟩
    rcases Nat.lt_or_ge w.last k with hk | hk
    · have h'' : k ≤ w.last + 1 := h'
      obtain rfl : k = w.last + 1 := by omega
      exact .inr (push_seq_last x w)
    · exact .inl ⟨k, h, hk, (push_seq_of_le x hk).symm⟩
  · rintro (⟨k, h, h', rfl⟩ | rfl)
    · exact ⟨k, h, h'.trans (Nat.le_succ _), push_seq_of_le x h'⟩
    · exact ⟨w.last + 1, hle.trans (Nat.le_succ _), le_rfl, push_seq_last y w⟩

theorem Has.of_pop (h : w.pop.Has x) : w.Has x := by
  obtain ⟨k, h1, h2, rfl⟩ := h
  exact ⟨k, (Nat.le_succ _).trans h1, h2, rfl⟩

theorem Valid.push (hv : w.Valid) (hx : ¬ w.Has x) : (w.push x).Valid where
  le := hv.le.trans (Nat.le_succ _)
  inj := by
    intro j k hj hj' hk hk' he
    have hj'' : j ≤ w.last + 1 := hj'
    have hk'' : k ≤ w.last + 1 := hk'
    -- the new node differs from all others
    have hnew : ∀ i, w.first ≤ i → i ≤ w.last → (w.push x).seq i ≠ x := by
      intro i hi hi' he
      rw [push_seq_of_le x hi'] at he
      exact hx ⟨i, hi, hi', he⟩
    rcases Nat.lt_or_ge w.last j with hlj | hlj <;> rcases Nat.lt_or_ge w.last k with hlk | hlk
    · omega
    · obtain rfl : j = w.last + 1 := by omega
      rw [push_seq_last] at he
      exact absurd he.symm (hnew k hk hlk)
    · obtain rfl : k = w.last + 1 := by omega
      rw [push_seq_last] at he
      exact absurd he (hnew j hj hlj)
    · rw [push_seq_of_le x hlj, push_seq_of_le x hlk] at he
      exact hv.inj hj hlj hk hlk he

theorem Valid.pop (hv : w.Valid) (h : w.first < w.last) : w.pop.Valid where
  le := h
  inj hj hj' hk hk' he :=
    hv.inj ((Nat.le_succ _).trans hj) hj' ((Nat.le_succ _).trans hk) hk' he

/-- A node that is cut off is gone. -/
theorem Valid.not_has_pop (hv : w.Valid) : ¬ w.pop.Has (w.seq w.first) := by
  rintro ⟨k, h, h', he⟩
  have h1 : w.first + 1 ≤ k := h
  have := hv.inj (by omega) h' le_rfl hv.le he
  omega

/-- What is left when the first node is cut off. -/
theorem Valid.has_pop (hv : w.Valid) : w.pop.Has x ↔ x ≠ w.seq w.first ∧ w.Has x := by
  constructor
  · intro h
    refine ⟨?_, h.of_pop⟩
    rintro rfl
    exact hv.not_has_pop h
  · rintro ⟨hx, k, h, h', he⟩
    have hk : k ≠ w.first := by
      rintro rfl
      exact hx he.symm
    exact ⟨k, lt_of_le_of_ne h hk.symm, h', he⟩

section Links

variable [DecidableEq N]

/-- Writing to a node outside the window does not matter. -/
theorem Linked.update (hl : Linked next w) (hx : ¬ w.Has x) (hle : w.first ≤ w.last)
    (v : Option N) : Linked (Function.update next x v) w where
  succ k h h' := by
    rw [Function.update_of_ne]
    · exact hl.succ k h h'
    · intro he
      exact hx ⟨k, h, h'.le, he⟩
  ends := by
    rw [Function.update_of_ne]
    · exact hl.ends
    · intro he
      exact hx ⟨w.last, hle, le_rfl, he⟩

/-- Writing the address of a node to the last one links it. -/
theorem Linked.push (hv : w.Valid) (hl : Linked next w) (hx : ¬ w.Has x) (hn : next x = none) :
    Linked (Function.update next (w.seq w.last) (some x)) (w.push x) where
  succ k h h' := by
    have hk : k ≤ w.last := Nat.lt_succ_iff.mp h'
    rw [push_seq_of_le x hk]
    rcases Nat.lt_or_ge k w.last with hlt | hge
    · rw [push_seq_of_le x hlt, Function.update_of_ne]
      · exact hl.succ k h hlt
      · intro he
        have := hv.inj h hk hv.le le_rfl he
        omega
    · obtain rfl : k = w.last := by omega
      rw [Function.update_self, push_seq_last]
  ends := by
    rw [push_last, push_seq_last, Function.update_of_ne]
    · exact hn
    · rintro rfl
      exact hx (.mk hv.le le_rfl)

end Links

theorem Linked.pop (hl : Linked next w) : Linked next w.pop where
  succ k h h' := hl.succ k ((Nat.le_succ _).trans h) h'
  ends := hl.ends

/-- The nodes of the window are on one path. -/
theorem Linked.path (hl : Linked next w) (hj : w.first ≤ j) (hk : k ≤ w.last) (hjk : j ≤ k) :
    Path next (w.seq j) (w.seq k) := by
  induction k, hjk using Nat.le_induction with
  | base => exact .refl
  | succ k hle ih => exact (ih (by omega)).tail (hl.succ k (by omega) (by omega))

/-- No path leads out of the window. -/
theorem Linked.of_path (hl : Linked next w) (hj : w.first ≤ j) (hj' : j ≤ w.last)
    (hp : Path next (w.seq j) y) : ∃ k, j ≤ k ∧ k ≤ w.last ∧ y = w.seq k := by
  induction hp with
  | refl => exact ⟨j, le_rfl, hj', rfl⟩
  | tail _ hstep ih =>
    obtain ⟨k, hk, hk', rfl⟩ := ih
    rcases Nat.lt_or_ge k w.last with hlt | hge
    · rw [hl.succ k (hj.trans hk) hlt] at hstep
      exact ⟨k + 1, by omega, hlt, (Option.some.inj hstep).symm⟩
    · obtain rfl : k = w.last := by omega
      rw [hl.ends] at hstep
      cases hstep

/-! ## Values

The nodes behind the first one carry the values of a queue. -/

section Values

variable {V : Type} {filed : Nat → V}

/-- The values of the nodes behind the first one. -/
def contents (w : Window N) (filed : Nat → V) : List V :=
  (List.range' (w.first + 1) (w.last - w.first)).map filed

theorem contents_push (hle : w.first ≤ w.last) (x : N) (v : V) :
    (w.push x).contents (Function.update filed (w.last + 1) v) = w.contents filed ++ [v] := by
  have hsucc : w.last + 1 - w.first = (w.last - w.first) + 1 := by omega
  have hend : w.first + 1 + (w.last - w.first) = w.last + 1 := by omega
  simp only [contents, push_first, push_last]
  rw [hsucc, List.range'_concat, List.map_append, Nat.one_mul, hend, List.map_singleton,
    Function.update_self]
  congr 1
  apply List.map_congr_left
  intro k hk
  have := (List.mem_range'_1.mp hk).2
  exact Function.update_of_ne (by omega) _ _

theorem contents_pop (hlt : w.first < w.last) (filed : Nat → V) :
    w.contents filed = filed (w.first + 1) :: w.pop.contents filed := by
  have hsucc : w.last - w.first = (w.last - (w.first + 1)) + 1 := by omega
  simp only [contents, pop_first, pop_last]
  rw [hsucc, List.range'_succ, List.map_cons]

end Values

end Window

end ConcurrencyKit
