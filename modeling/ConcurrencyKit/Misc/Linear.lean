import Mathlib.Tactic

/-!
# Sequential histories

A linearization of a run is a sequence of operations, with their results, in the order in
which they take effect. A sequential specification says what each operation does to an
abstract state; the sequence is legal if every operation is allowed where it stands.

A `History` is such a sequence for several threads, beside the operations that have returned.
It is consistent for a thread if its operations take effect in the order in which it calls
them, and each takes effect once, before it returns.
-/

namespace ConcurrencyKit.Linear

variable {S Op : Type}

/-- The operations lead from one state to another, each allowed where it stands. -/
inductive Legal (next : S → Op → S → Prop) (s : S) : List Op → S → Prop
  | nil : Legal next s [] s
  | snoc {ops : List Op} {t u : S} (op : Op) (before : Legal next s ops t) (h : next t op u) :
      Legal next s (ops ++ [op]) u

variable {next : S → Op → S → Prop} {s t u : S} {ops : List Op}

/-- What every operation keeps holds at the end. -/
theorem Legal.invariant {P : S → Prop} (h : Legal next s ops t) (hs : P s)
    (hstep : ∀ {t u op}, next t op u → P t → P u) : P t := by
  induction h with
  | nil => exact hs
  | snoc op _ hn ih => exact hstep hn ih

theorem Legal.nil_inv (h : Legal next s [] t) : t = s := by
  generalize hl : ([] : List Op) = l at h
  cases h with
  | nil => rfl
  | snoc op before hn => simp at hl

theorem Legal.snoc_inv {op : Op} (h : Legal next s (ops ++ [op]) u) :
    ∃ t, Legal next s ops t ∧ next t op u := by
  generalize hl : ops ++ [op] = l at h
  cases h with
  | nil => simp at hl
  | snoc op' before hn =>
    obtain ⟨rfl, hop⟩ := List.append_inj' hl rfl
    cases hop
    exact ⟨_, before, hn⟩

/-- What is legal is legal where more is allowed. -/
theorem Legal.mono {next' : S → Op → S → Prop} (h : Legal next s ops t)
    (hnext : ∀ s op t, next s op t → next' s op t) : Legal next' s ops t := by
  induction h with
  | nil => exact .nil
  | snoc op _ hn ih => exact ih.snoc op (hnext _ _ _ hn)

/-- A legal history can be cut anywhere. -/
theorem Legal.cut {front back : List Op} (h : Legal next s (front ++ back) u) :
    ∃ t, Legal next s front t ∧ Legal next t back u := by
  induction back using List.reverseRecOn generalizing u with
  | nil => exact ⟨u, by simpa using h, .nil⟩
  | append_singleton back op ih =>
    rw [← List.append_assoc] at h
    obtain ⟨t, ht, hn⟩ := h.snoc_inv
    obtain ⟨r, hfront, hback⟩ := ih ht
    exact ⟨r, hfront, hback.snoc op hn⟩

/-! ## Histories of several threads -/

/-- The operations that have taken effect, in this order, and for each thread those that have
returned. -/
structure History (ι Op : Type) where
  events : List (ι × Op)
  completed : ι → List Op

namespace History

variable {ι : Type} [DecidableEq ι] {h : History ι Op} {i j : ι} {op : Op} {pending : Option Op}

/-- The operations of one thread that have taken effect. -/
def of (h : History ι Op) (i : ι) : List Op := (h.events.filter fun e => e.1 = i).map Prod.snd

/-- An operation of thread `i` takes effect. -/
def effect (i : ι) (op : Op) (h : History ι Op) : History ι Op :=
  { h with events := h.events ++ [(i, op)] }

/-- An operation of thread `i` returns. -/
def complete (i : ι) (op : Op) (h : History ι Op) : History ι Op :=
  { h with completed := Function.update h.completed i (h.completed i ++ [op]) }

/-- What has taken effect for thread `i` is what has returned, and perhaps the operation that it
is in. -/
def Consistent (h : History ι Op) (i : ι) (pending : Option Op) : Prop :=
  h.of i = h.completed i ++ pending.toList

theorem Consistent.effect (hc : h.Consistent i none) : (h.effect i op).Consistent i (some op) := by
  unfold Consistent of History.effect at *
  simp at hc ⊢
  rw [hc]

theorem Consistent.complete (hc : h.Consistent i (some op)) :
    (h.complete i op).Consistent i none := by
  unfold Consistent of History.complete at *
  simp at hc ⊢
  exact hc

theorem Consistent.other_effect (hj : j ≠ i) (hc : h.Consistent j pending) :
    (h.effect i op).Consistent j pending := by
  unfold Consistent of History.effect at *
  simpa [hj.symm] using hc

theorem Consistent.other_complete (hj : j ≠ i) (hc : h.Consistent j pending) :
    (h.complete i op).Consistent j pending := by
  unfold Consistent of History.complete at *
  simpa [Function.update_of_ne hj] using hc

end History

end ConcurrencyKit.Linear
