import Mathlib.Logic.Function.Basic

/-!
# Where things are

Every element of a type has a place, and the elements at the place `p` are those of a set that
is known otherwise. What becomes of this when one element is moved.
-/

namespace ConcurrencyKit.Places

variable {N P : Type} [DecidableEq N] {place : N → P} {p q : P} {S : N → Prop} {e x : N}

omit [DecidableEq N] in
theorem not_mem (h : ∀ x, place x = p ↔ S x) (he : place e = q) (hq : q ≠ p) : ¬ S e := by
  rw [← h, he]
  exact hq

/-- An element is moved that stays away from `p`. -/
theorem elsewhere (h : ∀ x, place x = p ↔ S x) {q' : P} (he : place e = q) (hq : q ≠ p)
    (hq' : q' ≠ p) (x : N) : Function.update place e q' x = p ↔ S x := by
  by_cases hx : x = e
  · subst hx
    rw [Function.update_self]
    exact ⟨fun hp => absurd hp hq', fun hs => absurd hs (not_mem h he hq)⟩
  · rw [Function.update_of_ne hx]
    exact h x

theorem arrive (h : ∀ x, place x = p ↔ S x) (x : N) :
    Function.update place e p x = p ↔ x = e ∨ S x := by
  by_cases hx : x = e
  · subst hx
    rw [Function.update_self]
    exact ⟨fun _ => .inl rfl, fun _ => rfl⟩
  · rw [Function.update_of_ne hx, h]
    exact ⟨.inr, fun hm => hm.resolve_left hx⟩

theorem depart (h : ∀ x, place x = p ↔ S x) (hq : q ≠ p) (x : N) :
    Function.update place e q x = p ↔ x ≠ e ∧ S x := by
  by_cases hx : x = e
  · subst hx
    rw [Function.update_self]
    exact ⟨fun hp => absurd hp hq, fun hm => absurd rfl hm.1⟩
  · rw [Function.update_of_ne hx, h]
    exact ⟨fun hs => ⟨hx, hs⟩, And.right⟩

/-- An element stays at its place when one is moved that is not there. -/
theorem stays (h : place x = p) (hne : place e ≠ p) : Function.update place e q x = p := by
  rw [Function.update_of_ne]
  · exact h
  · rintro rfl
    exact hne h

end ConcurrencyKit.Places
