import Mathlib.Data.Finset.Basic
import Mathlib.Data.Finset.Filter
import Mathlib.Data.Setoid.Basic

/-!
# Finite sets keyed by an equivalence

A `KeyedSet` is a finite set of objects in which no two members are equivalent. The
equivalence plays the role of key equality: a key names at most one member, which
`lookup` returns. The type is the abstract side of every hash set refinement. It is
noncomputable, since the equivalence is an arbitrary relation.
-/

namespace ConcurrencyKit

open Classical in
/-- A finite set whose members are pairwise inequivalent. -/
structure KeyedSet (V : Type) (r : Setoid V) where
  carrier : Finset V
  unique : ∀ a ∈ carrier, ∀ b ∈ carrier, r a b → a = b

namespace KeyedSet

variable {V : Type} {r : Setoid V}

instance : Membership V (KeyedSet V r) := ⟨fun s v => v ∈ s.carrier⟩

/-- The set without members. -/
def empty : KeyedSet V r := ⟨∅, by simp⟩

open Classical in
/-- The member equivalent to `key`, if there is one. -/
noncomputable def lookup (s : KeyedSet V r) (key : V) : Option V :=
  if h : ∃ v ∈ s, r v key then some h.choose else none

open Classical in
/-- The set without the member equivalent to `key`. -/
noncomputable def erase (s : KeyedSet V r) (key : V) : KeyedSet V r :=
  ⟨s.carrier.filter (fun v => ¬ r v key), by
    intro a ha b hb hab
    exact s.unique a (Finset.mem_filter.mp ha).1 b (Finset.mem_filter.mp hb).1 hab⟩

open Classical in
/-- The set in which `v` stands for its equivalence class. -/
noncomputable def assign (s : KeyedSet V r) (v : V) : KeyedSet V r :=
  ⟨insert v (s.erase v).carrier, by
    intro a ha b hb hab
    rcases Finset.mem_insert.mp ha with rfl | ha' <;> rcases Finset.mem_insert.mp hb with rfl | hb'
    · rfl
    · exact absurd (r.symm hab) (Finset.mem_filter.mp hb').2
    · exact absurd hab (Finset.mem_filter.mp ha').2
    · exact (s.erase v).unique a ha' b hb' hab⟩

@[simp] theorem not_mem_empty (v : V) : v ∉ (empty : KeyedSet V r) :=
  Finset.notMem_empty v

@[simp] theorem mem_erase {s : KeyedSet V r} {key v : V} :
    v ∈ s.erase key ↔ v ∈ s ∧ ¬ r v key := by
  classical exact Finset.mem_filter

@[simp] theorem mem_assign {s : KeyedSet V r} {v w : V} :
    w ∈ s.assign v ↔ w = v ∨ (w ∈ s ∧ ¬ r w v) := by
  classical
  show w ∈ insert v (s.erase v).carrier ↔ _
  rw [Finset.mem_insert]
  exact or_congr_right mem_erase

theorem lookup_eq_some {s : KeyedSet V r} {key v : V} :
    s.lookup key = some v ↔ v ∈ s ∧ r v key := by
  unfold lookup
  constructor
  · intro h
    split at h
    · rename_i hex
      rw [← Option.some.inj h]
      exact hex.choose_spec
    · exact absurd h (by simp)
  · rintro ⟨hv, hk⟩
    have hex : ∃ w ∈ s, r w key := ⟨v, hv, hk⟩
    rw [dif_pos hex]
    obtain ⟨hw, hwk⟩ := hex.choose_spec
    exact congrArg some (s.unique _ hw _ hv (r.trans hwk (r.symm hk)))

theorem lookup_eq_none {s : KeyedSet V r} {key : V} :
    s.lookup key = none ↔ ∀ v ∈ s, ¬ r v key := by
  unfold lookup
  constructor
  · intro h v hv hk
    rw [dif_pos ⟨v, hv, hk⟩] at h
    exact absurd h (by simp)
  · intro h
    rw [dif_neg]
    rintro ⟨v, hv, hk⟩
    exact h v hv hk

/-! ## Members as a multiset -/

theorem ext {s t : KeyedSet V r} (h : ∀ v, v ∈ s ↔ v ∈ t) : s = t := by
  obtain ⟨s, hs⟩ := s
  obtain ⟨t, ht⟩ := t
  congr
  exact Finset.ext h

theorem erase_congr {s : KeyedSet V r} {v key : V} (h : r v key) : s.erase v = s.erase key := by
  refine ext fun w => ?_
  rw [mem_erase, mem_erase]
  exact and_congr_right fun _ => not_congr
    ⟨fun hw => r.trans hw h, fun hw => r.trans hw (r.symm h)⟩

theorem erase_of_lookup_none {s : KeyedSet V r} {key : V} (h : s.lookup key = none) :
    s.erase key = s := by
  refine ext fun w => ?_
  rw [mem_erase]
  exact and_iff_left_of_imp fun hw => lookup_eq_none.mp h w hw

theorem assign_val (s : KeyedSet V r) (v : V) :
    (s.assign v).carrier.val = v ::ₘ (s.erase v).carrier.val := by
  classical
  have hnot : v ∉ (s.erase v).carrier := fun hv => (mem_erase.mp hv).2 (r.refl v)
  exact Finset.insert_val_of_notMem hnot

theorem val_of_lookup_some {s : KeyedSet V r} {key u : V} (h : s.lookup key = some u) :
    s.carrier.val = u ::ₘ (s.erase key).carrier.val := by
  classical
  obtain ⟨hu, hkey⟩ := lookup_eq_some.mp h
  have hnot : u ∉ (s.erase key).carrier := fun hv => (mem_erase.mp hv).2 hkey
  rw [← Finset.insert_val_of_notMem hnot]
  refine congrArg Finset.val (Finset.ext fun w => ?_)
  rw [Finset.mem_insert]
  constructor
  · intro hw
    by_cases hwk : r w key
    · exact .inl (s.unique w hw u hu (r.trans hwk (r.symm hkey)))
    · exact .inr (mem_erase.mpr ⟨hw, hwk⟩)
  · rintro (rfl | hw)
    · exact hu
    · exact (mem_erase.mp hw).1

end KeyedSet

end ConcurrencyKit
