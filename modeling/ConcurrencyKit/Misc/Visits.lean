import ConcurrencyKit.Misc.Threads
import Mathlib.Data.Finset.Card
import Mathlib.Tactic

/-!
# Visits that are counted in and out

A place counts who comes and who goes. A visitor takes the number of those that have come before,
and a note of what it has found. Only the remainders of the two counters are seen, so what they say
holds while there are fewer visitors than remainders.

A number is a `Fence` if nobody has left that came after it was given out. When as many have left as
have come before it, those have all left (`Fence.passed`). Visitors that leave in the order in which
they came leave by their numbers (`InOrder`).
-/

namespace ConcurrencyKit.Visits

/-- Who comes, how many have come before, and what it has found. -/
structure Visit (ι τ : Type) where
  owner : ι
  number : Nat
  note : τ
  deriving DecidableEq

end Visits

open Visits (Visit)

/-- How many have come, how many have left, and who is there. -/
structure Visits (ι τ : Type) where
  arrived : Nat
  left : Nat
  present : Finset (Visit ι τ)

namespace Visits

variable {ι τ : Type} {v : Visits ι τ} {t u : Visit ι τ} {owner : ι} {note : τ} {n W : Nat}

/-- Nobody has come yet. -/
def empty (ι τ : Type) : Visits ι τ := ⟨0, 0, ∅⟩

/-- Those that came before a number was given out and are still there. -/
def before (v : Visits ι τ) (n : Nat) : Finset (Visit ι τ) := v.present.filter fun t => t.number < n

theorem mem_before : t ∈ v.before n ↔ t ∈ v.present ∧ t.number < n := Finset.mem_filter

/-- Nobody has left that came after the number was given out. -/
def Fence (v : Visits ι τ) (n : Nat) : Prop := n ≤ v.arrived ∧ v.left + (v.before n).card = n

/-- The visitors leave in the order in which they have come. -/
def InOrder (v : Visits ι τ) : Prop := ∀ t ∈ v.present, v.left ≤ t.number

/-- The counters are right, and the numbers are told apart. -/
structure Valid (v : Visits ι τ) : Prop where
  card : v.left + v.present.card = v.arrived
  lt : ∀ t ∈ v.present, t.number < v.arrived
  unique : ∀ t ∈ v.present, ∀ u ∈ v.present, t.number = u.number → t = u

theorem Valid.empty (ι τ : Type) : (empty ι τ).Valid := by
  constructor <;> simp [Visits.empty]

/-- The number that is given out next is a fence. -/
theorem Valid.fence (h : v.Valid) : v.Fence v.arrived := by
  have hall : v.before v.arrived = v.present := Finset.filter_true_of_mem h.lt
  exact ⟨le_refl _, by rw [hall, h.card]⟩

theorem Valid.new (h : v.Valid) : (⟨owner, v.arrived, note⟩ : Visit ι τ) ∉ v.present :=
  fun hmem => Nat.lt_irrefl _ (h.lt _ hmem)

/-- As many have left as have come before the fence, so these have all left. -/
theorem Fence.passed (hf : v.Fence n) (h : v.Valid) (hfew : v.present.card < W)
    (heq : v.left % W = n % W) : v.before n = ∅ := by
  obtain ⟨hle, hcard⟩ := hf
  have hvalid := h.card
  have hleft : v.left = n := Threads.eq_of_mod_eq (by omega) (by omega) heq
  exact Finset.card_eq_zero.mp (by omega)

/-- The visitor whose number is the number of those that have left is the first one. -/
theorem InOrder.first (ho : v.InOrder) (h : v.Valid) (ht : t ∈ v.present)
    (hfew : v.present.card < W) (heq : v.left % W = t.number % W) : t.number = v.left := by
  have hlt := h.lt t ht
  have hcard := h.card
  exact (Threads.eq_of_mod_eq (ho t ht) (by omega) heq).symm

/-- The first visitor has come before every other one. -/
theorem InOrder.lt (ho : v.InOrder) (h : v.Valid) (ht : t ∈ v.present) (hfirst : t.number = v.left)
    (hu : u ∈ v.present) (hne : t.owner ≠ u.owner) : t.number < u.number := by
  have hle := ho u hu
  have hnumber : t.number ≠ u.number := fun heq =>
    hne (congrArg Visit.owner (h.unique t ht u hu heq))
  omega

/-- As long as there are visitors, one of them is the first. -/
theorem InOrder.exists_first (ho : v.InOrder) (h : v.Valid) (ht : t ∈ v.present) :
    ∃ u ∈ v.present, u.number = v.left := by
  have hcard : v.left + v.present.card = v.arrived := h.card
  have hinj : (v.present.image Visit.number).card = v.present.card :=
    Finset.card_image_of_injOn fun t ht u hu => h.unique t ht u hu
  have hsub : v.present.image Visit.number ⊆ Finset.Ico v.left v.arrived := by
    intro n hn
    obtain ⟨u, hu, rfl⟩ := Finset.mem_image.mp hn
    exact Finset.mem_Ico.mpr ⟨ho u hu, h.lt u hu⟩
  -- all numbers between the two counters are taken
  have hall : v.present.image Visit.number = Finset.Ico v.left v.arrived :=
    Finset.eq_of_subset_of_card_le hsub (by rw [Nat.card_Ico, hinj]; omega)
  have hfirst : v.left ∈ v.present.image Visit.number := by
    rw [hall, Finset.mem_Ico]
    have hpos := Finset.card_pos.mpr ⟨t, ht⟩
    omega
  exact Finset.mem_image.mp hfirst

/-- The visit of a visitor, if it is there. -/
def Owns (v : Visits ι τ) (i : ι) (o : Option (Visit ι τ)) : Prop :=
  ∀ t, t ∈ v.present ∧ t.owner = i ↔ o = some t

theorem Owns.empty (i : ι) : (empty ι τ).Owns i none := by simp [Owns, Visits.empty]

variable [DecidableEq ι] [DecidableEq τ]

/-- A visitor comes. -/
def arrive (owner : ι) (note : τ) (v : Visits ι τ) : Visits ι τ :=
  { v with arrived := v.arrived + 1, present := insert ⟨owner, v.arrived, note⟩ v.present }

/-- A visitor leaves. -/
def leave (t : Visit ι τ) (v : Visits ι τ) : Visits ι τ :=
  { v with left := v.left + 1, present := v.present.erase t }

theorem mem_arrive : t ∈ (v.arrive owner note).present ↔
    t = ⟨owner, v.arrived, note⟩ ∨ t ∈ v.present :=
  Finset.mem_insert

theorem mem_leave : t ∈ (v.leave u).present ↔ t ≠ u ∧ t ∈ v.present := Finset.mem_erase

section Owns

variable {i j : ι} {o : Option (Visit ι τ)}

theorem Owns.arrive (h : v.Owns i none) : (v.arrive i note).Owns i (some ⟨i, v.arrived, note⟩) := by
  intro t
  rw [Option.some.injEq]
  constructor
  · rintro ⟨hmem, howner⟩
    rcases mem_arrive.mp hmem with rfl | hmem
    · rfl
    · exact absurd ((h t).mp ⟨hmem, howner⟩).symm (Option.some_ne_none t)
  · rintro rfl
    exact ⟨mem_arrive.mpr (.inl rfl), rfl⟩

theorem Owns.arrive_other (h : v.Owns j o) (hj : j ≠ i) : (v.arrive i note).Owns j o := by
  intro t
  rw [← h t, and_congr_left_iff]
  intro howner
  refine mem_arrive.trans (or_iff_right ?_)
  rintro rfl
  exact hj howner.symm

theorem Owns.leave (h : v.Owns i (some t)) : (v.leave t).Owns i none := by
  intro u
  refine iff_of_false ?_ (Option.some_ne_none u).symm
  rintro ⟨hmem, howner⟩
  obtain ⟨hne, hmem⟩ := mem_leave.mp hmem
  exact hne (Option.some.inj ((h u).mp ⟨hmem, howner⟩)).symm

theorem Owns.leave_other (h : v.Owns j o) (hj : t.owner ≠ j) : (v.leave t).Owns j o := by
  intro u
  rw [← h u, and_congr_left_iff]
  intro howner
  refine mem_leave.trans (and_iff_right ?_)
  rintro rfl
  exact hj howner

end Owns

theorem Valid.arrive (h : v.Valid) : (v.arrive owner note).Valid where
  card := by
    simp only [Visits.arrive, Finset.card_insert_of_notMem h.new]
    have := h.card
    omega
  lt t ht := by
    rcases mem_arrive.mp ht with rfl | ht
    · exact Nat.lt_succ_self _
    · exact Nat.lt_succ_of_lt (h.lt t ht)
  unique t ht u hu heq := by
    rcases mem_arrive.mp ht with rfl | ht <;> rcases mem_arrive.mp hu with rfl | hu
    · rfl
    · exact absurd heq (Nat.ne_of_gt (h.lt u hu))
    · exact absurd heq (Nat.ne_of_lt (h.lt t ht))
    · exact h.unique t ht u hu heq

theorem Valid.leave (h : v.Valid) (ht : t ∈ v.present) : (v.leave t).Valid where
  card := by
    have hcard := h.card
    have herase := Finset.card_erase_add_one ht
    simp only [Visits.leave]
    omega
  lt u hu := h.lt u (mem_leave.mp hu).2
  unique u hu w hw heq := h.unique u (mem_leave.mp hu).2 w (mem_leave.mp hw).2 heq

theorem Fence.before_arrive (hf : v.Fence n) : (v.arrive owner note).before n = v.before n := by
  unfold Visits.before Visits.arrive
  rw [Finset.filter_insert, if_neg (Nat.not_lt.mpr hf.1)]

theorem before_leave (v : Visits ι τ) (t : Visit ι τ) (n : Nat) :
    (v.leave t).before n = (v.before n).erase t := by
  unfold Visits.before Visits.leave
  rw [Finset.filter_erase]

theorem Fence.arrive (hf : v.Fence n) : (v.arrive owner note).Fence n :=
  ⟨Nat.le_succ_of_le hf.1, by rw [hf.before_arrive]; exact hf.2⟩

/-- The one that leaves has come before the fence. -/
theorem Fence.leave (hf : v.Fence n) (ht : t ∈ v.present) (hlt : t.number < n) :
    (v.leave t).Fence n := by
  obtain ⟨hle, hcard⟩ := hf
  have herase := Finset.card_erase_add_one (mem_before.mpr ⟨ht, hlt⟩)
  refine ⟨hle, ?_⟩
  rw [before_leave]
  simp only [Visits.leave]
  omega

theorem InOrder.arrive (ho : v.InOrder) (h : v.Valid) : (v.arrive owner note).InOrder := by
  intro t ht
  rcases mem_arrive.mp ht with rfl | ht
  · have := h.card
    simp only [Visits.arrive]
    omega
  · exact ho t ht

theorem InOrder.leave (ho : v.InOrder) (h : v.Valid) (ht : t ∈ v.present)
    (hfirst : t.number = v.left) : (v.leave t).InOrder := by
  intro u hu
  obtain ⟨hne, hu⟩ := mem_leave.mp hu
  have hle := ho u hu
  have hnumber : u.number ≠ v.left := fun heq => hne (h.unique u hu t ht (heq.trans hfirst.symm))
  simp only [Visits.leave]
  omega

end Visits

end ConcurrencyKit
