import Mathlib.Data.Fintype.Card
import Mathlib.Data.List.Nodup
import Mathlib.Tactic

/-!
# What the barriers have in common

A thread that subscribes to a barrier gets a number by a fetch-and-add of the word `tid`. A `Roster`
keeps the threads in the order in which they have subscribed next to that word.

The barriers reverse the sense from one call to the next instead of clearing their flags. `sense n`
is the sense of the call with the number `n`, from zero on, and a flag that is stored to once in a
call holds `sense (w + 1)` after `w` stores.
-/

namespace ConcurrencyKit.Barrier

/-! ## Senses -/

/-- The sense of call `n`: first `~0`, and the other one from then on each time. -/
def sense (n : Nat) : BitVec 32 := if n % 2 = 0 then ~~~0 else 0

theorem sense_eq_iff {m n : Nat} : sense m = sense n ↔ m % 2 = n % 2 := by
  unfold sense
  rcases Nat.mod_two_eq_zero_or_one m with hm | hm <;>
    rcases Nat.mod_two_eq_zero_or_one n with hn | hn <;> simp [hm, hn]

/-- `state->sense = ~state->sense`. -/
theorem not_sense (n : Nat) : ~~~ sense n = sense (n + 1) := by
  unfold sense
  rcases Nat.mod_two_eq_zero_or_one n with hn | hn
  · rw [if_pos hn, if_neg (by omega)]
    decide
  · rw [if_neg (by omega), if_pos (by omega)]

/-! ## Counting -/

/-- To count one more for somebody makes nobody's count smaller. -/
theorem le_update_succ {α : Type} [DecidableEq α] (f : α → Nat) (t u : α) :
    f u ≤ Function.update f t (f t + 1) u := by
  rw [Function.update_apply]
  split
  case isTrue heq =>
    rw [heq]
    exact Nat.le_succ _
  case isFalse => exact le_rfl

/-! ## Subscribing -/

variable {ι : Type}

/-- The threads that have subscribed, and the word that says how many they are. -/
structure Roster (ι : Type) where
  members : List ι
  tid : Nat

namespace Roster

/-- `ck_pr_faa_uint(&barrier->tid, 1)`. -/
def subscribe (i : ι) (r : Roster ι) : Roster ι where
  members := r.members ++ [i]
  tid := (r.tid + 1) % 2 ^ 32

/-- Thread `i` has got the number `t`. -/
def Has (r : Roster ι) (t : Nat) (i : ι) : Prop := r.members[t]? = some i

/-- The word counts the threads, and none of them has subscribed twice. -/
structure Counted (r : Roster ι) : Prop where
  nodup : r.members.Nodup
  tid_eq : r.tid = r.members.length % 2 ^ 32

variable {r : Roster ι} {t : Nat} {i j : ι}

theorem Has.lt (h : r.Has t i) : t < r.members.length :=
  (List.getElem?_eq_some_iff.mp h).1

theorem Has.mem (h : r.Has t i) : i ∈ r.members := List.mem_of_getElem? h

theorem Has.unique (h : r.Has t i) (h' : r.Has t j) : i = j :=
  Option.some.inj (h.symm.trans h')

theorem Has.subscribe (h : r.Has t i) (j : ι) : (r.subscribe j).Has t i :=
  (List.getElem?_append_left h.lt).trans h

theorem not_mem_subscribe (hj : j ∉ r.members) (hne : j ≠ i) : j ∉ (r.subscribe i).members := by
  intro hmem
  rcases List.mem_append.mp hmem with hmem | hmem
  · exact hj hmem
  · exact hne (List.mem_singleton.mp hmem)

theorem length_le_of_subscribe (h : (r.subscribe i).members.length ≤ t) :
    r.members.length ≤ t := by
  simp only [Roster.subscribe, List.length_append] at h
  omega

theorem Counted.subscribe (hr : r.Counted) (hi : i ∉ r.members) : (r.subscribe i).Counted where
  nodup := List.Nodup.append hr.nodup (List.nodup_singleton i)
    (List.disjoint_singleton.mpr hi)
  tid_eq := by
    simp only [Roster.subscribe, hr.tid_eq, List.length_append, List.length_singleton]
    omega

section Finite

variable [Fintype ι]

theorem Counted.length_le (hr : r.Counted) : r.members.length ≤ Fintype.card ι :=
  hr.nodup.length_le_card

theorem Has.lt_card (hr : r.Counted) (h : r.Has t i) : t < Fintype.card ι :=
  h.lt.trans_le hr.length_le

/-- The word does not wrap around while there are less than `2 ^ 32` threads. -/
theorem Counted.tid_eq_length (hr : r.Counted) (hcard : Fintype.card ι < 2 ^ 32) :
    r.tid = r.members.length :=
  hr.tid_eq.trans (Nat.mod_eq_of_lt (hr.length_le.trans_lt hcard))

/-- A thread that is about to subscribe gets the next number. -/
theorem Counted.has_subscribe (hr : r.Counted) (hcard : Fintype.card ι < 2 ^ 32) (i : ι) :
    (r.subscribe i).Has r.tid i := by
  rw [Has, Roster.subscribe, hr.tid_eq_length hcard]
  exact List.getElem?_concat_length

/-- When as many threads have subscribed as there are, each has a number. -/
theorem Counted.all (hr : r.Counted) (hlen : Fintype.card ι ≤ r.members.length) (i : ι) :
    ∃ t, r.Has t i := by
  classical
  have hmem : i ∈ r.members := by
    have hcard : r.members.toFinset.card = Fintype.card ι := by
      rw [List.toFinset_card_of_nodup hr.nodup]
      exact le_antisymm hr.length_le hlen
    have huniv := (Finset.card_eq_iff_eq_univ _).mp hcard
    exact List.mem_toFinset.mp (huniv ▸ Finset.mem_univ i)
  obtain ⟨t, ht, heq⟩ := List.getElem_of_mem hmem
  exact ⟨t, List.getElem?_eq_some_iff.mpr ⟨ht, heq⟩⟩

/-- Whoever is behind all the numbers that are possible is behind every thread: while one has not
subscribed yet, nobody has started a call under some of these numbers. -/
theorem Counted.le_of_forall (hr : r.Counted) {calls : Nat → Nat} {n c : Nat}
    (hall : ∀ t < Fintype.card ι, n ≤ calls t)
    (habsent : ∀ t, r.members.length ≤ t → calls t = 0)
    (hj : j ∉ r.members ∨ ∃ t, r.Has t j ∧ calls t = c) : n ≤ c := by
  rcases hj with hnew | ⟨t, hhas, rfl⟩
  · have hlen : r.members.length < Fintype.card ι := by
      by_contra hle
      obtain ⟨t, hhas⟩ := hr.all (not_lt.mp hle) j
      exact hnew hhas.mem
    have hn := hall _ hlen
    rw [habsent _ le_rfl] at hn
    exact hn.trans (Nat.zero_le c)
  · exact hall t (hhas.lt_card hr)

end Finite

end Roster

end ConcurrencyKit.Barrier
