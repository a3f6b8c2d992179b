import Mathlib.Data.List.Basic
import Mathlib.Tactic

/-!
# Queues of threads in which each one knows the node before its own

In a queue lock every thread brings a node, and gets to know the node of the one before it when it
enters the queue. From the node at the front of a queue on, the threads are `Linked` in this way.
The node of the last one is `endOf` the queue. Where it is the other way round, each one gets to
know the node that `Follows` its own.
-/

namespace ConcurrencyKit.Line

variable {ι ν : Type}

/-- The first thread knows the node at the front, and every other one the node of the thread before
it. -/
def Linked (node prev : ι → ν) : ν → List ι → Prop
  | _, [] => True
  | p, i :: l => prev i = p ∧ Linked node prev (node i) l

/-- The node that the next thread gets to know. -/
def endOf (node : ι → ν) : ν → List ι → ν
  | p, [] => p
  | _, i :: l => endOf node (node i) l

variable {node prev node' prev' : ι → ν} {p : ν} {l l₁ l₂ : List ι} {i : ι}

theorem endOf_append : endOf node p (l₁ ++ l₂) = endOf node (endOf node p l₁) l₂ := by
  induction l₁ generalizing p with
  | nil => rfl
  | cons i l ih => exact ih

theorem endOf_concat : endOf node p (l ++ [i]) = node i := by
  rw [endOf_append]
  rfl

theorem linked_append :
    Linked node prev p (l₁ ++ l₂) ↔
      Linked node prev p l₁ ∧ Linked node prev (endOf node p l₁) l₂ := by
  induction l₁ generalizing p with
  | nil => exact ⟨fun h => ⟨trivial, h⟩, fun h => h.2⟩
  | cons i l ih =>
    constructor
    · rintro ⟨hi, h⟩
      obtain ⟨hl, hrest⟩ := ih.mp h
      exact ⟨⟨hi, hl⟩, hrest⟩
    · rintro ⟨⟨hi, hl⟩, hrest⟩
      exact ⟨hi, ih.mpr ⟨hl, hrest⟩⟩

/-- A thread that enters a queue comes after the last one. -/
theorem Linked.concat (h : Linked node prev p l) (hi : prev i = endOf node p l) :
    Linked node prev p (l ++ [i]) :=
  linked_append.mpr ⟨h, hi, trivial⟩

/-- What the other threads do with their nodes does not matter. -/
theorem Linked.congr (h : Linked node prev p l) (hnode : ∀ i ∈ l, node' i = node i)
    (hprev : ∀ i ∈ l, prev' i = prev i) : Linked node' prev' p l := by
  induction l generalizing p with
  | nil => trivial
  | cons i l ih =>
    have hi : node' i = node i := hnode i List.mem_cons_self
    refine ⟨(hprev i List.mem_cons_self).trans h.1, ?_⟩
    rw [hi]
    exact ih h.2 (fun j hj => hnode j (List.mem_cons_of_mem i hj))
      fun j hj => hprev j (List.mem_cons_of_mem i hj)

theorem endOf_congr (hnode : ∀ i ∈ l, node' i = node i) : endOf node' p l = endOf node p l := by
  induction l generalizing p with
  | nil => rfl
  | cons i l ih =>
    simp only [endOf]
    rw [hnode i List.mem_cons_self]
    exact ih fun j hj => hnode j (List.mem_cons_of_mem i hj)

/-- A thread is the first one, or knows the node of the thread right before it. -/
theorem Linked.behind (h : Linked node prev p l) (hi : i ∈ l) :
    (∃ l', l = i :: l' ∧ prev i = p) ∨ ∃ l₁ j l₂, l = l₁ ++ j :: i :: l₂ ∧ prev i = node j := by
  induction l generalizing p with
  | nil => exact absurd hi List.not_mem_nil
  | cons j l ih =>
    rcases List.mem_cons.mp hi with rfl | hi
    · exact .inl ⟨l, rfl, h.1⟩
    · rcases ih h.2 hi with ⟨l', rfl, hprev⟩ | ⟨l₁, k, l₂, rfl, hprev⟩
      · exact .inr ⟨[], j, l', rfl, hprev⟩
      · exact .inr ⟨j :: l₁, k, l₂, rfl, hprev⟩

/-- A thread is the first one, or knows the node of another thread in the queue. -/
theorem Linked.prev_cases (h : Linked node prev p l) (hi : i ∈ l) :
    (∃ l', l = i :: l' ∧ prev i = p) ∨ ∃ j ∈ l, prev i = node j := by
  rcases h.behind hi with hfirst | ⟨l₁, j, l₂, rfl, hprev⟩
  · exact .inl hfirst
  · exact .inr ⟨j, List.mem_append_right l₁ List.mem_cons_self, hprev⟩

/-- The end of a queue is the front, or the node of a thread in it. -/
theorem endOf_cases (node : ι → ν) (p : ν) (l : List ι) :
    endOf node p l = p ∨ ∃ j ∈ l, endOf node p l = node j := by
  induction l generalizing p with
  | nil => exact .inl rfl
  | cons i l ih =>
    rcases ih (node i) with h | ⟨j, hj, h⟩
    · exact .inr ⟨i, List.mem_cons_self, h⟩
    · exact .inr ⟨j, List.mem_cons_of_mem i hj, h⟩

/-- No thread in a queue knows the node at its end. -/
theorem Linked.prev_ne_endOf (h : Linked node prev p l) (hl : l.Nodup)
    (hinj : Function.Injective node) (hp : ∀ i, node i ≠ p) (hi : i ∈ l) :
    prev i ≠ endOf node p l := by
  obtain ⟨l₁, l₂, rfl⟩ := List.append_of_mem hi
  obtain ⟨-, hprev, -⟩ := linked_append.mp h
  obtain ⟨-, hl₂, hdisj⟩ := List.nodup_append.mp hl
  rw [hprev, endOf_append]
  intro heq
  have hend : ∃ k ∈ i :: l₂, endOf node (node i) l₂ = node k := by
    rcases endOf_cases node (node i) l₂ with hend | ⟨k, hk, hend⟩
    · exact ⟨i, List.mem_cons_self, hend⟩
    · exact ⟨k, List.mem_cons_of_mem i hk, hend⟩
  obtain ⟨k, hk, hend⟩ := hend
  replace heq : endOf node p l₁ = node k := heq.trans hend
  rcases endOf_cases node p l₁ with hfront | ⟨j, hj, hfront⟩
  · exact hp k (heq.symm.trans hfront)
  · exact hdisj j hj k hk (hinj (hfront.symm.trans heq))

/-! ## One after the other -/

/-- In the list `b` comes right after `a`. -/
def Follows (l : List ν) (a b : ν) : Prop := [a, b] <:+: l

section Follows

variable {l : List ν} {a b c x : ν}

theorem Follows.mem_left (h : Follows l a b) : a ∈ l := h.subset (by simp)

theorem Follows.mem_right (h : Follows l a b) : b ∈ l := h.subset (by simp)

theorem Follows.concat (h : Follows l a b) : Follows (l ++ [x]) a b :=
  h.trans (List.prefix_append l [x]).isInfix

theorem follows_concat (h : l.getLast? = some a) : Follows (l ++ [x]) a x := by
  obtain ⟨l', rfl⟩ := List.getLast?_eq_some_iff.mp h
  exact ⟨l', [], by simp⟩

/-- What follows at the end of a list follows in the rest of it, or is the end. -/
theorem Follows.of_concat (h : Follows (l ++ [x]) a b) :
    Follows l a b ∨ l.getLast? = some a ∧ b = x := by
  obtain ⟨l₁, l₂, heq⟩ := h
  rcases List.eq_nil_or_concat' l₂ with rfl | ⟨l₃, y, rfl⟩
  · have hlast : (l₁ ++ [a]) ++ [b] = l ++ [x] := by simpa using heq
    obtain ⟨rfl, hb⟩ := List.append_inj' hlast rfl
    exact .inr ⟨by simp, by simpa using hb⟩
  · have hrest : (l₁ ++ [a, b] ++ l₃) ++ [y] = l ++ [x] := by simpa using heq
    obtain ⟨rfl, -⟩ := List.append_inj' hrest rfl
    exact .inl ⟨l₁, l₃, rfl⟩

theorem Follows.cons (h : Follows l a b) : Follows (x :: l) a b :=
  h.trans (List.suffix_cons x l).isInfix

/-- What follows in a list follows in the rest of it, or is at the front. -/
theorem Follows.of_cons (h : Follows (x :: l) a b) :
    a = x ∧ l.head? = some b ∨ Follows l a b := by
  rcases List.infix_cons_iff.mp h with ⟨l', heq⟩ | h
  · simp only [List.cons_append, List.cons.injEq] at heq
    obtain ⟨rfl, rfl⟩ := heq
    exact .inl ⟨rfl, rfl⟩
  · exact .inr h

/-- Every element is the first one, or follows another one. -/
theorem first_or_follows (h : b ∈ l) : l.head? = some b ∨ ∃ a, Follows l a b := by
  obtain ⟨l₁, l₂, rfl⟩ := List.append_of_mem h
  rcases List.eq_nil_or_concat' l₁ with rfl | ⟨l₁, a, rfl⟩
  · exact .inl rfl
  · exact .inr ⟨a, l₁, l₂, by simp⟩

/-- The first one is followed by the first one of the rest. -/
theorem Follows.head (h : Follows (x :: l) x b) (hl : (x :: l).Nodup) : l.head? = some b := by
  rcases h.of_cons with ⟨-, hhead⟩ | h
  · exact hhead
  · exact absurd h.mem_left (List.nodup_cons.mp hl).1

/-- The first one follows nothing. -/
theorem Follows.ne_head (h : Follows l a b) (hl : l.Nodup) : l.head? ≠ some b := by
  cases l with
  | nil => exact nofun
  | cons x l =>
    intro hx
    obtain rfl : x = b := Option.some.inj hx
    have hnot := (List.nodup_cons.mp hl).1
    rcases h.of_cons with ⟨-, hhead⟩ | h
    · exact hnot (List.mem_of_mem_head? hhead)
    · exact hnot h.mem_right

/-- Nothing follows the last one. -/
theorem Follows.ne_last (h : Follows l a b) (hl : l.Nodup) : l.getLast? ≠ some a := by
  obtain ⟨l₁, l₂, rfl⟩ := h
  intro hlast
  rw [List.append_assoc, List.nodup_append] at hl
  obtain ⟨-, hl, -⟩ := hl
  have hmem : a ∈ b :: l₂ := by
    have hlast' : (b :: l₂).getLast? = some a := by simpa using hlast
    exact List.mem_of_getLast? hlast'
  exact (List.nodup_cons.mp hl).1 hmem

/-- Only one follows. -/
theorem Follows.unique (hb : Follows l a b) (hc : Follows l a c) (hl : l.Nodup) : b = c := by
  induction l with
  | nil => exact absurd hb.mem_left List.not_mem_nil
  | cons x l ih =>
    have hnot := (List.nodup_cons.mp hl).1
    rcases hb.of_cons with ⟨rfl, hhead⟩ | hb'
    · exact Option.some.inj (hhead.symm.trans (hc.head hl))
    · rcases hc.of_cons with ⟨rfl, -⟩ | hc'
      · exact absurd hb'.mem_left hnot
      · exact ih hb' hc' (List.nodup_cons.mp hl).2

/-- An element follows only one. -/
theorem Follows.left_unique (ha : Follows l a b) (hc : Follows l c b) (hl : l.Nodup) : a = c := by
  induction l with
  | nil => exact absurd ha.mem_left List.not_mem_nil
  | cons x l ih =>
    have hl' := (List.nodup_cons.mp hl).2
    rcases ha.of_cons with ⟨rfl, hhead⟩ | ha'
    · rcases hc.of_cons with ⟨rfl, -⟩ | hc'
      · rfl
      · exact absurd hhead (hc'.ne_head hl')
    · rcases hc.of_cons with ⟨rfl, hhead⟩ | hc'
      · exact absurd hhead (ha'.ne_head hl')
      · exact ih ha' hc' hl'

end Follows

end ConcurrencyKit.Line
