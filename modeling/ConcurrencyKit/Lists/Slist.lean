import ConcurrencyKit.Lists.Model

/-!
# What `CK_SLIST` represents

A list is the list of the elements that its pointers lead through. The operations that take the
address of a pointer are told where in a list it is.
-/

namespace ConcurrencyKit

open Chain (Loc Cells Lists Linked endFrom Separate Holds Fresh)
open Chain.Loc (head next)

variable {η α : Type} [DecidableEq α]

/-- The loop of a removal finds the element before the one that is removed. -/
theorem walk_eq {c : Cells η α} {d : Loc η α} {l₁ l₂ : List α} {a x : α}
    (h : Linked c d (l₁ ++ a :: x :: l₂)) (hnot : x ∉ l₁ ++ [a]) {fuel : Nat}
    (hfuel : l₁.length < fuel) : walk c x fuel (c d) = some a := by
  obtain ⟨fuel, rfl⟩ : ∃ n, fuel = n + 1 := ⟨fuel - 1, by omega⟩
  induction l₁ generalizing d fuel with
  | nil =>
    obtain ⟨ha, hx, -⟩ := h
    simp [walk, ha, hx]
  | cons b l ih =>
    obtain ⟨hb, hrest⟩ := h
    have hnot' : x ∉ l ++ [a] := fun hx => hnot (List.mem_cons_of_mem b hx)
    have hne : c (next b) ≠ some x := by
      cases l with
      | nil =>
        rw [hrest.1]
        simpa [eq_comm] using hnot'
      | cons e l =>
        rw [hrest.1]
        rintro ⟨⟩
        exact hnot' List.mem_cons_self
    obtain ⟨n, rfl⟩ : ∃ n, fuel = n + 1 := ⟨fuel - 1, by simp at hfuel; omega⟩
    rw [hb, walk, if_neg hne]
    exact ih hrest hnot' n (by simpa using hfuel)

omit [DecidableEq α] in
/-- A removal finds out whether the element is the first one. -/
theorem first_ne {c : Cells η α} {d : Loc η α} {l₁ l₂ : List α} {a x : α}
    (h : Linked c d (l₁ ++ a :: l₂)) (hnot : x ∉ l₁ ++ [a]) : c d ≠ some x := by
  cases l₁ with
  | nil =>
    rw [h.1]
    simpa [eq_comm] using hnot
  | cons b l =>
    rw [h.1]
    rintro ⟨⟩
    exact hnot List.mem_cons_self

variable [DecidableEq η]

namespace CkSlist

variable {m : Mem η α} {q : Lists η α} {h : η} {l l₁ l₂ : List α} {a b x : α}

/-- What an operation does to the lists. Elements that are inserted are in no list. -/
inductive Next : Lists η α → Op η α → Lists η α → Prop
  | insertAfter {q : Lists η α} {h : η} {l₁ l₂ : List α} {a b : α}
      (hq : q h = some (l₁ ++ a :: l₂)) (hb : Fresh q b) :
      Next q (.insertAfter a b) (Function.update q h (some (l₁ ++ a :: b :: l₂)))
  | insertHead {q : Lists η α} {h : η} {l : List α} {x : α} (hq : q h = some l) (hx : Fresh q x) :
      Next q (.insertHead h x) (Function.update q h (some (x :: l)))
  | insertPrevptr {q : Lists η α} {h : η} {l₁ l₂ : List α} {x : α}
      (hq : q h = some (l₁ ++ l₂)) (hx : Fresh q x) :
      Next q (.insertPrevptr (endFrom (head h) l₁) l₂.head? x)
        (Function.update q h (some (l₁ ++ x :: l₂)))
  | removeAfter {q : Lists η α} {h : η} {l₁ l₂ : List α} {a x : α}
      (hq : q h = some (l₁ ++ a :: x :: l₂)) :
      Next q (.removeAfter a) (Function.update q h (some (l₁ ++ a :: l₂)))
  | remove {q : Lists η α} {h : η} {l₁ l₂ : List α} {x : α} (hq : q h = some (l₁ ++ x :: l₂)) :
      Next q (.remove h x) (Function.update q h (some (l₁ ++ l₂)))
  | removeHead {q : Lists η α} {h : η} {l : List α} {x : α} (hq : q h = some (x :: l)) :
      Next q (.removeHead h) (Function.update q h (some l))
  | removePrevptr {q : Lists η α} {h : η} {l₁ l₂ : List α} {x : α}
      (hq : q h = some (l₁ ++ x :: l₂)) :
      Next q (.removePrevptr (endFrom (head h) l₁) x) (Function.update q h (some (l₁ ++ l₂)))

/-- The memory holds the lists. -/
structure Represents (m : Mem η α) (q : Lists η α) : Prop where
  separate : Separate q
  holds : Holds m q

/-- An operation can be carried out, and does to the lists what it should do. -/
def Carries (m : Mem η α) (op : Op η α) (q : Lists η α) : Prop :=
  ∃ fs fuel₀, (∀ fuel, fuel₀ ≤ fuel → script fuel m op = some fs) ∧
    ∃ m', fs.run m = some m' ∧ Represents m' q

omit [DecidableEq η] [DecidableEq α] in
/-- The pointer that `CK_SLIST_INSERT_PREVPTR` is told of points to the element that it is told
of. -/
theorem Represents.cell_eq_head? (hr : Represents m q) (hq : q h = some (l₁ ++ l₂)) :
    m (endFrom (head h) l₁) = l₂.head? := by
  cases l₂ with
  | nil => exact hr.holds.split hq
  | cons b l => exact hr.holds.cell_cons hq

/-- The memory after an element has been linked in at a cell. -/
def link (d : Loc η α) (x : α) (m : Mem η α) : Mem η α := store d (some x) (store (next x) (m d) m)

/-- The memory after the element behind a cell has been linked out. -/
def unlink (d : Loc η α) (x : α) (m : Mem η α) : Mem η α := store d (m (next x)) m

theorem Represents.link (hr : Represents m q) (hq : q h = some (l₁ ++ l₂)) (hx : Fresh q x) :
    Represents (CkSlist.link (endFrom (head h) l₁) x m)
      (Function.update q h (some (l₁ ++ x :: l₂))) where
  separate := hr.separate.insert hq hx
  holds := by
    have hx₁ : x ∉ l₁ := fun hmem => hx h _ hq (List.mem_append_left l₂ hmem)
    have hne : (next x : Loc η α) ≠ endFrom (head h) l₁ :=
      Chain.ne_endFrom (by simp) (Chain.outside_next hx₁)
    refine (hr.holds.fill hx _).link hr.separate hq hx ?_
    rw [Function.update_self, Function.update_of_ne hne.symm]

theorem Represents.unlink (hr : Represents m q) (hq : q h = some (l₁ ++ x :: l₂)) :
    Represents (CkSlist.unlink (endFrom (head h) l₁) x m)
      (Function.update q h (some (l₁ ++ l₂))) where
  separate := hr.separate.remove hq
  holds := hr.holds.unlink hr.separate hq

/-- The store of a removal at a cell, which is what `CK_SLIST_REMOVE_HEAD` and
`CK_SLIST_REMOVE_AFTER` have in common. -/
def removeAt (d : Loc η α) : Script (Mem η α) :=
  [fun m => (m d).map fun b => store d (m (next b)) m]

theorem removeAt_run (hr : Represents m q) (hq : q h = some (l₁ ++ x :: l₂)) :
    (removeAt (endFrom (head h) l₁)).run m = some (unlink (endFrom (head h) l₁) x m) := by
  simp only [removeAt, Script.run, hr.holds.cell_cons hq, Option.map_some, Option.bind_some,
    unlink]

/-- `CK_SLIST_REMOVE` comes to the cell that points to the element. -/
theorem script_remove (hr : Represents m q) (hq : q h = some (l₁ ++ x :: l₂)) :
    ∃ n, ∀ fuel, n ≤ fuel →
      script fuel m (.remove h x) = some (removeAt (endFrom (head h) l₁)) := by
  rcases l₁.eq_nil_or_concat with rfl | ⟨l, a, rfl⟩
  case inl =>
    have hfirst : m (head h) = some x := hr.holds.cell_cons hq
    exact ⟨0, fun _ _ => if_pos hfirst⟩
  case inr =>
    rw [List.concat_eq_append] at hq ⊢
    have hnot : x ∉ l ++ [a] := fun hx =>
      (List.disjoint_of_nodup_append (hr.separate.nodup h _ hq)) hx List.mem_cons_self
    have hlinked : Linked m (head h) (l ++ a :: x :: l₂) := by simpa using hr.holds h _ hq
    refine ⟨l.length + 1, fun fuel hfuel => ?_⟩
    rw [script, if_neg (first_ne hlinked hnot), walk_eq hlinked hnot hfuel, Chain.endFrom_concat]
    rfl

theorem carries {q' : Lists η α} {op : Op η α} (hr : Represents m q) (hn : Next q op q') :
    Carries m op q' := by
  cases hn with
  | @insertAfter h l₁ l₂ a x hq hx =>
    have hq' : q h = some ((l₁ ++ [a]) ++ l₂) := by simpa using hq
    have hrep := hr.link hq' hx
    rw [Chain.endFrom_concat, List.append_assoc, List.singleton_append] at hrep
    exact ⟨_, 0, fun _ _ => rfl, _, rfl, hrep⟩
  | @insertHead h l x hq hx =>
    have hq' : q h = some ([] ++ l) := hq
    exact ⟨_, 0, fun _ _ => rfl, _, rfl, hr.link hq' hx⟩
  | @insertPrevptr h l₁ l₂ x hq hx =>
    have hcell := hr.cell_eq_head? hq
    refine ⟨_, 0, fun _ _ => rfl, _, ?_, hr.link hq hx⟩
    rw [link, hcell]
    rfl
  | @removeAfter h l₁ l₂ a x hq =>
    have hq' : q h = some ((l₁ ++ [a]) ++ x :: l₂) := by simpa using hq
    have hrun := removeAt_run hr hq'
    have hrep := hr.unlink hq'
    rw [Chain.endFrom_concat] at hrun hrep
    rw [List.append_assoc, List.singleton_append] at hrep
    exact ⟨_, 0, fun _ _ => rfl, _, hrun, hrep⟩
  | remove hq =>
    obtain ⟨n, hscript⟩ := script_remove hr hq
    exact ⟨_, n, hscript, _, removeAt_run hr hq, hr.unlink hq⟩
  | @removeHead h l x hq =>
    have hq' : q h = some ([] ++ x :: l) := hq
    exact ⟨_, 0, fun _ _ => rfl, _, removeAt_run hr hq', hr.unlink hq'⟩
  | removePrevptr hq => exact ⟨_, 0, fun _ _ => rfl, _, rfl, hr.unlink hq⟩

end CkSlist

end ConcurrencyKit
