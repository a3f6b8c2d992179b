import Mathlib.Logic.Function.Basic
import Mathlib.Data.List.Nodup
import Mathlib.Tactic

/-!
# Chains of pointers

A memory with a cell for each head of a list and one for each element, where a cell is empty or
points to an element. From a cell on, the pointers lead through a list of elements (`Linked`). The
last cell on the way is the one behind all elements (`endFrom`).

A store to one cell leaves the chains that do not go through it as they are, and it links an element
into a chain or out of it.
-/

namespace ConcurrencyKit.Chain

/-- The address of a pointer: the first one of a head, or the next one of an element. -/
inductive Loc (η α : Type) where
  | head (h : η)
  | next (a : α)
  deriving DecidableEq, Repr

open Loc (head next)

variable {η α : Type}

/-- What is in the cells. -/
abbrev Cells (η α : Type) := Loc η α → Option α

/-- From the cell at `d` the pointers lead through the elements, and no further. -/
def Linked (c : Cells η α) : Loc η α → List α → Prop
  | d, [] => c d = none
  | d, a :: l => c d = some a ∧ Linked c (next a) l

/-- The pointer `o` and the ones behind it lead through the elements, and no further. -/
def LinkedFrom (c : Cells η α) (o : Option α) : List α → Prop
  | [] => o = none
  | a :: l => o = some a ∧ Linked c (next a) l

/-- From the cell at `d` the pointers lead through the elements at least. -/
def Leads (c : Cells η α) : Loc η α → List α → Prop
  | _, [] => True
  | d, a :: l => c d = some a ∧ Leads c (next a) l

/-- The cell behind the elements. -/
def endFrom : Loc η α → List α → Loc η α
  | d, [] => d
  | _, a :: l => endFrom (next a) l

/-- The cells on the way to the one behind the elements. -/
def cellsTo : Loc η α → List α → List (Loc η α)
  | _, [] => []
  | d, a :: l => d :: cellsTo (next a) l

variable {c : Cells η α} {d e : Loc η α} {l l' l₁ l₂ : List α} {a x : α} {v : Option α}

theorem endFrom_append (d : Loc η α) (l₁ l₂ : List α) :
    endFrom d (l₁ ++ l₂) = endFrom (endFrom d l₁) l₂ := by
  induction l₁ generalizing d with
  | nil => rfl
  | cons a l ih => exact ih (next a)

theorem endFrom_concat (d : Loc η α) (l : List α) (a : α) : endFrom d (l ++ [a]) = next a := by
  rw [endFrom_append]
  rfl

theorem endFrom_cons (d : Loc η α) (a : α) (l : List α) : endFrom d (a :: l) = endFrom (next a) l :=
  rfl

/-- Behind at least one element it does not matter where the chain has begun. -/
theorem endFrom_of_ne_nil (d e : Loc η α) (h : l ≠ []) : endFrom d l = endFrom e l := by
  cases l with
  | nil => exact absurd rfl h
  | cons a l => rfl

theorem linked_append :
    Linked c d (l₁ ++ l₂) ↔ Leads c d l₁ ∧ Linked c (endFrom d l₁) l₂ := by
  induction l₁ generalizing d with
  | nil => exact ⟨fun h => ⟨trivial, h⟩, fun h => h.2⟩
  | cons a l ih =>
    constructor
    · rintro ⟨ha, h⟩
      obtain ⟨hleads, hrest⟩ := ih.mp h
      exact ⟨⟨ha, hleads⟩, hrest⟩
    · rintro ⟨⟨ha, hleads⟩, hrest⟩
      exact ⟨ha, ih.mpr ⟨hleads, hrest⟩⟩

theorem Linked.unique (h : Linked c d l) (h' : Linked c d l') : l = l' := by
  induction l generalizing d l' with
  | nil =>
    cases l' with
    | nil => rfl
    | cons a l' => cases h.symm.trans h'.1
  | cons a l ih =>
    cases l' with
    | nil => cases h'.symm.trans h.1
    | cons b l' =>
      obtain rfl : a = b := Option.some.inj (h.1.symm.trans h'.1)
      rw [ih h.2 h'.2]

/-- A chain that ends does not come back to an element. -/
theorem Linked.nodup (h : Linked c d l) : l.Nodup := by
  induction l generalizing d with
  | nil => exact List.nodup_nil
  | cons a l ih =>
    refine List.nodup_cons.mpr ⟨fun hmem => ?_, ih h.2⟩
    obtain ⟨l₁, l₂, rfl⟩ := List.append_of_mem hmem
    have hagain : Linked c (next a) l₂ := (linked_append.mp h.2).2.2
    have hlength := congrArg List.length (h.2.unique hagain)
    rw [List.length_append, List.length_cons] at hlength
    omega

theorem linked_nil_iff (h : Linked c d l) : c d = none ↔ l = [] := by
  cases l with
  | nil => exact iff_of_true h rfl
  | cons a l => exact iff_of_false (by simp [h.1]) (by simp)

/-- A chain that is entered through another cell, in a memory in which its elements are the same. -/
theorem Linked.copy {c' : Cells η α} (h : Linked c d l) (hd : c' e = c d)
    (hl : ∀ x ∈ l, c' (next x) = c (next x)) : Linked c' e l := by
  induction l generalizing d e with
  | nil => exact hd.trans h
  | cons a l ih =>
    exact ⟨hd.trans h.1, ih h.2 (hl a List.mem_cons_self) fun x hx =>
      hl x (List.mem_cons_of_mem a hx)⟩

/-- A chain in a memory in which its cells are the same. -/
theorem Linked.congr {c' : Cells η α} (h : Linked c d l) (hd : c' d = c d)
    (hl : ∀ x ∈ l, c' (next x) = c (next x)) : Linked c' d l :=
  h.copy hd hl

theorem linked_iff_from : Linked c d l ↔ LinkedFrom c (c d) l := by cases l <;> rfl

theorem LinkedFrom.congr {c' : Cells η α} {o : Option α} (h : LinkedFrom c o l)
    (hl : ∀ x ∈ l, c' (next x) = c (next x)) : LinkedFrom c' o l := by
  cases l with
  | nil => exact h
  | cons a l =>
    exact ⟨h.1, h.2.congr (hl a List.mem_cons_self) fun x hx => hl x (List.mem_cons_of_mem a hx)⟩

theorem LinkedFrom.eq_nil {o : Option α} (h : LinkedFrom c o l) (ho : o = none) : l = [] := by
  cases l with
  | nil => rfl
  | cons a l => cases ho.symm.trans h.1

/-! ## Which cells a chain goes through -/

theorem endFrom_eq (d : Loc η α) (l : List α) :
    endFrom d l = d ∨ ∃ x ∈ l, endFrom d l = next x := by
  induction l generalizing d with
  | nil => exact .inl rfl
  | cons a l ih =>
    rcases ih (next a) with h | ⟨x, hx, h⟩
    · exact .inr ⟨a, List.mem_cons_self, h⟩
    · exact .inr ⟨x, List.mem_cons_of_mem a hx, h⟩

/-- The cell `d` is not in one of the elements. -/
def Outside (d : Loc η α) (l : List α) : Prop := ∀ x ∈ l, d ≠ next x

theorem outside_head (h : η) (l : List α) : Outside (head h) l := fun _ _ heq => by cases heq

theorem outside_next (h : a ∉ l) : Outside (next a : Loc η α) l := by
  rintro x hx heq
  cases heq
  exact h hx

theorem Outside.mono (h : Outside d l) (hsub : ∀ x ∈ l', x ∈ l) : Outside d l' :=
  fun x hx => h x (hsub x hx)

theorem endFrom_notMem_cellsTo (hd : Outside d l) (hl : l.Nodup) : endFrom d l ∉ cellsTo d l := by
  induction l generalizing d with
  | nil => simp [cellsTo]
  | cons a l ih =>
    obtain ⟨ha, hl⟩ := List.nodup_cons.mp hl
    intro h
    rcases List.mem_cons.mp h with h | h
    · rcases endFrom_eq (next a) l with heq | ⟨x, hx, heq⟩
      · exact hd a List.mem_cons_self (h.symm.trans heq)
      · exact hd x (List.mem_cons_of_mem a hx) (h.symm.trans heq)
    · exact ih (outside_next ha) hl h

theorem ne_endFrom (hne : e ≠ d) (he : Outside e l) : e ≠ endFrom d l := by
  rcases endFrom_eq d l with h | ⟨x, hx, h⟩
  · rw [h]
    exact hne
  · rw [h]
    exact he x hx

/-- What comes after some elements does not go through the cell behind them again. -/
theorem Outside.endFrom (hd : Outside d l₂) (hl : (l₁ ++ l₂).Nodup) :
    Outside (Chain.endFrom d l₁) l₂ := by
  intro y hy
  rcases endFrom_eq d l₁ with h | ⟨x, hx, h⟩
  · rw [h]
    exact hd y hy
  · rw [h]
    rintro heq
    cases heq
    exact (List.disjoint_of_nodup_append hl) hx hy

/-! ## Stores -/

section Stores

variable [DecidableEq η] [DecidableEq α]

theorem Leads.update (h : Leads c d l) (he : e ∉ cellsTo d l) :
    Leads (Function.update c e v) d l := by
  induction l generalizing d with
  | nil => trivial
  | cons a l ih =>
    obtain ⟨hne, he⟩ := not_or.mp (fun h => he (List.mem_cons.mpr h))
    exact ⟨by rw [Function.update_of_ne (Ne.symm hne)]; exact h.1, ih h.2 he⟩

theorem Linked.update (h : Linked c d l) (hne : e ≠ d) (he : Outside e l) :
    Linked (Function.update c e v) d l := by
  induction l generalizing d with
  | nil =>
    unfold Linked at h ⊢
    rw [Function.update_of_ne (Ne.symm hne)]
    exact h
  | cons a l ih =>
    refine ⟨by rw [Function.update_of_ne (Ne.symm hne)]; exact h.1, ?_⟩
    exact ih h.2 (he a List.mem_cons_self) (he.mono fun x hx => List.mem_cons_of_mem a hx)

/-- Storing to the cell behind some elements changes what comes after them. -/
theorem Linked.rejoin (h : Linked c d (l₁ ++ l₂)) (hd : Outside d l₁) (hl : l₁.Nodup)
    (hrest : Linked (Function.update c (endFrom d l₁) v) (endFrom d l₁) l) :
    Linked (Function.update c (endFrom d l₁) v) d (l₁ ++ l) := by
  obtain ⟨hleads, -⟩ := linked_append.mp h
  exact linked_append.mpr ⟨hleads.update (endFrom_notMem_cellsTo hd hl), hrest⟩

/-- An element that points to where the cell behind `l₁` points is linked in there. -/
theorem Linked.link (h : Linked c d (l₁ ++ l₂)) (hd : Outside d (l₁ ++ l₂))
    (hl : (l₁ ++ l₂).Nodup) (hx : x ∉ l₁ ++ l₂) (hdx : d ≠ next x)
    (hnext : c (next x) = c (endFrom d l₁)) :
    Linked (Function.update c (endFrom d l₁) (some x)) d (l₁ ++ x :: l₂) := by
  have hd₁ : Outside d l₁ := hd.mono fun y hy => List.mem_append_left l₂ hy
  have hd₂ : Outside d l₂ := hd.mono fun y hy => List.mem_append_right l₁ hy
  have hx₁ : x ∉ l₁ := fun hy => hx (List.mem_append_left l₂ hy)
  have hne : endFrom d l₁ ≠ next x := Ne.symm (ne_endFrom (Ne.symm hdx) (outside_next hx₁))
  refine h.rejoin hd₁ hl.of_append_left ⟨Function.update_self .., ?_⟩
  have hrest := (linked_append.mp h).2
  have hafter : Linked c (next x) l₂ := by
    cases l₂ with
    | nil => exact hnext.trans hrest
    | cons b l => exact ⟨hnext.trans hrest.1, hrest.2⟩
  exact hafter.update hne (Outside.endFrom hd₂ hl)

/-- The cell behind `l₁` gets what is in the element that it points to. -/
theorem Linked.unlink (h : Linked c d (l₁ ++ x :: l₂)) (hd : Outside d (l₁ ++ x :: l₂))
    (hl : (l₁ ++ x :: l₂).Nodup) :
    Linked (Function.update c (endFrom d l₁) (c (next x))) d (l₁ ++ l₂) := by
  have hd₁ : Outside d l₁ := hd.mono fun y hy => List.mem_append_left _ hy
  have hd₂ : Outside d (x :: l₂) := hd.mono fun y hy => List.mem_append_right l₁ hy
  have hend : Outside (endFrom d l₁) (x :: l₂) := Outside.endFrom hd₂ hl
  refine h.rejoin hd₁ hl.of_append_left ?_
  have hrest : Linked c (next x) l₂ := (linked_append.mp h).2.2
  have hne : endFrom d l₁ ≠ next x := hend x List.mem_cons_self
  have hout : Outside (endFrom d l₁) l₂ := hend.mono fun y hy => List.mem_cons_of_mem x hy
  cases l₂ with
  | nil =>
    unfold Linked at hrest ⊢
    rw [Function.update_self]
    exact hrest
  | cons b l =>
    exact ⟨by rw [Function.update_self]; exact hrest.1,
      hrest.2.update (hout b List.mem_cons_self) (hout.mono fun y hy => List.mem_cons_of_mem b hy)⟩

end Stores

/-! ## Several lists -/

/-- The lists of the heads that are in use. -/
abbrev Lists (η α : Type) := η → Option (List α)

/-- No element is twice in the lists. -/
structure Separate (q : Lists η α) : Prop where
  nodup : ∀ h l, q h = some l → l.Nodup
  unique : ∀ h h' l l' x, q h = some l → q h' = some l' → x ∈ l → x ∈ l' → h = h'

/-- The chains in the memory are the lists. -/
def Holds (c : Cells η α) (q : Lists η α) : Prop := ∀ h l, q h = some l → Linked c (head h) l

/-- The element is in no list. -/
def Fresh (q : Lists η α) (x : α) : Prop := ∀ h l, q h = some l → x ∉ l

variable {q : Lists η α} {h h' : η}

/-- The cell behind some elements of a list is in no other list. -/
theorem Separate.elsewhere (hs : Separate q) (hq : q h = some l) (hsub : ∀ x ∈ l₁, x ∈ l)
    (hne : h' ≠ h) (hq' : q h' = some l') :
    endFrom (head h) l₁ ≠ head h' ∧ Outside (endFrom (head h) l₁) l' := by
  have hhead : (head h : Loc η α) ≠ head h' := fun heq => hne (Loc.head.inj heq).symm
  rcases endFrom_eq (head h : Loc η α) l₁ with heq | ⟨x, hx, heq⟩
  · rw [heq]
    exact ⟨hhead, outside_head h l'⟩
  · rw [heq]
    have hx' : x ∉ l' := fun hx' => hne (hs.unique h' h l' l x hq' hq hx' (hsub x hx))
    exact ⟨by simp, outside_next hx'⟩

theorem Holds.split (hc : Holds c q) (hq : q h = some (l₁ ++ l₂)) :
    Linked c (endFrom (head h) l₁) l₂ :=
  (linked_append.mp (hc h _ hq)).2

/-- What the last cell before some elements of a list holds. -/
theorem Holds.cell_cons (hc : Holds c q) (hq : q h = some (l₁ ++ a :: l₂)) :
    c (endFrom (head h) l₁) = some a :=
  (hc.split hq).1

/-- What an element of a list points to. -/
theorem Holds.cell_next (hc : Holds c q) (hq : q h = some (l₁ ++ a :: l₂)) :
    Linked c (next a) l₂ :=
  (hc.split hq).2

section Change

variable [DecidableEq η]

/-- A list gets other elements, which are new or were in it. -/
theorem Separate.set (hs : Separate q) (hl : l.Nodup)
    (hsub : ∀ x ∈ l, (∃ l', q h = some l' ∧ x ∈ l') ∨ Fresh q x) :
    Separate (Function.update q h (some l)) where
  nodup h' l' hq := by
    by_cases hne : h' = h
    · subst hne
      rw [Function.update_self] at hq
      exact Option.some.inj hq ▸ hl
    · rw [Function.update_of_ne hne] at hq
      exact hs.nodup h' l' hq
  unique := by
    -- an element of the new list is in no other one
    have hnot : ∀ g l' x, g ≠ h → q g = some l' → x ∈ l → x ∉ l' := by
      intro g l' x hne hg hx hx'
      rcases hsub x hx with ⟨old, hold, hmem⟩ | hfresh
      · exact hne (hs.unique g h l' old x hg hold hx' hmem)
      · exact hfresh g l' hg hx'
    intro g g' k k' x hg hg' hx hx'
    by_cases hne : g = h <;> by_cases hne' : g' = h
    · rw [hne, hne']
    · subst hne
      rw [Function.update_self] at hg
      rw [Function.update_of_ne hne'] at hg'
      cases hg
      exact absurd hx' (hnot g' k' x hne' hg' hx)
    · subst hne'
      rw [Function.update_self] at hg'
      rw [Function.update_of_ne hne] at hg
      cases hg'
      exact absurd hx (hnot g k x hne hg hx')
    · rw [Function.update_of_ne hne] at hg
      rw [Function.update_of_ne hne'] at hg'
      exact hs.unique g g' k k' x hg hg' hx hx'

theorem Separate.drop (hs : Separate q) (h : η) : Separate (Function.update q h none) where
  nodup h' l hq := by
    by_cases hne : h' = h
    · subst hne
      simp at hq
    · rw [Function.update_of_ne hne] at hq
      exact hs.nodup h' l hq
  unique g g' k k' x hg hg' hx hx' := by
    by_cases hne : g = h
    · subst hne
      simp at hg
    by_cases hne' : g' = h
    · subst hne'
      simp at hg'
    rw [Function.update_of_ne hne] at hg
    rw [Function.update_of_ne hne'] at hg'
    exact hs.unique g g' k k' x hg hg' hx hx'

/-- The elements of a list are new when the head gets another one. -/
theorem Separate.fresh (hs : Separate q) (hq : q h = some l) {o : Option (List α)}
    (ho : ∀ l', o = some l' → x ∉ l') (hx : x ∈ l) : Fresh (Function.update q h o) x := by
  intro g k hg
  by_cases hne : g = h
  · subst hne
    rw [Function.update_self] at hg
    exact ho k hg
  · rw [Function.update_of_ne hne] at hg
    exact fun hk => hne (hs.unique g h k l x hg hq hk hx)

theorem Separate.insert (hs : Separate q) (hq : q h = some (l₁ ++ l₂)) (hx : Fresh q x) :
    Separate (Function.update q h (some (l₁ ++ x :: l₂))) := by
  refine hs.set (List.nodup_middle.mpr (List.nodup_cons.mpr ⟨hx h _ hq, hs.nodup h _ hq⟩)) ?_
  intro y hy
  rcases List.mem_append.mp hy with hy | hy
  · exact .inl ⟨_, hq, List.mem_append_left l₂ hy⟩
  · rcases List.mem_cons.mp hy with rfl | hy
    · exact .inr hx
    · exact .inl ⟨_, hq, List.mem_append_right l₁ hy⟩

theorem Separate.remove (hs : Separate q) (hq : q h = some (l₁ ++ x :: l₂)) :
    Separate (Function.update q h (some (l₁ ++ l₂))) := by
  refine hs.set (List.nodup_cons.mp (List.nodup_middle.mp (hs.nodup h _ hq))).2 fun y hy => ?_
  rcases List.mem_append.mp hy with hy | hy
  · exact .inl ⟨_, hq, List.mem_append_left _ hy⟩
  · exact .inl ⟨_, hq, List.mem_append_right l₁ (List.mem_cons_of_mem x hy)⟩

/-! An exchange takes both heads out of use, and gives each of them the elements of the other. -/

/-- Without the two heads their elements are new. -/
theorem Separate.fresh_without (hs : Separate q) (h₁ : q h = some l₁) (h₂ : q h' = some l₂)
    (hx : x ∈ l₁ ∨ x ∈ l₂) :
    Fresh (Function.update (Function.update q h none) h' none) x := by
  intro g k hg hk
  have hne₂ : g ≠ h' := by
    rintro rfl
    simp at hg
  rw [Function.update_of_ne hne₂] at hg
  have hne₁ : g ≠ h := by
    rintro rfl
    simp at hg
  rw [Function.update_of_ne hne₁] at hg
  rcases hx with hx | hx
  · exact hne₁ (hs.unique g h k l₁ x hg h₁ hk hx)
  · exact hne₂ (hs.unique g h' k l₂ x hg h₂ hk hx)

/-- When the first head has the elements of the second one, its own are still new. -/
theorem Separate.fresh_exchange (hs : Separate q) (h₁ : q h = some l₁) (h₂ : q h' = some l₂)
    (hx : x ∈ l₁) :
    Fresh (Function.update (Function.update (Function.update (Function.update q h none) h' none) h
      (some l₂)) h' none) x := by
  intro g k hg
  have hne₂ : g ≠ h' := by
    rintro rfl
    simp at hg
  rw [Function.update_of_ne hne₂] at hg
  by_cases hg₁ : g = h
  · subst hg₁
    rw [Function.update_self] at hg
    cases hg
    exact fun hk => hne₂ (hs.unique g h' l₁ l₂ x h₁ h₂ hx hk)
  · rw [Function.update_of_ne hg₁] at hg
    exact hs.fresh_without h₁ h₂ (.inl hx) g k hg

theorem exchange_eq (q : Lists η α) (h h' : η) (l₁ l₂ : List α) :
    Function.update (Function.update (Function.update (Function.update (Function.update q h none)
      h' none) h (some l₂)) h' none) h' (some l₁) =
        Function.update (Function.update q h (some l₂)) h' (some l₁) := by
  funext g
  by_cases hg' : g = h'
  · simp [hg']
  by_cases hg : g = h
  · subst hg
    simp [hg']
  · simp [hg, hg']

theorem Holds.drop (hc : Holds c q) (h : η) : Holds c (Function.update q h none) := by
  intro g k hg
  by_cases hne : g = h
  · subst hne
    simp at hg
  · rw [Function.update_of_ne hne] at hg
    exact hc g k hg

variable [DecidableEq α]

/-- A store that no other list goes through. -/
theorem Holds.set (hc : Holds c q)
    (hother : ∀ h' l', h' ≠ h → q h' = some l' → e ≠ head h' ∧ Outside e l')
    (hnew : Linked (Function.update c e v) (head h) l) :
    Holds (Function.update c e v) (Function.update q h (some l)) := by
  intro g k hg
  by_cases hne : g = h
  · subst hne
    rw [Function.update_self] at hg
    exact Option.some.inj hg ▸ hnew
  · rw [Function.update_of_ne hne] at hg
    obtain ⟨hfirst, hout⟩ := hother g k hne hg
    exact (hc g k hg).update hfirst hout

/-- A store to an element that is in no list. -/
theorem Holds.fill (hc : Holds c q) (hx : Fresh q x) (v : Option α) :
    Holds (Function.update c (next x) v) q := by
  intro g k hg
  exact (hc g k hg).update (fun heq => by cases heq) (outside_next (hx g k hg))

theorem Holds.link (hc : Holds c q) (hs : Separate q) (hq : q h = some (l₁ ++ l₂))
    (hx : Fresh q x) (hnext : c (next x) = c (endFrom (head h) l₁)) :
    Holds (Function.update c (endFrom (head h) l₁) (some x))
      (Function.update q h (some (l₁ ++ x :: l₂))) :=
  hc.set (fun _ _ hne hq' => hs.elsewhere hq (fun _ hy => List.mem_append_left l₂ hy) hne hq')
    ((hc h _ hq).link (outside_head h _) (hs.nodup h _ hq) (hx h _ hq) (fun heq => by cases heq)
      hnext)

theorem Holds.unlink (hc : Holds c q) (hs : Separate q) (hq : q h = some (l₁ ++ x :: l₂)) :
    Holds (Function.update c (endFrom (head h) l₁) (c (next x)))
      (Function.update q h (some (l₁ ++ l₂))) :=
  hc.set (fun _ _ hne hq' => hs.elsewhere hq (fun _ hy => List.mem_append_left _ hy) hne hq')
    ((hc h _ hq).unlink (outside_head h _) (hs.nodup h _ hq))

end Change

end ConcurrencyKit.Chain
