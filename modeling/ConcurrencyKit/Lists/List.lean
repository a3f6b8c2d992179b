import ConcurrencyKit.Lists.Model

/-!
# What `CK_LIST` represents

A list is the list of the elements that its pointers lead through, and `cle_prev` of every element
is the address of the pointer that points to it. Every operation keeps this, and does to the lists
of elements what its name says.
-/

namespace ConcurrencyKit

open Chain (Loc Cells Lists Linked endFrom Separate Holds Fresh)
open Chain.Loc (head next)

variable {η α : Type}

namespace CkList

/-- From the cell at `d` on, the elements know the cells that point to them. -/
def Back (p : α → Loc η α) : Loc η α → List α → Prop
  | _, [] => True
  | d, a :: l => p a = d ∧ Back p (next a) l

variable {p : α → Loc η α} {d : Loc η α} {l l₁ l₂ : List α} {x y : α}

theorem back_append : Back p d (l₁ ++ l₂) ↔ Back p d l₁ ∧ Back p (endFrom d l₁) l₂ := by
  induction l₁ generalizing d with
  | nil => exact ⟨fun h => ⟨trivial, h⟩, fun h => h.2⟩
  | cons a l ih =>
    constructor
    · rintro ⟨ha, h⟩
      obtain ⟨hfirst, hrest⟩ := ih.mp h
      exact ⟨⟨ha, hfirst⟩, hrest⟩
    · rintro ⟨⟨ha, hfirst⟩, hrest⟩
      exact ⟨ha, ih.mpr ⟨hfirst, hrest⟩⟩

/-- Only what the elements themselves say matters. -/
theorem Back.congr {p' : α → Loc η α} (h : Back p d l) (hl : ∀ x ∈ l, p' x = p x) :
    Back p' d l := by
  induction l generalizing d with
  | nil => trivial
  | cons a l ih =>
    exact ⟨(hl a List.mem_cons_self).trans h.1,
      ih h.2 fun x hx => hl x (List.mem_cons_of_mem a hx)⟩

/-- The element behind some others knows the cell behind them. -/
theorem Back.cell (h : Back p d (l₁ ++ x :: l₂)) : p x = endFrom d l₁ := (back_append.mp h).2.1

variable [DecidableEq η] [DecidableEq α] {m : Mem η α} {q : Lists η α} {h h' : η}

/-- What an operation does to the lists. Elements that are inserted are in no list, and the ones
that an operation is told of are in a list. A head that another list has been moved from is not in
use. -/
inductive Next : Lists η α → Op η α → Lists η α → Prop
  | init {q : Lists η α} (h : η) : Next q (.init h) (Function.update q h (some []))
  | insertAfter {q : Lists η α} {h : η} {l₁ l₂ : List α} {a x : α}
      (hq : q h = some (l₁ ++ a :: l₂)) (hx : Fresh q x) :
      Next q (.insertAfter a x) (Function.update q h (some (l₁ ++ a :: x :: l₂)))
  | insertBefore {q : Lists η α} {h : η} {l₁ l₂ : List α} {a x : α}
      (hq : q h = some (l₁ ++ a :: l₂)) (hx : Fresh q x) :
      Next q (.insertBefore a x) (Function.update q h (some (l₁ ++ x :: a :: l₂)))
  | insertHead {q : Lists η α} {h : η} {l : List α} {x : α} (hq : q h = some l) (hx : Fresh q x) :
      Next q (.insertHead h x) (Function.update q h (some (x :: l)))
  | remove {q : Lists η α} {h : η} {l₁ l₂ : List α} {x : α} (hq : q h = some (l₁ ++ x :: l₂)) :
      Next q (.remove x) (Function.update q h (some (l₁ ++ l₂)))
  | move {q : Lists η α} {head1 head2 : η} {l : List α} (hq : q head2 = some l) :
      Next q (.move head1 head2)
        (Function.update (Function.update q head2 none) head1 (some l))
  | swap {q : Lists η α} {head1 head2 : η} {l₁ l₂ : List α} (h₁ : q head1 = some l₁)
      (h₂ : q head2 = some l₂) :
      Next q (.swap head1 head2)
        (Function.update (Function.update q head1 (some l₂)) head2 (some l₁))

/-- The memory holds the lists. -/
structure Represents (m : Mem η α) (q : Lists η α) : Prop where
  separate : Separate q
  holds : Holds m.cell q
  back : ∀ h l, q h = some l → Back m.prev (head h) l

/-- An operation can be carried out, and does to the lists what it should do. -/
def Carries (m : Mem η α) (op : Op η α) (q : Lists η α) : Prop :=
  ∃ m', (script m op).run m = some m' ∧ Represents m' q

/-! ## One element -/

/-- The first of some elements gets another cell before it. -/
def repair (p : α → Loc η α) (d : Loc η α) : List α → α → Loc η α
  | [] => p
  | a :: _ => Function.update p a d

omit [DecidableEq η] in
theorem repair_of_notMem (hx : x ∉ l) : repair p d l x = p x := by
  cases l with
  | nil => rfl
  | cons a l => exact Function.update_of_ne (List.ne_of_not_mem_cons hx) ..

omit [DecidableEq η] in
theorem Back.repair {e : Loc η α} (h : Back p e l) (hl : l.Nodup) :
    Back (CkList.repair p d l) d l := by
  cases l with
  | nil => trivial
  | cons a l =>
    refine ⟨Function.update_self .., h.2.congr fun x hx => ?_⟩
    exact Function.update_of_ne (ne_of_mem_of_not_mem hx (List.nodup_cons.mp hl).1) ..

/-- The memory after an element has been linked in at a cell. -/
def link (d : Loc η α) (x : α) (l₂ : List α) (m : Mem η α) : Mem η α where
  cell := Function.update (Function.update m.cell (next x) (m.cell d)) d (some x)
  prev := repair (Function.update m.prev x d) (next x) l₂

/-- The memory after the element behind a cell has been linked out. -/
def unlink (d : Loc η α) (x : α) (l₂ : List α) (m : Mem η α) : Mem η α where
  cell := Function.update m.cell d (m.cell (next x))
  prev := repair m.prev d l₂

theorem Represents.link (hr : Represents m q) (hq : q h = some (l₁ ++ l₂)) (hx : Fresh q x) :
    Represents (CkList.link (endFrom (head h) l₁) x l₂ m)
      (Function.update q h (some (l₁ ++ x :: l₂))) where
  separate := hr.separate.insert hq hx
  holds := by
    have hx₁ : x ∉ l₁ := fun hmem => hx h _ hq (List.mem_append_left l₂ hmem)
    have hne : (next x : Loc η α) ≠ endFrom (head h) l₁ :=
      Chain.ne_endFrom (by simp) (Chain.outside_next hx₁)
    refine (hr.holds.fill hx _).link hr.separate hq hx ?_
    rw [Function.update_self, Function.update_of_ne hne.symm]
  back h' k hk := by
    have hnodup := hr.separate.nodup h _ hq
    have hsame : ∀ y, y ≠ x → Function.update m.prev x (endFrom (head h) l₁) y = m.prev y :=
      fun y hy => Function.update_of_ne hy ..
    by_cases hne : h' = h
    · subst hne
      rw [Function.update_self] at hk
      cases hk
      obtain ⟨hfirst, hrest⟩ := back_append.mp (hr.back h' _ hq)
      have hnot : x ∉ l₁ ++ l₂ := hx h' _ hq
      have hdisj := List.disjoint_of_nodup_append hnodup
      refine back_append.mpr ⟨hfirst.congr fun y hy => ?_, ?_, ?_⟩
      · exact (repair_of_notMem (hdisj hy)).trans
          (hsame y fun heq => hnot (heq ▸ List.mem_append_left l₂ hy))
      · exact (repair_of_notMem fun hmem => hnot (List.mem_append_right l₁ hmem)).trans
          (Function.update_self ..)
      · refine Back.repair (hrest.congr fun y hy => ?_) hnodup.of_append_right
        exact hsame y fun heq => hnot (heq ▸ List.mem_append_right l₁ hy)
    · rw [Function.update_of_ne hne] at hk
      refine (hr.back h' k hk).congr fun y hy => ?_
      have hy₂ : y ∉ l₂ := fun hmem =>
        hne (hr.separate.unique h' h k _ y hk hq hy (List.mem_append_right l₁ hmem))
      exact (repair_of_notMem hy₂).trans (hsame y fun heq => hx h' k hk (heq ▸ hy))

theorem Represents.unlink (hr : Represents m q) (hq : q h = some (l₁ ++ x :: l₂)) :
    Represents (CkList.unlink (endFrom (head h) l₁) x l₂ m)
      (Function.update q h (some (l₁ ++ l₂))) where
  separate := hr.separate.remove hq
  holds := hr.holds.unlink hr.separate hq
  back h' k hk := by
    have hnodup := hr.separate.nodup h _ hq
    by_cases hne : h' = h
    · subst hne
      rw [Function.update_self] at hk
      cases hk
      obtain ⟨hfirst, -, hrest⟩ := back_append.mp (hr.back h' _ hq)
      have hdisj := List.disjoint_of_nodup_append hnodup
      refine back_append.mpr ⟨hfirst.congr fun y hy => ?_, ?_⟩
      · exact repair_of_notMem fun hmem => hdisj hy (List.mem_cons_of_mem x hmem)
      · exact hrest.repair hnodup.of_append_right.of_cons
    · rw [Function.update_of_ne hne] at hk
      refine (hr.back h' k hk).congr fun y hy => repair_of_notMem fun hmem => hne ?_
      exact hr.separate.unique h' h k _ y hk hq hy
        (List.mem_append_right l₁ (List.mem_cons_of_mem x hmem))

omit [DecidableEq η] in
/-- The store to the element behind the cell at `e`. -/
theorem setPrevOf_eq {e : Loc η α} (hl : Linked m.cell e l) (d : Loc η α) :
    setPrevOf e d m = some { m with prev := repair m.prev d l } := by
  cases l with
  | nil => simp [setPrevOf, show m.cell e = none from hl, repair]
  | cons a l => simp [setPrevOf, hl.1, repair, setPrev]

/-! ## Whole lists -/

/-- The memory after a head has been given a chain. -/
def take (h : η) (v : Option α) (l : List α) (m : Mem η α) : Mem η α where
  cell := Function.update m.cell (head h) v
  prev := repair m.prev (head h) l

/-- A head that gets a chain of elements which are in no other list. -/
theorem Represents.take {v : Option α} {e : Loc η α} (hr : Represents m q) (hl : l.Nodup)
    (hfresh : ∀ x ∈ l, Fresh q x)
    (hlinked : Linked (Function.update m.cell (head h) v) (head h) l) (hback : Back m.prev e l) :
    Represents (CkList.take h v l m) (Function.update q h (some l)) where
  separate := hr.separate.set hl fun x hx => .inr (hfresh x hx)
  holds := hr.holds.set (fun h' l' hne _ => ⟨by simpa using Ne.symm hne, Chain.outside_head h l'⟩)
    hlinked
  back h' k hk := by
    by_cases hne : h' = h
    · subst hne
      rw [Function.update_self] at hk
      cases hk
      exact hback.repair hl
    · rw [Function.update_of_ne hne] at hk
      exact (hr.back h' k hk).congr fun y hy =>
        repair_of_notMem fun hmem => hfresh y hmem h' k hk hy

omit [DecidableEq α] in
/-- A head goes out of use. -/
theorem Represents.drop (hr : Represents m q) (h : η) :
    Represents m (Function.update q h none) where
  separate := hr.separate.drop h
  holds := hr.holds.drop h
  back h' k hk := by
    by_cases hne : h' = h
    · subst hne
      simp at hk
    · rw [Function.update_of_ne hne] at hk
      exact hr.back h' k hk

theorem Represents.init (hr : Represents m q) (h : η) :
    Represents (CkList.take h none [] m) (Function.update q h (some [])) := by
  refine hr.take (e := head h) List.nodup_nil (by simp) ?_ trivial
  exact Function.update_self ..

/-- The memory after a head has been given the chain of another one. -/
theorem Represents.move {head1 head2 : η} (hr : Represents m q) (hq : q head2 = some l) :
    Represents (CkList.take head1 (m.cell (head head2)) l m)
      (Function.update (Function.update q head2 none) head1 (some l)) := by
  refine (hr.drop head2).take (hr.separate.nodup _ _ hq)
    (fun x hx => hr.separate.fresh hq (by simp) hx) ?_ (hr.back _ _ hq)
  refine (hr.holds _ _ hq).copy (Function.update_self ..) fun x _ => ?_
  exact Function.update_of_ne (by simp) ..

theorem Represents.swap {head1 head2 : η} (hr : Represents m q) (h₁ : q head1 = some l₁)
    (h₂ : q head2 = some l₂) :
    Represents
      (CkList.take head2 (m.cell (head head1)) l₁ (CkList.take head1 (m.cell (head head2)) l₂ m))
      (Function.update (Function.update q head1 (some l₂)) head2 (some l₁)) := by
  have hdrop := (hr.drop head1).drop head2
  have hone := hdrop.take (h := head1) (l := l₂) (v := m.cell (head head2))
    (hr.separate.nodup _ _ h₂) (fun x hx => hr.separate.fresh_without h₁ h₂ (.inr hx))
    ((hr.holds _ _ h₂).copy (Function.update_self ..) fun x _ =>
      Function.update_of_ne (by simp) ..)
    (hr.back _ _ h₂)
  have hcells : ∀ x, Function.update (Function.update m.cell (head head1) (m.cell (head head2)))
      (head head2) (m.cell (head head1)) (next x) = m.cell (next x) := by
    intro x
    rw [Function.update_of_ne (by simp), Function.update_of_ne (by simp)]
  have hback : Back (repair m.prev (head head1) l₂) (head head1) l₁ := by
    by_cases hne : head1 = head2
    case pos =>
      obtain rfl : l₁ = l₂ := Option.some.inj (h₁.symm.trans (hne ▸ h₂))
      exact (hr.back _ _ h₁).repair (hr.separate.nodup _ _ h₁)
    case neg =>
      exact (hr.back _ _ h₁).congr fun x hx => repair_of_notMem fun hx₂ =>
        hne (hr.separate.unique _ _ l₁ l₂ x h₁ h₂ hx hx₂)
  have htwo := (hone.drop head2).take (h := head2) (l := l₁) (v := m.cell (head head1))
    (hr.separate.nodup _ _ h₁) (fun x hx => hr.separate.fresh_exchange h₁ h₂ hx)
    ((hr.holds _ _ h₁).copy (Function.update_self ..) fun x _ => hcells x) hback
  rwa [Chain.exchange_eq] at htwo

/-! ## Every operation -/

theorem insertAfter_run {l₁ l₂ : List α} {a x : α} (hr : Represents m q)
    (hq : q h = some (l₁ ++ a :: l₂)) (hx : Fresh q x) :
    (script m (.insertAfter a x)).run m = some (link (next a) x l₂ m) := by
  have hnot : x ∉ a :: l₂ := fun hmem => hx h _ hq (List.mem_append_right l₁ hmem)
  have hne : (next x : Loc η α) ≠ next a := by
    simpa using List.ne_of_not_mem_cons hnot
  have hlinked := (hr.holds.cell_next hq).update (v := m.cell (next a)) hne
    (Chain.outside_next (List.not_mem_of_not_mem_cons hnot))
  simp only [script, Script.run, store, setPrev, Option.bind_some]
  rw [setPrevOf_eq (l := l₂) hlinked]
  rfl

theorem insertBefore_run {l₁ l₂ : List α} {a x : α} (hr : Represents m q)
    (hq : q h = some (l₁ ++ a :: l₂)) (hx : Fresh q x) :
    (script m (.insertBefore a x)).run m = some (link (endFrom (head h) l₁) x (a :: l₂) m) := by
  have hne : a ≠ x := fun heq => hx h _ hq (heq ▸ List.mem_append_right l₁ List.mem_cons_self)
  have hprev : m.prev a = endFrom (head h) l₁ := (hr.back h _ hq).cell
  have hcell : m.cell (endFrom (head h) l₁) = some a := hr.holds.cell_cons hq
  simp only [script, Script.run, store, setPrev, Option.bind_some, Function.update_of_ne hne,
    hprev, link, hcell, repair]

theorem insertHead_run {x : α} (hr : Represents m q) (hq : q h = some l) (hx : Fresh q x) :
    (script m (.insertHead h x)).run m = some (link (head h) x l m) := by
  have hlinked := hr.holds h l hq
  have hne : (head h : Loc η α) ≠ next x := by simp
  cases l with
  | nil =>
    have hnone : m.cell (head h) = none := hlinked
    simp [script, Script.run, store, setPrev, hnone, link, repair]
  | cons a l =>
    have hax : a ≠ x := fun heq => hx h _ hq (heq ▸ List.mem_cons_self)
    simp [script, Script.run, store, setPrev, hlinked.1, link, repair,
      Function.update_comm hax]

theorem remove_run {l₁ l₂ : List α} {x : α} (hr : Represents m q)
    (hq : q h = some (l₁ ++ x :: l₂)) :
    (script m (.remove x)).run m = some (unlink (endFrom (head h) l₁) x l₂ m) := by
  have hprev : m.prev x = endFrom (head h) l₁ := (hr.back h _ hq).cell
  have hout : Chain.Outside (endFrom (head h : Loc η α) l₁) (x :: l₂) :=
    Chain.Outside.endFrom (Chain.outside_head h _) (hr.separate.nodup h _ hq)
  have hlinked := (hr.holds.cell_next hq).update (v := m.cell (next x))
    (hout x List.mem_cons_self) (hout.mono fun y hy => List.mem_cons_of_mem x hy)
  simp only [script, Script.run, store, Option.bind_some, hprev]
  rw [setPrevOf_eq (l := l₂) hlinked]
  rfl

theorem move_run {head1 head2 : η} (hr : Represents m q) (hq : q head2 = some l) :
    (script m (.move head1 head2)).run m = some (take head1 (m.cell (head head2)) l m) := by
  have hlinked : Linked (Function.update m.cell (head head1) (m.cell (head head2)))
      (head head1) l := (hr.move hq).holds head1 l (Function.update_self ..)
  simp only [script, Script.run, store, Option.bind_some]
  rw [setPrevOf_eq (l := l) hlinked]
  rfl

theorem swap_run {head1 head2 : η} (hr : Represents m q) (h₁ : q head1 = some l₁)
    (h₂ : q head2 = some l₂) :
    (script m (.swap head1 head2)).run m =
      some (take head2 (m.cell (head head1)) l₁ (take head1 (m.cell (head head2)) l₂ m)) := by
  have hholds := (hr.swap h₁ h₂).holds
  have hlist : Function.update (Function.update q head1 (some l₂)) head2 (some l₁) head1 =
      some l₂ := by
    by_cases hne : head1 = head2
    · obtain rfl : l₁ = l₂ := Option.some.inj (h₁.symm.trans (hne ▸ h₂))
      rw [hne, Function.update_self]
    · rw [Function.update_of_ne hne, Function.update_self]
  have hone : Linked (Function.update (Function.update m.cell (head head1) (m.cell (head head2)))
      (head head2) (m.cell (head head1))) (head head1) l₂ := hholds head1 l₂ hlist
  have htwo : Linked (Function.update (Function.update m.cell (head head1) (m.cell (head head2)))
      (head head2) (m.cell (head head1))) (head head2) l₁ :=
    hholds head2 l₁ (Function.update_self ..)
  simp only [script, Script.run, store, Option.bind_some]
  rw [setPrevOf_eq (l := l₂) hone, Option.bind_some, setPrevOf_eq (l := l₁) htwo]
  rfl

theorem carries {q' : Lists η α} {op : Op η α} (hr : Represents m q) (hn : Next q op q') :
    Carries m op q' := by
  cases hn with
  | init h => exact ⟨_, rfl, hr.init h⟩
  | @insertAfter h l₁ l₂ a x hq hx =>
    have hq' : q h = some ((l₁ ++ [a]) ++ l₂) := by simpa using hq
    have hrep := hr.link hq' hx
    rw [Chain.endFrom_concat, List.append_assoc, List.singleton_append] at hrep
    exact ⟨_, insertAfter_run hr hq hx, hrep⟩
  | insertBefore hq hx => exact ⟨_, insertBefore_run hr hq hx, hr.link hq hx⟩
  | @insertHead h l x hq hx =>
    have hq' : q h = some ([] ++ l) := hq
    exact ⟨_, insertHead_run hr hq hx, hr.link hq' hx⟩
  | remove hq => exact ⟨_, remove_run hr hq, hr.unlink hq⟩
  | move hq => exact ⟨_, move_run hr hq, hr.move hq⟩
  | swap h₁ h₂ => exact ⟨_, swap_run hr h₁ h₂, hr.swap h₁ h₂⟩

end CkList

end ConcurrencyKit
