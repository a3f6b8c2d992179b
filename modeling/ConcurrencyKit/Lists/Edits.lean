import ConcurrencyKit.Lists.List
import ConcurrencyKit.Lists.Stailq
import ConcurrencyKit.Misc.Traversal

/-!
# Insertions and removals, one store at a time

Between any two stores of an insertion or a removal the pointers lead through a list. An insertion
prepares its element while nothing leads to it, and one store links it in; a removal links its
element out with one store. The other stores go to fields that a reader does not look at.
-/

namespace ConcurrencyKit

open Chain (Loc Cells Lists Linked endFrom Separate Holds Fresh Change)
open Chain.Loc (head next)

variable {η α : Type} [DecidableEq η] [DecidableEq α]

namespace Script

/-- The stores can be made, and each of them is a change of the list, which is `l'` at the end. -/
def Follows {M : Type} (cells : M → Cells η α) (h : η) :
    Option α → M → List α → Script M → List α → Prop
  | _, _, l, [], l' => l = l'
  | new, m, l, f :: fs, l' =>
    ∃ m₁ new₁ l₁, f m = some m₁ ∧ Change h new (cells m) l new₁ (cells m₁) l₁ ∧
      Follows cells h new₁ m₁ l₁ fs l'

end Script

open Script (Follows)

/-! ## `CK_SLIST` -/

namespace CkSlist

/-- The element that an operation inserts. -/
def Op.inserts : Op η α → Option α
  | .insertAfter _ x | .insertHead _ x | .insertPrevptr _ _ x => some x
  | _ => none

variable {m : Mem η α} {q q' : Lists η α} {h : η} {l l₁ l₂ : List α} {x : α} {d : Loc η α}

/-- The stores of an insertion. -/
theorem follows_link {f g : Mem η α → Option (Mem η α)} (hd : d = endFrom (head h) l₁)
    (hne : d ≠ next x) (hf : f m = some (store (next x) (m d) m))
    (hg : g (store (next x) (m d) m) = some (link d x m)) :
    Follows id h (some x) m (l₁ ++ l₂) [f, g] (l₁ ++ x :: l₂) := by
  refine ⟨_, _, _, hf, .fill .., _, _, _, hg, .link_at hd ?_, rfl⟩
  exact (Function.update_self ..).trans (Function.update_of_ne hne ..).symm

/-- The stores of a removal. -/
theorem follows_removeAt (hr : Represents m q) (hq : q h = some (l₁ ++ x :: l₂)) :
    Follows id h none m (l₁ ++ x :: l₂) (removeAt (endFrom (head h) l₁)) (l₁ ++ l₂) :=
  ⟨unlink (endFrom (head h) l₁) x m, none, l₁ ++ l₂,
    congrArg (Option.map fun b => store _ (m (next b)) m) (hr.holds.cell_cons hq), .unlink, rfl⟩

theorem follows {op : Op η α} {fs : Script (Mem η α)} (hr : Represents m q) (hn : Next q op q')
    (hscript : ∃ n, ∀ fuel, n ≤ fuel → script fuel m op = some fs) :
    ∃ h l l', q h = some l ∧ q' h = some l' ∧ (∀ x, op.inserts = some x → Fresh q x) ∧
      Follows id h op.inserts m l fs l' := by
  obtain ⟨n, hscript⟩ := hscript
  cases hn with
  | @insertAfter h l₁ l₂ a x hq hx =>
    obtain rfl := Option.some.inj (hscript n le_rfl)
    have hne : (next a : Loc η α) ≠ next x := by
      rintro ⟨⟩
      exact hx h _ hq (List.mem_append_right l₁ List.mem_cons_self)
    refine ⟨h, (l₁ ++ [a]) ++ l₂, (l₁ ++ [a]) ++ x :: l₂, by simpa using hq, by simp, ?_,
      follows_link (Chain.endFrom_concat (head h) l₁ a).symm hne rfl rfl⟩
    rintro _ ⟨⟩
    exact hx
  | @insertHead h l x hq hx =>
    obtain rfl := Option.some.inj (hscript n le_rfl)
    refine ⟨h, [] ++ l, [] ++ x :: l, hq, Function.update_self .., ?_,
      follows_link (d := head h) rfl (by simp) rfl rfl⟩
    rintro _ ⟨⟩
    exact hx
  | @insertPrevptr h l₁ l₂ x hq hx =>
    obtain rfl := Option.some.inj (hscript n le_rfl)
    have hx₁ : x ∉ l₁ := fun hmem => hx h _ hq (List.mem_append_left l₂ hmem)
    have hne : endFrom (head h) l₁ ≠ next x :=
      Ne.symm (Chain.ne_endFrom (by simp) (Chain.outside_next hx₁))
    have hcell := hr.cell_eq_head? hq
    refine ⟨h, l₁ ++ l₂, l₁ ++ x :: l₂, hq, Function.update_self .., ?_,
      follows_link rfl hne (by rw [hcell]) rfl⟩
    rintro _ ⟨⟩
    exact hx
  | @removeAfter h l₁ l₂ a x hq =>
    obtain rfl := Option.some.inj (hscript n le_rfl)
    have hq' : q h = some ((l₁ ++ [a]) ++ x :: l₂) := by simpa using hq
    have hfollows := follows_removeAt hr hq'
    rw [Chain.endFrom_concat] at hfollows
    exact ⟨h, _, (l₁ ++ [a]) ++ l₂, hq', by simp, by simp [Op.inserts], hfollows⟩
  | @remove h l₁ l₂ x hq =>
    obtain ⟨k, hremove⟩ := script_remove hr hq
    obtain rfl := Option.some.inj ((hremove (max n k) (le_max_right n k)).symm.trans
      (hscript (max n k) (le_max_left n k)))
    exact ⟨h, _, _, hq, Function.update_self .., by simp [Op.inserts], follows_removeAt hr hq⟩
  | @removeHead h l x hq =>
    obtain rfl := Option.some.inj (hscript n le_rfl)
    have hq' : q h = some ([] ++ x :: l) := hq
    exact ⟨h, _, [] ++ l, hq', Function.update_self .., by simp [Op.inserts],
      follows_removeAt hr hq'⟩
  | @removePrevptr h l₁ l₂ x hq =>
    obtain rfl := Option.some.inj (hscript n le_rfl)
    exact ⟨h, _, _, hq, Function.update_self .., by simp [Op.inserts],
      _, none, _, rfl, .unlink, rfl⟩

end CkSlist

/-! ## `CK_STAILQ` -/

namespace CkStailq

/-- The element that an operation inserts. -/
def Op.inserts : Op η α → Option α
  | .insertAfter _ _ x | .insertHead _ x | .insertTail _ x => some x
  | _ => none

/-- Whether an operation is an insertion or a removal. -/
def Op.edits : Op η α → Bool
  | .init _ | .concat _ _ | .move _ _ | .swap _ _ => false
  | _ => true

variable {m : Mem η α} {q q' : Lists η α} {h : η} {l l₁ l₂ : List α} {x : α} {d : Loc η α}

omit [DecidableEq α] in
/-- A reader does not look at `cstqh_last`. -/
theorem setLastIf_cell {m' : Mem η α} {e : Loc η α} (hm : setLastIf e h d m = some m') :
    m'.cell = m.cell := by
  obtain rfl := Option.some.inj hm
  split <;> rfl

/-- The stores of an insertion, where the last one goes to `cstqh_last`. -/
theorem follows_link {f g k : Mem η α → Option (Mem η α)} {m' : Mem η α}
    (hd : d = endFrom (head h) l₁) (hne : d ≠ next x)
    (hf : f m = some (store (next x) (m.cell d) m))
    (hg : g (store (next x) (m.cell d) m) =
      some (store d (some x) (store (next x) (m.cell d) m)))
    (hk : k (store d (some x) (store (next x) (m.cell d) m)) = some m')
    (hcell : m'.cell = (store d (some x) (store (next x) (m.cell d) m)).cell) :
    Follows Mem.cell h (some x) m (l₁ ++ l₂) [f, g, k] (l₁ ++ x :: l₂) := by
  refine ⟨_, _, _, hf, .fill .., _, _, _, hg, .link_at hd ?_, _, _, _, hk, .same hcell, rfl⟩
  exact (Function.update_self ..).trans (Function.update_of_ne hne ..).symm

/-- The stores of a removal. -/
theorem follows_removeAt (hr : Represents m q) (hq : q h = some (l₁ ++ x :: l₂)) :
    Follows Mem.cell h none m (l₁ ++ x :: l₂) (removeAt h (endFrom (head h) l₁))
      (l₁ ++ l₂) :=
  ⟨store (endFrom (head h) l₁) (m.cell (next x)) m, none, l₁ ++ l₂,
    congrArg (Option.map fun b => store _ (m.cell (next b)) m) (hr.holds.cell_cons hq), .unlink,
    _, none, l₁ ++ l₂, rfl, .same (setLastIf_cell rfl), rfl⟩

theorem follows {op : Op η α} {fs : Script (Mem η α)} (hr : Represents m q) (hn : Next q op q')
    (hedits : op.edits) (hscript : ∃ n, ∀ fuel, n ≤ fuel → script fuel m op = some fs) :
    ∃ h l l', q h = some l ∧ q' h = some l' ∧ (∀ x, op.inserts = some x → Fresh q x) ∧
      Follows Mem.cell h op.inserts m l fs l' := by
  obtain ⟨n, hscript⟩ := hscript
  cases hn with
  | init | concat | move | swap => simp [Op.edits] at hedits
  | @insertAfter h l₁ l₂ a x hq hx =>
    obtain rfl := Option.some.inj (hscript n le_rfl)
    have hne : (next a : Loc η α) ≠ next x := by
      rintro ⟨⟩
      exact hx h _ hq (List.mem_append_right l₁ List.mem_cons_self)
    refine ⟨h, (l₁ ++ [a]) ++ l₂, (l₁ ++ [a]) ++ x :: l₂, by simpa using hq, by simp, ?_,
      follows_link (Chain.endFrom_concat (head h) l₁ a).symm hne rfl rfl rfl
        (setLastIf_cell rfl)⟩
    rintro _ ⟨⟩
    exact hx
  | @insertHead h l x hq hx =>
    obtain rfl := Option.some.inj (hscript n le_rfl)
    refine ⟨h, [] ++ l, [] ++ x :: l, hq, Function.update_self .., ?_,
      follows_link (d := head h) rfl (by simp) rfl rfl rfl (setLastIf_cell rfl)⟩
    rintro _ ⟨⟩
    exact hx
  | @insertTail h l x hq hx =>
    obtain rfl := Option.some.inj (hscript n le_rfl)
    have hlast := hr.last h l hq
    have hne : m.last h ≠ next x := by
      rw [hlast]
      exact Ne.symm (Chain.ne_endFrom (by simp) (Chain.outside_next (hx h l hq)))
    have hnone : m.cell (m.last h) = none := by
      rw [hlast]
      exact (hr.cell_eq_none ((List.append_nil l).symm ▸ hq)).mpr rfl
    refine ⟨h, l ++ [], l ++ [x], by simpa using hq, Function.update_self .., ?_,
      follows_link hlast hne (by rw [hnone]) rfl rfl rfl⟩
    rintro _ ⟨⟩
    exact hx
  | @removeAfter h l₁ l₂ a x hq =>
    obtain rfl := Option.some.inj (hscript n le_rfl)
    have hq' : q h = some ((l₁ ++ [a]) ++ x :: l₂) := by simpa using hq
    have hfollows := follows_removeAt hr hq'
    rw [Chain.endFrom_concat] at hfollows
    exact ⟨h, _, (l₁ ++ [a]) ++ l₂, hq', by simp, by simp [Op.inserts], hfollows⟩
  | @remove h l₁ l₂ x hq =>
    obtain ⟨k, hremove⟩ := script_remove hr hq
    obtain rfl := Option.some.inj ((hremove (max n k) (le_max_right n k)).symm.trans
      (hscript (max n k) (le_max_left n k)))
    exact ⟨h, _, _, hq, Function.update_self .., by simp [Op.inserts], follows_removeAt hr hq⟩
  | @removeHead h l x hq =>
    obtain rfl := Option.some.inj (hscript n le_rfl)
    have hq' : q h = some ([] ++ x :: l) := hq
    exact ⟨h, _, [] ++ l, hq', Function.update_self .., by simp [Op.inserts],
      follows_removeAt hr hq'⟩

end CkStailq

/-! ## `CK_LIST` -/

namespace CkList

/-- The element that an operation inserts. -/
def Op.inserts : Op η α → Option α
  | .insertAfter _ x | .insertBefore _ x | .insertHead _ x => some x
  | _ => none

/-- Whether an operation is an insertion or a removal. -/
def Op.edits : Op η α → Bool
  | .init _ | .move _ _ | .swap _ _ => false
  | _ => true

variable {m : Mem η α} {q q' : Lists η α} {h : η} {l l₁ l₂ : List α} {x : α} {d : Loc η α}

omit [DecidableEq η] in
/-- A reader does not look at `cle_prev`. -/
theorem setPrevOf_cell {m' : Mem η α} {e : Loc η α} (hm : setPrevOf e d m = some m') :
    m'.cell = m.cell := by
  obtain rfl := Option.some.inj hm
  split <;> rfl

theorem follows {op : Op η α} (hr : Represents m q) (hn : Next q op q') (hedits : op.edits) :
    ∃ h l l', q h = some l ∧ q' h = some l' ∧ (∀ x, op.inserts = some x → Fresh q x) ∧
      Follows Mem.cell h op.inserts m l (script m op) l' := by
  cases hn with
  | init | move | swap => simp [Op.edits] at hedits
  | @insertAfter h l₁ l₂ a x hq hx =>
    have hne : (next a : Loc η α) ≠ next x := by
      rintro ⟨⟩
      exact hx h _ hq (List.mem_append_right l₁ List.mem_cons_self)
    let m₁ := setPrev x (next a) (store (next x) (m.cell (next a)) m)
    obtain ⟨m₂, hm₂⟩ : ∃ m₂, setPrevOf (next a) (next x) m₁ = some m₂ := ⟨_, rfl⟩
    have hcell : m₂.cell = m₁.cell := setPrevOf_cell hm₂
    refine ⟨h, (l₁ ++ [a]) ++ l₂, (l₁ ++ [a]) ++ x :: l₂, by simpa using hq, by simp, ?_,
      _, _, _, rfl, .fill .., _, _, _, rfl, .same rfl, m₂, _, _, hm₂, .same hcell, _, _, _, rfl,
      .link_at (Chain.endFrom_concat (head h) l₁ a).symm ?_, rfl⟩
    · rintro _ ⟨⟩
      exact hx
    · rw [hcell]
      exact (Function.update_self ..).trans (Function.update_of_ne hne ..).symm
  | @insertBefore h l₁ l₂ a x hq hx =>
    have hax : a ≠ x := fun heq => hx h _ hq (heq ▸ List.mem_append_right l₁ List.mem_cons_self)
    have hx₁ : x ∉ l₁ := fun hmem => hx h _ hq (List.mem_append_left _ hmem)
    let m₂ := store (next x) (some a) (setPrev x (m.prev a) m)
    have hprev : m₂.prev a = endFrom (head h) l₁ :=
      (Function.update_of_ne hax ..).trans (hr.back h _ hq).cell
    have hne : endFrom (head h) l₁ ≠ next x :=
      Ne.symm (Chain.ne_endFrom (by simp) (Chain.outside_next hx₁))
    refine ⟨h, _, _, hq, Function.update_self .., ?_, _, _, _, rfl, .same rfl, m₂, _, _, rfl,
      .fill .., _, _, _, rfl, .link_at hprev ?_, _, _, _, rfl, .same rfl, rfl⟩
    · rintro _ ⟨⟩
      exact hx
    · rw [hprev]
      refine (Function.update_self ..).trans ?_
      exact ((Function.update_of_ne hne ..).trans (hr.holds.cell_cons hq)).symm
  | @insertHead h l x hq hx =>
    have hne : (head h : Loc η α) ≠ next x := by simp
    let m₁ := store (next x) (m.cell (head h)) m
    have hself : m₁.cell (next x) = m.cell (head h) := Function.update_self ..
    have hother : m₁.cell (head h) = m.cell (head h) :=
      Function.update_of_ne hne (m.cell (head h)) m.cell
    -- the test looks at the copy of the pointer that is followed
    obtain ⟨m₂, hm₂, hcell⟩ : ∃ m₂, (if m₁.cell (next x) ≠ none then
        (m₁.cell (head h)).map fun b => setPrev b (next x) m₁ else some m₁) = some m₂ ∧
          m₂.cell = m₁.cell := by
      rw [hself, hother]
      cases m.cell (head h) with
      | none => exact ⟨m₁, rfl, rfl⟩
      | some b => exact ⟨setPrev b (next x) m₁, rfl, rfl⟩
    refine ⟨h, [] ++ l, [] ++ x :: l, hq, Function.update_self .., ?_, m₁, _, _, rfl, .fill ..,
      m₂, _, _, hm₂, .same hcell, _, _, _, rfl, .link_at rfl ?_, _, _, _, rfl, .same rfl, rfl⟩
    · rintro _ ⟨⟩
      exact hx
    · rw [hcell, hself]
      exact hother.symm
  | @remove h l₁ l₂ x hq =>
    have hprev : m.prev x = endFrom (head h) l₁ := (hr.back h _ hq).cell
    obtain ⟨m₂, hm₂⟩ : ∃ m₂, setPrevOf (next x) (m.prev x)
        (store (m.prev x) (m.cell (next x)) m) = some m₂ := ⟨_, rfl⟩
    refine ⟨h, _, _, hq, Function.update_self .., by simp [Op.inserts], _, none, l₁ ++ l₂, rfl, ?_,
      m₂, none, l₁ ++ l₂, hm₂, .same (setPrevOf_cell hm₂), rfl⟩
    rw [show (store (m.prev x) (m.cell (next x)) m).cell =
      Function.update m.cell (endFrom (head h) l₁) (m.cell (next x)) by rw [← hprev]; rfl]
    exact .unlink

end CkList

end ConcurrencyKit
