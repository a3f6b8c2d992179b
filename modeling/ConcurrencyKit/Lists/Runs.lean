import ConcurrencyKit.Lists.List
import ConcurrencyKit.Lists.Stailq

/-!
# Any sequence of operations

From heads that are initialised, every sequence of operations that makes sense for the lists of
elements can be carried out, and at its end the memory holds the lists that it denotes. The loops
of the removals end; how long they take depends on how long the lists get.
-/

namespace ConcurrencyKit

open Chain (Loc Cells Lists Linked endFrom)
open Chain.Loc (head next)

namespace Script

variable {M O Q : Type}

/-- One operation after the other, each with the script that it has in the memory it finds. -/
def runAll (script : M → O → Option (Script M)) : List O → M → Option M
  | [], m => some m
  | op :: ops, m => (script m op).bind fun fs => (fs.run m).bind (runAll script ops)

/-- What a sequence of operations does when it is known what each one does. -/
inductive Denotes (next : Q → O → Q → Prop) : Q → List O → Q → Prop
  | nil (q : Q) : Denotes next q [] q
  | cons {q q' q'' : Q} {op : O} {ops : List O} (h : next q op q')
      (hs : Denotes next q' ops q'') : Denotes next q (op :: ops) q''

/-- When each operation can be carried out and keeps the memory true to what it stands for, so can
every sequence of them. -/
theorem Denotes.runAll {next : Q → O → Q → Prop} {rep : M → Q → Prop}
    {script : Nat → M → O → Option (Script M)}
    (hstep : ∀ m q op q', rep m q → next q op q' →
      ∃ fs n, (∀ fuel, n ≤ fuel → script fuel m op = some fs) ∧
        ∃ m', fs.run m = some m' ∧ rep m' q')
    {q q' : Q} {ops : List O} (h : Denotes next q ops q') {m : M} (hrep : rep m q) :
    ∃ m' n, (∀ fuel, n ≤ fuel → Script.runAll (script fuel) ops m = some m') ∧ rep m' q' := by
  induction h generalizing m with
  | nil q => exact ⟨m, 0, fun _ _ => rfl, hrep⟩
  | cons hnext _ ih =>
    obtain ⟨fs, n₁, hscript, m₁, hrun, hrep₁⟩ := hstep m _ _ _ hrep hnext
    obtain ⟨m₂, n₂, hrest, hrep₂⟩ := ih hrep₁
    refine ⟨m₂, max n₁ n₂, fun fuel hfuel => ?_, hrep₂⟩
    have h₁ := hscript fuel (le_trans (le_max_left n₁ n₂) hfuel)
    have h₂ := hrest fuel (le_trans (le_max_right n₁ n₂) hfuel)
    simp only [Script.runAll, h₁, hrun, Option.bind_some, h₂]

end Script

variable {η α : Type} [DecidableEq η] [DecidableEq α]

/-- The heads in use have been initialised: `CK_STAILQ_HEAD_INITIALIZER`, `CK_STAILQ_INIT`
(`ck_queue.h:243-244`, `ck_queue.h:283-287`). -/
def CkStailq.Initialized (m : CkStailq.Mem η α) (q : Lists η α) : Prop :=
  ∀ h l, q h = some l → l = [] ∧ m.cell (head h) = none ∧ m.last h = head h

/-- The heads in use have been initialised: `CK_LIST_HEAD_INITIALIZER`, `CK_LIST_INIT`
(`ck_queue.h:374-375`, `ck_queue.h:402-405`). -/
def CkList.Initialized (m : CkList.Mem η α) (q : Lists η α) : Prop :=
  ∀ h l, q h = some l → l = [] ∧ m.cell (head h) = none

omit [DecidableEq η] [DecidableEq α] in
theorem separate_of_empty {q : Lists η α} (hq : ∀ h l, q h = some l → l = []) :
    Chain.Separate q where
  nodup h l hl := hq h l hl ▸ List.nodup_nil
  unique h h' l l' x hl _ hx _ := by
    rw [hq h l hl] at hx
    cases hx

omit [DecidableEq η] [DecidableEq α] in
theorem CkStailq.Initialized.represents {m : CkStailq.Mem η α} {q : Lists η α}
    (hi : CkStailq.Initialized m q) : CkStailq.Represents m q where
  separate := separate_of_empty fun h l hl => (hi h l hl).1
  holds h l hl := by
    obtain ⟨rfl, hcell, -⟩ := hi h l hl
    exact hcell
  last h l hl := by
    obtain ⟨rfl, -, hlast⟩ := hi h l hl
    exact hlast

omit [DecidableEq η] [DecidableEq α] in
theorem CkList.Initialized.represents {m : CkList.Mem η α} {q : Lists η α}
    (hi : CkList.Initialized m q) : CkList.Represents m q where
  separate := separate_of_empty fun h l hl => (hi h l hl).1
  holds h l hl := by
    obtain ⟨rfl, hcell⟩ := hi h l hl
    exact hcell
  back h l hl := by
    obtain ⟨rfl, -⟩ := hi h l hl
    trivial

/-- After any sequence of operations the pointers lead through the elements that the sequence
denotes, `cstqh_last` is the address of the last pointer of its queue, and `cle_prev` of every
element is the address of the pointer that points to the element. -/
theorem queues_represented :
    (∀ (m : CkStailq.Mem η α) (q q' : Lists η α) (ops : List (CkStailq.Op η α)),
      CkStailq.Initialized m q → Script.Denotes CkStailq.Next q ops q' →
      ∃ m' n, (∀ fuel, n ≤ fuel → Script.runAll (CkStailq.script fuel) ops m = some m') ∧
        ∀ h l, q' h = some l → Linked m'.cell (head h) l ∧ m'.last h = endFrom (head h) l) ∧
    (∀ (m : CkList.Mem η α) (q q' : Lists η α) (ops : List (CkList.Op η α)),
      CkList.Initialized m q → Script.Denotes CkList.Next q ops q' →
      ∃ m', Script.runAll (fun m op => some (CkList.script m op)) ops m = some m' ∧
        ∀ h l, q' h = some l → Linked m'.cell (head h) l ∧
          ∀ l₁ x l₂, l = l₁ ++ x :: l₂ →
            m'.prev x = endFrom (head h) l₁ ∧ m'.cell (m'.prev x) = some x) := by
  constructor
  · intro m q q' ops hi hd
    have hstep : ∀ m q op q', CkStailq.Represents m q → CkStailq.Next q op q' →
        CkStailq.Carries m op q' := fun _ _ _ _ => CkStailq.carries (α := α) (η := η)
    obtain ⟨m', n, hrun, hr⟩ := hd.runAll hstep hi.represents
    exact ⟨m', n, hrun, fun h l hl => ⟨hr.holds h l hl, hr.last h l hl⟩⟩
  · intro m q q' ops hi hd
    have hstep : ∀ m q op q', CkList.Represents m q → CkList.Next q op q' →
        ∃ fs n, (∀ fuel : Nat, n ≤ fuel → some (CkList.script m op) = some fs) ∧
          ∃ m', fs.run m = some m' ∧ CkList.Represents (η := η) (α := α) m' q' :=
      fun m _ op _ hr hn => ⟨CkList.script m op, 0, fun _ _ => rfl, CkList.carries hr hn⟩
    obtain ⟨m', n, hrun, hr⟩ := hd.runAll hstep hi.represents
    refine ⟨m', hrun n le_rfl, fun h l hl => ⟨hr.holds h l hl, fun l₁ x l₂ hsplit => ?_⟩⟩
    subst hsplit
    have hprev := (hr.back h _ hl).cell
    exact ⟨hprev, hprev ▸ hr.holds.cell_cons hl⟩

/-- Two queues that are joined, and a list of one element that is exchanged with an empty one. -/
theorem queues_represented_joined :
    (∃ m' n, (∀ fuel, n ≤ fuel →
        Script.runAll (CkStailq.script fuel) [.insertTail false 0, .concat true false]
          (⟨fun _ => none, fun h => head h⟩ : CkStailq.Mem Bool (Fin 2)) = some m') ∧
      m'.cell (head true) = some 0 ∧ m'.last true = next 0 ∧ m'.last false = head false) ∧
    ∃ m', Script.runAll (fun m op => some (CkList.script m op))
        [.insertHead false 0, .swap true false]
        (⟨fun _ => none, fun _ => head false⟩ : CkList.Mem Bool (Fin 2)) = some m' ∧
      m'.prev 0 = head true := by
  have hfresh : Chain.Fresh (fun _ => some [] : Lists Bool (Fin 2)) 0 := by
    rintro h l ⟨⟩
    simp
  -- the queues and the lists after the first operation
  let q : Lists Bool (Fin 2) := Function.update (fun _ => some []) false (some [0])
  constructor
  · have hinsert : CkStailq.Next (fun _ => some []) (.insertTail false 0) q :=
      .insertTail (l := []) rfl hfresh
    have hconcat : CkStailq.Next q (.concat true false) _ := .concat (by decide) rfl rfl
    obtain ⟨m', n, hrun, hl⟩ := (queues_represented (η := Bool) (α := Fin 2)).1
      ⟨fun _ => none, fun h => head h⟩ _ _ _
      (fun _ l hl => ⟨(Option.some.inj hl).symm, rfl, rfl⟩) (.cons hinsert (.cons hconcat (.nil _)))
    have htrue := hl true [0] (by decide)
    exact ⟨m', n, hrun, htrue.1.1, htrue.2, (hl false [] (by decide)).2⟩
  · have hinsert : CkList.Next (fun _ => some []) (.insertHead false 0) q :=
      .insertHead (l := []) rfl hfresh
    have hswap : CkList.Next q (.swap true false) _ := .swap rfl rfl
    obtain ⟨m', hrun, hl⟩ := (queues_represented (η := Bool) (α := Fin 2)).2
      ⟨fun _ => none, fun _ => head false⟩ _ _ _
      (fun _ l hl => ⟨(Option.some.inj hl).symm, rfl⟩) (.cons hinsert (.cons hswap (.nil _)))
    exact ⟨m', hrun, ((hl true [0] (by decide)).2 [] 0 [] rfl).1⟩

end ConcurrencyKit
